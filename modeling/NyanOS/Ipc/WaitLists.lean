import NyanOS.Ipc.Zombie

/-!
# The wait lists of message queues

A task has one link, and it puts itself in front of a list each time it blocks. Only the queue takes
it off again, so the lists are sound as long as nothing else wakes or ends a task that is in one.
-/
namespace NyanOS.Ipc

open Lib Sched Option Function

variable {s t : State} {l : Nat × Side → List Nat} {w w' w₀ : Nat × Side} {q p b : Nat} {name : List Byte}

/-- The task is blocked in a call of a queue that exists, and this is the list of the call. -/
structure State.BlockedAt (s : State) (w : Nat × Side) (p : Nat) : Prop where
  queue : s.queueLive w.1 = true
  live : s.kernel.tasks.live p = true
  state : (s.kernel.tasks.task p).state = .waiting
  call : ∃ c, s.call p = some c ∧ c.place = w

/-- The links from `a` are the list `w`. -/
structure WaitList (s : State) (w : Nat × Side) (a : Nat) (l : List Nat) : Prop where
  seg : Seg (· ≠ 0) s.waitNext a l 0
  blocked : ∀ p ∈ l, s.BlockedAt w p

def Lists (s : State) (l : Nat × Side → List Nat) : Prop := ∀ w, WaitList s w (s.front w) (l w)

/-- The running task is ready, so it is in no list. -/
structure Queued (s : State) : Prop where
  members : ∃ l, Members s.kernel.tasks l
  running : (s.kernel.tasks.task s.curr).state = .ready
  lists : ∃ l, Lists s l

/-! Runs -/

inductive QueueAct
  | sched (op : Op)
  | event (pid : Int)
  | openQueue (name : List Byte) (b : Nat)
  | unlink (name : List Byte)
  | send (q m : Nat) (data : List Byte)
  | receive (q len : Nat)

/-- A task other than pid 0 starts the call or goes on with it. -/
def State.InCall (s : State) (c : Call) : Prop :=
  (s.kernel.tasks.task s.curr).pid ≠ 0 ∧ (s.call s.curr = none ∨ s.call s.curr = some c)

instance (s : State) (c : Call) : Decidable (s.InCall c) := inferInstanceAs (Decidable (_ ∧ (_ ∨ _)))

/-- The calls do not know whether their queue still exists. -/
def queueTo (s : State) : QueueAct → Option State
  | .sched op => actTo s (.sched op)
  | .event pid => actTo s (.event pid)
  | .openQueue name b => actTo s (.openQueue name b)
  | .unlink name => some (mqUnlink s name).1
  | .send q m data =>
    if s.InCall (.send q data) ∧ s.messageLive m = false then some (mqSend s q m data).1 else none
  | .receive q len => if s.InCall (.receive q len) then some (mqReceive s q len).1 else none

/-- No task in a wait list is woken or ended from outside, a queue is unlinked when nobody waits in it,
and a call is made in a queue that exists. -/
def Undisturbed (s : State) : QueueAct → Prop
  | .sched op => ∀ p, Linked s p → ¬ op.wakes s.kernel p ∧ ¬ op.ends s.kernel p
  | .event pid => ∀ p, Linked s p → (s.kernel.tasks.task p).pid ≠ pid
  | .openQueue _ _ => True
  | .unlink name => ∀ q prev, s.find name = some (q, prev) → ∀ d, s.front (q, d) = 0
  | .send q _ _ => s.queueLive q = true
  | .receive q _ => s.queueLive q = true

/-! The lists -/

theorem WaitList.still {a : Nat} {l : List Nat} (h : WaitList s w a l)
    (hp : ∀ p ∈ l, t.waitNext p = s.waitNext p ∧ t.BlockedAt w p) : WaitList t w a l :=
  ⟨h.seg.congr fun p hm => (hp p hm).1, fun p hm => (hp p hm).2⟩

namespace Lists

section
variable (h : Lists s l)
include h

theorem not_mem_of_front (h0 : s.front w = 0) : p ∉ l w := by
  have hseg := (h w).seg
  rw [h0] at hseg
  rw [hseg.unique (seg_nil.mpr rfl) (fun hn => hn rfl) fun hn => hn rfl]
  exact List.not_mem_nil

theorem linked (hp : p ∈ l w) : Linked s p := by
  refine (h w).seg.reach (fun h0 => .front ?_ h0) hp
  exact front_iff.mpr ⟨w, ((h w).blocked p hp).queue, rfl⟩

theorem front_eq_zero (hq : s.queueLive w.1 = false) : s.front w = 0 := by
  have hseg := (h w).seg
  cases hl : l w with
  | nil =>
    rw [hl] at hseg
    exact hseg
  | cons p _ =>
    have hlive := ((h w).blocked p (by simp [hl])).queue
    rw [hq] at hlive
    cases hlive

theorem unique (hp : p ∈ l w) (hp' : p ∈ l w') : w = w' := by
  obtain ⟨c, hc, rfl⟩ := ((h w).blocked p hp).call
  obtain ⟨c', hc', rfl⟩ := ((h w').blocked p hp').call
  rw [some.inj (hc.symm.trans hc')]

theorem nodup (w : Nat × Side) : (l w).Nodup := (h w).seg.nodup fun hn => hn rfl

theorem ne_curr (hr : (s.kernel.tasks.task s.curr).state = .ready) (hp : p ∈ l w) : p ≠ s.curr := by
  rintro rfl
  have hst := ((h w).blocked _ hp).state
  rw [hr] at hst
  cases hst

end

theorem update {a : Nat} {l₀ : List Nat}
    (hf : t.front = update s.front w₀ a) (h₀ : WaitList t w₀ a l₀)
    (h : ∀ w, w ≠ w₀ → WaitList t w (s.front w) (l w)) : Lists t (update l w₀ l₀) := by
  intro w
  rw [hf]
  by_cases hw : w = w₀
  · subst hw
    rw [update_self, update_self]
    exact h₀
  · rw [update_of_ne hw, update_of_ne hw]
    exact h w hw

end Lists

theorem State.BlockedAt.moves {W E : Nat → Prop} (h : s.BlockedAt w p)
    (hmoves : Moves W E s.kernel.tasks t.kernel.tasks) (hW : ¬ W p) (hE : ¬ E p) (hp : p ≠ s.curr)
    (hq : t.queueLive w.1 = true) (hc : t.call p = s.call p) : t.waitNext p = s.waitNext p ∧ t.BlockedAt w p := by
  have hwrites := hmoves.writes p h.live
  have halive := hmoves.alive p hE h.live (by rw [h.state]; rfl)
  refine ⟨hwrites.waitNext, hq, halive.1, hwrites.waiting hW hE hp h.state, ?_⟩
  rw [hc]
  exact h.call

namespace Queued

theorem of_moves {W E : Nat → Prop} (h : Queued s) (hm : ∃ l, Members t.kernel.tasks l)
    (hmoves : Moves W E s.kernel.tasks t.kernel.tasks) (hW : ∀ p, Linked s p → ¬ W p)
    (hE : ∀ p, Linked s p → ¬ E p) (hf : t.front = s.front) (hq : t.queueLive = s.queueLive)
    (hc : ∀ p, s.kernel.tasks.live p = true → p ≠ s.curr → t.call p = s.call p) : Queued t := by
  obtain ⟨l, hl⟩ := h.lists
  refine ⟨hm, hmoves.ready (.inr h.running), l, fun w => hf ▸ (hl w).still fun p hp => ?_⟩
  have hb := (hl w).blocked p hp
  have hne := hl.ne_curr h.running hp
  exact hb.moves hmoves (hW p (hl.linked hp)) (hE p (hl.linked hp)) hne (hq ▸ hb.queue) (hc p hb.live hne)

theorem same_kernel (h : Queued s) (hk : t.kernel = s.kernel) (hf : ∀ w, t.front w = s.front w)
    (hq : ∀ l, Lists s l → ∀ w, ∀ p ∈ l w, t.queueLive w.1 = true)
    (hc : ∀ p, p ≠ s.curr → t.call p = s.call p) : Queued t := by
  obtain ⟨l, hl⟩ := h.lists
  have hcurr : t.curr = s.curr := congrArg (fun k => k.tasks.curr) hk
  refine ⟨hk ▸ h.members, ?_, l, fun w => hf w ▸ (hl w).still fun p hp => ?_⟩
  · rw [hk, hcurr]
    exact h.running
  · obtain ⟨_, hlive, hst, hcall⟩ := (hl w).blocked p hp
    refine ⟨by rw [State.waitNext, hk]; rfl, hq l hl w p hp, hk ▸ hlive, hk ▸ hst, ?_⟩
    rw [hc p (hl.ne_curr h.running hp)]
    exact hcall

theorem push {c : Call} (h : Queued s) (hpid : (s.kernel.tasks.task s.curr).pid ≠ 0)
    (hq : s.queueLive c.place.1 = true) (hlive : t.queueLive = s.queueLive)
    (hcall : ∀ p, p ≠ s.curr → t.call p = s.call p) (hc : t.call s.curr = some c) (hk : t.kernel.tasks = schedBlock
      (s.kernel.tasks.set s.curr fun x => { x with waitNext := s.front c.place }))
    (hf : t.front = update s.front c.place s.curr) : Queued t := by
  obtain ⟨ring, hm⟩ := h.members
  obtain ⟨l, hl⟩ := h.lists
  have hcurr := (hm.members _).mpr hm.curr
  -- the link is set first, then the task blocks
  generalize hs₁ : (s.kernel.tasks.set s.curr fun x => { x with waitNext := s.front c.place }) = s₁ at hk
  have hcalm : Calm s.kernel.tasks s₁ := hs₁ ▸ .set rfl rfl (.inl rfl) (.inl rfl) fun _ => hcurr
  have hm₁ := hm.calm hcalm
  have hself : s₁.task s.curr = { s.kernel.tasks.task s.curr with waitNext := s.front c.place } := by
    rw [← hs₁, Tasks.set_task_self]
  have hother : ∀ p, p ≠ s.curr → s₁.task p = s.kernel.tasks.task p := by
    intro p hp
    rw [← hs₁, Tasks.set_task_of_ne _ _ hp]
  have hcurr₁ : s₁.curr = s.curr := hcalm.curr
  have hpid₁ : (s₁.task s₁.curr).pid ≠ 0 := by
    rw [hcurr₁, hself]
    exact hpid
  have hkeep : Keeps (fun _ => False) (fun _ => False) s₁ t.kernel.tasks ring :=
    hk ▸ .pause hm₁.toRing hpid₁ rfl Task.wakeTick
  have hmoves := hkeep.moves hm₁
  have hlive₁ : ∀ p, s.kernel.tasks.live p = true → s₁.live p = true := fun p hp => hcalm.live ▸ hp
  have hstate : (t.kernel.tasks.task s.curr).state = .waiting := by
    obtain ⟨c', hc'⟩ := Keeps.schedule_eq (s₁.setState s₁.curr .waiting)
    rw [hk, schedBlock, hc', hcurr₁]
    exact congrArg Task.state (Tasks.set_task_self s₁ s.curr fun x => { x with state := .waiting })
  have hnext : ∀ w, ∀ p ∈ l w, t.waitNext p = s.waitNext p ∧ t.BlockedAt w p := by
    intro w p hp
    have hne := hl.ne_curr h.running hp
    obtain ⟨hqueue, hp_live, hst, hp_call⟩ := (hl w).blocked p hp
    have hwrites := hmoves.writes p (hlive₁ p hp_live)
    rw [hother p hne] at hwrites
    refine ⟨hwrites.waitNext, hlive ▸ hqueue, hkeep.live ▸ hlive₁ p hp_live, ?_, ?_⟩
    · exact hwrites.waiting (fun hW => hW) (fun hE => hE) (hcurr₁ ▸ hne) hst
    · rw [hcall p hne]
      exact hp_call
  refine ⟨⟨ring, hkeep.members hm₁⟩, ?_, update l c.place (s.curr :: l c.place), ?_⟩
  · refine hmoves.ready (.inr ?_)
    rw [hcurr₁, hself]
    exact h.running
  · have hwait : t.waitNext s.curr = s.front c.place :=
      (hmoves.writes _ (hlive₁ _ hcurr)).waitNext.trans (congrArg Task.waitNext hself)
    have hold := fun w => (hl w).still (hnext w)
    refine .update hf ⟨⟨rfl, fun h0 => hm.nonzero (h0 ▸ hm.curr), ?_⟩, fun p hp => ?_⟩ fun w _ => hold w
    · rw [hwait]
      exact (hold c.place).seg
    · rcases List.mem_cons.mp hp with rfl | hp
      · exact ⟨hlive ▸ hq, hkeep.live ▸ hlive₁ _ hcurr, hstate, c, hc, rfl⟩
      · exact (hnext _ p hp).2

theorem pop (h : Queued s) (hlive : t.queueLive = s.queueLive)
    (hcall : ∀ p, p ≠ s.curr → t.call p = s.call p) (h0 : s.front w ≠ 0)
    (hk : t.kernel.tasks = s.kernel.tasks.set (s.front w) fun x => { x with state := .ready, waitNext := 0 })
    (hf : t.front = update s.front w (s.waitNext (s.front w))) : Queued t := by
  obtain ⟨ring, hm⟩ := h.members
  obtain ⟨l, hl⟩ := h.lists
  obtain ⟨l₁, hl₁⟩ : ∃ l₁, l w = s.front w :: l₁ := by
    have hseg := (hl w).seg
    cases hlw : l w with
    | nil =>
      rw [hlw] at hseg
      exact absurd hseg h0
    | cons p l₁ =>
      rw [hlw] at hseg
      exact ⟨l₁, by rw [hseg.1]⟩
  have hmem : s.front w ∈ l w := by simp [hl₁]
  have hb := (hl w).blocked _ hmem
  have hseg := (hl w).seg
  have hnd := hl.nodup w
  rw [hl₁] at hseg hnd
  have hcalm : Calm s.kernel.tasks t.kernel.tasks :=
    hk ▸ .set rfl rfl (.inl rfl) (.inr ⟨rfl, by rw [hb.state]; rfl⟩) fun _ => hb.live
  have hnext : ∀ w', ∀ p ∈ l w', p ≠ s.front w → t.waitNext p = s.waitNext p ∧ t.BlockedAt w' p := by
    intro w' p hp hne
    have htask : t.kernel.tasks.task p = s.kernel.tasks.task p := by
      rw [hk, Tasks.set_task_of_ne _ _ hne]
    obtain ⟨hqueue, hp_live, hst, hp_call⟩ := (hl w').blocked p hp
    refine ⟨by rw [State.waitNext, htask]; rfl, hlive ▸ hqueue, hcalm.live ▸ hp_live, htask ▸ hst, ?_⟩
    rw [hcall p (hl.ne_curr h.running hp)]
    exact hp_call
  have hcurr : t.curr = s.curr := hcalm.curr
  refine ⟨⟨ring, hm.calm hcalm⟩, ?_, update l w l₁, .update hf (.still ⟨hseg.2.2, ?_⟩ ?_) ?_⟩
  · rw [hcurr, hk, Tasks.set_task_of_ne _ _ (hl.ne_curr h.running hmem).symm]
    exact h.running
  · intro p hp
    exact (hl w).blocked p (by simp [hl₁, hp])
  · intro p hp
    refine hnext w p (by simp [hl₁, hp]) ?_
    rintro rfl
    exact (List.nodup_cons.mp hnd).1 hp
  · intro w' hw
    refine (hl w').still fun p hp => hnext w' p hp ?_
    rintro rfl
    exact hw (hl.unique hp hmem)

theorem turn (h : Queued s) (hpid : (s.kernel.tasks.task s.curr).pid ≠ 0)
    (hq : s.queueLive q = true) (hlive : t.queueLive = s.queueLive)
    (hcall : ∀ p, p ≠ s.curr → t.call p = s.call p) (he : TurnEffect s t q) : Queued t := by
  cases he with
  | idle hk hf =>
    refine h.same_kernel hk (fun w => by rw [hf]) (fun l hl w p hp => ?_) hcall
    rw [hlive]
    exact ((hl w).blocked p hp).queue
  | push c hc hk hf hcurr =>
    subst hc
    exact h.push hpid hq hlive hcall hcurr hk hf
  | pop d h0 hk hf => exact h.pop hlive hcall h0 hk hf

end Queued

theorem mqOpen_front (h : Lists s l) (hb : s.queueLive b = false)
    (w : Nat × Side) : (mqOpen s name b).1.front w = s.front w := by
  unfold mqOpen
  split
  · rfl
  split
  · rfl
  obtain ⟨q, d⟩ := w
  by_cases hq : q = b
  · subst hq
    rw [h.front_eq_zero hb]
    cases d <;> simp [State.front]
  · cases d <;> simp [State.front, hq]

theorem mqOpen_frame : (mqOpen s name b).1.call = s.call ∧
    ∀ q, s.queueLive q = true → (mqOpen s name b).1.queueLive q = true := by
  unfold mqOpen
  split
  · exact ⟨rfl, fun _ hq => hq⟩
  split
  · exact ⟨rfl, fun _ hq => hq⟩
  refine ⟨rfl, fun q hq => ?_⟩
  by_cases hb : q = b
  · rw [hb]
    exact update_self ..
  · exact (update_of_ne hb ..).trans hq

theorem mqUnlink_frame : (mqUnlink s name).1.kernel = s.kernel ∧
    (mqUnlink s name).1.call = s.call ∧ (mqUnlink s name).1.front = s.front := by
  have hnext : ∀ (u : State) (q v : Nat), (u.setQueue q fun x => { x with next := v }).front = u.front :=
    fun u q v => setQueue_front (fun _ => rfl) fun _ => rfl
  unfold mqUnlink
  split
  · exact ⟨rfl, rfl, rfl⟩
  dsimp only
  split
  · exact ⟨rfl, rfl, rfl⟩
  · exact ⟨rfl, rfl, (hnext _ _ 0).trans (hnext _ _ _)⟩

theorem mqUnlink_live (hq : s.queueLive q = true)
    (hne : ∀ q' prev, s.find name = some (q', prev) → q' ≠ q) : (mqUnlink s name).1.queueLive q = true := by
  unfold mqUnlink
  split
  · exact hq
  next q' prev he =>
  dsimp only
  rw [update_of_ne (hne q' prev he).symm]
  split <;> exact hq

theorem Queued.step {a : QueueAct} (h : Queued s) (hg : Undisturbed s a) (hs : queueTo s a = some t) : Queued t := by
  obtain ⟨ring, hm⟩ := h.members
  cases a with
  | sched op =>
    simp only [queueTo, actTo, ite_none_right_eq_some, map_eq_some_iff] at hs
    obtain ⟨_, k, hk, rfl⟩ := hs
    obtain ⟨hm', hmoves⟩ := hm.step hk
    refine h.of_moves hm' hmoves (fun p hp => (hg p hp).1) (fun p hp => (hg p hp).2) rfl rfl ?_
    intro p hp _
    cases op with
    | register p' x =>
      refine update_of_ne ?_ ..
      rintro rfl
      simp only [stepTo, ite_none_right_eq_some] at hk
      simp [hk.1.2.1] at hp
    | _ => rfl
  | event pid =>
    cases hs
    have hkeep : Keeps (fun p => (s.kernel.tasks.task p).pid = pid) (fun _ => False) s.kernel.tasks
        (winSendEventToOwner s.kernel.tasks pid) ring :=
      .of_quiet hm.toRing (.sendEvent fun _ hp => hp)
    exact h.of_moves (t := { s with kernel := s.kernel.onTasks (winSendEventToOwner · pid) })
      ⟨ring, hkeep.members hm⟩ (hkeep.moves hm) hg (fun _ _ hE => hE) rfl rfl fun _ _ _ => rfl
  | openQueue name b =>
    simp only [queueTo, actTo, ite_none_right_eq_some, some.injEq] at hs
    obtain ⟨hb, rfl⟩ := hs
    obtain ⟨l, hl⟩ := h.lists
    refine h.same_kernel mqOpen_kernel (mqOpen_front hl hb) (fun l hl w p hp => ?_) fun p _ => ?_
    · exact mqOpen_frame.2 _ ((hl w).blocked p hp).queue
    · rw [mqOpen_frame.1]
  | unlink name =>
    cases hs
    refine h.same_kernel mqUnlink_frame.1 (fun w => by rw [mqUnlink_frame.2.2]) (fun l hl w p hp => ?_) ?_
    · refine mqUnlink_live ((hl w).blocked p hp).queue ?_
      rintro q' prev he rfl
      exact hl.not_mem_of_front (hg _ prev he w.2) hp
    · intro p _
      rw [mqUnlink_frame.2.1]
  | send q m data =>
    simp only [queueTo, ite_none_right_eq_some, some.injEq] at hs
    obtain ⟨⟨⟨hpid, _⟩, _⟩, rfl⟩ := hs
    exact h.turn hpid hg mqSend_frame.1 mqSend_frame.2 mqSend_effect
  | receive q len =>
    simp only [queueTo, ite_none_right_eq_some, some.injEq] at hs
    obtain ⟨⟨hpid, _⟩, rfl⟩ := hs
    exact h.turn hpid hg mqReceive_frame.1 mqReceive_frame.2 mqReceive_effect

theorem BootState.queued (h : BootState s) (hf : ∀ w, s.front w = 0) : Queued s := by
  refine ⟨⟨[], h.boot.members⟩, ?_, fun _ => [], fun w => ⟨hf w, fun p hp => by simp at hp⟩⟩
  rw [State.curr, h.boot.curr]
  exact h.boot.state

/-- As long as nothing disturbs the tasks in them, the wait lists end, a task is in one of them at most
and there once, and it is blocked in a call of that queue, which still exists. -/
theorem waitLists_sound {as : List QueueAct} (hboot : BootState s) (hempty : ∀ w, s.front w = 0)
    (hrun : Run (guarded (ofNext queueTo) Undisturbed) s as t) : ∃ l : Nat × Side → List Nat,
      (∀ w, Seg (· ≠ 0) t.waitNext (t.front w) (l w) 0 ∧ (l w).Nodup ∧ ∀ p ∈ l w, t.BlockedAt w p) ∧
      ∀ w w', w ≠ w' → (l w).Disjoint (l w') := by
  have hq : Queued t := by
    refine hrun.invariant (P := Queued) ?_ (hboot.queued hempty)
    rintro s a t ⟨hg, hs⟩ h
    exact h.step hg hs
  obtain ⟨l, hl⟩ := hq.lists
  refine ⟨l, fun w => ⟨(hl w).seg, hl.nodup w, (hl w).blocked⟩, fun w w' hne p hp hp' => ?_⟩
  exact hne (hl.unique hp hp')

/-- Two tasks run and a queue is open. -/
def openedRun : List QueueAct :=
  [.openQueue [65#8] 5, .sched (.register 2 (blankTask 1 1)), .sched (.register 3 (blankTask 2 1)),
    .sched .schedule]

theorem openedRun_undisturbed (h : exec queueTo noQueues openedRun = some s) :
    Run (guarded (ofNext queueTo) Undisturbed) noQueues openedRun s := by
  refine exec_guarded (fun a ha u => ?_) h
  fin_cases ha <;> first | trivial | exact fun _ _ => ⟨fun hw => hw, fun he => he⟩

/-- Both tasks wait for a message. -/
theorem waitLists_sound_openedRun : ∃ t l,
    Run (guarded (ofNext queueTo) Undisturbed) noQueues (openedRun ++ [.receive 5 4] ++ [.receive 5 4]) t ∧
    t.front (5, .receivers) = 2 ∧ t.waitNext 2 = 3 ∧
    Seg (· ≠ 0) t.waitNext (t.front (5, .receivers)) l 0 ∧ l.Nodup := by
  have hlive : (exec queueTo noQueues openedRun).map (fun s => s.queueLive 5) = some true := by
    decide +kernel
  have hlive' : ((exec queueTo noQueues openedRun).bind (queueTo · (.receive 5 4))).map
      (fun s => s.queueLive 5) = some true := by
    decide +kernel
  have hend : (((exec queueTo noQueues openedRun).bind (queueTo · (.receive 5 4))).bind
      (queueTo · (.receive 5 4))).map (fun s => (s.front (5, .receivers), s.waitNext 2)) = some (2, 3) := by
    decide +kernel
  obtain ⟨s₁, hs₁, hq₁⟩ := map_eq_some_iff.mp hlive
  rw [hs₁, bind_some] at hlive' hend
  obtain ⟨s₂, hs₂, hq₂⟩ := map_eq_some_iff.mp hlive'
  rw [hs₂, bind_some] at hend
  obtain ⟨t, ht, hfront⟩ := map_eq_some_iff.mp hend
  have hstep₁ : guarded (ofNext queueTo) Undisturbed s₁ (.receive 5 4) s₂ := ⟨hq₁, hs₂⟩
  have hstep₂ : guarded (ofNext queueTo) Undisturbed s₂ (.receive 5 4) t := ⟨hq₂, ht⟩
  have hrun := ((openedRun_undisturbed hs₁).snoc hstep₁).snoc hstep₂
  have hempty : ∀ w, noQueues.front w = 0 := by
    rintro ⟨q, d⟩
    cases d <;> rfl
  obtain ⟨l, hl, _⟩ := waitLists_sound noQueues_boot hempty hrun
  obtain ⟨hseg, hnd, _⟩ := hl (5, .receivers)
  exact ⟨t, _, hrun, congrArg Prod.fst hfront, congrArg Prod.snd hfront, hseg, hnd⟩

/-- A task that waits for a message is woken by its pid, finds none and puts itself in front of the
list again: its link leads to itself. If the queue is unlinked instead, its list keeps the task. -/
theorem waitList_cycle : (∃ t, exec queueTo noQueues (openedRun ++ [.receive 5 4, .sched (.wake 2), .sched .schedule,
        .sched .schedule, .receive 5 4]) = some t ∧
      ∀ l, ¬ Seg (· ≠ 0) t.waitNext (t.front (5, .receivers)) l 0) ∧
    (exec queueTo noQueues (openedRun ++ [.receive 5 4, .unlink [65#8]])).map
      (fun t => (t.queueLive 5, t.front (5, .receivers))) = some (false, 3) := by
  refine ⟨?_, by decide +kernel⟩
  have hend : (exec queueTo noQueues (openedRun ++ [.receive 5 4, .sched (.wake 2), .sched .schedule,
      .sched .schedule, .receive 5 4])).map (fun t => (t.front (5, .receivers), t.waitNext 3)) =
      some (3, 3) := by
    decide +kernel
  obtain ⟨t, ht, hlinks⟩ := map_eq_some_iff.mp hend
  obtain ⟨hfront, hnext⟩ := Prod.mk.inj hlinks
  refine ⟨t, ht, fun l hl => ?_⟩
  rw [hfront] at hl
  cases l with
  | nil => cases hl
  | cons p l =>
    obtain rfl : 3 = p := hl.1
    exact hl.next_ne_self (fun hn => hn rfl) List.mem_cons_self hnext

end NyanOS.Ipc
