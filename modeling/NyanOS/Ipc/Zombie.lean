import NyanOS.Ipc.Handles
import NyanOS.Ipc.Turns
import NyanOS.Lib.Segment
import NyanOS.Sched.Runs

/-!
# Zombies and the wait lists of message queues

The wake-ups of the scheduler leave a task alone that has ended. A message queue sets the task at
the front of a wait list ready without a look at it, so it must not have ended.
-/
namespace NyanOS.Ipc

open Lib Sched Function Option

variable {s t : State} {q p x v b : Nat}

/-- The front of a wait list of a queue that exists. -/
def State.Front (s : State) (p : Nat) : Prop :=
  ∃ q, s.queueLive q = true ∧ ((s.queue q).waitingReceivers = p ∨ (s.queue q).waitingSenders = p)

/-- The task is linked in a wait list. -/
def Linked (s : State) (p : Nat) : Prop := Reach s.Front s.waitNext p

theorem front_iff : s.Front x ↔ ∃ w : Nat × Side, s.queueLive w.1 = true ∧ s.front w = x := by
  constructor
  · rintro ⟨q, hq, hx | hx⟩
    · exact ⟨(q, .receivers), hq, hx⟩
    · exact ⟨(q, .senders), hq, hx⟩
  · rintro ⟨⟨q, d⟩, hq, hx⟩
    cases d with
    | receivers => exact ⟨q, hq, .inl hx⟩
    | senders => exact ⟨q, hq, .inr hx⟩

theorem front_update {w : Nat × Side} (hlive : t.queueLive = s.queueLive)
    (hf : t.front = update s.front w v) (hx : t.Front x) : s.Front x ∨ x = v := by
  obtain ⟨w', hq, rfl⟩ := front_iff.mp hx
  rw [hlive] at hq
  rw [hf]
  by_cases hw : w' = w
  · subst hw
    exact .inr (update_self ..)
  · rw [update_of_ne hw]
    exact .inl (front_iff.mpr ⟨w', hq, rfl⟩)

/-! Runs -/

/-- The operations of the kernel that set tasks ready. Those of pipes wake and block tasks, which is
`wake` and `block` of the scheduler. -/
inductive Act
  | sched (op : Op)
  | event (pid : Int)
  | openQueue (name : List Byte) (b : Nat)
  | send (q m : Nat) (data : List Byte)
  | receive (q len : Nat)

/-- A new task is in no wait list and in no call. -/
def freshTask : Op → Bool
  | .register _ x => x.waitNext == 0
  | _ => true

def callAfter (s : State) : Op → Nat → Option Call
  | .register p _ => update s.call p none
  | _ => s.call

/-- A task other than pid 0 runs code of a queue that exists, from the start or where it blocked. -/
def State.MayRun (s : State) (q : Nat) (c : Call) : Prop :=
  s.queueLive q = true ∧ (s.kernel.tasks.task s.curr).pid ≠ 0 ∧ (s.call s.curr = none ∨ s.call s.curr = some c)

instance (s : State) (q : Nat) (c : Call) : Decidable (s.MayRun q c) :=
  inferInstanceAs (Decidable (_ ∧ _ ∧ (_ ∨ _)))

def actTo (s : State) : Act → Option State
  | .sched op =>
    if freshTask op then
      (Sched.stepTo s.kernel op).map fun k => { s with kernel := k, call := callAfter s op }
    else none
  | .event pid => some { s with kernel := s.kernel.onTasks (winSendEventToOwner · pid) }
  | .openQueue name b => if s.queueLive b = false then some (mqOpen s name b).1 else none
  | .send q m data =>
    if s.MayRun q (.send q data) ∧ s.messageLive m = false then some (mqSend s q m data).1 else none
  | .receive q len => if s.MayRun q (.receive q len) then some (mqReceive s q len).1 else none

/-- No task ends while it is linked in a wait list. -/
def EndsUnlinked (s : State) : Act → Prop
  | .sched op => ∀ p, op.ends s.kernel p → ¬ Linked s p
  | _ => True

structure Good (s : State) : Prop where
  members : ∃ l, Members s.kernel.tasks l
  wild : s.kernel.tasks.wild = false
  linked : ∀ p, Linked s p → s.kernel.tasks.live p = true ∧ (s.kernel.tasks.task p).state.gone = false

/-- A zombie that is not freed stays one. -/
def Rests (s t : State) : Prop :=
  ∀ p, s.kernel.tasks.live p = true → (s.kernel.tasks.task p).state = .zombie →
    (t.kernel.tasks.task p).state = .zombie

/-- The tasks change as an operation of the scheduler lets them, and the wait lists stay. -/
theorem Good.of_moves {W E : Nat → Prop} (h : Good s) (hm : ∃ l, Members t.kernel.tasks l)
    (hmoves : Moves W E s.kernel.tasks t.kernel.tasks) (hE : ∀ p, E p → ¬ Linked s p)
    (hf : ∀ x, t.Front x → x ≠ 0 → s.Front x) : Good t ∧ Rests s t := by
  have hlinked : ∀ p, Linked t p → Linked s p := by
    intro p hp
    refine hp.cut (fun a ha h0 => .front (hf a ha h0) h0) fun a ha => ?_
    exact .inl (hmoves.writes a (h.linked a ha).1).waitNext
  refine ⟨⟨hm, hmoves.wild.trans h.wild, ?_⟩, hmoves.zombie⟩
  intro p hp
  have hl := hlinked p hp
  exact hmoves.alive p (fun he => hE p he hl) (h.linked p hl).1 (h.linked p hl).2

theorem Good.still (h : Good s) (hk : t.kernel = s.kernel) (hf : ∀ x, t.Front x → x ≠ 0 → s.Front x) :
    Good t ∧ Rests s t := by
  obtain ⟨l, hm⟩ := h.members
  refine h.of_moves (W := fun _ => False) (E := fun _ => False) ⟨l, hk ▸ hm⟩ ?_ (fun _ hE => hE.elim) hf
  rw [hk]
  exact (Keeps.of_quiet hm.toRing .refl).moves hm

theorem Good.turn (h : Good s) (hpid : (s.kernel.tasks.task s.curr).pid ≠ 0)
    (hq : s.queueLive q = true) (hlive : t.queueLive = s.queueLive) (he : TurnEffect s t q) : Good t ∧ Rests s t := by
  obtain ⟨l, hm⟩ := h.members
  cases he with
  | idle hk hf =>
    refine h.still hk fun x hx _ => ?_
    simpa only [front_iff, hf, hlive] using hx
  | push c hc hk hf _ =>
    have ha : s.Front (s.front c.place) := front_iff.mpr ⟨c.place, hc ▸ hq, rfl⟩
    replace hf := fun x => front_update (x := x) hlive hf
    generalize s.front c.place = a at ha hk
    have hlive := (hm.members _).mpr hm.curr
    have hcalm : Calm s.kernel.tasks (s.kernel.tasks.set s.curr fun x => { x with waitNext := a }) :=
      .set rfl rfl (.inl rfl) (.inl rfl) fun _ => hlive
    have hm₁ := hm.calm hcalm
    have hpid₁ : ((s.kernel.tasks.set s.curr fun x => { x with waitNext := a }).task s.curr).pid ≠ 0 := by
      rwa [Tasks.set_task_self]
    have hkeep : Keeps (fun _ => False) (fun _ => False)
        (s.kernel.tasks.set s.curr fun x => { x with waitNext := a }) t.kernel.tasks l :=
      hk ▸ .pause hm₁.toRing hpid₁ rfl Task.wakeTick
    have hmoves := hkeep.moves hm₁
    have hwait : ∀ x, x ≠ s.curr → s.kernel.tasks.live x = true → t.waitNext x = s.waitNext x := by
      intro x hx hl
      unfold State.waitNext
      rw [(hmoves.writes x hl).waitNext, Tasks.set_task_of_ne _ _ hx]
    have hcurr : t.waitNext s.curr = a := by
      unfold State.waitNext
      rw [(hmoves.writes s.curr hlive).waitNext, Tasks.set_task_self]
    have hlinked : ∀ p, Linked t p → Linked s p ∨ p = s.curr := by
      intro p hp
      refine hp.push (fun x hx h0 => ?_) (fun x hx hr => ?_) fun h0 => ?_
      · exact (hf x hx).imp_left fun hfx => .front hfx h0
      · exact .inl (hwait x hx (h.linked x hr).1)
      · rw [hcurr] at h0 ⊢
        exact .front ha h0
    refine ⟨⟨⟨l, hkeep.members hm₁⟩, ?_, ?_⟩, ?_⟩
    · rw [hmoves.wild, hcalm.wild hm.sound, h.wild]
    · intro p hp
      have hp' : s.kernel.tasks.live p = true ∧ (s.kernel.tasks.task p).state.gone = false := by
        rcases hlinked p hp with hl | rfl
        · exact h.linked p hl
        · exact ⟨hlive, hm.currState⟩
      exact hmoves.alive p (fun hE => hE) hp'.1 ((hcalm.gone_eq p).trans hp'.2)
    · intro p hl hz
      exact hmoves.zombie p hl (hcalm.zombie hz)
  | pop d h0 hk hf =>
    have ha : s.Front (s.front (q, d)) := front_iff.mpr ⟨(q, d), hq, rfl⟩
    replace hf := fun x => front_update (x := x) hlive hf
    generalize s.front (q, d) = a at ha hk h0 hf
    obtain ⟨hlive, hgone⟩ := h.linked a (.front ha h0)
    have hcalm : Calm s.kernel.tasks t.kernel.tasks := hk ▸ .set rfl rfl (.inl rfl) (.inr ⟨rfl, hgone⟩) fun _ => hlive
    have hwait : ∀ x, t.waitNext x = s.waitNext x ∨ t.waitNext x = 0 := by
      intro x
      unfold State.waitNext
      rw [hk]
      by_cases hx : x = a
      · rw [hx, Tasks.set_task_self]
        exact .inr rfl
      · rw [Tasks.set_task_of_ne _ _ hx]
        exact .inl rfl
    have hlinked : ∀ p, Linked t p → Linked s p := by
      intro p hp
      refine hp.cut (fun x hx hx0 => ?_) fun x _ => hwait x
      rcases hf x hx with hfx | rfl
      · exact .front hfx hx0
      · exact .next (.front ha h0) hx0
    refine ⟨⟨⟨l, hm.calm hcalm⟩, (hcalm.wild hm.sound).trans h.wild, ?_⟩, ?_⟩
    · intro p hp
      obtain ⟨hl, hg⟩ := h.linked p (hlinked p hp)
      exact ⟨hcalm.live ▸ hl, (hcalm.gone_eq p).trans hg⟩
    · exact fun p _ hz => hcalm.zombie hz

theorem front_mqOpen {name : List Byte} : ∀ x, (mqOpen s name b).1.Front x → x ≠ 0 → s.Front x := by
  intro x hx h0
  unfold mqOpen at hx
  split at hx
  · exact hx
  split at hx
  · exact hx
  obtain ⟨q, hlive, hq⟩ := hx
  by_cases hb : q = b
  · subst hb
    simp only [update_self] at hq
    rcases hq with rfl | rfl <;> exact absurd rfl h0
  · simp only [update_of_ne hb] at hlive hq
    exact ⟨q, hlive, hq⟩

theorem mqOpen_kernel {name : List Byte} : (mqOpen s name b).1.kernel = s.kernel := by
  unfold mqOpen
  split
  · rfl
  · split <;> rfl

theorem Good.step {a : Act} (h : Good s) (hg : EndsUnlinked s a) (hs : actTo s a = some t) : Good t ∧ Rests s t := by
  obtain ⟨l, hm⟩ := h.members
  cases a with
  | sched op =>
    simp only [actTo, ite_none_right_eq_some, map_eq_some_iff] at hs
    obtain ⟨_, k, hk, rfl⟩ := hs
    obtain ⟨hm', hmoves⟩ := hm.step hk
    exact h.of_moves hm' hmoves hg fun _ hx _ => hx
  | event pid =>
    cases hs
    have hkeep : Keeps (fun p => (s.kernel.tasks.task p).pid = pid) (fun _ => False) s.kernel.tasks
        (winSendEventToOwner s.kernel.tasks pid) l :=
      .of_quiet hm.toRing (.sendEvent fun _ hp => hp)
    exact h.of_moves (t := { s with kernel := s.kernel.onTasks (winSendEventToOwner · pid) })
      ⟨l, hkeep.members hm⟩ (hkeep.moves hm) (fun _ hE => hE.elim) fun _ hx _ => hx
  | openQueue name b =>
    simp only [actTo, ite_none_right_eq_some, some.injEq] at hs
    obtain ⟨_, rfl⟩ := hs
    exact h.still mqOpen_kernel front_mqOpen
  | send q m data =>
    simp only [actTo, ite_none_right_eq_some, some.injEq] at hs
    obtain ⟨⟨⟨hq, hpid, _⟩, _⟩, rfl⟩ := hs
    exact h.turn hpid hq mqSend_frame.1 mqSend_effect
  | receive q len =>
    simp only [actTo, ite_none_right_eq_some, some.injEq] at hs
    obtain ⟨⟨hq, hpid, _⟩, rfl⟩ := hs
    exact h.turn hpid hq mqReceive_frame.1 mqReceive_effect

theorem not_linked (h : ∀ q, s.queueLive q = true →
    (s.queue q).waitingReceivers = 0 ∧ (s.queue q).waitingSenders = 0) : ¬ Linked s p := by
  intro hp
  induction hp with
  | front hf h0 =>
    obtain ⟨q, hq, hx⟩ := hf
    rcases hx with rfl | rfl
    · exact h0 (h q hq).1
    · exact h0 (h q hq).2
  | next _ _ ih => exact ih

/-- The state after boot: one task, no wait list and no write to a freed task. -/
structure BootState (s : State) : Prop where
  boot : Boot s.kernel.tasks
  wild : s.kernel.tasks.wild = false
  queues : ∀ q, s.queueLive q = false

theorem BootState.good (h : BootState s) : Good s := by
  refine ⟨⟨[], h.boot.members⟩, h.wild, fun p hp => absurd hp (not_linked fun q hq => ?_)⟩
  rw [h.queues] at hq
  cases hq

/-- As long as no task ends while it is linked in a wait list, no operation writes to a task that is
freed, and none takes a zombie out of its state. -/
theorem zombie_rests {as : List Act} (hboot : BootState s) (hrun : Run (guarded (ofNext actTo) EndsUnlinked) s as t) :
    t.kernel.tasks.wild = false ∧
    ∀ a u, guarded (ofNext actTo) EndsUnlinked t a u → u.kernel.tasks.wild = false ∧
      ∀ p, t.kernel.tasks.live p = true → (t.kernel.tasks.task p).state = .zombie →
        (u.kernel.tasks.task p).state = .zombie := by
  have hgood : Good t := by
    refine hrun.invariant (P := Good) ?_ hboot.good
    rintro s a t ⟨hg, hs⟩ h
    exact (h.step hg hs).1
  refine ⟨hgood.wild, ?_⟩
  rintro a u ⟨hg, hs⟩
  obtain ⟨hu, hrest⟩ := hgood.step hg hs
  exact ⟨hu.wild, hrest⟩

theorem noQueues_boot : BootState noQueues := ⟨bootKernel_boot, rfl, fun _ => rfl⟩

/-- Two tasks run, and the second one blocks in the empty queue at 5. -/
def waitingRun : List Act :=
  [.openQueue [65#8] 5, .sched (.register 2 (blankTask 1 1)), .sched (.register 3 (blankTask 2 1)),
    .sched .schedule, .receive 5 4]

/-- The message comes, and the receiver takes it. -/
def receivedRun : List Act := waitingRun ++ [.send 5 7 [1#8], .sched .schedule, .sched .schedule, .receive 5 4]

/-- The receiver exits when it is in no wait list any more. -/
theorem zombie_rests_receivedRun : ∃ t,
    Run (guarded (ofNext actTo) EndsUnlinked) noQueues (receivedRun ++ [.sched (.exit 0)]) t ∧
    (t.kernel.tasks.task 3).state = .zombie ∧ t.kernel.tasks.wild = false := by
  have hlive : (exec actTo noQueues receivedRun).map (fun s => s.queueLive) =
      some (update noQueues.queueLive 5 true) := by with_unfolding_all rfl
  have hwait : (exec actTo noQueues receivedRun).map
      (fun s => ((s.queue 5).waitingReceivers, (s.queue 5).waitingSenders)) = some (0, 0) := by
    decide +kernel
  have hend : ((exec actTo noQueues receivedRun).bind (actTo · (.sched (.exit 0)))).map
      (fun t => (t.kernel.tasks.task 3).state) = some .zombie := by decide +kernel
  obtain ⟨s, hs, hlive⟩ := map_eq_some_iff.mp hlive
  rw [hs] at hwait hend
  obtain ⟨t, ht, hz⟩ := map_eq_some_iff.mp hend
  have hrun : Run (guarded (ofNext actTo) EndsUnlinked) noQueues receivedRun s := by
    refine exec_guarded (fun a ha u => ?_) hs
    fin_cases ha <;> first | trivial | exact fun _ => False.elim
  have hguard : EndsUnlinked s (.sched (.exit 0)) := by
    intro p _
    refine not_linked fun q hq => ?_
    obtain rfl : q = 5 := by
      by_contra hne
      rw [hlive, update_of_ne hne] at hq
      cases hq
    exact Prod.mk.inj (some.inj hwait)
  have hrun' := hrun.snoc ⟨hguard, ht⟩
  exact ⟨t, hrun', hz, (zombie_rests noQueues_boot hrun').1⟩

/-- The receiver is killed, and the next message sets it ready; if it is freed before, the message
is a write to freed memory. -/
theorem zombie_wakes : (exec actTo noQueues (waitingRun ++ [.sched (.kill 2)])).map
      (fun s => (s.kernel.tasks.live 3, (s.kernel.tasks.task 3).state)) = some (true, .zombie) ∧
    (exec actTo noQueues (waitingRun ++ [.sched (.kill 2), .send 5 7 [1#8]])).map
      (fun s => (s.kernel.tasks.live 3, (s.kernel.tasks.task 3).state)) = some (true, .ready) ∧
    (exec actTo noQueues (waitingRun ++ [.sched (.kill 2), .sched (.waited 3)])).map
      (fun s => s.kernel.tasks.wild) = some false ∧
    (exec actTo noQueues (waitingRun ++ [.sched (.kill 2), .sched (.waited 3), .send 5 7 [1#8]])).map
      (fun s => s.kernel.tasks.wild) = some true := by
  decide +kernel

end NyanOS.Ipc
