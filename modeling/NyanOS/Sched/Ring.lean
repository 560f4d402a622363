import NyanOS.Lib.Segment
import NyanOS.Sched.Frame

/-!
# The task ring

The tasks after the head form a segment that ends at the head.
-/
namespace NyanOS.Sched

open Lib Function List

variable {s t : Tasks} {k k' : Kernel} {l l₁ l₂ : List Nat} {p q n m stop : Nat} {pid code : Int}
  {owner : Bool} {advance : Nat → Nat}

def Tasks.next (s : Tasks) (p : Nat) : Nat := (s.task p).next

/-- The link of `prev` is bent past `p`. -/
def Tasks.bypass (s : Tasks) (prev p : Nat) : Tasks :=
  s.set prev fun x => { x with next := (s.task p).next }

theorem Tasks.bypass_field {α : Type} (s : Tasks) (prev p q : Nat) (g : Task → α)
    (hg : ∀ x n, g { x with next := n } = g x) : g ((s.bypass prev p).task q) = g (s.task q) :=
  s.set_field prev q _ g fun x => hg x _

theorem Tasks.bypass_next (s : Tasks) (prev p : Nat) : (s.bypass prev p).next = update s.next prev (s.next p) := by
  funext q
  unfold Tasks.bypass
  by_cases hq : q = prev
  · rw [hq, update_self, Tasks.next, Tasks.set_task_self, Tasks.next]
  · rw [update_of_ne hq, Tasks.next, Tasks.set_task_of_ne s _ hq, Tasks.next]

/-- The tasks of the ring are the head and `l`, in this order. -/
structure Ring (s : Tasks) (l : List Nat) : Prop where
  seg : Seg (· ≠ s.head) s.next (s.next s.head) l s.head
  nonzero : 0 ∉ s.head :: l
  bound : l.length < s.registered
  headPid : (s.task s.head).pid = 0
  headReady : (s.task s.head).state = .ready
  curr : s.curr ∈ s.head :: l
  currState : (s.task s.curr).state.gone = false
  pids : ∀ p ∈ s.head :: l, ∀ q ∈ s.head :: l, (s.task p).pid = (s.task q).pid → p = q
  parents : ∀ p ∈ s.head :: l, (s.task p).parent = 0 ∨
    (s.task p).parent ∈ s.head :: l ∧ (s.task (s.task p).parent).state.gone = false

theorem ringFrom_eq (h : Seg (· ≠ s.head) s.next (s.next p) l s.head) (hn : l.length < n) :
    s.ringFrom n p = p :: l := by
  induction l generalizing p n with
  | nil =>
    obtain ⟨n, rfl⟩ := Nat.exists_eq_add_of_lt hn
    have hnext : (s.task p).next = s.head := h
    simp [Tasks.ringFrom, hnext]
  | cons x l ih =>
    obtain ⟨hx, hne, hl⟩ := h
    obtain ⟨n, rfl⟩ : ∃ n', n = n' + 1 := ⟨n - 1, by omega⟩
    have hnext : (s.task p).next = x := hx
    rw [Tasks.ringFrom, hnext, if_neg hne, ih hl (by simpa using hn)]

namespace Ring

section

variable (h : Ring s l)
include h

theorem head_ne : s.head ≠ 0 := fun he => h.nonzero (by simp [he])

theorem ring_eq : s.ring = s.head :: l := by
  rw [Tasks.ring, if_neg h.head_ne, ringFrom_eq h.seg h.bound]

theorem nodup : (s.head :: l).Nodup := nodup_cons.mpr ⟨fun hm => h.seg.node_of_mem hm rfl, h.seg.nodup (by simp)⟩

theorem next_mem (hp : p ∈ s.head :: l) : s.next p ∈ s.head :: l := by
  rcases mem_cons.mp hp with rfl | hp
  · have hseg := h.seg
    cases l with
    | nil => simp [show s.next s.head = s.head from hseg]
    | cons x l => simp [hseg.1]
  · rcases h.seg.next_of_mem hp with he | hm
    · simp [he]
    · exact mem_cons_of_mem _ hm

theorem nextOrHead_eq (hp : p ∈ s.head :: l) : s.nextOrHead p = s.next p := by
  have hne : (s.task p).next ≠ 0 := fun he => h.nonzero (he ▸ h.next_mem hp)
  rw [Tasks.nextOrHead, if_neg hne, Tasks.next]

theorem find_mem (hp : schedFindTask s pid ≠ 0) :
    schedFindTask s pid ∈ s.head :: l ∧ (s.task (schedFindTask s pid)).pid = pid :=
  ⟨h.ring_eq ▸ find_mem_ring hp, find_pid hp⟩

theorem live_of_mem (hp : p ∈ s.head :: l) (hs : s.Sound) : s.live p = true := hs p (h.ring_eq.symm ▸ hp)

theorem sound (ht : Ring t l) (hhead : t.head = s.head) (hlive : t.live = s.live) (hs : s.Sound) : t.Sound := by
  intro q hq
  rw [hlive]
  rw [ht.ring_eq, hhead] at hq
  exact h.live_of_mem hq hs

theorem congr (hhead : t.head = s.head) (hcurr : t.curr = s.curr)
    (hreg : t.registered = s.registered) (ht : ∀ p ∈ s.head :: l, t.task p = s.task p) : Ring t l := by
  have hh := ht s.head mem_cons_self
  refine ⟨?_, ?_, ?_, ?_, ?_, ?_, ?_, ?_, ?_⟩
  · have hnext : ∀ p ∈ s.head :: l, t.next p = s.next p := fun p hp => congrArg Task.next (ht p hp)
    rw [hhead, hnext s.head mem_cons_self]
    exact h.seg.congr fun p hp => hnext p (mem_cons_of_mem _ hp)
  · rw [hhead]
    exact h.nonzero
  · rw [hreg]
    exact h.bound
  · rw [hhead, hh]
    exact h.headPid
  · rw [hhead, hh]
    exact h.headReady
  · rw [hhead, hcurr]
    exact h.curr
  · rw [hcurr, ht _ h.curr]
    exact h.currState
  · intro p hp q hq
    rw [hhead] at hp hq
    rw [ht p hp, ht q hq]
    exact h.pids p hp q hq
  · intro p hp
    rw [hhead] at hp ⊢
    rw [ht p hp]
    rcases h.parents p hp with h0 | ⟨hm, hg⟩
    · exact .inl h0
    · exact .inr ⟨hm, by rw [ht _ hm]; exact hg⟩

theorem quiet (hq : Calm s t) : Ring t l := by
  have hnext : t.next = s.next := funext hq.next
  refine ⟨?_, ?_, ?_, ?_, ?_, ?_, ?_, ?_, ?_⟩
  · rw [hnext, hq.head]
    exact h.seg
  · rw [hq.head]
    exact h.nonzero
  · rw [hq.registered]
    exact h.bound
  · rw [hq.head, hq.pid]
    exact h.headPid
  · rw [hq.head]
    exact hq.ready h.headReady
  · rw [hq.head, hq.curr]
    exact h.curr
  · rw [hq.curr, hq.gone_eq]
    exact h.currState
  · intro p hp q hq' he
    rw [hq.head] at hp hq'
    rw [hq.pid, hq.pid] at he
    exact h.pids p hp q hq' he
  · intro p hp
    rw [hq.head] at hp ⊢
    rcases hq.parent p with he | he
    · rw [he, hq.gone_eq]
      exact h.parents p hp
    right
    rw [he, hq.gone_eq, h.headReady]
    exact ⟨by simp, rfl⟩

end

end Ring

/-! The search for the next task -/

/-- What holds of the head and is kept until the search stops holds of the task it finds. -/
theorem pickReady_spec {P : Nat → Prop} (hhead : P s.head)
    (hready : (s.task s.head).state = .ready) (hadv : ∀ t, P t → advance t ≠ stop → P (advance t)) (hp : P p) :
    P (pickReady s advance stop n p) ∧ (s.task (pickReady s advance stop n p)).state = .ready := by
  induction n generalizing p with
  | zero => exact ⟨hhead, hready⟩
  | succ n ih =>
    unfold pickReady
    split
    · next hr => exact ⟨hp, hr⟩
    split
    · exact ⟨hhead, hready⟩
    · next hne => exact ih (hadv p hp hne)

/-- The search goes along the ring up to the head, which is ready. More turns than there are tasks change nothing. -/
theorem pickReady_eq (hhead : (s.task s.head).state = .ready) (h : Seg (· ≠ s.head) advance p l s.head)
    (hn : l.length < n) (hstop : stop ∉ l.tail) :
    pickReady s advance stop n p = (l.find? fun q => (s.task q).state = .ready).getD s.head := by
  induction l generalizing p n with
  | nil =>
    obtain ⟨n, rfl⟩ := Nat.exists_eq_succ_of_ne_zero hn.ne'
    obtain rfl : p = s.head := h
    exact if_pos hhead
  | cons x l ih =>
    obtain ⟨n, rfl⟩ := Nat.exists_eq_succ_of_ne_zero (Nat.ne_zero_of_lt hn)
    obtain ⟨rfl, -, hl⟩ := h
    rw [pickReady]
    split
    · next hready => simp [hready]
    next hwaits =>
    rw [find?_cons_of_neg (by simpa using hwaits)]
    split
    · next hback =>
      -- back at the start, so there was one task only
      cases l with
      | nil => rfl
      | cons y l => exact absurd (mem_cons.mpr (.inl (hback.symm.trans hl.1))) hstop
    · exact ih hl (Nat.lt_of_succ_lt_succ hn) fun hmem => hstop (mem_of_mem_tail hmem)

namespace Ring

theorem switch (h : Ring s l) (hp : p ∈ s.head :: l) (hr : (s.task p).state = .ready) : Ring { s with curr := p } l :=
  { h with curr := hp, currState := by simp [hr, TaskState.gone] }

theorem schedule_spec (h : Ring s l) : Ring (schedule s) l ∧ ((schedule s).task (schedule s).curr).state = .ready := by
  have hcurr : s.curr ≠ 0 := fun he => h.nonzero (he ▸ h.curr)
  have hnext : ∀ t ∈ s.head :: l, s.nextOrHead t ∈ s.head :: l := fun t ht => h.nextOrHead_eq ht ▸ h.next_mem ht
  have hpick : pickReady s s.nextOrHead (s.nextOrHead s.curr) s.registered (s.nextOrHead s.curr) ∈ s.head :: l ∧ _ :=
    pickReady_spec (P := (· ∈ s.head :: l)) (by simp) h.headReady (fun t ht _ => hnext t ht) (hnext _ h.curr)
  rw [schedule, if_neg h.head_ne, if_neg hcurr]
  exact ⟨h.switch hpick.1 hpick.2, hpick.2⟩

/-- A write to a task other than the head that keeps its place in the ring. If the task is gone
after it, it must not be the running one or have children. -/
theorem set {f : Task → Task} (h : Ring s l) (hp : p ≠ s.head)
    (hnext : ∀ x, (f x).next = x.next) (hpid : ∀ x, (f x).pid = x.pid) (hparent : ∀ x, (f x).parent = x.parent)
    (hstate : (f (s.task p)).state.gone = false ∨
      p ≠ s.curr ∧ ∀ q ∈ s.head :: l, (s.task q).parent ≠ p) : Ring (s.set p f) l := by
  have halive : ∀ q, (s.task q).state.gone = false → (f (s.task p)).state.gone = false ∨ q ≠ p →
      ((s.set p f).task q).state.gone = false := by
    intro q hq hor
    by_cases hqp : q = p
    · rw [hqp, Tasks.set_task_self]
      exact hor.resolve_right (absurd hqp)
    · rw [Tasks.set_task_of_ne s f hqp, hq]
  have hlinks : (s.set p f).next = s.next := funext fun q => s.set_field p q f Task.next hnext
  refine ⟨?_, h.nonzero, h.bound, ?_, ?_, h.curr, ?_, ?_, ?_⟩
  · rw [hlinks]
    exact h.seg
  · rw [s.set_field p _ f Task.pid hpid]
    exact h.headPid
  · rw [Tasks.set_head, Tasks.set_task_of_ne s f hp.symm]
    exact h.headReady
  · apply halive _ h.currState
    exact hstate.imp_right fun hc => hc.1.symm
  · intro a ha b hb he
    rw [s.set_field p a f Task.pid hpid, s.set_field p b f Task.pid hpid] at he
    exact h.pids a ha b hb he
  · intro a ha
    rw [s.set_field p a f Task.parent hparent]
    rcases h.parents a ha with hz | ⟨hm, hg⟩
    · exact .inl hz
    right
    refine ⟨hm, halive _ hg ?_⟩
    exact hstate.imp_right fun hc => hc.2 a ha

theorem ne_head (h : Ring s l) (hp : (s.task p).pid ≠ 0) : p ≠ s.head := by
  rintro rfl
  exact hp h.headPid

end Ring

/-! The end of a task -/

theorem reparentOne_parent (hp : p ≠ s.head) : ((reparentOne owner p s q).task q).parent ≠ p := by
  unfold reparentOne
  dsimp only
  split
  · split <;> simp [hp.symm]
  · next hne => exact hne

theorem reparentOne_head : (reparentOne owner p s n).head = s.head := by
  unfold reparentOne
  dsimp only
  split
  · split <;> rfl
  · rfl

theorem reparentOne_kept (hp : p ≠ s.head) (hq : (s.task q).parent ≠ p) :
    ((reparentOne owner p s n).task q).parent ≠ p := by
  by_cases hqn : q = n
  · rw [hqn]
    exact reparentOne_parent hp
  unfold reparentOne
  dsimp only
  split
  · split <;> simp [Tasks.set_task_of_ne _ _ hqn, hq]
  · exact hq

theorem reparent_foldl (hp : p ≠ s.head) (hq : q ∈ l ∨ (s.task q).parent ≠ p) :
    ((l.foldl (reparentOne owner p) s).task q).parent ≠ p := by
  induction l generalizing s with
  | nil => simpa using hq
  | cons i l ih =>
    have hhead : (reparentOne owner p s i).head = s.head := reparentOne_head
    apply ih (hhead ▸ hp)
    by_cases hqi : q = i
    · right
      rw [hqi]
      exact reparentOne_parent hp
    rcases hq with hm | hne
    · left
      simpa [hqi] using hm
    · exact .inr (reparentOne_kept hp hne)

namespace Ring

theorem reparent_spec (h : Ring s l) (hp : p ≠ s.head) (hq : q ∈ s.head :: l) :
    ((schedReparentChildren s owner p).task q).parent ≠ p :=
  reparent_foldl hp (.inl (h.ring_eq ▸ hq))

theorem parent_live (h : Ring s l) (hp : p ∈ s.head :: l) (hs : s.Sound)
    (hne : (s.task p).parent ≠ 0) : s.live (s.task p).parent = true :=
  h.live_of_mem ((h.parents p hp).resolve_left hne).1 hs

/-- What the two writes of `becomeZombie` leave alone. -/
structure Ends (wake : Nat → Prop) (s t : Tasks) (p : Nat) (l : List Nat) : Prop where
  ring : Ring t l
  head : t.head = s.head
  curr : t.curr = s.curr
  live : t.live = s.live
  wild : s.Sound → t.wild = s.wild
  ready : ∀ q, q ≠ p → (s.task q).state = .ready → (t.task q).state = .ready
  zombie : ∀ q, q = p ∨ (s.task q).state = .zombie → (t.task q).state = .zombie
  gone : ∀ q, q ≠ p → (s.task q).state.gone = false → (t.task q).state.gone = false
  writes : ∀ curr q, Writes wake (· = p) curr s.head q (s.task q) (t.task q)

theorem becomeZombie {wake : Nat → Prop} (h : Ring s l) (hmem : p ∈ l) (hcurr : p ≠ s.curr)
    (hchild : ∀ q ∈ s.head :: l, (s.task q).parent ≠ p) (hw : wake (s.task p).parent) :
    Ends wake s (becomeZombie s p code) p l := by
  have hp : p ≠ s.head := h.seg.node_of_mem hmem
  have hmem' : p ∈ s.head :: l := mem_cons_of_mem _ hmem
  unfold Sched.becomeZombie
  generalize ht : (s.set p fun x => { x with state := .zombie, retVal := code }) = t
  have hring : Ring t l := ht ▸ h.set hp (fun _ => rfl) (fun _ => rfl) (fun _ => rfl) (.inr ⟨hcurr, hchild⟩)
  have hhead : t.head = s.head := ht ▸ rfl
  have hlive : t.live = s.live := ht ▸ rfl
  have hself : t.task p = { s.task p with state := .zombie, retVal := code } := ht ▸ Tasks.set_task_self ..
  have hother : ∀ q, q ≠ p → t.task q = s.task q := fun q hq => ht ▸ Tasks.set_task_of_ne s _ hq
  have hq : Quiet wake (· = p) t (wakeParent t p) := .wakeParent (hself ▸ hw) (hring.parent_live (hhead ▸ hmem'))
  refine ⟨hring.quiet hq.toCalm, hq.head.trans hhead, hq.curr.trans (ht ▸ rfl), hq.live.trans hlive,
    ?_, ?_, ?_, ?_, ?_⟩
  · intro hs
    rw [hq.wild (h.sound hring hhead hlive hs), ← ht]
    simp [Tasks.set, h.live_of_mem hmem' hs]
  · intro q hqp hr
    exact hq.ready (hother q hqp ▸ hr)
  · intro q hz
    apply hq.zombie
    by_cases hqp : q = p
    · rw [hqp, hself]
    · rw [hother q hqp, hz.resolve_left hqp]
  · intro q hqp hg
    rw [hq.gone_eq, hother q hqp, hg]
  · intro curr q
    have hlater := hhead ▸ hq.writes curr q
    by_cases hqp : q = p
    · rw [hqp, hself] at hlater
      have hfirst : Write wake (· = p) curr s.head p (s.task p) _ := .zombie (by rfl) code
      rw [hqp]
      exact .head hfirst hlater
    · rwa [hother q hqp] at hlater

theorem remove (h : Ring s (l₁ ++ p :: l₂)) (hgone : (s.task p).state.gone = true) :
    Ring (s.bypass (l₁.getLastD s.head) p) (l₁ ++ l₂) := by
  have hsub : ∀ q, q ∈ s.head :: (l₁ ++ l₂) → q ∈ s.head :: (l₁ ++ p :: l₂) := by
    intro q hq
    simp only [mem_cons, mem_append] at hq ⊢
    tauto
  have hmem : ∀ q ∈ s.head :: (l₁ ++ p :: l₂), (s.task q).state.gone = false → q ∈ s.head :: (l₁ ++ l₂) := by
    intro q hq hg
    have hqp : q ≠ p := by
      rintro rfl
      simp [hg] at hgone
    simp only [mem_cons, mem_append] at hq ⊢
    tauto
  have hfield {α : Type} (g : Task → α) (hg : ∀ x n, g { x with next := n } = g x) (q : Nat) :=
    s.bypass_field (l₁.getLastD s.head) p q g hg
  have hhead : s.head ∉ l₁ ++ p :: l₂ := (nodup_cons.mp h.nodup).1
  refine ⟨?_, fun hz => h.nonzero (hsub 0 hz), ?_, ?_, ?_, ?_, ?_, ?_, ?_⟩
  · rw [Tasks.bypass_next]
    exact h.seg.unlink (by simp) hhead
  · have hb := h.bound
    simp only [length_append, length_cons, Tasks.bypass, Tasks.set_registered] at hb ⊢
    omega
  · rw [hfield Task.pid fun _ _ => rfl]
    exact h.headPid
  · rw [hfield Task.state fun _ _ => rfl]
    exact h.headReady
  · exact hmem _ h.curr h.currState
  · rw [hfield Task.state fun _ _ => rfl]
    exact h.currState
  · intro a ha b hb he
    rw [hfield Task.pid fun _ _ => rfl, hfield Task.pid fun _ _ => rfl] at he
    exact h.pids a (hsub a ha) b (hsub b hb) he
  · intro a ha
    rw [hfield Task.parent fun _ _ => rfl, hfield Task.state fun _ _ => rfl]
    rcases h.parents a (hsub a ha) with hz | ⟨hm, hg⟩
    · exact .inl hz
    · exact .inr ⟨hmem _ hm hg, hg⟩

end Ring

end NyanOS.Sched
