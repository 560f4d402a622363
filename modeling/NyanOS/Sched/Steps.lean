import NyanOS.Sched.Ring

/-!
# What the scheduler does to the ring

Every operation leaves the links alone, inserts a task behind the head, or takes a zombie out.
-/
namespace NyanOS.Sched

open Lib Function List

variable {s t u u' : Tasks} {k k' : Kernel} {l l₁ l₂ : List Nat} {p q n m a : Nat} {pid code : Int}

/-! Operations that keep the tasks of the ring -/

/-- The ring keeps its tasks, a task that is switched to is ready, only tasks of `E` end, and only
the children of a task that has ended get a new parent. -/
structure Keeps (wake E : Nat → Prop) (s t : Tasks) (l : List Nat) : Prop where
  ring : Ring t l
  head : t.head = s.head
  live : t.live = s.live
  ready : t.curr ≠ s.curr ∨ (s.task s.curr).state = .ready → (t.task t.curr).state = .ready
  wild : s.Sound → t.wild = s.wild
  zombie : ∀ p, (s.task p).state = .zombie → (t.task p).state = .zombie
  gone : ∀ p, ¬ E p → (s.task p).state.gone = false → (t.task p).state.gone = false
  writes : ∀ p, Writes wake E s.curr s.head p (s.task p) (t.task p)
  parent : ∀ p, (t.task p).parent = (s.task p).parent ∨ (t.task (s.task p).parent).state = .zombie

/-- The tasks that the end of `p` may set ready: its parent and the tasks that wait at its pipes. -/
def endWakes (k : Kernel) (p q : Nat) : Prop :=
  k.files.Waits (k.tasks.task q).pid ∨ q = (k.tasks.task p).parent ∨ q = k.tasks.head

/-- `sched_kill` also wakes the children of a task that owns its window. -/
def killWakes (k : Kernel) (p q : Nat) : Prop :=
  endWakes k p q ∨ isWinOwner k p = true ∧ (k.tasks.task q).parent = p

namespace Keeps

variable {wake E wake' E' : Nat → Prop}

theorem of_quiet (h : Ring s l) (hq : Quiet wake (fun _ => False) s t) : Keeps wake E s t l where
  ring := h.quiet hq.toCalm
  head := hq.head
  live := hq.live
  ready hr := by
    rw [hq.curr] at hr ⊢
    exact hq.ready (hr.resolve_left fun hne => hne rfl)
  wild := hq.wild
  zombie _ := hq.zombie
  gone p _ hg := (hq.gone_eq p).trans hg
  writes p := (hq.writes s.curr p).mono (fun _ hw => hw) fun _ => False.elim
  parent p := .inl ((hq.writes s.curr p).parent.resolve_right id)

theorem after (hk : Keeps wake E u t l) (hu : Keeps wake E s u l) (h : Ring s l)
    (hcurr : u.curr = s.curr) : Keeps wake E s t l where
  ring := hk.ring
  head := hk.head.trans hu.head
  live := hk.live.trans hu.live
  ready hr := hk.ready (hr.imp (fun hne => hcurr ▸ hne) fun hs => hu.ready (.inr hs))
  wild hs := by
    exact (hk.wild (h.sound hu.ring hu.head hu.live hs)).trans (hu.wild hs)
  zombie p hz := hk.zombie p (hu.zombie p hz)
  gone p hp hg := hk.gone p hp (hu.gone p hp hg)
  writes p := by
    have hw := hk.writes p
    rw [hcurr, hu.head] at hw
    exact (hu.writes p).trans hw
  parent p := by
    rcases hu.parent p with he | hz
    · rw [← he]
      exact hk.parent p
    · exact .inr (hk.zombie _ hz)

theorem schedule_eq (s : Tasks) : ∃ p, Sched.schedule s = { s with curr := p } := by
  unfold Sched.schedule
  split
  · exact ⟨s.curr, rfl⟩
  split
  · exact ⟨s.head, rfl⟩
  · exact ⟨_, rfl⟩

theorem schedule (h : Ring s l) : Keeps wake E s (schedule s) l := by
  obtain ⟨hring, hready⟩ := h.schedule_spec
  obtain ⟨p, hp⟩ := schedule_eq s
  rw [hp] at hring hready ⊢
  exact ⟨hring, rfl, rfl, fun _ => hready, fun _ => rfl, fun _ hz => hz, fun _ _ hg => hg,
    fun _ => .refl, fun _ => .inl rfl⟩

theorem pause {st : TaskState} (h : Ring s l) (hpid : (s.task s.curr).pid ≠ 0)
    (hst : st.gone = false) (wakeTick : Task → Int) : Keeps wake E s
      (Sched.schedule (s.set s.curr fun x => { x with state := st, wakeTick := wakeTick x })) l := by
  generalize hf : (fun x : Task => { x with state := st, wakeTick := wakeTick x }) = f
  have hset : Ring (s.set s.curr f) l :=
    h.set (h.ne_head hpid) (by simp [← hf]) (by simp [← hf]) (by simp [← hf]) (.inl (by simp [← hf, hst]))
  obtain ⟨hring, hready⟩ := hset.schedule_spec
  obtain ⟨c, hc⟩ := schedule_eq (s.set s.curr f)
  have hother : ∀ q, q ≠ s.curr → (s.set s.curr f).task q = s.task q := fun q => Tasks.set_task_of_ne s f
  have hself : (s.set s.curr f).task s.curr =
      { s.task s.curr with state := st, wakeTick := wakeTick (s.task s.curr) } := by
    rw [Tasks.set_task_self, ← hf]
  rw [hc] at hring hready ⊢
  refine ⟨hring, rfl, rfl, fun _ => hready, fun hs => ?_, fun q hq => ?_, fun q _ hg => ?_, fun q => ?_,
    fun q => .inl (s.set_field s.curr q f Task.parent (by simp [← hf]))⟩
  · simp [Tasks.set, h.live_of_mem h.curr hs]
  · have hqp : q ≠ s.curr := by
      rintro rfl
      have hg := h.currState
      rw [hq] at hg
      cases hg
    exact (congrArg Task.state (hother q hqp)).trans hq
  · by_cases hqp : q = s.curr
    · simpa only [hqp, hself] using hst
    · simpa only [hother q hqp] using hg
  · by_cases hqp : q = s.curr
    · simpa only [hqp, hself] using .single (.pause rfl st hst _)
    · simpa only [hother q hqp] using .refl

theorem mono (hk : Keeps wake E s t l) (hw : ∀ p, wake p → wake' p)
    (hE : ∀ p, E p → E' p) : Keeps wake' E' s t l :=
  { hk with
    gone := fun p hp hg => hk.gone p (fun he => hp (hE p he)) hg
    writes := fun p => (hk.writes p).mono hw hE }

/-- A task ends after its windows and files are closed or its children are handed over. -/
theorem of_ends (hq : Quiet wake (· = p) s u) (hend : Ring.Ends wake u' t p l)
    (htask : u'.task = u.task) (hhead : u'.head = u.head) (hlive : u'.live = u.live)
    (hwild : u'.wild = u.wild) (hsound : s.Sound → u'.Sound)
    (hready : t.curr ≠ s.curr ∨ (s.task s.curr).state = .ready → (t.task t.curr).state = .ready) :
    Keeps wake (· = p) s t l := by
  have hwrites : ∀ q, Writes wake (· = p) s.curr s.head q (s.task q) (t.task q) := by
    intro q
    have hlater := hend.writes s.curr q
    rw [htask, hhead, hq.head] at hlater
    exact (hq.writes s.curr q).trans hlater
  exact {
    ring := hend.ring
    head := hend.head.trans (hhead.trans hq.head)
    live := hend.live.trans (hlive.trans hq.live)
    ready := hready
    wild := fun hs => (hend.wild (hsound hs)).trans (hwild.trans (hq.wild hs))
    zombie := fun q hz => hend.zombie q (.inr (htask ▸ hq.zombie hz))
    gone := fun q hqp hg => hend.gone q hqp (htask ▸ (hq.gone_eq q).trans hg)
    writes := hwrites
    parent := fun q => (hwrites q).parent.imp_right fun he => hend.zombie _ (.inl he) }

theorem exit (h : Ring k.tasks l) :
    Keeps (endWakes k k.tasks.curr) (· = k.tasks.curr) k.tasks (schedExit k code).tasks l := by
  unfold schedExit
  dsimp only
  split
  · exact of_quiet h .refl
  next hpid =>
  generalize hp : k.tasks.curr = p at *
  generalize hk₁ : schedCleanFds (schedCleanGui k p) p = k₁
  have hlive : k.tasks.Sound → k.tasks.live p = true := h.live_of_mem (hp ▸ h.curr)
  have hclean : Closes (endWakes k p) (· = p) k k₁ := hk₁ ▸ .clean (fun _ hw => .inl hw) (.inl rfl) hlive
  have hq₁ := hclean.quiet
  have h₁ := h.quiet hq₁.toCalm
  have hne₁ : p ≠ k₁.tasks.head := hq₁.head ▸ h.ne_head hpid
  generalize hs : schedReparentChildren k₁.tasks (isWinOwner k₁ p) p = s
  have hwin : isWinOwner k₁ p = false := by
    have h0 : (k₁.tasks.task p).win = 0 := by
      rw [← hk₁]
      exact Closes.clean_win hlive
    simp [isWinOwner, h0]
  have hq₂ : Quiet (endWakes k p) (· = p) k₁.tasks s :=
    hs ▸ Quiet.reparentChildren fun howner => absurd howner (by simp [hwin])
  have hq := hq₁.trans hq₂
  have h₂ := h₁.quiet hq₂.toCalm
  have hne : p ≠ s.head := hq₂.head ▸ hne₁
  have hcurr : s.curr = p := hq.curr.trans hp
  have hmem : p ∈ l := (mem_cons.mp (hcurr ▸ h₂.curr)).resolve_left hne
  have hchild : ∀ q ∈ s.head :: l, (s.task q).parent ≠ p := by
    intro q hq
    rw [← hs]
    exact h₁.reparent_spec hne₁ (hq₂.head ▸ hq)
  -- the search starts behind the task that ends and stops before it comes back to it
  have hpick : (pickReady s (fun t => (s.task t).next) p s.registered (s.task p).next ∈ s.head :: l ∧
      pickReady s (fun t => (s.task t).next) p s.registered (s.task p).next ≠ p) ∧ _ :=
    pickReady_spec (P := fun t => t ∈ s.head :: l ∧ t ≠ p) ⟨by simp, hne.symm⟩ h₂.headReady
      (fun t ht hstop => ⟨h₂.next_mem ht.1, hstop⟩)
      ⟨h₂.next_mem (mem_cons_of_mem _ hmem), h₂.seg.next_ne_self (by simp) hmem⟩
  generalize pickReady s (fun t => (s.task t).next) p s.registered (s.task p).next = next at *
  obtain ⟨⟨hin, hnext⟩, hready⟩ := hpick
  rw [if_neg hne.symm]
  have hswitch := h₂.switch hin hready
  have hend : Ring.Ends (endWakes k p) { s with curr := next } (becomeZombie { s with curr := next } p code) p l :=
    hswitch.becomeZombie hmem hnext.symm hchild (.inr (hq.parent p))
  refine of_ends hq hend rfl rfl rfl rfl (fun hs => h₂.sound hswitch rfl rfl (hq.sound hs)) fun _ => ?_
  rw [hend.curr]
  exact hend.ready next hnext hready

theorem signalCheck (h : Ring k.tasks l) :
    Keeps (endWakes k k.tasks.curr) (fun p => p = k.tasks.curr ∧ (k.tasks.task p).sigint = true)
      k.tasks (signalCheck k).tasks l := by
  unfold Sched.signalCheck
  dsimp only
  split
  · next hsig =>
    let k₁ := k.setTask k.tasks.curr fun x => { x with sigint := false }
    have hq : Quiet (endWakes k k.tasks.curr) (fun _ => False) k.tasks k₁.tasks :=
      .setTask (.set rfl rfl (.inl rfl) (.inl rfl) (h.live_of_mem h.curr)) fun _ => .signal false
    have hwake : ∀ q, endWakes k₁ k₁.tasks.curr q → endWakes k k.tasks.curr q := by
      intro q hw
      have hparent : (k₁.tasks.task k.tasks.curr).parent = (k.tasks.task k.tasks.curr).parent :=
        k.tasks.set_field _ _ (fun x => { x with sigint := false }) Task.parent fun _ => rfl
      exact hw.imp (fun hw => hq.pid q ▸ hw) (Or.imp_left fun he => he.trans hparent)
    refine ((exit (h.quiet hq.toCalm)).mono hwake fun _ hp => hp).after (of_quiet h hq) h rfl |>.mono
      (fun _ hw => hw) fun p hp => ?_
    have hp' : p = k.tasks.curr := hp
    exact ⟨hp', hp' ▸ hsig.2.2⟩
  · exact of_quiet h .refl

theorem endOther (code : Int) (h : Ring k.tasks l) (hmem : p ∈ l) (hcurr : p ≠ k.tasks.curr) :
    Keeps (killWakes k p) (· = p) k.tasks (becomeZombie (schedReparentChildren k.tasks (isWinOwner k p) p) p code) l ∧
    ((becomeZombie (schedReparentChildren k.tasks (isWinOwner k p) p) p code).task p).state = .zombie ∧
    (becomeZombie (schedReparentChildren k.tasks (isWinOwner k p) p) p code).curr = k.tasks.curr := by
  have hne : p ≠ k.tasks.head := h.seg.node_of_mem hmem
  generalize hs : schedReparentChildren k.tasks (isWinOwner k p) p = s
  have hq : Quiet (killWakes k p) (· = p) k.tasks s :=
    hs ▸ Quiet.reparentChildren fun howner i hi => .inr ⟨howner, hi⟩
  have hchild : ∀ q ∈ s.head :: l, (s.task q).parent ≠ p := by
    intro q hqm
    rw [← hs]
    exact h.reparent_spec hne (hq.head ▸ hqm)
  have hend : Ring.Ends (killWakes k p) s (becomeZombie s p code) p l :=
    (h.quiet hq.toCalm).becomeZombie hmem (hq.curr ▸ hcurr) hchild (.inl (.inr (hq.parent p)))
  have hcurr' := hend.curr.trans hq.curr
  refine ⟨of_ends hq hend rfl rfl rfl rfl hq.sound fun hr => ?_, hend.zombie p (.inl rfl), hcurr'⟩
  rw [hcurr'] at hr ⊢
  exact hend.ready _ hcurr.symm (hq.ready (hr.resolve_left fun hne => hne rfl))

theorem kill_eq (pid : Int) (h : Ring k.tasks l) : schedKill k pid = k ∨
    pid = (k.tasks.task k.tasks.curr).pid ∧ schedKill k pid = schedExit k (-1) ∨
    ∃ p, p ∈ l ∧ p ≠ k.tasks.curr ∧ (k.tasks.task p).pid = pid ∧ schedKill k pid =
      schedCleanFds (schedCleanGui { k with
        tasks := becomeZombie (schedReparentChildren k.tasks (isWinOwner k p) p) p (-1) } p) p := by
  unfold schedKill
  dsimp only
  split
  · exact .inl rfl
  next hpos =>
  split
  · next hself => exact .inr (.inl ⟨hself, rfl⟩)
  next hother =>
  split
  · exact .inl rfl
  next hfound =>
  obtain ⟨hp0, _⟩ := not_or.mp hfound
  obtain ⟨hmem, hpid⟩ := h.find_mem hp0
  have hne : schedFindTask k.tasks pid ≠ k.tasks.head := h.ne_head (by omega)
  have hcurr : schedFindTask k.tasks pid ≠ k.tasks.curr := by
    intro he
    exact hother (he ▸ hpid.symm)
  exact .inr (.inr ⟨_, (mem_cons.mp hmem).resolve_left hne, hcurr, hpid, rfl⟩)

theorem kill (h : Ring k.tasks l) : Keeps (fun q => ∃ p, (k.tasks.task p).pid = pid ∧ killWakes k p q)
      (fun p => (k.tasks.task p).pid = pid) k.tasks (schedKill k pid).tasks l := by
  rcases kill_eq pid h with he | ⟨hself, he⟩ | ⟨p, hmem, hcurr, hpid, he⟩
  · rw [he]
    exact of_quiet h .refl
  · rw [he]
    refine (exit h).mono (fun q hw => ⟨_, hself.symm, .inl hw⟩) fun p hp => ?_
    rw [show p = k.tasks.curr from hp]
    exact hself.symm
  · rw [he]
    obtain ⟨hzombie, hz, hcurr'⟩ := endOther (-1) h hmem hcurr
    generalize becomeZombie (schedReparentChildren k.tasks (isWinOwner k p) p) p (-1) = s at *
    have hclean : Closes (killWakes k p) (fun _ => False) { k with tasks := s }
        (schedCleanFds (schedCleanGui { k with tasks := s } p) p) := by
      refine .clean (fun q hw => .inl (.inl ?_)) (.inr ?_) (hzombie.ring.live_of_mem (mem_cons_of_mem _ hmem))
      · exact (hzombie.writes q).pid_eq ▸ hw
      · simp only [hz]
        rfl
    refine ((of_quiet hzombie.ring hclean.quiet).after hzombie h hcurr').mono
      (fun q hw => ⟨p, hpid, hw⟩) fun q hqp => ?_
    rw [show q = p from hqp]
    exact hpid

end Keeps

/-! Tasks that come and go -/

/-- The tasks of the ring are those that are registered and not yet unlinked. -/
structure Members (s : Tasks) (l : List Nat) : Prop extends Ring s l where
  members : ∀ p, s.live p = true ↔ p ∈ s.head :: l

theorem Members.sound (h : Members s l) : s.Sound := by
  intro p hp
  rw [h.ring_eq] at hp
  exact (h.members p).mpr hp

theorem Members.calm (h : Members s l) (hc : Calm s t) : Members t l where
  toRing := h.toRing.quiet hc
  members p := by
    rw [hc.live, hc.head]
    exact h.members p

/-- What every operation does: a task that it switches to is ready, it writes to no task that is
freed, a zombie stays one, and only tasks of `E` end. -/
structure Moves (wake E : Nat → Prop) (s t : Tasks) : Prop where
  ready : t.curr ≠ s.curr ∨ (s.task s.curr).state = .ready → (t.task t.curr).state = .ready
  wild : t.wild = s.wild
  zombie : ∀ p, s.live p = true → (s.task p).state = .zombie → (t.task p).state = .zombie
  alive : ∀ p, ¬ E p → s.live p = true → (s.task p).state.gone = false →
    t.live p = true ∧ (t.task p).state.gone = false
  writes : ∀ p, s.live p = true → Writes wake E s.curr s.head p (s.task p) (t.task p)
  parent : ∀ p, s.live p = true →
    (t.task p).parent = (s.task p).parent ∨ (t.task (s.task p).parent).state = .zombie

variable {wake E : Nat → Prop} {x : Task}

theorem Keeps.moves (hk : Keeps wake E s t l) (h : Members s l) : Moves wake E s t where
  ready := hk.ready
  wild := hk.wild h.sound
  zombie p _ := hk.zombie p
  alive p hp hl hg := ⟨hk.live ▸ hl, hk.gone p hp hg⟩
  writes p _ := hk.writes p
  parent p _ := hk.parent p

theorem Keeps.members (hk : Keeps wake E s t l) (h : Members s l) : Members t l :=
  { hk.ring with members := fun p => by rw [hk.live, hk.head]; exact h.members p }

theorem register_task (h0 : s.head ≠ 0) (hp : p ≠ s.head) :
    (schedRegisterTask s p x).task p = { x with next := (s.task s.head).next, state := .ready } ∧
    (schedRegisterTask s p x).task s.head = { s.task s.head with next := p } ∧
    ∀ q, q ≠ p → q ≠ s.head → (schedRegisterTask s p x).task q = s.task q := by
  unfold schedRegisterTask Tasks.setState
  simp only [h0, if_false]
  refine ⟨?_, ?_, ?_⟩
  · simp [Tasks.set, update_of_ne hp, update_of_ne hp.symm]
  · simp [Tasks.set, update_of_ne hp.symm]
  · intro q hqp hqh
    simp [Tasks.set, update_of_ne hqp, update_of_ne hqh]

theorem register_frame (h0 : s.head ≠ 0) :
    (schedRegisterTask s p x).head = s.head ∧ (schedRegisterTask s p x).curr = s.curr ∧
    (schedRegisterTask s p x).live = update s.live p true ∧
    (schedRegisterTask s p x).registered = s.registered + 1 := by
  unfold schedRegisterTask Tasks.setState
  simp [h0]

theorem Members.register (h : Members s l) (hp : p ≠ 0) (hlive : s.live p = false)
    (hparent : x.parent = s.curr) (hfresh : ∀ q ∈ s.ring, (s.task q).pid ≠ x.pid) :
    Members (schedRegisterTask s p x) (p :: l) := by
  have hnew : p ∉ s.head :: l := by
    rw [← h.members p, hlive]
    simp
  have hph : p ≠ s.head := fun he => hnew (by simp [he])
  have hpl : p ∉ l := fun hm => hnew (mem_cons_of_mem _ hm)
  obtain ⟨htp, hth, hto⟩ := register_task (x := x) h.head_ne hph
  obtain ⟨hhead, hcurr, hlive', hreg⟩ := register_frame (p := p) (x := x) h.head_ne
  rw [h.ring_eq] at hfresh
  generalize schedRegisterTask s p x = t at *
  -- an old task keeps all but the link, and that only at the head
  have hold : ∀ q ∈ s.head :: l, (t.task q).pid = (s.task q).pid ∧
      (t.task q).state = (s.task q).state ∧ (t.task q).parent = (s.task q).parent := by
    intro q hq
    by_cases hqh : q = s.head
    · rw [hqh, hth]
      exact ⟨rfl, rfl, rfl⟩
    have hqp : q ≠ p := fun he => hnew (he ▸ hq)
    rw [hto q hqp hqh]
    exact ⟨rfl, rfl, rfl⟩
  have hmem : ∀ q, q ∈ t.head :: p :: l ↔ q = p ∨ q ∈ s.head :: l := by
    intro q
    simp only [hhead, mem_cons]
    tauto
  refine ⟨⟨?_, ?_, ?_, ?_, ?_, ?_, ?_, ?_, ?_⟩, ?_⟩
  · have hnext : t.next t.head = p := by rw [hhead, Tasks.next, hth]
    refine ⟨hnext, hhead ▸ hph, ?_⟩
    rw [Tasks.next, htp, hhead]
    refine h.seg.congr fun y hy => ?_
    have hyh : y ≠ s.head := h.seg.node_of_mem hy
    have hyp : y ≠ p := fun he => hpl (he ▸ hy)
    rw [Tasks.next, hto y hyp hyh, Tasks.next]
  · rw [hmem]
    exact fun hz => hz.elim (fun he => hp he.symm) h.nonzero
  · have hb := h.bound
    simp only [length_cons, hreg]
    omega
  · rw [hhead, (hold _ (by simp)).1]
    exact h.headPid
  · rw [hhead, (hold _ (by simp)).2.1]
    exact h.headReady
  · rw [hmem, hcurr]
    exact .inr h.curr
  · rw [hcurr, (hold _ h.curr).2.1]
    exact h.currState
  · intro a ha b hb he
    rcases (hmem a).mp ha with hap | ha' <;> rcases (hmem b).mp hb with hbp | hb'
    · rw [hap, hbp]
    · rw [hap, htp, (hold b hb').1] at he
      exact absurd he.symm (hfresh b hb')
    · rw [hbp, htp, (hold a ha').1] at he
      exact absurd he (hfresh a ha')
    · rw [(hold a ha').1, (hold b hb').1] at he
      exact h.pids a ha' b hb' he
  · intro a ha
    rcases (hmem a).mp ha with rfl | ha
    · right
      rw [htp, hparent, hmem, (hold _ h.curr).2.1]
      exact ⟨.inr h.curr, h.currState⟩
    rw [(hold a ha).2.2]
    rcases h.parents a ha with hz | ⟨hm, hg⟩
    · exact .inl hz
    right
    rw [hmem, (hold _ hm).2.1]
    exact ⟨.inr hm, hg⟩
  · intro q
    rw [hmem, hlive']
    by_cases hqp : q = p
    · simp [hqp]
    · rw [update_of_ne hqp, h.members q]
      simp [hqp]

theorem Members.register_moves (h : Members s l) (hlive : s.live p = false) :
    Moves wake E s (schedRegisterTask s p x) := by
  have hhead : s.live s.head = true := (h.members _).mpr (by simp)
  have hph : p ≠ s.head := by
    rintro rfl
    simp [hhead] at hlive
  obtain ⟨_, hth, hto⟩ := register_task (x := x) h.head_ne hph
  have hne : ∀ q, s.live q = true → q ≠ p := by
    rintro q hq rfl
    simp [hlive] at hq
  -- an allocated task keeps all but its link
  have hold : ∀ {α : Type} (g : Task → α), (∀ y n, g { y with next := n } = g y) →
      ∀ q, s.live q = true → g ((schedRegisterTask s p x).task q) = g (s.task q) := by
    intro α g hg q hq
    by_cases hqh : q = s.head
    · rw [hqh, hth, hg]
    · rw [hto q (hne q hq) hqh]
  refine ⟨fun hr => ?_, ?_, ?_, ?_, ?_, ?_⟩
  · rw [(register_frame h.head_ne).2.1] at hr ⊢
    rw [hold Task.state (fun _ _ => rfl) _ ((h.members _).mpr h.curr)]
    exact hr.resolve_left fun hne => hne rfl
  · unfold schedRegisterTask
    simp [h.head_ne, Tasks.setState, Tasks.set, update_of_ne hph.symm, hhead]
  · intro q hq hz
    rw [hold Task.state (fun _ _ => rfl) q hq, hz]
  · intro q _ hq hg
    rw [hold Task.state (fun _ _ => rfl) q hq, (register_frame h.head_ne).2.2.1, update_of_ne (hne q hq)]
    exact ⟨hq, hg⟩
  · intro q hq
    by_cases hqh : q = s.head
    · rw [hqh, hth]
      exact .single (.link p)
    · rw [hto q (hne q hq) hqh]
      exact .refl
  · exact fun q hq => .inl (hold Task.parent (fun _ _ => rfl) q hq)

theorem prevOf_eq (h : Seg (· ≠ s.head) s.next (s.next a) (l₁ ++ p :: l₂) s.head)
    (hn : l₁.length ≤ n) : prevOf s p n a = l₁.getLastD a := by
  induction l₁ generalizing a n with
  | nil =>
    have hnext : (s.task a).next = p := h.1
    cases n with
    | zero => rfl
    | succ n => simp [prevOf, hnext]
  | cons y l₁ ih =>
    have hnd := h.nodup (by simp)
    obtain ⟨hy, hne, hl⟩ := h
    obtain ⟨n, rfl⟩ : ∃ n', n = n' + 1 := ⟨n - 1, by simp at hn; omega⟩
    have hnext : (s.task a).next = y := hy
    have hyp : y ≠ p := by
      rintro rfl
      simp at hnd
    rw [prevOf, hnext, if_pos ⟨hyp, hne⟩, ih hl (by simpa using hn)]
    cases l₁ <;> rfl

theorem Ring.unlink_eq (h : Ring s (l₁ ++ p :: l₂)) : schedUnlinkTask s p = s.bypass (l₁.getLastD s.head) p := by
  have hb := h.bound
  have hph : p ≠ s.head := h.seg.node_of_mem (by simp)
  obtain ⟨c, hc, hcp, _, _⟩ := seg_append.mp h.seg
  have hprev : (s.task (l₁.getLastD s.head)).next = p := by
    have hlast : ∀ {a : Nat} {l : List Nat}, Seg (· ≠ s.head) s.next (s.next a) l c → s.next (l.getLastD a) = c := by
      intro a l
      induction l generalizing a with
      | nil => exact fun hs => hs
      | cons y l ih =>
        intro hs
        have hl := ih hs.2.2
        cases l with
        | nil => exact hl
        | cons z l => exact hl
    exact (hlast hc).trans hcp
  rw [schedUnlinkTask, if_neg h.head_ne]
  simp only [length_append, length_cons] at hb
  rw [prevOf_eq h.seg (by omega)]
  dsimp only
  rw [if_pos hprev, Tasks.set_head, if_neg hph, Tasks.bypass]

theorem destroy_quiet (hw : Closes.Wakes wake k) (hgone : (k.tasks.task p).state.gone = true)
    (hp : p ≠ 0) (hpid : (k.tasks.task p).pid ≠ 0) (hlive : k.tasks.live p = true) :
    ∃ t, Quiet wake (fun _ => False) k.tasks t ∧ (schedDestroyTask k p).tasks =
      { t with live := update t.live p false, wild := t.wild || !t.live p } := by
  refine ⟨_, (Closes.clean hw (.inr hgone) fun _ => hlive).quiet, ?_⟩
  rw [schedDestroyTask, if_neg (by simp [hp, hpid])]

/-- The task at `p` is taken out of the ring and destroyed. -/
structure Removes (k k' : Kernel) (l₁ : List Nat) (p : Nat) (l₂ l : List Nat) : Prop where
  split : l = l₁ ++ p :: l₂
  zombie : (k.tasks.task p).state = .zombie
  destroy : k' = schedDestroyTask (k.onTasks (·.bypass (l₁.getLastD k.tasks.head) p)) p

section
variable (h : Members k.tasks l) (hr : Removes k k' l₁ p l₂ l)
include h hr

theorem Members.removes_quiet (hw : Closes.Wakes wake k) :
    ∃ t, Quiet wake (fun _ => False) (k.tasks.bypass (l₁.getLastD k.tasks.head) p) t ∧
      k'.tasks = { t with live := update t.live p false, wild := t.wild || !t.live p } := by
  obtain ⟨rfl, hz, rfl⟩ := hr
  have hmem : p ∈ k.tasks.head :: (l₁ ++ p :: l₂) := by simp
  have hph : p ≠ k.tasks.head := h.seg.node_of_mem (by simp)
  let k₁ := k.onTasks (·.bypass (l₁.getLastD k.tasks.head) p)
  have hfield {α : Type} (g : Task → α) (hg : ∀ x n, g { x with next := n } = g x) (q : Nat) :
      g (k₁.tasks.task q) = g (k.tasks.task q) := Tasks.bypass_field _ _ _ _ g hg
  have hpid : (k₁.tasks.task p).pid ≠ 0 := by
    rw [hfield Task.pid fun _ _ => rfl]
    exact fun he => hph (h.pids p hmem _ (by simp) (he.trans h.headPid.symm))
  have hgone : (k₁.tasks.task p).state.gone = true := by
    rw [hfield Task.state fun _ _ => rfl, hz]
    rfl
  have hw' : Closes.Wakes wake k₁ := by
    intro q hq
    rw [hfield Task.pid fun _ _ => rfl] at hq
    exact hw q hq
  exact destroy_quiet hw' hgone (fun he => h.nonzero (he ▸ hmem)) hpid ((h.members p).mpr hmem)

theorem Members.remove (hw : Closes.Wakes wake k) : Members k'.tasks (l₁ ++ l₂) ∧ Moves wake E k.tasks k'.tasks := by
  obtain ⟨t, hq, ht⟩ := h.removes_quiet hr hw
  obtain ⟨rfl, hz, -⟩ := hr
  have hgone : (k.tasks.task p).state.gone = true := by
    rw [hz]
    rfl
  have hring := h.toRing.remove hgone
  have hstate : ∀ q, ((k.tasks.bypass (l₁.getLastD k.tasks.head) p).task q).state = (k.tasks.task q).state :=
    fun q => Tasks.bypass_field _ _ _ _ Task.state fun _ _ => rfl
  have hlive : t.live = k.tasks.live := hq.live
  have hhead : t.head = k.tasks.head := hq.head
  have hcurr : t.curr = k.tasks.curr := hq.curr
  have hsound : (k.tasks.bypass (l₁.getLastD k.tasks.head) p).Sound := by
    intro q hqm
    rw [hring.ring_eq] at hqm
    refine (h.members q).mpr ?_
    simp only [Tasks.bypass, Tasks.set_head, mem_cons, mem_append] at hqm ⊢
    exact hqm.imp_right fun hq => hq.imp_right .inr
  have hprev : k.tasks.live (l₁.getLastD k.tasks.head) = true := by
    refine (h.members _).mpr ?_
    have hlast : l₁.getLastD k.tasks.head ∈ k.tasks.head :: l₁ := getLastD_mem_cons
    simp only [mem_cons, mem_append] at hlast ⊢
    exact hlast.imp_right .inl
  have hwild : t.wild = k.tasks.wild := by
    rw [hq.wild hsound]
    simp only [Tasks.bypass, Tasks.set, hprev, Bool.not_true, Bool.or_false]
  have hlivet : t.live p = true := hlive ▸ (h.members p).mpr (by simp)
  rw [ht]
  refine ⟨{ hring.quiet hq.toCalm with members := fun q => ?_ }, fun hr => ?_, by simp [hwild, hlivet], ?_, ?_, ?_, ?_⟩
  · have hnd := h.nodup
    have hold := h.members q
    simp only [hlive, hhead]
    by_cases hqp : q = p
    · subst hqp
      simp only [update_self, Bool.false_eq_true, false_iff]
      simp only [nodup_cons, nodup_append, mem_cons, mem_append] at hnd ⊢
      grind
    · rw [update_of_ne hqp, hold]
      simp only [mem_cons, mem_append]
      tauto
  · simp only [hcurr] at hr ⊢
    exact hq.ready ((hstate _).trans (hr.resolve_left fun hne => hne rfl))
  · intro q _ hz
    exact hq.zombie ((hstate q).trans hz)
  · intro q _ hl hg
    have hqp : q ≠ p := by
      rintro rfl
      simp [hg] at hgone
    refine ⟨?_, (hq.gone_eq q).trans (hstate q ▸ hg)⟩
    simp [update_of_ne hqp, hlive, hl]
  · intro q _
    refine .trans ?_ ((hq.writes k.tasks.curr q).mono (fun _ hw => hw) fun _ => False.elim)
    by_cases hql : q = l₁.getLastD k.tasks.head
    · rw [← hql, Tasks.bypass, Tasks.set_task_self]
      exact .single (.link _)
    · rw [Tasks.bypass, Tasks.set_task_of_ne _ _ hql]
  · intro q _
    have hparent := (hq.writes k.tasks.curr q).parent.resolve_right id
    rw [Tasks.bypass_field _ _ _ _ Task.parent fun _ _ => rfl] at hparent
    exact .inl hparent

theorem Members.removes_live : k'.tasks.live = update k.tasks.live p false := by
  have hw : Closes.Wakes (fun _ => True) k := fun _ _ => trivial
  obtain ⟨t, hq, ht⟩ := h.removes_quiet hr hw
  rw [ht]
  dsimp only
  rw [hq.live]
  rfl

end

theorem reapFrom_spec (h : reapFrom s l q = some (p, m)) :
    ∃ l₁ l₂, l = l₁ ++ p :: l₂ ∧ m = l₁.getLastD q ∧ reapable s p = true := by
  induction l generalizing q with
  | nil => cases h
  | cons x l ih =>
    rw [reapFrom] at h
    split at h
    · next hr =>
      cases h
      exact ⟨[], l, rfl, rfl, hr⟩
    obtain ⟨l₁, l₂, rfl, hm, hr⟩ := ih h
    refine ⟨x :: l₁, l₂, rfl, hm.trans ?_, hr⟩
    cases l₁ <;> rfl

theorem Members.reap (h : Members k.tasks l) : schedReapZombies k = k ∨
    ∃ l₁ p l₂, Removes k (schedReapZombies k) l₁ p l₂ l ∧ reapable k.tasks p = true := by
  unfold schedReapZombies
  split
  · exact .inl rfl
  next p m hr =>
  rw [h.ring_eq, reapFrom] at hr
  have hhead : reapable k.tasks k.tasks.head = false := by simp [reapable, h.headPid]
  rw [hhead, if_neg (by simp)] at hr
  obtain ⟨l₁, l₂, rfl, rfl, hreap⟩ := reapFrom_spec hr
  have hph : p ≠ k.tasks.head := h.seg.node_of_mem (by simp)
  have hzombie : (k.tasks.task p).state = .zombie := by
    simp only [reapable, Bool.and_eq_true, beq_iff_eq] at hreap
    exact hreap.1.2
  dsimp only
  rw [Tasks.set_head, if_neg hph]
  exact .inr ⟨l₁, p, l₂, ⟨rfl, hzombie, rfl⟩, hreap⟩

end NyanOS.Sched
