import NyanOS.Lib.Run
import NyanOS.Sched.Steps

/-! Runs of the scheduler, and the invariant of the task ring. -/
namespace NyanOS.Sched

open Lib Option

variable {s : Tasks} {k k' : Kernel} {l : List Nat}

/-- The operations on tasks. A call that blocks is one operation up to the switch, and what
`schedule` does after a switch is `signal`. -/
inductive Op
  | register (p : Nat) (x : Task)
  | schedule
  | signal
  | block
  | sleep (wakeTick : Int)
  | wake (pid : Int)
  | sendSignal (pid : Int) (sigCode : Nat)
  | tick (now : Int)
  | exit (code : Int)
  | kill (pid : Int)
  | reap
  | waited (p : Nat)

/-- A new task has a new pid and the running task as its parent, pid 0 never blocks, and
`sys_waitpid` takes a zombie out of the ring. -/
def stepTo (k : Kernel) : Op → Option Kernel
  | .register p x =>
    if p ≠ 0 ∧ k.tasks.live p = false ∧ x.parent = k.tasks.curr ∧
        ∀ q ∈ k.tasks.ring, (k.tasks.task q).pid ≠ x.pid then
      some (k.onTasks (schedRegisterTask · p x))
    else none
  | .schedule => some (k.onTasks Sched.schedule)
  | .signal => some (signalCheck k)
  | .block => if (k.tasks.task k.tasks.curr).pid ≠ 0 then some (k.onTasks schedBlock) else none
  | .sleep wakeTick =>
    if (k.tasks.task k.tasks.curr).pid ≠ 0 then some (k.onTasks (sysSleep · wakeTick)) else none
  | .wake pid => some (k.onTasks (schedWakePid · pid))
  | .sendSignal pid sigCode => some (k.onTasks (schedSendSignal · pid sigCode))
  | .tick now => some (k.onTasks (schedCheckSleepingTasks · now))
  | .exit code => some (schedExit k code)
  | .kill pid => some (schedKill k pid)
  | .reap => some (schedReapZombies k)
  | .waited p =>
    if p ∈ k.tasks.ring ∧ (k.tasks.task p).state = .zombie then
      some (schedDestroyTask (k.onTasks (schedUnlinkTask · p)) p)
    else none

/-- The state `sched_init` leaves. -/
structure Boot (s : Tasks) : Prop where
  head : s.head ≠ 0
  curr : s.curr = s.head
  next : (s.task s.head).next = s.head
  pid : (s.task s.head).pid = 0
  state : (s.task s.head).state = .ready
  parent : (s.task s.head).parent = 0
  live : ∀ p, s.live p = true ↔ p = s.head
  registered : s.registered = 1

theorem Boot.members (h : Boot s) : Members s [] where
  seg := h.next
  nonzero := by simpa using h.head.symm
  bound := by simp [h.registered]
  headPid := h.pid
  headReady := h.state
  curr := by simp [h.curr]
  currState := by rw [h.curr, h.state]; rfl
  pids p hp q hq _ := by
    rw [List.mem_singleton.mp hp, List.mem_singleton.mp hq]
  parents p hp := by
    rw [List.mem_singleton.mp hp]
    exact .inl h.parent
  members p := by simpa using h.live p

/-- A task that is ready and has nothing open. -/
def blankTask (pid : Int) (parent : Nat) : Task where
  pid := pid
  state := .ready
  next := 0
  fdTbl := fun _ => 0
  parent := parent
  retVal := 0
  win := 0
  sigint := false
  waitNext := 0
  wakeTick := -1

/-- The kernel after `sched_init`, with its task at address 1. -/
def bootKernel : Kernel where
  tasks :=
    { task := fun _ => { blankTask 0 0 with next := 1 }
      head := 1
      curr := 1
      live := fun p => p == 1
      registered := 1
      wild := false }
  windows := { window := fun _ => ⟨0, 0, 0, false⟩, list := 0, top := 0, live := fun _ => false }
  files := { handle := fun _ => ⟨.other, 0, 0, false, 0⟩, pipe := fun _ => ⟨false, false, -1, -1⟩ }

theorem bootKernel_boot : Boot bootKernel.tasks := by
  refine ⟨by decide, rfl, rfl, rfl, rfl, rfl, fun p => ?_, rfl⟩
  exact beq_iff_eq

/-- The tasks that an operation can end. -/
def Op.ends (k : Kernel) : Op → Nat → Prop
  | .exit _, p => p = k.tasks.curr
  | .signal, p => p = k.tasks.curr ∧ (k.tasks.task p).sigint = true
  | .kill pid, p => (k.tasks.task p).pid = pid
  | _, _ => False

instance (k : Kernel) (op : Op) (p : Nat) : Decidable (op.ends k p) :=
  match op with
  | .exit _ => inferInstanceAs (Decidable (p = _))
  | .signal => inferInstanceAs (Decidable (p = _ ∧ _))
  | .kill _ => inferInstanceAs (Decidable (_ = _))
  | .register _ _ | .schedule | .block | .sleep _ | .wake _ | .sendSignal _ _ | .tick _ | .reap
  | .waited _ => inferInstanceAs (Decidable False)

/-- The tasks that an operation can set ready. -/
def Op.wakes (k : Kernel) : Op → Nat → Prop
  | .wake pid, q => (k.tasks.task q).pid = pid
  | .exit _, q => endWakes k k.tasks.curr q
  | .signal, q => endWakes k k.tasks.curr q
  | .kill pid, q => ∃ p, (k.tasks.task p).pid = pid ∧ killWakes k p q
  | .reap, q => k.files.Waits (k.tasks.task q).pid
  | .waited _, q => k.files.Waits (k.tasks.task q).pid
  | _, _ => False

/-- What one operation can do: it keeps the tasks of the ring, or a task is registered, or a zombie
is removed. -/
inductive StepEffect (k : Kernel) (op : Op) (k' : Kernel) (l : List Nat) : Prop
  | keeps (h : Keeps (op.wakes k) (op.ends k) k.tasks k'.tasks l)
  | register (p : Nat) (x : Task) (hop : op = .register p x) (hp : p ≠ 0)
      (hlive : k.tasks.live p = false) (hparent : x.parent = k.tasks.curr)
      (hfresh : ∀ q ∈ k.tasks.ring, (k.tasks.task q).pid ≠ x.pid)
      (hk : k' = k.onTasks (schedRegisterTask · p x))
  | remove (l₁ : List Nat) (p : Nat) (l₂ : List Nat) (h : Removes k k' l₁ p l₂ l)
      (hop : op = .waited p ∨ op = .reap ∧ reapable k.tasks p = true)

theorem Members.waited {p : Nat} (h : Members k.tasks l) (hs : stepTo k (.waited p) = some k') :
    ∃ l₁ l₂, Removes k k' l₁ p l₂ l := by
  simp only [stepTo, ite_none_right_eq_some, some.injEq] at hs
  obtain ⟨⟨hmem, hz⟩, rfl⟩ := hs
  rw [h.ring_eq] at hmem
  have hph : p ≠ k.tasks.head := by
    rintro rfl
    rw [h.headReady] at hz
    cases hz
  obtain ⟨l₁, l₂, rfl⟩ := List.append_of_mem ((List.mem_cons.mp hmem).resolve_left hph)
  refine ⟨l₁, l₂, rfl, hz, ?_⟩
  rw [Kernel.onTasks, Kernel.onTasks, h.toRing.unlink_eq]

theorem step_effect {op : Op} (h : Members k.tasks l) (hs : stepTo k op = some k') : StepEffect k op k' l := by
  cases op with
  | register p x =>
    simp only [stepTo, ite_none_right_eq_some, some.injEq] at hs
    obtain ⟨⟨hp, hlive, hparent, hfresh⟩, rfl⟩ := hs
    exact .register p x rfl hp hlive hparent hfresh rfl
  | schedule =>
    cases hs
    exact .keeps (.schedule h.toRing)
  | signal =>
    cases hs
    exact .keeps (.signalCheck h.toRing)
  | block =>
    simp only [stepTo, ite_none_right_eq_some, some.injEq] at hs
    obtain ⟨hpid, rfl⟩ := hs
    exact .keeps (.pause h.toRing hpid rfl Task.wakeTick)
  | sleep wakeTick =>
    simp only [stepTo, ite_none_right_eq_some, some.injEq] at hs
    obtain ⟨hpid, rfl⟩ := hs
    exact .keeps (.pause h.toRing hpid rfl fun _ => wakeTick)
  | wake pid =>
    cases hs
    exact .keeps (.of_quiet h.toRing (.wakePid fun _ hp => hp))
  | sendSignal pid sigCode =>
    cases hs
    exact .keeps (.of_quiet h.toRing .sendSignal)
  | tick now =>
    cases hs
    exact .keeps (.of_quiet h.toRing .checkSleepingTasks)
  | exit code =>
    cases hs
    exact .keeps (.exit h.toRing)
  | kill pid =>
    cases hs
    exact .keeps (.kill h.toRing)
  | reap =>
    cases hs
    rcases h.reap with he | ⟨l₁, p, l₂, hrm, hr⟩
    · rw [he]
      exact .keeps (.of_quiet h.toRing .refl)
    · exact .remove l₁ p l₂ hrm (.inr ⟨rfl, hr⟩)
  | waited p =>
    obtain ⟨l₁, l₂, hrm⟩ := h.waited hs
    exact .remove l₁ p l₂ hrm (.inl rfl)

theorem Members.step {op : Op} (h : Members k.tasks l) (hs : stepTo k op = some k') :
    (∃ l', Members k'.tasks l') ∧ Moves (op.wakes k) (op.ends k) k.tasks k'.tasks := by
  cases step_effect h hs with
  | keeps hk => exact ⟨⟨l, hk.members h⟩, hk.moves h⟩
  | register p x hop hp hlive hparent hfresh hk =>
    subst hk
    exact ⟨⟨_, h.register hp hlive hparent hfresh⟩, h.register_moves hlive⟩
  | remove l₁ p l₂ hrm hop =>
    have hw : Closes.Wakes (op.wakes k) k := by
      rcases hop with rfl | ⟨rfl, _⟩ <;> exact fun _ hw => hw
    obtain ⟨hm, hmoves⟩ := h.remove hrm hw
    exact ⟨⟨_, hm⟩, hmoves⟩

/-- Tasks are allocated when they are registered and freed when they are waited for or reaped. -/
theorem Members.live_step {op : Op} {c : Nat} (h : Members k.tasks l) (hs : stepTo k op = some k') :
    (k'.tasks.live c = true → k.tasks.live c = true ∨ ∃ x, op = .register c x) ∧
    (k.tasks.live c = true → k'.tasks.live c = true ∨ op = .waited c ∨ op = .reap ∧ reapable k.tasks c = true) := by
  cases step_effect h hs with
  | keeps hk =>
    rw [hk.live]
    exact ⟨.inl, .inl⟩
  | register p x hop _ hlive _ _ hk =>
    rw [hk, Kernel.onTasks, (register_frame h.head_ne).2.2.1]
    by_cases hcp : c = p
    · subst hcp
      exact ⟨fun _ => .inr ⟨x, hop⟩, fun hc => absurd hc (by simp [hlive])⟩
    · rw [Function.update_of_ne hcp]
      exact ⟨.inl, .inl⟩
  | remove l₁ p l₂ hrm hop =>
    rw [h.removes_live hrm]
    by_cases hcp : c = p
    · subst hcp
      exact ⟨fun hc => absurd hc (by simp), fun _ => .inr hop⟩
    · rw [Function.update_of_ne hcp]
      exact ⟨.inl, .inl⟩

/-- In every reachable state the links from the head visit each task that is registered and not yet
unlinked once and come back. The head is pid 0, the running task is in the ring and no zombie, pids
are distinct, parents are in the ring, and whatever is switched to next is ready. -/
theorem taskRing_invariant {ops : List Op} (hboot : Boot k.tasks) (hrun : Run (ofNext stepTo) k ops k') :
    (∃ l, Seg (· ≠ k'.tasks.head) k'.tasks.next (k'.tasks.next k'.tasks.head) l k'.tasks.head ∧
      (k'.tasks.head :: l).Nodup ∧ ∀ p, k'.tasks.live p = true ↔ p ∈ k'.tasks.head :: l) ∧
    (k'.tasks.task k'.tasks.head).pid = 0 ∧
    k'.tasks.live k'.tasks.curr = true ∧ (k'.tasks.task k'.tasks.curr).state ≠ .zombie ∧
    (∀ p q, k'.tasks.live p = true → k'.tasks.live q = true → (k'.tasks.task p).pid = (k'.tasks.task q).pid → p = q) ∧
    (∀ p, k'.tasks.live p = true → (k'.tasks.task p).parent = 0 ∨ k'.tasks.live (k'.tasks.task p).parent = true) ∧
    ∀ op k'', stepTo k' op = some k'' → k''.tasks.curr ≠ k'.tasks.curr →
      (k''.tasks.task k''.tasks.curr).state = .ready := by
  obtain ⟨l, h⟩ : ∃ l, Members k'.tasks l := by
    refine hrun.invariant (P := fun k => ∃ l, Members k.tasks l) ?_ ⟨[], hboot.members⟩
    rintro s op t hs ⟨l, hl⟩
    exact (hl.step hs).1
  refine ⟨⟨l, h.seg, h.nodup, h.members⟩, h.headPid, (h.members _).mpr h.curr, ?_, ?_, ?_, ?_⟩
  · intro hz
    have hg := h.currState
    rw [hz] at hg
    cases hg
  · intro p q hp hq he
    exact h.pids p ((h.members p).mp hp) q ((h.members q).mp hq) he
  · intro p hp
    rcases h.parents p ((h.members p).mp hp) with hz | ⟨hm, _⟩
    · exact .inl hz
    · exact .inr ((h.members _).mpr hm)
  · intro op k'' hs hne
    exact (h.step hs).2.ready (.inl hne)

/-- The kernel starts two tasks. The second starts a third and is killed while it is blocked, the
first exits, and the zombies are waited for and reaped. -/
def familyRun : List Op :=
  [.register 2 (blankTask 1 1), .register 3 (blankTask 2 1), .schedule, .register 4 (blankTask 3 3),
    .block, .exit 7, .kill 2, .waited 2, .reap, .schedule, .signal]

theorem taskRing_invariant_familyRun : ∃ k', Run (ofNext stepTo) bootKernel familyRun k' ∧
    (k'.tasks.task k'.tasks.head).pid = 0 ∧ (k'.tasks.task k'.tasks.curr).state ≠ .zombie := by
  have hsome : (exec stepTo bootKernel familyRun).isSome = true := by decide +kernel
  obtain ⟨k', hk⟩ := isSome_iff_exists.mp hsome
  obtain ⟨_, hhead, _, hcurr, _⟩ := taskRing_invariant bootKernel_boot (exec_run hk)
  exact ⟨k', exec_run hk, hhead, hcurr⟩

/-! ### Taking turns -/

end NyanOS.Sched
