import NyanOS.Sched.Runs

/-!
# Locks of file handles (`vfs_read` and `vfs_write` in `fs/vfs.c`)

Both calls hold the lock of the handle while the driver works, and a pipe blocks in there. A call is
split where the task can lose the processor: taking the lock, each turn of the driver, and the return.
-/
namespace NyanOS.Files

open Lib Sched Function Option

/-- `inside` is the handle whose `vfs_read` or `vfs_write` a task is in, 0 if none. -/
structure LockState where
  kernel : Kernel
  inside : Nat → Nat

namespace LockState

def curr (s : LockState) : Nat := s.kernel.tasks.curr

def holder (s : LockState) (h : Nat) : Nat := (s.kernel.files.handle h).holder

def setHolder (s : LockState) (h p : Nat) : LockState :=
  { s with kernel := s.kernel.setHandle h fun x => { x with holder := p } }

def setInside (s : LockState) (h : Nat) : LockState :=
  { s with inside := update s.inside s.curr h }

end LockState

/-- The driver has to wait: `pipe_read` finds its buffer empty, `pipe_write` finds it full. -/
def driverBlock (k : Kernel) (n : Node) : Kernel :=
  let pid := (k.tasks.task k.tasks.curr).pid
  let k := match n with
    | .pipeRead i => k.setPipe i fun x => { x with readerPid := pid }
    | .pipeWrite i => k.setPipe i fun x => { x with writerPid := pid }
    | .other => k
  k.onTasks schedBlock

/-- A byte goes through a pipe, and the task that waits at the other end is woken. -/
def driverMove (k : Kernel) (n : Node) : Kernel :=
  match n with
  | .pipeRead i =>
    let pid := (k.files.pipe i).writerPid
    if pid ≠ -1 then (k.onTasks (schedWakePid · pid)).setPipe i fun x => { x with writerPid := -1 } else k
  | .pipeWrite i =>
    let pid := (k.files.pipe i).readerPid
    if pid ≠ -1 then (k.onTasks (schedWakePid · pid)).setPipe i fun x => { x with readerPid := -1 } else k
  | .other => k

inductive LockAct
  | sched (op : Op)
  | enter (h : Nat)
  | wait (h : Nat)
  | move (h : Nat)
  | leave (h : Nat)

def insideAfter (s : LockState) : Op → Nat → Nat
  | .register p _ => update s.inside p 0
  | _ => s.inside

/-- `enter` is the moment in which `spinlock_acquire` succeeds; until then the task spins and
nothing changes. -/
def lockTo (s : LockState) : LockAct → Option LockState
  | .sched op => (stepTo s.kernel op).map fun k => ⟨k, insideAfter s op⟩
  | .enter h =>
    if h ≠ 0 ∧ s.inside s.curr = 0 ∧ s.holder h = 0 then some ((s.setHolder h s.curr).setInside h)
    else none
  | .wait h =>
    if h ≠ 0 ∧ s.inside s.curr = h ∧ (s.kernel.tasks.task s.curr).pid ≠ 0 then
      some { s with kernel := driverBlock s.kernel (s.kernel.files.handle h).node }
    else none
  | .move h =>
    if h ≠ 0 ∧ s.inside s.curr = h then
      some { s with kernel := driverMove s.kernel (s.kernel.files.handle h).node }
    else none
  | .leave h =>
    if h ≠ 0 ∧ s.inside s.curr = h then some ((s.setHolder h 0).setInside 0) else none

/-- No task ends inside `vfs_read` or `vfs_write`. -/
def EndsOutside (s : LockState) : LockAct → Prop
  | .sched op => ∀ p ∈ s.kernel.tasks.ring, op.ends s.kernel p → s.inside p = 0
  | _ => True

variable {s t : LockState} {k k' : Kernel} {h p : Nat} {l : List Nat}

/-- The holder of a lock is a task that can still run, inside a call on that handle. -/
structure Held (s : LockState) : Prop where
  members : ∃ l, Members s.kernel.tasks l
  holder : ∀ h, s.holder h ≠ 0 → s.kernel.tasks.live (s.holder h) = true ∧
    (s.kernel.tasks.task (s.holder h)).state.gone = false ∧ s.inside (s.holder h) = h
  null : s.holder 0 = 0

/-! Closing files leaves the locks alone -/

theorem setHandle_holder {f : Handle → Handle} (hf : ∀ x, (f x).holder = x.holder) (i : Nat) :
    ((k.setHandle h f).files.handle i).holder = (k.files.handle i).holder := by
  by_cases hi : i = h
  · subst hi
    simp [Kernel.setHandle, hf]
  · simp [Kernel.setHandle, update_of_ne hi]

theorem vfsClose_holder (i : Nat) : ((vfsClose k h).files.handle i).holder = (k.files.handle i).holder := by
  unfold vfsClose
  dsimp only
  split
  · rfl
  split
  · exact setHandle_holder (by intro; rfl) i
  refine (setHandle_holder (by intro; rfl) i).trans ?_
  rw [closeNode_frame.1]
  exact setHandle_holder (by intro; rfl) i

theorem cleanFds_holder (i : Nat) : ((schedCleanFds k p).files.handle i).holder = (k.files.handle i).holder := by
  refine cleanFds_ind (P := fun x => (x.files.handle i).holder = (k.files.handle i).holder) rfl fun x j hx => ?_
  exact (vfsClose_holder i).trans hx

theorem schedExit_holder {code : Int} (i : Nat) :
    ((schedExit k code).files.handle i).holder = (k.files.handle i).holder := by
  unfold schedExit
  dsimp only
  split
  · rfl
  · dsimp only
    rw [cleanFds_holder, cleanGui_files]

theorem schedDestroyTask_holder (i : Nat) :
    ((schedDestroyTask k p).files.handle i).holder = (k.files.handle i).holder := by
  unfold schedDestroyTask
  split
  · rfl
  · dsimp only
    rw [cleanFds_holder, cleanGui_files]

theorem step_holder {op : Op} (hm : Members k.tasks l) (hs : stepTo k op = some k')
    (i : Nat) : (k'.files.handle i).holder = (k.files.handle i).holder := by
  cases op with
  | register _ _ | block | sleep _ =>
    simp only [stepTo, ite_none_right_eq_some, some.injEq] at hs
    obtain ⟨_, rfl⟩ := hs
    rfl
  | schedule | wake _ | sendSignal _ _ | tick _ =>
    cases hs
    rfl
  | exit code =>
    cases hs
    exact schedExit_holder i
  | signal =>
    cases hs
    unfold signalCheck
    dsimp only
    split
    · exact schedExit_holder i
    · rfl
  | kill pid =>
    cases hs
    rcases Keeps.kill_eq pid hm.toRing with he | ⟨_, he⟩ | ⟨p, _, _, _, he⟩
    · rw [he]
    · rw [he]
      exact schedExit_holder i
    · rw [he, cleanFds_holder, cleanGui_files]
  | reap =>
    cases hs
    rcases hm.reap with he | ⟨l₁, p, l₂, ⟨_, _, he⟩, _⟩
    · rw [he]
    · rw [he]
      exact schedDestroyTask_holder i
  | waited p =>
    obtain ⟨l₁, l₂, _, _, he⟩ := hm.waited hs
    rw [he]
    exact schedDestroyTask_holder i

/-! The holder of a lock -/

theorem Held.step {op : Op} (h : Held s) (hs : stepTo s.kernel op = some k')
    (hE : ∀ p ∈ s.kernel.tasks.ring, op.ends s.kernel p → s.inside p = 0) : Held ⟨k', insideAfter s op⟩ := by
  obtain ⟨l, hm⟩ := h.members
  obtain ⟨hm', hmoves⟩ := hm.step hs
  have hholder : ∀ i, LockState.holder ⟨k', insideAfter s op⟩ i = s.holder i := step_holder hm hs
  refine ⟨hm', fun i hi => ?_, (hholder 0).trans h.null⟩
  rw [hholder] at hi ⊢
  obtain ⟨hlive, halive, hinside⟩ := h.holder i hi
  have hnot : ¬ op.ends s.kernel (s.holder i) := by
    intro he
    have h0 := hE _ (hm.ring_eq ▸ (hm.members _).mp hlive) he
    rw [hinside.symm.trans h0, h.null] at hi
    exact hi rfl
  obtain ⟨hlive', halive'⟩ := hmoves.alive _ hnot hlive halive
  refine ⟨hlive', halive', ?_⟩
  cases op with
  | register p x =>
    have hne : s.holder i ≠ p := by
      rintro rfl
      simp only [stepTo, ite_none_right_eq_some] at hs
      simp [hs.1.2.1] at hlive
    simp only [insideAfter, update_of_ne hne]
    exact hinside
  | _ => exact hinside

theorem setHolder_holder (i : Nat) : (s.setHolder h p).holder i = if i = h then p else s.holder i := by
  by_cases hi : i = h
  · simp [LockState.setHolder, LockState.holder, Kernel.setHandle, hi]
  · simp [LockState.setHolder, LockState.holder, Kernel.setHandle, hi]

theorem Held.enter (hs : Held s) (h0 : h ≠ 0) (hfree : s.inside s.curr = 0) :
    Held ((s.setHolder h s.curr).setInside h) := by
  obtain ⟨l, hm⟩ := hs.members
  have hholder : ∀ i, ((s.setHolder h s.curr).setInside h).holder i =
    if i = h then s.curr else s.holder i := setHolder_holder
  refine ⟨hs.members, fun i hi => ?_, ?_⟩
  · rw [hholder] at hi ⊢
    by_cases hih : i = h
    · rw [if_pos hih, hih]
      exact ⟨(hm.members _).mpr hm.curr, hm.currState, update_self ..⟩
    rw [if_neg hih] at hi ⊢
    obtain ⟨hlive, halive, hinside⟩ := hs.holder i hi
    have hne : s.holder i ≠ s.curr := by
      intro he
      rw [he, hfree] at hinside
      rw [← hinside, hs.null] at hi
      exact hi rfl
    exact ⟨hlive, halive, (update_of_ne hne ..).trans hinside⟩
  · rw [hholder, if_neg h0.symm]
    exact hs.null

theorem Held.leave (hs : Held s) (h0 : h ≠ 0) (hin : s.inside s.curr = h) : Held ((s.setHolder h 0).setInside 0) := by
  have hholder : ∀ i, ((s.setHolder h 0).setInside 0).holder i = if i = h then 0 else s.holder i := setHolder_holder
  refine ⟨hs.members, fun i hi => ?_, ?_⟩
  · rw [hholder] at hi ⊢
    by_cases hih : i = h
    · exact absurd (if_pos hih) hi
    rw [if_neg hih] at hi ⊢
    obtain ⟨hlive, halive, hinside⟩ := hs.holder i hi
    have hne : s.holder i ≠ s.curr := by
      intro he
      rw [he, hin] at hinside
      exact hih hinside.symm
    exact ⟨hlive, halive, (update_of_ne hne ..).trans hinside⟩
  · rw [hholder, if_neg h0.symm]
    exact hs.null

theorem Held.driver (h : Held s) (hm : Members s.kernel.tasks l)
    {E : Nat → Prop} (hk : Keeps E (fun _ => False) s.kernel.tasks k'.tasks l)
    (hfiles : k'.files.handle = s.kernel.files.handle) : Held { s with kernel := k' } := by
  have hholder : ∀ i, LockState.holder { s with kernel := k' } i = s.holder i := fun i => by
    rw [LockState.holder, hfiles, LockState.holder]
  refine ⟨⟨l, hk.members hm⟩, fun i hi => ?_, (hholder 0).trans h.null⟩
  rw [hholder] at hi ⊢
  obtain ⟨hlive, halive, hinside⟩ := h.holder i hi
  exact ⟨hk.live ▸ hlive, hk.gone _ id halive, hinside⟩

theorem driverBlock_spec {n : Node} : (driverBlock k n).tasks = schedBlock k.tasks ∧
    (driverBlock k n).files.handle = k.files.handle := by
  cases n <;> exact ⟨rfl, rfl⟩

theorem driverMove_spec {n : Node} (hl : Ring k.tasks l) :
    Keeps (fun _ => True) (fun _ => False) k.tasks (driverMove k n).tasks l ∧
    (driverMove k n).files.handle = k.files.handle := by
  have hidle : Keeps (fun _ => True) (fun _ => False) k.tasks k.tasks l := .of_quiet hl .refl
  have hwake : ∀ pid, Keeps (fun _ => True) (fun _ => False) k.tasks (schedWakePid k.tasks pid) l :=
    fun pid => .of_quiet hl (.wakePid fun _ _ => trivial)
  cases n with
  | pipeRead i =>
    simp only [driverMove]
    split
    · exact ⟨hwake _, rfl⟩
    · exact ⟨hidle, rfl⟩
  | pipeWrite i =>
    simp only [driverMove]
    split
    · exact ⟨hwake _, rfl⟩
    · exact ⟨hidle, rfl⟩
  | other => exact ⟨hidle, rfl⟩

theorem Held.act {a : LockAct} (hs : Held s) (hg : EndsOutside s a) (ht : lockTo s a = some t) : Held t := by
  obtain ⟨l, hm⟩ := hs.members
  cases a with
  | sched op =>
    simp only [lockTo, map_eq_some_iff] at ht
    obtain ⟨k, hk, rfl⟩ := ht
    exact hs.step hk hg
  | enter h =>
    simp only [lockTo, ite_none_right_eq_some, some.injEq] at ht
    obtain ⟨⟨h0, hfree, _⟩, rfl⟩ := ht
    exact hs.enter h0 hfree
  | wait h =>
    simp only [lockTo, ite_none_right_eq_some, some.injEq] at ht
    obtain ⟨⟨_, _, hpid⟩, rfl⟩ := ht
    refine hs.driver (E := fun _ => False) hm ?_ driverBlock_spec.2
    rw [driverBlock_spec.1]
    exact .pause hm.toRing hpid rfl Task.wakeTick
  | move h =>
    simp only [lockTo, ite_none_right_eq_some, some.injEq] at ht
    obtain ⟨_, rfl⟩ := ht
    exact hs.driver hm (driverMove_spec hm.toRing).1 (driverMove_spec hm.toRing).2
  | leave h =>
    simp only [lockTo, ite_none_right_eq_some, some.injEq] at ht
    obtain ⟨⟨h0, hin⟩, rfl⟩ := ht
    exact hs.leave h0 hin

/-- If no task ends inside `vfs_read` or `vfs_write`, a lock that is held is held by a task of the
ring that has not ended. -/
theorem lock_holder_alive {as : List LockAct} (hboot : Boot s.kernel.tasks)
    (hfree : ∀ h, s.holder h = 0) (hrun : Run (guarded (ofNext lockTo) EndsOutside) s as t) :
    ∀ h, t.holder h ≠ 0 → t.holder h ∈ t.kernel.tasks.ring ∧
      (t.kernel.tasks.task (t.holder h)).state ≠ .zombie ∧
      (t.kernel.tasks.task (t.holder h)).state ≠ .dead := by
  have hheld : Held t := by
    refine hrun.invariant (P := Held) ?_ ⟨⟨[], hboot.members⟩, fun h hh => absurd (hfree h) hh, hfree 0⟩
    rintro s a t ⟨hg, hs⟩ h
    exact h.act hg hs
  obtain ⟨l, hm⟩ := hheld.members
  intro h hh
  obtain ⟨hlive, halive, _⟩ := hheld.holder h hh
  refine ⟨hm.ring_eq ▸ (hm.members _).mp hlive, ?_, ?_⟩ <;>
    · intro he
      rw [he] at halive
      cases halive

instance (s : LockState) (a : LockAct) : Decidable (EndsOutside s a) :=
  match a with
  | .sched _ => inferInstanceAs (Decidable (∀ p ∈ _, _ → _))
  | .enter _ | .wait _ | .move _ | .leave _ => .isTrue trivial

/-- A pipe whose read handle, at 7, will be shared by two tasks. -/
def sharedPipe : LockState where
  kernel := { bootKernel with files :=
    { handle := fun _ => ⟨.pipeRead 5, 2, 0, true, 0⟩, pipe := fun _ => ⟨true, true, -1, -1⟩ } }
  inside := fun _ => 0

/-- A task that has the handle at 7 open. -/
def readerTask (pid : Int) : Task := { blankTask pid 1 with fdTbl := fun i => if i = 3 then 7 else 0 }

/-- Two tasks share the handle, and the second one blocks in `pipe_read`. -/
def blockedReader : List LockAct :=
  [.sched (.register 2 (readerTask 1)), .sched (.register 3 (readerTask 2)), .sched .schedule,
    .enter 7, .wait 7]

/-- It is woken, reads and returns before it exits. -/
def readRun : List LockAct :=
  blockedReader ++ [.sched (.wake 2), .sched .schedule, .sched .schedule, .move 7, .leave 7,
    .sched (.exit 0)]

theorem lock_holder_alive_readRun : ∃ t, Run (guarded (ofNext lockTo) EndsOutside) sharedPipe readRun t ∧
    (t.kernel.tasks.task 3).state = .zombie ∧ ∀ h, t.holder h ≠ 3 := by
  have hend : (exec (checked lockTo EndsOutside) sharedPipe readRun).map
      (fun t => (t.kernel.tasks.task 3).state) = some .zombie := by decide +kernel
  obtain ⟨t, ht, hz⟩ := map_eq_some_iff.mp hend
  have hrun := exec_checked ht
  refine ⟨t, hrun, hz, fun h hh => ?_⟩
  have halive := lock_holder_alive bootKernel_boot (fun _ => rfl) hrun h (by simp [hh])
  rw [hh] at halive
  exact halive.2.1 hz

/-- The blocked reader gets `SIGINT` and is woken, or it is killed. It ends with the lock, and the
other task can never take it. -/
theorem lock_held_by_zombie :
    (exec lockTo sharedPipe (blockedReader ++ [.sched (.sendSignal 2 SIGINT), .sched (.wake 2),
        .sched .schedule, .sched .schedule, .sched .signal])).map
      (fun t => (t.holder 7, (t.kernel.tasks.task 3).state, (t.kernel.files.handle 7).live)) = some (3, .zombie, true) ∧
    (exec lockTo sharedPipe (blockedReader ++ [.sched (.kill 2)])).map
      (fun t => (t.holder 7, (t.kernel.tasks.task 3).state, (t.kernel.files.handle 7).live)) = some (3, .zombie, true) ∧
    ((exec lockTo sharedPipe (blockedReader ++ [.sched (.kill 2)])).bind (lockTo · (.enter 7))).isNone = true := by
  decide +kernel

end NyanOS.Files
