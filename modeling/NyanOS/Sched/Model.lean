import Mathlib.Tactic

/-!
# Tasks, windows and open files (`sched/sched.c`, `gui/window.c`, `fs/vfs.c`)

Pointers are addresses, and 0 is null. A `do ... while` loop over the task ring visits the tasks of
`ring`. Freed blocks keep their content; `wild` remembers whether a freed task was written to.
-/

namespace NyanOS.Sched

open Function

def maxOpenFiles : Nat := 16

inductive TaskState
  | ready
  | waiting
  | dead
  | zombie
  | sleeping
  deriving DecidableEq

/-- The states in which a task is never to run again. -/
def TaskState.gone (s : TaskState) : Bool := s == .dead || s == .zombie

structure Task where
  pid : Int
  state : TaskState
  next : Nat
  fdTbl : Nat → Nat
  parent : Nat
  retVal : Int
  win : Nat
  sigint : Bool
  waitNext : Nat
  wakeTick : Int

/-- `live` are the blocks of tasks that are allocated, and `registered` counts the calls of
`sched_register_task`. -/
structure Tasks where
  task : Nat → Task
  head : Nat
  curr : Nat
  live : Nat → Bool
  registered : Nat
  wild : Bool

structure Window where
  prev : Nat
  next : Nat
  ownerPid : Int
  borderless : Bool

structure Windows where
  window : Nat → Window
  list : Nat
  top : Nat
  live : Nat → Bool

/-- What the nodes of the handles do when they are closed. -/
inductive Node
  | pipeRead (pipe : Nat)
  | pipeWrite (pipe : Nat)
  | other
  deriving DecidableEq

/-- `closes` counts the calls of the close operation for the handle, and `holder` is the task that
has its lock. -/
structure Handle where
  node : Node
  refCount : Int
  holder : Nat
  live : Bool
  closes : Nat

structure Pipe where
  readOpen : Bool
  writeOpen : Bool
  readerPid : Int
  writerPid : Int

structure Files where
  handle : Nat → Handle
  pipe : Nat → Pipe

structure Kernel where
  tasks : Tasks
  windows : Windows
  files : Files

def Tasks.set (s : Tasks) (p : Nat) (f : Task → Task) : Tasks :=
  { s with task := update s.task p (f (s.task p)), wild := s.wild || !s.live p }

section
variable (s : Tasks) (p q : Nat) (f : Task → Task)

@[simp] theorem Tasks.set_head : (s.set p f).head = s.head := rfl
@[simp] theorem Tasks.set_curr : (s.set p f).curr = s.curr := rfl
@[simp] theorem Tasks.set_live : (s.set p f).live = s.live := rfl
@[simp] theorem Tasks.set_registered : (s.set p f).registered = s.registered := rfl

@[simp] theorem Tasks.set_task_self : (s.set p f).task p = f (s.task p) := update_self ..

theorem Tasks.set_task_of_ne {p q : Nat} (h : q ≠ p) : (s.set p f).task q = s.task q := update_of_ne h ..

theorem Tasks.set_set (g : Task → Task) : (s.set p f).set p g = s.set p fun x => g (f x) := by
  simp [Tasks.set, Bool.or_assoc]

theorem Tasks.set_field {α : Type} (g : Task → α) (hg : ∀ x, g (f x) = g x) :
    g ((s.set p f).task q) = g (s.task q) := by
  by_cases hqp : q = p
  · rw [hqp, Tasks.set_task_self, hg]
  · rw [Tasks.set_task_of_ne s f hqp]

end

def Tasks.setState (s : Tasks) (p : Nat) (state : TaskState) : Tasks :=
  s.set p fun t => { t with state := state }

/-- The tasks from `t` on, until the head comes again. -/
def Tasks.ringFrom (s : Tasks) : Nat → Nat → List Nat
  | 0, _ => []
  | n + 1, t => t :: if (s.task t).next = s.head then [] else s.ringFrom n (s.task t).next

def Tasks.ring (s : Tasks) : List Nat := if s.head = 0 then [] else s.ringFrom s.registered s.head

def schedFindTask (s : Tasks) (pid : Int) : Nat := (s.ring.find? fun t => (s.task t).pid = pid).getD 0

def schedWakePid (s : Tasks) (pid : Int) : Tasks :=
  let t := schedFindTask s pid
  if t ≠ 0 ∧ (s.task t).state.gone = false then s.setState t .ready else s

def SIGINT : Nat := 2

/-- Of the pending signals only `SIGINT` is ever read. -/
def schedSendSignal (s : Tasks) (pid : Int) (sigCode : Nat) : Tasks :=
  let t := schedFindTask s pid
  if t ≠ 0 then s.set t fun t => { t with sigint := t.sigint || sigCode == SIGINT } else s

/-- One turn of `sched_reparent_children_locked`. -/
def reparentOne (isWinOwner : Bool) (exiting : Nat) (s : Tasks) (t : Nat) : Tasks :=
  if (s.task t).parent = exiting then
    let s := s.set t fun t => { t with parent := s.head }
    if isWinOwner ∧ (s.task t).pid ≠ 0 ∧ (s.task t).state.gone = false then
      s.set t fun t => { t with sigint := true, state := .ready }
    else s
  else s

def schedReparentChildren (s : Tasks) (isWinOwner : Bool) (exiting : Nat) : Tasks :=
  s.ring.foldl (reparentOne isWinOwner exiting) s

def schedRegisterTask (s : Tasks) (p : Nat) (t : Task) : Tasks :=
  let s := { s with
    task := update s.task p t
    live := update s.live p true
    registered := s.registered + 1 }
  let s := if s.head = 0 then { s.set p fun t => { t with next := p } with head := p, curr := p }
    else (s.set p fun t => { t with next := (s.task s.head).next }).set s.head fun t => { t with next := p }
  s.setState p .ready

/-- The search for a task that is ready, from `t` on until `stop` comes. -/
def pickReady (s : Tasks) (advance : Nat → Nat) (stop : Nat) : Nat → Nat → Nat
  | 0, _ => s.head
  | n + 1, t =>
    if (s.task t).state = .ready then t
    else if advance t = stop then s.head
    else pickReady s advance stop n (advance t)

/-- The pointer to the next task, or the head if it is null. -/
def Tasks.nextOrHead (s : Tasks) (t : Nat) : Nat := if (s.task t).next = 0 then s.head else (s.task t).next

/-- `schedule` up to the switch. What it does after it is `signalCheck`, in the task that goes on. -/
def schedule (s : Tasks) : Tasks :=
  if s.head = 0 then s
  else if s.curr = 0 then { s with curr := s.head }
  else { s with curr := pickReady s s.nextOrHead (s.nextOrHead s.curr) s.registered (s.nextOrHead s.curr) }

def schedBlock (s : Tasks) : Tasks := schedule (s.setState s.curr .waiting)

def prevOf (s : Tasks) (p : Nat) : Nat → Nat → Nat
  | 0, prev => prev
  | n + 1, prev =>
    if (s.task prev).next ≠ p ∧ (s.task prev).next ≠ s.head then prevOf s p n (s.task prev).next else prev

def schedUnlinkTask (s : Tasks) (p : Nat) : Tasks :=
  if s.head = 0 then s
  else
    let prev := prevOf s p s.registered s.head
    if (s.task prev).next = p then
      let s := s.set prev fun t => { t with next := (s.task p).next }
      if p = s.head then { s with head := if (s.task p).next = p then 0 else (s.task p).next } else s
    else s

/-! Windows -/

def Windows.set (w : Windows) (p : Nat) (f : Window → Window) : Windows :=
  { w with window := update w.window p (f (w.window p)) }

def winClose (w : Windows) (p : Nat) : Windows :=
  let prev := (w.window p).prev
  let next := (w.window p).next
  let w := if prev = 0 ∧ next = 0 then { w with list := 0, top := 0 }
    else if p = w.list then
      let w : Windows := { w with list := (w.window w.list).next }
      if w.list ≠ 0 then w.set w.list fun x => { x with prev := 0 } else w
    else if p = w.top then
      let w : Windows := { w with top := (w.window w.top).prev }
      if w.top ≠ 0 then w.set w.top fun x => { x with next := 0 } else w
    else (w.set prev fun x => { x with next := next }).set next fun x => { x with prev := prev }
  { w with live := update w.live p false }

/-! Open files -/

def Kernel.setHandle (k : Kernel) (h : Nat) (f : Handle → Handle) : Kernel :=
  { k with files := { k.files with
    handle := update k.files.handle h (f (k.files.handle h)) } }

def Kernel.setPipe (k : Kernel) (p : Nat) (f : Pipe → Pipe) : Kernel :=
  { k with files := { k.files with pipe := update k.files.pipe p (f (k.files.pipe p)) } }

def pipeCloseReader (k : Kernel) (p : Nat) : Kernel :=
  let k := k.setPipe p fun x => { x with readOpen := false }
  let pid := (k.files.pipe p).writerPid
  if pid ≠ -1 then
    ({ k with tasks := schedWakePid k.tasks pid } : Kernel).setPipe p fun x => { x with writerPid := -1 }
  else k

def pipeCloseWriter (k : Kernel) (p : Nat) : Kernel :=
  let k := k.setPipe p fun x => { x with writeOpen := false }
  let pid := (k.files.pipe p).readerPid
  if pid ≠ -1 then
    ({ k with tasks := schedWakePid k.tasks pid } : Kernel).setPipe p fun x => { x with readerPid := -1 }
  else k

def closeNode (k : Kernel) : Node → Kernel
  | .pipeRead p => pipeCloseReader k p
  | .pipeWrite p => pipeCloseWriter k p
  | .other => k

def vfsRetain (k : Kernel) (h : Nat) : Kernel :=
  if h = 0 then k else k.setHandle h fun x => { x with refCount := x.refCount + 1 }

def vfsClose (k : Kernel) (h : Nat) : Kernel :=
  if h = 0 then k
  else
    let k := k.setHandle h fun x => { x with refCount := x.refCount - 1 }
    if 0 < (k.files.handle h).refCount then k
    else
      (closeNode k (k.files.handle h).node).setHandle h fun x =>
        { x with live := false, closes := x.closes + 1 }

def Kernel.onTasks (k : Kernel) (f : Tasks → Tasks) : Kernel := { k with tasks := f k.tasks }

def Kernel.setTask (k : Kernel) (p : Nat) (f : Task → Task) : Kernel :=
  { k with tasks := k.tasks.set p f }

def Kernel.setFd (k : Kernel) (p i h : Nat) : Kernel :=
  k.setTask p fun t => { t with fdTbl := update t.fdTbl i h }

/-! The end of a task -/

def schedCleanGui (k : Kernel) (p : Nat) : Kernel :=
  let win := (k.tasks.task p).win
  if win = 0 then k
  else
    let k := if (k.windows.window win).ownerPid = (k.tasks.task p).pid then
        { k with windows := winClose k.windows win } else k
    k.setTask p fun t => { t with win := 0 }

def cleanFd (p : Nat) (k : Kernel) (i : Nat) : Kernel :=
  if (k.tasks.task p).fdTbl i = 0 then k
  else (vfsClose k ((k.tasks.task p).fdTbl i)).setFd p i 0

def schedCleanFds (k : Kernel) (p : Nat) : Kernel := (List.range maxOpenFiles).foldl (cleanFd p) k

/-- The parent of a task that has ended is set ready. -/
def wakeParent (s : Tasks) (p : Nat) : Tasks :=
  let parent := (s.task p).parent
  if parent ≠ 0 ∧ (s.task parent).state.gone = false then s.setState parent .ready else s

def becomeZombie (s : Tasks) (p : Nat) (code : Int) : Tasks :=
  wakeParent (s.set p fun t => { t with state := .zombie, retVal := code }) p

def isWinOwner (k : Kernel) (p : Nat) : Bool :=
  (k.tasks.task p).win ≠ 0 && (k.windows.window (k.tasks.task p).win).ownerPid == (k.tasks.task p).pid

def schedExit (k : Kernel) (code : Int) : Kernel :=
  let p := k.tasks.curr
  if (k.tasks.task p).pid = 0 then k
  else
    let k := schedCleanFds (schedCleanGui k p) p
    let s := schedReparentChildren k.tasks (isWinOwner k p) p
    let next := pickReady s (fun t => (s.task t).next) p s.registered (s.task p).next
    let s := { s with head := if s.head = p then next else s.head, curr := next }
    { k with tasks := becomeZombie s p code }

/-- The end of `schedule`, in the task that goes on. -/
def signalCheck (k : Kernel) : Kernel :=
  let p := k.tasks.curr
  if p ≠ 0 ∧ (k.tasks.task p).pid ≠ 0 ∧ (k.tasks.task p).sigint then
    schedExit (k.setTask p fun t => { t with sigint := false }) 0
  else k

def schedKill (k : Kernel) (pid : Int) : Kernel :=
  if pid ≤ 0 then k
  else if pid = (k.tasks.task k.tasks.curr).pid then schedExit k (-1)
  else
    let p := schedFindTask k.tasks pid
    if p = 0 ∨ (k.tasks.task p).state.gone = true then k
    else
      let s := schedReparentChildren k.tasks (isWinOwner k p) p
      schedCleanFds (schedCleanGui { k with tasks := becomeZombie s p (-1) } p) p

/-- `sched_destroy_task`, without the memory of the task (`NyanOS.Memory`). -/
def schedDestroyTask (k : Kernel) (p : Nat) : Kernel :=
  if p = 0 ∨ (k.tasks.task p).pid = 0 then k
  else
    let k := schedCleanFds (schedCleanGui k p) p
    { k with tasks := { k.tasks with
        live := update k.tasks.live p false
        wild := k.tasks.wild || !k.tasks.live p } }

/-- The task that `sched_reap_zombies` takes: its parent will not wait for it. -/
def reapable (s : Tasks) (t : Nat) : Bool :=
  (s.task t).pid ≠ 0 && t ≠ s.curr && (s.task t).state == .zombie &&
    ((s.task t).parent == 0 || (s.task (s.task t).parent).pid == 0 ||
      (s.task (s.task t).parent).state.gone)

/-- The loop of `sched_reap_zombies` with its trailing pointer. -/
def reapFrom (s : Tasks) : List Nat → Nat → Option (Nat × Nat)
  | [], _ => none
  | t :: ts, prev => if reapable s t then some (t, prev) else reapFrom s ts t

def schedReapZombies (k : Kernel) : Kernel :=
  match reapFrom k.tasks k.tasks.ring (k.tasks.ring.getLastD 0) with
  | none => k
  | some (t, prev) =>
    let next := (k.tasks.task t).next
    let s := k.tasks.set prev fun x => { x with next := next }
    let s := if t = s.head then { s with head := next } else s
    schedDestroyTask { k with tasks := s } t

/-- `win_send_event_to_owner`: what it does to the task, which has an event queue. -/
def winSendEventToOwner (s : Tasks) (pid : Int) : Tasks :=
  if pid ≤ 0 then s
  else
    let t := schedFindTask s pid
    if t ≠ 0 ∧ ((s.task t).state = .sleeping ∨ (s.task t).state = .waiting) then s.setState t .ready
    else s

def wakeSleeper (now : Int) (s : Tasks) (t : Nat) : Tasks :=
  if (s.task t).state = .sleeping ∧ (s.task t).wakeTick ≤ now then
    s.set t fun t => { t with state := .ready, wakeTick := -1 }
  else s

def schedCheckSleepingTasks (s : Tasks) (now : Int) : Tasks := s.ring.foldl (wakeSleeper now) s

def sysSleep (s : Tasks) (wakeTick : Int) : Tasks :=
  schedule (s.set s.curr fun t => { t with wakeTick := wakeTick, state := .sleeping })

end NyanOS.Sched
