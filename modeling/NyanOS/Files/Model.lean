import NyanOS.Sched.Runs
import NyanOS.UserPointer

/-!
# The system calls on file handles (`arch/syscall.c`, `fs/dev.c`, `sched/sched.c`)

The blocks that `kmalloc` returns are arguments, and 0 is a failure. A handle lives from the moment its
fields are set until `vfs_close` frees it. `pipeLive` are the pipes that are allocated, and `opens` counts
the handles that were set up at an address.
-/
namespace NyanOS.Files

open Sched Function

structure FileState where
  kernel : Kernel
  pipeLive : Nat → Bool
  opens : Nat → Nat

def FileState.on (s : FileState) (f : Kernel → Kernel) : FileState := { s with kernel := f s.kernel }

def FileState.curr (s : FileState) : Nat := s.kernel.tasks.curr

def FileState.fd (s : FileState) (p i : Nat) : Nat := (s.kernel.tasks.task p).fdTbl i

def FileState.setFd (s : FileState) (p i h : Nat) : FileState := s.on (·.setFd p i h)

/-- The slots 0, 1 and 2 are never chosen; `none` is -1. -/
def findFreeFd (s : FileState) (p : Nat) : Option Nat :=
  (List.range' 3 (maxOpenFiles - 3)).find? fun i => s.fd p i = 0

/-- The fields of a new handle are set. -/
def initHandle (s : FileState) (h : Nat) (n : Node) : FileState :=
  { s with
    kernel := s.kernel.setHandle h fun x => { x with node := n, refCount := 1, holder := 0, live := true }
    opens := update s.opens h (s.opens h + 1) }

/-- `sys_open`: whether the name could be copied, and the block of the handle that `vfs_open` returns, 0
if it returns null. Its node is none of a pipe. -/
def sysOpen (s : FileState) (copied : Bool) (f : Nat) : FileState × Int :=
  if copied then
    match findFreeFd s s.curr with
    | none => (s, -1)
    | some fd => if f = 0 then (s, -1) else ((initHandle s f .other).setFd s.curr fd f, fd)
  else (s, -1)

def sysClose (s : FileState) (fd : Int) : FileState × Int :=
  if fd < 0 ∨ maxOpenFiles ≤ fd then (s, -1)
  else if s.fd s.curr fd.toNat = 0 then (s, -1)
  else ((s.on (vfsClose · (s.fd s.curr fd.toNat))).setFd s.curr fd.toNat 0, 0)

def sysDup2 (s : FileState) (oldFd newFd : Int) : FileState × Int :=
  if s.curr = 0 then (s, -1)
  else if oldFd < 0 ∨ maxOpenFiles ≤ oldFd ∨ newFd < 0 ∨ maxOpenFiles ≤ newFd then (s, -1)
  else if s.fd s.curr oldFd.toNat = 0 then (s, -1)
  else if oldFd = newFd then (s, newFd)
  else
    let p := s.curr
    let s := if s.fd p newFd.toNat ≠ 0 then (s.on (vfsClose · (s.fd p newFd.toNat))).setFd p newFd.toNat 0 else s
    let s := s.setFd p newFd.toNat (s.fd p oldFd.toNat)
    (s.on (vfsRetain · (s.fd p newFd.toNat)), newFd)

/-- The blocks that `sys_pipe` asks for. -/
structure PipeBlocks where
  handleRead : Nat
  handleWrite : Nat
  pipe : Nat
  nodeRead : Nat
  nodeWrite : Nat
  deriving DecidableEq

def initPipe (s : FileState) (b : Nat) : FileState :=
  { s with
    kernel := s.kernel.setPipe b fun _ => ⟨true, true, -1, -1⟩
    pipeLive := update s.pipeLive b true }

def freePipe (s : FileState) (b : Nat) : FileState := { s with pipeLive := update s.pipeLive b false }

/-- `sys_pipe`, with the two numbers it writes to user memory. The handles stand in their slots before
their fields are set. -/
def sysPipe (s : FileState) (fdPtr : BitVec 64) (b : PipeBlocks) : FileState × Option (Nat × Nat) :=
  let p := s.curr
  if !verifyUsrAccess fdPtr 8#64 then (s, none)
  else if p = 0 then (s, none)
  else
    match findFreeFd s p with
    | none => (s, none)
    | some readFd =>
      if b.handleRead = 0 then (s, none)
      else
        let s := s.setFd p readFd b.handleRead
        match findFreeFd s p with
        | none => (s.setFd p readFd 0, none)
        | some writeFd =>
          if b.handleWrite = 0 then (s.setFd p readFd 0, none)
          else
            let s := s.setFd p writeFd b.handleWrite
            if b.pipe = 0 then ((s.setFd p readFd 0).setFd p writeFd 0, none)
            else
              let s := initPipe s b.pipe
              if b.nodeRead = 0 then (((freePipe s b.pipe).setFd p readFd 0).setFd p writeFd 0, none)
              else if b.nodeWrite = 0 then (((freePipe s b.pipe).setFd p readFd 0).setFd p writeFd 0, none)
              else
                let s := initHandle s b.handleRead (.pipeRead b.pipe)
                (initHandle s b.handleWrite (.pipeWrite b.pipe), some (readFd, writeFd))

/-! New tasks -/

/-- The blocks of the handles of standard input, output and error. -/
structure Stdio where
  input : Nat
  output : Nat
  error : Nat
  deriving DecidableEq

/-- `dev_attach_stdio`; its nodes are set up before the first task is. -/
def devAttachStdio (s : FileState) (p : Nat) (b : Stdio) : FileState :=
  let s := (initHandle s b.input .other).setFd p 0 b.input
  let s := (initHandle s b.output .other).setFd p 1 b.output
  (initHandle s b.error .other).setFd p 2 b.error

/-- `sched_new_task` with the block of the task. -/
def schedNewTask (s : FileState) (p : Nat) (pid : Int) (b : Stdio) : FileState :=
  let x : Task :=
    { pid := pid
      state := .waiting
      next := 0
      fdTbl := fun _ => 0
      parent := s.curr
      retVal := 0
      win := 0
      sigint := false
      waitNext := 0
      wakeTick := -1 }
  let s := s.on (·.onTasks fun t => { t with
    task := update t.task p x
    live := update t.live p true })
  devAttachStdio s p b

def retainFd (p : Nat) (k : Kernel) (i : Nat) : Kernel :=
  if (k.tasks.task p).fdTbl i = 0 then k else vfsRetain k ((k.tasks.task p).fdTbl i)

/-- `task_factory_fork` after `sched_new_task`, with the child or null. `copied` says whether the address
space could be copied, and `stack` whether there was a frame for the kernel stack. -/
def taskFactoryFork (s : FileState) (parent child : Nat) (copied stack : Bool) : FileState × Nat :=
  -- the loop that closes the files of the child is the one of `sched_clean_fds`
  let s := s.on (schedCleanFds · child)
  if !copied then (s.on (schedDestroyTask · child), 0)
  else if !stack then (s.on (schedDestroyTask · child), 0)
  else
    let x := s.kernel.tasks.task parent
    let s := s.on (·.setTask child fun t => { t with fdTbl := x.fdTbl })
    let s := s.on fun k => (List.range maxOpenFiles).foldl (retainFd child) k
    (s.on (·.setTask child fun t => { t with parent := parent, state := .ready, win := x.win }), child)

def register (s : FileState) (p : Nat) : FileState :=
  s.on (·.onTasks fun t => schedRegisterTask t p (t.task p))

/-- `sys_fork` with the block of the child, 0 if `sched_new_task` fails. -/
def sysFork (s : FileState) (child : Nat) (pid : Int) (b : Stdio) (copied stack : Bool) : FileState × Int :=
  if child = 0 then (s, -1)
  else
    let r := taskFactoryFork (schedNewTask s child pid b) s.curr child copied stack
    if r.2 = 0 then (r.1, -1) else (register r.1 child, pid)

/-- `spawn_elf_app`: the task is destroyed if it cannot be loaded. -/
def spawnElfApp (s : FileState) (p : Nat) (pid : Int) (b : Stdio) (loaded : Bool) : FileState :=
  if p = 0 then s
  else
    let s := schedNewTask s p pid b
    if loaded then register s p else s.on (schedDestroyTask · p)

/-! Steps -/

inductive FileAct
  | sched (op : Op)
  | openFile (copied : Bool) (f : Nat)
  | close (fd : Int)
  | dup2 (oldFd newFd : Int)
  | pipe (fdPtr : BitVec 64) (b : PipeBlocks)
  | fork (child : Nat) (pid : Int) (b : Stdio) (copied stack : Bool)
  | spawn (p : Nat) (pid : Int) (b : Stdio) (loaded : Bool)

/-- `kmalloc` returns a block that is in no use. -/
def FileState.free (s : FileState) (h : Nat) : Bool := !(s.kernel.files.handle h).live

def FileState.stdioFree (s : FileState) (b : Stdio) : Bool :=
  b.input ≠ 0 && b.output ≠ 0 && b.error ≠ 0 && s.free b.input && s.free b.output && s.free b.error &&
    b.input ≠ b.output && b.input ≠ b.error && b.output ≠ b.error

/-- A new task has a block that is free and a new pid. -/
def FileState.taskFree (s : FileState) (p : Nat) (pid : Int) : Bool :=
  !s.kernel.tasks.live p && pid ≠ 0 && s.kernel.tasks.ring.all fun q => (s.kernel.tasks.task q).pid ≠ pid

def isRegister : Op → Bool
  | .register _ _ => true
  | _ => false

def fileTo (s : FileState) : FileAct → Option FileState
  | .sched op => if isRegister op then none else (stepTo s.kernel op).map fun k => { s with kernel := k }
  | .openFile copied f => if s.free f then some (sysOpen s copied f).1 else none
  | .close fd => some (sysClose s fd).1
  | .dup2 oldFd newFd => some (sysDup2 s oldFd newFd).1
  | .pipe fdPtr b =>
    if s.free b.handleRead ∧ s.free b.handleWrite ∧ (b.handleWrite = 0 ∨ b.handleRead ≠ b.handleWrite) ∧
        s.pipeLive b.pipe = false then
      some (sysPipe s fdPtr b).1
    else none
  | .fork child pid b copied stack =>
    if s.stdioFree b ∧ s.taskFree child pid then some (sysFork s child pid b copied stack).1 else none
  | .spawn p pid b loaded =>
    if s.stdioFree b ∧ s.taskFree p pid then some (spawnElfApp s p pid b loaded) else none

end NyanOS.Files
