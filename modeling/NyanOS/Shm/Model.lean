import NyanOS.Lib.SlotTable
import NyanOS.Lib.Run
import NyanOS.Sched.Model
import NyanOS.UserPointer

/-!
# Shared-memory objects and the handles on them (`ipc/shm.c`, `fs/vfs.c`, `arch/syscall.c`)

The blocks that `kmalloc` returns are arguments, and 0 is a failure. `use` is what a block of the kernel heap
was allocated for; the fields of a block keep their values when it is freed. A name is its bytes up to the
terminating zero.
-/
namespace NyanOS.Shm

open Lib Function
open Sched (maxOpenFiles)

inductive Use where
  | free
  | handle
  | node
  | shm
  /-- In use elsewhere in the kernel. -/
  | other
  deriving DecidableEq

abbrev Name := List (BitVec 8)

/-- `file_handle_t` without its lock. -/
structure Handle where
  node : Nat
  offset : BitVec 64
  mode : BitVec 32
  refCount : Int

/-- `isShm` says that the operations are `shm_ops`; the others have no `close`. -/
structure VfsNode where
  name : Name
  flags : BitVec 32
  length : BitVec 64
  isShm : Bool
  deviceData : Nat

structure SharedMem where
  name : Name
  physPages : List Nat
  size : BitVec 32
  refCount : BitVec 32

structure State where
  use : Nat → Use
  handle : Nat → Handle
  node : Nat → VfsNode
  shm : Nat → SharedMem
  /-- `g_shm_list` -/
  shmList : List Nat
  /-- `g_stdin_node` and `g_stdout_node` -/
  stdinNode : Nat
  stdoutNode : Nat
  tasks : Nat → Bool
  fd : Nat → Nat → Nat

def oCreat : BitVec 32 := 0x08

def vfsCharDevice : BitVec 32 := 0x03

def vfsNodeAutofree : BitVec 32 := 0x10

namespace State

def setUse (s : State) (a : Nat) (u : Use) : State := { s with use := update s.use a u }

def kfree (s : State) (a : Nat) : State := s.setUse a .free

def setHandle (s : State) (h : Nat) (x : Handle) : State := { s with handle := update s.handle h x }

def setNode (s : State) (n : Nat) (x : VfsNode) : State := { s with node := update s.node n x }

def setShm (s : State) (a : Nat) (x : SharedMem) : State := { s with shm := update s.shm a x }

def setFd (s : State) (p i h : Nat) : State :=
  { s with fd := update s.fd p (update (s.fd p) i h) }

end State

/-! Handles -/

def shmClose (s : State) (n : Nat) : State :=
  let a := (s.node n).deviceData
  if a = 0 then s else s.setShm a { s.shm a with refCount := (s.shm a).refCount - 1 }

def vfsRetain (s : State) (h : Nat) : State :=
  if h = 0 then s else s.setHandle h { s.handle h with refCount := (s.handle h).refCount + 1 }

/-- The part of `vfs_close` after the last reference is gone. -/
def vfsRelease (s : State) (h : Nat) : State :=
  let n := (s.handle h).node
  let s := if n ≠ 0 ∧ (s.node n).isShm then shmClose s n else s
  let s :=
    if n ≠ 0 ∧ (s.node n).flags &&& vfsNodeAutofree ≠ 0 then
      let s := if (s.node n).deviceData ≠ 0 then s.kfree (s.node n).deviceData else s
      s.kfree n
    else s
  s.kfree h

def vfsClose (s : State) (h : Nat) : State :=
  if h = 0 then s
  else
    let s := s.setHandle h { s.handle h with refCount := (s.handle h).refCount - 1 }
    if 0 < (s.handle h).refCount then s else vfsRelease s h

/-! Opening -/

/-- The blocks that `sys_shm_open` asks for. -/
structure Blocks where
  shm : Nat
  node : Nat
  handle : Nat

/-- `shm_get`, with 0 for null. -/
def shmGet (s : State) (name : Name) (flags : BitVec 32) (blk : Nat) : Nat × State :=
  if 63 < name.length then (0, s)
  else
    match s.shmList.find? fun a => (s.shm a).name = name with
    | some a => (a, s)
    | none =>
      if flags &&& oCreat ≠ 0 then
        if blk = 0 then (0, s)
        else
          let s := (s.setUse blk .shm).setShm blk ⟨name, [], 0, 0⟩
          (blk, { s with shmList := blk :: s.shmList })
      else (0, s)

/-- `shm_create_vfs_node`: the flags of the call become the flags of the node. -/
def shmCreateVfsNode (s : State) (name : Name) (flags : BitVec 32) (b : Blocks) : Nat × State :=
  let (a, s) := shmGet s name flags b.shm
  if a = 0 then (0, s)
  else
    let s := s.setShm a { s.shm a with refCount := (s.shm a).refCount + 1 }
    if b.node = 0 then (0, s) else (b.node, (s.setUse b.node .node).setNode b.node ⟨name, flags, 0, true, a⟩)

/-- The slots 0, 1 and 2 are never chosen; `none` is -1. -/
def findFreeFd (s : State) (p : Nat) : Option Nat :=
  (List.range' 3 (maxOpenFiles - 3)).find? fun i => s.fd p i = 0

/-- The reference that a failed `sys_shm_open` gives back. -/
def unref (s : State) (n : Nat) : State :=
  let a := (s.node n).deviceData
  s.setShm a { s.shm a with refCount := (s.shm a).refCount - 1 }

/-- `sys_shm_open` of the task `p` with the name at the address `arg`. -/
def sysShmOpen (s : State) (p : Nat) (arg : BitVec 64) (name : Name) (flags mode : BitVec 32) (b : Blocks) :
    State × Int :=
  if !verifyUsrAccess arg 64#64 then (s, -1)
  else
    let (n, s) := shmCreateVfsNode s name flags b
    if n = 0 then (s, -1)
    else if b.handle = 0 then ((unref s n).kfree n, -1)
    else
      let s := (s.setUse b.handle .handle).setHandle b.handle ⟨n, 0, mode, 1⟩
      match findFreeFd s p with
      | none => (((unref s n).kfree n).kfree b.handle, -1)
      | some fd => (s.setFd p fd b.handle, fd)

/-! The other calls -/

def sysClose (s : State) (p : Nat) (fd : Int) : State × Int :=
  if fd < 0 ∨ maxOpenFiles ≤ fd then (s, -1)
  else if s.fd p fd.toNat = 0 then (s, -1)
  else ((vfsClose s (s.fd p fd.toNat)).setFd p fd.toNat 0, 0)

def sysDup2 (s : State) (p : Nat) (oldFd newFd : Int) : State × Int :=
  if oldFd < 0 ∨ maxOpenFiles ≤ oldFd ∨ newFd < 0 ∨ maxOpenFiles ≤ newFd then (s, -1)
  else if s.fd p oldFd.toNat = 0 then (s, -1)
  else if oldFd = newFd then (s, newFd)
  else
    let s := if s.fd p newFd.toNat ≠ 0 then (vfsClose s (s.fd p newFd.toNat)).setFd p newFd.toNat 0 else s
    let s := s.setFd p newFd.toNat (s.fd p oldFd.toNat)
    (vfsRetain s (s.fd p newFd.toNat), newFd)

/-- The blocks of the handles of standard input, output and error. -/
structure Stdio where
  input : Nat
  output : Nat
  error : Nat

def attach (s : State) (p i h n : Nat) (mode : BitVec 32) : State :=
  ((s.setUse h .handle).setHandle h ⟨n, 0, mode, 1⟩).setFd p i h

def devAttachStdio (s : State) (p : Nat) (b : Stdio) : State :=
  if s.stdinNode = 0 ∨ s.stdoutNode = 0 then s
  else
    let s := attach s p 0 b.input s.stdinNode 1
    let s := attach s p 1 b.output s.stdoutNode 2
    attach s p 2 b.error s.stdoutNode 2

/-- The files of `sched_new_task`. -/
def schedNewTask (s : State) (p : Nat) (b : Stdio) : State :=
  let s := { s with tasks := update s.tasks p true, fd := update s.fd p fun _ => 0 }
  devAttachStdio s p b

def cleanFd (p : Nat) (s : State) (i : Nat) : State :=
  if s.fd p i ≠ 0 then (vfsClose s (s.fd p i)).setFd p i 0 else s

def schedCleanFds (s : State) (p : Nat) : State := (List.range maxOpenFiles).foldl (cleanFd p) s

def retainFd (p : Nat) (s : State) (i : Nat) : State := if s.fd p i = 0 then s else vfsRetain s (s.fd p i)

/-- The task is gone. -/
def endTask (s : State) (p : Nat) : State := { schedCleanFds s p with tasks := update s.tasks p false }

/-- `task_factory_fork`: `copied` says whether there was memory for the address space and the kernel stack. -/
def taskFactoryFork (s : State) (parent child : Nat) (b : Stdio) (copied : Bool) : State :=
  let s := schedCleanFds (schedNewTask s child b) child
  if copied then
    let s := { s with fd := update s.fd child (s.fd parent) }
    (List.range maxOpenFiles).foldl (retainFd child) s
  else endTask s child

/-! Runs -/

inductive Call where
  | shmOpen (arg : BitVec 64) (name : Name) (flags mode : BitVec 32) (b : Blocks)
  | fork (child : Nat) (b : Stdio) (copied : Bool)
  | dup2 (oldFd newFd : Int)
  | close (fd : Int)
  | exit

/-- What a task does, or that the kernel starts one. -/
inductive Act where
  | call (p : Nat) (c : Call)
  | spawn (p : Nat) (b : Stdio)

/-- `kmalloc` returns a block that is in no use, or null. -/
def State.isFree (s : State) (a : Nat) : Bool := a = 0 || s.use a = .free

def State.stdioFree (s : State) (b : Stdio) : Bool :=
  s.use b.input = .free && s.use b.output = .free && s.use b.error = .free && [0, b.input, b.output, b.error].Nodup

def Blocks.distinct (b : Blocks) : Bool :=
  (b.shm = 0 || b.shm ≠ b.node && b.shm ≠ b.handle) && (b.node = 0 || b.node ≠ b.handle)

def callTo (s : State) (p : Nat) : Call → Option State
  | .shmOpen arg name flags mode b =>
    if s.isFree b.shm && s.isFree b.node && s.isFree b.handle && b.distinct then
      some (sysShmOpen s p arg name flags mode b).1
    else none
  | .fork child b copied =>
    if !s.tasks child && s.stdioFree b then some (taskFactoryFork s p child b copied) else none
  | .dup2 oldFd newFd => some (sysDup2 s p oldFd newFd).1
  | .close fd => some (sysClose s p fd).1
  | .exit => some (endTask s p)

def actTo (s : State) : Act → Option State
  | .call p c => if s.tasks p then callTo s p c else none
  | .spawn p b => if !s.tasks p && s.stdioFree b then some (schedNewTask s p b) else none

/-- The kernel after `dev_init_stdio`, before the first task; `used` are the other blocks in use. -/
def boot (used : Nat → Bool) (stdin stdout : Nat) : State where
  use a := if a = stdin ∨ a = stdout then .node else if used a then .other else .free
  handle _ := ⟨0, 0, 0, 0⟩
  node _ := ⟨[], vfsCharDevice, 0, false, 0⟩
  shm _ := ⟨[], [], 0, 0⟩
  shmList := []
  stdinNode := stdin
  stdoutNode := stdout
  tasks _ := false
  fd _ _ := 0

end NyanOS.Shm
