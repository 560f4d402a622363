import NyanOS.Lib.Trace
import NyanOS.Sched.Model
import NyanOS.UserPointer

/-!
# The descriptor argument of the system calls (`arch/syscall.c`)

Each handler narrows the 64-bit argument to its own type and indexes the table of the current task with
it. The indices are the trace of the call; C does not check them, so they are integers.
-/
namespace NyanOS.Syscall

open Lib Sched

/-- `(int8_t)arg` -/
def toInt8 (arg : BitVec 64) : Int := (arg.setWidth 8).toInt

/-- `(int)arg` -/
def toInt32 (arg : BitVec 64) : Int := (arg.setWidth 32).toInt

/-- `sys_dup2` has two descriptors. -/
inductive Operand where
  | fd
  | newFd
  deriving DecidableEq

structure Index where
  operand : Operand
  slot : Int
  deriving DecidableEq

structure ShmObject where
  size : BitVec 32
  pageCount : BitVec 32

structure FileNode where
  flags : BitVec 32
  length : BitVec 64
  /-- `none` if the operations are not those of shared memory; the object may be missing. -/
  shm : Option (Option ShmObject)

structure OpenFile where
  node : Option FileNode
  offset : BitVec 64

/-- The table of the current task, 0 for a null entry, and the handles behind it. -/
structure FdTable where
  entry : Int → Nat
  file : Nat → OpenFile

abbrev FdM := Traced Index

def FdTable.at (t : FdTable) (o : Operand) (i : Int) : FdM Nat := do
  Traced.emit ⟨o, i⟩
  return t.entry i

inductive Whence where
  | set
  | cur
  | fromEnd
  | other
  deriving DecidableEq

inductive FileKind where
  | chr
  | dir
  | reg
  deriving DecidableEq

/-- What a handler does once it has its handle; `fail` carries the value returned. -/
inductive Outcome where
  | fail (ret : Int)
  | read (h : Nat) (buf count : BitVec 64)
  | write (h : Nat) (buf count : BitVec 64)
  | close (h : Nat)
  | seek (h : Nat) (offset : BitVec 64)
  | readdir (h : Nat) (idx : BitVec 32) (dirent : BitVec 64)
  | stat (h : Nat) (size : BitVec 64) (kind : FileKind)
  | sameFd (fd : Int)
  | dup (h closed : Nat) (newFd : Int)
  | map (object : ShmObject) (length : BitVec 64)
  | setSize (object : ShmObject) (size : BitVec 32)

/-- The range test, the entry of the table and its test, with the value returned if a test fails. -/
def withEntry (t : FdTable) (fd : Int) (ret : Int) (rest : Nat → Outcome) : FdM Outcome :=
  if fd < 0 ∨ maxOpenFiles ≤ fd then return .fail ret
  else do
    let h ← t.at .fd fd
    return if h = 0 then .fail ret else rest h

def sysRead (t : FdTable) (arg buf count : BitVec 64) : FdM Outcome :=
  withEntry t (toInt8 arg) (-1) fun h => if verifyUsrAccess buf count then .read h buf count else .fail (-1)

def sysWrite (t : FdTable) (arg buf count : BitVec 64) : FdM Outcome :=
  withEntry t (toInt8 arg) (-1) fun h => if verifyUsrAccess buf count then .write h buf count else .fail (-1)

def sysClose (t : FdTable) (arg : BitVec 64) : FdM Outcome := withEntry t (toInt8 arg) (-1) .close

def seekTo (f : OpenFile) (n : FileNode) (offset : BitVec 64) : Whence → Option (BitVec 64)
  | .set => some offset
  | .cur => some (f.offset + offset)
  | .fromEnd => some (n.length + offset)
  | .other => none

def sysLseek (t : FdTable) (arg offset : BitVec 64) (w : Whence) : FdM Outcome :=
  withEntry t (toInt32 arg) (-1) fun h =>
    match (t.file h).node with
    | none => .fail (-1)
    | some n =>
      match seekTo (t.file h) n offset w with
      | none => .fail (-1)
      | some o => if o.toInt < 0 then .fail (-1) else .seek h o

/-- `sizeof(dirent_t)` is 144. -/
def sysReaddir (t : FdTable) (arg idx dirent : BitVec 64) : FdM Outcome :=
  withEntry t (toInt32 arg) (-1) fun h =>
    if verifyUsrAccess dirent 144#64 then .readdir h (idx.setWidth 32) dirent else .fail (-1)

def vfsDirectory : BitVec 32 := 0x02

/-- `sizeof(stat_t)` is 40. -/
def sysFstat (t : FdTable) (arg st : BitVec 64) : FdM Outcome :=
  withEntry t (toInt32 arg) (-1) fun h =>
    match (t.file h).node with
    | none => .fail (-1)
    | some n =>
      if !verifyUsrAccess st 40#64 then .fail (-1)
      else
        match n.shm with
        | some object => .stat h (object.elim 0 fun x => x.size.setWidth 64) .chr
        | none => if n.flags = vfsDirectory then .stat h 0 .dir else .stat h n.length .reg

/-- Both descriptors are tested before the table is read. -/
def sysDup2 (t : FdTable) (arg newArg : BitVec 64) : FdM Outcome :=
  let oldFd := toInt32 arg
  let newFd := toInt32 newArg
  if oldFd < 0 ∨ maxOpenFiles ≤ oldFd ∨ newFd < 0 ∨ maxOpenFiles ≤ newFd then return .fail (-1)
  else do
    let h ← t.at .fd oldFd
    if h = 0 then return .fail (-1)
    else if oldFd = newFd then return .sameFd newFd
    else
      let closed ← t.at .newFd newFd
      return .dup h closed newFd

/-- `sys_mmap` returns 0 where the others return -1. -/
def sysMmap (t : FdTable) (length arg : BitVec 64) : FdM Outcome :=
  withEntry t (toInt32 arg) 0 fun h =>
    match (t.file h).node.bind (·.shm) with
    | some (some object) => if object.pageCount = 0 then .fail 0 else .map object length
    | _ => .fail 0

/-- `sys_ftruncate` has no range test. -/
def sysFtruncate (t : FdTable) (arg length : BitVec 64) : FdM Outcome := do
  let h ← t.at .fd (toInt32 arg)
  if h = 0 then return .fail (-1)
  else
    match (t.file h).node.bind (·.shm) with
    | some (some object) => return .setSize object (length.setWidth 32)
    | _ => return .fail (-1)

/-- A handler with its arguments other than the descriptor. -/
inductive Handler where
  | read (buf count : BitVec 64)
  | write (buf count : BitVec 64)
  | close
  | lseek (offset : BitVec 64) (whence : Whence)
  | readdir (idx dirent : BitVec 64)
  | fstat (st : BitVec 64)
  | dup2 (newArg : BitVec 64)
  | mmap (length : BitVec 64)
  | ftruncate (length : BitVec 64)

def Handler.run (t : FdTable) (arg : BitVec 64) : Handler → FdM Outcome
  | .read buf count => sysRead t arg buf count
  | .write buf count => sysWrite t arg buf count
  | .close => sysClose t arg
  | .lseek offset whence => sysLseek t arg offset whence
  | .readdir idx dirent => sysReaddir t arg idx dirent
  | .fstat st => sysFstat t arg st
  | .dup2 newArg => sysDup2 t arg newArg
  | .mmap length => sysMmap t length arg
  | .ftruncate length => sysFtruncate t arg length

/-- The other descriptor of `sys_dup2` is in range, so that the call is about the first. -/
def Handler.Proper : Handler → Prop
  | .dup2 newArg => 0 ≤ toInt32 newArg ∧ toInt32 newArg < maxOpenFiles
  | _ => True

/-- The indices that come from the descriptor argument. -/
def slotsOf (x : FdM Outcome) : List Int := (x.events.filter (·.operand = .fd)).map (·.slot)

/-- The handlers agree on a descriptor: all reject it, or all index the table at one slot of it. -/
def Agree (t : FdTable) (arg : BitVec 64) : Prop :=
  (∀ h : Handler, h.Proper → slotsOf (h.run t arg) = []) ∨
    ∃ i : Int, 0 ≤ i ∧ i < maxOpenFiles ∧ ∀ h : Handler, h.Proper → slotsOf (h.run t arg) = [i]

theorem toInt32_eq (arg : BitVec 64) (h : arg.toNat % 2 ^ 32 < maxOpenFiles) :
    toInt32 arg = (arg.toNat % 2 ^ 32 : Nat) := by
  unfold maxOpenFiles at h
  rw [toInt32, BitVec.toInt_eq_toNat_cond, BitVec.toNat_setWidth, if_pos (by omega)]

theorem toInt8_eq (arg : BitVec 64) (h : arg.toNat % 2 ^ 32 < maxOpenFiles) :
    toInt8 arg = (arg.toNat % 2 ^ 32 : Nat) := by
  unfold maxOpenFiles at h
  rw [toInt8, BitVec.toInt_eq_toNat_cond, BitVec.toNat_setWidth, if_pos (by omega)]
  omega

theorem lt_of_toInt32 {arg : BitVec 64} (h0 : 0 ≤ toInt32 arg) (h : toInt32 arg < maxOpenFiles) :
    arg.toNat % 2 ^ 32 < maxOpenFiles := by
  unfold maxOpenFiles at h ⊢
  rw [toInt32, BitVec.toInt_eq_toNat_cond, BitVec.toNat_setWidth] at h0 h
  split at h <;> omega

theorem slotsOf_withEntry {t : FdTable} {fd ret : Int} {rest : Nat → Outcome} (h0 : 0 ≤ fd)
    (h : fd < maxOpenFiles) : slotsOf (withEntry t fd ret rest) = [fd] := by
  have hin : ¬ (fd < 0 ∨ (maxOpenFiles : Int) ≤ fd) := by omega
  rw [withEntry, if_neg hin]
  rfl

theorem slotsOf_sysDup2 {t : FdTable} {arg newArg : BitVec 64} (h0 : 0 ≤ toInt32 arg)
    (h : toInt32 arg < maxOpenFiles) (hn : (Handler.dup2 newArg).Proper) :
    slotsOf (sysDup2 t arg newArg) = [toInt32 arg] := by
  obtain ⟨hn0, hn1⟩ := hn
  have hin : ¬ (toInt32 arg < 0 ∨ (maxOpenFiles : Int) ≤ toInt32 arg ∨
    toInt32 newArg < 0 ∨ (maxOpenFiles : Int) ≤ toInt32 newArg) := by omega
  simp only [sysDup2, if_neg hin]
  by_cases hz : t.entry (toInt32 arg) = 0
  · simp [slotsOf, FdTable.at, hz]
  by_cases hs : toInt32 arg = toInt32 newArg
  · rw [hs] at hz
    simp [slotsOf, FdTable.at, hz, hs]
  · simp [slotsOf, FdTable.at, hz, hs]

theorem slotsOf_sysFtruncate (t : FdTable) (arg length : BitVec 64) :
    slotsOf (sysFtruncate t arg length) = [toInt32 arg] := by
  by_cases hz : t.entry (toInt32 arg) = 0
  · simp [slotsOf, sysFtruncate, FdTable.at, hz]
  simp only [sysFtruncate, FdTable.at, slotsOf]
  simp [hz]
  split <;> simp

/-- The handlers agree on exactly the arguments whose lower half is a slot of the table. `sys_ftruncate`
rejects no argument, so no other is rejected by all. -/
theorem handlers_agree_iff (t : FdTable) (arg : BitVec 64) : Agree t arg ↔ arg.toNat % 2 ^ 32 < maxOpenFiles := by
  constructor
  · rintro (hrej | ⟨i, h0, h1, hall⟩)
    · have h := hrej (.ftruncate 0) trivial
      rw [Handler.run, slotsOf_sysFtruncate] at h
      cases h
    · have h := hall (.ftruncate 0) trivial
      rw [Handler.run, slotsOf_sysFtruncate, List.singleton_inj] at h
      subst h
      exact lt_of_toInt32 h0 h1
  · intro h
    have h32 := toInt32_eq arg h
    have h8 := toInt8_eq arg h
    have h0 : 0 ≤ toInt32 arg := by omega
    have h1 : toInt32 arg < maxOpenFiles := by omega
    have heq : toInt8 arg = toInt32 arg := h8.trans h32.symm
    refine .inr ⟨toInt32 arg, h0, h1, fun c hc => ?_⟩
    cases c with
    | read | write | close =>
      rw [← heq]
      exact slotsOf_withEntry (by omega) (by omega)
    | lseek | readdir | fstat | mmap => exact slotsOf_withEntry h0 h1
    | dup2 => exact slotsOf_sysDup2 h0 h1 hc
    | ftruncate => exact slotsOf_sysFtruncate t arg _

/-- Descriptor 256 is slot 0 for `sys_read` and out of range for `sys_lseek`. -/
theorem handlers_disagree : ¬ Agree ⟨fun _ => 0, fun _ => ⟨none, 0⟩⟩ 256#64 := by
  have hread : slotsOf (sysRead ⟨fun _ => 0, fun _ => ⟨none, 0⟩⟩ 256#64 0 0) = [0] := by decide
  have hlseek : slotsOf (sysLseek ⟨fun _ => 0, fun _ => ⟨none, 0⟩⟩ 256#64 0 .set) = [] := by decide
  rintro (hrej | ⟨i, -, -, hall⟩)
  · exact absurd (hread.symm.trans (hrej (.read 0 0) trivial)) (by decide)
  · exact List.cons_ne_nil i [] ((hall (.lseek 0 .set) trivial).symm.trans hlseek)

end NyanOS.Syscall
