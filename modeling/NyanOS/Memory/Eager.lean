import NyanOS.Memory.System

/-!
# Eager copying

The same system without frames and tables: an address space is a map from pages to bytes, and a
fork copies all private pages at once. Shared pages are names for contents that all tasks see.
-/

namespace NyanOS.Memory

open Lib Function

structure Space where
  pages : Nat → Page
  heapEnd : Nat
  vmFree : List Extent
  vmAlloc : List VmAllocated

@[ext] structure Eager where
  spaces : Nat → Option Space
  shms : List (List Nat)
  bytes : Nat → Option (Nat → Byte)

def Eager.empty : Eager := ⟨fun _ => none, [], fun _ => none⟩

def Eager.set (e : Eager) (pid : Nat) (space : Option Space) : Eager :=
  { e with spaces := update e.spaces pid space }

def zeroPage : Page := .priv fun _ => 0

/-- Put pages into an address space, those for which the flag is set. -/
def place (pages : Nat → Page) : List (Nat × Page) → List Bool → Nat → Page
  | (page, view) :: rest, mapped :: flags =>
    place (if mapped then update pages page view else pages) rest flags
  | [], _ => pages
  | _, [] => pages

def Eager.pageAt (e : Eager) (pid addr : Nat) : Page :=
  match e.spaces pid with
  | none => .absent
  | some space => space.pages (addr / pageSize)

/-- What a task reads at an address. -/
def Eager.read (e : Eager) (pid addr : Nat) : Option Byte :=
  match e.pageAt pid addr with
  | .absent => none
  | .priv bytes => some (bytes (addr % pageSize))
  | .shm frame => (e.bytes frame).map fun bytes => bytes (addr % pageSize)

/-- The address of a task at which a write by a task is read: its own, or one of the same byte of a
shared page. -/
def Eager.SamePlace (e : Eager) (pid addr q a : Nat) : Prop :=
  (q = pid ∧ a = addr) ∨ ∃ frame, e.pageAt pid addr = .shm frame ∧ e.pageAt q a = .shm frame ∧
    a % pageSize = addr % pageSize

/-- An access that is made. -/
def Eager.hit (e : Eager) (pid : Nat) (space : Space) (addr : Nat) : Option Byte → Option Eager
  | none => some e
  | some b =>
    match space.pages (addr / pageSize) with
    | .absent => none
    | .priv bytes => some (e.set pid (some { space with
        pages := update space.pages (addr / pageSize)
          (.priv (update bytes (addr % pageSize) b)) }))
    | .shm frame => some { e with
        bytes := update e.bytes frame
          ((e.bytes frame).map fun bytes => update bytes (addr % pageSize) b) }

def Eager.sbrk (space : Space) (incr : Int) (flags : List Bool) : Space :=
  match sbrkPages space.heapEnd incr with
  | none => space
  | some (nextBrk, pages) =>
    { space with
      pages := place space.pages (pages.map fun page => (page, zeroPage)) flags
      heapEnd := if flags.length = pages.length then nextBrk else space.heapEnd }

def Eager.mmap (space : Space) (frames : List Nat) (length : Nat) (flags : List Bool) : Space :=
  let (addr, vmFree) := findFreeAddr space.vmFree (alignedSize length)
  if frames.length = 0 ∨ addr = 0 then space
  else
    { space with
      pages := place space.pages ((mmapPairs addr length frames).map fun p => (p.1, .shm p.2)) flags
      vmFree := vmFree
      vmAlloc := vmmAddAllocatedMem space.vmAlloc addr (alignedSize length) vmmFlagShm }

def Eager.munmap (space : Space) (addr : Nat) : Space :=
  match vmmPopAllocatedMem addr space.vmAlloc with
  | none => space
  | some (node, vmAlloc) =>
    { space with
      pages := fun page => if page ∈ regionPages addr node.size then .absent else space.pages page
      vmFree := vmmAddFreeRegion space.vmFree addr (alignedSize node.size)
      vmAlloc := vmAlloc }

def Eager.next (e : Eager) : Action × Outcome → Option Eager
  | (.create pid _, .ok success) =>
    if (e.spaces pid).isNone then
      some (if success then
        e.set pid (some ⟨fun _ => .absent, userHeapStart, [⟨userMmapStart, userMmapSize⟩], []⟩) else e)
    else none
  | (.load pid page content, .mapped flags) =>
    (e.spaces pid).map fun space => e.set pid (some { space with
      pages := place space.pages [(page, .priv (pageBytes content))] flags })
  | (.sbrk pid incr, .mapped flags) =>
    (e.spaces pid).map fun space => e.set pid (some (Eager.sbrk space incr flags))
  | (.shmSetSize _, .frames none) => some e
  | (.shmSetSize _, .frames (some frames)) =>
    some { e with
      shms := e.shms ++ [frames]
      bytes := fun frame => if frame ∈ frames then some fun _ => 0 else e.bytes frame }
  | (.mmap pid object length, .mapped flags) =>
    (e.spaces pid).bind fun space => e.shms[object]?.map fun frames =>
      e.set pid (some (Eager.mmap space frames length flags))
  | (.munmap pid addr, .ok _) =>
    (e.spaces pid).map fun space => e.set pid (some (Eager.munmap space addr))
  | (.fork parent pid _, .ok success) =>
    (e.spaces parent).bind fun space =>
      if (e.spaces pid).isNone then some (if success then e.set pid (some space) else e) else none
  | (.access pid addr write _, .hit) =>
    (e.spaces pid).bind fun space => e.hit pid space addr write
  | (.access pid addr _ _, .fault (.stack _ true)) =>
    (e.spaces pid).map fun space => e.set pid (some { space with
      pages := update space.pages (addr / pageSize) zeroPage })
  | (.access pid _ _ _, .fault _) => (e.spaces pid).map fun _ => e
  | (.destroy pid, .ok _) => (e.spaces pid).map fun _ => e.set pid none
  | (.kernelAlloc, .ok _) => some e
  | (.kernelFree _, .ok _) => some e
  | _ => none

variable {e : Eager} {pid : Nat} {space : Space}

theorem Eager.set_self (h : e.spaces pid = some space) : e.set pid (some space) = e := by
  rw [Eager.set, ← h, update_eq_self]

theorem place_nil {pages : Nat → Page} {l : List (Nat × Page)} : place pages l [] = pages := by
  cases l <;> rfl

end NyanOS.Memory
