import NyanOS.Memory.KernelSpace

/-!
# Address spaces under one kernel

Address spaces are made, changed and destroyed while the kernel maps and unmaps pages of its own window, from
whichever address space is active. `kern` is the frame of `kern_pml4`.
-/
namespace NyanOS.Memory

open Lib

/-- The PML4s of the address spaces that are live, and the frames of the shared-memory objects. -/
structure Spaces where
  kernel : KernelSpace
  roots : List Nat
  objects : List Nat

inductive SpaceAct where
  | newPml4
  | fork (pml4 : Nat)
  | allocGlobal (curr size : Nat)
  | free (ptr : Nat)
  | takeObject
  | mapPage (pml4 page : Nat) (content : Nat → Word)
  | mapShared (pml4 page frame : Nat)
  | unmapPage (pml4 page : Nat)
  | cowFault (pml4 page : Nat)
  | freeTable (pml4 : Nat)

/-- A frame for a user page is taken, filled and mapped. -/
def mapFilled (m : Machine) (pml4 page : Nat) (content : Nat → Word) : Machine :=
  let (phys, pmm) := pmmAllocFrame m.pmm
  if phys = 0 then { m with pmm := pmm }
  else (vmmMapPage (({ m with pmm := pmm } : Machine).fill phys content) pml4 page phys privateFlags).2

namespace Spaces

def machine (x : Spaces) : Machine := x.kernel.machine

def withMachine (x : Spaces) (m : Machine) : Spaces := { x with kernel := { x.kernel with machine := m } }

/-- A page of the lower half of a live address space. -/
def UserPage (x : Spaces) (pml4 page : Nat) : Prop := pml4 ∈ x.roots ∧ page < pageCount 3

instance (x : Spaces) (pml4 page : Nat) : Decidable (x.UserPage pml4 page) := inferInstanceAs (Decidable (_ ∧ _))

end Spaces

/-- One operation. An address space belongs to a task, and the number of tasks is bounded. -/
def spacesTo (kern : Nat) (x : Spaces) : SpaceAct → Option Spaces
  | .newPml4 =>
    if x.roots.length < maxTasks then
      let (pml4, m) := vmmNewPml4 x.machine kern
      some { x.withMachine m with roots := if pml4 = 0 then x.roots else pml4 :: x.roots }
    else none
  | .fork pml4 =>
    if pml4 ∈ x.roots ∧ x.roots.length < maxTasks then
      let (child, m) := vmmCopyHierarchy x.machine kern pml4
      some { x.withMachine m with roots := if child = 0 then x.roots else child :: x.roots }
    else none
  | .allocGlobal curr size =>
    if curr = kern ∨ curr ∈ x.roots then some { x with kernel := (vmmAllocGlobal kern x.kernel curr size).2.2 }
    else none
  | .free ptr => (vmmFree kern x.kernel ptr).map fun s => { x with kernel := s }
  | .takeObject =>
    let (frame, pmm) := pmmAllocFrame x.machine.pmm
    some { x.withMachine { x.machine with pmm := pmm } with
      objects := if frame = 0 then x.objects else frame :: x.objects }
  | .mapPage pml4 page content =>
    if x.UserPage pml4 page then some (x.withMachine (mapFilled x.machine pml4 page content)) else none
  | .mapShared pml4 page frame =>
    if x.UserPage pml4 page ∧ frame ∈ x.objects then
      some (x.withMachine (vmmMapPage x.machine pml4 page frame sharedFlags).2)
    else none
  | .unmapPage pml4 page =>
    -- as `vmm_unmap_user` does it: the frame of a private page goes back to the allocator
    if x.UserPage pml4 page then
      some (x.withMachine (unmapOne pml4 (shared (mmuEntry x.machine pml4 page)) x.machine page))
    else none
  | .cowFault pml4 page =>
    if x.UserPage pml4 page then some (x.withMachine (vmmHandleCow x.machine pml4 page).2) else none
  | .freeTable pml4 =>
    if pml4 ∈ x.roots then
      some { x.withMachine (vmmFreeTable x.machine 3 pml4) with roots := x.roots.erase pml4 }
    else none

/-- Every table that `vmm_init` asks for on the way through the entries is there. -/
def InitServed (kern : Nat) : Machine → List Nat → Prop
  | _, [] => True
  | m, i :: is =>
    (present (m.mem kern i) = true ∨ (pmmAllocFrame m.pmm).1 ≠ 0) ∧ InitServed kern (initEntry kern m i) is

instance decidableInitServed (kern : Nat) : ∀ m l, Decidable (InitServed kern m l)
  | _, [] => inferInstanceAs (Decidable True)
  | m, i :: is => @instDecidableAnd _ _ _ (decidableInitServed kern (initEntry kern m i) is)

end NyanOS.Memory
