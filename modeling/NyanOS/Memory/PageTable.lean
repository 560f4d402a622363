import NyanOS.Memory.Pmm

/-!
# Page tables in physical memory (`mem/vmm.c`)

Tables and user pages lie in the same frames of 512 words. The direct map gives every frame
one address, so a pointer to a frame is its number. A table of level `d + 1` is a table of
depth `d`: depth 3 is the PML4, depth 0 holds the entries of pages. Pages are named by their
number, `virt_addr / PAGE_SIZE`.
-/

namespace NyanOS.Memory

open Function

structure Machine where
  pmm : Pmm
  mem : Nat → Nat → Word

def Machine.set (m : Machine) (frame i : Nat) (w : Word) : Machine :=
  { m with mem := update m.mem frame (update (m.mem frame) i w) }

/-- Overwrite a whole frame. -/
def Machine.fill (m : Machine) (frame : Nat) (page : Nat → Word) : Machine :=
  { m with mem := update m.mem frame page }

def tableIndex (depth page : Nat) : Nat := page / 512 ^ depth % 512

/-- The entries of a table that belong to user space: the PML4 has the kernel in its upper half. -/
def limit (depth : Nat) : Nat := if depth = 3 then 256 else 512

def tableFlags : Word := vmmFlagPresent ||| vmmFlagWritable ||| vmmFlagUser

/-- The flags of every private user page when it is created. -/
def privateFlags : Word := vmmFlagPresent ||| vmmFlagWritable ||| vmmFlagUser

/-- The flags `sys_mmap` gives to the pages of a shared-memory object. -/
def sharedFlags : Word := vmmFlagPresent ||| vmmFlagWritable ||| vmmFlagUser ||| pteFlagShared

/-- `vmm_walk_to_pte`: the table and index of the page's entry. The three levels above it are
handled alike. -/
def walkToPte (create : Bool) : Nat → Nat → Nat → Machine → Option (Nat × Nat) × Machine
  | 0, table, page, m => (some (table, tableIndex 0 page), m)
  | depth + 1, table, page, m =>
    let entry := m.mem table (tableIndex (depth + 1) page)
    if present entry then walkToPte create depth (frameOf entry) page m
    else if create then
      let (new, pmm) := pmmAllocFrame m.pmm
      if new = 0 then (none, { m with pmm := pmm })
      else
        let m := ({ m with pmm := pmm } : Machine).fill new fun _ => 0
        walkToPte create depth new page
          (m.set table (tableIndex (depth + 1) page) (pteSetAddr 0 (physOf new) ||| tableFlags))
    else (none, m)

def vmmWalkToPte (m : Machine) (pml4 page : Nat) (create : Bool) : Option (Nat × Nat) × Machine :=
  walkToPte create 3 pml4 page m

/-- The frame a page is mapped to. -/
def vmmVirt2Phys (m : Machine) (pml4 page : Nat) : Option Nat :=
  match (vmmWalkToPte m pml4 page false).1 with
  | none => none
  | some (table, i) =>
    if present (m.mem table i) then some (frameOf (m.mem table i)) else none

/-- The source returns nothing; the flag says whether the entry was stored. -/
def vmmMapPage (m : Machine) (pml4 page frame : Nat) (flags : Word) : Bool × Machine :=
  match vmmWalkToPte m pml4 page true with
  | (none, m) => (false, m)
  | (some (table, i), m) =>
    let pte := m.mem table i
    let pmm := if present pte ∧ frameOf pte ≠ frame ∧ shared pte = false then
        pmmDecRef m.pmm (frameOf pte) else m.pmm
    (true, ({ m with pmm := pmm } : Machine).set table i (mkPte frame flags))

def vmmUnmapPage (m : Machine) (pml4 page : Nat) : Machine :=
  match vmmWalkToPte m pml4 page false with
  | (none, m) => m
  | (some (table, i), m) => m.set table i 0

/-- Freeing reads the tables and writes only the allocator's state. -/
def freeTable (mem : Nat → Nat → Word) : Nat → Nat → Pmm → Pmm
  | 0, table, p =>
    let p := (List.range (limit 0)).foldl (fun p i =>
      if isPrivate (mem table i) then pmmFreeFrame p (frameOf (mem table i)) else p) p
    pmmFreeFrame p table
  | depth + 1, table, p =>
    let p := (List.range (limit (depth + 1))).foldl (fun p i =>
      if present (mem table i) then freeTable mem depth (frameOf (mem table i)) p else p) p
    pmmFreeFrame p table

def vmmFreeTable (m : Machine) (depth table : Nat) : Machine :=
  { m with pmm := freeTable m.mem depth table m.pmm }

/-- One turn of the level-1 loop of `vmm_copy_hierarchy`. -/
def copyLeaf (parent child : Nat) (m : Machine) (i : Nat) : Machine :=
  let entry := m.mem parent i
  if present entry then
    let m := if shared entry then m else m.set parent i (clearWritable (m.mem parent i))
    let m := m.set child i (m.mem parent i)
    if shared entry then m else { m with pmm := pmmIncRef m.pmm (frameOf entry) }
  else m

def copyLeaves (parent child : Nat) (m : Machine) : Machine :=
  (List.range (limit 0)).foldl (copyLeaf parent child) m

/-- The loop over the tables below; a failure frees the part of the child built so far. -/
def copyChildren (copy : Nat → Machine → Nat × Machine) (depth parent child : Nat) :
    List Nat → Machine → Bool × Machine
  | [], m => (true, m)
  | i :: is, m =>
    let entry := m.mem parent i
    if present entry then
      let (childPhys, m) := copy (frameOf entry) m
      if childPhys = 0 then (false, vmmFreeTable m depth child)
      else copyChildren copy depth parent child is (m.set child i (withFlags childPhys entry))
    else copyChildren copy depth parent child is m

/-- The upper half of every PML4 is the kernel's. -/
def copyUpper (kernPml4 child : Nat) (m : Machine) : Machine :=
  m.fill child fun i => if 256 ≤ i ∧ i < 512 then m.mem kernPml4 i else m.mem child i

/-- The end of the copy of an upper table, by the result of the loop. -/
def finishCopy (kernPml4 depth child : Nat) (r : Bool × Machine) : Nat × Machine :=
  if r.1 then (child, if depth = 3 then copyUpper kernPml4 child r.2 else r.2) else (0, r.2)

def copyHierarchy (kernPml4 : Nat) : Nat → Nat → Machine → Nat × Machine
  | 0, parent, m =>
    let (child, pmm) := pmmAllocFrame m.pmm
    if child = 0 then (0, { m with pmm := pmm })
    else
      let m := ({ m with pmm := pmm } : Machine).fill child fun _ => 0
      (child, copyLeaves parent child m)
  | depth + 1, parent, m =>
    let (child, pmm) := pmmAllocFrame m.pmm
    if child = 0 then (0, { m with pmm := pmm })
    else
      let m := ({ m with pmm := pmm } : Machine).fill child fun _ => 0
      finishCopy kernPml4 (depth + 1) child
        (copyChildren (copyHierarchy kernPml4 depth) (depth + 1) parent child
          (List.range (limit (depth + 1))) m)

def vmmCopyHierarchy (m : Machine) (kernPml4 parent : Nat) : Nat × Machine :=
  copyHierarchy kernPml4 3 parent m

def vmmNewPml4 (m : Machine) (kernPml4 : Nat) : Nat × Machine :=
  let (pml4, pmm) := pmmAllocFrame m.pmm
  if pml4 = 0 then (0, { m with pmm := pmm })
  else (pml4, copyUpper kernPml4 pml4 (({ m with pmm := pmm } : Machine).fill pml4 fun _ => 0))

def vmmRetPml4 (m : Machine) (pml4 : Nat) : Machine :=
  if pml4 ≠ 0 then { m with pmm := pmmFreeFrame m.pmm pml4 } else m

/-- `vmm_handle_cow` in the address space of the faulting task; `false` stands for -1. -/
def vmmHandleCow (m : Machine) (pml4 page : Nat) : Bool × Machine :=
  match vmmWalkToPte m pml4 page false with
  | (none, m) => (false, m)
  | (some (table, i), m) =>
    let pte := m.mem table i
    if present pte = false ∨ user pte = false then (false, m)
    else if pmmGetRefCount m.pmm (frameOf pte) ≤ 1 then (true, m.set table i (setWritable pte))
    else
      let (new, pmm) := pmmAllocFrame m.pmm
      if new = 0 then (false, { m with pmm := pmm })
      else
        let m := ({ m with pmm := pmm } : Machine).fill new (m.mem (frameOf pte))
        let flags := pteGetFlags (m.mem table i) ||| vmmFlagWritable
        let m := m.set table i (withFlags new flags)
        (true, { m with pmm := pmmDecRef m.pmm (frameOf pte) })

end NyanOS.Memory
