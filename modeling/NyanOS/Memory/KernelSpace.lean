import NyanOS.Lib.Run
import NyanOS.Memory.Tiling

/-!
# The global region allocator (`mem/vmm.c`)

`vmm_alloc_global` and `vmm_free` give out the regions of the kernel's window of addresses, with a frame behind
every page. `kern` is the frame of `kern_pml4`. The allocation of list nodes succeeds.
-/
namespace NyanOS.Memory

open Lib

structure KernelSpace where
  machine : Machine
  /-- `g_vm_free_head` -/
  vmFree : List Extent
  /-- `g_vm_allocated_head` -/
  vmAlloc : List VmAllocated

def kernHeapStart : Nat := 0xFFFFFFFF90000000

def kernHeapSize : Nat := 0x10000000

def kernFlags : Word := vmmFlagPresent ||| vmmFlagWritable

/-- One turn of the loop of `vmm_init`: a table for an entry of the upper half. -/
def initEntry (kern : Nat) (m : Machine) (i : Nat) : Machine :=
  if present (m.mem kern i) then m
  else
    let (pdpt, pmm) := pmmAllocFrame m.pmm
    let m : Machine := { m with pmm := pmm }
    if pdpt ≠ 0 then (m.fill pdpt fun _ => 0).set kern i (pteSetAddr 0 (physOf pdpt) ||| kernFlags) else m

/-- `vmm_init` on the page table that the boot loader left. -/
def vmmInit (m : Machine) (kern : Nat) : KernelSpace :=
  ⟨(List.range' 256 256).foldl (initEntry kern) m, [⟨kernHeapStart, kernHeapSize⟩], []⟩

/-- The active task's PML4 gets the entry of the upper half. -/
def syncEntry (kern curr page : Nat) (m : Machine) : Machine :=
  if curr ≠ kern then m.set curr (tableIndex 3 page) (m.mem kern (tableIndex 3 page)) else m

/-- The loop of `vmm_alloc_global`, with a flag for every page that got a frame: was there memory for its tables? -/
def allocLoop (kern curr : Nat) : List Nat → Machine → List Bool × Machine
  | [], m => ([], m)
  | page :: pages, m =>
    let (phys, pmm) := pmmAllocFrame m.pmm
    if phys = 0 then ([], { m with pmm := pmm })
    else
      let (mapped, m) := vmmMapPage { m with pmm := pmm } kern page phys kernFlags
      let (flags, m) := allocLoop kern curr pages (syncEntry kern curr page m)
      (mapped :: flags, m)

/-- A turn of the loop that takes the pages back. -/
def rollBack (kern : Nat) (m : Machine) (page : Nat) : Machine :=
  let phys := vmmVirt2Phys m kern page
  let m := vmmUnmapPage m kern page
  match phys with
  | none => m
  | some 0 => m
  | some phys => { m with pmm := pmmFreeFrame m.pmm phys }

/-- `vmm_alloc_global` in the address space `curr`, with the flags of its pages. -/
def vmmAllocGlobal (kern : Nat) (s : KernelSpace) (curr size : Nat) : Nat × List Bool × KernelSpace :=
  if size = 0 then (0, [], s)
  else
    let (start, vmFree) := findFreeAddr s.vmFree (alignedSize size)
    if start = 0 then (0, [], s)
    else
      let pages := List.range' (start / pageSize) (alignedSize size / pageSize)
      let (flags, m) := allocLoop kern curr pages s.machine
      if flags.length < pages.length then
        (0, flags, ⟨(pages.take flags.length).foldl (rollBack kern) m,
          vmmAddFreeRegion vmFree start (alignedSize size), s.vmAlloc⟩)
      else (start, flags, ⟨m, vmFree, vmmAddAllocatedMem s.vmAlloc start (alignedSize size) 0⟩)

/-- `vmm_free`; an address that is not in the list is looked up in the current task. -/
def vmmFree (kern : Nat) (s : KernelSpace) (ptr : Nat) : Option KernelSpace :=
  if ptr = 0 then some s
  else
    (vmmPopAllocatedMem ptr s.vmAlloc).map fun (node, vmAlloc) =>
      ⟨(regionPages ptr node.size).foldl (unmapOne kern node.isShm) s.machine,
        vmmAddFreeRegion s.vmFree ptr (alignedSize node.size), vmAlloc⟩

/-! Runs -/

/-- The allocations that are live, with the size asked for. -/
structure KernelSession where
  space : KernelSpace
  live : List (Nat × Nat)

inductive KernelCall where
  | alloc (curr size : Nat)
  | free (ptr : Nat)

/-- Pointers that were returned and not freed are freed; `curr` is the PML4 of the kernel or of a task. -/
def kernelTo (kern : Nat) (pml4s : List Nat) (x : KernelSession) : KernelCall → Option KernelSession
  | .alloc curr size =>
    if curr = kern ∨ curr ∈ pml4s then
      let (ptr, _, s) := vmmAllocGlobal kern x.space curr size
      some ⟨s, if ptr = 0 then x.live else (ptr, size) :: x.live⟩
    else none
  | .free ptr =>
    if ptr ∈ x.live.map Prod.fst then
      (vmmFree kern x.space ptr).map fun s => ⟨s, x.live.eraseP (·.1 = ptr)⟩
    else none

/-- The size is in range, and every page that is asked for gets a frame and its tables. -/
def Served (kern : Nat) (x : KernelSession) : KernelCall → Prop
  | .alloc curr size => 0 < size ∧ size ≤ 2 ^ 63 ∧
    let start := (findFreeAddr x.space.vmFree (alignedSize size)).1
    let pages := List.range' (start / pageSize) (alignedSize size / pageSize)
    start ≠ 0 → (allocLoop kern curr pages x.space.machine).1 = List.replicate pages.length true
  | .free _ => True

end NyanOS.Memory
