import NyanOS.Memory.Region
import NyanOS.Memory.View
import NyanOS.Lib.Run

/-!
# Tasks and their memory

The operations on user address spaces: creation and fork (`sched/sched.c`), page faults
(`arch/idt.c`), `sys_sbrk`, `sys_mmap` and `sys_munmap` (`arch/syscall.c`), shared memory
(`ipc/shm.c`) and the loading of pages (`elf.c`, `main.c`). Upper tables carry all rights, so
the rights of an access are those of the page's entry.
-/

namespace NyanOS.Memory

open Lib

def userStackTop : Nat := 0x1000000
def userStackPages : Nat := 8
def userStackMaxPages : Nat := 0x10
def userHeapStart : Nat := 0x20000000
def userHeapMaxLimit : Nat := 0x8000000000
def userMmapStart : Nat := 0x40000000
def userMmapSize : Nat := 0x40000000

/-- The pages of the stack that a program starts with. -/
def stackPages : List Nat := List.range' (userStackTop / pageSize - userStackPages) userStackPages

structure Task where
  pid : Nat
  pml4 : Nat
  kernStk : Nat
  heapEnd : Nat
  vmFree : List Extent
  vmAlloc : List VmAllocated

/-- `shms` are the frames of the shared-memory objects, `held` the frames that the rest of the
kernel uses, and `lost` those that an operation took and then recorded nowhere. -/
structure System where
  machine : Machine
  kernPml4 : Nat
  tasks : List Task
  shms : List (List Nat)
  held : List Nat
  lost : List Nat

def System.find (s : System) (pid : Nat) : Option Task := s.tasks.find? (·.pid = pid)

def System.drop (s : System) (pid : Nat) : List Task := s.tasks.filter (·.pid ≠ pid)

def System.put (s : System) (t : Task) : System := { s with tasks := t :: s.drop t.pid }

/-- Take a frame, clear it and map it as a private page. The frame is 0 if there is none, and
the flag says whether it was mapped. -/
def mapZeroPage (m : Machine) (pml4 page : Nat) : Nat × Bool × Machine :=
  let (phys, pmm) := pmmAllocFrame m.pmm
  if phys = 0 then (0, false, { m with pmm := pmm })
  else (phys, vmmMapPage (({ m with pmm := pmm } : Machine).fill phys fun _ => 0) pml4 page phys
    privateFlags)

/-- The result of a page fault. -/
inductive Handled
  | cow
  | stack (frame : Nat) (mapped : Bool)
  | kill
  | panic
  deriving DecidableEq

/-- The page-fault part of `exception_handler`. The error code says whether the page was present
(`prot`), the access a write, and the access made in user mode. -/
def exceptionHandler (m : Machine) (pml4 addr : Nat) (prot write isUser : Bool) : Handled × Machine :=
  if write && prot then
    let (ok, m) := vmmHandleCow m pml4 (addr / pageSize)
    (if ok then .cow else .kill, m)
  else if isUser && !prot then
    if userStackTop - userStackMaxPages * pageSize ≤ addr ∧ addr < userStackTop then
      let (phys, mapped, m) := mapZeroPage m pml4 (addr / pageSize)
      (if phys = 0 then .kill else .stack phys mapped, m)
    else (.kill, m)
  else (if isUser then .kill else .panic, m)

/-- The entry that the processor finds for a page. -/
def mmuEntry (m : Machine) (pml4 page : Nat) : Word :=
  match (vmmWalkToPte m pml4 page false).1 with
  | none => 0
  | some (table, i) => m.mem table i

def accessOk (pte : Word) (write isUser : Bool) : Bool :=
  present pte && (!write || writable pte) && (!isUser || user pte)

/-- `sched_new_task`: the empty PML4 of a new task. `queue` says whether the task structure and
the event queue could be allocated, for which the kernel's window must have room. -/
def schedNewTask (s : System) (queue : Bool) : Nat × Machine :=
  let (pml4, m) := vmmNewPml4 s.machine s.kernPml4
  if pml4 = 0 then (0, m)
  else if queue ∧ s.tasks.length < maxTasks then (pml4, m)
  else (0, vmmRetPml4 m pml4)

/-- The record of a task as `sched_new_task` fills it. -/
def newTask (pid pml4 kernStk : Nat) : Task :=
  ⟨pid, pml4, kernStk, userHeapStart, [⟨userMmapStart, userMmapSize⟩], []⟩

def taskFactoryCreate (s : System) (pid : Nat) (queue : Bool) : Bool × System :=
  let (pml4, m) := schedNewTask s queue
  if pml4 = 0 then (false, { s with machine := m })
  else
    -- `task_context_setup` leaves the task without a kernel stack if there is no frame
    let (kernStk, pmm) := pmmAllocFrame m.pmm
    (true, ({ s with machine := { m with pmm := pmm } } : System).put (newTask pid pml4 kernStk))

/-- `sched_destroy_task`, for the memory of a task. -/
def schedDestroyTask (m : Machine) (kernStk pml4 : Nat) : Machine :=
  let m := if kernStk ≠ 0 then { m with pmm := pmmFreeFrame m.pmm kernStk } else m
  if pml4 ≠ 0 then vmmFreeTable m 3 pml4 else m

def taskFactoryFork (s : System) (parent : Task) (pid : Nat) (queue : Bool) : Bool × System :=
  let (pml4, m) := schedNewTask s queue
  if pml4 = 0 then (false, { s with machine := m })
  else
    let (new, m) := vmmCopyHierarchy (vmmRetPml4 m pml4) s.kernPml4 parent.pml4
    if new = 0 then (false, { s with machine := schedDestroyTask m 0 0 })
    else
      let (kernStk, pmm) := pmmAllocFrame m.pmm
      let m : Machine := { m with pmm := pmm }
      if kernStk = 0 then (false, { s with machine := schedDestroyTask m 0 new })
      else
        (true, ({ s with machine := m } : System).put
          { parent with pid := pid, pml4 := new, kernStk := kernStk })

/-- The part of `elf_load_PML4` and `spawn_elf_app` that gives a task one page not mapped yet, with
the content it has once the file is copied. The flags say whether the page was mapped. -/
def loadPage (s : System) (t : Task) (page : Nat) (content : Nat → Word) : System × List Bool :=
  match mapZeroPage s.machine t.pml4 page with
  | (0, _, m) => ({ s with machine := m }, [])
  | (phys, true, m) => ({ s with machine := m.fill phys content }, [true])
  | (phys, false, m) => ({ s with machine := m, lost := phys :: s.lost }, [false])

/-- The loop of `sys_sbrk`. It stops when there is no frame, but not when there is none for a
table. The result has a flag for every page it came to, and the frames it lost. -/
def sbrkLoop (pml4 : Nat) : List Nat → Machine → List Bool × List Nat × Machine
  | [], m => ([], [], m)
  | page :: pages, m =>
    match mapZeroPage m pml4 page with
    | (0, _, m) => ([], [], m)
    | (phys, mapped, m) =>
      let (flags, lost, m) := sbrkLoop pml4 pages m
      (mapped :: flags, if mapped then lost else phys :: lost, m)

/-- The pages that a growth of the heap adds; `none` if the request is refused. -/
def sbrkPages (prevBrk : Nat) (incr : Int) : Option (Nat × List Nat) :=
  if incr ≤ 0 then none
  else
    let nextBrk := (prevBrk + incr.toNat) % 2 ^ 64
    if nextBrk < prevBrk then none
    else if userHeapMaxLimit < nextBrk then none
    else
      let startPage := if prevBrk % pageSize = 0 then prevBrk / pageSize
        else (prevBrk + 0xFFF) / pageSize
      some (nextBrk, List.range' startPage ((nextBrk + 0xFFF) / pageSize - startPage))

def sysSbrk (s : System) (t : Task) (incr : Int) : System × List Bool :=
  match sbrkPages t.heapEnd incr with
  | none => (s, [])
  | some (nextBrk, pages) =>
    let (flags, lost, m) := sbrkLoop t.pml4 pages s.machine
    let s : System := { s with machine := m, lost := lost ++ s.lost }
    if flags.length = pages.length then (s.put { t with heapEnd := nextBrk }, flags) else (s, flags)

/-- The loop of `shm_set_size`. -/
def shmAlloc : Nat → Machine → Bool × List Nat × Machine
  | 0, m => (true, [], m)
  | n + 1, m =>
    let (phys, pmm) := pmmAllocFrame m.pmm
    if phys = 0 then (false, [], { m with pmm := pmm })
    else
      let (ok, frames, m) := shmAlloc n (({ m with pmm := pmm } : Machine).fill phys fun _ => 0)
      (ok, phys :: frames, m)

/-- `shm_set_size` on a new object: it gets its frames, or none. -/
def shmSetSize (s : System) (newSize : Nat) : System × Option (List Nat) :=
  match shmAlloc ((newSize + 0xFFF) % 2 ^ 32 / pageSize) s.machine with
  | (true, frames, m) => ({ s with machine := m, shms := s.shms ++ [frames] }, some frames)
  | (false, frames, m) =>
    ({ s with machine := { m with pmm := frames.foldl pmmFreeFrame m.pmm } }, none)

/-- `get_aligned_size`, and the rounding in `sys_mmap`. -/
def alignedSize (size : Nat) : Nat := (size + 0xFFF) % 2 ^ 64 / pageSize * pageSize

theorem dvd_alignedSize (n : Nat) : pageSize ∣ alignedSize n := Nat.dvd_mul_left _ _

/-- The loop of `sys_mmap`, with a flag for every page: was there memory for its tables? -/
def mmapLoop (pml4 : Nat) : List (Nat × Nat) → Machine → List Bool × Machine
  | [], m => ([], m)
  | (page, frame) :: rest, m =>
    let (mapped, m) := vmmMapPage m pml4 page frame sharedFlags
    let (flags, m) := mmapLoop pml4 rest m
    (mapped :: flags, m)

/-- The pages and frames that `sys_mmap` puts together. -/
def mmapPairs (addr length : Nat) (frames : List Nat) : List (Nat × Nat) :=
  let requested := alignedSize length / pageSize % 2 ^ 32
  let pagesToMap := if requested < frames.length then requested else frames.length
  (List.range' (addr / pageSize) pagesToMap).zip frames

/-- `sys_mmap` of a shared-memory object with the given frames. -/
def sysMmap (s : System) (t : Task) (frames : List Nat) (length : Nat) : System × List Bool :=
  if frames.length = 0 then (s, [])
  else
    let (addr, vmFree) := findFreeAddr t.vmFree (alignedSize length)
    if addr = 0 then (s, [])
    else
      let (flags, m) := mmapLoop t.pml4 (mmapPairs addr length frames) s.machine
      (({ s with machine := m } : System).put { t with
        vmFree := vmFree
        vmAlloc := vmmAddAllocatedMem t.vmAlloc addr (alignedSize length) vmmFlagShm }, flags)

def unmapOne (pml4 : Nat) (isShm : Bool) (m : Machine) (page : Nat) : Machine :=
  match vmmVirt2Phys m pml4 page with
  | none => m
  | some 0 => m
  | some phys =>
    let m := vmmUnmapPage m pml4 page
    if isShm then m else { m with pmm := pmmFreeFrame m.pmm phys }

def regionPages (addr size : Nat) : List Nat :=
  List.range' (addr / pageSize) (alignedSize size / pageSize)

/-- `vmm_unmap_user`. -/
def vmmUnmapUser (s : System) (t : Task) (addr : Nat) : Bool × System :=
  match vmmPopAllocatedMem addr t.vmAlloc with
  | none => (false, s)
  | some (node, vmAlloc) =>
    let m := (regionPages addr node.size).foldl (unmapOne t.pml4 node.isShm) s.machine
    (true, ({ s with machine := m } : System).put { t with
      vmFree := vmmAddFreeRegion t.vmFree addr (alignedSize node.size)
      vmAlloc := vmAlloc })

inductive Action
  | create (pid : Nat) (queue : Bool)
  | load (pid page : Nat) (content : Nat → Word)
  | sbrk (pid : Nat) (incr : Int)
  | shmSetSize (newSize : Nat)
  | mmap (pid object length : Nat)
  | munmap (pid addr : Nat)
  | fork (parent pid : Nat) (queue : Bool)
  | access (pid addr : Nat) (write : Option Byte) (isUser : Bool)
  | destroy (pid : Nat)
  | kernelAlloc
  | kernelFree (frame : Nat)

/-- What a step reports: the flags of the pages mapped, the frames of an object, or the course of
an access. -/
inductive Outcome
  | ok (success : Bool)
  | mapped (flags : List Bool)
  | frames (fs : Option (List Nat))
  | hit
  | fault (h : Handled)
  deriving DecidableEq

/-- An access to user memory: it is made, or the fault is handled and the task tries again. A fault
in kernel mode outside user memory stops the machine. -/
def access (s : System) (t : Task) (addr : Nat) (write : Option Byte) (isUser : Bool) :
    Option (System × Outcome) :=
  let pte := mmuEntry s.machine t.pml4 (addr / pageSize)
  if accessOk pte write.isSome isUser then
    match write with
    | none => some (s, .hit)
    | some b =>
      some ({ s with machine := storeByte s.machine (frameOf pte) (addr % pageSize) b }, .hit)
  else
    match exceptionHandler s.machine t.pml4 addr (present pte) write.isSome isUser with
    | (.panic, _) => none
    | (.stack phys false, m) =>
      some ({ s with machine := m, lost := phys :: s.lost }, .fault (.stack phys false))
    | (h, m) => some ({ s with machine := m }, .fault h)

def next (s : System) : Action → Option (System × Outcome)
  | .create pid queue =>
    if (s.find pid).isNone then
      let (success, s) := taskFactoryCreate s pid queue
      some (s, .ok success)
    else none
  | .load pid page content =>
    (s.find pid).bind fun t =>
      if page < pageCount 3 ∧ vmmVirt2Phys s.machine t.pml4 page = none then
        let (s, flags) := loadPage s t page content
        some (s, .mapped flags)
      else none
  | .sbrk pid incr =>
    (s.find pid).map fun t =>
      let (s, flags) := sysSbrk s t incr
      (s, .mapped flags)
  | .shmSetSize newSize =>
    let (s, frames) := shmSetSize s newSize
    some (s, .frames frames)
  | .mmap pid object length =>
    (s.find pid).bind fun t => s.shms[object]?.map fun frames =>
      let (s, flags) := sysMmap s t frames length
      (s, .mapped flags)
  | .munmap pid addr =>
    (s.find pid).map fun t =>
      let (success, s) := vmmUnmapUser s t addr
      (s, .ok success)
  | .fork parent pid queue =>
    (s.find parent).bind fun t =>
      if (s.find pid).isNone then
        let (success, s) := taskFactoryFork s t pid queue
        some (s, .ok success)
      else none
  | .access pid addr write isUser =>
    (s.find pid).bind fun t =>
      if addr / pageSize < pageCount 3 then access s t addr write isUser else none
  | .destroy pid =>
    (s.find pid).map fun t =>
      ({ s with machine := schedDestroyTask s.machine t.kernStk t.pml4, tasks := s.drop pid }, .ok true)
  | .kernelAlloc =>
    let (phys, pmm) := pmmAllocFrame s.machine.pmm
    let s : System := { s with machine := { s.machine with pmm := pmm } }
    some (if phys = 0 then s else { s with held := phys :: s.held }, .ok (phys ≠ 0))
  | .kernelFree frame =>
    if frame ∈ s.held then
      some ({ s with
        machine := { s.machine with pmm := pmmFreeFrame s.machine.pmm frame }
        held := s.held.erase frame }, .ok true)
    else none

/-- One step, labelled with the action and what it reported. -/
def step (s : System) (l : Action × Outcome) (t : System) : Prop := next s l.1 = some (t, l.2)

/-- The state after a labelled step, if the action reports what the label says. -/
def stepTo (s : System) (l : Action × Outcome) : Option System :=
  (next s l.1).bind fun r => if r.2 = l.2 then some r.1 else none

theorem stepTo_eq_some {s t : System} {l : Action × Outcome} : stepTo s l = some t ↔ step s l t := by
  simp only [stepTo, step, Option.bind_eq_some_iff, Option.ite_none_right_eq_some, Option.some.injEq]
  constructor
  · rintro ⟨⟨u, o⟩, hnext, rfl, rfl⟩
    exact hnext
  · intro hnext
    exact ⟨(t, l.2), hnext, rfl, rfl⟩

end NyanOS.Memory
