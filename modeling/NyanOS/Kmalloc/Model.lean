import NyanOS.Lib.Run
import NyanOS.Lib.Segment
import NyanOS.Lib.Extent

/-!
# The kernel heap (`mem/kmalloc.c`)

The free list lives inside the memory it manages: each block starts with a header of
16 bytes. Memory is read through the header stored at an address. Headers are 16 bytes
long and stand at multiples of 16, so no two of these views overlap.
-/

namespace NyanOS.Kmalloc

open Function

def pageSize : Nat := 0x1000

/-- The size of `FreeBlock` in bytes. -/
def headerSize : Nat := 16

def kernHeapStart : Nat := 0xFFFFFFFF90000000

def kernHeapEnd : Nat := kernHeapStart + 0x10000000

structure FreeBlock where
  size : Nat
  next : Nat
  deriving DecidableEq, Repr

/-- Memory and `g_free_list_head`; address 0 is `NULL`. -/
structure Heap where
  mem : Nat → FreeBlock
  freeListHead : Nat

/-- Addition on `uint64_t` and `size_t`. -/
def add64 (a b : Nat) : Nat := (a + b) % 2 ^ 64

def Heap.next (h : Heap) (a : Nat) : Nat := (h.mem a).next

def Heap.size (h : Heap) (a : Nat) : Nat := (h.mem a).size

def Heap.setNext (h : Heap) (a v : Nat) : Heap :=
  { h with mem := update h.mem a { h.mem a with next := v } }

def Heap.setSize (h : Heap) (a v : Nat) : Heap :=
  { h with mem := update h.mem a { h.mem a with size := v } }

def Heap.setHead (h : Heap) (v : Nat) : Heap := { h with freeListHead := v }

/-- A bound on the turns of a walk: no more headers fit into the address space. -/
def walkFuel : Nat := 2 ^ 60

/-- The loop of `find_free_block`: the first block that is large enough, and its predecessor. -/
def findFit (h : Heap) (size : Nat) : Nat → Nat → Nat → Option (Nat × Nat)
  | 0, _, _ => none
  | fuel + 1, prev, cur =>
    if cur = 0 then none
    else if add64 size headerSize ≤ h.size cur then some (prev, cur)
    else findFit h size fuel cur (h.next cur)

def unlink (h : Heap) (prev cur : Nat) : Heap :=
  let h' := if prev = 0 then h.setHead (h.next cur) else h.setNext prev (h.next cur)
  h'.setNext cur 0

def findFreeBlock (h : Heap) (size : Nat) : Option (Nat × Heap) :=
  (findFit h size walkFuel 0 h.freeListHead).map fun r => (r.2, unlink h r.1 r.2)

/-- Absorb the next block of the list into `blk` if it starts where `blk` stops. -/
def mergeNext (h : Heap) (blk : Nat) : Heap :=
  if h.next blk ≠ 0 ∧ add64 blk (h.size blk) = h.next blk then
    let h' := h.setSize blk (add64 (h.size blk) (h.size (h.next blk)))
    h'.setNext blk (h'.next (h'.next blk))
  else h

def mergePrev (h : Heap) (prev blk : Nat) : Heap :=
  if add64 prev (h.size prev) = blk then
    let h' := h.setSize prev (add64 (h.size prev) (h.size blk))
    h'.setNext prev (h'.next blk)
  else h

/-- The loop of `kfree_unlocked`: the last block of the list before `blk`. -/
def findPrev (h : Heap) (blk : Nat) : Nat → Nat → Nat
  | 0, prev => prev
  | fuel + 1, prev =>
    if h.next prev ≠ 0 ∧ h.next prev < blk then findPrev h blk fuel (h.next prev) else prev

def insertHead (h : Heap) (blk : Nat) : Heap :=
  (h.setNext blk h.freeListHead).setHead blk

def insertAfter (h : Heap) (prev blk : Nat) : Heap :=
  (h.setNext blk (h.next prev)).setNext prev blk

def kfreeUnlocked (h : Heap) (ptr : Nat) : Heap :=
  if ptr = 0 then h
  else
    let blk := ptr - headerSize
    if h.size blk = 0 then h
    else if h.freeListHead = 0 ∨ blk < h.freeListHead then mergeNext (insertHead h blk) blk
    else
      let prev := findPrev h blk walkFuel h.freeListHead
      mergePrev (mergeNext (insertAfter h prev blk) blk) prev blk

/-- A pointer from `vmm_alloc_global` goes to `vmm_free`, which leaves this heap alone. -/
def kfree (h : Heap) (ptr : Nat) : Heap :=
  if ptr = 0 then h
  else if kernHeapStart ≤ ptr ∧ ptr < kernHeapEnd then h
  else kfreeUnlocked h ptr

section

variable (hhdmOffset : Nat)

def vmmPhysToHhdm (phys : Nat) : Nat := phys ||| hhdmOffset

/-- The page that `request_new_page` adds for a frame, with its second look at the offset. -/
def newPage (phys : Nat) : Nat :=
  let ptr := vmmPhysToHhdm hhdmOffset phys
  if ptr < hhdmOffset then vmmPhysToHhdm hhdmOffset ptr else ptr

/-- `phys` is the result of `pmm_alloc_frame`, 0 when there is no frame. -/
def requestNewPage (h : Heap) (phys : Nat) : Option (Nat × Heap) :=
  if phys = 0 then none
  else if vmmPhysToHhdm hhdmOffset phys = 0 then none
  else
    let page := newPage hhdmOffset phys
    some (page, kfreeUnlocked (h.setSize page pageSize) (page + headerSize))

/-- Cut `size` bytes of payload off the unlinked block and free the rest of it. -/
def carve (h : Heap) (blk size : Nat) : Heap :=
  let allocated := headerSize + size
  let remaining := h.size blk - allocated
  let h' := h.setSize blk allocated
  if headerSize ≤ remaining then
    kfreeUnlocked (h'.setSize (blk + allocated) remaining) (blk + allocated + headerSize)
  else h'.setSize blk (add64 (h'.size blk) remaining)

/-- `(size + 15) & ~15` on `size_t`. -/
def roundUp16 (size : Nat) : Nat := add64 size 15 / 16 * 16

inductive KmallocResult where
  /-- The request is passed on to `vmm_alloc_global`. -/
  | global (size : Nat)
  /-- The pointer, the heap, and the page that was requested on the way. -/
  | done (ptr : Nat) (heap : Heap) (page : Option Nat)

def kmalloc (h : Heap) (size phys : Nat) : KmallocResult :=
  if size = 0 then .done 0 h none
  else
    let size := roundUp16 size
    if pageSize - headerSize ≤ size then .global size
    else
      match findFreeBlock h size with
      | some (blk, h) => .done (blk + headerSize) (carve h blk size) none
      | none =>
        match requestNewPage hhdmOffset h phys with
        | none => .done 0 h none
        | some (page, h) =>
          match findFreeBlock h size with
          | none => .done 0 h (some page)
          | some (blk, h) => .done (blk + headerSize) (carve h blk size) (some page)

end

/-- A pointer that was returned and not yet freed, with the size asked for. -/
structure Alloc where
  ptr : Nat
  size : Nat
  deriving DecidableEq, Repr

structure State where
  heap : Heap
  /-- The pages obtained so far. -/
  pages : List Nat
  live : List Alloc

def initial (mem : Nat → FreeBlock) : State := ⟨⟨mem, 0⟩, [], []⟩

inductive Action where
  | kmalloc (size phys : Nat)
  | kfree (ptr : Nat)
  /-- The owner of an allocation overwrites 16 bytes of its payload. -/
  | store (addr : Nat) (value : FreeBlock)

/-- The sizes served from the free list. -/
def SmallSize (size : Nat) : Prop :=
  size < 2 ^ 64 ∧ 0 < roundUp16 size ∧ roundUp16 size < pageSize - headerSize

instance (size : Nat) : Decidable (SmallSize size) := inferInstanceAs (Decidable (_ ∧ _ ∧ _))

/-- `pmm_alloc_frame` failed, or its frame is a new aligned page of the direct map, which
does not meet the window of `vmm_alloc_global`. -/
def FreshFrame (hhdmOffset : Nat) (s : State) (phys : Nat) : Prop :=
  phys = 0 ∨
    (pageSize ∣ newPage hhdmOffset phys ∧ newPage hhdmOffset phys < 2 ^ 64 ∧
      newPage hhdmOffset phys ∉ s.pages ∧
      (newPage hhdmOffset phys + pageSize ≤ kernHeapStart ∨
        kernHeapEnd ≤ newPage hhdmOffset phys))

instance (hhdmOffset : Nat) (s : State) (phys : Nat) : Decidable (FreshFrame hhdmOffset s phys) :=
  inferInstanceAs (Decidable (_ ∨ (_ ∧ _ ∧ _ ∧ (_ ∨ _))))

/-- `addr` is a 16-byte cell inside the payload of an allocation. -/
def Owns (s : State) (addr : Nat) : Prop :=
  16 ∣ addr ∧ ∃ x ∈ s.live, x.ptr ≤ addr ∧ addr + headerSize ≤ x.ptr - headerSize +
    s.heap.size (x.ptr - headerSize)

instance (s : State) (addr : Nat) : Decidable (Owns s addr) :=
  inferInstanceAs (Decidable (_ ∧ ∃ x ∈ s.live, _))

def next (hhdmOffset : Nat) (s : State) : Action → Option State
  | .kmalloc size phys =>
    if SmallSize size ∧ FreshFrame hhdmOffset s phys then
      match kmalloc hhdmOffset s.heap size phys with
      | .global _ => none
      | .done ptr heap page =>
        some ⟨heap, page.toList ++ s.pages, if ptr = 0 then s.live else ⟨ptr, size⟩ :: s.live⟩
    else none
  | .kfree ptr =>
    if ∃ x ∈ s.live, x.ptr = ptr then
      some { s with heap := kfree s.heap ptr, live := s.live.filter (·.ptr ≠ ptr) }
    else none
  | .store addr value =>
    if Owns s addr then
      some { s with heap := { s.heap with mem := update s.heap.mem addr value } }
    else none

def Step (hhdmOffset : Nat) : State → Action → State → Prop := Lib.ofNext (next hhdmOffset)

def Reachable (hhdmOffset : Nat) (s : State) : Prop :=
  ∃ mem xs, Lib.Run (Step hhdmOffset) (initial mem) xs s

end NyanOS.Kmalloc
