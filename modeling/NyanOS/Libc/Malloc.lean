import NyanOS.Lib.Bytes
import NyanOS.Lib.Run

/-!
# The heap of user programs (`libc/libc.c`)

The blocks stand one after the other in the memory that `sbrk` gave, each behind its header. Memory is bytes,
and a header is read and written field by field; address 0 is `NULL`.
-/
namespace NyanOS.Libc

open Lib

/-- `sizeof(block_meta)`: the flag is followed by three bytes of padding. -/
def metaSize : Nat := 24

def heapMagic : Nat := 0x12345678

structure BlockMeta where
  size : Nat
  next : Nat
  free : Bool
  magic : Nat
  deriving DecidableEq

def blockAt (b : Bytes) (a : Nat) : BlockMeta :=
  ⟨get64 b a, get64 b (a + 8), b (a + 16) ≠ 0#8, get32 b (a + 20)⟩

def setSize (b : Bytes) (a v : Nat) : Bytes := put64 b a v

def setNext (b : Bytes) (a v : Nat) : Bytes := put64 b (a + 8) v

def setFree (b : Bytes) (a : Nat) (v : Bool) : Bytes := splice b (a + 16) 1 fun _ => if v then 1#8 else 0#8

def setMagic (b : Bytes) (a v : Nat) : Bytes := put32 b (a + 20) v

structure Heap where
  mem : Bytes
  /-- `g_heap_base` -/
  base : Nat
  /-- The break that the kernel keeps. -/
  brk : Nat

/-- Addition on `size_t`. -/
def add64 (a b : Nat) : Nat := (a + b) % 2 ^ 64

/-- A bound on the turns of a loop: no more headers fit into the address space. -/
def walkFuel : Nat := 2 ^ 62

/-- `sbrk` fails, or returns the old break after it has moved it; the break stays an address. -/
def sbrk (h : Heap) (k : Nat) (ok : Bool) : Option (Nat × Heap) :=
  if ok = true ∧ h.brk + k < 2 ^ 64 then some (h.brk, { h with brk := h.brk + k }) else none

/-- `find_free_blk`: the last block passed, and the block found or 0. -/
def findFreeBlk (b : Bytes) (size : Nat) : Nat → Nat → Nat → Nat × Nat
  | 0, last, _ => (last, 0)
  | fuel + 1, last, curr =>
    if curr ≠ 0 ∧ ¬ ((blockAt b curr).free = true ∧ size ≤ (blockAt b curr).size) then
      findFreeBlk b size fuel curr (blockAt b curr).next
    else (last, curr)

def requestSpace (h : Heap) (last size : Nat) (ok : Bool) : Option (Nat × Heap) :=
  (sbrk h (add64 size metaSize) ok).map fun (blk, h) =>
    let b := setMagic (setFree (setNext (setSize h.mem blk size) blk 0) blk false) blk heapMagic
    (blk, { h with mem := if last ≠ 0 then setNext b last blk else b })

/-- A block that is large enough gives its end to a new free block. -/
def splitBlk (b : Bytes) (blk size : Nat) : Bytes :=
  if add64 (add64 size metaSize) 16 ≤ (blockAt b blk).size then
    let new := blk + metaSize + size
    let b := setSize b new ((blockAt b blk).size - size - metaSize)
    let b := setMagic (setFree b new true) new heapMagic
    let b := setNext b new (blockAt b blk).next
    setNext (setSize b blk size) blk new
  else b

/-- `(size + 15) & ~15` -/
def roundUp16 (size : Nat) : Nat := add64 size 15 / 16 * 16

/-- `malloc`; `ok` says whether `sbrk` succeeds if it is called. -/
def malloc (h : Heap) (size : Nat) (ok : Bool) : Nat × Heap :=
  if size = 0 then (0, h)
  else
    let size := roundUp16 size
    if h.base = 0 then
      match requestSpace h 0 size ok with
      | none => (0, h)
      | some (blk, h) => (blk + metaSize, { h with base := blk })
    else
      let (last, blk) := findFreeBlk h.mem size walkFuel h.base h.base
      if blk = 0 then
        match requestSpace h last size ok with
        | none => (0, h)
        | some (blk, h) => (blk + metaSize, h)
      else (blk + metaSize, { h with mem := setMagic (setFree (splitBlk h.mem blk size) blk false) blk heapMagic })

/-- The loop of `free` that joins free neighbours. -/
def coalesce : Nat → Nat → Bytes → Bytes
  | 0, _, b => b
  | fuel + 1, curr, b =>
    if curr = 0 then b
    else
      let x := blockAt b curr
      if x.free = true ∧ x.next ≠ 0 ∧ (blockAt b x.next).free = true then
        let b := setSize b curr (add64 x.size (add64 metaSize (blockAt b x.next).size))
        coalesce fuel curr (setNext b curr (blockAt b x.next).next)
      else coalesce fuel x.next b

def free (h : Heap) (ptr : Nat) : Heap :=
  if ptr = 0 then h
  else
    let blk := ptr - metaSize
    if (blockAt h.mem blk).magic ≠ heapMagic then h
    else { h with mem := coalesce walkFuel h.base (setFree h.mem blk true) }

/-- `memcpy` within the program's memory. -/
def memcpy (b : Bytes) (dest src n : Nat) : Bytes := splice b dest n fun k => b (src + k)

def realloc (h : Heap) (ptr size : Nat) (ok : Bool) : Nat × Heap :=
  if ptr = 0 then malloc h size ok
  else if size = 0 then (0, free h ptr)
  else
    let blk := ptr - metaSize
    if size ≤ (blockAt h.mem blk).size then (ptr, h)
    else
      let (new, h) := malloc h size ok
      if new = 0 then (0, h)
      else (new, free { h with mem := memcpy h.mem new ptr (blockAt h.mem blk).size } ptr)

end NyanOS.Libc
