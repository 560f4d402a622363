import NyanOS.Lib.Bytes
import NyanOS.Lib.Run
import NyanOS.Memory.Pmm

/-!
# The frame allocator in its bytes (`mem/pmm.c`)

The bitmap and the reference counts lie in one block of memory, the counts right behind the bitmap. With a
number of pages that is a multiple of 8 the two do not meet, and the block is a `Pmm`.
-/
namespace NyanOS.Memory

open Function List BitVec Lib

open Lib (get32 put32 splice)

structure PmmState where
  /-- The memory from the start of the bitmap on. -/
  block : Lib.Bytes
  bitmapSize : Nat
  totalPages : Nat
  lastFreePage : Nat

def bitmapSet (b : Lib.Bytes) (bit : Nat) : Lib.Bytes :=
  update b (bit / 8) (b (bit / 8) ||| 1#8 <<< (bit % 8))

def bitmapClear (b : Lib.Bytes) (bit : Nat) : Lib.Bytes :=
  update b (bit / 8) (b (bit / 8) &&& ~~~(1#8 <<< (bit % 8)))

def bitmapTest (b : Lib.Bytes) (bit : Nat) : Bool := b (bit / 8) &&& 1#8 <<< (bit % 8) ≠ 0#8

namespace PmmState

def refCount (s : PmmState) (i : Nat) : Nat := get32 s.block (s.bitmapSize + 4 * i)

def setRefCount (s : PmmState) (i n : Nat) : PmmState :=
  { s with block := put32 s.block (s.bitmapSize + 4 * i) n }

def take (s : PmmState) (i : Nat) : PmmState :=
  { ({ s with block := bitmapSet s.block i } : PmmState).setRefCount i 1 with lastFreePage := i + 1 }

/-- The address of the frame taken, or 0 when memory is full. -/
def pmmAllocFrame (s : PmmState) : Nat × PmmState :=
  match scan (bitmapTest s.block) (s.totalPages - s.lastFreePage) s.lastFreePage with
  | some i => (i * pageSize, s.take i)
  | none =>
    match scan (bitmapTest s.block) s.lastFreePage 0 with
    | some i => (i * pageSize, s.take i)
    | none => (0, s)

def clear (s : PmmState) (bit : Nat) : PmmState :=
  { s with
    block := bitmapClear s.block bit
    lastFreePage := if bit < s.lastFreePage then bit else s.lastFreePage }

def pmmFreeFrame (s : PmmState) (physAddr : Nat) : PmmState :=
  if physAddr < 0x100000 then s
  else if s.totalPages ≤ physAddr / pageSize then s
  else if bitmapTest s.block (physAddr / pageSize) then
    let bit := physAddr / pageSize
    let s := if 0 < s.refCount bit then s.setRefCount bit (s.refCount bit - 1) else s
    if s.refCount bit = 0 then s.clear bit else s
  else s

def pmmIncRef (s : PmmState) (frameAddr : Nat) : PmmState :=
  s.setRefCount (frameAddr / pageSize) (s.refCount (frameAddr / pageSize) + 1)

def pmmDecRef (s : PmmState) (frameAddr : Nat) : PmmState := s.pmmFreeFrame frameAddr

end PmmState

/-! The start -/

structure MemmapEntry where
  usable : Bool
  base : Nat
  length : Nat

def getMemorySize (memmap : List MemmapEntry) : Nat :=
  memmap.foldl (fun highest e =>
    if e.usable ∧ highest < (e.base + e.length) % 2 ^ 64 then (e.base + e.length) % 2 ^ 64 else highest) 0

def clearEntry (b : Lib.Bytes) (e : MemmapEntry) : Lib.Bytes :=
  if e.usable then (range (e.length / pageSize)).foldl (fun b j => bitmapClear b (e.base / pageSize + j)) b
  else b

/-- `pmm_init` over what the memory holds; it stops the machine if no entry can hold the block. -/
def pmmInit (content : Lib.Bytes) (memmap : List MemmapEntry) : Option PmmState :=
  let totalPages := getMemorySize memmap / pageSize
  let bitmapSize := totalPages / 8
  let bitmapPageCount := (bitmapSize + pageSize - 1) / pageSize
  let refCountsSize := totalPages * 4
  let refCountsPageCount := (refCountsSize + pageSize - 1) / pageSize
  match memmap.find? fun e => e.usable ∧ bitmapPageCount * pageSize + refCountsPageCount * pageSize ≤ e.length with
  | none => none
  | some e =>
    let b := splice content 0 bitmapSize fun _ => 0xFF#8
    let b := memmap.foldl clearEntry b
    let b := (range (bitmapPageCount + refCountsPageCount)).foldl
      (fun b i => bitmapSet b (e.base / pageSize + i)) b
    let b := (range (0x100000 / pageSize)).foldl bitmapSet b
    let b := splice b bitmapSize refCountsSize fun _ => 0#8
    some ⟨b, bitmapSize, totalPages, 0⟩

/-! Bits -/

variable {b content : Lib.Bytes} {i j n addr : Nat} {s : PmmState}

theorem bitmapTest_eq (b : Lib.Bytes) (i : Nat) : bitmapTest b i = (b (i / 8)).getLsbD (i % 8) := by
  have hk : i % 8 < 8 := Nat.mod_lt i (by omega)
  rw [bitmapTest, ← twoPow_eq, and_twoPow]
  cases (b (i / 8)).getLsbD (i % 8) with
  | false => simp
  | true =>
    have hne : twoPow 8 (i % 8) ≠ 0#8 := by
      intro h
      have h1 := congrArg (·.getLsbD (i % 8)) h
      simp [hk] at h1
    simp [hne]

theorem bitmapTest_set (b : Lib.Bytes) (i j : Nat) :
    bitmapTest (bitmapSet b i) j = if j = i then true else bitmapTest b j := by
  have hi : i % 8 < 8 := Nat.mod_lt i (by omega)
  have hj : j % 8 < 8 := Nat.mod_lt j (by omega)
  rw [bitmapTest_eq, bitmapTest_eq, bitmapSet]
  by_cases hbyte : j / 8 = i / 8
  · rw [hbyte, update_self, getLsbD_or, ← twoPow_eq, getLsbD_twoPow]
    by_cases hij : j = i
    · simp [hij, hi]
    · have hbit : i % 8 ≠ j % 8 := by omega
      simp [hij, hbit]
  · have hij : j ≠ i := fun e => hbyte (by rw [e])
    rw [update_of_ne hbyte, if_neg hij]

theorem bitmapTest_clear (b : Lib.Bytes) (i j : Nat) :
    bitmapTest (bitmapClear b i) j = if j = i then false else bitmapTest b j := by
  have hi : i % 8 < 8 := Nat.mod_lt i (by omega)
  have hj : j % 8 < 8 := Nat.mod_lt j (by omega)
  rw [bitmapTest_eq, bitmapTest_eq, bitmapClear]
  by_cases hbyte : j / 8 = i / 8
  · rw [hbyte, update_self, getLsbD_and, getLsbD_not, ← twoPow_eq, getLsbD_twoPow]
    by_cases hij : j = i
    · simp [hij, hi]
    · have hbit : i % 8 ≠ j % 8 := by omega
      simp [hij, hbit, hj]
  · have hij : j ≠ i := fun e => hbyte (by rw [e])
    rw [update_of_ne hbyte, if_neg hij]

/-! The block is a `Pmm` -/

namespace PmmState

/-- The bits beyond the last page are not in the bitmap. -/
def toPmm (s : PmmState) : Pmm where
  bitmap i := if i < s.totalPages then bitmapTest s.block i else true
  refCounts i := if i < s.totalPages then s.refCount i else 0
  totalPages := s.totalPages
  lastFreePage := s.lastFreePage

/-- The bitmap has a byte for every eight pages. -/
def Whole (s : PmmState) : Prop := 8 * s.bitmapSize = s.totalPages

theorem bitmapTest_setRefCount (h : s.Whole) (hj : j < s.totalPages) (n : Nat) :
    bitmapTest (s.setRefCount i n).block j = bitmapTest s.block j := by
  unfold Whole at h
  have hbyte : (s.setRefCount i n).block (j / 8) = s.block (j / 8) := put32_out (by omega)
  rw [bitmapTest, bitmapTest, hbyte]

theorem refCount_setRefCount :
    (s.setRefCount i n).refCount j = if j = i then n % 2 ^ 32 else s.refCount j := by
  by_cases hij : j = i
  · rw [if_pos hij, hij]
    exact get32_put32
  have hout : s.bitmapSize + 4 * j + 4 ≤ s.bitmapSize + 4 * i ∨ s.bitmapSize + 4 * i + 4 ≤ s.bitmapSize + 4 * j := by
    omega
  rw [if_neg hij]
  exact get32_splice_out hout

section

variable (h : s.Whole) (hi : i < s.totalPages)
include h hi

theorem refCount_update (x : BitVec 8) :
    ({ s with block := update s.block (i / 8) x } : PmmState).refCount j = s.refCount j := by
  unfold Whole at h
  refine get32_congr fun k _ => ?_
  have hne : s.bitmapSize + 4 * j + k ≠ i / 8 := by omega
  exact update_of_ne hne _ _

theorem toPmm_setRefCount (hn : n < 2 ^ 32) : (s.setRefCount i n).toPmm = s.toPmm.setRef i n := by
  have hbits : (s.setRefCount i n).toPmm.bitmap = s.toPmm.bitmap := by
    funext j
    exact ite_congr rfl (fun hj => bitmapTest_setRefCount h hj n) fun _ => rfl
  have hrefs : (s.setRefCount i n).toPmm.refCounts = update s.toPmm.refCounts i n := by
    funext j
    by_cases hij : j = i
    · subst hij
      have hself : (s.setRefCount j n).refCount j = n := by
        rw [refCount_setRefCount, if_pos rfl, Nat.mod_eq_of_lt hn]
      simpa [toPmm, setRefCount, hi] using hself
    · rw [update_of_ne hij]
      exact ite_congr rfl (fun _ => by rw [refCount_setRefCount, if_neg hij]) fun _ => rfl
  calc (s.setRefCount i n).toPmm
      = ⟨(s.setRefCount i n).toPmm.bitmap, (s.setRefCount i n).toPmm.refCounts, s.totalPages, s.lastFreePage⟩ := rfl
    _ = s.toPmm.setRef i n := by rw [hbits, hrefs]; rfl

theorem toPmm_write {x : Bool} {y : BitVec 8} (hb : b = update s.block (i / 8) y)
    (htest : ∀ j, bitmapTest b j = if j = i then x else bitmapTest s.block j) :
    ({ s with block := b } : PmmState).toPmm = { s.toPmm with bitmap := update s.toPmm.bitmap i x } := by
  have hbits : ({ s with block := b } : PmmState).toPmm.bitmap = update s.toPmm.bitmap i x := by
    funext j
    by_cases hij : j = i
    · subst hij
      simp [toPmm, hi, htest]
    · rw [update_of_ne hij]
      exact ite_congr rfl (fun _ => by rw [htest, if_neg hij]) fun _ => rfl
  have hrefs : ({ s with block := b } : PmmState).toPmm.refCounts = s.toPmm.refCounts := by
    funext j
    subst hb
    exact ite_congr rfl (fun _ => refCount_update h hi y) fun _ => rfl
  calc ({ s with block := b } : PmmState).toPmm
      = ⟨({ s with block := b } : PmmState).toPmm.bitmap, ({ s with block := b } : PmmState).toPmm.refCounts,
          s.totalPages, s.lastFreePage⟩ := rfl
    _ = _ := by rw [hbits, hrefs]; rfl

theorem toPmm_take : (s.take i).toPmm = s.toPmm.take i := by
  have hset := toPmm_write h hi (b := bitmapSet s.block i) rfl (bitmapTest_set s.block i)
  have hwhole : ({ s with block := bitmapSet s.block i } : PmmState).Whole := h
  have href := toPmm_setRefCount hwhole hi (n := 1) (by decide)
  calc (s.take i).toPmm
      = { (({ s with block := bitmapSet s.block i } : PmmState).setRefCount i 1).toPmm with
          lastFreePage := i + 1 } := rfl
    _ = s.toPmm.take i := by rw [href, hset]; rfl

theorem toPmm_clear : (s.clear i).toPmm = s.toPmm.clear i := by
  have hclear := toPmm_write h hi (b := bitmapClear s.block i) rfl (bitmapTest_clear s.block i)
  calc (s.clear i).toPmm
      = { ({ s with block := bitmapClear s.block i } : PmmState).toPmm with
          lastFreePage := if i < s.lastFreePage then i else s.lastFreePage } := rfl
    _ = s.toPmm.clear i := by rw [hclear]; rfl

end

theorem scan_congr {f g : Nat → Bool} (h : ∀ k, i ≤ k → k < i + n → f k = g k) : scan f n i = scan g n i := by
  induction n generalizing i with
  | zero => rfl
  | succ n ih =>
    rw [scan, scan, h i (le_refl i) (by omega), ih fun k h1 h2 => h k (by omega) (by omega)]

theorem pmmAllocFrame_toPmm (h : s.Whole) (hlast : s.lastFreePage ≤ s.totalPages) :
    s.pmmAllocFrame.1 = (Memory.pmmAllocFrame s.toPmm).1 * pageSize ∧
      s.pmmAllocFrame.2.toPmm = (Memory.pmmAllocFrame s.toPmm).2 := by
  have hbits : ∀ k < s.totalPages, bitmapTest s.block k = s.toPmm.bitmap k := fun k hk => (if_pos hk).symm
  have hup : scan (bitmapTest s.block) (s.totalPages - s.lastFreePage) s.lastFreePage =
      scan s.toPmm.bitmap (s.toPmm.totalPages - s.toPmm.lastFreePage) s.toPmm.lastFreePage :=
    scan_congr fun k _ hk => hbits k (by omega)
  have hdown : scan (bitmapTest s.block) s.lastFreePage 0 = scan s.toPmm.bitmap s.toPmm.lastFreePage 0 :=
    scan_congr fun k _ hk => hbits k (by omega)
  rw [pmmAllocFrame, Memory.pmmAllocFrame, ← hup, ← hdown]
  cases hu : scan (bitmapTest s.block) (s.totalPages - s.lastFreePage) s.lastFreePage with
  | some f =>
    obtain ⟨_, hlt, -⟩ := scan_some hu
    exact ⟨rfl, toPmm_take h (by omega)⟩
  | none =>
    cases hd : scan (bitmapTest s.block) s.lastFreePage 0 with
    | some f =>
      obtain ⟨_, hlt, -⟩ := scan_some hd
      exact ⟨rfl, toPmm_take h (by omega)⟩
    | none => exact ⟨(zero_mul pageSize).symm, rfl⟩

theorem refCount_lt (s : PmmState) (i : Nat) : s.refCount i < 2 ^ 32 := get32_lt

theorem toPmm_refCounts (hi : i < s.totalPages) : s.toPmm.refCounts i = s.refCount i := if_pos hi

theorem toPmm_bitmap (hi : i < s.totalPages) : s.toPmm.bitmap i = bitmapTest s.block i := if_pos hi

theorem pmmIncRef_toPmm (h : s.Whole) (hi : addr / pageSize < s.totalPages)
    (hlt : s.refCount (addr / pageSize) + 1 < 2 ^ 32) :
    (s.pmmIncRef addr).toPmm = Memory.pmmIncRef s.toPmm (addr / pageSize) := by
  rw [pmmIncRef, toPmm_setRefCount h hi hlt, Memory.pmmIncRef, toPmm_refCounts hi, Nat.mod_eq_of_lt hlt]

theorem pmmFreeFrame_toPmm (h : s.Whole) (addr : Nat) :
    (s.pmmFreeFrame addr).toPmm = Memory.pmmFreeFrame s.toPmm (addr / pageSize) := by
  have hlow : addr < 0x100000 ↔ addr / pageSize * pageSize < 0x100000 := by
    simp only [pageSize]
    omega
  rw [pmmFreeFrame, Memory.pmmFreeFrame]
  by_cases h1 : addr < 0x100000
  · rw [if_pos h1, if_pos (hlow.mp h1)]
  rw [if_neg h1, if_neg fun hc => h1 (hlow.mpr hc)]
  by_cases h2 : s.totalPages ≤ addr / pageSize
  · rw [if_pos h2, if_pos (show s.toPmm.totalPages ≤ _ from h2)]
  rw [if_neg h2, if_neg (show ¬ s.toPmm.totalPages ≤ _ from h2)]
  have hi : addr / pageSize < s.totalPages := by omega
  generalize addr / pageSize = f at hi
  rw [toPmm_bitmap hi, toPmm_refCounts hi]
  cases bitmapTest s.block f with
  | false => rfl
  | true =>
    have hr := refCount_lt s f
    by_cases hpos : 0 < s.refCount f
    · have hset := toPmm_setRefCount h hi (n := s.refCount f - 1) (by omega)
      have hval : (s.setRefCount f (s.refCount f - 1)).refCount f = s.refCount f - 1 := by
        rw [refCount_setRefCount, if_pos rfl]
        omega
      have hwhole : (s.setRefCount f (s.refCount f - 1)).Whole := h
      simp only [if_true, if_pos hpos, hval]
      by_cases hz : s.refCount f - 1 = 0
      · rw [if_pos hz, if_pos hz, toPmm_clear hwhole hi, hset]
      · rw [if_neg hz, if_neg hz, hset]
    · have hz : s.refCount f = 0 := by omega
      have hset : s.toPmm.setRef f 0 = s.toPmm := by
        have hself : update s.toPmm.refCounts f 0 = s.toPmm.refCounts := by
          rw [← hz, ← toPmm_refCounts hi, update_eq_self]
        rw [Pmm.setRef, hself]
      simp only [if_true, hz, lt_irrefl, if_false]
      rw [toPmm_clear h hi, hset]

theorem whole_of_step (s : PmmState) (addr : Nat) :
    (s.pmmFreeFrame addr).totalPages = s.totalPages ∧ (s.pmmFreeFrame addr).bitmapSize = s.bitmapSize := by
  unfold pmmFreeFrame
  split
  · exact ⟨rfl, rfl⟩
  split
  · exact ⟨rfl, rfl⟩
  split
  · dsimp only
    split <;> split <;> exact ⟨rfl, rfl⟩
  · exact ⟨rfl, rfl⟩

theorem alloc_sizes (s : PmmState) :
    s.pmmAllocFrame.2.totalPages = s.totalPages ∧ s.pmmAllocFrame.2.bitmapSize = s.bitmapSize := by
  unfold pmmAllocFrame
  split
  · exact ⟨rfl, rfl⟩
  split
  · exact ⟨rfl, rfl⟩
  · exact ⟨rfl, rfl⟩

end PmmState

/-! `pmm_init` leaves a bitmap with the first megabyte reserved -/

theorem getMemorySize_lt (memmap : List MemmapEntry) : getMemorySize memmap < 2 ^ 64 := by
  refine foldlRecOn (motive := (· < 2 ^ 64)) memmap _ (by decide) fun highest h e _ => ?_
  split
  · exact Nat.mod_lt _ (by decide)
  · exact h

theorem bitmapTest_setAll {is : List Nat} (h : i ∈ is ∨ bitmapTest b i = true) :
    bitmapTest (is.foldl bitmapSet b) i = true := by
  induction is generalizing b with
  | nil => exact h.resolve_left (by simp)
  | cons k is ih =>
    rw [foldl_cons]
    refine ih ?_
    rw [bitmapTest_set]
    rcases h with hmem | hset
    · rcases mem_cons.mp hmem with rfl | hin
      · exact .inr (if_pos rfl)
      · exact .inl hin
    refine .inr ?_
    split
    · rfl
    · exact hset

theorem pmmInit_ok {memmap : List MemmapEntry} (h : pmmInit content memmap = some s)
    (h8 : 8 ∣ s.totalPages) : s.Whole ∧ s.toPmm.Ok := by
  unfold pmmInit at h
  dsimp only at h
  split at h
  · cases h
  cases h
  have hwhole : 8 * (getMemorySize memmap / pageSize / 8) = getMemorySize memmap / pageSize := Nat.mul_div_cancel' h8
  refine ⟨hwhole, fun i hi => ?_, Nat.zero_le _, ?_⟩
  · simp only [PmmState.toPmm]
    split
    · next hlt =>
      -- the counts are cleared behind the bitmap
      rw [bitmapTest, splice_out (by omega), ← bitmapTest]
      exact bitmapTest_setAll (.inl (mem_range.mpr hi))
    · rfl
  · have hsize := getMemorySize_lt memmap
    simp only [PmmState.toPmm, pageSize]
    omega

end NyanOS.Memory
