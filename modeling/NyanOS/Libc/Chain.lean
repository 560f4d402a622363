import NyanOS.Libc.Malloc

/-!
# The chain of blocks

A list of blocks, without addresses: each block starts where the one before it ends. `Chain` says that memory
holds their headers, linked in this order.
-/
namespace NyanOS.Libc

open Lib

structure Block where
  size : Nat
  free : Bool
  deriving DecidableEq

/-- The bytes that blocks take with their headers. -/
def total : List Block → Nat
  | [] => 0
  | x :: l => metaSize + x.size + total l

/-- The pointer to the first of the blocks that start at `a`, or `z` if there is none. -/
def ptrTo (a : Nat) (l : List Block) (z : Nat) : Nat := if l = [] then z else a

def Chain (b : Bytes) : Nat → List Block → Nat → Prop
  | _, [], _ => True
  | a, x :: l, z =>
    blockAt b a = ⟨x.size, ptrTo (a + (metaSize + x.size)) l z, x.free, heapMagic⟩ ∧
      Chain b (a + (metaSize + x.size)) l z

/-- The blocks with the addresses of their headers. -/
def placed : Nat → List Block → List (Nat × Block)
  | _, [] => []
  | a, x :: l => (a, x) :: placed (a + (metaSize + x.size)) l

variable {b b' : Bytes} {a c v z n lo hi : Nat} {x y : Block} {l l' pre post old mid : List Block} {q : Nat × Block}

@[simp] theorem total_nil : total [] = 0 := rfl

@[simp] theorem total_cons : total (x :: l) = metaSize + x.size + total l := rfl

theorem total_append : total (l ++ l') = total l + total l' := by
  induction l with
  | nil => simp
  | cons x l ih =>
    rw [List.cons_append, total_cons, total_cons, ih]
    omega

@[simp] theorem ptrTo_cons : ptrTo a (x :: l) z = a := rfl

theorem length_le_total (l : List Block) : metaSize * l.length ≤ total l := by
  induction l with
  | nil => exact Nat.zero_le _
  | cons x l ih =>
    rw [List.length_cons, total_cons, Nat.mul_add]
    omega

theorem placed_append : placed a (l ++ l') = placed a l ++ placed (a + total l) l' := by
  induction l generalizing a with
  | nil => simp [placed]
  | cons x l ih => rw [List.cons_append, placed, placed, ih, total_cons, List.cons_append, add_assoc]

theorem placed_bounds (h : q ∈ placed a l) : a ≤ q.1 ∧ q.1 + metaSize + q.2.size ≤ a + total l := by
  induction l generalizing a with
  | nil => cases h
  | cons x l ih =>
    rcases List.mem_cons.mp h with rfl | hq
    · simp only [total_cons]
      omega
    obtain ⟨hlo, hhi⟩ := ih hq
    rw [total_cons]
    omega

/-! Headers -/

theorem blockAt_congr (h : ∀ k < metaSize, b' (a + k) = b (a + k)) : blockAt b' a = blockAt b a := by
  unfold metaSize at h
  have hsize : get64 b' a = get64 b a := get64_congr fun k hk => h k (by omega)
  have hnext : get64 b' (a + 8) = get64 b (a + 8) := by
    refine get64_congr fun k hk => ?_
    rw [add_assoc]
    exact h (8 + k) (by omega)
  have hmagic : get32 b' (a + 20) = get32 b (a + 20) := by
    refine get32_congr fun k hk => ?_
    rw [add_assoc]
    exact h (20 + k) (by omega)
  rw [blockAt, blockAt, hsize, hnext, hmagic, h 16 (by omega)]

theorem blockAt_setSize (hv : v < 2 ^ 64) : blockAt (setSize b a v) a = { blockAt b a with size := v } := by
  have hnext : get64 (put64 b a v) (a + 8) = get64 b (a + 8) := get64_congr fun k _ => put64_out (by omega)
  have hmagic : get32 (put64 b a v) (a + 20) = get32 b (a + 20) := get32_congr fun k _ => put64_out (by omega)
  have hfree : put64 b a v (a + 16) = b (a + 16) := put64_out (by omega)
  rw [blockAt, blockAt, setSize, get64_put64, hnext, hmagic, hfree, Nat.mod_eq_of_lt hv]

theorem blockAt_setNext (hv : v < 2 ^ 64) : blockAt (setNext b a v) a = { blockAt b a with next := v } := by
  have hsize : get64 (put64 b (a + 8) v) a = get64 b a := get64_congr fun k _ => put64_out (by omega)
  have hmagic : get32 (put64 b (a + 8) v) (a + 20) = get32 b (a + 20) := get32_congr fun k _ => put64_out (by omega)
  have hfree : put64 b (a + 8) v (a + 16) = b (a + 16) := put64_out (by omega)
  rw [blockAt, blockAt, setNext, get64_put64, hsize, hmagic, hfree, Nat.mod_eq_of_lt hv]

theorem blockAt_setFree (v : Bool) : blockAt (setFree b a v) a = { blockAt b a with free := v } := by
  have hsize : get64 (setFree b a v) a = get64 b a := get64_congr fun k _ => splice_out (by omega)
  have hnext : get64 (setFree b a v) (a + 8) = get64 b (a + 8) := get64_congr fun k _ => splice_out (by omega)
  have hmagic : get32 (setFree b a v) (a + 20) = get32 b (a + 20) := get32_congr fun k _ => splice_out (by omega)
  have hfree : setFree b a v (a + 16) = if v then 1#8 else 0#8 := splice_add (k := 0) (by omega)
  rw [blockAt, blockAt, hsize, hnext, hmagic, hfree]
  cases v <;> simp

theorem blockAt_setMagic (hv : v < 2 ^ 32) : blockAt (setMagic b a v) a = { blockAt b a with magic := v } := by
  have hsize : get64 (put32 b (a + 20) v) a = get64 b a := get64_congr fun k _ => put32_out (by omega)
  have hnext : get64 (put32 b (a + 20) v) (a + 8) = get64 b (a + 8) := get64_congr fun k _ => put32_out (by omega)
  have hfree : put32 b (a + 20) v (a + 16) = b (a + 16) := put32_out (by omega)
  rw [blockAt, blockAt, setMagic, get32_put32, hsize, hnext, hfree, Nat.mod_eq_of_lt hv]

/-- Memory is as before outside the bytes from `lo` to `hi`. -/
def Outside (lo hi : Nat) (b b' : Bytes) : Prop := ∀ k, k < lo ∨ hi ≤ k → b' k = b k

namespace Outside

variable {lo hi : Nat} {b'' : Bytes}

theorem refl : Outside lo hi b b := fun _ _ => rfl

theorem trans (h : Outside lo hi b b') (h' : Outside lo hi b' b'') : Outside lo hi b b'' :=
  fun k hk => (h' k hk).trans (h k hk)

theorem size (hlo : lo ≤ a) (hhi : a + metaSize ≤ hi) : Outside lo hi b (setSize b a v) := by
  unfold metaSize at hhi
  exact fun k hk => put64_out (by omega)

theorem next (hlo : lo ≤ a) (hhi : a + metaSize ≤ hi) : Outside lo hi b (setNext b a v) := by
  unfold metaSize at hhi
  exact fun k hk => put64_out (by omega)

theorem free {v : Bool} (hlo : lo ≤ a) (hhi : a + metaSize ≤ hi) : Outside lo hi b (setFree b a v) := by
  unfold metaSize at hhi
  exact fun k hk => splice_out (by omega)

theorem magic (hlo : lo ≤ a) (hhi : a + metaSize ≤ hi) : Outside lo hi b (setMagic b a v) := by
  unfold metaSize at hhi
  exact fun k hk => put32_out (by omega)

theorem blockAt (h : Outside lo hi b b') (ha : a + metaSize ≤ lo ∨ hi ≤ a) :
    Libc.blockAt b' a = Libc.blockAt b a := blockAt_congr fun k hk => h (a + k) (by omega)

end Outside

/-! Chains -/

theorem chain_congr (h : ∀ q ∈ placed a l, ∀ k < metaSize, b' (q.1 + k) = b (q.1 + k)) (hc : Chain b a l z) :
    Chain b' a l z := by
  induction l generalizing a with
  | nil => trivial
  | cons x l ih =>
    obtain ⟨hhead, htail⟩ := List.forall_mem_cons.mp h
    exact ⟨(blockAt_congr hhead).trans hc.1, ih htail hc.2⟩

theorem Chain.outside (hc : Chain b a l z) (h : Outside lo hi b b') (ha : a + total l ≤ lo ∨ hi ≤ a) :
    Chain b' a l z := by
  refine chain_congr (fun q hq k hk => h _ ?_) hc
  obtain ⟨hlo, hhi⟩ := placed_bounds hq
  omega

theorem chain_append : Chain b a (l ++ l') z ↔ Chain b a l (ptrTo (a + total l) l' z) ∧ Chain b (a + total l) l' z := by
  induction l generalizing a with
  | nil => simp [Chain]
  | cons x l ih =>
    have hptr : ptrTo (a + (metaSize + x.size)) (l ++ l') z =
        ptrTo (a + (metaSize + x.size)) l (ptrTo (a + (metaSize + x.size) + total l) l' z) := by
      cases l <;> rfl
    rw [List.cons_append, Chain, Chain, ih, hptr, total_cons, add_assoc a, and_assoc]

theorem Chain.replace (hc : Chain b a (pre ++ (old ++ post)) z)
    (hout : Outside (a + total pre) (a + total pre + total old) b b') (hold : old ≠ []) (hmid : mid ≠ [])
    (htotal : total mid = total old) (hnew : Chain b' (a + total pre) mid (ptrTo (a + total pre + total old) post z)) :
    Chain b' a (pre ++ (mid ++ post)) z := by
  obtain ⟨hpre, hrest⟩ := chain_append.mp hc
  obtain ⟨-, hpost⟩ := chain_append.mp hrest
  have hptr : ∀ l : List Block, l ≠ [] → ptrTo (a + total pre) (l ++ post) z = a + total pre := by
    intro l hl
    exact if_neg (by simp [hl])
  refine chain_append.mpr ⟨?_, chain_append.mpr ⟨?_, ?_⟩⟩
  · rw [hptr old hold] at hpre
    rw [hptr mid hmid]
    exact hpre.outside hout (.inl (le_refl _))
  · rw [htotal]
    exact hnew
  · rw [htotal]
    exact hpost.outside hout (.inr (le_refl _))

theorem Chain.header (hc : Chain b a (pre ++ x :: post) z) : blockAt b (a + total pre) =
      ⟨x.size, ptrTo (a + total pre + (metaSize + x.size)) post z, x.free, heapMagic⟩ :=
  (chain_append.mp hc).2.1

end NyanOS.Libc
