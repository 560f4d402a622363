import Mathlib.Tactic

/-! Byte-addressed memory: blocks and little-endian fields. -/
namespace NyanOS.Lib

abbrev Byte := BitVec 8

abbrev Bytes := Nat → Byte

variable {b b' src : Bytes} {a a' n m o x k : Nat}

/-- Overwrite `n` bytes from address `a` on. -/
def splice (b : Bytes) (a n : Nat) (src : Bytes) : Bytes :=
  fun x => if a ≤ x ∧ x < a + n then src (x - a) else b x

def get16 (b : Bytes) (a : Nat) : Nat := (b a).toNat + 2 ^ 8 * (b (a + 1)).toNat

def get32 (b : Bytes) (a : Nat) : Nat := get16 b a + 2 ^ 16 * get16 b (a + 2)

def put16 (b : Bytes) (a n : Nat) : Bytes := splice b a 2 fun k => BitVec.ofNat 8 (n / 2 ^ (8 * k))

def put32 (b : Bytes) (a n : Nat) : Bytes := splice b a 4 fun k => BitVec.ofNat 8 (n / 2 ^ (8 * k))

def get64 (b : Bytes) (a : Nat) : Nat := get32 b a + 2 ^ 32 * get32 b (a + 4)

def put64 (b : Bytes) (a n : Nat) : Bytes := splice b a 8 fun k => BitVec.ofNat 8 (n / 2 ^ (8 * k))

theorem splice_mem (h : a ≤ x) (h' : x < a + n) : splice b a n src x = src (x - a) := if_pos ⟨h, h'⟩

theorem splice_add (h : k < n) : splice b a n src (a + k) = src k := by
  rw [splice_mem (Nat.le_add_right a k) (by omega), Nat.add_sub_cancel_left]

theorem splice_out (h : x < a ∨ a + n ≤ x) : splice b a n src x = b x := if_neg (by omega)

theorem put16_out (h : x < a ∨ a + 2 ≤ x) : put16 b a m x = b x := splice_out h

theorem put32_out (h : x < a ∨ a + 4 ≤ x) : put32 b a m x = b x := splice_out h

/-- To read a block, change a part of it and write it back is to change that part. -/
theorem splice_splice (h : o + n ≤ m) (hread : ∀ k < m, b' k = b (a + k)) :
    splice b a m (splice b' o n src) = splice b (a + o) n src := by
  funext x
  simp only [splice]
  by_cases hin : a ≤ x ∧ x < a + m
  · rw [if_pos hin]
    by_cases hpart : a + o ≤ x ∧ x < a + o + n
    · rw [if_pos hpart, if_pos (by omega)]
      exact congrArg src (by omega)
    · rw [if_neg hpart, if_neg (by omega), hread _ (by omega)]
      exact congrArg b (by omega)
  · rw [if_neg hin, if_neg (by omega)]

/-- Two blocks one after the other. -/
theorem splice_concat (b src : Bytes) (a n k : Nat) :
    splice (splice b a n src) (a + n) k (fun j => src (n + j)) = splice b a (n + k) src := by
  funext z
  by_cases hlow : a ≤ z ∧ z < a + n
  · rw [splice_out (by omega), splice_mem hlow.1 hlow.2, splice_mem hlow.1 (by omega)]
  by_cases hhigh : a + n ≤ z ∧ z < a + n + k
  · rw [splice_mem hhigh.1 hhigh.2, splice_mem (by omega) (by omega)]
    exact congrArg src (by omega)
  · rw [splice_out (by omega), splice_out (by omega), splice_out (by omega)]

theorem get16_congr (h : ∀ k < 2, b' (a' + k) = b (a + k)) : get16 b' a' = get16 b a := by
  have h0 := h 0 (by omega)
  have h1 := h 1 (by omega)
  simp only [add_zero] at h0
  rw [get16, get16, h0, h1]

theorem get32_congr (h : ∀ k < 4, b' (a' + k) = b (a + k)) : get32 b' a' = get32 b a := by
  have hlow : get16 b' a' = get16 b a := get16_congr fun k hk => h k (by omega)
  have hhigh : get16 b' (a' + 2) = get16 b (a + 2) := by
    refine get16_congr fun k hk => ?_
    have := h (2 + k) (by omega)
    rwa [← add_assoc, ← add_assoc] at this
  rw [get32, get32, hlow, hhigh]

theorem get16_lt : get16 b a < 2 ^ 16 := by
  have h0 := (b a).isLt
  have h1 := (b (a + 1)).isLt
  simp only [get16]
  omega

theorem get32_lt : get32 b a < 2 ^ 32 := by
  have h0 : get16 b a < 2 ^ 16 := get16_lt
  have h1 : get16 b (a + 2) < 2 ^ 16 := get16_lt
  simp only [get32]
  omega

theorem get16_put16 : get16 (put16 b a n) a = n % 2 ^ 16 := by
  have h0 : put16 b a n a = BitVec.ofNat 8 (n / 2 ^ (8 * 0)) := splice_add (k := 0) (by omega)
  have h1 : put16 b a n (a + 1) = BitVec.ofNat 8 (n / 2 ^ (8 * 1)) := splice_add (by omega)
  rw [get16, h0, h1, BitVec.toNat_ofNat, BitVec.toNat_ofNat]
  omega

theorem get32_put32 : get32 (put32 b a n) a = n % 2 ^ 32 := by
  have h0 : put32 b a n a = BitVec.ofNat 8 (n / 2 ^ (8 * 0)) := splice_add (k := 0) (by omega)
  have h1 : put32 b a n (a + 1) = BitVec.ofNat 8 (n / 2 ^ (8 * 1)) := splice_add (by omega)
  have h2 : put32 b a n (a + 2) = BitVec.ofNat 8 (n / 2 ^ (8 * 2)) := splice_add (by omega)
  have h3 : put32 b a n (a + 2 + 1) = BitVec.ofNat 8 (n / 2 ^ (8 * 3)) := splice_add (k := 3) (by omega)
  simp only [get32, get16, h0, h1, h2, h3, BitVec.toNat_ofNat]
  omega

theorem get32_splice_out (h : a' + 4 ≤ a ∨ a + n ≤ a') : get32 (splice b a n src) a' = get32 b a' :=
  get32_congr fun k hk => splice_out (by omega)

theorem get64_congr (h : ∀ k < 8, b' (a' + k) = b (a + k)) : get64 b' a' = get64 b a := by
  have hlow : get32 b' a' = get32 b a := get32_congr fun k hk => h k (by omega)
  have hhigh : get32 b' (a' + 4) = get32 b (a + 4) := by
    refine get32_congr fun k hk => ?_
    have := h (4 + k) (by omega)
    rwa [← add_assoc, ← add_assoc] at this
  rw [get64, get64, hlow, hhigh]

theorem put64_out (h : x < a ∨ a + 8 ≤ x) : put64 b a m x = b x := splice_out h

/-- A field of eight bytes is two of four. -/
theorem put64_eq : put64 b a n = put32 (put32 b a n) (a + 4) (n / 2 ^ 32) := by
  funext x
  simp only [put64, put32, splice]
  by_cases hlow : x < a + 4
  · have hout : ¬ (a + 4 ≤ x ∧ x < a + 4 + 4) := by omega
    rw [if_neg hout]
    by_cases hin : a ≤ x
    · rw [if_pos ⟨hin, by omega⟩, if_pos ⟨hin, hlow⟩]
    · rw [if_neg fun hc => hin hc.1, if_neg fun hc => hin hc.1]
  · by_cases hin : x < a + 8
    · rw [if_pos ⟨by omega, hin⟩, if_pos ⟨by omega, by omega⟩, Nat.div_div_eq_div_mul, ← pow_add]
      congr 4
      omega
    · rw [if_neg fun hc => hin hc.2, if_neg (by omega), if_neg (by omega)]

theorem get64_put64 : get64 (put64 b a n) a = n % 2 ^ 64 := by
  have hlow : get32 (put32 (put32 b a n) (a + 4) (n / 2 ^ 32)) a = n % 2 ^ 32 := by
    rw [put32, get32_splice_out (by omega), get32_put32]
  rw [get64, put64_eq, hlow, get32_put32]
  omega

end NyanOS.Lib
