import NyanOS.Tar.Model
import Mathlib.Data.List.DropRight

/-!
# Archives

The format: headers with their files, one after the other, and a block of zeros. Names are paths, and the tree is in them.
-/
namespace NyanOS.Tar

open Lib List

/-! ### Paths -/

/-- A path without the slash at its end. -/
def stem (name : List Byte) : List Byte := if name.getLast? = some slash then name.dropLast else name

/-- The last component of a path. -/
def leaf (name : List Byte) : List Byte := (stem name).rtakeWhile (· ≠ slash)

/-- The path of its directory, with the slash at the end; empty for the root. -/
def parent (name : List Byte) : List Byte := (stem name).rdropWhile (· ≠ slash)

/-- A path that a directory has. -/
def DirPath (path : List Byte) : Prop := path = [] ∨ path.getLast? = some slash

variable {name path n s : List Byte} {b : Bytes} {a fuel k size m : Nat}

theorem stem_eq : stem name = parent name ++ leaf name := rdropWhile_append_rtakeWhile.symm

theorem slash_not_mem_leaf : slash ∉ leaf name := by
  intro h
  simpa using mem_rtakeWhile_imp h

theorem stem_of_not_slash (h : name.getLast? ≠ some slash) : stem name = name := if_neg h

theorem stem_concat : stem (s ++ [slash]) = s := by
  rw [stem, if_pos getLast?_concat, dropLast_concat]

theorem eq_stem_concat (h : name.getLast? = some slash) : name = stem name ++ [slash] := by
  obtain ⟨init, rfl⟩ := getLast?_eq_some_iff.mp h
  rw [stem_concat]

theorem parent_leaf_iff (hpath : DirPath path) :
    parent name = path ∧ leaf name = n ↔ stem name = path ++ n ∧ slash ∉ n := by
  constructor
  · rintro ⟨rfl, rfl⟩
    exact ⟨stem_eq, slash_not_mem_leaf⟩
  · rintro ⟨hstem, hn⟩
    have hpass : ∀ c ∈ n.reverse, decide (c ≠ slash) = true := by
      intro c hc
      exact decide_eq_true fun he => hn (he ▸ mem_reverse.mp hc)
    have hstop : path.reverse.dropWhile (fun c => decide (c ≠ slash)) = path.reverse ∧
        path.reverse.takeWhile (fun c => decide (c ≠ slash)) = [] := by
      rcases hpath with rfl | hlast
      · exact ⟨rfl, rfl⟩
      · obtain ⟨init, rfl⟩ := getLast?_eq_some_iff.mp hlast
        simp
    rw [parent, leaf, hstem, List.rdropWhile, List.rtakeWhile, reverse_append, dropWhile_append_of_pos hpass,
      takeWhile_append_of_pos hpass, hstop.1, hstop.2, reverse_reverse, append_nil, reverse_reverse]
    exact ⟨rfl, rfl⟩

theorem slashInside_iff : slashInside s = false ↔ ∃ m, slash ∉ m ∧ (s = m ∨ s = m ++ [slash]) := by
  have hsplit : s.takeWhile (fun c => decide (c ≠ slash)) ++ s.dropWhile (fun c => decide (c ≠ slash)) = s :=
    takeWhile_append_dropWhile
  have hfront : slash ∉ s.takeWhile fun c => decide (c ≠ slash) := by
    intro hm
    simpa using mem_takeWhile_imp hm
  constructor
  · intro h
    refine ⟨_, hfront, ?_⟩
    rw [slashInside] at h
    cases hrest : s.dropWhile fun c => decide (c ≠ slash) with
    | nil =>
      left
      rw [hrest, append_nil] at hsplit
      exact hsplit.symm
    | cons c rest =>
      right
      have hc : c = slash := by
        have hhead := head?_dropWhile_not (fun c => decide (c ≠ slash)) s
        rw [hrest, head?_cons] at hhead
        simpa using hhead
      rw [hrest] at h hsplit
      have hnil : rest = [] := by simpa using h
      rw [hc, hnil] at hsplit
      exact hsplit.symm
  · rintro ⟨m, hm, hs⟩
    have hpass : ∀ c ∈ m, decide (c ≠ slash) = true := fun c hc => decide_eq_true fun he => hm (he ▸ hc)
    rcases hs with rfl | rfl
    · rw [slashInside, dropWhile_eq_nil_iff.mpr hpass]
    · rw [slashInside, dropWhile_append_of_pos hpass]
      simp

/-- The headers that `tar_vfs_readdir` does not pass over are the children of the directory. -/
theorem child_iff (hname : name ≠ []) (hpath : DirPath path) :
    name.take path.length = path ∧ (name.drop path.length).length ≠ 0 ∧ slashInside (name.drop path.length) = false ↔
      parent name = path := by
  constructor
  · rintro ⟨htake, hne, hslash⟩
    obtain ⟨m, hm, hs⟩ := slashInside_iff.mp hslash
    have hsplit : name = path ++ name.drop path.length := by
      conv_lhs => rw [← take_append_drop path.length name, htake]
    rcases hs with hs | hs
    · rw [hs] at hsplit hne
      have hlast : name.getLast? ≠ some slash := by
        rw [hsplit, getLast?_append_of_ne_nil _ (length_pos_iff.mp (pos_of_ne_zero hne))]
        exact fun he => hm (mem_of_getLast? he)
      exact ((parent_leaf_iff hpath).mpr ⟨(stem_of_not_slash hlast).trans hsplit, hm⟩).1
    · rw [hs, ← append_assoc] at hsplit
      exact ((parent_leaf_iff hpath).mpr ⟨by rw [hsplit, stem_concat], hm⟩).1
  · intro h
    have hstem : stem name = path ++ leaf name := h ▸ stem_eq
    rw [slashInside_iff]
    by_cases hlast : name.getLast? = some slash
    · obtain ⟨init, rfl⟩ := getLast?_eq_some_iff.mp hlast
      rw [stem_concat] at hstem
      rw [hstem, append_assoc, take_left, drop_left]
      exact ⟨rfl, by simp, _, slash_not_mem_leaf, .inr rfl⟩
    · rw [stem_of_not_slash hlast] at hstem
      have hne : leaf name ≠ [] := by
        intro hnil
        rw [hnil, append_nil] at hstem
        rcases hpath with hroot | hdir
        · exact hname (hstem.trans hroot)
        · exact hlast (hstem ▸ hdir)
      have hdrop : name.drop path.length = leaf name := by
        conv_lhs => rw [hstem]
        exact drop_left
      have htake : name.take path.length = path := by
        conv_lhs => rw [hstem]
        exact take_left
      rw [htake, hdrop]
      exact ⟨rfl, fun h0 => hne (length_eq_zero_iff.mp h0), _, slash_not_mem_leaf, .inl rfl⟩

/-! ### The format -/

structure Header where
  name : List Byte
  size : Nat
  typeflag : Byte

/-- `ustar`. -/
def magic : List Byte := [0x75, 0x73, 0x74, 0x61, 0x72]

/-- The header is at address `a`: a name of at most 99 characters, the size as eleven octal digits, the type and the
magic. -/
structure HeaderAt (b : Bytes) (a : Nat) (h : Header) : Prop where
  name : ∀ i (hi : i < h.name.length), b (a + i) = h.name[i]
  nul : b (a + h.name.length) = 0
  short : h.name.length ≤ 99
  chars : 0 ∉ h.name
  nonempty : h.name ≠ []
  digits : ∀ i < 11, b (a + sizeField + i) = BitVec.ofNat 8 (0x30 + h.size / 8 ^ (10 - i) % 8)
  size : h.size < 8 ^ 11
  typeflag : b (a + typeflagField) = h.typeflag
  magic : ∀ i (hi : i < magic.length), b (a + magicField + i) = magic[i]

/-- The size of a file in blocks of 512 bytes. -/
def aligned (size : Nat) : Nat := (size + 511) / 512 * 512

/-- From address `a` on there are these headers, each followed by its file, and then a block of zeros. -/
inductive Archive (b : Bytes) : Nat → List Header → Prop
  | nil {a : Nat} (hzero : ∀ k < 512, b (a + k) = 0) : Archive b a []
  | cons {a : Nat} {h : Header} {hs : List Header} (hat : HeaderAt b a h) (hlt : a + 512 + aligned h.size < 2 ^ 64)
      (hrest : Archive b (a + 512 + aligned h.size) hs) : Archive b a (h :: hs)

theorem cstr_eq (hname : ∀ i (hi : i < s.length), b (a + i) = s[i]) (hnul : b (a + s.length) = 0) (hchars : 0 ∉ s)
    (hfuel : s.length < fuel) : cstr b fuel a = s := by
  induction s generalizing a fuel with
  | nil =>
    cases fuel with
    | zero => cases hfuel
    | succ fuel => exact if_pos hnul
  | cons c cs ih =>
    cases fuel with
    | zero => cases hfuel
    | succ fuel =>
      have hc : b a = c := hname 0 (Nat.zero_lt_succ _)
      have hne : b a ≠ 0 := fun h0 => hchars (by rw [← h0, hc]; exact mem_cons_self)
      rw [length_cons] at hnul hfuel
      rw [cstr, if_neg hne, hc, ih]
      · intro i hi
        rw [add_right_comm, add_assoc]
        exact hname (i + 1) (by rw [length_cons]; omega)
      · rw [add_right_comm, add_assoc]
        exact hnul
      · exact fun hm => hchars (mem_cons_of_mem c hm)
      · omega

theorem oct2binFrom_eq (hdigits : ∀ i < 11, b (a + i) = BitVec.ofNat 8 (0x30 + size / 8 ^ (10 - i) % 8))
    (hk : k ≤ 11) (hm : m < 8 ^ (11 - k)) : oct2binFrom b k (a + (11 - k)) m = m * 8 ^ k + size % 8 ^ k := by
  induction k generalizing m with
  | zero => simp [oct2binFrom, Nat.mod_one]
  | succ k ih =>
    have hdigit := hdigits (11 - (k + 1)) (by omega)
    rw [show 10 - (11 - (k + 1)) = k by omega] at hdigit
    have hlt : size / 8 ^ k % 8 < 8 := Nat.mod_lt _ (by omega)
    have hval : (b (a + (11 - (k + 1)))).toNat = 0x30 + size / 8 ^ k % 8 := by
      rw [hdigit, BitVec.toNat_ofNat, Nat.mod_eq_of_lt (by omega)]
    have hoct : ¬ (b (a + (11 - (k + 1))) < 0x30 ∨ 0x37 < b (a + (11 - (k + 1)))) := by
      have hlow : (0x30 : Byte).toNat = 0x30 := rfl
      have hhigh : (0x37 : Byte).toNat = 0x37 := rfl
      rw [BitVec.lt_def, BitVec.lt_def, hval, hlow, hhigh]
      omega
    have hpow : 8 ^ (11 - k) = 8 ^ (11 - (k + 1)) * 8 := by
      rw [← pow_succ]
      congr 1
      omega
    have hbound : 8 ^ (11 - k) ≤ 8 ^ 11 := Nat.pow_le_pow_right (by omega) (by omega)
    have hnext : m * 8 + size / 8 ^ k % 8 < 8 ^ (11 - k) := by omega
    rw [oct2binFrom, if_neg hoct, hval, Nat.add_sub_cancel_left, Nat.mod_eq_of_lt (by omega),
      show a + (11 - (k + 1)) + 1 = a + (11 - k) by omega, ih (by omega) hnext, pow_succ, Nat.mod_mul]
    ring

section Read

variable {h : Header}

section
variable (hat : HeaderAt b a h)
include hat

theorem HeaderAt.cstr (hfuel : 100 ≤ fuel) : cstr b fuel a = h.name := by
  have := hat.short
  exact cstr_eq hat.name hat.nul hat.chars (by omega)

theorem HeaderAt.fileSize : fileSize b a = h.size := by
  have hall := oct2binFrom_eq (k := 11) (m := 0) hat.digits (le_refl 11) (by decide)
  rw [zero_mul, zero_add, Nat.mod_eq_of_lt hat.size] at hall
  exact hall

theorem HeaderAt.validate : tarValidate b a = true := by
  have h0 := hat.magic 0 (by decide)
  have h1 := hat.magic 1 (by decide)
  have h2 := hat.magic 2 (by decide)
  have h3 := hat.magic 3 (by decide)
  have h4 := hat.magic 4 (by decide)
  rw [add_zero] at h0
  rw [tarValidate, h0, h1, h2, h3, h4]
  rfl

theorem HeaderAt.first : b a ≠ 0 := by
  have hpos : 0 < h.name.length := length_pos_iff.mpr hat.nonempty
  intro h0
  exact hat.chars (by rw [← h0, ← add_zero a, hat.name 0 hpos]; exact getElem_mem hpos)

theorem HeaderAt.next (hlt : a + 512 + aligned h.size < 2 ^ 64) : nextHeader b a = a + 512 + aligned h.size := by
  rw [nextHeader, hat.fileSize, ← aligned]
  exact Nat.mod_eq_of_lt hlt

end

theorem Archive.chars {hs : List Header} (ha : Archive b a hs) (hmem : h ∈ hs) : 0 ∉ h.name := by
  induction ha with
  | nil => cases hmem
  | cons hat _ _ ih =>
    rcases mem_cons.mp hmem with rfl | hmem
    · exact hat.chars
    · exact ih hmem

theorem validate_zero (hzero : ∀ k < 512, b (a + k) = 0) : tarValidate b a = false := by
  rw [tarValidate, hzero magicField (by decide)]
  rfl

end Read

end NyanOS.Tar
