import NyanOS.Memory.Pte

/-! The frame allocator (`mem/pmm.c`). Frames are named by their number, `phys_addr / PAGE_SIZE`. -/
namespace NyanOS.Memory

open Function List

structure Pmm where
  bitmap : Nat → Bool
  refCounts : Nat → Nat
  totalPages : Nat
  lastFreePage : Nat

/-- The first clear bit among `n` bits from `i` on. -/
def scan (bitmap : Nat → Bool) : Nat → Nat → Option Nat
  | 0, _ => none
  | n + 1, i => if bitmap i then scan bitmap n (i + 1) else some i

def Pmm.take (p : Pmm) (i : Nat) : Pmm :=
  { p with
    bitmap := update p.bitmap i true
    refCounts := update p.refCounts i 1
    lastFreePage := i + 1 }

/-- The frame taken, or 0 when memory is full. -/
def pmmAllocFrame (p : Pmm) : Nat × Pmm :=
  match scan p.bitmap (p.totalPages - p.lastFreePage) p.lastFreePage with
  | some i => (i, p.take i)
  | none =>
    match scan p.bitmap p.lastFreePage 0 with
    | some i => (i, p.take i)
    | none => (0, p)

def Pmm.setRef (p : Pmm) (frame refs : Nat) : Pmm :=
  { p with refCounts := update p.refCounts frame refs }

def Pmm.clear (p : Pmm) (frame : Nat) : Pmm :=
  { p with
    bitmap := update p.bitmap frame false
    lastFreePage := if frame < p.lastFreePage then frame else p.lastFreePage }

def pmmFreeFrame (p : Pmm) (frame : Nat) : Pmm :=
  if frame * pageSize < 0x100000 then p
  else if p.totalPages ≤ frame then p
  else if p.bitmap frame then
    let refs := if 0 < p.refCounts frame then p.refCounts frame - 1 else p.refCounts frame
    if refs = 0 then (p.setRef frame refs).clear frame else p.setRef frame refs
  else p

def pmmIncRef (p : Pmm) (frame : Nat) : Pmm := p.setRef frame ((p.refCounts frame + 1) % 2 ^ 32)

def pmmDecRef (p : Pmm) (frame : Nat) : Pmm := pmmFreeFrame p frame

def pmmGetRefCount (p : Pmm) (frame : Nat) : Nat :=
  if frame < p.totalPages then p.refCounts frame else 0

/-- What `pmm_init` establishes and every operation keeps: the first megabyte is reserved,
the hint is in range, and frame addresses fit into 64 bits. -/
structure Pmm.Ok (p : Pmm) : Prop where
  low : ∀ i < 256, p.bitmap i = true
  hint : p.lastFreePage ≤ p.totalPages
  total : p.totalPages ≤ 2 ^ 52

/-- A frame in use that `pmm_free_frame` does not ignore. -/
structure Pmm.Allocated (p : Pmm) (frame : Nat) : Prop where
  low : 256 ≤ frame
  high : frame < p.totalPages
  bit : p.bitmap frame = true

variable {p p' : Pmm} {f g n i : Nat} {fs l : List Nat}

theorem Pmm.bit_ne (hg : p.bitmap g = true) (hf : p.bitmap f = false) : g ≠ f :=
  ne_of_apply_ne p.bitmap (by simp [hg, hf])

theorem scan_some {bitmap : Nat → Bool} (h : scan bitmap n i = some f) : i ≤ f ∧ f < i + n ∧ bitmap f = false := by
  induction n generalizing i with
  | zero => simp [scan] at h
  | succ n ih =>
    simp only [scan] at h
    split at h
    · obtain ⟨hlo, hhi, hclear⟩ := ih h
      exact ⟨by omega, by omega, hclear⟩
    rename_i hclear
    cases h
    exact ⟨le_rfl, by omega, by simpa using hclear⟩

theorem scan_none {bitmap : Nat → Bool} (h : scan bitmap n i = none) : ∀ j, i ≤ j → j < i + n → bitmap j = true := by
  induction n generalizing i with
  | zero =>
    intro j hij hj
    omega
  | succ n ih =>
    simp only [scan] at h
    split at h
    · rename_i hset
      intro j hij hj
      by_cases hji : j = i
      · exact hji ▸ hset
      · exact ih h j (by omega) (by omega)
    · simp at h

theorem pmmAllocFrame_cases (hok : p.Ok) : (pmmAllocFrame p = (0, p) ∧ ∀ i < p.totalPages, p.bitmap i = true) ∨
    ∃ f, pmmAllocFrame p = (f, p.take f) ∧ 256 ≤ f ∧ f < p.totalPages ∧ p.bitmap f = false := by
  have hhint := hok.hint
  have htaken : ∀ f, f < p.totalPages → p.bitmap f = false → 256 ≤ f := by
    intro f _ hclear
    by_contra hlow
    rw [hok.low f (by omega)] at hclear
    simp at hclear
  cases hup : scan p.bitmap (p.totalPages - p.lastFreePage) p.lastFreePage with
  | some f =>
    obtain ⟨_, hlt, hclear⟩ := scan_some hup
    have hf : f < p.totalPages := by omega
    exact .inr ⟨f, by simp [pmmAllocFrame, hup], htaken f hf hclear, hf, hclear⟩
  | none =>
    cases hdown : scan p.bitmap p.lastFreePage 0 with
    | some f =>
      obtain ⟨_, hlt, hclear⟩ := scan_some hdown
      have hf : f < p.totalPages := by omega
      exact .inr ⟨f, by simp [pmmAllocFrame, hup, hdown], htaken f hf hclear, hf, hclear⟩
    | none =>
      refine .inl ⟨by simp [pmmAllocFrame, hup, hdown], ?_⟩
      intro i hi
      by_cases hlow : i < p.lastFreePage
      · exact scan_none hdown i (by omega) (by omega)
      · exact scan_none hup i (by omega) (by omega)

theorem ok_take (hok : p.Ok) (hf : f < p.totalPages) : (p.take f).Ok := by
  refine ⟨?_, hf, hok.total⟩
  intro i hi
  by_cases hif : i = f
  · simp [Pmm.take, hif]
  · simpa [Pmm.take, hif] using hok.low i hi

theorem pmmAllocFrame_eq (hok : p.Ok) (h : pmmAllocFrame p = (f, p')) (hf : f ≠ 0) :
    p' = p.take f ∧ 256 ≤ f ∧ f < p.totalPages ∧ p.bitmap f = false := by
  rcases pmmAllocFrame_cases hok with ⟨hfull, -⟩ | ⟨g, hg, hlow, hhigh, hclear⟩
  · exact absurd (congrArg Prod.fst (h.symm.trans hfull)) hf
  · obtain ⟨rfl, rfl⟩ := Prod.mk.inj (h.symm.trans hg)
    exact ⟨rfl, hlow, hhigh, hclear⟩

@[simp] theorem bitmap_take : (p.take f).bitmap g = if g = f then true else p.bitmap g := by
  simp [Pmm.take, update_apply]

@[simp] theorem refCounts_take : (p.take f).refCounts g = if g = f then 1 else p.refCounts g := by
  simp [Pmm.take, update_apply]

@[simp] theorem bitmap_incRef : (pmmIncRef p f).bitmap = p.bitmap := rfl

@[simp] theorem refCounts_incRef : (pmmIncRef p f).refCounts g =
    if g = f then (p.refCounts f + 1) % 2 ^ 32 else p.refCounts g := by
  simp [pmmIncRef, Pmm.setRef, update_apply]

theorem ok_incRef (hok : p.Ok) : (pmmIncRef p f).Ok := ⟨hok.low, hok.hint, hok.total⟩

theorem pmmFreeFrame_spec (hf : p.Allocated f) (href : 0 < p.refCounts f) :
    (∀ g, (pmmFreeFrame p f).refCounts g = if g = f then p.refCounts f - 1 else p.refCounts g) ∧
    (∀ g, (pmmFreeFrame p f).bitmap g = if g = f ∧ p.refCounts f = 1 then false else p.bitmap g) ∧
    (pmmFreeFrame p f).totalPages = p.totalPages := by
  have hlow := hf.low
  have hhigh := hf.high
  have h1 : ¬ f * pageSize < 0x100000 := by
    simp only [pageSize]
    omega
  have h2 : ¬ p.totalPages ≤ f := by omega
  simp only [pmmFreeFrame, if_neg h1, if_neg h2, hf.bit, if_true, if_pos href]
  by_cases hone : p.refCounts f - 1 = 0
  · have hone' : p.refCounts f = 1 := by omega
    rw [if_pos hone]
    refine ⟨?_, ?_, rfl⟩
    · intro g
      simp [Pmm.clear, Pmm.setRef, update_apply]
    · intro g
      simp [Pmm.clear, Pmm.setRef, update_apply, hone']
  · have hone' : p.refCounts f ≠ 1 := by omega
    rw [if_neg hone]
    refine ⟨?_, ?_, rfl⟩
    · intro g
      simp [Pmm.setRef, update_apply]
    · intro g
      simp [Pmm.setRef, hone']

theorem ok_setRef (hok : p.Ok) : (p.setRef f n).Ok := ⟨hok.low, hok.hint, hok.total⟩

theorem ok_clear (hok : p.Ok) (hf : 256 ≤ f) : (p.clear f).Ok := by
  refine ⟨?_, ?_, hok.total⟩
  · intro i hi
    have hne : i ≠ f := by omega
    simpa [Pmm.clear, hne] using hok.low i hi
  · have hhint := hok.hint
    simp only [Pmm.clear]
    split <;> omega

theorem pmmFreeFrame_other (h : f ≠ g) :
    (pmmFreeFrame p g).bitmap f = p.bitmap f ∧ (pmmFreeFrame p g).refCounts f = p.refCounts f := by
  simp only [pmmFreeFrame]
  split_ifs <;> simp [Pmm.setRef, Pmm.clear, h]

theorem freeAll_other (hf : f ∉ l) :
    (l.foldl pmmFreeFrame p).bitmap f = p.bitmap f ∧ (l.foldl pmmFreeFrame p).refCounts f = p.refCounts f := by
  induction l generalizing p with
  | nil => exact ⟨rfl, rfl⟩
  | cons g l ih =>
    obtain ⟨hne, hrest⟩ := not_or.mp (mem_cons.not.mp hf)
    obtain ⟨hbit, href⟩ := pmmFreeFrame_other (p := p) hne
    rw [foldl_cons, (ih hrest).1, (ih hrest).2]
    exact ⟨hbit, href⟩

theorem ok_freeFrame (hok : p.Ok) : (pmmFreeFrame p f).Ok := by
  by_cases hlow : f * pageSize < 0x100000
  · simpa [pmmFreeFrame, hlow] using hok
  have hf : 256 ≤ f := by
    simp only [pageSize] at hlow
    omega
  simp only [pmmFreeFrame, if_neg hlow]
  generalize (if 0 < p.refCounts f then p.refCounts f - 1 else p.refCounts f) = refs
  split
  · exact hok
  split
  · split
    · exact ok_clear (ok_setRef hok) hf
    · exact ok_setRef hok
  · exact hok

theorem ok_freeAll (hok : p.Ok) : (fs.foldl pmmFreeFrame p).Ok := foldlRecOn _ _ hok fun _ hok _ _ => ok_freeFrame hok

theorem freeAll_spec (hfs : ∀ f ∈ fs, p.Allocated f) (hcount : ∀ f, fs.count f ≤ p.refCounts f) :
    (∀ g, (fs.foldl pmmFreeFrame p).refCounts g = p.refCounts g - fs.count g) ∧
    (∀ g, (fs.foldl pmmFreeFrame p).bitmap g = if g ∈ fs ∧ p.refCounts g = fs.count g then false else p.bitmap g) ∧
    (fs.foldl pmmFreeFrame p).totalPages = p.totalPages := by
  induction fs generalizing p with
  | nil => simp
  | cons f fs ih =>
    have hf := hfs f (by simp)
    have hpos : 0 < p.refCounts f := by
      have := hcount f
      simp only [count_cons_self] at this
      omega
    obtain ⟨href, hbit, htotal⟩ := pmmFreeFrame_spec hf hpos
    have hcount' : ∀ g, fs.count g ≤ (pmmFreeFrame p f).refCounts g := by
      intro g
      have := hcount g
      rw [href]
      by_cases hg : g = f
      · subst hg
        simp only [count_cons_self] at this
        simp only [if_true]
        omega
      · rw [count_cons_of_ne (Ne.symm hg)] at this
        simpa [hg] using this
    have hfs' : ∀ g ∈ fs, (pmmFreeFrame p f).Allocated g := by
      intro g hg
      have hgp := hfs g (by simp [hg])
      refine ⟨hgp.low, htotal ▸ hgp.high, ?_⟩
      -- a frame that is dropped once more has another reference left
      have hpos' : 0 < fs.count g := count_pos_iff.mpr hg
      have hle := hcount' g
      rw [href] at hle
      rw [hbit]
      have hnot : ¬ (g = f ∧ p.refCounts f = 1) := by
        rintro ⟨rfl, hone⟩
        simp only [if_true, hone] at hle
        omega
      rw [if_neg hnot]
      exact hgp.bit
    obtain ⟨href', hbit', htotal'⟩ := ih hfs' hcount'
    refine ⟨?_, ?_, htotal'.trans htotal⟩
    · intro g
      rw [foldl_cons, href', href]
      by_cases hg : g = f
      · subst hg
        simp only [if_true, count_cons_self]
        omega
      · rw [count_cons_of_ne (Ne.symm hg)]
        simp [hg]
    · intro g
      rw [foldl_cons, hbit', href, hbit]
      have hle := hcount g
      by_cases hg : g = f
      · subst hg
        simp only [count_cons_self, mem_cons, true_or, true_and, if_true] at hle ⊢
        by_cases hmem : g ∈ fs
        · have hpos' : 0 < fs.count g := count_pos_iff.mpr hmem
          have hne : p.refCounts g ≠ 1 := by omega
          have hiff : p.refCounts g - 1 = fs.count g ↔ p.refCounts g = fs.count g + 1 := by omega
          simp [hmem, hne, hiff]
        · have hzero : fs.count g = 0 := count_eq_zero.mpr hmem
          simp [hmem, hzero]
      · rw [count_cons_of_ne (Ne.symm hg)]
        simp [hg]

end NyanOS.Memory
