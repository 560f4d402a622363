import NyanOS.Memory.PageTable
import Mathlib.Data.Nat.Count

/-!
The tree that a table spans in memory: the entry of each page, the frames of the tables, and
the frames its private entries refer to.
-/

namespace NyanOS.Memory

open List

variable {m m' : Machine} {mem mem' : Nat → Nat → Word} {depth table page frame i v f u k a r l table' : Nat} {w : Word}

/-- The entry of a page, 0 if a table on the way is missing. -/
def leaf (mem : Nat → Nat → Word) : Nat → Nat → Nat → Word
  | 0, table, page => mem table (tableIndex 0 page)
  | depth + 1, table, page =>
    let entry := mem table (tableIndex (depth + 1) page)
    if present entry then leaf mem depth (frameOf entry) page else 0

/-- The frames of the tables of a tree. -/
def tables (mem : Nat → Nat → Word) : Nat → Nat → List Nat
  | 0, table => [table]
  | depth + 1, table => table :: (List.range (limit (depth + 1))).flatMap fun i =>
      if present (mem table i) then tables mem depth (frameOf (mem table i)) else []

/-- The number of pages of user space below a table. -/
def pageCount (depth : Nat) : Nat := limit depth * 512 ^ depth

/-- A private entry that points to the frame. -/
def Maps (entry : Word) (frame : Nat) : Prop := isPrivate entry = true ∧ frameOf entry = frame

instance (entry : Word) (frame : Nat) : Decidable (Maps entry frame) :=
  inferInstanceAs (Decidable (_ ∧ _))

/-- How many private entries of the tree point to a frame. -/
def refsIn (mem : Nat → Nat → Word) (depth table frame : Nat) : Nat :=
  Nat.count (fun page => Maps (leaf mem depth table page) frame) (pageCount depth)

theorem mem_set (m : Machine) (f i : Nat) (w : Word) (g j : Nat) :
    (m.set f i w).mem g j = if g = f ∧ j = i then w else m.mem g j := by
  by_cases hg : g = f
  · subst hg
    simp [Machine.set, Function.update_apply]
  · simp [Machine.set, hg]

theorem mem_set_of_ne (hne : table ≠ frame) : (m.set frame i w).mem table = m.mem table := by
  simp [Machine.set, hne]

@[simp] theorem pmm_set : (m.set frame i w).pmm = m.pmm := rfl

/-- A frame is marked as in use. -/
abbrev Machine.take (m : Machine) (frame : Nat) : Machine := { m with pmm := m.pmm.take frame }

theorem mem_fill_self (c : Nat → Word) : (m.fill frame c).mem frame = c := by
  simp [Machine.fill]

theorem mem_fill_of_ne (c : Nat → Word) (hne : table ≠ frame) : (m.fill frame c).mem table = m.mem table := by
  simp [Machine.fill, hne]

@[simp] theorem pmm_fill (c : Nat → Word) : (m.fill frame c).pmm = m.pmm := rfl

theorem tableIndex_lt : tableIndex depth page < 512 := Nat.mod_lt _ (by decide)

theorem limit_le : limit depth ≤ 512 := by
  rw [limit]
  split <;> decide

theorem limit_of_lt (h : depth < 3) : limit depth = 512 := by
  rw [limit, if_neg (by omega)]

theorem tableIndex_lt_limit (h : page < pageCount depth) : tableIndex depth page < limit depth := by
  rw [pageCount] at h
  have hdiv : page / 512 ^ depth < limit depth := (Nat.div_lt_iff_lt_mul (Nat.pow_pos (by decide))).mpr h
  exact lt_of_le_of_lt (Nat.mod_le _ _) hdiv

theorem tables_zero : tables mem 0 table = [table] := rfl

theorem table_mem_tables : table ∈ tables mem depth table := by
  cases depth <;> simp [tables]

theorem tables_child (hi : i < limit (depth + 1)) (hp : present (mem table i) = true) :
    ∀ g ∈ tables mem depth (frameOf (mem table i)), g ∈ tables mem (depth + 1) table := by
  intro g hg
  simp only [tables, mem_cons, mem_flatMap, mem_range]
  exact .inr ⟨i, hi, by simpa [hp] using hg⟩

theorem tables_congr (h : ∀ g ∈ tables mem depth table, mem' g = mem g) :
    tables mem' depth table = tables mem depth table := by
  induction depth generalizing table with
  | zero => rfl
  | succ depth ih =>
    have htop := h table table_mem_tables
    simp only [tables, htop]
    congr 1
    refine flatMap_congr ?_
    intro i hi
    by_cases hp : present (mem table i) = true
    · simp only [hp, if_true]
      exact ih fun g hg => h g (tables_child (mem_range.mp hi) hp g hg)
    · simp [hp]

theorem leaf_congr (h : ∀ g ∈ tables mem depth table, mem' g = mem g)
    (hv : tableIndex depth page < limit depth) (hd : depth ≤ 3) :
    leaf mem' depth table page = leaf mem depth table page := by
  induction depth generalizing table with
  | zero => simp only [leaf, h table table_mem_tables]
  | succ depth ih =>
    simp only [leaf, h table table_mem_tables]
    split
    · rename_i hp
      have hsub : tableIndex depth page < limit depth := by
        rw [limit_of_lt (by omega)]
        exact tableIndex_lt
      exact ih (fun g hg => h g (tables_child hv hp g hg)) hsub (by omega)
    · rfl

/-- What distinct table frames mean for the trees below a table. -/
structure Apart (mem : Nat → Nat → Word) (depth table : Nat) : Prop where
  child : ∀ i < limit (depth + 1), present (mem table i) = true →
    (tables mem depth (frameOf (mem table i))).Nodup
  top : ∀ i < limit (depth + 1), present (mem table i) = true →
    table ∉ tables mem depth (frameOf (mem table i))
  disjoint : ∀ i < limit (depth + 1), ∀ j < limit (depth + 1), i ≠ j →
    present (mem table i) = true → present (mem table j) = true →
    ∀ g ∈ tables mem depth (frameOf (mem table i)),
      g ∉ tables mem depth (frameOf (mem table j))

theorem nodup_tables_succ : (tables mem (depth + 1) table).Nodup ↔ Apart mem depth table := by
  simp only [tables, nodup_cons, mem_flatMap, mem_range, not_exists, not_and, nodup_flatMap]
  constructor
  · rintro ⟨htop, hchild, hdisj⟩
    refine ⟨?_, ?_, ?_⟩
    · intro i hi hp
      simpa [hp] using hchild i hi
    · intro i hi hp
      simpa [hp] using htop i hi
    · intro i hi j hj hij hpi hpj g hg
      have hsymm : Std.Symm (Function.onFun List.Disjoint fun i =>
          if present (mem table i) = true then tables mem depth (frameOf (mem table i)) else []) :=
        ⟨fun _ _ hd => hd.symm⟩
      have hd := hdisj.forall (mem_range.mpr hi) (mem_range.mpr hj) hij
      simp only [Function.onFun, hpi, hpj, if_true] at hd
      exact hd hg
  · rintro ⟨hchild, htop, hdisj⟩
    refine ⟨?_, ?_, ?_⟩
    · intro i hi
      by_cases hp : present (mem table i) = true
      · simpa [hp] using htop i hi hp
      · simp [hp]
    · intro i hi
      by_cases hp : present (mem table i) = true
      · simpa [hp] using hchild i hi hp
      · simp [hp]
    · refine nodup_range.imp_of_mem ?_
      intro i j hi hj hij g hgi hgj
      by_cases hpi : present (mem table i) = true
      · by_cases hpj : present (mem table j) = true
        · simp only [hpi, hpj, if_true] at hgi hgj
          exact hdisj i (mem_range.mp hi) j (mem_range.mp hj) hij hpi hpj g hgi hgj
        · simp [hpj] at hgj
      · simp [hpi] at hgi

/-- The place of a page's entry. -/
def slot (mem : Nat → Nat → Word) : Nat → Nat → Nat → Option (Nat × Nat)
  | 0, table, page => some (table, tableIndex 0 page)
  | depth + 1, table, page =>
    let entry := mem table (tableIndex (depth + 1) page)
    if present entry then slot mem depth (frameOf entry) page else none

theorem walkToPte_false : walkToPte false depth table page m = (slot m.mem depth table page, m) := by
  induction depth generalizing table with
  | zero => rfl
  | succ depth ih =>
    simp only [walkToPte, slot]
    split
    · exact ih
    · rfl

theorem leaf_of_slot (h : slot mem depth table page = some (f, i)) : leaf mem depth table page = mem f i := by
  induction depth generalizing table with
  | zero =>
    obtain ⟨rfl, rfl⟩ := Prod.mk.inj (Option.some.inj h)
    rfl
  | succ depth ih =>
    simp only [slot] at h
    simp only [leaf]
    split at h
    · rename_i hp
      rw [if_pos hp]
      exact ih h
    · simp at h

theorem slot_congr (h : ∀ g ∈ tables mem depth table, mem' g = mem g)
    (hv : tableIndex depth page < limit depth) (hd : depth ≤ 3) :
    slot mem' depth table page = slot mem depth table page := by
  induction depth generalizing table with
  | zero => rfl
  | succ depth ih =>
    simp only [slot, h table table_mem_tables]
    split
    · next hp =>
      have hidx : tableIndex depth page < limit depth := by
        rw [limit_of_lt (by omega)]
        exact tableIndex_lt
      exact ih (fun g hg => h g (tables_child hv hp g hg)) hidx (by omega)
    · rfl

theorem leaf_of_slot_none (h : slot mem depth table page = none) : leaf mem depth table page = 0 := by
  induction depth generalizing table with
  | zero => simp [slot] at h
  | succ depth ih =>
    simp only [slot] at h
    simp only [leaf]
    split at h
    · rename_i hp
      rw [if_pos hp]
      exact ih h
    · rename_i hp
      rw [if_neg hp]

theorem tableIndex_lt_limit_of_lt (h : depth < 3) : tableIndex depth page < limit depth := by
  rw [limit_of_lt h]
  exact tableIndex_lt

theorem slot_mem_tables (h : slot mem depth table page = some (f, i)) (hd : depth ≤ 3)
    (hv : tableIndex depth page < limit depth) : f ∈ tables mem depth table := by
  induction depth generalizing table with
  | zero =>
    obtain ⟨rfl, _⟩ := Prod.mk.inj (Option.some.inj h)
    exact table_mem_tables
  | succ depth ih =>
    simp only [slot] at h
    split at h
    · rename_i hp
      exact tables_child hv hp f (ih h (by omega) (tableIndex_lt_limit_of_lt (by omega)))
    · simp at h

/-- Two pages go through the same entries. -/
def SamePath (depth u v : Nat) : Prop := u % 512 ^ (depth + 1) = v % 512 ^ (depth + 1)

instance (depth u v : Nat) : Decidable (SamePath depth u v) := inferInstanceAs (Decidable (_ = _))

theorem samePath_zero : SamePath 0 u v ↔ tableIndex 0 u = tableIndex 0 v := by
  simp [SamePath, tableIndex]

theorem samePath_succ : SamePath (depth + 1) u v ↔
    tableIndex (depth + 1) u = tableIndex (depth + 1) v ∧ SamePath depth u v := by
  have hpos : 0 < 512 ^ (depth + 1) := Nat.pow_pos (by decide)
  have hu := Nat.mod_lt u hpos
  have hv := Nat.mod_lt v hpos
  simp only [SamePath, tableIndex]
  rw [Nat.mod_pow_succ (b := 512) (k := depth + 1), Nat.mod_pow_succ (b := 512) (k := depth + 1)]
  constructor
  · intro heq
    have hmod : u % 512 ^ (depth + 1) = v % 512 ^ (depth + 1) := by
      have := congrArg (· % 512 ^ (depth + 1)) heq
      simpa [Nat.add_mul_mod_self_left, Nat.mod_eq_of_lt hu, Nat.mod_eq_of_lt hv] using this
    refine ⟨?_, hmod⟩
    rw [hmod] at heq
    exact Nat.eq_of_mul_eq_mul_left hpos (Nat.add_left_cancel heq)
  · rintro ⟨hidx, hmod⟩
    rw [hidx, hmod]

theorem samePath_iff_eq (hu : u < pageCount depth) (hv : v < pageCount depth) :
    SamePath depth u v ↔ u = v := by
  have hle : pageCount depth ≤ 512 ^ (depth + 1) := by
    rw [pageCount, pow_succ, mul_comm]
    exact Nat.mul_le_mul_left _ limit_le
  rw [SamePath, Nat.mod_eq_of_lt (by omega), Nat.mod_eq_of_lt (by omega)]

theorem tables_set_slot (hnd : (tables m.mem depth table).Nodup) (hd : depth ≤ 3)
    (hv : tableIndex depth page < limit depth) (h : slot m.mem depth table page = some (f, i)) :
    tables (m.set f i w).mem depth table = tables m.mem depth table := by
  induction depth generalizing table with
  | zero => rfl
  | succ depth ih =>
    have hapart := nodup_tables_succ.mp hnd
    simp only [slot] at h
    split at h
    · rename_i hp
      have hsub : tableIndex depth page < limit depth := tableIndex_lt_limit_of_lt (by omega)
      have hf := slot_mem_tables h (by omega) hsub
      have htop : table ≠ f := by
        rintro rfl
        exact hapart.top _ hv hp hf
      simp only [tables, mem_set_of_ne htop]
      congr 1
      refine flatMap_congr ?_
      intro j hj
      by_cases hpj : present (m.mem table j) = true
      · simp only [hpj, if_true]
        by_cases hji : j = tableIndex (depth + 1) page
        · subst hji
          exact ih (hapart.child _ hv hp) (by omega) hsub h
        refine tables_congr ?_
        intro g hg
        apply mem_set_of_ne
        rintro rfl
        exact hapart.disjoint _ (mem_range.mp hj) _ hv hji hpj hp g hg hf
      · simp [hpj]
    · simp at h

theorem leaf_set_slot (hnd : (tables m.mem depth table).Nodup) (hd : depth ≤ 3)
    (hv : tableIndex depth page < limit depth) (hu : tableIndex depth u < limit depth)
    (h : slot m.mem depth table page = some (f, i)) : leaf (m.set f i w).mem depth table u =
      if SamePath depth u page then w else leaf m.mem depth table u := by
  induction depth generalizing table with
  | zero =>
    obtain ⟨rfl, rfl⟩ := Prod.mk.inj (Option.some.inj h)
    simp only [leaf, mem_set, true_and, samePath_zero]
  | succ depth ih =>
    have hapart := nodup_tables_succ.mp hnd
    simp only [slot] at h
    split at h
    · rename_i hp
      have hsub : tableIndex depth page < limit depth := tableIndex_lt_limit_of_lt (by omega)
      have hsubu : tableIndex depth u < limit depth := tableIndex_lt_limit_of_lt (by omega)
      have hf := slot_mem_tables h (by omega) hsub
      have htop : table ≠ f := by
        rintro rfl
        exact hapart.top _ hv hp hf
      simp only [leaf, mem_set_of_ne htop, samePath_succ]
      by_cases hidx : tableIndex (depth + 1) u = tableIndex (depth + 1) page
      · rw [hidx, if_pos hp, if_pos hp]
        simpa using ih (hapart.child _ hv hp) (by omega) hsub hsubu h
      simp only [hidx, false_and, if_false]
      split
      · rename_i hpu
        refine leaf_congr ?_ hsubu (by omega)
        intro g hg
        apply mem_set_of_ne
        rintro rfl
        exact hapart.disjoint _ hu _ hv hidx hpu hp g hg hf
      · rfl
    · simp at h

/-- The references of the first `k` entries of a table. -/
def refsUpTo (mem : Nat → Nat → Word) (depth table k frame : Nat) : Nat :=
  Nat.count (fun page => Maps (leaf mem depth table page) frame) (k * 512 ^ depth)

theorem refsIn_eq : refsIn mem depth table frame = refsUpTo mem depth table (limit depth) frame := rfl

@[simp] theorem refsUpTo_zero : refsUpTo mem depth table 0 frame = 0 := by
  simp [refsUpTo]

theorem tableIndex_shift (hk : k ≤ depth) :
    tableIndex k (a * 512 ^ (depth + 1) + r) = tableIndex k r := by
  obtain ⟨j, rfl⟩ := Nat.exists_eq_add_of_le hk
  have hpos : 0 < 512 ^ k := Nat.pow_pos (by decide)
  have hsplit : a * 512 ^ (k + j + 1) = 512 ^ k * (512 * (a * 512 ^ j)) := by
    rw [show k + j + 1 = k + (j + 1) from rfl, pow_add, pow_succ]
    ring
  simp only [tableIndex]
  rw [hsplit, Nat.mul_add_div hpos, Nat.mul_add_mod]

theorem leaf_shift : leaf mem depth table (a * 512 ^ (depth + 1) + r) = leaf mem depth table r := by
  induction depth generalizing table a with
  | zero => simp only [leaf, tableIndex_shift le_rfl]
  | succ depth ih =>
    have hchild : ∀ g, leaf mem depth g (a * 512 ^ (depth + 1 + 1) + r) = leaf mem depth g r := by
      intro g
      rw [pow_succ 512 (depth + 1), mul_comm (512 ^ (depth + 1)), ← mul_assoc]
      exact ih
    simp only [leaf, tableIndex_shift le_rfl, hchild]

theorem tableIndex_top (hk : k < 512) (hr : r < 512 ^ depth) :
    tableIndex depth (k * 512 ^ depth + r) = k := by
  have hpos : 0 < 512 ^ depth := Nat.pow_pos (by decide)
  rw [tableIndex, mul_comm, Nat.mul_add_div hpos, Nat.div_eq_of_lt hr, add_zero, Nat.mod_eq_of_lt hk]

theorem refsUpTo_zero_succ (hk : k < 512) : refsUpTo mem 0 table (k + 1) frame =
      refsUpTo mem 0 table k frame + if Maps (mem table k) frame then 1 else 0 := by
  have hleaf : leaf mem 0 table k = mem table k := by
    simp [leaf, tableIndex, Nat.mod_eq_of_lt hk]
  simp only [refsUpTo, pow_zero, mul_one, Nat.count_succ, hleaf]

theorem refsUpTo_succ (hk : k < 512) (hd : depth < 3) : refsUpTo mem (depth + 1) table (k + 1) frame =
      refsUpTo mem (depth + 1) table k frame +
        if present (mem table k) then refsIn mem depth (frameOf (mem table k)) frame else 0 := by
  have hcount : pageCount depth = 512 ^ (depth + 1) := by
    rw [pageCount, limit_of_lt hd, pow_succ, mul_comm]
  rw [refsUpTo, refsUpTo, add_mul, one_mul, Nat.count_add]
  congr 1
  by_cases hp : present (mem table k) = true
  · rw [if_pos hp, refsIn, hcount, Nat.count_eq_card_filter_range, Nat.count_eq_card_filter_range]
    congr 1
    refine Finset.filter_congr ?_
    intro r hr
    simp only [leaf, tableIndex_top hk (Finset.mem_range.mp hr), hp, if_true, leaf_shift]
  · rw [if_neg hp, Nat.count_eq_card_filter_range, Finset.card_eq_zero, Finset.filter_eq_empty_iff]
    intro r hr hmaps
    simp only [leaf, tableIndex_top hk (Finset.mem_range.mp hr), hp] at hmaps
    simp [Maps, isPrivate] at hmaps

theorem refsUpTo_mono (h : k ≤ l) : refsUpTo mem depth table k frame ≤ refsUpTo mem depth table l frame :=
  Nat.count_monotone _ (Nat.mul_le_mul_right _ h)

theorem refsIn_congr (h : ∀ v < pageCount depth,
    (Maps (leaf mem' depth table' v) frame ↔ Maps (leaf mem depth table v) frame)) :
    refsIn mem' depth table' frame = refsIn mem depth table frame := by
  rw [refsIn, refsIn, Nat.count_eq_card_filter_range, Nat.count_eq_card_filter_range]
  congr 1
  refine Finset.filter_congr ?_
  intro v hv
  exact h v (Finset.mem_range.mp hv)

theorem refsIn_pos : 0 < refsIn mem depth table frame ↔
    ∃ v < pageCount depth, Maps (leaf mem depth table v) frame := by
  rw [refsIn, Nat.count_eq_card_filter_range, Finset.card_pos]
  simp [Finset.Nonempty]

theorem refsIn_update (hv : v < pageCount depth) (h : ∀ u < pageCount depth, u ≠ v →
      (Maps (leaf mem' depth table' u) frame ↔ Maps (leaf mem depth table u) frame)) :
    refsIn mem' depth table' frame + (if Maps (leaf mem depth table v) frame then 1 else 0) =
      refsIn mem depth table frame + (if Maps (leaf mem' depth table' v) frame then 1 else 0) := by
  have hsplit : ∀ P : Nat → Prop, ∀ _ : DecidablePred P, ((Finset.range (pageCount depth)).filter P).card =
        (((Finset.range (pageCount depth)).erase v).filter P).card + if P v then 1 else 0 := by
    intro P _
    have hins : Finset.range (pageCount depth) = insert v ((Finset.range (pageCount depth)).erase v) :=
      (Finset.insert_erase (Finset.mem_range.mpr hv)).symm
    conv_lhs => rw [hins, Finset.filter_insert]
    by_cases hP : P v
    · rw [if_pos hP, if_pos hP, Finset.card_insert_of_notMem (by simp)]
    · rw [if_neg hP, if_neg hP, add_zero]
  rw [refsIn, refsIn, Nat.count_eq_card_filter_range, Nat.count_eq_card_filter_range,
    hsplit, hsplit (fun page => Maps (leaf mem depth table page) frame)]
  have hrest : ((Finset.range (pageCount depth)).erase v).filter
        (fun page => Maps (leaf mem' depth table' page) frame) =
      ((Finset.range (pageCount depth)).erase v).filter (fun page => Maps (leaf mem depth table page) frame) := by
    refine Finset.filter_congr ?_
    intro u hu
    obtain ⟨hne, hlt⟩ := Finset.mem_erase.mp hu
    exact h u (Finset.mem_range.mp hlt) hne
  rw [hrest]
  omega

end NyanOS.Memory
