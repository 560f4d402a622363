import NyanOS.Memory.Copy

/-!
The invariant of a set of address spaces: every table frame and every frame of the kernel is
used once, the count of a frame mapped privately is the number of its private entries, and a
writable private entry is the only one of its frame.
-/

namespace NyanOS.Memory

open List

/-- The event queue of a task takes two pages of the 256 MB window of `vmm_alloc_global`,
which bounds the number of tasks. -/
def maxTasks : Nat := 0x10000000 / (2 * pageSize)

def allTables (mem : Nat → Nat → Word) (roots : List Nat) : List Nat := roots.flatMap (tables mem 3)

/-- The number of private user entries that point to a frame, over all address spaces. -/
def totalRefs (mem : Nat → Nat → Word) (roots : List Nat) (frame : Nat) : Nat :=
  (roots.map fun r => refsIn mem 3 r frame).sum

/-- `roots` are the PML4 frames, `kern` the frames that the kernel holds for other purposes,
and `base` the frames that were in use when the system started. -/
structure Inv (base : Nat → Bool) (m : Machine) (kern roots : List Nat) : Prop where
  pmm : m.pmm.Ok
  few : roots.length ≤ maxTasks
  boot : ∀ g, base g = true → m.pmm.bitmap g = true
  nodup : (allTables m.mem roots ++ kern).Nodup
  owned : ∀ g ∈ allTables m.mem roots ++ kern,
    m.pmm.Allocated g ∧ m.pmm.refCounts g = 1 ∧ base g = false
  mapped : ∀ r ∈ roots, ∀ v < pageCount 3, ∀ f, Maps (leaf m.mem 3 r v) f →
    m.pmm.Allocated f ∧ f ∉ allTables m.mem roots ++ kern ∧
      m.pmm.refCounts f = totalRefs m.mem roots f ∧ base f = false
  sharedOk : ∀ r ∈ roots, ∀ v < pageCount 3, present (leaf m.mem 3 r v) = true →
    shared (leaf m.mem 3 r v) = true →
    frameOf (leaf m.mem 3 r v) ∈ kern ∧ writable (leaf m.mem 3 r v) = true
  userOk : ∀ r ∈ roots, ∀ v < pageCount 3, present (leaf m.mem 3 r v) = true →
    user (leaf m.mem 3 r v) = true
  exclusive : ∀ r ∈ roots, ∀ v < pageCount 3, ∀ f, Maps (leaf m.mem 3 r v) f →
    writable (leaf m.mem 3 r v) = true → totalRefs m.mem roots f = 1
  home : ∀ r ∈ roots, ∀ v < pageCount 3, ∀ r' ∈ roots, ∀ v' < pageCount 3, ∀ f,
    Maps (leaf m.mem 3 r v) f → Maps (leaf m.mem 3 r' v') f → v = v'
  taken : ∀ g, m.pmm.bitmap g = true →
    base g = true ∨ g ∈ allTables m.mem roots ++ kern ∨ 0 < totalRefs m.mem roots g

variable {base : Nat → Bool} {m m' : Machine} {mem mem' : Nat → Nat → Word} {p q : Pmm}
  {kern kern' roots roots' rest fresh new : List Nat} {r page v f g i r' : Nat} {w e d : Word}

theorem totalRefs_cons : totalRefs mem (r :: rest) f = refsIn mem 3 r f + totalRefs mem rest f := by
  simp [totalRefs]

theorem allTables_cons : allTables mem (r :: rest) = tables mem 3 r ++ allTables mem rest := by
  simp [allTables]

theorem mem_allTables : g ∈ allTables mem roots ↔ ∃ r ∈ roots, g ∈ tables mem 3 r := by
  simp [allTables]

theorem totalRefs_pos : 0 < totalRefs mem roots f ↔ ∃ r ∈ roots, ∃ v < pageCount 3, Maps (leaf mem 3 r v) f := by
  induction roots with
  | nil => simp [totalRefs]
  | cons r rest ih =>
    rw [totalRefs_cons, Nat.add_pos_iff_pos_or_pos, ih, refsIn_pos]
    simp

theorem totalRefs_congr (h : ∀ r ∈ roots, ∀ v < pageCount 3, (Maps (leaf mem' 3 r v) f ↔ Maps (leaf mem 3 r v) f)) :
    totalRefs mem' roots f = totalRefs mem roots f := by
  refine congrArg List.sum (map_congr_left ?_)
  intro r hr
  exact refsIn_congr (h r hr)

theorem totalRefs_perm (hp : roots.Perm roots') : totalRefs mem roots f = totalRefs mem roots' f := (hp.map _).sum_eq

theorem allTables_perm (hp : roots.Perm roots') :
    (allTables mem roots).Perm (allTables mem roots') := hp.flatMap_right _

theorem allTables_congr (h : ∀ r ∈ roots, tables mem' 3 r = tables mem 3 r) :
    allTables mem' roots = allTables mem roots :=
  flatMap_congr h

theorem Inv.perm (hi : Inv base m kern roots) (hp : roots.Perm roots') (hk : kern.Perm kern') :
    Inv base m kern' roots' := by
  have hall : (allTables m.mem roots ++ kern).Perm (allTables m.mem roots' ++ kern') := (allTables_perm hp).append hk
  refine ⟨hi.pmm, hp.length_eq ▸ hi.few, hi.boot, hall.nodup_iff.mp hi.nodup, ?_, ?_, ?_, ?_, ?_, ?_, ?_⟩
  · intro g hg
    exact hi.owned g (hall.mem_iff.mpr hg)
  · intro r hr v hv f hf
    obtain ⟨ha, hn, href, hbase⟩ := hi.mapped r (hp.mem_iff.mpr hr) v hv f hf
    exact ⟨ha, fun hmem => hn (hall.mem_iff.mpr hmem), href.trans (totalRefs_perm hp), hbase⟩
  · intro r hr v hv hpres hsh
    obtain ⟨hmem, hw⟩ := hi.sharedOk r (hp.mem_iff.mpr hr) v hv hpres hsh
    exact ⟨hk.mem_iff.mp hmem, hw⟩
  · intro r hr
    exact hi.userOk r (hp.mem_iff.mpr hr)
  · intro r hr v hv f hf hw
    rw [← totalRefs_perm hp]
    exact hi.exclusive r (hp.mem_iff.mpr hr) v hv f hf hw
  · intro r hr v hv r' hr' v' hv' f
    exact hi.home r (hp.mem_iff.mpr hr) v hv r' (hp.mem_iff.mpr hr') v' hv' f
  · intro g hg
    rw [← totalRefs_perm hp, ← hall.mem_iff]
    exact hi.taken g hg

theorem Inv.bit_table (hi : Inv base m kern roots) (hg : g ∈ allTables m.mem roots) : m.pmm.bitmap g = true :=
  (hi.owned g (mem_append_left _ hg)).1.bit

theorem Inv.treeOk (hi : Inv base m kern roots) (hr : r ∈ roots) : TreeOk m 3 r := by
  refine ⟨hi.pmm, ?_, ?_⟩
  · have hnd := (nodup_append.mp hi.nodup).1
    exact (nodup_flatMap.mp hnd).1 r hr
  · intro g hg
    exact hi.bit_table (mem_allTables.mpr ⟨r, hr, hg⟩)

theorem Inv.tables_disjoint (hi : Inv base m kern (r :: rest)) (hr' : r' ∈ rest)
    (hg : g ∈ tables m.mem 3 r') : g ∉ tables m.mem 3 r := by
  have hnd := (nodup_append.mp hi.nodup).1
  rw [allTables_cons] at hnd
  intro hmem
  exact (nodup_append.mp hnd).2.2 g hmem g (mem_allTables.mpr ⟨r', hr', hg⟩) rfl

theorem Inv.other_spaces (hi : Inv base m kern (r :: rest)) (hk : Keeps m m' (tables m.mem 3 r)) :
    ∀ r' ∈ rest, tables m'.mem 3 r' = tables m.mem 3 r' ∧
      ∀ v < pageCount 3, leaf m'.mem 3 r' v = leaf m.mem 3 r' v := by
  intro r' hr'
  have hsame : ∀ g ∈ tables m.mem 3 r', m'.mem g = m.mem g := by
    intro g hg
    refine hk g ?_ (hi.tables_disjoint hr' hg)
    exact hi.bit_table (mem_allTables.mpr ⟨r', by simp [hr'], hg⟩)
  refine ⟨tables_congr hsame, ?_⟩
  intro v hv
  exact leaf_congr hsame (tableIndex_lt_limit hv) le_rfl

section

variable (hi : Inv base m kern roots)
include hi

theorem Inv.refsIn_le_one (hr : r ∈ roots) : refsIn m.mem 3 r f ≤ 1 := by
  rw [refsIn, Nat.count_eq_card_filter_range, Finset.card_le_one]
  intro a ha b hb
  obtain ⟨ha, hma⟩ := Finset.mem_filter.mp ha
  obtain ⟨hb, hmb⟩ := Finset.mem_filter.mp hb
  exact hi.home r hr a (Finset.mem_range.mp ha) r hr b (Finset.mem_range.mp hb) f hma hmb

theorem Inv.totalRefs_le : totalRefs m.mem roots f ≤ maxTasks := by
  have hle : totalRefs m.mem roots f ≤ (roots.map fun _ => 1).sum := sum_le_sum fun r hr => hi.refsIn_le_one hr
  simp only [map_const', sum_replicate, smul_eq_mul, mul_one] at hle
  exact hle.trans hi.few

theorem Inv.totalRefs_owned (hg : g ∈ allTables m.mem roots ++ kern) : totalRefs m.mem roots g = 0 := by
  by_contra hne
  obtain ⟨r, hr, v, hv, hmaps⟩ := totalRefs_pos.mp (pos_of_ne_zero hne)
  exact (hi.mapped r hr v hv g hmaps).2.1 hg

theorem Inv.of_clear (hg : m.pmm.bitmap g = false) :
    g ∉ allTables m.mem roots ++ kern ∧ totalRefs m.mem roots g = 0 ∧ base g = false := by
  refine ⟨?_, ?_, ?_⟩
  · intro hmem
    simp [(hi.owned g hmem).1.bit] at hg
  · by_contra hne
    obtain ⟨r, hr, v, hv, hmaps⟩ := totalRefs_pos.mp (pos_of_ne_zero hne)
    simp [(hi.mapped r hr v hv g hmaps).1.bit] at hg
  · by_contra hbase
    simp [hi.boot g (by simpa using hbase)] at hg

theorem Inv.copyPre (hr : r ∈ roots) : CopyPre m 3 r := by
  have hpage : ∀ v, tableIndex 3 v < limit 3 → ∃ u < pageCount 3, leaf m.mem 3 r v = leaf m.mem 3 r u := by
    intro v hv
    refine ⟨v % 512 ^ 4, ?_, ?_⟩
    · have hlim : limit 3 = 256 := rfl
      simp only [pageCount, hlim, tableIndex] at hv ⊢
      omega
    · conv_lhs => rw [← Nat.div_add_mod' v (512 ^ 4), leaf_shift]
  refine ⟨hi.treeOk hr, ?_, ?_⟩
  · intro v f hv hmaps
    obtain ⟨u, hu, heq⟩ := hpage v hv
    rw [heq] at hmaps
    obtain ⟨ha, _, href, _⟩ := hi.mapped r hr u hu f hmaps
    refine ⟨ha, ?_⟩
    rw [href]
    exact totalRefs_pos.mpr ⟨r, hr, u, hu, hmaps⟩
  · intro g hpos
    have hone := hi.refsIn_le_one (f := g) hr
    obtain ⟨u, hu, hmaps⟩ := refsIn_pos.mp hpos
    have href := (hi.mapped r hr u hu g hmaps).2.2.1
    have hle := hi.totalRefs_le (f := g)
    simp only [maxTasks, pageSize] at hle
    omega

end

end NyanOS.Memory
