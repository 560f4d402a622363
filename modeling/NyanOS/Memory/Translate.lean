import NyanOS.Memory.Walk

/-!
# The laws of mapping and translation

`vmm_map_page`, `vmm_unmap_page` and `vmm_virt2phys` on whole trees of four levels, with addresses of 48 bits: the
kernel's half of the topmost table is like the other.
-/
namespace NyanOS.Memory

open List

/-- The bit that makes an entry of an upper table a large page. -/
def huge (entry : Word) : Bool := entry.getLsbD 7

def NoHuge (mem : Nat → Nat → Word) : Nat → Nat → Prop
  | 0, _ => True
  | depth + 1, table => ∀ i < 512, present (mem table i) = true →
    huge (mem table i) = false ∧ NoHuge mem depth (frameOf (mem table i))

/-- The tables of a whole tree. -/
def treeTables (mem : Nat → Nat → Word) (root : Nat) : List Nat :=
  root :: (List.range 512).flatMap (below mem 2 root)

structure WellFormed (m : Machine) (root : Nat) : Prop where
  distinct : (treeTables m.mem root).Nodup
  noHuge : NoHuge m.mem 3 root

/-- The allocator knows that the tables are in use. -/
structure InUse (m : Machine) (root : Nat) : Prop where
  pmm : m.pmm.Ok
  bits : ∀ g ∈ treeTables m.mem root, m.pmm.bitmap g = true

/-- `vmm_virt2phys` on addresses, with 0 for one that is not mapped. -/
def virt2phys (m : Machine) (pml4 addr : Nat) : Nat :=
  match vmmVirt2Phys m pml4 (addr / pageSize) with
  | none => 0
  | some frame => frame * pageSize + addr % pageSize

variable {m m' m₁ : Machine} {mem mem' : Nat → Nat → Word} {depth table root page u v w c f g i j : Nat} {e flags : Word}
  {new : List Nat}

/-! ### The parts of a tree -/

/-- The trees below two entries have no table in common, and none is the topmost. -/
structure Parts (mem : Nat → Nat → Word) (root : Nat) : Prop where
  below : ∀ i < 512, (below mem 2 root i).Nodup
  top : ∀ i < 512, root ∉ NyanOS.Memory.below mem 2 root i
  apart : ∀ i < 512, ∀ j < 512, i ≠ j → ∀ g ∈ NyanOS.Memory.below mem 2 root i,
    g ∉ NyanOS.Memory.below mem 2 root j

theorem distinct_iff : (treeTables mem root).Nodup ↔ Parts mem root := by
  rw [treeTables, nodup_cons, nodup_flatMap]
  simp only [mem_flatMap, mem_range, not_exists, not_and]
  constructor
  · rintro ⟨htop, hnd, hpair⟩
    refine ⟨hnd, htop, fun i hi j hj hne g hg hg' => ?_⟩
    have hsymm : Std.Symm (Function.onFun List.Disjoint (below mem 2 root)) := ⟨fun _ _ hd => hd.symm⟩
    exact hpair.forall (mem_range.mpr hi) (mem_range.mpr hj) hne hg hg'
  · rintro ⟨hnd, htop, hapart⟩
    refine ⟨htop, hnd, nodup_range.imp_of_mem ?_⟩
    intro i j hi hj hne g hg hg'
    exact hapart i (mem_range.mp hi) j (mem_range.mp hj) hne g hg hg'

theorem mem_treeTables (hi : i < 512) (hg : g ∈ below mem 2 root i) : g ∈ treeTables mem root :=
  mem_cons_of_mem _ (mem_flatMap.mpr ⟨i, mem_range.mpr hi, hg⟩)

theorem root_mem_treeTables : root ∈ treeTables mem root := mem_cons_self

/-- Only what is below one entry changes. -/
structure Replaced (mem mem' : Nat → Nat → Word) (root i : Nat) : Prop where
  row : ∀ j < 512, j ≠ i → mem' root j = mem root j
  keep : ∀ j < 512, j ≠ i → ∀ g ∈ below mem 2 root j, mem' g = mem g

theorem Replaced.below (h : Replaced mem mem' root i) (hj : j < 512) (hne : j ≠ i) :
    below mem' 2 root j = below mem 2 root j := below_congr (h.row j hj hne) (h.keep j hj hne)

theorem Replaced.leaf (h : Replaced mem mem' root i) (hne : tableIndex 3 u ≠ i) :
    leaf mem' 3 root u = leaf mem 3 root u :=
  leaf_other (by decide) (h.row _ tableIndex_lt hne) (h.keep _ tableIndex_lt hne)

theorem Replaced.perm (h : Replaced mem mem' root i) (hi : i < 512)
    (hsub : (NyanOS.Memory.below mem' 2 root i).Perm (new ++ NyanOS.Memory.below mem 2 root i)) :
    (treeTables mem' root).Perm (new ++ treeTables mem root) := by
  have hflat := flatMap_perm_of_update nodup_range (mem_range.mpr hi)
    (fun j hj hne => h.below (mem_range.mp hj) hne) hsub
  exact (hflat.cons root).trans perm_middle.symm

theorem noHuge_congr (hd : depth ≤ 2) (h : ∀ g ∈ tables mem depth table, mem' g = mem g) (hn : NoHuge mem depth table) :
    NoHuge mem' depth table := by
  induction depth generalizing table with
  | zero => trivial
  | succ depth ih =>
    intro i hi hp
    rw [h table table_mem_tables] at hp ⊢
    obtain ⟨hbit, hchild⟩ := hn i hi hp
    refine ⟨hbit, ih (by omega) (fun g hg => h g ?_) hchild⟩
    exact tables_child (by rwa [limit_of_lt (by omega)]) hp g hg

theorem noHuge_replace (hd : depth ≤ 2) (hrow : ∀ j < 512, j ≠ i → mem' table j = mem table j)
    (hkeep : ∀ j < 512, j ≠ i → ∀ g ∈ below mem depth table j, mem' g = mem g) (hn : NoHuge mem (depth + 1) table)
    (hi : present (mem' table i) = true →
      huge (mem' table i) = false ∧ NoHuge mem' depth (frameOf (mem' table i))) : NoHuge mem' (depth + 1) table := by
  intro j hj hp
  by_cases hji : j = i
  · subst hji
    exact hi hp
  rw [hrow j hj hji] at hp ⊢
  obtain ⟨hbit, hchild⟩ := hn j hj hp
  refine ⟨hbit, noHuge_congr hd (fun g hg => hkeep j hj hji g ?_) hchild⟩
  rw [below, if_pos hp]
  exact hg

theorem huge_tableEntry : huge (tableEntry f) = false := by
  rw [huge, tableEntry_eq, getLsbD_mkPte 7 (by decide) (by decide)]
  decide

theorem noHuge_zero (h : ∀ i < 512, mem table i = 0) : NoHuge mem depth table := by
  cases depth with
  | zero => trivial
  | succ depth =>
    intro i hi hp
    rw [h i hi] at hp
    cases hp

/-! ### The walk -/

/-- A new table below an entry. -/
def link (m : Machine) (table i c : Nat) : Machine :=
  (({ m with pmm := m.pmm.take c } : Machine).fill c fun _ => 0).set table i (tableEntry c)

theorem link_entry : (link m table i c).mem table i = tableEntry c := by
  rw [link, mem_set, if_pos ⟨rfl, rfl⟩]

theorem link_present : present ((link m table i c).mem table i) = true := by
  rw [link_entry]
  exact present_tableEntry

theorem link_row (htc : table ≠ c) (hj : j ≠ i) : (link m table i c).mem table j = m.mem table j := by
  rw [link, mem_set, if_neg fun h => hj h.2, mem_fill_of_ne _ htc]

theorem link_new (htc : table ≠ c) : (link m table i c).mem c = fun _ => 0 := by
  rw [link, mem_set_of_ne htc.symm, mem_fill_self]

theorem link_other (hg : g ≠ table) (hgc : g ≠ c) : (link m table i c).mem g = m.mem g := by
  rw [link, mem_set_of_ne hg, mem_fill_of_ne _ hgc]

theorem link_pmm : (link m table i c).pmm = m.pmm.take c := rfl

theorem walk_present (hp : present (m.mem table (tableIndex (depth + 1) page)) = true) :
    walkToPte true (depth + 1) table page m =
      walkToPte true depth (frameOf (m.mem table (tableIndex (depth + 1) page))) page m := by
  rw [walkToPte, if_pos hp]

theorem walk_absent (hok : m.pmm.Ok) (hp : ¬ present (m.mem table (tableIndex (depth + 1) page)) = true) :
    walkToPte true (depth + 1) table page m = (none, m) ∧ (∀ g < m.pmm.totalPages, m.pmm.bitmap g = true) ∨
    ∃ c, 256 ≤ c ∧ c < m.pmm.totalPages ∧ m.pmm.bitmap c = false ∧ walkToPte true (depth + 1) table page m =
        walkToPte true depth c page (link m table (tableIndex (depth + 1) page) c) := by
  rw [walkToPte, if_neg hp, if_pos rfl]
  rcases pmmAllocFrame_cases hok with ⟨hfull, hall⟩ | ⟨c, hc, hlow, hhigh, hclear⟩
  · rw [hfull]
    exact .inl ⟨rfl, hall⟩
  refine .inr ⟨c, hlow, hhigh, hclear, ?_⟩
  rw [hc]
  simp only [if_neg (show c ≠ 0 by omega)]
  rfl

theorem link_treeOk (depth i : Nat) (hok : m.pmm.Ok) (htc : table ≠ c) (hhigh : c < m.pmm.totalPages) :
    TreeOk (link m table i c) depth c ∧ tables (link m table i c).mem depth c = [c] := by
  have htables : tables (link m table i c).mem depth c = [c] := tables_of_zero fun j _ => congrFun (link_new htc) j
  refine ⟨⟨ok_take hok hhigh, ?_, fun g hg => ?_⟩, htables⟩
  · rw [htables]
    exact nodup_singleton c
  · rw [htables] at hg
    obtain rfl := mem_singleton.mp hg
    rw [link_pmm, bitmap_take, if_pos rfl]

theorem walk_noHuge (ht : TreeOk m depth table) (hd : depth ≤ 2) (hn : NoHuge m.mem depth table) :
    NoHuge (walkToPte true depth table page m).2.mem depth table := by
  induction depth generalizing m table with
  | zero => trivial
  | succ depth ih =>
    have hlim : limit (depth + 1) = 512 := limit_of_lt (by omega)
    have hv : tableIndex (depth + 1) page < limit (depth + 1) := tableIndex_lt_limit_of_lt (by omega)
    have hsub : tableIndex depth page < limit depth := tableIndex_lt_limit_of_lt (by omega)
    have hap := nodup_tables_succ.mp ht.nodup
    have htbit := ht.bits table table_mem_tables
    by_cases hp : present (m.mem table (tableIndex (depth + 1) page)) = true
    · rw [walk_present hp]
      have hchild := ht.child hv hp
      obtain ⟨new, hspec, -⟩ := walkToPte_spec hchild (by omega) hsub
      have hrow := hspec.keeps table htbit (hap.top _ hv hp)
      obtain ⟨hbit, hbelow⟩ := hn _ tableIndex_lt hp
      refine noHuge_replace (i := tableIndex (depth + 1) page) (by omega) (fun j _ _ => congrFun hrow j)
        (fun j hj hji g hg => ?_) hn fun _ => ?_
      · refine hspec.keeps g (ht.bits g (below_subset (hlim ▸ hj) hg)) ?_
        have hout := hap.below_disjoint (hlim ▸ hj) hv hji hg
        rwa [below, if_pos hp] at hout
      · rw [hrow]
        exact ⟨hbit, ih hchild (by omega) hbelow⟩
    · rcases walk_absent ht.pmm hp with ⟨hfull, -⟩ | ⟨c, hlow, hhigh, hclear, hwalk⟩
      · rw [hfull]
        exact hn
      rw [hwalk]
      have hnot : ∀ g, m.pmm.bitmap g = true → g ≠ c := fun g hg => Pmm.bit_ne hg hclear
      have htc := hnot table htbit
      obtain ⟨hchild, htables⟩ := link_treeOk depth (tableIndex (depth + 1) page) ht.pmm htc hhigh
      obtain ⟨new, hspec, -⟩ := walkToPte_spec hchild (by omega) hsub
      -- frames in use other than the new table keep what the link left
      have hkeep : ∀ g, m.pmm.bitmap g = true →
          (walkToPte true depth c page (link m table (tableIndex (depth + 1) page) c)).2.mem g =
            (link m table (tableIndex (depth + 1) page) c).mem g := by
        intro g hg
        refine hspec.keeps g (by rw [link_pmm, bitmap_take, if_neg (hnot g hg)]; exact hg) ?_
        rw [htables]
        exact fun hmem => hnot g hg (mem_singleton.mp hmem)
      refine noHuge_replace (i := tableIndex (depth + 1) page) (by omega) (fun j _ hji => ?_)
        (fun j hj hji g hg => ?_) hn fun _ => ?_
      · rw [hkeep table htbit, link_row htc hji]
      · have hg' := below_subset (hlim ▸ hj) hg
        have hne : g ≠ table := by
          rintro rfl
          exact hap.top_not_below (hlim ▸ hj) hg
        rw [hkeep g (ht.bits g hg'), link_other hne (hnot g (ht.bits g hg'))]
      · rw [hkeep table htbit, link_entry, frameOf_tableEntry (lt_of_lt_of_le hhigh ht.pmm.total)]
        refine ⟨huge_tableEntry, ih hchild (by omega) (noHuge_zero fun j _ => congrFun (link_new htc) j)⟩

/-! ### The whole tree -/

theorem leaf_present (hidx : tableIndex (depth + 1) u = i) (hp : present (mem table i) = true) :
    leaf mem (depth + 1) table u = leaf mem depth (frameOf (mem table i)) u := by
  rw [leaf, hidx, if_pos hp]

theorem leaf_absent (hidx : tableIndex (depth + 1) u = i) (hp : ¬ present (mem table i) = true) :
    leaf mem (depth + 1) table u = 0 := by
  rw [leaf, hidx, if_neg hp]

theorem link_tree (hw : WellFormed m root) (hu : InUse m root) (hi : i < 512) (hp : ¬ present (m.mem root i) = true)
    (hhigh : c < m.pmm.totalPages) (hclear : m.pmm.bitmap c = false) :
    WellFormed (link m root i c) root ∧ InUse (link m root i c) root ∧
      ∀ u, leaf (link m root i c).mem 3 root u = leaf m.mem 3 root u := by
  have hnot : ∀ g ∈ treeTables m.mem root, g ≠ c := fun g hg => Pmm.bit_ne (hu.bits g hg) hclear
  have htc := hnot root root_mem_treeTables
  have hparts := distinct_iff.mp hw.distinct
  have hc52 : c < 2 ^ 52 := lt_of_lt_of_le hhigh hu.pmm.total
  obtain ⟨hchild, htables⟩ := link_treeOk 2 i hu.pmm htc hhigh
  have hrep : Replaced m.mem (link m root i c).mem root i := by
    refine ⟨fun j _ hji => link_row htc hji, fun j hj _ g hg => link_other ?_ (hnot g (mem_treeTables hj hg))⟩
    rintro rfl
    exact hparts.top j hj hg
  have hold : below m.mem 2 root i = [] := by rw [below, if_neg hp]
  have hnew : below (link m root i c).mem 2 root i = [c] := by
    rw [below, link_entry, if_pos present_tableEntry, frameOf_tableEntry hc52, htables]
  have hperm : (treeTables (link m root i c).mem root).Perm ([c] ++ treeTables m.mem root) := by
    refine hrep.perm hi ?_
    rw [hnew, hold]
    exact List.Perm.refl _
  refine ⟨⟨?_, ?_⟩, ⟨ok_take hu.pmm hhigh, fun g hg => ?_⟩, fun u => ?_⟩
  · rw [hperm.nodup_iff, singleton_append, nodup_cons]
    exact ⟨fun hmem => hnot c hmem rfl, hw.distinct⟩
  · refine noHuge_replace le_rfl hrep.row hrep.keep hw.noHuge fun _ => ?_
    rw [link_entry, frameOf_tableEntry hc52]
    exact ⟨huge_tableEntry, noHuge_zero fun j _ => congrFun (link_new htc) j⟩
  · rw [link_pmm, bitmap_take]
    split
    · rfl
    next hgc =>
    rcases mem_cons.mp (hperm.mem_iff.mp hg) with hg | hg
    · exact absurd hg hgc
    · exact hu.bits g hg
  · by_cases hidx : tableIndex 3 u = i
    · have hzero : leaf (link m root i c).mem 2 c u = 0 :=
        leaf_of_zero (fun j _ => congrFun (link_new htc) j) (tableIndex_lt_limit_of_lt (by decide))
      rw [leaf_present hidx link_present, link_entry, frameOf_tableEntry hc52, hzero, leaf_absent hidx hp]
    · exact hrep.leaf hidx

theorem descend_tree (hw : WellFormed m root) (hu : InUse m root) (hi : i < 512)
    (hp : present (m.mem root i) = true) (hspec : WalkSpec m m' 2 (frameOf (m.mem root i)) new)
    (hn : NoHuge m'.mem 2 (frameOf (m.mem root i))) : WellFormed m' root ∧ InUse m' root ∧ m'.mem root = m.mem root ∧
      ∀ u, leaf m'.mem 3 root u = leaf m.mem 3 root u := by
  have hparts := distinct_iff.mp hw.distinct
  have hbelow : below m.mem 2 root i = tables m.mem 2 (frameOf (m.mem root i)) := by rw [below, if_pos hp]
  have hroot : m'.mem root = m.mem root :=
    hspec.keeps root (hu.bits root root_mem_treeTables) (hbelow ▸ hparts.top i hi)
  have hrep : Replaced m.mem m'.mem root i := by
    refine ⟨fun j _ _ => congrFun hroot j, fun j hj hji g hg => ?_⟩
    exact hspec.keeps g (hu.bits g (mem_treeTables hj hg)) (hbelow ▸ hparts.apart j hj i hi hji g hg)
  have hperm : (treeTables m'.mem root).Perm (new ++ treeTables m.mem root) := by
    refine hrep.perm hi ?_
    rw [hbelow, below, hroot, if_pos hp]
    exact hspec.tables
  refine ⟨⟨?_, ?_⟩, ⟨hspec.grow.ok, fun g hg => ?_⟩, hroot, fun u => ?_⟩
  · rw [hperm.nodup_iff, nodup_append']
    exact ⟨hspec.grow.nodup, hw.distinct, fun g hg hold => hspec.grow.not_new (hu.bits g hold) hg⟩
  · refine noHuge_replace le_rfl hrep.row hrep.keep hw.noHuge fun _ => ?_
    rw [hroot]
    exact ⟨(hw.noHuge i hi hp).1, hn⟩
  · rcases mem_append.mp (hperm.mem_iff.mp hg) with hg | hg
    · exact hspec.grow.bit_new hg
    · exact hspec.grow.bit_mono (hu.bits g hg)
  · by_cases hidx : tableIndex 3 u = i
    · rw [leaf_present hidx (hroot ▸ hp), leaf_present hidx hp, hroot]
      exact hspec.leaf u (tableIndex_lt_limit_of_lt (by decide))
    · exact hrep.leaf hidx

/-- What a walk has led to: the place of the entry in a tree with the same translations, or nothing if memory is full. -/
structure Walked (m : Machine) (root page : Nat) (r : Option (Nat × Nat) × Machine) : Prop where
  wellFormed : WellFormed r.2 root
  inUse : InUse r.2 root
  leaf : ∀ u, leaf r.2.mem 3 root u = NyanOS.Memory.leaf m.mem 3 root u
  place : r.1 = slot r.2.mem 3 root page
  full : r.1 = none → ∀ g < m.pmm.totalPages, r.2.pmm.bitmap g = true

theorem walk_below (hw : WellFormed m root) (hu : InUse m root)
    (hp : present (m.mem root (tableIndex (2 + 1) page)) = true) :
    Walked m root page (walkToPte true 2 (frameOf (m.mem root (tableIndex (2 + 1) page))) page m) := by
  have hparts := distinct_iff.mp hw.distinct
  have hbelow : below m.mem 2 root (tableIndex (2 + 1) page) =
      tables m.mem 2 (frameOf (m.mem root (tableIndex (2 + 1) page))) := by rw [below, if_pos hp]
  have ht : TreeOk m 2 (frameOf (m.mem root (tableIndex (2 + 1) page))) := by
    refine ⟨hu.pmm, hbelow ▸ hparts.below _ tableIndex_lt, fun g hg => ?_⟩
    exact hu.bits g (mem_treeTables tableIndex_lt (hbelow ▸ hg))
  obtain ⟨new, hspec, hslot, hnone⟩ := walkToPte_spec ht (by decide) (tableIndex_lt_limit_of_lt (by decide))
  obtain ⟨hw', hu', hroot, hleaf⟩ := descend_tree hw hu tableIndex_lt hp hspec
    (walk_noHuge ht le_rfl (hw.noHuge _ tableIndex_lt hp).2)
  refine ⟨hw', hu', hleaf, ?_, hnone⟩
  rw [slot, hroot, if_pos hp]
  exact hslot

theorem walk_tree (hw : WellFormed m root) (hu : InUse m root) (page : Nat) :
    Walked m root page (walkToPte true 3 root page m) := by
  by_cases hp : present (m.mem root (tableIndex (2 + 1) page)) = true
  · rw [walk_present hp]
    exact walk_below hw hu hp
  rcases walk_absent hu.pmm hp with ⟨hfull, hall⟩ | ⟨c, hlow, hhigh, hclear, hwalk⟩
  · rw [hfull]
    refine ⟨hw, hu, fun _ => rfl, ?_, fun _ => hall⟩
    rw [slot, if_neg hp]
  obtain ⟨hw₁, hu₁, hleaf₁⟩ := link_tree hw hu tableIndex_lt hp hhigh hclear
  have hres := walk_below hw₁ hu₁ link_present
  rw [link_entry, frameOf_tableEntry (lt_of_lt_of_le hhigh hu.pmm.total)] at hres
  rw [hwalk]
  exact ⟨hres.wellFormed, hres.inUse, fun u => (hres.leaf u).trans (hleaf₁ u), hres.place, hres.full⟩

/-! ### Stores -/

theorem noHuge_set (hnd : (tables m.mem depth table).Nodup) (hd : depth ≤ 2)
    (h : slot m.mem depth table page = some (f, i)) (hn : NoHuge m.mem depth table) :
    NoHuge (m.set f i e).mem depth table := by
  induction depth generalizing table with
  | zero => trivial
  | succ depth ih =>
    have hlim : limit (depth + 1) = 512 := limit_of_lt (by omega)
    have hv : tableIndex (depth + 1) page < limit (depth + 1) := tableIndex_lt_limit_of_lt (by omega)
    have hap := nodup_tables_succ.mp hnd
    rw [slot] at h
    split at h
    · next hp =>
      have hf := slot_mem_tables h (by omega) (tableIndex_lt_limit_of_lt (by omega))
      have hrow : (m.set f i e).mem table = m.mem table := by
        apply mem_set_of_ne
        rintro rfl
        exact hap.top _ hv hp hf
      obtain ⟨hbit, hchild⟩ := hn _ tableIndex_lt hp
      refine noHuge_replace (i := tableIndex (depth + 1) page) (by omega) (fun j _ _ => congrFun hrow j)
        (fun j hj hji g hg => ?_) hn fun _ => ?_
      · apply mem_set_of_ne
        rintro rfl
        have hout := hap.below_disjoint (hlim ▸ hj) hv hji hg
        rw [below, if_pos hp] at hout
        exact hout hf
      · rw [hrow]
        exact ⟨hbit, ih (hap.child _ hv hp) (by omega) h hchild⟩
    · cases h

theorem set_tree (hw : WellFormed m root) (h : slot m.mem 3 root page = some (f, i)) :
    WellFormed (m.set f i e) root ∧ treeTables (m.set f i e).mem root = treeTables m.mem root ∧
      ∀ u, leaf (m.set f i e).mem 3 root u = if SamePath 3 u page then e else leaf m.mem 3 root u := by
  have hparts := distinct_iff.mp hw.distinct
  rw [slot] at h
  split at h
  swap
  · cases h
  next hp =>
  have hsub : ∀ v, tableIndex 2 v < limit 2 := fun v => tableIndex_lt_limit_of_lt (by decide)
  have hbelow : below m.mem 2 root (tableIndex (2 + 1) page) =
      tables m.mem 2 (frameOf (m.mem root (tableIndex (2 + 1) page))) := by rw [below, if_pos hp]
  have hnd : (tables m.mem 2 (frameOf (m.mem root (tableIndex (2 + 1) page)))).Nodup :=
    hbelow ▸ hparts.below _ tableIndex_lt
  have hf := slot_mem_tables h (by decide) (hsub page)
  have hroot : (m.set f i e).mem root = m.mem root := by
    apply mem_set_of_ne
    rintro rfl
    exact hparts.top _ tableIndex_lt (hbelow ▸ hf)
  have hrep : Replaced m.mem (m.set f i e).mem root (tableIndex (2 + 1) page) := by
    refine ⟨fun j _ _ => congrFun hroot j, fun j hj hji g hg => ?_⟩
    apply mem_set_of_ne
    rintro rfl
    exact hparts.apart j hj _ tableIndex_lt hji g hg (hbelow ▸ hf)
  have hsame : ∀ j < 512, below (m.set f i e).mem 2 root j = below m.mem 2 root j := by
    intro j hj
    by_cases hji : j = tableIndex (2 + 1) page
    · rw [hji, hbelow, below, hroot, if_pos hp]
      exact tables_set_slot hnd (by decide) (hsub page) h
    · exact hrep.below hj hji
  have htables : treeTables (m.set f i e).mem root = treeTables m.mem root :=
    congrArg (root :: ·) (flatMap_congr fun j hj => hsame j (mem_range.mp hj))
  refine ⟨⟨?_, ?_⟩, htables, fun u => ?_⟩
  · rw [htables]
    exact hw.distinct
  · refine noHuge_replace le_rfl hrep.row hrep.keep hw.noHuge fun _ => ?_
    rw [hroot]
    obtain ⟨hbit, hchild⟩ := hw.noHuge _ tableIndex_lt hp
    exact ⟨hbit, noHuge_set hnd le_rfl h hchild⟩
  · by_cases hidx : tableIndex (2 + 1) u = tableIndex (2 + 1) page
    · rw [leaf_present hidx (hroot ▸ hp), leaf_present hidx hp, hroot, leaf_set_slot hnd (by decide) (hsub page) (hsub u) h]
      have hpath : SamePath 3 u page ↔ SamePath 2 u page := samePath_succ.trans (and_iff_right hidx)
      simp only [hpath]
    rw [if_neg, hrep.leaf hidx]
    intro hpath
    exact hidx (samePath_succ.mp hpath).1

/-! ### Addresses -/

theorem virt2phys_eq : virt2phys m root v = if present (leaf m.mem 3 root (v / pageSize)) then
    frameOf (leaf m.mem 3 root (v / pageSize)) * pageSize + v % pageSize else 0 := by
  rw [virt2phys, vmmVirt2Phys_eq]
  split
  · next h =>
    split at h
    · cases h
    · next hp => rw [if_neg hp]
  · next f h =>
    split at h
    · next hp =>
      cases h
      rw [if_pos hp]
    · cases h

theorem virt2phys_congr (h : leaf m'.mem 3 root (v / pageSize) = leaf m.mem 3 root (v / pageSize)) :
    virt2phys m' root v = virt2phys m root v := by
  rw [virt2phys_eq, virt2phys_eq, h]

theorem samePath_addr (hv : v < 2 ^ 48) (hw : w < 2 ^ 48) : SamePath 3 (w / pageSize) (v / pageSize) ↔
    w / pageSize = v / pageSize := by
  simp only [SamePath, pageSize]
  omega

theorem virt2phys_store (hv : v < 2 ^ 48) (hw : w < 2 ^ 48)
    (hleaf : ∀ u, leaf m'.mem 3 root u = if SamePath 3 u (v / pageSize) then e else leaf m.mem 3 root u) :
    virt2phys m' root w = if w / pageSize = v / pageSize then
      (if present e then frameOf e * pageSize + w % pageSize else 0) else virt2phys m root w := by
  by_cases hpage : w / pageSize = v / pageSize
  · rw [if_pos hpage, virt2phys_eq, hleaf, if_pos ((samePath_addr hv hw).mpr hpage)]
  rw [if_neg hpage]
  refine virt2phys_congr ?_
  rw [hleaf, if_neg fun hpath => hpage ((samePath_addr hv hw).mp hpath)]

/-- What is known of a tree after an operation that may store the entry `e` at the page of `v`. -/
structure Law (m m' : Machine) (root v w after : Nat) : Prop where
  wellFormed : WellFormed m' root
  translate : virt2phys m' root w = if w / pageSize = v / pageSize then after else virt2phys m root w

theorem map_law {r : Bool × Machine} (ht : WellFormed m root) (hu : InUse m root) (hv : v < 2 ^ 48) (hw : w < 2 ^ 48)
    (hf : f < 2 ^ 52) (hfl : flags.toNat < 0x1000) (hr : vmmMapPage m root (v / pageSize) f flags = r) :
    r.1 = true ∧ Law m r.2 root v w (f * pageSize + w % pageSize) ∨
    r.1 = false ∧ WellFormed r.2 root ∧ virt2phys r.2 root w = virt2phys m root w ∧
      ∀ g < m.pmm.totalPages, r.2.pmm.bitmap g = true := by
  subst hr
  have hwalk := walk_tree ht hu (v / pageSize)
  rw [vmmMapPage, vmmWalkToPte]
  generalize walkToPte true 3 root (v / pageSize) m = r at hwalk
  obtain ⟨place, m₁⟩ := r
  cases place with
  | none => exact .inr ⟨rfl, hwalk.wellFormed, virt2phys_congr (hwalk.leaf _), hwalk.full rfl⟩
  | some place =>
    obtain ⟨t, i⟩ := place
    refine .inl ⟨rfl, ?_⟩
    obtain ⟨hset, -, hleaf⟩ := set_tree (e := mkPte f flags) hwalk.wellFormed hwalk.place.symm
    refine ⟨⟨hset.distinct, hset.noHuge⟩, ?_⟩
    have hstore : virt2phys (m₁.set t i (mkPte f flags)) root w = _ := virt2phys_store hv hw hleaf
    rw [present_mkPte, if_pos rfl, frameOf_mkPte hf hfl, virt2phys_congr (hwalk.leaf _)] at hstore
    dsimp only
    rw [← hstore]
    -- Dropping the frame that was mapped here changes the allocator only.
    exact virt2phys_congr rfl

theorem unmap_law (ht : WellFormed m root) (hv : v < 2 ^ 48) (hw : w < 2 ^ 48) :
    Law m (vmmUnmapPage m root (v / pageSize)) root v w 0 := by
  rw [vmmUnmapPage, vmmWalkToPte, walkToPte_false]
  cases hslot : slot m.mem 3 root (v / pageSize) with
  | none =>
    refine ⟨ht, ?_⟩
    dsimp only
    split
    · next hpage =>
      rw [virt2phys_eq, hpage, leaf_of_slot_none hslot]
      rfl
    · rfl
  | some place =>
    obtain ⟨t, i⟩ := place
    obtain ⟨hset, -, hleaf⟩ := set_tree (e := 0) ht hslot
    exact ⟨hset, virt2phys_store hv hw hleaf⟩

/-- Mapping and unmapping a page, and translating any address: `f` is the frame at the address `p` of the frame, and the
flag of `vmm_map_page` tells whether there was memory for the tables. -/
theorem map_unmap_translate (ht : WellFormed m root) (hu : InUse m root) {v w p : Nat} (hv : v < 2 ^ 48) (hw : w < 2 ^ 48)
    (hp : p < 2 ^ 64) (haligned : pageSize ∣ p) (hfl : flags.toNat < 0x1000) :
    ((vmmMapPage m root (v / pageSize) (p / pageSize) flags).1 = true ∧
        Law m (vmmMapPage m root (v / pageSize) (p / pageSize) flags).2 root v w (p + w % pageSize) ∨
      (vmmMapPage m root (v / pageSize) (p / pageSize) flags).1 = false ∧
        WellFormed (vmmMapPage m root (v / pageSize) (p / pageSize) flags).2 root ∧
        virt2phys (vmmMapPage m root (v / pageSize) (p / pageSize) flags).2 root w = virt2phys m root w ∧
        ∀ g < m.pmm.totalPages, (vmmMapPage m root (v / pageSize) (p / pageSize) flags).2.pmm.bitmap g = true) ∧
    Law m (vmmUnmapPage m root (v / pageSize)) root v w 0 := by
  have hf : p / pageSize < 2 ^ 52 := by
    simp only [pageSize]
    omega
  have hmap := map_law ht hu hv hw hf hfl rfl
  rw [Nat.div_mul_cancel haligned] at hmap
  exact ⟨hmap, unmap_law ht hv hw⟩

/-- Frame 256 is the topmost of four tables, and page 5 is mapped to frame 100. -/
def mappedMachine : Machine where
  pmm := ⟨fun i => decide (i < 260), fun _ => 0, 300, 260⟩
  mem f i :=
    if f = 259 ∧ i = 5 then mkPte 100 0x7
    else if 256 ≤ f ∧ f < 259 ∧ i = 0 then mkPte (f + 1) 0x7
    else 0

theorem huge_mappedMachine : huge (mappedMachine.mem f i) = false := by
  simp only [mappedMachine]
  split
  · decide
  split
  · next hf =>
    obtain rfl | rfl | rfl : f = 256 ∨ f = 257 ∨ f = 258 := by omega
    all_goals decide
  · decide

theorem noHuge_mappedMachine : NoHuge mappedMachine.mem depth table := by
  induction depth generalizing table with
  | zero => trivial
  | succ depth ih => exact fun _ _ _ => ⟨huge_mappedMachine, ih⟩

theorem map_unmap_translate_mapped :
    (vmmMapPage mappedMachine 256 (0x40006123 / pageSize) (0x7000 / pageSize) 0x7).1 = true ∧
    Law mappedMachine (vmmMapPage mappedMachine 256 (0x40006123 / pageSize) (0x7000 / pageSize) 0x7).2 256
      0x40006123 0x40006456 (0x7000 + 0x40006456 % pageSize) ∧
    Law mappedMachine (vmmUnmapPage mappedMachine 256 (0x40006123 / pageSize)) 256 0x40006123 0x40006456 0 := by
  have htables : treeTables mappedMachine.mem 256 = [256, 257, 258, 259] := by decide +kernel
  have hwell : WellFormed mappedMachine 256 := by
    refine ⟨?_, noHuge_mappedMachine⟩
    rw [htables]
    decide
  have huse : InUse mappedMachine 256 := by
    refine ⟨⟨fun i hi => decide_eq_true (by omega), by decide, by decide⟩, ?_⟩
    rw [htables]
    decide
  have hflags : (0x7 : Word).toNat < 0x1000 := by decide
  have hlaws := map_unmap_translate (v := 0x40006123) (w := 0x40006456) (p := 0x7000) hwell huse
    (by decide) (by decide) (by decide) (by decide) hflags
  have htrue : (vmmMapPage mappedMachine 256 (0x40006123 / pageSize) (0x7000 / pageSize) 0x7).1 = true := by
    decide +kernel
  obtain ⟨⟨-, hmap⟩ | ⟨hfalse, -⟩, hunmap⟩ := hlaws
  · exact ⟨htrue, hmap, hunmap⟩
  · rw [htrue] at hfalse
    cases hfalse

end NyanOS.Memory
