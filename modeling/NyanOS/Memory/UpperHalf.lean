import NyanOS.Memory.Growth
import NyanOS.Memory.Translate

/-!
# What an operation on one address space leaves alone

An operation on the lower half of an address space writes its tables and frames that were free. The upper half of
its topmost table, which is the kernel's, stays as it was.
-/
namespace NyanOS.Memory

open List

variable {base : Nat → Bool} {m m' m₁ : Machine} {kern rest : List Nat} {r page i t j f g c kernPml4 : Nat}
  {w flags : Word}

theorem walk_upper (ht : TreeOk m 3 r) (hv : tableIndex 3 page < limit 3) (hi : limit 3 ≤ i) :
    (walkToPte true 3 r page m).2.mem r i = m.mem r i := by
  have hsub : tableIndex 2 page < limit 2 := tableIndex_lt_limit_of_lt (by decide)
  have hrbit := ht.bits r table_mem_tables
  by_cases hp : present (m.mem r (tableIndex (2 + 1) page)) = true
  · rw [walk_present hp]
    obtain ⟨new, hspec, -⟩ := walkToPte_spec (ht.child hv hp) (by decide) hsub
    rw [hspec.keeps r hrbit ((nodup_tables_succ.mp ht.nodup).top _ hv hp)]
  rcases walk_absent ht.pmm hp with ⟨hfull, -⟩ | ⟨c, -, hhigh, hclear, hwalk⟩
  · rw [hfull]
  have hrc : r ≠ c := Pmm.bit_ne hrbit hclear
  obtain ⟨htree, htables⟩ := link_treeOk 2 (tableIndex (2 + 1) page) ht.pmm hrc hhigh
  obtain ⟨new, hspec, -⟩ := walkToPte_spec htree (by decide) hsub
  have hbit : (link m r (tableIndex (2 + 1) page) c).pmm.bitmap r = true := by
    rw [link_pmm, bitmap_take, if_neg hrc]
    exact hrbit
  have hnot : r ∉ tables (link m r (tableIndex (2 + 1) page) c).mem 2 c := by
    rw [htables]
    exact fun hmem => hrc (mem_singleton.mp hmem)
  have hidx : i ≠ tableIndex (2 + 1) page := by
    rintro rfl
    exact absurd hv (not_lt.mpr hi)
  rw [hwalk, hspec.keeps r hbit hnot, link_row hrc hidx]

theorem slot_ne_root (hnd : (tables m.mem 3 r).Nodup) (hv : tableIndex 3 page < limit 3)
    (h : slot m.mem 3 r page = some (t, j)) : r ≠ t := by
  rw [slot] at h
  split at h
  · next hp =>
    have hmem := slot_mem_tables h (by decide) (tableIndex_lt_limit_of_lt (by decide))
    rintro rfl
    exact (nodup_tables_succ.mp hnd).top _ hv hp hmem
  · cases h

/-- Only tables of `r` and free frames are written, and in `r` itself only the lower half. -/
structure Confined (m m' : Machine) (r : Nat) : Prop where
  keeps : Keeps m m' (tables m.mem 3 r)
  upper : ∀ i, limit 3 ≤ i → m'.mem r i = m.mem r i

namespace Confined

theorem of_mem_eq (h : m'.mem = m.mem) : Confined m m' r := by
  constructor
  · intro g _ _
    rw [h]
  · intro i _
    rw [h]

theorem trans (h : Confined m m₁ r) (hbits : ∀ g, m.pmm.bitmap g = true → m₁.pmm.bitmap g = true)
    (htables : ∀ g, m.pmm.bitmap g = true → g ∈ tables m₁.mem 3 r → g ∈ tables m.mem 3 r)
    (h' : Confined m₁ m' r) : Confined m m' r := by
  constructor
  · intro g hg hnot
    rw [h'.keeps g (hbits g hg) fun hmem => hnot (htables g hg hmem), h.keeps g hg hnot]
  · intro i hi
    rw [h'.upper i hi, h.upper i hi]

theorem take (hbit : m.pmm.bitmap r = true) (hclear : m.pmm.bitmap f = false) (page : Nat → Word) :
    Confined m ((m.take f).fill f page) r := by
  have hne : ∀ g, m.pmm.bitmap g = true → g ≠ f := fun g hg => Pmm.bit_ne hg hclear
  constructor
  · intro g hg _
    exact mem_fill_of_ne _ (hne g hg)
  · intro i _
    rw [mem_fill_of_ne _ (hne r hbit)]

theorem walk (ht : TreeOk m 3 r) (hv : tableIndex 3 page < limit 3) : Confined m (walkToPte true 3 r page m).2 r := by
  obtain ⟨new, hspec, -⟩ := walkToPte_spec ht le_rfl hv
  exact ⟨hspec.keeps, fun i hi => walk_upper ht hv hi⟩

theorem store (hnd : (tables m.mem 3 r).Nodup) (hv : tableIndex 3 page < limit 3)
    (h : slot m.mem 3 r page = some (t, j)) (hm : m'.mem = (m.set t j w).mem) : Confined m m' r := by
  constructor
  · intro g _ hnot
    rw [hm]
    apply mem_set_of_ne
    rintro rfl
    exact hnot (slot_mem_tables h le_rfl hv)
  · intro i _
    rw [hm, mem_set_of_ne (slot_ne_root hnd hv h)]

theorem map (ht : TreeOk m 3 r) (hv : tableIndex 3 page < limit 3) : Confined m (vmmMapPage m r page f flags).2 r := by
  have hwalk : Confined m (walkToPte true 3 r page m).2 r := walk ht hv
  obtain ⟨new, hspec, hslot, -⟩ := walkToPte_spec ht le_rfl hv
  rw [vmmMapPage, vmmWalkToPte]
  generalize walkToPte true 3 r page m = res at hwalk hspec hslot
  obtain ⟨place, m₁⟩ := res
  cases place with
  | none => exact hwalk
  | some place =>
    obtain ⟨t, j⟩ := place
    refine hwalk.trans (fun g hg => hspec.grow.bit_mono hg) ?_ (store (hspec.treeOk ht).nodup hv hslot.symm rfl)
    intro g hg hmem
    exact (mem_append.mp (hspec.tables.mem_iff.mp hmem)).resolve_left (hspec.grow.not_new hg)

theorem unmap (hnd : (tables m.mem 3 r).Nodup) (hv : tableIndex 3 page < limit 3) :
    Confined m (vmmUnmapPage m r page) r := by
  rw [vmmUnmapPage, vmmWalkToPte, walkToPte_false]
  cases hslot : slot m.mem 3 r page with
  | none => exact of_mem_eq rfl
  | some place => exact store hnd hv hslot rfl

theorem unmapOne (hnd : (tables m.mem 3 r).Nodup) (hv : tableIndex 3 page < limit 3) (isShm : Bool) :
    Confined m (unmapOne r isShm m page) r := by
  have hunmap : Confined m (vmmUnmapPage m r page) r := unmap hnd hv
  rw [NyanOS.Memory.unmapOne]
  split
  · exact of_mem_eq rfl
  · exact of_mem_eq rfl
  split
  · exact hunmap
  · exact ⟨hunmap.keeps, hunmap.upper⟩

theorem handleCow (ht : TreeOk m 3 r) (hv : tableIndex 3 page < limit 3) : Confined m (vmmHandleCow m r page).2 r := by
  rw [vmmHandleCow, vmmWalkToPte, walkToPte_false]
  cases hslot : slot m.mem 3 r page with
  | none => exact of_mem_eq rfl
  | some place =>
    obtain ⟨t, j⟩ := place
    dsimp only
    split
    · exact of_mem_eq rfl
    split
    · exact store ht.nodup hv hslot rfl
    rcases pmmAllocFrame_cases ht.pmm with ⟨hfull, -⟩ | ⟨new, hnew, hlow, hhigh, hclear⟩
    · rw [hfull]
      exact of_mem_eq rfl
    rw [hnew]
    simp only [if_neg (show new ≠ 0 by omega)]
    have hrbit := ht.bits r table_mem_tables
    have htake : Confined m ((m.take new).fill new (m.mem (frameOf (m.mem t j)))) r := take hrbit hclear _
    have hsame : ∀ g ∈ tables m.mem 3 r, ((m.take new).fill new (m.mem (frameOf (m.mem t j)))).mem g = m.mem g := by
      intro g hg
      exact mem_fill_of_ne _ (Pmm.bit_ne (ht.bits g hg) hclear)
    have hgrow := grow_take ht.pmm hlow hhigh hclear
    have htables := tables_congr hsame
    refine htake.trans (fun g hg => hgrow.bit_mono hg) ?_ (store (htables ▸ ht.nodup) hv ?_ rfl)
    · intro g _ hmem
      rwa [htables] at hmem
    · rw [slot_congr hsame hv le_rfl, hslot]

end Confined

/-- `vmm_copy_hierarchy` writes no entry of the topmost table that it reads, and gives the child the kernel's half. -/
theorem copyHierarchy_upper (kernPml4 : Nat) (hpre : CopyPre m 3 r) : (copyHierarchy kernPml4 3 r m).2.mem r = m.mem r ∧
    ((copyHierarchy kernPml4 3 r m).1 ≠ 0 → m.pmm.bitmap kernPml4 = true → kernPml4 ∉ tables m.mem 3 r →
      ∀ i, 256 ≤ i → i < 512 →
        (copyHierarchy kernPml4 3 r m).2.mem (copyHierarchy kernPml4 3 r m).1 i = m.mem kernPml4 i) := by
  rcases alloc_child hpre.tree with hfull | ⟨c, hc, hc0, -, hclear, hne, hgrow⟩
  · have hfail : copyHierarchy kernPml4 3 r m = (0, m) := by simp [copyHierarchy, hfull]
    rw [hfail]
    exact ⟨rfl, fun h => absurd rfl h⟩
  have hcopy : ∀ m t, CopyPre m 2 t → CopySpec m 2 t (copyHierarchy kernPml4 2 t m) := fun m t ht =>
    copyHierarchy_spec ht (by decide)
  have hloop := copyChildren_spec hcopy hpre (by decide) (zero_add _) (treeLoop_start hpre hne hclear hgrow)
  rw [← range_eq_range'] at hloop
  have hrun : copyHierarchy kernPml4 3 r m = finishCopy kernPml4 3 c
      (copyChildren (copyHierarchy kernPml4 2) 3 r c (List.range (limit 3)) ((m.take c).fill c fun _ => 0)) := by
    simp only [copyHierarchy, hc, if_neg hc0]
  generalize copyChildren (copyHierarchy kernPml4 2) 3 r c _ _ = res at hloop hrun
  obtain ⟨ok, m'⟩ := res
  rw [hrun]
  rcases hloop with ⟨hok, hdone⟩ | ⟨hok, -, htop⟩
  · obtain rfl : ok = true := hok
    refine ⟨(mem_fill_of_ne _ hne).trans hdone.top, fun _ hbit hnot i hlo hhi => ?_⟩
    have hkern : m'.mem kernPml4 = m.mem kernPml4 := hdone.keeps kernPml4 hbit hnot
    show (copyUpper kernPml4 c m').mem c i = _
    rw [copyUpper, mem_fill_self, if_pos ⟨hlo, hhi⟩, hkern]
  · obtain rfl : ok = false := hok
    exact ⟨htop, fun h => absurd rfl h⟩

theorem Confined.copy (hpre : CopyPre m 3 r) : Confined m (vmmCopyHierarchy m kernPml4 r).2 r := by
  have hspec : CopySpec m 3 r (copyHierarchy kernPml4 3 r m) := copyHierarchy_spec hpre le_rfl
  have hrow := (copyHierarchy_upper kernPml4 hpre).1
  refine ⟨?_, fun i _ => congrFun hrow i⟩
  rcases hspec with ⟨-, -, hok⟩ | ⟨-, hfail⟩
  · exact hok.keeps
  · exact hfail.keeps

theorem vmmNewPml4_mem (hok : m.pmm.Ok) (h : vmmNewPml4 m kernPml4 = (f, m')) (hf : f ≠ 0) :
    m.pmm.bitmap f = false ∧ (∀ g, g ≠ f → m'.mem g = m.mem g) ∧
      (kernPml4 ≠ f → ∀ i, 256 ≤ i → i < 512 → m'.mem f i = m.mem kernPml4 i) := by
  rw [vmmNewPml4] at h
  rcases pmmAllocFrame_cases hok with ⟨hfull, -⟩ | ⟨c, hc, hlow, -, hclear⟩
  · rw [hfull] at h
    exact absurd (congrArg Prod.fst h).symm hf
  rw [hc] at h
  simp only [if_neg (show c ≠ 0 by omega)] at h
  cases h
  refine ⟨hclear, fun g hg => ?_, fun hne i hlo hhi => ?_⟩
  · rw [copyUpper, mem_fill_of_ne _ hg, mem_fill_of_ne _ hg]
  · rw [copyUpper, mem_fill_self, if_pos ⟨hlo, hhi⟩, mem_fill_of_ne _ hne]

/-- The frames that were in use at the start, those of the kernel and the other topmost tables are out of reach. -/
theorem Inv.confined (hi : Inv base m kern (r :: rest)) (hc : Confined m m' r) :
    (∀ g, base g = true ∨ g ∈ kern → m'.mem g = m.mem g) ∧ ∀ r' ∈ rest, m'.mem r' = m.mem r' := by
  obtain ⟨-, -, hdisj⟩ := nodup_append'.mp hi.nodup
  constructor
  · rintro g (hbase | hg)
    · refine hc.keeps g (hi.boot g hbase) fun hmem => ?_
      have hfalse := (hi.owned g (mem_append_left _ (mem_allTables.mpr ⟨r, mem_cons_self, hmem⟩))).2.2
      exact Bool.false_ne_true (hfalse.symm.trans hbase)
    · exact hc.keeps g (hi.owned g (mem_append_right _ hg)).1.bit (hi.not_table hg)
  · intro r' hr'
    have hmem : r' ∈ allTables m.mem rest := mem_allTables.mpr ⟨r', hr', table_mem_tables⟩
    have hall := hi.nodup
    rw [allTables_cons, append_assoc, nodup_append'] at hall
    refine hc.keeps r' (hi.bit_table (mem_allTables.mpr ⟨r', mem_cons_of_mem _ hr', table_mem_tables⟩)) ?_
    exact fun hr => hall.2.2 hr (mem_append_left _ hmem)

end NyanOS.Memory
