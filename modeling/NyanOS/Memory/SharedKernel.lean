import NyanOS.Memory.AddressSpaces
import NyanOS.Memory.KernelMap
import NyanOS.Memory.UpperHalf

/-!
# The kernel's half over all address spaces

What holds between two operations: the topmost tables agree on the upper half, and the tables and frames behind the
kernel's window are none of those that belong to an address space. Here it is kept by what the kernel does.
-/
namespace NyanOS.Memory

open Lib List

variable {base used : Nat → Bool} {kern root curr v u f g r : Nat} {m m' m₁ m₂ : Machine} {mem mem' : Nat → Nat → Word}
  {roots objects win new K pages : List Nat} {S T : Set Nat}

/-- The pages `S` of the window are mapped to frames of `win`, through tables that were there at the start or are
frames of `win`. -/
structure WindowMap (base : Nat → Bool) (win : List Nat) (kern root : Nat) (mem : Nat → Nat → Word) (S : Set Nat) :
    Prop where
  entry : present (mem kern kernSlot) = true ∧ frameOf (mem kern kernSlot) = root
  nodup : (tables mem 2 root).Nodup
  owned : ∀ g ∈ tables mem 2 root, base g = true ∨ g ∈ win
  apart : kern ∉ tables mem 2 root
  sub : S ⊆ kernPages
  outside : ∀ v ∈ kernPages, v ∉ S → present (leaf mem 2 root v) = false
  inside : ∀ v ∈ S, ∃ f ∈ win, leaf mem 2 root v = mkPte f kernFlags ∧ f ∉ tables mem 2 root
  inj : ∀ v ∈ S, ∀ w ∈ S, frameOf (leaf mem 2 root v) = frameOf (leaf mem 2 root w) → v = w

namespace WindowMap

section
variable (h : WindowMap base win kern root mem S) (hkern : mem' kern = mem kern)
include h hkern

theorem congr (hsame : ∀ g ∈ tables mem 2 root, mem' g = mem g) (hwin : ∀ f ∈ win, f ∈ K) :
    WindowMap base K kern root mem' S := by
  have htables : tables mem' 2 root = tables mem 2 root := tables_congr hsame
  have hleaf : ∀ u, leaf mem' 2 root u = leaf mem 2 root u := fun u => leaf_congr hsame (idx_two u) (by decide)
  refine ⟨by rw [hkern]; exact h.entry, ?_, fun g hg => ?_, ?_, h.sub, ?_, fun v hv => ?_, ?_⟩
  · rw [htables]
    exact h.nodup
  · rw [htables] at hg
    exact (h.owned g hg).imp_right (hwin g)
  · rw [htables]
    exact h.apart
  · simp only [hleaf]
    exact h.outside
  · obtain ⟨f, hf, hl, hnot⟩ := h.inside v hv
    refine ⟨f, hwin f hf, (hleaf v).trans hl, ?_⟩
    rw [htables]
    exact hnot
  · simp only [hleaf]
    exact h.inj

theorem grow (htables : (tables mem' 2 root).Perm (new ++ tables mem 2 root))
    (hleaf : ∀ u, leaf mem' 2 root u = leaf mem 2 root u) (hnd : (tables mem' 2 root).Nodup)
    (hnew : ∀ g ∈ new, g ∉ win ∧ g ≠ kern) : WindowMap base (new ++ win) kern root mem' S := by
  have hcases : ∀ g, g ∈ tables mem' 2 root → g ∈ new ∨ g ∈ tables mem 2 root := fun g hg =>
    mem_append.mp (htables.mem_iff.mp hg)
  refine ⟨by rw [hkern]; exact h.entry, hnd, fun g hg => ?_, fun hk => ?_, h.sub, ?_, fun v hv => ?_, ?_⟩
  · rcases hcases g hg with hg | hg
    · exact .inr (mem_append_left _ hg)
    · exact (h.owned g hg).imp_right (mem_append_right _)
  · rcases hcases kern hk with hk | hk
    · exact (hnew kern hk).2 rfl
    · exact h.apart hk
  · simp only [hleaf]
    exact h.outside
  · obtain ⟨f, hf, hl, hnot⟩ := h.inside v hv
    refine ⟨f, mem_append_right _ hf, (hleaf v).trans hl, fun hmem => ?_⟩
    rcases hcases f hmem with hmem | hmem
    · exact (hnew f hmem).1 hf
    · exact hnot hmem
  · simp only [hleaf]
    exact h.inj

end

theorem of_kernMap (h : KernMap used kern root [] m S) (howned : ∀ g ∈ tables m.mem 2 root, base g = true ∨ g ∈ win)
    (hframed : ∀ v ∈ S, frameOf (leaf m.mem 2 root v) ∈ win) : WindowMap base win kern root m.mem S := by
  refine ⟨h.entry, h.tree.nodup, howned, (h.roots kern (.inl rfl)).2, h.sub, h.outside, fun v hv => ?_, h.inj⟩
  obtain ⟨f, hf, -, hlt, -, -, hnot⟩ := h.inside v hv
  have hin := hframed v hv
  rw [hf, frameOf_mkPte (h.frame_lt hlt) kernFlags_lt] at hin
  exact ⟨f, hin, hf, hnot⟩

end WindowMap

theorem set_self (m : Machine) (f i : Nat) : m.set f i (m.mem f i) = m := by
  rw [Machine.set, Function.update_eq_self, Function.update_eq_self]

/-- The invariant. The kernel holds the frames `objects` for shared memory, and `win` behind its window. -/
structure Halves (base : Nat → Bool) (kern root : Nat) (m : Machine) (roots objects win : List Nat) (S : Set Nat) :
    Prop where
  inv : Inv base m (objects ++ win) roots
  sharedIn : ∀ r ∈ roots, ∀ v < pageCount 3, present (leaf m.mem 3 r v) = true → shared (leaf m.mem 3 r v) = true →
    frameOf (leaf m.mem 3 r v) ∈ objects
  atStart : base kern = true
  here : ∀ i, 256 ≤ i → i < 512 → present (m.mem kern i) = true
  upper : ∀ r ∈ roots, ∀ i, 256 ≤ i → i < 512 → m.mem r i = m.mem kern i
  window : WindowMap base win kern root m.mem S

theorem Inv.elsewhere (hi : Inv base m K roots) (hg : Grow m.pmm m'.pmm new fun _ => 0)
    (hkeep : ∀ g ∈ allTables m.mem roots, m'.mem g = m.mem g) : Inv base m' (new ++ K) roots := by
  have hsame : ∀ r ∈ roots, ∀ g ∈ tables m.mem 3 r, m'.mem g = m.mem g := fun r hr g hmem =>
    hkeep g (mem_allTables.mpr ⟨r, hr, hmem⟩)
  refine hi.grow hg ?_ (fun g hmem => mem_append_right _ hmem) fun r hr v hv =>
    leaf_congr (hsame r hr) (tableIndex_lt_limit hv) le_rfl
  rw [allTables_congr fun r hr => tables_congr (hsame r hr)]
  exact perm_append_comm_assoc _ _ _

namespace Halves

section

variable (h : Halves base kern root m roots objects win S)
include h

theorem win_owned (hf : f ∈ win) : m.pmm.Allocated f ∧ m.pmm.refCounts f = 1 ∧ base f = false :=
  h.inv.owned f (mem_append_right _ (mem_append_right _ hf))

theorem table_bit (hg : g ∈ tables m.mem 2 root) : m.pmm.bitmap g = true :=
  (h.window.owned g hg).elim (h.inv.boot g) fun hwin => (h.win_owned hwin).1.bit

theorem treeOk : TreeOk m 2 root := ⟨h.inv.pmm, h.window.nodup, fun _ hg => h.table_bit hg⟩

theorem not_window (hg : g ∈ allTables m.mem roots) : base g = false ∧ g ∉ win ∧ g ∉ tables m.mem 2 root := by
  have hbase := (h.inv.owned g (mem_append_left _ hg)).2.2
  have hwin : g ∉ win := fun hmem =>
    (nodup_append'.mp h.inv.nodup).2.2 hg (mem_append_right _ hmem)
  refine ⟨hbase, hwin, fun hmem => ?_⟩
  rcases h.window.owned g hmem with hb | hw
  · exact Bool.false_ne_true (hbase.symm.trans hb)
  · exact hwin hw

end

theorem root_table (hr : r ∈ roots) : r ∈ allTables m.mem roots :=
  mem_allTables.mpr ⟨r, hr, table_mem_tables⟩

section
variable (h : Halves base kern root m roots objects win S)
include h

theorem frame_win (hv : v ∈ S) :
    ∃ f ∈ win, leaf m.mem 2 root v = mkPte f kernFlags ∧ frameOf (leaf m.mem 2 root v) = f ∧ f ∉ tables m.mem 2 root := by
  obtain ⟨f, hf, hl, hnot⟩ := h.window.inside v hv
  have hlt := lt_of_lt_of_le (h.win_owned hf).1.high h.inv.pmm.total
  refine ⟨f, hf, hl, ?_, hnot⟩
  rw [hl, frameOf_mkPte hlt kernFlags_lt]

theorem kernMap : ∃ used, KernMap used kern root [] m S := by
  classical
  refine ⟨fun g => decide (m.pmm.bitmap g = true ∧ g ∉ tables m.mem 2 root ∧
    ∀ v ∈ S, frameOf (leaf m.mem 2 root v) ≠ g), h.window.entry, h.treeOk, ?_, h.window.sub, h.window.outside,
    fun v hv => ?_, h.window.inj, fun g => ?_⟩
  · rintro c (rfl | hc)
    · refine ⟨decide_eq_true ⟨h.inv.boot c h.atStart, h.window.apart, fun v hv heq => ?_⟩, h.window.apart⟩
      obtain ⟨f, hf, -, hframe, -⟩ := h.frame_win hv
      have hbase := (h.win_owned hf).2.2
      rw [← hframe, heq] at hbase
      exact Bool.false_ne_true (hbase.symm.trans h.atStart)
    · exact absurd hc not_mem_nil
  · obtain ⟨f, hf, hl, hframe, hnot⟩ := h.frame_win hv
    obtain ⟨ha, href, -⟩ := h.win_owned hf
    exact ⟨f, hl, ha.low, ha.high, href, decide_eq_false fun hc => hc.2.2 v hv hframe, hnot⟩
  · constructor
    · intro hbit
      by_cases htab : g ∈ tables m.mem 2 root
      · exact .inr (.inl htab)
      by_cases hmap : ∃ v ∈ S, frameOf (leaf m.mem 2 root v) = g
      · exact .inr (.inr hmap)
      · exact .inl (decide_eq_true ⟨hbit, htab, fun v hv heq => hmap ⟨v, hv, heq⟩⟩)
    · rintro (hused | htab | ⟨v, hv, rfl⟩)
      · exact (of_decide_eq_true hused).1
      · exact h.table_bit htab
      · obtain ⟨f, hf, -, hframe, -⟩ := h.frame_win hv
        rw [hframe]
        exact (h.win_owned hf).1.bit

theorem kernel (hi : Inv base m' (objects ++ K) roots)
    (hkeep : ∀ g, m.pmm.bitmap g = true → g ∉ tables m.mem 2 root → m'.mem g = m.mem g)
    (hw : WindowMap base K kern root m'.mem T) : Halves base kern root m' roots objects K T := by
  have hkern : m'.mem kern = m.mem kern := hkeep kern (h.inv.boot kern h.atStart) h.window.apart
  have htab : ∀ g ∈ allTables m.mem roots, m'.mem g = m.mem g := fun g hg =>
    hkeep g (h.inv.owned g (mem_append_left _ hg)).1.bit (h.not_window hg).2.2
  refine ⟨hi, fun r hr v hv => ?_, h.atStart, ?_, fun r hr => ?_, hw⟩
  · rw [leaf_congr (fun g hg => htab g (mem_allTables.mpr ⟨r, hr, hg⟩)) (tableIndex_lt_limit hv) le_rfl]
    exact h.sharedIn r hr v hv
  · rw [hkern]
    exact h.here
  · rw [hkern, htab r (root_table hr)]
    exact h.upper r hr

end

/-- A frame is taken for a page and the walk adds tables; afterwards only tables of the window are written. -/
theorem walked (h : Halves base kern root m roots objects win S)
    (hgrow : Grow m.pmm (m.pmm.take f) [f] fun _ => 0) (hspec : WalkSpec (m.take f) m₂ 2 root new)
    (hpmm : m'.pmm = m₂.pmm) (hkeep : ∀ g, g ∉ tables m₂.mem 2 root → m'.mem g = m₂.mem g) :
    Inv base m' (objects ++ (new ++ f :: win)) roots ∧
      ∀ g, m.pmm.bitmap g = true → g ∉ tables m.mem 2 root → m'.mem g = m.mem g := by
  have hold : ∀ g, m.pmm.bitmap g = true → g ∉ tables m.mem 2 root → m'.mem g = m.mem g := by
    intro g hbit hnot
    have hbit' := hgrow.bit_mono hbit
    rw [hkeep g fun hmem => ?_, hspec.keeps g hbit' hnot]
    exact (mem_append.mp (hspec.tables.mem_iff.mp hmem)).elim (hspec.grow.not_new hbit') hnot
  have htaken : Inv base (m.take f) ([f] ++ (objects ++ win)) roots := h.inv.elsewhere hgrow fun _ _ => rfl
  have hinv : Inv base m' (new ++ ([f] ++ (objects ++ win))) roots := by
    refine htaken.elsewhere (hpmm ▸ hspec.grow) fun g hg => ?_
    exact hold g (h.inv.owned g (mem_append_left _ hg)).1.bit (h.not_window hg).2.2
  refine ⟨hinv.perm (List.Perm.refl _) ?_, hold⟩
  calc new ++ ([f] ++ (objects ++ win))
      _ = (new ++ [f]) ++ (objects ++ win) := (append_assoc _ _ _).symm
      _ |>.Perm (objects ++ ((new ++ [f]) ++ win)) := perm_append_comm_assoc _ _ _
      _ = objects ++ (new ++ f :: win) := by rw [append_assoc new]; rfl

/-- A turn of the loop of `vmm_alloc_global`: the page is mapped to the frame taken, or the frame is lost for want of
a table. -/
theorem turn {p : Pmm} {mapped : Bool} (h : Halves base kern root m roots objects win S) (hv : v ∈ kernPages)
    (hS : v ∉ S) (halloc : pmmAllocFrame m.pmm = (f, p)) (hf : f ≠ 0)
    (hmap : vmmMapPage { m with pmm := p } kern v f kernFlags = (mapped, m')) :
    ∃ win' T, Halves base kern root m' roots objects win' T ∧ S ⊆ T ∧ T ⊆ insert v S := by
  obtain ⟨used, hk⟩ := h.kernMap
  obtain ⟨rfl, hlow, hhigh, hclear⟩ := pmmAllocFrame_eq h.inv.pmm halloc hf
  have hgrow := grow_take h.inv.pmm hlow hhigh hclear
  have ht : TreeOk (m.take f) 2 root := ⟨hgrow.ok, h.window.nodup, fun g hg => hgrow.bit_mono (h.table_bit hg)⟩
  cases mapped with
  | true =>
    obtain ⟨new, m₂, hspec, hpmm, htables, hleaf, hkeep⟩ := hk.map_cases hv hS (m.take f) rfl ht hmap
    obtain ⟨hinv, hold⟩ := h.walked hgrow hspec hpmm hkeep
    have hk' := hk.map hv hS halloc hf hmap
    refine ⟨_, _, h.kernel hinv hold (.of_kernMap hk' (fun g hg => ?_) fun u hu => ?_), Set.subset_insert v S, le_rfl⟩
    · rw [htables, hspec.tables.mem_iff, mem_append] at hg
      rcases hg with hg | hg
      · exact .inr (mem_append_left _ hg)
      · exact (h.window.owned g hg).imp_right fun hwin => mem_append_right _ (mem_cons_of_mem f hwin)
    · rw [hleaf u (hk'.sub hu)]
      split
      · rw [frameOf_mkPte (lt_of_lt_of_le hhigh h.inv.pmm.total) kernFlags_lt]
        exact mem_append_right _ mem_cons_self
      next hne =>
      obtain ⟨f', hf', -, hframe, -⟩ := h.frame_win (Set.mem_of_mem_insert_of_ne hu hne)
      rw [hframe]
      exact mem_append_right _ (mem_cons_of_mem f hf')
  | false =>
    obtain ⟨new, hspec, -⟩ := walkToPte_spec ht (by decide) (idx_two v)
    have hm' : m' = (walkToPte true 2 root v (m.take f)).2 := by
      have hmem : (m.take f).mem = m.mem := rfl
      rw [vmmMapPage, hk.walk hv hmem true] at hmap
      generalize walkToPte true 2 root v (m.take f) = res at hmap
      obtain ⟨place, m₂⟩ := res
      cases place with
      | none => exact (congrArg Prod.snd hmap).symm
      | some place => exact absurd (congrArg Prod.fst hmap) (by simp)
    rw [← hm'] at hspec
    obtain ⟨hinv, hold⟩ := h.walked hgrow hspec rfl fun _ _ => rfl
    have hclear' : ∀ g ∈ new, g ∉ f :: win ∧ g ≠ kern := by
      intro g hg
      have hbit := (hspec.grow.fresh g hg).2.2
      have hin : ∀ g', m.pmm.bitmap g' = true → g ≠ g' := fun g' hg' => (Pmm.bit_ne (hgrow.bit_mono hg') hbit).symm
      refine ⟨fun hmem => ?_, hin kern (h.inv.boot kern h.atStart)⟩
      rcases mem_cons.mp hmem with rfl | hwin
      · exact Bool.false_ne_true (hbit.symm.trans (hgrow.bit_new mem_cons_self))
      · exact hin g (h.win_owned hwin).1.bit rfl
    have hwin : WindowMap base (f :: win) kern root m.mem S :=
      h.window.congr rfl (fun _ _ => rfl) fun g hg => mem_cons_of_mem f hg
    have hgrown := hwin.grow (hold kern (h.inv.boot kern h.atStart) h.window.apart) hspec.tables
      (fun u => hspec.leaf u (idx_two u)) (hspec.treeOk ht).nodup hclear'
    exact ⟨_, _, h.kernel hinv hold hgrown, le_rfl, Set.subset_insert v S⟩

/-! Pages given back -/

section

variable (h : Halves base kern root m roots objects win S)
include h

theorem unshared (hf : f ∈ win) (hkeep : ∀ g ∈ allTables m.mem roots, m'.mem g = m.mem g) : Unshared m' roots f := by
  intro r hr v hv hp hs heq
  have hleaf : leaf m'.mem 3 r v = leaf m.mem 3 r v :=
    leaf_congr (fun g hg => hkeep g (mem_allTables.mpr ⟨r, hr, hg⟩)) (tableIndex_lt_limit hv) le_rfl
  rw [hleaf] at hp hs heq
  have hobj := h.sharedIn r hr v hv hp hs
  rw [heq] at hobj
  have hnd := (nodup_append'.mp h.inv.nodup).2.1
  exact (nodup_append'.mp hnd).2.2 hobj hf

theorem tables_kept
    (hkeep : ∀ g, g ∉ tables m.mem 2 root → m'.mem g = m.mem g) : ∀ g ∈ allTables m.mem roots, m'.mem g = m.mem g :=
  fun g hg => hkeep g (h.not_window hg).2.2

theorem drop (hv : v ∈ S) : ∃ win', Halves base kern root (unmapOne kern false m v) roots objects win' (S \ {v}) := by
  obtain ⟨used, hk⟩ := h.kernMap
  obtain ⟨hpmm, htables, hleaf, hkeep⟩ := hk.unmap_cases hv
  obtain ⟨f, hf, -, hframe, hnot⟩ := h.frame_win hv
  have hk' := hk.unmap hv
  have hrun := hk.unmapOne_eq hv
  rw [hframe] at hrun
  have hkept := h.tables_kept hkeep
  have hcleared : Inv base (vmmUnmapPage m kern v) ([] ++ (objects ++ win)) roots := by
    refine h.inv.elsewhere ?_ hkept
    rw [hpmm]
    exact Grow.refl h.inv.pmm
  have hperm : (objects ++ win).Perm (f :: (objects ++ win.erase f)) :=
    ((perm_cons_erase hf).append_left objects).trans perm_middle
  have hgiven := (hcleared.perm (List.Perm.refl _) hperm).give (h.unshared hf hkept)
  rw [hpmm, ← hrun] at hgiven
  have hmem : (unmapOne kern false m v).mem = (vmmUnmapPage m kern v).mem := by rw [hrun]
  refine ⟨win.erase f, h.kernel hgiven (fun g _ hg => ?_) (.of_kernMap hk' (fun g hg => ?_) fun u hu => ?_)⟩
  · rw [hmem]
    exact hkeep g hg
  · rw [hmem, htables] at hg
    have hne : g ≠ f := by
      rintro rfl
      exact hnot hg
    exact (h.window.owned g hg).imp_right fun hwin => (mem_erase_of_ne hne).mpr hwin
  · obtain ⟨f', hf', -, hframe', -⟩ := h.frame_win hu.1
    have hne : f' ≠ f := by
      rintro rfl
      exact hu.2 (h.window.inj u hu.1 v hv (hframe'.trans hframe.symm))
    have hother : u ≠ v := hu.2
    rw [hmem, hleaf u (h.window.sub hu.1), if_neg hother, hframe']
    exact (mem_erase_of_ne hne).mpr hf'

section
variable (hv : v ∈ kernPages)
include hv

theorem not_mapped (hS : v ∉ S) : vmmVirt2Phys m kern v = none := by
  obtain ⟨used, hk⟩ := h.kernMap
  rw [vmmVirt2Phys_eq, hk.leaf_eq hv, h.window.outside v hv hS]
  rfl

theorem unmapAbsent (hS : v ∉ S) : Halves base kern root (vmmUnmapPage m kern v) roots objects win S := by
  obtain ⟨used, hk⟩ := h.kernMap
  have hwalk : vmmWalkToPte m kern v false = (slot m.mem 2 root v, m) := (hk.walk hv rfl false).trans walkToPte_false
  rw [vmmUnmapPage, hwalk]
  cases hslot : slot m.mem 2 root v with
  | none => exact h
  | some place =>
    obtain ⟨t, i⟩ := place
    have ht : t ∈ tables m.mem 2 root := slot_mem_tables hslot (by decide) (idx_two v)
    have hkeep : ∀ g, g ∉ tables m.mem 2 root → (m.set t i 0).mem g = m.mem g := by
      intro g hg
      apply mem_set_of_ne
      rintro rfl
      exact hg ht
    have htables : tables (m.set t i 0).mem 2 root = tables m.mem 2 root :=
      tables_set_slot h.window.nodup (by decide) (idx_two v) hslot
    have hleaf : ∀ u ∈ kernPages, leaf (m.set t i 0).mem 2 root u = if u = v then 0 else leaf m.mem 2 root u := by
      intro u hu
      rw [leaf_set_slot h.window.nodup (by decide) (idx_two v) (idx_two u) hslot]
      simp only [samePath_kernPages hu hv]
    have hinside : ∀ u ∈ S, leaf (m.set t i 0).mem 2 root u = leaf m.mem 2 root u := by
      intro u hu
      rw [hleaf u (h.window.sub hu), if_neg]
      rintro rfl
      exact hS hu
    have hinv : Inv base (m.set t i 0) ([] ++ (objects ++ win)) roots := by
      refine h.inv.elsewhere ?_ ?_
      · exact Grow.refl h.inv.pmm
      · exact h.tables_kept hkeep
    refine h.kernel hinv (fun g _ => hkeep g) ?_
    refine ⟨?_, ?_, ?_, ?_, h.window.sub, fun u hu hnot => ?_, fun u hu => ?_, fun u hu w hw => ?_⟩
    · rw [hkeep kern h.window.apart]
      exact h.window.entry
    · rw [htables]
      exact h.window.nodup
    · rw [htables]
      exact h.window.owned
    · rw [htables]
      exact h.window.apart
    · rw [hleaf u hu]
      split
      · rfl
      · exact h.window.outside u hu hnot
    · rw [hinside u hu, htables]
      exact h.window.inside u hu
    · rw [hinside u hu, hinside w hw]
      exact h.window.inj u hu w hw

theorem freeTurn : ∃ win', Halves base kern root (unmapOne kern false m v) roots objects win' (S \ {v}) := by
  by_cases hS : v ∈ S
  · exact h.drop hS
  · rw [unmapOne, h.not_mapped hv hS, Set.sdiff_singleton_eq_self hS]
    exact ⟨win, h⟩

theorem rollTurn : ∃ win', Halves base kern root (rollBack kern m v) roots objects win' (S \ {v}) := by
  by_cases hS : v ∈ S
  · have heq : rollBack kern m v = unmapOne kern false m v := by
      obtain ⟨used, hk⟩ := h.kernMap
      obtain ⟨f, hf, -, hframe, -⟩ := h.frame_win hS
      have hlow := (h.win_owned hf).1.low
      have hphys : vmmVirt2Phys m kern v = some f := by
        obtain ⟨f', -, hl, hframe', -⟩ := h.frame_win hS
        rw [vmmVirt2Phys_eq, hk.leaf_eq hv, hframe, hl, present_mkPte, if_pos rfl]
      obtain ⟨k, rfl⟩ := Nat.exists_eq_succ_of_ne_zero (show f ≠ 0 by omega)
      rw [rollBack, unmapOne, hphys]
      rfl
    rw [heq]
    exact h.drop hS
  · rw [rollBack, h.not_mapped hv hS, Set.sdiff_singleton_eq_self hS]
    exact ⟨win, h.unmapAbsent hv hS⟩

end

end

theorem unmapLoop {turn : Machine → Nat → Machine}
    (hturn : ∀ {m win S v}, Halves base kern root m roots objects win S → v ∈ kernPages →
      ∃ win', Halves base kern root (turn m v) roots objects win' (S \ {v}))
    (h : Halves base kern root m roots objects win S) (hpages : ∀ v ∈ pages, v ∈ kernPages) :
    ∃ win', Halves base kern root (pages.foldl turn m) roots objects win' (S \ {v | v ∈ pages}) := by
  induction pages generalizing m win S with
  | nil =>
    refine ⟨win, ?_⟩
    simpa using h
  | cons v pages ih =>
    obtain ⟨hv, hrest⟩ := forall_mem_cons.mp hpages
    obtain ⟨win', h'⟩ := hturn h hv
    have hset : S \ {u | u ∈ v :: pages} = (S \ {v}) \ {u | u ∈ pages} := by
      ext u
      simp only [Set.mem_sdiff, Set.mem_ofPred_eq, mem_cons, Set.mem_singleton_iff]
      tauto
    rw [hset]
    exact ih h' hrest

/-! The loop of `vmm_alloc_global` -/

theorem sync (h : Halves base kern root m roots objects win S) (hc : curr = kern ∨ curr ∈ roots) (hv : v ∈ kernPages) :
    syncEntry kern curr v m = m := by
  rw [syncEntry]
  split
  · next hne =>
    have hidx := tableIndex_kernPages hv
    have hword := h.upper curr (hc.resolve_left hne) (tableIndex 3 v) (by rw [hidx]; decide) (by rw [hidx]; decide)
    rw [← hword, set_self]
  · rfl

theorem mapLoop (h : Halves base kern root m roots objects win S) (hc : curr = kern ∨ curr ∈ roots)
    (hnd : pages.Nodup) (hpages : ∀ v ∈ pages, v ∈ kernPages ∧ v ∉ S) :
    ∃ win' T, Halves base kern root (allocLoop kern curr pages m).2 roots objects win' T ∧ S ⊆ T ∧
      T ⊆ S ∪ {v | v ∈ pages.take (allocLoop kern curr pages m).1.length} := by
  induction pages generalizing m win S with
  | nil => exact ⟨win, S, h, le_rfl, Set.subset_union_left⟩
  | cons v pages ih =>
    obtain ⟨hv, hnd⟩ := nodup_cons.mp hnd
    obtain ⟨⟨hpage, hS⟩, hrest⟩ := forall_mem_cons.mp hpages
    rw [allocLoop]
    generalize halloc : pmmAllocFrame m.pmm = res
    obtain ⟨f, p⟩ := res
    by_cases hf : f = 0
    · have hfull : p = m.pmm := by
        rcases pmmAllocFrame_cases h.inv.pmm with ⟨hfull, -⟩ | ⟨g, hg, hlow, -⟩
        · exact congrArg Prod.snd (halloc.symm.trans hfull)
        have hzero := congrArg Prod.fst (halloc.symm.trans hg)
        dsimp only at hzero
        omega
      simp only [if_pos hf, hfull]
      exact ⟨win, S, h, le_rfl, Set.subset_union_left⟩
    simp only [if_neg hf]
    generalize hmap : vmmMapPage { m with pmm := p } kern v f kernFlags = res
    obtain ⟨mapped, m'⟩ := res
    dsimp only
    obtain ⟨win', S', h', hsub, hsub'⟩ := h.turn hpage hS halloc hf hmap
    rw [h'.sync hc hpage]
    have hpages' : ∀ u ∈ pages, u ∈ kernPages ∧ u ∉ S' := by
      refine fun u hu => ⟨(hrest u hu).1, fun hmem => ?_⟩
      rcases hsub' hmem with rfl | hmem
      · exact hv hu
      · exact (hrest u hu).2 hmem
    obtain ⟨win'', T, hT, hST, hTS⟩ := ih h' hnd hpages'
    refine ⟨win'', T, hT, hsub.trans hST, fun u hu => ?_⟩
    rw [length_cons, take_succ_cons]
    rcases hTS hu with hmem | hmem
    · rcases hsub' hmem with rfl | hmem
      · exact .inr mem_cons_self
      · exact .inl hmem
    · exact .inr (mem_cons_of_mem v hmem)

end Halves

end NyanOS.Memory
