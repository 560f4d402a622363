import NyanOS.Memory.KernelSpace
import NyanOS.Memory.Walk

/-!
# The page tables behind the kernel's window

All pages of the window go through one entry of the PML4, which is there when the kernel starts. Below it the
tree of tables grows and shrinks by the frames of the pages that are mapped.
-/
namespace NyanOS.Memory

open Lib List Set

/-- The page numbers of the window. -/
def kernPages : Set Nat := Set.Ico (kernHeapStart / pageSize) ((kernHeapStart + kernHeapSize) / pageSize)

/-- The entry of the PML4 that the pages of the window go through. -/
def kernSlot : Nat := 511

variable {used : Nat → Bool} {kern root curr v u f c i : Nat} {pml4s pages : List Nat} {m m' : Machine} {S : Set Nat}

theorem tableIndex_kernPages (hv : v ∈ kernPages) : tableIndex 3 v = kernSlot := by
  obtain ⟨hlo, hhi⟩ := hv
  simp only [kernHeapStart, kernHeapSize, pageSize] at hlo hhi
  simp only [tableIndex, kernSlot]
  omega

theorem samePath_kernPages (hu : u ∈ kernPages) (hv : v ∈ kernPages) : SamePath 2 u v ↔ u = v := by
  obtain ⟨hlo, hhi⟩ := hv
  obtain ⟨hlo', hhi'⟩ := hu
  simp only [kernHeapStart, kernHeapSize, pageSize] at hlo hhi hlo' hhi'
  simp only [SamePath]
  omega

/-- The pages `S` of the window are mapped, each to a frame of its own; `used` are the frames in use before. -/
structure KernMap (used : Nat → Bool) (kern root : Nat) (pml4s : List Nat) (m : Machine) (S : Set Nat) : Prop where
  entry : present (m.mem kern kernSlot) = true ∧ frameOf (m.mem kern kernSlot) = root
  tree : TreeOk m 2 root
  roots : ∀ c, c = kern ∨ c ∈ pml4s → used c = true ∧ c ∉ tables m.mem 2 root
  sub : S ⊆ kernPages
  outside : ∀ v ∈ kernPages, v ∉ S → present (leaf m.mem 2 root v) = false
  inside : ∀ v ∈ S, ∃ f, leaf m.mem 2 root v = mkPte f kernFlags ∧ 256 ≤ f ∧ f < m.pmm.totalPages ∧
    m.pmm.refCounts f = 1 ∧ used f = false ∧ f ∉ tables m.mem 2 root
  inj : ∀ v ∈ S, ∀ w ∈ S, frameOf (leaf m.mem 2 root v) = frameOf (leaf m.mem 2 root w) → v = w
  bits : ∀ f, m.pmm.bitmap f = true ↔
    used f = true ∨ f ∈ tables m.mem 2 root ∨ ∃ v ∈ S, frameOf (leaf m.mem 2 root v) = f

theorem kernFlags_lt : kernFlags.toNat < 2 ^ 12 := by decide

theorem idx_two (v : Nat) : tableIndex 2 v < limit 2 := tableIndex_lt_limit_of_lt (by decide)

namespace KernMap

section
variable (h : KernMap used kern root pml4s m S)
include h

theorem walk (hv : v ∈ kernPages) (hmem : m'.mem = m.mem) (create : Bool) :
    vmmWalkToPte m' kern v create = walkToPte create 2 root v m' := by
  rw [vmmWalkToPte, walkToPte, tableIndex_kernPages hv]
  simp only [hmem, h.entry.1, h.entry.2, if_true]

theorem leaf_eq (hv : v ∈ kernPages) : leaf m.mem 3 kern v = leaf m.mem 2 root v := by
  rw [leaf, tableIndex_kernPages hv]
  simp only [h.entry.1, h.entry.2, if_true]

theorem frame_lt (hf : f < m.pmm.totalPages) : f < 2 ^ 52 := lt_of_lt_of_le hf h.tree.pmm.total

end

theorem setRoot {w : Word} (h : KernMap used kern root pml4s m S) (hc : c ∈ pml4s) (hne : c ≠ kern) :
    KernMap used kern root pml4s (m.set c i w) S := by
  have hout : ∀ g ∈ tables m.mem 2 root, (m.set c i w).mem g = m.mem g := by
    intro g hg
    refine mem_set_of_ne ?_
    rintro rfl
    exact (h.roots g (.inr hc)).2 hg
  have htables : tables (m.set c i w).mem 2 root = tables m.mem 2 root := tables_congr hout
  have hleaf : ∀ u, leaf (m.set c i w).mem 2 root u = leaf m.mem 2 root u := fun u =>
    leaf_congr hout (idx_two u) (by decide)
  refine ⟨?_, ⟨h.tree.pmm, ?_, ?_⟩, ?_, h.sub, ?_, ?_, ?_, ?_⟩
  · rw [mem_set_of_ne (Ne.symm hne)]
    exact h.entry
  · rw [htables]
    exact h.tree.nodup
  · rw [htables]
    exact h.tree.bits
  · rw [htables]
    exact h.roots
  · simp only [hleaf]
    exact h.outside
  · simp only [hleaf, htables]
    exact h.inside
  · simp only [hleaf]
    exact h.inj
  · simp only [hleaf, htables]
    exact h.bits

/-- `vmm_map_page` of a page of the window that is not mapped: the tables that were missing, then the entry. -/
theorem map_cases (h : KernMap used kern root pml4s m S) (hv : v ∈ kernPages) (hS : v ∉ S)
    (m₁ : Machine) (hmem : m₁.mem = m.mem) (ht : TreeOk m₁ 2 root)
    (hmap : vmmMapPage m₁ kern v f kernFlags = (true, m')) :
    ∃ new m₂, WalkSpec m₁ m₂ 2 root new ∧ m'.pmm = m₂.pmm ∧ tables m'.mem 2 root = tables m₂.mem 2 root ∧
      (∀ u ∈ kernPages, leaf m'.mem 2 root u = if u = v then mkPte f kernFlags else leaf m.mem 2 root u) ∧
      ∀ g, g ∉ tables m₂.mem 2 root → m'.mem g = m₂.mem g := by
  obtain ⟨new, hspec, hslot, -⟩ := walkToPte_spec ht (by decide) (idx_two v)
  rw [vmmMapPage, h.walk hv hmem true] at hmap
  generalize walkToPte true 2 root v m₁ = r at hspec hslot hmap
  obtain ⟨place, m₂⟩ := r
  cases place with
  | none => exact absurd (congrArg Prod.fst hmap) Bool.false_ne_true
  | some place =>
    obtain ⟨t, i⟩ := place
    have hold : present (m₂.mem t i) = false := by
      rw [← leaf_of_slot hslot.symm, hspec.leaf v (idx_two v), hmem]
      exact h.outside v hv hS
    have hset : m' = m₂.set t i (mkPte f kernFlags) := by
      have hsnd : _ = m' := congrArg Prod.snd hmap
      rw [← hsnd]
      simp only [hold, Bool.false_eq_true, false_and, if_false]
    have hnodup := (hspec.treeOk ht).nodup
    refine ⟨new, m₂, hspec, ?_, ?_, fun u hu => ?_, fun g hg => ?_⟩ <;> rw [hset]
    · rfl
    · exact tables_set_slot hnodup (by decide) (idx_two v) hslot.symm
    · rw [leaf_set_slot hnodup (by decide) (idx_two v) (idx_two u) hslot.symm, hspec.leaf u (idx_two u), hmem]
      simp only [samePath_kernPages hu hv]
    · refine mem_set_of_ne ?_
      rintro rfl
      exact hg (slot_mem_tables hslot.symm (by decide) (idx_two v))

theorem map {p : Pmm} (h : KernMap used kern root pml4s m S) (hv : v ∈ kernPages) (hS : v ∉ S)
    (halloc : pmmAllocFrame m.pmm = (f, p)) (hf : f ≠ 0)
    (hmap : vmmMapPage { m with pmm := p } kern v f kernFlags = (true, m')) :
    KernMap used kern root pml4s m' (insert v S) := by
  obtain ⟨rfl, hlow, hhigh, hclear⟩ := pmmAllocFrame_eq h.tree.pmm halloc hf
  have hgrow := grow_take h.tree.pmm hlow hhigh hclear
  have ht : TreeOk (m.take f) 2 root := ⟨hgrow.ok, h.tree.nodup, fun g hg => hgrow.bit_mono (h.tree.bits g hg)⟩
  obtain ⟨new, m₂, hspec, hpmm, htables, hleaf, hkeep⟩ := h.map_cases hv hS (m.take f) rfl ht hmap
  have hperm : ∀ g, g ∈ tables m'.mem 2 root ↔ g ∈ new ∨ g ∈ tables m.mem 2 root := by
    intro g
    rw [htables, hspec.tables.mem_iff, mem_append]
  have hbit : ∀ g, m'.pmm.bitmap g = true ↔ g = f ∨ m.pmm.bitmap g = true ∨ g ∈ new := by
    intro g
    rw [hpmm, hspec.grow.bitmap g]
    by_cases hgf : g = f <;> simp [hgf]
  -- a frame in use before is none of the new ones
  have hold : ∀ g, m.pmm.bitmap g = true → g ≠ f ∧ g ∉ new := by
    intro g hg
    exact ⟨Pmm.bit_ne hg hclear, hspec.grow.not_new (hgrow.bit_mono hg)⟩
  have hfree : used f = false ∧ f ∉ tables m'.mem 2 root ∧ ∀ u ∈ S, frameOf (leaf m.mem 2 root u) ≠ f := by
    have hnot : ¬ m.pmm.bitmap f = true := by rw [hclear]; exact Bool.false_ne_true
    rw [h.bits f, not_or, not_or] at hnot
    refine ⟨Bool.eq_false_iff.mpr hnot.1, fun hmem => ?_, fun u hu heq => hnot.2.2 ⟨u, hu, heq⟩⟩
    rcases (hperm f).mp hmem with hnew | hmem
    · exact hspec.grow.not_new (hgrow.bit_new mem_cons_self) hnew
    · exact hnot.2.1 hmem
  have hleafS : ∀ u ∈ S, leaf m'.mem 2 root u = leaf m.mem 2 root u := by
    intro u hu
    rw [hleaf u (h.sub hu), if_neg]
    rintro rfl
    exact hS hu
  have hleafV : leaf m'.mem 2 root v = mkPte f kernFlags := by rw [hleaf v hv, if_pos rfl]
  have hframe : frameOf (leaf m'.mem 2 root v) = f := by
    rw [hleafV, frameOf_mkPte (h.frame_lt hhigh) kernFlags_lt]
  have hroots : ∀ c, c = kern ∨ c ∈ pml4s → c ∉ tables m'.mem 2 root := by
    intro c hc hmem
    obtain ⟨hused, hout⟩ := h.roots c hc
    rcases (hperm c).mp hmem with hnew | hmem
    · exact (hold c ((h.bits c).mpr (.inl hused))).2 hnew
    · exact hout hmem
  have hkern : m'.mem kern = m.mem kern := by
    have hused := (h.roots kern (.inl rfl)).1
    rw [hkeep kern (by rw [← htables]; exact hroots kern (.inl rfl))]
    exact hspec.keeps kern (hgrow.bit_mono ((h.bits kern).mpr (.inl hused))) (h.roots kern (.inl rfl)).2
  refine ⟨by rw [hkern]; exact h.entry, ⟨?_, ?_, ?_⟩, fun c hc => ⟨(h.roots c hc).1, hroots c hc⟩,
    insert_subset hv h.sub, fun u hu hnot => ?_, ?_, ?_, fun g => ?_⟩
  · rw [hpmm]
    exact hspec.grow.ok
  · rw [htables]
    exact (hspec.treeOk ht).nodup
  · rw [htables, hpmm]
    exact (hspec.treeOk ht).bits
  · rw [hleaf u hu, if_neg fun he => hnot (.inl he)]
    exact h.outside u hu fun hu' => hnot (.inr hu')
  · rintro u (rfl | hu)
    · refine ⟨f, hleafV, hlow, ?_, ?_, hfree.1, hfree.2.1⟩
      · rw [hpmm, hspec.grow.total]
        exact hhigh
      · rw [hpmm, hspec.grow.refs, if_neg (hspec.grow.not_new (hgrow.bit_new mem_cons_self))]
        simp
    · obtain ⟨g, hg, hglow, hghigh, hgref, hgused, hgtab⟩ := h.inside u hu
      have hgbit : m.pmm.bitmap g = true := by
        refine (h.bits g).mpr (.inr (.inr ⟨u, hu, ?_⟩))
        rw [hg, frameOf_mkPte (h.frame_lt hghigh) kernFlags_lt]
      obtain ⟨hgf, hgnew⟩ := hold g hgbit
      refine ⟨g, (hleafS u hu).trans hg, hglow, ?_, ?_, hgused, fun hmem => ((hperm g).mp hmem).elim hgnew hgtab⟩
      · rw [hpmm, hspec.grow.total]
        exact hghigh
      · rw [hpmm, hspec.grow.refs, if_neg hgnew]
        simpa [hgf] using hgref
  · rintro u (rfl | hu) w (rfl | hw) heq
    · rfl
    · rw [hframe, hleafS w hw] at heq
      exact absurd heq.symm (hfree.2.2 w hw)
    · rw [hframe, hleafS u hu] at heq
      exact absurd heq (hfree.2.2 u hu)
    · rw [hleafS u hu, hleafS w hw] at heq
      exact h.inj u hu w hw heq
  · rw [hbit, h.bits, hperm]
    constructor
    · rintro (rfl | (hused | htab | ⟨u, hu, heq⟩) | hnew)
      · exact .inr (.inr ⟨v, .inl rfl, hframe⟩)
      · exact .inl hused
      · exact .inr (.inl (.inr htab))
      · exact .inr (.inr ⟨u, .inr hu, (congrArg frameOf (hleafS u hu)).trans heq⟩)
      · exact .inr (.inl (.inl hnew))
    · rintro (hused | (hnew | htab) | ⟨u, rfl | hu, heq⟩)
      · exact .inr (.inl (.inl hused))
      · exact .inr (.inr hnew)
      · exact .inr (.inl (.inr (.inl htab)))
      · exact .inl (heq.symm.trans hframe)
      · exact .inr (.inl (.inr (.inr ⟨u, hu, (congrArg frameOf (hleafS u hu)).symm.trans heq⟩)))

section
variable (h : KernMap used kern root pml4s m S) (hv : v ∈ S)
include h hv

theorem unmap_cases :
    (vmmUnmapPage m kern v).pmm = m.pmm ∧ tables (vmmUnmapPage m kern v).mem 2 root = tables m.mem 2 root ∧
      (∀ u ∈ kernPages, leaf (vmmUnmapPage m kern v).mem 2 root u = if u = v then 0 else leaf m.mem 2 root u) ∧
      ∀ g, g ∉ tables m.mem 2 root → (vmmUnmapPage m kern v).mem g = m.mem g := by
  have hpage := h.sub hv
  have hwalk : vmmWalkToPte m kern v false = (slot m.mem 2 root v, m) := (h.walk hpage rfl false).trans walkToPte_false
  cases hslot : slot m.mem 2 root v with
  | none =>
    obtain ⟨f, hf, -⟩ := h.inside v hv
    have hzero := hf.symm.trans (leaf_of_slot_none hslot)
    exact absurd (congrArg present hzero) (by rw [present_mkPte]; decide)
  | some place =>
    obtain ⟨t, i⟩ := place
    have heq : vmmUnmapPage m kern v = m.set t i 0 := by
      rw [vmmUnmapPage, hwalk, hslot]
    rw [heq]
    refine ⟨rfl, tables_set_slot h.tree.nodup (by decide) (idx_two v) hslot, fun u hu => ?_, fun g hg => ?_⟩
    · rw [leaf_set_slot h.tree.nodup (by decide) (idx_two v) (idx_two u) hslot]
      simp only [samePath_kernPages hu hpage]
    · refine mem_set_of_ne ?_
      rintro rfl
      exact hg (slot_mem_tables hslot (by decide) (idx_two v))

theorem unmapOne_eq : unmapOne kern false m v = { vmmUnmapPage m kern v with
      pmm := pmmFreeFrame m.pmm (frameOf (leaf m.mem 2 root v)) } := by
  obtain ⟨f, hf, hlow, hhigh, -⟩ := h.inside v hv
  have hframe : frameOf (mkPte f kernFlags) = f := frameOf_mkPte (h.frame_lt hhigh) kernFlags_lt
  have hphys : vmmVirt2Phys m kern v = some f := by
    rw [vmmVirt2Phys_eq, h.leaf_eq (h.sub hv), hf, present_mkPte, if_pos rfl, hframe]
  obtain ⟨k, rfl⟩ := Nat.exists_eq_succ_of_ne_zero (show f ≠ 0 by omega)
  rw [unmapOne, hphys, hf, hframe]
  simp only [Bool.false_eq_true, if_false, (h.unmap_cases hv).1]

theorem unmap : KernMap used kern root pml4s (unmapOne kern false m v) (S \ {v}) := by
  obtain ⟨-, htables, hleaf, hkeep⟩ := h.unmap_cases hv
  obtain ⟨f, hf, hlow, hhigh, href, hused, htab⟩ := h.inside v hv
  have hframe : frameOf (leaf m.mem 2 root v) = f := by rw [hf, frameOf_mkPte (h.frame_lt hhigh) kernFlags_lt]
  have hbit : m.pmm.bitmap f = true := (h.bits f).mpr (.inr (.inr ⟨v, hv, hframe⟩))
  obtain ⟨hrefs, hbits, htotal⟩ := pmmFreeFrame_spec ⟨hlow, hhigh, hbit⟩ (by omega : 0 < m.pmm.refCounts f)
  rw [h.unmapOne_eq hv, hframe]
  have hother : ∀ u ∈ S, u ≠ v → frameOf (leaf m.mem 2 root u) ≠ f := by
    intro u hu hne heq
    exact hne (h.inj u hu v hv (heq.trans hframe.symm))
  have hleafS : ∀ u ∈ S \ {v}, leaf (vmmUnmapPage m kern v).mem 2 root u = leaf m.mem 2 root u := by
    rintro u ⟨hu, hne⟩
    exact (hleaf u (h.sub hu)).trans (if_neg hne)
  have hclear : ∀ g, (pmmFreeFrame m.pmm f).bitmap g = true ↔ g ≠ f ∧ m.pmm.bitmap g = true := by
    intro g
    rw [hbits g]
    by_cases hg : g = f
    · simp [hg, href]
    · simp [hg]
  refine ⟨?_, ⟨ok_freeFrame h.tree.pmm, ?_, fun g hg => ?_⟩, ?_, sdiff_subset.trans h.sub, fun u hu hnot => ?_,
    fun u hu => ?_, fun u hu w hw heq => ?_, fun g => ?_⟩
  · rw [hkeep kern (h.roots kern (.inl rfl)).2]
    exact h.entry
  · rw [htables]
    exact h.tree.nodup
  · rw [htables] at hg
    refine (hclear g).mpr ⟨?_, h.tree.bits g hg⟩
    rintro rfl
    exact htab hg
  · simp only [htables]
    exact h.roots
  · simp only [hleaf u hu]
    split
    · rfl
    · next hne => exact h.outside u hu fun hmem => hnot ⟨hmem, hne⟩
  · obtain ⟨g, hg, hglow, hghigh, hgref, hgused, hgtab⟩ := h.inside u hu.1
    have hne : g ≠ f := by
      rintro rfl
      exact hother u hu.1 hu.2 (by rw [hg, frameOf_mkPte (h.frame_lt hghigh) kernFlags_lt])
    refine ⟨g, (hleafS u hu).trans hg, hglow, ?_, ?_, hgused, ?_⟩
    · rw [htotal]
      exact hghigh
    · rw [hrefs, if_neg hne]
      exact hgref
    · rw [htables]
      exact hgtab
  · simp only [hleafS u hu, hleafS w hw] at heq
    exact h.inj u hu.1 w hw.1 heq
  · simp only [hclear g, h.bits g, htables]
    constructor
    · rintro ⟨hne, hg | hg | ⟨u, hu, heq⟩⟩
      · exact .inl hg
      · exact .inr (.inl hg)
      · have huv : u ≠ v := by
          rintro rfl
          exact hne (heq.symm.trans hframe)
        exact .inr (.inr ⟨u, ⟨hu, huv⟩, (congrArg frameOf (hleafS u ⟨hu, huv⟩)).trans heq⟩)
    · rintro (hg | hg | ⟨u, hu, heq⟩)
      · refine ⟨?_, .inl hg⟩
        rintro rfl
        exact Bool.false_ne_true (hused.symm.trans hg)
      · refine ⟨?_, .inr (.inl hg)⟩
        rintro rfl
        exact htab hg
      · rw [hleafS u hu] at heq
        refine ⟨?_, .inr (.inr ⟨u, hu.1, heq⟩)⟩
        rintro rfl
        exact hother u hu.1 hu.2 heq

end

/-! The loops -/

theorem sync (h : KernMap used kern root pml4s m S) (hc : curr = kern ∨ curr ∈ pml4s) (v : Nat) :
    KernMap used kern root pml4s (syncEntry kern curr v m) S := by
  rw [syncEntry]
  split
  · next hne => exact h.setRoot (hc.resolve_left hne) hne
  · exact h

theorem allocLoop (h : KernMap used kern root pml4s m S) (hc : curr = kern ∨ curr ∈ pml4s)
    (hnd : pages.Nodup) (hpages : ∀ v ∈ pages, v ∈ kernPages ∧ v ∉ S)
    (hflags : (allocLoop kern curr pages m).1 = List.replicate pages.length true) :
    KernMap used kern root pml4s (allocLoop kern curr pages m).2 (S ∪ {v | v ∈ pages}) := by
  induction pages generalizing m S with
  | nil => simpa [Memory.allocLoop] using h
  | cons v pages ih =>
    obtain ⟨hv, hnd⟩ := nodup_cons.mp hnd
    obtain ⟨⟨hpage, hS⟩, hrest⟩ := forall_mem_cons.mp hpages
    rw [Memory.allocLoop] at hflags ⊢
    generalize halloc : pmmAllocFrame m.pmm = r at hflags ⊢
    obtain ⟨f, p⟩ := r
    by_cases hf : f = 0
    · simp [hf] at hflags
    simp only [if_neg hf] at hflags ⊢
    generalize hmap : vmmMapPage { m with pmm := p } kern v f kernFlags = r at hflags ⊢
    obtain ⟨mapped, m'⟩ := r
    dsimp only at hflags ⊢
    rw [length_cons, replicate_succ] at hflags
    obtain ⟨rfl, htail⟩ := List.cons.inj hflags
    have hone := (h.map hpage hS halloc hf hmap).sync hc v
    have hset : S ∪ {u | u ∈ v :: pages} = insert v S ∪ {u | u ∈ pages} := by
      ext u
      simp only [mem_union, mem_ofPred_eq, mem_cons, mem_insert_iff]
      tauto
    rw [hset]
    refine ih hone hnd (fun u hu => ⟨(hrest u hu).1, ?_⟩) htail
    rintro (rfl | hmem)
    · exact hv hu
    · exact (hrest u hu).2 hmem

theorem unmapLoop (h : KernMap used kern root pml4s m S) (hnd : pages.Nodup)
    (hpages : ∀ v ∈ pages, v ∈ S) :
    KernMap used kern root pml4s (pages.foldl (unmapOne kern false) m) (S \ {v | v ∈ pages}) := by
  induction pages generalizing m S with
  | nil => simpa using h
  | cons v pages ih =>
    obtain ⟨hv, hnd⟩ := nodup_cons.mp hnd
    obtain ⟨hvS, hrest⟩ := forall_mem_cons.mp hpages
    have hset : S \ {u | u ∈ v :: pages} = (S \ {v}) \ {u | u ∈ pages} := by
      ext u
      simp only [mem_sdiff, mem_ofPred_eq, mem_cons, mem_singleton_iff]
      tauto
    rw [hset, foldl_cons]
    refine ih (h.unmap hvS) hnd fun u hu => ⟨hrest u hu, ?_⟩
    rintro rfl
    exact hv hu

/-! The start -/

theorem empty (hentry : present (m.mem kern kernSlot) = true ∧ frameOf (m.mem kern kernSlot) = root)
    (ht : TreeOk m 2 root) (hroots : ∀ c, c = kern ∨ c ∈ pml4s → m.pmm.bitmap c = true ∧ c ∉ tables m.mem 2 root)
    (hout : ∀ v ∈ kernPages, present (leaf m.mem 2 root v) = false) : KernMap m.pmm.bitmap kern root pml4s m ∅ := by
  refine ⟨hentry, ht, hroots, empty_subset _, fun v hv _ => hout v hv, fun v hv => hv.elim, fun v hv => hv.elim,
    fun f => ⟨.inl, ?_⟩⟩
  rintro (hused | htab | ⟨v, hv, -⟩)
  · exact hused
  · exact ht.bits f htab
  · exact hv.elim

theorem boot (hentry : present (m.mem kern kernSlot) = true) (ht : TreeOk m 2 (frameOf (m.mem kern kernSlot)))
    (hroots : ∀ c, c = kern ∨ c ∈ pml4s → m.pmm.bitmap c = true ∧ c ∉ tables m.mem 2 (frameOf (m.mem kern kernSlot)))
    (hunmapped : ∀ v ∈ kernPages, vmmVirt2Phys m kern v = none) :
    KernMap m.pmm.bitmap kern (frameOf (m.mem kern kernSlot)) pml4s m ∅ := by
  refine empty ⟨hentry, rfl⟩ ht hroots fun v hv => ?_
  have hnone := hunmapped v hv
  rw [vmmVirt2Phys_eq, leaf, tableIndex_kernPages hv, if_pos hentry] at hnone
  cases hleaf : present (leaf m.mem 2 (frameOf (m.mem kern kernSlot)) v) with
  | false => rfl
  | true =>
    rw [hleaf] at hnone
    cases hnone

theorem initEntry (h : KernMap m.pmm.bitmap kern root pml4s m ∅) :
    KernMap (initEntry kern m i).pmm.bitmap kern root pml4s (initEntry kern m i) ∅ := by
  rw [Memory.initEntry]
  split
  · exact h
  next habsent =>
  have hi : i ≠ kernSlot := by
    rintro rfl
    exact habsent h.entry.1
  rcases pmmAllocFrame_cases h.tree.pmm with ⟨hfull, -⟩ | ⟨f, hf, hlow, hhigh, hclear⟩
  · rw [hfull]
    exact h
  rw [hf]
  simp only [if_pos (show f ≠ 0 by omega)]
  have hgrow := grow_take h.tree.pmm hlow hhigh hclear
  have hnot : ∀ g, m.pmm.bitmap g = true → g ≠ f := fun g hg => Pmm.bit_ne hg hclear
  have hkern := h.roots kern (.inl rfl)
  have hout : ∀ g ∈ tables m.mem 2 root,
      (((m.take f).fill f fun _ => 0).set kern i (pteSetAddr 0 (physOf f) ||| kernFlags)).mem g = m.mem g := by
    intro g hg
    have hgk : g ≠ kern := by
      rintro rfl
      exact hkern.2 hg
    rw [mem_set_of_ne hgk, mem_fill_of_ne _ (hnot g (h.tree.bits g hg))]
  have htables := tables_congr hout
  refine empty ?_ ⟨hgrow.ok, ?_, fun g hg => ?_⟩ (fun c hc => ?_) fun v hv => ?_
  · rw [mem_set, if_neg fun hk => hi hk.2.symm, mem_fill_of_ne _ (hnot kern hkern.1)]
    exact h.entry
  · rw [htables]
    exact h.tree.nodup
  · rw [htables] at hg
    exact hgrow.bit_mono (h.tree.bits g hg)
  · rw [htables]
    exact ⟨hgrow.bit_mono (h.roots c hc).1, (h.roots c hc).2⟩
  · rw [leaf_congr hout (idx_two v) (by decide)]
    exact h.outside v hv fun hmem => hmem

theorem init (h : KernMap m.pmm.bitmap kern root pml4s m ∅) :
    KernMap (vmmInit m kern).machine.pmm.bitmap kern root pml4s (vmmInit m kern).machine ∅ := by
  rw [vmmInit]
  generalize List.range' 256 256 = l
  induction l generalizing m with
  | nil => exact h
  | cons i l ih => exact ih h.initEntry

end KernMap

end NyanOS.Memory
