import NyanOS.Memory.View

/-!
The functions of `mem/vmm.c` on a set of address spaces: each keeps the invariant, and changes
what the tasks see as stated.
-/

namespace NyanOS.Memory

open Function List

variable {base : Nat → Bool} {m m' m₁ m₂ : Machine} {kern roots rest fresh new kern' roots' : List Nat}
  {r r' page v f g i o child frame : Nat} {w e e' flags : Word} {b : Byte} {view : Page}

/-- Nothing that a task sees or that the kernel holds has changed. -/
structure Unseen (m m' : Machine) (kern roots : List Nat) : Prop where
  pages : ∀ r ∈ roots, pagesOf m'.mem r = pagesOf m.mem r
  kern : ∀ f ∈ kern, m'.mem f = m.mem f

/-- One page of one address space has changed. -/
structure SeenAt (m m' : Machine) (kern : List Nat) (r : Nat) (rest : List Nat) (page : Nat)
    (view : Page) : Prop where
  page : pagesOf m'.mem r = update (pagesOf m.mem r) page view
  pages : ∀ r' ∈ rest, pagesOf m'.mem r' = pagesOf m.mem r'
  kern : ∀ f ∈ kern, m'.mem f = m.mem f

theorem Unseen.refl : Unseen m m kern roots := ⟨fun _ _ => rfl, fun _ _ => rfl⟩

theorem Unseen.trans (h : Unseen m m₁ kern roots) (h' : Unseen m₁ m₂ kern roots) :
    Unseen m m₂ kern roots :=
  ⟨fun r hr => (h'.pages r hr).trans (h.pages r hr), fun f hf => (h'.kern f hf).trans (h.kern f hf)⟩

theorem Unseen.of_mem_eq (h : m'.mem = m.mem) : Unseen m m' kern roots := by
  constructor
  · intro r _
    rw [h]
  · intro f _
    rw [h]

theorem Unseen.mono (h : Unseen m m' kern roots)
    (hk : ∀ f ∈ kern', f ∈ kern) (hr : ∀ r ∈ roots', r ∈ roots) : Unseen m m' kern' roots' :=
  ⟨fun r hr' => h.pages r (hr r hr'), fun f hf => h.kern f (hk f hf)⟩

theorem SeenAt.after (h : Unseen m m₁ kern (r :: rest)) (h' : SeenAt m₁ m' kern r rest page view) :
    SeenAt m m' kern r rest page view := by
  refine ⟨?_, ?_, ?_⟩
  · rw [h'.page, h.pages r (by simp)]
  · intro r' hr'
    rw [h'.pages r' hr', h.pages r' (by simp [hr'])]
  · intro f hf
    rw [h'.kern f hf, h.kern f hf]

theorem SeenAt.unseen (h : SeenAt m m' kern r rest page (pagesOf m.mem r page)) : Unseen m m' kern (r :: rest) := by
  refine ⟨?_, h.kern⟩
  intro r' hr'
  rcases mem_cons.mp hr' with rfl | hr'
  · rw [h.page, update_eq_self]
  · exact h.pages r' hr'

theorem Inv.unseen (hi : Inv base m kern roots) (hk : KeepsPages m m' roots)
    (hl : ∀ r ∈ roots, ∀ v < pageCount 3, SameTarget (leaf m.mem 3 r v) (leaf m'.mem 3 r v)) : Unseen m m' kern roots :=
  ⟨fun r hr => hi.pagesOf_eq hr hk (hl r hr), fun _ hf => hi.kern_eq hk hf⟩

theorem Inv.walk_unseen (hi : Inv base m kern (r :: rest)) (hw : WalkSpec m m' 3 r new) :
    Unseen m m' kern (r :: rest) := by
  refine hi.unseen (KeepsPages.of_tables hw.keeps (by simp)) ?_
  intro r' hr' v hv
  rw [(hi.walk hw).2 r' hr' v hv]
  exact .refl

theorem Inv.take_unseen (hi : Inv base m kern roots) (hclear : m.pmm.bitmap f = false) (c : Nat → Word) :
    Unseen m ((m.take f).fill f c) kern roots := by
  have hkeep : ∀ g, g ≠ f → ((m.take f).fill f c).mem g = m.mem g := fun g hg => mem_fill_of_ne c hg
  refine hi.unseen ?_ ?_
  · intro g hbit _
    refine hkeep g ?_
    rintro rfl
    simp [hclear] at hbit
  · intro r hr v hv
    have hf := (hi.of_clear hclear).1
    rw [(leaf_of_not_table (fun hmem => hf (mem_append_left _ hmem)) hkeep hr).2 v hv]
    exact .refl

theorem Inv.replace_seenAt (hi : Inv base m kern (r :: rest)) (hv : page < pageCount 3)
    (hs : StoreSpec m m' r page w) (hw : ∀ f, Maps w f → f ∉ tables m.mem 3 r) :
    SeenAt m m' kern r rest page (viewOf m.mem w) := by
  have hk : Keeps m m' (tables m.mem 3 r) := fun g _ hg => hs.keeps g hg
  have hother := hi.other_spaces hk
  have hpages : KeepsPages m m' (r :: rest) := KeepsPages.of_tables hk (by simp)
  refine ⟨?_, ?_, fun f hf => hi.kern_eq hpages hf⟩
  · funext v
    by_cases hvp : v = page
    · subst hvp
      rw [update_self, pagesOf, if_pos hv, hs.leaf v hv, if_pos rfl]
      apply viewOf_sameTarget .refl
      intro hmaps
      exact hs.keeps _ (hw _ hmaps)
    · rw [update_of_ne hvp]
      simp only [pagesOf]
      split
      · next hlt =>
        rw [hs.leaf v hlt, if_neg hvp]
        apply viewOf_sameTarget .refl
        intro hmaps
        obtain ⟨ha, hn, _⟩ := hi.mapped r (by simp) v hlt _ hmaps
        exact hpages _ ha.bit fun hmem => hn (mem_append_left _ hmem)
      · rfl
  · intro r' hr'
    refine hi.pagesOf_eq (by simp [hr']) hpages ?_
    intro v hv
    rw [(hother r' hr').2 v hv]
    exact .refl

theorem Inv.mapped_ref (hi : Inv base m kern roots) (hr : r ∈ roots) (hv : page < pageCount 3)
    (hmaps : Maps (leaf m.mem 3 r page) f) : m.pmm.refCounts f = totalRefs m.mem roots f ∧ 0 < m.pmm.refCounts f := by
  have href := (hi.mapped r hr page hv f hmaps).2.2.1
  refine ⟨href, ?_⟩
  rw [href]
  exact totalRefs_pos.mpr ⟨r, hr, page, hv, hmaps⟩

theorem Inv.drop_remapDrop (hi : Inv base m kern (r :: rest)) (hv : page < pageCount 3) (hf : frame ∈ kern) :
    Drop m.pmm (remapDrop m.pmm (leaf m.mem 3 r page) frame) (leaf m.mem 3 r page) := by
  cases hpriv : isPrivate (leaf m.mem 3 r page) with
  | false =>
    have hnot : remapDrop m.pmm (leaf m.mem 3 r page) frame = m.pmm := by
      rw [remapDrop, if_neg]
      rintro ⟨hp, _, hs⟩
      simp [isPrivate, hp, hs] at hpriv
    rw [hnot]
    exact drop_none hi.pmm hpriv
  | true =>
    have hmaps : Maps (leaf m.mem 3 r page) (frameOf (leaf m.mem 3 r page)) := ⟨hpriv, rfl⟩
    obtain ⟨ha, hn, _⟩ := hi.mapped r (by simp) page hv _ hmaps
    have hne : frameOf (leaf m.mem 3 r page) ≠ frame := by
      rintro rfl
      exact hn (mem_append_right _ hf)
    rw [remapDrop, if_pos ⟨hmaps.flags.1, hne, hmaps.flags.2⟩]
    exact drop_decRef hi.pmm hmaps ha (hi.mapped_ref (by simp) hv hmaps).2

theorem maps_privateFlags (hf : f < 2 ^ 52) : Maps (mkPte f privateFlags) g ↔ g = f := by
  have hfl : privateFlags.toNat < 2 ^ 12 := by decide
  have hsh : shared privateFlags = false := by decide
  simp only [Maps, isPrivate, present_mkPte, shared_mkPte, hsh, frameOf_mkPte hf hfl, Bool.not_false,
    Bool.and_self, true_and]
  exact eq_comm

theorem Inv.frame_lt (hi : Inv base m kern roots) (hf : f ∈ kern) : f < 2 ^ 52 := by
  have hhigh := (hi.owned f (mem_append_right _ hf)).1.high
  have htotal := hi.pmm.total
  omega

theorem Inv.not_table (hi : Inv base m kern (r :: rest)) (hf : f ∈ kern) : f ∉ tables m.mem 3 r := by
  intro hmem
  exact (nodup_append.mp hi.nodup).2.2 f (mem_allTables.mpr ⟨r, by simp, hmem⟩) f hf rfl

/-- A frame of the kernel is mapped. What the entry then owns, `moved`, is no longer the kernel's. -/
theorem Inv.mapFrame (moved : List Nat) (hi : Inv base m (moved ++ kern) (r :: rest))
    (hv : page < pageCount 3) (hf : f ∈ moved ++ kern) (hfl : flags.toNat < 2 ^ 12)
    (hmaps : ∀ g, Maps (mkPte f flags) g ↔ g ∈ moved) (huser : user flags = true)
    (hsh : shared flags = true → f ∈ kern ∧ writable flags = true) (hfree : ∀ g ∈ moved, Unshared m (r :: rest) g) :
    (∃ m', vmmMapPage m r page f flags = (true, m') ∧ Inv base m' kern (r :: rest) ∧
      SeenAt m m' kern r rest page (viewOf m.mem (mkPte f flags)) ∧ leaf m'.mem 3 r page = mkPte f flags) ∨
    ∃ m', vmmMapPage m r page f flags = (false, m') ∧ Inv base m' (moved ++ kern) (r :: rest) ∧
      Unseen m m' (moved ++ kern) (r :: rest) := by
  have hframe : frameOf (mkPte f flags) = f := frameOf_mkPte (hi.frame_lt hf) hfl
  rcases vmmMapPage_spec (hi.treeOk mem_cons_self) hv with
    ⟨new, m₁, m₂, hwalk, hcall, hstore, hpmm⟩ | ⟨new, m₁, hwalk, hcall, _⟩
  · left
    obtain ⟨hi₁, hleaf⟩ := hi.walk hwalk
    have hu := hi.walk_unseen hwalk
    have hdrop := hi₁.drop_remapDrop hv hf
    rw [hleaf r mem_cons_self page hv, ← hpmm] at hdrop
    refine ⟨m₂, hcall, hi₁.replace moved hv hstore ?_ hmaps ?_ ?_ ?_, ?_, by rw [hstore.leaf page hv, if_pos rfl]⟩
    · rwa [hleaf r mem_cons_self page hv]
    · intro _
      rwa [user_mkPte]
    · intro _ hs
      rw [shared_mkPte] at hs
      rw [hframe, writable_mkPte]
      exact hsh hs
    · intro g hg r' hr' v hv
      rw [hleaf r' hr' v hv]
      exact hfree g hg r' hr' v hv
    · have hview : viewOf m₁.mem (mkPte f flags) = viewOf m.mem (mkPte f flags) :=
        viewOf_sameTarget .refl fun _ => hframe.symm ▸ hu.kern f hf
      rw [← hview]
      have hseen := hi₁.replace_seenAt hv hstore fun g hg => hi₁.not_table (mem_append_left _ ((hmaps g).mp hg))
      refine SeenAt.after (hu.mono (fun g hg => mem_append_right _ hg) fun _ h => h) ?_
      exact ⟨hseen.page, hseen.pages, fun g hg => hseen.kern g (mem_append_right _ hg)⟩
  · exact .inr ⟨m₁, hcall, (hi.walk hwalk).1, hi.walk_unseen hwalk⟩

theorem Inv.mapPrivate (hi : Inv base m (f :: kern) (r :: rest)) (hv : page < pageCount 3)
    (hsh : Unshared m (r :: rest) f) :
    (∃ m', vmmMapPage m r page f privateFlags = (true, m') ∧ Inv base m' kern (r :: rest) ∧
      SeenAt m m' kern r rest page (.priv (pageBytes (m.mem f))) ∧
      leaf m'.mem 3 r page = mkPte f privateFlags) ∨
    ∃ m', vmmMapPage m r page f privateFlags = (false, m') ∧ Inv base m' (f :: kern) (r :: rest) ∧
      Unseen m m' (f :: kern) (r :: rest) := by
  have hlt := hi.frame_lt (f := f) mem_cons_self
  have hs : shared privateFlags = false := by decide
  have hview : viewOf m.mem (mkPte f privateFlags) = .priv (pageBytes (m.mem f)) := by
    rw [viewOf, present_mkPte, shared_mkPte, hs, frameOf_mkPte hlt (by decide)]
    rfl
  rw [← hview]
  refine hi.mapFrame [f] hv mem_cons_self (by decide) (fun g => ?_) (by decide) (fun h => ?_) fun g hg => ?_
  · rw [maps_privateFlags hlt, mem_singleton]
  · cases hs.symm.trans h
  · exact mem_singleton.mp hg ▸ hsh

theorem not_maps_sharedFlags : ¬ Maps (mkPte f sharedFlags) g := by
  have hsh : shared sharedFlags = true := by decide
  simp [Maps, isPrivate, hsh]

section

variable (hi : Inv base m kern (r :: rest)) (hv : page < pageCount 3)
include hi hv

theorem Inv.mapShared (hf : f ∈ kern) :
    (∃ m', vmmMapPage m r page f sharedFlags = (true, m') ∧ Inv base m' kern (r :: rest) ∧
      SeenAt m m' kern r rest page (.shm f)) ∨
    ∃ m', vmmMapPage m r page f sharedFlags = (false, m') ∧ Inv base m' kern (r :: rest) ∧
      Unseen m m' kern (r :: rest) := by
  have hs : shared sharedFlags = true := by decide
  have hview : viewOf m.mem (mkPte f sharedFlags) = .shm f := by
    rw [viewOf, present_mkPte, shared_mkPte, hs, frameOf_mkPte (hi.frame_lt hf) (by decide)]
    rfl
  have hnone : ∀ g, Maps (mkPte f sharedFlags) g ↔ g ∈ [] := fun g => iff_of_false not_maps_sharedFlags not_mem_nil
  rw [← hview]
  rcases hi.mapFrame [] hv hf (by decide) hnone (by decide) (fun _ => ⟨hf, by decide⟩) (by simp) with
    ⟨m', hcall, hi', hseen, -⟩ | hfailed
  · exact .inl ⟨m', hcall, hi', hseen⟩
  · exact .inr hfailed

theorem Inv.unmap (hnot : isPrivate (leaf m.mem 3 r page) = false) : Inv base (vmmUnmapPage m r page) kern (r :: rest) ∧
      SeenAt m (vmmUnmapPage m r page) kern r rest page .absent := by
  have hzero : ∀ g, ¬ Maps 0 g := fun g h => absurd h.1 (by decide)
  rcases vmmUnmapPage_spec (hi.treeOk mem_cons_self) hv with hstore | ⟨heq, hleaf⟩
  · refine ⟨?_, hi.replace_seenAt hv hstore fun g hg => absurd hg (hzero g)⟩
    refine hi.replace [] hv hstore ?_ ?_ ?_ ?_ ?_
    · rw [vmmUnmapPage_pmm]
      exact drop_none hi.pmm hnot
    · intro g
      exact iff_of_false (hzero g) not_mem_nil
    · intro hp
      exact absurd hp (by decide)
    · intro hp
      exact absurd hp (by decide)
    · intro g hg
      simp at hg
  · rw [heq]
    refine ⟨hi, ?_, fun _ _ => rfl, fun _ _ => rfl⟩
    have hview : pagesOf m.mem r page = .absent := by
      rw [pagesOf, if_pos hv, hleaf]
      rfl
    rw [← hview, update_eq_self]

theorem Inv.cowReuse (hmaps : Maps (leaf m.mem 3 r page) f) (href : m.pmm.refCounts f ≤ 1)
    (hs : StoreSpec m m' r page (setWritable (leaf m.mem 3 r page))) (hpmm : m'.pmm = m.pmm) :
    Inv base m' kern (r :: rest) ∧ Unseen m m' kern (r :: rest) := by
  have hnot := hmaps.flags.2
  have hone : totalRefs m.mem (r :: rest) f = 1 := by
    have hr := hi.mapped_ref mem_cons_self hv hmaps
    omega
  have hleaf : ∀ r' ∈ r :: rest, ∀ v < pageCount 3, SameTarget (leaf m.mem 3 r' v) (leaf m'.mem 3 r' v) := by
    intro r' hr' v hv'
    rw [store_leaf hi hs hr' hv']
    split
    · next heq =>
      rw [heq.1, heq.2]
      exact sameTarget_setWritable hnot
    · exact .refl
  refine ⟨hi.relabel (.of_eq hi.pmm hpmm) ?_ hleaf ?_, hi.unseen ?_ hleaf⟩
  · intro r' hr'
    rcases mem_cons.mp hr' with rfl | hr'
    · exact hs.tables
    · exact ((hi.other_spaces fun g _ hg => hs.keeps g hg) r' hr').1
  · intro r' hr' v hv' g hg hw
    rw [store_leaf hi hs hr' hv'] at hw
    split at hw
    · next heq =>
      rw [heq.1, heq.2] at hg
      obtain rfl : f = g := hmaps.2.symm.trans hg.2
      exact hone
    · exact hi.exclusive r' hr' v hv' g hg hw
  · intro g _ hg
    exact hs.keeps g fun hmem => hg (mem_allTables.mpr ⟨r, by simp, hmem⟩)

end

theorem maps_cow (he : Maps e f) (hlt : frame < 2 ^ 52) :
    Maps (withFlags frame (pteGetFlags e ||| vmmFlagWritable)) g ↔ g = frame := by
  have hpriv := he.flags
  simp only [Maps, isPrivate, present_withFlags, present_cowFlags, shared_withFlags, shared_cowFlags,
    hpriv.1, hpriv.2, frameOf_withFlags hlt, Bool.not_false, Bool.and_self, true_and]
  exact eq_comm

theorem Inv.cowCopy (hi : Inv base m (frame :: kern) (r :: rest)) (hv : page < pageCount 3)
    (hmaps : Maps (leaf m.mem 3 r page) f) (hsh : Unshared m (r :: rest) frame) (hcopy : m.mem frame = m.mem f)
    (hw : w = withFlags frame (pteGetFlags (leaf m.mem 3 r page) ||| vmmFlagWritable)) (hs : StoreSpec m m' r page w)
    (hpmm : m'.pmm = pmmDecRef m.pmm f) : Inv base m' kern (r :: rest) ∧ Unseen m m' kern (r :: rest) := by
  subst hw
  have hlt := hi.frame_lt (f := frame) mem_cons_self
  obtain ⟨ha, _⟩ := hi.mapped r mem_cons_self page hv f hmaps
  have hpriv := hmaps.flags
  refine ⟨?_, ?_⟩
  · refine hi.replace [frame] hv hs ?_ ?_ ?_ ?_ ?_
    · rw [hpmm]
      exact drop_decRef hi.pmm hmaps ha (hi.mapped_ref mem_cons_self hv hmaps).2
    · intro g
      rw [maps_cow hmaps hlt, mem_singleton]
    · intro _
      rw [user_withFlags, user_cowFlags]
      exact hi.userOk r mem_cons_self page hv hpriv.1
    · intro _ hshared
      rw [shared_withFlags, shared_cowFlags, hpriv.2] at hshared
      simp at hshared
    · intro g hg
      obtain rfl := mem_singleton.mp hg
      exact hsh
  · have hseen := hi.replace_seenAt hv hs fun g hg => by
      rw [(maps_cow hmaps hlt).mp hg]
      exact hi.not_table mem_cons_self
    have hview : viewOf m.mem (withFlags frame (pteGetFlags (leaf m.mem 3 r page) ||| vmmFlagWritable)) =
        pagesOf m.mem r page := by
      rw [pagesOf, if_pos hv, viewOf, viewOf]
      simp only [present_withFlags, present_cowFlags, shared_withFlags, shared_cowFlags, hpriv.1,
        hpriv.2, frameOf_withFlags hlt, hcopy, hmaps.2]
      rfl
    rw [hview] at hseen
    exact hseen.unseen.mono (fun g hg => mem_cons_of_mem _ hg) fun _ h => h

/-- Taking a free frame, as every caller of `pmm_alloc_frame` does before filling it. -/
theorem Inv.allocFrame (hi : Inv base m kern roots) : pmmAllocFrame m.pmm = (0, m.pmm) ∨
    ∃ f, f ≠ 0 ∧ pmmAllocFrame m.pmm = (f, m.pmm.take f) ∧ m.pmm.bitmap f = false ∧
      ∀ c, Inv base ((m.take f).fill f c) (f :: kern) roots ∧ Unshared ((m.take f).fill f c) roots f := by
  rcases pmmAllocFrame_cases hi.pmm with ⟨hfull, _⟩ | ⟨f, hcall, hlow, hhigh, hclear⟩
  · exact .inl hfull
  right
  refine ⟨f, by omega, hcall, hclear, ?_⟩
  intro c
  refine ⟨hi.take hlow hhigh hclear c, ?_⟩
  have hf := (hi.of_clear hclear).1
  intro r hr v hv hp hs
  have hleaf : leaf ((m.take f).fill f c).mem 3 r v = leaf m.mem 3 r v :=
    (leaf_of_not_table (fun hmem => hf (mem_append_left _ hmem)) (fun g hg => mem_fill_of_ne c hg) hr).2 v hv
  rw [hleaf] at hp hs ⊢
  rintro rfl
  exact hf (mem_append_right _ (hi.sharedOk r hr v hv hp hs).1)

theorem Inv.allocRaw (hi : Inv base m kern roots) : pmmAllocFrame m.pmm = (0, m.pmm) ∨
    ∃ f, f ≠ 0 ∧ pmmAllocFrame m.pmm = (f, m.pmm.take f) ∧ Inv base (m.take f) (f :: kern) roots := by
  rcases hi.allocFrame with hfull | ⟨f, hne, hcall, _, htake⟩
  · exact .inl hfull
  right
  refine ⟨f, hne, hcall, ?_⟩
  have hsame := (htake (m.mem f)).1
  rwa [Machine.fill, update_eq_self] at hsame

theorem slot_of_present (hp : present (leaf m.mem 3 r page) = true) :
    ∃ t i, slot m.mem 3 r page = some (t, i) ∧ leaf m.mem 3 r page = m.mem t i := by
  cases hslot : slot m.mem 3 r page with
  | none =>
    rw [leaf_of_slot_none hslot] at hp
    exact absurd hp (by decide)
  | some place => exact ⟨place.1, place.2, rfl, leaf_of_slot hslot⟩

/-- `vmm_handle_cow` on a private page: it fails only for want of a frame, and otherwise leaves
the page writable and looking as before. -/
theorem Inv.handleCow (hi : Inv base m kern (r :: rest)) (hv : page < pageCount 3)
    (hmaps : Maps (leaf m.mem 3 r page) f) : vmmHandleCow m r page = (false, m) ∨
    ∃ m', vmmHandleCow m r page = (true, m') ∧ Inv base m' kern (r :: rest) ∧
      Unseen m m' kern (r :: rest) ∧ isPrivate (leaf m'.mem 3 r page) = true ∧
      writable (leaf m'.mem 3 r page) = true := by
  have hpriv := hmaps.flags
  have huser := hi.userOk r mem_cons_self page hv hpriv.1
  obtain ⟨t, i, hslot, hleaf⟩ := slot_of_present hpriv.1
  have hframe : frameOf (m.mem t i) = f := hleaf ▸ hmaps.2
  obtain ⟨ha, hn, _⟩ := hi.mapped r mem_cons_self page hv f hmaps
  have hcount : pmmGetRefCount m.pmm f = m.pmm.refCounts f := if_pos ha.high
  have hidx := tableIndex_lt_limit hv
  by_cases href : m.pmm.refCounts f ≤ 1
  · right
    have hcall : vmmHandleCow m r page = (true, m.set t i (setWritable (m.mem t i))) := by
      simp [vmmHandleCow, vmmWalkToPte, walkToPte_false, hslot, ← hleaf, hpriv.1, huser, hmaps.2, hcount, href]
    have hs := storeSpec_set (w := setWritable (m.mem t i)) (hi.treeOk mem_cons_self).nodup hv hslot
    rw [← hleaf] at hs hcall
    obtain ⟨hi', hu⟩ := hi.cowReuse hv hmaps href hs rfl
    refine ⟨_, hcall, hi', hu, ?_, ?_⟩
    · rw [hs.leaf page hv, if_pos rfl]
      simp [isPrivate, hpriv.1, hpriv.2]
    · rw [hs.leaf page hv, if_pos rfl, writable_setWritable]
  · rcases hi.allocFrame with hfull | ⟨new, hnew, hcall, hclear, htake⟩
    · left
      simp [vmmHandleCow, vmmWalkToPte, walkToPte_false, hslot, ← hleaf, hpriv.1, huser, hmaps.2, hcount, href, hfull]
    right
    obtain ⟨hi₁, hsh⟩ := htake (m.mem f)
    have hkeep : ∀ g, g ≠ new → ((m.take new).fill new (m.mem f)).mem g = m.mem g := fun g hg => mem_fill_of_ne _ hg
    have hnt : new ∉ allTables m.mem (r :: rest) := fun hmem => (hi.of_clear hclear).1 (mem_append_left _ hmem)
    have hsame : ∀ g ∈ tables m.mem 3 r, ((m.take new).fill new (m.mem f)).mem g = m.mem g := by
      intro g hg
      refine hkeep g ?_
      rintro rfl
      exact hnt (mem_allTables.mpr ⟨r, mem_cons_self, hg⟩)
    have hfill : ((m.take new).fill new (m.mem f)).mem new = m.mem f := mem_fill_self _
    generalize hm₁ : (m.take new).fill new (m.mem f) = m₁ at *
    have hslot₁ : slot m₁.mem 3 r page = some (t, i) := by rw [slot_congr hsame hidx le_rfl, hslot]
    have hleaf₁ : leaf m₁.mem 3 r page = leaf m.mem 3 r page := leaf_congr hsame hidx le_rfl
    have hword : m₁.mem t i = m.mem t i := by
      rw [← leaf_of_slot hslot₁, hleaf₁, hleaf]
    obtain ⟨w, hw⟩ : ∃ w, w = withFlags new (pteGetFlags (leaf m₁.mem 3 r page) ||| vmmFlagWritable) := ⟨_, rfl⟩
    have hrun : vmmHandleCow m r page = (true, { m₁.set t i w with pmm := pmmDecRef m₁.pmm f }) := by
      rw [hw, hleaf₁, hleaf]
      simp [vmmHandleCow, vmmWalkToPte, walkToPte_false, hslot, ← hleaf, hpriv.1, huser, hmaps.2,
        hcount, href, hcall, hnew, hm₁, hword]
    have hs := storeSpec_set (w := w) (hi₁.treeOk mem_cons_self).nodup hv hslot₁
    have hs' : StoreSpec m₁ { m₁.set t i w with pmm := pmmDecRef m₁.pmm f } r page w := ⟨hs.tables, hs.leaf, hs.keeps⟩
    have hnf : f ≠ new := by
      rintro rfl
      exact absurd ha.bit (by simp [hclear])
    have hcopy : m₁.mem new = m₁.mem f := by rw [hfill, hkeep f hnf]
    have hmaps₁ : Maps (leaf m₁.mem 3 r page) f := hleaf₁ ▸ hmaps
    obtain ⟨hi', hu⟩ := hi₁.cowCopy hv hmaps₁ hsh hcopy hw hs' rfl
    have htaken := hi.take_unseen hclear (m.mem f)
    rw [hm₁] at htaken
    refine ⟨_, hrun, hi', htaken.trans hu, ?_, ?_⟩
    · rw [hs'.leaf page hv, if_pos rfl, hw, isPrivate, present_withFlags, shared_withFlags,
        present_cowFlags, shared_cowFlags, hleaf₁]
      exact hmaps.1
    · rw [hs'.leaf page hv, if_pos rfl, hw, writable_withFlags, writable_cowFlags]

theorem copyUpper_fill (kernPml4 : Nat) (c : Nat → Word) : copyUpper kernPml4 f (m.fill f c) =
    m.fill f fun i => if 256 ≤ i ∧ i < 512 then (m.fill f c).mem kernPml4 i else c i := by
  simp only [copyUpper, Machine.fill, update_idem, update_self]

theorem Inv.newPml4 (hi : Inv base m kern roots) (kernPml4 : Nat) : vmmNewPml4 m kernPml4 = (0, m) ∨
    ∃ f m', vmmNewPml4 m kernPml4 = (f, m') ∧ f ≠ 0 ∧ Inv base m' (f :: kern) roots ∧
      Unshared m' roots f ∧ Unseen m m' kern roots ∧ tables m'.mem 3 f = [f] ∧
      ∀ v < pageCount 3, leaf m'.mem 3 f v = 0 := by
  rcases hi.allocFrame with hfull | ⟨f, hne, hcall, hclear, htake⟩
  · left
    simp [vmmNewPml4, hfull]
  right
  have hrun : vmmNewPml4 m kernPml4 = (f, copyUpper kernPml4 f ((m.take f).fill f fun _ => 0)) := by
    simp [vmmNewPml4, hcall, hne]
  rw [copyUpper_fill] at hrun
  generalize hc : (fun i => if 256 ≤ i ∧ i < 512 then
    ((m.take f).fill f fun _ => 0).mem kernPml4 i else 0) = c at hrun
  have hzero : ∀ i < 256, c i = 0 := by
    intro i hi
    simp only [← hc]
    rw [if_neg (by omega)]
  obtain ⟨hi', hsh⟩ := htake c
  have hself : ∀ i < limit 3, ((m.take f).fill f c).mem f i = 0 := by
    intro i hlim
    rw [mem_fill_self]
    exact hzero i hlim
  refine ⟨f, _, hrun, hne, hi', hsh, hi.take_unseen hclear c, tables_of_zero hself, ?_⟩
  intro v hv
  exact leaf_of_zero hself (tableIndex_lt_limit hv)

theorem Inv.freeFrame (hi : Inv base m (f :: kern) roots) (hsh : Unshared m roots f) :
    Inv base { m with pmm := pmmFreeFrame m.pmm f } kern roots ∧
      Unseen m { m with pmm := pmmFreeFrame m.pmm f } kern roots :=
  ⟨hi.give hsh, .of_mem_eq rfl⟩

/-- `vmm_copy_hierarchy` gives the child the pages of the parent; without memory nothing is seen
to change. -/
theorem Inv.copyHierarchy (hi : Inv base m kern (r :: rest)) (hlen : (r :: rest).length < maxTasks) (kernPml4 : Nat) :
    (∃ c m', vmmCopyHierarchy m kernPml4 r = (c, m') ∧ c ≠ 0 ∧ Inv base m' kern (c :: r :: rest) ∧
      Unseen m m' kern (r :: rest) ∧ pagesOf m'.mem c = pagesOf m.mem r) ∨
    ∃ m', vmmCopyHierarchy m kernPml4 r = (0, m') ∧ Inv base m' kern (r :: rest) ∧ Unseen m m' kern (r :: rest) := by
  have hspec : CopySpec m 3 r (NyanOS.Memory.copyHierarchy kernPml4 3 r m) :=
    copyHierarchy_spec (hi.copyPre mem_cons_self) le_rfl
  rw [vmmCopyHierarchy]
  generalize NyanOS.Memory.copyHierarchy kernPml4 3 r m = res at hspec
  obtain ⟨c, m'⟩ := res
  rcases hspec with ⟨hne, _, hc⟩ | ⟨rfl, hc⟩
  · left
    have hpages : KeepsPages m m' (r :: rest) := KeepsPages.of_tables hc.keeps mem_cons_self
    refine ⟨c, m', rfl, hne, hi.fork hlen hc, hi.unseen hpages ?_, ?_⟩
    · intro r' hr' v hv
      rcases fork_leaf hi hc (mem_cons_of_mem _ hr') hv with ⟨rfl, _⟩ | ⟨rfl, hl⟩ | ⟨_, hl⟩
      · -- the root of the child is a new frame
        have hbit := hi.bit_table (mem_allTables.mpr ⟨r', hr', table_mem_tables⟩)
        exact absurd table_mem_tables (hc.grow.not_new hbit)
      · rw [hl]
        exact sameTarget_parentEntry
      · rw [hl]
        exact .refl
    · funext v
      simp only [pagesOf]
      split
      · next hv =>
        rw [hc.childLeaf v (tableIndex_lt_limit hv)]
        by_cases hp : present (leaf m.mem 3 r v) = true
        · apply viewOf_sameTarget (sameTarget_childEntry hp)
          intro hmaps
          obtain ⟨ha, hn, _⟩ := hi.mapped r mem_cons_self v hv _ hmaps
          exact hpages _ ha.bit fun hmem => hn (mem_append_left _ hmem)
        · simp [viewOf, childEntry, hp]
      · rfl
  · right
    refine ⟨m', rfl, hi.copyFailed hc, hi.unseen (KeepsPages.of_tables hc.keeps mem_cons_self) ?_⟩
    intro r' hr' v hv
    rcases mem_cons.mp hr' with rfl | hr'
    · rcases hc.parentLeaf v (tableIndex_lt_limit hv) with hl | hl
      · rw [hl]
        exact .refl
      · rw [hl]
        exact sameTarget_parentEntry
    · rw [(hi.other_spaces hc.keeps r' hr').2 v hv]
      exact .refl

theorem Inv.freeSpace (hi : Inv base m kern (r :: rest)) :
    Inv base (vmmFreeTable m 3 r) kern rest ∧ Unseen m (vmmFreeTable m 3 r) kern rest :=
  ⟨hi.free, .of_mem_eq rfl⟩

/-- A page that another address space does not map looks the same there after a store into it. -/
theorem pagesOf_rewrite (hf : f ∉ allTables m.mem roots) (hm : ∀ g, g ≠ f → m'.mem g = m.mem g)
    (hr : r ∈ roots) (hnot : v < pageCount 3 → ¬ Maps (leaf m.mem 3 r v) f) :
    pagesOf m'.mem r v = pagesOf m.mem r v := by
  simp only [pagesOf]
  split
  · next hv =>
    rw [(leaf_of_not_table hf hm hr).2 v hv]
    apply viewOf_sameTarget .refl
    intro hmaps
    refine hm _ ?_
    rintro rfl
    exact hnot hv hmaps
  · rfl

theorem Inv.rewritePrivate (m' : Machine) (hi : Inv base m kern (r :: rest)) (hv : page < pageCount 3)
    (hmaps : Maps (leaf m.mem 3 r page) f) (hw : writable (leaf m.mem 3 r page) = true)
    (hp : m'.pmm = m.pmm) (hm : ∀ g, g ≠ f → m'.mem g = m.mem g) :
    Inv base m' kern (r :: rest) ∧ SeenAt m m' kern r rest page (.priv (pageBytes (m'.mem f))) := by
  obtain ⟨_, hn, _⟩ := hi.mapped r mem_cons_self page hv f hmaps
  have hf : f ∉ allTables m.mem (r :: rest) := fun hmem => hn (mem_append_left _ hmem)
  have hone := hi.exclusive r mem_cons_self page hv f hmaps hw
  have hmine : 0 < refsIn m.mem 3 r f := refsIn_pos.mpr ⟨page, hv, hmaps⟩
  refine ⟨hi.rewrite hf hp hm, ?_, ?_, ?_⟩
  · funext v
    by_cases hvp : v = page
    · subst hvp
      have hpriv := hmaps.flags
      rw [update_self, pagesOf, if_pos hv, (leaf_of_not_table hf hm mem_cons_self).2 v hv, viewOf, hmaps.2]
      simp [hpriv.1, hpriv.2]
    · rw [update_of_ne hvp]
      refine pagesOf_rewrite hf hm mem_cons_self ?_
      intro hlt hother
      exact hvp (hi.home r mem_cons_self v hlt r mem_cons_self page hv f hother hmaps)
  · intro r' hr'
    funext v
    refine pagesOf_rewrite hf hm (mem_cons_of_mem _ hr') ?_
    intro hlt hother
    have hpos : 0 < totalRefs m.mem rest f := totalRefs_pos.mpr ⟨r', hr', v, hlt, hother⟩
    rw [totalRefs_cons] at hone
    omega
  · intro g hg
    refine hm g ?_
    rintro rfl
    exact hn (mem_append_right _ hg)

theorem Inv.rewriteShared (m' : Machine) (hi : Inv base m kern roots) (hf : f ∈ kern) (hp : m'.pmm = m.pmm)
    (hm : ∀ g, g ≠ f → m'.mem g = m.mem g) :
    Inv base m' kern roots ∧ ∀ r ∈ roots, pagesOf m'.mem r = pagesOf m.mem r := by
  have hnt : f ∉ allTables m.mem roots := by
    intro hmem
    exact (nodup_append.mp hi.nodup).2.2 f hmem f hf rfl
  refine ⟨hi.rewrite hnt hp hm, ?_⟩
  intro r hr
  funext v
  refine pagesOf_rewrite hnt hm hr ?_
  intro hlt hmaps
  exact (hi.mapped r hr v hlt f hmaps).2.1 (mem_append_right _ hf)

theorem storeByte_keeps (hg : g ≠ f) : (storeByte m f o b).mem g = m.mem g := mem_set_of_ne hg

end NyanOS.Memory
