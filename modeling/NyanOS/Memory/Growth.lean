import NyanOS.Memory.Effects
import NyanOS.Memory.Eager

/-! The loops that add pages to an address space or take them away. -/

namespace NyanOS.Memory

open Function List

variable {base : Nat → Bool} {m m' m₁ : Machine} {kern roots rest new kern' l fs : List Nat}
  {r r' page v f g n pml4 : Nat} {b : Byte} {view : Page}

/-- The pages of one address space have changed, and nothing else. -/
structure SeenIn (m m' : Machine) (kern : List Nat) (r : Nat) (rest : List Nat)
    (pages : Nat → Page) : Prop where
  page : pagesOf m'.mem r = pages
  pages : ∀ r' ∈ rest, pagesOf m'.mem r' = pagesOf m.mem r'
  kern : ∀ f ∈ kern, m'.mem f = m.mem f

theorem SeenIn.refl : SeenIn m m kern r rest (pagesOf m.mem r) := ⟨rfl, fun _ _ => rfl, fun _ _ => rfl⟩

theorem SeenAt.seenIn (h : SeenAt m m' kern r rest page view) :
    SeenIn m m' kern r rest (update (pagesOf m.mem r) page view) :=
  ⟨h.page, h.pages, h.kern⟩

theorem Unseen.seenIn (h : Unseen m m' kern (r :: rest)) : SeenIn m m' kern r rest (pagesOf m.mem r) :=
  ⟨h.pages r mem_cons_self, fun r' hr' => h.pages r' (mem_cons_of_mem _ hr'), h.kern⟩

theorem SeenIn.trans {ps qs : Nat → Page} (h : SeenIn m m₁ kern r rest ps)
    (h' : SeenIn m₁ m' kern r rest qs) : SeenIn m m' kern r rest qs :=
  ⟨h'.page, fun r' hr' => (h'.pages r' hr').trans (h.pages r' hr'), fun f hf => (h'.kern f hf).trans (h.kern f hf)⟩

theorem SeenIn.mono {ps : Nat → Page} (h : SeenIn m m' kern' r rest ps)
    (hk : ∀ f ∈ kern, f ∈ kern') : SeenIn m m' kern r rest ps :=
  ⟨h.page, h.pages, fun f hf => h.kern f (hk f hf)⟩

/-- The three ways in which the mapping of a new page can end. -/
inductive ZeroPage (base : Nat → Bool) (m : Machine) (kern : List Nat) (r : Nat) (rest : List Nat)
    (page : Nat) : Nat × Bool × Machine → Prop
  | full : ZeroPage base m kern r rest page (0, false, m)
  | mapped {f : Nat} {m' : Machine} (hne : f ≠ 0) (hi : Inv base m' kern (r :: rest))
      (hs : SeenAt m m' kern r rest page zeroPage) (hm : Maps (leaf m'.mem 3 r page) f)
      (hw : writable (leaf m'.mem 3 r page) = true) : ZeroPage base m kern r rest page (f, true, m')
  | noTable {f : Nat} {m' : Machine} (hne : f ≠ 0) (hi : Inv base m' (f :: kern) (r :: rest))
      (hu : Unseen m m' kern (r :: rest)) : ZeroPage base m kern r rest page (f, false, m')

section
variable (hi : Inv base m kern (r :: rest))
include hi

theorem Inv.newPage (hv : page < pageCount 3) : ZeroPage base m kern r rest page (mapZeroPage m r page) := by
  rcases hi.allocFrame with hfull | ⟨f, hne, hcall, hclear, htake⟩
  · have hrun : mapZeroPage m r page = (0, false, m) := by simp [mapZeroPage, hfull]
    rw [hrun]
    exact .full
  obtain ⟨hi₁, hsh⟩ := htake fun _ => 0
  have hu := hi.take_unseen hclear fun _ => 0
  have hfill : ((m.take f).fill f fun _ => 0).mem f = fun _ => 0 := mem_fill_self _
  have hrun : mapZeroPage m r page = (f, vmmMapPage ((m.take f).fill f fun _ => 0) r page f privateFlags) := by
    simp [mapZeroPage, hcall, hne]
  have hlt := hi₁.frame_lt (f := f) mem_cons_self
  generalize ((m.take f).fill f fun _ => 0) = m₁ at *
  rw [hrun]
  rcases hi₁.mapPrivate hv hsh with ⟨m', hmap, hi', hseen, hleaf⟩ | ⟨m', hmap, hi', hunseen⟩
  · rw [hmap]
    rw [hfill, pageBytes_zero] at hseen
    refine .mapped hne hi' (hseen.after hu) ?_ ?_
    · rw [hleaf, maps_privateFlags hlt]
    · rw [hleaf, writable_mkPte]
      decide
  · rw [hmap]
    refine .noTable hne hi' (hu.trans ?_)
    exact hunseen.mono (fun g hg => mem_cons_of_mem _ hg) fun _ h => h

theorem Inv.growHeap {pages : List Nat} (hv : ∀ page ∈ pages, page < pageCount 3) :
    Inv base (sbrkLoop r pages m).2.2 ((sbrkLoop r pages m).2.1 ++ kern) (r :: rest) ∧
      SeenIn m (sbrkLoop r pages m).2.2 kern r rest
        (place (pagesOf m.mem r) (pages.map fun page => (page, zeroPage)) (sbrkLoop r pages m).1) := by
  induction pages generalizing m kern with
  | nil => exact ⟨hi, .refl⟩
  | cons page pages ih =>
    obtain ⟨hpage, hrest⟩ := forall_mem_cons.mp hv
    have hz := hi.newPage hpage
    generalize hrun : mapZeroPage m r page = res at hz
    cases hz with
    | full =>
      simp only [sbrkLoop, hrun]
      exact ⟨hi, .refl⟩
    | @mapped f m₁ hne hi₁ hs _ _ =>
      obtain ⟨hi₂, hs₂⟩ := ih hi₁ hrest
      obtain ⟨k, rfl⟩ := Nat.exists_eq_succ_of_ne_zero hne
      simp only [sbrkLoop, hrun, if_true, map_cons, place]
      rw [hs.page] at hs₂
      exact ⟨hi₂, hs.seenIn.trans hs₂⟩
    | @noTable f m₁ hne hi₁ hu =>
      obtain ⟨hi₂, hs₂⟩ := ih hi₁ hrest
      obtain ⟨k, rfl⟩ := Nat.exists_eq_succ_of_ne_zero hne
      simp only [sbrkLoop, hrun, map_cons, place, Bool.false_eq_true, if_false]
      rw [hu.pages r mem_cons_self] at hs₂
      refine ⟨hi₂.perm (List.Perm.refl _) perm_middle, hu.seenIn.trans (hs₂.mono ?_)⟩
      intro g hg
      exact mem_cons_of_mem _ hg

theorem Inv.mapObject {pairs : List (Nat × Nat)}
    (hv : ∀ p ∈ pairs, p.1 < pageCount 3 ∧ p.2 ∈ kern) : Inv base (mmapLoop r pairs m).2 kern (r :: rest) ∧
      SeenIn m (mmapLoop r pairs m).2 kern r rest
        (place (pagesOf m.mem r) (pairs.map fun p => (p.1, .shm p.2)) (mmapLoop r pairs m).1) := by
  induction pairs generalizing m with
  | nil => exact ⟨hi, .refl⟩
  | cons p pairs ih =>
    obtain ⟨page, f⟩ := p
    obtain ⟨⟨hpage, hf⟩, hrest⟩ := forall_mem_cons.mp hv
    rcases hi.mapShared hpage hf with ⟨m₁, hmap, hi₁, hs⟩ | ⟨m₁, hmap, hi₁, hu⟩
    · obtain ⟨hi₂, hs₂⟩ := ih hi₁ hrest
      rw [hs.page] at hs₂
      simp only [mmapLoop, hmap, map_cons, place, if_true]
      exact ⟨hi₂, hs.seenIn.trans hs₂⟩
    · obtain ⟨hi₂, hs₂⟩ := ih hi₁ hrest
      rw [hu.pages r mem_cons_self] at hs₂
      simp only [mmapLoop, hmap, map_cons, place, Bool.false_eq_true, if_false]
      exact ⟨hi₂, hu.seenIn.trans hs₂⟩

end

/-- No page of the list is private. -/
def NoPrivate (pages : Nat → Page) (l : List Nat) : Prop := ∀ v ∈ l, ∀ bytes, pages v ≠ .priv bytes

theorem isPrivate_of_view (hv : v < pageCount 3) (h : ∀ bytes, pagesOf m.mem r v ≠ .priv bytes) :
    isPrivate (leaf m.mem 3 r v) = false := by
  rw [pagesOf, if_pos hv, viewOf] at h
  cases hp : present (leaf m.mem 3 r v) with
  | false => simp [isPrivate, hp]
  | true =>
    cases hs : shared (leaf m.mem 3 r v) with
    | false =>
      simp only [hp, hs, if_true, Bool.false_eq_true, if_false] at h
      exact absurd rfl (h _)
    | true => simp [isPrivate, hs]

theorem Inv.unmapOne (hi : Inv base m kern (r :: rest)) (hv : v < pageCount 3)
    (hnot : ∀ bytes, pagesOf m.mem r v ≠ .priv bytes) : Inv base (unmapOne r true m v) kern (r :: rest) ∧
      SeenAt m (unmapOne r true m v) kern r rest v .absent := by
  have hpriv := isPrivate_of_view hv hnot
  cases hp : present (leaf m.mem 3 r v) with
  | false =>
    have hrun : NyanOS.Memory.unmapOne r true m v = m := by
      simp [NyanOS.Memory.unmapOne, vmmVirt2Phys_eq, hp]
    have hview : pagesOf m.mem r v = .absent := by
      rw [pagesOf, if_pos hv, viewOf, hp]
      rfl
    rw [hrun]
    refine ⟨hi, ?_, fun _ _ => rfl, fun _ _ => rfl⟩
    rw [← hview, update_eq_self]
  | true =>
    have hs : shared (leaf m.mem 3 r v) = true := by simpa [isPrivate, hp] using hpriv
    have hmem := (hi.sharedOk r mem_cons_self v hv hp hs).1
    have hlow := (hi.owned _ (mem_append_right _ hmem)).1.low
    obtain ⟨k, hk⟩ := Nat.exists_eq_succ_of_ne_zero (show frameOf (leaf m.mem 3 r v) ≠ 0 by omega)
    have hrun : NyanOS.Memory.unmapOne r true m v = vmmUnmapPage m r v := by
      simp [NyanOS.Memory.unmapOne, vmmVirt2Phys_eq, hp, hk]
    rw [hrun]
    exact hi.unmap hv hpriv

theorem Inv.unmapRegion (hi : Inv base m kern (r :: rest))
    (hv : ∀ v ∈ l, v < pageCount 3) (hnot : NoPrivate (pagesOf m.mem r) l) :
    Inv base (l.foldl (NyanOS.Memory.unmapOne r true) m) kern (r :: rest) ∧
      SeenIn m (l.foldl (NyanOS.Memory.unmapOne r true) m) kern r rest
        fun v => if v ∈ l then .absent else pagesOf m.mem r v := by
  induction l generalizing m with
  | nil => simpa using ⟨hi, SeenIn.refl⟩
  | cons page l ih =>
    obtain ⟨hpage, hrest⟩ := forall_mem_cons.mp hv
    obtain ⟨hi₁, hs⟩ := hi.unmapOne hpage (hnot page mem_cons_self)
    have hnot₁ : NoPrivate (pagesOf (NyanOS.Memory.unmapOne r true m page).mem r) l := by
      intro v hmem bytes
      rw [hs.page]
      by_cases hvp : v = page
      · simp [hvp]
      · rw [update_of_ne hvp]
        exact hnot v (mem_cons_of_mem _ hmem) bytes
    obtain ⟨hi₂, hs₂⟩ := ih hi₁ hrest hnot₁
    refine ⟨hi₂, ?_⟩
    have hview : (fun v => if v ∈ l then Page.absent
        else pagesOf (NyanOS.Memory.unmapOne r true m page).mem r v) =
        fun v => if v ∈ page :: l then Page.absent else pagesOf m.mem r v := by
      funext v
      rw [hs.page]
      by_cases hvp : v = page
      · simp [hvp]
      · simp [hvp]
    rw [hview] at hs₂
    exact hs.seenIn.trans hs₂

theorem Inv.unshared_of_unseen (hi : Inv base m kern roots) (hu : Unseen m m' kern roots)
    (hf : f ∉ kern) : Unshared m' roots f := by
  intro r hr v hv hp hs
  have hview := congrFun (hu.pages r hr) v
  simp only [pagesOf, if_pos hv] at hview
  rw [viewOf, hp, hs] at hview
  cases hp₀ : present (leaf m.mem 3 r v) with
  | false => simp [viewOf, hp₀] at hview
  | true =>
    cases hs₀ : shared (leaf m.mem 3 r v) with
    | false => simp [viewOf, hp₀, hs₀] at hview
    | true =>
      simp only [viewOf, hp₀, hs₀, if_true, Page.shm.injEq] at hview
      rintro rfl
      rw [hview] at hf
      exact hf (hi.sharedOk r hr v hv hp₀ hs₀).1

theorem Inv.shmAlloc (hi : Inv base m kern roots) : Inv base (shmAlloc n m).2.2 ((shmAlloc n m).2.1 ++ kern) roots ∧
      Unseen m (shmAlloc n m).2.2 kern roots ∧
      ∀ f ∈ (shmAlloc n m).2.1, (shmAlloc n m).2.2.mem f = fun _ => 0 := by
  induction n generalizing m kern with
  | zero => exact ⟨hi, .refl, by simp [NyanOS.Memory.shmAlloc]⟩
  | succ n ih =>
    rcases hi.allocFrame with hfull | ⟨f, hne, hcall, hclear, htake⟩
    · simp only [NyanOS.Memory.shmAlloc, hfull, if_true]
      exact ⟨hi, .refl, by simp⟩
    obtain ⟨hi₁, _⟩ := htake fun _ => 0
    have hu := hi.take_unseen hclear fun _ => 0
    obtain ⟨hi₂, hu₂, hzero⟩ := ih hi₁
    have hfill : ((m.take f).fill f fun _ => 0).mem f = fun _ => 0 := mem_fill_self _
    simp only [NyanOS.Memory.shmAlloc, hcall, hne, if_false]
    refine ⟨hi₂.perm (List.Perm.refl _) perm_middle, ?_, ?_⟩
    · exact hu.trans (hu₂.mono (fun g hg => mem_cons_of_mem _ hg) fun _ h => h)
    · intro g hg
      rcases mem_cons.mp hg with rfl | hg
      · rw [hu₂.kern g mem_cons_self, hfill]
      · exact hzero g hg

theorem Inv.freeFrames (hi : Inv base m (fs ++ kern) roots) (hsh : ∀ f ∈ fs, Unshared m roots f) :
    Inv base { m with pmm := fs.foldl pmmFreeFrame m.pmm } kern roots := by
  induction fs generalizing m with
  | nil => exact hi
  | cons f fs ih =>
    obtain ⟨hf, hrest⟩ := forall_mem_cons.mp hsh
    exact ih (hi.give hf) fun g hg r hr v hv => hrest g hg r hr v hv

end NyanOS.Memory
