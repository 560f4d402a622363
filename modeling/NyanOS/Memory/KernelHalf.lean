import NyanOS.Memory.KernelRegions
import NyanOS.Memory.SharedKernel

/-!
# Every address space sees the same kernel

The invariant over whole runs: operations of the kernel on its regions, then operations on the address spaces.
-/
namespace NyanOS.Memory

open Lib Extent List Option

variable {base : Nat → Bool} {kern root curr r v f g i page n addr start ptr : Nat} {m m' : Machine}
  {roots objects objects' win win' rest l : List Nat} {S : Set Nat} {s s' : KernelSpace} {free : List Extent}
  {nodes pre post : List VmAllocated} {a : VmAllocated} {view : Page} {roots' : List Nat} {K : List Nat}

/-- The regions of the nodes that are not empty. -/
def liveOf (nodes : List VmAllocated) : List (Nat × Nat) :=
  (nodes.filter fun a => decide (0 < a.size)).map fun a => (a.addr, a.size)

theorem liveOf_empty (h : a.size = 0) : liveOf (pre ++ a :: post) = liveOf (pre ++ post) := by
  have hdrop : ¬ decide (0 < a.size) = true := by rw [h]; exact Bool.false_ne_true
  rw [liveOf, liveOf, filter_append, filter_append, filter_cons, if_neg hdrop]

theorem liveOf_middle (h : 0 < a.size) : liveOf (pre ++ a :: post) = liveOf pre ++ (a.addr, a.size) :: liveOf post := by
  rw [liveOf, filter_append, filter_cons, if_pos (decide_eq_true h), map_append]
  rfl

theorem liveOf_append : liveOf (pre ++ post) = liveOf pre ++ liveOf post := by
  rw [liveOf, filter_append, map_append]
  rfl

/-- The lists of regions, and the pages behind them. -/
structure KernelOk (base : Nat → Bool) (kern root : Nat) (roots objects : List Nat) (s : KernelSpace) : Prop where
  tiling : Tiling kernWindow s.vmFree (liveOf s.vmAlloc)
  freePaged : ∀ e ∈ s.vmFree, Paged e
  nodes : ∀ a ∈ s.vmAlloc, pageSize ∣ a.addr ∧ alignedSize a.size = a.size ∧ a.flags = 0
  halves : ∃ win S, Halves base kern root s.machine roots objects win S ∧ S ⊆ livePages (liveOf s.vmAlloc)

theorem pop_split {left : List VmAllocated} (h : vmmPopAllocatedMem addr nodes = some (a, left)) :
    a.addr = addr ∧ ∃ pre post, nodes = pre ++ a :: post ∧ left = pre ++ post := by
  induction nodes generalizing left with
  | nil => cases h
  | cons b nodes ih =>
    rw [vmmPopAllocatedMem] at h
    split at h
    · next hb =>
      obtain ⟨rfl, rfl⟩ := Prod.mk.inj (some.inj h)
      exact ⟨hb, [], nodes, rfl, rfl⟩
    obtain ⟨⟨c, rest⟩, hpop, heq⟩ := map_eq_some_iff.mp h
    cases heq
    obtain ⟨ha, pre, post, rfl, rfl⟩ := ih hpop
    exact ⟨ha, b :: pre, post, rfl, rfl⟩

theorem findFreeAddr_zero (h : Separated free) : (findFreeAddr free 0).2 = free := by
  cases free with
  | nil => rfl
  | cons e free =>
    rw [findFreeAddr, if_pos (h.pos e mem_cons_self)]
    rfl

namespace KernelOk

variable (h : KernelOk base kern root roots objects s)
include h

theorem found {left : List Extent} (hn : 0 < alignedSize n)
    (hfind : findFreeAddr s.vmFree (alignedSize n) = (start, left)) (hstart : start ≠ 0) :
    pageSize ∣ start ∧ (∀ e ∈ left, Paged e) ∧
      Tiling kernWindow left ((start, alignedSize n) :: liveOf s.vmAlloc) := by
  obtain ⟨hleft, hpaged⟩ := findFreeAddr_paged (dvd_alignedSize n) h.freePaged
  have hpos : 0 < alignedSize (alignedSize n) := by rwa [alignedSize_alignedSize]
  have htake := h.tiling.take hpos (alignedSize_alignedSize n).ge (by rwa [alignedSize_alignedSize, hfind])
  rw [alignedSize_alignedSize, hfind] at htake
  rw [hfind] at hleft hpaged
  exact ⟨(hpaged hstart).1, hleft, htake⟩

theorem allocGlobal (hc : curr = kern ∨ curr ∈ roots) (size : Nat) :
    KernelOk base kern root roots objects (vmmAllocGlobal kern s curr size).2.2 := by
  rw [vmmAllocGlobal]
  split
  · exact h
  generalize hfind : findFreeAddr s.vmFree (alignedSize size) = res
  obtain ⟨start, left⟩ := res
  dsimp only
  split
  · exact h
  next hstart =>
  by_cases hn : alignedSize size = 0
  · -- a size that wraps around: the node is empty
    have hleft : left = s.vmFree := by
      have hzero := findFreeAddr_zero h.tiling.separated
      rw [← hn, hfind] at hzero
      exact hzero
    have hstartPaged : pageSize ∣ start := by
      have hpaged := (findFreeAddr_paged (dvd_alignedSize size) h.freePaged).2
      rw [hfind] at hpaged
      exact (hpaged hstart).1
    have hempty : liveOf ([] ++ ⟨start, 0, 0⟩ :: s.vmAlloc) = liveOf ([] ++ s.vmAlloc) := liveOf_empty rfl
    rw [nil_append, nil_append] at hempty
    rw [hn]
    simp only [Nat.zero_div, range'_zero, allocLoop, length_nil, lt_irrefl, if_false, hleft]
    refine ⟨?_, h.freePaged, ?_, ?_⟩
    · rw [vmmAddAllocatedMem, hempty]
      exact h.tiling
    · exact forall_mem_cons.mpr ⟨⟨hstartPaged, (by decide : alignedSize 0 = 0), rfl⟩, h.nodes⟩
    · rw [vmmAddAllocatedMem, hempty]
      exact h.halves
  have hpos : 0 < alignedSize size := pos_of_ne_zero hn
  obtain ⟨haligned, hleft, htake⟩ := h.found hpos hfind hstart
  obtain ⟨win, S, hh, hS⟩ := h.halves
  have hcons : livePages ((start, alignedSize size) :: liveOf s.vmAlloc) = _ := livePages_cons haligned
  have hmiddle : livePages ([] ++ liveOf s.vmAlloc) = _ := Tiling.livePages_middle htake haligned
  rw [alignedSize_alignedSize] at hcons hmiddle
  have hpages : ∀ v ∈ range' (start / pageSize) (alignedSize size / pageSize), v ∈ kernPages ∧ v ∉ S := by
    intro v hv
    refine ⟨htake.livePages_sub ?_, fun hmem => ?_⟩
    · rw [hcons]
      exact .inr hv
    · have hlive := hS hmem
      rw [nil_append, nil_append] at hmiddle
      rw [hmiddle] at hlive
      exact hlive.2 hv
  obtain ⟨win', T, hT, -, hTS⟩ := hh.mapLoop hc nodup_range' hpages
  generalize allocLoop kern curr (range' (start / pageSize) (alignedSize size / pageSize)) s.machine = res at hT hTS
  obtain ⟨flags, m⟩ := res
  dsimp only at hT hTS ⊢
  split
  · -- memory ran out: the pages mapped so far are unmapped again
    have hgive : Tiling kernWindow _ ([] ++ liveOf s.vmAlloc) := Tiling.give htake
    rw [alignedSize_alignedSize] at hgive
    obtain ⟨win'', hroll⟩ := Halves.unmapLoop (fun h' hv => h'.rollTurn hv) hT fun v hv =>
      (hpages v (mem_of_mem_take hv)).1
    refine ⟨hgive, ?_, h.nodes, win'', _, hroll, fun v hv => ?_⟩
    · exact vmmAddFreeRegion_paged hleft haligned (dvd_alignedSize size)
    · exact hS ((hTS hv.1).resolve_right hv.2)
  · have hlive : liveOf ([] ++ ⟨start, alignedSize size, 0⟩ :: s.vmAlloc) = (start, alignedSize size) :: liveOf s.vmAlloc :=
      liveOf_middle hpos
    rw [nil_append] at hlive
    refine ⟨?_, hleft, ?_, win', T, hT, fun v hv => ?_⟩
    · rw [vmmAddAllocatedMem, hlive]
      exact htake
    · exact forall_mem_cons.mpr ⟨⟨haligned, alignedSize_alignedSize size, rfl⟩, h.nodes⟩
    · rw [vmmAddAllocatedMem, hlive, hcons]
      rcases hTS hv with hmem | hmem
      · exact .inl (hS hmem)
      · exact .inr (mem_of_mem_take hmem)

theorem vmmFree (hfree : vmmFree kern s ptr = some s') :
    KernelOk base kern root roots objects s' := by
  rw [Memory.vmmFree] at hfree
  split at hfree
  · cases hfree
    exact h
  obtain ⟨⟨a, left⟩, hpop, heq⟩ := map_eq_some_iff.mp hfree
  obtain rfl := heq
  obtain ⟨rfl, pre, post, hnodes, rfl⟩ := pop_split hpop
  obtain ⟨win, S, hh, hS⟩ := h.halves
  have hall := h.nodes
  have ht := h.tiling
  rw [hnodes] at hall ht hS
  obtain ⟨haligned, hsize, hflags⟩ := hall a (by simp)
  have hrest : ∀ b ∈ pre ++ post, pageSize ∣ b.addr ∧ alignedSize b.size = b.size ∧ b.flags = 0 := fun b hb =>
    hall b (((sublist_cons_self a post).append_left pre).subset hb)
  have hshm : a.isShm = false := by
    rw [VmAllocated.isShm, hflags]
    decide
  dsimp only
  rw [hshm, hsize, regionPages, hsize]
  rcases Nat.eq_zero_or_pos a.size with hz | hpos
  · rw [hz]
    refine ⟨?_, h.freePaged, hrest, win, S, hh, ?_⟩
    · rw [liveOf_empty hz] at ht
      exact ht
    · rw [liveOf_empty hz] at hS
      exact hS
  · rw [liveOf_middle hpos] at ht hS
    have hmiddle := ht.livePages_middle haligned
    have hgive := ht.give
    rw [hsize, ← liveOf_append] at hgive hmiddle
    have hpages : ∀ v ∈ range' (a.addr / pageSize) (a.size / pageSize), v ∈ kernPages := by
      intro v hv
      refine ht.livePages_sub ?_
      show v * pageSize ∈ cover _
      rw [cover_middle]
      refine .inl ?_
      rw [← mem_regionPages haligned, hsize]
      exact hv
    obtain ⟨win', hdone⟩ := Halves.unmapLoop (fun h' hv => h'.freeTurn hv) hh hpages
    refine ⟨hgive, ?_, hrest, win', _, hdone, ?_⟩
    · refine vmmAddFreeRegion_paged h.freePaged haligned ?_
      rw [← hsize]
      exact dvd_alignedSize a.size
    · rw [hmiddle]
      exact Set.sdiff_subset_sdiff_left hS

end KernelOk

/-! ### Operations on address spaces -/

theorem shm_iff : pagesOf m.mem r v = .shm f ↔ v < pageCount 3 ∧ present (leaf m.mem 3 r v) = true ∧
    shared (leaf m.mem 3 r v) = true ∧ frameOf (leaf m.mem 3 r v) = f := by
  simp only [pagesOf, viewOf]
  split_ifs with hv hp hs <;> simp_all

theorem Inv.unmapPrivate (hi : Inv base m K (r :: rest)) (hv : page < pageCount 3)
    (hmaps : Maps (leaf m.mem 3 r page) f) :
    Inv base { vmmUnmapPage m r page with pmm := pmmFreeFrame m.pmm f } K (r :: rest) ∧
      SeenAt m { vmmUnmapPage m r page with pmm := pmmFreeFrame m.pmm f } K r rest page .absent := by
  have hzero : ∀ g, ¬ Maps 0 g := fun g h => absurd h.1 (by decide)
  have hstore : StoreSpec m { vmmUnmapPage m r page with pmm := pmmFreeFrame m.pmm f } r page 0 := by
    rcases vmmUnmapPage_spec (hi.treeOk mem_cons_self) hv with hs | ⟨-, hleaf⟩
    · exact ⟨hs.tables, hs.leaf, hs.keeps⟩
    · rw [hleaf] at hmaps
      exact absurd hmaps (hzero f)
  obtain ⟨ha, -⟩ := hi.mapped r mem_cons_self page hv f hmaps
  refine ⟨hi.replace [] hv hstore ?_ ?_ ?_ ?_ ?_, hi.replace_seenAt hv hstore fun g hg => absurd hg (hzero g)⟩
  · exact drop_decRef hi.pmm hmaps ha (hi.mapped_ref mem_cons_self hv hmaps).2
  · intro g
    exact iff_of_false (hzero g) not_mem_nil
  · intro hp
    exact absurd hp (by decide)
  · intro hp
    exact absurd hp (by decide)
  · intro g hg
    exact absurd hg not_mem_nil

namespace Halves

section
variable (h : Halves base kern root m roots objects win S)
include h

theorem perm (hp : roots.Perm roots') : Halves base kern root m roots' objects win S := by
  refine ⟨h.inv.perm hp (List.Perm.refl _), fun r hr => ?_, h.atStart, h.here, fun r hr => ?_, h.window⟩
  · exact h.sharedIn r (hp.mem_iff.mpr hr)
  · exact h.upper r (hp.mem_iff.mpr hr)

theorem shows : ∀ r ∈ roots, ∀ v f, pagesOf m.mem r v = .shm f → f ∈ objects := by
  intro r hr v f hview
  obtain ⟨hv, hp, hs, rfl⟩ := shm_iff.mp hview
  exact h.sharedIn r hr v hv hp hs

/-- What is left to show after an operation that keeps away from the kernel's frames. -/
theorem user (hi : Inv base m' (objects' ++ win') roots') (hwin : ∀ f ∈ win, f ∈ win')
    (hsame : ∀ g, base g = true ∨ g ∈ win → m'.mem g = m.mem g)
    (hshows : ∀ r ∈ roots', ∀ v f, pagesOf m'.mem r v = .shm f → f ∈ objects')
    (hupper : ∀ r ∈ roots', ∀ i, 256 ≤ i → i < 512 → m'.mem r i = m.mem kern i) :
    Halves base kern root m' roots' objects' win' S := by
  have hkern : m'.mem kern = m.mem kern := hsame kern (.inl h.atStart)
  refine ⟨hi, fun r hr v hv hp hs => ?_, h.atStart, ?_, ?_, ?_⟩
  · exact hshows r hr v _ (shm_iff.mpr ⟨hv, hp, hs, rfl⟩)
  · rw [hkern]
    exact h.here
  · rw [hkern]
    exact hupper
  · exact h.window.congr hkern (fun g hg => hsame g (h.window.owned g hg)) hwin

end

section
variable (h : Halves base kern root m (r :: rest) objects win S) (hc : Confined m m' r)
include h hc

theorem upper_kept : ∀ r' ∈ r :: rest, ∀ i, 256 ≤ i → i < 512 → m'.mem r' i = m.mem kern i := by
  intro r' hr' i hlo hhi
  rw [← h.upper r' hr' i hlo hhi]
  rcases mem_cons.mp hr' with rfl | hrest
  · exact hc.upper i hlo
  · rw [(h.inv.confined hc).2 r' hrest]

theorem confined (hi : Inv base m' (objects ++ win') (r :: rest)) (hwin : ∀ f ∈ win, f ∈ win')
    (hshows : ∀ r' ∈ r :: rest, ∀ v f, pagesOf m'.mem r' v = .shm f → f ∈ objects) :
    Halves base kern root m' (r :: rest) objects win' S := by
  refine h.user hi hwin (fun g hg => ?_) hshows (h.upper_kept hc)
  exact (h.inv.confined hc).1 g (hg.imp_right (mem_append_right _))

end

theorem shows_unseen (h : Halves base kern root m roots objects win S) (hu : Unseen m m' K roots) :
    ∀ r ∈ roots, ∀ v f, pagesOf m'.mem r v = .shm f → f ∈ objects := by
  intro r hr
  rw [hu.pages r hr]
  exact h.shows r hr

theorem shows_seenAt (h : Halves base kern root m (r :: rest) objects win S)
    (hs : SeenAt m m' K r rest page view) (hview : ∀ f, view = .shm f → f ∈ objects) :
    ∀ r' ∈ r :: rest, ∀ v f, pagesOf m'.mem r' v = .shm f → f ∈ objects := by
  intro r' hr' v f hshm
  rcases mem_cons.mp hr' with rfl | hrest
  · rw [hs.page, Function.update_apply] at hshm
    split at hshm
    · exact hview f hshm
    · exact h.shows r' mem_cons_self v f hshm
  · rw [hs.pages r' hrest] at hshm
    exact h.shows r' hr' v f hshm

variable (h : Halves base kern root m (r :: rest) objects win S) (hv : page < pageCount 3)
include h

theorem freeTable : Halves base kern root (vmmFreeTable m 3 r) rest objects win S := by
  obtain ⟨hi, hu⟩ := h.inv.freeSpace
  refine h.user hi (fun _ hf => hf) (fun _ _ => rfl) (fun r' hr' => ?_) fun r' hr' => ?_
  · exact h.shows r' (mem_cons_of_mem _ hr')
  · exact h.upper r' (mem_cons_of_mem _ hr')

theorem fork (hlen : (r :: rest).length < maxTasks) : Halves base kern root (vmmCopyHierarchy m kern r).2
      (if (vmmCopyHierarchy m kern r).1 = 0 then r :: rest else (vmmCopyHierarchy m kern r).1 :: r :: rest)
      objects win S := by
  have hpre := h.inv.copyPre mem_cons_self
  have hc : Confined m (vmmCopyHierarchy m kern r).2 r := Confined.copy hpre
  have hchild := (copyHierarchy_upper kern hpre).2
  rcases h.inv.copyHierarchy hlen kern with ⟨c, m', hcall, hne, hi, hu, hpages⟩ | ⟨m', hcall, hi, hu⟩
  · rw [vmmCopyHierarchy] at hcall
    rw [hcall] at hchild
    rw [vmmCopyHierarchy, hcall] at hc ⊢
    rw [if_neg hne]
    refine h.user hi (fun _ hf => hf) (fun g hg => ?_) ?_ ?_
    · exact (h.inv.confined hc).1 g (hg.imp_right (mem_append_right _))
    · refine forall_mem_cons.mpr ⟨fun v f hshm => ?_, h.shows_unseen hu⟩
      rw [hpages] at hshm
      exact h.shows r mem_cons_self v f hshm
    · refine forall_mem_cons.mpr ⟨hchild hne (h.inv.boot kern h.atStart) fun hmem => ?_, h.upper_kept hc⟩
      have hfalse := (h.not_window (mem_allTables.mpr ⟨r, mem_cons_self, hmem⟩)).1
      exact Bool.false_ne_true (hfalse.symm.trans h.atStart)
  · rw [hcall] at hc ⊢
    exact h.confined hc hi (fun _ hf => hf) (h.shows_unseen hu)

include hv

theorem mapPage (content : Nat → Word) :
    ∃ win', Halves base kern root (mapFilled m r page content) (r :: rest) objects win' S := by
  have hidx := tableIndex_lt_limit hv
  rcases h.inv.allocFrame with hfull | ⟨f, hne, hcall, hclear, htake⟩
  · rw [mapFilled, hfull]
    exact ⟨win, h⟩
  obtain ⟨hi₁, hsh⟩ := htake content
  have hrun : mapFilled m r page content = (vmmMapPage ((m.take f).fill f content) r page f privateFlags).2 := by
    rw [mapFilled, hcall]
    simp only [if_neg hne]
  have hrbit := (h.inv.treeOk mem_cons_self).bits r table_mem_tables
  have htaken := Confined.take hrbit hclear content
  have hu := h.inv.take_unseen hclear content
  have htables : tables ((m.take f).fill f content).mem 3 r = tables m.mem 3 r := by
    exact tables_congr fun g hg => mem_fill_of_ne _ (Pmm.bit_ne ((h.inv.treeOk mem_cons_self).bits g hg) hclear)
  have hbits : ∀ g, m.pmm.bitmap g = true → ((m.take f).fill f content).pmm.bitmap g = true := by
    intro g hg
    show (m.pmm.take f).bitmap g = true
    rw [bitmap_take, hg, ite_self]
  generalize (m.take f).fill f content = m₁ at *
  have hc : Confined m (vmmMapPage m₁ r page f privateFlags).2 r := by
    refine htaken.trans hbits (fun g _ hg => ?_) (Confined.map (hi₁.treeOk mem_cons_self) hidx)
    rwa [htables] at hg
  rw [hrun]
  rcases hi₁.mapPrivate hv hsh with ⟨m', hmap, hi', hseen, -⟩ | ⟨m', hmap, hi', hunseen⟩
  · rw [hmap] at hc ⊢
    refine ⟨win, h.confined hc hi' (fun _ hf => hf) (h.shows_seenAt (hseen.after hu) fun g hg => ?_)⟩
    cases hg
  rw [hmap] at hc ⊢
  have hunseen' : Unseen m m' (objects ++ win) (r :: rest) :=
    hu.trans (hunseen.mono (fun g hg => mem_cons_of_mem f hg) fun _ hr => hr)
  refine ⟨f :: win, h.confined hc (hi'.perm (List.Perm.refl _) perm_middle.symm) (fun g hg => ?_)
    (h.shows_unseen hunseen')⟩
  exact mem_cons_of_mem f hg

theorem mapShared (hf : f ∈ objects) :
    Halves base kern root (vmmMapPage m r page f sharedFlags).2 (r :: rest) objects win S := by
  have hc : Confined m (vmmMapPage m r page f sharedFlags).2 r :=
    Confined.map (h.inv.treeOk mem_cons_self) (tableIndex_lt_limit hv)
  rcases h.inv.mapShared hv (mem_append_left win hf) with ⟨m', hmap, hi, hs⟩ | ⟨m', hmap, hi, hu⟩
  · rw [hmap] at hc ⊢
    refine h.confined hc hi (fun _ hg => hg) (h.shows_seenAt hs fun g hg => ?_)
    cases hg
    exact hf
  · rw [hmap] at hc ⊢
    exact h.confined hc hi (fun _ hg => hg) (h.shows_unseen hu)

theorem unmapPage :
    Halves base kern root (unmapOne r (shared (mmuEntry m r page)) m page) (r :: rest) objects win S := by
  have hidx := tableIndex_lt_limit hv
  have ht := h.inv.treeOk mem_cons_self
  have hc : Confined m (unmapOne r (shared (mmuEntry m r page)) m page) r := Confined.unmapOne ht.nodup hidx _
  have hentry : mmuEntry m r page = leaf m.mem 3 r page := by
    rw [mmuEntry, vmmWalkToPte, walkToPte_false]
    cases hslot : slot m.mem 3 r page with
    | none => exact (leaf_of_slot_none hslot).symm
    | some place => exact (leaf_of_slot hslot).symm
  rw [hentry, unmapOne, vmmVirt2Phys_eq] at hc ⊢
  cases hp : present (leaf m.mem 3 r page) with
  | false => exact h
  | true =>
    rw [hp, if_pos rfl] at hc
    rw [if_pos rfl]
    cases hsh : shared (leaf m.mem 3 r page) with
    | true =>
      obtain ⟨hi, hs⟩ := h.inv.unmap hv (by rw [isPrivate, hp, hsh]; rfl)
      rw [hsh] at hc
      cases hframe : frameOf (leaf m.mem 3 r page) with
      | zero => exact h
      | succ k =>
        rw [hframe] at hc
        exact h.confined hc hi (fun _ hg => hg) (h.shows_seenAt hs fun _ hg => Page.noConfusion hg)
    | false =>
      have hmaps : Maps (leaf m.mem 3 r page) (frameOf (leaf m.mem 3 r page)) := ⟨by rw [isPrivate, hp, hsh]; rfl, rfl⟩
      have hlow := (h.inv.mapped r mem_cons_self page hv _ hmaps).1.low
      obtain ⟨hi, hs⟩ := h.inv.unmapPrivate hv hmaps
      rw [hsh] at hc
      cases hframe : frameOf (leaf m.mem 3 r page) with
      | zero => exact h
      | succ k =>
        rw [hframe] at hc hi hs
        change Confined m { vmmUnmapPage m r page with pmm := pmmFreeFrame (vmmUnmapPage m r page).pmm (k + 1) } r at hc
        change Halves base kern root { vmmUnmapPage m r page with
          pmm := pmmFreeFrame (vmmUnmapPage m r page).pmm (k + 1) } (r :: rest) objects win S
        rw [vmmUnmapPage_pmm] at hc ⊢
        exact h.confined hc hi (fun _ hg => hg) (h.shows_seenAt hs fun _ hg => Page.noConfusion hg)

theorem cowFault : Halves base kern root (vmmHandleCow m r page).2 (r :: rest) objects win S := by
  have hidx := tableIndex_lt_limit hv
  have hc : Confined m (vmmHandleCow m r page).2 r := Confined.handleCow (h.inv.treeOk mem_cons_self) hidx
  cases hpriv : isPrivate (leaf m.mem 3 r page) with
  | true =>
    rcases h.inv.handleCow hv ⟨hpriv, rfl⟩ with hcall | ⟨m', hcall, hi, hu, -⟩
    · rw [hcall]
      exact h
    · rw [hcall] at hc ⊢
      exact h.confined hc hi (fun _ hg => hg) (h.shows_unseen hu)
  | false =>
    -- an absent page, or a shared one, which is writable already
    have hsame : (vmmHandleCow m r page).2 = m := by
      rw [vmmHandleCow, vmmWalkToPte, walkToPte_false]
      cases hslot : slot m.mem 3 r page with
      | none => rfl
      | some place =>
        obtain ⟨t, j⟩ := place
        have hleaf := leaf_of_slot hslot
        dsimp only
        split
        · rfl
        next hhere =>
        obtain ⟨hp, -⟩ := not_or.mp hhere
        rw [Bool.not_eq_false] at hp
        have hsh : shared (m.mem t j) = true := by
          rw [← hleaf] at hp ⊢
          simpa [isPrivate, hp] using hpriv
        obtain ⟨hin, hw⟩ := h.inv.sharedOk r mem_cons_self page hv (hleaf ▸ hp) (hleaf ▸ hsh)
        rw [hleaf] at hin hw
        obtain ⟨ha, href, -⟩ := h.inv.owned _ (mem_append_right _ hin)
        have hcount : pmmGetRefCount m.pmm (frameOf (m.mem t j)) ≤ 1 := by
          rw [pmmGetRefCount, if_pos ha.high, href]
        rw [if_pos hcount, setWritable_of_writable hw]
        exact set_self m t j
    rw [hsame]
    exact h

omit hv
omit h

theorem newPml4 (h : Halves base kern root m roots objects win S) (hlen : roots.length < maxTasks) :
    Halves base kern root (vmmNewPml4 m kern).2
      (if (vmmNewPml4 m kern).1 = 0 then roots else (vmmNewPml4 m kern).1 :: roots) objects win S := by
  rcases h.inv.newPml4 kern with hcall | ⟨f, m', hcall, hne, hi, hsh, hu, ht, hl⟩
  · rw [hcall]
    exact h
  obtain ⟨hclear, hother, hupper⟩ := vmmNewPml4_mem h.inv.pmm hcall hne
  have hin : ∀ g, m.pmm.bitmap g = true → g ≠ f := fun g hg => Pmm.bit_ne hg hclear
  rw [hcall]
  simp only [if_neg hne]
  refine h.user (hi.addRoot hlen hsh ht hl) (fun _ hg => hg) (fun g hg => hother g (hin g ?_)) ?_ ?_
  · exact hg.elim (h.inv.boot g) fun hwin => (h.win_owned hwin).1.bit
  · refine forall_mem_cons.mpr ⟨fun v g hshm => ?_, h.shows_unseen hu⟩
    obtain ⟨hv, hp, -⟩ := shm_iff.mp hshm
    rw [hl v hv] at hp
    cases hp
  · refine forall_mem_cons.mpr ⟨hupper (hin kern (h.inv.boot kern h.atStart)), fun r hr => ?_⟩
    rw [hother r (hin r (h.inv.bit_table (root_table hr)))]
    exact h.upper r hr

theorem takeObject (h : Halves base kern root m roots objects win S) :
    Halves base kern root { m with pmm := (pmmAllocFrame m.pmm).2 } roots
      (if (pmmAllocFrame m.pmm).1 = 0 then objects else (pmmAllocFrame m.pmm).1 :: objects) win S := by
  rcases h.inv.allocRaw with hfull | ⟨f, hne, hcall, hi⟩
  · rw [hfull]
    exact h
  rw [hcall]
  simp only [if_neg hne]
  refine h.user hi (fun _ hg => hg) (fun _ _ => rfl) (fun r hr v g hshm => ?_) h.upper
  exact mem_cons_of_mem f (h.shows r hr v g hshm)

end Halves

/-! ### Runs -/

theorem KernelOk.machine (h : KernelOk base kern root roots objects s)
    (hm : ∀ {win S}, Halves base kern root s.machine roots objects win S →
      ∃ win', Halves base kern root m' roots' objects' win' S) :
    KernelOk base kern root roots' objects' { s with machine := m' } := by
  obtain ⟨win, S, hh, hS⟩ := h.halves
  obtain ⟨win', hh'⟩ := hm hh
  exact ⟨h.tiling, h.freePaged, h.nodes, win', S, hh', hS⟩

theorem KernelOk.space (h : KernelOk base kern root roots objects s) (hr : r ∈ roots)
    (hm : ∀ {win S rest}, Halves base kern root s.machine (r :: rest) objects win S →
      ∃ win', Halves base kern root m' (r :: rest) objects win' S) :
    KernelOk base kern root roots objects { s with machine := m' } := by
  refine h.machine fun hh => ?_
  obtain ⟨win', hh'⟩ := hm (hh.perm (perm_cons_erase hr))
  exact ⟨win', hh'.perm (perm_cons_erase hr).symm⟩

def SpacesOk (base : Nat → Bool) (kern root : Nat) (x : Spaces) : Prop :=
  KernelOk base kern root x.roots x.objects x.kernel

theorem spacesOk_step {x y : Spaces} {act : SpaceAct} (hstep : spacesTo kern x act = some y)
    (h : SpacesOk base kern root x) : SpacesOk base kern root y := by
  have hok : KernelOk base kern root x.roots x.objects x.kernel := h
  cases act with
  | newPml4 =>
    obtain ⟨hlen, hy⟩ := ite_none_right_eq_some.mp hstep
    cases hy
    exact hok.machine fun hh => ⟨_, hh.newPml4 hlen⟩
  | fork pml4 =>
    obtain ⟨⟨hr, hlen⟩, hy⟩ := ite_none_right_eq_some.mp hstep
    cases hy
    refine hok.machine fun {win S} hh => ?_
    have hperm := perm_cons_erase hr
    have hfork := (hh.perm hperm).fork (hperm.length_eq ▸ hlen)
    refine ⟨win, ?_⟩
    show Halves base kern root (vmmCopyHierarchy x.kernel.machine kern pml4).2 (if
      (vmmCopyHierarchy x.kernel.machine kern pml4).1 = 0 then x.roots else
      (vmmCopyHierarchy x.kernel.machine kern pml4).1 :: x.roots) x.objects win S
    split at hfork
    · next hz =>
      rw [if_pos hz]
      exact hfork.perm hperm.symm
    next hz =>
    rw [if_neg hz]
    exact hfork.perm (hperm.symm.cons _)
  | allocGlobal curr size =>
    obtain ⟨hc, hy⟩ := ite_none_right_eq_some.mp hstep
    cases hy
    exact hok.allocGlobal hc size
  | free ptr =>
    obtain ⟨s, hs, rfl⟩ := map_eq_some_iff.mp hstep
    exact hok.vmmFree hs
  | takeObject =>
    cases hstep
    exact hok.machine fun hh => ⟨_, hh.takeObject⟩
  | mapPage pml4 page content =>
    obtain ⟨⟨hr, hv⟩, hy⟩ := ite_none_right_eq_some.mp hstep
    cases hy
    exact hok.space hr fun hh => hh.mapPage hv content
  | mapShared pml4 page frame =>
    obtain ⟨⟨⟨hr, hv⟩, hf⟩, hy⟩ := ite_none_right_eq_some.mp hstep
    cases hy
    exact hok.space hr fun hh => ⟨_, hh.mapShared hv hf⟩
  | unmapPage pml4 page =>
    obtain ⟨⟨hr, hv⟩, hy⟩ := ite_none_right_eq_some.mp hstep
    cases hy
    exact hok.space hr fun hh => ⟨_, hh.unmapPage hv⟩
  | cowFault pml4 page =>
    obtain ⟨⟨hr, hv⟩, hy⟩ := ite_none_right_eq_some.mp hstep
    cases hy
    exact hok.space hr fun hh => ⟨_, hh.cowFault hv⟩
  | freeTable pml4 =>
    obtain ⟨hr, hy⟩ := ite_none_right_eq_some.mp hstep
    cases hy
    exact hok.machine fun hh => ⟨_, (hh.perm (perm_cons_erase hr)).freeTable⟩

/-- A turn of the loop of `vmm_init` that is served leaves its entry present, and every other that was. -/
theorem initEntry_present (hok : m.pmm.Ok) (hkern : m.pmm.bitmap kern = true)
    (hserved : present (m.mem kern i) = true ∨ (pmmAllocFrame m.pmm).1 ≠ 0) :
    (initEntry kern m i).pmm.Ok ∧ (initEntry kern m i).pmm.bitmap kern = true ∧
      ∀ j, j = i ∨ present (m.mem kern j) = true → present ((initEntry kern m i).mem kern j) = true := by
  rw [initEntry]
  split
  · next hp =>
    refine ⟨hok, hkern, ?_⟩
    rintro j (rfl | hj)
    · exact hp
    · exact hj
  next hp =>
  rcases pmmAllocFrame_cases hok with ⟨hfull, -⟩ | ⟨f, hf, hlow, hhigh, hclear⟩
  · rw [hfull] at hserved
    exact absurd rfl (hserved.resolve_left hp)
  rw [hf]
  simp only [if_pos (show f ≠ 0 by omega)]
  have hgrow := grow_take hok hlow hhigh hclear
  have hne : kern ≠ f := Pmm.bit_ne hkern hclear
  refine ⟨hgrow.ok, hgrow.bit_mono hkern, fun j hj => ?_⟩
  rw [mem_set]
  split
  · rw [present_eq, BitVec.getLsbD_or, ← present_eq (e := kernFlags), (by decide : present kernFlags = true), Bool.or_true]
  next hij =>
  rw [mem_fill_of_ne _ hne]
  refine hj.resolve_left ?_
  rintro rfl
  exact hij ⟨rfl, rfl⟩

theorem initServed_present (hok : m.pmm.Ok) (hkern : m.pmm.bitmap kern = true)
    (hserved : InitServed kern m l) :
    ∀ j, j ∈ l ∨ present (m.mem kern j) = true → present ((l.foldl (initEntry kern) m).mem kern j) = true := by
  induction l generalizing m with
  | nil =>
    rintro j (hj | hj)
    · exact absurd hj not_mem_nil
    · exact hj
  | cons i l ih =>
    obtain ⟨hone, hrest⟩ := hserved
    obtain ⟨hok', hkern', hpresent⟩ := initEntry_present hok hkern hone
    rintro j (hj | hj)
    · rcases mem_cons.mp hj with rfl | hj
      · exact ih hok' hkern' hrest j (.inr (hpresent j (.inl rfl)))
      · exact ih hok' hkern' hrest j (.inl hj)
    · exact ih hok' hkern' hrest j (.inr (hpresent j (.inr hj)))

theorem spacesOk_init (hmap : KernMap m.pmm.bitmap kern root [] m ∅)
    (hserved : InitServed kern m (range' 256 256)) :
    SpacesOk (vmmInit m kern).machine.pmm.bitmap kern root ⟨vmmInit m kern, [], []⟩ := by
  have hinit := hmap.init
  have hkern := hinit.roots kern (.inl rfl)
  have hpresent := initServed_present hmap.tree.pmm (hmap.roots kern (.inl rfl)).1 hserved
  refine ⟨Tiling.start (by decide), fun e he => ?_, fun a ha => absurd ha not_mem_nil, [], ∅, ?_, Set.empty_subset _⟩
  · obtain rfl := mem_singleton.mp he
    exact ⟨by decide, by decide⟩
  have hnone : ∀ r ∈ ([] : List Nat), False := fun r hr => not_mem_nil hr
  have hempty : Inv (vmmInit m kern).machine.pmm.bitmap (vmmInit m kern).machine [] [] := by
    refine ⟨hinit.tree.pmm, by decide, fun _ hg => hg, nodup_nil, fun g hg => (hnone g hg).elim,
      fun r hr => (hnone r hr).elim, fun r hr => (hnone r hr).elim, fun r hr => (hnone r hr).elim,
      fun r hr => (hnone r hr).elim, fun r hr => (hnone r hr).elim, fun _ hg => .inl hg⟩
  refine ⟨hempty, fun r hr => (hnone r hr).elim, hkern.1, fun i hlo hhi => ?_, fun r hr => (hnone r hr).elim,
    .of_kernMap hinit (fun g hg => .inl (hinit.tree.bits g hg)) fun v hv => hv.elim⟩
  exact hpresent i (.inl (mem_range'_1.mpr ⟨hlo, by omega⟩))

/-- A frame of the kernel's half: in use when `vmm_init` was done, a table behind the window, or mapped there. -/
def KernelFrame (boot : Nat → Bool) (kern : Nat) (m : Machine) (frame : Nat) : Prop :=
  boot frame = true ∨ frame ∈ tables m.mem 2 (frameOf (m.mem kern kernSlot)) ∨
    ∃ v ∈ kernPages, vmmVirt2Phys m kern v = some frame

/-- What the address spaces have in common. -/
structure KernelShared (boot : Nat → Bool) (kern : Nat) (x : Spaces) : Prop where
  upper : ∀ r ∈ x.roots, ∀ i, 256 ≤ i → i < 512 → x.machine.mem r i = x.machine.mem kern i
  translate : ∀ r ∈ x.roots, ∀ v, 256 ≤ tableIndex 3 v →
    vmmVirt2Phys x.machine r v = vmmVirt2Phys x.machine kern v ∧ mmuEntry x.machine r v = mmuEntry x.machine kern v
  kept : ∀ r ∈ x.roots, ∀ f, KernelFrame boot kern x.machine f → f ∉ freed x.machine.mem 3 r ∧
    (vmmFreeTable x.machine 3 r).pmm.bitmap f = true ∧
    (vmmFreeTable x.machine 3 r).pmm.refCounts f = x.machine.pmm.refCounts f

namespace Halves

section
variable (h : Halves base kern root m roots objects win S)
include h

theorem leaf_upper (hr : r ∈ roots) (hv : 256 ≤ tableIndex 3 v) : slot m.mem 3 r v = slot m.mem 3 kern v := by
  have hword := h.upper r hr (tableIndex 3 v) hv tableIndex_lt
  simp only [slot, hword]

theorem kernelFrame (hf : KernelFrame base kern m f) : (base f = true ∨ f ∈ win) ∧ m.pmm.bitmap f = true := by
  rcases hf with hbase | htab | ⟨v, hv, hphys⟩
  · exact ⟨.inl hbase, h.inv.boot f hbase⟩
  · rw [h.window.entry.2] at htab
    exact ⟨h.window.owned f htab, h.table_bit htab⟩
  by_cases hS : v ∈ S
  · obtain ⟨used, hk⟩ := h.kernMap
    obtain ⟨g, hg, hl, hframe, -⟩ := h.frame_win hS
    rw [vmmVirt2Phys_eq, hk.leaf_eq hv, hframe, hl, present_mkPte, if_pos rfl, some.injEq] at hphys
    subst hphys
    exact ⟨.inr hg, (h.win_owned hg).1.bit⟩
  · rw [h.not_mapped hv hS] at hphys
    cases hphys

/-- `vmm_free_table` drops tables and private pages of the address space, and the kernel's frames are neither. -/
theorem not_freed (hr : r ∈ roots) (hf : base f = true ∨ f ∈ win) : f ∉ freed m.mem 3 r := by
  rw [mem_freed le_rfl]
  rintro (⟨v, hv, hmaps⟩ | htab)
  · obtain ⟨-, hnot, -, hbase⟩ := h.inv.mapped r hr v hv f hmaps
    rcases hf with hf | hf
    · exact Bool.false_ne_true (hbase.symm.trans hf)
    · exact hnot (mem_append_right _ (mem_append_right _ hf))
  · obtain ⟨hbase, hwin, -⟩ := h.not_window (mem_allTables.mpr ⟨r, hr, htab⟩)
    rcases hf with hf | hf
    · exact Bool.false_ne_true (hbase.symm.trans hf)
    · exact hwin hf

end

end Halves

theorem spacesOk_shared {x : Spaces} (h : SpacesOk base kern root x) : KernelShared base kern x := by
  obtain ⟨win, S, hh, -⟩ := h.halves
  have hmachine : Halves base kern root x.machine x.roots x.objects win S := hh
  refine ⟨hmachine.upper, fun r hr v hv => ?_, fun r hr f hf => ?_⟩
  · have hslot := hmachine.leaf_upper hr hv
    simp only [vmmVirt2Phys, mmuEntry, vmmWalkToPte, walkToPte_false, hslot, and_self]
  · obtain ⟨hkern, hbit⟩ := hmachine.kernelFrame hf
    have hnot := hmachine.not_freed hr hkern
    have hpmm : (vmmFreeTable x.machine 3 r).pmm = (freed x.machine.mem 3 r).foldl pmmFreeFrame x.machine.pmm :=
      freeTable_eq
    rw [hpmm, (freeAll_other hnot).1, (freeAll_other hnot).2]
    exact ⟨hnot, hbit, rfl⟩

/-- Address spaces in every run from a `vmm_init` that got all its tables: the boot loader has mapped the kernel
through the last entry of the PML4, and nothing in the window. -/
theorem spaces_share_kernel {acts : List SpaceAct} {x : Spaces} (hentry : present (m.mem kern kernSlot) = true)
    (htree : TreeOk m 2 (frameOf (m.mem kern kernSlot)))
    (hkern : m.pmm.bitmap kern = true ∧ kern ∉ tables m.mem 2 (frameOf (m.mem kern kernSlot)))
    (hunmapped : ∀ v ∈ kernPages, vmmVirt2Phys m kern v = none) (hserved : InitServed kern m (range' 256 256))
    (hrun : Run (ofNext (spacesTo kern)) ⟨vmmInit m kern, [], []⟩ acts x) :
    KernelShared (vmmInit m kern).machine.pmm.bitmap kern x := by
  have hroots : ∀ c, c = kern ∨ c ∈ [] →
      m.pmm.bitmap c = true ∧ c ∉ tables m.mem 2 (frameOf (m.mem kern kernSlot)) := by
    rintro c (rfl | hc)
    · exact hkern
    · exact absurd hc not_mem_nil
  have hstart := spacesOk_init (KernMap.boot hentry htree hroots hunmapped) hserved
  exact spacesOk_shared (hrun.invariant (fun _ _ _ => spacesOk_step) hstart)

/-- Frame 256 is the PML4 of the kernel, with one entry missing, and frame 257 the empty table below the others. -/
def sparseMachine : Machine where
  pmm := ⟨fun i => decide (i < 258), fun _ => 0, 400, 258⟩
  mem := fun f i => if f = 256 ∧ i ≠ 300 then mkPte 257 kernFlags else 0

def sparseRun : List SpaceAct :=
  [.newPml4, .allocGlobal 259 5000, .fork 259, .mapPage 264 5 fun _ => 7, .cowFault 264 5, .free kernHeapStart,
    .allocGlobal 264 1, .freeTable 259]

theorem spaces_share_kernel_forked : ∃ x,
    Run (ofNext (spacesTo 256)) ⟨vmmInit sparseMachine 256, [], []⟩ sparseRun x ∧ x.roots = [264] ∧
      vmmVirt2Phys x.machine 264 (kernHeapStart / pageSize) = some 260 ∧
      KernelShared (vmmInit sparseMachine 256).machine.pmm.bitmap 256 x := by
  have hexec : ((exec (spacesTo 256) ⟨vmmInit sparseMachine 256, [], []⟩ sparseRun).map fun x =>
      (x.roots, vmmVirt2Phys x.machine 264 (kernHeapStart / pageSize))) = some ([264], some 260) := by decide +kernel
  obtain ⟨x, hx, hend⟩ := map_eq_some_iff.mp hexec
  obtain ⟨hroots, hphys⟩ := Prod.mk.inj hend
  have hok : sparseMachine.pmm.Ok := ⟨fun i hi => decide_eq_true (by omega), by decide, by decide⟩
  obtain ⟨htree, hkern, hunmapped⟩ := empty_window hok rfl rfl (by decide) fun _ => rfl
  have hserved : InitServed 256 sparseMachine (range' 256 256) := by decide +kernel
  have hrun := exec_run hx
  exact ⟨x, hrun, hroots, hphys, spaces_share_kernel (by decide) htree hkern hunmapped hserved hrun⟩

end NyanOS.Memory
