import NyanOS.Kmalloc.Layout

/-! Every run of allocations and frees keeps the heap a partition of the pages it obtained. -/
namespace NyanOS.Kmalloc

open Function Option Set

open Lib Lib.Extent

def pageExtent (page : Nat) : Extent := ⟨page, pageSize⟩

def block (h : Heap) (x : Alloc) : Extent := ⟨x.ptr - headerSize, h.size (x.ptr - headerSize)⟩

/-- The bytes that were asked for. -/
def Alloc.payload (x : Alloc) : Set Nat := Set.Ico x.ptr (x.ptr + x.size)

/-- The allocated blocks. -/
def State.used (s : State) : List Extent := s.live.map (block s.heap)

/-- The bytes of the pages obtained so far. -/
def State.region (s : State) : Set Nat := cover (s.pages.map pageExtent)

variable {h h' : Heap} {s t : State} {a : Action} {free used : List Extent} {region : Set Nat}
  {size page phys hhdmOffset ptr p q addr : Nat} {x : Alloc}

/-- A page that the heap can hold. -/
structure IsPage (page : Nat) : Prop where
  ne_zero : page ≠ 0
  dvd : pageSize ∣ page
  lt : page < 2 ^ 64
  outside : page + pageSize ≤ kernHeapStart ∨ kernHeapEnd ≤ page

theorem isBlock_page (hp : IsPage page) : IsBlock (pageExtent page) := by
  have hdvd := hp.dvd
  have hlt := hp.lt
  refine ⟨hp.ne_zero, ?_, ?_, ?_, ?_⟩
  · simp [pageExtent, headerSize, pageSize]
  · exact Nat.dvd_trans (by decide) hdvd
  · simp [pageExtent, pageSize]
  · simp only [pageExtent, stop, pageSize] at *
    omega

theorem pages_disjoint (hp : pageSize ∣ p) (hq : pageSize ∣ q) (hne : p ≠ q) :
    Disjoint (pageExtent p).bytes (pageExtent q).bytes := by
  rw [disjoint_left]
  intro b hb hb'
  simp only [pageExtent, mem_bytes, pageSize] at *
  omega

theorem newPage_eq : newPage hhdmOffset phys = vmmPhysToHhdm hhdmOffset phys := by
  have hle : hhdmOffset ≤ vmmPhysToHhdm hhdmOffset phys := Nat.right_le_or
  simp only [newPage]
  rw [if_neg (by omega)]

theorem newPage_ne_zero (hphys : phys ≠ 0) : newPage hhdmOffset phys ≠ 0 := by
  have hle : phys ≤ vmmPhysToHhdm hhdmOffset phys := Nat.left_le_or
  rw [newPage_eq]
  omega

theorem roundUp16_of_small (hs : SmallSize size) : size ≤ roundUp16 size ∧ 16 ∣ roundUp16 size ∧ size ≠ 0 ∧
      add64 (roundUp16 size) headerSize = headerSize + roundUp16 size := by
  obtain ⟨hlt, hpos, hsmall⟩ := hs
  have hdvd : 16 ∣ roundUp16 size := Nat.dvd_mul_left _ _
  simp only [roundUp16, add64, headerSize, pageSize] at *
  omega

/-- `find_free_block` and the split after it hand out a block of at least the size asked for. -/
theorem layout_findFreeBlock (hl : Layout h free used region) (hs : SmallSize size) :
    (findFreeBlock h (roundUp16 size) = none ∧ ∀ e ∈ free, e.size < headerSize + roundUp16 size) ∨
    ∃ blk h' free' m, findFreeBlock h (roundUp16 size) = some (blk, h') ∧ headerSize + roundUp16 size ≤ m ∧
      Layout (carve h' blk (roundUp16 size)) free' (⟨blk, m⟩ :: used) region := by
  obtain ⟨_, hdvd, _, hadd⟩ := roundUp16_of_small hs
  rcases findFreeBlock_spec (roundUp16 size) hl.rep hl.bounded with
    ⟨hnone, hall⟩ | ⟨pre, e, post, h', rfl, hfit, hfind, hrep, hsize⟩
  · left
    exact ⟨hnone, hadd ▸ hall⟩
  right
  obtain ⟨free', m, hm, hlayout⟩ := layout_carve (layout_unlink hl hrep hsize) hdvd (hadd ▸ hfit)
  exact ⟨e.start, h', free', m, hfind, hm, hlayout⟩

theorem layout_requestNewPage (hl : Layout h free used region) (hphys : phys ≠ 0)
    (hp : IsPage (newPage hhdmOffset phys)) (hd : Disjoint (pageExtent (newPage hhdmOffset phys)).bytes region) :
    ∃ h', requestNewPage hhdmOffset h phys = some (newPage hhdmOffset phys, h') ∧
      Layout h' (insertFree (pageExtent (newPage hhdmOffset phys)) free) used
        (region ∪ (pageExtent (newPage hhdmOffset phys)).bytes) := by
  have hptr : vmmPhysToHhdm hhdmOffset phys ≠ 0 := newPage_eq ▸ newPage_ne_zero hphys
  refine ⟨_, ?_, layout_kfreeUnlocked (layout_add hl (isBlock_page hp) hd)⟩
  simp only [requestNewPage, if_neg hphys, if_neg hptr]
  rfl

/-- `kmalloc` hands out a new used block, or fails without a frame and changes nothing. -/
theorem kmalloc_spec (hl : Layout h free used region) (hs : SmallSize size)
    (hfresh : phys ≠ 0 → IsPage (newPage hhdmOffset phys) ∧
      Disjoint (pageExtent (newPage hhdmOffset phys)).bytes region) :
    (kmalloc hhdmOffset h size phys = .done 0 h none ∧ phys = 0) ∨
    ∃ blk h' page free' m, kmalloc hhdmOffset h size phys = .done (blk + headerSize) h' page ∧
      headerSize + size ≤ m ∧ (∀ p ∈ page, phys ≠ 0 ∧ p = newPage hhdmOffset phys) ∧
      Layout h' free' (⟨blk, m⟩ :: used) (region ∪ cover (page.toList.map pageExtent)) := by
  obtain ⟨hround, _, hne, _⟩ := roundUp16_of_small hs
  have hsmall : ¬ pageSize - headerSize ≤ roundUp16 size := by
    have := hs.2.2
    omega
  rcases layout_findFreeBlock hl hs with ⟨hnone, _⟩ | ⟨blk, h', free', m, hfind, hm, hlayout⟩
  · by_cases hphys : phys = 0
    · left
      exact ⟨by simp [kmalloc, hne, hsmall, hnone, requestNewPage, hphys], hphys⟩
    right
    obtain ⟨hp, hd⟩ := hfresh hphys
    obtain ⟨h₁, hreq, hl₁⟩ := layout_requestNewPage hl hphys hp hd
    rcases layout_findFreeBlock hl₁ hs with ⟨_, hall⟩ | ⟨blk, h', free', m, hfind, hm, hlayout⟩
    · -- the new page alone is large enough
      obtain ⟨x, hx, hle⟩ := exists_le_insertFree (pageExtent (newPage hhdmOffset phys)) free
      have := hall x hx
      simp only [pageExtent] at hle
      omega
    · refine ⟨blk, carve h' blk (roundUp16 size), some (newPage hhdmOffset phys), free', m, ?_, by omega, ?_, ?_⟩
      · simp [kmalloc, hne, hsmall, hnone, hreq, hfind]
      · intro p hp
        exact ⟨hphys, (mem_some_iff.mp hp).symm⟩
      · have hcover : cover ((some (newPage hhdmOffset phys)).toList.map pageExtent) =
            (pageExtent (newPage hhdmOffset phys)).bytes := by
          ext b
          simp
        rw [hcover]
        exact hlayout
  · right
    refine ⟨blk, carve h' blk (roundUp16 size), none, free', m, ?_, by omega, by simp, ?_⟩
    · simp [kmalloc, hne, hsmall, hfind]
    · have hcover : cover ((none : Option Nat).toList.map pageExtent) = ∅ := by
        ext b
        simp
      rw [hcover, union_empty]
      exact hlayout

structure Inv (s : State) (free : List Extent) : Prop where
  layout : Layout s.heap free s.used s.region
  pages : ∀ p ∈ s.pages, IsPage p
  pointer : ∀ x ∈ s.live, headerSize ≤ x.ptr
  room : ∀ x ∈ s.live, 0 < x.size ∧ headerSize + x.size ≤ s.heap.size (x.ptr - headerSize)

theorem Inv.block_mem (hx : x ∈ s.live) : block s.heap x ∈ s.used := List.mem_map_of_mem hx

theorem block_eq (hl : Layout h' free used region) (hx : block h x ∈ used) : block h' x = block h x := by
  have hsize := hl.usedSize _ hx
  simp only [block] at hsize ⊢
  rw [hsize]

theorem used_eq {live : List Alloc} (hl : Layout h' free used region)
    (hsub : ∀ x ∈ live, block h x ∈ used) : live.map (block h') = live.map (block h) :=
  List.map_congr_left fun x hx => block_eq hl (hsub x hx)

theorem inv_initial (mem : Nat → FreeBlock) : Inv (initial mem) [] := by
  refine ⟨⟨⟨rfl, by simp⟩, separated_nil, by simp, ?_, ?_, ?_, ?_, ?_⟩, ?_, ?_, ?_⟩ <;>
    simp [initial, State.used, State.region, cover]

theorem fresh_isPage (hf : FreshFrame hhdmOffset s phys) (hphys : phys ≠ 0) :
    IsPage (newPage hhdmOffset phys) ∧ newPage hhdmOffset phys ∉ s.pages := by
  rcases hf with hzero | ⟨hdvd, hlt, hnew, hout⟩
  · exact absurd hzero hphys
  · exact ⟨⟨newPage_ne_zero hphys, hdvd, hlt, hout⟩, hnew⟩

section
variable (hi : Inv s free)
include hi

theorem fresh_disjoint (hf : FreshFrame hhdmOffset s phys) (hphys : phys ≠ 0) :
    Disjoint (pageExtent (newPage hhdmOffset phys)).bytes s.region := by
  obtain ⟨hp, hnew⟩ := fresh_isPage hf hphys
  apply disjoint_cover
  intro e he
  obtain ⟨q, hq, rfl⟩ := List.mem_map.mp he
  refine pages_disjoint hp.dvd (hi.pages q hq).dvd ?_
  intro heq
  exact hnew (heq ▸ hq)

theorem Inv.kmalloc (hs : SmallSize size) (hf : FreshFrame hhdmOffset s phys) :
    (kmalloc hhdmOffset s.heap size phys = .done 0 s.heap none ∧ phys = 0) ∨ ∃ blk h' page free' m,
      kmalloc hhdmOffset s.heap size phys = .done (blk + headerSize) h' page ∧
      headerSize + size ≤ m ∧ (∀ p ∈ page, phys ≠ 0 ∧ p = newPage hhdmOffset phys) ∧
      Layout h' free' (⟨blk, m⟩ :: s.used) (s.region ∪ cover (page.toList.map pageExtent)) :=
  kmalloc_spec hi.layout hs fun hphys => ⟨(fresh_isPage hf hphys).1, fresh_disjoint hi hf hphys⟩

theorem inv_kmalloc (h : next hhdmOffset s (.kmalloc size phys) = some t) : ∃ free', Inv t free' := by
  simp only [next] at h
  split at h
  · rename_i hguard
    obtain ⟨hs, hf⟩ := hguard
    rcases hi.kmalloc hs hf with ⟨hfail, _⟩ | ⟨blk, h', page, free', m, hdone, hm, hpage, hlayout⟩
    · rw [hfail] at h
      cases h
      exact ⟨free, hi⟩
    rw [hdone] at h
    cases h
    have hptr : blk + headerSize ≠ 0 := by simp [headerSize]
    simp only [if_neg hptr]
    have hold : s.live.map (block h') = s.used :=
      used_eq hlayout fun x hx => List.mem_cons_of_mem _ (Inv.block_mem hx)
    have hnew : h'.size blk = m := hlayout.usedSize ⟨blk, m⟩ (by simp)
    refine ⟨free', ⟨?_, ?_, ?_, ?_⟩⟩
    · have hused : State.used ⟨h', page.toList ++ s.pages, ⟨blk + headerSize, size⟩ :: s.live⟩ =
          ⟨blk, m⟩ :: s.used := by
        rw [State.used, List.map_cons, hold]
        simp only [block, Nat.add_sub_cancel, hnew]
      have hregion : State.region ⟨h', page.toList ++ s.pages, ⟨blk + headerSize, size⟩ :: s.live⟩ =
          s.region ∪ cover (page.toList.map pageExtent) := by
        simp only [State.region]
        rw [List.map_append, cover_append, union_comm]
      rw [hused, hregion]
      exact hlayout
    · intro p hp
      rcases List.mem_append.mp hp with hp | hp
      · obtain ⟨hphys, rfl⟩ := hpage p (mem_toList.mp hp)
        exact (fresh_isPage hf hphys).1
      · exact hi.pages p hp
    · exact List.forall_mem_cons.mpr ⟨Nat.le_add_left _ _, hi.pointer⟩
    · refine List.forall_mem_cons.mpr ⟨?_, ?_⟩
      · obtain ⟨_, _, hne, _⟩ := roundUp16_of_small hs
        simp only [Nat.add_sub_cancel, hnew]
        omega
      · intro x hx
        have hxeq := block_eq hlayout (List.mem_cons_of_mem _ (Inv.block_mem hx))
        have hsize : h'.size (x.ptr - headerSize) = s.heap.size (x.ptr - headerSize) := congrArg Extent.size hxeq
        rw [hsize]
        exact hi.room x hx
  · simp at h

/-- A live pointer lies in a page, so `kfree` never takes it for a pointer of `vmm_alloc_global`. -/
theorem Inv.outside (hx : x ∈ s.live) : ¬ (kernHeapStart ≤ x.ptr ∧ x.ptr < kernHeapEnd) := by
  have hroom := hi.room x hx
  have hptr := hi.pointer x hx
  have hmem : x.ptr ∈ s.region := by
    rw [← hi.layout.tile]
    refine .inr (bytes_subset_cover (Inv.block_mem hx) ?_)
    simp only [block, mem_bytes]
    omega
  obtain ⟨e, he, hbe⟩ := hmem
  obtain ⟨p, hp, rfl⟩ := List.mem_map.mp he
  have hout := (hi.pages p hp).outside
  simp only [pageExtent, mem_bytes] at hbe
  omega

theorem Inv.used_filter (hx : x ∈ s.live) :
    s.used.Perm (block s.heap x :: (s.live.filter (·.ptr ≠ x.ptr)).map (block s.heap)) := by
  obtain ⟨l₁, l₂, hsplit⟩ := List.append_of_mem hx
  have hapart := hi.layout.usedApart
  simp only [State.used, hsplit, List.map_append, List.map_cons] at hapart
  obtain ⟨_, hright, hcross⟩ := List.pairwise_append.mp hapart
  have hxpos : 0 < (block s.heap x).size := (hi.layout.usedBlocks _ (Inv.block_mem hx)).pos
  -- another allocation at this pointer would share the header
  have hne : ∀ y, Disjoint (block s.heap x).bytes (block s.heap y).bytes → y.ptr ≠ x.ptr := by
    intro y hd heq
    have hblock : block s.heap y = block s.heap x := by simp [block, heq]
    rw [hblock] at hd
    exact disjoint_left.mp hd (start_mem_bytes hxpos) (start_mem_bytes hxpos)
  have hleft : l₁.filter (·.ptr ≠ x.ptr) = l₁ := by
    refine List.filter_eq_self.mpr ?_
    intro y hy
    have := hcross _ (List.mem_map_of_mem hy) (block s.heap x) (by simp)
    simpa using hne y this.symm
  have hright' : l₂.filter (·.ptr ≠ x.ptr) = l₂ := by
    refine List.filter_eq_self.mpr ?_
    intro y hy
    have := (List.pairwise_cons.mp hright).1 _ (List.mem_map_of_mem hy)
    simpa using hne y this
  have hself : (x :: l₂).filter (·.ptr ≠ x.ptr) = l₂.filter (·.ptr ≠ x.ptr) := by simp
  rw [State.used, hsplit, List.filter_append, hself, hleft, hright', List.map_append, List.map_append, List.map_cons]
  exact List.perm_middle

theorem inv_kfree (h : next hhdmOffset s (.kfree ptr) = some t) : ∃ free', Inv t free' := by
  simp only [next] at h
  split at h
  · rename_i hlive
    obtain ⟨x, hx, rfl⟩ := hlive
    cases h
    have hptr := hi.pointer x hx
    have hne : x.ptr ≠ 0 := by
      simp only [headerSize] at hptr
      omega
    have hkfree : kfree s.heap x.ptr = kfreeUnlocked s.heap ((block s.heap x).start + headerSize) := by
      simp only [kfree, if_neg hne, if_neg (hi.outside hx), block]
      rw [Nat.sub_add_cancel hptr]
    have hlayout := layout_kfreeUnlocked (hi.layout.perm (hi.used_filter hx))
    rw [← hkfree] at hlayout
    have hmem : ∀ y ∈ s.live.filter (·.ptr ≠ x.ptr), y ∈ s.live := fun y hy =>
      (List.mem_filter.mp hy).1
    have hused : State.used { s with
        heap := kfree s.heap x.ptr, live := s.live.filter (·.ptr ≠ x.ptr) } =
        (s.live.filter (·.ptr ≠ x.ptr)).map (block s.heap) :=
      used_eq hlayout fun y hy => List.mem_map_of_mem hy
    refine ⟨_, ⟨hused ▸ hlayout, hi.pages, fun y hy => hi.pointer y (hmem y hy), ?_⟩⟩
    intro y hy
    have hyeq := block_eq hlayout (List.mem_map_of_mem hy)
    have hsize : (kfree s.heap x.ptr).size (y.ptr - headerSize) =
        s.heap.size (y.ptr - headerSize) := congrArg Extent.size hyeq
    rw [hsize]
    exact hi.room y (hmem y hy)
  · simp at h

end

theorem Inv.owned_ne_start (hi : Inv s free) (ho : Owns s addr) :
    ∀ e ∈ free ++ s.used, e.start ≠ addr := by
  obtain ⟨_, x, hx, hlo, hhi⟩ := ho
  have hptr := hi.pointer x hx
  have hin : addr ∈ (block s.heap x).bytes := by
    simp only [block, mem_bytes, headerSize] at *
    omega
  intro e he heq
  rcases List.mem_append.mp he with he | he
  · have hstart := heq ▸ start_mem_bytes (hi.layout.freeBlocks e he).pos
    exact disjoint_left.mp hi.layout.apart (bytes_subset_cover he hstart) (bytes_subset_cover (Inv.block_mem hx) hin)
  have hstart := heq ▸ start_mem_bytes (hi.layout.usedBlocks e he).pos
  by_cases hsame : e = block s.heap x
  · -- inside its own block, the payload starts behind the header
    rw [hsame] at heq
    simp only [block, headerSize] at heq hptr
    omega
  · have hsymm : Std.Symm fun x y : Extent => Disjoint x.bytes y.bytes := ⟨fun _ _ hd => hd.symm⟩
    have hapart : Disjoint e.bytes (block s.heap x).bytes := hi.layout.usedApart.forall he (Inv.block_mem hx) hsame
    exact disjoint_left.mp hapart hstart hin

theorem inv_store {value : FreeBlock} (hi : Inv s free)
    (h : next hhdmOffset s (.store addr value) = some t) : ∃ free', Inv t free' := by
  simp only [next] at h
  split at h
  · rename_i howns
    cases h
    have hne := hi.owned_ne_start howns
    have hsame : ∀ e ∈ free ++ s.used, update s.heap.mem addr value e.start = s.heap.mem e.start := fun e he =>
      update_of_ne (hne e he) _ _
    have hused : ∀ x ∈ s.live, block { s.heap with
        mem := update s.heap.mem addr value } x = block s.heap x := by
      intro x hx
      have := hsame _ (List.mem_append_right free (Inv.block_mem hx))
      simp only [block, Heap.size] at this ⊢
      rw [this]
    have hl := hi.layout
    refine ⟨free, ⟨?_, hi.pages, hi.pointer, ?_⟩⟩
    · have hmap : State.used { s with heap := { s.heap with
          mem := update s.heap.mem addr value } } = s.used := List.map_congr_left hused
      rw [hmap]
      refine ⟨⟨hl.rep.seg.congr ?_, ?_⟩, hl.separated, hl.freeBlocks, hl.usedBlocks, ?_,
        hl.usedApart, hl.apart, hl.tile⟩
      · intro x hx
        obtain ⟨e, he, rfl⟩ := List.mem_map.mp hx
        exact congrArg FreeBlock.next (hsame e (by simp [he]))
      · intro e he
        exact (congrArg FreeBlock.size (hsame e (by simp [he]))).trans (hl.rep.size e he)
      · intro e he
        exact (congrArg FreeBlock.size (hsame e (by simp [he]))).trans (hl.usedSize e he)
    · intro x hx
      have hsize := congrArg Extent.size (hused x hx)
      simp only [block] at hsize
      rw [hsize]
      exact hi.room x hx
  · simp at h

theorem inv_step (h : Step hhdmOffset s a t) (hs : ∃ free, Inv s free) : ∃ free, Inv t free := by
  obtain ⟨free, hi⟩ := hs
  cases a with
  | kmalloc size phys => exact inv_kmalloc hi h
  | kfree ptr => exact inv_kfree hi h
  | store addr value => exact inv_store hi h

theorem inv_reachable (h : Reachable hhdmOffset s) : ∃ free, Inv s free := by
  obtain ⟨mem, xs, hrun⟩ := h
  exact hrun.invariant (P := fun s => ∃ free, Inv s free) (fun _ _ _ => inv_step) ⟨[], inv_initial mem⟩

theorem Layout.pairwise (hl : Layout h free used region) :
    (free ++ used).Pairwise fun x y => Disjoint x.bytes y.bytes := by
  refine List.pairwise_append.mpr ⟨hl.separated.gaps.imp ?_, hl.usedApart, ?_⟩
  · intro x y hxy
    rw [disjoint_left]
    intro b hb hb'
    simp only [stop] at hxy
    simp only [mem_bytes] at hb hb'
    omega
  · intro x hx y hy
    exact (hl.apart.mono_left (bytes_subset_cover hx)).mono_right (bytes_subset_cover hy)

theorem Inv.payload_subset (hi : Inv s free) (hx : x ∈ s.live) : x.payload ⊆ (block s.heap x).bytes := by
  have hroom := (hi.room x hx).2
  have hptr := hi.pointer x hx
  intro b hb
  obtain ⟨hlo, hhi⟩ := mem_Ico.mp hb
  simp only [block, mem_bytes]
  omega

theorem Inv.payload_header {e : Extent} (hi : Inv s free) (hx : x ∈ s.live)
    (he : e ∈ free) : Disjoint x.payload (Set.Ico e.start (e.start + headerSize)) := by
  have hheader : Set.Ico e.start (e.start + headerSize) ⊆ e.bytes := by
    have := (hi.layout.freeBlocks e he).header
    intro b hb
    obtain ⟨hlo, hhi⟩ := mem_Ico.mp hb
    simp only [mem_bytes]
    omega
  have hapart : Disjoint (block s.heap x).bytes e.bytes :=
    ((hi.layout.apart.mono_left (bytes_subset_cover he)).mono_right (bytes_subset_cover (Inv.block_mem hx))).symm
  exact (hapart.mono_left (hi.payload_subset hx)).mono_right hheader

theorem Inv.payload_apart (hi : Inv s free) : s.live.Pairwise fun x y => Disjoint x.payload y.payload := by
  have hblocks := List.pairwise_map.mp hi.layout.usedApart
  refine hblocks.imp_of_mem ?_
  intro x y hx hy hd
  exact (hd.mono_left (hi.payload_subset hx)).mono_right (hi.payload_subset hy)

/-- In every reachable heap the free list is sorted with a gap behind each block, and the free
and the allocated blocks tile the pages obtained. So a live pointer is aligned and owns its
bytes alone, and `kmalloc` fails only without a frame. -/
theorem heap_invariant (hr : Reachable hhdmOffset s) : ∃ free, Rep s.heap free ∧
      free.Pairwise (fun x y => x.stop < y.start) ∧
      (∀ e ∈ free ++ s.used, 0 < e.size ∧ 16 ∣ e.size) ∧
      (free ++ s.used).Pairwise (fun x y => Disjoint x.bytes y.bytes) ∧
      cover (free ++ s.used) = cover (s.pages.map pageExtent) ∧
      (∀ x ∈ s.live, 16 ∣ x.ptr ∧ x.payload ⊆ (block s.heap x).bytes ∧
        ∀ e ∈ free, Disjoint x.payload (Set.Ico e.start (e.start + headerSize))) ∧
      s.live.Pairwise (fun x y => Disjoint x.payload y.payload) ∧
      ∀ size phys, SmallSize size → FreshFrame hhdmOffset s phys →
        ∃ ptr heap page, kmalloc hhdmOffset s.heap size phys = .done ptr heap page ∧
          (ptr = 0 → phys = 0) := by
  obtain ⟨free, hi⟩ := inv_reachable hr
  have hl := hi.layout
  refine ⟨free, hl.rep, hl.separated.gaps, ?_, hl.pairwise, ?_, ?_, hi.payload_apart, ?_⟩
  · intro e he
    have hblock : IsBlock e := by
      rcases List.mem_append.mp he with he | he
      · exact hl.freeBlocks e he
      · exact hl.usedBlocks e he
    exact ⟨hblock.pos, hblock.size_dvd⟩
  · rw [cover_append]
    exact hl.tile
  · intro x hx
    refine ⟨?_, hi.payload_subset hx, fun e he => hi.payload_header hx he⟩
    have hstart := (hl.usedBlocks _ (Inv.block_mem hx)).start_dvd
    have hptr := hi.pointer x hx
    simp only [block, headerSize] at hstart hptr
    omega
  · intro size phys hs hf
    rcases hi.kmalloc hs hf with ⟨hfail, hphys⟩ | ⟨blk, h', page, _, _, hdone, _⟩
    · exact ⟨0, s.heap, none, hfail, fun _ => hphys⟩
    refine ⟨blk + headerSize, h', page, hdone, ?_⟩
    intro hzero
    simp [headerSize] at hzero

/-- Two allocations from one page, of which the first is freed again. -/
theorem heap_invariant_two_allocations : ∃ s, Reachable 0xFFFF800000000000 s ∧
      s.pages = [0xFFFF800000200000] ∧ s.live = [⟨0xFFFF800000200040, 100⟩] ∧
      ∃ free, Rep s.heap free ∧ cover (free ++ s.used) = cover (s.pages.map pageExtent) := by
  have hrun : Lib.Run (Step 0xFFFF800000000000) (initial fun _ => ⟨0, 0⟩)
      [.kmalloc 24 0x200000, .kmalloc 100 0, .kfree 0xFFFF800000200010] _ := Lib.exec_run rfl
  have hr : Reachable 0xFFFF800000000000 _ := ⟨_, _, hrun⟩
  obtain ⟨free, hrep, _, _, _, htile, _⟩ := heap_invariant hr
  exact ⟨_, hr, rfl, rfl, free, hrep, htile⟩

end NyanOS.Kmalloc
