import NyanOS.Kmalloc.FreeList

/-!
The heap as a partition of a region into free and used blocks, and how freeing, unlinking,
splitting and adding a page move blocks between the two sides.
-/

namespace NyanOS.Kmalloc

open Lib Lib.Extent Set

variable {h h' : Heap} {e x y : Extent} {free used used' pre post : List Extent} {region : Set Nat}
  {n size page phys b v : Nat}

/-- What every block of the heap is: non-null, on the grid of 16 bytes, with room for a header. -/
structure IsBlock (e : Extent) : Prop where
  ne_zero : e.start ≠ 0
  header : headerSize ≤ e.size
  start_dvd : 16 ∣ e.start
  size_dvd : 16 ∣ e.size
  fits : e.stop ≤ 2 ^ 64

theorem IsBlock.pos (he : IsBlock e) : 0 < e.size := lt_of_lt_of_le (by decide) he.header

theorem isBlock_join (hj : x.stop = y.start) (hx : IsBlock x) (hy : IsBlock y) : IsBlock (x.join y) := by
  refine ⟨hx.ne_zero, ?_, hx.start_dvd, Nat.dvd_add hx.size_dvd hy.size_dvd, stop_join_le hj hx.fits hy.fits⟩
  exact Nat.le_trans hx.header (Nat.le_add_right _ _)

structure Layout (h : Heap) (free used : List Extent) (region : Set Nat) : Prop where
  rep : Rep h free
  separated : Separated free
  freeBlocks : ∀ e ∈ free, IsBlock e
  usedBlocks : ∀ e ∈ used, IsBlock e
  usedSize : ∀ e ∈ used, h.size e.start = e.size
  usedApart : used.Pairwise fun x y => Disjoint x.bytes y.bytes
  apart : Disjoint (cover free) (cover used)
  tile : cover free ∪ cover used = region

theorem Layout.bounded (hl : Layout h free used region) : Bounded free :=
  ⟨hl.separated, fun e he => (hl.freeBlocks e he).header, fun e he => (hl.freeBlocks e he).fits⟩

theorem cover_perm (hp : used.Perm used') : cover used = cover used' := by
  ext b
  simp only [mem_cover, hp.mem_iff]

theorem Layout.perm (hl : Layout h free used region) (hp : used.Perm used') : Layout h free used' region := by
  refine ⟨hl.rep, hl.separated, hl.freeBlocks, ?_, ?_, ?_, cover_perm hp ▸ hl.apart, cover_perm hp ▸ hl.tile⟩
  · intro e he
    exact hl.usedBlocks e (hp.mem_iff.mpr he)
  · intro e he
    exact hl.usedSize e (hp.mem_iff.mpr he)
  · exact hl.usedApart.perm hp fun hd => hd.symm

theorem layout_kfreeUnlocked (hl : Layout h free (e :: used) region) :
    Layout (kfreeUnlocked h (e.start + headerSize)) (insertFree e free) used region := by
  have heb := hl.usedBlocks e (by simp)
  have hapart := hl.apart
  rw [cover_cons, disjoint_union_right] at hapart
  obtain ⟨heapart, huapart⟩ := List.pairwise_cons.mp hl.usedApart
  obtain ⟨hrep, hframe⟩ := rep_kfreeUnlocked hl.rep hl.bounded (hl.usedSize e (by simp)) heb.pos
    heb.fits heb.ne_zero hapart.1.symm
  refine ⟨hrep, separated_insertFree heb.pos hl.separated hapart.1.symm,
    forall_insertFree (fun _ _ => isBlock_join) heb hl.freeBlocks,
    fun x hx => hl.usedBlocks x (by simp [hx]), ?_, huapart, ?_, ?_⟩
  · intro x hx
    have hxpos := (hl.usedBlocks x (by simp [hx])).pos
    have hxs := start_mem_bytes hxpos
    rw [hframe x.start]
    · exact hl.usedSize x (by simp [hx])
    · intro hmem
      obtain ⟨y, hy, heq⟩ := List.mem_map.mp hmem
      refine disjoint_left.mp hapart.2 ⟨y, hy, ?_⟩ ⟨x, hx, hxs⟩
      exact heq ▸ start_mem_bytes (hl.freeBlocks y hy).pos
    · intro heq
      refine disjoint_left.mp (heapart x hx) ?_ hxs
      exact heq ▸ start_mem_bytes heb.pos
  · rw [cover_insertFree, disjoint_union_left]
    exact ⟨disjoint_cover heapart, hapart.2⟩
  · rw [← hl.tile, cover_insertFree, cover_cons, union_assoc, union_left_comm]

theorem layout_unlink (hl : Layout h (pre ++ e :: post) used region)
    (hrep : Rep h' (pre ++ post)) (hsize : ∀ a, h'.size a = h.size a) : Layout h' (pre ++ post) (e :: used) region := by
  have hsub : (pre ++ post).Sublist (pre ++ e :: post) := (List.sublist_cons_self e post).append_left pre
  have hcover : cover (pre ++ e :: post) = e.bytes ∪ cover (pre ++ post) := by
    rw [cover_append, cover_append, cover_cons, union_left_comm]
  have hapart := hl.apart
  rw [hcover, disjoint_union_left] at hapart
  have heb := hl.freeBlocks e (by simp)
  refine ⟨hrep, hl.separated.sublist hsub, fun x hx => hl.freeBlocks x (hsub.subset hx),
    List.forall_mem_cons.mpr ⟨heb, hl.usedBlocks⟩, ?_, ?_, ?_, ?_⟩
  · intro x hx
    rw [hsize]
    rcases List.mem_cons.mp hx with rfl | hx
    · exact hl.rep.size x (by simp)
    · exact hl.usedSize x hx
  · refine List.pairwise_cons.mpr ⟨?_, hl.usedApart⟩
    intro x hx
    exact hapart.1.mono_right (bytes_subset_cover hx)
  · rw [cover_cons, disjoint_union_right]
    refine ⟨?_, hapart.2⟩
    -- the gaps of the list keep its blocks apart
    obtain ⟨_, hpost, hcross⟩ := List.pairwise_append.mp hl.separated.gaps
    have hepost := (List.pairwise_cons.mp hpost).1
    rw [disjoint_left]
    rintro b ⟨x, hx, hbx⟩ hbe
    simp only [mem_bytes] at hbx hbe
    rcases List.mem_append.mp hx with hx | hx
    · have := hcross x hx e (by simp)
      simp only [stop] at this
      omega
    have := hepost x hx
    simp only [stop] at this
    omega
  · rw [← hl.tile, hcover, cover_cons, union_assoc, union_left_comm]

theorem Layout.size_of_apart (hl : Layout h free used region)
    (hfree : b ∉ cover free) (hused : b ∉ cover used) :
    Rep (h.setSize b v) free ∧ ∀ x ∈ used, (h.setSize b v).size x.start = x.size := by
  refine ⟨⟨?_, ?_⟩, ?_⟩
  · refine hl.rep.seg.congr ?_
    intro x _
    exact next_setSize
  · intro x hx
    have hne : x.start ≠ b := by
      intro heq
      exact hfree ⟨x, hx, heq ▸ start_mem_bytes (hl.freeBlocks x hx).pos⟩
    rw [size_setSize, if_neg hne]
    exact hl.rep.size x hx
  · intro x hx
    have hne : x.start ≠ b := by
      intro heq
      exact hused ⟨x, hx, heq ▸ start_mem_bytes (hl.usedBlocks x hx).pos⟩
    rw [size_setSize, if_neg hne]
    exact hl.usedSize x hx

theorem layout_add (hl : Layout h free used region) (he : IsBlock e) (hd : Disjoint e.bytes region) :
    Layout (h.setSize e.start e.size) free (e :: used) (region ∪ e.bytes) := by
  rw [← hl.tile, disjoint_union_right] at hd
  have hstart := start_mem_bytes he.pos
  obtain ⟨hrep, hsize⟩ := hl.size_of_apart (v := e.size) (disjoint_left.mp hd.1 hstart) (disjoint_left.mp hd.2 hstart)
  refine ⟨hrep, hl.separated, hl.freeBlocks, List.forall_mem_cons.mpr ⟨he, hl.usedBlocks⟩,
    List.forall_mem_cons.mpr ⟨by simp, hsize⟩, List.pairwise_cons.mpr ⟨?_, hl.usedApart⟩, ?_, ?_⟩
  · intro x hx
    exact hd.2.mono_right (bytes_subset_cover hx)
  · rw [cover_cons, disjoint_union_right]
    exact ⟨hd.1.symm, hl.apart⟩
  · rw [← hl.tile, cover_cons, union_left_comm, union_comm]

section
variable (hl : Layout h free (e :: used) region)
include hl

theorem layout_remove : Layout h free used (cover free ∪ cover used) ∧ Disjoint e.bytes (cover free ∪ cover used) ∧
      region = (cover free ∪ cover used) ∪ e.bytes := by
  have hapart := hl.apart
  rw [cover_cons, disjoint_union_right] at hapart
  obtain ⟨heapart, huapart⟩ := List.pairwise_cons.mp hl.usedApart
  refine ⟨⟨hl.rep, hl.separated, hl.freeBlocks, fun x hx => hl.usedBlocks x (by simp [hx]),
    fun x hx => hl.usedSize x (by simp [hx]), huapart, hapart.2, rfl⟩, ?_, ?_⟩
  · rw [disjoint_union_right]
    exact ⟨hapart.1.symm, disjoint_cover heapart⟩
  · rw [← hl.tile, cover_cons, union_comm e.bytes, union_assoc]

theorem layout_split (hn : headerSize ≤ n) (hdvd : 16 ∣ n)
    (hrest : n + headerSize ≤ e.size) : Layout ((h.setSize e.start n).setSize (e.start + n) (e.size - n)) free
      (⟨e.start + n, e.size - n⟩ :: ⟨e.start, n⟩ :: used) region := by
  have he := hl.usedBlocks e (by simp)
  obtain ⟨hl', hd, hregion⟩ := layout_remove hl
  have hfits := he.fits
  simp only [stop] at hfits
  have hleft : IsBlock ⟨e.start, n⟩ := ⟨he.ne_zero, hn, he.start_dvd, hdvd, by simp only [stop]; omega⟩
  have hright : IsBlock ⟨e.start + n, e.size - n⟩ := by
    have hne := he.ne_zero
    refine ⟨by simp only; omega, by simp only; omega, Nat.dvd_add he.start_dvd hdvd,
      Nat.dvd_sub he.size_dvd hdvd, by simp only [stop]; omega⟩
  have hbytes : e.bytes = (⟨e.start, n⟩ : Extent).bytes ∪ (⟨e.start + n, e.size - n⟩ : Extent).bytes := by
    ext b
    simp only [mem_bytes, mem_union]
    omega
  rw [hbytes, disjoint_union_left] at hd
  have hadd := layout_add hl' hleft hd.1
  have hadd' := layout_add hadd hright (by
    rw [disjoint_union_right]
    refine ⟨hd.2, ?_⟩
    rw [disjoint_left]
    intro b hb hb'
    simp only [mem_bytes] at hb hb'
    omega)
  rwa [union_assoc, ← hbytes, ← hregion] at hadd'

theorem layout_carve (hdvd : 16 ∣ size) (hle : headerSize + size ≤ e.size) : ∃ free' m, headerSize + size ≤ m ∧
      Layout (carve h e.start size) free' (⟨e.start, m⟩ :: used) region := by
  have he := hl.usedBlocks e (by simp)
  have hsize := hl.usedSize e (by simp)
  have hallocated : 16 ∣ headerSize + size := Nat.dvd_add (by decide) hdvd
  by_cases hrest : headerSize ≤ e.size - (headerSize + size)
  · have hsplit := layout_kfreeUnlocked (layout_split hl (Nat.le_add_right _ _) hallocated (by omega))
    have hcarve : carve h e.start size = kfreeUnlocked ((h.setSize e.start (headerSize + size)).setSize
        (e.start + (headerSize + size)) (e.size - (headerSize + size)))
        (e.start + (headerSize + size) + headerSize) := by
      simp only [carve, hsize, if_pos hrest]
    exact ⟨_, headerSize + size, le_rfl, hcarve ▸ hsplit⟩
  · -- sizes are multiples of 16, so a remainder without room for a header is empty
    have hexact : e.size = headerSize + size := by
      have := he.size_dvd
      simp only [headerSize] at *
      omega
    refine ⟨free, headerSize + size, le_rfl, ?_⟩
    obtain ⟨hl', hd, hregion⟩ := layout_remove hl
    have hcarve : carve h e.start size = (h.setSize e.start e.size).setSize e.start e.size := by
      have hfits := he.fits
      have hne := he.ne_zero
      simp only [stop] at hfits
      have hadd : add64 (headerSize + size) 0 = headerSize + size := Nat.mod_eq_of_lt (by omega)
      simp only [carve, hsize, hexact, Nat.sub_self, size_setSize, if_true, hadd]
      rfl
    have hidem : (h.setSize e.start e.size).setSize e.start e.size = h.setSize e.start e.size := by
      simp [Heap.setSize]
    have hadd := layout_add hl' he hd
    rw [← hregion] at hadd
    rw [hcarve, hidem, ← hexact]
    exact hadd

end

end NyanOS.Kmalloc
