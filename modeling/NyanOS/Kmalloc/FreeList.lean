import NyanOS.Kmalloc.Model

/-! The linked list in memory as a list of extents, and what each list operation does to it. -/
namespace NyanOS.Kmalloc

open Lib Lib.Extent List

variable {h : Heap} {e p x y : Extent} {l pre post : List Extent} {a b v fuel prev : Nat}

@[simp] theorem next_setNext : (h.setNext b v).next a = if a = b then v else h.next a := by
  by_cases hab : a = b
  · subst hab
    simp [Heap.setNext, Heap.next]
  · simp [Heap.setNext, Heap.next, hab]

@[simp] theorem size_setNext : (h.setNext b v).size a = h.size a := by
  by_cases hab : a = b
  · subst hab
    simp [Heap.setNext, Heap.size]
  · simp [Heap.setNext, Heap.size, hab]

@[simp] theorem next_setSize : (h.setSize b v).next a = h.next a := by
  by_cases hab : a = b
  · subst hab
    simp [Heap.setSize, Heap.next]
  · simp [Heap.setSize, Heap.next, hab]

@[simp] theorem size_setSize : (h.setSize b v).size a = if a = b then v else h.size a := by
  by_cases hab : a = b
  · subst hab
    simp [Heap.setSize, Heap.size]
  · simp [Heap.setSize, Heap.size, hab]

@[simp] theorem head_setNext : (h.setNext b v).freeListHead = h.freeListHead := rfl

@[simp] theorem head_setHead : (h.setHead v).freeListHead = v := rfl

@[simp] theorem next_setHead : (h.setHead v).next a = h.next a := rfl

@[simp] theorem size_setHead : (h.setHead v).size a = h.size a := rfl

@[simp] theorem head_setSize : (h.setSize b v).freeListHead = h.freeListHead := rfl

/-- The free list in memory consists of the extents `l`, in this order. -/
structure Rep (h : Heap) (l : List Extent) : Prop where
  seg : Seg (· ≠ 0) h.next h.freeListHead (l.map start) 0
  size : ∀ e ∈ l, h.size e.start = e.size

/-- What the walks and the arithmetic of the list need of its extents. -/
structure Bounded (l : List Extent) : Prop where
  separated : Separated l
  header : ∀ e ∈ l, headerSize ≤ e.size
  fits : ∀ e ∈ l, e.stop ≤ 2 ^ 64

theorem Bounded.length_lt (hb : Bounded l) (hne : ∀ e ∈ l, e.start ≠ 0) : l.length < walkFuel := by
  have hlen := hb.separated.length_le (m := 1) hb.header
    (fun e he => Nat.one_le_iff_ne_zero.mpr (hne e he)) hb.fits (by norm_num)
  simp only [headerSize] at hlen
  norm_num [walkFuel] at *
  omega

theorem Rep.nodup (hr : Rep h l) : (l.map start).Nodup := hr.seg.nodup (not_not.mpr rfl)

theorem Rep.start_ne_zero (hr : Rep h l) (he : e ∈ l) : e.start ≠ 0 := hr.seg.node_of_mem (mem_map_of_mem he)

theorem findFit_spec (size prev : Nat) (hseg : Seg (· ≠ 0) h.next a (l.map start) 0)
    (hsize : ∀ e ∈ l, h.size e.start = e.size) (hfuel : l.length < fuel) :
    (findFit h size fuel prev a = none ∧ ∀ e ∈ l, e.size < add64 size headerSize) ∨
    ∃ pre e post, l = pre ++ e :: post ∧ add64 size headerSize ≤ e.size ∧
      findFit h size fuel prev a = some ((pre.map start).getLastD prev, e.start) := by
  induction l generalizing a prev fuel with
  | nil =>
    left
    obtain rfl : a = 0 := hseg
    obtain ⟨fuel, rfl⟩ := Nat.exists_eq_add_one_of_ne_zero (ne_of_gt hfuel)
    exact ⟨by simp [findFit], by simp⟩
  | cons x l ih =>
    obtain ⟨rfl, hx, hseg⟩ := hseg
    obtain ⟨fuel, rfl⟩ := Nat.exists_eq_add_one_of_ne_zero (ne_of_gt (Nat.zero_lt_of_lt hfuel))
    have hxsize := hsize x (by simp)
    by_cases hfit : add64 size headerSize ≤ x.size
    · right
      exact ⟨[], x, l, rfl, hfit, by simp [findFit, hx, hxsize, hfit]⟩
    have hstep : findFit h size (fuel + 1) prev x.start = findFit h size fuel x.start (h.next x.start) := by
      simp [findFit, hx, hxsize, hfit]
    rw [hstep]
    rcases ih x.start hseg (fun e he => hsize e (by simp [he]))
        (by simpa using hfuel) with ⟨hnone, hall⟩ | ⟨pre, e, post, rfl, he, hsome⟩
    · left
      refine ⟨hnone, ?_⟩
      intro e he
      rcases mem_cons.mp he with rfl | he
      · omega
      · exact hall e he
    · right
      refine ⟨x :: pre, e, post, rfl, he, ?_⟩
      rw [hsome, map_cons, getLastD_cons]

theorem rep_unlink (hr : Rep h (pre ++ e :: post)) :
    Rep (unlink h ((pre.map start).getLastD 0) e.start) (pre ++ post) := by
  obtain ⟨hseg, hsize⟩ := hr
  have hsize' : ∀ x ∈ pre ++ post, h.size x.start = x.size := by
    intro x hx
    apply hsize x
    rcases mem_append.mp hx with hx | hx <;> simp [hx]
  simp only [map_append, map_cons] at hseg
  obtain ⟨hpost, hepost⟩ := hseg.tail (not_not.mpr rfl)
  rcases eq_nil_or_concat pre with rfl | ⟨pre, q, rfl⟩
  · refine ⟨?_, fun x hx => by simpa [unlink] using hsize' x hx⟩
    have hfree : (unlink h (([] : List Extent).map start |>.getLastD 0) e.start).freeListHead =
        h.next e.start := by simp [unlink]
    rw [hfree]
    refine hpost.congr fun x hx => ?_
    have hxe : x ≠ e.start := fun heq => hepost (heq ▸ hx)
    simp [unlink, hxe]
  · simp only [concat_eq_append, append_assoc, cons_append, nil_append, map_append, map_cons, map_nil] at hseg hsize' ⊢
    obtain ⟨⟨-, -, -⟩, hqpost⟩ := hseg.tail (not_not.mpr rfl)
    obtain ⟨hqe, hqpost⟩ := not_or.mp (mem_cons.not.mp hqpost)
    have hq : q.start ≠ 0 := hseg.node_of_mem (by simp)
    have hlast : (pre.map start ++ [q.start]).getLastD 0 = q.start := by simp
    rw [hlast]
    refine ⟨?_, fun x hx => by simpa [unlink, hq] using hsize' x hx⟩
    have hnext : ∀ x, x ≠ q.start → x ≠ e.start → (unlink h q.start e.start).next x = h.next x := by
      intro x hxq hxe
      simp [unlink, hq, hxq, hxe]
    have hqnext : (unlink h q.start e.start).next q.start = h.next e.start := by
      simp [unlink, hq, hqe]
    have hhead : (unlink h q.start e.start).freeListHead = h.freeListHead := by
      simp [unlink, hq]
    have hcross := (nodup_append.mp (hseg.nodup (not_not.mpr rfl))).2.2
    rw [hhead, map_append, map_cons]
    refine hseg.relink (not_not.mpr rfl) (fun x hx hxq => hnext x hxq (hcross x hx e.start (by simp))) ?_
    rw [hqnext]
    exact hpost.congr fun x hx => hnext x (fun heq => hqpost (heq ▸ hx)) fun heq => hepost (heq ▸ hx)

theorem size_unlink : (unlink h prev b).size a = h.size a := by
  simp only [unlink, size_setNext]
  split
  · rfl
  · exact size_setNext

/-- `find_free_block` fails only if no block is large enough; otherwise it takes one out
of the list and changes no size. -/
theorem findFreeBlock_spec (size : Nat) (hr : Rep h l) (hb : Bounded l) :
    (findFreeBlock h size = none ∧ ∀ e ∈ l, e.size < add64 size headerSize) ∨
    ∃ pre e post h', l = pre ++ e :: post ∧ add64 size headerSize ≤ e.size ∧
      findFreeBlock h size = some (e.start, h') ∧ Rep h' (pre ++ post) ∧
      ∀ a, h'.size a = h.size a := by
  have hfuel := hb.length_lt fun e he => hr.start_ne_zero he
  rcases findFit_spec size 0 hr.seg hr.size hfuel with
    ⟨hnone, hall⟩ | ⟨pre, e, post, rfl, he, hsome⟩
  · left
    exact ⟨by simp [findFreeBlock, hnone], hall⟩
  right
  refine ⟨pre, e, post, _, rfl, he, by simp only [findFreeBlock, hsome, Option.map_some],
    rep_unlink hr, fun a => size_unlink⟩

theorem rep_insertHead (hr : Rep h l) (hb : b ≠ 0) (hbl : b ∉ l.map start) :
    Rep (insertHead h b) (⟨b, h.size b⟩ :: l) := by
  refine ⟨?_, ?_⟩
  · refine ⟨rfl, hb, ?_⟩
    have hnext : (insertHead h b).next b = h.freeListHead := by simp [insertHead]
    rw [hnext]
    refine hr.seg.congr ?_
    intro x hx
    have hxb : x ≠ b := fun heq => hbl (heq ▸ hx)
    simp [insertHead, hxb]
  · intro x hx
    rcases mem_cons.mp hx with rfl | hx
    · simp [insertHead]
    · simpa [insertHead] using hr.size x hx

theorem rep_insertAfter (hr : Rep h (pre ++ p :: post)) (hb : b ≠ 0) (hbl : b ∉ (pre ++ p :: post).map start) :
    Rep (insertAfter h p.start b) (pre ++ p :: ⟨b, h.size b⟩ :: post) := by
  obtain ⟨hseg, hsize⟩ := hr
  simp only [map_append, map_cons] at hseg hbl
  obtain ⟨hpost, hppost⟩ := hseg.tail (not_not.mpr rfl)
  simp only [mem_append, mem_cons, not_or] at hbl
  obtain ⟨hbpre, hbp, hbpost⟩ := hbl
  -- only the two new links differ
  have hnext : ∀ x, x ≠ p.start → x ≠ b → (insertAfter h p.start b).next x = h.next x := by
    intro x hxp hxb
    simp [insertAfter, hxp, hxb]
  have hbnext : (insertAfter h p.start b).next b = h.next p.start := by simp [insertAfter, hbp]
  refine ⟨?_, ?_⟩
  · simp only [map_append, map_cons]
    refine hseg.relink (not_not.mpr rfl) (fun x hx hxp => hnext x hxp fun heq => hbpre (heq ▸ hx))
      ⟨by simp [insertAfter], hb, ?_⟩
    rw [hbnext]
    exact hpost.congr fun x hx => hnext x (fun heq => hppost (heq ▸ hx)) fun heq => hbpost (heq ▸ hx)
  · intro x hx
    simp only [insertAfter, size_setNext]
    rcases mem_append.mp hx with hx | hx
    · exact hsize x (by simp [hx])
    rcases mem_cons.mp hx with rfl | hx
    · exact hsize x (by simp)
    rcases mem_cons.mp hx with rfl | hx
    · rfl
    · exact hsize x (by simp [hx])

theorem size_mergeNext (hab : a ≠ b) : (mergeNext h b).size a = h.size a := by
  simp only [mergeNext]
  split <;> simp [hab]

theorem add64_eq_iff (hx : x.stop ≤ 2 ^ 64) (hy : y.stop ≤ 2 ^ 64)
    (hpos : 0 < y.size) (hne : y.start ≠ 0) : add64 x.start x.size = y.start ↔ x.stop = y.start := by
  simp only [add64, stop] at *
  omega

theorem rep_mergeNext (pre : List Extent) (hr : Rep h (pre ++ e :: l))
    (hpos : ∀ x ∈ e :: l, 0 < x.size) (hfits : ∀ x ∈ e :: l, x.stop ≤ 2 ^ 64) :
    Rep (mergeNext h e.start) (pre ++ pushJoin e l) := by
  have hesize := hr.size e (by simp)
  have hseg := hr.seg
  simp only [map_append, map_cons] at hseg
  obtain ⟨hnext, hel⟩ := hseg.tail (not_not.mpr rfl)
  cases l with
  | nil =>
    have hzero : h.next e.start = 0 := hnext
    simpa [mergeNext, hzero, pushJoin] using hr
  | cons y l =>
    have hysize := hr.size y (by simp)
    have hyne : y.start ≠ 0 := hr.start_ne_zero (by simp)
    obtain ⟨hey, _, hl⟩ := hnext
    have htouch := add64_eq_iff (hfits e (by simp)) (hfits y (by simp)) (hpos y (by simp)) hyne
    by_cases hj : e.stop = y.start
    · have hel := (not_or.mp (mem_cons.not.mp hel)).2
      have hsum : add64 e.size y.size = e.size + y.size := by
        have hyfit := hfits y (by simp)
        have hene : e.start ≠ 0 := hr.start_ne_zero (by simp)
        simp only [stop] at hj hyfit
        exact Nat.mod_eq_of_lt (by omega)
      have hcond : h.next e.start ≠ 0 ∧ add64 e.start (h.size e.start) = h.next e.start := by
        rw [hey, hesize]
        exact ⟨hyne, htouch.mpr hj⟩
      have hmerge : mergeNext h e.start = (h.setSize e.start (e.size + y.size)).setNext e.start (h.next y.start) := by
        rw [mergeNext, if_pos hcond]
        simp only [hesize, hey, hysize, hsum, next_setSize]
      rw [hmerge, pushJoin, if_pos hj]
      refine ⟨?_, ?_⟩
      · simp only [map_append, map_cons, join]
        refine hseg.relink (not_not.mpr rfl) (fun x _ hxe => by simp [hxe]) ?_
        simp only [next_setNext, if_true]
        refine hl.congr fun x hx => ?_
        have hxe : x ≠ e.start := fun heq => hel (heq ▸ hx)
        simp [hxe]
      · intro x hx
        simp only [size_setNext, size_setSize]
        rcases mem_append.mp hx with hx | hx
        · have hxe := (nodup_append.mp (hseg.nodup (not_not.mpr rfl))).2.2 x.start (mem_map_of_mem hx) e.start (by simp)
          rw [if_neg hxe]
          exact hr.size x (by simp [hx])
        rcases mem_cons.mp hx with rfl | hx
        · simp [join]
        have hxe : x.start ≠ e.start := fun heq => hel (heq ▸ mem_map_of_mem hx)
        rw [if_neg hxe]
        exact hr.size x (by simp [hx])
    · have hcond : ¬ (h.next e.start ≠ 0 ∧ add64 e.start (h.size e.start) = h.next e.start) := by
        rw [hey, hesize, htouch]
        exact fun hc => hj hc.2
      rw [mergeNext, if_neg hcond, pushJoin, if_neg hj]
      exact hr

theorem mergePrev_eq (hnext : h.next prev = b) (hb : b ≠ 0) : mergePrev h prev b = mergeNext h prev := by
  simp [mergePrev, mergeNext, hnext, hb]

theorem next_mergeNext (hab : a ≠ b) : (mergeNext h b).next a = h.next a := by
  simp only [mergeNext]
  split <;> simp [hab]

theorem findPrev_spec (hseg : Seg (· ≠ 0) h.next e.start ((e :: l).map start) 0) (hfuel : l.length < fuel)
    (he : e.start < b) : ∃ pre p post, e :: l = pre ++ p :: post ∧ findPrev h b fuel e.start = p.start ∧
      p.start < b ∧ ∀ x ∈ post.head?, b ≤ x.start := by
  induction l generalizing e fuel with
  | nil =>
    obtain ⟨fuel, rfl⟩ := Nat.exists_eq_add_one_of_ne_zero (ne_of_gt hfuel)
    have hzero : h.next e.start = 0 := hseg.2.2
    exact ⟨[], e, [], rfl, by simp [findPrev, hzero], he, by simp⟩
  | cons y l ih =>
    obtain ⟨fuel, rfl⟩ := Nat.exists_eq_add_one_of_ne_zero (ne_of_gt (Nat.zero_lt_of_lt hfuel))
    obtain ⟨_, _, hey, hyne, hl⟩ := hseg
    by_cases hy : y.start < b
    · have hstep : findPrev h b (fuel + 1) e.start = findPrev h b fuel y.start := by
        simp [findPrev, hey, hyne, hy]
      obtain ⟨pre, p, post, heq, hfind, hp, hpost⟩ := ih (e := y) ⟨rfl, hyne, hl⟩ (by simpa using hfuel) hy
      exact ⟨e :: pre, p, post, by rw [heq]; rfl, hstep.trans hfind, hp, hpost⟩
    · refine ⟨[], e, y :: l, rfl, by simp [findPrev, hey, hy], he, ?_⟩
      intro x hx
      obtain rfl : y = x := by simpa using hx
      omega

/-- `kfree_unlocked` is the coalescing insertion; it changes only sizes in the headers of
the list and of the freed block. -/
theorem rep_kfreeUnlocked (hr : Rep h l) (hb : Bounded l) (hsize : h.size e.start = e.size)
    (hpos : 0 < e.size) (hfits : e.stop ≤ 2 ^ 64) (hne : e.start ≠ 0) (hd : Disjoint e.bytes (cover l)) :
    Rep (kfreeUnlocked h (e.start + headerSize)) (insertFree e l) ∧
      ∀ a, a ∉ l.map start → a ≠ e.start → (kfreeUnlocked h (e.start + headerSize)).size a = h.size a := by
  have hnot : e.start ∉ l.map start := by
    intro hmem
    obtain ⟨x, hx, heq⟩ := mem_map.mp hmem
    refine Set.disjoint_left.mp hd (start_mem_bytes hpos) ⟨x, hx, ?_⟩
    exact heq ▸ start_mem_bytes (hb.separated.pos x hx)
  have hblock : (⟨e.start, h.size e.start⟩ : Extent) = e := by rw [hsize]
  have hguard : e.start + headerSize ≠ 0 := by omega
  have hnz : h.size e.start ≠ 0 := by omega
  simp only [kfreeUnlocked, if_neg hguard, Nat.add_sub_cancel, if_neg hnz]
  by_cases hfront : h.freeListHead = 0 ∨ e.start < h.freeListHead
  · rw [if_pos hfront]
    have hlt : ∀ x ∈ l, e.start < x.start := by
      cases l with
      | nil => simp
      | cons y l =>
        obtain ⟨hhead, hy, _⟩ := hr.seg
        obtain ⟨_, hgap, _⟩ := separated_cons.mp hb.separated
        have hey : e.start < y.start := by
          rcases hfront with hzero | hlt
          · exact absurd (hhead.symm.trans hzero) hy
          · exact hhead ▸ hlt
        intro x hx
        rcases mem_cons.mp hx with rfl | hx
        · exact hey
        have := hgap x hx
        simp only [stop] at this
        omega
    have hins := rep_insertHead hr hne hnot
    rw [hblock] at hins
    refine ⟨?_, ?_⟩
    · rw [insertFree_of_lt hlt]
      refine rep_mergeNext [] hins ?_ ?_
      · exact forall_mem_cons.mpr ⟨hpos, hb.separated.pos⟩
      · exact forall_mem_cons.mpr ⟨hfits, hb.fits⟩
    · intro a _ hae
      rw [size_mergeNext hae]
      simp [insertHead]
  · rw [if_neg hfront]
    rw [not_or] at hfront
    have hlen := hb.length_lt fun x hx => hr.start_ne_zero hx
    cases l with
    | nil => exact absurd hr.seg hfront.1
    | cons y l =>
      have hhead : h.freeListHead = y.start := hr.seg.1
      have hye : y.start < e.start := by
        have : e.start ≠ y.start := fun heq => hnot (by simp [heq])
        omega
      rw [hhead]
      obtain ⟨pre, p, post, heq, hfind, hp, hpost⟩ := findPrev_spec (hhead ▸ hr.seg) (Nat.lt_of_succ_lt hlen) hye
      rw [hfind]
      rw [heq] at hr hb hd hnot ⊢
      have hsep := hb.separated
      -- the blocks in front of `p` start before it, those behind it after the freed one
      have hbefore : ∀ x ∈ pre ++ [p], x.start ≤ e.start := by
        intro x hx
        rcases mem_append.mp hx with hx | hx
        · have := (pairwise_append.mp hsep.gaps).2.2 x hx p (by simp)
          simp only [stop] at this
          omega
        · obtain rfl : x = p := by simpa using hx
          omega
      have hafter : ∀ x ∈ post, e.start < x.start := by
        cases post with
        | nil => simp
        | cons z post =>
          have hz := hpost z rfl
          have hez : e.start ≠ z.start := fun heq => hnot (by simp [heq])
          have hgap := (pairwise_cons.mp (pairwise_cons.mp (pairwise_append.mp hsep.gaps).2.1).2).1
          intro x hx
          rcases mem_cons.mp hx with rfl | hx
          · omega
          have := hgap x hx
          simp only [stop] at this
          omega
      have hins := rep_insertAfter hr hne hnot
      rw [hblock] at hins
      have hpe : p.start ≠ e.start := by omega
      have hpospost : ∀ x ∈ post, 0 < x.size := fun x hx => hsep.pos x (by simp [hx])
      have hfitpost : ∀ x ∈ post, x.stop ≤ 2 ^ 64 := fun x hx => hb.fits x (by simp [hx])
      have hmerged : Rep (mergeNext (insertAfter h p.start e.start) e.start) (pre ++ p :: pushJoin e post) := by
        have := rep_mergeNext (pre ++ [p]) (e := e) (l := post) (by simpa using hins)
          (forall_mem_cons.mpr ⟨hpos, hpospost⟩) (forall_mem_cons.mpr ⟨hfits, hfitpost⟩)
        simpa using this
      have hlink : (mergeNext (insertAfter h p.start e.start) e.start).next p.start = e.start := by
        rw [next_mergeNext hpe]
        simp [insertAfter]
      rw [mergePrev_eq hlink hne]
      refine ⟨?_, ?_⟩
      · rw [insertFree_append hsep hbefore, insertFree_of_lt hafter]
        refine rep_mergeNext pre hmerged ?_ ?_
        · refine forall_mem_cons.mpr ⟨hsep.pos p (by simp), ?_⟩
          refine forall_pushJoin (P := fun x => 0 < x.size) ?_ hpos hpospost
          intro u v _ hu _
          simp only [join]
          omega
        · refine forall_mem_cons.mpr ⟨hb.fits p (by simp), ?_⟩
          exact forall_pushJoin (P := fun x => x.stop ≤ 2 ^ 64) (fun u v => stop_join_le) hfits hfitpost
      · intro a ha hae
        have hap : a ≠ p.start := fun heq => ha (by simp [heq])
        rw [size_mergeNext hap, size_mergeNext hae]
        simp [insertAfter]

end NyanOS.Kmalloc
