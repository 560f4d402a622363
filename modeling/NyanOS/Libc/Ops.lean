import NyanOS.Libc.Chain

/-!
# What the functions of the heap do to the chain

One lemma for each function of the source: the blocks after the call, and the bytes that it may have changed.
-/
namespace NyanOS.Libc

open Lib List

variable {b b' : Bytes} {a c v z n size fuel last : Nat} {x y : Block} {l l' pre post : List Block} {q : Nat × Block}

/-- A block that `find_free_blk` stops at. -/
def Fits (size : Nat) (x : Block) : Prop := x.free = true ∧ size ≤ x.size

/-- The address of the last block of a list that starts at `a`. -/
def lastOf (a : Nat) (l : List Block) : Nat := a + total l.dropLast

/-! `find_free_blk` -/

theorem findFreeBlk_end (fuel last : Nat) : findFreeBlk b size fuel last 0 = (last, 0) := by
  cases fuel with
  | zero => rfl
  | succ fuel => exact if_neg fun h => h.1 rfl

theorem findFreeBlk_found (ha : 0 < a) (hc : Chain b a (pre ++ x :: post) z)
    (hpre : ∀ y ∈ pre, ¬ Fits size y) (hx : Fits size x) (hfuel : pre.length < fuel) :
    (findFreeBlk b size fuel last a).2 = a + total pre := by
  induction pre generalizing a fuel last with
  | nil =>
    obtain ⟨fuel, rfl⟩ := Nat.exists_eq_succ_of_ne_zero (ne_of_gt hfuel)
    have hhead : blockAt b a = _ := hc.1
    rw [findFreeBlk, hhead, if_neg fun h => h.2 hx]
    rfl
  | cons y pre ih =>
    obtain ⟨fuel, rfl⟩ := Nat.exists_eq_succ_of_ne_zero (ne_of_gt (Nat.zero_lt_of_lt hfuel))
    have hhead : blockAt b a = ⟨y.size, ptrTo (a + (metaSize + y.size)) (pre ++ x :: post) z, y.free, heapMagic⟩ :=
      hc.1
    have hy : ¬ Fits size y := hpre y mem_cons_self
    rw [ptrTo, if_neg (by simp)] at hhead
    rw [findFreeBlk, hhead, if_pos ⟨by omega, hy⟩]
    rw [ih (by omega) hc.2 (fun y hy => hpre y (mem_cons_of_mem _ hy))
      (by rw [length_cons] at hfuel; omega), total_cons, add_assoc]

theorem findFreeBlk_none (ha : 0 < a) (hc : Chain b a l 0) (hl : l ≠ [])
    (hnone : ∀ y ∈ l, ¬ Fits size y) (hfuel : l.length ≤ fuel) : findFreeBlk b size fuel last a = (lastOf a l, 0) := by
  induction l generalizing a fuel last with
  | nil => exact absurd rfl hl
  | cons y l ih =>
    obtain ⟨fuel, rfl⟩ : ∃ m, fuel = m + 1 :=
      Nat.exists_eq_succ_of_ne_zero (ne_of_gt (lt_of_lt_of_le (Nat.zero_lt_succ _) hfuel))
    have hhead : blockAt b a = _ := hc.1
    have hy : ¬ Fits size y := hnone y mem_cons_self
    rw [findFreeBlk, hhead, if_pos ⟨by omega, hy⟩]
    cases l with
    | nil => exact findFreeBlk_end fuel a
    | cons w l =>
      simp only [ptrTo_cons]
      rw [ih (by omega) hc.2 (cons_ne_nil _ _) (fun y hy => hnone y (mem_cons_of_mem _ hy))
        (Nat.le_of_succ_le_succ hfuel)]
      simp only [lastOf, dropLast_cons_cons, total_cons, add_assoc]

theorem exists_first_fit (size : Nat) (l : List Block) :
    (∀ y ∈ l, ¬ Fits size y) ∨ ∃ pre x post, l = pre ++ x :: post ∧ (∀ y ∈ pre, ¬ Fits size y) ∧ Fits size x := by
  induction l with
  | nil => exact .inl fun y hy => absurd hy not_mem_nil
  | cons w l ih =>
    by_cases hw : Fits size w
    · exact .inr ⟨[], w, l, rfl, fun y hy => absurd hy not_mem_nil, hw⟩
    rcases ih with hnone | ⟨pre, x, post, rfl, hpre, hx⟩
    · exact .inl (forall_mem_cons.mpr ⟨hw, hnone⟩)
    · exact .inr ⟨w :: pre, x, post, rfl, forall_mem_cons.mpr ⟨hw, hpre⟩, hx⟩

/-! `request_space` -/

/-- The header that `request_space` writes. -/
def newHeader (b : Bytes) (blk size : Nat) : Bytes :=
  setMagic (setFree (setNext (setSize b blk size) blk 0) blk false) blk heapMagic

theorem blockAt_newHeader (h : size < 2 ^ 64) : blockAt (newHeader b a size) a = ⟨size, 0, false, heapMagic⟩ := by
  rw [newHeader, blockAt_setMagic (by decide), blockAt_setFree, blockAt_setNext (by decide), blockAt_setSize h]

theorem newHeader_outside : Outside a (a + metaSize) b (newHeader b a size) :=
  ((Outside.size (le_refl _) (le_refl _)).trans (Outside.next (le_refl _) (le_refl _))).trans
    ((Outside.free (le_refl _) (le_refl _)).trans (Outside.magic (le_refl _) (le_refl _)))

theorem chain_grow (hc : Chain b a (pre ++ [y]) 0) (hsize : size < 2 ^ 64) (hend : a + total (pre ++ [y]) < 2 ^ 64) :
    Chain (setNext (newHeader b (a + total (pre ++ [y])) size) (a + total pre) (a + total (pre ++ [y]))) a
      (pre ++ [y] ++ [⟨size, false⟩]) 0 := by
  rw [append_assoc]
  obtain ⟨hpre, hlast⟩ := chain_append.mp hc
  have htotal : total (pre ++ [y]) = total pre + (metaSize + y.size) := by rw [total_append, total_cons, total_nil]; rfl
  generalize hk : a + total (pre ++ [y]) = k at hend ⊢
  have hpos : a + total pre + (metaSize + y.size) = k := by omega
  have hnew : Outside k (k + metaSize) b (newHeader b k size) := newHeader_outside
  have hset : Outside (a + total pre) (a + total pre + metaSize) (newHeader b k size)
      (setNext (newHeader b k size) (a + total pre) k) := Outside.next (le_refl _) (le_refl _)
  refine chain_append.mpr ⟨?_, ?_, ?_, trivial⟩
  · exact (hpre.outside hnew (.inl (by omega))).outside hset (.inl (le_refl _))
  · have hhead : blockAt (newHeader b k size) (a + total pre) = _ := (hnew.blockAt (.inl (by omega))).trans hlast.1
    rw [blockAt_setNext hend, hhead, hpos]
    rfl
  · rw [hpos, hset.blockAt (.inr (by omega)), blockAt_newHeader hsize]
    rfl

/-! Taking a free block -/

/-- The blocks that a free block becomes when `size` bytes of it are taken. -/
def taken (x : Block) (size : Nat) : List Block :=
  if size + metaSize + 16 ≤ x.size then [⟨size, false⟩, ⟨x.size - size - metaSize, true⟩] else [⟨x.size, false⟩]

theorem taken_ne_nil : taken x size ≠ [] := by
  unfold taken
  split <;> exact cons_ne_nil _ _

theorem total_taken : total (taken x size) = total [x] := by
  unfold taken
  split
  · simp only [total_cons, total_nil]
    omega
  · rfl

theorem add64_eq (h : a + c < 2 ^ 64) : add64 a c = a + c := Nat.mod_eq_of_lt h

theorem split_bound (h : size + metaSize + 16 < 2 ^ 64) : add64 (add64 size metaSize) 16 = size + metaSize + 16 := by
  have hadd : add64 size metaSize = size + metaSize := add64_eq (by omega)
  rw [hadd, add64_eq h]

theorem splitBlk_new (hx : blockAt b a = ⟨x.size, z, x.free, heapMagic⟩) (hz : z < 2 ^ 64)
    (hroom : size + metaSize + 16 ≤ x.size) (hend : a + (metaSize + x.size) < 2 ^ 64) :
    blockAt (splitBlk b a size) a = ⟨size, a + (metaSize + size), x.free, heapMagic⟩ ∧
    blockAt (splitBlk b a size) (a + (metaSize + size)) = ⟨x.size - size - metaSize, z, true, heapMagic⟩ ∧
    Outside a (a + (metaSize + x.size)) b (splitBlk b a size) := by
  have hmeta : metaSize = 24 := rfl
  have hadd := split_bound (show size + metaSize + 16 < 2 ^ 64 by omega)
  generalize hk : a + (metaSize + size) = k
  have hsplit : splitBlk b a size =
      let b := setMagic (setFree (setSize b k (x.size - size - metaSize)) k true) k heapMagic
      setNext (setSize (setNext b k (blockAt b a).next) a size) a k := by
    rw [splitBlk, hx, if_pos (by rw [hadd]; exact hroom), add_assoc, hk]
  generalize hb₁ : setMagic (setFree (setSize b k (x.size - size - metaSize)) k true) k heapMagic = b₁ at hsplit
  have hout₁ : Outside k (k + metaSize) b b₁ := by
    rw [← hb₁]
    exact (Outside.size (le_refl _) (le_refl _)).trans
      ((Outside.free (le_refl _) (le_refl _)).trans (Outside.magic (le_refl _) (le_refl _)))
  have hhead₁ : blockAt b₁ a = ⟨x.size, z, x.free, heapMagic⟩ := (hout₁.blockAt (.inl (by omega))).trans hx
  have hnew₁ : blockAt b₁ k = ⟨x.size - size - metaSize, (blockAt b k).next, true, heapMagic⟩ := by
    rw [← hb₁, blockAt_setMagic (by decide), blockAt_setFree, blockAt_setSize (by omega)]
  simp only [hhead₁] at hsplit
  have hout₂ : Outside k (k + metaSize) b₁ (setNext b₁ k z) := Outside.next (le_refl _) (le_refl _)
  have hout₃ : Outside a (a + metaSize) (setNext b₁ k z) (splitBlk b a size) := by
    rw [hsplit]
    exact (Outside.size (le_refl _) (le_refl _)).trans (Outside.next (le_refl _) (le_refl _))
  refine ⟨?_, ?_, fun i hi => ?_⟩
  · rw [hsplit, blockAt_setNext (by omega), blockAt_setSize (by omega), hout₂.blockAt (.inl (by omega)), hhead₁]
  · rw [hout₃.blockAt (.inr (by omega)), blockAt_setNext hz, hnew₁]
  · rw [hout₃ i (by omega), hout₂ i (by omega), hout₁ i (by omega)]

theorem chain_taken (hc : Chain b a [x] z) (hend : a + (metaSize + x.size) < 2 ^ 64) (hz : z < 2 ^ 64)
    (hsize : size < 2 ^ 63) : Chain (setMagic (setFree (splitBlk b a size) a false) a heapMagic) a (taken x size) z ∧
      Outside a (a + (metaSize + x.size)) b (setMagic (setFree (splitBlk b a size) a false) a heapMagic) := by
  have hx : blockAt b a = ⟨x.size, z, x.free, heapMagic⟩ := hc.1
  have hout : ∀ b, Outside a (a + metaSize) b (setMagic (setFree b a false) a heapMagic) := fun b =>
    (Outside.free (le_refl _) (le_refl _)).trans (Outside.magic (le_refl _) (le_refl _))
  have hhead : ∀ b, blockAt (setMagic (setFree b a false) a heapMagic) a =
      { blockAt b a with free := false, magic := heapMagic } := by
    intro b
    rw [blockAt_setMagic (by decide), blockAt_setFree]
  by_cases hroom : size + metaSize + 16 ≤ x.size
  · obtain ⟨htook, hnew, hsplit⟩ := splitBlk_new hx hz hroom hend
    rw [taken, if_pos hroom]
    refine ⟨⟨?_, ?_, trivial⟩, hsplit.trans fun i hi => hout _ i (by omega)⟩
    · rw [hhead, htook]
      rfl
    · rw [(hout _).blockAt (.inr (by simp only; omega)), hnew]
      rfl
  · have hadd := split_bound (show size + metaSize + 16 < 2 ^ 64 by unfold metaSize; omega)
    have hsame : splitBlk b a size = b := by
      rw [splitBlk, hx, if_neg (by rw [hadd]; exact hroom)]
    rw [taken, if_neg hroom, hsame]
    refine ⟨⟨?_, trivial⟩, fun i hi => hout _ i (by omega)⟩
    rw [hhead, hx]
    rfl

/-! Joining free neighbours -/

/-- What the loop of `free` leaves of a block and of those after it. -/
def joined : Block → List Block → List Block
  | x, [] => [x]
  | x, y :: l => if x.free = true ∧ y.free = true then joined ⟨x.size + (metaSize + y.size), true⟩ l else x :: joined y l

/-- Two neighbours of which one is in use. -/
def Spaced (x y : Block) : Prop := ¬ (x.free = true ∧ y.free = true)

theorem total_joined : total (joined x l) = total (x :: l) := by
  induction l generalizing x with
  | nil => rfl
  | cons y l ih =>
    rw [joined]
    split
    · rw [ih]
      simp only [total_cons]
      omega
    · rw [total_cons, ih]
      rfl

theorem joined_ne_nil : joined x l ≠ [] := by
  intro h
  have htotal : total (joined x l) = 0 := by rw [h, total_nil]
  rw [total_joined, total_cons] at htotal
  exact absurd htotal (by unfold metaSize; omega)

theorem coalesce_end (fuel : Nat) : coalesce fuel 0 b = b := by
  cases fuel with
  | zero => rfl
  | succ fuel => rfl

theorem ptrTo_le (h : z ≤ a) : ptrTo a l z ≤ a := by
  cases l with
  | nil => exact h
  | cons x l => exact le_refl a

theorem chain_join (hc : Chain b a (x :: y :: l) 0) (hend : a + total (x :: y :: l) < 2 ^ 64) (hx : x.free = true) :
    Chain (setNext (setSize b a (x.size + (metaSize + y.size))) a
      (ptrTo (a + (metaSize + x.size) + (metaSize + y.size)) l 0)) a (⟨x.size + (metaSize + y.size), true⟩ :: l) 0 := by
  have hpos : a + (metaSize + x.size) + (metaSize + y.size) = a + (metaSize + (x.size + (metaSize + y.size))) := by
    omega
  obtain ⟨hhead, -, htail⟩ := hc
  rw [hpos] at htail ⊢
  simp only [total_cons] at hend
  have hptr : ptrTo (a + (metaSize + (x.size + (metaSize + y.size)))) l 0 ≤ _ := ptrTo_le (Nat.zero_le _)
  refine ⟨?_, htail.outside (?_ : Outside a (a + metaSize) _ _) (Or.inr (by omega))⟩
  · rw [blockAt_setNext (by omega), blockAt_setSize (by omega), hhead, hx]
  · exact (Outside.size (le_refl _) (le_refl _)).trans (Outside.next (le_refl _) (le_refl _))

theorem coalesce_eq (ha : 0 < a) (hc : Chain b a (x :: l) 0) (hend : a + total (x :: l) < 2 ^ 64)
    (hfuel : l.length < fuel) :
    Chain (coalesce fuel a b) a (joined x l) 0 ∧ Outside a (a + total (x :: l)) b (coalesce fuel a b) := by
  induction l generalizing a b x fuel with
  | nil =>
    obtain ⟨fuel, rfl⟩ := Nat.exists_eq_succ_of_ne_zero (ne_of_gt hfuel)
    have hhead : blockAt b a = ⟨x.size, 0, x.free, heapMagic⟩ := hc.1
    have hsame : coalesce (fuel + 1) a b = b := by
      rw [coalesce, if_neg (by omega), hhead]
      exact (if_neg fun h => h.2.1 rfl).trans (coalesce_end fuel)
    rw [hsame]
    exact ⟨hc, Outside.refl⟩
  | cons y l ih =>
    obtain ⟨fuel, rfl⟩ := Nat.exists_eq_succ_of_ne_zero (ne_of_gt (Nat.zero_lt_of_lt hfuel))
    have hlen : l.length < fuel := Nat.lt_of_succ_lt_succ hfuel
    have hhead : blockAt b a = ⟨x.size, a + (metaSize + x.size), x.free, heapMagic⟩ := hc.1
    have hnext : blockAt b (a + (metaSize + x.size)) =
      ⟨y.size, ptrTo (a + (metaSize + x.size) + (metaSize + y.size)) l 0, y.free, heapMagic⟩ := hc.2.1
    rw [coalesce, if_neg (by omega), hhead, joined]
    simp only [hnext]
    have hsum : a + (metaSize + x.size) + (metaSize + y.size + total l) = a + total (x :: y :: l) := by
      simp only [total_cons]
      omega
    by_cases hfree : x.free = true ∧ y.free = true
    · have hchain := chain_join hc hend hfree.1
      generalize hb₁ : setSize b a (x.size + (metaSize + y.size)) = b₁ at hchain
      have hout₁ : Outside a (a + metaSize) b b₁ := by
        rw [← hb₁]
        exact Outside.size (le_refl _) (le_refl _)
      have hadd : add64 x.size (add64 metaSize y.size) = x.size + (metaSize + y.size) := by
        rw [add64_eq (by omega : metaSize + y.size < 2 ^ 64), add64_eq (by omega)]
      have hnext₁ := (hout₁.blockAt (.inr (by omega : a + metaSize ≤ a + (metaSize + x.size)))).trans hnext
      have htotal : total (⟨x.size + (metaSize + y.size), true⟩ :: l) = total (x :: y :: l) := by
        simp only [total_cons]
        omega
      rw [if_pos hfree, if_pos ⟨hfree.1, by omega, hfree.2⟩, hadd, hb₁, hnext₁]
      obtain ⟨hjoin, hout⟩ := ih ha hchain (by rw [htotal]; exact hend) hlen
      rw [htotal] at hout
      refine ⟨hjoin, Outside.trans (fun i hi => ?_) hout⟩
      have hi₁ : i < a ∨ a + metaSize ≤ i := by omega
      exact (Outside.next (le_refl _) (le_refl _) i hi₁).trans (hout₁ i hi₁)
    · rw [if_neg hfree, if_neg fun h => hfree ⟨h.1, h.2.2⟩]
      obtain ⟨hjoin, hout⟩ := ih (by omega) hc.2 (by rw [total_cons, hsum]; exact hend) hlen
      rw [total_cons, hsum] at hout
      refine ⟨⟨?_, hjoin⟩, fun i hi => hout i (by omega)⟩
      rw [hout.blockAt (.inl (by omega)), hhead, ptrTo, if_neg joined_ne_nil]

theorem head_joined (hx : x.free = false) : (joined x l).head? = some x := by
  cases l with
  | nil => rfl
  | cons y l => rw [joined, if_neg (by simp [hx]), head?_cons]

theorem spaced_joined : (joined x l).IsChain Spaced := by
  induction l generalizing x with
  | nil => exact List.IsChain.singleton x
  | cons y l ih =>
    rw [joined]
    split
    · exact ih
    next hfree =>
    refine isChain_cons.mpr ⟨fun w hw hboth => ?_, ih⟩
    cases hy : y.free with
    | true => exact hfree ⟨hboth.1, hy⟩
    | false =>
      obtain rfl : y = w := Option.some.inj ((head_joined hy).symm.trans hw)
      exact absurd hboth.2 (by simp [hy])

theorem mem_placed_joined (h : q ∈ placed a (x :: l)) (hq : q.2.free = false) : q ∈ placed a (joined x l) := by
  induction l generalizing a x with
  | nil => exact h
  | cons y l ih =>
    rw [joined]
    split
    · next hfree =>
      rcases mem_cons.mp h with rfl | htail
      · exact absurd (hq.symm.trans hfree.1) Bool.false_ne_true
      rcases mem_cons.mp htail with rfl | hrest
      · exact absurd (hq.symm.trans hfree.2) Bool.false_ne_true
      refine ih (mem_cons_of_mem _ ?_)
      have hpos : a + (metaSize + x.size) + (metaSize + y.size) =
          a + (metaSize + (x.size + (metaSize + y.size))) := by omega
      rw [hpos] at hrest
      exact hrest
    · rcases mem_cons.mp h with rfl | htail
      · exact mem_cons_self
      · exact mem_cons_of_mem _ (ih htail)

end NyanOS.Libc
