import NyanOS.Lib.RefCount

/-!
# Tables of slots

Every task has a row of slots that refer to objects. An invariant speaks about the slots whose references count; what
clearing, copying and closing slots keeps follows from what the single steps keep.
-/
namespace NyanOS.Lib

open Function List Prod Set

variable {σ : Type*} {used : Nat → Bool} {b : Bool} {n p i h : Nat} {x y : Nat × Nat} {V W : Set (Nat × Nat)}

/-- The slots of the rows in use. -/
def rows (used : Nat → Bool) (n : Nat) : Set (Nat × Nat) := {x | used x.1 = true ∧ x.2 < n}

theorem mem_rows_update_of_ne (hx : x.1 ≠ p) : x ∈ rows (update used p b) n ↔ x ∈ rows used n := by
  simp [rows, hx]

theorem not_mem_rows_update (hx : x.1 = p) : x ∉ rows (update used p false) n := by
  simp [rows, hx]

theorem rows_update_subset : rows (update used p b) n ⊆ rows used n ∪ (mk p) '' Set.Iio n := by
  intro x hx
  by_cases hp : x.1 = p
  · exact .inr ⟨x.2, hx.2, by rw [← hp]⟩
  · exact .inl ((mem_rows_update_of_ne hp).mp hx)

theorem finite_rows_update (hV : (rows used n).Finite) : (rows (update used p b) n).Finite :=
  (hV.union ((finite_Iio n).image _)).subset rows_update_subset

/-- A state with a table of slots, and the steps on it. -/
structure SlotTable (σ : Type*) where
  slot : σ → Nat × Nat → Nat
  used : σ → Nat → Bool
  live : σ → Nat → Prop
  setFd : σ → Nat → Nat → Nat → σ
  close : σ → Nat → σ
  retain : σ → Nat → σ
  slot_setFd : ∀ s p i h, slot (setFd s p i h) = update (slot s) (p, i) h
  slot_close : ∀ s h, slot (close s h) = slot s
  slot_retain : ∀ s h, slot (retain s h) = slot s
  used_setFd : ∀ s p i h, used (setFd s p i h) = used s
  used_close : ∀ s h, used (close s h) = used s
  used_retain : ∀ s h, used (retain s h) = used s
  live_setFd : ∀ s p i h g, live s g → live (setFd s p i h) g
  live_retain : ∀ s h g, live s g → live (retain s h) g

namespace SlotTable

variable (T : SlotTable σ) {s : σ}

/-- Close what the slot refers to, if anything. -/
def cleanFd (p : Nat) (s : σ) (i : Nat) : σ :=
  if T.slot s (p, i) = 0 then s else T.setFd (T.close s (T.slot s (p, i))) p i 0

/-- Count the reference of the slot, if it has one. -/
def retainFd (p : Nat) (s : σ) (i : Nat) : σ := if T.slot s (p, i) = 0 then s else T.retain s (T.slot s (p, i))

theorem cleanFd_frame : T.slot (T.cleanFd p s i) = update (T.slot s) (p, i) 0 ∧ T.used (T.cleanFd p s i) = T.used s := by
  unfold cleanFd
  split
  · next h0 => exact ⟨by rw [← h0, update_eq_self], rfl⟩
  · exact ⟨by rw [T.slot_setFd, T.slot_close], by rw [T.used_setFd, T.used_close]⟩

theorem cleanFds_frame {l : List Nat} : T.used (l.foldl (T.cleanFd p) s) = T.used s ∧
    ∀ x, T.slot (l.foldl (T.cleanFd p) s) x = if x.1 = p ∧ x.2 ∈ l then 0 else T.slot s x := by
  induction l generalizing s with
  | nil => simp
  | cons i l ih =>
    obtain ⟨hslot, hused⟩ := T.cleanFd_frame (p := p) (s := s) (i := i)
    obtain ⟨hused', hslot'⟩ := ih (s := T.cleanFd p s i)
    refine ⟨hused'.trans hused, fun x => (hslot' x).trans ?_⟩
    rw [hslot]
    by_cases hx : x = (p, i)
    · simp [hx]
    have hne : x.1 = p → x.2 ≠ i := fun hp hi => hx (Prod.ext hp hi)
    rw [update_of_ne hx]
    grind

theorem retainFd_frame : T.slot (T.retainFd p s i) = T.slot s ∧ T.used (T.retainFd p s i) = T.used s ∧
    ∀ g, T.live s g → T.live (T.retainFd p s i) g := by
  unfold retainFd
  split
  · exact ⟨rfl, rfl, fun _ hg => hg⟩
  · exact ⟨T.slot_retain .., T.used_retain .., T.live_retain s _⟩

/-- The invariant allows each step on a slot that does not count, and closing takes a slot out. -/
structure Kept (Inv : σ → Set (Nat × Nat) → Prop) : Prop where
  finite : ∀ {s V}, Inv s V → V.Finite
  live_of_slot : ∀ {s V x}, Inv s V → x ∈ V → T.slot s x ≠ 0 → T.live s (T.slot s x)
  null_slots : ∀ {s V W}, Inv s V → W.Finite → (∀ x, T.slot s x ≠ 0 → (x ∈ W ↔ x ∈ V)) → Inv s W
  write : ∀ {s V p i h}, Inv s V → (p, i) ∉ V → Inv (T.setFd s p i h) V
  close : ∀ {s V x}, Inv s V → x ∈ V → T.slot s x ≠ 0 → Inv (T.close s (T.slot s x)) (V \ {x})
  retain : ∀ {s V x}, Inv s V → x ∉ V → T.slot s x ≠ 0 → T.live s (T.slot s x) →
    Inv (T.retain s (T.slot s x)) (insert x V)

namespace Kept

variable {T} {Inv : σ → Set (Nat × Nat) → Prop} (K : T.Kept Inv)
include K

theorem count (hi : Inv s V) (h0 : T.slot s x = 0) : Inv s (insert x V) := by
  refine K.null_slots hi ((K.finite hi).insert x) fun y hy => ?_
  have hne : y ≠ x := fun he => hy (he ▸ h0)
  simp [hne]

theorem uncount (hi : Inv s V) (h0 : T.slot s x = 0) : Inv s (V \ {x}) := by
  refine K.null_slots hi ((K.finite hi).subset sdiff_subset) fun y hy => ?_
  have hne : y ≠ x := fun he => hy (he ▸ h0)
  simp [hne]

/-! Rows -/

theorem addRow (hi : Inv s (rows used n)) (hnull : ∀ i, T.slot s (p, i) = 0) : Inv s (rows (update used p true) n) := by
  refine K.null_slots hi (finite_rows_update (K.finite hi)) fun x hx => mem_rows_update_of_ne fun hp => hx ?_
  rw [← eta x, hp]
  exact hnull x.2

theorem dropRow (hi : Inv s (rows used n)) (hnull : ∀ i < n, T.slot s (p, i) = 0) :
    Inv s (rows (update used p false) n) := by
  refine K.null_slots hi (finite_rows_update (K.finite hi)) fun x h0 => ?_
  by_cases hp : x.1 = p
  · refine iff_of_false (not_mem_rows_update hp) fun hx => h0 ?_
    rw [← eta x, hp]
    exact hnull x.2 hx.2
  · exact mem_rows_update_of_ne hp

theorem retainFds {is : List Nat} (hi : Inv s V) (hnd : is.Nodup) (hV : ∀ i ∈ is, (p, i) ∉ V)
    (hlive : ∀ i ∈ is, T.slot s (p, i) ≠ 0 → T.live s (T.slot s (p, i))) :
    Inv (is.foldl (T.retainFd p) s) (V ∪ {x | x.1 = p ∧ x.2 ∈ is}) := by
  induction is generalizing s V with
  | nil => simpa using hi
  | cons i is ih =>
    obtain ⟨hnot, hnd⟩ := nodup_cons.mp hnd
    have hone : Inv (T.retainFd p s i) (insert (p, i) V) := by
      unfold retainFd
      split
      · next h0 => exact K.count hi h0
      · next h0 => exact K.retain hi (hV i mem_cons_self) h0 (hlive i mem_cons_self h0)
    have hset : V ∪ {x | x.1 = p ∧ x.2 ∈ i :: is} = insert (p, i) V ∪ {x | x.1 = p ∧ x.2 ∈ is} := by
      ext x
      simp only [Set.mem_union, Set.mem_ofPred_eq, mem_cons, Set.mem_insert_iff, Prod.ext_iff]
      tauto
    obtain ⟨hslot, -, hkeep⟩ := T.retainFd_frame (p := p) (s := s) (i := i)
    rw [foldl_cons, hset]
    refine ih hone hnd (fun j hj => ?_) fun j hj h0 => ?_
    · rintro (heq | hmem)
      · have hji : j = i := congrArg Prod.snd heq
        exact hnot (hji ▸ hj)
      · exact hV j (mem_cons_of_mem i hj) hmem
    · rw [hslot] at h0 ⊢
      exact hkeep _ (hlive j (mem_cons_of_mem i hj) h0)

/-- A row that was written while it did not count is counted slot by slot. -/
theorem copyRow (hi : Inv s (rows (update (T.used s) p false) n)) (hp : T.used s p = true)
    (hlive : ∀ i < n, T.slot s (p, i) ≠ 0 → T.live s (T.slot s (p, i))) :
    Inv ((range n).foldl (T.retainFd p) s) (rows (T.used ((range n).foldl (T.retainFd p) s)) n) := by
  have hused : T.used ((range n).foldl (T.retainFd p) s) = T.used s :=
    foldlRecOn (motive := fun t => T.used t = T.used s) (range n) (T.retainFd p) rfl
      fun _ ht _ _ => T.retainFd_frame.2.1.trans ht
  have hset : rows (update (T.used s) p false) n ∪ {x | x.1 = p ∧ x.2 ∈ range n} = rows (T.used s) n := by
    ext x
    by_cases hx : x.1 = p
    · simp [rows, hx, hp]
    · simp [rows, hx]
  rw [hused, ← hset]
  exact K.retainFds hi nodup_range (fun i _ => not_mem_rows_update rfl) fun i hi => hlive i (mem_range.mp hi)

/-! All slots -/

variable (hi : Inv s (rows (T.used s) n)) (hp : T.used s p = true)
include hi hp

theorem closeFd (hin : i < n) (h0 : T.slot s (p, i) ≠ 0) :
    Inv (T.setFd (T.close s (T.slot s (p, i))) p i 0) (rows (T.used (T.setFd (T.close s (T.slot s (p, i))) p i 0)) n) := by
  have hx : (p, i) ∈ rows (T.used s) n := ⟨hp, hin⟩
  have hout : Inv (T.setFd (T.close s (T.slot s (p, i))) p i 0) (rows (T.used s) n \ {(p, i)}) :=
    K.write (K.close hi hx h0) fun hm => hm.2 rfl
  have hback := K.count hout (x := (p, i)) (by rw [T.slot_setFd, update_self])
  rw [insert_sdiff_self_of_mem hx] at hback
  rw [T.used_setFd, T.used_close]
  exact hback

theorem cleanFd (hin : i < n) : Inv (T.cleanFd p s i) (rows (T.used (T.cleanFd p s i)) n) := by
  unfold SlotTable.cleanFd
  split
  · exact hi
  · next h0 => exact K.closeFd hi hp hin h0

theorem cleanFds : Inv ((range n).foldl (T.cleanFd p) s) (rows (T.used ((range n).foldl (T.cleanFd p) s)) n) := by
  have hall := foldlRecOn (motive := fun t => Inv t (rows (T.used t) n) ∧ T.used t p = true) (range n) (T.cleanFd p)
    ⟨hi, hp⟩ fun t ht i hin => ⟨K.cleanFd ht.1 ht.2 (mem_range.mp hin), by rw [T.cleanFd_frame.2]; exact ht.2⟩
  exact hall.1

/-- The slot, which is empty, is made to refer to what another slot refers to. -/
theorem dup (hin : i < n) (hnull : T.slot s (p, i) = 0) (hy : y ∈ rows (T.used s) n) (h0 : T.slot s y ≠ 0) :
    Inv (T.retain (T.setFd s p i (T.slot s y)) (T.slot s y))
      (rows (T.used (T.retain (T.setFd s p i (T.slot s y)) (T.slot s y))) n) := by
  have hx : (p, i) ∈ rows (T.used s) n := ⟨hp, hin⟩
  have hout : (p, i) ∉ rows (T.used s) n \ {(p, i)} := fun hm => hm.2 rfl
  have hself : T.slot (T.setFd s p i (T.slot s y)) (p, i) = T.slot s y := by rw [T.slot_setFd, update_self]
  have hret := K.retain (x := (p, i)) (K.write (h := T.slot s y) (K.uncount hi hnull) hout) hout (by rwa [hself])
    (by rw [hself]; exact T.live_setFd _ _ _ _ _ (K.live_of_slot hi hy h0))
  rw [hself, insert_sdiff_self_of_mem hx] at hret
  rw [T.used_retain, T.used_setFd]
  exact hret

end Kept

end SlotTable

end NyanOS.Lib
