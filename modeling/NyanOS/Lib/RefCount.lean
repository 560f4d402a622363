import Mathlib.Tactic
import Mathlib.Data.Set.Card

/-!
Objects that are shared through slots and count the slots that refer to them. The slots whose
references count are `V`: a slot is taken out before its object is released, and put in when the object
counts it.
-/
namespace NyanOS.Lib

variable {S : Type*} {V W : Set S} {tbl tbl' : S → Nat} {count count' : Nat → Int} {live live' : Nat → Prop}
  {x : S} {h : Nat}

/-- The slots of `V` that refer to an object. -/
def refs (V : Set S) (tbl : S → Nat) (h : Nat) : Set S := {x | x ∈ V ∧ tbl x = h}

/-- An object lives exactly as long as a slot refers to it, and its count is the number of these
slots. The address 0 is null. -/
structure Counted (V : Set S) (tbl : S → Nat) (count : Nat → Int) (live : Nat → Prop) : Prop where
  finite : V.Finite
  null : ¬ live 0
  live_iff : ∀ h, h ≠ 0 → (live h ↔ (refs V tbl h).Nonempty)
  count_eq : ∀ h, live h → count h = (refs V tbl h).ncard

namespace Counted

section

variable (hc : Counted V tbl count live)
include hc

theorem finite_refs : (refs V tbl h).Finite := hc.finite.subset fun _ hx => hx.1

theorem ne_zero (hl : live h) : h ≠ 0 := by
  rintro rfl
  exact hc.null hl

theorem live_of_slot (hx : x ∈ V) (h0 : tbl x ≠ 0) : live (tbl x) := (hc.live_iff _ h0).mpr ⟨x, hx, rfl⟩

theorem count_pos (hl : live h) : 0 < (refs V tbl h).ncard :=
  (Set.ncard_pos hc.finite_refs).mpr ((hc.live_iff h (hc.ne_zero hl)).mp hl)

/-- The objects and the slots that refer to them stay. -/
theorem of_refs (hW : W.Finite) (hr : ∀ h, h ≠ 0 → refs W tbl' h = refs V tbl h) (hl : ∀ h, live' h ↔ live h)
    (hn : ∀ h, live h → count' h = count h) : Counted W tbl' count' live' where
  finite := hW
  null h0 := hc.null ((hl 0).mp h0)
  live_iff h h0 := by
    rw [hl, hr h h0]
    exact hc.live_iff h h0
  count_eq h hh := by
    have hlive := (hl h).mp hh
    rw [hn h hlive, hr h (hc.ne_zero hlive)]
    exact hc.count_eq h hlive

/-- Slots that do not count may be written to. -/
theorem write (ht : ∀ x ∈ V, tbl' x = tbl x) : Counted V tbl' count live := by
  refine hc.of_refs hc.finite (fun h _ => ?_) (fun _ => Iff.rfl) fun _ _ => rfl
  ext y
  constructor
  · rintro ⟨hy, he⟩
    exact ⟨hy, (ht y hy).symm.trans he⟩
  · rintro ⟨hy, he⟩
    exact ⟨hy, (ht y hy).trans he⟩

/-- Slots that hold null may be counted or not. -/
theorem null_slots (hW : W.Finite) (h0 : ∀ x, tbl x ≠ 0 → (x ∈ W ↔ x ∈ V)) : Counted W tbl count live := by
  refine hc.of_refs hW (fun h hne => ?_) (fun _ => Iff.rfl) fun _ _ => rfl
  ext y
  constructor
  · rintro ⟨hy, rfl⟩
    exact ⟨(h0 y hne).mp hy, rfl⟩
  · rintro ⟨hy, rfl⟩
    exact ⟨(h0 y hne).mpr hy, rfl⟩

end

theorem refs_diff_of_ne (hne : h ≠ tbl x) : refs (V \ {x}) tbl h = refs V tbl h := by
  ext y
  constructor
  · rintro ⟨hy, he⟩
    exact ⟨hy.1, he⟩
  · rintro ⟨hy, he⟩
    refine ⟨⟨hy, ?_⟩, he⟩
    rintro rfl
    exact hne he.symm

theorem refs_diff_self : refs (V \ {x}) tbl (tbl x) = refs V tbl (tbl x) \ {x} := by
  ext y
  simp only [refs, Set.mem_sdiff, Set.mem_ofPred_eq, Set.mem_singleton_iff]
  tauto

theorem refs_insert_of_ne (hne : h ≠ tbl x) : refs (insert x V) tbl h = refs V tbl h := by
  ext y
  constructor
  · rintro ⟨hy, rfl⟩
    refine ⟨hy.resolve_left ?_, rfl⟩
    rintro rfl
    exact hne rfl
  · rintro ⟨hy, he⟩
    exact ⟨.inr hy, he⟩

theorem refs_insert_self : refs (insert x V) tbl (tbl x) = insert x (refs V tbl (tbl x)) := by
  ext y
  simp only [refs, Set.mem_insert_iff, Set.mem_ofPred_eq]
  constructor
  · rintro ⟨rfl | hy, he⟩
    · exact .inl rfl
    · exact .inr ⟨hy, he⟩
  · rintro (rfl | ⟨hy, he⟩)
    · exact ⟨.inl rfl, rfl⟩
    · exact ⟨.inr hy, he⟩

/-- A slot is released. Its object is freed if the count was 1. -/
theorem release (hc : Counted V tbl count live) (hx : x ∈ V) (h0 : tbl x ≠ 0)
    (hcount : count' (tbl x) = count (tbl x) - 1) (hlive : live' (tbl x) ↔ 0 < count' (tbl x))
    (hl : ∀ h, h ≠ tbl x → (live' h ↔ live h)) (hn : ∀ h, h ≠ tbl x → count' h = count h) :
    Counted (V \ {x}) tbl count' live' := by
  have hold := hc.count_eq _ (hc.live_of_slot hx h0)
  have hmem : x ∈ refs V tbl (tbl x) := ⟨hx, rfl⟩
  have hcard : count' (tbl x) = (refs (V \ {x}) tbl (tbl x)).ncard := by
    have hdiff := Set.ncard_sdiff_singleton_add_one hmem hc.finite_refs
    rw [refs_diff_self, hcount, hold]
    omega
  refine ⟨hc.finite.subset Set.sdiff_subset, ?_, fun h hh => ?_, fun h hh => ?_⟩
  · rw [hl 0 h0.symm]
    exact hc.null
  · by_cases hne : h = tbl x
    · subst hne
      have hfin : (refs (V \ {x}) tbl (tbl x)).Finite := hc.finite_refs.subset fun y hy => ⟨hy.1.1, hy.2⟩
      rw [hlive, hcard, Int.natCast_pos, Set.ncard_pos hfin]
    · rw [hl h hne, refs_diff_of_ne hne]
      exact hc.live_iff h hh
  · by_cases hne : h = tbl x
    · subst hne
      exact hcard
    · rw [hn h hne, refs_diff_of_ne hne]
      exact hc.count_eq h ((hl h hne).mp hh)

/-- A slot that did not count refers to an object, which counts it now. The object may be new. -/
theorem acquire (hc : Counted V tbl count live) (hx : x ∉ V) (h0 : tbl x ≠ 0) (hlive : live' (tbl x))
    (hcount : count' (tbl x) = (refs V tbl (tbl x)).ncard + 1)
    (hl : ∀ h, h ≠ tbl x → (live' h ↔ live h)) (hn : ∀ h, h ≠ tbl x → count' h = count h) :
    Counted (insert x V) tbl count' live' := by
  refine ⟨hc.finite.insert x, ?_, fun h hh => ?_, fun h hh => ?_⟩
  · rw [hl 0 h0.symm]
    exact hc.null
  · by_cases hne : h = tbl x
    · subst hne
      exact ⟨fun _ => ⟨x, .inl rfl, rfl⟩, fun _ => hlive⟩
    · rw [hl h hne, refs_insert_of_ne hne]
      exact hc.live_iff h hh
  · by_cases hne : h = tbl x
    · subst hne
      have hnot : x ∉ refs V tbl (tbl x) := fun hm => hx hm.1
      rw [hcount, refs_insert_self, Set.ncard_insert_of_notMem hnot hc.finite_refs]
      push_cast
      rfl
    · rw [hn h hne, refs_insert_of_ne hne]
      exact hc.count_eq h ((hl h hne).mp hh)

theorem refs_eq_empty (hc : Counted V tbl count live) (h0 : h ≠ 0) (hl : ¬ live h) : refs V tbl h = ∅ := by
  by_contra hne
  exact hl ((hc.live_iff h h0).mpr (Set.nonempty_iff_ne_empty.mpr hne))

end Counted

end NyanOS.Lib
