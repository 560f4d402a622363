import Mathlib

/-! Rectangles of pixels, and lists of rectangles that tile a set. -/
namespace NyanOS.Lib

/-- A rectangle by its upper left corner and its size. -/
structure Rect where
  x : Int
  y : Int
  w : Nat
  h : Nat
  deriving DecidableEq

def Rect.pixels (r : Rect) : Set (Int × Int) :=
  {p | r.x ≤ p.1 ∧ p.1 < r.x + r.w ∧ r.y ≤ p.2 ∧ p.2 < r.y + r.h}

variable {r : Rect} {l l' : List Rect} {S S' : Set (Int × Int)} {p : Int × Int}

theorem Rect.mem_pixels : p ∈ r.pixels ↔ r.x ≤ p.1 ∧ p.1 < r.x + r.w ∧ r.y ≤ p.2 ∧ p.2 < r.y + r.h := Iff.rfl

def covered (l : List Rect) : Set (Int × Int) := {p | ∃ r ∈ l, p ∈ r.pixels}

theorem mem_covered : p ∈ covered l ↔ ∃ r ∈ l, p ∈ r.pixels := Iff.rfl

theorem covered_cons : covered (r :: l) = r.pixels ∪ covered l := by
  ext p
  rw [Set.mem_union, mem_covered, mem_covered, List.exists_mem_cons_iff]

/-- The rectangles are not empty, do not overlap, and cover the set. -/
structure Tiles (l : List Rect) (S : Set (Int × Int)) : Prop where
  pos : ∀ r ∈ l, 0 < r.w ∧ 0 < r.h
  disjoint : l.Pairwise fun r r' => Disjoint r.pixels r'.pixels
  cover : ∀ p, p ∈ S ↔ p ∈ covered l

theorem tiles_nil : Tiles [] ∅ := ⟨fun _ hr => absurd hr List.not_mem_nil, List.Pairwise.nil, fun p => by simp [mem_covered]⟩

theorem tiles_singleton (hw : 0 < r.w) (hh : 0 < r.h) : Tiles [r] r.pixels := by
  refine ⟨fun r' hr' => ?_, List.pairwise_singleton _ _, fun p => by simp [mem_covered]⟩
  obtain rfl := List.mem_singleton.mp hr'
  exact ⟨hw, hh⟩

namespace Tiles

theorem congr (h : Tiles l S) (hS : ∀ p, p ∈ S' ↔ p ∈ S) : Tiles l S' :=
  ⟨h.pos, h.disjoint, fun p => (hS p).trans (h.cover p)⟩

theorem pixels_subset (h : Tiles l S) (hr : r ∈ l) : r.pixels ⊆ S := fun p hp => (h.cover p).mpr ⟨r, hr, hp⟩

theorem append (h : Tiles l S) (h' : Tiles l' S') (hd : Disjoint S S') : Tiles (l ++ l') (S ∪ S') := by
  refine ⟨fun r hr => ?_, List.pairwise_append.mpr ⟨h.disjoint, h'.disjoint, ?_⟩, fun p => ?_⟩
  · rcases List.mem_append.mp hr with hr | hr
    · exact h.pos r hr
    · exact h'.pos r hr
  · exact fun r hr r' hr' => hd.mono (h.pixels_subset hr) (h'.pixels_subset hr')
  · rw [Set.mem_union, h.cover, h'.cover]
    simp only [mem_covered, List.mem_append, or_and_right, exists_or]

end Tiles

end NyanOS.Lib
