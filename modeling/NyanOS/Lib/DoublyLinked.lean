import NyanOS.Lib.Segment

/-! Doubly linked lists in an address-indexed memory, where 0 is null. -/
namespace NyanOS.Lib

open List

variable {next prev next' prev' : Nat → Nat} {before before' first first' last last' after after' x y : Nat}
  {l l' l₁ l₂ : List Nat}

/-- The nodes from `first` to `last` are `l`; `before` and `after` are their neighbours. -/
def DSeg (next prev : Nat → Nat) : Nat → Nat → List Nat → Nat → Nat → Prop
  | before, first, [], last, after => first = after ∧ last = before
  | before, first, x :: l, last, after =>
    first = x ∧ x ≠ 0 ∧ prev x = before ∧ DSeg next prev x (next x) l last after

theorem dseg_append : DSeg next prev before first (l ++ l') last after ↔
    ∃ x y, DSeg next prev before first l x y ∧ DSeg next prev x y l' last after := by
  induction l generalizing before first with
  | nil =>
    constructor
    · exact fun h => ⟨before, first, ⟨rfl, rfl⟩, h⟩
    · rintro ⟨x, y, ⟨rfl, rfl⟩, h⟩
      exact h
  | cons z l ih =>
    constructor
    · rintro ⟨hf, hz, hp, h⟩
      obtain ⟨x, y, h₁, h₂⟩ := ih.mp h
      exact ⟨x, y, ⟨hf, hz, hp, h₁⟩, h₂⟩
    · rintro ⟨x, y, ⟨hf, hz, hp, h₁⟩, h₂⟩
      exact ⟨hf, hz, hp, ih.mpr ⟨x, y, h₁, h₂⟩⟩

namespace DSeg

theorem seg (h : DSeg next prev before first l last after) : Seg (· ≠ 0) next first l after := by
  induction l generalizing before first with
  | nil => exact h.1
  | cons x l ih =>
    obtain ⟨hf, hx, _, hl⟩ := h
    exact ⟨hf, hx, ih hl⟩

theorem congr (h : DSeg next prev before first l last after) (hn : ∀ x ∈ l, next' x = next x)
    (hp : ∀ x ∈ l, prev' x = prev x) : DSeg next' prev' before first l last after := by
  induction l generalizing before first with
  | nil => exact h
  | cons x l ih =>
    obtain ⟨hf, hx, hb, hl⟩ := h
    refine ⟨hf, hx, (hp x (by simp)).trans hb, ?_⟩
    rw [hn x (by simp)]
    exact ih hl (fun y hy => hn y (by simp [hy])) fun y hy => hp y (by simp [hy])

section

variable (h : DSeg next prev before first (x :: l) last after)
include h

theorem last_mem : last ∈ x :: l := by
  induction l generalizing before first x with
  | nil => simp [h.2.2.2.2]
  | cons y l ih =>
    have hl := ih h.2.2.2
    exact mem_cons_of_mem x hl

/-- The last node is linked to another one. -/
theorem setAfter (hnd : (x :: l).Nodup) (hlast : next' last = after') (hn : ∀ y ∈ x :: l, y ≠ last → next' y = next y)
    (hp : ∀ y ∈ x :: l, prev' y = prev y) : DSeg next' prev' before first (x :: l) last after' := by
  induction l generalizing before first x with
  | nil =>
    obtain ⟨hf, hx, hb, _, rfl⟩ := h
    exact ⟨hf, hx, (hp _ (by simp)).trans hb, hlast, rfl⟩
  | cons y l ih =>
    obtain ⟨hf, hx, hb, hl⟩ := h
    obtain ⟨hxl, hnd⟩ := nodup_cons.mp hnd
    have hne : x ≠ last := fun he => hxl (he ▸ hl.last_mem)
    refine ⟨hf, hx, (hp x (by simp)).trans hb, ?_⟩
    rw [hn x (by simp) hne]
    exact ih hl hnd (fun z hz => hn z (by simp [hz])) fun z hz => hp z (by simp [hz])

/-- The first node is linked to another one before it. -/
theorem setBefore (hnd : (x :: l).Nodup)
    (hfirst : prev' first = before') (hp : ∀ y ∈ x :: l, y ≠ first → prev' y = prev y)
    (hn : ∀ y ∈ x :: l, next' y = next y) : DSeg next' prev' before' first (x :: l) last after := by
  obtain ⟨rfl, hx, _, hl⟩ := h
  refine ⟨rfl, hx, hfirst, ?_⟩
  rw [hn _ (by simp)]
  refine hl.congr (fun y hy => hn y (by simp [hy])) fun y hy => hp y (by simp [hy]) ?_
  rintro rfl
  exact (nodup_cons.mp hnd).1 hy

end

end DSeg

/-- A whole list. -/
def DList (next prev : Nat → Nat) (first last : Nat) (l : List Nat) : Prop :=
  DSeg next prev 0 first l last 0

namespace DList

section
variable (h : DList next prev first last l)
include h

theorem seg : Seg (· ≠ 0) next first l 0 := DSeg.seg h

theorem nodup : l.Nodup := h.seg.nodup (by simp)

theorem ne_zero (hx : x ∈ l) : x ≠ 0 := h.seg.node_of_mem hx

end

section

variable (h : DList next prev first last (l₁ ++ x :: l₂))
include h

/-- The neighbours of a node. -/
theorem neighbours : DSeg next prev 0 first l₁ (prev x) x ∧ DSeg next prev x (next x) l₂ last 0 := by
  obtain ⟨a, b, h₁, rfl, _, hp, h₂⟩ := dseg_append.mp h
  exact ⟨hp ▸ h₁, h₂⟩

theorem prev_eq_zero : prev x = 0 ↔ l₁ = [] := by
  have h₁ := h.neighbours.1
  cases l₁ with
  | nil => simp [h₁.2]
  | cons a l₁ => simp [h.ne_zero (mem_append_left _ h₁.last_mem)]

theorem next_eq_zero : next x = 0 ↔ l₂ = [] := by
  have h₂ := h.neighbours.2
  cases l₂ with
  | nil => simp [h₂.1]
  | cons b l₂ => simp [h₂.1, h₂.2.1]

theorem eq_first : x = first ↔ l₁ = [] := by
  have h₁ := h.neighbours.1
  cases l₁ with
  | nil => simp [h₁.1]
  | cons a l₁ =>
    have hnd := h.nodup
    simp only [cons_append, nodup_cons, mem_append, mem_cons] at hnd
    have hne : x ≠ first := fun he => hnd.1 (.inr (.inl (he.trans h₁.1).symm))
    simp [hne]

theorem eq_last : x = last ↔ l₂ = [] := by
  have h₂ := h.neighbours.2
  cases l₂ with
  | nil => simp [h₂.2]
  | cons b l₂ =>
    have hnd := h.nodup.of_append_right
    have hne : x ≠ last := fun he => (nodup_cons.mp hnd).1 (he ▸ h₂.last_mem)
    simp [hne]

theorem remove (hfirst : first' = if l₁ = [] then next x else first) (hlast : last' = if l₂ = [] then prev x else last)
    (hn : ∀ y ∈ l₁ ++ l₂, next' y = if y = prev x then next x else next y)
    (hp : ∀ y ∈ l₁ ++ l₂, prev' y = if y = next x then prev x else prev y) :
    DList next' prev' first' last' (l₁ ++ l₂) := by
  obtain ⟨h₁, h₂⟩ := h.neighbours
  have hnd : (l₁ ++ l₂).Nodup := h.nodup.sublist (by simp)
  obtain ⟨hnd₁, hnd₂, hdisj⟩ := nodup_append.mp hnd
  have hmem₁ : ∀ y ∈ l₁, y ∈ l₁ ++ l₂ := fun y hy => by simp [hy]
  have hmem₂ : ∀ y ∈ l₂, y ∈ l₁ ++ l₂ := fun y hy => by simp [hy]
  refine dseg_append.mpr ⟨prev x, next x, ?_, ?_⟩
  · cases l₁ with
    | nil => exact ⟨hfirst, h₁.2⟩
    | cons a l₁ =>
      rw [if_neg (by simp)] at hfirst
      rw [hfirst]
      refine h₁.setAfter hnd₁ ?_ (fun y hy hne => ?_) fun y hy => ?_
      · rw [hn _ (hmem₁ _ h₁.last_mem), if_pos rfl]
      · rw [hn y (hmem₁ y hy), if_neg hne]
      · -- a node before `x` is not the one after it
        rw [hp y (hmem₁ y hy), if_neg]
        rintro rfl
        cases l₂ with
        | nil => exact h.ne_zero (by simp at hy ⊢; tauto) h₂.1
        | cons b l₂ => exact hdisj _ hy _ (by simp) h₂.1
  · cases l₂ with
    | nil => exact ⟨h₂.1, hlast⟩
    | cons b l₂ =>
      rw [if_neg (by simp)] at hlast
      rw [hlast]
      refine h₂.setBefore hnd₂ ?_ (fun y hy hne => ?_) fun y hy => ?_
      · have hb : next x ∈ b :: l₂ := by simp [h₂.1]
        rw [hp _ (hmem₂ _ hb), if_pos rfl]
      · rw [hp y (hmem₂ y hy), if_neg hne]
      · rw [hn y (hmem₂ y hy), if_neg]
        rintro rfl
        cases l₁ with
        | nil => exact h.ne_zero (by simp at hy ⊢; tauto) h₁.2
        | cons a l₁ => exact hdisj _ h₁.last_mem _ hy rfl

end

/-- A node is put behind the last one. -/
theorem append (h : DList next prev first last l) (hx : x ≠ 0)
    (hfirst : first' = if l = [] then x else first) (hxn : next' x = 0) (hxp : prev' x = last)
    (hn : ∀ y ∈ l, next' y = if y = last then x else next y) (hp : ∀ y ∈ l, prev' y = prev y) :
    DList next' prev' first' x (l ++ [x]) := by
  refine dseg_append.mpr ⟨last, x, ?_, rfl, hx, hxp, hxn, rfl⟩
  cases l with
  | nil => exact ⟨hfirst, h.2⟩
  | cons a l =>
    rw [if_neg (by simp)] at hfirst
    rw [hfirst]
    refine DSeg.setAfter h h.nodup ?_ (fun y hy hne => ?_) hp
    · rw [hn _ (DSeg.last_mem h), if_pos rfl]
    · rw [hn y hy, if_neg hne]

/-- A node is taken out and put behind the last one. -/
theorem moveToEnd (h : DList next prev first last (l₁ ++ x :: l₂)) (h₂ : l₂ ≠ [])
    (hfirst : first' = if l₁ = [] then next x else first) (hxn : next' x = 0) (hxp : prev' x = last)
    (hn : ∀ y ∈ l₁ ++ l₂, next' y = if y = last then x else if y = prev x then next x else next y)
    (hp : ∀ y ∈ l₁ ++ l₂, prev' y = if y = next x then prev x else prev y) :
    DList next' prev' first' x (l₁ ++ l₂ ++ [x]) := by
  have hrest : DList (fun y => if y = prev x then next x else next y)
      (fun y => if y = next x then prev x else prev y) first' last (l₁ ++ l₂) :=
    h.remove hfirst (by rw [if_neg h₂]) (fun _ _ => rfl) fun _ _ => rfl
  exact hrest.append (h.ne_zero (by simp)) (by simp [h₂]) hxn hxp hn hp

theorem first_eq_zero (h : DList next prev first last l) : first = 0 ↔ l = [] := by
  cases l with
  | nil => simp [show first = 0 from h.1]
  | cons a l => simp [show first = a from h.1, h.2.1]

theorem last_eq_zero (h : DList next prev first last l) : last = 0 ↔ l = [] := by
  cases l with
  | nil => simp [show last = 0 from h.2]
  | cons a l => simp [h.ne_zero (DSeg.last_mem h)]

end DList

end NyanOS.Lib
