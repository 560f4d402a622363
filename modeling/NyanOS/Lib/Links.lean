import Mathlib.Tactic

/-!
# Lists linked through a function

`next` leads from a cell to the next one; the list ends at a value that is not a cell.
-/
namespace NyanOS.Lib

open List

variable {α : Type} {next next' : α → α} {cell fin : α → Prop} {a b : α} {xs ys : List α}

/-- From `a` on, the links go through the cells of the list to an end. -/
inductive Linked (next : α → α) (cell fin : α → Prop) : α → List α → Prop
  | nil {a : α} (hfin : fin a) : Linked next cell fin a []
  | cons {a : α} {xs : List α} (hcell : cell a) (hrest : Linked next cell fin (next a) xs) :
      Linked next cell fin a (a :: xs)

namespace Linked

theorem cell_of_mem (h : Linked next cell fin a xs) (hb : b ∈ xs) : cell b := by
  induction h with
  | nil _ => cases hb
  | cons hcell _ ih =>
    rcases mem_cons.mp hb with rfl | hb
    · exact hcell
    · exact ih hb

theorem congr (h : Linked next cell fin a xs) (heq : ∀ x ∈ xs, next' x = next x) : Linked next' cell fin a xs := by
  induction h with
  | nil hfin => exact .nil hfin
  | @cons a xs hcell _ ih =>
    refine .cons hcell ?_
    rw [heq a mem_cons_self]
    exact ih fun x hx => heq x (mem_cons_of_mem a hx)

theorem drop (h : Linked next cell fin a (xs ++ b :: ys)) : Linked next cell fin b (b :: ys) := by
  induction xs generalizing a with
  | nil =>
    cases h with
    | cons hcell hrest => exact .cons hcell hrest
  | cons x xs ih =>
    cases h with
    | cons _ hrest => exact ih hrest

section

variable (hcf : ∀ a, cell a → ¬ fin a)

include hcf

theorem unique (h : Linked next cell fin a xs) (h' : Linked next cell fin a ys) : xs = ys := by
  induction h generalizing ys with
  | nil hfin =>
    cases h' with
    | nil _ => rfl
    | cons hcell _ => exact absurd hfin (hcf _ hcell)
  | cons hcell _ ih =>
    cases h' with
    | nil hfin => exact absurd hfin (hcf _ hcell)
    | cons _ hrest => rw [ih hrest]

/-- A list that ends passes no cell twice. -/
theorem nodup (h : Linked next cell fin a xs) : xs.Nodup := by
  induction h with
  | nil _ => exact nodup_nil
  | @cons a xs hcell hrest ih =>
    refine nodup_cons.mpr ⟨?_, ih⟩
    intro hmem
    obtain ⟨ys, zs, rfl⟩ := append_of_mem hmem
    have hlen := congrArg List.length (unique hcf (.cons hcell hrest) hrest.drop)
    simp only [length_cons, length_append] at hlen
    omega

end

end Linked

end NyanOS.Lib
