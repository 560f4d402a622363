import Mathlib.Tactic

/-! Lists split at a separator. -/
namespace NyanOS.Lib.Split

open List

variable {α : Type} [BEq α] [LawfulBEq α] {x b : α} {l p q : List α}

theorem splitOn_cons_self : (x :: l).splitOn x = [] :: l.splitOn x := by
  rw [List.splitOn, splitOnP_cons_eq_if_modifyHead, if_pos (beq_self_eq_true x)]
  rfl

theorem splitOn_cons_of_ne (h : b ≠ x) : (b :: l).splitOn x = (l.splitOn x).modifyHead (b :: ·) := by
  rw [List.splitOn, splitOnP_cons_eq_if_modifyHead, if_neg (by simpa using h)]
  rfl

theorem splitOn_append_cons : (p ++ x :: q).splitOn x = p.splitOn x ++ q.splitOn x :=
  splitOnP_append_cons p q (beq_self_eq_true x)

theorem splitOn_of_not_mem (h : x ∉ p) : p.splitOn x = [p] :=
  splitOnP_eq_singleton fun _ hx => beq_false_of_ne fun he => h (he ▸ hx)

omit [LawfulBEq α] in
theorem exists_splitOn (x : α) (l : List α) : ∃ first rest, l.splitOn x = first :: rest :=
  exists_cons_of_ne_nil (splitOn_ne_nil x l)

theorem not_mem_of_splitOn : ∀ c ∈ l.splitOn x, x ∉ c := by
  induction l with
  | nil =>
    intro c hc
    rw [splitOn_nil, mem_singleton] at hc
    rw [hc]
    exact not_mem_nil
  | cons b l ih =>
    obtain ⟨first, rest, hrest⟩ := exists_splitOn x l
    by_cases hb : b = x
    · rw [hb, splitOn_cons_self]
      exact forall_mem_cons.mpr ⟨not_mem_nil, ih⟩
    rw [hrest] at ih
    rw [splitOn_cons_of_ne hb, hrest, modifyHead_cons]
    refine forall_mem_cons.mpr ⟨?_, fun c hc => ih c (mem_cons_of_mem first hc)⟩
    exact mem_cons.not.mpr (not_or.mpr ⟨Ne.symm hb, ih first mem_cons_self⟩)

end NyanOS.Lib.Split
