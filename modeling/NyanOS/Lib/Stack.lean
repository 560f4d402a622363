import NyanOS.Lib.Bytes

/-! Words of eight bytes stacked in memory: the top of a stack is its lowest address. -/
namespace NyanOS.Lib

open List

abbrev Word := BitVec 64

variable {b b' : Bytes} {a x i : Nat} {w : Word} {ws us : List Word}

/-- The words `ws` stand one after the other from address `a` on. -/
def Stacked (b : Bytes) : Nat → List Word → Prop
  | _, [] => True
  | a, w :: ws => get64 b a = w.toNat ∧ Stacked b (a + 8) ws

/-- Push the words of a list, the first one first, below address `a`. -/
def pushAll (b : Bytes) (a : Nat) : List Word → Bytes
  | [] => b
  | w :: ws => pushAll (put64 b (a - 8) w.toNat) (a - 8) ws

theorem Stacked.congr (h : Stacked b a ws) (heq : ∀ x, a ≤ x → x < a + 8 * ws.length → b' x = b x) :
    Stacked b' a ws := by
  induction ws generalizing a with
  | nil => trivial
  | cons w ws ih =>
    simp only [length_cons] at heq
    have hword : get64 b' a = get64 b a := get64_congr fun k hk => heq (a + k) (by omega) (by omega)
    refine ⟨hword.trans h.1, ih h.2 fun x hx hlt => heq x (by omega) (by omega)⟩

theorem Stacked.get (h : Stacked b a ws) (hi : ws[i]? = some w) : get64 b (a + 8 * i) = w.toNat := by
  induction ws generalizing a i with
  | nil => simp at hi
  | cons v ws ih =>
    cases i with
    | zero =>
      rw [getElem?_cons_zero, Option.some_inj] at hi
      rw [← hi]
      exact h.1
    | succ i =>
      have hword := ih h.2 hi
      rwa [add_assoc, add_comm 8] at hword

theorem stacked_append : Stacked b a (us ++ ws) ↔ Stacked b a us ∧ Stacked b (a + 8 * us.length) ws := by
  induction us generalizing a with
  | nil => exact ⟨fun h => ⟨trivial, h⟩, And.right⟩
  | cons u us ih =>
    rw [length_cons, show a + 8 * (us.length + 1) = a + 8 + 8 * us.length by omega]
    exact (and_congr_right fun _ => ih).trans and_assoc.symm

/-- To overwrite a word of the stack. -/
theorem Stacked.set (h : Stacked b a ws) (hi : i < ws.length) :
    Stacked (put64 b (a + 8 * i) w.toNat) a (ws.set i w) := by
  induction ws generalizing a i with
  | nil => trivial
  | cons v ws ih =>
    cases i with
    | zero =>
      refine ⟨?_, h.2.congr fun x hx _ => put64_out (.inr hx)⟩
      rw [mul_zero, add_zero, get64_put64, Nat.mod_eq_of_lt w.isLt]
    | succ i =>
      have htail := ih (i := i) h.2 (Nat.lt_of_succ_lt_succ hi)
      rw [show a + 8 + 8 * i = a + 8 * (i + 1) by omega] at htail
      refine ⟨?_, htail⟩
      rw [← h.1]
      exact get64_congr fun k hk => put64_out (.inl (by omega))

theorem Stacked.push (h : Stacked b a ws) (ha : 8 ≤ a) : Stacked (put64 b (a - 8) w.toNat) (a - 8) (w :: ws) := by
  constructor
  · rw [get64_put64, Nat.mod_eq_of_lt w.isLt]
  · rw [Nat.sub_add_cancel ha]
    exact h.congr fun x hx _ => put64_out (.inr (by omega))

theorem Stacked.pushAll (us : List Word) (h : Stacked b a ws) (ha : 8 * us.length ≤ a) :
    Stacked (pushAll b a us) (a - 8 * us.length) (us.reverse ++ ws) := by
  induction us generalizing b a ws with
  | nil => exact h
  | cons u us ih =>
    rw [length_cons] at ha
    have htail : Stacked (Lib.pushAll (put64 b (a - 8) u.toNat) (a - 8) us) (a - 8 - 8 * us.length)
        (us.reverse ++ u :: ws) := ih (h.push (by omega)) (by omega)
    rw [reverse_cons, append_assoc, singleton_append, length_cons,
      show a - 8 * (us.length + 1) = a - 8 - 8 * us.length by omega]
    exact htail

theorem stacked_pushAll (b : Bytes) (ha : 8 * us.length ≤ a) :
    Stacked (pushAll b a us) (a - 8 * us.length) us.reverse := by
  have h : Stacked b a [] := trivial
  have hall := h.pushAll us ha
  rwa [append_nil] at hall

theorem pushAll_out (ha : 8 * us.length ≤ a) (hx : x < a - 8 * us.length ∨ a ≤ x) : pushAll b a us x = b x := by
  induction us generalizing b a with
  | nil => rfl
  | cons u us ih =>
    rw [length_cons] at ha hx
    rw [pushAll, ih (by omega) (by omega)]
    exact put64_out (by omega)

/-- Push words that are computed from the memory as it is when their turn comes. -/
def pushReads (b : Bytes) (a : Nat) : List (Bytes → Word) → Bytes
  | [] => b
  | f :: fs => pushReads (put64 b (a - 8) (f b).toNat) (a - 8) fs

/-- Words computed from a part of the memory that the pushes do not reach could as well be computed first. -/
theorem pushReads_eq {fs : List (Bytes → Word)} {p : Nat → Prop} (ha : 8 * fs.length ≤ a)
    (hreads : ∀ f ∈ fs, ∀ b', (∀ x, p x → b' x = b x) → f b' = f b)
    (hout : ∀ x, p x → x < a - 8 * fs.length ∨ a ≤ x) : pushReads b a fs = pushAll b a (fs.map (· b)) := by
  suffices h : ∀ b', (∀ x, p x → b' x = b x) → pushReads b' a fs = pushAll b' a (fs.map (· b)) from h b fun _ _ => rfl
  intro b' hb
  induction fs generalizing a b' with
  | nil => rfl
  | cons f fs ih =>
    rw [length_cons] at ha hout
    rw [pushReads, map_cons, pushAll, hreads f mem_cons_self b' hb]
    refine ih (by omega) (fun g hg => hreads g (mem_cons_of_mem f hg)) ?_ _ fun x hx => ?_
    · intro x hx
      have := hout x hx
      omega
    · rw [put64_out (by have := hout x hx; omega), hb x hx]

end NyanOS.Lib
