import Mathlib.Control.Monad.Writer
import Mathlib.Data.Set.Basic

/-!
# Computations that leave a trace

`Along next ok s es`: the events `es` happen one after the other from the state `s`, and each of them is
allowed in the state it happens in.
-/
namespace NyanOS.Lib

open List

abbrev Traced (ε α : Type) := Writer (List ε) α

namespace Traced

variable {ε α β : Type}

def value (x : Traced ε α) : α := x.run.1

def events (x : Traced ε α) : List ε := x.run.2

def emit (e : ε) : Traced ε PUnit := tell [e]

@[simp] theorem value_pure (a : α) : (pure a : Traced ε α).value = a := rfl

@[simp] theorem events_pure (a : α) : (pure a : Traced ε α).events = [] := rfl

@[simp] theorem value_bind (x : Traced ε α) (f : α → Traced ε β) : (x >>= f).value = (f x.value).value := rfl

@[simp] theorem events_bind (x : Traced ε α) (f : α → Traced ε β) :
    (x >>= f).events = x.events ++ (f x.value).events := rfl

@[simp] theorem value_emit (e : ε) : (emit e).value = PUnit.unit := rfl

@[simp] theorem events_emit (e : ε) : (emit e).events = [e] := rfl

end Traced

section Along

variable {ε σ : Type} {next : σ → ε → σ} {ok : σ → ε → Prop} {s : σ} {xs ys : List ε}

def Along (next : σ → ε → σ) (ok : σ → ε → Prop) : σ → List ε → Prop
  | _, [] => True
  | s, e :: es => ok s e ∧ Along next ok (next s e) es

@[simp] theorem along_nil : Along next ok s [] := trivial

@[simp] theorem along_cons {e : ε} : Along next ok s (e :: ys) ↔ ok s e ∧ Along next ok (next s e) ys := Iff.rfl

theorem along_append : Along next ok s (xs ++ ys) ↔ Along next ok s xs ∧ Along next ok (xs.foldl next s) ys := by
  induction xs generalizing s with
  | nil => simp
  | cons e xs ih =>
    rw [cons_append, along_cons, along_cons, ih, foldl_cons, and_assoc]

/-- Events that leave the state alone are all judged in the same state. -/
theorem foldl_eq_self (h : ∀ e ∈ xs, ∀ s, next s e = s) : xs.foldl next s = s := by
  induction xs generalizing s with
  | nil => rfl
  | cons e xs ih =>
    rw [foldl_cons, h e mem_cons_self]
    exact ih fun x hx => h x (mem_cons_of_mem e hx)

theorem along_iff_forall (h : ∀ e ∈ xs, ∀ s, next s e = s) : Along next ok s xs ↔ ∀ e ∈ xs, ok s e := by
  induction xs generalizing s with
  | nil => simp
  | cons e xs ih =>
    rw [along_cons, h e mem_cons_self, ih fun x hx => h x (mem_cons_of_mem e hx), forall_mem_cons]

end Along

end NyanOS.Lib
