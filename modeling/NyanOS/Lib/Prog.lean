import Mathlib.Tactic

/-!
# Programs that call commands

A program over the commands `C` is a tree of calls: a call of `c` goes on with an answer in `R c`. A handler gives the
commands their effect on a state, and the same program can be run by several handlers.
-/
namespace NyanOS.Lib

/-- `stuck` is a loop that reached the bound on its turns. -/
inductive Prog (C : Type) (R : C → Type) (α : Type) where
  | ret (a : α)
  | stuck
  | call (c : C) (k : R c → Prog C R α)

namespace Prog

variable {C : Type} {R : C → Type} {α β S T : Type}

def bind : Prog C R α → (α → Prog C R β) → Prog C R β
  | ret a, f => f a
  | stuck, _ => stuck
  | call c k, f => call c fun r => (k r).bind f

instance : Monad (Prog C R) where
  pure := ret
  bind := bind

/-- Call a command and return its answer. -/
def ask (c : C) : Prog C R (R c) := call c ret

/-- What a program does to a state; `none` if it gets stuck. -/
def run (h : (c : C) → S → R c × S) : Prog C R α → S → Option (α × S)
  | ret a, s => some (a, s)
  | stuck, _ => none
  | call c k, s => (k (h c s).1).run h (h c s).2

/-- The program ends, calls each command only where `pre` allows it, and ends in a state with `Q`. -/
def wp (h : (c : C) → S → R c × S) (pre : C → S → Prop) : Prog C R α → S → (α → S → Prop) → Prop
  | ret a, s, Q => Q a s
  | stuck, _, _ => False
  | call c k, s, Q => pre c s ∧ (k (h c s).1).wp h pre (h c s).2 Q

variable {h : (c : C) → S → R c × S} {pre : C → S → Prop} {p : Prog C R α} {f : α → Prog C R β} {s s' : S} {a : α}
  {P Q : α → S → Prop}

@[simp] theorem wp_pure : (Pure.pure a : Prog C R α).wp h pre s Q ↔ Q a s := Iff.rfl

@[simp] theorem wp_bind {Q : β → S → Prop} : (p >>= f).wp h pre s Q ↔ p.wp h pre s fun a s => (f a).wp h pre s Q := by
  induction p generalizing s with
  | ret a => exact Iff.rfl
  | stuck => exact Iff.rfl
  | call c k ih => exact and_congr_right fun _ => ih (h c s).1

theorem wp_mono (hp : p.wp h pre s P) (hPQ : ∀ a s, P a s → Q a s) : p.wp h pre s Q := by
  induction p generalizing s with
  | ret a => exact hPQ a s hp
  | stuck => exact hp
  | call c k ih => exact ⟨hp.1, ih _ hp.2⟩

/-- A handler that answers as another one does wherever the calls are allowed runs the program as the other one. -/
theorem run_simulates {h' : (c : C) → T → R c × T} {Rel : T → S → Prop} {t : T}
    (hsim : ∀ c t s, pre c s → Rel t s → (h' c t).1 = (h c s).1 ∧ Rel (h' c t).2 (h c s).2)
    (hp : p.wp h pre s Q) (hrel : Rel t s) :
    ∃ a t' s', p.run h' t = some (a, t') ∧ p.run h s = some (a, s') ∧ Rel t' s' ∧ Q a s' := by
  induction p generalizing s t with
  | ret a => exact ⟨a, t, s, rfl, rfl, hrel, hp⟩
  | stuck => exact hp.elim
  | call c k ih =>
    obtain ⟨hsame, hnext⟩ := hsim c t s hp.1 hrel
    obtain ⟨a, t', s', ht, hs, hend⟩ := ih (h c s).1 hp.2 hnext
    refine ⟨a, t', s', ?_, hs, hend⟩
    rw [run, hsame]
    exact ht

instance decidableWp [∀ c s, Decidable (pre c s)] [∀ a s, Decidable (Q a s)] :
    ∀ (p : Prog C R α) (s : S), Decidable (p.wp h pre s Q)
  | ret a, s => inferInstanceAs (Decidable (Q a s))
  | stuck, _ => inferInstanceAs (Decidable False)
  | call c k, s =>
    have := decidableWp (k (h c s).1) (h c s).2
    inferInstanceAs (Decidable (pre c s ∧ (k (h c s).1).wp h pre (h c s).2 Q))

end Prog

end NyanOS.Lib
