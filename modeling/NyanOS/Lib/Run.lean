import Mathlib.Tactic

/-! Finite runs of a labelled transition relation, and the induction rules used on them. -/
namespace NyanOS.Lib

open Option

variable {S T A : Type*} {step : S → A → S → Prop} {s t u : S} {a : A} {xs ys : List A} {next : S → A → Option S}

/-- A finite run, built from its first step. -/
inductive Run (step : S → A → S → Prop) : S → List A → S → Prop
  | refl {s : S} : Run step s [] s
  | stepL {s u t : S} {a : A} {xs : List A} :
      step s a u → Run step u xs t → Run step s (a :: xs) t

/-- The steps of a relation that also satisfy a condition on the state before them. -/
def guarded (step : S → A → S → Prop) (ok : S → A → Prop) (s : S) (a : A) (t : S) : Prop :=
  ok s a ∧ step s a t

/-- The transition relation of a deterministic step function; `none` refuses the action. -/
def ofNext (next : S → A → Option S) (s : S) (a : A) (t : S) : Prop := next s a = some t

theorem Run.append (h : Run step s xs u) (h' : Run step u ys t) : Run step s (xs ++ ys) t := by
  induction h with
  | refl => exact h'
  | stepL hs _ ih => exact .stepL hs (ih h')

theorem Run.snoc (h : Run step s xs u) (h' : step u a t) : Run step s (xs ++ [a]) t := h.append (.stepL h' .refl)

/-- An invariant of every step is an invariant of every run. -/
theorem Run.invariant {P : S → Prop} (hP : ∀ s a t, step s a t → P s → P t) (h : Run step s xs t) (hs : P s) : P t := by
  induction h with
  | refl => exact hs
  | stepL hstep _ ih => exact ih (hP _ _ _ hstep hs)

/-- An invariant that also speaks of something computed from the actions so far. -/
theorem Run.tracked {P : T → S → Prop} {track : T → A → T} {x : T}
    (hP : ∀ x s a t, step s a t → P x s → P (track x a) t) (h : Run step s xs t) (hs : P x s) :
    P (xs.foldl track x) t := by
  induction h generalizing x with
  | refl => exact hs
  | stepL hstep _ ih => exact ih (hP _ _ _ _ hstep hs)

/-- Forward simulation through an abstraction function, under an invariant of the source. -/
theorem Run.simulate {spec : T → A → T → Prop} {P : S → Prop} (abs : S → T) (hP : ∀ s a t, step s a t → P s → P t)
    (hsim : ∀ s a t, step s a t → P s → spec (abs s) a (abs t))
    (h : Run step s xs t) (hs : P s) : Run spec (abs s) xs (abs t) := by
  induction h with
  | refl => exact .refl
  | stepL hstep _ ih => exact .stepL (hsim _ _ _ hstep hs) (ih (hP _ _ _ hstep hs))

/-- Executing a step function along a list of actions. -/
def exec (next : S → A → Option S) : S → List A → Option S
  | s, [] => some s
  | s, a :: xs => (next s a).bind fun u => exec next u xs

theorem exec_steps (hstep : ∀ a ∈ xs, ∀ s u, next s a = some u → step s a u) (h : exec next s xs = some t) :
    Run step s xs t := by
  induction xs generalizing s with
  | nil =>
    obtain rfl : s = t := by simpa [exec] using h
    exact .refl
  | cons a xs ih =>
    obtain ⟨u, hu, ht⟩ := bind_eq_some_iff.mp h
    exact .stepL (hstep a List.mem_cons_self s u hu) (ih (fun b hb => hstep b (List.mem_cons_of_mem a hb)) ht)

theorem exec_run (h : exec next s xs = some t) : Run (ofNext next) s xs t := exec_steps (fun _ _ _ _ hu => hu) h

/-- An execution of actions that meet the condition in every state. -/
theorem exec_guarded {ok : S → A → Prop} (hok : ∀ a ∈ xs, ∀ s, ok s a)
    (h : exec next s xs = some t) : Run (guarded (ofNext next) ok) s xs t :=
  exec_steps (fun a ha s _ hu => ⟨hok a ha s, hu⟩) h

/-- The step function that refuses an action whose condition fails. -/
def checked (next : S → A → Option S) (ok : S → A → Prop) [∀ s a, Decidable (ok s a)] (s : S) (a : A) :
    Option S := if ok s a then next s a else none

theorem exec_checked {ok : S → A → Prop} [∀ s a, Decidable (ok s a)]
    (h : exec (checked next ok) s xs = some t) : Run (guarded (ofNext next) ok) s xs t :=
  exec_steps (fun _ _ _ _ hu => ite_none_right_eq_some.mp hu) h

theorem Run.exec_eq (h : Run (ofNext next) s xs t) : exec next s xs = some t := by
  induction h with
  | refl => rfl
  | stepL hs _ ih =>
    rw [exec, hs]
    exact ih

end NyanOS.Lib
