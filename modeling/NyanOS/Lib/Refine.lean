import NyanOS.Lib.Prog

/-!
# Programs seen through a view of their state

A view keeps what a specification talks about. A program computes on the view if its answer and the view it leaves depend
on the view it started from and on nothing else.
-/
namespace NyanOS.Lib

variable {C : Type} {R : C → Type} {α β S T W : Type}

/-- From every state with the view `w` the program ends with the answer `a` in a state with the view `w'`. -/
def Computes (h : (c : C) → S → R c × S) (pre : C → S → Prop) (view : S → W) (p : Prog C R α) (w : W) (a : α) (w' : W) :
    Prop :=
  ∀ s, view s = w → p.wp h pre s fun x s' => x = a ∧ view s' = w'

namespace Computes

variable {h : (c : C) → S → R c × S} {pre : C → S → Prop} {view : S → W} {p : Prog C R α} {f : α → Prog C R β}
  {w w' w'' : W} {a : α} {b : β}

theorem ret : Computes h pre view (Pure.pure a : Prog C R α) w a w := fun _ hs => ⟨rfl, hs⟩

theorem bind (hp : Computes h pre view p w a w') (hf : Computes h pre view (f a) w' b w'') :
    Computes h pre view (p >>= f) w b w'' := by
  intro s hs
  rw [Prog.wp_bind]
  refine Prog.wp_mono (hp s hs) ?_
  rintro x s' ⟨rfl, hs'⟩
  exact hf s' hs'

/-- What is computed is computed by every handler that simulates this one. -/
theorem simulated {h' : (c : C) → T → R c × T} {Rel : T → S → Prop} {s : S} {t : T}
    (hsim : ∀ c t s, pre c s → Rel t s → (h' c t).1 = (h c s).1 ∧ Rel (h' c t).2 (h c s).2)
    (hp : Computes h pre view p (view s) a w') (hrel : Rel t s) :
    ∃ t' s', p.run h' t = some (a, t') ∧ Rel t' s' ∧ view s' = w' := by
  obtain ⟨x, t', s', hrun, _, hrel', rfl, hview⟩ := Prog.run_simulates hsim (hp s rfl) hrel
  exact ⟨t', s', hrun, hrel', hview⟩

end Computes

end NyanOS.Lib
