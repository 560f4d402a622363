import Mathlib.Tactic

/-! Queues of bounded capacity that drop their oldest element, and runs of an implementation against them. -/
namespace NyanOS.Lib

variable {α β : Type*}

inductive QueueOp (α : Type*)
  | push (x : α)
  | pop

namespace QueueOp

/-- The results of the pops of a sequence of operations, and the queue after it. -/
def run (push : β → α → β) (pop : β → Option (α × β)) : β → List (QueueOp α) → List (Option α) × β
  | b, [] => ([], b)
  | b, .push x :: ops => run push pop (push b x) ops
  | b, .pop :: ops =>
    match pop b with
    | none => ((run push pop b ops).1.cons none, (run push pop b ops).2)
    | some (x, b) => ((run push pop b ops).1.cons (some x), (run push pop b ops).2)

end QueueOp

namespace Fifo

/-- A push on a queue that holds `cap` elements discards the oldest. -/
def push (cap : Nat) (q : List α) (x : α) : List α := if q.length = cap then q.tail ++ [x] else q ++ [x]

def pop : List α → Option (α × List α)
  | [] => none
  | x :: q => some (x, q)

/-- An implementation whose operations are those of the queue it stands for behaves like it. -/
theorem run_eq {cap : Nat} {push' : β → α → β} {pop' : β → Option (α × β)} (abs : β → List α)
    (hpush : ∀ b x, abs (push' b x) = push cap (abs b) x)
    (hpop : ∀ b, (pop' b).map (Prod.map id abs) = pop (abs b)) (b : β) (ops : List (QueueOp α)) :
    (QueueOp.run push' pop' b ops).1 = (QueueOp.run (push cap) pop (abs b) ops).1 ∧
      abs (QueueOp.run push' pop' b ops).2 = (QueueOp.run (push cap) pop (abs b) ops).2 := by
  induction ops generalizing b with
  | nil => exact ⟨rfl, rfl⟩
  | cons op ops ih =>
    cases op with
    | push x =>
      rw [QueueOp.run, QueueOp.run, ← hpush]
      exact ih (push' b x)
    | pop =>
      rw [QueueOp.run, QueueOp.run, ← hpop]
      cases hb : pop' b with
      | none => exact ⟨congrArg _ (ih b).1, (ih b).2⟩
      | some r => exact ⟨congrArg _ (ih r.2).1, (ih r.2).2⟩

end Fifo

end NyanOS.Lib
