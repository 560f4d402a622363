import NyanOS.RingBuf

/-!
# Ring buffers as bounded queues (`utils/ring_buf.h`, `event/event.h`)

The event queue is a ring buffer of events, which are copied word by word. Both buffers are queues that hold 255
elements and discard the oldest for a new one.
-/
namespace NyanOS

open Lib

/-- An `Event` in memory: 24 bytes. The first word has the type in its low half and the modifiers in byte 4. -/
structure Event where
  word0 : BitVec 64
  word1 : BitVec 64
  word2 : BitVec 64

abbrev EventBuf := RingBuf Event

local instance neZero_slots : NeZero 256 := ⟨by decide⟩

/-- The type and the modifiers become 0; the rest of each slot stays as it was. -/
def eventQueueInit (q : EventBuf) : EventBuf where
  buf i := { q.buf i with word0 := (q.buf i).word0 &&& 0xFFFFFF0000000000 }
  head := 0
  tail := 0

def eventQueuePush (q : EventBuf) (e : Event) : EventBuf := q.rbPush ⟨e.word0, e.word1, e.word2⟩

def eventQueuePop (q : EventBuf) : Option (Event × EventBuf) :=
  q.rbPop.map fun (e, q) => (⟨e.word0, e.word1, e.word2⟩, q)

/-- After every sequence of operations the pops have returned what the queue gives, and the buffer holds its elements. -/
structure Refines {α : Type} (push : RingBuf α → α → RingBuf α) (pop : RingBuf α → Option (α × RingBuf α))
    (rb : RingBuf α) (ops : List (QueueOp α)) : Prop where
  popped : (QueueOp.run push pop rb ops).1 = (QueueOp.run (Fifo.push 255) Fifo.pop [] ops).1
  held : (QueueOp.run push pop rb ops).2.contents = (QueueOp.run (Fifo.push 255) Fifo.pop [] ops).2
  empty : (QueueOp.run push pop rb ops).2.rbIsEmpty = true ↔
    (QueueOp.run (Fifo.push 255) Fifo.pop [] ops).2.length = 0
  full : (QueueOp.run push pop rb ops).2.rbIsFull = true ↔
    (QueueOp.run (Fifo.push 255) Fifo.pop [] ops).2.length = 255

theorem refines_of_empty {α : Type} {rb : RingBuf α} (h : rb.contents = []) (ops : List (QueueOp α)) :
    Refines RingBuf.rbPush RingBuf.rbPop rb ops := by
  obtain ⟨hpopped, hheld⟩ := Fifo.run_eq RingBuf.contents (fun _ => RingBuf.contents_rbPush) RingBuf.contents_rbPop rb ops
  rw [h] at hpopped hheld
  refine ⟨hpopped, hheld, ?_, ?_⟩
  · rw [RingBuf.isEmpty_iff, hheld, List.length_eq_zero_iff]
  · rw [RingBuf.isFull_iff, hheld]

theorem eventQueuePop_eq (q : EventBuf) : eventQueuePop q = q.rbPop := by
  rw [eventQueuePop]
  cases q.rbPop with
  | none => rfl
  | some r => rfl

theorem contents_eventQueueInit (q : EventBuf) : (eventQueueInit q).contents = [] := by
  simp [RingBuf.contents, RingBuf.count, eventQueueInit]

/-- Both kinds of buffers, from their initialisation on; the event queue lies in memory of any content. -/
theorem ring_buffers_refine_fifo :
    (∀ ops : List (QueueOp (BitVec 8)), Refines RingBuf.rbPush RingBuf.rbPop (RingBuf.rbInit 0) ops) ∧
      ∀ (q : EventBuf) (ops : List (QueueOp Event)), Refines eventQueuePush eventQueuePop (eventQueueInit q) ops := by
  refine ⟨fun ops => refines_of_empty (RingBuf.contents_init 0) ops, fun q ops => ?_⟩
  have hpop : eventQueuePop = RingBuf.rbPop := funext eventQueuePop_eq
  rw [hpop]
  exact refines_of_empty (contents_eventQueueInit q) ops

end NyanOS
