import Mathlib.Tactic
import NyanOS.Lib.Queue

/-!
# The ring buffer of `utils/ring_buf.h`

`head` is the next slot to write and `tail` the next one to read, both `uint8_t`
indices into 256 slots, so all index arithmetic is modulo 256. One slot is never
used: the buffer holds at most 255 elements. The element type is left abstract.
-/

namespace NyanOS

open Function List

structure RingBuf (α : Type) where
  buf : Fin 0x100 → α
  head : Fin 0x100
  tail : Fin 0x100

namespace RingBuf

variable {α : Type} {rb rb' : RingBuf α} {c d : α}

def rbInit (zero : α) : RingBuf α := ⟨fun _ => zero, 0, 0⟩

/-- A push into a full buffer drops the oldest element by moving `tail`. -/
def rbPush (rb : RingBuf α) (c : α) : RingBuf α where
  buf := update rb.buf rb.head c
  head := rb.head + 1
  tail := if rb.head + 1 = rb.tail then rb.tail + 1 else rb.tail

/-- `none` is the return value 0: nothing to read. -/
def rbPop (rb : RingBuf α) : Option (α × RingBuf α) :=
  if rb.head = rb.tail then none
  else some (rb.buf rb.tail, { rb with tail := rb.tail + 1 })

def rbIsFull (rb : RingBuf α) : Bool := rb.head + 1 = rb.tail

def rbIsEmpty (rb : RingBuf α) : Bool := rb.head = rb.tail

/-- The number of occupied slots, counted from `tail` to `head` around the ring. -/
def count (rb : RingBuf α) : Nat := (rb.head - rb.tail).val

/-- The slot of the `i`-th oldest element. -/
def slot (rb : RingBuf α) (i : Nat) : Fin 0x100 :=
  ⟨(rb.tail.val + i) % 0x100, Nat.mod_lt _ (by decide)⟩

/-- The abstract queue, oldest element first. -/
def contents (rb : RingBuf α) : List α := (List.range rb.count).map fun i => rb.buf (rb.slot i)

theorem count_le (rb : RingBuf α) : rb.count ≤ 255 := by
  have := (rb.head - rb.tail).isLt
  simp only [count]
  omega

@[simp] theorem length_contents (rb : RingBuf α) : rb.contents.length = rb.count := by
  simp [contents]

@[simp] theorem contents_init (zero : α) : (rbInit zero).contents = [] := by
  simp [contents, count, rbInit]

theorem count_eq_zero_iff : rb.count = 0 ↔ rb.head = rb.tail := by
  simp only [count, Fin.val_eq_zero_iff, sub_eq_zero]

theorem isEmpty_iff : rb.rbIsEmpty = true ↔ rb.contents = [] := by
  rw [← length_eq_zero_iff, length_contents, count_eq_zero_iff]
  simp [rbIsEmpty]

theorem isFull_iff : rb.rbIsFull = true ↔ rb.contents.length = 255 := by
  rw [length_contents]
  simp only [rbIsFull, decide_eq_true_eq, count]
  omega

theorem count_push_of_not_full (h : rb.rbIsFull = false) : (rb.rbPush c).count = rb.count + 1 := by
  have hne : rb.head + 1 ≠ rb.tail := by simpa [rbIsFull] using h
  simp only [count, rbPush, if_neg hne]
  omega

theorem slot_ne_head {i : Nat} (h : i < rb.count) : rb.slot i ≠ rb.head := by
  intro he
  have hv := congrArg Fin.val he
  simp only [slot, count] at hv h
  omega

theorem slot_count (rb : RingBuf α) : rb.slot rb.count = rb.head := by
  apply Fin.ext
  simp only [slot, count]
  omega

theorem contents_push (h : rb.rbIsFull = false) : (rb.rbPush c).contents = rb.contents ++ [c] := by
  have hne : rb.head + 1 ≠ rb.tail := by simpa [rbIsFull] using h
  have hslot : (rb.rbPush c).slot = rb.slot := by
    funext i
    simp [slot, rbPush, hne]
  simp only [contents, count_push_of_not_full h, range_succ, map_append, hslot, map_cons, map_nil]
  congr 1
  · apply map_congr_left
    intro i hi
    simp [rbPush, slot_ne_head (mem_range.mp hi)]
  · simp [rbPush, slot_count]

theorem pop_eq_none_iff : rb.rbPop = none ↔ rb.contents = [] := by
  rw [← isEmpty_iff]
  simp [rbPop, rbIsEmpty]

theorem contents_pop (h : rb.rbPop = some (c, rb')) : rb.contents = c :: rb'.contents := by
  by_cases he : rb.head = rb.tail
  · simp [rbPop, he] at h
  obtain ⟨rfl, rfl⟩ : rb.buf rb.tail = c ∧ { rb with tail := rb.tail + 1 } = rb' := by
    simpa [rbPop, he] using h
  have hc : rb.count = ({ rb with tail := rb.tail + 1 } : RingBuf α).count + 1 := by
    simp only [count]
    omega
  simp only [contents, hc, range_succ_eq_map, map_cons, map_map]
  congr 1
  · congr 1
    apply Fin.ext
    simp only [slot]
    omega
  · apply map_congr_left
    intro i _
    simp only [Function.comp_apply]
    congr 1
    apply Fin.ext
    simp only [slot]
    omega

theorem contents_push_full (h : rb.rbIsFull = true) : (rb.rbPush c).contents = rb.contents.tail ++ [c] := by
  have hfull : rb.head + 1 = rb.tail := by simpa [rbIsFull] using h
  have hcount : rb.count = 255 := by
    rw [← length_contents]
    exact isFull_iff.mp h
  have hcount' : (rb.rbPush c).count = 255 := by
    simp only [count, rbPush, if_pos hfull]
    omega
  have hslot : ∀ i, (rb.rbPush c).slot i = rb.slot (i + 1) := by
    intro i
    apply Fin.ext
    simp only [slot, rbPush, if_pos hfull]
    omega
  have hbuf : (rb.rbPush c).buf = update rb.buf rb.head c := rfl
  have hlast : rb.slot 255 = rb.head := by
    rw [← hcount]
    exact slot_count rb
  have htail : rb.contents.tail = (List.range 254).map fun i => rb.buf (rb.slot (i + 1)) := by
    rw [contents, hcount, range_succ_eq_map, map_cons, tail_cons, map_map]
    rfl
  rw [htail, contents, hcount', range_succ, map_append]
  congr 1
  · apply map_congr_left
    intro i hi
    have hne : rb.slot (i + 1) ≠ rb.head := by
      apply slot_ne_head
      have := mem_range.mp hi
      omega
    simp only [hslot, hbuf, update_of_ne hne]
  · simp only [map_cons, map_nil, hslot, hbuf, hlast, update_self]

theorem contents_rbPush (c : α) : (rb.rbPush c).contents = Lib.Fifo.push 255 rb.contents c := by
  rw [Lib.Fifo.push]
  cases hfull : rb.rbIsFull with
  | true => rw [if_pos (isFull_iff.mp hfull), contents_push_full hfull]
  | false =>
    rw [if_neg, contents_push hfull]
    intro hlen
    rw [isFull_iff.mpr hlen] at hfull
    cases hfull

theorem contents_rbPop (rb : RingBuf α) : rb.rbPop.map (Prod.map id contents) = Lib.Fifo.pop rb.contents := by
  cases hpop : rb.rbPop with
  | none =>
    rw [pop_eq_none_iff.mp hpop]
    rfl
  | some r =>
    obtain ⟨c, rb'⟩ := r
    rw [contents_pop hpop]
    rfl

end RingBuf

end NyanOS
