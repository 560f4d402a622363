import Mathlib

/-!
# Extents of addresses

Address ranges, sorted lists of ranges that keep a gap between any two of them, and
the insertion that coalesces a freed range with its neighbours.
-/

namespace NyanOS.Lib

open List

structure Extent where
  start : Nat
  size : Nat
  deriving DecidableEq, Repr

namespace Extent

variable {e x y : Extent} {l pre post : List Extent} {b m n : Nat}

def stop (e : Extent) : Nat := e.start + e.size

def bytes (e : Extent) : Set Nat := Set.Ico e.start e.stop

def cover (l : List Extent) : Set Nat := { b | ∃ e ∈ l, b ∈ e.bytes }

@[simp] theorem mem_bytes : b ∈ e.bytes ↔ e.start ≤ b ∧ b < e.start + e.size := Iff.rfl

@[simp] theorem mem_cover : b ∈ cover l ↔ ∃ e ∈ l, b ∈ e.bytes := Iff.rfl

theorem cover_cons (e : Extent) (l : List Extent) : cover (e :: l) = e.bytes ∪ cover l := by
  ext b
  simp

theorem cover_append (l l' : List Extent) : cover (l ++ l') = cover l ∪ cover l' := by
  ext b
  simp [or_and_right, exists_or]

theorem bytes_subset_cover (h : e ∈ l) : e.bytes ⊆ cover l := fun _ hb => ⟨e, h, hb⟩

theorem disjoint_cover {s : Set Nat} (h : ∀ e ∈ l, Disjoint s e.bytes) : Disjoint s (cover l) := by
  rw [Set.disjoint_left]
  rintro b hb ⟨e, he, hbe⟩
  exact Set.disjoint_left.mp (h e he) hb hbe

theorem start_mem_bytes (h : 0 < e.size) : e.start ∈ e.bytes := by
  simp [h]

/-- Two touching ranges as one. -/
def join (x y : Extent) : Extent := ⟨x.start, x.size + y.size⟩

theorem bytes_join (h : x.stop = y.start) : (x.join y).bytes = x.bytes ∪ y.bytes := by
  ext b
  simp only [stop] at h
  simp only [join, mem_bytes, Set.mem_union]
  omega

theorem stop_join_le (h : x.stop = y.start) (_ : x.stop ≤ n) (hy : y.stop ≤ n) : (x.join y).stop ≤ n := by
  simp only [join, stop] at *
  omega

/-- Strictly increasing, with positive sizes and a gap between any two ranges. -/
structure Separated (l : List Extent) : Prop where
  gaps : l.Pairwise fun x y => x.stop < y.start
  pos : ∀ e ∈ l, 0 < e.size

theorem separated_nil : Separated [] := ⟨List.Pairwise.nil, by simp⟩

theorem separated_cons : Separated (x :: l) ↔ 0 < x.size ∧ (∀ y ∈ l, x.stop < y.start) ∧ Separated l := by
  constructor
  · rintro ⟨hg, hp⟩
    obtain ⟨hx, hl⟩ := pairwise_cons.mp hg
    exact ⟨hp x (by simp), hx, hl, fun e he => hp e (by simp [he])⟩
  · rintro ⟨hx, hgap, hl⟩
    refine ⟨pairwise_cons.mpr ⟨hgap, hl.gaps⟩, ?_⟩
    intro e he
    rcases mem_cons.mp he with rfl | he
    · exact hx
    · exact hl.pos e he

theorem Separated.sublist (h : Separated l) (hs : pre.Sublist l) : Separated pre :=
  ⟨h.gaps.sublist hs, fun e he => h.pos e (hs.subset he)⟩

/-- Ranges of at least `n` bytes between `m` and `b` are not more than fit there. -/
theorem Separated.length_le (h : Separated l) (hn : ∀ e ∈ l, n ≤ e.size)
    (hlo : ∀ e ∈ l, m ≤ e.start) (hhi : ∀ e ∈ l, e.stop ≤ b) (hmb : m ≤ b) : m + n * l.length ≤ b := by
  induction l generalizing m with
  | nil => simpa using hmb
  | cons x l ih =>
    obtain ⟨_, hgap, hl⟩ := separated_cons.mp h
    have hx := hn x (by simp)
    have hxlo := hlo x (by simp)
    have hxhi := hhi x (by simp)
    simp only [stop] at hgap hxhi
    have htail := ih (m := x.start + x.size) hl (fun e he => hn e (by simp [he]))
      (fun e he => le_of_lt (hgap e he)) (fun e he => hhi e (by simp [he])) hxhi
    simp only [length_cons, mul_add, mul_one]
    omega

/-- Put a range in front of a sorted list, joining it with the first one if they touch. -/
def pushJoin (e : Extent) : List Extent → List Extent
  | [] => [e]
  | x :: l => if e.stop = x.start then e.join x :: l else e :: x :: l

/-- Insert a free range into a sorted list, coalescing on both sides. -/
def insertFree (e : Extent) : List Extent → List Extent
  | [] => [e]
  | x :: l => if e.start < x.start then pushJoin e (x :: l) else pushJoin x (insertFree e l)

theorem cover_pushJoin (e : Extent) (l : List Extent) : cover (pushJoin e l) = e.bytes ∪ cover l := by
  cases l with
  | nil => simp [pushJoin, cover_cons]
  | cons x l =>
    simp only [pushJoin]
    split
    · rename_i h
      rw [cover_cons, cover_cons, bytes_join h, Set.union_assoc]
    · rw [cover_cons]

theorem cover_insertFree (e : Extent) (l : List Extent) : cover (insertFree e l) = e.bytes ∪ cover l := by
  induction l with
  | nil => simp [insertFree, cover_cons]
  | cons x l ih =>
    simp only [insertFree]
    split
    · rw [cover_pushJoin]
    · rw [cover_pushJoin, ih, cover_cons, Set.union_left_comm]

/-- A property of ranges that joining keeps holds of the list after an insertion. -/
theorem forall_pushJoin {P : Extent → Prop} (hP : ∀ x y, x.stop = y.start → P x → P y → P (x.join y))
    (he : P e) (hl : ∀ x ∈ l, P x) : ∀ x ∈ pushJoin e l, P x := by
  cases l with
  | nil =>
    intro x hx
    obtain rfl : x = e := by simpa [pushJoin] using hx
    exact he
  | cons y l =>
    intro x hx
    simp only [pushJoin] at hx
    split at hx
    · rename_i hj
      rcases mem_cons.mp hx with rfl | hx
      · exact hP e y hj he (hl y (by simp))
      · exact hl x (by simp [hx])
    · rcases mem_cons.mp hx with rfl | hx
      · exact he
      · exact hl x hx

theorem forall_insertFree {P : Extent → Prop} (hP : ∀ x y, x.stop = y.start → P x → P y → P (x.join y))
    (he : P e) (hl : ∀ x ∈ l, P x) : ∀ x ∈ insertFree e l, P x := by
  induction l with
  | nil => simpa [insertFree] using he
  | cons y l ih =>
    simp only [insertFree]
    split
    · exact forall_pushJoin hP he hl
    · exact forall_pushJoin hP (hl y (by simp)) (ih fun x hx => hl x (by simp [hx]))

theorem exists_le_pushJoin (e : Extent) (l : List Extent) : ∃ x ∈ pushJoin e l, e.size ≤ x.size := by
  cases l with
  | nil => exact ⟨e, by simp [pushJoin], le_rfl⟩
  | cons y l =>
    simp only [pushJoin]
    split
    · exact ⟨e.join y, by simp, Nat.le_add_right _ _⟩
    · exact ⟨e, by simp, le_rfl⟩

/-- An inserted range is part of one that is at least as long. -/
theorem exists_le_insertFree (e : Extent) (l : List Extent) : ∃ x ∈ insertFree e l, e.size ≤ x.size := by
  induction l with
  | nil => exact ⟨e, by simp [insertFree], le_rfl⟩
  | cons y l ih =>
    simp only [insertFree]
    split
    · exact exists_le_pushJoin e (y :: l)
    obtain ⟨x, hx, hle⟩ := ih
    cases hrest : insertFree e l with
    | nil => simp [hrest] at hx
    | cons w l' =>
      rw [hrest] at hx
      simp only [pushJoin]
      split
      · rcases mem_cons.mp hx with rfl | hx
        · exact ⟨y.join x, by simp, Nat.le_trans hle (Nat.le_add_left _ _)⟩
        · exact ⟨x, by simp [hx], hle⟩
      · exact ⟨x, mem_cons_of_mem _ hx, hle⟩

theorem separated_pushJoin (hpos : 0 < e.size) (hl : Separated l)
    (hle : ∀ x ∈ l, e.stop ≤ x.start) : Separated (pushJoin e l) := by
  cases l with
  | nil => exact separated_cons.mpr ⟨hpos, by simp, hl⟩
  | cons x l =>
    obtain ⟨hx, hgap, hl'⟩ := separated_cons.mp hl
    simp only [pushJoin]
    split
    · rename_i hj
      refine separated_cons.mpr ⟨by simp only [join]; omega, ?_, hl'⟩
      intro y hy
      have := hgap y hy
      simp only [join, stop] at *
      omega
    · rename_i hj
      refine separated_cons.mpr ⟨hpos, ?_, hl⟩
      intro y hy
      have hey := hle y hy
      rcases mem_cons.mp hy with rfl | hy
      · omega
      have := hgap y hy
      have hex := hle x (by simp)
      simp only [stop] at *
      omega

/-- Inserting a range that overlaps nothing keeps the list separated. -/
theorem separated_insertFree (hpos : 0 < e.size) (hl : Separated l)
    (hd : Disjoint e.bytes (cover l)) : Separated (insertFree e l) := by
  induction l with
  | nil => exact separated_cons.mpr ⟨hpos, by simp, separated_nil⟩
  | cons x l ih =>
    obtain ⟨hx, hgap, hl'⟩ := separated_cons.mp hl
    rw [cover_cons, Set.disjoint_union_right] at hd
    have hstart := Set.disjoint_left.mp hd.1 (start_mem_bytes hpos)
    have hxstart := Set.disjoint_right.mp hd.1 (start_mem_bytes hx)
    simp only [mem_bytes] at hstart hxstart
    simp only [insertFree]
    split
    · apply separated_pushJoin hpos hl
      intro y hy
      rcases mem_cons.mp hy with rfl | hy
      · simp only [stop]
        omega
      have := hgap y hy
      simp only [stop] at *
      omega
    · apply separated_pushJoin hx (ih hl' hd.2)
      -- the range goes behind `x`, and so does everything else in the tail
      apply forall_insertFree (P := fun z => x.stop ≤ z.start)
      · intro y z _ hy _
        exact hy
      · simp only [stop]
        omega
      · intro y hy
        exact le_of_lt (hgap y hy)

theorem pushJoin_of_lt (h : ∀ y ∈ l, x.stop < y.start) : pushJoin x l = x :: l := by
  cases l with
  | nil => rfl
  | cons y l =>
    have := h y (by simp)
    simp only [pushJoin]
    rw [if_neg (by omega)]

theorem insertFree_of_lt (h : ∀ x ∈ l, e.start < x.start) : insertFree e l = pushJoin e l := by
  cases l with
  | nil => rfl
  | cons x l => rw [insertFree, if_pos (h x (by simp))]

/-- Insertion passes over the ranges in front of its place. -/
theorem insertFree_append (hl : Separated (pre ++ x :: post)) (hpre : ∀ y ∈ pre ++ [x], y.start ≤ e.start) :
    insertFree e (pre ++ x :: post) = pre ++ pushJoin x (insertFree e post) := by
  induction pre with
  | nil =>
    have := hpre x (by simp)
    simp only [nil_append, insertFree]
    rw [if_neg (by omega)]
  | cons y pre ih =>
    rw [cons_append] at hl
    obtain ⟨_, hgap, hl'⟩ := separated_cons.mp hl
    have hy := hpre y (by simp)
    simp only [cons_append, insertFree]
    rw [if_neg (by omega), ih hl' fun z hz => hpre z (mem_cons_of_mem _ hz)]
    apply pushJoin_of_lt
    have hxgap : y.stop < x.start := hgap x (by simp)
    have hxe := hpre x (by simp)
    -- joining keeps the start of the left range, so nothing starts before `y` stops
    have hjoin : ∀ u v : Extent, u.stop = v.start → y.stop < u.start → y.stop < v.start →
        y.stop < (u.join v).start := by
      intro u v _ hu _
      exact hu
    have htail : ∀ z ∈ insertFree e post, y.stop < z.start :=
      forall_insertFree hjoin (by omega) fun z hz => hgap z (by simp [hz])
    intro z hz
    rcases mem_append.mp hz with hz | hz
    · exact hgap z (by simp [hz])
    · exact forall_pushJoin hjoin hxgap htail z hz

end Extent

end NyanOS.Lib
