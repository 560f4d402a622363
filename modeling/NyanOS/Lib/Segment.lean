import Mathlib.Tactic

/-! Segments of singly linked lists in an address-indexed memory. -/
namespace NyanOS.Lib

open Function List

variable {node : Nat → Prop} {next next' : Nat → Nat} {a b b' c x y : Nat} {l l' l'' : List Nat}

/-- Following `next` from `a` visits exactly the nodes `l` and then stands at `b`. -/
def Seg (node : Nat → Prop) (next : Nat → Nat) : Nat → List Nat → Nat → Prop
  | a, [], b => a = b
  | a, x :: l, b => a = x ∧ node x ∧ Seg node next (next x) l b

@[simp] theorem seg_nil : Seg node next a [] b ↔ a = b := Iff.rfl

@[simp] theorem seg_cons : Seg node next a (x :: l) b ↔ a = x ∧ node x ∧ Seg node next (next x) l b := Iff.rfl

theorem seg_append : Seg node next a (l ++ l') b ↔ ∃ c, Seg node next a l c ∧ Seg node next c l' b := by
  induction l generalizing a with
  | nil => simp
  | cons x l ih =>
    simp only [cons_append, seg_cons, ih]
    constructor
    · rintro ⟨ha, hx, c, hl, hl'⟩
      exact ⟨c, ⟨ha, hx, hl⟩, hl'⟩
    · rintro ⟨c, ⟨ha, hx, hl⟩, hl'⟩
      exact ⟨ha, hx, c, hl, hl'⟩

section

variable (h : Seg node next a l b)
include h

/-- A segment depends only on the links of the nodes it visits. -/
theorem Seg.congr (he : ∀ x ∈ l, next' x = next x) : Seg node next' a l b := by
  induction l generalizing a with
  | nil => exact h
  | cons x l ih =>
    obtain ⟨ha, hx, hl⟩ := h
    refine ⟨ha, hx, ?_⟩
    rw [he x (by simp)]
    exact ih hl fun y hy => he y (by simp [hy])

theorem Seg.node_of_mem (hx : x ∈ l) : node x := by
  induction l generalizing a with
  | nil => simp at hx
  | cons y l ih =>
    obtain ⟨_, hy, hl⟩ := h
    rcases mem_cons.mp hx with rfl | hx
    · exact hy
    · exact ih hl hx

/-- The links determine the nodes up to the first address that is none. -/
theorem Seg.unique (h' : Seg node next a l' b') (hb : ¬ node b) (hb' : ¬ node b') : l = l' := by
  induction l generalizing a l' with
  | nil =>
    cases l' with
    | nil => rfl
    | cons y l' =>
      obtain rfl : a = b := h
      exact absurd (h'.1 ▸ h'.2.1) hb
  | cons x l ih =>
    obtain ⟨rfl, hx, hl⟩ := h
    cases l' with
    | nil =>
      obtain rfl : a = b' := h'
      exact absurd hx hb'
    | cons y l' =>
      obtain ⟨rfl, _, hl'⟩ := h'
      rw [ih hl hl']

/-- A list that ends is not cyclic. -/
theorem Seg.nodup (hb : ¬ node b) : l.Nodup := by
  induction l generalizing a with
  | nil => exact nodup_nil
  | cons x l ih =>
    have hwhole := h
    obtain ⟨rfl, _, hl⟩ := h
    refine nodup_cons.mpr ⟨?_, ih hl⟩
    intro hx
    obtain ⟨l₁, l₂, rfl⟩ := append_of_mem hx
    -- a second visit of the node would continue as the first one did
    obtain ⟨c, _, hc⟩ := seg_append.mp hl
    obtain rfl : c = a := hc.1
    have hlen := congrArg List.length (hwhole.unique hc hb hb)
    simp at hlen
    omega

/-- The link of a node leads to another node or out of the segment. -/
theorem Seg.next_of_mem (hx : x ∈ l) : next x = b ∨ next x ∈ l := by
  induction l generalizing a with
  | nil => simp at hx
  | cons y l ih =>
    obtain ⟨_, _, hl⟩ := h
    rcases mem_cons.mp hx with rfl | hx
    · cases l with
      | nil => exact .inl hl
      | cons z l =>
        right
        simp [hl.1]
    · rcases ih hl hx with hb | hm
      · exact .inl hb
      · exact .inr (by simp [hm])

theorem Seg.next_ne_self (hb : ¬ node b) (hx : x ∈ l) : next x ≠ x := by
  intro he
  obtain ⟨l₁, l₂, rfl⟩ := append_of_mem hx
  obtain ⟨c, _, _, hnode, hl⟩ := seg_append.mp h
  have hnd := (h.nodup hb).of_append_right
  cases l₂ with
  | nil => exact hb (((he.symm.trans hl) ▸ hnode))
  | cons z l₂ =>
    have hz : x = z := he.symm.trans hl.1
    simp [hz] at hnd

end

theorem Seg.tail (h : Seg node next a (l ++ x :: l') b) (hb : ¬ node b) : Seg node next (next x) l' b ∧ x ∉ l' := by
  obtain ⟨c, _, hc⟩ := seg_append.mp h
  exact ⟨hc.2.2, (nodup_cons.mp (hc.nodup hb)).1⟩

/-- The part behind a node is replaced. -/
theorem Seg.relink (h : Seg node next a (l ++ x :: l') b) (hb : ¬ node b)
    (he : ∀ z ∈ l, z ≠ x → next' z = next z) (hnew : Seg node next' (next' x) l'' b) :
    Seg node next' a (l ++ x :: l'') b := by
  have hcross := (nodup_append.mp (h.nodup hb)).2.2
  obtain ⟨c, hl, hc, hx, _⟩ := seg_append.mp h
  exact seg_append.mpr ⟨c, hl.congr fun z hz => he z hz (hcross z hz x mem_cons_self), hc, hx, hnew⟩

/-- Bending the last link before a node past it takes the node out. -/
theorem Seg.unlink {h : Nat} (hs : Seg node next (next h) (l ++ x :: l') b) (hb : ¬ node b) (hh : h ∉ l ++ x :: l') :
    Seg node (update next (l.getLastD h) (next x)) (update next (l.getLastD h) (next x) h) (l ++ l') b := by
  induction l generalizing h with
  | nil =>
    obtain ⟨_, _, hl⟩ := hs
    rw [getLastD_nil, update_self]
    refine hl.congr fun y hy => update_of_ne ?_ _ _
    rintro rfl
    simp [hy] at hh
  | cons y l ih =>
    have hnd := hs.nodup hb
    obtain ⟨hy, hnode, hl⟩ := hs
    have hyl : y ∉ l ++ x :: l' := (nodup_cons.mp hnd).1
    have hlast : (y :: l).getLastD h = l.getLastD y := by cases l <;> simp [List.getLastD]
    have hne : h ≠ l.getLastD y := by
      intro he
      have hmem : h ∈ y :: l := he ▸ getLastD_mem_cons
      exact hh (by simp only [cons_append, mem_cons, mem_append] at hmem ⊢; tauto)
    rw [hlast, update_of_ne hne]
    exact ⟨hy, hnode, ih hl hyl⟩

/-- A node that leads out of the segment is linked behind the last one. -/
theorem Seg.snoc (h : Seg node next a (l ++ [x]) b) (hy : node y) (hx : next' x = y)
    (hend : next' y = b) (he : ∀ z ∈ l, next' z = next z) : Seg node next' a (l ++ [x] ++ [y]) b := by
  obtain ⟨c, hl, hc, hnode, _⟩ := seg_append.mp h
  have hcong : Seg node next' a l c := hl.congr he
  refine seg_append.mpr ⟨y, seg_append.mpr ⟨c, hcong, hc, hnode, hx⟩, rfl, hy, hend⟩

/-- The addresses that can be reached from the fronts of some lists, which need not be acyclic. -/
inductive Reach (front : Nat → Prop) (next : Nat → Nat) : Nat → Prop
  | front {a : Nat} : front a → a ≠ 0 → Reach front next a
  | next {a : Nat} : Reach front next a → next a ≠ 0 → Reach front next (next a)

variable {front front' : Nat → Prop}

theorem Seg.reach (h : Seg (· ≠ 0) next a l b) (ha : a ≠ 0 → Reach front next a) (hx : x ∈ l) : Reach front next x := by
  induction l generalizing a with
  | nil => simp at hx
  | cons y l ih =>
    obtain ⟨rfl, h0, hl⟩ := h
    rcases mem_cons.mp hx with rfl | hx
    · exact ha h0
    · exact ih hl (fun hn => .next (ha h0) hn) hx

/-- Links are cut, and `c` is put before what could be reached. -/
theorem Reach.push (h : Reach front' next' x) (hfront : ∀ a, front' a → a ≠ 0 → Reach front next a ∨ a = c)
    (hnext : ∀ a, a ≠ c → Reach front next a → next' a = next a ∨ next' a = 0)
    (hc : next' c ≠ 0 → Reach front next (next' c)) : Reach front next x ∨ x = c := by
  induction h with
  | front hf h0 => exact hfront _ hf h0
  | @next a _ h0 ih =>
    by_cases hac : a = c
    · subst hac
      exact .inl (hc h0)
    have ha := ih.resolve_right hac
    left
    rcases hnext a hac ha with he | he
    · rw [he] at h0 ⊢
      exact .next ha h0
    · exact absurd he h0

/-- Links are cut, and nothing is added. -/
theorem Reach.cut (h : Reach front' next' x) (hfront : ∀ a, front' a → a ≠ 0 → Reach front next a)
    (hnext : ∀ a, Reach front next a → next' a = next a ∨ next' a = 0) : Reach front next x := by
  induction h with
  | front hf h0 => exact hfront _ hf h0
  | next _ h0 ih =>
    rcases hnext _ ih with he | he
    · rw [he] at h0 ⊢
      exact .next ih h0
    · exact absurd he h0

end NyanOS.Lib
