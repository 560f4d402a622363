import NyanOS.Nyamo.Model

/-!
# Rows hold lines

A row holds a line of text if its block begins with the line and a zero byte. Every operation on a row leaves a row that
holds the edited line, unless an allocation fails.
-/
namespace NyanOS.Nyamo

open List

abbrev Line := List UInt8

section
variable {α β γ : Type} {buf a s b o : List α} {i n : Int}

theorem ok_bind (x : β) (f : β → EditM γ) : ((Except.ok x : EditM β) >>= f) = f x := rfl

theorem peek_eq (hbuf : buf = a ++ s ++ b) (hi : i = a.length) (hn : n = s.length) : peek buf i n = .ok s := by
  subst hbuf hi hn
  rw [peek, if_pos (by simp only [length_append]; omega)]
  simp

theorem poke_eq (hbuf : buf = a ++ o ++ b) (hi : i = a.length) (hs : s.length = o.length) :
    poke buf i s = .ok (a ++ s ++ b) := by
  subst hbuf hi
  rw [poke, if_pos (by simp only [length_append]; omega), hs]
  simp

theorem realloc_grow (fresh : Nat → α) (hn : (buf.length : Int) ≤ n) :
    ∃ new, realloc fresh buf n = .ok (buf ++ new) ∧ (n : Int) = (buf ++ new).length := by
  refine ⟨_, if_neg (by omega), ?_⟩
  rw [length_append, length_map, length_range]
  omega

theorem realloc_negative {fresh : Nat → α} (hn : n < 0) : realloc fresh buf n = .error .allocation := if_pos hn

end

theorem int32_eq {n : Int} (hlo : -2 ^ 31 ≤ n) (hhi : n < 2 ^ 31) : int32 n = n := Int.bmod_eq_of_le (by omega) (by omega)

theorem int32_negative {n : Int} (hlo : 2 ^ 31 ≤ n) (hhi : n < 2 ^ 32) : int32 n < 0 := by
  rw [int32, Int.bmod_def]
  omega

structure ERow.Holds (row : ERow) (line : Line) : Prop where
  chars : ∃ junk, row.chars = line ++ 0 :: junk
  len : row.len = line.length
  cap : row.cap = row.chars.length
  small : row.cap < 2 ^ 31

namespace ERow.Holds

variable {m : Memory} {row row' other : ERow} {line pre suf line' : Line} {c : UInt8} {i : Int}

theorem len_lt (h : row.Holds line) : (line.length : Int) < row.cap := by
  obtain ⟨junk, hchars⟩ := h.chars
  rw [h.cap, hchars, length_append, length_cons]
  omega

theorem insert_writes {chars junk : List UInt8} {x : UInt8} (hchars : chars = pre ++ suf ++ 0 :: x :: junk)
    (hi : i = pre.length) : peek chars i (suf.length + 1) = .ok (suf ++ [0]) ∧
      ∃ chars', poke chars (i + 1) (suf ++ [0]) = .ok chars' ∧ poke chars' i [c] = .ok (pre ++ c :: suf ++ 0 :: junk) := by
  obtain ⟨y, old, hold⟩ : ∃ y old, suf ++ [0, x] = y :: old := exists_cons_of_ne_nil (by simp)
  have hlen : (suf ++ [0]).length = old.length := by
    have := congrArg List.length hold
    simp only [length_append, length_cons, length_nil] at this ⊢
    omega
  have hsplit : chars = (pre ++ [y]) ++ old ++ junk := by
    calc chars = pre ++ (suf ++ [0, x]) ++ junk := by rw [hchars]; simp
      _ = (pre ++ [y]) ++ old ++ junk := by rw [hold]; simp
  refine ⟨peek_eq (a := pre) (s := suf ++ [0]) (b := x :: junk) (by rw [hchars]; simp) hi (by simp), _,
    poke_eq hsplit (by simp [hi]) hlen, ?_⟩
  rw [poke_eq (a := pre) (s := [c]) (b := suf ++ [0] ++ junk) (by simp) hi (Eq.refl [y].length)]
  simp

theorem ite_bind [Decidable p] {x y : Except Fault α} {f : α → Except Fault β} :
    (if p then x >>= f else y >>= f) = (if p then x else y) >>= f := by
  split <;> rfl

/-- The block of a row that needs more than `need` bytes, and grows to `new` if it is smaller. -/
theorem grown (h : row.Holds line) (need new : Int) (hnew : row.cap ≤ need → need < new ∧ new < 2 ^ 32) :
    let cap := if row.cap ≤ need then int32 new else row.cap
    let block := if row.cap ≤ need then realloc m.chars row.chars cap else .ok row.chars
    block = .error .allocation ∨ ∃ rest, block = .ok (line ++ 0 :: rest) ∧
      cap = (line ++ 0 :: rest).length ∧ need < cap ∧ cap < 2 ^ 31 := by
  intro cap block
  dsimp only [cap, block]
  have hlt := h.len_lt
  have hcap := h.cap
  obtain ⟨junk, hchars⟩ := h.chars
  by_cases hgrow : row.cap ≤ need
  · obtain ⟨hlarge, hlimit⟩ := hnew hgrow
    rw [if_pos hgrow, if_pos hgrow]
    by_cases hfits : new < 2 ^ 31
    · obtain ⟨more, hmore, hsize⟩ := realloc_grow m.chars (show (row.chars.length : Int) ≤ new by omega)
      rw [int32_eq (by omega) hfits, hmore, hchars, append_assoc, cons_append]
      rw [hchars, append_assoc, cons_append] at hsize
      exact .inr ⟨junk ++ more, rfl, hsize, hlarge, hfits⟩
    · rw [realloc_negative (int32_negative (by omega) hlimit)]
      exact .inl rfl
  · rw [if_neg hgrow, if_neg hgrow]
    exact .inr ⟨junk, congrArg _ hchars, hcap.trans (by rw [hchars]), by omega, h.small⟩

theorem insertChar (h : row.Holds (pre ++ suf)) (hi : i = pre.length) : rowInsertChar m row i c = .error .allocation ∨
      ∃ row', rowInsertChar m row i c = .ok row' ∧ row'.Holds (pre ++ c :: suf) := by
  have hlt := h.len_lt
  have hsmall := h.small
  have hlen := h.len
  rw [length_append] at hlt hlen
  have htail : int32 (row.len - i + 1) = suf.length + 1 := (int32_eq (by omega) (by omega)).trans (by omega)
  unfold rowInsertChar
  dsimp only
  rw [if_neg (show ¬ (i < 0 ∨ row.len < i) by omega), int32_eq (n := row.len + 1) (by omega) (by omega), htail, ite_bind]
  rcases h.grown (m := m) (row.len + 1) (row.cap * 2) (by omega) with hfail | ⟨rest, hblock, hcap, hneed, hcap'⟩
  · rw [hfail]
    exact .inl rfl
  generalize (if row.cap ≤ row.len + 1 then int32 (row.cap * 2) else row.cap) = cap at *
  simp only [length_append, length_cons] at hcap
  obtain ⟨x, rest, rfl⟩ := exists_cons_of_ne_nil (ne_nil_of_length_pos (show 0 < rest.length by omega))
  obtain ⟨hpeek, chars', hpoke, hpoke'⟩ := insert_writes (c := c) rfl hi
  rw [hblock, ok_bind, hpeek, ok_bind, hpoke, ok_bind, hpoke', ok_bind]
  rw [length_cons] at hcap
  refine .inr ⟨_, rfl, ⟨rest, rfl⟩, ?_, ?_, hcap'⟩
  · simp only [length_append, length_cons]
    omega
  · simp only [length_append, length_cons]
    omega

theorem delChar (h : row.Holds (pre ++ c :: suf)) (hi : i = pre.length) :
    ∃ row', rowDelChar row i = .ok row' ∧ row'.Holds (pre ++ suf) := by
  have hlt := h.len_lt
  have hsmall := h.small
  have hlen := h.len
  have hcap := h.cap
  obtain ⟨junk, hchars⟩ := h.chars
  rw [length_append, length_cons] at hlt hlen
  have htail : int32 (row.len - i) = suf.length + 1 := (int32_eq (by omega) (by omega)).trans (by omega)
  have hpeek : peek row.chars (i + 1) (suf.length + 1) = .ok (suf ++ [0]) :=
    peek_eq (a := pre ++ [c]) (b := junk) (by rw [hchars]; simp) (by simp [hi]) (by simp)
  -- the bytes that are overwritten end one before the zero
  obtain ⟨old, z, hold⟩ : ∃ old z, c :: suf ++ [0] = old ++ [z] := ⟨c :: suf, 0, rfl⟩
  have holdlen : (suf ++ [0]).length = old.length := by
    have := congrArg List.length hold
    simp only [length_append, length_cons, length_nil] at this ⊢
    omega
  have hpoke : poke row.chars i (suf ++ [0]) = .ok (pre ++ (suf ++ [0]) ++ (z :: junk)) := by
    refine poke_eq (o := old) ?_ hi holdlen
    calc row.chars = pre ++ (c :: suf ++ [0]) ++ junk := by rw [hchars]; simp
      _ = pre ++ old ++ (z :: junk) := by rw [hold]; simp
  unfold rowDelChar
  rw [if_neg (show ¬ (i < 0 ∨ row.len ≤ i) by omega), htail, hpeek, ok_bind, hpoke, ok_bind]
  refine ⟨_, rfl, ⟨z :: junk, by simp⟩, ?_, ?_, hsmall⟩
  · dsimp only
    rw [int32_eq (by omega) (by omega), length_append]
    omega
  · rw [hcap, hchars]
    simp only [length_append, length_cons, length_nil]

theorem appendStr (h : row.Holds line) (h' : other.Holds line')
    (hsum : line.length + line'.length + 1 < 2 ^ 31) : rowAppendStr m row other.chars other.len = .error .allocation ∨
      ∃ row', rowAppendStr m row other.chars other.len = .ok row' ∧ row'.Holds (line ++ line') := by
  have hlt := h.len_lt
  have hsmall := h.small
  have hlen := h.len
  have hlen' := h'.len
  obtain ⟨junk', hchars'⟩ := h'.chars
  have hpeek : peek other.chars 0 other.len = .ok line' :=
    peek_eq (a := []) (b := 0 :: junk') (by rw [hchars']; simp) (by simp) hlen'
  unfold rowAppendStr
  dsimp only
  rw [int32_eq (n := row.len + other.len + 1) (by omega) (by omega), int32_eq (n := row.len + other.len) (by omega) (by omega)]
  simp only [decide_eq_true_eq]
  rw [ite_bind]
  rcases h.grown (m := m) (row.len + other.len + 1) (row.len + other.len + 32) (by omega) with
    hfail | ⟨rest, hblock, hcap, hneed, hcap'⟩
  · rw [hfail]
    exact .inl rfl
  generalize (if row.cap ≤ row.len + other.len + 1 then int32 (row.len + other.len + 32) else row.cap) = cap at *
  simp only [length_append, length_cons] at hcap
  -- the line goes over the old zero
  obtain ⟨x, junk, hdrop⟩ := exists_cons_of_ne_nil (l := (0 :: rest).drop line'.length)
    (ne_nil_of_length_pos (by rw [length_drop, length_cons]; omega))
  have hsplit : line ++ 0 :: rest = line ++ (0 :: rest).take line'.length ++ x :: junk := by
    rw [← hdrop, append_assoc, take_append_drop]
  have hsize := congrArg List.length hsplit
  have hpoke : poke (line ++ 0 :: rest) row.len line' = .ok (line ++ line' ++ x :: junk) :=
    poke_eq hsplit hlen (by rw [length_take, length_cons]; omega)
  have hpoke' : poke (line ++ line' ++ x :: junk) (row.len + other.len) [0] = .ok (line ++ line' ++ [0] ++ junk) :=
    poke_eq (o := [x]) (by simp) (by rw [length_append]; omega) rfl
  rw [hblock, ok_bind, hpeek, ok_bind, hpoke, ok_bind, hpoke', ok_bind]
  simp only [length_append, length_cons, length_take] at hsize
  refine .inr ⟨_, rfl, ⟨junk, by simp⟩, ?_, ?_, hcap'⟩
  · dsimp only
    rw [length_append]
    omega
  · simp only [length_append, length_cons, length_nil]
    omega

end ERow.Holds

end NyanOS.Nyamo
