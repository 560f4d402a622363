import NyanOS.Nyamo.Rows

/-!
# The array of rows holds the text

`row_insert` and `row_delete` shift the rows behind the line, after the array has grown if it is full.
-/
namespace NyanOS.Nyamo

open List

/-- The lines of the text. -/
def Editor.text (e : Editor) : List Line :=
  (e.rows.take e.numLines.toNat).map fun row => row.chars.take row.len.toNat

variable {m : Memory} {e e' u : Editor} {a b text : List Line} {line line' : Line} {r : ERow} {i cap : Int}

/-- The first rows hold the lines. While `rows_cap` is still 0 there is room for one row. -/
structure Editor.Holds (e : Editor) (text : List Line) : Prop where
  rows : ∃ live spare, e.rows = live ++ spare ∧ List.Forall₂ ERow.Holds live text
  numLines : e.numLines = text.length
  room : e.numLines ≤ e.rowsCap ∨ e.rowsCap = 0 ∧ e.numLines ≤ 1
  rowsCap : 0 ≤ e.rowsCap ∧ e.rowsCap ≤ e.rows.length ∧ e.rowsCap < 2 ^ 31

/-- Only the lines differ. -/
structure SameView (e e' : Editor) : Prop where
  curX : e'.curX = e.curX
  curY : e'.curY = e.curY
  softWrap : e'.softWrap = e.softWrap
  screenCols : e'.screenCols = e.screenCols

theorem SameView.trans (h : SameView e e') (h' : SameView e' u) : SameView e u :=
  ⟨h'.curX.trans h.curX, h'.curY.trans h.curY, h'.softWrap.trans h.softWrap, h'.screenCols.trans h.screenCols⟩

theorem Editor.Holds.moved (h : e.Holds text) (x y : Int) : ({ e with curX := x, curY := y } : Editor).Holds text :=
  ⟨h.rows, h.numLines, h.room, h.rowsCap⟩

theorem forall₂_split {R : ERow → Line → Prop} {live : List ERow} (h : List.Forall₂ R live (a ++ b)) :
    ∃ la lb, live = la ++ lb ∧ List.Forall₂ R la a ∧ List.Forall₂ R lb b :=
  ⟨live.take a.length, live.drop a.length, (take_append_drop _ _).symm,
    by simpa using List.forall₂_take_append live a b h, by simpa using List.forall₂_drop_append live a b h⟩

theorem Editor.Holds.row (h : e.Holds (a ++ line :: b)) (hi : i = a.length) :
    ∃ row, e.row i = .ok row ∧ row.Holds line := by
  obtain ⟨live, spare, hrows, hlive⟩ := h.rows
  obtain ⟨la, lb, rfl, ha, hb⟩ := forall₂_split hlive
  obtain ⟨row, lb, hrow, -, rfl⟩ := List.forall₂_cons_right_iff.mp hb
  refine ⟨row, ?_, hrow⟩
  have hpeek : peek e.rows i 1 = .ok [row] :=
    peek_eq (a := la) (b := lb ++ spare) (by rw [hrows]; simp) (by rw [hi, ha.length_eq]) rfl
  rw [Editor.row, hpeek, ok_bind]
  rfl

theorem Editor.Holds.setRow (h : e.Holds (a ++ line :: b)) (hi : i = a.length) (hr : r.Holds line') :
    ∃ e', e.setRow i r = .ok e' ∧ e'.Holds (a ++ line' :: b) ∧ SameView e e' := by
  obtain ⟨live, spare, hrows, hlive⟩ := h.rows
  obtain ⟨la, lb, rfl, ha, hb⟩ := forall₂_split hlive
  obtain ⟨old, lb, -, hrest, rfl⟩ := List.forall₂_cons_right_iff.mp hb
  have hpoke : poke e.rows i [r] = .ok (la ++ [r] ++ (lb ++ spare)) :=
    poke_eq (o := [old]) (by rw [hrows]; simp) (by rw [hi, ha.length_eq]) rfl
  have hlength : (la ++ [r] ++ (lb ++ spare)).length = e.rows.length := by
    rw [hrows]
    simp only [length_append, length_cons, length_nil]
    omega
  rw [Editor.setRow, hpoke, ok_bind]
  refine ⟨_, rfl, ⟨⟨la ++ r :: lb, spare, by simp, rel_append ha (.cons hr hrest)⟩, ?_, h.room, ?_⟩, rfl, rfl, rfl, rfl⟩
  · rw [h.numLines]
    simp
  · dsimp only
    rw [hlength]
    exact h.rowsCap

/-! ### The loops -/

/-- The rows `mid` move up over the row behind them; what stays in their place is overwritten next. -/
theorem shiftUp_eq {ra mid rb : List ERow} {x : ERow} (hi : i = ra.length) :
    ∃ y, shiftUp (ra ++ mid ++ x :: rb) i mid.length = .ok (ra ++ y :: (mid ++ rb)) := by
  induction mid using List.reverseRecOn generalizing x rb with
  | nil => exact ⟨x, by simp [shiftUp]⟩
  | append_singleton mid z ih =>
    obtain ⟨y, hy⟩ : ∃ y, shiftUp (ra ++ mid ++ z :: z :: rb) i mid.length = .ok (ra ++ y :: (mid ++ z :: rb)) := ih
    refine ⟨y, ?_⟩
    have hpeek : peek (ra ++ (mid ++ [z]) ++ x :: rb) (i + mid.length) 1 = .ok [z] :=
      peek_eq (a := ra ++ mid) (b := x :: rb) (by simp) (by simp [hi]) rfl
    have hpoke : poke (ra ++ (mid ++ [z]) ++ x :: rb) (i + mid.length + 1) [z] = .ok (ra ++ mid ++ [z] ++ [z] ++ rb) :=
      poke_eq (a := ra ++ mid ++ [z]) (o := [x]) (by simp) (by simp [hi]; omega) rfl
    rw [length_append, length_singleton, shiftUp, hpeek, ok_bind, hpoke, ok_bind]
    simpa using hy

theorem shiftDown_eq {ra mid rb : List ERow} {x : ERow} (hi : i = ra.length) :
    ∃ y, shiftDown (ra ++ x :: mid ++ rb) i mid.length = .ok (ra ++ mid ++ y :: rb) := by
  induction mid generalizing ra x i with
  | nil => exact ⟨x, by simp [shiftDown]⟩
  | cons z mid ih =>
    obtain ⟨y, hy⟩ : ∃ y, shiftDown (ra ++ [z] ++ z :: mid ++ rb) (i + 1) mid.length = .ok (ra ++ [z] ++ mid ++ y :: rb) :=
      ih (by simp [hi])
    refine ⟨y, ?_⟩
    have hpeek : peek (ra ++ x :: (z :: mid) ++ rb) (i + 1) 1 = .ok [z] :=
      peek_eq (a := ra ++ [x]) (b := mid ++ rb) (by simp) (by simp [hi]) rfl
    have hpoke : poke (ra ++ x :: (z :: mid) ++ rb) i [z] = .ok (ra ++ [z] ++ (z :: mid ++ rb)) :=
      poke_eq (o := [x]) (by simp) hi rfl
    rw [length_cons, shiftDown, hpeek, ok_bind, hpoke, ok_bind]
    simpa using hy

/-! ### Lines -/

theorem newRow_holds {chars : List UInt8} (hchars : ∃ x junk, chars = line ++ x :: junk)
    (hcap : cap = chars.length) (hsmall : cap < 2 ^ 31) :
    ∃ chars', poke chars line.length [0] = .ok chars' ∧ ERow.Holds ⟨chars', line.length, cap⟩ line := by
  obtain ⟨x, junk, rfl⟩ := hchars
  refine ⟨_, poke_eq (a := line) (o := [x]) (b := junk) (by simp) rfl rfl, ⟨junk, by simp⟩, rfl, ?_, hsmall⟩
  rw [hcap]
  simp

theorem newRow (m : Memory) (line : Line) (hsmall : line.length < 2 ^ 31) :
    realloc m.chars [] (int32 (line.length + rowOverhead)) = .error .allocation ∧ 2 ^ 31 ≤ line.length + rowOverhead ∨
      ∃ chars chars' chars'', realloc m.chars [] (int32 (line.length + rowOverhead)) = .ok chars ∧
        poke chars 0 line = .ok chars' ∧ poke chars' line.length [0] = .ok chars'' ∧
        ERow.Holds ⟨chars'', line.length, int32 (line.length + rowOverhead)⟩ line := by
  unfold rowOverhead
  by_cases hfits : (line.length : Int) + 0x20 < 2 ^ 31
  · rw [int32_eq (by omega) hfits]
    obtain ⟨chars, hchars, hsize⟩ :=
      realloc_grow m.chars (show (([] : List UInt8).length : Int) ≤ line.length + 0x20 by rw [length_nil]; omega)
    rw [nil_append] at hchars hsize
    obtain ⟨x, junk, hdrop⟩ := exists_cons_of_ne_nil (l := chars.drop line.length)
      (ne_nil_of_length_pos (by rw [length_drop]; omega))
    have hsplit : chars = [] ++ chars.take line.length ++ x :: junk := by
      rw [← hdrop, nil_append, take_append_drop]
    have hpoke : poke chars 0 line = .ok ([] ++ line ++ x :: junk) := poke_eq hsplit rfl (by rw [length_take]; omega)
    have hlength : ((line.length : Int) + 0x20) = ([] ++ line ++ x :: junk).length := by
      rw [hsize, hsplit]
      simp only [length_append, length_take, length_nil, length_cons]
      omega
    obtain ⟨chars'', hpoke', hrow⟩ := newRow_holds ⟨x, junk, rfl⟩ hlength hfits
    exact .inr ⟨chars, _, chars'', hchars, hpoke, hpoke', hrow⟩
  · exact .inl ⟨realloc_negative (int32_negative (by omega) (by omega)), by omega⟩

theorem Editor.Holds.grow (m : Memory) (h : e.Holds text) : growRows m e = .error .allocation ∧ 2 ^ 31 ≤ e.rowsCap * 2 ∨
      ∃ e', growRows m e = .ok e' ∧ e'.Holds text ∧ e'.numLines < e'.rowsCap ∧ e'.numLines = e.numLines ∧
        e'.rowsCap ≤ max rowOverhead (e.rowsCap * 2) ∧ SameView e e' := by
  obtain ⟨hnonneg, hle, hsmall⟩ := h.rowsCap
  have hroom := h.room
  unfold growRows
  split
  · next hfull =>
    obtain ⟨rowsCap, hcap⟩ : ∃ n, (if e.rowsCap = 0 then rowOverhead else int32 (e.rowsCap * 2)) = n := ⟨_, rfl⟩
    dsimp only
    rw [hcap]
    by_cases hfits : e.rowsCap * 2 < 2 ^ 31
    · -- the number of rows was the old capacity
      have hmore : e.numLines < rowsCap ∧ rowsCap < 2 ^ 31 ∧ rowsCap ≤ max rowOverhead (e.rowsCap * 2) := by
        unfold rowOverhead at hcap ⊢
        split at hcap
        · omega
        · rw [int32_eq (by omega) hfits] at hcap
          omega
      obtain ⟨hmore, hsmall', hcap'⟩ := hmore
      obtain ⟨live, spare, hrows, hlive⟩ := h.rows
      have hnum := h.numLines
      have hpos : ¬ rowsCap < 0 := by omega
      have hlonger : ∀ new, e.rows ++ new = live ++ (spare ++ new) := fun new => by rw [hrows, append_assoc]
      rw [realloc, if_neg hpos, ok_bind]
      refine .inr ⟨_, rfl, ⟨⟨live, _, hlonger _, hlive⟩, h.numLines, .inl hmore.le, not_lt.mp hpos, ?_, hsmall'⟩, hmore,
        rfl, hcap', rfl, rfl, rfl, rfl⟩
      dsimp only
      rw [length_append, length_map, length_range]
      omega
    · have hneg : rowsCap < 0 := by
        rw [if_neg (by omega)] at hcap
        rw [← hcap]
        exact int32_negative (by omega) (by omega)
      rw [realloc_negative hneg]
      exact .inl ⟨rfl, by omega⟩
  · next hroomy => exact .inr ⟨e, rfl, h, by omega, rfl, by omega, rfl, rfl, rfl, rfl⟩

theorem Editor.Holds.insert (h : e.Holds (a ++ b)) (hi : i = a.length) (hline : line.length < 2 ^ 31) :
    rowInsert m e i line line.length = .error .allocation ∧
        (2 ^ 31 ≤ e.rowsCap * 2 ∨ 2 ^ 31 ≤ line.length + rowOverhead) ∨
      ∃ e', rowInsert m e i line line.length = .ok e' ∧ e'.Holds (a ++ line :: b) ∧
        e'.rowsCap ≤ max rowOverhead (e.rowsCap * 2) ∧ SameView e e' := by
  have hnum := h.numLines
  rw [length_append] at hnum
  unfold rowInsert
  rw [if_neg (show ¬ (i < 0 ∨ e.numLines < i) by omega)]
  rcases h.grow m with ⟨hfail, hlarge⟩ | ⟨u, hgrow, hu, hroom, hsame, hcap, hview⟩
  · rw [hfail]
    exact .inl ⟨rfl, .inl hlarge⟩
  obtain ⟨live, spare, hrows, hlive⟩ := hu.rows
  obtain ⟨la, lb, rfl, ha, hb⟩ := forall₂_split hlive
  have hla := ha.length_eq
  have hlb := hb.length_eq
  obtain ⟨hnonneg, hle, hsmall⟩ := hu.rowsCap
  rw [hrows, length_append, length_append] at hle
  obtain ⟨x, rest, rfl⟩ := exists_cons_of_ne_nil (ne_nil_of_length_pos (show 0 < spare.length by omega))
  obtain ⟨y, hshift⟩ : ∃ y, shiftUp (la ++ lb ++ x :: rest) i lb.length = .ok (la ++ y :: (lb ++ rest)) :=
    shiftUp_eq (hi.trans (by rw [hla]))
  have hcount : (u.numLines - i).toNat = lb.length := by omega
  rw [hgrow, ok_bind, hcount, hrows, hshift, ok_bind]
  rcases newRow m line hline with ⟨hfail, hlarge⟩ | ⟨chars, chars', chars'', hnew, hpoke, hpoke', hrow⟩
  · dsimp only
    rw [hfail]
    exact .inl ⟨rfl, .inr hlarge⟩
  have hpeek : peek line 0 line.length = .ok line := peek_eq (a := []) (b := []) (by simp) rfl rfl
  have hset : poke (la ++ y :: (lb ++ rest)) i [⟨chars'', line.length, int32 (line.length + rowOverhead)⟩] =
      .ok (la ++ [⟨chars'', line.length, int32 (line.length + rowOverhead)⟩] ++ (lb ++ rest)) :=
    poke_eq (o := [y]) (by simp) (hi.trans (by rw [hla])) rfl
  dsimp only
  rw [hnew, ok_bind, hpeek, ok_bind, hpoke, ok_bind, hpoke', ok_bind, hset, ok_bind]
  refine .inr ⟨_, rfl, ⟨⟨la ++ _ :: lb, rest, by simp, rel_append ha (.cons hrow hb)⟩, ?_, ?_, hnonneg, ?_, hsmall⟩,
    hcap, hview.trans ⟨rfl, rfl, rfl, rfl⟩⟩
  · dsimp only
    rw [int32_eq (by omega) (by omega), length_append, length_cons]
    omega
  · dsimp only
    rw [int32_eq (by omega) (by omega)]
    omega
  · simp only [length_append, length_cons, length_nil] at hle ⊢
    omega

theorem Editor.Holds.delete (h : e.Holds (a ++ line :: b)) (hi : i = a.length) :
    ∃ e', rowDelete e i = .ok e' ∧ e'.Holds (a ++ b) ∧ SameView e e' := by
  obtain ⟨live, spare, hrows, hlive⟩ := h.rows
  obtain ⟨la, lb, rfl, ha, hb⟩ := forall₂_split hlive
  obtain ⟨old, lb, -, hrest, rfl⟩ := List.forall₂_cons_right_iff.mp hb
  obtain ⟨y, hshift⟩ : ∃ y, shiftDown (la ++ old :: lb ++ spare) i lb.length = .ok (la ++ lb ++ y :: spare) :=
    shiftDown_eq (hi.trans (by rw [ha.length_eq]))
  have hnum := h.numLines
  have hlb := hrest.length_eq
  simp only [length_append, length_cons] at hnum
  obtain ⟨hnonneg, hle, hsmall⟩ := h.rowsCap
  have hroom := h.room
  have hcount : (e.numLines - 1 - i).toNat = lb.length := by omega
  unfold rowDelete
  rw [if_neg (show ¬ (i < 0 ∨ e.numLines ≤ i) by omega), hcount, hrows, hshift, ok_bind]
  refine ⟨_, rfl, ⟨⟨la ++ lb, y :: spare, rfl, rel_append ha hrest⟩, ?_, ?_, hnonneg, ?_, hsmall⟩, rfl, rfl, rfl, rfl⟩
  · dsimp only
    rw [int32_eq (by omega) (by omega), length_append]
    omega
  · dsimp only
    rw [int32_eq (by omega) (by omega)]
    omega
  · rw [hrows] at hle
    simp only [length_append, length_cons] at hle ⊢
    omega

end NyanOS.Nyamo
