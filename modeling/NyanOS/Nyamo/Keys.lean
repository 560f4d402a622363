import NyanOS.Lib.Run
import NyanOS.Nyamo.Lines

/-!
# Keys edit the text

The cursor splits the text into the lines above, the two parts of its line, and the lines below. Each key moves the split
or changes the text there.
-/
namespace NyanOS.Nyamo

open Lib List Option Int

variable {m : Memory} {e e' e₀ : Editor} {above below text lines : List Line} {pre suf line : Line} {c d : UInt8} {k : Key} {y cols : Int}

/-! ### What the keys are for -/

/-- The text after a key, with the cursor at column `x` of line `y`. -/
def editText (c : UInt8) (text : List Line) (y x : Nat) : List Line :=
  let line := text.getD y []
  if c = 0x08 ∨ c = 0x7F then
    if 0 < x then text.set y (line.eraseIdx (x - 1))
    else if 0 < y then text.take (y - 1) ++ (text.getD (y - 1) [] ++ line) :: text.drop (y + 1)
    else text
  else if c = 0x0D ∨ c = 0x0A then text.take y ++ line.take x :: line.drop x :: text.drop (y + 1)
  else if 32 ≤ c ∧ c ≤ 126 then text.set y (line.insertIdx x c)
  else text

section
variable (above below) (pre suf : Line)

theorem editText_delete (hc : c = 0x08 ∨ c = 0x7F) (d : UInt8) :
    editText c (above ++ (pre ++ [d] ++ suf) :: below) above.length (pre ++ [d]).length =
      above ++ (pre ++ suf) :: below := by
  simp [editText, hc, eraseIdx_append_of_length_le]

theorem editText_join (hc : c = 0x08 ∨ c = 0x7F) (line : Line) :
    editText c (above ++ [line] ++ ([] ++ suf) :: below) (above ++ [line]).length ([] : Line).length =
      above ++ (line ++ suf) :: below := by
  have hdrop : drop (above.length + 1 + 1) (above ++ line :: suf :: below) = below := by
    rw [drop_append, drop_eq_nil_of_le (by omega), show above.length + 1 + 1 - above.length = 2 by omega]
    rfl
  simp [editText, hc, hdrop]

theorem editText_start (hc : c = 0x08 ∨ c = 0x7F) :
    editText c ([] ++ ([] ++ suf) :: below) ([] : List Line).length ([] : Line).length = suf :: below := by
  simp [editText, hc]

theorem editText_split (hc : c = 0x0D ∨ c = 0x0A) :
    editText c (above ++ (pre ++ suf) :: below) above.length pre.length = above ++ pre :: suf :: below := by
  rcases hc with rfl | rfl <;> simp [editText]

theorem editText_insert (hlo : 32 ≤ c) (hhi : c ≤ 126) :
    editText c (above ++ (pre ++ suf) :: below) above.length pre.length = above ++ (pre ++ c :: suf) :: below := by
  have hdelete : ¬ (c = 0x08 ∨ c = 0x7F) := by
    rintro (rfl | rfl)
    · exact absurd hlo (by decide)
    · exact absurd hhi (by decide)
  have hsplit : ¬ (c = 0x0D ∨ c = 0x0A) := by
    rintro (rfl | rfl) <;> exact absurd hlo (by decide)
  have hinsert : (pre ++ suf).insertIdx pre.length c = pre ++ c :: suf := by
    induction pre with
    | nil => rfl
    | cons a pre ih => rw [cons_append, length_cons, insertIdx_succ_cons, ih, cons_append]
  rw [editText, if_neg hdelete, if_neg hsplit, if_pos ⟨hlo, hhi⟩]
  simp [hinsert]

end

/-! ### Keys that change the text -/

structure Editor.At (e : Editor) (above : List Line) (pre suf : Line) (below : List Line) : Prop where
  holds : e.Holds (above ++ (pre ++ suf) :: below)
  y : e.curY = above.length
  x : e.curX = pre.length
  cols : 10 ≤ e.screenCols

namespace Editor.At

theorem backspaceChar (h : e.At above (pre ++ [d]) suf below) :
    ∃ e', backspace m e = .ok e' ∧ e'.At above pre suf below := by
  have hx := h.x
  rw [length_append, length_singleton] at hx
  obtain ⟨row, hrow, hholds⟩ := h.holds.row h.y
  rw [append_assoc, singleton_append] at hholds
  obtain ⟨row', hdel, hholds'⟩ := hholds.delChar (show e.curX - 1 = pre.length by omega)
  obtain ⟨u, hset, hu, hview⟩ := h.holds.setRow h.y hholds'
  unfold backspace
  rw [if_pos (by omega), hrow, ok_bind, hdel, ok_bind, hset, ok_bind]
  refine ⟨_, rfl, hu.moved .., hview.curY.trans h.y, ?_, hview.screenCols.symm ▸ h.cols⟩
  dsimp only
  rw [hview.curX]
  omega

theorem rowsToJoin (h : e.At (above ++ [line]) [] suf below) : ∃ prev row, e.row (e.curY - 1) = .ok prev ∧
    e.row e.curY = .ok row ∧ prev.Holds line ∧ row.Holds suf ∧ backspace m e = (do
      let joined ← rowAppendStr m prev row.chars row.len
      let e ← e.setRow (e.curY - 1) joined
      let e ← rowDelete e e.curY
      return { e with curY := e.curY - 1, curX := prev.len }) := by
  have hx := h.x
  have hy := h.y
  rw [length_append, length_singleton] at hy
  rw [length_nil] at hx
  have hheld : e.Holds (above ++ line :: suf :: below) := by simpa using h.holds
  have hheld' : e.Holds ((above ++ [line]) ++ suf :: below) := by simpa using h.holds
  obtain ⟨prev, hprev, hline⟩ := hheld.row (show e.curY - 1 = above.length by omega)
  obtain ⟨row, hrow, hsuf⟩ := hheld'.row h.y
  refine ⟨prev, row, hprev, hrow, hline, hsuf, ?_⟩
  unfold backspace
  rw [if_neg (by omega), if_pos (by omega), hprev, ok_bind, hrow, ok_bind]

theorem backspaceJoin (h : e.At (above ++ [line]) [] suf below) (hsum : line.length + suf.length + 1 < 2 ^ 31) :
    backspace m e = .error .allocation ∨ ∃ e', backspace m e = .ok e' ∧ e'.At above line suf below := by
  have hy := h.y
  rw [length_append, length_singleton] at hy
  have hheld : e.Holds (above ++ line :: suf :: below) := by simpa using h.holds
  obtain ⟨prev, row, hprev, hrow, hline, hsuf, hback⟩ := h.rowsToJoin (m := m)
  rw [hback]
  rcases hline.appendStr (m := m) hsuf hsum with hfail | ⟨joined, hjoin, hjoined⟩
  · rw [hfail]
    exact .inl rfl
  obtain ⟨u, hset, hu, hview⟩ := hheld.setRow (show e.curY - 1 = above.length by omega) hjoined
  have hu' : u.Holds ((above ++ [line ++ suf]) ++ suf :: below) := by simpa using hu
  obtain ⟨w, hdelete, hw, hview'⟩ := hu'.delete (show u.curY = (above ++ [line ++ suf]).length by
    rw [hview.curY, h.y]; simp)
  rw [hjoin, ok_bind, hset, ok_bind, hdelete, ok_bind]
  have hw' : w.Holds (above ++ (line ++ suf) :: below) := by simpa using hw
  refine .inr ⟨_, rfl, hw'.moved .., ?_, hline.len, (hview.trans hview').screenCols.symm ▸ h.cols⟩
  dsimp only
  rw [hview'.curY, hview.curY]
  omega

theorem backspaceStart (h : e.At [] [] suf below) : backspace m e = .ok e := by
  have hx := h.x
  have hy := h.y
  rw [length_nil] at hx hy
  unfold backspace
  rw [if_neg (by omega), if_neg (by omega)]
  rfl

theorem printable (h : e.At above pre suf below) : printable m e c = .error .allocation ∨
      ∃ e', printable m e c = .ok e' ∧ e'.At above (pre ++ [c]) suf below := by
  obtain ⟨row, hrow, hholds⟩ := h.holds.row h.y
  unfold Nyamo.printable
  rw [hrow, ok_bind]
  rcases hholds.insertChar (m := m) (c := c) h.x with hfail | ⟨row', hinsert, hholds'⟩
  · rw [hfail]
    exact .inl rfl
  obtain ⟨u, hset, hu, hview⟩ := h.holds.setRow h.y hholds'
  have hu' : u.Holds (above ++ (pre ++ [c] ++ suf) :: below) := by simpa using hu
  rw [hinsert, ok_bind, hset, ok_bind]
  refine .inr ⟨_, rfl, hu'.moved .., hview.curY.trans h.y, ?_, hview.screenCols.symm ▸ h.cols⟩
  dsimp only
  rw [hview.curX, h.x, length_append, length_singleton]
  rfl

theorem truncate {row : ERow} (h : row.Holds (pre ++ suf)) :
    ∃ chars, poke row.chars pre.length [0] = .ok chars ∧ ERow.Holds { row with chars := chars, len := pre.length } pre := by
  obtain ⟨junk, hchars⟩ := h.chars
  obtain ⟨x, rest, hrest⟩ : ∃ x rest, suf ++ 0 :: junk = x :: rest := exists_cons_of_ne_nil (by simp)
  refine newRow_holds ⟨x, rest, ?_⟩ h.cap h.small
  rw [hchars, append_assoc, hrest]

theorem enter (h : e.At above pre suf below) :
    enter m e = .error .allocation ∨ ∃ e', enter m e = .ok e' ∧ e'.At (above ++ [pre]) [] suf below := by
  have hx := h.x
  have hy := h.y
  obtain ⟨row, hrow, hholds⟩ := h.holds.row h.y
  have hlt := hholds.len_lt
  have hsmall := hholds.small
  have hlen := hholds.len
  obtain ⟨junk, hchars⟩ := hholds.chars
  rw [length_append] at hlt hlen
  have hrest : row.len - e.curX = suf.length := by omega
  have hpeek : peek row.chars e.curX suf.length = .ok suf := peek_eq (a := pre) (b := 0 :: junk) hchars hx rfl
  have hheld : e.Holds ((above ++ [pre ++ suf]) ++ below) := by simpa using h.holds
  unfold Nyamo.enter
  rw [hrow, ok_bind, hrest, hpeek, ok_bind]
  have hafter : e.curY + 1 = (above ++ [pre ++ suf]).length := by
    rw [hy, length_append, length_singleton]
    rfl
  have hsuf : suf.length < 2 ^ 31 := by omega
  rcases hheld.insert (m := m) hafter hsuf with ⟨hfail, -⟩ | ⟨u, hinsert, hu, -, hview⟩
  · rw [hfail]
    exact .inl rfl
  have hu' : u.Holds (above ++ (pre ++ suf) :: suf :: below) := by simpa using hu
  obtain ⟨row', hrow', hholds'⟩ := hu'.row (hview.curY.trans hy)
  obtain ⟨chars, hpoke, hcut⟩ := truncate hholds'
  obtain ⟨w, hset, hw, hview'⟩ := hu'.setRow (hview.curY.trans hy) hcut
  rw [hinsert, ok_bind, hrow', ok_bind, hview.curX, hx, hpoke, ok_bind, hset, ok_bind]
  have hw' : w.Holds ((above ++ [pre]) ++ ([] ++ suf) :: below) := by simpa using hw
  refine .inr ⟨_, rfl, hw'.moved .., ?_, rfl, (hview.trans hview').screenCols.symm ▸ h.cols⟩
  dsimp only
  rw [hview'.curY, hview.curY, hy]
  simp

end Editor.At

/-! ### Keys that move the cursor -/

/-- The cursor is in a line, but may stand behind its end. -/
structure Editor.Loose (e : Editor) (text : List Line) : Prop where
  holds : e.Holds text
  y : 0 ≤ e.curY ∧ e.curY < text.length
  x : 0 ≤ e.curX
  cols : 10 ≤ e.screenCols

theorem Editor.Holds.rowAt (h : e.Holds text) (hy : 0 ≤ y ∧ y < text.length) :
    ∃ above line below row, text = above ++ line :: below ∧ y = above.length ∧ e.row y = .ok row ∧ row.Holds line := by
  have hlt : y.toNat < text.length := by omega
  have hsplit : text = text.take y.toNat ++ text[y.toNat] :: text.drop (y.toNat + 1) := by
    rw [← drop_eq_getElem_cons hlt, take_append_drop]
  have hlength : y = (text.take y.toNat).length := by
    rw [length_take]
    omega
  obtain ⟨row, hrow, hholds⟩ := (hsplit ▸ h : e.Holds (text.take y.toNat ++ text[y.toNat] :: text.drop (y.toNat + 1))).row hlength
  exact ⟨_, _, _, row, hsplit, hlength, hrow, hholds⟩

theorem Editor.Loose.move (h : e.Loose text) {x y : Int} (hy : 0 ≤ y ∧ y < text.length) (hx : 0 ≤ x) :
    ({ e with curX := x, curY := y } : Editor).Loose text :=
  ⟨h.holds.moved .., hy, hx, h.cols⟩

theorem Editor.At.loose (h : e.At above pre suf below) : e.Loose (above ++ (pre ++ suf) :: below) := by
  refine ⟨h.holds, ?_, ?_, h.cols⟩
  · rw [h.y, length_append, length_cons]
    omega
  · rw [h.x]
    omega

theorem Editor.Loose.clampX (h : e.Loose text) :
    ∃ e' above pre suf below, clampX e = .ok e' ∧ text = above ++ (pre ++ suf) :: below ∧ e'.At above pre suf below := by
  obtain ⟨above, line, below, row, rfl, hy, hrow, hholds⟩ := h.holds.rowAt h.y
  have hlen := hholds.len
  have hx := h.x
  unfold Nyamo.clampX
  rw [hrow, ok_bind]
  refine ⟨_, above, line.take e.curX.toNat, line.drop e.curX.toNat, below, rfl, ?_, ⟨?_, hy, ?_, h.cols⟩⟩
  · rw [take_append_drop]
  · rw [take_append_drop]
    exact h.holds.moved ..
  · rw [length_take]
    dsimp only
    split <;> omega

section
variable (h : e.Loose text) (hfits : ∀ line ∈ text, line.length + e.screenCols ≤ 2 ^ 31)
include h

theorem Editor.Loose.left : ∃ e', left e = .ok e' ∧ e'.Loose text := by
  have hx := h.x
  have hy := h.y
  unfold Nyamo.left
  split
  · exact ⟨_, rfl, h.move hy (by omega)⟩
  split
  · obtain ⟨_, _, _, row, _, _, hrow, hholds⟩ := h.holds.rowAt (y := e.curY - 1) (by omega)
    rw [hrow, ok_bind]
    exact ⟨_, rfl, h.move (by omega) (by rw [hholds.len]; omega)⟩
  · exact ⟨e, rfl, h⟩

theorem Editor.Loose.right : ∃ e', right e = .ok e' ∧ e'.Loose text := by
  have hx := h.x
  have hy := h.y
  have hnum := h.holds.numLines
  obtain ⟨_, _, _, row, _, _, hrow, _⟩ := h.holds.rowAt h.y
  unfold Nyamo.right
  rw [hrow, ok_bind]
  split
  · exact ⟨_, rfl, h.move hy (by omega)⟩
  split
  · exact ⟨_, rfl, h.move (by omega) le_rfl⟩
  · exact ⟨e, rfl, h⟩

include hfits

theorem Editor.Loose.up : ∃ e', up e = .ok e' ∧ e'.Loose text := by
  have hx := h.x
  have hy := h.y
  have hcols := h.cols
  unfold Nyamo.up
  split
  · dsimp only
    split
    · next hrow =>
      -- a column in the second visual row or later is one more than the width at least
      have hwide : e.screenCols - 1 ≤ e.curX := by
        by_contra hlt
        rw [Int.ediv_eq_zero_of_lt hx (by omega)] at hrow
        omega
      exact ⟨_, rfl, h.move hy (by omega)⟩
    · split
      · obtain ⟨_, line, _, row, rfl, _, hrow, hholds⟩ := h.holds.rowAt (y := e.curY - 1) (by omega)
        have hlen := hholds.len
        have hshort := hfits line (by simp)
        have hmod := Int.emod_nonneg e.curX (show e.screenCols - 1 ≠ 0 by omega)
        have hmod' := Int.emod_lt_of_pos e.curX (show 0 < e.screenCols - 1 by omega)
        have hdiv := Int.ediv_mul_le row.len (show e.screenCols - 1 ≠ 0 by omega)
        have hdiv' : 0 ≤ row.len / (e.screenCols - 1) * (e.screenCols - 1) :=
          mul_nonneg (Int.ediv_nonneg (by omega) (by omega)) (by omega)
        rw [hrow, ok_bind, int32_eq (by omega) (by omega)]
        refine ⟨_, rfl, h.move (by omega) ?_⟩
        split <;> omega
      · exact ⟨e, rfl, h⟩
  · split
    · exact ⟨_, rfl, h.move (by omega) hx⟩
    · exact ⟨e, rfl, h⟩

theorem Editor.Loose.down (hbehind : ∀ row, e.row e.curY = .ok row → e.curX ≤ row.len) :
    ∃ e', down e = .ok e' ∧ e'.Loose text := by
  have hx := h.x
  have hy := h.y
  have hcols := h.cols
  have hnum := h.holds.numLines
  have hmod := emod_nonneg e.curX (show e.screenCols - 1 ≠ 0 by omega)
  unfold Nyamo.down
  split
  · obtain ⟨_, line, _, row, heq, _, hrow, hholds⟩ := h.holds.rowAt h.y
    have hlen := hholds.len
    have hshort := hfits line (by rw [heq]; simp)
    have hle := hbehind row hrow
    rw [hrow, ok_bind]
    dsimp only
    split
    · rw [int32_eq (by omega) (by omega)]
      refine ⟨_, rfl, h.move hy ?_⟩
      split <;> omega
    split
    · obtain ⟨_, line', _, row', _, _, hrow', hholds'⟩ := h.holds.rowAt (y := e.curY + 1) (by omega)
      have hlen' := hholds'.len
      rw [hrow', ok_bind]
      refine ⟨_, rfl, h.move (by omega) ?_⟩
      split <;> omega
    · exact ⟨e, rfl, h⟩
  · split
    · exact ⟨_, rfl, h.move (by omega) hx⟩
    · exact ⟨e, rfl, h⟩

end

theorem Editor.At.arrow (h : e.At above pre suf below)
    (hfits : ∀ line ∈ above ++ (pre ++ suf) :: below, line.length + e.screenCols ≤ 2 ^ 31) :
    ∃ e' above' pre' suf' below', arrow e c = .ok e' ∧
      above ++ (pre ++ suf) :: below = above' ++ (pre' ++ suf') :: below' ∧ e'.At above' pre' suf' below' := by
  have hbehind : ∀ row, e.row e.curY = .ok row → e.curX ≤ row.len := by
    intro row hrow
    obtain ⟨row', hrow', hholds⟩ := h.holds.row h.y
    obtain rfl : row' = row := Except.ok.inj (hrow'.symm.trans hrow)
    rw [hholds.len, h.x, length_append]
    omega
  have hmoved : ∃ e', moveCursor e c = .ok e' ∧ e'.Loose (above ++ (pre ++ suf) :: below) := by
    unfold moveCursor
    split
    · exact h.loose.up hfits
    split
    · exact h.loose.down hfits hbehind
    split
    · exact h.loose.right
    split
    · exact h.loose.left
    · exact ⟨e, rfl, h.loose⟩
  obtain ⟨u, hmove, hu⟩ := hmoved
  obtain ⟨w, above', pre', suf', below', hclamp, heq, hw⟩ := hu.clampX
  exact ⟨w, above', pre', suf', below', by unfold Nyamo.arrow; rw [hmove, ok_bind, hclamp], heq, hw⟩

/-! ### Runs -/

/-- The cursor is in the text, and every row ends with a zero inside of its block. -/
structure Editor.Ok (e : Editor) : Prop where
  y : 0 ≤ e.curY ∧ e.curY < e.numLines
  x : ∃ row, e.rows[e.curY.toNat]? = some row ∧ 0 ≤ e.curX ∧ e.curX ≤ row.len
  rows : ∀ row ∈ e.rows.take e.numLines.toNat, 0 ≤ row.len ∧ row.len < row.cap ∧ row.cap = row.chars.length ∧
    row.chars[row.len.toNat]? = some 0

theorem Editor.Holds.live (h : e.Holds text) : List.Forall₂ ERow.Holds (e.rows.take e.numLines.toNat) text := by
  obtain ⟨live, spare, hrows, hlive⟩ := h.rows
  have hlength : e.numLines.toNat = live.length := by
    rw [h.numLines, toNat_natCast, hlive.length_eq]
  rwa [hrows, hlength, take_left]

theorem Editor.Holds.text_eq (h : e.Holds text) : e.text = text := by
  have hlive := h.live
  unfold Editor.text
  generalize e.rows.take e.numLines.toNat = live at hlive
  clear h
  induction hlive with
  | nil => rfl
  | @cons row line rows lines hrow _ ih =>
    obtain ⟨junk, hchars⟩ := hrow.chars
    rw [map_cons, ih, hrow.len, hchars, toNat_natCast, take_left]

theorem Editor.At.ok (h : e.At above pre suf below) : e.Ok := by
  have hnum := h.holds.numLines
  have hy := h.y
  rw [length_append, length_cons] at hnum
  refine ⟨by omega, ?_, fun row hrow => ?_⟩
  · obtain ⟨live, spare, hrows, hlive⟩ := h.holds.rows
    obtain ⟨la, lb, rfl, ha, hb⟩ := forall₂_split hlive
    obtain ⟨row, lb, hrow, -, rfl⟩ := forall₂_cons_right_iff.mp hb
    refine ⟨row, ?_, ?_, ?_⟩
    · rw [hrows, hy, toNat_natCast, ← ha.length_eq, append_assoc]
      simp
    · rw [h.x]
      omega
    · rw [h.x, hrow.len, length_append]
      omega
  · obtain ⟨line, -, hholds⟩ : ∃ line ∈ above ++ (pre ++ suf) :: below, row.Holds line := by
      obtain ⟨i, hi, rfl⟩ := mem_iff_getElem.mp hrow
      have hi' : i < (above ++ (pre ++ suf) :: below).length := h.holds.live.length_eq ▸ hi
      exact ⟨_, getElem_mem hi', h.holds.live.get hi hi'⟩
    obtain ⟨junk, hchars⟩ := hholds.chars
    refine ⟨by rw [hholds.len]; omega, by rw [hholds.len]; exact hholds.len_lt, hholds.cap, ?_⟩
    rw [hholds.len, hchars, toNat_natCast]
    simp

/-- The key leaves all lines shorter than what an `int` can count, with the width of the screen to spare. -/
def Fits (e : Editor) (k : Key) : Prop :=
  ∀ line ∈ editText k.c e.text e.curY.toNat e.curX.toNat, line.length + e.screenCols ≤ 2 ^ 31

/-- A cursor in a text that is as a key should leave it. -/
def Edited (e e' : Editor) (c : UInt8) : Prop :=
  ∃ above pre suf below, e'.At above pre suf below ∧
    above ++ (pre ++ suf) :: below = editText c e.text e.curY.toNat e.curX.toNat

theorem editText_other (hdelete : ¬ (c = 0x08 ∨ c = 0x7F)) (hsplit : ¬ (c = 0x0D ∨ c = 0x0A))
    (hinsert : ¬ (32 ≤ c ∧ c ≤ 126)) (x y : Nat) : editText c text y x = text := by
  rw [editText, if_neg hdelete, if_neg hsplit, if_neg hinsert]

namespace Editor.At

section
variable (h : e.At above pre suf below)
include h

theorem text_eq : e.text = above ++ (pre ++ suf) :: below := h.holds.text_eq

theorem editText_eq (c : UInt8) : editText c e.text e.curY.toNat e.curX.toNat =
    editText c (above ++ (pre ++ suf) :: below) above.length pre.length := by
  rw [h.text_eq, h.y, h.x, toNat_natCast, toNat_natCast]

theorem backspaceKey (hc : k.c = 0x08 ∨ k.c = 0x7F) (hfits : Fits e k) :
    backspace m e = .error .allocation ∨ ∃ e', backspace m e = .ok e' ∧ Edited e e' k.c := by
  unfold Fits at hfits
  unfold Edited
  have hcols := h.cols
  rw [h.editText_eq] at hfits
  simp only [h.editText_eq]
  induction pre using reverseRecOn with
  | append_singleton pre d _ =>
    obtain ⟨e', he, hat⟩ := h.backspaceChar (m := m)
    exact .inr ⟨e', he, above, pre, suf, below, hat, (editText_delete above below pre suf hc d).symm⟩
  | nil =>
    induction above using reverseRecOn with
    | append_singleton above line _ =>
      rw [editText_join above below suf hc line] at hfits
      have hshort := hfits (line ++ suf) (by simp)
      rw [length_append] at hshort
      rcases h.backspaceJoin (m := m) (by omega) with hfail | ⟨e', he, hat⟩
      · exact .inl hfail
      · exact .inr ⟨e', he, above, line, suf, below, hat, (editText_join above below suf hc line).symm⟩
    | nil => exact .inr ⟨e, h.backspaceStart, [], [], suf, below, h, (editText_start below suf hc).symm⟩

/-- Every key keeps the cursor in the text and changes the text as it should, unless an allocation fails. -/
theorem key (hfits : Fits e k) : key e k = .error .allocation ∨ ∃ e', key e k = .ok e' ∧ Edited e e' k.c := by
  -- a key that only changes the view
  have hview : ∀ u : Editor, u.At above pre suf below → ¬ (k.c = 0x08 ∨ k.c = 0x7F) → ¬ (k.c = 0x0D ∨ k.c = 0x0A) →
      ¬ (32 ≤ k.c ∧ k.c ≤ 126) → Edited e u k.c := fun u hu hdelete hsplit hinsert =>
    ⟨above, pre, suf, below, hu, by rw [editText_other hdelete hsplit hinsert, h.text_eq]⟩
  have hsame : ∀ u : Editor, u.rows = e.rows → u.numLines = e.numLines → u.rowsCap = e.rowsCap → u.curX = e.curX →
      u.curY = e.curY → 10 ≤ u.screenCols → u.At above pre suf below := by
    intro u hrows hnum hcap hx hy hcols
    refine ⟨⟨hrows ▸ h.holds.rows, hnum ▸ h.holds.numLines, ?_, ?_⟩, hy.trans h.y, hx.trans h.x, hcols⟩
    · rw [hnum, hcap]
      exact h.holds.room
    · rw [hcap, hrows]
      exact h.holds.rowsCap
  unfold Nyamo.key
  split
  · next hc => exact .inr ⟨e, rfl, hview e h (by rw [hc]; decide) (by rw [hc]; decide) (by rw [hc]; decide)⟩
  split
  · next hc =>
    refine .inr ⟨_, rfl, hview _ (hsame _ rfl rfl rfl rfl rfl ?_) (by rw [hc]; decide) (by rw [hc]; decide) (by rw [hc]; decide)⟩
    exact le_max_left _ _
  split
  · next hc =>
    exact .inr ⟨_, rfl, hview _ (hsame _ rfl rfl rfl rfl rfl h.cols) (by rw [hc]; decide) (by rw [hc]; decide)
      (by rw [hc]; decide)⟩
  split
  · next hc => exact h.backspaceKey hc hfits
  next hdelete =>
  split
  · next hc =>
    rcases h.enter (m := k.memory) with hfail | ⟨e', he, hat⟩
    · exact .inl hfail
    refine .inr ⟨e', he, above ++ [pre], [], suf, below, hat, ?_⟩
    rw [h.editText_eq, editText_split above below pre suf hc]
    simp
  next hsplit =>
  split
  · next hc =>
    rcases h.printable (m := k.memory) (c := k.c) with hfail | ⟨e', he, hat⟩
    · exact .inl hfail
    refine .inr ⟨e', he, above, pre ++ [k.c], suf, below, hat, ?_⟩
    rw [h.editText_eq, editText_insert above below pre suf hc.1 hc.2]
    simp
  next hinsert =>
  have hunchanged : Edited e e k.c := hview e h hdelete hsplit hinsert
  split
  · split
    · next s0 s1 _ _ =>
      split
      · unfold Fits at hfits
        rw [editText_other hdelete hsplit hinsert, h.text_eq] at hfits
        obtain ⟨e', above', pre', suf', below', he, heq, hat⟩ := h.arrow (c := s1) hfits
        refine .inr ⟨e', he, above', pre', suf', below', hat, ?_⟩
        rw [editText_other hdelete hsplit hinsert, h.text_eq, heq]
      · exact .inr ⟨e, rfl, hunchanged⟩
    · exact .inr ⟨e, rfl, hunchanged⟩
  · exact .inr ⟨e, rfl, hunchanged⟩

end

end Editor.At

/-! ### The start -/

theorem loadLines_holds {m : Nat → Memory} (h : e.Holds text)
    (hlines : ∀ line ∈ lines, line.length < 2 ^ 31) (hload : loadLines m lines e = .ok e') :
    e'.Holds (text ++ lines) ∧ SameView e e' := by
  induction lines generalizing e text with
  | nil =>
    obtain rfl : e = e' := Except.ok.inj hload
    exact ⟨by simpa using h, rfl, rfl, rfl, rfl⟩
  | cons line lines ih =>
    obtain ⟨hline, hlines⟩ := forall_mem_cons.mp hlines
    have hend : e.Holds (text ++ []) := by simpa using h
    rw [loadLines] at hload
    rcases hend.insert (m := m lines.length) h.numLines hline with ⟨hfail, -⟩ | ⟨u, hinsert, hu, -, hview⟩
    · rw [hfail] at hload
      cases hload
    rw [hinsert, ok_bind] at hload
    obtain ⟨he', hview'⟩ := ih hu hlines hload
    exact ⟨by simpa using he', hview.trans hview'⟩

theorem start_at {m : Nat → Memory} (hcols : 10 ≤ cols)
    (hlines : ∀ line ∈ lines, line.length < 2 ^ 31) (hstart : start m lines cols = .ok e) :
    ∃ above pre, e.At above pre [] [] ∧ above ++ [pre] = (if lines = [] then [[]] else lines) ∧ e.softWrap = false := by
  have hnone : Editor.Holds ⟨[], 0, 0, 0, 0, false, cols⟩ [] :=
    ⟨⟨[], [], rfl, .nil⟩, rfl, .inl le_rfl, le_rfl, le_rfl, by norm_num⟩
  unfold start at hstart
  cases hload : loadLines m lines ⟨[], 0, 0, 0, 0, false, cols⟩ with
  | error f =>
    rw [hload] at hstart
    cases hstart
  | ok u =>
    rw [hload, ok_bind] at hstart
    obtain ⟨hu, hview⟩ := loadLines_holds hnone hlines hload
    have hnum := hu.numLines
    rw [nil_append] at hu hnum
    induction lines using reverseRecOn with
    | nil =>
      obtain rfl : ⟨[], 0, 0, 0, 0, false, cols⟩ = u := Except.ok.inj hload
      obtain rfl := Except.ok.inj hstart
      have hempty : ERow.Holds ⟨[0], 0, 1⟩ [] := ⟨⟨[], rfl⟩, rfl, rfl, by norm_num⟩
      exact ⟨[], [], ⟨⟨⟨[⟨[0], 0, 1⟩], [], rfl, .cons hempty .nil⟩, rfl, .inr ⟨rfl, le_rfl⟩, le_rfl, by norm_num, by norm_num⟩,
        rfl, rfl, hcols⟩, rfl, rfl⟩
    | append_singleton lines line _ =>
      rw [length_append, length_singleton] at hnum
      obtain ⟨row, hrow, hholds⟩ := hu.row (show u.numLines - 1 = lines.length by omega)
      rw [if_neg (by omega), hrow, ok_bind] at hstart
      obtain rfl := Except.ok.inj hstart
      refine ⟨lines, line, ⟨?_, ?_, hholds.len, hview.screenCols.symm ▸ hcols⟩, by simp, hview.softWrap⟩
      · rw [append_nil]
        exact hu.moved ..
      · dsimp only
        omega

/-! ### The main loop -/

/-- A run ends with Ctrl+Q. -/
def keyTo (e : Editor) (k : Key) : Option Editor := if k.c = ctrlQ then none else (key e k).toOption

theorem At_of_run {keys : List Key} (hrun : Run (guarded (ofNext keyTo) Fits) e₀ keys e)
    (hstart : ∃ above pre suf below, e₀.At above pre suf below) : ∃ above pre suf below, e.At above pre suf below := by
  refine hrun.invariant (P := fun e => ∃ above pre suf below, e.At above pre suf below) ?_ hstart
  rintro s k t ⟨hfits, hnext⟩ ⟨above, pre, suf, below, hs⟩
  unfold ofNext keyTo at hnext
  split at hnext
  · cases hnext
  rcases hs.key hfits with hfail | ⟨u, hkey, above', pre', suf', below', hu, -⟩
  · rw [hfail] at hnext
    cases hnext
  rw [hkey] at hnext
  obtain rfl : u = t := some.inj hnext
  exact ⟨above', pre', suf', below', hu⟩

/-! ### A short text -/

def blank : Memory := ⟨fun _ => 0, fun _ => ⟨[], 0, 0⟩⟩

def press (c : UInt8) : Key := ⟨c, none, none, none, blank⟩

def pressArrow (c : UInt8) : Key := ⟨escape, some 0x5B, some c, none, blank⟩

instance : Decidable (Fits e k) :=
  inferInstanceAs (Decidable (∀ line ∈ editText k.c e.text e.curY.toNat e.curX.toNat, line.length + e.screenCols ≤ 2 ^ 31))

/-- A letter, the cursor back over it, a new line, and soft wrap. -/
def someKeys : List Key := [press 0x63, pressArrow 0x44, press 0x0D, press ctrlZ]

/-! ### Lines that are too long -/

/-- The sum of the lengths is negative as an `int`: the row does not grow, and the line is copied behind its block. -/
theorem Editor.At.joinOverflow (h : e.At (above ++ [line]) [] suf below) (hsum : 2 ^ 31 ≤ line.length + suf.length + 1) :
    backspace m e = .error .outOfBounds := by
  obtain ⟨prev, row, -, -, hline, hsuf, hback⟩ := h.rowsToJoin (m := m)
  have hlt := hline.len_lt
  have hcap := hline.cap
  have hsmall := hline.small
  have hlen := hline.len
  have hlt' := hsuf.len_lt
  have hsmall' := hsuf.small
  have hlen' := hsuf.len
  obtain ⟨junk, hchars⟩ := hsuf.chars
  have hpeek : peek row.chars 0 row.len = .ok suf :=
    peek_eq (a := []) (b := 0 :: junk) (by rw [hchars]; simp) (by simp) hlen'
  have hnegative : ¬ prev.cap ≤ int32 (prev.len + row.len + 1) := by
    have := int32_negative (n := prev.len + row.len + 1) (by omega) (by omega)
    omega
  have hjoin : rowAppendStr m prev row.chars row.len = .error .outOfBounds := by
    unfold rowAppendStr
    dsimp only
    rw [if_neg (by simpa using hnegative), if_neg (by simpa using hnegative), ok_bind, hpeek, ok_bind]
    by_cases hfits : (line.length : Int) + suf.length ≤ prev.chars.length
    · -- only the zero at the end is outside
      rw [poke, if_pos (by omega), ok_bind, int32_eq (by omega) (by omega), poke, if_neg]
      · rfl
      · simp only [length_append, length_take, length_drop, length_singleton]
        omega
    · rw [poke, if_neg (by omega)]
      rfl
  rw [hback, hjoin]
  rfl

/-- Up from the end of the second of two equally long lines and once to the right: the cursor is where the lines join. -/
theorem cursor_between (h : e.At [line] line [] []) (hwrap : e.softWrap = false) :
    ∃ e', Run (ofNext keyTo) e [pressArrow 0x41, pressArrow 0x43] e' ∧ e'.At [line] [] line [] := by
  have hx := h.x
  have hy : e.curY = 1 := h.y
  have hnum : e.numLines = 2 := h.holds.numLines
  have hheld : e.Holds ([line] ++ line :: []) := by simpa using h.holds
  have hheld' : e.Holds ([] ++ line :: [line]) := hheld
  obtain ⟨row, hrow, hline⟩ := hheld'.row (i := 0) rfl
  obtain ⟨row', hrow', hline'⟩ := hheld.row (i := 1) rfl
  have hlen := hline.len
  have hlen' := hline'.len
  have hrow₀ : ({ e with curY := 0 } : Editor).row 0 = .ok row := hrow
  have hrow₁ : ({ e with curY := 1, curX := 0 } : Editor).row 1 = .ok row' := hrow'
  have hup : arrow e 0x41 = .ok { e with curY := 0 } := by
    have hmove : moveCursor e 0x41 = .ok { e with curY := 0 } := by
      rw [moveCursor, if_pos rfl, up, hwrap, if_neg Bool.false_ne_true, if_pos (by omega), hy]
      rfl
    rw [arrow, hmove, ok_bind, clampX, hrow₀, ok_bind, if_neg (by dsimp only; omega)]
    rfl
  have hright : arrow { e with curY := 0 } 0x43 = .ok { e with curY := 1, curX := 0 } := by
    have hmove : moveCursor { e with curY := 0 } 0x43 = .ok { e with curY := 1, curX := 0 } := by
      rw [moveCursor, if_neg (by decide), if_neg (by decide), if_pos rfl, right, hrow₀, ok_bind,
        if_neg (by dsimp only; omega), if_pos (by dsimp only; omega)]
      rfl
    rw [arrow, hmove, ok_bind, clampX, hrow₁, ok_bind, if_neg (by dsimp only; omega)]
    rfl
  have hfirst : ofNext keyTo e (pressArrow 0x41) { e with curY := 0 } := congrArg Except.toOption hup
  have hsecond : ofNext keyTo { e with curY := 0 } (pressArrow 0x43) { e with curY := 1, curX := 0 } :=
    congrArg Except.toOption hright
  exact ⟨{ e with curY := 1, curX := 0 }, .stepL hfirst (.stepL hsecond .refl), hheld.moved .., rfl, rfl, h.cols⟩

theorem start_twice {m : Nat → Memory} (hline : line.length + 32 < 2 ^ 31) :
    ∃ e, start m [line, line] 75 = .ok e ∧ e.At [line] line [] [] ∧ e.softWrap = false := by
  have hlines : ∀ l ∈ [line, line], l.length < 2 ^ 31 := by
    intro l hl
    obtain rfl : l = line := by simpa using hl
    omega
  have hnone : Editor.Holds ⟨[], 0, 0, 0, 0, false, 75⟩ ([] ++ []) :=
    ⟨⟨[], [], rfl, .nil⟩, rfl, .inl le_rfl, le_rfl, le_rfl, by norm_num⟩
  rcases hnone.insert (m := m 1) (i := 0) rfl (hlines line (by simp)) with ⟨-, hlarge⟩ | ⟨u, hu, hheld, hcap, -⟩
  · simp only [rowOverhead] at hlarge
    omega
  have hheld' : u.Holds ([line] ++ []) := hheld
  rcases hheld'.insert (m := m 0) hheld'.numLines (hlines line (by simp)) with ⟨-, hlarge⟩ | ⟨w, hw, hheld'', -, -⟩
  · simp only [rowOverhead] at hlarge hcap
    omega
  have hload : loadLines m [line, line] ⟨[], 0, 0, 0, 0, false, 75⟩ = .ok w := by
    have hfirst : loadLines m [line, line] ⟨[], 0, 0, 0, 0, false, 75⟩ = loadLines m [line] u := by
      rw [loadLines]
      exact congrArg (· >>= loadLines m [line]) hu
    have hsecond : loadLines m [line] u = loadLines m [] w := by
      rw [loadLines]
      exact congrArg (· >>= loadLines m []) hw
    rw [hfirst, hsecond]
    rfl
  obtain ⟨row, hrow, -⟩ := hheld''.row (i := w.numLines - 1) (by rw [hheld''.numLines]; rfl)
  have hstart : start m [line, line] 75 = .ok { w with curY := w.numLines - 1, curX := row.len } := by
    rw [start, hload, ok_bind, if_neg (by rw [hheld''.numLines]; simp), hrow]
    rfl
  obtain ⟨above, pre, hat, htext, hwrap⟩ := start_at (by norm_num) hlines hstart
  obtain ⟨rfl, rfl⟩ : above = [line] ∧ pre = line := by
    have hpair : above ++ [pre] = [line] ++ [line] := htext
    obtain ⟨habove, hpre⟩ := append_inj' hpair rfl
    exact ⟨habove, singleton_inj.mp hpre⟩
  exact ⟨_, hstart, hat, hwrap⟩

end NyanOS.Nyamo
