import NyanOS.Terminal.Ansi

/-!
# The screen of the terminal (`progs/terminal.c`)

The terminal keeps its cells in a ring of rows that starts at `start_line_idx`. A `Screen` is what the ring stands for: a
grid whose top line is dropped, and a blank line appended, when the text moves past the last row.
-/
namespace NyanOS.Terminal

open Function

structure TermCell where
  glyph : UInt8
  fg : Color
  bg : Color
  deriving DecidableEq

abbrev Buffer := Int → TermCell

/-- The globals that the driver works on. -/
structure Term where
  textBuf : Buffer
  curRow : Int
  curCol : Int
  startLine : Int
  fg : Color
  bg : Color

def newline : UInt8 := 0x0a
def backspace : UInt8 := 0x08

def blank (fg bg : Color) : TermCell := ⟨' '.toUInt8, fg, bg⟩

/-- The loops that overwrite `n` cells from an index on. -/
def fill (cell : TermCell) (buf : Buffer) (start : Int) : Nat → Buffer
  | 0 => buf
  | n + 1 => update (fill cell buf start n) (start + n) cell

variable (rows cols : Nat)

/-- The index of a place of the screen. -/
def Term.index (t : Term) (row col : Int) : Int := (t.startLine + row).tmod rows * cols + col

/-- The cell that `term_refresh` shows at a place. -/
def Term.cell (t : Term) (row col : Int) : TermCell := t.textBuf (t.index rows cols row col)

def termScroll (t : Term) : Term :=
  { t with
    textBuf := fill (blank t.fg t.bg) t.textBuf (t.startLine * cols) cols
    startLine := (t.startLine + 1).tmod rows
    curRow := t.curRow - 1 }

/-- The end of `term_put_char`. -/
def scrollIfNeeded (t : Term) : Term := if t.curRow ≥ rows then termScroll rows cols t else t

def termPutChar (t : Term) (c : UInt8) : Term :=
  scrollIfNeeded rows cols <|
    if c = newline then { t with curCol := 0, curRow := t.curRow + 1 }
    else if c = backspace then
      if t.curCol > 0 then
        { t with
          curCol := t.curCol - 1
          textBuf := update t.textBuf (t.index rows cols t.curRow (t.curCol - 1)) (blank t.fg t.bg) }
      else t
    else
      let t : Term := { t with
        textBuf := update t.textBuf (t.index rows cols t.curRow t.curCol) ⟨c, t.fg, t.bg⟩
        curCol := t.curCol + 1 }
      if t.curCol ≥ cols then { t with curCol := 0, curRow := t.curRow + 1 } else t

def drvSetCursor (t : Term) (c r : Int) : Term :=
  { t with
    curCol := if c ≥ cols then cols - 1 else c
    curRow := if r ≥ rows then rows - 1 else r }

def drvClearScreen (t : Term) (mode : Int) : Term :=
  if mode = 2 then
    { t with textBuf := fill (blank t.fg t.bg) t.textBuf 0 (rows * cols), curCol := 0, curRow := 0, startLine := 0 }
  else t

/-- `term_driver`, which has no `set_mode`. -/
def termDriver (t : Term) : DriverCall → Term
  | .putChar c => termPutChar rows cols t c
  | .setColor color => { t with fg := color }
  | .setCursor x y => drvSetCursor rows cols t x y
  | .clearScreen mode => drvClearScreen rows cols t mode
  | .setMode _ _ => t

/-- One byte through `ansi_write_char` with `term_driver`. -/
def writeChar (s : AnsiContext × Term) (c : UInt8) : AnsiContext × Term :=
  let (ctx, calls) := ansiWriteChar s.1 c
  (ctx, calls.foldl (termDriver rows cols) s.2)

/-- The state in which `main` starts to read. -/
def initial : AnsiContext × Term :=
  (⟨white, .normal, []⟩, ⟨fill (blank white black) (fun _ => ⟨0, 0, 0⟩) 0 (rows * cols), 0, 0, 0, white, black⟩)

/-! ### The abstract screen -/

variable {rows cols}

structure Screen (rows cols : Nat) where
  grid : Fin rows → Fin cols → TermCell
  row : Fin rows
  col : Fin cols
  fg : Color
  bg : Color

namespace Screen

/-- Drop the top line and append a blank one. -/
def scroll (s : Screen rows cols) : Screen rows cols :=
  { s with grid := fun r c => if h : r + 1 < rows then s.grid ⟨r + 1, h⟩ c else blank s.fg s.bg }

/-- Go to the next row; past the last one the text moves up. -/
def down (s : Screen rows cols) : Screen rows cols :=
  if h : s.row + 1 < rows then { s with row := ⟨s.row + 1, h⟩ } else s.scroll

def home (s : Screen rows cols) : Screen rows cols := { s with col := ⟨0, s.col.pos⟩ }

/-- Replace the cell at the cursor. -/
def set (s : Screen rows cols) (cell : TermCell) : Screen rows cols :=
  { s with grid := fun r c => if r = s.row ∧ c = s.col then cell else s.grid r c }

def advance (s : Screen rows cols) : Screen rows cols :=
  if h : s.col + 1 < cols then { s with col := ⟨s.col + 1, h⟩ } else s.home.down

def put (s : Screen rows cols) (c : UInt8) : Screen rows cols :=
  if c = newline then s.home.down
  else if c = backspace then
    if 0 < s.col.val then
      let s := { s with col := ⟨s.col - 1, by omega⟩ }
      s.set (blank s.fg s.bg)
    else s
  else (s.set ⟨c, s.fg, s.bg⟩).advance

/-- What each call of the driver means. -/
def apply (s : Screen rows cols) : DriverCall → Screen rows cols
  | .putChar c => s.put c
  | .setColor color => { s with fg := color }
  | .setCursor x y =>
    { s with
      col := ⟨min x.toNat (cols - 1), by have := s.col.pos; omega⟩
      row := ⟨min y.toNat (rows - 1), by have := s.row.pos; omega⟩ }
  | .clearScreen mode =>
    if mode = 2 then
      { s with grid := fun _ _ => blank s.fg s.bg, row := ⟨0, s.row.pos⟩, col := ⟨0, s.col.pos⟩ }
    else s
  | .setMode _ _ => s

def write (s : AnsiContext × Screen rows cols) (c : UInt8) : AnsiContext × Screen rows cols :=
  let (ctx, calls) := ansiWriteChar s.1 c
  (ctx, calls.foldl apply s.2)

def start (hr : 1 ≤ rows) (hc : 1 ≤ cols) : AnsiContext × Screen rows cols :=
  (⟨white, .normal, []⟩, ⟨fun _ _ => blank white black, ⟨0, hr⟩, ⟨0, hc⟩, white, black⟩)

end Screen

/-! ### The ring stands for the screen -/

/-- The terminal's state shows the screen: the bounds of the three indices, and the rows in the order of the ring. -/
structure Shows (t : Term) (s : Screen rows cols) : Prop where
  row : t.curRow = s.row
  col : t.curCol = s.col
  start : 0 ≤ t.startLine ∧ t.startLine < rows
  fg : t.fg = s.fg
  bg : t.bg = s.bg
  cells : ∀ r c, t.cell rows cols (r : Fin rows) (c : Fin cols) = s.grid r c

theorem fill_apply (cell : TermCell) (buf : Buffer) (start i : Int) (n : Nat) :
    fill cell buf start n i = if start ≤ i ∧ i < start + n then cell else buf i := by
  induction n with
  | zero =>
    rw [fill, if_neg (by omega)]
  | succ n ih =>
    rw [fill, update_apply, ih]
    split_ifs <;> first | rfl | omega

theorem place_inj {a b : Int} {c d : Fin cols} (h : a * cols + c = b * cols + d) : a = b ∧ c = d := by
  have hab : a = b := by
    by_contra hne
    rcases lt_or_gt_of_ne hne with hlt | hlt
    · nlinarith [c.isLt, d.isLt]
    · nlinarith [c.isLt, d.isLt]
  subst hab
  exact ⟨rfl, Fin.ext (by omega)⟩

theorem fill_row (cell : TermCell) (buf : Buffer) (a b : Int) (c : Fin cols) :
    fill cell buf (a * cols) cols (b * cols + c) = if b = a then cell else buf (b * cols + c) := by
  have hc := c.isLt
  rw [fill_apply]
  by_cases hba : b = a
  · subst hba
    rw [if_pos (by omega), if_pos rfl]
  rw [if_neg hba, if_neg]
  rintro ⟨hlo, hhi⟩
  rcases lt_or_gt_of_ne hba with hlt | hlt
  · nlinarith
  · nlinarith

/-- The row of the ring at which row `r` of the screen is. -/
def ringRow (rows : Nat) (start : Int) (r : Nat) : Int := (start + r).tmod rows

theorem ringRow_eq {start : Int} (hstart : 0 ≤ start ∧ start < rows) (r : Fin rows) :
    ringRow rows start r = if start + r < rows then start + r else start + r - rows := by
  have hr := r.isLt
  rw [ringRow, Int.tmod_eq_emod_of_nonneg (by omega)]
  split_ifs with h
  · exact Int.emod_eq_of_lt (by omega) h
  · rw [Int.emod_eq_sub_self_emod, Int.emod_eq_of_lt (by omega) (by omega)]

theorem ringRow_inj {start : Int} (hstart : 0 ≤ start ∧ start < rows) {r r' : Fin rows}
    (h : ringRow rows start r = ringRow rows start r') : r = r' := by
  rw [ringRow_eq hstart, ringRow_eq hstart] at h
  apply Fin.ext
  split_ifs at h <;> omega

theorem fill_screen (cell : TermCell) (buf : Buffer) (r : Fin rows) (c : Fin cols) :
    fill cell buf 0 (rows * cols) (ringRow rows 0 r * cols + c) = cell := by
  have hr := r.isLt
  have hc := c.isLt
  rw [ringRow_eq ⟨le_rfl, by omega⟩, if_pos (by omega), fill_apply, if_pos]
  push_cast
  constructor
  · positivity
  · nlinarith

namespace Shows

variable {t : Term} {s : Screen rows cols}

section

variable (h : Shows t s)
include h

theorem inBounds : 0 ≤ t.curRow ∧ t.curRow < rows ∧ 0 ≤ t.curCol ∧ t.curCol < cols := by
  have hrow := h.row
  have hcol := h.col
  have := s.row.isLt
  have := s.col.isLt
  omega

theorem set (cell : TermCell) :
    Shows { t with textBuf := update t.textBuf (t.index rows cols t.curRow t.curCol) cell } (s.set cell) := by
  refine ⟨h.row, h.col, h.start, h.fg, h.bg, fun r c => ?_⟩
  change update t.textBuf _ cell (ringRow rows t.startLine r * cols + c) = if r = s.row ∧ c = s.col then cell else _
  have hplace : t.index rows cols t.curRow t.curCol = ringRow rows t.startLine s.row * cols + s.col := by
    rw [h.row, h.col]
    rfl
  rw [update_apply, hplace]
  by_cases hat : r = s.row ∧ c = s.col
  · rw [if_pos hat, hat.1, hat.2, if_pos rfl]
  rw [if_neg hat, if_neg]
  · exact h.cells r c
  · intro heq
    obtain ⟨hring, hcol⟩ := place_inj heq
    exact hat ⟨ringRow_inj h.start hring, hcol⟩

theorem scroll : Shows { termScroll rows cols t with curRow := t.curRow } s.scroll := by
  have hpos := s.row.pos
  have hnext : (t.startLine + 1).tmod rows = if t.startLine + 1 < rows then t.startLine + 1 else 0 := by
    rw [Int.tmod_eq_emod_of_nonneg (by have := h.start; omega)]
    split_ifs with hlt
    · exact Int.emod_eq_of_lt (by have := h.start; omega) hlt
    · rw [show t.startLine + 1 = rows by have := h.start; omega, Int.emod_self]
  have hstart : 0 ≤ (t.startLine + 1).tmod rows ∧ (t.startLine + 1).tmod rows < rows := by
    rw [hnext]
    have := h.start
    split_ifs <;> omega
  refine ⟨h.row, h.col, hstart, h.fg, h.bg, fun r c => ?_⟩
  change fill _ t.textBuf (t.startLine * cols) cols (ringRow rows ((t.startLine + 1).tmod rows) r * cols + c) = dite ..
  rw [fill_row]
  by_cases hr : (r : Nat) + 1 < rows
  · have hring : ringRow rows ((t.startLine + 1).tmod rows) r = ringRow rows t.startLine (⟨r + 1, hr⟩ : Fin rows) := by
      rw [ringRow_eq hstart, ringRow_eq h.start, hnext]
      have := h.start
      dsimp only
      push_cast
      split_ifs <;> omega
    have hne : ringRow rows t.startLine (⟨r + 1, hr⟩ : Fin rows) ≠ t.startLine := by
      rw [ringRow_eq h.start]
      dsimp only
      push_cast
      split_ifs <;> omega
    rw [dif_pos hr, hring, if_neg hne]
    exact h.cells ⟨r + 1, hr⟩ c
  · have hring : ringRow rows ((t.startLine + 1).tmod rows) r = t.startLine := by
      rw [ringRow_eq hstart, hnext]
      have := h.start
      have := r.isLt
      split_ifs <;> omega
    rw [dif_neg hr, hring, if_pos rfl, h.fg, h.bg]

theorem settled : Shows (scrollIfNeeded rows cols t) s := by
  rw [scrollIfNeeded, if_neg (by have := h.inBounds; omega)]
  exact h

theorem down : Shows (scrollIfNeeded rows cols { t with curRow := t.curRow + 1 }) s.down := by
  have hrow := h.row
  unfold Screen.down scrollIfNeeded
  dsimp only
  by_cases hlast : (s.row : Nat) + 1 < rows
  · rw [if_neg (by omega), dif_pos hlast]
    exact ⟨by simp [hrow], h.col, h.start, h.fg, h.bg, h.cells⟩
  rw [if_pos (by omega), dif_neg hlast]
  have hscroll := h.scroll
  exact ⟨by simpa [termScroll, Screen.scroll] using hrow, h.col, hscroll.start, h.fg, h.bg, hscroll.cells⟩

theorem home : Shows { t with curCol := 0 } s.home := ⟨h.row, rfl, h.start, h.fg, h.bg, h.cells⟩

theorem put (c : UInt8) : Shows (termPutChar rows cols t c) (s.put c) := by
  have hcol := h.col
  unfold termPutChar Screen.put
  by_cases hnewline : c = newline
  · rw [if_pos hnewline, if_pos hnewline]
    exact h.home.down
  rw [if_neg hnewline, if_neg hnewline]
  by_cases hback : c = backspace
  · rw [if_pos hback, if_pos hback]
    by_cases hzero : 0 < s.col.val
    · rw [if_pos (by omega), if_pos hzero]
      have hleft : Shows { t with curCol := t.curCol - 1 } { s with col := ⟨s.col - 1, by omega⟩ } :=
        ⟨h.row, by simp only [hcol]; omega, h.start, h.fg, h.bg, h.cells⟩
      rw [show blank t.fg t.bg = blank s.fg s.bg by rw [h.fg, h.bg]]
      exact (hleft.set (blank s.fg s.bg)).settled
    · rw [if_neg (by omega), if_neg hzero]
      exact h.settled
  rw [if_neg hback, if_neg hback]
  have hset := h.set ⟨c, s.fg, s.bg⟩
  rw [show (⟨c, t.fg, t.bg⟩ : TermCell) = ⟨c, s.fg, s.bg⟩ by rw [h.fg, h.bg]]
  unfold Screen.advance
  by_cases hwrap : (s.col : Nat) + 1 < cols
  · rw [if_neg (by dsimp only; omega), dif_pos (by exact hwrap)]
    have hright : Shows { t with
        textBuf := update t.textBuf (t.index rows cols t.curRow t.curCol) ⟨c, s.fg, s.bg⟩
        curCol := t.curCol + 1 } { s.set ⟨c, s.fg, s.bg⟩ with col := ⟨s.col + 1, hwrap⟩ } :=
      ⟨hset.row, by simp [hcol], hset.start, h.fg, h.bg, hset.cells⟩
    exact hright.settled
  · rw [if_pos (by dsimp only; omega), dif_neg (by exact hwrap)]
    exact hset.home.down

theorem clear (mode : Int) : Shows (drvClearScreen rows cols t mode) (s.apply (.clearScreen mode)) := by
  simp only [drvClearScreen, Screen.apply]
  split_ifs with hmode
  · refine ⟨rfl, rfl, ⟨le_rfl, Int.natCast_pos.mpr s.row.pos⟩, h.fg, h.bg, fun r c => ?_⟩
    rw [← h.fg, ← h.bg]
    exact fill_screen (blank t.fg t.bg) t.textBuf r c
  · exact h

theorem apply {call : DriverCall} (hsound : call.Sound) : Shows (termDriver rows cols t call) (s.apply call) := by
  cases call with
  | putChar c => exact h.put c
  | setColor color => exact ⟨h.row, h.col, h.start, rfl, h.bg, h.cells⟩
  | setCursor x y =>
    obtain ⟨hx, hy⟩ := hsound
    have hrow := s.row.pos
    have hcol := s.col.pos
    refine ⟨?_, ?_, h.start, h.fg, h.bg, h.cells⟩
    · simp only [termDriver, drvSetCursor, Screen.apply]
      split_ifs <;> omega
    · simp only [termDriver, drvSetCursor, Screen.apply]
      split_ifs <;> omega
  | clearScreen mode => exact h.clear mode
  | setMode mode enabled => exact h

end

theorem applyAll {calls : List DriverCall} (h : Shows t s) (hsound : ∀ call ∈ calls, call.Sound) :
    Shows (calls.foldl (termDriver rows cols) t) (calls.foldl Screen.apply s) := by
  induction calls generalizing t s with
  | nil => exact h
  | cons call calls ih =>
    exact ih (h.apply (hsound call List.mem_cons_self)) fun call' hmem => hsound call' (List.mem_cons_of_mem call hmem)

end Shows

theorem writeChar_shows (ctx : AnsiContext) {t : Term} {s : Screen rows cols} (h : Shows t s) (c : UInt8) :
    Shows (writeChar rows cols (ctx, t) c).2 (Screen.write (ctx, s) c).2 :=
  h.applyAll (ansiWriteChar_sound ctx c)

theorem stream_shows (ctx : AnsiContext) {t : Term} {s : Screen rows cols} (h : Shows t s) (bytes : List UInt8) :
    Shows (bytes.foldl (writeChar rows cols) (ctx, t)).2 (bytes.foldl Screen.write (ctx, s)).2 := by
  induction bytes generalizing ctx t s with
  | nil => exact h
  | cons c bytes ih =>
    exact ih _ (writeChar_shows ctx h c)

theorem initial_shows (hr : 1 ≤ rows) (hc : 1 ≤ cols) : Shows (initial rows cols).2 (Screen.start hr hc).2 := by
  refine ⟨rfl, rfl, ⟨le_rfl, Int.natCast_pos.mpr hr⟩, rfl, rfl, fun r c => ?_⟩
  exact fill_screen (blank white black) _ r c

end NyanOS.Terminal
