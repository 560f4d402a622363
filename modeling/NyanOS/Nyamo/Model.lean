import Mathlib.Tactic

/-!
# The text editor (`progs/nyamo.c`)

The lines are an array of rows, each with a block of bytes of its own. A write or a read outside of a block is a fault.
What the screen shows is not modelled: `edtr_drw` and `edtr_sv` only read the lines.
-/
namespace NyanOS.Nyamo

inductive Fault where
  | allocation
  | outOfBounds
  deriving DecidableEq

abbrev EditM := Except Fault

/-- The result of `int` arithmetic. -/
def int32 (n : Int) : Int := n.bmod (2 ^ 32)

/-! ### Blocks -/

section
variable {α : Type}

/-- Read `n` elements from index `i` on. -/
def peek (buf : List α) (i n : Int) : EditM (List α) :=
  if 0 ≤ i ∧ 0 ≤ n ∧ i + n ≤ buf.length then .ok ((buf.drop i.toNat).take n.toNat) else .error .outOfBounds

/-- Write elements from index `i` on. -/
def poke (buf : List α) (i : Int) (s : List α) : EditM (List α) :=
  if 0 ≤ i ∧ i + s.length ≤ buf.length then .ok (buf.take i.toNat ++ s ++ buf.drop (i.toNat + s.length))
  else .error .outOfBounds

/-- `realloc` to a size that is an `int`: a negative one is a `size_t` that no allocation can have. Blocks only grow; new
elements are whatever was in the memory. -/
def realloc (fresh : Nat → α) (buf : List α) (size : Int) : EditM (List α) :=
  if size < 0 then .error .allocation else .ok (buf ++ (List.range (size.toNat - buf.length)).map fresh)

end

structure ERow where
  chars : List UInt8
  len : Int
  cap : Int
  deriving DecidableEq

structure Editor where
  rows : List ERow
  numLines : Int
  rowsCap : Int
  curX : Int
  curY : Int
  softWrap : Bool
  screenCols : Int

/-- What is in the memory that an allocation returns. -/
structure Memory where
  chars : Nat → UInt8
  rows : Nat → ERow

def rowOverhead : Int := 0x20

variable (m : Memory)

/-! ### Rows -/

def rowInsertChar (row : ERow) (i : Int) (c : UInt8) : EditM ERow := do
  let i := if i < 0 ∨ row.len < i then row.len else i
  let cap := if row.cap ≤ int32 (row.len + 1) then int32 (row.cap * 2) else row.cap
  let chars ← if row.cap ≤ int32 (row.len + 1) then realloc m.chars row.chars cap else .ok row.chars
  let tail ← peek chars i (int32 (row.len - i + 1))
  let chars ← poke chars (i + 1) tail
  let chars ← poke chars i [c]
  return { chars := chars, len := int32 (row.len + 1), cap := cap }

def rowDelChar (row : ERow) (i : Int) : EditM ERow := do
  if i < 0 ∨ row.len ≤ i then return row
  let tail ← peek row.chars (i + 1) (int32 (row.len - i))
  let chars ← poke row.chars i tail
  return { row with chars := chars, len := int32 (row.len - 1) }

def rowAppendStr (row : ERow) (s : List UInt8) (len : Int) : EditM ERow := do
  let grow : Bool := row.cap ≤ int32 (row.len + len + 1)
  let cap := if grow then int32 (row.len + len + 32) else row.cap
  let chars ← if grow then realloc m.chars row.chars cap else .ok row.chars
  let s ← peek s 0 len
  let chars ← poke chars row.len s
  let len := int32 (row.len + len)
  let chars ← poke chars len [0]
  return { chars := chars, len := len, cap := cap }

/-! ### The array of rows -/

/-- The loop of `row_insert`: `n` rows from index `i` on move up by one, the last one first. -/
def shiftUp (rows : List ERow) (i : Int) : Nat → EditM (List ERow)
  | 0 => .ok rows
  | n + 1 => do
    let row ← peek rows (i + n) 1
    let rows ← poke rows (i + n + 1) row
    shiftUp rows i n

/-- The loop of `row_delete`: the `n` rows after index `i` move down by one. -/
def shiftDown (rows : List ERow) (i : Int) : Nat → EditM (List ERow)
  | 0 => .ok rows
  | n + 1 => do
    let row ← peek rows (i + 1) 1
    let rows ← poke rows i row
    shiftDown rows (i + 1) n

/-- The first step of `row_insert`: an array that is full grows. -/
def growRows (e : Editor) : EditM Editor :=
  if e.rowsCap ≤ e.numLines then do
    let rowsCap := if e.rowsCap = 0 then rowOverhead else int32 (e.rowsCap * 2)
    let rows ← realloc m.rows e.rows rowsCap
    return { e with rows := rows, rowsCap := rowsCap }
  else .ok e

def rowInsert (e : Editor) (i : Int) (s : List UInt8) (len : Int) : EditM Editor := do
  if i < 0 ∨ e.numLines < i then return e
  let e ← growRows m e
  let rows ← shiftUp e.rows i (e.numLines - i).toNat
  let cap := int32 (len + rowOverhead)
  let chars ← realloc m.chars [] cap
  let s ← peek s 0 len
  let chars ← poke chars 0 s
  let chars ← poke chars len [0]
  let rows ← poke rows i [{ chars := chars, len := len, cap := cap }]
  return { e with rows := rows, numLines := int32 (e.numLines + 1) }

def rowDelete (e : Editor) (i : Int) : EditM Editor := do
  if i < 0 ∨ e.numLines ≤ i then return e
  let rows ← shiftDown e.rows i (e.numLines - 1 - i).toNat
  return { e with rows := rows, numLines := int32 (e.numLines - 1) }

/-- `rows[i]` -/
def Editor.row (e : Editor) (i : Int) : EditM ERow := do
  let row ← peek e.rows i 1
  match row with
  | [row] => return row
  | _ => throw .outOfBounds

def Editor.setRow (e : Editor) (i : Int) (row : ERow) : EditM Editor := do
  return { e with rows := ← poke e.rows i [row] }

/-! ### Keys -/

/-- What an iteration of the main loop reads: a byte, for an escape two more if they come, and for Ctrl+L the number of
columns that the terminal answers. -/
structure Key where
  c : UInt8
  seq0 : Option UInt8
  seq1 : Option UInt8
  cols : Option UInt8
  memory : Memory

def ctrlQ : UInt8 := 0x11
def ctrlS : UInt8 := 0x13
def ctrlL : UInt8 := 0x0C
def ctrlZ : UInt8 := 0x1A
def escape : UInt8 := 0x1B

/-- `editor_query_size` -/
def editorQuerySize (e : Editor) (cols : Option UInt8) : Editor :=
  { e with screenCols := max 10 ((cols.map fun c => (c.toNat : Int)).getD e.screenCols) }

def backspace (e : Editor) : EditM Editor := do
  if 0 < e.curX then
    let row ← rowDelChar (← e.row e.curY) (e.curX - 1)
    let e ← e.setRow e.curY row
    return { e with curX := e.curX - 1 }
  else if 0 < e.curY then
    let prev ← e.row (e.curY - 1)
    let row ← e.row e.curY
    let joined ← rowAppendStr m prev row.chars row.len
    let e ← e.setRow (e.curY - 1) joined
    let e ← rowDelete e e.curY
    return { e with curY := e.curY - 1, curX := prev.len }
  else return e

def enter (e : Editor) : EditM Editor := do
  let row ← e.row e.curY
  let s ← peek row.chars e.curX (row.len - e.curX)
  let e ← rowInsert m e (e.curY + 1) s (row.len - e.curX)
  let row ← e.row e.curY
  let chars ← poke row.chars e.curX [0]
  let e ← e.setRow e.curY { row with chars := chars, len := e.curX }
  return { e with curY := e.curY + 1, curX := 0 }

def printable (e : Editor) (c : UInt8) : EditM Editor := do
  let row ← rowInsertChar m (← e.row e.curY) e.curX c
  let e ← e.setRow e.curY row
  return { e with curX := e.curX + 1 }

def up (e : Editor) : EditM Editor := do
  if e.softWrap then
    let maxW := e.screenCols - 1
    if 0 < e.curX / maxW then return { e with curX := e.curX - maxW }
    else if 0 < e.curY then
      let targetVCol := e.curX % maxW
      let row ← e.row (e.curY - 1)
      let newX := int32 (row.len / maxW * maxW + targetVCol)
      return { e with curY := e.curY - 1, curX := if row.len < newX then row.len else newX }
    else return e
  else if 0 < e.curY then return { e with curY := e.curY - 1 }
  else return e

def down (e : Editor) : EditM Editor := do
  if e.softWrap then
    let maxW := e.screenCols - 1
    let row ← e.row e.curY
    if e.curX / maxW < row.len / maxW then
      let newX := int32 (e.curX + maxW)
      return { e with curX := if row.len < newX then row.len else newX }
    else if e.curY < e.numLines - 1 then
      let targetVCol := e.curX % maxW
      let row ← e.row (e.curY + 1)
      return { e with curY := e.curY + 1, curX := if row.len < targetVCol then row.len else targetVCol }
    else return e
  else if e.curY < e.numLines - 1 then return { e with curY := e.curY + 1 }
  else return e

def right (e : Editor) : EditM Editor := do
  let row ← e.row e.curY
  if e.curX < row.len then return { e with curX := e.curX + 1 }
  else if e.curY < e.numLines - 1 then return { e with curY := e.curY + 1, curX := 0 }
  else return e

def left (e : Editor) : EditM Editor := do
  if 0 < e.curX then return { e with curX := e.curX - 1 }
  else if 0 < e.curY then
    let row ← e.row (e.curY - 1)
    return { e with curY := e.curY - 1, curX := row.len }
  else return e

/-- The end of every arrow: the cursor does not stand behind its line. -/
def clampX (e : Editor) : EditM Editor := do
  let row ← e.row e.curY
  return { e with curX := if row.len < e.curX then row.len else e.curX }

/-- The `switch` over the letters A to D. -/
def moveCursor (e : Editor) (c : UInt8) : EditM Editor :=
  if c = 0x41 then up e
  else if c = 0x42 then down e
  else if c = 0x43 then right e
  else if c = 0x44 then left e
  else .ok e

def arrow (e : Editor) (c : UInt8) : EditM Editor := do clampX (← moveCursor e c)

/-- An iteration of the main loop; Ctrl+Q ends it. -/
def key (e : Editor) (k : Key) : EditM Editor :=
  if k.c = ctrlS then .ok e
  else if k.c = ctrlL then .ok (editorQuerySize e k.cols)
  else if k.c = ctrlZ then .ok { e with softWrap := !e.softWrap }
  else if k.c = 0x08 ∨ k.c = 0x7F then backspace k.memory e
  else if k.c = 0x0D ∨ k.c = 0x0A then enter k.memory e
  else if 32 ≤ k.c ∧ k.c ≤ 126 then printable k.memory e k.c
  else if k.c = escape then
    match k.seq0, k.seq1 with
    | some s0, some s1 => if s0 = 0x5B then arrow e s1 else .ok e
    | _, _ => .ok e
  else .ok e

/-! ### The start -/

/-- `edtr_ld` inserts the lines of the file one after another. -/
def loadLines (m : Nat → Memory) : List (List UInt8) → Editor → EditM Editor
  | [], e => .ok e
  | line :: lines, e => do loadLines m lines (← rowInsert (m lines.length) e e.numLines line line.length)

/-- The start with the cursor behind the last line. Without any line there is an empty one, in a block of one byte. -/
def start (m : Nat → Memory) (lines : List (List UInt8)) (screenCols : Int) : EditM Editor := do
  let e ← loadLines m lines ⟨[], 0, 0, 0, 0, false, screenCols⟩
  if e.numLines = 0 then return { e with rows := [⟨[0], 0, 1⟩], numLines := 1 }
  else
    let row ← e.row (e.numLines - 1)
    return { e with curY := e.numLines - 1, curX := row.len }

end NyanOS.Nyamo
