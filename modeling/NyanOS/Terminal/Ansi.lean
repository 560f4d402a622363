import Mathlib.Tactic

/-!
# Escape sequences (`libc/ansi.c`)

`ansi_write_char` takes the bytes of a stream one at a time and calls the functions of a driver. The model returns the calls.
-/
namespace NyanOS.Terminal

abbrev Color := UInt32

def black : Color := 0x000000
def blue : Color := 0x0000AA
def green : Color := 0x00AA00
def cyan : Color := 0x00AAAA
def red : Color := 0xAA0000
def magenta : Color := 0xAA00AA
def white : Color := 0xFFFFFF
def yellow : Color := 0xFFFF00

/-- `g_ansi_palette`: the colours of the codes 30 to 37. -/
def gAnsiPalette : List Color := [black, red, green, yellow, blue, magenta, cyan, white]

/-- A call of one of the functions of `AnsiDriver`; nothing calls `scroll`. -/
inductive DriverCall where
  | putChar (c : UInt8)
  | setColor (color : Color)
  | setCursor (x y : Int)
  | clearScreen (mode : Int)
  | setMode (mode : Int) (enabled : Bool)
  deriving DecidableEq

inductive AnsiState where
  | normal
  | esc
  | csi
  deriving DecidableEq

/-- `AnsiContext`. The list holds the first `idx` bytes of the buffer; the others are 0 while a sequence is read. -/
structure AnsiContext where
  color : Color
  state : AnsiState
  buf : List UInt8
  deriving DecidableEq

def escape : UInt8 := 0x1b

def ansiBufSize : Nat := 32

def isDigit (c : UInt8) : Bool := '0'.toUInt8 ≤ c && c ≤ '9'.toUInt8

/-- The value of an `int` after arithmetic that may overflow. -/
def wrapInt (n : Int) : Int := n.bmod (2 ^ 32)

/-- `ansi_atoi` on a string without its terminator. -/
def ansiAtoi (s : List UInt8) : Int :=
  ((s.dropWhile (!isDigit ·)).takeWhile isDigit).foldl
    (fun res d => wrapInt (res * 10 + (d.toNat - '0'.toUInt8.toNat : Int))) 0

/-- `parse_ansi_params`: the values it writes; the other ones of the four stay 0. -/
def parseAnsiParams (buf : List UInt8) : List Int :=
  ((buf.splitOn ';'.toUInt8).take 4).map ansiAtoi

/-- The colours that `ESC [ ... m` selects, in order. -/
def colorsOf (params : List Int) : List Color :=
  params.filterMap fun code =>
    if 30 ≤ code ∧ code ≤ 37 then gAnsiPalette[(code - 30).toNat]?
    else if code = 0 then some white
    else none

/-- A coordinate of `ESC [ r ; c H`: 1 when it is missing. -/
def coordinate (param : Int) : Int := if param > 0 then param else 1

/-- The calls of the command that ends in `c`. -/
def csiCommand (c : UInt8) (params : List Int) : List DriverCall :=
  let param i := params.getD i 0
  if c = 'H'.toUInt8 ∨ c = 'f'.toUInt8 then [.setCursor (coordinate (param 1) - 1) (coordinate (param 0) - 1)]
  else if c = 'J'.toUInt8 then if param 0 = 2 then [.clearScreen 2] else []
  else if c = 'm'.toUInt8 then (colorsOf params).map .setColor
  else if c = 'h'.toUInt8 then if param 0 ≠ 0 then [.setMode (param 0) true] else []
  else if c = 'l'.toUInt8 then if param 0 ≠ 0 then [.setMode (param 0) false] else []
  else []

/-- `ansi_write_char`. -/
def ansiWriteChar (ctx : AnsiContext) (c : UInt8) : AnsiContext × List DriverCall :=
  match ctx.state with
  | .normal => if c = escape then ({ ctx with state := .esc }, []) else (ctx, [.putChar c])
  | .esc =>
    if c = '['.toUInt8 then ({ ctx with state := .csi, buf := [] }, [])
    else ({ ctx with state := .normal }, [])
  | .csi =>
    if isDigit c ∨ c = ';'.toUInt8 ∨ c = '?'.toUInt8 then
      if ctx.buf.length < ansiBufSize - 1 then ({ ctx with buf := ctx.buf ++ [c] }, []) else (ctx, [])
    else
      let params := parseAnsiParams ctx.buf
      let color := if c = 'm'.toUInt8 then (colorsOf params).getLastD ctx.color else ctx.color
      ({ ctx with color, state := .normal }, csiCommand c params)

theorem coordinate_pos (param : Int) : 0 ≤ coordinate param - 1 := by
  unfold coordinate
  split <;> omega

/-- What a driver can be asked to do: the cursor is never sent to a negative place. -/
def DriverCall.Sound : DriverCall → Prop
  | .setCursor x y => 0 ≤ x ∧ 0 ≤ y
  | _ => True

theorem csiCommand_sound (c : UInt8) (params : List Int) : ∀ call ∈ csiCommand c params, call.Sound := by
  intro call hcall
  unfold csiCommand at hcall
  dsimp only at hcall
  split_ifs at hcall <;> simp only [List.mem_cons, List.not_mem_nil, or_false, List.mem_map] at hcall
  · subst hcall
    exact ⟨coordinate_pos _, coordinate_pos _⟩
  · subst hcall
    trivial
  · obtain ⟨color, -, rfl⟩ := hcall
    trivial
  · subst hcall
    trivial
  · subst hcall
    trivial

theorem ansiWriteChar_sound (ctx : AnsiContext) (c : UInt8) : ∀ call ∈ (ansiWriteChar ctx c).2, call.Sound := by
  intro call hcall
  unfold ansiWriteChar at hcall
  cases hstate : ctx.state <;> simp only [hstate] at hcall
  case csi =>
    split at hcall
    · split at hcall <;> cases hcall
    · exact csiCommand_sound c _ call hcall
  all_goals
    split_ifs at hcall <;> simp only [List.mem_singleton, List.not_mem_nil] at hcall
  subst hcall
  trivial

end NyanOS.Terminal
