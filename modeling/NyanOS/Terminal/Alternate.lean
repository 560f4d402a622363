import NyanOS.Terminal.Screen

/-!
# The alternate screen

`main` of `progs/terminal.c` looks at every byte before `ansi_write_char` does, with a state machine of its own. What it
recognises switches between the two buffers, which share the cursor and the start of the ring. The pixels, and with them
`screen_state`, are not modelled; nor is a change of the window's size.
-/
namespace NyanOS.Terminal

open List

/-- The values 0 to 7 of `esc_state`, by what has been read. -/
inductive EscState where
  | none
  | esc
  | csi
  | question
  | two
  | twoFive
  | four
  | fourSeven
  deriving DecidableEq

inductive EscAction where
  | pass
  | swallow
  | report
  | showCursor (visible : Bool)
  | enter
  | leave
  deriving DecidableEq

/-- The chain of conditions on `esc_state` and the byte. -/
def escStep (state : EscState) (c : UInt8) : EscState × EscAction :=
  if state = .none ∧ c = escape then (.esc, .pass)
  else if state = .esc ∧ c = '['.toUInt8 then (.csi, .pass)
  else if state = .csi ∧ c = 'q'.toUInt8 then (.none, .report)
  else if state = .csi ∧ c = '?'.toUInt8 then (.question, .swallow)
  else if state = .question ∧ c = '2'.toUInt8 then (.two, .swallow)
  else if state = .two ∧ c = '5'.toUInt8 then (.twoFive, .swallow)
  else if state = .twoFive ∧ c = 'l'.toUInt8 then (.none, .showCursor false)
  else if state = .twoFive ∧ c = 'h'.toUInt8 then (.none, .showCursor true)
  else if state = .question ∧ c = '4'.toUInt8 then (.four, .swallow)
  else if state = .four ∧ c = '7'.toUInt8 then (.fourSeven, .swallow)
  else if state = .fourSeven ∧ c = 'h'.toUInt8 then (.none, .enter)
  else if state = .fourSeven ∧ c = 'l'.toUInt8 then (.none, .leave)
  else (.none, .pass)

/-- The variables of `main`; `text_buf` is `alt_buf` when `is_alt` is set and `main_buf` otherwise. -/
structure Main where
  mainBuf : Buffer
  altBuf : Buffer
  isAlt : Bool
  curRow : Int
  curCol : Int
  startLine : Int
  fg : Color
  bg : Color
  savedCurRow : Int
  savedCurCol : Int
  savedStartLine : Int
  savedFg : Color
  savedBg : Color
  ansi : AnsiContext
  escState : EscState
  curVis : Bool
  shellDead : Bool
  replies : List UInt8

def endOfTransmission : UInt8 := 0x04

def bytesOf (s : String) : List UInt8 := s.toList.map Char.toUInt8

def closedMessage : List UInt8 := bytesOf "\n\n[Shell closed. Press any key to exit.]"

namespace Main

/-- What the driver works on. -/
def term (m : Main) : Term :=
  ⟨if m.isAlt then m.altBuf else m.mainBuf, m.curRow, m.curCol, m.startLine, m.fg, m.bg⟩

def setTerm (m : Main) (t : Term) : Main :=
  { m with
    mainBuf := if m.isAlt then m.mainBuf else t.textBuf
    altBuf := if m.isAlt then t.textBuf else m.altBuf
    curRow := t.curRow
    curCol := t.curCol
    startLine := t.startLine
    fg := t.fg
    bg := t.bg }

/-- `ansi_ctx.state = ANSI_NORMAL; ansi_ctx.idx = 0`. -/
def resetAnsi (m : Main) : Main := { m with ansi := { m.ansi with state := .normal, buf := [] } }

variable (rows cols : Nat)

/-- `ansi_write_char(&ansi_ctx, c, &term_driver, NULL)`. -/
def write (m : Main) (c : UInt8) : Main :=
  let (ctx, t) := writeChar rows cols (m.ansi, m.term) c
  { m.setTerm t with ansi := ctx }

def enterAlt (m : Main) : Main :=
  { m with
    isAlt := true
    savedCurRow := m.curRow
    savedCurCol := m.curCol
    savedStartLine := m.startLine
    savedFg := m.fg
    savedBg := m.bg
    altBuf := fill (blank m.fg m.bg) m.altBuf 0 (rows * cols)
    curCol := 0
    curRow := 0
    startLine := 0 }

def leaveAlt (m : Main) : Main :=
  { m with
    isAlt := false
    curRow := m.savedCurRow
    curCol := m.savedCurCol
    startLine := m.savedStartLine
    fg := m.savedFg
    bg := m.savedBg }

/-- What a byte from the shell does. -/
def act (m : Main) (c : UInt8) : EscAction → Main
  | .pass =>
    if c = endOfTransmission then { closedMessage.foldl (write rows cols) m with shellDead := true }
    else m.write rows cols c
  | .swallow => m
  | .report =>
    { m.resetAnsi with
      replies := m.replies ++ [escape, UInt8.ofNat cols, UInt8.ofNat rows, 'Q'.toUInt8] }
  | .showCursor visible => { m.resetAnsi with curVis := visible }
  | .enter => (m.enterAlt rows cols).resetAnsi
  | .leave => m.leaveAlt.resetAnsi

/-- One byte from the shell. After the end of the shell nothing more is read. -/
def read (m : Main) (c : UInt8) : Main :=
  if m.shellDead then m
  else
    let (state, action) := escStep m.escState c
    { m with escState := state }.act rows cols c action

/-- The state in which `main` starts to read. -/
def initial : Main :=
  let buf := fill (blank white black) (fun _ => ⟨0, 0, 0⟩) 0 (rows * cols)
  ⟨buf, buf, false, 0, 0, 0, white, black, 0, 0, 0, 0, 0, ⟨white, .normal, []⟩, .none, true, false, []⟩

/-- Neither of the two state machines is inside an escape sequence. -/
def OutsideEscape (m : Main) : Prop := m.escState = .none ∧ m.ansi.state = .normal

instance (m : Main) : Decidable m.OutsideEscape := inferInstanceAs (Decidable (_ ∧ _))

end Main

/-- The bytes `ESC [ ? 4 7`. -/
def alternateBytes : List UInt8 := escape :: bytesOf "[?47"

def enterBytes : List UInt8 := alternateBytes ++ ['h'.toUInt8]

def leaveBytes : List UInt8 := alternateBytes ++ ['l'.toUInt8]

variable {rows cols : Nat} {m before : Main} {c : UInt8}

/-! ### The bytes that switch -/

/-- The same with the two state machines elsewhere. -/
def Main.at (m : Main) (state : EscState) (ctx : AnsiContext) : Main := { m with escState := state, ansi := ctx }

section
variable {state state' : EscState} {ctx ctx' : AnsiContext}

theorem read_eq (halive : m.shellDead = false) :
    m.read rows cols c = { m with escState := (escStep m.escState c).1 }.act rows cols c (escStep m.escState c).2 :=
  if_neg (by simp [halive])

theorem read_quiet (halive : m.shellDead = false) (hstep : escStep state c = (state', .pass))
    (hc : c ≠ endOfTransmission) (hansi : ansiWriteChar ctx c = (ctx', [])) :
    (m.at state ctx).read rows cols c = m.at state' ctx' := by
  rw [read_eq (by exact halive)]
  simp only [Main.at, hstep, Main.act, if_neg hc, Main.write, writeChar, hansi, foldl_nil]
  cases m.isAlt <;> simp [Main.setTerm, Main.term]

theorem read_swallow (halive : m.shellDead = false) (hstep : escStep state c = (state', .swallow)) :
    (m.at state ctx).read rows cols c = m.at state' ctx := by
  rw [read_eq (by exact halive)]
  simp only [Main.at, hstep, Main.act]

end

/-- Outside of an escape sequence both state machines follow the bytes up to the last one. -/
theorem read_alternateBytes (hout : m.OutsideEscape) (halive : m.shellDead = false) :
    alternateBytes.foldl (Main.read rows cols) m = m.at .fourSeven { m.ansi with state := .csi, buf := [] } := by
  obtain ⟨hesc, hansi⟩ := hout
  have hnormal : ansiWriteChar m.ansi escape = ({ m.ansi with state := .esc }, []) := by
    simp [ansiWriteChar, hansi]
  have hfirst : m.read rows cols escape = m.at .esc { m.ansi with state := .esc } :=
    read_quiet halive (show escStep m.escState escape = _ by rw [hesc]; rfl) (by decide) hnormal
  have hsecond : (m.at .esc { m.ansi with state := .esc }).read rows cols '['.toUInt8
      = m.at .csi { m.ansi with state := .csi, buf := [] } := read_quiet halive rfl (by decide) rfl
  change ([_, _, _] : List UInt8).foldl _ ((m.read rows cols escape).read rows cols '['.toUInt8) = _
  rw [hfirst, hsecond]
  simp only [foldl_cons, foldl_nil]
  rw [read_swallow halive (rfl : _ = (EscState.question, _)), read_swallow halive (rfl : _ = (EscState.four, _)),
    read_swallow halive (rfl : _ = (EscState.fourSeven, _))]

/-! ### A stream between the two -/

/-- The alternate screen is shown; the main one, and what is restored with it, are as they were. -/
structure Alternate (before m : Main) : Prop where
  isAlt : m.isAlt = true
  alive : m.shellDead = false
  mainBuf : m.mainBuf = before.mainBuf
  row : m.savedCurRow = before.curRow
  col : m.savedCurCol = before.curCol
  start : m.savedStartLine = before.startLine
  fg : m.savedFg = before.fg
  bg : m.savedBg = before.bg

theorem Alternate.write (h : Alternate before m) : Alternate before (m.write rows cols c) :=
  ⟨h.isAlt, h.alive, (if_pos h.isAlt).trans h.mainBuf, h.row, h.col, h.start, h.fg, h.bg⟩

theorem Alternate.read (h : Alternate before m) (hc : c ≠ endOfTransmission)
    (henter : (escStep m.escState c).2 ≠ .enter) (hleave : (escStep m.escState c).2 ≠ .leave) :
    Alternate before (m.read rows cols c) ∧ (m.read rows cols c).escState = (escStep m.escState c).1 := by
  rcases hstep : escStep m.escState c with ⟨state, action⟩
  rw [hstep] at henter hleave
  have hmoved : Alternate before { m with escState := state } :=
    ⟨h.isAlt, h.alive, h.mainBuf, h.row, h.col, h.start, h.fg, h.bg⟩
  rw [read_eq h.alive, hstep]
  cases action with
  | pass =>
    rw [Main.act, if_neg hc]
    exact ⟨hmoved.write, rfl⟩
  | swallow => exact ⟨hmoved, rfl⟩
  | report => exact ⟨⟨h.isAlt, h.alive, h.mainBuf, h.row, h.col, h.start, h.fg, h.bg⟩, rfl⟩
  | showCursor visible => exact ⟨⟨h.isAlt, h.alive, h.mainBuf, h.row, h.col, h.start, h.fg, h.bg⟩, rfl⟩
  | enter => exact absurd rfl henter
  | leave => exact absurd rfl hleave

/-- The bytes that led to a state. -/
def EscState.pending : EscState → List UInt8
  | .none => []
  | .esc => [escape]
  | .csi => escape :: bytesOf "["
  | .question => escape :: bytesOf "[?"
  | .two => escape :: bytesOf "[?2"
  | .twoFive => escape :: bytesOf "[?25"
  | .four => escape :: bytesOf "[?4"
  | .fourSeven => alternateBytes

theorem escStep_pending (state : EscState) (c : UInt8) : (escStep state c).1.pending <:+ state.pending ++ [c] := by
  cases state <;> simp only [escStep, reduceCtorEq, false_and, true_and, if_false] <;> split_ifs
  all_goals first
    | exact nil_suffix
    | (subst c; decide)

theorem escStep_enter {state : EscState} (h : (escStep state c).2 = .enter) : state.pending ++ [c] = enterBytes := by
  cases state <;> simp only [escStep, reduceCtorEq, false_and, true_and, if_false] at h <;> split_ifs at h
  subst c
  rfl

theorem escStep_leave {state : EscState} (h : (escStep state c).2 = .leave) : state.pending ++ [c] = leaveBytes := by
  cases state <;> simp only [escStep, reduceCtorEq, false_and, true_and, if_false] at h <;> split_ifs at h
  subst c
  rfl

/-- A stream without the two sequences: a switch would have to end in the bytes that are read. -/
theorem Alternate.stream {done bytes : List UInt8} (h : Alternate before m) (hpending : m.escState.pending <:+ done)
    (hend : endOfTransmission ∉ bytes) (henter : ¬ enterBytes <:+: done ++ bytes)
    (hleave : ¬ leaveBytes <:+: done ++ bytes) : Alternate before (bytes.foldl (Main.read rows cols) m) := by
  induction bytes generalizing m done with
  | nil => exact h
  | cons c bytes ih =>
    have hsuffix : m.escState.pending ++ [c] <:+ done ++ [c] := by
      obtain ⟨pre, rfl⟩ := hpending
      exact ⟨pre, by simp⟩
    have hinside {switch : List UInt8} (heq : m.escState.pending ++ [c] = switch) : switch <:+: done ++ c :: bytes := by
      obtain ⟨pre, hpre⟩ := hsuffix
      exact ⟨pre, bytes, by rw [← heq, hpre]; simp⟩
    have hc : c ≠ endOfTransmission := fun heq => hend (heq ▸ mem_cons_self)
    obtain ⟨hread, hstate⟩ : Alternate before (m.read rows cols c) ∧ _ :=
      h.read hc (fun heq => henter (hinside (escStep_enter heq))) (fun heq => hleave (hinside (escStep_leave heq)))
    have hpending' : (m.read rows cols c).escState.pending <:+ done ++ [c] := by
      rw [hstate]
      exact (escStep_pending m.escState c).trans hsuffix
    refine ih hread hpending' (fun hmem => hend (mem_cons_of_mem c hmem)) ?_ ?_
    · simpa using henter
    · simpa using hleave

theorem read_enterBytes (hout : m.OutsideEscape) (halive : m.shellDead = false) :
    Alternate m (enterBytes.foldl (Main.read rows cols) m)
      ∧ (enterBytes.foldl (Main.read rows cols) m).escState = .none := by
  rw [enterBytes, foldl_append, read_alternateBytes hout halive, foldl_cons, foldl_nil, read_eq (by exact halive)]
  exact ⟨⟨rfl, halive, rfl, rfl, rfl, rfl, rfl, rfl⟩, rfl⟩

theorem Alternate.leave (h : Alternate before m) (hout : m.OutsideEscape) (halt : before.isAlt = false) :
    (leaveBytes.foldl (Main.read rows cols) m).isAlt = false
      ∧ (leaveBytes.foldl (Main.read rows cols) m).term = before.term := by
  rw [leaveBytes, foldl_append, read_alternateBytes hout h.alive, foldl_cons, foldl_nil, read_eq (by exact h.alive)]
  refine ⟨rfl, ?_⟩
  change Term.mk m.mainBuf m.savedCurRow m.savedCurCol m.savedStartLine m.savedFg m.savedBg = _
  rw [h.mainBuf, h.row, h.col, h.start, h.fg, h.bg, Main.term, halt]
  rfl

/-- The terminal shows the abstract screen after every stream, and the alternate screen leaves no trace on the main one:
its cells, the cursor, the start of the ring and the colours are those before the switch. -/
theorem terminal_refines_screen (hrows : 1 ≤ rows) (hcols : 1 ≤ cols) : (∀ bytes : List UInt8,
      let t := (bytes.foldl (writeChar rows cols) (initial rows cols)).2
      let s := (bytes.foldl Screen.write (Screen.start hrows hcols)).2
      (0 ≤ t.curRow ∧ t.curRow < rows) ∧ (0 ≤ t.curCol ∧ t.curCol < cols) ∧ (0 ≤ t.startLine ∧ t.startLine < rows)
        ∧ ∀ (r : Fin rows) (c : Fin cols), t.cell rows cols r c = s.grid r c)
    ∧ ∀ (m : Main) (bytes : List UInt8), m.isAlt = false → m.shellDead = false → m.OutsideEscape →
      endOfTransmission ∉ bytes → ¬ enterBytes <:+: bytes → ¬ leaveBytes <:+: bytes →
      ((enterBytes ++ bytes).foldl (Main.read rows cols) m).OutsideEscape →
      let after := (enterBytes ++ bytes ++ leaveBytes).foldl (Main.read rows cols) m
      after.isAlt = false ∧ after.term = m.term := by
  refine ⟨fun bytes => ?_, fun m bytes halt halive hout hend henter hleave hout' => ?_⟩
  · have hshows := stream_shows ⟨white, .normal, []⟩ (initial_shows hrows hcols) bytes
    have hbounds := hshows.inBounds
    exact ⟨⟨hbounds.1, hbounds.2.1⟩, hbounds.2.2, hshows.start, hshows.cells⟩
  · obtain ⟨hentered, hstate⟩ : Alternate m (enterBytes.foldl (Main.read rows cols) m) ∧ _ := read_enterBytes hout halive
    have hstream : Alternate m ((enterBytes ++ bytes).foldl (Main.read rows cols) m) := by
      rw [foldl_append]
      have hpending : (enterBytes.foldl (Main.read rows cols) m).escState.pending <:+ [] := by
        rw [hstate]
        exact nil_suffix
      exact hentered.stream hpending hend henter hleave
    dsimp only
    rw [foldl_append]
    exact hstream.leave hout' halt

/-- A letter on the alternate screen. -/
theorem terminal_refines_screen_letter :
    ((enterBytes ++ bytesOf "a" ++ leaveBytes).foldl (Main.read 2 3) (Main.initial 2 3)).term = (Main.initial 2 3).term :=
  ((terminal_refines_screen (by decide) (by decide)).2 (Main.initial 2 3) (bytesOf "a") rfl rfl (by decide) (by decide)
    (by decide) (by decide) (by decide)).2

end NyanOS.Terminal
