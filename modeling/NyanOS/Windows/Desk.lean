import NyanOS.Windows.Clip

/-!
# What the user does with windows (`gui/window.c`)

The desktop is created first and has no border, so that it stays at the bottom; the other windows are a list from the
lowest to the top. Of a request for memory only the answer is modelled, of the pixels only their number, and events are not.
-/
namespace NyanOS.Screen

open Lib

def winTitleBarHeight : Nat := 20
def winBorderSize : Nat := 1
def winMinW : Int := 70
def winMinH : Int := 40
def winResizeMargin : Int := 3

/-- The bits of `resize_dir`. -/
structure Dir where
  left : Bool
  right : Bool
  top : Bool
  bottom : Bool
  deriving DecidableEq

def resNone : Dir := ⟨false, false, false, false⟩

/-- `drag_ctx` with a target. -/
structure WinDragCtx where
  target : Nat
  offX : Int
  offY : Int
  resizeDir : Dir

structure Desk where
  desktop : Window
  windows : List Window
  dragCtx : Option WinDragCtx
  prevLeftBtn : Bool
  prevRightBtn : Bool

namespace Desk

/-- The whole list, from `g_win_list` on. -/
def list (d : Desk) : List Window := d.desktop :: d.windows

def find (d : Desk) (id : Nat) : Option Window := d.windows.find? (·.id = id)

/-- Whether a window is `g_win_top`. -/
def isTop (d : Desk) (id : Nat) : Bool := d.windows.getLast?.map Window.id = some id

def update (d : Desk) (id : Nat) (f : Window → Window) : Desk :=
  { d with windows := d.windows.map fun w => if w.id = id then f w else w }

end Desk

/-! ### Flags -/

def Window.stain (w : Window) : Window := { w with flags := { w.flags with dirty := true } }

def winStainList (l : List Window) : List Window := l.map Window.stain

def Desk.stainAll (d : Desk) : Desk := { d with desktop := d.desktop.stain, windows := winStainList d.windows }

/-- `win_redraw_titlebar` -/
def winRedrawTitlebar (w : Window) : Window := if w.flags.borderless then w else w.stain

/-- `win_draw_taskbar` -/
def winDrawTaskbar (d : Desk) : Desk := { d with desktop := d.desktop.stain }

/-! ### Positions and sizes -/

def isPointInRect (px py rx ry rw rh : Int) : Bool := rx ≤ px && px < rx + rw && ry ≤ py && py < ry + rh

def winMove (win : Window) (newX newY : Int) : Window := { win with x := newX, y := newY }

/-- `win_resize`, which does nothing without memory for the pixels: no more than there are physical addresses. -/
def winResize (ok : Bool) (win : Window) (newX newY : Int) (newW newH : Nat) : Window :=
  if ok = true ∧ newH * newW * 4 < 2 ^ 52 then
    Window.stain { win with x := newX, y := newY, width := newW, height := newH, pixelsSize := newH * newW * 4 }
  else win

def Window.savePlace (win : Window) : Window :=
  { win with preX := win.x, preY := win.y, preW := win.width, preH := win.height }

/-- What `win_toggle_maximize` does to the window. -/
def maximize (v : Video) (ok : Bool) (win : Window) : Window :=
  let usableH := v.height - taskbarHeight
  match win.state with
  | .normal => winResize ok { win.savePlace with state := .maximized } 0 0 v.width usableH
  | .maximized => winResize ok { win with state := .normal } win.preX win.preY win.preW win.preH
  | .minimized => winResize ok { win with state := .maximized } 0 0 v.width usableH

/-- What `win_toggle_minimize` does to the window. -/
def minimize (ok : Bool) (win : Window) : Window :=
  if win.state = .minimized then
    winResize ok { win with state := win.preState } win.x win.y win.width win.preH
  else
    winResize ok { win.savePlace with preState := win.state, state := .minimized } win.x win.y win.width winTitleBarHeight

def winToggleMaximize (v : Video) (ok : Bool) (d : Desk) (id : Nat) : Desk := (d.update id (maximize v ok)).stainAll

def winToggleMinimize (ok : Bool) (d : Desk) (id : Nat) : Desk := (d.update id (minimize ok)).stainAll

/-! ### The order -/

def winFocus (d : Desk) (id : Nat) : Desk :=
  match d.find id with
  | none => d
  | some win =>
    if win.flags.borderless = true ∨ d.isTop id = true then d
    else Desk.stainAll { d with windows := d.windows.filter (·.id ≠ id) ++ [win] }

def winCycleFocus (ok : Bool) (d : Desk) : Desk :=
  match d.windows.find? fun w => !w.flags.borderless && !d.isTop w.id with
  | none => d
  | some curr => winFocus (if curr.state = .minimized then winToggleMinimize ok d curr.id else d) curr.id

def winClose (d : Desk) (id : Nat) : Desk :=
  Desk.stainAll { d with
    windows := d.windows.filter (·.id ≠ id)
    dragCtx := if d.dragCtx.map WinDragCtx.target = some id then none else d.dragCtx }

/-- The window of `win_create`. -/
def newWindow (id : Nat) (x y : Int) (width height : Nat) (flags : WinFlags) : Window :=
  let w := if flags.borderless then width else width + winBorderSize * 2
  let h := if flags.borderless then height else height + (winTitleBarHeight + winBorderSize * 2)
  { id := id, x := x, y := y, width := w, height := h, desktop := false, flags := { flags with dirty := true }
    state := .normal, preState := .normal, preX := x, preY := y, preW := width, preH := height
    pixelsSize := h * w * 4, clipList := [⟨x, y, w, h⟩] }

def winCreate (d : Desk) (id : Nat) (x y : Int) (width height : Nat) (flags : WinFlags) : Desk :=
  let old := d.windows.map fun w => if d.isTop w.id then winRedrawTitlebar w else w
  let d := { d with windows := old ++ [newWindow id x y width height flags] }
  if flags.borderless then d else winDrawTaskbar d

/-- `sys_create_win` looks at the numbers of the program. -/
def sysCreateWin (v : Video) (d : Desk) (id : Nat) (x y : Int) (width height : Nat) (flags : WinFlags) : Desk :=
  let width := if width = 0 then 100 else width
  let height := if height = 0 then 100 else height
  winCreate d id (max 0 x) (max 0 y) (min width v.width) (min height v.height) flags

/-! ### The mouse -/

structure Mouse where
  mx : Int
  my : Int
  left : Bool
  right : Bool

/-- The mouse starts at (100, 100) and then stays on the screen, with its pointer of 4 by 4 pixels. -/
structure Mouse.On (v : Video) (m : Mouse) : Prop where
  x : 0 ≤ m.mx ∧ m.mx ≤ max 100 (v.width - 4 : Int)
  y : 0 ≤ m.my ∧ m.my ≤ max 100 (v.height - 4 : Int)

/-- `get_win_at`; `none` is the desktop, which has the taskbar. -/
def getWinAt (v : Video) (d : Desk) (mx my : Int) : Option Window :=
  if v.height - taskbarHeight ≤ my then none
  else d.windows.reverse.find? fun w => isPointInRect mx my w.x w.y w.width w.height

def getResizeDir (win : Window) (mx my : Int) : Dir :=
  if win.flags.resizable = false ∨ win.state = .minimized then resNone
  else
    let near (m edge : Int) : Bool := m ≤ edge + winResizeMargin && edge - winResizeMargin ≤ m
    ⟨near mx win.x, near mx (win.x + win.width), near my win.y, near my (win.y + win.height)⟩

def checkWinDrag (win : Window) (mx my : Int) : Bool :=
  win.flags.movable && isPointInRect mx my win.x win.y win.width winTitleBarHeight

/-- The new `x` and width of a window while it is resized, if they change. -/
def resizeX (dir : Dir) (win : Window) (mx : Int) : Option (Int × Int) :=
  if dir.left then
    let tmpW := win.x + win.width - mx
    if winMinW ≤ tmpW ∧ tmpW ≠ win.width then some (mx, tmpW) else none
  else if dir.right then
    let tmpW := mx - win.x
    if winMinW ≤ tmpW ∧ tmpW ≠ win.width then some (win.x, tmpW) else none
  else none

/-- And the new `y` and height, where the lower edge stops at the taskbar. -/
def resizeY (v : Video) (dir : Dir) (win : Window) (my : Int) : Option (Int × Int) :=
  if dir.top then
    let tmpH := win.y + win.height - my
    if winMinH ≤ tmpH ∧ tmpH ≠ win.height then some (my, tmpH) else none
  else if dir.bottom then
    let tmpH := min my (v.height - taskbarHeight) - win.y
    if winMinH ≤ tmpH ∧ tmpH ≠ win.height then some (win.y, tmpH) else none
  else none

/-- A window that is moved or resized is no longer maximized. -/
def Window.unmaximize (win : Window) : Window := { win with state := if win.state = .minimized then .minimized else .normal }

/-- What a drag of an edge does to the window, if anything. -/
def resizeTo (v : Video) (ok : Bool) (dir : Dir) (mx my : Int) (win : Window) : Option Window :=
  match resizeX dir win mx, resizeY v dir win my with
  | none, none => none
  | newX, newY =>
    let (x, w) := newX.getD (win.x, win.width)
    let (y, h) := newY.getD (win.y, win.height)
    some (winResize ok win x y w.toNat h.toNat).unmaximize

def moveTo (v : Video) (ctx : WinDragCtx) (mx my : Int) (win : Window) : Window :=
  let maxY : Int := v.height - taskbarHeight - winTitleBarHeight
  (winMove win (mx - ctx.offX) (max 0 (min maxY (my - ctx.offY)))).unmaximize

/-- The left button is held with a target. -/
def dragTarget (v : Video) (ok : Bool) (d : Desk) (ctx : WinDragCtx) (mx my : Int) : Desk :=
  if ctx.resizeDir ≠ resNone then
    match (d.find ctx.target).bind (resizeTo v ok ctx.resizeDir mx my) with
    | none => d
    | some win => (d.update ctx.target fun _ => win).stainAll
  else (d.update ctx.target (moveTo v ctx mx my)).stainAll

/-- The loop of `handle_taskbar_click` over the buttons of the windows. -/
def taskbarButton (mx maxX : Int) : Int → List Window → Option Window
  | _, [] => none
  | currX, w :: ws =>
    if w.flags.borderless = true ∨ maxX < currX + 104 then taskbarButton mx maxX currX ws
    else if currX ≤ mx ∧ mx < currX + 100 then some w
    else taskbarButton mx maxX (currX + 104) ws

/-- `handle_taskbar_click`; the buttons on the left start programs. -/
def handleTaskbarClick (v : Video) (ok : Bool) (d : Desk) (mx my : Int) : Desk :=
  let btnY : Int := v.height - taskbarHeight + 4
  let btnH : Int := taskbarHeight - 8
  if my < btnY ∨ btnY + btnH ≤ my then d
  else if (4 ≤ mx ∧ mx < 66) ∨ (70 ≤ mx ∧ mx < 132) ∨ (136 ≤ mx ∧ mx < 198) then d
  else
    match taskbarButton mx (v.width - 84) 212 d.windows with
    | none => d
    | some w =>
      winDrawTaskbar <|
        if w.state = .minimized then winFocus (winToggleMinimize ok d w.id) w.id
        else if d.isTop w.id then (if w.flags.minimizable then winToggleMinimize ok d w.id else d)
        else winFocus d w.id

/-- The left button goes down at a window: on one of its buttons, or else it gets the focus and a drag may begin. The
close button kills the owner of the window, whose exit closes the window later. -/
def pressWindow (v : Video) (ok : Bool) (d : Desk) (win : Window) (mx my : Int) : Desk :=
  let offMx := mx - win.x
  let offMy := my - win.y
  let btnSize : Int := winTitleBarHeight
  let button (n : Int) : Bool := isPointInRect offMx offMy (win.width - n * btnSize) 0 btnSize btnSize
  if button 1 then d
  else if win.flags.resizable && button 2 then winToggleMaximize v ok (winFocus d win.id) win.id
  else if win.flags.minimizable && button 3 then winDrawTaskbar (winToggleMinimize ok d win.id)
  else
    let d := winFocus d win.id
    let resDir := getResizeDir win mx my
    if resDir ≠ resNone ∨ checkWinDrag win mx my = true then
      { d with dragCtx := some ⟨win.id, offMx, offMy, resDir⟩ }
    else d

/-- The end of a drag; a window that was resized is drawn anew. -/
def endDrag (d : Desk) : Desk :=
  match d.dragCtx with
  | none => d
  | some ctx =>
    { if ctx.resizeDir ≠ resNone then d.update ctx.target Window.stain else d with dragCtx := none }

/-- The left button is not down. -/
def releaseWindow (v : Video) (d : Desk) (m : Mouse) : Desk :=
  let d := endDrag d
  match getWinAt v d m.mx m.my with
  | none => d
  | some hover =>
    if m.right = true ∧ d.prevRightBtn = false ∧ hover.state ≠ .minimized then winFocus d hover.id else d

def winUpdate (v : Video) (ok : Bool) (d : Desk) (m : Mouse) : Desk :=
  let isJustPressed : Bool := m.left && !d.prevLeftBtn
  let d :=
    if m.left then
      match d.dragCtx with
      | some ctx => dragTarget v ok d ctx m.mx m.my
      | none =>
        if isJustPressed = false then d
        else if v.height - taskbarHeight ≤ m.my then handleTaskbarClick v ok d m.mx m.my
        else
          match getWinAt v d m.mx m.my with
          | none => d
          | some win => pressWindow v ok d win m.mx m.my
    else releaseWindow v d m
  { d with prevLeftBtn := m.left, prevRightBtn := m.right }

/-! ### Runs -/

/-- `ok` is whether there is memory for the pixels of a window that changes its size. -/
inductive DeskAct where
  | create (id : Nat) (x y : Int) (width height : Nat) (flags : WinFlags)
  | mouse (m : Mouse) (ok : Bool)
  | cycle (ok : Bool)
  | close (id : Nat)

instance {v : Video} {m : Mouse} : Decidable (m.On v) :=
  decidable_of_iff ((0 ≤ m.mx ∧ m.mx ≤ max 100 (v.width - 4 : Int)) ∧ 0 ≤ m.my ∧ m.my ≤ max 100 (v.height - 4 : Int))
    ⟨fun h => ⟨h.1, h.2⟩, fun h => ⟨h.x, h.y⟩⟩

/-- A new window has an address of its own, and coordinates whose sums are numbers of 64 bits. -/
def deskTo (v : Video) (d : Desk) : DeskAct → Option Desk
  | .create id x y width height flags =>
    if d.find id = none ∧ x < 2 ^ 62 ∧ y < 2 ^ 62 then some (sysCreateWin v d id x y width height flags) else none
  | .mouse m ok => if m.On v then some (winUpdate v ok d m) else none
  | .cycle ok => some (winCycleFocus ok d)
  | .close id => if d.find id = none then none else some (winClose d id)

/-- `init_desktop` -/
def initDesktop (v : Video) (id : Nat) : Desk where
  desktop := { newWindow id 0 0 v.width v.height ⟨false, false, false, true, true⟩ with desktop := true }
  windows := []
  dragCtx := none
  prevLeftBtn := false
  prevRightBtn := false

end NyanOS.Screen
