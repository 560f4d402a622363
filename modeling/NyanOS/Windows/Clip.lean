import NyanOS.Lib.Rect

/-!
# Clip lists (`gui/window.c`)

Corners are `int64_t` and sizes `uint64_t`. The windows above a window are a list; the rectangles come from a pool.
-/
namespace NyanOS.Screen

open Lib

def taskbarHeight : Nat := 28

/-- Conversions to `uint64_t` and to `int64_t`. -/
def u64 (n : Int) : Nat := (n % 2 ^ 64).toNat

def s64 (n : Int) : Int := n.bmod (2 ^ 64)

/-- The size of the screen; a row of the back buffer has `pitch` pixels. -/
structure Video where
  width : Nat
  height : Nat
  pitch : Nat

inductive WinState where
  | normal
  | maximized
  | minimized
  deriving DecidableEq

structure WinFlags where
  movable : Bool
  resizable : Bool
  minimizable : Bool
  borderless : Bool
  dirty : Bool
  deriving DecidableEq

/-- A window with its address; `desktop` says whether it is `g_desktop_win`. -/
structure Window where
  id : Nat
  x : Int
  y : Int
  width : Nat
  height : Nat
  desktop : Bool
  flags : WinFlags
  state : WinState
  preState : WinState
  preX : Int
  preY : Int
  preW : Nat
  preH : Nat
  pixelsSize : Nat
  clipList : List Rect

def Window.rect (w : Window) : Rect := ⟨w.x, w.y, w.width, w.height⟩

/-- The free rectangles of the pool, and whether one was missing. -/
structure Pool where
  free : Nat
  failed : Bool

def rectAlloc (p : Pool) : Bool × Pool :=
  if p.free = 0 then (false, { p with failed := true }) else (true, { p with free := p.free - 1 })

def rectFree (p : Pool) : Pool := { p with free := p.free + 1 }

/-- A list of rectangles under construction, with the pool. -/
abbrev Building := List Rect × Pool

/-- The macro `APPEND_RECT`: nothing is added if the pool is empty. -/
def appendRect (b : Building) (r : Rect) : Building :=
  let (ok, p) := rectAlloc b.2
  (if ok then b.1 ++ [r] else b.1, p)

def rectIntersect (r₁ r₂ : Rect) : Bool :=
  !(s64 (r₁.x + s64 r₁.w) ≤ r₂.x || s64 (r₂.x + s64 r₂.w) ≤ r₁.x || s64 (r₁.y + s64 r₁.h) ≤ r₂.y ||
    s64 (r₂.y + s64 r₂.h) ≤ r₁.y)

/-- The variables `rx`, `ry`, `rw` and `rh` of `clip_rect`, all signed. -/
structure Rest where
  rx : Int
  ry : Int
  rw : Int
  rh : Int

/-- On one axis, the part of `len` pixels from `lo` on that lies before `c`: its length, and where the rest begins and how
long it is. -/
def cutLow (lo len c : Int) : Option (Nat × Int × Int) :=
  if lo < c ∧ c < s64 (lo + len) then
    let new := u64 (c - lo)
    some (new, c, s64 (len - new))
  else none

/-- The part that lies behind the `w` pixels from `c` on: its length, where it begins, and how long the rest is. -/
def cutHigh (lo len c : Int) (w : Nat) : Option (Nat × Int × Int) :=
  let clipperEnd := s64 (c + w)
  let rectEnd := s64 (lo + len)
  if clipperEnd < rectEnd ∧ lo < clipperEnd then
    let new := u64 (rectEnd - clipperEnd)
    some (new, clipperEnd, s64 (len - new))
  else none

def cutLeft (clipper : Rect) (s : Rest × Building) : Rest × Building :=
  match cutLow s.1.rx s.1.rw clipper.x with
  | none => s
  | some (newW, rx, rw) => ({ s.1 with rx := rx, rw := rw }, appendRect s.2 ⟨s.1.rx, s.1.ry, newW, u64 s.1.rh⟩)

def cutRight (clipper : Rect) (s : Rest × Building) : Rest × Building :=
  match cutHigh s.1.rx s.1.rw clipper.x clipper.w with
  | none => s
  | some (newW, x, rw) => ({ s.1 with rw := rw }, appendRect s.2 ⟨x, s.1.ry, newW, u64 s.1.rh⟩)

def cutTop (clipper : Rect) (s : Rest × Building) : Rest × Building :=
  match cutLow s.1.ry s.1.rh clipper.y with
  | none => s
  | some (newH, ry, rh) => ({ s.1 with ry := ry, rh := rh }, appendRect s.2 ⟨s.1.rx, s.1.ry, u64 s.1.rw, newH⟩)

def cutBottom (clipper : Rect) (s : Rest × Building) : Rest × Building :=
  match cutHigh s.1.ry s.1.rh clipper.y clipper.h with
  | none => s
  | some (newH, y, rh) => ({ s.1 with rh := rh }, appendRect s.2 ⟨s.1.rx, y, u64 s.1.rw, newH⟩)

/-- `clip_rect`: the parts of `r` outside of `clipper`. -/
def clipRect (r clipper : Rect) (p : Pool) : Building :=
  if rectIntersect r clipper = false then appendRect ([], p) r
  else
    (cutBottom clipper (cutTop clipper (cutRight clipper (cutLeft clipper (⟨r.x, r.y, s64 r.w, s64 r.h⟩, ([], p)))))).2

/-- On one axis, what lies before pixel 0 is cut off. -/
def clampLow (lo : Int) (len : Nat) : Int × Nat := if lo < 0 then (0, u64 (len + lo)) else (lo, len)

/-- And what lies behind the last pixel, with an unsigned sum and an unsigned difference. -/
def clampHigh (max : Nat) (lo : Int) (len : Nat) : Nat := if max < u64 (lo + len) then u64 (max - lo) else len

/-- The part of `recalc_clip_list` that clips a window to the screen; `none` if nothing is left. -/
def screenRect (v : Video) (win : Window) : Option Rect :=
  let maxScreenH := if win.desktop then v.height else u64 (v.height - taskbarHeight)
  let (x, w) := clampLow win.x win.width
  let w := clampHigh v.width x w
  let (y, h) := clampLow win.y win.height
  if maxScreenH < u64 (y + h) ∧ maxScreenH ≤ u64 y then none
  else
    let h := clampHigh maxScreenH y h
    if s64 w ≤ 0 ∨ s64 h ≤ 0 then none else some ⟨x, y, w, h⟩

/-- One blocker takes its part from every rectangle, which is given back to the pool. -/
def blockAll (blocker : Rect) (b : Building) : Building :=
  b.1.foldl (fun b r =>
    let (fragments, p) := clipRect r blocker b.2
    (b.1 ++ fragments, rectFree p)) ([], b.2)

/-- `recalc_clip_list`, with the windows above from the lowest on. -/
def recalcClipList (v : Video) (above : List Window) (win : Window) (p : Pool) : Window × Pool :=
  let p : Pool := { p with free := p.free + win.clipList.length }
  let (ok, p) := rectAlloc p
  if ok = false then ({ win with clipList := [] }, p)
  else
    match screenRect v win with
    | none => ({ win with clipList := [] }, rectFree p)
    | some r =>
      let (clipList, p) := above.foldl (fun b blocker => blockAll blocker.rect b) ([r], p)
      ({ win with clipList := clipList }, p)

/-- A pixel copied by `win_draw`: the index into the pixels of the window and the index into the back buffer. -/
structure Copied where
  src : Nat
  dst : Nat

/-- `win_draw`, with all the pixels it copies. -/
def winDraw (v : Video) (win : Window) : List Copied :=
  win.clipList.flatMap fun r =>
    let startOffX := r.x - win.x
    let startOffY := r.y - win.y
    (List.range r.h).flatMap fun (row : Nat) => (List.range r.w).map fun (col : Nat) =>
      ⟨u64 ((row + startOffY) * win.width + startOffX + col), u64 ((row + r.y) * v.pitch + r.x + col)⟩

end NyanOS.Screen
