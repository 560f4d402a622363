import NyanOS.Syscall.Descriptor
import NyanOS.Windows.ClipCover
import NyanOS.Windows.Desk

/-!
# Drawing into a window (`gui/window.c`, `arch/syscall.c`)

Coordinates are of type `int` and their sums wrap. Pixels are a function of the index into the buffer.
-/
namespace NyanOS.Screen

open Syscall List Int

variable {win : Window} {C : Type} {x w low high a : Int}

/-- An `int`. -/
def s32 (n : Int) : Int := (n + 2 ^ 31) % 2 ^ 32 - 2 ^ 31

def Int32 (n : Int) : Prop := -2 ^ 31 ≤ n ∧ n < 2 ^ 31

/-- Neither the end of a side nor the rest up to a limit wraps. -/
def Fits32 (high x w : Int) : Prop := Int32 (x + w) ∧ -2 ^ 31 ≤ high - x

/-- `win_get_client_size` -/
def winGetClientSize (win : Window) : Int × Int :=
  if win.flags.borderless then (s32 win.width, s32 win.height)
  else (s32 (win.width - winBorderSize * 2), s32 (win.height - (winTitleBarHeight + winBorderSize * 2)))

/-- A size that ends at a limit. -/
def cutEnd (high x w : Int) : Int := if high < s32 (x + w) then s32 (high - x) else w

/-! ### The system calls -/

/-- The call of `win_draw_bitmap`, with the number of bytes that were checked. -/
structure Blit where
  x : Int
  y : Int
  w : Int
  h : Int
  checked : Nat
  deriving DecidableEq

def sysBlit (win : Window) (arg1 arg2 arg3 arg4 arg5 : BitVec 64) : Option Blit :=
  let x := toInt32 arg1
  let y := toInt32 arg2
  let w := toInt32 arg3
  let h := toInt32 arg4
  let (winW, winH) := winGetClientSize win
  if x < 0 ∨ y < 0 ∨ winW < s32 (x + w) ∨ winH < s32 (y + h) then none
  else
    -- the product is an `int` before it becomes a `size_t`
    let size := u64 (s32 (w * h) * 4)
    if verifyUsrAccess arg5 (BitVec.ofNat 64 size) then some ⟨x, y, w, h, size⟩ else none

/-- A side that begins left of the client area. -/
def fromZero (x w : Int) : Int × Int := if x < 0 then (0, s32 (w + x)) else (x, w)

/-- The rectangle of `sys_draw_rect` in a client area. -/
def clipToClient (winW winH x y w h : Int) : Option (Int × Int × Int × Int) :=
  let (x, w) := fromZero x w
  let (y, h) := fromZero y h
  if w ≤ 0 ∨ h ≤ 0 then none
  else
    let w := cutEnd winW x w
    let h := cutEnd winH y h
    if w ≤ 0 ∨ h ≤ 0 then none else some (x, y, w, h)

/-- `sys_draw_rect`: what is passed to `win_fill_rect`. -/
def sysDrawRect (win : Window) (arg1 arg2 arg3 arg4 : BitVec 64) : Option (Int × Int × Int × Int) :=
  let (winW, winH) := winGetClientSize win
  clipToClient winW winH (toInt32 arg1) (toInt32 arg2) (toInt32 arg3) (toInt32 arg4)

def box (r : Int × Int × Int × Int) : Set (Int × Int) :=
  {q | (r.1 ≤ q.1 ∧ q.1 < r.1 + r.2.2.1) ∧ r.2.1 ≤ q.2 ∧ q.2 < r.2.1 + r.2.2.2}

theorem s32_int32 (n : Int) : Int32 (s32 n) := by
  unfold Int32 s32
  omega

theorem toInt32_int32 (arg : BitVec 64) : Int32 (toInt32 arg) :=
  ⟨(arg.setWidth 32).le_toInt, (arg.setWidth 32).toInt_lt⟩

theorem winGetClientSize_int32 (win : Window) : Int32 (winGetClientSize win).1 ∧ Int32 (winGetClientSize win).2 := by
  unfold winGetClientSize
  split
  · exact ⟨s32_int32 _, s32_int32 _⟩
  · exact ⟨s32_int32 _, s32_int32 _⟩

theorem side_exact (hx : Int32 x) (hw : Int32 w) (hhigh : Int32 high) (hsum : Fits32 high x w) :
    (0 < (fromZero x w).2 → ((fromZero x w).1 ≤ a ∧ a < (fromZero x w).1 + cutEnd high (fromZero x w).1 (fromZero x w).2 ↔
      (x ≤ a ∧ a < x + w) ∧ 0 ≤ a ∧ a < 0 + high)) ∧
    ((fromZero x w).2 ≤ 0 → ¬ ((x ≤ a ∧ a < x + w) ∧ 0 ≤ a)) := by
  unfold Fits32 Int32 at *
  unfold cutEnd fromZero s32
  split <;> split <;> omega

/-- A side that is passed on and lies in the client area comes from a sum that does not wrap. -/
theorem side_fits (hx : Int32 x) (hw : Int32 w) (hhigh : Int32 high) (hpos : 0 < (fromZero x w).2)
    (hlow : (x ≤ (fromZero x w).1 ∧ (fromZero x w).1 < x + w) ∧ (fromZero x w).1 < 0 + high)
    (hend : (fromZero x w).1 + cutEnd high (fromZero x w).1 (fromZero x w).2 - 1 < 0 + high) : Fits32 high x w := by
  unfold Fits32 Int32 at *
  unfold cutEnd fromZero s32 at *
  split at hpos <;> split at hend <;> omega

theorem u64_size (hw : 0 ≤ w) (hw' : w < 2 ^ 31) (hx : 0 ≤ x) (hx' : x < 2 ^ 31) :
    ((u64 (s32 (w * x) * 4) : Int) = 4 * w * x ↔ w * x < 2 ^ 31) := by
  have hnonneg : 0 ≤ w * x := mul_nonneg hw hx
  have hle : w * x ≤ (2 ^ 31 - 1) * (2 ^ 31 - 1) := mul_le_mul (by omega) (by omega) hx (by norm_num)
  rw [mul_assoc]
  generalize w * x = n at *
  unfold u64 s32
  omega

section
variable {y h winW winH : Int} (hx : Int32 x) (hy : Int32 y) (hw : Int32 w) (hh : Int32 h) (hwinW : Int32 winW)
  (hwinH : Int32 winH)
include hx hy hw hh hwinW hwinH

theorem clipToClient_exact_iff {r : Int × Int × Int × Int} (hr : clipToClient winW winH x y w h = some r) :
    box r = box (x, y, w, h) ∩ box (0, 0, winW, winH) ↔ Fits32 winW x w ∧ Fits32 winH y h := by
  unfold clipToClient at hr
  dsimp only at hr
  split at hr
  · cases hr
  next hstart =>
  split at hr
  · cases hr
  next hend =>
  cases hr
  constructor
  · intro heq
    -- the first and the last pixel that are passed on
    have hfirst : ((fromZero x w).1, (fromZero y h).1) ∈ box (x, y, w, h) ∩ box (0, 0, winW, winH) :=
      heq.le ⟨⟨le_rfl, by dsimp only; omega⟩, le_rfl, by dsimp only; omega⟩
    have hlast : ((fromZero x w).1 + cutEnd winW (fromZero x w).1 (fromZero x w).2 - 1,
        (fromZero y h).1 + cutEnd winH (fromZero y h).1 (fromZero y h).2 - 1) ∈
        box (x, y, w, h) ∩ box (0, 0, winW, winH) :=
      heq.le ⟨by dsimp only; omega, by dsimp only; omega⟩
    exact ⟨side_fits hx hw hwinW (by omega) ⟨hfirst.1.1, hfirst.2.1.2⟩ hlast.2.1.2,
      side_fits hy hh hwinH (by omega) ⟨hfirst.1.2, hfirst.2.2.2⟩ hlast.2.2.2⟩
  · rintro ⟨hsum, hsum'⟩
    ext q
    have hqx := (side_exact (a := q.1) hx hw hwinW hsum).1 (by omega)
    have hqy := (side_exact (a := q.2) hy hh hwinH hsum').1 (by omega)
    exact (and_congr hqx hqy).trans and_and_and_comm

theorem clipToClient_none (hsum : Fits32 winW x w) (hsum' : Fits32 winH y h)
    (hnone : clipToClient winW winH x y w h = none) : box (x, y, w, h) ∩ box (0, 0, winW, winH) = ∅ := by
  refine Set.eq_empty_iff_forall_notMem.mpr fun q hq => ?_
  obtain ⟨⟨hqx, hqy⟩, hqx', hqy'⟩ := hq
  obtain ⟨hexact, hempty⟩ := side_exact (a := q.1) hx hw hwinW hsum
  obtain ⟨hexact', hempty'⟩ := side_exact (a := q.2) hy hh hwinH hsum'
  have hpos : 0 < (fromZero x w).2 := by
    by_contra hneg
    exact hempty (by omega) ⟨hqx, hqx'.1⟩
  have hpos' : 0 < (fromZero y h).2 := by
    by_contra hneg
    exact hempty' (by omega) ⟨hqy, hqy'.1⟩
  have hin := (hexact hpos).mpr ⟨hqx, hqx'⟩
  have hin' := (hexact' hpos').mpr ⟨hqy, hqy'⟩
  unfold clipToClient at hnone
  dsimp only at hnone
  rw [if_neg (by omega), if_neg (by omega)] at hnone
  cases hnone

theorem blit_exact_iff (hin : ¬ (x < 0 ∨ y < 0 ∨ winW < s32 (x + w) ∨ winH < s32 (y + h))) :
    (0 ≤ x ∧ x + w ≤ winW ∧ 0 ≤ y ∧ y + h ≤ winH ∧ (0 ≤ w → 0 ≤ h → (u64 (s32 (w * h) * 4) : Int) = 4 * w * h)) ↔
    x + w < 2 ^ 31 ∧ y + h < 2 ^ 31 ∧ (0 ≤ w → 0 ≤ h → w * h < 2 ^ 31) := by
  have hsize : (0 ≤ w → 0 ≤ h → (u64 (s32 (w * h) * 4) : Int) = 4 * w * h) ↔ (0 ≤ w → 0 ≤ h → w * h < 2 ^ 31) :=
    forall_congr' fun hw' => forall_congr' fun hh' => u64_size hw' hw.2 hh' hh.2
  unfold Int32 at *
  unfold s32 at hin
  have hright : x + w ≤ winW ↔ x + w < 2 ^ 31 := by omega
  have hbottom : y + h ≤ winH ↔ y + h < 2 ^ 31 := by omega
  rw [hsize, hright, hbottom]
  exact ⟨fun hall => ⟨hall.2.1, hall.2.2.2⟩, fun hall => ⟨by omega, hall.1, by omega, hall.2⟩⟩

end

/-- What reaches the drawing functions is exact over the integers just if no sum, and no number of pixels, leaves
`int`. -/
theorem drawing_exact_iff (win : Window) (arg1 arg2 arg3 arg4 arg5 : BitVec 64) :
    let x := toInt32 arg1
    let y := toInt32 arg2
    let w := toInt32 arg3
    let h := toInt32 arg4
    let client := winGetClientSize win
    let exact := box (x, y, w, h) ∩ box (0, 0, client)
    (∀ b, sysBlit win arg1 arg2 arg3 arg4 arg5 = some b →
      ((0 ≤ b.x ∧ b.x + b.w ≤ client.1 ∧ 0 ≤ b.y ∧ b.y + b.h ≤ client.2 ∧
        (0 ≤ b.w → 0 ≤ b.h → (b.checked : Int) = 4 * b.w * b.h)) ↔
      x + w < 2 ^ 31 ∧ y + h < 2 ^ 31 ∧ (0 ≤ w → 0 ≤ h → w * h < 2 ^ 31))) ∧
    (∀ r, sysDrawRect win arg1 arg2 arg3 arg4 = some r →
      (box r = exact ↔ Fits32 client.1 x w ∧ Fits32 client.2 y h)) ∧
    (Fits32 client.1 x w → Fits32 client.2 y h → sysDrawRect win arg1 arg2 arg3 arg4 = none → exact = ∅) := by
  intro x y w h client exact
  have hint := toInt32_int32
  obtain ⟨hwinW, hwinH⟩ := winGetClientSize_int32 win
  refine ⟨fun b hb => ?_, fun r hr => ?_, fun hsum hsum' hnone => ?_⟩
  · unfold sysBlit at hb
    dsimp only at hb
    split at hb
    · cases hb
    next hin =>
    obtain ⟨-, hb⟩ := Option.ite_none_right_eq_some.mp hb
    cases hb
    exact blit_exact_iff (hint _) (hint _) (hint _) (hint _) hwinW hwinH hin
  · exact clipToClient_exact_iff (hint _) (hint _) (hint _) (hint _) hwinW hwinH hr
  · exact clipToClient_none (hint _) (hint _) (hint _) (hint _) hwinW hwinH hsum hsum' hnone

theorem drawing_exact_iff_small : sysBlit overhanging 1 2 3 4 0x400000 = some ⟨1, 2, 3, 4, 48⟩ ∧
    (1 : Int) + 3 ≤ (winGetClientSize overhanging).1 := by
  have hblit : sysBlit overhanging 1 2 3 4 0x400000 = some ⟨1, 2, 3, 4, 48⟩ := by decide +kernel
  exact ⟨hblit, (((drawing_exact_iff overhanging 1 2 3 4 0x400000).1 _ hblit).mpr (by decide +kernel)).2.1⟩

/-- Where the sum wraps, both calls accept a rectangle that ends far right of the window. -/
theorem drawing_past_client : sysBlit overhanging 0x7fffffff 0 1 1 0x400000 = some ⟨0x7fffffff, 0, 1, 1, 4⟩ ∧
    sysDrawRect overhanging 1 0 0x7fffffff 1 = some (1, 0, 0x7fffffff, 1) ∧ winGetClientSize overhanging = (98, 28) := by
  decide +kernel

/-! ### The drawing functions -/

/-- A side that begins at a limit: what is left out, the size and the beginning of the rest. -/
def cutStart (low x w : Int) : Int × Int × Int :=
  if x < low then (s32 (low - x), s32 (w - s32 (low - x)), low) else (0, w, x)

structure DrawClip where
  x : Int
  y : Int
  bufOffX : Int
  bufOffY : Int
  drawW : Int
  drawH : Int

/-- The distances of the client area from the upper left corner and from the other edges. -/
def Window.left (win : Window) : Int := if win.flags.borderless then 0 else winBorderSize

def Window.top (win : Window) : Int := if win.flags.borderless then 0 else winTitleBarHeight + winBorderSize

/-- How `win_fill_rect` and `win_draw_bitmap` clip. -/
def drawClip (win : Window) (clientX clientY w h : Int) : Option DrawClip :=
  let x := s32 (clientX + win.left)
  let y := s32 (clientY + win.top)
  let rLim := s32 (s32 win.width - win.left)
  let bLim := s32 (s32 win.height - win.left)
  if rLim ≤ x ∨ bLim ≤ y then none
  else
    let (bufOffX, drawW, x) := cutStart win.left x (cutEnd rLim x w)
    let (bufOffY, drawH, y) := cutStart win.top y (cutEnd bLim y h)
    if drawW ≤ 0 ∨ drawH ≤ 0 then none else some ⟨x, y, bufOffX, bufOffY, drawW, drawH⟩

/-- `memset32_sse` and `memcpy_sse` on one row. -/
def setRow (px : Nat → C) (start n : Nat) (src : Nat → C) : Nat → C := fun i =>
  if start ≤ i ∧ i < start + n then src (i - start) else px i

def drawRows (win : Window) (c : DrawClip) (src : Nat → Nat → C) (px : Nat → C) (n : Nat) : Nat → C :=
  (List.range n).foldl (fun px (r : Nat) => setRow px (u64 ((c.y + r) * win.width + c.x)) c.drawW.toNat (src r)) px

def winFillRect (win : Window) (px : Nat → C) (clientX clientY w h : Int) (color : C) : Nat → C :=
  match drawClip win clientX clientY w h with
  | none => px
  | some c => drawRows win c (fun _ _ => color) px c.drawH.toNat

def winDrawBitmap (win : Window) (px : Nat → C) (clientX clientY w h : Int) (buf : Nat → C) : Nat → C :=
  match drawClip win clientX clientY w h with
  | none => px
  | some c => drawRows win c (fun r j => buf (u64 (s32 (s32 ((r + c.bufOffY) * w) + c.bufOffX)) + j)) px c.drawH.toNat

/-- A column of the window in the requested columns and in the client area; the same for rows. -/
def Inside (p w first last a : Int) : Prop := (p ≤ a - first ∧ a - first < p + w) ∧ first ≤ a ∧ a < last

instance {p w first last a : Int} : Decidable (Inside p w first last a) := inferInstanceAs (Decidable (_ ∧ _))

theorem s32_eq {n : Int} (h : Int32 n) : s32 n = n := by
  unfold Int32 at h
  unfold s32
  omega

/-- One side of what is drawn, on an edge of length `n`. -/
structure DrawnSide (p w first last n x off draw : Int) : Prop where
  inside : ∀ a, x ≤ a ∧ a < x + draw ↔ Inside p w first last a
  pos : 0 ≤ x ∧ 0 < draw ∧ x + draw ≤ n
  off : 0 ≤ off ∧ off = x - (p + first)

theorem side_spec {o e p n : Int} (ho : 0 ≤ o ∧ o ≤ 21) (he : 0 ≤ e ∧ e ≤ 1) (hp : -2 ^ 30 ≤ p ∧ p ≤ 2 ^ 30)
    (hw : -2 ^ 30 ≤ w ∧ w ≤ 2 ^ 30) (hsum : p + o + w < 2 ^ 31) (hn : 0 ≤ n ∧ n < 2 ^ 31) :
    let x := s32 (p + o)
    let high := s32 (s32 n - e)
    let c := cutStart o x (cutEnd high x w)
    (high ≤ x ∨ c.2.1 ≤ 0 → ∀ a, ¬ Inside p w o (n - e) a) ∧
    (x < high → 0 < c.2.1 → DrawnSide p w o (n - e) n c.2.2 c.1 c.2.1) := by
  intro x high c
  have hx : x = p + o := s32_eq ⟨by omega, by omega⟩
  have hhigh : high = n - e := by
    dsimp only [high]
    rw [s32_eq (n := n) ⟨by omega, by omega⟩, s32_eq ⟨by omega, by omega⟩]
  have hcut : x < high → cutEnd high x w = min w (high - x) := by
    intro h
    unfold cutEnd
    rw [s32_eq (n := x + w) ⟨by omega, by omega⟩]
    split
    · rw [s32_eq ⟨by omega, by omega⟩]
      omega
    · omega
  have hc : x < high → c = if x < o then (o - x, min w (high - x) - (o - x), o) else (0, min w (high - x), x) := by
    intro h
    dsimp only [c]
    rw [hcut h]
    unfold cutStart
    split
    · rw [s32_eq (n := o - x) ⟨by omega, by omega⟩, s32_eq ⟨by omega, by omega⟩]
    · rfl
  clear_value c x high
  by_cases h : x < high
  · rw [hc h]
    unfold Inside
    split
    · exact ⟨by dsimp only; omega, fun _ hpos => ⟨fun a => by unfold Inside; dsimp only at *; omega, by dsimp only at *; omega,
        by dsimp only; omega⟩⟩
    · exact ⟨by dsimp only; omega, fun _ hpos => ⟨fun a => by unfold Inside; dsimp only at *; omega, by dsimp only at *; omega,
        by dsimp only; omega⟩⟩
  · refine ⟨fun _ a => ?_, fun h' => absurd h' h⟩
    unfold Inside
    omega

theorem row_iff {a b x y n width : Nat} (ha : a < width) (hx : x + n ≤ width) :
    y * width + x ≤ b * width + a ∧ b * width + a < y * width + x + n ↔ b = y ∧ x ≤ a ∧ a < x + n := by
  rcases lt_trichotomy b y with hlt | rfl | hlt
  · have hle := Nat.mul_le_mul_right width hlt
    rw [Nat.succ_mul] at hle
    omega
  · omega
  have hle := Nat.mul_le_mul_right width hlt
  rw [Nat.succ_mul] at hle
  omega

theorem drawRows_apply {c : DrawClip} {src : Nat → Nat → C} {px : Nat → C} {a b n : Nat} (hx : 0 ≤ c.x) (hw : 0 ≤ c.drawW)
    (hright : c.x + c.drawW ≤ win.width) (hy : 0 ≤ c.y) (hlast : c.y + n ≤ win.height)
    (hsize : win.width * win.height < 2 ^ 31) (ha : a < win.width) : drawRows win c src px n (b * win.width + a) =
      if (c.x ≤ a ∧ a < c.x + c.drawW) ∧ c.y ≤ b ∧ b < c.y + n then src (b - c.y).toNat (a - c.x).toNat
      else px (b * win.width + a) := by
  obtain ⟨x, hX⟩ := Int.eq_ofNat_of_zero_le hx
  obtain ⟨y, hY⟩ := Int.eq_ofNat_of_zero_le hy
  obtain ⟨w, hW⟩ := Int.eq_ofNat_of_zero_le hw
  rw [hX, hW] at hright
  rw [hY] at hlast
  induction n with
  | zero =>
    rw [if_neg (by omega)]
    rfl
  | succ n ih =>
    have hindex : u64 ((c.y + n) * win.width + c.x) = (y + n) * win.width + x := by
      have hlt : (y + n) * win.width + win.width ≤ win.height * win.width := by
        rw [← Nat.succ_mul]
        exact Nat.mul_le_mul_right _ (by omega)
      rw [mul_comm win.height] at hlt
      have hcast : (c.y + n) * win.width + c.x = ((y + n) * win.width + x : Nat) := by
        rw [hX, hY]
        push_cast
        rfl
      rw [hcast, u64]
      omega
    have hrow := row_iff (b := b) (y := y + n) ha (show x + w ≤ win.width by omega)
    unfold drawRows at ih ⊢
    rw [List.range_succ, List.foldl_append, List.foldl_cons, List.foldl_nil, hindex, setRow, ih (by omega), hX, hY, hW,
      Int.toNat_natCast]
    by_cases hin : b = y + n ∧ x ≤ a ∧ a < x + w
    · obtain ⟨rfl, hcol⟩ := hin
      rw [if_pos (hrow.mpr ⟨rfl, hcol⟩), if_pos (by omega)]
      congr 1
      all_goals omega
    · rw [if_neg fun h => hin (hrow.mp h)]
      refine if_congr ?_ rfl rfl
      omega

theorem buf_index {v h off : Int} (hv : 0 ≤ v ∧ v < h) (hoff : 0 ≤ off ∧ off < w) (harea : w * h < 2 ^ 31) :
    0 ≤ v * w ∧ (u64 (s32 (s32 (v * w) + off)) : Int) = v * w + off := by
  have hnonneg : 0 ≤ v * w := mul_nonneg hv.1 (by omega)
  have hrow : v * w + w ≤ w * h := by
    rw [← add_one_mul, mul_comm w]
    exact mul_le_mul_of_nonneg_right (by omega) (by omega)
  refine ⟨hnonneg, ?_⟩
  rw [s32_eq (n := v * w) ⟨by omega, by omega⟩, s32_eq ⟨by omega, by omega⟩, u64]
  omega

section
variable {px : Nat → C} {clientX clientY w h : Int} {a b : Nat} (hsize : win.width * win.height < 2 ^ 31)
  (hx : -2 ^ 30 ≤ clientX ∧ clientX ≤ 2 ^ 30) (hy : -2 ^ 30 ≤ clientY ∧ clientY ≤ 2 ^ 30)
  (hw : -2 ^ 30 ≤ w ∧ w ≤ 2 ^ 30) (hh : -2 ^ 30 ≤ h ∧ h ≤ 2 ^ 30) (hright : clientX + win.left + w < 2 ^ 31)
  (hbottom : clientY + win.top + h < 2 ^ 31) (hpos : 0 < win.width)
include hsize hx hy hw hh hright hbottom hpos

theorem drawClip_cases :
    (drawClip win clientX clientY w h = none ∧ ∀ a b, ¬ (Inside clientX w win.left (win.width - win.left) a ∧
      Inside clientY h win.top (win.height - win.left) b)) ∨ ∃ c, drawClip win clientX clientY w h = some c ∧
      DrawnSide clientX w win.left (win.width - win.left) win.width c.x c.bufOffX c.drawW ∧
      DrawnSide clientY h win.top (win.height - win.left) win.height c.y c.bufOffY c.drawH := by
  have hleft : 0 ≤ win.left ∧ win.left ≤ 1 := by
    unfold Window.left winBorderSize
    split <;> omega
  have htop : 0 ≤ win.top ∧ win.top ≤ 21 := by
    unfold Window.top winBorderSize winTitleBarHeight
    split <;> omega
  have hheight : win.height < 2 ^ 31 := lt_of_le_of_lt (Nat.le_mul_of_pos_left _ hpos) hsize
  obtain ⟨hrow, hrows⟩ := side_spec htop hleft hy hh hbottom ⟨natCast_nonneg win.height, by omega⟩
  -- a window without rows may have any width
  have hcols (h : 0 < win.height) :=
    have hwidth : win.width < 2 ^ 31 := lt_of_le_of_lt (Nat.le_mul_of_pos_right _ h) hsize
    side_spec (o := win.left) ⟨hleft.1, by omega⟩ hleft hx hw hright ⟨natCast_nonneg win.width, by omega⟩
  unfold drawClip
  dsimp only
  split
  · next hout =>
    refine .inl ⟨rfl, fun a b hin => ?_⟩
    rcases hout with hout | hout
    · exact (hcols (by have := hin.2.2; omega)).1 (.inl hout) a hin.1
    · exact hrow (.inl hout) b hin.2
  · next hin =>
    split
    · next hout =>
      refine .inl ⟨rfl, fun a b hin => ?_⟩
      rcases hout with hout | hout
      · exact (hcols (by have := hin.2.2; omega)).1 (.inr hout) a hin.1
      · exact hrow (.inr hout) b hin.2
    · next hdraw =>
      obtain ⟨hinX, hinY⟩ := not_or.mp hin
      obtain ⟨hdrawX, hdrawY⟩ := not_or.mp hdraw
      have hside := hrows (not_le.mp hinY) (not_le.mp hdrawY)
      have hsome : 0 < win.height := by
        have := hside.pos
        omega
      exact .inr ⟨_, rfl, (hcols hsome).2 (not_le.mp hinX) (not_le.mp hdrawX), hside⟩

end

/-- A window of one row whose width is just over half of the numbers of type `int`. -/
def wideWindow : Window :=
  { overhanging with width := 2 ^ 30 + 1, height := 1, flags := { overhanging.flags with borderless := true } }

end NyanOS.Screen
