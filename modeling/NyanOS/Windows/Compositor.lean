import NyanOS.Windows.DeskRuns

/-!
# What `win_paint` shows

Every window is clipped to the screen without the taskbar, but blocks what lies below it with all of its rectangle. The
user cannot make a window whose clip list is computed wrongly, but one that hangs over the taskbar.
-/
namespace NyanOS.Screen

open Lib List

variable {v : Video} {d : Desk} {win : Window} {above ws' : List Window} {p : Pool} {id : Nat} {q : Int × Int}
  {ws : List Window}

/-! ### Painting -/

structure Painted where
  windows : List Window
  pool : Pool
  drawn : List Copied

/-- `win_paint`: the dirty windows, from the lowest on. -/
def winPaint (v : Video) : List Window → Pool → Painted
  | [], p => ⟨[], p, []⟩
  | curr :: above, p =>
    if curr.flags.dirty then
      let (win, p) := recalcClipList v above curr p
      let rest := winPaint v above p
      ⟨{ win with flags := { win.flags with dirty := false } } :: rest.windows, rest.pool, winDraw v win ++ rest.drawn⟩
    else
      let rest := winPaint v above p
      { rest with windows := curr :: rest.windows }

def screen (v : Video) : Set (Int × Int) := {q | 0 ≤ q.1 ∧ q.1 < v.width ∧ 0 ≤ q.2 ∧ q.2 < v.height}

/-- Exactly one clip list of the windows has the pixel. -/
def ShownOnce (ws : List Window) (q : Int × Int) : Prop :=
  ∃ pre w post, ws = pre ++ w :: post ∧ q ∈ covered w.clipList ∧ ∀ w' ∈ pre ++ post, q ∉ covered w'.clipList

/-- A pixel of the screen is written to the back buffer. -/
def Repainted (v : Video) (drawn : List Copied) (q : Int × Int) : Prop :=
  ∃ px ∈ drawn, (px.dst : Int) = q.2 * v.pitch + q.1

/-- The pixel of a window that is to be seen: on its part of the screen and under no other window. -/
def Visible (v : Video) (win : Window) (above : List Window) (q : Int × Int) : Prop :=
  (q ∈ win.rect.pixels ∧ q ∈ area v win) ∧ ∀ a ∈ above, q ∉ a.rect.pixels

theorem rectAlloc_failed (hok : (rectAlloc p).2.failed = false) : p.failed = false := by
  unfold rectAlloc at hok
  split at hok
  · exact absurd hok.symm Bool.false_ne_true
  · exact hok

theorem recalcClipList_ok (habove : ∀ a ∈ above, a.Placed) (hok : (recalcClipList v above win p).2.failed = false) :
    p.failed = false := by
  unfold recalcClipList at hok
  dsimp only at hok
  refine rectAlloc_failed (p := { p with free := p.free + win.clipList.length }) ?_
  split at hok
  · exact hok
  split at hok
  · exact hok
  · exact blockers_ok (fun a ha => (habove a ha).fits) hok

theorem winPaint_ok (hplaced : ∀ w ∈ ws, w.Placed) (hok : (winPaint v ws p).pool.failed = false) :
    p.failed = false := by
  induction ws generalizing p with
  | nil => exact hok
  | cons curr above ih =>
    obtain ⟨-, habove⟩ := forall_mem_cons.mp hplaced
    unfold winPaint at hok
    split at hok
    · exact recalcClipList_ok habove (ih habove hok)
    · exact ih habove hok

/-- The clip lists of `ws'` are those that the windows `ws` should have. -/
inductive Clipped (v : Video) : List Window → List Window → Prop
  | nil : Clipped v [] []
  | cons {w w' : Window} {ws ws' : List Window} :
      Tiles w'.clipList {q | Visible v w ws q} → Clipped v ws ws' → Clipped v (w :: ws) (w' :: ws')

theorem winPaint_clipped (hv : v.Ok) (hplaced : ∀ w ∈ ws, w.Placed)
    (hdirty : ∀ w ∈ ws, w.flags.dirty = true) (hok : (winPaint v ws p).pool.failed = false) :
    Clipped v ws (winPaint v ws p).windows := by
  induction ws generalizing p with
  | nil => exact .nil
  | cons curr above ih =>
    obtain ⟨hcurr, habove⟩ := forall_mem_cons.mp hplaced
    obtain ⟨hd, hdirty⟩ := forall_mem_cons.mp hdirty
    rw [winPaint, if_pos hd] at hok ⊢
    have hrest : (recalcClipList v above curr p).2.failed = false := winPaint_ok habove hok
    exact .cons (recalcClipList_tiles hv hcurr habove hrest) (ih habove hdirty hok)

theorem winDraw_repainted (hsize : v.pitch * v.height < 2 ^ 64) (hpitch : v.width ≤ v.pitch) (hq : q ∈ screen v)
    (hclip : q ∈ covered win.clipList) : Repainted v (winDraw v win) q := by
  obtain ⟨r, hr, hx, hx', hy, hy'⟩ := hclip
  obtain ⟨hpos, hlt, hpos', hlt'⟩ := hq
  refine ⟨⟨u64 (((q.2 - r.y).toNat + (r.y - win.y)) * win.width + (r.x - win.x) + (q.1 - r.x).toNat),
    u64 (((q.2 - r.y).toNat + r.y) * v.pitch + r.x + (q.1 - r.x).toNat)⟩, ?_, ?_⟩
  · refine mem_flatMap.mpr ⟨r, hr, mem_flatMap.mpr ⟨(q.2 - r.y).toNat, ?_, mem_map.mpr ⟨(q.1 - r.x).toNat, ?_, rfl⟩⟩⟩
    · exact mem_range.mpr (by omega)
    · exact mem_range.mpr (by omega)
  · have hrow : ((q.2 - r.y).toNat : Int) + r.y = q.2 := by omega
    have hcol : q.2 * v.pitch + r.x + ((q.1 - r.x).toNat : Int) = q.2 * v.pitch + q.1 := by omega
    have hnonneg : 0 ≤ q.2 * v.pitch + q.1 := add_nonneg (mul_nonneg hpos' (Int.natCast_nonneg _)) hpos
    have hbound : q.2 * v.pitch + q.1 < (v.pitch * v.height : Nat) := calc
      q.2 * v.pitch + q.1 < q.2 * v.pitch + v.pitch := by omega
      _ = (q.2 + 1) * v.pitch := by ring
      _ ≤ v.height * v.pitch := mul_le_mul_of_nonneg_right (by omega) (Int.natCast_nonneg _)
      _ = (v.pitch * v.height : Nat) := by rw [Nat.cast_mul, mul_comm]
    dsimp only
    rw [hrow, hcol]
    exact u64_eq hnonneg (by omega)

theorem winPaint_repainted (hsize : v.pitch * v.height < 2 ^ 64) (hpitch : v.width ≤ v.pitch)
    (hdirty : ∀ w ∈ ws, w.flags.dirty = true) (hq : q ∈ screen v)
    (hshown : ∃ w ∈ (winPaint v ws p).windows, q ∈ covered w.clipList) : Repainted v (winPaint v ws p).drawn q := by
  induction ws generalizing p with
  | nil =>
    obtain ⟨w, hw, -⟩ := hshown
    exact absurd hw not_mem_nil
  | cons curr above ih =>
    obtain ⟨hd, hdirty⟩ := forall_mem_cons.mp hdirty
    rw [winPaint, if_pos hd] at hshown ⊢
    obtain ⟨w, hw, hcovered⟩ := hshown
    rcases mem_cons.mp hw with rfl | hw
    · obtain ⟨px, hpx, hdst⟩ := winDraw_repainted hsize hpitch hq hcovered
      exact ⟨px, mem_append_left _ hpx, hdst⟩
    · obtain ⟨px, hpx, hdst⟩ := ih hdirty ⟨w, hw, hcovered⟩
      exact ⟨px, mem_append_right _ hpx, hdst⟩

/-! ### Who shows a pixel -/

theorem Clipped.not_covered (h : Clipped v ws ws') (hq : ∀ a ∈ ws, q ∉ a.rect.pixels) :
    ∀ w ∈ ws', q ∉ covered w.clipList := by
  induction h with
  | nil => exact fun w hw => absurd hw not_mem_nil
  | cons htiles _ ih =>
    obtain ⟨hw, hq⟩ := forall_mem_cons.mp hq
    refine forall_mem_cons.mpr ⟨fun hcov => hw ?_, ih hq⟩
    exact ((htiles.cover q).mpr hcov).1.1

theorem Clipped.shownOnce_iff (h : Clipped v ws ws') :
    ShownOnce ws' q ↔ ∃ pre w post, ws = pre ++ w :: post ∧ Visible v w post q := by
  induction h with
  | nil =>
    constructor
    · rintro ⟨pre, w, post, heq, -⟩
      exact absurd heq (by simp)
    · rintro ⟨pre, w, post, heq, -⟩
      exact absurd heq (by simp)
  | @cons w w' ws ws' htiles hrest ih =>
    constructor
    · rintro ⟨pre, x, post, heq, hx, hothers⟩
      rcases cons_eq_append_iff.mp heq with ⟨rfl, heq⟩ | ⟨pre', rfl, htail⟩
      · obtain ⟨rfl, rfl⟩ := cons_eq_cons.mp heq
        exact ⟨[], w, ws, rfl, (htiles.cover q).mpr hx⟩
      have honce : ShownOnce ws' q := ⟨pre', x, post, htail, hx, fun y hy => hothers y (mem_cons_of_mem _ hy)⟩
      obtain ⟨pre, y, post, rfl, hy⟩ := ih.mp honce
      exact ⟨w :: pre, y, post, rfl, hy⟩
    · rintro ⟨pre, x, post, heq, hx⟩
      rcases cons_eq_append_iff.mp heq with ⟨rfl, heq⟩ | ⟨pre', rfl, rfl⟩
      · obtain ⟨rfl, rfl⟩ := cons_eq_cons.mp heq
        exact ⟨[], w', ws', rfl, (htiles.cover q).mp hx, hrest.not_covered hx.2⟩
      obtain ⟨pre, y, post', rfl, hy, hothers⟩ := ih.mpr ⟨pre', x, post, rfl, hx⟩
      refine ⟨w' :: pre, y, post', rfl, hy, forall_mem_cons.mpr ⟨fun hcov => ?_, hothers⟩⟩
      -- the window below would be seen through the one that shows the pixel
      exact ((htiles.cover q).mpr hcov).2 x (by simp) hx.1.1

theorem exists_highest (h : ∃ a ∈ ws, q ∈ a.rect.pixels) :
    ∃ pre w post, ws = pre ++ w :: post ∧ q ∈ w.rect.pixels ∧ ∀ a ∈ post, q ∉ a.rect.pixels := by
  induction ws with
  | nil =>
    obtain ⟨a, ha, -⟩ := h
    exact absurd ha not_mem_nil
  | cons w ws ih =>
    by_cases habove : ∃ a ∈ ws, q ∈ a.rect.pixels
    · obtain ⟨pre, x, post, rfl, hx⟩ := ih habove
      exact ⟨w :: pre, x, post, rfl, hx⟩
    obtain ⟨a, ha, hq⟩ := h
    rcases mem_cons.mp ha with rfl | ha
    · exact ⟨[], a, ws, rfl, hq, fun b hb hqb => habove ⟨b, hb, hqb⟩⟩
    · exact absurd ⟨a, ha, hq⟩ habove

/-- No window reaches into the rows of the taskbar. -/
def ClearOfTaskbar (v : Video) (d : Desk) : Prop :=
  ∀ w ∈ d.windows, ∀ q ∈ w.rect.pixels, q ∈ screen v → q.2 < v.height - taskbarHeight

theorem mem_area_of_clear (hv : v.Usual) (hq : q ∈ screen v) (hclear : q.2 < v.height - taskbarHeight) : q ∈ area v win := by
  have hheight := hv.height
  obtain ⟨hx, hx', hy, hy'⟩ := hq
  refine ⟨hx, hx', hy, ?_⟩
  split
  · exact hy'
  · omega

theorem clear_of_mem_area (hv : v.Usual) (hwin : win.desktop = false) (hq : q ∈ area v win) :
    q.2 < v.height - taskbarHeight := by
  have hheight := hv.height
  obtain ⟨-, -, -, hlt⟩ := hq
  rw [hwin, if_neg Bool.false_ne_true] at hlt
  omega

theorem visible_iff_clear (hv : v.Usual) (h : d.Ok v) :
    (∀ q ∈ screen v, ∃ pre w post, d.list = pre ++ w :: post ∧ Visible v w post q) ↔ ClearOfTaskbar v d := by
  constructor
  · intro hvisible w hw q hq hscreen
    obtain ⟨pre, x, post, heq, hx⟩ := hvisible q hscreen
    rcases cons_eq_append_iff.mp heq with ⟨rfl, heq⟩ | ⟨pre', rfl, htail⟩
    · -- the desktop is not to be seen under the window
      obtain ⟨rfl, rfl⟩ := cons_eq_cons.mp heq
      exact absurd hq (hx.2 w hw)
    have hmem : x ∈ d.windows := by
      rw [htail]
      exact mem_append_right _ mem_cons_self
    exact clear_of_mem_area hv (h.kept x hmem).above hx.1.2
  · intro hclear q hscreen
    by_cases hunder : ∃ a ∈ d.windows, q ∈ a.rect.pixels
    · obtain ⟨pre, w, post, heq, hw, hpost⟩ := exists_highest hunder
      have hmem : w ∈ d.windows := by
        rw [heq]
        exact mem_append_right _ mem_cons_self
      refine ⟨d.desktop :: pre, w, post, ?_, ⟨hw, mem_area_of_clear hv hscreen (hclear w hmem q hw hscreen)⟩, hpost⟩
      rw [Desk.list, heq, cons_append]
    · refine ⟨[], d.desktop, d.windows, rfl, ⟨?_, ?_⟩, fun a ha hqa => hunder ⟨a, ha, hqa⟩⟩
      · obtain ⟨hx, hx', hy, hy'⟩ := hscreen
        rw [h.desktop.1, Rect.mem_pixels]
        dsimp only
        omega
      · obtain ⟨hx, hx', hy, hy'⟩ := hscreen
        refine ⟨hx, hx', hy, ?_⟩
        rw [h.desktop.2, if_pos rfl]
        exact hy'

theorem Desk.Ok.placed (hv : v.Usual) (h : d.Ok v) : ∀ w ∈ d.list, w.Placed := by
  have hwidth := hv.width
  have hheight := hv.height
  refine forall_mem_cons.mpr ⟨?_, fun w hw => (h.kept w hw).placed⟩
  obtain ⟨hx, hy, hw, hh⟩ := Rect.mk.inj h.desktop.1
  exact ⟨by omega, by omega, by omega, by omega, by omega, by omega⟩

theorem ShownOnce.exists (h : ShownOnce ws q) : ∃ w ∈ ws, q ∈ covered w.clipList := by
  obtain ⟨pre, w, post, rfl, hw, -⟩ := h
  exact ⟨w, mem_append_right _ mem_cons_self, hw⟩

theorem clear_stainAll : ClearOfTaskbar v d.stainAll ↔ ClearOfTaskbar v d := forall_mem_map

/-- Whatever the user did with the windows: with all of them dirty, `win_paint` gives every pixel of the screen to the
clip list of exactly one window and paints it just if no window hangs over the taskbar. -/
theorem compositor_covers_iff {acts : List DeskAct} (hv : v.Usual)
    (hrun : Run (ofNext (deskTo v)) (initDesktop v id) acts d)
    (hok : (winPaint v (winStainList d.list) p).pool.failed = false) :
    (∀ q ∈ screen v, ShownOnce (winPaint v (winStainList d.list) p).windows q ∧
      Repainted v (winPaint v (winStainList d.list) p).drawn q) ↔ ClearOfTaskbar v d := by
  have hdesk : d.stainAll.Ok v := (desk_run hv hrun).stainAll
  have hdirty : ∀ w ∈ winStainList d.list, w.flags.dirty = true := forall_mem_map.mpr fun _ _ => rfl
  have hclipped : Clipped v (winStainList d.list) (winPaint v (winStainList d.list) p).windows :=
    winPaint_clipped hv.toOk (hdesk.placed hv) hdirty hok
  rw [← clear_stainAll, ← visible_iff_clear hv hdesk]
  constructor
  · exact fun h q hq => hclipped.shownOnce_iff.mp (h q hq).1
  · intro h q hq
    have honce := hclipped.shownOnce_iff.mpr (h q hq)
    exact ⟨honce, winPaint_repainted hv.size hv.pitch hdirty hq honce.exists⟩

/-! ### A window that is dragged -/

def smallScreen : Video := ⟨640, 480, 640⟩

theorem smallScreen_usual : smallScreen.Usual := ⟨by decide, by decide, by decide, by decide⟩

def fullPool : Pool := ⟨2000, false⟩

/-- The user takes a new window at its title bar and pulls it to a row of the screen. -/
def dragTo (my : Int) : List DeskAct :=
  [.create 2 10 10 100 100 ⟨true, false, false, false, false⟩, .mouse ⟨15, 15, true, false⟩ true,
    .mouse ⟨15, my, true, false⟩ true]

theorem compositor_covers_iff_dragged : ∃ d, Run (ofNext (deskTo smallScreen)) (initDesktop smallScreen 1) (dragTo 300) d ∧
    ∀ q ∈ screen smallScreen, ShownOnce (winPaint smallScreen (winStainList d.list) fullPool).windows q ∧
      Repainted smallScreen (winPaint smallScreen (winStainList d.list) fullPool).drawn q := by
  have hexec : (exec (deskTo smallScreen) (initDesktop smallScreen 1) (dragTo 300)).map (fun d =>
      (d.windows.map Window.rect, (winPaint smallScreen (winStainList d.list) fullPool).pool.failed)) =
      some ([⟨10, 295, 102, 122⟩], false) := by decide +kernel
  obtain ⟨d, hd, hends⟩ := Option.map_eq_some_iff.mp hexec
  obtain ⟨hrects, hok⟩ := Prod.mk.inj hends
  have hrun := exec_run hd
  refine ⟨d, hrun, (compositor_covers_iff smallScreen_usual hrun hok).mpr fun w hw q hq _ => ?_⟩
  have hrect : w.rect ∈ d.windows.map Window.rect := mem_map_of_mem hw
  rw [hrects, mem_singleton] at hrect
  rw [hrect, Rect.mem_pixels] at hq
  simp only [smallScreen, taskbarHeight] at hq ⊢
  omega

/-- Pulled down to the taskbar, the window has a part that no clip list shows. -/
theorem taskbar_uncovered : ∃ d, Run (ofNext (deskTo smallScreen)) (initDesktop smallScreen 1) (dragTo 470) d ∧
    (winPaint smallScreen (winStainList d.list) fullPool).pool.failed = false ∧
    (20, 460) ∈ screen smallScreen ∧
    ¬ ShownOnce (winPaint smallScreen (winStainList d.list) fullPool).windows (20, 460) := by
  have hexec : (exec (deskTo smallScreen) (initDesktop smallScreen 1) (dragTo 470)).map (fun d =>
      ((winPaint smallScreen (winStainList d.list) fullPool).pool.failed,
        (winPaint smallScreen (winStainList d.list) fullPool).windows.map Window.clipList)) =
      some (false, [[⟨0, 0, 10, 480⟩, ⟨112, 0, 528, 480⟩, ⟨10, 0, 102, 432⟩], [⟨10, 432, 102, 20⟩]]) := by decide +kernel
  obtain ⟨d, hd, hends⟩ := Option.map_eq_some_iff.mp hexec
  obtain ⟨hok, hlists⟩ := Prod.mk.inj hends
  refine ⟨d, exec_run hd, hok, ⟨by decide, by decide, by decide, by decide⟩, fun honce => ?_⟩
  obtain ⟨w, hw, r, hr, hq⟩ := honce.exists
  have hlist : w.clipList ∈ (winPaint smallScreen (winStainList d.list) fullPool).windows.map Window.clipList :=
    mem_map_of_mem hw
  have hnone : ∀ l ∈ ([[⟨0, 0, 10, 480⟩, ⟨112, 0, 528, 480⟩, ⟨10, 0, 102, 432⟩], [⟨10, 432, 102, 20⟩]] : List (List Rect)),
      ∀ r ∈ l, ¬ (r.x ≤ 20 ∧ 20 < r.x + r.w ∧ r.y ≤ 460 ∧ 460 < r.y + r.h) := by decide
  rw [hlists] at hlist
  exact hnone _ hlist r hr hq

end NyanOS.Screen
