import NyanOS.Windows.Compositor

/-!
# The window under the mouse

`get_win_at` looks for a window from the top on, `recalc_clip_list` takes from a window what the windows above it cover.
-/
namespace NyanOS.Screen

open Lib Option List

variable {v : Video} {d : Desk} {ws ws' below above : List Window} {win w : Window} {p : Pool} {mx my : Int}

/-- The test of `get_win_at`. -/
def Window.isAt (mx my : Int) (w : Window) : Bool := isPointInRect mx my w.x w.y w.width w.height

theorem Window.isAt_iff : w.isAt mx my = true ↔ (mx, my) ∈ w.rect.pixels := by
  simp [Window.isAt, isPointInRect, Rect.mem_pixels, Window.rect, and_assoc]

/-- `get_win_at` over the whole list, where the desktop is a window as the others are. -/
def winAt (v : Video) (d : Desk) (mx my : Int) : Option Window :=
  if v.height - taskbarHeight ≤ my then some d.desktop else d.list.reverse.find? (Window.isAt mx my)

theorem winAt_eq (hdesk : d.desktop.isAt mx my = true) :
    winAt v d mx my = some ((getWinAt v d mx my).getD d.desktop) := by
  unfold winAt getWinAt
  split
  · rfl
  rw [Desk.list, reverse_cons, find?_append, find?_singleton, if_pos hdesk]
  change Option.or (d.windows.reverse.find? (Window.isAt mx my)) _ =
    some ((d.windows.reverse.find? (Window.isAt mx my)).getD _)
  cases d.windows.reverse.find? (Window.isAt mx my) with
  | none => rfl
  | some w => rfl

theorem winAt_stainAll : winAt v d.stainAll mx my = (winAt v d mx my).map Window.stain := by
  unfold winAt
  split
  · rfl
  change (d.list.map Window.stain).reverse.find? _ = _
  rw [← map_reverse, find?_map]
  rfl

theorem map_id_winPaint : (winPaint v ws p).windows.map Window.id = ws.map Window.id := by
  induction ws generalizing p with
  | nil => rfl
  | cons curr above ih =>
    unfold winPaint
    split
    · obtain ⟨l, hl⟩ := recalcClipList_window v above curr p
      rw [map_cons, map_cons, ih, hl]
    · rw [map_cons, map_cons, ih]

theorem Clipped.shows (h : Clipped v ws ws') (hids : ws'.map Window.id = ws.map Window.id) (hw : w ∈ ws') :
    ∃ below win above, ws = below ++ win :: above ∧ w.id = win.id ∧
      ∀ q, q ∈ covered w.clipList ↔ Visible v win above q := by
  induction h with
  | nil => exact absurd hw not_mem_nil
  | @cons win w' above above' htiles _ ih =>
    obtain ⟨hid, hids⟩ := cons.inj hids
    rcases mem_cons.mp hw with rfl | hw
    · exact ⟨[], win, above, rfl, hid, fun q => (htiles.cover q).symm⟩
    · obtain ⟨below, win', above', rfl, hrest⟩ := ih hids hw
      exact ⟨win :: below, win', above', rfl, hrest⟩

theorem find_reverse_iff (mx my : Int) (hids : ((below ++ win :: above).map Window.id).Nodup) :
    ((below ++ win :: above).reverse.find? (Window.isAt mx my)).map Window.id = some win.id ↔
      (mx, my) ∈ win.rect.pixels ∧ ∀ a ∈ above, (mx, my) ∉ a.rect.pixels := by
  rw [map_append, map_cons, nodup_append, nodup_cons] at hids
  obtain ⟨-, ⟨hfresh, -⟩, hbelow⟩ := hids
  rw [reverse_append, reverse_cons, append_assoc, find?_append]
  simp only [← Window.isAt_iff]
  cases habove : above.reverse.find? (Window.isAt mx my) with
  | some a =>
    -- a window above is found first, and it is another one
    have ha : a ∈ above := mem_reverse.mp (mem_of_find?_eq_some habove)
    rw [some_or, map_some, some_inj]
    refine ⟨fun hid => absurd (mem_map.mpr ⟨a, ha, hid⟩) hfresh, fun hnone => ?_⟩
    exact absurd (find?_some habove) (hnone.2 a ha)
  | none =>
    have hnone : ∀ a ∈ above, ¬ a.isAt mx my = true := fun a ha =>
      find?_eq_none.mp habove a (mem_reverse.mpr ha)
    rw [none_or, singleton_append, find?_cons]
    split
    · next hat => exact ⟨fun _ => ⟨hat, hnone⟩, fun _ => rfl⟩
    next hat =>
    refine ⟨fun hid => ?_, fun hwin => absurd hwin.1 (by simp [hat])⟩
    obtain ⟨b, hb, hbid⟩ := map_eq_some_iff.mp hid
    have hmem := mem_map_of_mem (f := Window.id) (mem_reverse.mp (mem_of_find?_eq_some hb))
    exact absurd hbid (hbelow _ hmem _ mem_cons_self)

/-- Above the taskbar the window that gets a click is the one, and the only one, whose clip list has the point once all
clip lists are computed. -/
theorem winAt_shown (hv : v.Ok) (hdesk : d.desktop.rect = ⟨0, 0, v.width, v.height⟩)
    (hplaced : ∀ w ∈ d.list, w.Placed) (hids : (d.list.map Window.id).Nodup)
    (hok : (winPaint v (winStainList d.list) p).pool.failed = false) (hx : 0 ≤ mx ∧ mx < v.width)
    (hy : 0 ≤ my ∧ my < v.height - taskbarHeight) : ∃ win ∈ d.list, winAt v d mx my = some win ∧
      ∀ w ∈ (winPaint v (winStainList d.list) p).windows, (mx, my) ∈ covered w.clipList ↔ w.id = win.id := by
  have hheight := hv.height
  have hfull : d.desktop.isAt mx my = true := by
    rw [Window.isAt_iff, hdesk, Rect.mem_pixels]
    dsimp only
    omega
  have harea : ∀ win, (mx, my) ∈ area v win := by
    intro win
    refine ⟨hx.1, hx.2, hy.1, ?_⟩
    dsimp only
    split <;> omega
  obtain ⟨win, hwin⟩ : ∃ win, winAt v d mx my = some win := ⟨_, winAt_eq hfull⟩
  have hstained : (d.stainAll.list.reverse.find? (Window.isAt mx my)) = some win.stain := by
    rw [← map_some, ← hwin, ← winAt_stainAll]
    exact (if_neg (by omega)).symm
  have hmem : win ∈ d.list := by
    rw [winAt, if_neg (by omega)] at hwin
    exact List.mem_reverse.mp (List.mem_of_find?_eq_some hwin)
  refine ⟨win, hmem, hwin, fun w hw => ?_⟩
  have hclipped : Clipped v (winStainList d.list) (winPaint v (winStainList d.list) p).windows := by
    refine winPaint_clipped hv (List.forall_mem_map.mpr fun w hw => ?_) (List.forall_mem_map.mpr fun _ _ => rfl) hok
    obtain ⟨hx, hy, hwidth, hheight, hright, hbottom⟩ := hplaced w hw
    exact ⟨hx, hy, hwidth, hheight, hright, hbottom⟩
  obtain ⟨below, u, above, hlist, hid, hshows⟩ := hclipped.shows map_id_winPaint hw
  have hids' : ((winStainList d.list).map Window.id).Nodup := by
    rw [winStainList, List.map_map]
    exact hids
  change (winStainList d.list).reverse.find? _ = _ at hstained
  rw [hlist] at hids' hstained
  have hfound := find_reverse_iff mx my hids'
  rw [hstained, map_some, some_inj] at hfound
  rw [hshows, Visible, and_iff_left (harea u), ← hfound, hid, eq_comm]
  rfl

/-- A desktop with one window, which hangs over the left edge. -/
def oneWindow : Desk := { initDesktop smallScreen 0 with windows := [overhanging] }

theorem winAt_shown_oneWindow : ∃ win ∈ oneWindow.list, winAt smallScreen oneWindow 5 30 = some win ∧
      ∀ w ∈ (winPaint smallScreen (winStainList oneWindow.list) fullPool).windows,
        (5, 30) ∈ covered w.clipList ↔ w.id = win.id := by
  refine winAt_shown smallScreen_usual.toOk rfl (fun w hw => ?_) (by decide) (by decide +kernel) (by decide) (by decide)
  rcases mem_cons.mp hw with rfl | hw
  · exact ⟨by decide, by decide, by decide, by decide, by decide, by decide⟩
  · rw [mem_singleton.mp hw]
    exact ⟨by decide, by decide, by decide, by decide, by decide, by decide⟩

end NyanOS.Screen
