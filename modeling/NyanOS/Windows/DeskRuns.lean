import NyanOS.Lib.Run
import NyanOS.Windows.ClipCover
import NyanOS.Windows.Desk

/-!
# Windows that the user can make

Whatever is dragged, resized, maximized and minimized, a window has a size and its right edge is not left of the screen,
since it is held between its edges.
-/
namespace NyanOS.Screen

open Lib List

variable {v : Video} {d d' : Desk} {win w : Window} {id newW newH : Nat} {ok : Bool}
  {x y mx my : Int} {width height : Nat} {flags : WinFlags}

/-- A place for a window. -/
structure Room (x y : Int) (w h : Nat) : Prop where
  x : 0 ≤ x + w ∧ x < 2 ^ 62
  y : 0 ≤ y ∧ y < 2 ^ 62
  w : 1 ≤ w ∧ w < 2 ^ 52
  h : 1 ≤ h ∧ h < 2 ^ 52

/-- A window other than the desktop has a place, another one to go back to, and pixels for its size. -/
structure Window.Kept (w : Window) : Prop where
  above : w.desktop = false
  place : Room w.x w.y w.width w.height
  saved : Room w.preX w.preY w.preW w.preH
  pixels : w.pixelsSize = w.height * w.width * 4

theorem Window.Kept.placed (h : w.Kept) : w.Placed := by
  obtain ⟨-, ⟨hx, hy, hw, hh⟩, -, -⟩ := h
  exact ⟨by omega, by omega, by omega, by omega, hx.1, by omega⟩

/-- The screens: numbers of type `int`, with room for the mouse and the taskbar. -/
structure Video.Usual (v : Video) : Prop where
  width : 4 ≤ v.width ∧ v.width < 2 ^ 31
  height : taskbarHeight < v.height ∧ v.height < 2 ^ 31
  pitch : v.width ≤ v.pitch
  size : v.pitch * v.height < 2 ^ 64

theorem Video.Usual.toOk (h : v.Usual) : v.Ok := by
  obtain ⟨hw, hh, hp, -⟩ := h
  exact ⟨by omega, by omega, hp⟩

theorem Window.Kept.stain (h : w.Kept) : w.stain.Kept := ⟨h.above, h.place, h.saved, h.pixels⟩

theorem Window.Kept.unmaximize (h : w.Kept) : w.unmaximize.Kept := ⟨h.above, h.place, h.saved, h.pixels⟩

theorem Window.Kept.savePlace (h : w.Kept) : w.savePlace.Kept := ⟨h.above, h.place, h.place, h.pixels⟩

theorem Window.Kept.winRedrawTitlebar (h : w.Kept) : (winRedrawTitlebar w).Kept := by
  unfold Screen.winRedrawTitlebar
  split
  · exact h
  · exact h.stain

theorem sides_lt {a b : Nat} (ha : 1 ≤ a) (hb : 1 ≤ b) (h : a * b * 4 < 2 ^ 52) : a < 2 ^ 52 ∧ b < 2 ^ 52 := by
  have hle : a ≤ a * b := Nat.le_mul_of_pos_right a hb
  have hle' : b ≤ a * b := Nat.le_mul_of_pos_left b ha
  omega

theorem Window.Kept.winResize (h : w.Kept) (hx : 0 ≤ x + newW ∧ x < 2 ^ 62)
    (hy : 0 ≤ y ∧ y < 2 ^ 62) (hw : 1 ≤ newW) (hh : 1 ≤ newH) : (winResize ok w x y newW newH).Kept := by
  unfold Screen.winResize
  split
  · next hmem =>
    obtain ⟨hh', hw'⟩ := sides_lt hh hw hmem.2
    exact ⟨h.above, ⟨hx, hy, ⟨hw, hw'⟩, ⟨hh, hh'⟩⟩, h.saved, rfl⟩
  · exact h

@[simp] theorem winResize_id : (winResize ok w x y newW newH).id = w.id := by
  unfold winResize
  split <;> rfl

theorem winResize_width : (winResize ok w x y w.width newH).width = w.width := by
  unfold winResize
  split <;> rfl

theorem Window.Kept.maximize (hv : v.Usual) (h : w.Kept) : (maximize v ok w).Kept := by
  have hwidth := hv.width
  have hheight := hv.height
  have hfull : ∀ u : Window, u.Kept → (Screen.winResize ok u 0 0 v.width (v.height - taskbarHeight)).Kept := fun u hu =>
    hu.winResize (by omega) (by omega) (by omega) (by omega)
  unfold Screen.maximize
  dsimp only
  split
  · exact hfull _ ⟨h.above, h.place, h.place, h.pixels⟩
  · have hback : ({ w with state := .normal } : Window).Kept := ⟨h.above, h.place, h.saved, h.pixels⟩
    exact hback.winResize h.saved.x h.saved.y h.saved.w.1 h.saved.h.1
  · exact hfull _ ⟨h.above, h.place, h.saved, h.pixels⟩

@[simp] theorem maximize_id : (maximize v ok w).id = w.id := by
  unfold maximize
  dsimp only
  split <;> simp [Window.savePlace]

theorem Window.Kept.minimize (h : w.Kept) : (minimize ok w).Kept := by
  unfold Screen.minimize
  split
  · have hback : ({ w with state := w.preState } : Window).Kept := ⟨h.above, h.place, h.saved, h.pixels⟩
    exact hback.winResize h.place.x h.place.y h.place.w.1 h.saved.h.1
  have hsave : ({ w.savePlace with preState := w.state, state := .minimized } : Window).Kept :=
    ⟨h.above, h.place, h.place, h.pixels⟩
  exact hsave.winResize h.place.x h.place.y h.place.w.1 (by decide)

@[simp] theorem minimize_id : (minimize ok w).id = w.id := by
  unfold minimize
  split <;> simp [Window.savePlace]

theorem minimize_width : (minimize ok w).width = w.width := by
  unfold minimize
  split
  · exact winResize_width (w := { w with state := w.preState })
  · exact winResize_width (w := { w.savePlace with preState := w.state, state := .minimized })

theorem Window.Kept.moveTo {ctx : WinDragCtx} (hv : v.Usual) (h : w.Kept) (hgrip : 0 ≤ ctx.offX)
    (hgrip' : ctx.offX ≤ w.width) (hmx : 0 ≤ mx ∧ mx < 2 ^ 62) : (moveTo v ctx mx my w).Kept := by
  have hheight := hv.height
  refine ⟨h.above, ⟨?_, ?_, h.place.w, h.place.h⟩, h.saved, h.pixels⟩
  · dsimp only [Screen.moveTo, winMove, Window.unmaximize]
    omega
  · dsimp only [Screen.moveTo, winMove, Window.unmaximize]
    omega

theorem resizeX_spec (dir : Dir) (h : w.Kept) (hmx : 0 ≤ mx ∧ mx < 2 ^ 62) :
    let side := (resizeX dir w mx).getD (w.x, w.width)
    (0 ≤ side.1 + side.2.toNat ∧ side.1 < 2 ^ 62) ∧ 1 ≤ side.2.toNat := by
  have hx := h.place.x
  have hw := h.place.w
  unfold resizeX winMinW
  dsimp only
  split
  · split
    · next hmin =>
      dsimp only [Option.getD_some]
      omega
    · dsimp only [Option.getD_none]
      omega
  · split
    · split
      · next hmin =>
        dsimp only [Option.getD_some]
        omega
      · dsimp only [Option.getD_none]
        omega
    · dsimp only [Option.getD_none]
      omega

theorem resizeY_spec (v : Video) (dir : Dir) (h : w.Kept) (hmy : 0 ≤ my ∧ my < 2 ^ 62) :
    let side := (resizeY v dir w my).getD (w.y, w.height)
    (0 ≤ side.1 ∧ side.1 < 2 ^ 62) ∧ 1 ≤ side.2.toNat := by
  have hy := h.place.y
  have hh := h.place.h
  unfold resizeY winMinH
  dsimp only
  split
  · split
    · next hmin =>
      dsimp only [Option.getD_some]
      omega
    · dsimp only [Option.getD_none]
      omega
  · split
    · split
      · next hmin =>
        dsimp only [Option.getD_some]
        omega
      · dsimp only [Option.getD_none]
        omega
    · dsimp only [Option.getD_none]
      omega

theorem Window.Kept.resizeTo {dir : Dir} (h : win.Kept) (hmx : 0 ≤ mx ∧ mx < 2 ^ 62)
    (hmy : 0 ≤ my ∧ my < 2 ^ 62) (hw : resizeTo v ok dir mx my win = some w) : w.Kept ∧ w.id = win.id := by
  obtain ⟨hx, hwidth⟩ := resizeX_spec dir h hmx
  obtain ⟨hy, hheight⟩ := resizeY_spec v dir h hmy
  unfold Screen.resizeTo at hw
  split at hw
  · cases hw
  · cases hw
    exact ⟨(h.winResize hx hy hwidth hheight).unmaximize, winResize_id⟩

/-! ### The desk -/

/-- The window that is being moved, not resized. -/
def Desk.Moving (d : Desk) (ctx : WinDragCtx) : Prop := d.dragCtx = some ctx ∧ ctx.resizeDir = resNone

structure Desk.Ok (v : Video) (d : Desk) : Prop where
  desktop : d.desktop.rect = ⟨0, 0, v.width, v.height⟩ ∧ d.desktop.desktop = true
  kept : ∀ w ∈ d.windows, w.Kept
  ids : (d.windows.map Window.id).Nodup
  target : ∀ ctx, d.dragCtx = some ctx → ctx.target ∈ d.windows.map Window.id
  grip : ∀ ctx, d.Moving ctx → 0 ≤ ctx.offX ∧ ∀ w ∈ d.windows, w.id = ctx.target → ctx.offX ≤ w.width

theorem initDesktop_ok : (initDesktop v id).Ok v :=
  ⟨⟨rfl, rfl⟩, fun _ hw => absurd hw not_mem_nil, nodup_nil, fun _ hctx => (nomatch hctx),
    fun _ hctx => (nomatch hctx.1)⟩

/-- A change of windows that keeps their addresses, and the width of one that is being moved. -/
theorem Desk.Ok.map {f : Window → Window} (h : d.Ok v) (hkept : ∀ w ∈ d.windows, (f w).Kept)
    (hid : ∀ w ∈ d.windows, (f w).id = w.id) (hwidth : ∀ ctx, d.Moving ctx → ∀ w ∈ d.windows, (f w).width = w.width) :
    ({ d with windows := d.windows.map f } : Desk).Ok v := by
  have hids : (d.windows.map f).map Window.id = d.windows.map Window.id := by
    rw [map_map]
    exact map_congr_left hid
  refine ⟨h.desktop, fun w hw => ?_, ?_, fun ctx hctx => ?_, fun ctx hctx => ?_⟩
  · obtain ⟨u, hu, rfl⟩ := mem_map.mp hw
    exact hkept u hu
  · dsimp only
    rw [hids]
    exact h.ids
  · dsimp only
    rw [hids]
    exact h.target ctx hctx
  · refine ⟨(h.grip ctx hctx).1, fun w hw hwid => ?_⟩
    obtain ⟨u, hu, rfl⟩ := mem_map.mp hw
    rw [hwidth ctx hctx u hu]
    exact (h.grip ctx hctx).2 u hu ((hid u hu).symm.trans hwid)

theorem Desk.Ok.update {f : Window → Window} (h : d.Ok v)
    (hkept : ∀ w ∈ d.windows, w.id = id → (f w).Kept ∧ (f w).id = id)
    (hwidth : ∀ ctx, d.Moving ctx → ∀ w ∈ d.windows, w.id = id → (f w).width = w.width) : (d.update id f).Ok v := by
  refine h.map (fun w hw => ?_) (fun w hw => ?_) fun ctx hctx w hw => ?_
  · by_cases hwid : w.id = id
    · rw [if_pos hwid]
      exact (hkept w hw hwid).1
    · rw [if_neg hwid]
      exact h.kept w hw
  · by_cases hwid : w.id = id
    · rw [if_pos hwid, (hkept w hw hwid).2, hwid]
    · rw [if_neg hwid]
  · by_cases hwid : w.id = id
    · rw [if_pos hwid]
      exact hwidth ctx hctx w hw hwid
    · rw [if_neg hwid]

theorem Desk.Ok.winDrawTaskbar (h : d.Ok v) : (winDrawTaskbar d).Ok v := ⟨h.desktop, h.kept, h.ids, h.target, h.grip⟩

theorem Desk.Ok.stainAll (h : d.Ok v) : d.stainAll.Ok v :=
  (h.map (f := Window.stain) (fun w hw => (h.kept w hw).stain) (fun _ _ => rfl) fun _ _ _ _ => rfl).winDrawTaskbar

theorem Desk.Ok.reorder {ws : List Window} (h : d.Ok v) (hmem : ∀ w ∈ ws, w ∈ d.windows)
    (hids : (ws.map Window.id).Nodup) (htarget : ∀ ctx, d.dragCtx = some ctx → ctx.target ∈ ws.map Window.id) :
    ({ d with windows := ws } : Desk).Ok v :=
  ⟨h.desktop, fun w hw => h.kept w (hmem w hw), hids, htarget,
    fun ctx hctx => ⟨(h.grip ctx hctx).1, fun w hw => (h.grip ctx hctx).2 w (hmem w hw)⟩⟩

theorem Desk.Ok.noDrag (h : d.Ok v) : ({ d with dragCtx := none } : Desk).Ok v :=
  ⟨h.desktop, h.kept, h.ids, fun _ hctx => (nomatch hctx), fun _ hctx => (nomatch hctx.1)⟩

theorem Desk.mem_of_find (h : d.find id = some w) : w ∈ d.windows ∧ w.id = id := by
  unfold Desk.find at h
  exact ⟨mem_of_find?_eq_some h, by simpa using find?_some h⟩

theorem mem_ids_raised {a : Nat} {ws : List Window} (h : a ∈ ws.map Window.id) :
    a ∈ (ws.filter (·.id ≠ win.id) ++ [win]).map Window.id := by
  obtain ⟨w, hw, rfl⟩ := mem_map.mp h
  by_cases hsame : w.id = win.id
  · exact mem_map.mpr ⟨win, mem_append_right _ (mem_singleton.mpr rfl), hsame.symm⟩
  · exact mem_map.mpr ⟨w, mem_append_left _ (mem_filter.mpr ⟨hw, decide_eq_true hsame⟩), rfl⟩

theorem Desk.Ok.winFocus (h : d.Ok v) : (winFocus d id).Ok v := by
  unfold Screen.winFocus
  split
  · exact h
  next win hfind =>
  split
  · exact h
  obtain ⟨hwin, rfl⟩ := Desk.mem_of_find hfind
  have hothers : ∀ w ∈ d.windows.filter (·.id ≠ win.id), w ∈ d.windows ∧ w.id ≠ win.id := fun w hw =>
    ⟨(mem_filter.mp hw).1, of_decide_eq_true (mem_filter.mp hw).2⟩
  refine (h.reorder (fun w hw => ?_) ?_ fun ctx hctx => mem_ids_raised (h.target ctx hctx)).stainAll
  · rcases mem_append.mp hw with hw | hw
    · exact (hothers w hw).1
    · exact mem_singleton.mp hw ▸ hwin
  · rw [map_append, map_singleton, nodup_append]
    refine ⟨(filter_sublist.map _).nodup h.ids, nodup_singleton _, fun a ha b hb hab => ?_⟩
    obtain ⟨w, hw, rfl⟩ := mem_map.mp ha
    exact (hothers w hw).2 (hab.trans (mem_singleton.mp hb))

theorem Desk.Ok.winToggleMinimize (h : d.Ok v) : (winToggleMinimize ok d id).Ok v := by
  refine (h.update (fun w hw hwid => ?_) fun ctx _ w _ _ => minimize_width).stainAll
  exact ⟨(h.kept w hw).minimize, minimize_id.trans hwid⟩

theorem Desk.Ok.winToggleMaximize (hv : v.Usual) (h : d.Ok v) (hdrag : d.dragCtx = none) :
    (winToggleMaximize v ok d id).Ok v := by
  refine (h.update (fun w hw hwid => ?_) fun ctx hctx => ?_).stainAll
  · exact ⟨(h.kept w hw).maximize hv, maximize_id.trans hwid⟩
  · exact absurd (hdrag.symm.trans hctx.1) (Option.some_ne_none _).symm

theorem Desk.Ok.winCycleFocus (h : d.Ok v) : (winCycleFocus ok d).Ok v := by
  unfold Screen.winCycleFocus
  split
  · exact h
  refine Desk.Ok.winFocus ?_
  split
  · exact h.winToggleMinimize
  · exact h

theorem Desk.Ok.winClose (h : d.Ok v) : (winClose d id).Ok v := by
  have hids : ((d.windows.filter (·.id ≠ id)).map Window.id).Nodup := (filter_sublist.map _).nodup h.ids
  have hmem : ∀ w ∈ d.windows.filter (·.id ≠ id), w ∈ d.windows := fun w hw => (mem_filter.mp hw).1
  refine Desk.Ok.stainAll ?_
  by_cases hdrag : d.dragCtx.map WinDragCtx.target = some id
  · rw [if_pos hdrag]
    exact h.noDrag.reorder hmem hids fun _ hctx => (nomatch hctx)
  rw [if_neg hdrag]
  refine h.reorder hmem hids fun ctx hctx => ?_
  obtain ⟨w, hw, hwid⟩ := mem_map.mp (h.target ctx hctx)
  have hother : w.id ≠ id := by
    rintro rfl
    exact hdrag (by rw [hctx, Option.map_some, hwid])
  exact mem_map.mpr ⟨w, mem_filter.mpr ⟨hw, decide_eq_true hother⟩, hwid⟩

theorem newWindow_kept (hx : 0 ≤ x ∧ x < 2 ^ 62)
    (hy : 0 ≤ y ∧ y < 2 ^ 62) (hw : 1 ≤ width ∧ width < 2 ^ 31) (hh : 1 ≤ height ∧ height < 2 ^ 31) :
    (newWindow id x y width height flags).Kept := by
  refine ⟨rfl, ⟨?_, hy, ?_, ?_⟩, ⟨?_, hy, ?_, ?_⟩, rfl⟩ <;> dsimp only [newWindow, winBorderSize, winTitleBarHeight]
  · split <;> omega
  · split <;> omega
  · split <;> omega
  · omega
  · omega
  · omega

theorem Desk.Ok.append (h : d.Ok v) (hnew : w.Kept) (hfresh : w.id ∉ d.windows.map Window.id) :
    ({ d with windows := d.windows ++ [w] } : Desk).Ok v := by
  refine ⟨h.desktop, fun u hu => ?_, ?_, fun ctx hctx => ?_, fun ctx hctx => ⟨(h.grip ctx hctx).1, fun u hu huid => ?_⟩⟩
  · rcases mem_append.mp hu with hu | hu
    · exact h.kept u hu
    · exact mem_singleton.mp hu ▸ hnew
  · rw [map_append, map_singleton, nodup_append]
    refine ⟨h.ids, nodup_singleton _, fun a ha b hb hab => hfresh ?_⟩
    rwa [← mem_singleton.mp hb, ← hab]
  · rw [map_append]
    exact mem_append_left _ (h.target ctx hctx)
  · rcases mem_append.mp hu with hu | hu
    · exact (h.grip ctx hctx).2 u hu huid
    -- the target exists already
    obtain rfl := mem_singleton.mp hu
    exact absurd (huid ▸ h.target ctx hctx.1) hfresh

theorem Desk.Ok.winCreate (h : d.Ok v) (hfresh : d.find id = none)
    (hnew : (newWindow id x y width height flags).Kept) : (winCreate d id x y width height flags).Ok v := by
  have hid : ∀ w : Window, (if d.isTop w.id then winRedrawTitlebar w else w).id = w.id := by
    intro w
    unfold winRedrawTitlebar
    split
    · split <;> rfl
    · rfl
  have hold : ({ d with windows := d.windows.map fun w => if d.isTop w.id then winRedrawTitlebar w else w } : Desk).Ok v := by
    refine h.map (fun w hw => ?_) (fun w _ => hid w) fun _ _ w _ => ?_
    · split
      · exact (h.kept w hw).winRedrawTitlebar
      · exact h.kept w hw
    · unfold winRedrawTitlebar
      split
      · split <;> rfl
      · rfl
  have hadded := hold.append hnew fun hmem => by
    obtain ⟨u, hu, huid⟩ := mem_map.mp hmem
    obtain ⟨w, hw, rfl⟩ := mem_map.mp hu
    have hno := find?_eq_none.mp hfresh w hw
    exact hno (decide_eq_true ((hid w).symm.trans huid))
  unfold Screen.winCreate
  dsimp only
  split
  · exact hadded
  · exact hadded.winDrawTaskbar

theorem Desk.Ok.sysCreateWin (hv : v.Usual) (h : d.Ok v)
    (hfresh : d.find id = none) (hx : x < 2 ^ 62) (hy : y < 2 ^ 62) : (sysCreateWin v d id x y width height flags).Ok v := by
  have hwidth := hv.width
  have hheight := hv.height
  refine h.winCreate hfresh (newWindow_kept (by omega) (by omega) ?_ ?_)
  · split <;> omega
  · split <;> omega

/-! ### The mouse -/

section
variable {m : Mouse} {ctx : WinDragCtx} {mx my : Int}

theorem Desk.Ok.dragTarget (hv : v.Usual) (h : d.Ok v) (hctx : d.dragCtx = some ctx) (hmx : 0 ≤ mx ∧ mx < 2 ^ 62)
    (hmy : 0 ≤ my ∧ my < 2 ^ 62) : (dragTarget v ok d ctx mx my).Ok v := by
  unfold Screen.dragTarget
  split
  · next hdir =>
    split
    · exact h
    next w hw =>
    obtain ⟨win, hfind, hw⟩ := Option.bind_eq_some_iff.mp hw
    obtain ⟨hwin, hid⟩ := Desk.mem_of_find hfind
    obtain ⟨hkept, hwid⟩ := (h.kept win hwin).resizeTo hmx hmy hw
    refine (h.update (fun _ _ _ => ⟨hkept, hwid.trans hid⟩) fun ctx' hmoving => ?_).stainAll
    obtain rfl := Option.some.inj (hctx.symm.trans hmoving.1)
    exact absurd hmoving.2 hdir
  · next hdir =>
    obtain ⟨hpos, hgrip⟩ := h.grip ctx ⟨hctx, not_not.mp hdir⟩
    refine (h.update (fun w hw hwid => ?_) ?_).stainAll
    · exact ⟨(h.kept w hw).moveTo hv hpos (hgrip w hw hwid) hmx, hwid⟩
    · exact fun _ _ _ _ _ => rfl

theorem dragCtx_winFocus : (winFocus d id).dragCtx = d.dragCtx := by
  unfold winFocus
  split
  · rfl
  · split <;> rfl

theorem mem_ids_winFocus {a : Nat} (h : a ∈ d.windows.map Window.id) : a ∈ (winFocus d id).windows.map Window.id := by
  unfold winFocus
  split
  · exact h
  next win hfind =>
  split
  · exact h
  obtain ⟨-, rfl⟩ := Desk.mem_of_find hfind
  dsimp only [Desk.stainAll, winStainList]
  rw [map_map]
  exact mem_ids_raised h

theorem mem_winFocus (hw : w ∈ (winFocus d id).windows) : ∃ u ∈ d.windows, w.id = u.id ∧ w.width = u.width := by
  unfold winFocus at hw
  split at hw
  · exact ⟨w, hw, rfl, rfl⟩
  next win hfind =>
  split at hw
  · exact ⟨w, hw, rfl, rfl⟩
  obtain ⟨u, hu, rfl⟩ := mem_map.mp hw
  refine ⟨u, ?_, rfl, rfl⟩
  rcases mem_append.mp hu with hu | hu
  · exact (mem_filter.mp hu).1
  · exact mem_singleton.mp hu ▸ (Desk.mem_of_find hfind).1

theorem Desk.Ok.handleTaskbarClick (h : d.Ok v) : (handleTaskbarClick v ok d mx my).Ok v := by
  unfold Screen.handleTaskbarClick
  dsimp only
  split
  · exact h
  split
  · exact h
  split
  · exact h
  refine Desk.Ok.winDrawTaskbar ?_
  split
  · exact h.winToggleMinimize.winFocus
  split
  · split
    · exact h.winToggleMinimize
    · exact h
  · exact h.winFocus

theorem mem_of_getWinAt (h : getWinAt v d mx my = some w) : w ∈ d.windows ∧ w.x ≤ mx ∧ mx < w.x + w.width := by
  unfold getWinAt at h
  split at h
  · cases h
  have hat := find?_some h
  refine ⟨mem_reverse.mp (mem_of_find?_eq_some h), ?_⟩
  simp only [isPointInRect, Bool.and_eq_true, decide_eq_true_eq] at hat
  exact ⟨hat.1.1.1, hat.1.1.2⟩

theorem Desk.Ok.pressWindow (hv : v.Usual) (h : d.Ok v) (hdrag : d.dragCtx = none) (hwin : getWinAt v d mx my = some win) :
    (pressWindow v ok d win mx my).Ok v := by
  obtain ⟨hmem, hleft, hright⟩ := mem_of_getWinAt hwin
  have hfocus : (Screen.winFocus d win.id).Ok v := h.winFocus
  unfold Screen.pressWindow
  dsimp only
  split
  · exact h
  split
  · exact hfocus.winToggleMaximize hv (dragCtx_winFocus.trans hdrag)
  split
  · exact h.winToggleMinimize.winDrawTaskbar
  split
  · refine ⟨hfocus.desktop, hfocus.kept, hfocus.ids, fun ctx hctx => ?_, fun ctx hctx => ?_⟩
    · cases hctx
      exact mem_ids_winFocus (mem_map_of_mem hmem)
    · obtain rfl := Option.some.inj hctx.1
      refine ⟨by dsimp only; omega, fun w hw hwid => ?_⟩
      obtain ⟨u, hu, huid, huw⟩ := mem_winFocus hw
      have hsame : u = win := inj_on_of_nodup_map h.ids hu hmem (huid.symm.trans hwid)
      dsimp only
      rw [huw, hsame]
      omega
  · exact hfocus

theorem Desk.Ok.endDrag (h : d.Ok v) : (endDrag d).Ok v := by
  unfold Screen.endDrag
  split
  · exact h
  refine Desk.Ok.noDrag ?_
  split
  · refine h.update (fun w hw hwid => ⟨(h.kept w hw).stain, hwid⟩) ?_
    exact fun _ _ _ _ _ => rfl
  · exact h

theorem Desk.Ok.releaseWindow (h : d.Ok v) : (releaseWindow v d m).Ok v := by
  unfold Screen.releaseWindow
  dsimp only
  split
  · exact h.endDrag
  split
  · exact h.endDrag.winFocus
  · exact h.endDrag

/-- A place of the mouse whose sums with places and sizes are numbers of 64 bits. -/
def Mouse.Near (m : Mouse) : Prop := (0 ≤ m.mx ∧ m.mx < 2 ^ 62) ∧ 0 ≤ m.my ∧ m.my < 2 ^ 62

theorem Mouse.On.near (hv : v.Usual) (h : m.On v) : m.Near := by
  have hwidth := hv.width
  have hheight := hv.height
  have hx := h.x
  have hy := h.y
  unfold Mouse.Near
  omega

theorem Desk.Ok.winUpdate (hv : v.Usual) (h : d.Ok v) (hm : m.Near) : (winUpdate v ok d m).Ok v := by
  have hbuttons : ∀ d' : Desk, d'.Ok v →
      ({ d' with prevLeftBtn := m.left, prevRightBtn := m.right } : Desk).Ok v := fun d' h' =>
    ⟨h'.desktop, h'.kept, h'.ids, h'.target, h'.grip⟩
  unfold Screen.winUpdate
  dsimp only
  refine hbuttons _ ?_
  split
  · split
    · next ctx hctx => exact h.dragTarget hv hctx hm.1 hm.2
    next hdrag =>
    split
    · exact h
    split
    · exact h.handleTaskbarClick
    split
    · exact h
    · next win hwin => exact h.pressWindow hv hdrag hwin
  · exact h.releaseWindow

end

theorem Desk.Ok.step {a : DeskAct} (hv : v.Usual) (hstep : deskTo v d a = some d') (h : d.Ok v) : d'.Ok v := by
  cases a with
  | create id x y width height flags =>
    rw [deskTo] at hstep
    split at hstep
    · next hnew =>
      cases hstep
      exact h.sysCreateWin hv hnew.1 hnew.2.1 hnew.2.2
    · cases hstep
  | mouse m ok =>
    rw [deskTo] at hstep
    split at hstep
    · next hm =>
      cases hstep
      exact h.winUpdate hv (hm.near hv)
    · cases hstep
  | cycle ok =>
    cases hstep
    exact h.winCycleFocus
  | close id =>
    rw [deskTo] at hstep
    split at hstep
    · cases hstep
    · cases hstep
      exact h.winClose

/-- Whatever the user does, the desktop fills the screen below windows that have a place. -/
theorem desk_run {acts : List DeskAct} (hv : v.Usual) (hrun : Run (ofNext (deskTo v)) (initDesktop v id) acts d) : d.Ok v :=
  hrun.invariant (P := Desk.Ok v) (fun _ _ _ hstep => Desk.Ok.step hv hstep) initDesktop_ok

/-! ### Back from the whole screen -/

/-- A window is maximized, minimized and restored `n` times, and no longer maximized after that. -/
def maximizeAndBack (v : Video) (n : Nat) (w : Window) : Window :=
  maximize v true ((fun w => minimize true (minimize true w))^[n] (maximize v true w))

def Window.geometry (w : Window) : Int × Int × Nat × Nat := (w.x, w.y, w.width, w.height)

def Window.saved (w : Window) : Int × Int × Nat × Nat := (w.preX, w.preY, w.preW, w.preH)

/-- The screen above the taskbar. -/
def Video.full (v : Video) : Int × Int × Nat × Nat := (0, 0, v.width, v.height - taskbarHeight)

/-- The pixels of the whole screen and of a title bar across it fit in the memory. -/
def Video.Fits (v : Video) : Prop :=
  (v.height - taskbarHeight) * v.width * 4 < 2 ^ 52 ∧ winTitleBarHeight * v.width * 4 < 2 ^ 52

theorem minimize_twice (hv : v.Fits) (hstate : w.state = .maximized) (hfull : w.geometry = v.full) :
    ∃ w', minimize true (minimize true w) = w' ∧ w'.state = .maximized ∧ w'.geometry = v.full ∧ w'.saved = v.full := by
  obtain ⟨-, -, hw, hh⟩ : w.x = 0 ∧ w.y = 0 ∧ w.width = v.width ∧ w.height = v.height - taskbarHeight := by
    simpa [Window.geometry, Video.full] using hfull
  have hup : w.height * w.width * 4 < 2 ^ 52 := by
    rw [hw, hh]
    exact hv.1
  obtain ⟨w₁, hdown, hmin, hback, hx, hy, hwidth, hsaved⟩ : ∃ w₁, minimize true w = w₁ ∧ w₁.state = .minimized ∧
      w₁.preState = .maximized ∧ w₁.x = w.x ∧ w₁.y = w.y ∧ w₁.width = w.width ∧ w₁.saved = w.geometry := by
    rw [minimize, hstate, if_neg (by decide), winResize, if_pos ⟨rfl, hw ▸ hv.2⟩]
    exact ⟨_, rfl, rfl, rfl, rfl, rfl, rfl, rfl⟩
  have hpreH : w₁.preH = w.height := congrArg (·.2.2.2) hsaved
  rw [hdown, minimize, if_pos hmin, hx, hy, hwidth, hpreH, winResize, if_pos ⟨rfl, hup⟩]
  exact ⟨_, rfl, hback, hfull, hpreH ▸ hsaved.trans hfull⟩

theorem maximize_back (hstate : w.state = .maximized) (hsize : w.saved.2.2.2 * w.saved.2.2.1 * 4 < 2 ^ 52) :
    (maximize v true w).geometry = w.saved ∧ (maximize v true w).state = .normal := by
  simp only [maximize, hstate]
  rw [winResize, if_pos ⟨rfl, hsize⟩]
  exact ⟨rfl, rfl⟩

/-- A window that was maximized comes back to its place exactly if it was not minimized in between, or had the place of
a maximized window all along: both operations save the place in the same fields. -/
theorem maximizeAndBack_iff (v : Video) (w : Window) (n : Nat) (hv : v.Fits) (hstate : w.state = .normal)
    (hsize : w.height * w.width * 4 < 2 ^ 52) :
    (maximizeAndBack v n w).geometry = w.geometry ∧ (maximizeAndBack v n w).state = .normal ↔
      n = 0 ∨ w.geometry = v.full := by
  obtain ⟨w₁, hloop, hstate₁, -, hsaved⟩ : ∃ w₁, (fun w => minimize true (minimize true w))^[n] (maximize v true w) = w₁ ∧
      w₁.state = .maximized ∧ w₁.geometry = v.full ∧ w₁.saved = if n = 0 then w.geometry else v.full := by
    induction n with
    | zero =>
      rw [Function.iterate_zero_apply, maximize, hstate, winResize, if_pos ⟨rfl, hv.1⟩]
      exact ⟨_, rfl, rfl, rfl, rfl⟩
    | succ n ih =>
      obtain ⟨w₁, hloop, hstate₁, hfull, -⟩ := ih
      obtain ⟨w₂, htwice, hw₂⟩ := minimize_twice hv hstate₁ hfull
      rw [Function.iterate_succ_apply', hloop, htwice]
      exact ⟨w₂, rfl, hw₂⟩
  have hfits : w₁.saved.2.2.2 * w₁.saved.2.2.1 * 4 < 2 ^ 52 := by
    rw [hsaved]
    split
    · exact hsize
    · exact hv.1
  obtain ⟨hback, hnormal⟩ := maximize_back (v := v) hstate₁ hfits
  rw [maximizeAndBack, hloop, hback, hnormal, hsaved]
  by_cases hn : n = 0
  · simp [hn]
  · simp [hn, eq_comm]

def usualScreen : Video := ⟨1024, 768, 1024⟩

def smallWindow : Window := newWindow 1 10 10 100 100 ⟨true, true, true, false, true⟩

theorem maximizeAndBack_iff_smallWindow : (maximizeAndBack usualScreen 0 smallWindow).geometry = smallWindow.geometry :=
  ((maximizeAndBack_iff usualScreen smallWindow 0 ⟨by decide, by decide⟩ rfl (by decide)).mpr (.inl rfl)).1

theorem minimized_between : (maximizeAndBack usualScreen 1 smallWindow).geometry = (0, 0, 1024, 740) ∧
    smallWindow.geometry = (10, 10, 102, 122) := by decide

end NyanOS.Screen
