import NyanOS.Windows.Compositor

/-! # Windows that are dragged, wherever the mouse goes -/
namespace NyanOS.Screen

open Lib

variable {v : Video} {d d' : Desk} {w w' : Window} {id newW newH : Nat} {ok low high : Bool} {dir : Dir} {mx my x y : Int}

/-- New windows and the mouse, which need not stay on the screen. -/
def dragStep (v : Video) (d : Desk) : DeskAct → Option Desk
  | .mouse m ok => if (0 ≤ m.mx ∧ m.mx < 2 ^ 62) ∧ 0 ≤ m.my ∧ m.my < 2 ^ 62 then some (winUpdate v ok d m) else none
  | a => deskTo v d a

theorem Desk.Ok.dragStep {a : DeskAct} (hv : v.Usual) (hstep : dragStep v d a = some d') (h : d.Ok v) : d'.Ok v := by
  cases a with
  | mouse m ok =>
    obtain ⟨hm, hd⟩ := Option.ite_none_right_eq_some.mp hstep
    cases hd
    exact h.winUpdate hv hm
  | create id x y width height flags => exact h.step (a := .create id x y width height flags) hv hstep
  | cycle ok => exact h.step (a := .cycle ok) hv hstep
  | close id => exact h.step (a := .close id) hv hstep

/-- One side of a window after a drag of its edges: the edge that is not held stays, and a new size is not too small. -/
def SideResized (low high : Bool) (min x w x' w' : Int) : Prop :=
  (if low then x' + w' = x + w else x' = x) ∧ (w' = w ∨ min ≤ w') ∧ (low = false → high = false → w' = w)

structure Resized (dir : Dir) (w w' : Window) : Prop where
  horizontal : SideResized dir.left dir.right winMinW w.x w.width w'.x w'.width
  vertical : SideResized dir.top dir.bottom winMinH w.y w.height w'.y w'.height

theorem SideResized.refl {min x w : Int} : SideResized low high min x w x w :=
  ⟨by split <;> rfl, .inl rfl, fun _ _ => rfl⟩

theorem resizeX_resized (dir : Dir) (w : Window) (mx : Int) : SideResized dir.left dir.right winMinW w.x w.width
    ((resizeX dir w mx).getD (w.x, w.width)).1 ((resizeX dir w mx).getD (w.x, w.width)).2 := by
  unfold resizeX
  dsimp only
  split
  · next hleft =>
    split
    · next hmin => exact ⟨by rw [if_pos hleft]; dsimp only [Option.getD_some]; omega, .inr hmin.1, fun h => by simp [h] at hleft⟩
    · exact .refl
  · next hleft =>
    split
    · next hright =>
      split
      · next hmin => exact ⟨by rw [if_neg hleft]; rfl, .inr hmin.1, fun _ h => by simp [h] at hright⟩
      · exact .refl
    · exact .refl

theorem resizeY_resized (v : Video) (dir : Dir) (w : Window) (my : Int) : SideResized dir.top dir.bottom winMinH w.y w.height
    ((resizeY v dir w my).getD (w.y, w.height)).1 ((resizeY v dir w my).getD (w.y, w.height)).2 := by
  unfold resizeY
  dsimp only
  split
  · next htop =>
    split
    · next hmin => exact ⟨by rw [if_pos htop]; dsimp only [Option.getD_some]; omega, .inr hmin.1, fun h => by simp [h] at htop⟩
    · exact .refl
  · next htop =>
    split
    · next hbottom =>
      split
      · next hmin => exact ⟨by rw [if_neg htop]; rfl, .inr hmin.1, fun _ h => by simp [h] at hbottom⟩
      · exact .refl
    · exact .refl

theorem SideResized.toNat {min x w x' w' : Int} (h : SideResized low high min x w x' w') (hw : 0 ≤ w)
    (hmin : 0 ≤ min) : SideResized low high min x w x' w'.toNat := by
  have hpos : 0 ≤ w' := by
    rcases h.2.1 with rfl | hle
    · exact hw
    · exact hmin.trans hle
  rwa [Int.toNat_of_nonneg hpos]

theorem Resized.winResize (hx : SideResized dir.left dir.right winMinW w.x w.width x newW)
    (hy : SideResized dir.top dir.bottom winMinH w.y w.height y newH) :
    Resized dir w (winResize ok w x y newW newH).unmaximize := by
  unfold Screen.winResize
  split
  · exact ⟨hx, hy⟩
  · exact ⟨.refl, .refl⟩

theorem resizeTo_resized (h : resizeTo v ok dir mx my w = some w') : w'.id = w.id ∧ Resized dir w w' := by
  unfold resizeTo at h
  split at h
  · cases h
  cases h
  have hwidth := (resizeX_resized dir w mx).toNat (Int.natCast_nonneg _) (by decide)
  have hheight := (resizeY_resized v dir w my).toNat (Int.natCast_nonneg _) (by decide)
  exact ⟨winResize_id, .winResize hwidth hheight⟩

theorem winUpdate_resized {m : Mouse} {ctx : WinDragCtx} (h : d.Ok v) (hctx : d.dragCtx = some ctx)
    (hdir : ctx.resizeDir ≠ resNone) (hleft : m.left = true) (hw : w ∈ d.windows) :
    ∃ w' ∈ (winUpdate v ok d m).windows, w'.id = w.id ∧ Resized ctx.resizeDir w w' := by
  have hup : (winUpdate v ok d m).windows = (dragTarget v ok d ctx m.mx m.my).windows := by
    unfold winUpdate
    dsimp only
    rw [if_pos hleft, hctx]
  rw [hup, dragTarget, if_pos hdir]
  split
  · exact ⟨w, hw, rfl, .refl, .refl⟩
  next u hu =>
  obtain ⟨win, hfind, hu⟩ := Option.bind_eq_some_iff.mp hu
  obtain ⟨hwin, hid⟩ := Desk.mem_of_find hfind
  refine ⟨_, List.mem_map_of_mem (List.mem_map_of_mem hw), ?_⟩
  dsimp only
  split
  · next htarget =>
    obtain rfl : w = win := List.inj_on_of_nodup_map h.ids hw hwin (htarget.trans hid.symm)
    obtain ⟨huid, hres⟩ := resizeTo_resized hu
    exact ⟨huid, hres.horizontal, hres.vertical⟩
  · exact ⟨rfl, .refl, .refl⟩

/-- Whatever is created and wherever the mouse goes, every window keeps its upper edge on the screen, its right edge not
left of it, and as many pixels as its size says; and the edge opposite to one that is held stays where it is. -/
theorem dragging_keeps_windows {acts : List DeskAct} (hv : v.Usual)
    (hrun : Run (ofNext (dragStep v)) (initDesktop v id) acts d) :
    (∀ w ∈ d.windows, 0 ≤ w.y ∧ 0 ≤ w.x + w.width ∧ w.pixelsSize = w.height * w.width * 4) ∧
    ∀ (m : Mouse) (ok : Bool) (ctx : WinDragCtx), d.dragCtx = some ctx → ctx.resizeDir ≠ resNone → m.left = true →
      ∀ w ∈ d.windows, ∃ w' ∈ (winUpdate v ok d m).windows, w'.id = w.id ∧ Resized ctx.resizeDir w w' := by
  have hok : d.Ok v := hrun.invariant (P := Desk.Ok v) (fun _ _ _ hstep => Desk.Ok.dragStep hv hstep) initDesktop_ok
  refine ⟨fun w hw => ?_, fun m ok ctx hctx hdir hleft w hw => winUpdate_resized hok hctx hdir hleft hw⟩
  have hkept := hok.kept w hw
  exact ⟨hkept.place.y.1, hkept.place.x.1, hkept.pixels⟩

/-- A window is dragged far below the screen, and stops above the taskbar. -/
theorem dragging_keeps_windows_below : ∃ d, Run (ofNext (dragStep smallScreen)) (initDesktop smallScreen 1) (dragTo 9000) d ∧
    d.windows.map Window.rect = [⟨10, 432, 102, 122⟩] ∧ ∀ w ∈ d.windows, 0 ≤ w.y := by
  have hexec : (exec (dragStep smallScreen) (initDesktop smallScreen 1) (dragTo 9000)).map (fun d => d.windows.map Window.rect) =
      some [⟨10, 432, 102, 122⟩] := by decide +kernel
  obtain ⟨d, hd, hrects⟩ := Option.map_eq_some_iff.mp hexec
  exact ⟨d, exec_run hd, hrects, fun w hw => ((dragging_keeps_windows smallScreen_usual (exec_run hd)).1 w hw).1⟩

end NyanOS.Screen
