import NyanOS.Lib.Run
import NyanOS.Windows.Effects
import NyanOS.Windows.List

/-!
# Pointers to windows

A fork copies the pointer to the window of the parent, and the end of the owner frees the window.
-/
namespace NyanOS.Windows

open Lib Sched Option

variable {k k' : Kernel} {p q : Nat} {l : List Nat} {op : Op}

/-- A click on the close button is `sched_kill` of the owner. -/
inductive WinAct
  | sched (op : Op)
  | create (p : Nat) (pixels rect borderless : Bool)
  | exec
  | focus (p : Nat)

/-- A new task has no window or, after `task_factory_fork`, that of its parent. -/
def copiesWin (k : Kernel) : Op → Bool
  | .register _ x => x.win == 0 || x.win == (k.tasks.task k.tasks.curr).win
  | _ => true

/-- `sys_create_win` refuses a task that has a window. Of `sys_exec` only what it does to the window
is modelled, and `win_focus` is called for windows of the list. -/
def winTo (k : Kernel) : WinAct → Option Kernel
  | .sched op => if copiesWin k op then stepTo k op else none
  | .create p pixels rect borderless =>
    if (k.tasks.task k.tasks.curr).win = 0 ∧ k.windows.live p = false then
      some (winCreate k p pixels rect borderless)
    else none
  | .exec => some (schedCleanGui k k.tasks.curr)
  | .focus p =>
    if k.windows.live p = true then some { k with windows := winFocus k.windows p } else none

/-- If the task owns its window, no other task has a pointer to it. -/
def Alone (k : Kernel) (p : Nat) : Prop :=
  Owns k p → ∀ q ∈ k.tasks.ring, q ≠ p → (k.tasks.task q).win ≠ (k.tasks.task p).win

/-- A task ends or calls `sys_exec` only when nobody else has a pointer to its window, and
`rect_alloc` succeeds. -/
def Unshared (k : Kernel) : WinAct → Prop
  | .sched op => ∀ p ∈ k.tasks.ring, op.ends k p → Alone k p
  | .create _ _ rect _ => rect = true
  | .exec => Alone k k.tasks.curr
  | .focus _ => True

/-- Every pointer of a task to a window is null or leads to a window of the list. -/
structure Pointed (k : Kernel) : Prop where
  members : ∃ l, Members k.tasks l
  list : ∃ l, WindowList k.windows l
  win : ∀ p, k.tasks.live p = true →
    (k.tasks.task p).win = 0 ∨ k.windows.live (k.tasks.task p).win = true
  ended : ∀ p, k.tasks.live p = true → (k.tasks.task p).state.gone = true → (k.tasks.task p).win = 0

theorem ends_unique (hm : Members k.tasks l) (hp : k.tasks.live p = true) (hq : k.tasks.live q = true)
    (hE : op.ends k p) (hE' : op.ends k q) : q = p := by
  cases op with
  | exit _ => exact Eq.trans hE' (Eq.symm hE)
  | signal => exact hE'.1.trans hE.1.symm
  | kill _ => exact hm.pids q ((hm.members q).mp hq) p ((hm.members p).mp hp) (Eq.trans hE' (Eq.symm hE))
  | _ => exact hE.elim

theorem Pointed.same (h : Pointed k) (hw : k'.windows = k.windows) (hm : ∃ l, Members k'.tasks l)
    (hwin : ∀ q, k'.tasks.live q = true → (k'.tasks.task q).win = 0 ∨ k.windows.live (k'.tasks.task q).win = true)
    (hended : ∀ q, k'.tasks.live q = true → (k'.tasks.task q).state.gone = true →
      (k'.tasks.task q).win = 0) : Pointed k' := by
  obtain ⟨l, hl⟩ := h.list
  exact ⟨hm, ⟨l, hw ▸ hl⟩, hw ▸ hwin, hended⟩

theorem Pointed.closes (h : Pointed k) (hp : k.tasks.live p = true) (hw : ClosesWindow k k' p)
    (halone : Alone k p) (hm : ∃ l, Members k'.tasks l)
    (hwin : ∀ q, k'.tasks.live q = true → (k'.tasks.task q).win = 0 ∨
      q ≠ p ∧ k.tasks.live q = true ∧ (k'.tasks.task q).win = (k.tasks.task q).win)
    (hended : ∀ q, k'.tasks.live q = true → (k'.tasks.task q).state.gone = true →
      (k'.tasks.task q).win = 0) : Pointed k' := by
  rcases hw with he | ⟨howns, he⟩
  · refine h.same he hm (fun q hq => ?_) hended
    rcases hwin q hq with h0 | ⟨_, hlive, hsame⟩
    · exact .inl h0
    · rw [hsame]
      exact h.win q hlive
  · obtain ⟨l, hl⟩ := h.list
    obtain ⟨_, hmt⟩ := h.members
    have hmem : (k.tasks.task p).win ∈ l := (hl.members _).mp ((h.win p hp).resolve_left howns.1)
    obtain ⟨l', hl', hl'mem⟩ := hl.close hmem
    refine ⟨hm, ⟨l', he ▸ hl'⟩, fun q hq => ?_, hended⟩
    rcases hwin q hq with h0 | ⟨hne, hlive, hsame⟩
    · exact .inl h0
    rw [hsame, he]
    refine (h.win q hlive).imp_right fun hwl => (hl'.members _).mpr ((hl'mem _).mpr ⟨?_, ?_⟩)
    · exact (hl.members _).mp hwl
    · exact halone howns q (hmt.ring_eq ▸ (hmt.members q).mp hlive) hne

theorem registered_win {x : Task} (hm : Members k.tasks l) (hs : stepTo k (.register p x) = some k') :
    (k'.tasks.task p).win = x.win ∧ (k'.tasks.task p).state.gone = false := by
  simp only [stepTo, ite_none_right_eq_some, some.injEq] at hs
  obtain ⟨⟨_, hlive, _⟩, rfl⟩ := hs
  have hph : p ≠ k.tasks.head := by
    rintro rfl
    simp [(hm.members _).mpr List.mem_cons_self] at hlive
  rw [Kernel.onTasks, (register_task hm.head_ne hph).1]
  exact ⟨rfl, rfl⟩

theorem Pointed.step (h : Pointed k) (hcopy : copiesWin k op = true)
    (hg : ∀ p ∈ k.tasks.ring, op.ends k p → Alone k p) (hs : stepTo k op = some k') : Pointed k' := by
  obtain ⟨l, hm⟩ := h.members
  obtain ⟨hm', hmoves⟩ := hm.step hs
  have hwindow := step_windows hm hs
  have hold := fun q => (hm.live_step (c := q) hs).1
  -- a task that ends in this step gives up its window
  have hended : ∀ q, k'.tasks.live q = true → (k'.tasks.task q).state.gone = true → (k'.tasks.task q).win = 0 := by
    intro q hq hgone'
    rcases hold q hq with hlive | ⟨x, rfl⟩
    · by_cases hgone : (k.tasks.task q).state.gone = true
      · have h0 := h.ended q hlive hgone
        rcases (hmoves.writes q hlive).win with he | he
        · exact he.trans h0
        · exact he
      · have hE : op.ends k q := by
          by_contra hE
          have halive := (hmoves.alive q hE hlive (by simpa using hgone)).2
          rw [hgone'] at halive
          cases halive
        cases hwindow with
        | idle he => exact absurd (he ▸ hgone') hgone
        | keeps _ hnone => exact absurd hE (hnone q)
        | gone p hp hEp hgives => exact ends_unique hm hp hlive hEp hE ▸ hgives.win
        | removes _ _ _ _ hnone => exact absurd hE (hnone q)
    · rw [(registered_win hm hs).2] at hgone'
      cases hgone'
  have hsame : k'.windows = k.windows → Pointed k' := by
    intro hw
    refine h.same hw hm' (fun q hq => ?_) hended
    rcases hold q hq with hlive | ⟨x, rfl⟩
    · rcases (hmoves.writes q hlive).win with he | he
      · rw [he]
        exact h.win q hlive
      · exact .inl he
    · rw [(registered_win hm hs).1]
      simp only [copiesWin, Bool.or_eq_true, beq_iff_eq] at hcopy
      rcases hcopy with h0 | hcurr
      · exact .inl h0
      · rw [hcurr]
        exact h.win _ ((hm.members _).mpr hm.curr)
  cases hwindow with
  | idle he => exact he ▸ h
  | keeps hw _ => exact hsame hw
  | gone p hp hE hgives =>
    refine h.closes hp hgives.windows (hg p (hm.ring_eq ▸ (hm.members p).mp hp) hE) hm' ?_ hended
    intro q hq
    rcases hold q hq with hlive | ⟨x, rfl⟩
    · by_cases hqp : q = p
      · exact .inl (hqp ▸ hgives.win)
      · exact (hmoves.writes q hlive).win.symm.imp_right fun he => ⟨hqp, hlive, he⟩
    · exact hE.elim
  | removes p hp hz hw _ =>
    rcases hw with hw | ⟨howns, _⟩
    · exact hsame hw
    have hgone : (k.tasks.task p).state.gone = true := by
      rw [hz]
      rfl
    exact absurd (h.ended p hp hgone) howns.1

theorem Pointed.exec (h : Pointed k) (halone : Alone k k.tasks.curr) : Pointed (schedCleanGui k k.tasks.curr) := by
  obtain ⟨l, hm⟩ := h.members
  have hgives : GivesUp k (schedCleanGui k k.tasks.curr) k.tasks.curr := cleanGui_givesUp
  have hq := (cleanGui_closes (hm.live_of_mem hm.curr)).quiet
  refine h.closes ((hm.members _).mpr hm.curr) hgives.windows halone ⟨l, hm.calm hq.toCalm⟩ ?_ ?_
  · intro q hlive
    rw [hq.live] at hlive
    by_cases hqp : q = k.tasks.curr
    · exact .inl (hqp ▸ hgives.win)
    · exact (hq.writes 0 q).win.symm.imp_right fun he => ⟨hqp, hlive, he⟩
  · intro q hlive hgone
    have h0 := h.ended q (hq.live ▸ hlive) (hq.gone_eq q ▸ hgone)
    rcases (hq.writes 0 q).win with he | he
    · exact he.trans h0
    · exact he

theorem Pointed.create {pixels borderless : Bool} (h : Pointed k) (hfree : k.windows.live p = false) :
    Pointed (winCreate k p pixels true borderless) := by
  obtain ⟨l, hm⟩ := h.members
  obtain ⟨lw, hl⟩ := h.list
  unfold winCreate
  split
  · exact h
  next hp =>
  obtain ⟨hp0, _⟩ := not_or.mp hp
  have hlink : WindowList (winLink k.windows p borderless) (lw ++ [p]) := hl.link hp0 hfree
  -- windows that exist still do, and so does the new one
  have hlive : ∀ q, k.windows.live q = true ∨ q = p → (winLink k.windows p borderless).live q = true := by
    intro q hq
    rw [winLink_live, Function.update_apply]
    rcases hq with hq | rfl
    · simp [hq]
    · simp
  dsimp only
  rw [if_pos rfl]
  split
  · have hcalm : Calm k.tasks (k.tasks.set k.tasks.curr fun t => { t with win := p }) :=
      .set rfl rfl (.inl rfl) (.inl rfl) (hm.live_of_mem hm.curr)
    refine ⟨⟨l, hm.calm hcalm⟩, ⟨_, hlink.setOwner⟩, fun q hq => ?_, fun q hq hgone => ?_⟩
    · by_cases hqc : q = k.tasks.curr
      · subst hqc
        right
        simp only [Kernel.setTask, Tasks.set_task_self]
        exact hlive p (.inr rfl)
      · simp only [Kernel.setTask, Tasks.set_task_of_ne _ _ hqc]
        exact (h.win q hq).imp_right fun hw => hlive _ (.inl hw)
    · have hqc : q ≠ k.tasks.curr := by
        rintro rfl
        have hg := (hcalm.gone_eq k.tasks.curr).trans hm.currState
        cases hgone.symm.trans hg
      simp only [Kernel.setTask, Tasks.set_task_of_ne _ _ hqc] at hgone ⊢
      exact h.ended q hq hgone
  · refine ⟨⟨l, hm⟩, ⟨_, hlink⟩, fun q hq => ?_, h.ended⟩
    exact (h.win q hq).imp_right fun hw => hlive _ (.inl hw)

theorem Pointed.focus (h : Pointed k) (hp : k.windows.live p = true) :
    Pointed { k with windows := winFocus k.windows p } := by
  obtain ⟨l, hl⟩ := h.list
  obtain ⟨l', hl', _⟩ := hl.focus ((hl.members p).mp hp)
  refine ⟨h.members, ⟨l', hl'⟩, fun q hq => ?_, h.ended⟩
  rw [winFocus_live]
  exact h.win q hq

theorem Pointed.act {a : WinAct} (h : Pointed k) (hg : Unshared k a) (hs : winTo k a = some k') : Pointed k' := by
  cases a with
  | sched op =>
    simp only [winTo, ite_none_right_eq_some] at hs
    exact h.step hs.1 hg hs.2
  | create p pixels rect borderless =>
    simp only [winTo, ite_none_right_eq_some, some.injEq] at hs
    obtain ⟨⟨_, hfree⟩, rfl⟩ := hs
    rw [show rect = true from hg]
    exact h.create hfree
  | exec =>
    cases hs
    exact h.exec hg
  | focus p =>
    simp only [winTo, ite_none_right_eq_some, some.injEq] at hs
    obtain ⟨hp, rfl⟩ := hs
    exact h.focus hp

/-- As long as a task ends or calls `sys_exec` only when nobody else has a pointer to its window and
`rect_alloc` succeeds, the pointer of every task is null or leads to a window that exists and is in
the list. -/
theorem windows_pointed {as : List WinAct} (hboot : Boot k.tasks)
    (hwin : (k.tasks.task k.tasks.head).win = 0) (hlist : ∃ l, WindowList k.windows l)
    (hrun : Run (guarded (ofNext winTo) Unshared) k as k') :
    ∃ l, Seg (· ≠ 0) (next k'.windows) k'.windows.list l 0 ∧ ∀ p, k'.tasks.live p = true → (k'.tasks.task p).win = 0 ∨
        (k'.tasks.task p).win ∈ l ∧ k'.windows.live (k'.tasks.task p).win = true := by
  have hpointed : Pointed k' := by
    refine hrun.invariant (P := Pointed) ?_ ⟨⟨[], hboot.members⟩, hlist, ?_, ?_⟩
    · rintro k a k' ⟨hg, hs⟩ h
      exact h.act hg hs
    · intro p hp
      rw [(hboot.live p).mp hp]
      exact .inl hwin
    · intro p hp _
      rw [(hboot.live p).mp hp]
      exact hwin
  obtain ⟨l, hl⟩ := hpointed.list
  refine ⟨l, hl.dlist.seg, fun p hp => ?_⟩
  exact (hpointed.win p hp).imp_right fun hw => ⟨(hl.members _).mp hw, hw⟩

instance (k : Kernel) (p : Nat) : Decidable (Alone k p) :=
  inferInstanceAs (Decidable (_ ∧ _ → ∀ q ∈ _, _ ≠ _ → _ ≠ _))

instance (k : Kernel) (a : WinAct) : Decidable (Unshared k a) :=
  match a with
  | .sched _ => inferInstanceAs (Decidable (∀ p ∈ _, _ → _))
  | .create _ _ _ _ => inferInstanceAs (Decidable (_ = true))
  | .exec => inferInstanceAs (Decidable (Alone _ _))
  | .focus _ => .isTrue trivial

theorem bootKernel_windows : WindowList bootKernel.windows [] := ⟨⟨rfl, rfl⟩, fun _ => by simp [bootKernel]⟩

/-- A task with a window forks. -/
def forkedWindow : List WinAct :=
  [.sched (.register 2 (blankTask 1 1)), .sched .schedule, .create 9 true true false,
    .sched (.register 3 { blankTask 2 2 with win := 9 })]

/-- The child calls `sys_exec` before its parent exits. -/
def execRun : List WinAct :=
  forkedWindow ++ [.sched .schedule, .sched .schedule, .exec, .sched .schedule, .sched (.exit 0)]

theorem windows_pointed_execRun : ∃ k', Run (guarded (ofNext winTo) Unshared) bootKernel execRun k' ∧
    k'.windows.live 9 = false ∧
    ∀ p, k'.tasks.live p = true → (k'.tasks.task p).win = 0 ∨ k'.windows.live (k'.tasks.task p).win = true := by
  have hend : (exec (checked winTo Unshared) bootKernel execRun).map (fun k => k.windows.live 9) =
      some false := by decide +kernel
  obtain ⟨k', hk, hlive⟩ := map_eq_some_iff.mp hend
  have hrun := exec_checked hk
  obtain ⟨_, _, hwin⟩ := windows_pointed bootKernel_boot rfl ⟨[], bootKernel_windows⟩ hrun
  exact ⟨k', hrun, hlive, fun p hp => (hwin p hp).imp_right And.right⟩

/-- If the parent exits first, the child keeps a pointer to the freed window. A failure of
`rect_alloc` leaves the creator with such a pointer. -/
theorem window_dangles : (exec winTo bootKernel (forkedWindow ++ [.sched (.exit 0)])).map (fun k =>
      ((k.tasks.live 3, (k.tasks.task 3).state, (k.tasks.task 3).win), k.windows.list, k.windows.live 9)) =
        some ((true, .ready, 9), 0, false) ∧
    (exec winTo bootKernel [.sched (.register 2 (blankTask 1 1)), .sched .schedule,
        .create 9 true false false]).map (fun k => ((k.tasks.task 2).win, k.windows.live 9)) = some (9, false) := by
  decide +kernel

end NyanOS.Windows
