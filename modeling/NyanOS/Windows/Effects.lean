import NyanOS.Sched.Runs

/-!
# What the scheduler does to windows

A window is closed only where its owner gives it up: when it ends, and in `sys_exec`.
-/
namespace NyanOS.Windows

open Sched Option

variable {k k' k₁ : Kernel} {p h : Nat} {l l₁ l₂ : List Nat} {code : Int} {op : Op}

/-- The task has a window, and the window has the task as its owner. -/
def Owns (k : Kernel) (p : Nat) : Prop :=
  (k.tasks.task p).win ≠ 0 ∧ (k.windows.window (k.tasks.task p).win).ownerPid = (k.tasks.task p).pid

/-- The window of `p` is closed if `p` owns it. -/
def ClosesWindow (k k' : Kernel) (p : Nat) : Prop :=
  k'.windows = k.windows ∨ Owns k p ∧ k'.windows = winClose k.windows (k.tasks.task p).win

/-- The pointer of `p` is cleared too. -/
structure GivesUp (k k' : Kernel) (p : Nat) : Prop where
  windows : ClosesWindow k k' p
  win : (k'.tasks.task p).win = 0

theorem cleanGui_givesUp : GivesUp k (schedCleanGui k p) p := by
  unfold schedCleanGui
  dsimp only
  split
  · next h0 => exact ⟨.inl rfl, h0⟩
  next h0 =>
  split
  · next howner => exact ⟨.inr ⟨⟨h0, howner⟩, rfl⟩, by simp [Kernel.setTask]⟩
  · exact ⟨.inl rfl, by simp [Kernel.setTask]⟩

theorem vfsClose_windows : (vfsClose k h).windows = k.windows := by
  unfold vfsClose
  dsimp only
  split
  · rfl
  split
  · rfl
  · exact (closeNode_frame (k := k.setHandle h _)).2

theorem cleanFds_windows : (schedCleanFds k p).windows = k.windows :=
  cleanFds_ind (P := fun x => x.windows = k.windows) rfl fun _ _ hx => vfsClose_windows.trans hx

theorem ClosesWindow.before (hc : ClosesWindow k₁ k' p) (hw : k₁.windows = k.windows)
    (hpid : (k₁.tasks.task p).pid = (k.tasks.task p).pid)
    (hwin : (k₁.tasks.task p).win = (k.tasks.task p).win ∨ (k₁.tasks.task p).win = 0) : ClosesWindow k k' p := by
  rcases hc with he | ⟨⟨h0, howner⟩, he⟩
  · exact .inl (he.trans hw)
  have hsame := hwin.resolve_right h0
  rw [hsame] at h0 howner he
  rw [hw] at howner he
  exact .inr ⟨⟨h0, howner.trans hpid⟩, he⟩

theorem cleanGui_closes (hp : k.tasks.Sound → k.tasks.live p = true) :
    Closes (fun _ => True) (fun _ => True) k (schedCleanGui k p) := .cleanGui (.inl trivial) hp

theorem schedExit_cleanGui (hl : Ring k.tasks l) (hpid : (k.tasks.task k.tasks.curr).pid ≠ 0) :
    schedExit (schedCleanGui k k.tasks.curr) code = schedExit k code := by
  have hq := (cleanGui_closes (hl.live_of_mem hl.curr)).quiet
  have hidem : schedCleanGui (schedCleanGui k k.tasks.curr) k.tasks.curr = schedCleanGui k k.tasks.curr := by
    rw [schedCleanGui]
    simp [(cleanGui_givesUp (k := k) (p := k.tasks.curr)).win]
  unfold schedExit
  dsimp only
  rw [hq.curr, hidem, hq.pid, if_neg hpid, if_neg hpid]

theorem schedExit_windows (hpid : (k.tasks.task k.tasks.curr).pid ≠ 0) :
    (schedExit k code).windows = (schedCleanGui k k.tasks.curr).windows := by
  unfold schedExit
  dsimp only
  rw [if_neg hpid]
  dsimp only
  rw [cleanFds_windows]

theorem exit_givesUp (hl : Ring k.tasks l) (hpid : (k.tasks.task k.tasks.curr).pid ≠ 0) :
    GivesUp k (schedExit k code) k.tasks.curr := by
  have hgui : GivesUp k (schedCleanGui k k.tasks.curr) k.tasks.curr := cleanGui_givesUp
  have hq := (cleanGui_closes (hl.live_of_mem hl.curr)).quiet
  have hkeeps : Keeps _ _ _ (schedExit (schedCleanGui k k.tasks.curr) code).tasks l := .exit (hl.quiet hq.toCalm)
  have hwrites := hkeeps.writes k.tasks.curr
  rw [schedExit_cleanGui hl hpid] at hwrites
  refine ⟨?_, ?_⟩
  · unfold ClosesWindow
    rw [schedExit_windows hpid]
    exact hgui.windows
  · rcases hwrites.win with he | he
    · exact he.trans hgui.win
    · exact he

theorem kill_givesUp (hl : Ring k.tasks l) (hmem : p ∈ l) (hcurr : p ≠ k.tasks.curr) :
    GivesUp k (schedCleanFds (schedCleanGui { k with
      tasks := becomeZombie (schedReparentChildren k.tasks (isWinOwner k p) p) p code } p) p) p := by
  obtain ⟨hzombie, hz, _⟩ := Keeps.endOther code hl hmem hcurr
  generalize becomeZombie (schedReparentChildren k.tasks (isWinOwner k p) p) p code = s at *
  have hlive := hzombie.ring.live_of_mem (List.mem_cons_of_mem _ hmem)
  refine ⟨?_, Closes.clean_win hlive⟩
  have hclose : ClosesWindow { k with tasks := s } (schedCleanFds (schedCleanGui { k with tasks := s } p) p) p := by
    unfold ClosesWindow
    rw [cleanFds_windows]
    exact (cleanGui_givesUp : GivesUp { k with tasks := s } _ p).windows
  exact hclose.before rfl (hzombie.writes p).pid_eq (hzombie.writes p).win

theorem destroy_windows (hp : p ≠ 0) (hpid : (k.tasks.task p).pid ≠ 0) : ClosesWindow k (schedDestroyTask k p) p := by
  unfold ClosesWindow
  rw [schedDestroyTask, if_neg (by simp [hp, hpid])]
  dsimp only
  rw [cleanFds_windows]
  exact cleanGui_givesUp.windows

/-- The windows after an operation. -/
inductive WindowStep (k : Kernel) (op : Op) (k' : Kernel) : Prop
  | idle (h : k' = k)
  | keeps (hw : k'.windows = k.windows) (hE : ∀ p, ¬ op.ends k p)
  | gone (p : Nat) (hp : k.tasks.live p = true) (hE : op.ends k p) (h : GivesUp k k' p)
  | removes (p : Nat) (hp : k.tasks.live p = true) (hz : (k.tasks.task p).state = .zombie)
      (hw : ClosesWindow k k' p) (hE : ∀ p, ¬ op.ends k p)

theorem exit_window (hm : Members k.tasks l) (hE : op.ends k k.tasks.curr) : WindowStep k op (schedExit k code) := by
  by_cases hpid : (k.tasks.task k.tasks.curr).pid = 0
  · refine .idle ?_
    rw [schedExit, if_pos hpid]
  · exact .gone _ ((hm.members _).mpr hm.curr) hE (exit_givesUp hm.toRing hpid)

theorem removes_window (hm : Members k.tasks l) (hr : Removes k k' l₁ p l₂ l)
    (hE : ∀ p, ¬ op.ends k p) : WindowStep k op k' := by
  obtain ⟨rfl, hz, rfl⟩ := hr
  have hmem : p ∈ k.tasks.head :: (l₁ ++ p :: l₂) := by simp
  have hfield {α : Type} (g : Task → α) (hg : ∀ x n, g { x with next := n } = g x) :
      g ((k.onTasks (·.bypass (l₁.getLastD k.tasks.head) p)).tasks.task p) = g (k.tasks.task p) :=
    Tasks.bypass_field _ _ _ _ g hg
  have hpid := hfield Task.pid fun _ _ => rfl
  have hph : p ≠ k.tasks.head := hm.seg.node_of_mem (by simp)
  have hne : (k.tasks.task p).pid ≠ 0 := fun he =>
    hph (hm.pids p hmem _ (by simp) (he.trans hm.headPid.symm))
  refine .removes p ((hm.members p).mpr hmem) hz ?_ hE
  refine (destroy_windows (fun he => hm.nonzero (he ▸ hmem)) (hpid ▸ hne)).before rfl hpid (.inl ?_)
  exact hfield Task.win fun _ _ => rfl

theorem step_windows (hm : Members k.tasks l) (hs : stepTo k op = some k') : WindowStep k op k' := by
  cases op with
  | register p x =>
    simp only [stepTo, ite_none_right_eq_some, some.injEq] at hs
    obtain ⟨_, rfl⟩ := hs
    exact .keeps rfl fun _ => id
  | block | sleep _ =>
    simp only [stepTo, ite_none_right_eq_some, some.injEq] at hs
    obtain ⟨_, rfl⟩ := hs
    exact .keeps rfl fun _ => id
  | schedule | wake _ | sendSignal _ _ | tick _ =>
    cases hs
    exact .keeps rfl fun _ => id
  | exit code =>
    cases hs
    exact exit_window hm rfl
  | signal =>
    cases hs
    unfold signalCheck
    dsimp only
    split
    · next hsig =>
      let k₁ := k.setTask k.tasks.curr fun t => { t with sigint := false }
      have hfield {α : Type} (g : Task → α) (hg : ∀ x : Task, g { x with sigint := false } = g x) :
          g (k₁.tasks.task k.tasks.curr) = g (k.tasks.task k.tasks.curr) :=
        k.tasks.set_field _ _ _ g hg
      have hpid := hfield Task.pid fun _ => rfl
      have hq : Quiet (fun _ => True) (fun _ => True) k.tasks k₁.tasks :=
        .setTask (.set rfl rfl (.inl rfl) (.inl rfl) (hm.live_of_mem hm.curr)) fun _ => .signal false
      have hgives : GivesUp k₁ (schedExit k₁ 0) k.tasks.curr :=
        exit_givesUp (hm.toRing.quiet hq.toCalm) (hpid.trans_ne hsig.2.1)
      refine .gone _ ((hm.members _).mpr hm.curr) ⟨rfl, hsig.2.2⟩ ⟨?_, hgives.win⟩
      exact hgives.windows.before rfl hpid (.inl (hfield Task.win fun _ => rfl))
    · exact .idle rfl
  | kill pid =>
    cases hs
    rcases Keeps.kill_eq pid hm.toRing with he | ⟨hself, he⟩ | ⟨p, hmem, hcurr, hpid, he⟩
    · exact .idle he
    · rw [he]
      exact exit_window hm hself.symm
    rw [he]
    exact .gone p ((hm.members p).mpr (List.mem_cons_of_mem _ hmem)) hpid (kill_givesUp hm.toRing hmem hcurr)
  | reap =>
    cases hs
    rcases hm.reap with he | ⟨l₁, p, l₂, hrm, _⟩
    · exact .idle he
    · exact removes_window hm hrm fun _ => id
  | waited p =>
    obtain ⟨l₁, l₂, hrm⟩ := hm.waited hs
    exact removes_window hm hrm fun _ => id

end NyanOS.Windows
