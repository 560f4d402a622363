import NyanOS.Sched.Runs
import NyanOS.UserPointer

/-!
# Waiting for a task (`sys_waitpid` in `arch/syscall.c`)

The call keeps the pointer to the task it waits for while it is blocked. It does not ask whether
the caller is the parent, and `sched_reap_zombies` does not ask whether anyone waits.
-/
namespace NyanOS.Sched

open Lib Function Option

/-- What a task holds inside `sys_waitpid`. -/
structure Wait where
  child : Nat
  pid : Int
  stat : BitVec 64

structure WaitState where
  kernel : Kernel
  waits : Nat → Option Wait

namespace WaitState

def curr (s : WaitState) : Nat := s.kernel.tasks.curr

def setWait (s : WaitState) (w : Option Wait) : WaitState :=
  { s with waits := update s.waits s.curr w }

/-- A task that is inside `sys_waitpid` and can still run. -/
structure Inside (s : WaitState) (p : Nat) (w : Wait) : Prop where
  waits : s.waits p = some w
  live : s.kernel.tasks.live p = true
  alive : (s.kernel.tasks.task p).state.gone = false

end WaitState

variable {s t : WaitState} {w : Wait} {p c : Nat}

/-- A turn of the loop in `sys_waitpid`, up to the next `sched_block` or the return. The exit code
that it stores at `stat` is left out. -/
def waitTurn (s : WaitState) (w : Wait) : WaitState × Option Int :=
  if (s.kernel.tasks.task w.child).state = .zombie then
    if w.stat ≠ 0#64 ∧ verifyUsrAccess w.stat 4#64 = false then (s.setWait none, some (-1))
    else
      ({ s.setWait none with
          kernel := schedDestroyTask (s.kernel.onTasks (schedUnlinkTask · w.child)) w.child },
        some w.pid)
  else ({ s.setWait (some w) with kernel := s.kernel.onTasks schedBlock }, none)

/-- `sys_waitpid` from its start, or from where it was blocked. -/
def sysWaitpid (s : WaitState) (pid : Int) (stat : BitVec 64) : WaitState × Option Int :=
  match s.waits s.curr with
  | some w => waitTurn s w
  | none =>
    let child := schedFindTask s.kernel.tasks pid
    if child = 0 then (s, some (-1)) else waitTurn s ⟨child, pid, stat⟩

inductive WaitAct
  | sched (op : Op)
  | wait (pid : Int) (stat : BitVec 64)

/-- A new task is in no call. -/
def waitsAfter (s : WaitState) : Op → Nat → Option Wait
  | .register p _ => update s.waits p none
  | _ => s.waits

/-- Tasks are only waited for by `sys_waitpid`, which pid 0 does not call. -/
def waitTo (s : WaitState) : WaitAct → Option WaitState
  | .sched (.waited _) => none
  | .sched op => (stepTo s.kernel op).map fun k => ⟨k, waitsAfter s op⟩
  | .wait pid stat =>
    if (s.kernel.tasks.task s.curr).pid ≠ 0 then some (sysWaitpid s pid stat).1 else none

/-- A task starts to wait only for its own children. -/
def WaitsForChild (s : WaitState) : WaitAct → Prop
  | .wait pid _ => (s.waits s.curr).isNone → ∀ c ∈ s.kernel.tasks.ring,
      (s.kernel.tasks.task c).pid = pid → (s.kernel.tasks.task c).parent = s.curr
  | .sched _ => True

instance (s : WaitState) (a : WaitAct) : Decidable (WaitsForChild s a) :=
  match a with
  | .wait _ _ => inferInstanceAs (Decidable (_ → ∀ c ∈ _, _ → _))
  | .sched _ => .isTrue trivial

/-- Whoever is inside `sys_waitpid` is the parent of the task it waits for. -/
structure Family (s : WaitState) : Prop where
  members : ∃ l, Members s.kernel.tasks l
  wild : s.kernel.tasks.wild = false
  child : ∀ p w, s.Inside p w → (s.kernel.tasks.task p).pid ≠ 0 ∧
    s.kernel.tasks.live w.child = true ∧ (s.kernel.tasks.task w.child).parent = p

/-- An operation of the scheduler keeps the families, unless it frees a task that is waited for. -/
theorem Family.step {op : Op} {k : Kernel} (h : Family s) (hs : stepTo s.kernel op = some k)
    (hk : t.kernel = k) (hold : ∀ p w, t.waits p = some w → s.waits p = some w)
    (hnew : ∀ p x, op = .register p x → t.waits p = none)
    (hfree : ∀ p w, t.waits p = some w → s.Inside p w → op ≠ .waited w.child) : Family t := by
  subst hk
  obtain ⟨l, hm⟩ := h.members
  obtain ⟨hm', hmoves⟩ := hm.step hs
  refine ⟨hm', hmoves.wild.trans h.wild, ?_⟩
  rintro p w ⟨hw, hlive', halive'⟩
  have hlive : s.kernel.tasks.live p = true := by
    refine ((hm.live_step hs).1 hlive').resolve_right ?_
    rintro ⟨x, hx⟩
    rw [hnew p x hx] at hw
    cases hw
  have halive : (s.kernel.tasks.task p).state.gone = false := by
    by_contra hg
    have hgone := Bool.eq_true_of_not_eq_false hg
    have hne : p ≠ s.kernel.tasks.curr := by
      rintro rfl
      exact hg hm.currState
    have hgone' := (hmoves.writes p hlive).gone hne hgone
    rw [halive'] at hgone'
    cases hgone'
  have hinside : s.Inside p w := ⟨hold p w hw, hlive, halive⟩
  obtain ⟨hpid, hc, hparent⟩ := h.child p w hinside
  refine ⟨?_, ?_, ?_⟩
  · rw [(hmoves.writes p hlive).pid_eq]
    exact hpid
  · rcases (hm.live_step hs).2 hc with hl | hwaited | ⟨_, hr⟩
    · exact hl
    · exact absurd hwaited (hfree p w hw hinside)
    -- the parent is neither the head nor gone, so the child is not reaped
    have hp0 : p ≠ 0 := by
      rintro rfl
      exact hm.nonzero ((hm.members 0).mp hlive)
    simp [reapable, hparent, hpid, hp0, halive] at hr
  · rcases hmoves.parent w.child hc with he | hz
    · exact he.trans hparent
    rw [hparent] at hz
    rw [hz] at halive'
    cases halive'

theorem setWait_waits {v : Option Wait} (hv : v = none ∨ v = s.waits s.curr) (p : Nat) (w : Wait)
    (hw : (s.setWait v).waits p = some w) : s.waits p = some w ∧ (v = none → p ≠ s.curr) := by
  by_cases hp : p = s.curr
  · subst hp
    simp only [WaitState.setWait, update_self] at hw
    rcases hv with rfl | rfl
    · cases hw
    · exact ⟨hw, fun he => absurd hw (by simp [he])⟩
  · simp only [WaitState.setWait, update_of_ne hp] at hw
    exact ⟨hw, fun _ => hp⟩

theorem Family.inside_curr (h : Family s) (hw : s.waits s.curr = some w) : s.Inside s.curr w := by
  obtain ⟨l, hm⟩ := h.members
  exact ⟨hw, (hm.members _).mpr hm.curr, hm.currState⟩

theorem Family.waitTurn (h : Family s) (hw : s.waits s.curr = some w) : Family (waitTurn s w).1 := by
  have hcurr := h.inside_curr hw
  obtain ⟨hpid, hlive, hparent⟩ := h.child _ w hcurr
  obtain ⟨l, hm⟩ := h.members
  unfold Sched.waitTurn
  split
  · next hz =>
    split
    · refine ⟨h.members, h.wild, ?_⟩
      rintro p w' ⟨hw', hl, ha⟩
      exact h.child p w' ⟨(setWait_waits (.inl rfl) p w' hw').1, hl, ha⟩
    have hring : w.child ∈ s.kernel.tasks.ring := hm.ring_eq ▸ (hm.members _).mp hlive
    have hs : stepTo s.kernel (.waited w.child) = some _ := if_pos ⟨hring, hz⟩
    refine h.step hs rfl (fun p w' hw' => (setWait_waits (.inl rfl) p w' hw').1) (fun _ _ hop => nomatch hop) ?_
    intro p w' hw' hinside hop
    have hchild : w.child = w'.child := Op.waited.inj hop
    have hp : p = s.curr := by
      rw [← (h.child p w' hinside).2.2, ← hchild, hparent]
    exact (setWait_waits (.inl rfl) p w' hw').2 rfl hp
  · have hs : stepTo s.kernel .block = some _ := if_pos hpid
    refine h.step hs rfl (fun p w' hw' => (setWait_waits (.inr hw.symm) p w' hw').1) (fun _ _ hop => nomatch hop) ?_
    exact fun _ _ _ _ hop => nomatch hop

theorem Family.start (h : Family s) (hpid : (s.kernel.tasks.task s.curr).pid ≠ 0)
    (hlive : s.kernel.tasks.live w.child = true)
    (hparent : (s.kernel.tasks.task w.child).parent = s.curr) : Family (s.setWait (some w)) := by
  refine ⟨h.members, h.wild, ?_⟩
  rintro p w' ⟨hw', hl, ha⟩
  by_cases hp : p = s.curr
  · subst hp
    simp only [WaitState.setWait, update_self, some.injEq] at hw'
    exact hw' ▸ ⟨hpid, hlive, hparent⟩
  · simp only [WaitState.setWait, update_of_ne hp] at hw'
    exact h.child p w' ⟨hw', hl, ha⟩

theorem waitTurn_setWait : waitTurn (s.setWait (some w)) w = waitTurn s w := by
  simp only [waitTurn, WaitState.setWait, WaitState.curr, update_idem]

theorem Family.act {a : WaitAct} (h : Family s) (hg : WaitsForChild s a) (hs : waitTo s a = some t) : Family t := by
  cases a with
  | sched op =>
    have hstep : ∃ k, stepTo s.kernel op = some k ∧ ⟨k, waitsAfter s op⟩ = t ∧ ∀ c, op ≠ .waited c := by
      cases op <;> simp_all [waitTo]
    obtain ⟨k, hk, rfl, hne⟩ := hstep
    refine h.step hk rfl ?_ ?_ fun _ w _ _ => hne w.child
    · intro p w hw
      cases op with
      | register q x =>
        by_cases hpq : p = q
        · subst hpq
          simp [waitsAfter] at hw
        · simpa [waitsAfter, update_of_ne hpq] using hw
      | _ => exact hw
    · rintro p x rfl
      simp [waitsAfter]
  | wait pid stat =>
    simp only [waitTo, ite_none_right_eq_some, some.injEq] at hs
    obtain ⟨hpid, rfl⟩ := hs
    unfold sysWaitpid
    split
    · next w hw => exact h.waitTurn hw
    next hw =>
    dsimp only
    split
    · exact h
    next h0 =>
    obtain ⟨l, hm⟩ := h.members
    obtain ⟨hmem, hfound⟩ := hm.find_mem h0
    have hlive := (hm.members _).mpr hmem
    have hparent := hg (by simp [hw]) _ (find_mem_ring h0) hfound
    have hstart := h.start (w := ⟨schedFindTask s.kernel.tasks pid, pid, stat⟩) hpid hlive hparent
    rw [← waitTurn_setWait]
    exact hstart.waitTurn (by simp [WaitState.setWait, WaitState.curr])

/-- If tasks wait only for their own children, a task that is inside `sys_waitpid` holds a pointer
to a task that is not destroyed, and no task is destroyed twice. -/
theorem waitpid_safe {as : List WaitAct} (hboot : Boot s.kernel.tasks)
    (hwild : s.kernel.tasks.wild = false) (hnone : ∀ p, s.waits p = none)
    (hrun : Run (guarded (ofNext waitTo) WaitsForChild) s as t) :
    t.kernel.tasks.wild = false ∧ ∀ p w, t.Inside p w → t.kernel.tasks.live w.child = true := by
  have hfamily : Family t := by
    refine hrun.invariant (P := Family) ?_ ⟨⟨[], hboot.members⟩, hwild, ?_⟩
    · rintro s a t ⟨hg, hs⟩ h
      exact h.act hg hs
    · rintro p w ⟨hw, _⟩
      rw [hnone] at hw
      cases hw
  exact ⟨hfamily.wild, fun p w hin => (hfamily.child p w hin).2.1⟩

def bootWaits : WaitState := ⟨bootKernel, fun _ => none⟩

/-- Two tasks, and the second of them has a child. -/
def familyOfThree : List WaitAct :=
  [.sched (.register 2 (blankTask 1 1)), .sched (.register 3 (blankTask 2 1)), .sched .schedule,
    .sched (.register 4 (blankTask 3 3))]

/-- The second task waits for its child, which exits. -/
def waitedRun : List WaitAct :=
  familyOfThree ++ [.wait 3 0#64, .sched .schedule, .sched .schedule, .sched (.exit 7),
    .sched .schedule, .sched .schedule, .wait 3 0#64]

theorem waitpid_safe_waitedRun : ∃ t, Run (guarded (ofNext waitTo) WaitsForChild) bootWaits waitedRun t ∧
    t.kernel.tasks.live 4 = false ∧ t.kernel.tasks.wild = false := by
  have hend : (exec (checked waitTo WaitsForChild) bootWaits waitedRun).map
      (fun t => t.kernel.tasks.live 4) = some false := by decide +kernel
  obtain ⟨t, ht, hlive⟩ := map_eq_some_iff.mp hend
  have hrun := exec_checked ht
  exact ⟨t, hrun, hlive, (waitpid_safe bootKernel_boot rfl (fun _ => rfl) hrun).1⟩

/-- The first task waits for the same child. It is still inside when the parent destroys the child,
and destroys it again when it is woken. A task that waits for a child of the kernel can lose it to
`sched_reap_zombies`. -/
theorem waitpid_destroyed : (exec waitTo bootWaits (familyOfThree ++ [.wait 3 0#64, .wait 3 0#64, .sched .schedule,
        .sched (.exit 7), .sched .schedule, .wait 3 0#64])).map
      (fun t => ((t.waits 2).map Wait.child, (t.kernel.tasks.task 2).state, t.kernel.tasks.live 4)) =
        some (some 4, .waiting, false) ∧
    (exec waitTo bootWaits (familyOfThree ++ [.wait 3 0#64, .wait 3 0#64, .sched .schedule,
        .sched (.exit 7), .sched .schedule, .wait 3 0#64, .sched (.wake 1), .sched .schedule, .wait 3 0#64])).map
      (fun t => t.kernel.tasks.wild) = some true ∧
    (exec waitTo bootWaits [.sched (.register 2 (blankTask 1 1)), .sched (.register 3 (blankTask 2 1)),
        .sched .schedule, .wait 1 0#64, .sched (.exit 7), .sched .reap]).map
      (fun t => ((t.waits 3).map Wait.child, (t.kernel.tasks.task 3).state, t.kernel.tasks.live 2)) =
        some (some 2, .waiting, false) := by
  decide +kernel

end NyanOS.Sched
