import NyanOS.Files.Refs

/-!
# The reference counts of file handles are exact

Every operation keeps the agreement between the slots of all tasks, the handles and the pipes.
-/
namespace NyanOS.Files

open Lib Sched Function Option

variable {s t : FileState} {pipeLive : Nat → Bool} {opens : Nat → Nat} {k k' : Kernel} {l l₁ l₂ : List Nat}
  {p i h : Nat}

/-! Operations of the scheduler -/

/-- The agreement for all slots. -/
def Agrees (pipeLive : Nat → Bool) (opens : Nat → Nat) (k : Kernel) : Prop :=
  Exact pipeLive opens k (slots k)

namespace Agrees

theorem same (he : Agrees pipeLive opens k) (hs : SameFds k.tasks k'.tasks) (hf : k'.files = k.files) :
    Agrees pipeLive opens k' := by
  unfold Agrees
  rw [hs.slots]
  exact Exact.same he hs hf

theorem clean (he : Agrees pipeLive opens k) (hp : k.tasks.live p = true) :
    Agrees pipeLive opens (schedCleanFds (schedCleanGui k p) p) := by
  have hs : SameFds k.tasks (schedCleanGui k p).tasks := by
    unfold schedCleanGui
    dsimp only
    split
    · exact .refl
    split
    · exact SameFds.setTask (k := { k with windows := _ }) (by intro; rfl)
    · exact .setTask (by intro; rfl)
  exact Exact.cleanFds (he.same hs cleanGui_files) (hs.live ▸ hp)

theorem exit {code : Int} (he : Agrees pipeLive opens k) (hp : k.tasks.live k.tasks.curr = true) :
    Agrees pipeLive opens (schedExit k code) := by
  unfold schedExit
  dsimp only
  split
  · exact he
  have hclean := he.clean hp
  generalize schedCleanFds (schedCleanGui k k.tasks.curr) k.tasks.curr = k₁ at *
  have hs : SameFds k₁.tasks (schedReparentChildren k₁.tasks (isWinOwner k₁ k.tasks.curr) k.tasks.curr) :=
    .reparentChildren
  generalize schedReparentChildren k₁.tasks (isWinOwner k₁ k.tasks.curr) k.tasks.curr = u at *
  refine hclean.same (hs.trans (.trans ?_ .becomeZombie)) rfl
  exact ⟨rfl, fun _ => rfl⟩

theorem destroy (he : Agrees pipeLive opens k) (hp : k.tasks.live p = true) :
    Agrees pipeLive opens (schedDestroyTask k p) := by
  unfold schedDestroyTask
  split
  · exact he
  dsimp only
  have hclean := he.clean hp
  have hzero : ∀ i < maxOpenFiles, slot (schedCleanFds (schedCleanGui k p) p) (p, i) = 0 := fun _ hi => cleanFds_slot hi
  generalize schedCleanFds (schedCleanGui k p) p = k₁ at *
  -- the block of the task is freed when its slots are cleared
  exact Exact.write (kept.dropRow hclean hzero) rfl fun _ _ => rfl

theorem remove (he : Agrees pipeLive opens k) (hm : Members k.tasks l)
    (hr : Removes k k' l₁ p l₂ l) : Agrees pipeLive opens k' := by
  obtain ⟨rfl, _, rfl⟩ := hr
  have hs : SameFds k.tasks (k.onTasks (·.bypass (l₁.getLastD k.tasks.head) p)).tasks := .bypass
  refine (he.same hs rfl).destroy ?_
  exact hs.live ▸ (hm.members p).mpr (by simp)

theorem step {op : Op} (he : Agrees pipeLive opens k) (hm : Members k.tasks l)
    (hs : stepTo k op = some k') (hr : isRegister op = false) : Agrees pipeLive opens k' := by
  have hcurr := (hm.members _).mpr hm.curr
  cases op with
  | register _ _ => cases hr
  | schedule =>
    cases hs
    exact he.same .schedule rfl
  | signal =>
    cases hs
    unfold signalCheck
    dsimp only
    split
    · have hs : SameFds k.tasks (k.setTask k.tasks.curr fun x => { x with sigint := false }).tasks :=
        .setTask (by intro; rfl)
      exact (he.same hs rfl).exit hcurr
    · exact he
  | block =>
    simp only [stepTo, ite_none_right_eq_some, some.injEq] at hs
    obtain ⟨_, rfl⟩ := hs
    exact he.same .block rfl
  | sleep _ =>
    simp only [stepTo, ite_none_right_eq_some, some.injEq] at hs
    obtain ⟨_, rfl⟩ := hs
    exact he.same .sleep rfl
  | wake _ =>
    cases hs
    exact he.same .wakePid rfl
  | sendSignal _ _ =>
    cases hs
    exact he.same .sendSignal rfl
  | tick _ =>
    cases hs
    exact he.same .checkSleepingTasks rfl
  | exit _ =>
    cases hs
    exact he.exit hcurr
  | kill pid =>
    cases hs
    rcases Keeps.kill_eq pid hm.toRing with heq | ⟨_, heq⟩ | ⟨p, hp, _, _, heq⟩
    · rw [heq]
      exact he
    · rw [heq]
      exact he.exit hcurr
    have hlive := (hm.members p).mpr (List.mem_cons_of_mem _ hp)
    have hs : SameFds k.tasks (becomeZombie (schedReparentChildren k.tasks (isWinOwner k p) p) p (-1)) :=
      SameFds.reparentChildren.trans .becomeZombie
    rw [heq]
    generalize becomeZombie (schedReparentChildren k.tasks (isWinOwner k p) p) p (-1) = u at *
    have hu : Agrees pipeLive opens { k with tasks := u } := he.same hs rfl
    exact hu.clean (hs.live ▸ hlive)
  | reap =>
    cases hs
    rcases hm.reap with heq | ⟨l₁, p, l₂, hrm, _⟩
    · rw [heq]
      exact he
    · exact he.remove hm hrm
  | waited p =>
    obtain ⟨l₁, l₂, hrm⟩ := hm.waited hs
    exact he.remove hm hrm

end Agrees

/-! System calls -/

theorem insert_slot (hp : k.tasks.live p = true) (hi : i < maxOpenFiles) :
    insert (p, i) (slots k \ {(p, i)}) = slots k :=
  Set.insert_sdiff_self_of_mem ⟨hp, hi⟩

namespace Agrees

theorem closeFd (he : Agrees pipeLive opens k) (hp : k.tasks.live p = true) (hi : i < maxOpenFiles)
    (h0 : slot k (p, i) ≠ 0) : Agrees pipeLive opens ((vfsClose k (slot k (p, i))).setFd p i 0) := kept.closeFd he hp hi h0

theorem attach (he : Agrees s.pipeLive s.opens s.kernel) (hp : s.kernel.tasks.live p = true)
    (hi : i < maxOpenFiles) (hnull : slot s.kernel (p, i) = 0) (h0 : h ≠ 0)
    (hdead : (s.kernel.files.handle h).live = false) : Agrees s.pipeLive (initHandle (s.setFd p i h) h .other).opens
      (initHandle (s.setFd p i h) h .other).kernel := by
  have huncount : Exact s.pipeLive s.opens (s.setFd p i h).kernel (slots s.kernel \ {(p, i)}) :=
    kept.write (kept.uncount he hnull) fun hm => hm.2 rfl
  have hslot : slot (s.setFd p i h).kernel (p, i) = h := slot_setFd_self
  have hnot : (p, i) ∉ slots s.kernel \ {(p, i)} := fun hm => hm.2 rfl
  have hinit := Exact.init (s := s.setFd p i h) huncount hnot (by rw [hslot]; exact h0) (by rw [hslot]; exact hdead)
  rw [hslot, insert_slot hp hi] at hinit
  exact hinit

end Agrees

end NyanOS.Files
