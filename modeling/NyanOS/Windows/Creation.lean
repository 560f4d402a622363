import NyanOS.Windows.ZOrder

/-!
# Windows that cannot be created

`win_create` links the window and gives it to the task before it asks for a rectangle, and `sys_create_win` does not look
at its result.
-/
namespace NyanOS.Windows

open Lib Sched Function List

variable {k : Kernel} {p : Nat} {l : List Nat} {pixels rect borderless : Bool}

/-- What `win_create` returns. -/
def winCreated (p : Nat) (pixels rect : Bool) : Nat := if p = 0 ∨ pixels = false ∨ rect = false then 0 else p

/-- `sys_create_win` with parameters that can be read. -/
def sysCreateWin (k : Kernel) (p : Nat) (pixels rect borderless : Bool) : Kernel × Int :=
  if (k.tasks.task k.tasks.curr).win ≠ 0 then (k, -1) else (winCreate k p pixels rect borderless, 0)

/-- The list, the window of the running task and the blocks in use are as before. -/
structure NoTrace (k k' : Kernel) : Prop where
  list : k'.windows.list = k.windows.list
  top : k'.windows.top = k.windows.top
  links : ∀ q, k.windows.live q = true → k'.windows.window q = k.windows.window q
  live : k'.windows.live = k.windows.live
  win : (k'.tasks.task k'.tasks.curr).win = (k.tasks.task k.tasks.curr).win

/-- The running task has a window of the list. -/
def OwnsWindow (k : Kernel) : Prop := ∃ l, WindowList k.windows l ∧ (k.tasks.task k.tasks.curr).win ∈ l

theorem winCreate_top (hp : p ≠ 0) : (winCreate k p true rect borderless).windows.top = p := by
  unfold winCreate winLink
  simp only [hp, Bool.true_eq_false, or_self, if_false]
  split <;> split <;> split <;> rfl

theorem winCreate_win (hp : p ≠ 0) (hcurr : k.tasks.curr ≠ 0) : let k' := winCreate k p true rect borderless
    (k'.tasks.task k'.tasks.curr).win = if borderless then (k.tasks.task k.tasks.curr).win else p := by
  unfold winCreate
  cases borderless <;> cases rect <;> simp [hp, hcurr, Kernel.setTask]

theorem winCreate_live (hp : p ≠ 0) : (winCreate k p true false borderless).windows.live p = false := by
  unfold winCreate
  simp [hp]

section
variable (h : WindowList k.windows l) (hfree : k.windows.live p = false)
include h hfree

theorem WindowList.top_ne (hp : p ≠ 0) : k.windows.top ≠ p := by
  rintro rfl
  rcases eq_nil_or_concat' l with rfl | ⟨l, q, rfl⟩
  · exact hp (h.dlist.last_eq_zero.mpr rfl)
  have hq : q = k.windows.top := h.dlist.eq_last.mpr rfl
  have hlive := (h.members q).mpr (by simp)
  rw [hq, hfree] at hlive
  cases hlive

theorem noTrace_iff : (winCreated p pixels rect = 0 → NoTrace k (winCreate k p pixels rect borderless)) ↔
      p = 0 ∨ pixels = false ∨ rect = true := by
  constructor
  · intro htrace
    by_contra hlate
    obtain ⟨hp, hpixels, hrect⟩ : p ≠ 0 ∧ pixels = true ∧ rect = false := by simpa using hlate
    subst hpixels
    have htop := (htrace (if_pos (.inr (.inr hrect)))).top
    rw [winCreate_top hp] at htop
    exact h.top_ne hfree hp htop.symm
  · intro hor hnull
    by_cases hearly : p = 0 ∨ pixels = false
    · rw [winCreate, if_pos hearly]
      exact ⟨rfl, rfl, fun _ _ => rfl, rfl, rfl⟩
    obtain ⟨hp, hpixels⟩ := not_or.mp hearly
    have hrect : rect = true := (hor.resolve_left hp).resolve_left hpixels
    rw [winCreated, if_neg (by simp [hp, hpixels, hrect])] at hnull
    exact absurd hnull hp

theorem ownsWindow_iff (hcurr : k.tasks.curr ≠ 0)
    (hnone : (k.tasks.task k.tasks.curr).win = 0) : OwnsWindow (winCreate k p pixels rect borderless) ↔
      p ≠ 0 ∧ pixels = true ∧ rect = true ∧ borderless = false := by
  constructor
  · rintro ⟨l', h', hmem⟩
    have hwin := h'.dlist.ne_zero hmem
    by_cases hearly : p = 0 ∨ pixels = false
    · rw [winCreate, if_pos hearly] at hwin
      exact absurd hnone hwin
    obtain ⟨hp, hpixels⟩ : p ≠ 0 ∧ pixels = true := by simpa using hearly
    subst hpixels
    rw [winCreate_win hp hcurr, hnone] at hwin hmem
    cases borderless with
    | true => exact absurd rfl hwin
    | false =>
      refine ⟨hp, rfl, ?_, rfl⟩
      by_contra hrect
      obtain rfl : rect = false := by simpa using hrect
      have hlive := (h'.members p).mpr hmem
      rw [winCreate_live hp] at hlive
      cases hlive
  · rintro ⟨hp, rfl, rfl, rfl⟩
    refine ⟨l ++ [p], h.create hfree hp, ?_⟩
    rw [winCreate_win hp hcurr]
    simp

end

/-- A failure of `win_create` leaves no trace exactly if it comes before the rectangle, and a task that is told of
success has a window exactly if `win_create` succeeded with a border. -/
theorem failed_creation_iff (h : WindowList k.windows l) (hfree : k.windows.live p = false) (hcurr : k.tasks.curr ≠ 0) :
    ((winCreated p pixels rect = 0 → NoTrace k (winCreate k p pixels rect borderless)) ↔
      p = 0 ∨ pixels = false ∨ rect = true) ∧
    (((sysCreateWin k p pixels rect borderless).2 = 0 → OwnsWindow (sysCreateWin k p pixels rect borderless).1) ↔
      (k.tasks.task k.tasks.curr).win ≠ 0 ∨ p ≠ 0 ∧ pixels = true ∧ rect = true ∧ borderless = false) := by
  refine ⟨noTrace_iff h hfree, ?_⟩
  by_cases hnone : (k.tasks.task k.tasks.curr).win = 0
  · rw [sysCreateWin, if_neg (not_not.mpr hnone), ← ownsWindow_iff h hfree hcurr hnone]
    exact ⟨fun howns => .inr (howns rfl), fun hor _ => hor.resolve_left (not_not.mpr hnone)⟩
  · rw [sysCreateWin, if_pos hnone]
    exact ⟨fun _ => .inl hnone, fun _ hzero => absurd (show (-1 : Int) = 0 from hzero) (by decide)⟩

theorem failed_creation_iff_boot :
    NoTrace bootKernel (winCreate bootKernel 0x1000 false true false) ∧ OwnsWindow (sysCreateWin bootKernel 0x1000 true true false).1 :=
  ⟨(failed_creation_iff bootKernel_windows rfl (by decide)).1.mpr (.inr (.inl rfl)) rfl,
    (failed_creation_iff bootKernel_windows rfl (by decide)).2.mpr (.inr ⟨by decide, rfl, rfl, rfl⟩) rfl⟩

/-- Without a rectangle, the freed window is left at the top and in the task, and the call returns 0. -/
theorem failed_creation_linked : winCreated 0x1000 true false = 0 ∧ bootKernel.windows.top = 0 ∧
    (sysCreateWin bootKernel 0x1000 true false false).2 = 0 ∧
    (sysCreateWin bootKernel 0x1000 true false false).1.windows.top = 0x1000 ∧
    (sysCreateWin bootKernel 0x1000 true false false).1.windows.live 0x1000 = false := by decide

end NyanOS.Windows
