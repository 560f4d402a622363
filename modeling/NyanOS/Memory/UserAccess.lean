import NyanOS.Memory.Cow
import NyanOS.UserPointer

/-!
# User buffers in system calls

After `verify_usr_access` a system call reads and writes its user buffer in kernel mode. A fault
there is resolved only if the page is present.
-/
namespace NyanOS.Memory

open Lib Option

variable {base : Nat → Bool} {s s' : System} {t : Task} {pid addr a : Nat} {write : Option Byte} {P : Nat → Prop}

/-- The page of the address is present in the task's tables. -/
def mapped (s : System) (pid addr : Nat) : Bool :=
  match s.find pid with
  | none => false
  | some t => present (mmuEntry s.machine t.pml4 (addr / pageSize))

/-- An access in kernel mode; the instruction runs again when the handler has copied the page. -/
def kernelAccess (s : System) (pid addr : Nat) (write : Option Byte) : Option (System × Outcome) :=
  match next s (.access pid addr write false) with
  | some (s', .fault .cow) => next s' (.access pid addr write false)
  | r => r

/-- How a system call ends for its caller. -/
inductive CallEnd
  | returned (s : System)
  | refused
  | terminated
  | panic

/-- The accesses of a system call to its buffer, one after the other. -/
def transfer (pid : Nat) : System → List (Nat × Option Byte) → CallEnd
  | s, [] => .returned s
  | s, (addr, write) :: rest =>
    match kernelAccess s pid addr write with
    | some (s', .hit) => transfer pid s' rest
    | some _ => .terminated
    | none => .panic

def userCall (s : System) (pid : Nat) (ptr size : BitVec 64) (accesses : List (Nat × Option Byte)) :
    CallEnd :=
  if verifyUsrAccess ptr size then transfer pid s accesses else .refused

/-- The accesses stay in the buffer. -/
def InBuffer (ptr size : BitVec 64) (accesses : List (Nat × Option Byte)) : Prop :=
  ∀ a ∈ accesses, ptr.toNat ≤ a.1 ∧ a.1 < ptr.toNat + size.toNat

theorem page_lt_of_limit (h : addr < userSpaceLimit) : addr / pageSize < pageCount 3 := by
  have hcount : pageCount 3 = 2 ^ 35 := by decide
  rw [hcount]
  unfold userSpaceLimit at h
  unfold pageSize
  omega

theorem Reached.mapped_iff (h : Reached base s) (hv : addr / pageSize < pageCount 3) :
    mapped s pid addr = (readByte s pid addr).isSome := by
  unfold mapped readByte
  cases hf : s.find pid with
  | none => rfl
  | some t =>
    simp only [bind_some, mmuEntry_eq, hv, true_and]
    cases hp : present (leaf s.machine.mem 3 t.pml4 (addr / pageSize)) with
    | false => simp [accessOk, hp]
    | true =>
      have hu := (h.inv.focus hf).userOk _ List.mem_cons_self _ hv hp
      simp [accessOk, hp, hu]

section

variable (hf : s.find pid = some t) (hv : addr / pageSize < pageCount 3)
include hf hv

theorem next_access : next s (.access pid addr write false) = access s t addr write false := by
  simp [next, hf, hv]

theorem access_unmapped (hm : mapped s pid addr = false) : next s (.access pid addr write false) = none := by
  have hp : present (mmuEntry s.machine t.pml4 (addr / pageSize)) = false := by
    simpa [mapped, hf] using hm
  rw [next_access hf hv]
  simp [access, accessOk, hp, exceptionHandler]

/-- On a page that is present the access is made, or the handler copies the page or ends the task. -/
theorem access_mapped (hm : mapped s pid addr = true) : ∃ s' o, next s (.access pid addr write false) = some (s', o) ∧
      (o = .hit ∨ (o = .fault .cow ∧ write.isSome = true) ∨ o = .fault .kill) := by
  have hp : present (mmuEntry s.machine t.pml4 (addr / pageSize)) = true := by
    simpa [mapped, hf] using hm
  rw [next_access hf hv]
  cases write with
  | none => exact ⟨s, .hit, by simp [access, accessOk, hp], .inl rfl⟩
  | some b =>
    cases hw : writable (mmuEntry s.machine t.pml4 (addr / pageSize)) with
    | true =>
      let frame := frameOf (mmuEntry s.machine t.pml4 (addr / pageSize))
      refine ⟨{ s with machine := storeByte s.machine frame (addr % pageSize) b }, .hit, ?_, .inl rfl⟩
      simp [access, accessOk, hp, hw, frame]
    | false =>
      cases hcow : vmmHandleCow s.machine t.pml4 (addr / pageSize) with
      | mk ok m =>
        cases ok with
        | true =>
          refine ⟨{ s with machine := m }, .fault .cow, ?_, .inr (.inl ⟨rfl, rfl⟩)⟩
          simp [access, accessOk, hp, hw, exceptionHandler, hcow]
        | false =>
          refine ⟨{ s with machine := m }, .fault .kill, ?_, .inr (.inr rfl)⟩
          simp [access, accessOk, hp, hw, exceptionHandler, hcow]

end

theorem Reached.hit_reads (h : Reached base s) (hstep : step s (.access pid addr write false, .hit) s')
    (hr : (readByte s pid a).isSome = true) : (readByte s' pid a).isSome = true := by
  cases write with
  | none =>
    obtain ⟨t, hf, hrun⟩ := bind_eq_some_iff.mp hstep
    obtain ⟨_, hrun⟩ := ite_none_right_eq_some.mp hrun
    simp only [access, isSome_none] at hrun
    split at hrun
    · obtain ⟨rfl, -⟩ := Prod.mk.inj (some.inj hrun)
      exact hr
    · split at hrun <;> simp at hrun
  | some b =>
    obtain ⟨hsame, hother⟩ := h.write (q := pid) (a := a) hstep
    by_cases hplace : (abs s).SamePlace pid addr pid a
    · simp [hsame hplace]
    · rw [hother hplace]
      exact hr

/-- The task's readable addresses, which an access of the kernel keeps. -/
def Readable (s : System) (pid : Nat) (P : Nat → Prop) : Prop :=
  ∀ a, P a → (readByte s pid a).isSome = true

theorem Reached.kernelAccess_spec (h : Reached base s) (hr : Readable s pid P)
    (hf : s.find pid = some t) (hv : addr / pageSize < pageCount 3) (ha : P addr) :
    (∃ s', kernelAccess s pid addr write = some (s', .hit) ∧ Reached base s' ∧ Readable s' pid P) ∨
      ∃ s', kernelAccess s pid addr write = some (s', .fault .kill) := by
  have hm : mapped s pid addr = true := (h.mapped_iff hv).trans (hr addr ha)
  obtain ⟨s', o, hnext, ho⟩ : ∃ s' o, next s (.access pid addr write false) = some (s', o) ∧ _ :=
    access_mapped hf hv hm
  obtain rfl | ⟨rfl, hw⟩ | rfl := ho
  · left
    refine ⟨s', by simp [kernelAccess, hnext], (h.of_access hnext).1, ?_⟩
    exact fun a hP => h.hit_reads hnext (hr a hP)
  · left
    obtain ⟨b, rfl⟩ := isSome_iff_exists.mp hw
    have h' := (h.of_access hnext).1
    obtain ⟨s'', hretry⟩ := h.retry hnext
    refine ⟨s'', ?_, (h'.of_access hretry).1, ?_⟩
    · have hagain : next s' (.access pid addr (some b) false) = some (s'', .hit) := hretry
      simp [kernelAccess, hnext, hagain]
    · intro a hP
      refine h'.hit_reads hretry ?_
      rw [h.readByte_cow hnext]
      exact hr a hP
  · right
    exact ⟨s', by simp [kernelAccess, hnext]⟩

theorem Readable.find (hr : Readable s pid P) (ha : P addr) : ∃ t, s.find pid = some t := by
  cases hf : s.find pid with
  | none =>
    have hread := hr addr ha
    simp [readByte, hf] at hread
  | some t => exact ⟨t, rfl⟩

theorem Reached.transfer_ne_panic {accesses : List (Nat × Option Byte)}
    (h : Reached base s) (hr : Readable s pid P) (hP : ∀ a, P a → a / pageSize < pageCount 3)
    (hin : ∀ a ∈ accesses, P a.1) : transfer pid s accesses ≠ .panic := by
  induction accesses generalizing s with
  | nil =>
    rw [transfer]
    exact CallEnd.noConfusion
  | cons a rest ih =>
    obtain ⟨addr, write⟩ := a
    obtain ⟨ha, hrest⟩ := List.forall_mem_cons.mp hin
    obtain ⟨t, hf⟩ := hr.find ha
    rw [transfer]
    rcases h.kernelAccess_spec hr hf (hP addr ha) ha with ⟨s', hk, h', hr'⟩ | ⟨s', hk⟩
    · rw [hk]
      exact ih h' hr' hrest
    · rw [hk]
      exact CallEnd.noConfusion

theorem transfer_unmapped (hf : s.find pid = some t) (hv : addr / pageSize < pageCount 3)
    (hm : mapped s pid addr = false) : transfer pid s [(addr, none)] = .panic := by
  have hk : kernelAccess s pid addr none = none := by
    rw [kernelAccess, access_unmapped hf hv hm]
  rw [transfer, hk]

variable {m : Machine} {kernPml4 : Nat} {ls : List (Action × Outcome)}

/-- One task, which has not used its stack yet. -/
def freshTask : List (Action × Outcome) := [(.create 1 true, .ok true)]

end NyanOS.Memory
