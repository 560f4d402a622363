import NyanOS.Memory.Growth

/-!
The invariant of the system, and what the tasks see of it. An operation works on one task: the
invariant is taken apart at this task and put together again after the operation.
-/

namespace NyanOS.Memory

open Lib List

def stackFrames (t : Task) : List Nat := if t.kernStk = 0 then [] else [t.kernStk]

/-- The frames of the kernel that belong to no task. -/
def System.pool (s : System) : List Nat := s.shms.flatten ++ (s.held ++ s.lost)

def System.kernFrames (s : System) : List Nat := s.tasks.flatMap stackFrames ++ s.pool

def System.roots (s : System) : List Nat := s.tasks.map (·.pml4)

/-- The regions of a task lie in the mmap window, and all of them are of shared memory. -/
structure Task.Ok (t : Task) : Prop where
  free : ∀ e ∈ t.vmFree, Within userMmapStart (userMmapStart + userMmapSize) e
  alloc : ∀ a ∈ t.vmAlloc, Within userMmapStart (userMmapStart + userMmapSize) ⟨a.addr, a.size⟩ ∧
    pageSize ∣ a.size ∧ a.isShm = true

structure SysInv (base : Nat → Bool) (s : System) : Prop where
  space : Inv base s.machine s.kernFrames s.roots
  pids : (s.tasks.map (·.pid)).Nodup
  tasks : ∀ t ∈ s.tasks, t.Ok

variable {base : Nat → Bool} {s s' : System} {t t' u : Task} {pid q f : Nat} {m' : Machine}

/-! ### One task among the others -/

def System.restRoots (s : System) (pid : Nat) : List Nat := (s.drop pid).map (·.pml4)

def System.restStacks (s : System) (pid : Nat) : List Nat := (s.drop pid).flatMap stackFrames

theorem find_some (h : s.find pid = some t) : t ∈ s.tasks ∧ t.pid = pid := by
  refine ⟨mem_of_find?_eq_some h, ?_⟩
  simpa using find?_some h

theorem mem_drop : u ∈ s.drop pid ↔ u ∈ s.tasks ∧ u.pid ≠ pid := by
  simp [System.drop]

theorem find_none : s.find pid = none ↔ ∀ u ∈ s.tasks, u.pid ≠ pid := by
  simp [System.find]

theorem drop_eq_of_none (h : s.find pid = none) : s.drop pid = s.tasks := by
  rw [System.drop, filter_eq_self]
  intro u hu
  simpa using find_none.mp h u hu

theorem tasks_perm (hnd : (s.tasks.map (·.pid)).Nodup) (h : s.find pid = some t) : s.tasks.Perm (t :: s.drop pid) := by
  simp only [System.find, System.drop] at h ⊢
  generalize s.tasks = l at hnd h
  induction l with
  | nil => simp at h
  | cons u l ih =>
    obtain ⟨hu, hnd⟩ := nodup_cons.mp hnd
    by_cases hup : u.pid = pid
    · obtain rfl : u = t := by simpa [hup] using h
      have hkeep : l.filter (fun v => decide (v.pid ≠ pid)) = l := by
        rw [filter_eq_self]
        intro v hv
        have hne : v.pid ≠ u.pid := fun heq => hu (mem_map.mpr ⟨v, hv, heq⟩)
        simpa [hup] using hne
      rw [filter_cons_of_neg (by simp [hup]), hkeep]
    · have hfind : l.find? (fun v => decide (v.pid = pid)) = some t := by simpa [hup] using h
      rw [filter_cons_of_pos (by simpa using hup)]
      exact ((ih hnd hfind).cons u).trans (List.Perm.swap _ _ _)

section
variable (h : SysInv base s)
include h

theorem find_of_mem (hu : u ∈ s.tasks) : s.find u.pid = some u := by
  cases hq : s.find u.pid with
  | none => exact absurd rfl (find_none.mp hq u hu)
  | some v =>
    obtain ⟨hv, hpid⟩ := find_some hq
    rw [inj_on_of_nodup_map h.pids hv hu hpid]

theorem roots_perm (hf : s.find pid = some t) :
    s.roots.Perm (t.pml4 :: s.restRoots pid) := (tasks_perm h.pids hf).map _

theorem stacks_perm (hf : s.find pid = some t) :
    (s.tasks.flatMap stackFrames).Perm (stackFrames t ++ s.restStacks pid) :=
  (tasks_perm h.pids hf).flatMap_right _

theorem SysInv.focus (hf : s.find pid = some t) :
    Inv base s.machine (stackFrames t ++ (s.restStacks pid ++ s.pool)) (t.pml4 :: s.restRoots pid) := by
  refine h.space.perm (roots_perm h hf) ?_
  rw [System.kernFrames, ← append_assoc]
  exact (stacks_perm h hf).append_right _

/-- Nothing has changed but memory and the frames of the kernel that belong to no task. -/
theorem SysInv.keep (hf : s.find pid = some t) (htasks : s'.tasks = s.tasks)
    (hi : Inv base s'.machine (stackFrames t ++ (s.restStacks pid ++ s'.pool))
      (t.pml4 :: s.restRoots pid)) : SysInv base s' := by
  refine ⟨?_, htasks ▸ h.pids, htasks ▸ h.tasks⟩
  have hroots : s'.roots = s.roots := by rw [System.roots, System.roots, htasks]
  rw [hroots, System.kernFrames, htasks]
  refine hi.perm (roots_perm h hf).symm ?_
  rw [← append_assoc]
  exact (stacks_perm h hf).symm.append_right _

end

theorem SysInv.put (t' : Task) (h : SysInv base s) (hpid : t'.pid = pid) (hpml4 : t'.pml4 = t.pml4) (hstk : t'.kernStk = t.kernStk) (hok : t'.Ok)
    (htasks : s'.tasks = t' :: s.drop pid) (hi : Inv base s'.machine (stackFrames t ++ (s.restStacks pid ++ s'.pool))
      (t.pml4 :: s.restRoots pid)) : SysInv base s' := by
  have hstack : stackFrames t' = stackFrames t := by simp only [stackFrames, hstk]
  refine ⟨?_, ?_, ?_⟩
  · have hroots : s'.roots = t.pml4 :: s.restRoots pid := by
      rw [System.roots, htasks, map_cons, hpml4]
      rfl
    rw [hroots, System.kernFrames, htasks, flatMap_cons, hstack, append_assoc]
    exact hi
  · rw [htasks, map_cons, nodup_cons]
    refine ⟨?_, ?_⟩
    · simp only [hpid, mem_map, not_exists, not_and]
      intro u hu
      exact (mem_drop.mp hu).2
    · exact h.pids.sublist (filter_sublist.map _)
  · rw [htasks]
    exact forall_mem_cons.mpr ⟨hok, fun u hu => h.tasks u (mem_drop.mp hu).1⟩

theorem SysInv.forget (h : SysInv base s) (htasks : s'.tasks = s.drop pid)
    (hi : Inv base s'.machine (s.restStacks pid ++ s'.pool) (s.restRoots pid)) : SysInv base s' := by
  refine ⟨?_, ?_, ?_⟩
  · rw [System.roots, System.kernFrames, htasks]
    exact hi
  · rw [htasks]
    exact h.pids.sublist (filter_sublist.map _)
  · rw [htasks]
    exact fun u hu => h.tasks u (mem_drop.mp hu).1

theorem SysInv.add (h : SysInv base s) (hf : s.find t.pid = none) (hok : t.Ok) (htasks : s'.tasks = t :: s.drop t.pid)
    (hi : Inv base s'.machine (stackFrames t ++ (s.tasks.flatMap stackFrames ++ s'.pool))
      (t.pml4 :: s.roots)) : SysInv base s' := by
  rw [drop_eq_of_none hf] at htasks
  refine ⟨?_, ?_, ?_⟩
  · rw [System.roots, System.kernFrames, htasks, map_cons, flatMap_cons, append_assoc]
    exact hi
  · rw [htasks, map_cons, nodup_cons]
    refine ⟨?_, h.pids⟩
    simp only [mem_map, not_exists, not_and]
    exact find_none.mp hf
  · rw [htasks]
    exact forall_mem_cons.mpr ⟨hok, h.tasks⟩

/-! ### What the tasks see -/

def spaceOf (m : Machine) (t : Task) : Space := ⟨pagesOf m.mem t.pml4, t.heapEnd, t.vmFree, t.vmAlloc⟩

/-- The system without its frames. -/
def abs (s : System) : Eager where
  spaces pid := (s.find pid).map (spaceOf s.machine)
  shms := s.shms
  bytes frame := if frame ∈ s.shms.flatten then some (pageBytes (s.machine.mem frame)) else none

theorem abs_spaces (h : s.find pid = some t) : (abs s).spaces pid = some (spaceOf s.machine t) := by
  simp [abs, h]

theorem abs_spaces_none : (abs s).spaces pid = none ↔ s.find pid = none := by
  simp [abs]

theorem find_of_tasks (h : s'.tasks = s.tasks) (q : Nat) : s'.find q = s.find q := by
  rw [System.find, System.find, h]

theorem find_put (h : s'.tasks = t :: s.drop t.pid) : s'.find q = if q = t.pid then some t else s.find q := by
  simp only [System.find, h, System.drop, find?_cons, find?_filter]
  by_cases hq : t.pid = q
  · simp [hq]
  have hq' : q ≠ t.pid := fun h => hq h.symm
  simp only [hq, hq', decide_false, if_false]
  congr 1
  funext u
  by_cases hu : u.pid = q
  · simp [hu, hq']
  · simp [hu]

theorem find_drop (h : s'.tasks = s.drop pid) : s'.find q = if q = pid then none else s.find q := by
  simp only [System.find, h, System.drop, find?_filter]
  by_cases hq : q = pid
  · subst hq
    simp
  simp only [hq, if_false]
  congr 1
  funext u
  by_cases hu : u.pid = q
  · simp [hu, hq]
  · simp [hu]

theorem pool_of_shm (hf : f ∈ s.shms.flatten) : f ∈ s.pool := mem_append_left _ hf

theorem rest_root (hq : s.find q = some u) (hne : q ≠ pid) : u.pml4 ∈ s.restRoots pid := by
  obtain ⟨hmem, hpid⟩ := find_some hq
  exact mem_map_of_mem (mem_drop.mpr ⟨hmem, hpid ▸ hne⟩)

theorem abs_bytes (hshms : s'.shms = s.shms)
    (hbytes : ∀ f ∈ s.pool, s'.machine.mem f = s.machine.mem f) : (abs s').bytes = (abs s).bytes := by
  funext f
  simp only [abs, hshms]
  split
  · next hf => rw [hbytes f (pool_of_shm hf)]
  · rfl

theorem abs_set (hfind : ∀ q, s'.find q = if q = pid then some t' else s.find q)
    (hpages : ∀ r ∈ s.restRoots pid, pagesOf s'.machine.mem r = pagesOf s.machine.mem r) (hshms : s'.shms = s.shms)
    (hbytes : ∀ f ∈ s.pool, s'.machine.mem f = s.machine.mem f) :
    abs s' = (abs s).set pid (some (spaceOf s'.machine t')) := by
  refine Eager.ext ?_ hshms (abs_bytes hshms hbytes)
  funext q
  simp only [abs, Eager.set, Function.update_apply, hfind]
  split
  · rfl
  next hq =>
  cases hsq : s.find q with
  | none => rfl
  | some u =>
    have hpage := hpages u.pml4 (rest_root hsq hq)
    simp only [Option.map_some, spaceOf, hpage]

theorem abs_same (hfind : ∀ q, s'.find q = s.find q)
    (hpages : ∀ r ∈ s.roots, pagesOf s'.machine.mem r = pagesOf s.machine.mem r) (hshms : s'.shms = s.shms)
    (hbytes : ∀ f ∈ s.pool, s'.machine.mem f = s.machine.mem f) : abs s' = abs s := by
  refine Eager.ext ?_ hshms (abs_bytes hshms hbytes)
  funext q
  simp only [abs, hfind]
  cases hsq : s.find q with
  | none => rfl
  | some u =>
    have hpage := hpages u.pml4 (mem_map_of_mem (find_some hsq).1)
    simp only [Option.map_some, spaceOf, hpage]

theorem abs_same_focus (s' : System) (h : SysInv base s) (hf : s.find pid = some t) (hfind : ∀ q, s'.find q = s.find q)
    (hu : Unseen s.machine s'.machine s.pool (t.pml4 :: s.restRoots pid)) (hshms : s'.shms = s.shms) : abs s' = abs s :=
  abs_same hfind (fun r hr => hu.pages r ((roots_perm h hf).mem_iff.mp hr)) hshms hu.kern

end NyanOS.Memory
