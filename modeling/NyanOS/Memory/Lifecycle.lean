import NyanOS.Memory.Refinement

/-! Creation, fork and destruction of tasks, and the frames of the kernel. -/

namespace NyanOS.Memory

open Lib List Option

variable {base : Nat → Bool} {s s' : System} {t t' : Task} {pid parent q f pml4 kernStk k newSize : Nat} {m m' : Machine}
  {kern roots : List Nat} {queue : Bool}

/-- The result of `sched_new_task`: the frame of an empty PML4, or 0. -/
inductive NewTask (base : Nat → Bool) (m : Machine) (kern roots : List Nat) : Nat × Machine → Prop
  | none {m' : Machine} (hi : Inv base m' kern roots) (hu : Unseen m m' kern roots) :
      NewTask base m kern roots (0, m')
  | some {f : Nat} {m' : Machine} (hne : f ≠ 0) (hlen : roots.length < maxTasks)
      (hi : Inv base m' (f :: kern) roots) (hsh : Unshared m' roots f) (hu : Unseen m m' kern roots)
      (ht : tables m'.mem 3 f = [f]) (hl : ∀ v < pageCount 3, leaf m'.mem 3 f v = 0) :
      NewTask base m kern roots (f, m')

theorem vmmRetPml4_eq (h : f ≠ 0) : vmmRetPml4 m f = { m with pmm := pmmFreeFrame m.pmm f } := by
  rw [vmmRetPml4, if_pos h]

theorem SysInv.newTask (h : SysInv base s) (queue : Bool) :
    NewTask base s.machine s.kernFrames s.roots (schedNewTask s queue) := by
  rcases h.space.newPml4 s.kernPml4 with hrun | ⟨f, m', hrun, hne, hi, hsh, hu, ht, hl⟩
  · simp only [schedNewTask, hrun, if_true]
    exact .none h.space .refl
  simp only [schedNewTask, hrun, hne, if_false]
  split
  · next hroom =>
    have hlen : s.roots.length < maxTasks := by simpa [System.roots] using hroom.2
    exact .some hne hlen hi hsh hu ht hl
  obtain ⟨hi', hu'⟩ := hi.freeFrame hsh
  rw [vmmRetPml4_eq hne]
  exact .none hi' (hu.trans hu')

theorem abs_same_unseen (s' : System) (hu : Unseen s.machine s'.machine s.kernFrames s.roots)
    (htasks : s'.tasks = s.tasks) (hshms : s'.shms = s.shms) : abs s' = abs s :=
  abs_same (find_of_tasks htasks) hu.pages hshms fun g hg => hu.kern g (mem_append_right _ hg)

theorem SysInv.of_space (h : SysInv base s) (htasks : s'.tasks = s.tasks)
    (hi : Inv base s'.machine (s.tasks.flatMap stackFrames ++ s'.pool) s.roots) : SysInv base s' := by
  refine ⟨?_, htasks ▸ h.pids, htasks ▸ h.tasks⟩
  rw [System.kernFrames, System.roots, htasks]
  exact hi

theorem rest_subset (hr : f ∈ s.restRoots pid) : f ∈ s.roots := by
  obtain ⟨u, hu, rfl⟩ := mem_map.mp hr
  exact mem_map_of_mem (mem_drop.mp hu).1

theorem abs_add (s' : System) (t : Task) (hu : Unseen s.machine s'.machine s.kernFrames s.roots)
    (htasks : s'.tasks = t :: s.drop t.pid) (hshms : s'.shms = s.shms) :
    abs s' = (abs s).set t.pid (some (spaceOf s'.machine t)) :=
  abs_set (fun _ => find_put htasks) (fun r hr => hu.pages r (rest_subset hr)) hshms
    fun g hg => hu.kern g (mem_append_right _ hg)

theorem ok_newTask : (newTask pid pml4 kernStk).Ok := by
  refine ⟨?_, fun _ ha => absurd ha not_mem_nil⟩
  intro e he
  obtain rfl := mem_singleton.mp he
  exact ⟨le_rfl, le_rfl⟩

theorem pagesOf_empty (hl : ∀ v < pageCount 3, leaf m.mem 3 f v = 0) : pagesOf m.mem f = fun _ => .absent := by
  funext v
  rw [pagesOf]
  split
  · next hv =>
    rw [hl v hv]
    rfl
  · rfl

theorem sim_create (h : SysInv base s) (hf : s.find pid = none) :
    Simulates base s (.create pid queue, .ok (taskFactoryCreate s pid queue).1) (taskFactoryCreate s pid queue).2 := by
  have hspace := abs_spaces_none.mpr hf
  have hnew := h.newTask queue
  simp only [taskFactoryCreate]
  generalize schedNewTask s queue = res at hnew
  cases hnew with
  | @none m₁ hi hu =>
    simp only [if_true]
    refine ⟨h.of_space rfl hi, ?_⟩
    simp only [Eager.next, hspace, isNone_none, if_true, Bool.false_eq_true, if_false]
    exact congrArg some (abs_same_unseen { s with machine := m₁ } hu rfl rfl).symm
  | @some f m₁ hne hlen hi hsh hu ht hl =>
    simp only [hne, if_false]
    have hempty := pagesOf_empty hl
    -- whatever frame the kernel stack gets
    have hdone : ∀ kernStk m₂, m₂.mem = m₁.mem →
        Inv base m₂ (stackFrames (newTask pid f kernStk) ++ s.kernFrames) (f :: s.roots) →
        Simulates base s (.create pid queue, .ok true)
          (({ s with machine := m₂ } : System).put (newTask pid f kernStk)) := by
      intro kernStk m₂ hmem hi₂
      refine ⟨h.add (t := newTask pid f kernStk) hf ok_newTask rfl hi₂, ?_⟩
      simp only [Eager.next, hspace, isNone_none, if_true]
      refine congrArg some ?_
      rw [abs_add (({ s with machine := m₂ } : System).put (newTask pid f kernStk))
        (newTask pid f kernStk) (hu.trans (.of_mem_eq hmem)) rfl rfl]
      show _ = (abs s).set pid (some (spaceOf m₂ (newTask pid f kernStk)))
      rw [spaceOf, hmem]
      simp only [newTask, hempty]
    rcases hi.allocRaw with hfull | ⟨k, hk, hcall, hi₂⟩
    · rw [hfull]
      exact hdone 0 m₁ rfl (hi.addRoot hlen hsh ht hl)
    rw [hcall]
    refine hdone k { m₁ with pmm := m₁.pmm.take k } rfl ?_
    have hperm := hi₂.perm (List.Perm.refl _) (List.Perm.swap f k _)
    rw [stackFrames, newTask, if_neg hk]
    exact hperm.addRoot hlen hsh ht hl

theorem stackFrames_of_ne (hk : t.kernStk = k) (hne : k ≠ 0) : stackFrames t = [k] := by
  rw [stackFrames, hk, if_neg hne]

section
variable (h : SysInv base s)
include h

theorem sim_fork_failed (hf : s.find pid = none) (ht : s.find parent = some t)
    (hi : Inv base m' s.kernFrames s.roots) (hu : Unseen s.machine m' s.kernFrames s.roots) :
    Simulates base s (.fork parent pid queue, .ok false) { s with machine := m' } := by
  refine ⟨h.of_space rfl hi, ?_⟩
  simp only [Eager.next, abs_spaces ht, abs_spaces_none.mpr hf, bind_some, isNone_none,
    if_true, Bool.false_eq_true, if_false]
  exact congrArg some (abs_same_unseen { s with machine := m' } hu rfl rfl).symm

theorem sim_fork (hf : s.find pid = none) (ht : s.find parent = some t) :
    Simulates base s (.fork parent pid queue, .ok (taskFactoryFork s t pid queue).1)
      (taskFactoryFork s t pid queue).2 := by
  have hnew := h.newTask queue
  have hroots := roots_perm h ht
  simp only [taskFactoryFork]
  generalize schedNewTask s queue = res at hnew
  cases hnew with
  | none hi hu =>
    simp only [if_true]
    exact sim_fork_failed h hf ht hi hu
  | @some f m₁ hne hlen hi₁ hsh hu₁ _ _ =>
    simp only [hne, if_false, vmmRetPml4_eq hne]
    obtain ⟨hi₂, hu₂⟩ := hi₁.freeFrame hsh
    generalize ({ m₁ with pmm := pmmFreeFrame m₁.pmm f } : Machine) = m₂ at hi₂ hu₂
    have hu₂ := hu₁.trans hu₂
    -- the parent is one of the address spaces
    have hback : ∀ {m₃ : Machine}, Unseen m₂ m₃ s.kernFrames (t.pml4 :: s.restRoots parent) →
        Unseen s.machine m₃ s.kernFrames s.roots := fun hu =>
      hu₂.trans (hu.mono (fun _ hg => hg) fun _ hr => hroots.mem_iff.mp hr)
    rcases (hi₂.perm hroots (List.Perm.refl _)).copyHierarchy (hroots.length_eq ▸ hlen) s.kernPml4 with
      ⟨c, m₃, hcopy, hc, hi₃, hu₃, hpages⟩ | ⟨m₃, hcopy, hi₃, hu₃⟩
    · simp only [hcopy, hc, if_false]
      rcases hi₃.allocRaw with hfull | ⟨k, hk, hcall, hi₄⟩
      · simp only [hfull, if_true, schedDestroyTask, ne_eq, hc, not_true_eq_false, not_false_eq_true, if_false]
        obtain ⟨hi₄, hu₄⟩ := hi₃.freeSpace
        exact sim_fork_failed h hf ht (hi₄.perm hroots.symm (List.Perm.refl _)) (hback (hu₃.trans hu₄))
      · simp only [hcall, hk, if_false]
        refine ⟨h.add (t := { t with pid := pid, pml4 := c, kernStk := k }) hf ?_ rfl ?_, ?_⟩
        · have hok := h.tasks t (find_some ht).1
          exact ⟨hok.free, hok.alloc⟩
        · rw [stackFrames_of_ne rfl hk]
          exact hi₄.perm (hroots.symm.cons c) (List.Perm.refl _)
        · simp only [Eager.next, abs_spaces ht, abs_spaces_none.mpr hf, bind_some, isNone_none, if_true]
          refine congrArg some ?_
          rw [abs_add (({ s with machine := { m₃ with pmm := m₃.pmm.take k } } : System).put
            { t with pid := pid, pml4 := c, kernStk := k }) { t with pid := pid, pml4 := c, kernStk := k }
            (hback (hu₃.trans (.of_mem_eq rfl))) rfl rfl]
          have hparent : pagesOf m₃.mem c = pagesOf s.machine.mem t.pml4 := by
            rw [hpages, hu₂.pages t.pml4 (mem_map_of_mem (find_some ht).1)]
          show (abs s).set pid (some (spaceOf s.machine t)) = (abs s).set pid (some (spaceOf
            { m₃ with pmm := m₃.pmm.take k } { t with pid := pid, pml4 := c, kernStk := k }))
          simp only [spaceOf, hparent]
    · simp only [hcopy, if_true, schedDestroyTask, ne_eq, not_true_eq_false, if_false]
      exact sim_fork_failed h hf ht (hi₃.perm hroots.symm (List.Perm.refl _)) (hback hu₃)

theorem SysInv.unshared (ho : (abs s).Objects) (hf : f ∉ s.shms.flatten) : Unshared s.machine s.roots f := by
  intro r hr v hv hp hs
  obtain ⟨u, hu, rfl⟩ := mem_map.mp hr
  rintro rfl
  refine hf (ho u.pid _ (abs_spaces (find_of_mem h hu)) v _ ?_)
  simp only [spaceOf, pagesOf, if_pos hv]
  rw [viewOf, hp, hs]
  rfl

theorem SysInv.kern_nodup : s.kernFrames.Nodup := (nodup_append.mp h.space.nodup).2.1

theorem SysInv.stack_not_object (ht : t ∈ s.tasks) (hf : f ∈ stackFrames t) : f ∉ s.shms.flatten := by
  intro hobj
  have hnd := h.kern_nodup
  rw [System.kernFrames, nodup_append'] at hnd
  exact hnd.2.2 (mem_flatMap.mpr ⟨t, ht, hf⟩) (pool_of_shm hobj)

theorem SysInv.held_not_object (hf : f ∈ s.held) : f ∉ s.shms.flatten := by
  intro hobj
  have hnd := h.kern_nodup
  rw [System.kernFrames, System.pool, nodup_append', nodup_append'] at hnd
  exact hnd.2.1.2.2 hobj (mem_append_left _ hf)

end

theorem abs_drop (s' : System) (hu : Unseen s.machine s'.machine s.pool (s.restRoots pid))
    (htasks : s'.tasks = s.drop pid) (hshms : s'.shms = s.shms) : abs s' = (abs s).set pid none := by
  refine Eager.ext ?_ hshms (abs_bytes hshms hu.kern)
  funext q
  simp only [abs, Eager.set, Function.update_apply, find_drop htasks]
  split
  · rfl
  next hq =>
  cases hsq : s.find q with
  | none => rfl
  | some u =>
    have hpage := hu.pages u.pml4 (rest_root hsq hq)
    simp only [map_some, spaceOf, hpage]

section
variable (h : SysInv base s)
include h

theorem SysInv.destroy (ho : (abs s).Objects) (hf : s.find pid = some t) :
    Inv base (schedDestroyTask s.machine t.kernStk t.pml4) (s.restStacks pid ++ s.pool) (s.restRoots pid) ∧
    Unseen s.machine (schedDestroyTask s.machine t.kernStk t.pml4) (s.restStacks pid ++ s.pool) (s.restRoots pid) := by
  have hi := h.focus hf
  have hroot : t.pml4 ≠ 0 := by
    have hmem : t.pml4 ∈ allTables s.machine.mem (t.pml4 :: s.restRoots pid) :=
      mem_allTables.mpr ⟨_, mem_cons_self, table_mem_tables⟩
    have hlow := (hi.owned _ (mem_append_left _ hmem)).1.low
    omega
  by_cases hk : t.kernStk = 0
  · rw [stackFrames, if_pos hk] at hi
    simp only [schedDestroyTask, hk, ne_eq, not_true_eq_false, hroot, not_false_eq_true, if_false, if_true]
    exact hi.freeSpace
  · have hstack := stackFrames_of_ne rfl hk
    rw [hstack] at hi
    have hsh : Unshared s.machine (t.pml4 :: s.restRoots pid) t.kernStk := by
      have hobj := h.stack_not_object (find_some hf).1 (f := t.kernStk) (by simp [hstack])
      intro r hr
      exact h.unshared ho hobj r ((roots_perm h hf).mem_iff.mpr hr)
    obtain ⟨hi₁, _⟩ := hi.freeFrame hsh
    simp only [schedDestroyTask, hk, ne_eq, not_false_eq_true, hroot, if_true]
    exact ⟨hi₁.freeSpace.1, .of_mem_eq rfl⟩

theorem sim_destroy (ho : (abs s).Objects) (hf : s.find pid = some t) : Simulates base s (.destroy pid, .ok true)
      { s with machine := schedDestroyTask s.machine t.kernStk t.pml4, tasks := s.drop pid } := by
  obtain ⟨hi, hu⟩ := h.destroy ho hf
  refine ⟨h.forget rfl hi, ?_⟩
  simp only [Eager.next, abs_spaces hf, map_some]
  exact congrArg some (abs_drop { s with machine := schedDestroyTask s.machine t.kernStk t.pml4, tasks := s.drop pid }
    (hu.mono (fun g hg => mem_append_right _ hg) fun _ hr => hr) rfl rfl).symm

theorem sim_kernelAlloc {o : Outcome}
    (hrun : next s .kernelAlloc = some (s', o)) : Simulates base s (.kernelAlloc, o) s' := by
  simp only [next] at hrun
  rcases h.space.allocRaw with hfull | ⟨f, hne, hcall, hi⟩
  · rw [hfull] at hrun
    obtain ⟨rfl, rfl⟩ := Prod.mk.inj (some.inj hrun)
    exact ⟨h, rfl⟩
  rw [hcall] at hrun
  obtain ⟨rfl, rfl⟩ := Prod.mk.inj (some.inj hrun)
  simp only [hne, if_false]
  refine ⟨h.of_space rfl (hi.perm (List.Perm.refl _) ?_), ?_⟩
  · rw [perm_iff_count]
    intro x
    simp only [System.kernFrames, System.pool, count_append, count_cons]
    omega
  · exact congrArg some (abs_same_unseen
      { s with machine := { s.machine with pmm := s.machine.pmm.take f }, held := f :: s.held }
      (.of_mem_eq rfl) rfl rfl).symm

theorem sim_kernelFree (ho : (abs s).Objects) (hf : f ∈ s.held) : Simulates base s (.kernelFree f, .ok true) { s with
      machine := { s.machine with pmm := pmmFreeFrame s.machine.pmm f }
      held := s.held.erase f } := by
  have hsh := h.unshared ho (h.held_not_object hf)
  have hperm : s.kernFrames.Perm (f :: (s.tasks.flatMap stackFrames ++
      (s.shms.flatten ++ (s.held.erase f ++ s.lost)))) := by
    rw [perm_iff_count]
    intro x
    have hcount := (perm_cons_erase hf).count_eq x
    simp only [System.kernFrames, System.pool, count_append, count_cons] at hcount ⊢
    omega
  refine ⟨h.of_space rfl ((h.space.perm (List.Perm.refl _) hperm).give hsh), ?_⟩
  exact congrArg some (abs_same_unseen { s with
    machine := { s.machine with pmm := pmmFreeFrame s.machine.pmm f }
    held := s.held.erase f } (.of_mem_eq rfl) rfl rfl).symm

theorem sim_shmSetSize :
    Simulates base s (.shmSetSize newSize, .frames (shmSetSize s newSize).2) (shmSetSize s newSize).1 := by
  obtain ⟨hi, hu, hzero⟩ := h.space.shmAlloc (n := (newSize + 0xFFF) % 2 ^ 32 / pageSize)
  simp only [shmSetSize]
  generalize shmAlloc ((newSize + 0xFFF) % 2 ^ 32 / pageSize) s.machine = res at hi hu hzero
  obtain ⟨ok, frames, m₁⟩ := res
  cases ok with
  | true =>
    refine ⟨h.of_space rfl (hi.perm (List.Perm.refl _) ?_), ?_⟩
    · rw [perm_iff_count]
      intro x
      simp only [System.kernFrames, System.pool, count_append, flatten_append, flatten_singleton]
      omega
    · simp only [Eager.next, some.injEq]
      refine Eager.ext ?_ rfl ?_
      · funext q
        show (s.find q).map (spaceOf s.machine) = (s.find q).map (spaceOf m₁)
        cases hq : s.find q with
        | none => rfl
        | some u =>
          simp only [map_some, spaceOf, hu.pages _ (mem_map_of_mem (find_some hq).1)]
      · funext f
        simp only [abs, flatten_append, flatten_singleton, mem_append]
        by_cases hf : f ∈ frames
        · have hz : m₁.mem f = fun _ => 0 := hzero f hf
          simp only [hf, or_true, if_true, hz, pageBytes_zero]
        simp only [hf, or_false, if_false]
        split
        · next hobj =>
          rw [hu.kern f (mem_append_right _ (pool_of_shm hobj))]
        · rfl
  | false =>
    have hfrees : ∀ f ∈ frames, Unshared m₁ s.roots f := by
      intro f hf
      refine h.space.unshared_of_unseen hu ?_
      intro hkern
      have hnd := (nodup_append'.mp hi.nodup).2.1
      exact (nodup_append'.mp hnd).2.2 hf hkern
    refine ⟨h.of_space rfl (hi.freeFrames hfrees), ?_⟩
    exact congrArg some (abs_same_unseen { s with machine := { m₁ with pmm := frames.foldl pmmFreeFrame m₁.pmm } }
      (hu.trans (.of_mem_eq rfl)) rfl rfl).symm

end

end NyanOS.Memory
