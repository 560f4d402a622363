import NyanOS.Memory.Abstraction

/-!
Every operation of the system keeps its invariant and does to the address spaces what it does
under eager copying.
-/

namespace NyanOS.Memory

open Lib List Prod

variable {base : Nat → Bool} {s s' : System} {t t' : Task} {pid q page addr f brk nextBrk size v length object pml4 r : Nat}
  {m' m : Machine} {o : Outcome} {isUser : Bool}

/-- The step to `s'` keeps the invariant, and eager copying makes the same step. -/
structure Simulates (base : Nat → Bool) (s : System) (l : Action × Outcome) (s' : System) : Prop where
  inv : SysInv base s'
  next : (abs s).next l = some (abs s')

theorem lose_perm (fresh a b c d e : List Nat) :
    (fresh ++ (a ++ (b ++ (c ++ (d ++ e))))).Perm (a ++ (b ++ (c ++ (d ++ (fresh ++ e))))) := by
  rw [perm_iff_count]
  intro x
  simp only [count_append]
  omega

theorem find_same (hf : s.find pid = some t) (h : s'.tasks = s.tasks) (q : Nat) :
    s'.find q = if q = pid then some t else s.find q := by
  rw [find_of_tasks h]
  split
  · next hq => rw [hq, hf]
  · rfl

theorem mem_focus_of_pool (hf : f ∈ s.pool) : f ∈ stackFrames t ++ (s.restStacks pid ++ s.pool) :=
  mem_append_right _ (mem_append_right _ hf)

theorem abs_set_pages (s' : System) (hf : s.find pid = some t) (htasks : s'.tasks = s.tasks)
    (hshms : s'.shms = s.shms) {pages : Nat → Page}
    (hs : SeenIn s.machine s'.machine (stackFrames t ++ (s.restStacks pid ++ s.pool)) t.pml4 (s.restRoots pid) pages) :
    abs s' = (abs s).set pid (some { spaceOf s.machine t with pages := pages }) := by
  rw [abs_set (find_same hf htasks) hs.pages hshms fun g hg => hs.kern g (mem_focus_of_pool hg)]
  simp only [spaceOf, hs.page]

theorem abs_set_task (s' : System) (t' : Task) {pages : Nat → Page}
    (hs : SeenIn s.machine s'.machine (stackFrames t ++ (s.restStacks pid ++ s.pool)) t.pml4
      (s.restRoots pid) pages) (hpid : t'.pid = pid) (hpml4 : t'.pml4 = t.pml4)
    (htasks : s'.tasks = t' :: s.drop pid) (hshms : s'.shms = s.shms) :
    abs s' = (abs s).set pid (some ⟨pages, t'.heapEnd, t'.vmFree, t'.vmAlloc⟩) := by
  subst hpid
  rw [abs_set (fun _ => find_put htasks) hs.pages hshms fun g hg => hs.kern g (mem_focus_of_pool hg)]
  simp only [spaceOf, hpml4, hs.page]

theorem sim_load {content : Nat → Word} (h : SysInv base s) (hf : s.find pid = some t) (hv : page < pageCount 3) :
    Simulates base s (.load pid page content, .mapped (loadPage s t page content).2) (loadPage s t page content).1 := by
  have hi := h.focus hf
  have hz := hi.newPage hv
  have hspace := abs_spaces hf
  generalize hrun : mapZeroPage s.machine t.pml4 page = res at hz
  cases hz with
  | full =>
    simp only [loadPage, hrun]
    refine ⟨h, ?_⟩
    simp only [Eager.next, hspace, Option.map_some, place_nil]
    exact congrArg some (Eager.set_self hspace)
  | @mapped f m₁ hne hi₁ hs hm hw =>
    obtain ⟨k, rfl⟩ := Nat.exists_eq_succ_of_ne_zero hne
    simp only [loadPage, hrun]
    obtain ⟨hi₂, hs₂⟩ := hi₁.rewritePrivate (m₁.fill (k + 1) content) hv hm hw rfl
      fun g hg => mem_fill_of_ne content hg
    rw [mem_fill_self] at hs₂
    refine ⟨h.keep hf rfl hi₂, ?_⟩
    have hseen := hs.seenIn.trans hs₂.seenIn
    rw [hs.page, Function.update_idem] at hseen
    simp only [Eager.next, hspace, Option.map_some, place, if_true]
    exact congrArg some (abs_set_pages { s with machine := m₁.fill (k + 1) content } hf rfl rfl hseen).symm
  | @noTable f m₁ hne hi₁ hu =>
    obtain ⟨k, rfl⟩ := Nat.exists_eq_succ_of_ne_zero hne
    simp only [loadPage, hrun]
    refine ⟨h.keep hf rfl (hi₁.perm (List.Perm.refl _) (lose_perm [k + 1] _ _ _ _ _)), ?_⟩
    simp only [Eager.next, hspace, Option.map_some, place, Bool.false_eq_true, if_false]
    exact congrArg some (abs_set_pages { s with machine := m₁, lost := (k + 1) :: s.lost } hf rfl rfl hu.seenIn).symm

theorem pageCount_three : pageCount 3 = 2 ^ 35 := by decide

theorem sbrkPages_lt {incr : Int} {pages : List Nat}
    (h : sbrkPages brk incr = some (nextBrk, pages)) : ∀ v ∈ pages, v < pageCount 3 := by
  have hcount := pageCount_three
  simp only [sbrkPages] at h
  split at h
  · simp at h
  split at h
  · simp at h
  split at h
  · simp at h
  next hlim =>
  obtain ⟨rfl, rfl⟩ := mk.inj (Option.some.inj h)
  intro v hv
  rw [mem_range'_1] at hv
  simp only [userHeapMaxLimit, pageSize] at hlim hv
  omega

theorem sim_sbrk {incr : Int} (h : SysInv base s) (hf : s.find pid = some t) :
    Simulates base s (.sbrk pid incr, .mapped (sysSbrk s t incr).2) (sysSbrk s t incr).1 := by
  obtain rfl := (find_some hf).2
  have hspace := abs_spaces hf
  cases hpages : sbrkPages t.heapEnd incr with
  | none =>
    simp only [sysSbrk, hpages]
    refine ⟨h, ?_⟩
    simp only [Eager.next, hspace, Option.map_some, Eager.sbrk, spaceOf, hpages]
    exact congrArg some (Eager.set_self hspace)
  | some res =>
    obtain ⟨nextBrk, pages⟩ := res
    obtain ⟨hi, hs⟩ := (h.focus hf).growHeap (sbrkPages_lt hpages)
    have hi := hi.perm (List.Perm.refl _) (lose_perm _ _ _ _ _ _)
    simp only [sysSbrk, hpages]
    generalize sbrkLoop t.pml4 pages s.machine = loop at hi hs
    obtain ⟨flags, lost, m₁⟩ := loop
    by_cases hall : flags.length = pages.length
    · simp only [if_pos hall]
      have hok := h.tasks t (find_some hf).1
      refine ⟨h.put { t with heapEnd := nextBrk } rfl rfl rfl ⟨hok.free, hok.alloc⟩ rfl hi, ?_⟩
      simp only [Eager.next, hspace, Option.map_some, Eager.sbrk, spaceOf, hpages, if_pos hall]
      exact congrArg some (abs_set_task
        (({ s with machine := m₁, lost := lost ++ s.lost } : System).put { t with heapEnd := nextBrk })
        { t with heapEnd := nextBrk } hs rfl rfl rfl rfl).symm
    · simp only [if_neg hall]
      refine ⟨h.keep hf rfl hi, ?_⟩
      simp only [Eager.next, hspace, Option.map_some, Eager.sbrk, spaceOf, hpages, if_neg hall]
      exact congrArg some (abs_set_pages { s with machine := m₁, lost := lost ++ s.lost } hf rfl rfl hs).symm

/-- A region in the mmap window has page numbers of user space, and its size is that of its pages. -/
theorem region_pages (hw : Within userMmapStart (userMmapStart + userMmapSize) ⟨addr, size⟩)
    (hv : v < addr / pageSize + size / pageSize) : v < pageCount 3 := by
  simp only [Within, Extent.stop, userMmapStart, userMmapSize] at hw
  simp only [pageSize] at hv
  rw [pageCount_three]
  omega

theorem alignedSize_eq
    (hw : Within userMmapStart (userMmapStart + userMmapSize) ⟨addr, size⟩) (hd : pageSize ∣ size) :
    alignedSize size = size := by
  obtain ⟨k, rfl⟩ := hd
  simp only [Within, Extent.stop, userMmapStart, userMmapSize, pageSize] at hw
  simp only [alignedSize, pageSize]
  omega

theorem mmapPairs_ok {frames : List Nat}
    (hw : Within userMmapStart (userMmapStart + userMmapSize) ⟨addr, alignedSize length⟩) :
    ∀ p ∈ mmapPairs addr length frames, p.1 < pageCount 3 ∧ p.2 ∈ frames := by
  rintro ⟨v, f⟩ hp
  obtain ⟨hv, hf⟩ := of_mem_zip hp
  refine ⟨region_pages hw ?_, hf⟩
  rw [mem_range'_1] at hv
  have hle : alignedSize length / pageSize % 2 ^ 32 ≤ alignedSize length / pageSize := Nat.mod_le _ _
  split at hv <;> omega

theorem sim_mmap {frames : List Nat} (h : SysInv base s)
    (hf : s.find pid = some t) (ho : s.shms[object]? = some frames) :
    Simulates base s (.mmap pid object length, .mapped (sysMmap s t frames length).2)
      (sysMmap s t frames length).1 := by
  obtain rfl := (find_some hf).2
  have hspace := abs_spaces hf
  have hobject : (abs s).shms[object]? = some frames := ho
  have hok := h.tasks t (find_some hf).1
  obtain ⟨hfree, haddr⟩ := findFreeAddr_within (alignedSize length) hok.free
  simp only [sysMmap]
  by_cases hlen : frames.length = 0
  · simp only [if_pos hlen]
    refine ⟨h, ?_⟩
    simp only [Eager.next, hspace, Option.bind_some, hobject, Option.map_some, Eager.mmap, hlen, true_or, if_true]
    exact congrArg some (Eager.set_self hspace)
  · simp only [if_neg hlen]
    generalize hfind : findFreeAddr t.vmFree (alignedSize length) = res at hfree haddr
    obtain ⟨addr, vmFree⟩ := res
    by_cases hzero : addr = 0
    · simp only [if_pos hzero]
      refine ⟨h, ?_⟩
      simp only [Eager.next, hspace, Option.bind_some, hobject, Option.map_some, Eager.mmap, spaceOf,
        hfind, hzero, or_true, if_true]
      exact congrArg some (Eager.set_self hspace)
    · simp only [if_neg hzero]
      have hw := haddr hzero
      have hkern : ∀ p ∈ mmapPairs addr length frames,
          p.1 < pageCount 3 ∧ p.2 ∈ stackFrames t ++ (s.restStacks t.pid ++ s.pool) := by
        intro p hp
        obtain ⟨hv, hmem⟩ := mmapPairs_ok hw p hp
        refine ⟨hv, mem_focus_of_pool (pool_of_shm ?_)⟩
        exact mem_flatten.mpr ⟨frames, mem_of_getElem? ho, hmem⟩
      obtain ⟨hi, hs⟩ := (h.focus hf).mapObject hkern
      generalize mmapLoop t.pml4 (mmapPairs addr length frames) s.machine = loop at hi hs
      obtain ⟨flags, m₁⟩ := loop
      refine ⟨h.put { t with
        vmFree := vmFree
        vmAlloc := vmmAddAllocatedMem t.vmAlloc addr (alignedSize length) vmmFlagShm }
        rfl rfl rfl ⟨hfree, ?_⟩ rfl hi, ?_⟩
      · exact forall_mem_cons.mpr ⟨⟨hw, dvd_alignedSize _, isShm_of_flag⟩, hok.alloc⟩
      · simp only [Eager.next, hspace, Option.bind_some, hobject, Option.map_some, Eager.mmap, spaceOf,
          hfind, hlen, hzero, or_self, if_false]
        exact congrArg some (abs_set_task (({ s with machine := m₁ } : System).put { t with
          vmFree := vmFree
          vmAlloc := vmmAddAllocatedMem t.vmAlloc addr (alignedSize length) vmmFlagShm }) { t with
          vmFree := vmFree
          vmAlloc := vmmAddAllocatedMem t.vmAlloc addr (alignedSize length) vmmFlagShm }
          hs rfl rfl rfl rfl).symm

/-- `munmap` clears the entries of a region of shared memory without a look at them. The heap may
have grown into the region, so this is required of the step: none of the pages is private. -/
def MunmapOk (s : System) : Action → Prop
  | .munmap pid addr => ∀ t, s.find pid = some t → ∀ node rest,
      vmmPopAllocatedMem addr t.vmAlloc = some (node, rest) →
      NoPrivate (pagesOf s.machine.mem t.pml4) (regionPages addr node.size)
  | _ => True

theorem sim_munmap (h : SysInv base s) (hf : s.find pid = some t) (hm : MunmapOk s (.munmap pid addr)) :
    Simulates base s (.munmap pid addr, .ok (vmmUnmapUser s t addr).1) (vmmUnmapUser s t addr).2 := by
  obtain rfl := (find_some hf).2
  have hspace := abs_spaces hf
  have hok := h.tasks t (find_some hf).1
  cases hpop : vmmPopAllocatedMem addr t.vmAlloc with
  | none =>
    simp only [vmmUnmapUser, hpop]
    refine ⟨h, ?_⟩
    simp only [Eager.next, hspace, Option.map_some, Eager.munmap, spaceOf, hpop]
    exact congrArg some (Eager.set_self hspace)
  | some res =>
    obtain ⟨node, vmAlloc⟩ := res
    obtain ⟨hnode, rfl, hsub⟩ := vmmPopAllocatedMem_mem hpop
    obtain ⟨hw, hd, hshm⟩ := hok.alloc node hnode
    have hsize := alignedSize_eq hw hd
    have hpages : ∀ v ∈ regionPages node.addr node.size, v < pageCount 3 := by
      intro v hv
      rw [regionPages, hsize, mem_range'_1] at hv
      exact region_pages hw hv.2
    obtain ⟨hi, hs⟩ := (h.focus hf).unmapRegion hpages (hm t hf node vmAlloc hpop)
    simp only [vmmUnmapUser, hpop, hshm]
    generalize (regionPages node.addr node.size).foldl (unmapOne t.pml4 true) s.machine = m₁ at hi hs
    refine ⟨h.put { t with
      vmFree := vmmAddFreeRegion t.vmFree node.addr (alignedSize node.size)
      vmAlloc := vmAlloc } rfl rfl rfl ⟨?_, fun a ha => hok.alloc a (hsub a ha)⟩ rfl hi, ?_⟩
    · rw [hsize]
      exact vmmAddFreeRegion_within hok.free hw
    · simp only [Eager.next, hspace, Option.map_some, Eager.munmap, spaceOf, hpop]
      exact congrArg some (abs_set_task (({ s with machine := m₁ } : System).put { t with
        vmFree := vmmAddFreeRegion t.vmFree node.addr (alignedSize node.size)
        vmAlloc := vmAlloc }) { t with
        vmFree := vmmAddFreeRegion t.vmFree node.addr (alignedSize node.size)
        vmAlloc := vmAlloc } hs rfl rfl rfl rfl).symm

/-- The shared pages that tasks see are pages of the objects. -/
def Eager.Objects (e : Eager) : Prop :=
  ∀ pid space, e.spaces pid = some space → ∀ v f, space.pages v = .shm f → f ∈ e.shms.flatten

theorem mmuEntry_eq : mmuEntry m pml4 page = leaf m.mem 3 pml4 page := by
  simp only [mmuEntry, vmmWalkToPte, walkToPte_false]
  cases hslot : slot m.mem 3 pml4 page with
  | none => rw [leaf_of_slot_none hslot]
  | some place => rw [leaf_of_slot hslot]

theorem sim_write {b : Byte} (h : SysInv base s) (ho : (abs s).Objects)
    (hf : s.find pid = some t) (hv : addr / pageSize < pageCount 3)
    (hok : accessOk (leaf s.machine.mem 3 t.pml4 (addr / pageSize)) true isUser = true) :
    Simulates base s (.access pid addr (some b) isUser, .hit)
      { s with machine := storeByte s.machine (frameOf
          (leaf s.machine.mem 3 t.pml4 (addr / pageSize))) (addr % pageSize) b } := by
  have hspace := abs_spaces hf
  have hi := h.focus hf
  obtain ⟨hp, hw⟩ : present (leaf s.machine.mem 3 t.pml4 (addr / pageSize)) = true ∧
      writable (leaf s.machine.mem 3 t.pml4 (addr / pageSize)) = true := by
    simp only [accessOk, Bool.and_eq_true, Bool.not_true, Bool.false_or] at hok
    exact hok.1
  have hview : pagesOf s.machine.mem t.pml4 (addr / pageSize) =
      viewOf s.machine.mem (leaf s.machine.mem 3 t.pml4 (addr / pageSize)) := if_pos hv
  cases hs : shared (leaf s.machine.mem 3 t.pml4 (addr / pageSize)) with
  | false =>
    have hmaps : Maps (leaf s.machine.mem 3 t.pml4 (addr / pageSize))
        (frameOf (leaf s.machine.mem 3 t.pml4 (addr / pageSize))) := by simp [Maps, isPrivate, hp, hs]
    obtain ⟨hi', hseen⟩ := hi.rewritePrivate (storeByte s.machine _ (addr % pageSize) b) hv hmaps hw rfl
      fun g hg => storeByte_keeps hg
    rw [pageBytes_storeByte] at hseen
    refine ⟨h.keep hf rfl hi', ?_⟩
    rw [viewOf, hp, hs] at hview
    simp only [Eager.next, hspace, Option.bind_some, Eager.hit, spaceOf, hview, if_true,
      Bool.false_eq_true, if_false]
    exact congrArg some (abs_set_pages { s with machine := storeByte s.machine _ (addr % pageSize) b }
      hf rfl rfl hseen.seenIn).symm
  | true =>
    rw [viewOf, hp, hs] at hview
    have hobject := ho pid _ hspace (addr / pageSize) _ hview
    obtain ⟨hi', hpages⟩ := hi.rewriteShared (storeByte s.machine _ (addr % pageSize) b)
      (mem_focus_of_pool (pool_of_shm hobject)) rfl fun g hg => storeByte_keeps hg
    refine ⟨h.keep hf rfl hi', ?_⟩
    simp only [Eager.next, hspace, Option.bind_some, Eager.hit, spaceOf, hview, if_true, Option.some.injEq]
    generalize frameOf (leaf s.machine.mem 3 t.pml4 (addr / pageSize)) = f at hobject hpages
    refine Eager.ext ?_ rfl ?_
    · funext q
      show (s.find q).map (spaceOf s.machine) = (s.find q).map _
      cases hq : s.find q with
      | none => rfl
      | some u =>
        have hmem := (roots_perm h hf).mem_iff.mp (mem_map_of_mem (find_some hq).1)
        simp only [Option.map_some, spaceOf, hpages _ hmem]
    · funext g
      simp only [Function.update_apply]
      by_cases hg : g = f
      · subst hg
        have hobj : g ∈ s.shms.flatten := hobject
        simp only [abs, hobj, if_true, Option.map_some, pageBytes_storeByte]
      · simp only [abs, hg, if_false, storeByte_keeps hg]

/-- The ways in which a page fault on user memory can end. -/
inductive FaultEnd (base : Nat → Bool) (m : Machine) (kern : List Nat) (r : Nat) (rest : List Nat)
    (page : Nat) : Handled × Machine → Prop
  | cow {m' : Machine} (hi : Inv base m' kern (r :: rest)) (hu : Unseen m m' kern (r :: rest))
      (hp : isPrivate (leaf m'.mem 3 r page) = true) (hw : writable (leaf m'.mem 3 r page) = true) :
      FaultEnd base m kern r rest page (.cow, m')
  | grown {f : Nat} {m' : Machine} (hi : Inv base m' kern (r :: rest))
      (hs : SeenAt m m' kern r rest page zeroPage) :
      FaultEnd base m kern r rest page (.stack f true, m')
  | lost {f : Nat} {m' : Machine} (hi : Inv base m' (f :: kern) (r :: rest))
      (hu : Unseen m m' kern (r :: rest)) : FaultEnd base m kern r rest page (.stack f false, m')
  | kill : FaultEnd base m kern r rest page (.kill, m)
  | panic : FaultEnd base m kern r rest page (.panic, m)

theorem not_writable_of_fault {e : Word} (hok : accessOk e true isUser = false)
    (hp : present e = true) (hu : user e = true) : writable e = false := by
  simpa [accessOk, hp, hu] using hok

theorem Inv.exceptionHandler {kern rest : List Nat} {write isUser : Bool}
    (hi : Inv base m kern (r :: rest)) (hv : addr / pageSize < pageCount 3)
    (hok : accessOk (leaf m.mem 3 r (addr / pageSize)) write isUser = false) :
    FaultEnd base m kern r rest (addr / pageSize)
      (exceptionHandler m r addr (present (leaf m.mem 3 r (addr / pageSize))) write isUser) := by
  cases hp : present (leaf m.mem 3 r (addr / pageSize)) with
  | true =>
    have hu := hi.userOk r mem_cons_self _ hv hp
    cases write with
    | true =>
      have hw := not_writable_of_fault hok hp hu
      have hs : shared (leaf m.mem 3 r (addr / pageSize)) = false := by
        by_contra hs
        have := (hi.sharedOk r mem_cons_self _ hv hp (by simpa using hs)).2
        simp [this] at hw
      have hmaps : Maps (leaf m.mem 3 r (addr / pageSize))
          (frameOf (leaf m.mem 3 r (addr / pageSize))) := by simp [Maps, isPrivate, hp, hs]
      rcases hi.handleCow hv hmaps with hrun | ⟨m', hrun, hi', hunseen, hpriv, hwr⟩
      · simp only [NyanOS.Memory.exceptionHandler, hrun, Bool.and_self, if_true, Bool.false_eq_true, if_false]
        exact .kill
      · simp only [NyanOS.Memory.exceptionHandler, hrun, Bool.and_self, if_true]
        exact .cow hi' hunseen hpriv hwr
    | false => simp [accessOk, hp, hu] at hok
  | false =>
    cases isUser with
    | false =>
      simp only [NyanOS.Memory.exceptionHandler, Bool.and_false, Bool.false_and, Bool.false_eq_true, if_false]
      exact .panic
    | true =>
      simp only [NyanOS.Memory.exceptionHandler, Bool.and_false, Bool.not_false, Bool.and_self,
        Bool.false_eq_true, if_false, if_true]
      split
      · have hz := hi.newPage hv
        generalize mapZeroPage m r (addr / pageSize) = res at hz
        cases hz with
        | full =>
          simp only [if_true]
          exact .kill
        | mapped hne hi' hs _ _ =>
          simp only [hne, if_false]
          exact .grown hi' hs
        | noTable hne hi' hu =>
          simp only [hne, if_false]
          exact .lost hi' hu
      · exact .kill

theorem sim_access {write : Option Byte} (h : SysInv base s) (ho : (abs s).Objects)
    (hf : s.find pid = some t) (hv : addr / pageSize < pageCount 3)
    (hrun : access s t addr write isUser = some (s', o)) : Simulates base s (.access pid addr write isUser, o) s' := by
  have hspace := abs_spaces hf
  simp only [access, mmuEntry_eq] at hrun
  cases hok : accessOk (leaf s.machine.mem 3 t.pml4 (addr / pageSize)) write.isSome isUser with
  | true =>
    rw [if_pos hok] at hrun
    cases write with
    | none =>
      obtain ⟨rfl, rfl⟩ := mk.inj (Option.some.inj hrun)
      refine ⟨h, ?_⟩
      simp only [Eager.next, hspace, Option.bind_some, Eager.hit]
    | some b =>
      obtain ⟨rfl, rfl⟩ := mk.inj (Option.some.inj hrun)
      exact sim_write h ho hf hv hok
  | false =>
    rw [if_neg (by simp [hok])] at hrun
    have hend := (h.focus hf).exceptionHandler hv hok
    generalize exceptionHandler s.machine t.pml4 addr
      (present (leaf s.machine.mem 3 t.pml4 (addr / pageSize))) write.isSome isUser = res at hrun hend
    cases hend with
    | @cow m₁ hi hu _ _ =>
      obtain ⟨rfl, rfl⟩ := mk.inj (Option.some.inj hrun)
      refine ⟨h.keep hf rfl hi, ?_⟩
      simp only [Eager.next, hspace, Option.map_some]
      refine congrArg some (abs_same_focus { s with machine := m₁ } h hf (find_of_tasks rfl) ?_ rfl).symm
      exact hu.mono (fun g hg => mem_focus_of_pool hg) fun _ hr => hr
    | @grown _ m₁ hi hs =>
      obtain ⟨rfl, rfl⟩ := mk.inj (Option.some.inj hrun)
      refine ⟨h.keep hf rfl hi, ?_⟩
      simp only [Eager.next, hspace, Option.map_some]
      exact congrArg some (abs_set_pages { s with machine := m₁ } hf rfl rfl hs.seenIn).symm
    | @lost f m₁ hi hu =>
      obtain ⟨rfl, rfl⟩ := mk.inj (Option.some.inj hrun)
      refine ⟨h.keep hf rfl (hi.perm (List.Perm.refl _) (lose_perm [f] _ _ _ _ _)), ?_⟩
      simp only [Eager.next, hspace, Option.map_some]
      refine congrArg some (abs_same_focus { s with machine := m₁, lost := f :: s.lost } h hf
        (find_of_tasks rfl) ?_ rfl).symm
      exact hu.mono (fun g hg => mem_focus_of_pool hg) fun _ hr => hr
    | kill =>
      obtain ⟨rfl, rfl⟩ := mk.inj (Option.some.inj hrun)
      refine ⟨h, ?_⟩
      simp only [Eager.next, hspace, Option.map_some]
    | panic => simp at hrun

end NyanOS.Memory
