import NyanOS.Memory.Cow

/-!
# Reference counts and frames in use

In every run in which no page table is missing, the count of a frame mapped privately is the number
of its private entries, and a frame that is in use has an owner.
-/

namespace NyanOS.Memory

open Lib List Option Prod

variable {base : Nat → Bool} {s s₀ s' : System} {t : Task} {pid r v pml4 page addr newSize length : Nat} {l : Action × Outcome}
  {ls : List (Action × Outcome)} {m : Machine} {kernPml4 f : Nat}

/-- The number of private user entries for a frame, over all address spaces. -/
def privateRefs (s : System) (frame : Nat) : Nat := totalRefs s.machine.mem s.roots frame

def InMmapWindow (page : Nat) : Prop :=
  userMmapStart ≤ page * pageSize ∧ page * pageSize < userMmapStart + userMmapSize

/-- Private pages are outside the window of `sys_mmap`. -/
def PrivateOutside (s : System) : Prop :=
  ∀ t ∈ s.tasks, ∀ page < pageCount 3, isPrivate (leaf s.machine.mem 3 t.pml4 page) = true →
    ¬ InMmapWindow page

/-- There was memory for the table of every page that got a frame. -/
def Complete : Outcome → Prop
  | .mapped flags => false ∉ flags
  | .fault (.stack _ mapped) => mapped = true
  | _ => True

def AccountedRun (s : System) (ls : List (Action × Outcome)) (s' : System) : Prop :=
  Run (guarded step fun s l => PrivateOutside s ∧ Complete l.2) s ls s'

/-- The uses of a frame other than as a private page. -/
def Owned (s : System) (frame : Nat) : Prop :=
  frame ∈ allTables s.machine.mem s.roots ∨ frame ∈ s.tasks.flatMap stackFrames ∨
    frame ∈ s.shms.flatten ∨ frame ∈ s.held

theorem isPrivate_of_priv {bytes : Nat → Byte} (h : pagesOf m.mem r v = .priv bytes) :
    v < pageCount 3 ∧ isPrivate (leaf m.mem 3 r v) = true := by
  by_contra hnot
  by_cases hv : v < pageCount 3
  · cases hp : isPrivate (leaf m.mem 3 r v) with
    | true => exact hnot ⟨hv, hp⟩
    | false =>
      simp only [pagesOf, if_pos hv, viewOf] at h
      simp only [isPrivate, Bool.and_eq_false_iff, Bool.not_eq_eq_eq_not, Bool.not_false] at hp
      rcases hp with hp | hp
      · simp [hp] at h
      · rw [hp] at h
        split at h <;> simp at h
  · simp [pagesOf, hv] at h

theorem PrivateOutside.munmapOk (h : SysInv base s) (ho : PrivateOutside s) (a : Action) : MunmapOk s a := by
  cases a with
  | munmap pid addr =>
    intro t hf node rest hpop v hv bytes hview
    obtain ⟨ht, -⟩ := find_some hf
    obtain ⟨hnode, rfl, -⟩ := vmmPopAllocatedMem_mem hpop
    obtain ⟨hw, hd, -⟩ := (h.tasks t ht).alloc node hnode
    obtain ⟨hlt, hpriv⟩ := isPrivate_of_priv hview
    refine ho t ht v hlt hpriv ?_
    rw [regionPages, alignedSize_eq hw hd, mem_range'_1] at hv
    simp only [Within, Extent.stop, userMmapStart, userMmapSize] at hw
    simp only [pageSize] at hv
    simp only [InMmapWindow, userMmapStart, userMmapSize, pageSize]
    omega
  | _ => trivial

theorem sbrkLoop_lost {pages : List Nat} (h : false ∉ (sbrkLoop pml4 pages m).1) :
    (sbrkLoop pml4 pages m).2.1 = [] := by
  induction pages generalizing m with
  | nil => rfl
  | cons page pages ih =>
    simp only [sbrkLoop] at h ⊢
    split
    · rfl
    rename_i phys mapped m₁ hne hzero
    simp only [hzero, mem_cons, not_or] at h
    cases mapped with
    | false => exact absurd rfl h.1
    | true => exact ih h.2

theorem loadPage_lost {content : Nat → Word}
    (hc : false ∉ (loadPage s t page content).2) : (loadPage s t page content).1.lost = s.lost := by
  unfold loadPage at hc ⊢
  split
  · rfl
  · rfl
  · simp_all

theorem sysSbrk_lost {incr : Int} (hc : false ∉ (sysSbrk s t incr).2) : (sysSbrk s t incr).1.lost = s.lost := by
  unfold sysSbrk at hc ⊢
  cases hp : sbrkPages t.heapEnd incr with
  | none => rfl
  | some r =>
    simp only [hp] at hc ⊢
    have hflags : false ∉ (sbrkLoop t.pml4 r.2 s.machine).1 := by
      split at hc <;> exact hc
    rw [sbrkLoop_lost hflags]
    split <;> rfl

theorem access_lost {write : Option Byte} {isUser : Bool} {o : Outcome}
    (hrun : access s t addr write isUser = some (s', o)) (hc : Complete o) : s'.lost = s.lost := by
  simp only [access] at hrun
  generalize exceptionHandler s.machine t.pml4 addr
    (present (mmuEntry s.machine t.pml4 (addr / pageSize))) write.isSome isUser = res at hrun
  by_cases hok : accessOk (mmuEntry s.machine t.pml4 (addr / pageSize)) write.isSome isUser = true
  · rw [if_pos hok] at hrun
    cases write with
    | none =>
      obtain ⟨rfl, -⟩ := mk.inj (some.inj hrun)
      rfl
    | some b =>
      obtain ⟨rfl, -⟩ := mk.inj (some.inj hrun)
      rfl
  · rw [if_neg hok] at hrun
    split at hrun
    · cases hrun
    · obtain ⟨-, rfl⟩ := mk.inj (some.inj hrun)
      exact absurd hc Bool.false_ne_true
    · obtain ⟨rfl, -⟩ := mk.inj (some.inj hrun)
      rfl

theorem taskFactoryCreate_lost {queue : Bool} : (taskFactoryCreate s pid queue).2.lost = s.lost := by
  unfold taskFactoryCreate
  split
  split <;> rfl

theorem taskFactoryFork_lost {queue : Bool} : (taskFactoryFork s t pid queue).2.lost = s.lost := by
  unfold taskFactoryFork
  dsimp only
  split
  · rfl
  split
  · rfl
  · split <;> rfl

theorem shmSetSize_lost : (shmSetSize s newSize).1.lost = s.lost := by
  unfold shmSetSize
  split <;> rfl

theorem sysMmap_lost {frames : List Nat} : (sysMmap s t frames length).1.lost = s.lost := by
  unfold sysMmap
  dsimp only
  split
  · rfl
  · split <;> rfl

theorem vmmUnmapUser_lost : (vmmUnmapUser s t addr).2.lost = s.lost := by
  unfold vmmUnmapUser
  split <;> rfl

theorem lost_step (hstep : step s l s') (hc : Complete l.2) : s'.lost = s.lost := by
  obtain ⟨a, o⟩ := l
  simp only [step] at hstep
  cases a with
  | create pid queue =>
    obtain ⟨-, heq⟩ := ite_none_right_eq_some.mp hstep
    obtain ⟨rfl, -⟩ := mk.inj (some.inj heq)
    exact taskFactoryCreate_lost
  | load pid page content =>
    obtain ⟨t, -, hstep⟩ := bind_eq_some_iff.mp hstep
    obtain ⟨-, heq⟩ := ite_none_right_eq_some.mp hstep
    obtain ⟨rfl, rfl⟩ := mk.inj (some.inj heq)
    exact loadPage_lost hc
  | sbrk pid incr =>
    obtain ⟨t, -, heq⟩ := map_eq_some_iff.mp hstep
    cases heq
    exact sysSbrk_lost hc
  | shmSetSize newSize =>
    obtain ⟨rfl, -⟩ := mk.inj (some.inj hstep)
    exact shmSetSize_lost
  | mmap pid object length =>
    obtain ⟨t, -, hstep⟩ := bind_eq_some_iff.mp hstep
    obtain ⟨frames, -, heq⟩ := map_eq_some_iff.mp hstep
    obtain ⟨rfl, -⟩ := mk.inj heq
    exact sysMmap_lost
  | munmap pid addr =>
    obtain ⟨t, -, heq⟩ := map_eq_some_iff.mp hstep
    obtain ⟨rfl, -⟩ := mk.inj heq
    exact vmmUnmapUser_lost
  | fork parent pid queue =>
    obtain ⟨t, -, hstep⟩ := bind_eq_some_iff.mp hstep
    obtain ⟨-, heq⟩ := ite_none_right_eq_some.mp hstep
    obtain ⟨rfl, -⟩ := mk.inj (some.inj heq)
    exact taskFactoryFork_lost
  | access pid addr write isUser =>
    obtain ⟨t, -, hstep⟩ := bind_eq_some_iff.mp hstep
    obtain ⟨-, hrun⟩ := ite_none_right_eq_some.mp hstep
    exact access_lost hrun hc
  | destroy pid =>
    obtain ⟨t, -, heq⟩ := map_eq_some_iff.mp hstep
    obtain ⟨rfl, -⟩ := mk.inj heq
    rfl
  | kernelAlloc =>
    simp only [next, some.injEq, mk.injEq] at hstep
    obtain ⟨rfl, -⟩ := hstep
    split <;> rfl
  | kernelFree frame =>
    obtain ⟨-, heq⟩ := ite_none_right_eq_some.mp hstep
    obtain ⟨rfl, -⟩ := mk.inj (some.inj heq)
    rfl

/-- What holds in every state of such a run. -/
structure Accounted (base : Nat → Bool) (s : System) : Prop extends Reached base s where
  lost : s.lost = []

section
variable (h : Accounted base s)
include h

theorem Accounted.of_step
    (hstep : guarded step (fun s l => PrivateOutside s ∧ Complete l.2) s l s') : Accounted base s' := by
  obtain ⟨⟨hout, hc⟩, hstep⟩ := hstep
  have hreach := (h.toReached.of_step ⟨hout.munmapOk h.inv l.1, hstep⟩).1
  exact ⟨hreach, (lost_step hstep hc).trans h.lost⟩

theorem Accounted.of_run (hrun : AccountedRun s ls s') : Accounted base s' :=
  hrun.invariant (fun _ _ _ hstep hs => hs.of_step hstep) h

theorem Accounted.mapped (hf : 0 < privateRefs s f) :
    s.machine.pmm.refCounts f = privateRefs s f ∧ s.machine.pmm.bitmap f = true ∧ base f = false := by
  obtain ⟨r, hr, v, hv, hmaps⟩ := totalRefs_pos.mp hf
  obtain ⟨hall, -, hcount, hbase⟩ := h.inv.space.mapped r hr v hv f hmaps
  exact ⟨hcount, hall.bit, hbase⟩

/-- A frame in use that the kernel did not have from the start is mapped or has another owner. -/
theorem Accounted.free (hbase : base f = false) (hf : privateRefs s f = 0)
    (howned : ¬ Owned s f) : s.machine.pmm.bitmap f = false := by
  by_contra hbit
  rcases h.inv.space.taken f (by simpa using hbit) with hb | hmem | hpos
  · rw [hbase] at hb
    cases hb
  · rw [System.kernFrames, System.pool, h.lost, append_nil] at hmem
    simp only [mem_append] at hmem
    exact howned hmem
  · exact hpos.ne' hf

end

theorem Accounted.destroy {o : Outcome} (h : Accounted base s)
    (hstep : step s (.destroy pid, o) s') (h' : Accounted base s') (hf : 0 < privateRefs s f)
    (hf' : privateRefs s' f = 0) : s'.machine.pmm.bitmap f = false := by
  obtain ⟨r, hr, v, hv, hmaps⟩ := totalRefs_pos.mp hf
  obtain ⟨-, hnot, -, hbase⟩ := h.inv.space.mapped r hr v hv f hmaps
  refine h'.free hbase hf' ?_
  obtain ⟨t, -, heq⟩ := map_eq_some_iff.mp hstep
  obtain ⟨rfl, -⟩ := mk.inj heq
  have hsub : ∀ u ∈ s.drop pid, u ∈ s.tasks := fun u hu => (mem_drop.mp hu).1
  have hmem : (schedDestroyTask s.machine t.kernStk t.pml4).mem = s.machine.mem := by
    unfold schedDestroyTask
    split <;> split <;> rfl
  rintro (hown | hown | hown | hown)
  · rw [hmem] at hown
    obtain ⟨r, hr, hg⟩ := mem_allTables.mp hown
    obtain ⟨u, hu, rfl⟩ := mem_map.mp hr
    refine hnot (mem_append_left _ (mem_allTables.mpr ⟨u.pml4, ?_, hg⟩))
    exact mem_map_of_mem (hsub u hu)
  · obtain ⟨u, hu, hg⟩ := mem_flatMap.mp hown
    refine hnot (mem_append_right _ (mem_append_left _ ?_))
    exact mem_flatMap.mpr ⟨u, hsub u hu, hg⟩
  · exact hnot (mem_append_right _ (mem_append_right _ (pool_of_shm hown)))
  · refine hnot (mem_append_right _ (mem_append_right _ ?_))
    exact mem_append_right _ (mem_append_left _ hown)

/-- Private pages are created outside the window of `sys_mmap`. -/
def CreatesOutside (s : System) : Action → Prop
  | .load _ page _ => ¬ InMmapWindow page
  | .sbrk pid incr => ∀ t, s.find pid = some t → ∀ nextBrk pages,
      sbrkPages t.heapEnd incr = some (nextBrk, pages) → ∀ page ∈ pages, ¬ InMmapWindow page
  | _ => True

theorem privateOutside_iff (h : SysInv base s) : PrivateOutside s ↔
    (abs s).All fun v view => ∀ bytes, view = .priv bytes → ¬ InMmapWindow v := by
  constructor
  · intro hout pid space hsp v bytes hview
    obtain ⟨t, hf, rfl⟩ := map_eq_some_iff.mp hsp
    obtain ⟨hv, hpriv⟩ := isPrivate_of_priv hview
    exact hout t (find_some hf).1 v hv hpriv
  · intro hall t ht v hv hpriv
    refine hall t.pid _ (abs_spaces (find_of_mem h ht)) v
      (pageBytes (s.machine.mem (frameOf (leaf s.machine.mem 3 t.pml4 v)))) ?_
    simp only [isPrivate, Bool.and_eq_true, Bool.not_eq_true'] at hpriv
    simp [spaceOf, pagesOf, viewOf, hv, hpriv]

theorem exceptionHandler_stack {prot write isUser : Bool} {mapped : Bool}
    (h : (exceptionHandler m pml4 addr prot write isUser).1 = .stack f mapped) : addr < userStackTop := by
  unfold exceptionHandler at h
  split at h
  · dsimp only at h
    split at h <;> cases h
  split at h
  · split at h
    · next hrange => exact hrange.2
    · cases h
  · dsimp only at h
    split at h <;> cases h

theorem access_stack {write : Option Byte} {isUser : Bool}
    (hrun : access s t addr write isUser = some (s', .fault (.stack f true))) : ¬ InMmapWindow (addr / pageSize) := by
  simp only [access] at hrun
  have hlow : addr < userStackTop := by
    generalize hres : exceptionHandler s.machine t.pml4 addr
      (present (mmuEntry s.machine t.pml4 (addr / pageSize))) write.isSome isUser = res at hrun
    split at hrun
    · cases write <;> simp at hrun
    split at hrun
    · cases hrun
    · simp at hrun
    obtain ⟨-, ho⟩ := mk.inj (some.inj hrun)
    obtain rfl := Outcome.fault.inj ho
    exact exceptionHandler_stack (congrArg fst hres)
  simp only [InMmapWindow, userMmapStart, userMmapSize, userStackTop, pageSize] at hlow ⊢
  omega

theorem PrivateOutside.of_step (h : Reached base s) (hout : PrivateOutside s)
    (hnew : CreatesOutside s l.1) (hstep : step s l s') : PrivateOutside s' := by
  obtain ⟨h', hn⟩ := h.of_step ⟨hout.munmapOk h.inv l.1, hstep⟩
  rw [privateOutside_iff h'.inv]
  rw [privateOutside_iff h.inv] at hout
  refine hout.next (fun _ _ hv => by cases hv) (fun _ _ _ hv _ _ => hv _ rfl) ?_ hn
  intro page view hadd bytes hview
  subst hview
  obtain ⟨a, o⟩ := l
  cases a with
  | load pid page content =>
    obtain ⟨rfl, -⟩ := hadd
    exact hnew
  | sbrk pid incr =>
    obtain ⟨-, space, nextBrk, pages, hsp, hpages, hmem⟩ := hadd
    obtain ⟨t, hf, rfl⟩ := map_eq_some_iff.mp hsp
    exact hnew t hf nextBrk pages hpages page hmem
  | mmap pid object length =>
    obtain ⟨_, _, -, -, hview⟩ := hadd
    cases hview
  | access pid addr write isUser =>
    unfold Eager.Adds at hadd
    split at hadd <;> simp_all only [mk.injEq, reduceCtorEq, false_and]
    rename_i heq
    obtain ⟨⟨rfl, rfl, rfl, rfl⟩, rfl⟩ := heq
    obtain ⟨t, -, hstep⟩ := bind_eq_some_iff.mp hstep
    exact access_stack (ite_none_right_eq_some.mp hstep).2
  | create pid queue => exact hadd.elim
  | shmSetSize newSize => exact hadd.elim
  | munmap pid addr => exact hadd.elim
  | fork parent pid queue => exact hadd.elim
  | destroy pid => exact hadd.elim
  | kernelAlloc => exact hadd.elim
  | kernelFree frame => exact hadd.elim

/-- In every state of a run from boot the counts are exact, and a frame that was mapped privately
and is no longer so is free, unless it has got another owner since. If the last task that maps it
is destroyed, it is free at once. -/
theorem refCounts_exact (hm : m.pmm.Ok) (hrun : AccountedRun (System.boot m kernPml4) ls s) :
    (∀ f, 0 < privateRefs s f → s.machine.pmm.refCounts f = privateRefs s f ∧ s.machine.pmm.bitmap f = true) ∧
    (∀ ls' s', AccountedRun s ls' s' → ∀ f, 0 < privateRefs s f → privateRefs s' f = 0 →
      ¬ Owned s' f → s'.machine.pmm.bitmap f = false) ∧
    (∀ pid o s', step s (.destroy pid, o) s' → PrivateOutside s → ∀ f, 0 < privateRefs s f →
      privateRefs s' f = 0 → s'.machine.pmm.bitmap f = false) := by
  have hboot : Accounted m.pmm.bitmap (System.boot m kernPml4) := ⟨reached_boot hm, rfl⟩
  have h := hboot.of_run hrun
  refine ⟨?_, ?_, ?_⟩
  · intro f hf
    obtain ⟨hcount, hbit, -⟩ := h.mapped hf
    exact ⟨hcount, hbit⟩
  · intro ls' s' hrun' f hf hzero howned
    exact (h.of_run hrun').free (h.mapped hf).2.2 hzero howned
  · intro pid o s' hstep hout f hf hzero
    have hc : Complete o := by
      obtain ⟨t, -, heq⟩ := map_eq_some_iff.mp hstep
      obtain ⟨-, rfl⟩ := mk.inj heq
      trivial
    exact h.destroy hstep (h.of_step (l := (.destroy pid, o)) ⟨⟨hout, hc⟩, hstep⟩) hf hzero

theorem accountedRun_of_exec (h : Accounted base s) (hout : PrivateOutside s)
    (hls : ∀ l ∈ ls, (∀ u, CreatesOutside u l.1) ∧ Complete l.2) (hexec : exec stepTo s ls = some s') :
    AccountedRun s ls s' := by
  induction ls generalizing s with
  | nil =>
    cases hexec
    exact .refl
  | cons l ls ih =>
    obtain ⟨u, hu, hrest⟩ := bind_eq_some_iff.mp hexec
    obtain ⟨⟨hnew, hc⟩, hls⟩ := forall_mem_cons.mp hls
    have hstep := stepTo_eq_some.mp hu
    have hguard : guarded step (fun s l => PrivateOutside s ∧ Complete l.2) s l u := ⟨⟨hout, hc⟩, hstep⟩
    exact .stepL hguard (ih (h.of_step hguard) (hout.of_step h.toReached (hnew s) hstep) hls hrest)

set_option maxRecDepth 100000 in
theorem refCounts_exact_fork : ∃ s, AccountedRun (System.boot smallMachine 0) (forkRun.take 4) s ∧
      privateRefs s 258 = 2 ∧ s.machine.pmm.bitmap 258 = true := by
  have hexec : ((exec stepTo (System.boot smallMachine 0) (forkRun.take 4)).map fun s =>
      (s.roots, s.machine.pmm.refCounts 258,
        s.roots.map fun r => decide (Maps (leaf s.machine.mem 3 r 0xFFF) 258))) =
      some ([262, 256], 2, [true, true]) := by decide +kernel
  obtain ⟨s, hs, hvals⟩ := map_eq_some_iff.mp hexec
  obtain ⟨hroots, hcount, hmaps⟩ : s.roots = [262, 256] ∧ s.machine.pmm.refCounts 258 = 2 ∧ _ := by
    simpa only [mk.injEq] using hvals
  have hrun : AccountedRun (System.boot smallMachine 0) (forkRun.take 4) s := by
    refine accountedRun_of_exec ⟨reached_boot smallMachine_ok, rfl⟩ (fun _ ht => absurd ht not_mem_nil) ?_ hs
    intro l hl
    fin_cases hl <;> exact ⟨fun _ => trivial, by simp [Complete]⟩
  have hboth : Maps (leaf s.machine.mem 3 262 0xFFF) 258 ∧ Maps (leaf s.machine.mem 3 256 0xFFF) 258 := by
    simpa [hroots] using hmaps
  have hpos : 0 < privateRefs s 258 :=
    totalRefs_pos.mpr ⟨256, by simp [hroots], 0xFFF, by decide, hboth.2⟩
  obtain ⟨hexact, -, -⟩ := refCounts_exact smallMachine_ok hrun
  obtain ⟨hrefs, hbit⟩ := hexact 258 hpos
  exact ⟨s, hrun, hrefs.symm.trans hcount, hbit⟩

/-- The frames in use are those from before the first task, the tables of the address spaces, what the kernel holds, and the
private pages. A private page that can be written has its frame for itself. -/
theorem frames_exact (hm : m.pmm.Ok) (hrun : SystemRun (System.boot m kernPml4) ls s) :
    (∀ f, s.machine.pmm.bitmap f = true ↔ m.pmm.bitmap f = true ∨
      f ∈ allTables s.machine.mem s.roots ++ s.kernFrames ∨ 0 < privateRefs s f) ∧
    ∀ r ∈ s.roots, ∀ v < pageCount 3, ∀ f, Maps (leaf s.machine.mem 3 r v) f → writable (leaf s.machine.mem 3 r v) = true →
      f ∉ allTables s.machine.mem s.roots ++ s.kernFrames ∧
      ∀ r' ∈ s.roots, ∀ v' < pageCount 3, Maps (leaf s.machine.mem 3 r' v') f → r' = r ∧ v' = v := by
  have h := ((reached_boot hm).of_run hrun).inv.space
  refine ⟨fun f => ⟨h.taken f, ?_⟩, fun r hr v hv f hmaps hw => ⟨(h.mapped r hr v hv f hmaps).2.1, ?_⟩⟩
  · rintro (hboot | howned | hrefs)
    · exact h.boot f hboot
    · exact (h.owned f howned).1.bit
    · obtain ⟨r, hr, v, hv, hmaps⟩ := totalRefs_pos.mp hrefs
      exact (h.mapped r hr v hv f hmaps).1.bit
  intro r' hr' v' hv' hmaps'
  refine ⟨?_, h.home r' hr' v' hv' r hr v hv f hmaps' hmaps⟩
  by_contra hne
  -- two address spaces with the frame would make two references
  have hrest := totalRefs_pos.mpr ⟨r', (mem_erase_of_ne hne).mpr hr', v', hv', hmaps'⟩
  have hfirst := refsIn_pos.mpr ⟨v, hv, hmaps⟩
  have hone := h.exclusive r hr v hv f hmaps hw
  rw [totalRefs_perm (perm_cons_erase hr), totalRefs_cons] at hone
  omega

set_option maxRecDepth 100000 in
theorem frames_exact_fork : ∃ s, SystemRun (System.boot smallMachine 0) forkRun s ∧ ∀ f, s.machine.pmm.bitmap f = true ↔
    f < 256 ∨ f ∈ allTables s.machine.mem s.roots ++ s.kernFrames ∨ 0 < privateRefs s f := by
  have hsome : (exec stepTo (System.boot smallMachine 0) forkRun).isSome = true := by decide +kernel
  obtain ⟨s, hs⟩ := isSome_iff_exists.mp hsome
  have hrun := systemRun_of_exec (fun l hl s => by fin_cases hl <;> exact trivial) hs
  exact ⟨s, hrun, by simpa [smallMachine] using (frames_exact smallMachine_ok hrun).1⟩

end NyanOS.Memory
