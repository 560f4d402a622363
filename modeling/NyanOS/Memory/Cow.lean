import NyanOS.Memory.Lifecycle

/-!
# Copy on write refines eager copying

Every run of the system, replayed under eager copying, leads to the address spaces that the tasks
have.
-/

namespace NyanOS.Memory

open Lib Function List Option

variable {base : Nat → Bool} {s s₀ s' : System} {t t' : Task} {pid q addr length f a : Nat} {l : Action × Outcome}
  {ls : List (Action × Outcome)} {e e' : Eager} {Q : Nat → Page → Prop} {space : Space}

/-- Every page of every address space has a property. -/
def Eager.All (Q : Nat → Page → Prop) (e : Eager) : Prop :=
  ∀ pid space, e.spaces pid = some space → ∀ v, Q v (space.pages v)

/-- The pages that a step of eager copying adds to an address space. -/
def Eager.Adds (e : Eager) (page : Nat) (view : Page) : Action × Outcome → Prop
  | (.load _ v content, _) => page = v ∧ view = .priv (pageBytes content)
  | (.sbrk pid incr, _) => view = zeroPage ∧ ∃ space nextBrk pages, e.spaces pid = some space ∧
      sbrkPages space.heapEnd incr = some (nextBrk, pages) ∧ page ∈ pages
  | (.mmap _ object _, _) => ∃ frames f, e.shms[object]? = some frames ∧ f ∈ frames ∧ view = .shm f
  | (.access _ addr _ _, .fault (.stack _ true)) => page = addr / pageSize ∧ view = zeroPage
  | _ => False

theorem Eager.All.set {new : Option Space} (h : e.All Q)
    (hs : ∀ sp, new = some sp → ∀ v, Q v (sp.pages v)) : (e.set pid new).All Q := by
  intro q sp hq v
  simp only [Eager.set, update_apply] at hq
  split at hq
  · exact hs sp hq v
  · exact h q sp hq v

theorem place_all {pages : Nat → Page} {new : List (Nat × Page)} {flags : List Bool}
    (h : ∀ v, Q v (pages v)) (hnew : ∀ p ∈ new, Q p.1 p.2) : ∀ v, Q v (place pages new flags v) := by
  induction new generalizing pages flags with
  | nil => exact h
  | cons p new ih =>
    obtain ⟨hp, hrest⟩ := forall_mem_cons.mp hnew
    cases flags with
    | nil => exact h
    | cons mapped flags =>
      refine ih ?_ hrest
      intro v
      cases mapped with
      | false => exact h v
      | true =>
        simp only [if_true]
        by_cases hv : v = p.1
        · rw [hv, update_self]
          exact hp
        · rw [update_of_ne hv]
          exact h v

theorem mmapPairs_mem {frames : List Nat} {p : Nat × Nat}
    (hp : p ∈ mmapPairs addr length frames) : p.2 ∈ frames := (of_mem_zip hp).2

theorem Eager.All.hit {write : Option Byte} (h : e.All Q)
    (hwrite : ∀ v a b, Q v (.priv a) → Q v (.priv b)) (hsp : e.spaces pid = some space)
    (hn : e.hit pid space addr write = some e') : e'.All Q := by
  have hpages := h pid space hsp
  cases write with
  | none =>
    cases hn
    exact h
  | some b =>
    simp only [Eager.hit] at hn
    cases hview : space.pages (addr / pageSize) with
    | absent => simp [hview] at hn
    | priv bytes =>
      simp only [hview, some.injEq] at hn
      subst hn
      refine h.set ?_
      rintro sp ⟨⟩ v
      by_cases hv : v = addr / pageSize
      · simp only [hv, update_self]
        exact hwrite _ bytes _ (hview ▸ hpages (addr / pageSize))
      · simp only [update_of_ne hv]
        exact hpages v
    | shm frame =>
      simp only [hview, some.injEq] at hn
      subst hn
      exact h

/-- A property of pages that absent pages have and that writes keep is kept by every step whose new
pages have it. -/
theorem Eager.All.next (h : e.All Q) (habsent : ∀ v, Q v .absent) (hwrite : ∀ v a b, Q v (.priv a) → Q v (.priv b))
    (hadd : ∀ page view, e.Adds page view l → Q page view) (hn : e.next l = some e') : e'.All Q := by
  obtain ⟨a, o⟩ := l
  cases a with
  | create pid queue =>
    cases o <;> simp only [Eager.next, reduceCtorEq] at hn
    split at hn
    · cases hn
      split
      · refine h.set ?_
        rintro sp ⟨⟩ v
        exact habsent v
      · exact h
    · simp at hn
  | load pid page content =>
    cases o <;> simp only [Eager.next, reduceCtorEq] at hn
    obtain ⟨space, hsp, rfl⟩ := map_eq_some_iff.mp hn
    refine h.set ?_
    rintro sp ⟨⟩
    refine place_all (h pid space hsp) ?_
    intro p hp
    obtain rfl := mem_singleton.mp hp
    exact hadd _ _ ⟨rfl, rfl⟩
  | sbrk pid incr =>
    cases o <;> simp only [Eager.next, reduceCtorEq] at hn
    obtain ⟨space, hsp, rfl⟩ := map_eq_some_iff.mp hn
    refine h.set ?_
    rintro sp ⟨⟩
    simp only [Eager.sbrk]
    cases hp : sbrkPages space.heapEnd incr with
    | none => exact h pid space hsp
    | some res =>
      obtain ⟨nextBrk, pages⟩ := res
      refine place_all (h pid space hsp) ?_
      intro p hmem
      obtain ⟨v, hv, rfl⟩ := mem_map.mp hmem
      exact hadd _ _ ⟨rfl, space, nextBrk, pages, hsp, hp, hv⟩
  | shmSetSize newSize =>
    cases o <;> simp only [Eager.next, reduceCtorEq] at hn
    rename_i frames
    cases frames <;> simp only [some.injEq] at hn <;> subst hn <;> exact h
  | mmap pid object length =>
    cases o <;> simp only [Eager.next, reduceCtorEq] at hn
    obtain ⟨space, hsp, hn⟩ := bind_eq_some_iff.mp hn
    obtain ⟨frames, hfr, rfl⟩ := map_eq_some_iff.mp hn
    refine h.set ?_
    rintro sp ⟨⟩
    simp only [Eager.mmap]
    split
    · exact h pid space hsp
    refine place_all (h pid space hsp) ?_
    intro p hmem
    obtain ⟨w, hw, rfl⟩ := mem_map.mp hmem
    exact hadd _ _ ⟨frames, w.2, hfr, mmapPairs_mem hw, rfl⟩
  | munmap pid addr =>
    cases o <;> simp only [Eager.next, reduceCtorEq] at hn
    obtain ⟨space, hsp, rfl⟩ := map_eq_some_iff.mp hn
    refine h.set ?_
    rintro sp ⟨⟩ v
    simp only [Eager.munmap]
    cases vmmPopAllocatedMem addr space.vmAlloc with
    | none => exact h pid space hsp v
    | some res =>
      simp only
      split
      · exact habsent v
      · exact h pid space hsp v
  | fork parent pid queue =>
    cases o <;> simp only [Eager.next, reduceCtorEq] at hn
    obtain ⟨space, hsp, hn⟩ := bind_eq_some_iff.mp hn
    split at hn
    · cases hn
      split
      · refine h.set ?_
        rintro sp ⟨⟩
        exact h parent space hsp
      · exact h
    · simp at hn
  | access pid addr write isUser =>
    cases o with
    | hit =>
      simp only [Eager.next] at hn
      obtain ⟨space, hsp, hn⟩ := bind_eq_some_iff.mp hn
      exact h.hit hwrite hsp hn
    | fault f =>
      cases f with
      | stack frame mapped =>
        cases mapped with
        | false =>
          obtain ⟨_, _, rfl⟩ := map_eq_some_iff.mp hn
          exact h
        | true =>
          obtain ⟨space, hsp, rfl⟩ := map_eq_some_iff.mp hn
          refine h.set ?_
          rintro sp ⟨⟩ v
          by_cases hv : v = addr / pageSize
          · simp only [hv, update_self]
            exact hadd _ _ ⟨rfl, rfl⟩
          · simp only [update_of_ne hv]
            exact h pid space hsp v
      | cow =>
        obtain ⟨_, _, rfl⟩ := map_eq_some_iff.mp hn
        exact h
      | kill =>
        obtain ⟨_, _, rfl⟩ := map_eq_some_iff.mp hn
        exact h
      | panic =>
        obtain ⟨_, _, rfl⟩ := map_eq_some_iff.mp hn
        exact h
    | ok success => simp [Eager.next] at hn
    | mapped flags => simp [Eager.next] at hn
    | frames fs => simp [Eager.next] at hn
  | destroy pid =>
    cases o <;> simp only [Eager.next, reduceCtorEq] at hn
    obtain ⟨space, hsp, rfl⟩ := map_eq_some_iff.mp hn
    refine h.set ?_
    rintro sp ⟨⟩
  | kernelAlloc =>
    cases o <;> simp only [Eager.next, reduceCtorEq, some.injEq] at hn
    exact hn ▸ h
  | kernelFree frame =>
    cases o <;> simp only [Eager.next, reduceCtorEq, some.injEq] at hn
    exact hn ▸ h

theorem Eager.shms_hit {write : Option Byte} (hn : e.hit pid space addr write = some e') : e'.shms = e.shms := by
  cases write with
  | none =>
    cases hn
    rfl
  | some b =>
    simp only [Eager.hit] at hn
    split at hn
    · simp at hn
    · exact some.inj hn ▸ rfl
    · exact some.inj hn ▸ rfl

theorem Eager.shms_next (hn : e.next l = some e') : e'.shms = e.shms ∨ ∃ frames, e'.shms = e.shms ++ [frames] := by
  unfold Eager.next at hn
  split at hn <;> simp only [map_eq_some_iff, bind_eq_some_iff, some.injEq,
    ite_none_right_eq_some, reduceCtorEq] at hn
  all_goals grind [Eager.set, Eager.shms_hit]

theorem Eager.Objects.next (h : e.Objects) (hn : e.next l = some e') : e'.Objects := by
  have hsub : ∀ f ∈ e.shms.flatten, f ∈ e'.shms.flatten := by
    intro f hf
    rcases Eager.shms_next hn with heq | ⟨frames, heq⟩
    · rwa [heq]
    · rw [heq, flatten_append]
      exact mem_append_left _ hf
  have hall : e.All fun _ view => ∀ f, view = .shm f → f ∈ e.shms.flatten := h
  have hall' := hall.next (fun _ _ hf => by simp at hf) (fun _ _ _ _ _ hf => by simp at hf) ?_ hn
  · intro pid space hsp v f hf
    exact hsub f (hall' pid space hsp v f hf)
  · intro page view hadd f hf
    subst hf
    obtain ⟨a, o⟩ := l
    cases a with
    | mmap pid object length =>
      obtain ⟨frames, g, hfr, hg, heq⟩ := hadd
      obtain rfl := Page.shm.inj heq
      exact mem_flatten.mpr ⟨frames, mem_of_getElem? hfr, hg⟩
    | load pid page content => simp [Eager.Adds] at hadd
    | sbrk pid incr => simp [Eager.Adds, zeroPage] at hadd
    | access pid addr write isUser =>
      unfold Eager.Adds at hadd
      split at hadd <;> simp_all [zeroPage]
    | create pid queue => exact hadd.elim
    | shmSetSize newSize => exact hadd.elim
    | munmap pid addr => exact hadd.elim
    | fork parent pid queue => exact hadd.elim
    | destroy pid => exact hadd.elim
    | kernelAlloc => exact hadd.elim
    | kernelFree frame => exact hadd.elim

theorem simulates_step (h : SysInv base s) (ho : (abs s).Objects) (hm : MunmapOk s l.1)
    (hstep : step s l s') : Simulates base s l s' := by
  obtain ⟨a, o⟩ := l
  simp only [step] at hstep
  cases a with
  | create pid queue =>
    simp only [next, ite_none_right_eq_some, some.injEq] at hstep
    obtain ⟨hnone, heq⟩ := hstep
    cases heq
    exact sim_create h (isNone_iff_eq_none.mp hnone)
  | load pid page content =>
    obtain ⟨t, hf, hstep⟩ := bind_eq_some_iff.mp hstep
    simp only [ite_none_right_eq_some, some.injEq] at hstep
    obtain ⟨⟨hv, _⟩, heq⟩ := hstep
    cases heq
    exact sim_load h hf hv
  | sbrk pid incr =>
    obtain ⟨t, hf, heq⟩ := map_eq_some_iff.mp hstep
    cases heq
    exact sim_sbrk h hf
  | shmSetSize newSize =>
    obtain ⟨rfl, rfl⟩ := Prod.mk.inj (some.inj hstep)
    exact sim_shmSetSize h
  | mmap pid object length =>
    obtain ⟨t, hf, hstep⟩ := bind_eq_some_iff.mp hstep
    obtain ⟨frames, hobj, heq⟩ := map_eq_some_iff.mp hstep
    cases heq
    exact sim_mmap h hf hobj
  | munmap pid addr =>
    obtain ⟨t, hf, heq⟩ := map_eq_some_iff.mp hstep
    cases heq
    exact sim_munmap h hf hm
  | fork parent pid queue =>
    obtain ⟨t, hf, hstep⟩ := bind_eq_some_iff.mp hstep
    simp only [ite_none_right_eq_some, some.injEq] at hstep
    obtain ⟨hnone, heq⟩ := hstep
    cases heq
    exact sim_fork h (isNone_iff_eq_none.mp hnone) hf
  | access pid addr write isUser =>
    obtain ⟨t, hf, hstep⟩ := bind_eq_some_iff.mp hstep
    simp only [ite_none_right_eq_some] at hstep
    exact sim_access h ho hf hstep.1 hstep.2
  | destroy pid =>
    obtain ⟨t, hf, heq⟩ := map_eq_some_iff.mp hstep
    cases heq
    exact sim_destroy h ho hf
  | kernelAlloc => exact sim_kernelAlloc h hstep
  | kernelFree frame =>
    simp only [next, ite_none_right_eq_some, some.injEq] at hstep
    obtain ⟨hmem, heq⟩ := hstep
    cases heq
    exact sim_kernelFree h ho hmem

/-- The system before the first task, with whatever memory the kernel has already taken. -/
def System.boot (m : Machine) (kernPml4 : Nat) : System := ⟨m, kernPml4, [], [], [], []⟩

/-- The runs considered: `munmap` takes shared-memory regions only. -/
def SystemRun (s : System) (ls : List (Action × Outcome)) (s' : System) : Prop :=
  Run (guarded step fun s l => MunmapOk s l.1) s ls s'

/-- What holds in every state of a run. -/
structure Reached (base : Nat → Bool) (s : System) : Prop where
  inv : SysInv base s
  objects : (abs s).Objects

variable {m : Machine} {kernPml4 : Nat} {isUser : Bool} {b : Byte}

theorem reached_boot (hm : m.pmm.Ok) : Reached m.pmm.bitmap (System.boot m kernPml4) where
  inv :=
    { space :=
        { pmm := hm
          few := Nat.zero_le _
          boot := fun _ hg => hg
          nodup := nodup_nil
          owned := fun _ hg => absurd hg not_mem_nil
          mapped := fun _ hr => absurd hr not_mem_nil
          sharedOk := fun _ hr => absurd hr not_mem_nil
          userOk := fun _ hr => absurd hr not_mem_nil
          exclusive := fun _ hr => absurd hr not_mem_nil
          home := fun _ hr => absurd hr not_mem_nil
          taken := fun _ hg => .inl hg }
      pids := nodup_nil
      tasks := fun _ ht => absurd ht not_mem_nil }
  objects := by
    intro pid space hsp
    cases hsp

theorem Reached.of_step (h : Reached base s) (hstep : guarded step (fun s l => MunmapOk s l.1) s l s') :
    Reached base s' ∧ (abs s).next l = some (abs s') := by
  have hsim := simulates_step h.inv h.objects hstep.1 hstep.2
  exact ⟨⟨hsim.inv, h.objects.next hsim.next⟩, hsim.next⟩

theorem Reached.of_run (h : Reached base s) (hrun : SystemRun s ls s') : Reached base s' :=
  hrun.invariant (fun _ _ _ hstep hs => (hs.of_step hstep).1) h

theorem Reached.replay (h : Reached base s) (hrun : SystemRun s ls s') :
    exec Eager.next (abs s) ls = some (abs s') := by
  refine Run.exec_eq (hrun.simulate abs (P := Reached base) ?_ ?_ h)
  · intro _ _ _ hstep hs
    exact (hs.of_step hstep).1
  · intro _ _ _ hstep hs
    exact (hs.of_step hstep).2

/-- What a task reads at a user address. -/
def readByte (s : System) (pid addr : Nat) : Option Byte :=
  (s.find pid).bind fun t =>
    let pte := mmuEntry s.machine t.pml4 (addr / pageSize)
    if addr / pageSize < pageCount 3 ∧ accessOk pte false true then
      some (pageBytes (s.machine.mem (frameOf pte)) (addr % pageSize))
    else none

theorem bytes_object (hf : f ∈ s.shms.flatten) :
    (abs s).bytes f = some (pageBytes (s.machine.mem f)) := if_pos hf

theorem Reached.readByte_eq (h : Reached base s) : readByte s pid addr = (abs s).read pid addr := by
  cases hf : s.find pid with
  | none => simp [readByte, Eager.read, Eager.pageAt, hf, abs_spaces_none.mpr hf]
  | some t =>
    simp only [readByte, Eager.read, Eager.pageAt, hf, abs_spaces hf, bind_some, mmuEntry_eq, spaceOf, pagesOf]
    by_cases hv : addr / pageSize < pageCount 3
    · cases hp : present (leaf s.machine.mem 3 t.pml4 (addr / pageSize)) with
      | false => simp [accessOk, viewOf, hp]
      | true =>
        have hu := (h.inv.focus hf).userOk _ mem_cons_self _ hv hp
        cases hs : shared (leaf s.machine.mem 3 t.pml4 (addr / pageSize)) with
        | false => simp [accessOk, viewOf, hv, hp, hu, hs]
        | true =>
          have hobj := h.objects pid _ (abs_spaces hf) (addr / pageSize)
            (frameOf (leaf s.machine.mem 3 t.pml4 (addr / pageSize)))
            (by simp [spaceOf, pagesOf, viewOf, hv, hp, hs])
          simp [accessOk, viewOf, hv, hp, hu, hs, bytes_object hobj]
    · simp [hv]

/-- A write under eager copying changes what is read at its own place, and nowhere else. -/
theorem Eager.read_hit (hsp : e.spaces pid = some space)
    (hbytes : ∀ f, space.pages (addr / pageSize) = .shm f → (e.bytes f).isSome)
    (hn : e.hit pid space addr (some b) = some e') : (e.SamePlace pid addr q a → e'.read q a = some b) ∧
    (¬ e.SamePlace pid addr q a → e'.read q a = e.read q a) := by
  have hpage : e.pageAt pid addr = space.pages (addr / pageSize) := by simp only [Eager.pageAt, hsp]
  simp only [Eager.hit] at hn
  split at hn
  · simp at hn
  · rename_i bytes hview
    cases hn
    have hsame : e.SamePlace pid addr q a ↔ q = pid ∧ a = addr := by
      simp [Eager.SamePlace, hpage, hview]
    rw [hsame]
    constructor
    · rintro ⟨rfl, rfl⟩
      simp [Eager.read, Eager.pageAt, Eager.set]
    · intro hne
      by_cases hq : q = pid
      · subst hq
        by_cases hp : a / pageSize = addr / pageSize
        · have hoff : a % pageSize ≠ addr % pageSize := by
            intro hmod
            exact hne ⟨rfl, by rw [← Nat.div_add_mod a pageSize, hp, hmod, Nat.div_add_mod]⟩
          simp [Eager.read, Eager.pageAt, Eager.set, hsp, hp, hview, update_of_ne hoff]
        · simp [Eager.read, Eager.pageAt, Eager.set, hsp, update_of_ne hp]
      · simp [Eager.read, Eager.pageAt, Eager.set, update_of_ne hq]
  · rename_i f hview
    cases hn
    obtain ⟨bytes, hb⟩ := isSome_iff_exists.mp (hbytes f hview)
    constructor
    · rintro (⟨rfl, rfl⟩ | ⟨g, hg, hg', hmod⟩)
      · simp [Eager.read, Eager.pageAt, hsp, hview, hb]
      · obtain rfl : f = g := Page.shm.inj (hview.symm.trans (hpage.symm.trans hg))
        simp only [Eager.pageAt] at hg'
        simp [Eager.read, Eager.pageAt, hg', hmod, hb]
    · intro hne
      cases hview' : e.pageAt q a with
      | absent =>
        simp only [Eager.pageAt] at hview'
        simp [Eager.read, Eager.pageAt, hview']
      | priv bytes =>
        simp only [Eager.pageAt] at hview'
        simp [Eager.read, Eager.pageAt, hview']
      | shm g =>
        by_cases hg : g = f
        · have hoff : a % pageSize ≠ addr % pageSize := by
            intro hmod
            exact hne (.inr ⟨f, hpage.trans hview, hg ▸ hview', hmod⟩)
          simp only [Eager.pageAt] at hview'
          simp [Eager.read, Eager.pageAt, hview', hg, hb, update_of_ne hoff]
        · simp only [Eager.pageAt] at hview'
          simp [Eager.read, Eager.pageAt, hview', update_of_ne hg]

theorem Reached.of_access {write : Option Byte} {o : Outcome} (h : Reached base s)
    (hstep : step s (.access pid addr write isUser, o) s') :
    Reached base s' ∧ (abs s).next (.access pid addr write isUser, o) = some (abs s') :=
  h.of_step (l := (.access pid addr write isUser, o)) ⟨trivial, hstep⟩

theorem Reached.write (h : Reached base s) (hstep : step s (.access pid addr (some b) isUser, .hit) s') :
    ((abs s).SamePlace pid addr q a → readByte s' q a = some b) ∧
    (¬ (abs s).SamePlace pid addr q a → readByte s' q a = readByte s q a) := by
  obtain ⟨h', hn⟩ := h.of_access hstep
  rw [h'.readByte_eq, h.readByte_eq]
  simp only [Eager.next] at hn
  obtain ⟨space, hsp, hhit⟩ := bind_eq_some_iff.mp hn
  refine Eager.read_hit hsp ?_ hhit
  intro f hf
  rw [bytes_object (h.objects pid space hsp _ f hf)]
  rfl

theorem Reached.retry (h : Reached base s) (hstep : step s (.access pid addr (some b) isUser, .fault .cow) s') :
    ∃ s'', step s' (.access pid addr (some b) isUser, .hit) s'' := by
  obtain ⟨t, hf, hrun⟩ := bind_eq_some_iff.mp hstep
  obtain ⟨hv, hrun⟩ := ite_none_right_eq_some.mp hrun
  simp only [access, mmuEntry_eq] at hrun
  cases hok : accessOk (leaf s.machine.mem 3 t.pml4 (addr / pageSize)) true isUser with
  | true => simp [hok] at hrun
  | false =>
    rw [if_neg (by simp [hok])] at hrun
    have hend := (h.inv.focus hf).exceptionHandler hv hok
    simp only [isSome_some] at hrun
    generalize exceptionHandler s.machine t.pml4 addr
      (present (leaf s.machine.mem 3 t.pml4 (addr / pageSize))) true isUser = res at hrun hend
    cases hend with
    | @cow m₁ hi _ hp hw =>
      obtain ⟨rfl, -⟩ := Prod.mk.inj (some.inj hrun)
      have hpres : present (leaf m₁.mem 3 t.pml4 (addr / pageSize)) = true := by
        simp only [isPrivate, Bool.and_eq_true] at hp
        exact hp.1
      have hu := hi.userOk _ mem_cons_self _ hv hpres
      refine ⟨{ s with machine := storeByte m₁ (frameOf
        (leaf m₁.mem 3 t.pml4 (addr / pageSize))) (addr % pageSize) b }, ?_⟩
      have hfind : ({ s with machine := m₁ } : System).find pid = some t := hf
      simp only [step, next, hfind, bind_some, hv, if_true, access, mmuEntry_eq]
      simp [accessOk, hpres, hu, hw]
    | grown => simp at hrun
    | lost => simp at hrun
    | kill => simp at hrun
    | panic => simp at hrun

theorem Reached.readByte_cow (h : Reached base s)
    (hstep : step s (.access pid addr (some b) isUser, .fault .cow) s') : readByte s' q a = readByte s q a := by
  obtain ⟨h', hn⟩ := h.of_access hstep
  obtain ⟨_, -, heq⟩ := map_eq_some_iff.mp hn
  rw [h'.readByte_eq, h.readByte_eq, heq]

/-- Replayed with eager copying, a run from boot leads to a state in which every task reads what it
reads in memory. A write is read at its own place only, so by no other task unless the page is
shared, and a write that faults on a page that is not writable is made once the fault is handled. -/
theorem cow_refines_eager (hm : m.pmm.Ok) (hrun : SystemRun (System.boot m kernPml4) ls s) :
    ∃ e, exec Eager.next Eager.empty ls = some e ∧
      (∀ pid addr, readByte s pid addr = e.read pid addr) ∧
      (∀ pid addr b isUser s', step s (.access pid addr (some b) isUser, .hit) s' → ∀ q a,
        (e.SamePlace pid addr q a → readByte s' q a = some b) ∧
        (¬ e.SamePlace pid addr q a → readByte s' q a = readByte s q a)) ∧
      (∀ pid addr b isUser s', step s (.access pid addr (some b) isUser, .fault .cow) s' →
        (∀ q a, readByte s' q a = readByte s q a) ∧
        ∃ s'', step s' (.access pid addr (some b) isUser, .hit) s'') := by
  have hboot : Reached m.pmm.bitmap (System.boot m kernPml4) := reached_boot hm
  have h := hboot.of_run hrun
  refine ⟨abs s, hboot.replay hrun, fun pid addr => h.readByte_eq, ?_, ?_⟩
  · intro pid addr b isUser s' hstep q a
    exact h.write hstep
  · intro pid addr b isUser s' hstep
    exact ⟨fun q a => h.readByte_cow hstep, h.retry hstep⟩

theorem systemRun_of_exec (hno : ∀ l ∈ ls, ∀ s, MunmapOk s l.1) (h : exec stepTo s ls = some s') :
    SystemRun s ls s' := by
  induction ls generalizing s with
  | nil =>
    cases h
    exact .refl
  | cons l ls ih =>
    obtain ⟨u, hu, hrest⟩ := bind_eq_some_iff.mp h
    obtain ⟨hl, hls⟩ := forall_mem_cons.mp hno
    exact .stepL ⟨hl s, stepTo_eq_some.mp hu⟩ (ih hls hrest)

/-- A machine of 300 frames, of which the first megabyte is reserved. -/
def smallMachine : Machine := ⟨⟨fun i => decide (i < 256), fun _ => 0, 300, 256⟩, fun _ _ => 0⟩

theorem smallMachine_ok : smallMachine.pmm.Ok := ⟨fun i hi => by simpa [smallMachine] using hi, by decide, by decide⟩

/-- A task grows its stack and writes to it; its child then writes to the same address. -/
def forkRun : List (Action × Outcome) :=
  [(.create 1 true, .ok true),
   (.access 1 0xFFFFF8 (some 7) true, .fault (.stack 258 true)),
   (.access 1 0xFFFFF8 (some 7) true, .hit),
   (.fork 1 2 true, .ok true),
   (.access 2 0xFFFFF8 (some 9) true, .fault .cow),
   (.access 2 0xFFFFF8 (some 9) true, .hit)]

set_option maxRecDepth 100000 in
theorem cow_refines_eager_forkRun : ∃ s, SystemRun (System.boot smallMachine 0) forkRun s ∧
    (readByte s 1 0xFFFFF8 = some 7 ∧ readByte s 2 0xFFFFF8 = some 9) ∧
    ∃ e, exec Eager.next Eager.empty forkRun = some e ∧
      ∀ pid addr, readByte s pid addr = e.read pid addr := by
  have hexec : ∃ s, exec stepTo (System.boot smallMachine 0) forkRun = some s ∧
      readByte s 1 0xFFFFF8 = some 7 ∧ readByte s 2 0xFFFFF8 = some 9 := by
    have hread : ((exec stepTo (System.boot smallMachine 0) forkRun).map fun s =>
        (readByte s 1 0xFFFFF8, readByte s 2 0xFFFFF8)) = some (some 7, some 9) := by decide +kernel
    obtain ⟨s, hs, hread⟩ := map_eq_some_iff.mp hread
    exact ⟨s, hs, Prod.mk.inj hread⟩
  obtain ⟨s, hs, hread⟩ := hexec
  have hrun : SystemRun (System.boot smallMachine 0) forkRun s := by
    refine systemRun_of_exec ?_ hs
    intro l hl s
    fin_cases hl <;> exact trivial
  obtain ⟨e, hexec, hreads, -⟩ := cow_refines_eager smallMachine_ok hrun
  exact ⟨s, hrun, hread, e, hexec, hreads⟩

end NyanOS.Memory
