import NyanOS.Files.Calls

/-!
# New tasks and their files

A new task has slots before it is in the ring. A fork gives it standard files, closes them again and
copies the table of its parent.
-/
namespace NyanOS.Files

open Lib Sched Function List

variable {s t : FileState} {pipeLive : Nat → Bool} {opens : Nat → Nat} {k k' : Kernel} {l is : List Nat}
  {c p i win : Nat} {pid : Int} {V : Set (Nat × Nat)} {b : Stdio}

/-- A task that is allocated and not in the ring. -/
structure Embryo (s : Tasks) (c : Nat) (pid : Int) (l : List Nat) : Prop where
  ring : Ring s l
  live : ∀ p, s.live p = true ↔ p ∈ s.head :: l ∨ p = c
  fresh : c ∉ s.head :: l
  pid_eq : (s.task c).pid = pid
  pids : ∀ q ∈ s.head :: l, (s.task q).pid ≠ pid

namespace Embryo

variable {s t : Tasks}

theorem self_live (h : Embryo s c pid l) : s.live c = true := (h.live c).mpr (.inr rfl)

theorem calm (h : Embryo s c pid l) (hc : Calm s t) : Embryo t c pid l := by
  refine ⟨h.ring.quiet hc, ?_, ?_, ?_, ?_⟩
  · rw [hc.live, hc.head]
    exact h.live
  · rw [hc.head]
    exact h.fresh
  · rw [hc.pid]
    exact h.pid_eq
  · intro q hq
    rw [hc.head] at hq
    rw [hc.pid]
    exact h.pids q hq

theorem set {f : Task → Task} (h : Embryo s c pid l) (hf : ∀ x, (f x).pid = x.pid) : Embryo (s.set c f) c pid l := by
  have hother : ∀ q ∈ s.head :: l, (s.set c f).task q = s.task q := by
    intro q hq
    refine Tasks.set_task_of_ne s f ?_
    rintro rfl
    exact h.fresh hq
  refine ⟨h.ring.congr rfl rfl rfl hother, h.live, h.fresh, ?_, fun q hq => ?_⟩
  · rw [Tasks.set_task_self, hf]
    exact h.pid_eq
  · rw [hother q hq]
    exact h.pids q hq

theorem setTask {f : Task → Task} (h : Embryo k.tasks c pid l) (hf : ∀ x, (f x).pid = x.pid) :
    Embryo (k.setTask c f).tasks c pid l := h.set hf

theorem forget (h : Embryo s c pid l) : Members { s with live := update s.live c false } l := by
  refine ⟨h.ring.congr rfl rfl rfl fun _ _ => rfl, fun q => ?_⟩
  by_cases hq : q = c
  · subst hq
    simpa using h.fresh
  · simp only [update_of_ne hq, h.live, hq, or_false]

theorem register (h : Embryo s c pid l) (h0 : c ≠ 0) (hparent : (s.task c).parent = s.curr) :
    Members (schedRegisterTask s c (s.task c)) (c :: l) := by
  have hsame : schedRegisterTask { s with live := update s.live c false } c (s.task c) =
      schedRegisterTask s c (s.task c) := by
    unfold schedRegisterTask
    simp only [update_idem]
  rw [← hsame]
  refine h.forget.register h0 (update_self ..) hparent fun q hq => ?_
  rw [h.forget.ring_eq] at hq
  rw [h.pid_eq]
  exact h.pids q hq

end Embryo

namespace Agrees

theorem alloc {x : Task} (he : Agrees pipeLive opens k) (hc : k.tasks.live c = false) (hx : x.fdTbl = fun _ => 0) :
    Agrees pipeLive opens (k.onTasks fun t => { t with
      task := update t.task c x
      live := update t.live c true }) := by
  generalize hk' : (k.onTasks fun t => { t with
      task := update t.task c x
      live := update t.live c true }) = k'
  have hused : k'.tasks.live = update k.tasks.live c true := by rw [← hk']; rfl
  have hold : Exact pipeLive opens k' (slots k) := by
    refine Exact.write he (by rw [← hk']; rfl) fun y hy => ?_
    have hne : y.1 ≠ c := by
      rintro rfl
      exact Bool.false_ne_true (hc.symm.trans hy.1)
    simp [← hk', slot, Kernel.onTasks, hne]
  have hnew := kept.addRow (p := c) hold fun i => by simp [← hk', table, slot, Kernel.onTasks, hx]
  rwa [← hused] at hnew

end Agrees

theorem retainFds_tasks : (is.foldl (retainFd c) k).tasks = k.tasks := by
  induction is generalizing k with
  | nil => rfl
  | cons i is ih =>
    refine ih.trans ?_
    unfold retainFd vfsRetain
    split <;> rfl

theorem Agrees.copyTable (he : Agrees pipeLive opens k) (hc : k.tasks.live c = true)
    (hp : k.tasks.live p = true) (hnull : ∀ i < maxOpenFiles, slot k (c, i) = 0) :
    Agrees pipeLive opens ((range maxOpenFiles).foldl (retainFd c)
      (k.setTask c fun t => { t with fdTbl := (k.tasks.task p).fdTbl })) := by
  have hone : retainFd c = table.retainFd c := rfl
  rw [hone, Agrees, slots_eq]
  refine kept.copyRow (s := k.setTask c _) ((kept.dropRow he hnull).write rfl fun x hx => ?_) hc fun i hi h0 => ?_
  · have hne : x.1 ≠ c := fun heq => not_mem_rows_update heq hx
    simp only [slot, Kernel.setTask, Tasks.set_task_of_ne _ _ hne]
  · have hcopy : table.slot (k.setTask c fun t => { t with fdTbl := (k.tasks.task p).fdTbl }) (c, i) = slot k (p, i) := by
      simp only [table, slot, Kernel.setTask, Tasks.set_task_self]
    rw [hcopy] at h0 ⊢
    exact he.counted.live_of_slot (x := (p, i)) ⟨hp, hi⟩ h0

/-- The state while a task is set up. -/
structure Growing (s : FileState) (c : Nat) (pid : Int) (l : List Nat) : Prop where
  embryo : Embryo s.kernel.tasks c pid l
  agrees : Agrees s.pipeLive s.opens s.kernel

namespace Growing

theorem calm (hg : Growing s c pid l) (hk : Calm s.kernel.tasks k.tasks) (ha : Agrees pipeLive opens k) :
    Growing ⟨k, pipeLive, opens⟩ c pid l :=
  ⟨hg.embryo.calm hk, ha⟩

theorem attach {h : Nat} (hg : Growing s c pid l) (hi : i < maxOpenFiles) (hnull : slot s.kernel (c, i) = 0)
    (h0 : h ≠ 0) (hdead : (s.kernel.files.handle h).live = false) :
    Growing ((initHandle s h .other).setFd c i h) c pid l :=
  hg.calm (calm_setFd hg.embryo.self_live) (hg.agrees.attach hg.embryo.self_live hi hnull h0 hdead)

theorem alloc {x : Task} (hc : Consistent s) (ht : s.taskFree c pid = true) (hx : x.fdTbl = fun _ => 0)
    (hpid : x.pid = pid) : ∃ l, Growing (s.on (·.onTasks fun t => { t with
      task := update t.task c x
      live := update t.live c true })) c pid l := by
  obtain ⟨l, hm⟩ := hc.members
  simp only [FileState.taskFree, Bool.and_eq_true, Bool.not_eq_true', decide_eq_true_eq, all_eq_true] at ht
  obtain ⟨⟨hlive, _⟩, hpids⟩ := ht
  rw [hm.ring_eq] at hpids
  have hfresh : c ∉ s.kernel.tasks.head :: l := by
    intro hmem
    rw [← hm.members, hlive] at hmem
    cases hmem
  have hother : ∀ q ∈ s.kernel.tasks.head :: l, update s.kernel.tasks.task c x q = s.kernel.tasks.task q := by
    intro q hq
    refine update_of_ne ?_ ..
    rintro rfl
    exact hfresh hq
  refine ⟨l, ⟨hm.toRing.congr rfl rfl rfl hother, fun q => ?_, hfresh, ?_, fun q hq => ?_⟩, hc.agrees.alloc hlive hx⟩
  · by_cases hq : q = c
    · simp [FileState.on, Kernel.onTasks, hq]
    · simpa [FileState.on, Kernel.onTasks, hq] using hm.members q
  · simpa [FileState.on, Kernel.onTasks] using hpid
  · have heq : ((s.on (·.onTasks fun t => { t with
        task := update t.task c x
        live := update t.live c true })).kernel.tasks.task q) = s.kernel.tasks.task q := hother q hq
    rw [heq]
    exact hpids q hq

theorem attachStdio (hg : Growing s c pid l) (hnull : ∀ i, slot s.kernel (c, i) = 0)
    (hb : s.stdioFree b = true) : Growing (devAttachStdio s c b) c pid l := by
  simp only [FileState.stdioFree, FileState.free, Bool.and_eq_true, decide_eq_true_eq, Bool.not_eq_true'] at hb
  obtain ⟨⟨⟨⟨⟨⟨⟨⟨h0i, h0o⟩, h0e⟩, hdi⟩, hdo⟩, hde⟩, hio⟩, hie⟩, hoe⟩ := hb
  have hg₁ : Growing ((initHandle s b.input .other).setFd c 0 b.input) c pid l :=
    hg.attach (by decide) (hnull 0) h0i hdi
  generalize hs₁ : (initHandle s b.input .other).setFd c 0 b.input = s₁ at hg₁
  have hother₁ : ∀ g, g ≠ b.input → s₁.kernel.files.handle g = s.kernel.files.handle g := by
    intro g hne
    rw [← hs₁]
    exact update_of_ne hne ..
  have hnull₁ : ∀ i, i ≠ 0 → slot s₁.kernel (c, i) = 0 := by
    intro i hi
    rw [← hs₁]
    exact (slot_setFd (by simpa using hi)).trans (hnull i)
  have hg₂ : Growing ((initHandle s₁ b.output .other).setFd c 1 b.output) c pid l :=
    hg₁.attach (by decide) (hnull₁ 1 (by decide)) h0o (by rw [hother₁ _ (Ne.symm hio)]; exact hdo)
  generalize hs₂ : (initHandle s₁ b.output .other).setFd c 1 b.output = s₂ at hg₂
  have hdead₂ : (s₂.kernel.files.handle b.error).live = false := by
    have hother₂ : s₂.kernel.files.handle b.error = s₁.kernel.files.handle b.error := by
      rw [← hs₂]
      exact update_of_ne (Ne.symm hoe) ..
    rw [hother₂, hother₁ _ (Ne.symm hie)]
    exact hde
  have hnull₂ : slot s₂.kernel (c, 2) = 0 := by
    rw [← hs₂]
    exact (slot_setFd (by simp)).trans (hnull₁ 2 (by decide))
  have hg₃ := hg₂.attach (by decide) hnull₂ h0e hdead₂
  unfold devAttachStdio
  dsimp only
  rw [hs₁, hs₂]
  exact hg₃

theorem newTask (hc : Consistent s) (hb : s.stdioFree b = true)
    (ht : s.taskFree c pid = true) : ∃ l, Growing (schedNewTask s c pid b) c pid l := by
  unfold schedNewTask
  dsimp only
  obtain ⟨l, hg⟩ := alloc (x := ⟨pid, .waiting, 0, fun _ => 0, s.curr, 0, 0, false, 0, -1⟩) hc ht rfl rfl
  refine ⟨l, hg.attachStdio (fun i => ?_) hb⟩
  simp [slot, FileState.on, Kernel.onTasks]

theorem newTask_frame (s : FileState) (c : Nat) (pid : Int) (b : Stdio) : (schedNewTask s c pid b).curr = s.curr ∧
    ((schedNewTask s c pid b).kernel.tasks.task c).parent = s.curr := by
  refine ⟨rfl, ?_⟩
  simp [schedNewTask, devAttachStdio, initHandle, FileState.setFd, FileState.on, Kernel.setFd, Kernel.setTask,
    Kernel.onTasks, Kernel.setHandle]

theorem register (hg : Growing s c pid l) (h0 : c ≠ 0) (hparent : (s.kernel.tasks.task c).parent = s.curr) :
    Consistent (register s c) := by
  have hs : SameFds s.kernel.tasks (schedRegisterTask s.kernel.tasks c (s.kernel.tasks.task c)) := by
    have hlive : update s.kernel.tasks.live c true = s.kernel.tasks.live := by
      rw [← hg.embryo.self_live, update_eq_self]
    unfold schedRegisterTask
    rw [update_eq_self, hlive]
    dsimp only
    refine SameFds.trans (t := { s.kernel.tasks with registered := s.kernel.tasks.registered + 1 })
      ⟨rfl, fun _ => rfl⟩ (.trans ?_ (.set (by intro; rfl)))
    split
    · next hhead => exact absurd hhead hg.embryo.ring.head_ne
    · exact .trans (.set (by intro; rfl)) (.set (by intro; rfl))
  exact ⟨⟨_, hg.embryo.register h0 hparent⟩, hg.agrees.same hs rfl⟩

theorem destroy (hg : Growing s c pid l) (h0 : c ≠ 0) (hpid : pid ≠ 0) : Consistent (s.on (schedDestroyTask · c)) := by
  have hlive := hg.embryo.self_live
  refine ⟨⟨l, ?_⟩, hg.agrees.destroy hlive⟩
  have hc : Closes (fun _ => True) (fun _ => True) s.kernel (schedCleanFds (schedCleanGui s.kernel c) c) :=
    .clean (fun _ _ => trivial) (.inl trivial) fun _ => hlive
  have hclean := hg.embryo.calm hc.quiet.toCalm
  have hdestroy : schedDestroyTask s.kernel c = { schedCleanFds (schedCleanGui s.kernel c) c with tasks :=
        { (schedCleanFds (schedCleanGui s.kernel c) c).tasks with
          live := update (schedCleanFds (schedCleanGui s.kernel c) c).tasks.live c false
          wild := (schedCleanFds (schedCleanGui s.kernel c) c).tasks.wild ||
            !(schedCleanFds (schedCleanGui s.kernel c) c).tasks.live c } } := by
    rw [schedDestroyTask, if_neg (by simp [h0, hg.embryo.pid_eq, hpid])]
  simp only [FileState.on, hdestroy]
  generalize schedCleanFds (schedCleanGui s.kernel c) c = k₁ at *
  exact ⟨hclean.ring.congr rfl rfl rfl fun _ _ => rfl, hclean.forget.members⟩

theorem cleanFds (hg : Growing s c pid l) : Growing (s.on (schedCleanFds · c)) c pid l := by
  have hlive := hg.embryo.self_live
  have hc : Closes (fun _ => True) (fun _ => True) s.kernel (schedCleanFds s.kernel c) :=
    .cleanFds (fun _ _ => trivial) (.inl trivial) fun _ => hlive
  exact hg.calm hc.quiet.toCalm (Exact.cleanFds hg.agrees hlive)

theorem copy (hg : Growing s c pid l) (hnull : ∀ i < maxOpenFiles, slot s.kernel (c, i) = 0)
    (hp : s.kernel.tasks.live p = true) :
    Growing (((s.on (·.setTask c fun t => { t with fdTbl := (s.kernel.tasks.task p).fdTbl })).on fun k =>
      (range maxOpenFiles).foldl (retainFd c) k).on
        (·.setTask c fun t => { t with parent := p, state := .ready, win := win })) c pid l := by
  have hcopy := hg.agrees.copyTable hg.embryo.self_live hp hnull
  have hem₁ : Embryo (s.kernel.setTask c fun t => { t with fdTbl := (s.kernel.tasks.task p).fdTbl }).tasks
      c pid l := hg.embryo.setTask (by intro; rfl)
  have hem₂ : Embryo ((range maxOpenFiles).foldl (retainFd c)
      (s.kernel.setTask c fun t => { t with fdTbl := (s.kernel.tasks.task p).fdTbl })).tasks c pid l := by
    rw [retainFds_tasks]
    exact hem₁
  simp only [FileState.on]
  generalize (range maxOpenFiles).foldl (retainFd c)
    (s.kernel.setTask c fun t => { t with fdTbl := (s.kernel.tasks.task p).fdTbl }) = k₁ at *
  exact ⟨hem₂.setTask (by intro; rfl), hcopy.same (.setTask (by intro; rfl)) rfl⟩

end Growing

theorem Growing.fork (copied stack : Bool) (hg : Growing s c pid l) (h0 : c ≠ 0) (hpid : pid ≠ 0) :
    (taskFactoryFork s s.curr c copied stack).2 = 0 ∧
      Consistent (taskFactoryFork s s.curr c copied stack).1 ∨ (taskFactoryFork s s.curr c copied stack).2 = c ∧
      Growing (taskFactoryFork s s.curr c copied stack).1 c pid l ∧
      ((taskFactoryFork s s.curr c copied stack).1.kernel.tasks.task c).parent =
        (taskFactoryFork s s.curr c copied stack).1.curr := by
  have hclean := hg.cleanFds
  have hnull : ∀ i < maxOpenFiles, slot (s.on (schedCleanFds · c)).kernel (c, i) = 0 := by
    intro i hi
    rw [FileState.on, cleanFds_slot hi]
  have hc : Closes (fun _ => True) (fun _ => True) s.kernel (schedCleanFds s.kernel c) :=
    .cleanFds (fun _ _ => trivial) (.inl trivial) fun _ => hg.embryo.self_live
  have hcurr : (s.on (schedCleanFds · c)).curr = s.curr := by
    simp only [FileState.curr, FileState.on]
    exact hc.quiet.curr
  have hp : (s.on (schedCleanFds · c)).kernel.tasks.live s.curr = true := by
    rw [FileState.on, hc.quiet.live]
    exact (hg.embryo.live _).mpr (.inl hg.embryo.ring.curr)
  unfold taskFactoryFork
  generalize s.on (schedCleanFds · c) = u at *
  dsimp only
  split
  · exact .inl ⟨rfl, hclean.destroy h0 hpid⟩
  split
  · exact .inl ⟨rfl, hclean.destroy h0 hpid⟩
  refine .inr ⟨rfl, hclean.copy hnull hp, ?_⟩
  simp only [FileState.on, FileState.curr, Kernel.setTask, Tasks.set_task_self, Tasks.set_curr, retainFds_tasks]
  exact hcurr.symm

theorem Consistent.sysFork {copied stack : Bool} (hc : Consistent s) (hb : s.stdioFree b = true)
    (ht : s.taskFree c pid = true) : Consistent (sysFork s c pid b copied stack).1 := by
  have hpid : pid ≠ 0 := by
    simp only [FileState.taskFree, Bool.and_eq_true, decide_eq_true_eq] at ht
    exact ht.1.2
  unfold Files.sysFork
  split
  · exact hc
  next h0 =>
  obtain ⟨l, hg⟩ := Growing.newTask hc hb ht
  have hcurr := (Growing.newTask_frame s c pid b).1
  dsimp only
  rw [← hcurr]
  rcases hg.fork copied stack h0 hpid with ⟨hnone, hcons⟩ | ⟨hsome, hg', hparent⟩
  · rw [if_pos hnone]
    exact hcons
  · rw [if_neg (hsome.trans_ne h0)]
    exact hg'.register h0 hparent

theorem Consistent.spawnElfApp {loaded : Bool} (hc : Consistent s) (hb : s.stdioFree b = true)
    (ht : s.taskFree c pid = true) : Consistent (spawnElfApp s c pid b loaded) := by
  have hpid : pid ≠ 0 := by
    simp only [FileState.taskFree, Bool.and_eq_true, decide_eq_true_eq] at ht
    exact ht.1.2
  unfold Files.spawnElfApp
  split
  · exact hc
  next h0 =>
  obtain ⟨l, hg⟩ := Growing.newTask hc hb ht
  obtain ⟨hcurr, hparent⟩ := Growing.newTask_frame s c pid b
  dsimp only
  split
  · exact hg.register h0 (hparent.trans hcurr.symm)
  · exact hg.destroy h0 hpid

/-! Runs -/

theorem Consistent.step {a : FileAct} (hc : Consistent s) (hs : fileTo s a = some t) : Consistent t := by
  cases a with
  | sched op =>
    simp only [fileTo, Option.ite_none_left_eq_some, Option.map_eq_some_iff] at hs
    obtain ⟨hop, k, hk, rfl⟩ := hs
    obtain ⟨l, hm⟩ := hc.members
    exact ⟨(hm.step hk).1, hc.agrees.step hm hk (by simpa using hop)⟩
  | openFile copied f =>
    simp only [fileTo, Option.ite_none_right_eq_some, Option.some.injEq] at hs
    obtain ⟨hf, rfl⟩ := hs
    exact hc.sysOpen hf
  | close fd =>
    cases hs
    exact hc.sysClose
  | dup2 oldFd newFd =>
    cases hs
    exact hc.sysDup2
  | pipe fdPtr b =>
    simp only [fileTo, Option.ite_none_right_eq_some, Option.some.injEq] at hs
    obtain ⟨⟨hfr, hfw, hdist, hpipe⟩, rfl⟩ := hs
    exact hc.sysPipe hfr hfw hdist hpipe
  | fork child pid b copied stack =>
    simp only [fileTo, Option.ite_none_right_eq_some, Option.some.injEq] at hs
    obtain ⟨⟨hb, ht⟩, rfl⟩ := hs
    exact hc.sysFork hb ht
  | spawn p pid b loaded =>
    simp only [fileTo, Option.ite_none_right_eq_some, Option.some.injEq] at hs
    obtain ⟨⟨hb, ht⟩, rfl⟩ := hs
    exact hc.spawnElfApp hb ht

/-- After boot the kernel has one task with empty slots, and no handle and no pipe exists. -/
structure FileBoot (s : FileState) : Prop where
  boot : Boot s.kernel.tasks
  fds : ∀ i, slot s.kernel (s.kernel.tasks.head, i) = 0
  handles : ∀ h, (s.kernel.files.handle h).live = false
  opens : ∀ h, (s.kernel.files.handle h).closes = s.opens h
  pipes : ∀ b, s.pipeLive b = false

theorem FileBoot.consistent (h : FileBoot s) : Consistent s := by
  have hslots : slots s.kernel ⊆ (Prod.mk s.kernel.tasks.head) '' Set.Iio maxOpenFiles := by
    intro x hx
    exact ⟨x.2, hx.2, by rw [← (h.boot.live x.1).mp hx.1]⟩
  have hempty : ∀ g, g ≠ 0 → refs (slots s.kernel) (slot s.kernel) g = ∅ := by
    intro g h0
    ext x
    refine iff_of_false (fun hx => h0 ?_) (fun hx => hx)
    rw [← hx.2, ← Prod.eta x, (h.boot.live x.1).mp hx.1.1]
    exact h.fds x.2
  refine ⟨⟨[], h.boot.members⟩, ⟨⟨?_, ?_, fun g h0 => ?_, fun g hg => ?_⟩, fun g => ?_⟩, ⟨?_, ?_, fun n hn => ?_⟩⟩
  · exact ((Set.finite_Iio _).image _).subset hslots
  · simp [h.handles]
  · rw [hempty g h0]
    simp [h.handles]
  · simp [h.handles] at hg
  · simp [h.handles, h.opens]
  · simp [h.handles]
  · simp [h.handles]
  · cases n <;> simp [hasPipe, h.pipes] at hn

/-- In every reachable state the count of a handle is the number of slots that refer to it, no slot refers
to a handle that is freed, a handle has been closed once for every time it was opened, unless a slot
still refers to it, and a pipe is open at an end exactly as long as a slot refers to the handle of this
end. -/
theorem handles_exact {as : List FileAct} (hboot : FileBoot s) (hrun : Run (ofNext fileTo) s as t) :
    (∀ h, (t.kernel.files.handle h).live = true → (refs (slots t.kernel) (slot t.kernel) h).Finite ∧
      (t.kernel.files.handle h).refCount = (refs (slots t.kernel) (slot t.kernel) h).ncard ∧
      0 < (t.kernel.files.handle h).refCount) ∧
    (∀ p i, t.kernel.tasks.live p = true → i < maxOpenFiles → t.fd p i ≠ 0 →
      (t.kernel.files.handle (t.fd p i)).live = true) ∧
    (∀ h, h ≠ 0 →
      ((refs (slots t.kernel) (slot t.kernel) h).Nonempty → (t.kernel.files.handle h).closes + 1 = t.opens h) ∧
      (refs (slots t.kernel) (slot t.kernel) h = ∅ → (t.kernel.files.handle h).closes = t.opens h)) ∧
    ∀ b, t.pipeLive b = true →
      ((t.kernel.files.pipe b).readOpen = true ↔ ∃ p i, t.kernel.tasks.live p = true ∧ i < maxOpenFiles ∧
        t.fd p i ≠ 0 ∧ (t.kernel.files.handle (t.fd p i)).node = .pipeRead b) ∧
      ((t.kernel.files.pipe b).writeOpen = true ↔ ∃ p i, t.kernel.tasks.live p = true ∧ i < maxOpenFiles ∧
        t.fd p i ≠ 0 ∧ (t.kernel.files.handle (t.fd p i)).node = .pipeWrite b) := by
  have hc : Consistent t := by
    refine hrun.invariant (P := Consistent) ?_ hboot.consistent
    intro s a t hs h
    exact h.step hs
  have hcount := hc.agrees.counted
  have hlive : ∀ p i, t.kernel.tasks.live p = true → i < maxOpenFiles → t.fd p i ≠ 0 →
      (t.kernel.files.handle (t.fd p i)).live = true :=
    fun p i hp hi h0 => hcount.live_of_slot (x := (p, i)) ⟨hp, hi⟩ h0
  refine ⟨fun h hh => ⟨hcount.finite_refs, hcount.count_eq h hh, ?_⟩, hlive, fun h h0 => ⟨fun hne => ?_, fun he => ?_⟩, ?_⟩
  · have heq := hcount.count_eq h hh
    have hpos := hcount.count_pos hh
    omega
  · have hl := (hcount.live_iff h h0).mpr hne
    simpa [hl] using hc.agrees.closes h
  · have hl : (t.kernel.files.handle h).live = false := by
      rw [Bool.eq_false_iff]
      intro hl
      rw [hcount.live_iff h h0, he] at hl
      exact Set.not_nonempty_empty hl
    simpa [hl] using hc.agrees.closes h
  · have hend : ∀ n, hasPipe t.pipeLive n = true → (opened t.kernel.files n = true ↔
        ∃ p i, t.kernel.tasks.live p = true ∧ i < maxOpenFiles ∧ t.fd p i ≠ 0 ∧
          (t.kernel.files.handle (t.fd p i)).node = n) := by
      intro n hn
      rw [hc.agrees.bit n hn]
      constructor
      · rintro ⟨h, hh, hnode⟩
        have h0 := hcount.ne_zero hh
        obtain ⟨⟨p, i⟩, ⟨hp, hi⟩, hx⟩ := (hcount.live_iff h h0).mp hh
        have hfd : t.fd p i = h := hx
        exact ⟨p, i, hp, hi, hfd ▸ h0, hfd ▸ hnode⟩
      · rintro ⟨p, i, hp, hi, h0, hnode⟩
        exact ⟨_, hlive p i hp hi h0, hnode⟩
    exact fun b hb => ⟨hend (.pipeRead b) hb, hend (.pipeWrite b) hb⟩

def noFiles : FileState where
  kernel := bootKernel
  pipeLive := fun _ => false
  opens := fun _ => 0

theorem noFiles_boot : FileBoot noFiles := ⟨bootKernel_boot, fun _ => rfl, fun _ => rfl, fun _ => rfl, fun _ => rfl⟩

/-- A task opens a pipe and forks, and the child closes its end for reading. -/
def pipelineRun : List FileAct :=
  [.spawn 2 1 ⟨11, 12, 13⟩ true, .sched .schedule, .pipe 0x1000#64 ⟨21, 22, 31, 41, 42⟩,
    .fork 3 2 ⟨14, 15, 16⟩ true true, .sched .schedule, .sched .schedule, .close 3]

theorem handles_exact_pipelineRun : ∃ t, Run (ofNext fileTo) noFiles pipelineRun t ∧
    (refs (slots t.kernel) (slot t.kernel) 21).ncard = 1 ∧
    (refs (slots t.kernel) (slot t.kernel) 22).ncard = 2 := by
  have hend : (exec fileTo noFiles pipelineRun).map (fun t =>
      ((t.kernel.files.handle 21).live, (t.kernel.files.handle 21).refCount,
        (t.kernel.files.handle 22).live, (t.kernel.files.handle 22).refCount)) = some (true, 1, true, 2) := by
    decide +kernel
  obtain ⟨t, ht, hvals⟩ := Option.map_eq_some_iff.mp hend
  simp only [Prod.mk.injEq] at hvals
  obtain ⟨hl₁, hc₁, hl₂, hc₂⟩ := hvals
  have hrun := exec_run ht
  obtain ⟨hcount, _⟩ := handles_exact noFiles_boot hrun
  have h₁ := (hcount 21 hl₁).2.1
  have h₂ := (hcount 22 hl₂).2.1
  exact ⟨t, hrun, by omega, by omega⟩

end NyanOS.Files
