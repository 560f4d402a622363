import NyanOS.Sched.Model

/-!
# What wake-ups and clean-ups leave alone

`Write` lists the writes of the scheduler to a task. Waking tasks, closing files and windows, and
handing children to the head do not touch the ring. They set a task ready only if it can still run.
-/
namespace NyanOS.Sched

open Relation Function

variable {s t u : Tasks} {k k' : Kernel} {p h sigCode i : Nat} {pid now : Int} {f : Task → Task}

/-- The tasks of the ring are allocated. -/
def Tasks.Sound (s : Tasks) : Prop := ∀ p ∈ s.ring, s.live p = true

theorem find_mem_ring (hp : schedFindTask s pid ≠ 0) : schedFindTask s pid ∈ s.ring := by
  unfold schedFindTask at hp ⊢
  cases hf : s.ring.find? fun t => (s.task t).pid = pid with
  | none => simp [hf] at hp
  | some p => exact List.mem_of_find?_eq_some hf

theorem find_pid (hp : schedFindTask s pid ≠ 0) : (s.task (schedFindTask s pid)).pid = pid := by
  unfold schedFindTask at hp ⊢
  cases hf : s.ring.find? fun t => (s.task t).pid = pid with
  | none => simp [hf] at hp
  | some p => simpa using List.find?_some hf

/-- The ring is untouched, and a task is set ready only if it can still run. -/
structure Calm (s t : Tasks) : Prop where
  head : t.head = s.head
  curr : t.curr = s.curr
  live : t.live = s.live
  registered : t.registered = s.registered
  next : ∀ p, (t.task p).next = (s.task p).next
  pid : ∀ p, (t.task p).pid = (s.task p).pid
  parent : ∀ p, (t.task p).parent = (s.task p).parent ∨ (t.task p).parent = s.head
  state : ∀ p, (t.task p).state = (s.task p).state ∨
    (t.task p).state = .ready ∧ (s.task p).state.gone = false
  wild : s.Sound → t.wild = s.wild

namespace Calm

theorem refl : Calm s s :=
  ⟨rfl, rfl, rfl, rfl, fun _ => rfl, fun _ => rfl, fun _ => .inl rfl, fun _ => .inl rfl, fun _ => rfl⟩

theorem ringFrom_eq (hq : Calm s t) (n p : Nat) : t.ringFrom n p = s.ringFrom n p := by
  induction n generalizing p with
  | zero => rfl
  | succ n ih => rw [Tasks.ringFrom, Tasks.ringFrom, hq.next, hq.head, ih]

theorem ring_eq (hq : Calm s t) : t.ring = s.ring := by
  rw [Tasks.ring, Tasks.ring, hq.head, hq.registered, hq.ringFrom_eq]

theorem sound (hq : Calm s t) (hs : s.Sound) : t.Sound := by
  intro p hp
  rw [hq.live]
  exact hs p (hq.ring_eq ▸ hp)

theorem live_of_mem (hq : Calm s t) (hp : p ∈ s.ring) (ht : t.Sound) : t.live p = true := ht p (hq.ring_eq ▸ hp)

theorem gone_eq (hq : Calm s t) (p : Nat) : (t.task p).state.gone = (s.task p).state.gone := by
  rcases hq.state p with he | ⟨hr, hg⟩
  · rw [he]
  · rw [hr, hg]
    rfl

theorem ready (hq : Calm s t) (hp : (s.task p).state = .ready) : (t.task p).state = .ready := by
  rcases hq.state p with he | ⟨hr, _⟩
  · rw [he, hp]
  · exact hr

theorem trans (hst : Calm s t) (htu : Calm t u) : Calm s u where
  head := htu.head.trans hst.head
  curr := htu.curr.trans hst.curr
  live := htu.live.trans hst.live
  registered := htu.registered.trans hst.registered
  next p := (htu.next p).trans (hst.next p)
  pid p := (htu.pid p).trans (hst.pid p)
  parent p := by
    rcases htu.parent p with he | he
    · rw [he]
      exact hst.parent p
    · exact .inr (he.trans hst.head)
  state p := by
    rcases htu.state p with he | ⟨hr, hg⟩
    · rw [he]
      exact hst.state p
    · exact .inr ⟨hr, (hst.gone_eq p).symm.trans hg⟩
  wild hs := (htu.wild (hst.sound hs)).trans (hst.wild hs)

theorem zombie (hq : Calm s t) (hz : (s.task p).state = .zombie) : (t.task p).state = .zombie := by
  rcases hq.state p with he | ⟨_, hg⟩
  · rw [he, hz]
  · rw [hz] at hg
    cases hg

theorem set (hnext : (f (s.task p)).next = (s.task p).next) (hpid : (f (s.task p)).pid = (s.task p).pid)
    (hparent : (f (s.task p)).parent = (s.task p).parent ∨ (f (s.task p)).parent = s.head)
    (hstate : (f (s.task p)).state = (s.task p).state ∨ (f (s.task p)).state = .ready ∧ (s.task p).state.gone = false)
    (hlive : s.Sound → s.live p = true) : Calm s (s.set p f) := by
  have hcases : ∀ {P : Nat → Task → Prop}, (∀ q, P q (s.task q)) → P p (f (s.task p)) →
      ∀ q, P q ((s.set p f).task q) := by
    intro P hall hp q
    by_cases hqp : q = p
    · subst hqp
      rw [Tasks.set_task_self]
      exact hp
    · rw [Tasks.set_task_of_ne s f hqp]
      exact hall q
  refine ⟨rfl, rfl, rfl, rfl, ?_, ?_, ?_, ?_, ?_⟩
  · exact hcases (P := fun q x => x.next = (s.task q).next) (fun _ => rfl) hnext
  · exact hcases (P := fun q x => x.pid = (s.task q).pid) (fun _ => rfl) hpid
  · exact hcases (P := fun q x => x.parent = (s.task q).parent ∨ x.parent = s.head) (fun _ => .inl rfl) hparent
  · exact hcases (P := fun q x => x.state = (s.task q).state ∨
      x.state = .ready ∧ (s.task q).state.gone = false) (fun _ => .inl rfl) hstate
  · intro hs
    simp [Tasks.set, hlive hs]

end Calm

/-! Writes -/

/-- A write of the scheduler to the task at `p`. Tasks of `wake` may be set ready, and tasks of
`ends` may end; `curr` is the running task and `head` the one that gets the children. -/
inductive Write (wake ends : Nat → Prop) (curr head p : Nat) : Task → Task → Prop
  | wake {x : Task} (hw : wake p) (hg : x.state.gone = false) :
      Write wake ends curr head p x { x with state := .ready }
  | alarm {x : Task} (hs : x.state = .sleeping) :
      Write wake ends curr head p x { x with state := .ready, wakeTick := -1 }
  | signal {x : Task} (b : Bool) : Write wake ends curr head p x { x with sigint := b }
  | adopt {x : Task} (he : ends x.parent) : Write wake ends curr head p x { x with parent := head }
  | orphan {x : Task} (he : ends x.parent) (hw : wake p) (hg : x.state.gone = false) :
      Write wake ends curr head p x { x with parent := head, sigint := true, state := .ready }
  | closeWin {x : Task} (he : ends p ∨ x.state.gone = true) :
      Write wake ends curr head p x { x with win := 0 }
  | closeFd {x : Task} (he : ends p ∨ x.state.gone = true) (i : Nat) :
      Write wake ends curr head p x { x with fdTbl := update x.fdTbl i 0 }
  | pause {x : Task} (hp : p = curr) (st : TaskState) (hg : st.gone = false) (wakeTick : Int) :
      Write wake ends curr head p x { x with state := st, wakeTick := wakeTick }
  | zombie {x : Task} (he : ends p) (code : Int) :
      Write wake ends curr head p x { x with state := .zombie, retVal := code }
  | link {x : Task} (n : Nat) : Write wake ends curr head p x { x with next := n }

/-- A sequence of writes. -/
def Writes (wake ends : Nat → Prop) (curr head p : Nat) : Task → Task → Prop :=
  ReflTransGen (Write wake ends curr head p)

namespace Writes

variable {wake ends wake' ends' : Nat → Prop} {curr head : Nat} {x y : Task}

theorem field {α : Type} (g : Task → α) (h : Writes wake ends curr head p x y)
    (hg : ∀ {a b}, Write wake ends curr head p a b → g b = g a) : g y = g x := by
  induction h with
  | refl => rfl
  | tail _ hw ih => exact (hg hw).trans ih

theorem pid_eq (h : Writes wake ends curr head p x y) : y.pid = x.pid := by
  refine h.field Task.pid fun hw => ?_
  cases hw <;> rfl

theorem waitNext (h : Writes wake ends curr head p x y) : y.waitNext = x.waitNext := by
  refine h.field Task.waitNext fun hw => ?_
  cases hw <;> rfl

theorem win (h : Writes wake ends curr head p x y) : y.win = x.win ∨ y.win = 0 := by
  induction h with
  | refl => exact .inl rfl
  | tail _ hw ih =>
    cases hw with
    | closeWin => exact .inr rfl
    | _ => exact ih

theorem gone (h : Writes wake ends curr head p x y) (hp : p ≠ curr) (hx : x.state.gone = true) :
    y.state.gone = true := by
  induction h with
  | refl => exact hx
  | tail _ hw ih =>
    cases hw with
    | wake _ hg => exact absurd ih (by simp [hg])
    | alarm hs => exact absurd ih (by simp [hs, TaskState.gone])
    | orphan _ _ hg => exact absurd ih (by simp [hg])
    | pause he => exact absurd he hp
    | zombie => rfl
    | _ => exact ih

theorem waiting (h : Writes wake ends curr head p x y) (hw : ¬ wake p) (he : ¬ ends p) (hp : p ≠ curr)
    (hx : x.state = .waiting) : y.state = .waiting := by
  induction h with
  | refl => exact hx
  | tail _ hstep ih =>
    cases hstep with
    | wake h => exact absurd h hw
    | alarm hs => rw [ih] at hs; cases hs
    | orphan _ h => exact absurd h hw
    | pause h => exact absurd h hp
    | zombie h => exact absurd h he
    | _ => exact ih

theorem parent (h : Writes wake ends curr head p x y) : y.parent = x.parent ∨ ends x.parent := by
  induction h with
  | refl => exact .inl rfl
  | @tail a _ _ hw ih =>
    have hends : ends a.parent → ends x.parent := fun he => ih.elim (fun h => h ▸ he) id
    cases hw with
    | adopt he => exact .inr (hends he)
    | orphan he _ _ => exact .inr (hends he)
    | _ => exact ih

theorem mono (h : Writes wake ends curr head p x y)
    (hw : ∀ q, wake q → wake' q) (he : ∀ q, ends q → ends' q) : Writes wake' ends' curr head p x y := by
  refine Relation.ReflTransGen.mono (r := Write wake ends curr head p) (fun a b hab => ?_) _ _ h
  cases hab with
  | wake h hg => exact .wake (hw p h) hg
  | alarm h => exact .alarm h
  | signal b => exact .signal b
  | adopt h => exact .adopt (he _ h)
  | orphan h h' hg => exact .orphan (he _ h) (hw p h') hg
  | closeWin h => exact .closeWin (h.imp_left (he p))
  | closeFd h i => exact .closeFd (h.imp_left (he p)) i
  | pause h st hg w => exact .pause h st hg w
  | zombie h code => exact .zombie (he p h) code
  | link n => exact .link n

end Writes

/-- What happens to the tasks is a sequence of writes, and none depends on the running task. -/
structure Quiet (wake ends : Nat → Prop) (s t : Tasks) : Prop extends Calm s t where
  writes : ∀ curr p, Writes wake ends curr s.head p (s.task p) (t.task p)

namespace Quiet

variable {wake ends : Nat → Prop}

theorem refl : Quiet wake ends s s := ⟨.refl, fun _ _ => .refl⟩

theorem trans (hst : Quiet wake ends s t) (htu : Quiet wake ends t u) : Quiet wake ends s u where
  toCalm := hst.toCalm.trans htu.toCalm
  writes curr p := by
    have h := htu.writes curr p
    rw [hst.head] at h
    exact (hst.writes curr p).trans h

theorem of_set (hc : Calm s (s.set p f))
    (hw : ∀ curr, Write wake ends curr s.head p (s.task p) (f (s.task p))) : Quiet wake ends s (s.set p f) where
  toCalm := hc
  writes curr q := by
    by_cases hqp : q = p
    · subst hqp
      rw [Tasks.set_task_self]
      exact .single (hw curr)
    · rw [Tasks.set_task_of_ne s f hqp]
      exact .refl

theorem setTask (hc : Calm k.tasks (k.tasks.set p f))
    (hw : ∀ curr, Write wake ends curr k.tasks.head p (k.tasks.task p) (f (k.tasks.task p))) :
    Quiet wake ends k.tasks (k.setTask p f).tasks := of_set hc hw

theorem foldl {f : Tasks → Nat → Tasks} {l : List Nat}
    (hf : ∀ t, Quiet wake ends s t → ∀ i ∈ l, Quiet wake ends t (f t i)) : Quiet wake ends s (l.foldl f s) := by
  exact List.foldlRecOn l f refl fun t ht i hi => ht.trans (hf t ht i hi)

theorem setReady (hw : wake p) (hg : (s.task p).state.gone = false)
    (hlive : s.Sound → s.live p = true) : Quiet wake ends s (s.setState p .ready) :=
  .of_set (.set rfl rfl (.inl rfl) (.inr ⟨rfl, hg⟩) hlive) fun _ => .wake hw hg

theorem wakePid (hw : ∀ p, (s.task p).pid = pid → wake p) : Quiet wake ends s (schedWakePid s pid) := by
  unfold schedWakePid
  dsimp only
  split
  · next h => exact setReady (hw _ (find_pid h.1)) h.2 fun hs => hs _ (find_mem_ring h.1)
  · exact refl

theorem sendSignal : Quiet wake ends s (schedSendSignal s pid sigCode) := by
  unfold schedSendSignal
  dsimp only
  split
  · next hp =>
    exact .of_set (.set rfl rfl (.inl rfl) (.inl rfl) fun hs => hs _ (find_mem_ring hp)) fun _ => .signal _
  · exact refl

theorem sendEvent (hw : ∀ p, (s.task p).pid = pid → wake p) : Quiet wake ends s (winSendEventToOwner s pid) := by
  unfold winSendEventToOwner
  dsimp only
  split
  · exact refl
  split
  · next h =>
    refine setReady (hw _ (find_pid h.1)) ?_ fun hs => hs _ (find_mem_ring h.1)
    rcases h.2 with hst | hst <;> rw [hst] <;> rfl
  · exact refl

theorem reparentOne {owner : Bool} (he : ends p)
    (hw : owner = true → (s.task i).parent = p → wake i) (hi : s.Sound → s.live i = true) :
    Quiet wake ends s (reparentOne owner p s i) := by
  unfold Sched.reparentOne
  dsimp only
  split
  · next hparent =>
    have hends : ends (s.task i).parent := hparent ▸ he
    split
    · next howner =>
      rw [Tasks.set_set]
      have hg : (s.task i).state.gone = false := by simpa using howner.2.2
      exact .of_set (.set rfl rfl (.inr rfl) (.inr ⟨rfl, hg⟩) hi) fun _ =>
        .orphan hends (hw howner.1 hparent) hg
    · exact .of_set (.set rfl rfl (.inr rfl) (.inl rfl) hi) fun _ => .adopt hends
  · exact refl

theorem reparentChildren {owner : Bool} (hw : owner = true → ∀ i, (s.task i).parent = p → wake i) :
    Quiet wake (· = p) s (schedReparentChildren s owner p) := by
  refine foldl fun t hq i hi => reparentOne rfl (fun howner hparent => hw howner i ?_) (hq.live_of_mem hi)
  rcases (hq.writes 0 i).parent with he | he
  · exact he.symm.trans hparent
  · exact he

theorem wakeParent (hw : wake (s.task p).parent)
    (hp : s.Sound → (s.task p).parent ≠ 0 → s.live (s.task p).parent = true) : Quiet wake ends s (wakeParent s p) := by
  unfold Sched.wakeParent
  dsimp only
  split
  · next h => exact setReady hw h.2 fun hs => hp hs h.1
  · exact refl

theorem checkSleepingTasks : Quiet wake ends s (schedCheckSleepingTasks s now) := by
  refine foldl fun t hq i hi => ?_
  unfold wakeSleeper
  split
  · next hw =>
    have hg : (t.task i).state.gone = false := by
      rw [hw.1]
      rfl
    exact .of_set (.set rfl rfl (.inl rfl) (.inr ⟨rfl, hg⟩) (hq.live_of_mem hi)) fun _ => .alarm hw.1
  · exact refl

end Quiet

/-! Clean-ups -/

theorem cleanFds_ind {P : Kernel → Prop} (hk : P k)
    (hclose : ∀ x i, P x → P ((vfsClose x ((x.tasks.task p).fdTbl i)).setFd p i 0)) : P (schedCleanFds k p) := by
  refine List.foldlRecOn _ (cleanFd p) hk fun x hx i _ => ?_
  unfold cleanFd
  split
  · exact hx
  · exact hclose x i hx

/-- The pid of a task that waits at a pipe. -/
def Files.Waits (f : Files) (pid : Int) : Prop :=
  pid ≠ -1 ∧ ∃ i, (f.pipe i).readerPid = pid ∨ (f.pipe i).writerPid = pid

/-- Closing files and windows is quiet, and no task begins to wait at a pipe. -/
structure Closes (wake ends : Nat → Prop) (k k' : Kernel) : Prop where
  quiet : Quiet wake ends k.tasks k'.tasks
  waits : ∀ pid, k'.files.Waits pid → k.files.Waits pid

namespace Closes

variable {wake ends : Nat → Prop} {k'' : Kernel}

theorem refl : Closes wake ends k k := ⟨.refl, fun _ h => h⟩

theorem trans (h : Closes wake ends k k') (h' : Closes wake ends k' k'') : Closes wake ends k k'' :=
  ⟨h.quiet.trans h'.quiet, fun pid hw => h.waits pid (h'.waits pid hw)⟩

/-- The tasks that wait at a pipe may be woken. -/
def Wakes (wake : Nat → Prop) (k : Kernel) : Prop :=
  ∀ p, k.files.Waits (k.tasks.task p).pid → wake p

theorem wakes (h : Closes wake ends k k') (hw : Wakes wake k) : Wakes wake k' := by
  intro p hp
  rw [h.quiet.pid] at hp
  exact hw p (h.waits _ hp)

theorem setPipe {f : Pipe → Pipe} (hr : (f (k.files.pipe i)).readerPid = (k.files.pipe i).readerPid ∨
      (f (k.files.pipe i)).readerPid = -1) (hw : (f (k.files.pipe i)).writerPid = (k.files.pipe i).writerPid ∨
      (f (k.files.pipe i)).writerPid = -1) : Closes wake ends k (k.setPipe i f) := by
  refine ⟨.refl, ?_⟩
  rintro pid ⟨hne, j, hj⟩
  refine ⟨hne, j, ?_⟩
  by_cases hji : j = i
  · subst hji
    simp only [Kernel.setPipe, update_self] at hj
    rcases hj with hj | hj
    · exact .inl (hr.resolve_right (fun he => hne (hj ▸ he)) ▸ hj)
    · exact .inr (hw.resolve_right (fun he => hne (hj ▸ he)) ▸ hj)
  · simpa only [Kernel.setPipe, update_of_ne hji] using hj

theorem wakePid (hw : Wakes wake k) (hpid : k.files.Waits pid) :
    Closes wake ends k { k with tasks := schedWakePid k.tasks pid } :=
  ⟨.wakePid fun p hp => hw p (hp ▸ hpid), fun _ h => h⟩

theorem closeNode {n : Node} (hw : Wakes wake k) : Closes wake ends k (closeNode k n) := by
  cases n with
  | pipeRead i =>
    have hopen : Closes wake ends k (k.setPipe i fun x => { x with readOpen := false }) :=
      setPipe (.inl rfl) (.inl rfl)
    simp only [Sched.closeNode, pipeCloseReader]
    split
    · next hne =>
      refine (hopen.trans (wakePid (hopen.wakes hw) ⟨hne, i, .inr rfl⟩)).trans ?_
      exact setPipe (.inl rfl) (.inr rfl)
    · exact hopen
  | pipeWrite i =>
    have hopen : Closes wake ends k (k.setPipe i fun x => { x with writeOpen := false }) :=
      setPipe (.inl rfl) (.inl rfl)
    simp only [Sched.closeNode, pipeCloseWriter]
    split
    · next hne =>
      refine (hopen.trans (wakePid (hopen.wakes hw) ⟨hne, i, .inl rfl⟩)).trans ?_
      exact setPipe (.inr rfl) (.inl rfl)
    · exact hopen
  | other => exact refl

theorem setHandle {f : Handle → Handle} : Closes wake ends k (k.setHandle h f) := ⟨.refl, fun _ hw => hw⟩

theorem vfsClose (hw : Wakes wake k) : Closes wake ends k (vfsClose k h) := by
  unfold Sched.vfsClose
  dsimp only
  split
  · exact refl
  split
  · exact setHandle
  · exact (setHandle.trans (closeNode hw)).trans setHandle

/-- The task of a clean-up ends or has ended. -/
def Ended (ends : Nat → Prop) (k : Kernel) (p : Nat) : Prop :=
  ends p ∨ (k.tasks.task p).state.gone = true

theorem ended (h : Closes wake ends k k') (hp : Ended ends k p) : Ended ends k' p :=
  hp.imp_right (h.quiet.gone_eq p).trans

theorem cleanFds (hw : Wakes wake k) (he : Ended ends k p)
    (hp : k.tasks.Sound → k.tasks.live p = true) : Closes wake ends k (schedCleanFds k p) := by
  refine cleanFds_ind refl fun x i hx => ?_
  have hx' := hx.trans (vfsClose (hx.wakes hw) (h := (x.tasks.task p).fdTbl i))
  refine hx'.trans ⟨.setTask (.set rfl rfl (.inl rfl) (.inl rfl) ?_) ?_, fun _ h => h⟩
  · intro hs
    rw [hx'.quiet.live]
    exact hp fun q hq => hx'.quiet.live ▸ hs q (hx'.quiet.ring_eq.symm ▸ hq)
  · exact fun _ => .closeFd (hx'.ended he) i

theorem cleanGui (he : Ended ends k p) (hp : k.tasks.Sound → k.tasks.live p = true) :
    Closes wake ends k (schedCleanGui k p) := by
  unfold schedCleanGui
  dsimp only
  split
  · exact refl
  · split <;>
      exact ⟨.setTask (.set rfl rfl (.inl rfl) (.inl rfl) hp) fun _ => .closeWin he, fun _ h => h⟩

theorem cleanGui_win : ((schedCleanGui k p).tasks.task p).win = 0 := by
  unfold schedCleanGui
  dsimp only
  split
  · next h0 => exact h0
  · split <;> simp [Kernel.setTask]

theorem clean (hw : Wakes wake k) (he : Ended ends k p) (hp : k.tasks.Sound → k.tasks.live p = true) :
    Closes wake ends k (schedCleanFds (schedCleanGui k p) p) := by
  have hgui : Closes wake ends k (schedCleanGui k p) := cleanGui he hp
  refine hgui.trans (cleanFds (hgui.wakes hw) (hgui.ended he) fun hs => ?_)
  rw [hgui.quiet.live]
  exact hp fun q hq => hgui.quiet.live ▸ hs q (hgui.quiet.ring_eq.symm ▸ hq)

theorem clean_win (hp : k.tasks.Sound → k.tasks.live p = true) :
    ((schedCleanFds (schedCleanGui k p) p).tasks.task p).win = 0 := by
  have hgui : Closes (fun _ => True) (fun _ => True) k (schedCleanGui k p) := cleanGui (.inl trivial) hp
  have hfds : Closes (fun _ => True) (fun _ => True) (schedCleanGui k p) (schedCleanFds (schedCleanGui k p) p) := by
    refine cleanFds (fun _ _ => trivial) (.inl trivial) fun hs => ?_
    rw [hgui.quiet.live]
    exact hp fun q hq => hgui.quiet.live ▸ hs q (hgui.quiet.ring_eq.symm ▸ hq)
  rcases (hfds.quiet.writes 0 p).win with he | he
  · exact he.trans cleanGui_win
  · exact he

end Closes

/-! The close operations change pipes and wake tasks, and the windows are no files. -/

theorem closeNode_frame {n : Node} :
    (closeNode k n).files.handle = k.files.handle ∧ (closeNode k n).windows = k.windows := by
  cases n with
  | pipeRead i =>
    simp only [closeNode, pipeCloseReader]
    split <;> exact ⟨rfl, rfl⟩
  | pipeWrite i =>
    simp only [closeNode, pipeCloseWriter]
    split <;> exact ⟨rfl, rfl⟩
  | other => exact ⟨rfl, rfl⟩

theorem cleanGui_files : (schedCleanGui k p).files = k.files := by
  unfold schedCleanGui
  dsimp only
  split
  · rfl
  · split <;> rfl

end NyanOS.Sched
