import NyanOS.Files.Model
import NyanOS.Lib.SlotTable

/-!
# Handles and the slots that refer to them

What a step on a slot or a handle keeps. The parts of a system call leave a slot uncounted for a while:
its handle is closed and then the slot is cleared, or the slot is copied and then the handle retained.
-/
namespace NyanOS.Files

open Lib Sched Function

/-! Tasks -/

/-- No task is allocated or freed, and the tables of open files stay. -/
structure SameFds (s t : Tasks) : Prop where
  live : t.live = s.live
  fd : ∀ p, (t.task p).fdTbl = (s.task p).fdTbl

namespace SameFds

variable {s t u : Tasks} {p sigCode q : Nat} {pid now code wakeTick : Int}

theorem refl : SameFds s s := ⟨rfl, fun _ => rfl⟩

theorem trans (hst : SameFds s t) (htu : SameFds t u) : SameFds s u :=
  ⟨htu.live.trans hst.live, fun p => (htu.fd p).trans (hst.fd p)⟩

theorem set {f : Task → Task} (hf : ∀ x, (f x).fdTbl = x.fdTbl) : SameFds s (s.set p f) :=
  ⟨rfl, fun q => s.set_field p q f Task.fdTbl hf⟩

theorem setTask {k : Kernel} {f : Task → Task} (hf : ∀ x, (f x).fdTbl = x.fdTbl) :
    SameFds k.tasks (k.setTask p f).tasks := set hf

theorem foldl {f : Tasks → Nat → Tasks} {l : List Nat} (hf : ∀ s p, SameFds s (f s p)) : SameFds s (l.foldl f s) := by
  exact List.foldlRecOn l f .refl fun t ht p _ => ht.trans (hf t p)

theorem wakePid : SameFds s (schedWakePid s pid) := by
  unfold schedWakePid
  dsimp only
  split
  · exact .set fun _ => rfl
  · exact .refl

theorem sendSignal : SameFds s (schedSendSignal s pid sigCode) := by
  unfold schedSendSignal
  dsimp only
  split
  · exact .set fun _ => rfl
  · exact .refl

theorem reparentChildren {owner : Bool} : SameFds s (schedReparentChildren s owner p) := by
  refine foldl fun s q => ?_
  unfold reparentOne
  split
  · dsimp only
    split
    · exact trans (set (by intro; rfl)) (set (by intro; rfl))
    · exact .set fun _ => rfl
  · exact .refl

theorem checkSleepingTasks : SameFds s (schedCheckSleepingTasks s now) := by
  refine foldl fun s q => ?_
  unfold wakeSleeper
  split
  · exact .set fun _ => rfl
  · exact .refl

theorem becomeZombie : SameFds s (becomeZombie s p code) := by
  unfold Sched.becomeZombie wakeParent
  dsimp only
  split
  · exact trans (set (by intro; rfl)) (set (by intro; rfl))
  · exact .set fun _ => rfl

theorem schedule : SameFds s (Sched.schedule s) := by
  obtain ⟨c, hc⟩ := Keeps.schedule_eq s
  rw [hc]
  exact ⟨rfl, fun _ => rfl⟩

theorem block : SameFds s (schedBlock s) := trans (set (by intro; rfl)) .schedule

theorem sleep : SameFds s (sysSleep s wakeTick) := trans (set (by intro; rfl)) .schedule

theorem bypass : SameFds s (s.bypass p q) := set (by intro; rfl)

end SameFds

/-! Handles -/

/-- Whether the pipe of a node is open at the end of the node. -/
def opened (f : Sched.Files) : Node → Bool
  | .pipeRead b => (f.pipe b).readOpen
  | .pipeWrite b => (f.pipe b).writeOpen
  | .other => false

def hasPipe (pipeLive : Nat → Bool) : Node → Bool
  | .pipeRead b => pipeLive b
  | .pipeWrite b => pipeLive b
  | .other => false

/-- The slots of all tasks. -/
def slots (k : Kernel) : Set (Nat × Nat) := {x | k.tasks.live x.1 = true ∧ x.2 < maxOpenFiles}

def slot (k : Kernel) (x : Nat × Nat) : Nat := (k.tasks.task x.1).fdTbl x.2

/-- The handles agree with the slots `V`, and each was closed once for every time it was opened, unless
it is open. -/
structure Counts (opens : Nat → Nat) (k : Kernel) (V : Set (Nat × Nat)) : Prop where
  counted : Counted V (slot k) (fun h => (k.files.handle h).refCount) fun h => (k.files.handle h).live = true
  closes : ∀ h, (k.files.handle h).closes + (k.files.handle h).live.toNat = opens h

/-- A pipe is open at an end as long as the handle of this end lives. -/
structure Bits (pipeLive : Nat → Bool) (f : Sched.Files) : Prop where
  pipe : ∀ h, (f.handle h).live = true → (f.handle h).node ≠ .other → hasPipe pipeLive (f.handle h).node = true
  unique : ∀ h h', (f.handle h).live = true → (f.handle h').live = true → (f.handle h).node ≠ .other →
    (f.handle h).node = (f.handle h').node → h = h'
  bit : ∀ n, hasPipe pipeLive n = true →
    (opened f n = true ↔ ∃ h, (f.handle h).live = true ∧ (f.handle h).node = n)

structure Exact (pipeLive : Nat → Bool) (opens : Nat → Nat) (k : Kernel) (V : Set (Nat × Nat)) : Prop
    extends Counts opens k V, Bits pipeLive k.files

variable {pipeLive : Nat → Bool} {opens : Nat → Nat} {k k' : Kernel} {V W : Set (Nat × Nat)} {x : Nat × Nat}
  {h p i b v : Nat} {n m : Node}

theorem closeNode_sameFds : SameFds k.tasks (closeNode k n).tasks := by
  cases n with
  | pipeRead b =>
    simp only [closeNode, pipeCloseReader]
    split
    · exact .wakePid
    · exact .refl
  | pipeWrite b =>
    simp only [closeNode, pipeCloseWriter]
    split
    · exact .wakePid
    · exact .refl
  | other => exact .refl

theorem closeNode_opened : opened (closeNode k n).files m = true ↔ opened k.files m = true ∧ m ≠ n := by
  cases n with
  | pipeRead b =>
    simp only [closeNode, pipeCloseReader]
    split <;> cases m with
    | pipeRead b' => by_cases hb : b' = b <;> simp [opened, Kernel.setPipe, hb]
    | pipeWrite b' => by_cases hb : b' = b <;> simp [opened, Kernel.setPipe, hb]
    | other => simp [opened]
  | pipeWrite b =>
    simp only [closeNode, pipeCloseWriter]
    split <;> cases m with
    | pipeRead b' => by_cases hb : b' = b <;> simp [opened, Kernel.setPipe, hb]
    | pipeWrite b' => by_cases hb : b' = b <;> simp [opened, Kernel.setPipe, hb]
    | other => simp [opened]
  | other => cases m <;> simp [opened, closeNode]

/-- The handle after `vfs_close`. -/
def Handle.closed (x : Handle) : Handle :=
  if 0 < x.refCount - 1 then { x with refCount := x.refCount - 1 }
  else { x with refCount := x.refCount - 1, live := false, closes := x.closes + 1 }

theorem vfsClose_handle (h0 : h ≠ 0) : (vfsClose k h).files.handle =
    update k.files.handle h (Handle.closed (k.files.handle h)) := by
  unfold vfsClose Handle.closed
  rw [if_neg h0]
  simp only [Kernel.setHandle, update_self]
  split
  · rfl
  · simp [closeNode_frame.1]

theorem vfsClose_opened (h0 : h ≠ 0) : opened (vfsClose k h).files m = true ↔
    opened k.files m = true ∧ (¬ 0 < (k.files.handle h).refCount - 1 → m ≠ (k.files.handle h).node) := by
  unfold vfsClose
  rw [if_neg h0]
  simp only [Kernel.setHandle, update_self]
  split
  · next hpos => exact ⟨fun ho => ⟨ho, fun hn => absurd hpos hn⟩, fun ho => ho.1⟩
  next hpos =>
  simp only [hpos, not_false_eq_true, true_imp_iff]
  exact closeNode_opened (n := (k.files.handle h).node)

theorem vfsClose_sameFds : SameFds k.tasks (vfsClose k h).tasks := by
  unfold vfsClose
  split
  · exact .refl
  dsimp only
  split
  · exact .refl
  · exact closeNode_sameFds (k := k.setHandle h _)

/-- A handle that lives and refers to the node. -/
def Refers (f : Sched.Files) (n : Node) (h : Nat) : Prop := (f.handle h).live = true ∧ (f.handle h).node = n

/-- What `Bits` says about one end of a pipe. -/
structure EndOk (pipeLive : Nat → Bool) (f : Sched.Files) (n : Node) : Prop where
  pipe : ∀ h, Refers f n h → hasPipe pipeLive n = true
  unique : ∀ h h', Refers f n h → Refers f n h' → h = h'
  bit : hasPipe pipeLive n = true → (opened f n = true ↔ ∃ h, Refers f n h)

namespace EndOk

variable {pipeLive' : Nat → Bool} {f f' : Sched.Files}

theorem congr (he : EndOk pipeLive f n) (hr : ∀ h, Refers f' n h ↔ Refers f n h)
    (hp : hasPipe pipeLive' n = hasPipe pipeLive n) (ho : opened f' n = opened f n) : EndOk pipeLive' f' n := by
  refine ⟨fun h hh => hp ▸ he.pipe h ((hr h).mp hh), fun h h' hh hh' => he.unique h h' ((hr h).mp hh) ((hr h').mp hh'),
    fun hpl => ?_⟩
  rw [ho, he.bit (hp ▸ hpl)]
  exact exists_congr fun h => (hr h).symm

theorem of_one (h : Nat) (hp : hasPipe pipeLive n = true) (ho : opened f n = true) (hr : ∀ g, Refers f n g ↔ g = h) :
    EndOk pipeLive f n :=
  ⟨fun _ _ => hp, fun g g' hg hg' => ((hr g).mp hg).trans ((hr g').mp hg').symm, fun _ => iff_of_true ho ⟨h, (hr h).mpr rfl⟩⟩

end EndOk

namespace Bits

variable {f : Sched.Files}

theorem endOk (hb : Bits pipeLive f) (hn : n ≠ .other) : EndOk pipeLive f n :=
  ⟨fun h hr => hr.2 ▸ hb.pipe h hr.1 (hr.2 ▸ hn),
    fun h h' hr hr' => hb.unique h h' hr.1 hr'.1 (hr.2 ▸ hn) (hr.2.trans hr'.2.symm), hb.bit n⟩

theorem of_ends (hall : ∀ n ≠ .other, EndOk pipeLive f n) : Bits pipeLive f := by
  refine ⟨fun h hl hn => (hall _ hn).pipe h ⟨hl, rfl⟩,
    fun h h' hl hl' hn he => (hall _ hn).unique h h' ⟨hl, rfl⟩ ⟨hl', he.symm⟩, fun n hn => (hall n ?_).bit hn⟩
  rintro rfl
  cases hn

theorem close (hb : Bits pipeLive k.files) (h0 : h ≠ 0) (hl : (k.files.handle h).live = true) :
    Bits pipeLive (vfsClose k h).files := by
  have hrefers : ∀ n g, Refers (vfsClose k h).files n g ↔
      Refers k.files n g ∧ (g = h → 0 < (k.files.handle h).refCount - 1) := by
    intro n g
    rw [Refers, Refers, vfsClose_handle h0]
    by_cases hg : g = h
    · subst hg
      rw [update_self, Handle.closed]
      split
      · next hpos => exact (and_iff_left fun _ => hpos).symm
      · next hpos => exact iff_of_false (fun hr => Bool.false_ne_true hr.1) fun hr => hpos (hr.2 rfl)
    · simp [hg]
  refine of_ends fun n hn => ?_
  have hold := hb.endOk hn
  refine ⟨fun g hg => hold.pipe g ((hrefers n g).mp hg).1,
    fun g g' hg hg' => hold.unique g g' ((hrefers n g).mp hg).1 ((hrefers n g').mp hg').1, fun hp => ?_⟩
  rw [vfsClose_opened h0, hold.bit hp]
  constructor
  · rintro ⟨⟨g, hg⟩, hlast⟩
    refine ⟨g, (hrefers n g).mpr ⟨hg, fun hgh => ?_⟩⟩
    by_contra hpos
    exact hlast hpos (hgh ▸ hg.2.symm)
  · rintro ⟨g, hg⟩
    obtain ⟨hg, hpos⟩ := (hrefers n g).mp hg
    exact ⟨⟨g, hg⟩, fun hneg he => hneg (hpos (hold.unique g h hg ⟨hl, he.symm⟩))⟩

theorem init (hb : Bits pipeLive k.files) (hdead : (k.files.handle h).live = false) {y : Handle}
    (hy : y.node = .other) : Bits pipeLive { k.files with handle := update k.files.handle h y } := by
  refine of_ends fun n hn => (hb.endOk hn).congr (fun g => ?_) rfl (by cases n <;> rfl)
  by_cases hg : g = h
  · subst hg
    simp [Refers, hy, hdead, hn.symm]
  · simp [Refers, hg]

theorem of_handles (hb : Bits pipeLive k.files) (hp : k'.files.pipe = k.files.pipe)
    (hl : ∀ h, (k'.files.handle h).live = (k.files.handle h).live)
    (hn : ∀ h, (k'.files.handle h).node = (k.files.handle h).node) : Bits pipeLive k'.files :=
  of_ends fun n hne => (hb.endOk hne).congr (fun g => by rw [Refers, Refers, hl, hn]) rfl (by cases n <;> simp [opened, hp])

theorem setPipe {g : Pipe → Pipe} (hb : Bits pipeLive k.files) (hp : pipeLive b = false) :
    Bits pipeLive (k.setPipe b g).files := by
  refine ⟨hb.pipe, hb.unique, fun n hn => ?_⟩
  have ho : opened (k.setPipe b g).files n = opened k.files n := by
    cases n with
    | pipeRead b' | pipeWrite b' =>
      have hne : b' ≠ b := by
        rintro rfl
        rw [hasPipe, hp] at hn
        cases hn
      simp [opened, Kernel.setPipe, hne]
    | other => rfl
  rw [ho]
  exact hb.bit n hn

theorem newPipe {b g : Nat} {y z : Handle} {x : Pipe} (hb : Bits pipeLive f) (hp : pipeLive b = false)
    (hh : (f.handle h).live = false) (hg : (f.handle g).live = false) (hne : h ≠ g)
    (hy : y.live = true ∧ y.node = .pipeRead b) (hz : z.live = true ∧ z.node = .pipeWrite b)
    (hx : x.readOpen = true ∧ x.writeOpen = true) : Bits (update pipeLive b true)
      ⟨update (update f.handle h y) g z, update f.pipe b x⟩ := by
  -- no handle referred to the pipe before
  have hread : ∀ j, ¬ Refers f (.pipeRead b) j := fun j hj => by
    simpa [hasPipe, hp] using (hb.endOk Node.noConfusion).pipe j hj
  have hwrite : ∀ j, ¬ Refers f (.pipeWrite b) j := fun j hj => by
    simpa [hasPipe, hp] using (hb.endOk Node.noConfusion).pipe j hj
  have hrefers : ∀ n j, Refers ⟨update (update f.handle h y) g z, update f.pipe b x⟩ n j ↔
      j = h ∧ .pipeRead b = n ∨ j = g ∧ .pipeWrite b = n ∨ Refers f n j := by
    intro n j
    by_cases hjg : j = g
    · subst hjg
      simp [Refers, hz, hg, hne.symm]
    by_cases hjh : j = h
    · subst hjh
      simp [Refers, hy, hh, hne]
    · simp [Refers, hjg, hjh]
  refine of_ends fun n hn => ?_
  by_cases hr : .pipeRead b = n
  · subst hr
    exact .of_one h (by simp [hasPipe]) (by simp [opened, hx]) fun j => by simp [hrefers, hread]
  by_cases hw : .pipeWrite b = n
  · subst hw
    exact .of_one g (by simp [hasPipe]) (by simp [opened, hx]) fun j => by simp [hrefers, hwrite]
  refine (hb.endOk hn).congr (fun j => by simp [hrefers, hr, hw]) ?_ ?_
  all_goals
    cases n with
    | pipeRead b' | pipeWrite b' =>
      have hb' : b' ≠ b := by
        rintro rfl
        simp at hr hw
      simp [hasPipe, opened, hb']
    | other => rfl

end Bits

theorem setHandle_field {α : Type} {f : Handle → Handle} (g : Handle → α) (hg : ∀ x, g (f x) = g x)
    (h i : Nat) : g ((k.setHandle h f).files.handle i) = g (k.files.handle i) := by
  by_cases hi : i = h
  · subst hi
    simp [Kernel.setHandle, hg]
  · simp [Kernel.setHandle, update_of_ne hi]

theorem slot_setFd (hx : x ≠ (p, i)) : slot (k.setFd p i v) x = slot k x := by
  obtain ⟨q, j⟩ := x
  unfold slot Kernel.setFd Kernel.setTask
  by_cases hq : q = p
  · subst hq
    have hj : j ≠ i := fun hj => hx (by rw [hj])
    simp [update_of_ne hj]
  · rw [Tasks.set_task_of_ne _ _ hq]

theorem slot_setFd_self : slot (k.setFd p i v) (p, i) = v := by
  simp [slot, Kernel.setFd, Kernel.setTask]

theorem SameFds.slot (hs : SameFds k.tasks k'.tasks) : Files.slot k' = Files.slot k := by
  funext x
  simp only [Files.slot, hs.fd]

theorem SameFds.slots (hs : SameFds k.tasks k'.tasks) : Files.slots k' = Files.slots k := by
  simp only [Files.slots, hs.live]

theorem Counts.write (hc : Counts opens k V) (hf : k'.files.handle = k.files.handle)
    (ht : ∀ x ∈ V, slot k' x = slot k x) : Counts opens k' V := by
  refine ⟨?_, ?_⟩
  · rw [hf]
    exact hc.counted.write ht
  · rw [hf]
    exact hc.closes

theorem Counts.null_slots (hc : Counts opens k V) (hW : W.Finite)
    (h0 : ∀ x, slot k x ≠ 0 → (x ∈ W ↔ x ∈ V)) : Counts opens k W :=
  ⟨hc.counted.null_slots hW h0, hc.closes⟩

theorem Counts.init {s : FileState} (hc : Counts s.opens s.kernel V) (hx : x ∉ V) (h0 : slot s.kernel x ≠ 0)
    (hdead : (s.kernel.files.handle (slot s.kernel x)).live = false) :
    Counts (initHandle s (slot s.kernel x) n).opens (initHandle s (slot s.kernel x) n).kernel (insert x V) := by
  generalize hh : slot s.kernel x = h at *
  have hself : (initHandle s h n).kernel.files.handle h =
      { s.kernel.files.handle h with node := n, refCount := 1, holder := 0, live := true } :=
    update_self ..
  have hother : ∀ g, g ≠ h → (initHandle s h n).kernel.files.handle g = s.kernel.files.handle g :=
    fun g hg => update_of_ne hg ..
  have hnone : refs V (slot s.kernel) h = ∅ := hc.counted.refs_eq_empty h0 (by simp [hdead])
  subst hh
  refine ⟨?_, fun g => ?_⟩
  · refine hc.counted.acquire hx h0 (by rw [hself]) ?_ (fun g hg => by rw [hother g hg]) fun g hg => by
      rw [hother g hg]
    rw [hself, hnone]
    simp
  · have hcl := hc.closes g
    by_cases hg : g = slot s.kernel x
    · subst hg
      rw [hself]
      simp only [initHandle, update_self, Bool.toNat_true, ← hcl, hdead, Bool.toNat_false]
    · rw [hother g hg]
      simpa only [initHandle, update_of_ne hg] using hcl

namespace Exact

section

variable (he : Exact pipeLive opens k V)
include he

theorem write (hf : k'.files = k.files) (ht : ∀ x ∈ V, slot k' x = slot k x) : Exact pipeLive opens k' V :=
  ⟨he.toCounts.write (by rw [hf]) ht, by rw [hf]; exact he.toBits⟩

theorem same (hs : SameFds k.tasks k'.tasks) (hf : k'.files = k.files) : Exact pipeLive opens k' V :=
  he.write hf fun x _ => by rw [hs.slot]

theorem null_slots (hW : W.Finite) (h0 : ∀ x, slot k x ≠ 0 → (x ∈ W ↔ x ∈ V)) : Exact pipeLive opens k W :=
  ⟨he.toCounts.null_slots hW h0, he.toBits⟩

theorem close (hx : x ∈ V) (h0 : slot k x ≠ 0) : Exact pipeLive opens (vfsClose k (slot k x)) (V \ {x}) := by
  have hl := he.counted.live_of_slot hx h0
  have hother : ∀ g, g ≠ slot k x → (vfsClose k (slot k x)).files.handle g = k.files.handle g := by
    intro g hg
    rw [vfsClose_handle h0, update_of_ne hg]
  have hself : (vfsClose k (slot k x)).files.handle (slot k x) = Handle.closed (k.files.handle (slot k x)) := by
    rw [vfsClose_handle h0, update_self]
  refine ⟨⟨?_, fun g => ?_⟩, he.toBits.close h0 hl⟩
  · rw [vfsClose_sameFds.slot]
    refine he.counted.release hx h0 ?_ ?_ (fun g hg => by rw [hother g hg]) fun g hg => by rw [hother g hg]
    · rw [hself, Handle.closed]
      split <;> rfl
    · rw [hself, Handle.closed]
      split
      · next hpos => exact iff_of_true hl hpos
      · next hpos => simp only [hpos, Bool.false_eq_true]
  · by_cases hg : g = slot k x
    · subst hg
      rw [hself, Handle.closed, ← he.closes]
      split
      · rfl
      · simp [hl]
    · rw [hother g hg]
      exact he.closes g

theorem retain (hx : x ∉ V) (h0 : slot k x ≠ 0) (hl : (k.files.handle (slot k x)).live = true) :
    Exact pipeLive opens (vfsRetain k (slot k x)) (insert x V) := by
  unfold vfsRetain
  rw [if_neg h0]
  generalize hf : (fun y : Handle => { y with refCount := y.refCount + 1 }) = f
  have hlive : ∀ g, ((k.setHandle (slot k x) f).files.handle g).live = (k.files.handle g).live :=
    fun g => setHandle_field Handle.live (by simp [← hf]) _ g
  have hcloses : ∀ g, ((k.setHandle (slot k x) f).files.handle g).closes = (k.files.handle g).closes :=
    fun g => setHandle_field Handle.closes (by simp [← hf]) _ g
  have hnode : ∀ g, ((k.setHandle (slot k x) f).files.handle g).node = (k.files.handle g).node :=
    fun g => setHandle_field Handle.node (by simp [← hf]) _ g
  have hother : ∀ g, g ≠ slot k x → (k.setHandle (slot k x) f).files.handle g = k.files.handle g :=
    fun g hg => update_of_ne hg ..
  refine ⟨⟨?_, fun g => ?_⟩, he.toBits.of_handles rfl hlive hnode⟩
  · refine he.counted.acquire hx h0 ((hlive _).trans hl) ?_ (fun g _ => by rw [hlive]) fun g hg => by rw [hother g hg]
    have hcount := he.counted.count_eq _ hl
    simp [Kernel.setHandle, ← hf, hcount]
  · rw [hlive, hcloses]
    exact he.closes g

end

theorem init {s : FileState} (he : Exact s.pipeLive s.opens s.kernel V) (hx : x ∉ V) (h0 : slot s.kernel x ≠ 0)
    (hdead : (s.kernel.files.handle (slot s.kernel x)).live = false) :
    Exact s.pipeLive (initHandle s (slot s.kernel x) .other).opens
      (initHandle s (slot s.kernel x) .other).kernel (insert x V) :=
  ⟨he.toCounts.init hx h0 hdead, he.toBits.init hdead rfl⟩

end Exact

/-! The table of slots -/

def table : SlotTable Kernel where
  slot := slot
  used k := k.tasks.live
  live k h := (k.files.handle h).live = true
  setFd := Kernel.setFd
  close := vfsClose
  retain := vfsRetain
  slot_setFd k p i v := by
    funext x
    by_cases hx : x = (p, i)
    · rw [hx, slot_setFd_self, update_self]
    · rw [slot_setFd hx, update_of_ne hx]
  slot_close _ _ := vfsClose_sameFds.slot
  slot_retain k h := by
    unfold vfsRetain
    split <;> rfl
  used_setFd _ _ _ _ := rfl
  used_close _ _ := vfsClose_sameFds.live
  used_retain k h := by
    unfold vfsRetain
    split <;> rfl
  live_setFd _ _ _ _ _ hg := hg
  live_retain k h g hg := by
    unfold vfsRetain
    split
    · exact hg
    · exact (setHandle_field Handle.live (by intro; rfl) h g).trans hg

theorem kept : table.Kept (Exact pipeLive opens) where
  finite he := he.counted.finite
  live_of_slot he := he.counted.live_of_slot
  null_slots := Exact.null_slots
  write he hx := he.write rfl fun y hy => slot_setFd fun heq => hx (heq ▸ hy)
  close := Exact.close
  retain := Exact.retain

theorem table_slot : table.slot = slot := rfl

theorem slots_eq : slots k = rows (table.used k) maxOpenFiles := rfl

theorem schedCleanFds_eq : schedCleanFds k p = (List.range maxOpenFiles).foldl (table.cleanFd p) k := by
  have hone : cleanFd p = table.cleanFd p := rfl
  rw [schedCleanFds, hone]

theorem cleanFds_slot (hi : i < maxOpenFiles) : slot (schedCleanFds k p) (p, i) = 0 := by
  rw [schedCleanFds_eq, ← table_slot, table.cleanFds_frame.2]
  exact if_pos ⟨rfl, List.mem_range.mpr hi⟩

theorem Exact.cleanFds (he : Exact pipeLive opens k (slots k)) (hp : k.tasks.live p = true) :
    Exact pipeLive opens (schedCleanFds k p) (slots (schedCleanFds k p)) := by
  rw [schedCleanFds_eq, slots_eq]
  exact kept.cleanFds he hp

end NyanOS.Files
