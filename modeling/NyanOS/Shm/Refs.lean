import NyanOS.Shm.Model

/-!
# The slots that refer to a handle

As long as no node is marked for `vfs_close` to free, a close frees at most the handle. The handles count the
slots that refer to them, so no slot refers to a block that has become something else.
-/
namespace NyanOS.Shm

open Lib Function List
open Sched (maxOpenFiles)

def slots (s : State) : Set (Nat × Nat) := {x | s.tasks x.1 = true ∧ x.2 < maxOpenFiles}

def slot (s : State) (x : Nat × Nat) : Nat := s.fd x.1 x.2

/-- The slots `V` count as references; `known` are objects seen earlier, with their names. -/
structure Inv (known : Nat → Name → Prop) (s : State) (V : Set (Nat × Nat)) : Prop where
  counted : Counted V (slot s) (fun h => (s.handle h).refCount) fun h => s.use h = .handle
  nodes : ∀ h, s.use h = .handle → s.use (s.handle h).node = .node
  plain : ∀ n, s.use n = .node → (s.node n).flags &&& vfsNodeAutofree = 0
  stdio : s.use s.stdinNode = .node ∧ s.use s.stdoutNode = .node
  shms : ∀ a ∈ s.shmList, s.use a = .shm ∧ (s.shm a).name.length ≤ 63
  names : (s.shmList.map fun a => (s.shm a).name).Nodup
  known : ∀ a name, known a name → a ∈ s.shmList ∧ (s.shm a).name = name

variable {known : Nat → Name → Prop} {s t : State} {V W : Set (Nat × Nat)} {x : Nat × Nat} {a h n p i c j q child : Nat}
  {name : Name} {flags mode : BitVec 32}

theorem slot_setFd (hx : x ≠ (p, i)) : slot (s.setFd p i h) x = slot s x := by
  obtain ⟨q, j⟩ := x
  by_cases hq : q = p
  · subst hq
    have hj : j ≠ i := fun he => hx (by rw [he])
    simp [slot, State.setFd, hj]
  · simp [slot, State.setFd, hq]

theorem slot_setFd_self : slot (s.setFd p i h) (p, i) = h := by simp [slot, State.setFd]

theorem update_use {u v : Use} (hc : update s.use a u n = v) (hu : u ≠ v) : s.use n = v ∧ n ≠ a := by
  by_cases hn : n = a
  · subst hn
    rw [update_self] at hc
    exact absurd hc hu
  · rw [update_of_ne hn] at hc
    exact ⟨hc, hn⟩

theorem use_update_iff {u v : Use} (hfree : s.use a = .free) (hu : u ≠ .free) (hv : v ≠ u) :
    update s.use a v c = u ↔ s.use c = u := by
  refine ⟨fun hc => (update_use hc hv).1, fun hc => ?_⟩
  have hne : c ≠ a := by
    rintro rfl
    exact hu (hc.symm.trans hfree)
  rw [update_of_ne hne, hc]

theorem setShm_name {y : SharedMem} (hy : y.name = (s.shm a).name) (c : Nat) :
    ((s.setShm a y).shm c).name = (s.shm c).name := by
  by_cases hc : c = a
  · subst hc
    simp [State.setShm, hy]
  · simp [State.setShm, hc]

/-- Everything but the counts of objects, handles and the use of blocks is as before. -/
structure Frame (s t : State) : Prop where
  node : t.node = s.node
  fd : t.fd = s.fd
  tasks : t.tasks = s.tasks
  shmList : t.shmList = s.shmList
  name : ∀ a, (t.shm a).name = (s.shm a).name
  stdio : t.stdinNode = s.stdinNode ∧ t.stdoutNode = s.stdoutNode

theorem Frame.slot (hf : Frame s t) : slot t = slot s := by
  funext x
  rw [Shm.slot, Shm.slot, hf.fd]

theorem shmClose_frame : Frame s (shmClose s n) ∧ (shmClose s n).use = s.use ∧ (shmClose s n).handle = s.handle := by
  rw [shmClose]
  split
  · exact ⟨⟨rfl, rfl, rfl, rfl, fun _ => rfl, rfl, rfl⟩, rfl, rfl⟩
  · exact ⟨⟨rfl, rfl, rfl, rfl, setShm_name rfl, rfl, rfl⟩, rfl, rfl⟩

theorem vfsRelease_spec (hplain : (s.node (s.handle h).node).flags &&& vfsNodeAutofree = 0) :
    Frame s (vfsRelease s h) ∧ (vfsRelease s h).use = update s.use h .free ∧ (vfsRelease s h).handle = s.handle := by
  have hop : ∀ t, Frame s t ∧ t.use = s.use ∧ t.handle = s.handle →
      Frame s (t.kfree h) ∧ (t.kfree h).use = update s.use h .free ∧ (t.kfree h).handle = s.handle := by
    rintro t ⟨hf, huse, hhandle⟩
    refine ⟨⟨hf.node, hf.fd, hf.tasks, hf.shmList, hf.name, hf.stdio⟩, ?_, hhandle⟩
    rw [← huse]
    rfl
  rw [vfsRelease]
  by_cases hshm : (s.handle h).node ≠ 0 ∧ (s.node (s.handle h).node).isShm = true
  · obtain ⟨hf, huse⟩ := shmClose_frame (s := s) (n := (s.handle h).node)
    simp only [if_pos hshm]
    rw [if_neg fun hmark => hmark.2 (by rw [hf.node]; exact hplain)]
    exact hop _ ⟨hf, huse⟩
  · simp only [if_neg hshm]
    rw [if_neg fun hmark => hmark.2 hplain]
    exact hop _ ⟨⟨rfl, rfl, rfl, rfl, fun _ => rfl, rfl, rfl⟩, rfl, rfl⟩

def Handle.closed (x : Handle) : Handle := { x with refCount := x.refCount - 1 }

theorem vfsClose_spec (h0 : h ≠ 0) (hplain : (s.node (s.handle h).node).flags &&& vfsNodeAutofree = 0) :
    Frame s (vfsClose s h) ∧ (vfsClose s h).handle = update s.handle h (s.handle h).closed ∧
      (vfsClose s h).use = if 0 < (s.handle h).closed.refCount then s.use else update s.use h .free := by
  have hclose : vfsClose s h = if 0 < (s.handle h).closed.refCount then s.setHandle h (s.handle h).closed
      else vfsRelease (s.setHandle h (s.handle h).closed) h := by
    rw [vfsClose, if_neg h0]
    simp only [State.setHandle, update_self]
    rfl
  have hframe : Frame s (s.setHandle h (s.handle h).closed) := ⟨rfl, rfl, rfl, rfl, fun _ => rfl, rfl, rfl⟩
  rw [hclose]
  split
  · exact ⟨hframe, rfl, rfl⟩
  have hself : (s.setHandle h (s.handle h).closed).handle h = (s.handle h).closed := update_self ..
  obtain ⟨hf, huse, hhandle⟩ := vfsRelease_spec (s := s.setHandle h (s.handle h).closed) (h := h)
    (by rw [hself]; exact hplain)
  exact ⟨⟨hf.node, hf.fd, hf.tasks, hf.shmList, hf.name, hf.stdio⟩, hhandle, huse⟩

namespace Inv

theorem of_handles (hi : Inv known s V)
    (hc : Counted W (slot t) (fun h => (t.handle h).refCount) fun h => t.use h = .handle)
    (hnodes : ∀ h, t.use h = .handle → t.use (t.handle h).node = .node)
    (hplain : ∀ n, t.use n = .node → s.use n = .node ∧ t.node n = s.node n)
    (hkeep : ∀ c, s.use c = .node ∨ s.use c = .shm → t.use c = s.use c)
    (hlist : t.shmList = s.shmList) (hname : ∀ a, (t.shm a).name = (s.shm a).name)
    (hstdio : t.stdinNode = s.stdinNode ∧ t.stdoutNode = s.stdoutNode) : Inv known t W := by
  refine ⟨hc, hnodes, fun n hn => ?_, ?_, ?_, ?_, ?_⟩
  · obtain ⟨hold, heq⟩ := hplain n hn
    rw [heq]
    exact hi.plain n hold
  · rw [hstdio.1, hstdio.2, hkeep _ (.inl hi.stdio.1), hkeep _ (.inl hi.stdio.2)]
    exact hi.stdio
  · rw [hlist]
    intro a ha
    obtain ⟨hshm, hlen⟩ := hi.shms a ha
    rw [hkeep a (.inr hshm), hname]
    exact ⟨hshm, hlen⟩
  · rw [hlist]
    simp only [hname]
    exact hi.names
  · rw [hlist]
    simp only [hname]
    exact hi.known

theorem congr (hi : Inv known s V) (huse : t.use = s.use) (hfd : ∀ x ∈ V, slot t x = slot s x)
    (hhandle : ∀ h, s.use h = .handle → t.handle h = s.handle h) (hnode : ∀ n, s.use n = .node → t.node n = s.node n)
    (hlist : t.shmList = s.shmList) (hname : ∀ a, (t.shm a).name = (s.shm a).name)
    (hstdio : t.stdinNode = s.stdinNode ∧ t.stdoutNode = s.stdoutNode) : Inv known t V := by
  refine hi.of_handles ?_ (fun h hh => ?_) (fun n hn => ?_) (fun c _ => by rw [huse]) hlist hname hstdio
  · refine (hi.counted.write hfd).of_refs hi.counted.finite (fun _ _ => rfl) (fun h => ?_) fun h hh => ?_
    · rw [huse]
    · exact congrArg Handle.refCount (hhandle h hh)
  · rw [huse] at hh ⊢
    rw [hhandle h hh]
    exact hi.nodes h hh
  · rw [huse] at hn
    exact ⟨hn, hnode n hn⟩

theorem null_slots (hi : Inv known s V) (hW : W.Finite) (h0 : ∀ x, slot s x ≠ 0 → (x ∈ W ↔ x ∈ V)) : Inv known s W :=
  { hi with counted := hi.counted.null_slots hW h0 }

theorem here (hi : Inv known t (slots s)) (ht : t.tasks = s.tasks) : Inv known t (slots t) := by
  have hslots : slots t = slots s := by rw [slots, slots, ht]
  rw [hslots]
  exact hi

section

variable (hi : Inv known s V)
include hi

theorem write (hx : (p, i) ∉ V) : Inv known (s.setFd p i h) V := by
  refine hi.congr rfl (fun y hy => slot_setFd ?_) (fun _ _ => rfl) (fun _ _ => rfl) rfl (fun _ => rfl) ⟨rfl, rfl⟩
  rintro rfl
  exact hx hy

theorem close (hx : x ∈ V) (h0 : slot s x ≠ 0) : Inv known (vfsClose s (slot s x)) (V \ {x}) := by
  have hlive : s.use (slot s x) = .handle := hi.counted.live_of_slot hx h0
  obtain ⟨hf, hhandle, huse⟩ := vfsClose_spec h0 (hi.plain _ (hi.nodes _ hlive))
  generalize vfsClose s (slot s x) = t at hf hhandle huse
  have hother : ∀ c, c ≠ slot s x → t.use c = s.use c ∧ t.handle c = s.handle c := by
    intro c hc
    rw [huse, hhandle, update_of_ne hc]
    refine ⟨?_, rfl⟩
    split
    · rfl
    · exact update_of_ne hc ..
  have hself : t.use (slot s x) = if 0 < (s.handle (slot s x)).closed.refCount then .handle else .free := by
    rw [huse]
    split
    · exact hlive
    · exact update_self ..
  have hcount : t.handle (slot s x) = (s.handle (slot s x)).closed := by
    rw [hhandle]
    exact update_self ..
  have hkeep : ∀ c, s.use c ≠ .handle → t.use c = s.use c := by
    intro c hc
    refine (hother c ?_).1
    rintro rfl
    exact hc hlive
  have hold : ∀ c, t.use c = .handle → s.use c = .handle ∧ (t.handle c).node = (s.handle c).node := by
    intro c hc
    by_cases hcx : c = slot s x
    · rw [hcx, hcount]
      exact ⟨hlive, rfl⟩
    · rw [← (hother c hcx).1, (hother c hcx).2]
      exact ⟨hc, rfl⟩
  refine hi.of_handles ?_ (fun h hh => ?_) (fun n hn => ⟨?_, by rw [hf.node]⟩) (fun c hc => ?_) hf.shmList hf.name hf.stdio
  · rw [hf.slot]
    refine hi.counted.release hx h0 (by rw [hcount]; rfl) ?_ (fun h hne => ?_) fun h hne => ?_
    · rw [hself, hcount]
      split
      · next hpos => simp [hpos]
      · next hpos => simp [hpos]
    · rw [(hother h hne).1]
    · rw [(hother h hne).2]
  · obtain ⟨hs, hnode⟩ := hold h hh
    rw [hnode, hkeep _ (by rw [hi.nodes h hs]; decide)]
    exact hi.nodes h hs
  · by_cases hnx : n = slot s x
    · rw [hnx, hself] at hn
      split at hn <;> cases hn
    · rw [← (hother n hnx).1]
      exact hn
  · refine hkeep c ?_
    rcases hc with hc | hc <;> rw [hc] <;> decide

theorem retain (hx : x ∉ V) (h0 : slot s x ≠ 0) (hlive : s.use (slot s x) = .handle) :
    Inv known (vfsRetain s (slot s x)) (insert x V) := by
  rw [vfsRetain, if_neg h0]
  have hother : ∀ c, c ≠ slot s x → (update s.handle (slot s x)
      { s.handle (slot s x) with refCount := (s.handle (slot s x)).refCount + 1 }) c = s.handle c :=
    fun c hc => update_of_ne hc ..
  refine hi.of_handles (hi.counted.acquire hx h0 hlive ?_ (fun _ _ => Iff.rfl) fun h hne => ?_) (fun h hh => ?_)
    (fun n hn => ⟨hn, rfl⟩) (fun _ _ => rfl) rfl (fun _ => rfl) ⟨rfl, rfl⟩
  · have hcount := hi.counted.count_eq _ hlive
    simp only [State.setHandle, update_self] at hcount ⊢
    rw [hcount]
  · exact congrArg Handle.refCount (hother h hne)
  · have hnode : ((s.setHandle (slot s x)
        { s.handle (slot s x) with refCount := (s.handle (slot s x)).refCount + 1 }).handle h).node =
        (s.handle h).node := by
      by_cases hhx : h = slot s x
      · rw [hhx]
        simp only [State.setHandle, update_self]
      · exact congrArg Handle.node (hother h hhx)
    rw [hnode]
    exact hi.nodes h hh

theorem init (hx : x ∉ V) (hslot : slot s x = h) (h0 : h ≠ 0) (hfree : s.use h = .free)
    (hn : s.use n = .node) (mode : BitVec 32) :
    Inv known ((s.setUse h .handle).setHandle h ⟨n, 0, mode, 1⟩) (insert x V) := by
  subst hslot
  have hother : ∀ c, c ≠ slot s x → ((s.setUse (slot s x) .handle).setHandle (slot s x) ⟨n, 0, mode, 1⟩).use c =
      s.use c := fun c hc => update_of_ne hc ..
  have hkeep : ∀ c, s.use c ≠ .free → ((s.setUse (slot s x) .handle).setHandle (slot s x) ⟨n, 0, mode, 1⟩).use c =
      s.use c := by
    intro c hc
    refine hother c ?_
    rintro rfl
    exact hc hfree
  have hempty : refs V (slot s) (slot s x) = ∅ := hi.counted.refs_eq_empty h0 (by rw [hfree]; decide)
  refine hi.of_handles (hi.counted.acquire hx h0 (update_self ..) ?_ (fun h hne => ?_) fun h hne => ?_)
    (fun h hh => ?_) (fun m hm => ⟨?_, rfl⟩) (fun c hc => ?_) rfl (fun _ => rfl) ⟨rfl, rfl⟩
  · rw [hempty]
    simp [State.setHandle]
  · rw [hother h hne]
  · exact congrArg Handle.refCount (update_of_ne hne ..)
  · by_cases hhx : h = slot s x
    · subst hhx
      simp only [State.setHandle, update_self]
      exact (hkeep n (by rw [hn]; decide)).trans hn
    have hh' : s.use h = .handle := (hother h hhx).symm.trans hh
    have hnode : ((s.setUse (slot s x) .handle).setHandle (slot s x) ⟨n, 0, mode, 1⟩).handle h = s.handle h :=
      update_of_ne hhx ..
    rw [hnode]
    exact (hkeep _ (by rw [hi.nodes h hh']; decide)).trans (hi.nodes h hh')
  · exact (update_use hm (by decide)).1
  · refine hkeep c ?_
    rcases hc with hc | hc <;> rw [hc] <;> decide

theorem attach (hx : (p, i) ∉ V) (h0 : h ≠ 0) (hfree : s.use h = .free) (hn : s.use n = .node)
    (mode : BitVec 32) : Inv known (attach s p i h n mode) (insert (p, i) V) :=
  (hi.write hx).init hx slot_setFd_self h0 hfree hn mode

end

end Inv

theorem vfsClose_tables : (vfsClose s h).fd = s.fd ∧ (vfsClose s h).tasks = s.tasks := by
  unfold vfsClose vfsRelease shmClose
  dsimp only
  repeat' split
  all_goals exact ⟨rfl, rfl⟩

def table : SlotTable State where
  slot := slot
  used := State.tasks
  live s h := s.use h = .handle
  setFd := State.setFd
  close := vfsClose
  retain := vfsRetain
  slot_setFd s p i h := by
    funext x
    by_cases hx : x = (p, i)
    · rw [hx, slot_setFd_self, update_self]
    · rw [slot_setFd hx, update_of_ne hx]
  slot_close s h := by
    funext x
    rw [slot, slot, vfsClose_tables.1]
  slot_retain s h := by
    unfold vfsRetain
    split <;> rfl
  used_setFd _ _ _ _ := rfl
  used_close _ _ := vfsClose_tables.2
  used_retain s h := by
    unfold vfsRetain
    split <;> rfl
  live_setFd _ _ _ _ _ hg := hg
  live_retain s h g hg := by
    unfold vfsRetain
    split <;> exact hg

theorem kept : table.Kept (Inv known) where
  finite hi := hi.counted.finite
  live_of_slot hi := hi.counted.live_of_slot
  null_slots := Inv.null_slots
  write := Inv.write
  close := Inv.close
  retain := Inv.retain

theorem slots_eq : slots s = rows (table.used s) maxOpenFiles := rfl

theorem cleanFd_eq : cleanFd p = table.cleanFd p := by
  funext s i
  exact ite_not ..

theorem schedCleanFds_eq : schedCleanFds s p = (List.range maxOpenFiles).foldl (table.cleanFd p) s := by
  rw [schedCleanFds, cleanFd_eq]

namespace Inv

theorem attachFd (hi : Inv known s V) (hx : (p, i) ∈ V) (hnull : s.fd p i = 0) (h0 : h ≠ 0) (hfree : s.use h = .free)
    (hn : s.use n = .node) (mode : BitVec 32) : Inv known (Shm.attach s p i h n mode) V := by
  have hout : Inv known s (V \ {(p, i)}) := kept.uncount hi hnull
  have hin := hout.attach (fun hmem => hmem.2 rfl) h0 hfree hn mode
  rwa [Set.insert_sdiff_self_of_mem hx] at hin

theorem attach_fd (hj : j ≠ i) : (Shm.attach s p i h n mode).fd p j = s.fd p j := by
  have hne : (p, j) ≠ (p, i) := fun he => hj (congrArg Prod.snd he)
  exact (slot_setFd hne : slot _ (p, j) = slot _ (p, j))

theorem attach_use (hc : c ≠ h) : (Shm.attach s p i h n mode).use c = s.use c := update_of_ne hc ..

/-- The table of a new task before it has files. -/
def emptyTask (s : State) (p : Nat) : State :=
  { s with tasks := update s.tasks p true, fd := update s.fd p fun _ => 0 }

theorem newTask {b : Stdio} (hi : Inv known s (slots s)) (hp : s.tasks p = false) (hb : s.stdioFree b = true) :
    Inv known (schedNewTask s p b) (slots (schedNewTask s p b)) := by
  have hempty : Inv known (emptyTask s p) (slots (emptyTask s p)) := by
    have hold : Inv known (emptyTask s p) (slots s) := by
      refine hi.congr rfl (fun x hx => ?_) (fun _ _ => rfl) (fun _ _ => rfl) rfl (fun _ => rfl) ⟨rfl, rfl⟩
      have hne : x.1 ≠ p := by
        rintro rfl
        exact Bool.false_ne_true (hp.symm.trans hx.1)
      simp only [slot, emptyTask, update_of_ne hne]
    exact kept.addRow hold fun i => by simp only [table, slot, emptyTask, update_self]
  have hmem : ∀ i < maxOpenFiles, (p, i) ∈ slots (emptyTask s p) := fun i hi => ⟨update_self .., hi⟩
  simp only [State.stdioFree, Bool.and_eq_true, decide_eq_true_eq] at hb
  obtain ⟨⟨⟨hin, hout⟩, herr⟩, hnodup⟩ := hb
  obtain ⟨hnull, hnodup⟩ := nodup_cons.mp hnodup
  obtain ⟨hinput, hnodup⟩ := nodup_cons.mp hnodup
  obtain ⟨houtput, -⟩ := nodup_cons.mp hnodup
  simp only [mem_cons, not_mem_nil, or_false, not_or] at hnull hinput houtput
  have htask : schedNewTask s p b = devAttachStdio (emptyTask s p) p b := rfl
  rw [htask, devAttachStdio]
  split
  · exact hempty
  have hzero : ∀ i, (emptyTask s p).fd p i = 0 := fun i => by simp only [emptyTask, update_self]
  have h₀ := hempty.attachFd (hmem 0 (by decide)) (hzero 0) (Ne.symm hnull.1) hin hi.stdio.1 1
  have h₁ := h₀.attachFd (hmem 1 (by decide)) ((attach_fd (by decide)).trans (hzero 1)) (Ne.symm hnull.2.1)
    ((attach_use (Ne.symm hinput.1)).trans hout) h₀.stdio.2 2
  exact h₁.attachFd (hmem 2 (by decide)) ((attach_fd (by decide)).trans ((attach_fd (by decide)).trans (hzero 2)))
    (Ne.symm hnull.2.2) ((attach_use (Ne.symm houtput)).trans ((attach_use (Ne.symm hinput.2)).trans herr))
    h₁.stdio.2 2

theorem endTask (hi : Inv known s (slots s)) (hp : s.tasks p = true) :
    Inv known (endTask s p) (slots (endTask s p)) := by
  have hframe := table.cleanFds_frame (p := p) (s := s) (l := List.range maxOpenFiles)
  have hclean := kept.dropRow (p := p) (kept.cleanFds hi hp) fun i hlt =>
    (hframe.2 (p, i)).trans (if_pos ⟨rfl, mem_range.mpr hlt⟩)
  rw [hframe.1, ← schedCleanFds_eq] at hclean
  rw [Shm.endTask]
  generalize schedCleanFds s p = c at hclean ⊢
  exact hclean.congr rfl (fun _ _ => rfl) (fun _ _ => rfl) (fun _ _ => rfl) rfl (fun _ => rfl) ⟨rfl, rfl⟩

theorem copyTable (hi : Inv known s (slots s)) (hp : s.tasks p = true) (hq : s.tasks q = true)
    (hnull : ∀ i < maxOpenFiles, s.fd p i = 0) :
    Inv known ((List.range maxOpenFiles).foldl (retainFd p) { s with fd := update s.fd p (s.fd q) })
      (slots ((List.range maxOpenFiles).foldl (retainFd p) { s with fd := update s.fd p (s.fd q) })) := by
  have hone : retainFd p = table.retainFd p := rfl
  have hrow : Inv known { s with fd := update s.fd p (s.fd q) } (rows (update s.tasks p false) maxOpenFiles) := by
    refine (kept.dropRow hi hnull).congr rfl (fun x hx => ?_) (fun _ _ => rfl) (fun _ _ => rfl) rfl (fun _ => rfl) ⟨rfl, rfl⟩
    have hne : x.1 ≠ p := fun heq => not_mem_rows_update heq hx
    simp only [slot, update_of_ne hne]
  rw [hone, slots_eq]
  refine kept.copyRow hrow hp fun i hlt h0 => ?_
  have hcopy : table.slot { s with fd := update s.fd p (s.fd q) } (p, i) = slot s (q, i) := by
    simp only [table, slot, update_self]
  rw [hcopy] at h0 ⊢
  exact hi.counted.live_of_slot (x := (q, i)) ⟨hq, hlt⟩ h0

theorem fork {b : Stdio} {copied : Bool} (hi : Inv known s (slots s)) (hp : s.tasks p = true)
    (hc : s.tasks child = false) (hb : s.stdioFree b = true) :
    Inv known (taskFactoryFork s p child b copied) (slots (taskFactoryFork s p child b copied)) := by
  have hnew := hi.newTask hc hb
  have htasks : (schedNewTask s child b).tasks = (emptyTask s child).tasks := by
    unfold schedNewTask devAttachStdio
    dsimp only
    split <;> rfl
  have hchild : (schedNewTask s child b).tasks child = true := by
    rw [htasks]
    exact update_self ..
  have hparent : (schedNewTask s child b).tasks p = true := by
    have hne : p ≠ child := by
      rintro rfl
      exact Bool.false_ne_true (hc.symm.trans hp)
    rw [htasks]
    exact (update_of_ne hne ..).trans hp
  rw [taskFactoryFork]
  generalize schedNewTask s child b = s₁ at hnew hchild hparent
  have hclean := kept.cleanFds hnew hchild
  obtain ⟨hsame, hslot⟩ := table.cleanFds_frame (p := child) (s := s₁) (l := List.range maxOpenFiles)
  rw [← schedCleanFds_eq] at hclean hsame hslot
  generalize schedCleanFds s₁ child = c at hclean hslot hsame
  rw [← show c.tasks = s₁.tasks from hsame] at hchild hparent
  dsimp only
  split
  · exact copyTable hclean hchild hparent fun i hi => (hslot (child, i)).trans (if_pos ⟨rfl, mem_range.mpr hi⟩)
  · exact endTask hclean hchild

/-! `sys_dup2` and `sys_close` -/

theorem sysClose {fd : Int} (hi : Inv known s (slots s)) (hp : s.tasks p = true) :
    Inv known (sysClose s p fd).1 (slots (sysClose s p fd).1) := by
  unfold Shm.sysClose
  split
  · exact hi
  next hrange =>
  split
  · exact hi
  · next h0 =>
    exact kept.closeFd hi hp (i := fd.toNat) (by omega) h0

theorem sysDup2 {oldFd newFd : Int} (hi : Inv known s (slots s)) (hp : s.tasks p = true) :
    Inv known (sysDup2 s p oldFd newFd).1 (slots (sysDup2 s p oldFd newFd).1) := by
  unfold Shm.sysDup2
  split
  · exact hi
  next hrange =>
  split
  · exact hi
  next h0 =>
  split
  · exact hi
  next hne =>
  have hold : (p, oldFd.toNat) ≠ (p, newFd.toNat) := fun he => hne (by have := congrArg Prod.snd he; dsimp only at this; omega)
  have hclean := kept.cleanFd hi hp (i := newFd.toNat) (by omega)
  obtain ⟨hslot, htasks⟩ := table.cleanFd_frame (p := p) (s := s) (i := newFd.toNat)
  have heq : (if s.fd p newFd.toNat ≠ 0 then (vfsClose s (s.fd p newFd.toNat)).setFd p newFd.toNat 0 else s) =
      table.cleanFd p s newFd.toNat := ite_not ..
  simp only [heq]
  generalize table.cleanFd p s newFd.toNat = c at hclean hslot htasks
  have hc : c.tasks p = true := (congrFun htasks p).trans hp
  have hnull : slot c (p, newFd.toNat) = 0 := (congrFun hslot _).trans (update_self ..)
  have hkeep : slot c (p, oldFd.toNat) = s.fd p oldFd.toNat := (congrFun hslot _).trans (update_of_ne hold ..)
  have hself : (c.setFd p newFd.toNat (c.fd p oldFd.toNat)).fd p newFd.toNat = c.fd p oldFd.toNat := slot_setFd_self
  rw [hself]
  exact kept.dup hclean hc (by omega) hnull (y := (p, oldFd.toNat)) ⟨hc, by omega⟩ (hkeep.trans_ne h0)

end Inv

end NyanOS.Shm
