import NyanOS.Shm.Refs

/-!
# How long a shared-memory object lives

`sys_shm_open` keeps the invariant if its flags do not mark the node, and so do whole runs.
-/
namespace NyanOS.Shm

open Lib Function List Option
open Sched (maxOpenFiles)

variable {known : Nat → Name → Prop} {s t : State} {V : Set (Nat × Nat)} {a h n p blk fd : Nat} {name : Name}
  {flags mode : BitVec 32}

namespace Inv

theorem newShm (hi : Inv known s V) (hfree : s.use a = .free) (hlen : name.length ≤ 63)
    (hnew : ∀ c ∈ s.shmList, (s.shm c).name ≠ name) :
    Inv known { (s.setUse a .shm).setShm a ⟨name, [], 0, 0⟩ with shmList := a :: s.shmList } V := by
  have hiff : ∀ {c} {u : Use}, u ≠ .free → .shm ≠ u → (update s.use a .shm c = u ↔ s.use c = u) :=
    fun hu hv => use_update_iff hfree hu hv
  have hne : ∀ c ∈ s.shmList, c ≠ a := by
    rintro c hc rfl
    exact absurd ((hi.shms c hc).1.symm.trans hfree) (by decide)
  have hname : ∀ c ∈ s.shmList, (update s.shm a ⟨name, [], 0, 0⟩ c).name = (s.shm c).name := by
    intro c hc
    rw [update_of_ne (hne c hc)]
  have hself : (update s.shm a ⟨name, [], 0, 0⟩ a).name = name := by rw [update_self]
  refine ⟨?_, fun h hh => ?_, fun n hn => ?_, ⟨?_, ?_⟩, ?_, ?_, fun c nm hc => ?_⟩
  · exact hi.counted.of_refs hi.counted.finite (fun _ _ => rfl) (fun h => hiff (by decide) (by decide)) fun _ _ => rfl
  · exact (hiff (by decide) (by decide)).mpr (hi.nodes h ((hiff (by decide) (by decide)).mp hh))
  · exact hi.plain n ((hiff (by decide) (by decide)).mp hn)
  · exact (hiff (by decide) (by decide)).mpr hi.stdio.1
  · exact (hiff (by decide) (by decide)).mpr hi.stdio.2
  · refine forall_mem_cons.mpr ⟨⟨update_self .., ?_⟩, fun c hc => ?_⟩
    · exact (congrArg List.length hself).trans_le hlen
    · obtain ⟨hshm, hclen⟩ := hi.shms c hc
      exact ⟨(update_of_ne (hne c hc) ..).trans hshm, (congrArg List.length (hname c hc)).trans_le hclen⟩
  · refine nodup_cons.mpr ⟨fun hmem => ?_, ?_⟩
    · obtain ⟨c, hc, heq⟩ := mem_map.mp hmem
      exact hnew c hc ((hname c hc).symm.trans (heq.trans hself))
    · have hmap : (s.shmList.map fun c => (update s.shm a ⟨name, [], 0, 0⟩ c).name) =
          s.shmList.map fun c => (s.shm c).name := map_congr_left hname
      exact hmap.symm ▸ hi.names
  · obtain ⟨hmem, hnm⟩ := hi.known c nm hc
    exact ⟨mem_cons_of_mem a hmem, (hname c hmem).trans hnm⟩

theorem shmGet (hi : Inv known s V) (hfree : s.isFree blk = true) :
    Inv known (shmGet s name flags blk).2 V := by
  unfold Shm.shmGet
  split
  · exact hi
  next hlen =>
  split
  · exact hi
  next hnone =>
  split
  · split
    · exact hi
    next h0 =>
    simp only [State.isFree, Bool.or_eq_true, decide_eq_true_eq, h0, false_or] at hfree
    refine hi.newShm hfree (by omega) fun c hc hname => ?_
    exact find?_eq_none.mp hnone c hc (decide_eq_true hname)
  · exact hi

theorem newNode (hi : Inv known s V) (hfree : s.use n = .free) (hflags : flags &&& vfsNodeAutofree = 0) :
    Inv known ((s.setUse n .node).setNode n ⟨name, flags, 0, true, a⟩) V := by
  have hiff : ∀ {c} {u : Use}, u ≠ .free → .node ≠ u → (update s.use n .node c = u ↔ s.use c = u) :=
    fun hu hv => use_update_iff hfree hu hv
  have hmark : ∀ c, s.use c = .node → update s.use n .node c = .node := by
    intro c hc
    by_cases hcn : c = n
    · rw [hcn, update_self]
    · rw [update_of_ne hcn, hc]
  refine ⟨?_, fun h hh => ?_, fun m hm => ?_, ⟨hmark _ hi.stdio.1, hmark _ hi.stdio.2⟩, fun c hc => ?_, hi.names, hi.known⟩
  · exact hi.counted.of_refs hi.counted.finite (fun _ _ => rfl) (fun h => hiff (by decide) (by decide)) fun _ _ => rfl
  · exact hmark _ (hi.nodes h ((hiff (by decide) (by decide)).mp hh))
  · by_cases hmn : m = n
    · subst hmn
      simp only [State.setNode, update_self]
      exact hflags
    · simp only [State.setNode, State.setUse, update_of_ne hmn] at hm ⊢
      exact hi.plain m hm
  · exact ⟨(hiff (by decide) (by decide)).mpr (hi.shms c hc).1, (hi.shms c hc).2⟩

end Inv

theorem shmGet_tasks : (shmGet s name flags blk).2.tasks = s.tasks := by
  unfold shmGet
  repeat' split
  all_goals rfl

theorem shmGet_use {blk c : Nat} (hc : c ≠ blk) : (shmGet s name flags blk).2.use c = s.use c := by
  unfold shmGet
  repeat' split
  all_goals first
    | rfl
    | exact update_of_ne hc ..

theorem findFreeFd_spec (hf : findFreeFd s p = some fd) : fd < maxOpenFiles ∧ s.fd p fd = 0 := by
  have hmem := mem_of_find?_eq_some hf
  rw [mem_range'_1] at hmem
  have hnull := find?_some hf
  refine ⟨?_, of_decide_eq_true hnull⟩
  have hmax : 3 ≤ maxOpenFiles := by decide
  omega

/-- What `sys_shm_open` asks of `kmalloc`. -/
structure Fresh (s : State) (b : Blocks) : Prop where
  shm : s.isFree b.shm = true
  node : b.node ≠ 0 → s.use b.node = .free ∧ b.node ≠ b.shm
  handle : b.handle ≠ 0 → s.use b.handle = .free ∧ b.handle ≠ b.shm ∧ b.handle ≠ b.node

theorem fresh_of_checks {b : Blocks} (h : (s.isFree b.shm && s.isFree b.node && s.isFree b.handle && b.distinct) = true) :
    Fresh s b := by
  simp only [Bool.and_eq_true, State.isFree, Blocks.distinct, Bool.or_eq_true, decide_eq_true_eq] at h
  obtain ⟨⟨⟨hs, hn⟩, hh⟩, hd, hd'⟩ := h
  refine ⟨by simpa [State.isFree] using hs, fun h0 => ⟨hn.resolve_left h0, ?_⟩, fun h0 => ⟨hh.resolve_left h0, ?_, ?_⟩⟩
  · rintro heq
    rcases hd with hz | ⟨hne, -⟩
    · exact h0 (heq.trans hz)
    · exact hne heq.symm
  · rintro heq
    rcases hd with hz | ⟨-, hne⟩
    · exact h0 (heq.trans hz)
    · exact hne heq.symm
  · rintro heq
    rcases hd' with hz | hne
    · exact h0 (heq.trans hz)
    · exact hne heq.symm

theorem update_free (hfree : s.use a = .free) : update s.use a .free = s.use := by
  rw [← hfree, update_eq_self]

theorem update_back {u : Use} (hfree : s.use a = .free) : update (update s.use a u) a .free = s.use := by
  rw [update_idem, update_free hfree]

namespace Inv

theorem countShm (hi : Inv known s V) {y : SharedMem} (hy : y.name = (s.shm a).name) : Inv known (s.setShm a y) V :=
  hi.congr rfl (fun _ _ => rfl) (fun _ _ => rfl) (fun _ _ => rfl) rfl (setShm_name hy) ⟨rfl, rfl⟩

theorem giveBackNode {y : VfsNode} (hi : Inv known s V) (hfree : s.use n = .free) :
    Inv known ((unref ((s.setUse n .node).setNode n y) n).kfree n) V := by
  refine hi.congr (update_back hfree) (fun _ _ => rfl) (fun _ _ => rfl) (fun m hm => ?_) rfl (setShm_name rfl) ⟨rfl, rfl⟩
  have hne : m ≠ n := by
    rintro rfl
    exact absurd (hm.symm.trans hfree) (by decide)
  exact update_of_ne hne ..

theorem giveBackHandle {x : Handle} {y : VfsNode} (hi : Inv known s V) (hn : s.use n = .free) (hh : s.use h = .free)
    (hne : h ≠ n) :
    Inv known (((unref ((((s.setUse n .node).setNode n y).setUse h .handle).setHandle h x) n).kfree n).kfree h) V := by
  have huse : update (update (update (update s.use n .node) h .handle) n .free) h .free = s.use := by
    rw [update_comm hne.symm, update_idem, update_comm hne, update_idem, update_free hn, update_free hh]
  have hnotIn : ∀ m, s.use m ≠ .free → m ≠ n ∧ m ≠ h := by
    intro m hm
    constructor <;> rintro rfl
    · exact hm hn
    · exact hm hh
  refine hi.congr huse (fun _ _ => rfl) (fun m hm => ?_) (fun m hm => ?_) rfl (setShm_name rfl) ⟨rfl, rfl⟩
  · exact update_of_ne (hnotIn m (by rw [hm]; decide)).2 ..
  · exact update_of_ne (hnotIn m (by rw [hm]; decide)).1 ..

theorem sysShmOpen {arg : BitVec 64} {b : Blocks} (hi : Inv known s (slots s)) (hp : s.tasks p = true) (hb : Fresh s b)
    (hflags : flags &&& vfsNodeAutofree = 0) :
    Inv known (sysShmOpen s p arg name flags mode b).1 (slots (sysShmOpen s p arg name flags mode b).1) := by
  unfold Shm.sysShmOpen
  split
  · exact hi
  have hget : Inv known (Shm.shmGet s name flags b.shm).2 (slots s) := hi.shmGet hb.shm
  have htasks : (Shm.shmGet s name flags b.shm).2.tasks = s.tasks := shmGet_tasks
  have huse : ∀ c, c ≠ b.shm → (Shm.shmGet s name flags b.shm).2.use c = s.use c := fun c hc => shmGet_use hc
  rw [shmCreateVfsNode]
  generalize Shm.shmGet s name flags b.shm = r at hget htasks huse
  obtain ⟨a, s₁⟩ := r
  dsimp only at hget htasks huse ⊢
  by_cases ha : a = 0
  · simp only [if_pos ha, if_true]
    exact hget.here htasks
  simp only [if_neg ha]
  have href : Inv known (s₁.setShm a { s₁.shm a with refCount := (s₁.shm a).refCount + 1 }) (slots s) :=
    hget.countShm rfl
  generalize hs₂ : s₁.setShm a { s₁.shm a with refCount := (s₁.shm a).refCount + 1 } = s₂ at href ⊢
  have htasks₂ : s₂.tasks = s.tasks := by
    rw [← hs₂]
    exact htasks
  have huse₂ : ∀ c, c ≠ b.shm → s₂.use c = s.use c := by
    rw [← hs₂]
    exact huse
  by_cases hn : b.node = 0
  · simp only [if_pos hn, if_true]
    exact href.here htasks₂
  obtain ⟨hnfree, hnshm⟩ := hb.node hn
  have hnode : s₂.use b.node = .free := (huse₂ _ hnshm).trans hnfree
  simp only [if_neg hn]
  by_cases hh : b.handle = 0
  · simp only [if_pos hh]
    exact (href.giveBackNode hnode).here htasks₂
  obtain ⟨hhfree, hhshm, hhn⟩ := hb.handle hh
  have hhandle : s₂.use b.handle = .free := (huse₂ _ hhshm).trans hhfree
  simp only [if_neg hh]
  split
  · exact (href.giveBackHandle hnode hhandle hhn).here htasks₂
  next fd hfd =>
  obtain ⟨hlt, hnull⟩ := findFreeFd_spec hfd
  have hnew : Inv known ((s₂.setUse b.node .node).setNode b.node ⟨name, flags, 0, true, a⟩) (slots s) :=
    href.newNode hnode hflags
  have hfree : ((s₂.setUse b.node .node).setNode b.node ⟨name, flags, 0, true, a⟩).use b.handle = .free :=
    (update_of_ne hhn ..).trans hhandle
  have hopen := hnew.attachFd (show (p, fd) ∈ slots s from ⟨hp, hlt⟩) hnull hh hfree (update_self ..) mode
  exact hopen.here htasks₂

end Inv

/-! Runs -/

/-- The flags of `sys_shm_open` do not have the bit that marks a node. -/
def FlagsOk (_ : State) : Act → Prop
  | .call _ (.shmOpen _ _ flags _ _) => flags &&& vfsNodeAutofree = 0
  | _ => True

instance : ∀ s c, Decidable (FlagsOk s c)
  | _, .call _ (.shmOpen _ _ flags _ _) => inferInstanceAs (Decidable (flags &&& vfsNodeAutofree = 0))
  | _, .call _ (.fork _ _ _) => inferInstanceAs (Decidable True)
  | _, .call _ (.dup2 _ _) => inferInstanceAs (Decidable True)
  | _, .call _ (.close _) => inferInstanceAs (Decidable True)
  | _, .call _ .exit => inferInstanceAs (Decidable True)
  | _, .spawn _ _ => inferInstanceAs (Decidable True)

theorem Inv.step {c : Act} (hstep : guarded (ofNext actTo) FlagsOk s c t) (hi : Inv known s (slots s)) :
    Inv known t (slots t) := by
  obtain ⟨hflags, hnext⟩ := hstep
  cases c with
  | spawn p b =>
    obtain ⟨hok, heq⟩ := ite_none_right_eq_some.mp hnext
    obtain rfl := some.inj heq
    rw [Bool.and_eq_true, Bool.not_eq_true'] at hok
    exact hi.newTask hok.1 hok.2
  | call p c =>
    obtain ⟨hp, hcall⟩ := ite_none_right_eq_some.mp hnext
    cases c with
    | shmOpen arg name flags mode b =>
      obtain ⟨hok, heq⟩ := ite_none_right_eq_some.mp hcall
      obtain rfl := some.inj heq
      exact hi.sysShmOpen hp (fresh_of_checks hok) hflags
    | fork child b copied =>
      obtain ⟨hok, heq⟩ := ite_none_right_eq_some.mp hcall
      obtain rfl := some.inj heq
      rw [Bool.and_eq_true, Bool.not_eq_true'] at hok
      exact hi.fork hp hok.1 hok.2
    | dup2 oldFd newFd =>
      obtain rfl := some.inj hcall
      exact hi.sysDup2 hp
    | close fd =>
      obtain rfl := some.inj hcall
      exact hi.sysClose hp
    | exit =>
      obtain rfl := some.inj hcall
      exact hi.endTask hp

theorem inv_boot (used : Nat → Bool) (stdin stdout : Nat) :
    Inv (fun _ _ => False) (boot used stdin stdout) (slots (boot used stdin stdout)) := by
  have hempty : slots (boot used stdin stdout) = ∅ := by
    ext x
    simp [slots, boot]
  have huse : ∀ h, (boot used stdin stdout).use h ≠ .handle := by
    intro h
    simp only [boot]
    split
    · decide
    · split <;> decide
  rw [hempty]
  refine ⟨⟨Set.finite_empty, huse 0, fun h _ => ?_, fun h hh => absurd hh (huse h)⟩, fun h hh => absurd hh (huse h),
    fun n _ => (by decide : vfsCharDevice &&& vfsNodeAutofree = 0), ⟨?_, ?_⟩, ?_, nodup_nil, fun _ _ hf => hf.elim⟩
  · simp [huse h, refs]
  · simp [boot]
  · simp [boot]
  · intro a ha
    cases ha

theorem Inv.shmGet_eq (hi : Inv known s V) (ha : a ∈ s.shmList) (flags : BitVec 32) (blk : Nat) :
    Shm.shmGet s (s.shm a).name flags blk = (a, s) := by
  have hlen := (hi.shms a ha).2
  have hfind : s.shmList.find? (fun c => (s.shm c).name = (s.shm a).name) = some a := by
    have hnames := hi.names
    generalize s.shmList = l at ha hnames
    induction l with
    | nil => cases ha
    | cons c l ih =>
      obtain ⟨hnot, hnames⟩ := nodup_cons.mp hnames
      rcases mem_cons.mp ha with rfl | htail
      · exact find?_cons_of_pos (decide_eq_true rfl)
      have hne : (s.shm c).name ≠ (s.shm a).name := by
        intro he
        exact hnot (mem_map.mpr ⟨a, htail, he.symm⟩)
      rw [find?_cons_of_neg (by simpa using hne)]
      exact ih htail hnames
  rw [Shm.shmGet, if_neg (by omega), hfind]

/-- If no `sys_shm_open` has the bit, every object on the list is allocated, and whatever the tasks do later, it is
still allocated and what a `sys_shm_open` of its name finds. -/
theorem shm_outlives_handles {used : Nat → Bool} {stdin stdout : Nat} {calls later : List Act}
    (hrun : Run (guarded (ofNext actTo) FlagsOk) (boot used stdin stdout) calls s)
    (hlater : Run (guarded (ofNext actTo) FlagsOk) s later t) (ha : a ∈ s.shmList) :
    s.use a = .shm ∧ t.use a = .shm ∧ ∀ flags blk, shmGet t (s.shm a).name flags blk = (a, t) := by
  have hs : Inv (fun _ _ => False) s (slots s) :=
    hrun.invariant (P := fun s => Inv _ s (slots s)) (fun _ _ _ => Inv.step) (inv_boot used stdin stdout)
  have hknown : Inv (fun c name => c = a ∧ name = (s.shm a).name) s (slots s) :=
    { hs with known := by rintro c name ⟨rfl, rfl⟩; exact ⟨ha, rfl⟩ }
  have ht := hlater.invariant (P := fun s => Inv _ s (slots s)) (fun _ _ _ => Inv.step) hknown
  obtain ⟨hmem, hname⟩ := ht.known a _ ⟨rfl, rfl⟩
  refine ⟨(hs.shms a ha).1, (ht.shms a hmem).1, fun flags blk => ?_⟩
  rw [← hname]
  exact ht.shmGet_eq hmem flags blk

/-- A task opens an object, forks, and both close it. -/
theorem shm_outlives_handles_fork : ∃ s t, Run (guarded (ofNext actTo) FlagsOk) (boot (fun _ => false) 1 2)
      [.spawn 1 ⟨10, 11, 12⟩, .call 1 (.shmOpen 0x1000 [97] 0x08 0 ⟨20, 21, 22⟩)] s ∧
    Run (guarded (ofNext actTo) FlagsOk) s
      [.call 1 (.fork 2 ⟨13, 14, 15⟩ true), .call 1 (.dup2 3 4), .call 1 .exit, .call 2 (.close 3)] t ∧
    s.shmList = [20] ∧ t.use 22 = .free ∧ t.use 20 = .shm ∧
    ∀ flags blk, shmGet t (s.shm 20).name flags blk = (20, t) := by
  let acts : List Act := [.spawn 1 ⟨10, 11, 12⟩, .call 1 (.shmOpen 0x1000 [97] 0x08 0 ⟨20, 21, 22⟩)]
  let rest : List Act := [.call 1 (.fork 2 ⟨13, 14, 15⟩ true), .call 1 (.dup2 3 4), .call 1 .exit, .call 2 (.close 3)]
  have hexec : (exec (checked actTo FlagsOk) (boot (fun _ => false) 1 2) acts).bind (fun s =>
      (exec (checked actTo FlagsOk) s rest).map fun t => (s.shmList, t.use 22)) = some ([20], .free) := by decide +kernel
  obtain ⟨s, hs, hrest⟩ := bind_eq_some_iff.mp hexec
  obtain ⟨t, ht, heq⟩ := map_eq_some_iff.mp hrest
  obtain ⟨hlist, hfree⟩ := Prod.mk.inj heq
  have hall := shm_outlives_handles (exec_checked hs) (exec_checked ht) (hlist ▸ mem_cons_self)
  exact ⟨s, t, exec_checked hs, exec_checked ht, hlist, hfree, hall.2.1, hall.2.2⟩

/-- With `O_CREAT | O_EXCL` the close of the only handle frees the object, and the next open finds it on the list. -/
theorem shm_freed_by_close : ∃ s, Run (ofNext actTo) (boot (fun _ => false) 1 2)
      [.spawn 1 ⟨10, 11, 12⟩, .call 1 (.shmOpen 0x1000 [97] 0x18 0 ⟨20, 21, 22⟩), .call 1 (.close 3)] s ∧
    s.shmList = [20] ∧ s.use 20 = .free ∧ (shmGet s [97] 0 0).1 = 20 := by
  let acts : List Act :=
    [.spawn 1 ⟨10, 11, 12⟩, .call 1 (.shmOpen 0x1000 [97] 0x18 0 ⟨20, 21, 22⟩), .call 1 (.close 3)]
  have hexec : (exec actTo (boot (fun _ => false) 1 2) acts).map (fun s => (s.shmList, s.use 20, (shmGet s [97] 0 0).1)) =
      some ([20], .free, 20) := by decide +kernel
  obtain ⟨s, hs, heq⟩ := map_eq_some_iff.mp hexec
  obtain ⟨hlist, heq⟩ := Prod.mk.inj heq
  obtain ⟨hfree, hfound⟩ := Prod.mk.inj heq
  exact ⟨s, exec_run hs, hlist, hfree, hfound⟩

end NyanOS.Shm
