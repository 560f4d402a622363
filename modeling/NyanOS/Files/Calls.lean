import NyanOS.Files.Exact

/-!
# System calls on file handles, and runs

Every system call keeps the agreement between slots, handles and pipes, also where it fails.
-/
namespace NyanOS.Files

open Lib Sched Function

variable {s t : FileState} {k : Kernel} {l : List Nat} {p i h v r w : Nat}

structure Consistent (s : FileState) : Prop where
  members : ∃ l, Members s.kernel.tasks l
  agrees : Agrees s.pipeLive s.opens s.kernel

theorem calm_vfsClose : Calm k.tasks (vfsClose k h).tasks := by
  have hc : Closes (fun _ => True) (fun _ => False) k (vfsClose k h) := .vfsClose fun _ _ => trivial
  exact hc.quiet.toCalm

theorem calm_vfsRetain : Calm k.tasks (vfsRetain k h).tasks := by
  unfold vfsRetain
  split <;> exact .refl

theorem calm_setFd (hp : k.tasks.live p = true) : Calm k.tasks (k.setFd p i v).tasks := by
  have hset : Calm k.tasks (k.tasks.set p fun t => { t with fdTbl := update t.fdTbl i v }) :=
    .set rfl rfl (.inl rfl) (.inl rfl) fun _ => hp
  exact hset

theorem findFreeFd_spec (h : findFreeFd s p = some i) : i < maxOpenFiles ∧ slot s.kernel (p, i) = 0 := by
  have hmem := List.mem_of_find?_eq_some h
  have hzero : s.fd p i = 0 := by simpa using List.find?_some h
  simp only [List.mem_range'_1] at hmem
  refine ⟨?_, hzero⟩
  have hmax : maxOpenFiles = 16 := rfl
  omega

namespace Consistent

theorem curr_live (hc : Consistent s) : s.kernel.tasks.live s.curr = true := by
  obtain ⟨l, hm⟩ := hc.members
  exact (hm.members _).mpr hm.curr

theorem calm {pipeLive : Nat → Bool} {opens : Nat → Nat} (hc : Consistent s) (hk : Calm s.kernel.tasks k.tasks)
    (ha : Agrees pipeLive opens k) : Consistent ⟨k, pipeLive, opens⟩ := by
  obtain ⟨l, hm⟩ := hc.members
  exact ⟨⟨l, hm.calm hk⟩, ha⟩

theorem sysOpen {copied : Bool} (hc : Consistent s) (hf : s.free h = true) : Consistent (sysOpen s copied h).1 := by
  have hp := hc.curr_live
  unfold Files.sysOpen
  split
  · split
    · exact hc
    next fd hfd =>
    obtain ⟨hi, hnull⟩ := findFreeFd_spec hfd
    split
    · exact hc
    next h0 =>
    have hdead : (s.kernel.files.handle h).live = false := by simpa [FileState.free] using hf
    exact hc.calm (calm_setFd hp) (hc.agrees.attach hp hi hnull h0 hdead)
  · exact hc

theorem fd_toNat_lt {fd : Int} (h : ¬ (fd < 0 ∨ (maxOpenFiles : Int) ≤ fd)) : fd.toNat < maxOpenFiles := by
  omega

theorem sysClose {fd : Int} (hc : Consistent s) : Consistent (sysClose s fd).1 := by
  have hp := hc.curr_live
  unfold Files.sysClose
  split
  · exact hc
  next hrange =>
  split
  · exact hc
  next h0 =>
  have hi := fd_toNat_lt hrange
  refine hc.calm (calm_vfsClose.trans (calm_setFd ?_)) (hc.agrees.closeFd hp hi h0)
  rw [calm_vfsClose.live]
  exact hp

theorem sysDup2 {oldFd newFd : Int} (hc : Consistent s) : Consistent (sysDup2 s oldFd newFd).1 := by
  have hp := hc.curr_live
  unfold Files.sysDup2
  split
  · exact hc
  split
  · exact hc
  next hrange =>
  split
  · exact hc
  next h0 =>
  split
  · exact hc
  next hne =>
  have hi : newFd.toNat < maxOpenFiles := by omega
  have hj : oldFd.toNat < maxOpenFiles := by omega
  have hslots : (s.curr, oldFd.toNat) ≠ (s.curr, newFd.toNat) := by
    intro he
    have := congrArg Prod.snd he
    simp only at this
    omega
  -- whatever the new slot held is closed first
  obtain ⟨k, hk, hcalm, ha, hnull, hold⟩ : ∃ k, (if s.fd s.curr newFd.toNat ≠ 0 then
      (s.on (vfsClose · (s.fd s.curr newFd.toNat))).setFd s.curr newFd.toNat 0 else s) = { s with kernel := k } ∧
      Calm s.kernel.tasks k.tasks ∧ Agrees s.pipeLive s.opens k ∧ slot k (s.curr, newFd.toNat) = 0 ∧
      slot k (s.curr, oldFd.toNat) = slot s.kernel (s.curr, oldFd.toNat) := by
    split
    · next hnew =>
      refine ⟨_, rfl, calm_vfsClose.trans (calm_setFd ?_), hc.agrees.closeFd hp hi hnew, slot_setFd_self, ?_⟩
      · rw [calm_vfsClose.live]
        exact hp
      · exact (slot_setFd hslots).trans (congrFun vfsClose_sameFds.slot _)
    · next hnew => exact ⟨s.kernel, rfl, .refl, hc.agrees, not_not.mp hnew, rfl⟩
  have hp' : k.tasks.live s.curr = true := hcalm.live ▸ hp
  have hcopy := kept.dup ha hp' hi hnull (y := (s.curr, oldFd.toNat)) ⟨hp', hj⟩ (hold.trans_ne h0)
  have hfd : (({ s with kernel := k } : FileState).setFd s.curr newFd.toNat
      (({ s with kernel := k } : FileState).fd s.curr oldFd.toNat)).fd s.curr newFd.toNat =
      slot k (s.curr, oldFd.toNat) := slot_setFd_self
  dsimp only
  rw [hk, hfd]
  exact hc.calm (hcalm.trans ((calm_setFd hp').trans calm_vfsRetain)) hcopy

theorem restored {pipeLive : Nat → Bool} (hc : Consistent s) (hk : Calm s.kernel.tasks k.tasks)
    (hslot : ∀ x, slot k x = slot s.kernel x) (hh : k.files.handle = s.kernel.files.handle)
    (hb : Bits pipeLive k.files) : Consistent ⟨k, pipeLive, s.opens⟩ := by
  refine hc.calm hk ⟨?_, hb⟩
  have hslots : slots k = slots s.kernel := by simp only [slots, hk.live]
  rw [hslots]
  exact hc.agrees.toCounts.write hh fun x _ => hslot x

theorem slot_undo {r w a b : Nat} (hr : slot k (p, r) = 0) (hw : slot k (p, w) = 0) (x : Nat × Nat) :
    slot ((((k.setFd p r a).setFd p w b).setFd p r 0).setFd p w 0) x = slot k x := by
  by_cases hxw : x = (p, w)
  · rw [hxw, slot_setFd_self, hw]
  rw [slot_setFd hxw]
  by_cases hxr : x = (p, r)
  · rw [hxr, slot_setFd_self, hr]
  · rw [slot_setFd hxr, slot_setFd hxw, slot_setFd hxr]

theorem calm_undo {r w a b : Nat} (hp : k.tasks.live p = true) :
    Calm k.tasks ((((k.setFd p r a).setFd p w b).setFd p r 0).setFd p w 0).tasks := by
  refine Calm.trans (calm_setFd (i := r) (v := a) hp) ?_
  refine Calm.trans (calm_setFd (k := k.setFd p r a) (i := w) (v := b) hp) ?_
  refine Calm.trans (calm_setFd (k := (k.setFd p r a).setFd p w b) (i := r) (v := 0) hp) ?_
  exact calm_setFd (k := ((k.setFd p r a).setFd p w b).setFd p r 0) hp

theorem newPipe {b : PipeBlocks} (hc : Consistent s) (hp : s.kernel.tasks.live p = true)
    (hr : r < maxOpenFiles) (hw : w < maxOpenFiles) (hne : (p, w) ≠ (p, r))
    (hnr : slot s.kernel (p, r) = 0) (hnw : slot s.kernel (p, w) = 0)
    (hdr : (s.kernel.files.handle b.handleRead).live = false)
    (hdw : (s.kernel.files.handle b.handleWrite).live = false) (h0r : b.handleRead ≠ 0)
    (h0w : b.handleWrite ≠ 0) (hdist : b.handleRead ≠ b.handleWrite) (hpipe : s.pipeLive b.pipe = false) :
    Consistent (initHandle (initHandle (initPipe ((s.setFd p r b.handleRead).setFd p w b.handleWrite) b.pipe)
      b.handleRead (.pipeRead b.pipe)) b.handleWrite (.pipeWrite b.pipe)) := by
  have hbits : Bits (update s.pipeLive b.pipe true)
      (initHandle (initHandle (initPipe ((s.setFd p r b.handleRead).setFd p w b.handleWrite) b.pipe)
        b.handleRead (.pipeRead b.pipe)) b.handleWrite (.pipeWrite b.pipe)).kernel.files :=
    hc.agrees.toBits.newPipe hpipe hdr hdw hdist ⟨rfl, rfl⟩ ⟨rfl, rfl⟩ ⟨rfl, rfl⟩
  generalize hu : initPipe ((s.setFd p r b.handleRead).setFd p w b.handleWrite) b.pipe = u
  have hsr : slot u.kernel (p, r) = b.handleRead := by
    rw [← hu]
    exact (slot_setFd hne.symm).trans slot_setFd_self
  have hsw : slot u.kernel (p, w) = b.handleWrite := by
    rw [← hu]
    exact slot_setFd_self
  have hu₀ : Counts u.opens u.kernel ((slots s.kernel \ {(p, r)}) \ {(p, w)}) := by
    rw [← hu]
    refine (kept.uncount (kept.uncount hc.agrees hnr) hnw).toCounts.write rfl fun x hx => ?_
    exact (slot_setFd hx.2).trans (slot_setFd hx.1.2)
  have hu₁ := hu₀.init (n := .pipeRead b.pipe) (fun hm => hm.1.2 rfl) (by rw [hsr]; exact h0r)
    (by rw [hsr, ← hu]; exact hdr)
  rw [hsr] at hu₁
  have hsw₁ : slot (initHandle u b.handleRead (.pipeRead b.pipe)).kernel (p, w) = b.handleWrite := hsw
  have hnot : (p, w) ∉ insert (p, r) ((slots s.kernel \ {(p, r)}) \ {(p, w)}) := by
    rintro (he | hm)
    · exact hne he
    · exact hm.2 rfl
  have hdead : ((initHandle u b.handleRead (.pipeRead b.pipe)).kernel.files.handle b.handleWrite).live = false := by
    have hother : (initHandle u b.handleRead (.pipeRead b.pipe)).kernel.files.handle b.handleWrite =
        u.kernel.files.handle b.handleWrite := update_of_ne hdist.symm ..
    rw [hother, ← hu]
    exact hdw
  have hu₂ := hu₁.init (n := .pipeWrite b.pipe) hnot (by rw [hsw₁]; exact h0w) (by rw [hsw₁]; exact hdead)
  rw [hsw₁] at hu₂
  have hall : insert (p, w) (insert (p, r) ((slots s.kernel \ {(p, r)}) \ {(p, w)})) = slots s.kernel := by
    have hmem : (p, r) ∈ slots s.kernel \ {(p, w)} := ⟨⟨hp, hr⟩, fun he => hne he.symm⟩
    rw [Set.sdiff_sdiff_comm, Set.insert_sdiff_self_of_mem hmem, insert_slot hp hw]
  rw [hall] at hu₂
  obtain ⟨l, hm⟩ := hc.members
  subst hu
  exact ⟨⟨l, hm.calm (.trans (calm_setFd (i := r) (v := b.handleRead) hp)
    (calm_setFd (k := s.kernel.setFd p r b.handleRead) hp))⟩, hu₂, hbits⟩

theorem sysPipe {fdPtr : BitVec 64} {b : PipeBlocks} (hc : Consistent s) (hfr : s.free b.handleRead = true)
    (hfw : s.free b.handleWrite = true) (hdist : b.handleWrite = 0 ∨ b.handleRead ≠ b.handleWrite)
    (hpipe : s.pipeLive b.pipe = false) : Consistent (sysPipe s fdPtr b).1 := by
  have hp := hc.curr_live
  have hdr : (s.kernel.files.handle b.handleRead).live = false := by simpa [FileState.free] using hfr
  have hdw : (s.kernel.files.handle b.handleWrite).live = false := by simpa [FileState.free] using hfw
  unfold Files.sysPipe
  dsimp only
  split
  · exact hc
  split
  · exact hc
  split
  · exact hc
  next r hr =>
  obtain ⟨hrlt, hnr⟩ := findFreeFd_spec hr
  split
  · exact hc
  next h0r =>
  have hundo : Consistent ((s.setFd s.curr r b.handleRead).setFd s.curr r 0) := by
    refine hc.restored (.trans (calm_setFd (i := r) (v := b.handleRead) hp)
      (calm_setFd (k := s.kernel.setFd s.curr r b.handleRead) hp)) (fun x => ?_) rfl hc.agrees.toBits
    by_cases hx : x = (s.curr, r)
    · rw [hx, hnr]
      exact slot_setFd_self
    · exact (slot_setFd hx).trans (slot_setFd hx)
  split
  · exact hundo
  next w hw =>
  obtain ⟨hwlt, hnw⟩ := findFreeFd_spec hw
  -- the first handle stands in its slot already
  have hne : (s.curr, w) ≠ (s.curr, r) := by
    intro he
    rw [he] at hnw
    exact h0r ((slot_setFd_self (k := s.kernel) (p := s.curr) (i := r)).symm.trans hnw)
  replace hnw : slot s.kernel (s.curr, w) = 0 := (slot_setFd hne).symm.trans hnw
  split
  · exact hundo
  next h0w =>
  split
  · exact hc.restored (calm_undo hp) (slot_undo hnr hnw) rfl hc.agrees.toBits
  have hfree : Consistent (((freePipe (initPipe ((s.setFd s.curr r b.handleRead).setFd s.curr w b.handleWrite)
      b.pipe) b.pipe).setFd s.curr r 0).setFd s.curr w 0) := by
    have hback : update (update s.pipeLive b.pipe true) b.pipe false = s.pipeLive := by
      rw [update_idem, ← hpipe, update_eq_self]
    have hbits : Bits (update (update s.pipeLive b.pipe true) b.pipe false)
        (s.kernel.setPipe b.pipe fun _ => ⟨true, true, -1, -1⟩).files := by
      rw [hback]
      exact hc.agrees.toBits.setPipe hpipe
    exact hc.restored (calm_undo hp) (slot_undo hnr hnw) rfl hbits
  split
  · exact hfree
  split
  · exact hfree
  exact hc.newPipe hp hrlt hwlt hne hnr hnw hdr hdw h0r h0w (hdist.resolve_left h0w) hpipe

end Consistent

end NyanOS.Files
