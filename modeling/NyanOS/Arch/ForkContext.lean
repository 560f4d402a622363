import NyanOS.Arch.SyscallEntry

/-!
# The first switch to a forked child (`sched/sched.c`, `sched/sched.asm`)

`task_factory_fork` copies the registers that `syscall_entry` saved for the parent to the kernel stack of the
child, `switch_to_task` takes that stack over, and `task_start_stub` leaves for the user's program.
-/
namespace NyanOS.Arch

open Lib Cpu Function

def newTaskSs : BitVec 16 := gdtOffsetUserData ||| 3
def newTaskCs : BitVec 16 := gdtOffsetUserCode ||| 3

/-- `*(parent_sp + i)` -/
def parentSlot (parentSp i : Nat) (m : Bytes) : Word := BitVec.ofNat 64 (get64 m (parentSp + 8 * i))

/-- What `task_factory_fork` pushes on the stack of the child; `parentSp` points to the thirteen words saved for
the parent. -/
def forkWords (parentSp : Nat) (taskStartStub : Word) : List (Bytes → Word) :=
  let slot := parentSlot parentSp
  [ fun _ => newTaskSs.setWidth 64,
    slot 12,
    fun m => slot 10 m ||| 0x200,
    fun _ => newTaskCs.setWidth 64,
    slot 11,
    fun _ => 0, -- rax
    slot 7, -- rbx
    slot 11, -- rcx
    fun _ => 0, -- rdx
    fun _ => 0, -- rsi
    fun _ => 0, -- rdi
    slot 8, -- rbp
    slot 6, -- r8
    slot 5, -- r9
    slot 4, -- r10
    slot 10, -- r11
    slot 3, -- r12
    slot 2, -- r13
    slot 1, -- r14
    slot 0, -- r15
    fun _ => taskStartStub ] ++ List.replicate 6 fun _ => 0

/-- The end of `task_factory_fork`: the memory, and the stack pointer kept for the child. -/
def forkContext (m : Bytes) (parentTop childTop taskStartStub : Word) : Bytes × Word :=
  (pushReads m childTop.toNat (forkWords (parentTop - 104).toNat taskStartStub), childTop - 216)

/-- What `switch_to_task` pushes for the task switched from, in this order. -/
def switchPushes : List Reg := [.r15, .r14, .r13, .r12, .rbp, .rbx]

def switchPops : List Reg := [.rbx, .rbp, .r12, .r13, .r14, .r15]

/-- The part of `switch_to_task` that stores the context of the task switched from. -/
def saveTask (s : Cpu) : Cpu :=
  if s.reg .rdi ≠ 0 then
    let s := s.run (switchPushes.map .push)
    let s := { s with mem := put64 s.mem (s.reg .rdi).toNat (s.reg .rsp).toNat }
    if s.reg .rdx ≠ 0 then s.fxsave (s.reg .rdx).toNat else s
  else s

def switchToTask (s : Cpu) : Cpu :=
  let s := saveTask s
  let s := s.set .rsp (s.reg .rsi)
  let s := if s.reg .rcx ≠ 0 then s.fxrstor (s.reg .rcx).toNat else s
  (s.run (switchPops.map .pop)).ret

def stubPops : List Reg :=
  [.r15, .r14, .r13, .r12, .r11, .r10, .r9, .r8, .rbp, .rdi, .rsi, .rdx, .rcx, .rbx]

def taskStartStub (s : Cpu) : Cpu :=
  (s.run (stubPops.map .pop ++
    [.movAx 0x2B, .movSeg .ds, .movSeg .es, .movSeg .fs, .movSeg .gs, .pop .rax])).iretq

/-- What the stub pops, when `u` was the state of the parent. -/
def stubWords (u : Cpu) : List Word :=
  [u.reg .r15, u.reg .r14, u.reg .r13, u.reg .r12, u.rflags, u.reg .r10, u.reg .r9, u.reg .r8, u.reg .rbp, 0, 0, 0,
    u.rip, u.reg .rbx]

/-- What the child finds on its stack, from its lowest address. -/
def childWords (u : Cpu) (stub : Word) : List Word :=
  List.replicate 6 0 ++ stub ::
    (stubWords u ++ [0, u.rip, newTaskCs.setWidth 64, u.rflags ||| 0x200, u.reg .rsp, newTaskSs.setWidth 64])

section

variable {u s : Cpu} {m m' : Bytes} {parentTop childTop stub w ax ip cs flags sp' ss : Word}

theorem parentSlot_congr {a i : Nat} (hi : i < 13) (h : ∀ x, a ≤ x ∧ x < a + 104 → m' x = m x) :
    parentSlot a i m' = parentSlot a i m := by
  have hword : get64 m' (a + 8 * i) = get64 m (a + 8 * i) := get64_congr fun k hk => h _ (by omega)
  rw [parentSlot, parentSlot, hword]

theorem parentSlot_eq {a i : Nat} (h : Stacked m a (savedWords u)) (hi : (savedWords u)[i]? = some w) :
    parentSlot a i m = w := by
  rw [parentSlot, h.get hi, BitVec.ofNat_toNat, BitVec.setWidth_eq]

theorem forkWords_length (a : Nat) : (forkWords a stub).length = 27 := rfl

theorem forkWords_congr {a : Nat} : ∀ f ∈ forkWords a stub, ∀ m', (∀ x, a ≤ x ∧ x < a + 104 → m' x = m x) →
    f m' = f m := by
  intro f hf m' h
  have hflags : parentSlot a 10 m' = parentSlot a 10 m := parentSlot_congr (by decide) h
  fin_cases hf
  all_goals first | rfl | exact parentSlot_congr (by decide) h | exact congrArg (· ||| 0x200) hflags

theorem forkWords_eq {a : Nat} (h : Stacked m a (savedWords u)) :
    ((forkWords a stub).map (· m)).reverse = childWords u stub := by
  simp only [forkWords, List.map_append, List.map_cons, List.map_nil, List.map_replicate, List.reverse_append,
    List.reverse_replicate, parentSlot_eq (i := 0) h rfl, parentSlot_eq (i := 1) h rfl, parentSlot_eq (i := 2) h rfl,
    parentSlot_eq (i := 3) h rfl, parentSlot_eq (i := 4) h rfl, parentSlot_eq (i := 5) h rfl,
    parentSlot_eq (i := 6) h rfl, parentSlot_eq (i := 7) h rfl, parentSlot_eq (i := 8) h rfl,
    parentSlot_eq (i := 10) h rfl, parentSlot_eq (i := 11) h rfl, parentSlot_eq (i := 12) h rfl]
  rfl

theorem forkContext_stack (hparent : 104 ≤ parentTop.toNat) (hchild : 216 ≤ childTop.toNat)
    (hapart : parentTop.toNat ≤ childTop.toNat - 216 ∨ childTop.toNat ≤ parentTop.toNat - 104)
    (hm : Stacked m (parentTop.toNat - 104) (savedWords u)) :
    Stacked (forkContext m parentTop childTop stub).1 (childTop.toNat - 216) (childWords u stub) := by
  have hbase : (parentTop - 104).toNat = parentTop.toNat - 104 := toNat_sub_of_room hparent
  rw [forkContext, hbase]
  generalize hsp : parentTop.toNat - 104 = parentSp at hm ⊢
  have hroom : 8 * ((forkWords parentSp stub).map (· m)).length ≤ childTop.toNat := hchild
  have hreads : pushReads m childTop.toNat (forkWords parentSp stub) =
      pushAll m childTop.toNat ((forkWords parentSp stub).map (· m)) := by
    refine pushReads_eq hchild forkWords_congr fun x hx => ?_
    rw [forkWords_length]
    omega
  have hstack := stacked_pushAll m hroom
  rw [forkWords_eq hm, ← hreads, List.length_map, forkWords_length] at hstack
  dsimp only
  exact hstack

theorem saveTask_reg {r : Reg} (hr : r ≠ .rsp) : (saveTask s).reg r = s.reg r := by
  have hpushes : (s.run (switchPushes.map .push)).reg r = s.reg r := run_pushes_reg switchPushes hr
  rw [saveTask]
  split
  · dsimp only
    split
    · exact hpushes
    · exact hpushes
  · rfl

theorem switchToTask_eq {ws : List Word} (hroom : (s.reg .rsi).toNat + 56 < 2 ^ 64)
    (hstack : Stacked (saveTask s).mem (s.reg .rsi).toNat (List.replicate 6 0 ++ stub :: ws)) :
    (switchToTask s).rip = stub ∧ (switchToTask s).reg .rsp = s.reg .rsi + 56 ∧
      (switchToTask s).mem = (saveTask s).mem := by
  have hrsi : (saveTask s).reg .rsi = s.reg .rsi := saveTask_reg (by decide)
  set t := (saveTask s).set .rsp (s.reg .rsi) with ht
  obtain ⟨fpu, hload⟩ : ∃ fpu, (if t.reg .rcx ≠ 0 then t.fxrstor (t.reg .rcx).toNat else t) = { t with fpu := fpu } := by
    split
    · exact ⟨_, rfl⟩
    · exact ⟨t.fpu, rfl⟩
  set t' : Cpu := { t with fpu := fpu } with ht'
  have hswitch : switchToTask s = (t'.run (switchPops.map .pop)).ret := by
    rw [switchToTask, hrsi, ← hload]
  have hrsp : t'.reg .rsp = s.reg .rsi := set_reg_self (s := saveTask s) (r := .rsp) _
  have hsp : t'.sp = (s.reg .rsi).toNat := congrArg BitVec.toNat hrsp
  obtain ⟨hzeros, hrest⟩ := stacked_append.mp hstack
  rw [← hsp] at hzeros
  have hbytes : 8 * switchPops.length = 48 := rfl
  have hrsp' := run_pops_rsp (s := t') switchPops hzeros rfl (by decide) (by omega)
  have hsp' := run_pops_sp (s := t') switchPops hzeros rfl (by decide) (by omega)
  have hmem : (t'.run (switchPops.map .pop)).mem = (saveTask s).mem := run_pops_mem switchPops
  rw [hrsp, hbytes] at hrsp'
  rw [hsp, hbytes] at hsp'
  rw [hswitch]
  generalize t'.run (switchPops.map .pop) = t'' at hrsp' hsp' hmem
  refine ⟨?_, ?_, hmem⟩
  · change t''.word t''.sp = stub
    rw [hsp']
    exact word_of_stacked (by rw [hmem]; exact hrest)
  · change (t''.drop 1).reg .rsp = _
    rw [drop_rsp, hrsp']
    bv_omega

theorem taskStartStub_eq {pops : List Word} (hlen : stubPops.length = pops.length)
    (hroom : s.sp + 160 < 2 ^ 64) (hstack : Stacked s.mem s.sp (pops ++ [ax, ip, cs, flags, sp', ss])) :
    (taskStartStub s).reg = update (update (assign stubPops pops s.reg) .rax ax) .rsp sp' ∧
      (taskStartStub s).rip = ip ∧ (taskStartStub s).cs = cs.setWidth 16 ∧ (taskStartStub s).rflags = flags ∧
      (taskStartStub s).ss = ss.setWidth 16 := by
  obtain ⟨hpops, hframe⟩ := stacked_append.mp hstack
  have hbytes : 8 * stubPops.length = 112 := rfl
  have hrun := run_pops stubPops hpops hlen (by decide) (by omega)
  have hsp := run_pops_sp stubPops hpops hlen (by decide) (by omega)
  have hmem : (s.run (stubPops.map .pop)).mem = s.mem := run_pops_mem stubPops
  rw [taskStartStub, run_append]
  generalize s.run (stubPops.map .pop) = t at hrun hsp hmem
  rw [← hlen, ← hsp, ← hmem] at hframe
  set t' := t.run [.movAx 0x2B, .movSeg .ds, .movSeg .es, .movSeg .fs, .movSeg .gs, .pop .rax]
  have hax : t.word t.sp = ax := word_of_stacked hframe
  have hsp' : t'.sp = t.sp + 8 := toNat_add_of_room (n := 8) (w := t.reg .rsp) (by rw [← sp]; omega)
  have hreg : t'.reg = update (update t.reg .rsp (t.reg .rsp + 8)) .rax (t.word t.sp) := by
    funext r
    cases r <;> rfl
  have hrest : Stacked t'.mem t'.sp [ip, cs, flags, sp', ss] := by
    rw [hsp']
    exact hframe.2
  clear_value t'
  rw [iretq_eq hrest]
  refine ⟨?_, rfl, rfl, rfl, rfl⟩
  have hbefore : t.reg = update (assign stubPops pops s.reg) .rsp _ := congrArg Cpu.reg hrun
  change update t'.reg .rsp sp' = _
  rw [hreg, hax, hbefore, update_idem, update_comm (by decide), update_idem]
  exact update_comm (by decide) ..

/-- What the pushes and stores of `switch_to_task` reach when it saves a task. -/
def SavedClear (s : Cpu) (lo hi : Nat) : Prop :=
  s.reg .rdi ≠ 0 →
    48 ≤ s.sp ∧ (s.sp ≤ lo ∨ hi ≤ s.sp - 48) ∧
    ((s.reg .rdi).toNat + 8 ≤ lo ∨ hi ≤ (s.reg .rdi).toNat) ∧
    (s.reg .rdx ≠ 0 → (s.reg .rdx).toNat + 512 ≤ lo ∨ hi ≤ (s.reg .rdx).toNat)

theorem saveTask_mem {lo hi x : Nat} (h : SavedClear s lo hi) (hlo : lo ≤ x) (hhi : x < hi) :
    (saveTask s).mem x = s.mem x := by
  rw [saveTask]
  split
  · next hrdi =>
    obtain ⟨hroom, hstack, hptr, hfpu⟩ := h hrdi
    have hbytes : 8 * (switchPushes.map s.reg).length = 48 := rfl
    have hpush : (s.run (switchPushes.map .push)).mem x = s.mem x := by
      rw [run_pushes switchPushes (by decide) hroom]
      exact pushAll_out (by omega) (by omega)
    have hrdx : (s.run (switchPushes.map .push)).reg .rdx = s.reg .rdx := run_pushes_reg switchPushes (by decide)
    have hrdi' : (s.run (switchPushes.map .push)).reg .rdi = s.reg .rdi := run_pushes_reg switchPushes (by decide)
    have hstore : put64 (s.run (switchPushes.map .push)).mem (s.reg .rdi).toNat
        ((s.run (switchPushes.map .push)).reg .rsp).toNat x = s.mem x := by
      rw [put64_out (by omega), hpush]
    dsimp only
    rw [hrdx, hrdi']
    split
    · next hsave =>
      have := hfpu hsave
      rw [fxsave_mem_out (by omega)]
      exact hstore
    · exact hstore
  · rfl

theorem child_state (hchild : 216 ≤ childTop.toNat) (hrsi : s.reg .rsi = childTop - 216)
    (hclear : SavedClear s (childTop.toNat - 216) childTop.toNat)
    (hstack : Stacked s.mem (childTop.toNat - 216) (childWords u stub)) : (switchToTask s).rip = stub ∧
      (taskStartStub (switchToTask s)).reg =
        update (update (assign stubPops (stubWords u) (switchToTask s).reg) .rax 0) .rsp (u.reg .rsp) ∧
      (taskStartStub (switchToTask s)).rip = u.rip ∧ (taskStartStub (switchToTask s)).cs = newTaskCs ∧
      (taskStartStub (switchToTask s)).rflags = u.rflags ||| 0x200 ∧
      (taskStartStub (switchToTask s)).ss = newTaskSs := by
  have hlt := childTop.isLt
  have hbase : (s.reg .rsi).toNat = childTop.toNat - 216 := by
    rw [hrsi]
    exact toNat_sub_of_room hchild
  have hlen : 8 * (childWords u stub).length = 216 := rfl
  have hsaved : Stacked (saveTask s).mem (s.reg .rsi).toNat (childWords u stub) := by
    rw [hbase]
    exact hstack.congr fun x hlo hhi => saveTask_mem hclear hlo (by omega)
  obtain ⟨hrip, hrsp, hmem⟩ := switchToTask_eq (by omega) hsaved
  have hsp : (switchToTask s).sp = (s.reg .rsi).toNat + 56 := by
    rw [sp, hrsp]
    exact toNat_add_of_room (n := 56) (by omega)
  have hrest : Stacked (switchToTask s).mem (switchToTask s).sp
      (stubWords u ++ [0, u.rip, newTaskCs.setWidth 64, u.rflags ||| 0x200, u.reg .rsp, newTaskSs.setWidth 64]) := by
    rw [hmem, hsp]
    exact (stacked_append.mp hsaved).2.2
  obtain ⟨hreg, hip, hcs, hflags, hss⟩ := taskStartStub_eq rfl (by omega) hrest
  exact ⟨hrip, hreg, hip, hcs, hflags, hss⟩

/-- The registers that the child has in common with its parent. -/
def inherited : List Reg := [.rsp, .rbx, .rbp, .r8, .r9, .r10, .r12, .r13, .r14, .r15]

/-- The parent called in state `u`, on the kernel stack that ends at `parentTop`. `m` is the memory when
`task_factory_fork` fills the child's stack, and `s` the state in which `switch_to_task` is called for the child. -/
theorem fork_child_resumes {k : EntryCode} {handler : Cpu → Cpu}
    (htop : get64 u.mem k.kernStkPtr = parentTop.toNat) (hret : Returns parentTop.toNat (atHandler k u) (handler (atHandler k u)))
    (hparent : 4096 ∣ parentTop.toNat) (hchild : 4096 ∣ childTop.toNat) (hpos : parentTop ≠ 0) (hpos' : childTop ≠ 0)
    (hne : parentTop ≠ childTop)
    (hm : ∀ x, parentTop.toNat - 104 ≤ x → x < parentTop.toNat → m x = (atHandler k u).mem x)
    (hrsi : s.reg .rsi = (forkContext m parentTop childTop stub).2)
    (hmem : ∀ x, childTop.toNat - 216 ≤ x → x < childTop.toNat → s.mem x = (forkContext m parentTop childTop stub).1 x)
    (hclear : SavedClear s (childTop.toNat - 216) childTop.toNat) :
    let child := taskStartStub (switchToTask s)
    let parent := syscall k handler u
    (switchToTask s).rip = stub ∧ child.reg .rax = 0 ∧ child.rip = parent.rip ∧
      (∀ r ∈ inherited, child.reg r = parent.reg r) ∧
      child.rflags = u.rflags ||| interruptFlag ∧
      (u.rflags &&& 0x3C7FD7 ||| 2 = u.rflags → child.rflags = parent.rflags ||| interruptFlag) ∧
      child.cs = newTaskCs ∧ child.ss = newTaskSs := by
  have hparent' : 4096 ≤ parentTop.toNat := by
    have := BitVec.toNat_ne.mp hpos
    exact Nat.le_of_dvd (pos_of_ne_zero this) hparent
  have hchild' : 4096 ≤ childTop.toNat := by
    have := BitVec.toNat_ne.mp hpos'
    exact Nat.le_of_dvd (pos_of_ne_zero this) hchild
  have hapart : parentTop.toNat ≤ childTop.toNat - 216 ∨ childTop.toNat ≤ parentTop.toNat - 104 := by
    have := BitVec.toNat_ne.mp hne
    omega
  have hroom : 120 ≤ parentTop.toNat := by omega
  have hslots : Stacked m (parentTop.toNat - 104) (savedWords u) := by
    have hlen : 8 * (savedWords u).length = 104 := rfl
    exact (atHandler_stack htop hroom).congr fun x hlo hhi => hm x hlo (by omega)
  have hstack : Stacked s.mem (childTop.toNat - 216) (childWords u stub) := by
    have hlen : 8 * (childWords u stub).length = 216 := rfl
    refine (forkContext_stack (by omega) (by omega) hapart hslots).congr fun x hlo hhi => hmem x hlo (by omega)
  obtain ⟨hrip, hreg, hip, hcs, hflags, hss⟩ := child_state (by omega) hrsi hclear hstack
  have hback := syscall_reg htop hroom hret
  have hparentRip : (syscall k handler u).rip = u.rip := by rw [syscall_rip, hback]
  have hparentFlags : (syscall k handler u).rflags = u.rflags &&& 0x3C7FD7 ||| 2 := by rw [syscall_rflags, hback]
  intro child parent
  refine ⟨hrip, ?_, hip.trans hparentRip.symm, ?_, hflags, ?_, hcs, hss⟩
  · rw [hreg]
    rfl
  · intro r hr
    rw [hback, hreg]
    fin_cases hr <;> rfl
  · intro hlegal
    rw [hflags, hparentFlags, hlegal]
    rfl

end

/-- The state in which the scheduler leaves another task for a child of `caller` whose kernel stack ends at
0xC000. -/
def firstSwitch : Cpu where
  reg
    | .rdi => 0x30000
    | .rsi => (forkContext (atHandler entryCode caller).mem 0x9000 0xC000 0x5000).2
    | .rdx => 0x31000
    | .rcx => 0
    | .rsp => 0x20000
    | _ => 17
  rip := 0x6000
  rflags := 0x2
  cs := gdtOffsetKernelCode
  ss := gdtOffsetKernelData
  seg _ := gdtOffsetKernelData
  fpu _ := 0
  mem := (forkContext (atHandler entryCode caller).mem 0x9000 0xC000 0x5000).1

theorem fork_child_resumes_caller :
    (switchToTask firstSwitch).rip = 0x5000 ∧ (taskStartStub (switchToTask firstSwitch)).reg .rax = 0 ∧
      (taskStartStub (switchToTask firstSwitch)).rip = (syscall entryCode failing caller).rip ∧
      ∀ r ∈ inherited, (taskStartStub (switchToTask firstSwitch)).reg r = (syscall entryCode failing caller).reg r := by
  have hclear : SavedClear firstSwitch ((0xC000 : Word).toNat - 216) (0xC000 : Word).toNat := fun _ => by decide
  have hmem : firstSwitch.mem = (forkContext (atHandler entryCode caller).mem 0x9000 0xC000 0x5000).1 := rfl
  obtain ⟨hstub, hrax, hrip, hreg, -⟩ := fork_child_resumes (m := (atHandler entryCode caller).mem) caller_top
    (returns_failing _ _) (by decide) (by decide) (by decide) (by decide) (by decide) (fun _ _ _ => rfl) rfl
    (fun x _ _ => congrFun hmem x) hclear
  exact ⟨hstub, hrax, hrip, hreg⟩

end NyanOS.Arch
