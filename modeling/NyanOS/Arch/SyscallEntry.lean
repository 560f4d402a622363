import NyanOS.Arch.Machine

/-!
# The entry of system calls (`arch/syscall.asm`)

`syscall_entry` saves the registers on the kernel stack of the task, calls `syscall_handler` and restores them.
The handler is any function that keeps to the calling convention of C.
-/
namespace NyanOS.Arch

open Lib Cpu Function

/-- Where the linker put what `syscall_entry` refers to: the entry itself, the instruction after its call of
`syscall_handler`, and `usr_stk_tmp`, which `kern_stk_ptr` follows. -/
structure EntryCode where
  entry : Word
  afterCall : Word
  usrStkTmp : Nat

namespace EntryCode

def kernStkPtr (k : EntryCode) : Nat := k.usrStkTmp + 8

end EntryCode

def gdtOffsetKernelCode : BitVec 16 := 0x08
def gdtOffsetKernelData : BitVec 16 := 0x10
def gdtOffsetUserData : BitVec 16 := 0x28
def gdtOffsetUserCode : BitVec 16 := 0x30

/-- The instruction `syscall` with the registers that `syscall_init` has set up; `rip` is the address after it. -/
def syscallInstr (k : EntryCode) (u : Cpu) : Cpu :=
  { (u.set .rcx u.rip).set .r11 u.rflags with
    rip := k.entry
    rflags := u.rflags &&& ~~~interruptFlag
    cs := gdtOffsetKernelCode
    ss := gdtOffsetKernelData }

/-- `o64 sysret`: the base in `IA32_STAR` is eight below the user's data selector. -/
def sysret (s : Cpu) : Cpu :=
  { s with
    rip := s.reg .rcx
    rflags := s.reg .r11 &&& 0x3C7FD7 ||| 2
    cs := (gdtOffsetUserData - 8 + 16) ||| 3
    ss := (gdtOffsetUserData - 8 + 8) ||| 3 }

theorem sysret_rip (s : Cpu) : (sysret s).rip = (sysret s).reg .rcx := rfl

theorem sysret_rflags (s : Cpu) : (sysret s).rflags = (sysret s).reg .r11 &&& 0x3C7FD7 ||| 2 := rfl

/-- The registers pushed after the user's stack pointer, in this order. -/
def saved : List Reg := [.rcx, .r11, .rax, .rbp, .rbx, .r8, .r9, .r10, .r12, .r13, .r14, .r15]

def saveContext (k : EntryCode) : List Instr :=
  [.cli, .store k.usrStkTmp .rsp, .load .rsp k.kernStkPtr, .pushVar k.usrStkTmp] ++ saved.map .push

/-- From the registers of a system call to the arguments of a C function. -/
def shuffle : List Instr :=
  [.sti, .sub .rsp 8, .mov .r9 .r8, .mov .r8 .r10, .mov .rcx .rdx, .mov .rdx .rsi, .mov .rsi .rdi, .mov .rdi .rax]

def restored : List Reg := [.r15, .r14, .r13, .r12, .r10, .r9, .r8, .rbx, .rbp, .rax, .r11, .rcx]

def restoreContext : List Instr :=
  [.add .rsp 8, .storeAt .rsp 72 .rax] ++ restored.map .pop ++ [.pop .rsp]

/-- The state in which `syscall_handler` starts. -/
def atHandler (k : EntryCode) (u : Cpu) : Cpu :=
  ((syscallInstr k u).run (saveContext k)).run shuffle |>.push k.afterCall

def backToUser (s : Cpu) : Cpu := sysret (s.run restoreContext)

def syscall (k : EntryCode) (handler : Cpu → Cpu) (u : Cpu) : Cpu := backToUser (handler (atHandler k u))

/-- The registers that a C function has to leave as they were. -/
def calleeSaved : List Reg := [.rbx, .rbp, .r12, .r13, .r14, .r15]

/-- A C function that started in `s` returns in `t`: it has popped its return address, and the registers it has
to keep and the stack of its callers, up to `top`, are as they were. -/
structure Returns (top : Nat) (s t : Cpu) : Prop where
  rsp : t.reg .rsp = s.reg .rsp + 8
  saved : ∀ r ∈ calleeSaved, t.reg r = s.reg r
  frame : ∀ x, s.sp + 8 ≤ x → x < top → t.mem x = s.mem x

/-- What `syscall_entry` leaves on the kernel stack, from its lowest address. -/
def savedWords (u : Cpu) : List Word :=
  [u.reg .r15, u.reg .r14, u.reg .r13, u.reg .r12, u.reg .r10, u.reg .r9, u.reg .r8, u.reg .rbx, u.reg .rbp,
    u.reg .rax, u.rflags, u.rip, u.reg .rsp]

section

variable {k : EntryCode} {u s t : Cpu} {top : Word}

/-- The user's stack pointer goes through `usr_stk_tmp`, which lies before `kern_stk_ptr`. -/
theorem swapStacks (htop : get64 s.mem k.kernStkPtr = top.toNat) (hroom : 8 ≤ top.toNat) :
    ∃ mem, s.run [.cli, .store k.usrStkTmp .rsp, .load .rsp k.kernStkPtr, .pushVar k.usrStkTmp] =
        { s.set .rsp (top - 8) with rflags := s.rflags &&& ~~~interruptFlag, mem := mem } ∧
      Stacked mem (top.toNat - 8) [s.reg .rsp] := by
  have hkern : get64 (put64 s.mem k.usrStkTmp (s.reg .rsp).toNat) k.kernStkPtr = top.toNat := by
    rw [← htop]
    exact get64_congr fun i hi => put64_out (.inr (by simp only [EntryCode.kernStkPtr]; omega))
  have husr : BitVec.ofNat 64 (get64 (put64 s.mem k.usrStkTmp (s.reg .rsp).toNat) k.usrStkTmp) = s.reg .rsp := by
    rw [get64_put64, Nat.mod_eq_of_lt (s.reg .rsp).isLt, BitVec.ofNat_toNat, BitVec.setWidth_eq]
  refine ⟨put64 (put64 s.mem k.usrStkTmp (s.reg .rsp).toNat) (top.toNat - 8) (s.reg .rsp).toNat, ?_, ?_⟩
  · simp only [run_cons, run_nil, step, push, Cpu.set, word, hkern, husr, BitVec.ofNat_toNat, BitVec.setWidth_eq,
      update_self, update_idem]
    rw [show (top - 8).toNat = top.toNat - 8 from toNat_sub_of_room hroom]
  · have hempty : Stacked (put64 s.mem k.usrStkTmp (s.reg .rsp).toNat) top.toNat [] := trivial
    exact hempty.push hroom

section
variable (htop : get64 u.mem k.kernStkPtr = top.toNat)
include htop

theorem saveContext_eq (hroom : 104 ≤ top.toNat) : ∃ mem, (syscallInstr k u).run (saveContext k) =
        { (syscallInstr k u).set .rsp (top - 104) with
          rflags := u.rflags &&& ~~~interruptFlag &&& ~~~interruptFlag, mem := mem } ∧
      Stacked mem (top.toNat - 104) (savedWords u) := by
  obtain ⟨mem, hswap, hstack⟩ := swapStacks (s := syscallInstr k u) htop (by omega)
  rw [saveContext, run_append, hswap]
  set s₀ : Cpu := { (syscallInstr k u).set .rsp (top - 8) with
    rflags := (syscallInstr k u).rflags &&& ~~~interruptFlag, mem := mem }
  have hsp : s₀.sp = top.toNat - 8 := toNat_sub_of_room (n := 8) (by omega)
  have hlen : 8 * saved.length = 96 := rfl
  have hpushes := run_pushes (s := s₀) saved (by decide) (by omega)
  refine ⟨pushAll mem (top.toNat - 8) (saved.map s₀.reg), ?_, ?_⟩
  · have hrsp : s₀.reg .rsp - BitVec.ofNat 64 (8 * saved.length) = top - 104 := by
      change top - 8 - 96 = top - 104
      bv_omega
    rw [hpushes, hsp, hrsp]
    simp only [Cpu.set, s₀, update_idem]
    rfl
  · exact hstack.pushAll (saved.map s₀.reg) (by rw [List.length_map]; omega)

theorem atHandler_rsp (hroom : 120 ≤ top.toNat) : (atHandler k u).reg .rsp = top - 120 := by
  obtain ⟨mem, hsave, -⟩ := saveContext_eq htop (by omega)
  rw [atHandler, hsave, push_rsp]
  change top - 104 - 8 - 8 = top - 120
  bv_omega

theorem atHandler_stack (hroom : 120 ≤ top.toNat) : Stacked (atHandler k u).mem (top.toNat - 104) (savedWords u) := by
  obtain ⟨mem, hsave, hstack⟩ := saveContext_eq htop (by omega)
  have hrsp := atHandler_rsp htop hroom
  rw [atHandler, hsave, push_rsp] at hrsp
  rw [atHandler, hsave, push_mem, hrsp]
  refine hstack.congr fun x hx _ => put64_out (.inr ?_)
  rw [show (top - 120).toNat = top.toNat - 120 from toNat_sub_of_room hroom]
  omega

end

/-- The words popped into the registers of `restored`, once the result is written over the user's `rax`. -/
def restoredWords (u t : Cpu) : List Word :=
  [u.reg .r15, u.reg .r14, u.reg .r13, u.reg .r12, u.reg .r10, u.reg .r9, u.reg .r8, u.reg .rbx, u.reg .rbp,
    t.reg .rax, u.rflags, u.rip]

section

variable (hroom : 104 ≤ top.toNat) (hrsp : t.reg .rsp = top - 112) (hstack : Stacked t.mem (top.toNat - 104) (savedWords u))
include hroom hrsp hstack

theorem restoreContext_eq :
    (t.run restoreContext).reg = update (assign restored (restoredWords u t) t.reg) .rsp (u.reg .rsp) := by
  have htop := top.isLt
  have hbase : (top - 104).toNat = top.toNat - 104 := toNat_sub_of_room hroom
  set s₁ : Cpu := t.set .rsp (top - 104) with hs₁
  have hadd : t.step (.add .rsp 8) = s₁ := by
    rw [step, hrsp, hs₁]
    exact congrArg (t.set .rsp) (by bv_omega)
  set s₂ : Cpu := { s₁ with mem := put64 t.mem (top.toNat - 104 + 8 * 9) (t.reg .rax).toNat } with hs₂
  have hstore : s₁.step (.storeAt .rsp 72 .rax) = s₂ := by
    have haddr : (top - 104 + 72).toNat = top.toNat - 104 + 8 * 9 := by
      rw [← hbase]
      exact toNat_add_of_room (n := 72) (by omega)
    rw [step, hs₁, set_reg_self, haddr, set_reg_of_ne (by decide)]
    rfl
  have hsp : s₂.sp = top.toNat - 104 := hbase
  have hset : Stacked s₂.mem s₂.sp (restoredWords u t ++ [u.reg .rsp]) := by
    rw [hsp]
    exact hstack.set (i := 9) (Nat.lt_of_sub_eq_succ rfl)
  obtain ⟨hwords, hlast⟩ := stacked_append.mp hset
  have hpops := run_pops restored hwords rfl (by decide) (by rw [hsp]; change _ + 96 < _; omega)
  have hrun : t.run restoreContext = (s₂.run (restored.map .pop)).step (.pop .rsp) := by
    rw [restoreContext, run_append, run_append]
    simp only [run_cons, run_nil, hadd, hstore]
  set s₃ := s₂.run (restored.map .pop)
  have hsp₃ : s₃.sp = s₂.sp + 96 := by
    rw [hpops]
    simp only [sp, update_self]
    exact toNat_add_of_room (n := 96) (by rw [← sp, hsp]; omega)
  have hmem : s₃.mem = s₂.mem := by rw [hpops]
  have hword : s₃.word s₃.sp = u.reg .rsp := by
    rw [hsp₃]
    exact word_of_stacked (by rw [hmem]; exact hlast)
  have hreg : s₂.reg = update t.reg .rsp (top - 104) := rfl
  rw [hrun, step, hword, Cpu.set, drop, Cpu.set, update_idem, hpops, update_idem, hreg,
    assign_update (by decide), update_idem]

theorem backToUser_reg (r : Reg) : (backToUser t).reg r = match r with
      | .rax => t.reg .rax
      | .rdi => t.reg .rdi
      | .rsi => t.reg .rsi
      | .rdx => t.reg .rdx
      | .rcx => u.rip
      | .r11 => u.rflags
      | r => u.reg r := by
  change (t.run restoreContext).reg r = _
  rw [restoreContext_eq hroom hrsp hstack]
  cases r <;> rfl

end

section

variable (h : Returns top.toNat (atHandler k u) t) (htop : get64 u.mem k.kernStkPtr = top.toNat) (hroom : 120 ≤ top.toNat)
include h htop hroom

theorem Returns.rsp_eq : t.reg .rsp = top - 112 := by
  rw [h.rsp, atHandler_rsp htop hroom]
  bv_omega

theorem Returns.stack : Stacked t.mem (top.toNat - 104) (savedWords u) := by
  have hsp : (atHandler k u).sp = top.toNat - 120 := by
    rw [sp, atHandler_rsp htop hroom]
    exact toNat_sub_of_room hroom
  have hlen : 8 * (savedWords u).length = 104 := rfl
  exact (atHandler_stack htop hroom).congr fun x hx hlt => h.frame x (by omega) (by omega)

end

theorem syscall_reg {handler : Cpu → Cpu} (htop : get64 u.mem k.kernStkPtr = top.toNat) (hroom : 120 ≤ top.toNat)
    (h : Returns top.toNat (atHandler k u) (handler (atHandler k u))) (r : Reg) : (syscall k handler u).reg r =
      match r with
      | .rax => (handler (atHandler k u)).reg .rax
      | .rdi => (handler (atHandler k u)).reg .rdi
      | .rsi => (handler (atHandler k u)).reg .rsi
      | .rdx => (handler (atHandler k u)).reg .rdx
      | .rcx => u.rip
      | .r11 => u.rflags
      | r => u.reg r :=
  backToUser_reg (by omega) (h.rsp_eq htop hroom) (h.stack htop hroom) r

theorem syscall_rip (handler : Cpu → Cpu) : (syscall k handler u).rip = (syscall k handler u).reg .rcx := sysret_rip _

theorem syscall_rflags (handler : Cpu → Cpu) :
    (syscall k handler u).rflags = (syscall k handler u).reg .r11 &&& 0x3C7FD7 ||| 2 :=
  sysret_rflags _

/-- What `libc` says the instruction `syscall` changes. -/
def clobbered : List Reg := [.rax, .rcx, .r11]

/-- `rdi`, `rsi` and `rdx` are neither saved nor restored: the user finds in them what the handler left there. -/
theorem syscall_keeps_registers_iff {handler : Cpu → Cpu} (htop : get64 u.mem k.kernStkPtr = top.toNat)
    (hroom : 120 ≤ top.toNat) (h : Returns top.toNat (atHandler k u) (handler (atHandler k u))) :
    (∀ r ∉ clobbered, (syscall k handler u).reg r = u.reg r) ↔
      ∀ r ∈ [Reg.rdi, Reg.rsi, Reg.rdx], (handler (atHandler k u)).reg r = u.reg r := by
  constructor
  · intro hkeep r hr
    have hout : r ∉ clobbered := by fin_cases hr <;> decide
    rw [← hkeep r hout, syscall_reg htop hroom h]
    fin_cases hr <;> rfl
  · intro hleft r hr
    rw [syscall_reg htop hroom h]
    cases r with
    | rax | rcx | r11 => exact absurd (by decide) hr
    | rdi => exact hleft .rdi (by decide)
    | rsi => exact hleft .rsi (by decide)
    | rdx => exact hleft .rdx (by decide)
    | _ => rfl

end

/-! Two handlers of the shortest kind -/

/-- A handler that sets its result to -1 and returns. -/
def failing (s : Cpu) : Cpu := (s.set .rax (-1)).ret

/-- A handler that moves the arguments back to where the user had them, and returns. -/
def unshuffling (s : Cpu) : Cpu := (s.run [.mov .rdi .rsi, .mov .rsi .rdx, .mov .rdx .rcx]).ret

def entryCode : EntryCode := ⟨0x1000, 0x1040, 0x2000⟩

/-- A user program that calls number 99 with the arguments 1, 2 and 3, and whose kernel stack ends at 0x9000. -/
def caller : Cpu where
  reg
    | .rax => 99
    | .rdi => 1
    | .rsi => 2
    | .rdx => 3
    | .rsp => 0xFFF000
    | _ => 0
  rip := 0x400002
  rflags := 0x202
  cs := 0x33
  ss := 0x2B
  seg _ := 0x2B
  fpu _ := 0
  mem := put64 (fun _ => 0) 0x2008 0x9000

theorem caller_top : get64 caller.mem entryCode.kernStkPtr = (0x9000 : Word).toNat := by decide +kernel

theorem returns_failing (top : Nat) (s : Cpu) : Returns top s (failing s) where
  rsp := rfl
  saved r hr := by fin_cases hr <;> rfl
  frame _ _ _ := rfl

theorem returns_unshuffling (top : Nat) (s : Cpu) : Returns top s (unshuffling s) where
  rsp := rfl
  saved r hr := by fin_cases hr <;> rfl
  frame _ _ _ := rfl

theorem syscall_keeps_registers_unshuffling : get64 caller.mem entryCode.kernStkPtr = (0x9000 : Word).toNat ∧
    ∀ r ∉ clobbered, (syscall entryCode unshuffling caller).reg r = caller.reg r := by
  refine ⟨caller_top, (syscall_keeps_registers_iff caller_top (by decide) (returns_unshuffling _ _)).mpr fun r hr => ?_⟩
  fin_cases hr <;> decide +kernel

/-- The first argument comes back as the number of the call. -/
theorem syscall_loses_rdi : get64 caller.mem entryCode.kernStkPtr = (0x9000 : Word).toNat ∧
      Returns (0x9000 : Word).toNat (atHandler entryCode caller) (failing (atHandler entryCode caller)) ∧
      caller.reg .rdi = 1 ∧ (syscall entryCode failing caller).reg .rdi = 99 ∧
      ¬ ∀ r ∉ clobbered, (syscall entryCode failing caller).reg r = caller.reg r := by
  have hrdi : (syscall entryCode failing caller).reg .rdi = 99 := by decide +kernel
  refine ⟨caller_top, returns_failing _ _, rfl, hrdi, fun h => ?_⟩
  have hkept := h .rdi (by decide)
  rw [hrdi] at hkept
  exact absurd hkept (by decide)

end NyanOS.Arch
