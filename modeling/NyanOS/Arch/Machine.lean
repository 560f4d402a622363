import NyanOS.Lib.Stack

/-!
# The processor

The registers and the memory, and the instructions that `arch/syscall.asm` and `sched/sched.asm` use. Of the
flags only the interrupt flag is followed through the kernel: every way out of it loads `rflags` anew.
-/
namespace NyanOS.Arch

open Lib Function List

inductive Reg
  | rax | rbx | rcx | rdx | rsi | rdi | rbp | rsp
  | r8 | r9 | r10 | r11 | r12 | r13 | r14 | r15
  deriving DecidableEq, Repr

inductive Seg
  | ds | es | fs | gs
  deriving DecidableEq, Repr

structure Cpu where
  reg : Reg → Word
  rip : Word
  rflags : Word
  cs : BitVec 16
  ss : BitVec 16
  seg : Seg → BitVec 16
  /-- What `fxsave` writes: 512 bytes. -/
  fpu : Bytes
  mem : Bytes

/-- Addresses in brackets are those of variables of the kernel. -/
inductive Instr
  | cli
  | sti
  | mov (dst src : Reg)
  | load (dst : Reg) (var : Nat)
  | store (var : Nat) (src : Reg)
  | storeAt (base : Reg) (disp : Word) (src : Reg)
  | push (src : Reg)
  | pushVar (var : Nat)
  | pop (dst : Reg)
  | add (dst : Reg) (n : Word)
  | sub (dst : Reg) (n : Word)
  | movAx (n : BitVec 16)
  | movSeg (dst : Seg)

def interruptFlag : Word := 0x200

namespace Cpu

variable {s : Cpu} {r q : Reg} {rs : List Reg} {ws : List Word} {w ip cs flags sp' ss : Word}

def set (s : Cpu) (r : Reg) (w : Word) : Cpu := { s with reg := update s.reg r w }

/-- The stack pointer as an address. -/
def sp (s : Cpu) : Nat := (s.reg .rsp).toNat

def word (s : Cpu) (a : Nat) : Word := BitVec.ofNat 64 (get64 s.mem a)

def push (s : Cpu) (w : Word) : Cpu :=
  { s with
    reg := update s.reg .rsp (s.reg .rsp - 8)
    mem := put64 s.mem (s.reg .rsp - 8).toNat w.toNat }

/-- Drop `n` words of the stack. -/
def drop (s : Cpu) (n : Nat) : Cpu := s.set .rsp (s.reg .rsp + BitVec.ofNat 64 (8 * n))

def step (s : Cpu) : Instr → Cpu
  | .cli => { s with rflags := s.rflags &&& ~~~interruptFlag }
  | .sti => { s with rflags := s.rflags ||| interruptFlag }
  | .mov dst src => s.set dst (s.reg src)
  | .load dst var => s.set dst (s.word var)
  | .store var src => { s with mem := put64 s.mem var (s.reg src).toNat }
  | .storeAt base disp src => { s with mem := put64 s.mem (s.reg base + disp).toNat (s.reg src).toNat }
  | .push src => s.push (s.reg src)
  | .pushVar var => s.push (s.word var)
  | .pop dst => (s.drop 1).set dst (s.word s.sp)
  | .add dst n => s.set dst (s.reg dst + n)
  | .sub dst n => s.set dst (s.reg dst - n)
  | .movAx n => s.set .rax (s.reg .rax &&& ~~~0xFFFF ||| n.setWidth 64)
  | .movSeg dst => { s with seg := update s.seg dst ((s.reg .rax).setWidth 16) }

def run (is : List Instr) (s : Cpu) : Cpu := is.foldl step s

@[simp] theorem run_nil : run [] s = s := rfl

@[simp] theorem run_cons (i : Instr) (is : List Instr) : run (i :: is) s = run is (s.step i) := rfl

theorem run_append (is js : List Instr) : run (is ++ js) s = run js (run is s) := foldl_append

/-- `ret`: to the address on top of the stack. -/
def ret (s : Cpu) : Cpu := { s.drop 1 with rip := s.word s.sp }

/-- `iretq`: instruction pointer, code selector, flags, stack pointer and stack selector are on the stack. -/
def iretq (s : Cpu) : Cpu :=
  { s.set .rsp (s.word (s.sp + 24)) with
    rip := s.word s.sp
    cs := (s.word (s.sp + 8)).setWidth 16
    rflags := s.word (s.sp + 16)
    ss := (s.word (s.sp + 32)).setWidth 16 }

/-- `fxsave` to an address. -/
def fxsave (s : Cpu) (a : Nat) : Cpu := { s with mem := splice s.mem a 512 s.fpu }

def fxrstor (s : Cpu) (a : Nat) : Cpu := { s with fpu := fun k => s.mem (a + k) }

/-! ### What pushes and pops of a list of registers do -/

@[simp] theorem push_rsp (w : Word) : (s.push w).reg .rsp = s.reg .rsp - 8 := update_self Reg.rsp _ s.reg

theorem push_reg_of_ne (w : Word) (h : r ≠ .rsp) : (s.push w).reg r = s.reg r := update_of_ne h _ s.reg

@[simp] theorem push_mem (w : Word) : (s.push w).mem = put64 s.mem (s.reg .rsp - 8).toNat w.toNat := rfl

@[simp] theorem drop_rsp (n : Nat) : (s.drop n).reg .rsp = s.reg .rsp + BitVec.ofNat 64 (8 * n) :=
  update_self Reg.rsp _ s.reg

theorem set_reg_self (w : Word) : (s.set r w).reg r = w := update_self _ _ s.reg

theorem set_reg_of_ne (h : q ≠ r) : (s.set r w).reg q = s.reg q := update_of_ne h _ s.reg

theorem fxsave_mem_out {a x : Nat} (h : x < a ∨ a + 512 ≤ x) : (s.fxsave a).mem x = s.mem x := splice_out h

theorem toNat_sub_of_room {n : Nat} (h : n ≤ w.toNat) : (w - BitVec.ofNat 64 n).toNat = w.toNat - n := by
  have := w.isLt
  bv_omega

theorem toNat_add_of_room {n : Nat} (h : w.toNat + n < 2 ^ 64) : (w + BitVec.ofNat 64 n).toNat = w.toNat + n := by
  rw [BitVec.toNat_add, BitVec.toNat_ofNat, Nat.mod_eq_of_lt (a := n) (by omega), Nat.mod_eq_of_lt h]

theorem push_sp (w : Word) (h : 8 ≤ s.sp) : (s.push w).sp = s.sp - 8 := by
  rw [sp, push_rsp]
  exact toNat_sub_of_room h

theorem word_get {a i : Nat} (h : Stacked s.mem a ws) (hi : ws[i]? = some w) : s.word (a + 8 * i) = w := by
  rw [word, h.get hi, BitVec.ofNat_toNat, BitVec.setWidth_eq]

theorem word_of_stacked {a : Nat} (h : Stacked s.mem a (w :: ws)) : s.word a = w := word_get (i := 0) h rfl

theorem iretq_eq (h : Stacked s.mem s.sp [ip, cs, flags, sp', ss]) : s.iretq =
      { s.set .rsp sp' with rip := ip, cs := cs.setWidth 16, rflags := flags, ss := ss.setWidth 16 } := by
  have hcs : s.word (s.sp + 8) = cs := word_get (i := 1) h rfl
  have hflags : s.word (s.sp + 16) = flags := word_get (i := 2) h rfl
  have hsp : s.word (s.sp + 24) = sp' := word_get (i := 3) h rfl
  have hss : s.word (s.sp + 32) = ss := word_get (i := 4) h rfl
  rw [iretq, word_of_stacked h, hcs, hflags, hsp, hss]

/-- Registers given words one after the other. -/
def assign : List Reg → List Word → (Reg → Word) → Reg → Word
  | r :: rs, w :: ws, f => assign rs ws (update f r w)
  | _, _, f => f

theorem assign_update {f : Reg → Word} (h : r ∉ rs) : assign rs ws (update f r w) = update (assign rs ws f) r w := by
  induction rs generalizing ws f with
  | nil => rfl
  | cons q rs ih =>
    obtain ⟨hq, hrs⟩ := not_or.mp (mem_cons.not.mp h)
    cases ws with
    | nil => rfl
    | cons v ws =>
      rw [assign, assign, update_comm hq]
      exact ih hrs

theorem run_pushes (rs : List Reg) (hrs : Reg.rsp ∉ rs) (hroom : 8 * rs.length ≤ s.sp) : run (rs.map .push) s =
      { s with
        reg := update s.reg .rsp (s.reg .rsp - BitVec.ofNat 64 (8 * rs.length))
        mem := pushAll s.mem s.sp (rs.map s.reg) } := by
  induction rs generalizing s with
  | nil =>
    have hsub : s.reg .rsp - BitVec.ofNat 64 (8 * 0) = s.reg .rsp := BitVec.sub_zero _
    simp only [map_nil, run_nil, length_nil, hsub, update_eq_self, pushAll]
  | cons r rs ih =>
    rw [length_cons] at hroom
    obtain ⟨-, hrs⟩ := not_or.mp (mem_cons.not.mp hrs)
    have hsp : (s.push (s.reg r)).sp = s.sp - 8 := push_sp _ (by omega)
    have hreg : rs.map (s.push (s.reg r)).reg = rs.map s.reg := by
      refine map_congr_left fun q hq => push_reg_of_ne _ fun h => hrs (h ▸ hq)
    have hmem : (s.push (s.reg r)).mem = put64 s.mem (s.sp - 8) (s.reg r).toNat := by
      rw [← hsp, sp, push_rsp, push_mem]
    have hrsp : (s.push (s.reg r)).reg .rsp - BitVec.ofNat 64 (8 * rs.length) =
        s.reg .rsp - BitVec.ofNat 64 (8 * (r :: rs).length) := by
      rw [push_rsp, length_cons]
      bv_omega
    have hrest := ih (s := s.push (s.reg r)) hrs (by omega)
    rw [hrsp, hmem, hsp, hreg] at hrest
    rw [map_cons, run_cons]
    refine hrest.trans ?_
    rw [push, update_idem]
    rfl

theorem run_pushes_reg (rs : List Reg) (hr : r ≠ .rsp) : (run (rs.map .push) s).reg r = s.reg r := by
  induction rs generalizing s with
  | nil => rfl
  | cons q rs ih => exact ih.trans (push_reg_of_ne _ hr)

theorem run_pops (rs : List Reg) (hs : Stacked s.mem s.sp ws) (hlen : rs.length = ws.length) (hrs : Reg.rsp ∉ rs)
    (hroom : s.sp + 8 * rs.length < 2 ^ 64) : run (rs.map .pop) s = { s with
        reg := update (assign rs ws s.reg) .rsp (s.reg .rsp + BitVec.ofNat 64 (8 * rs.length)) } := by
  induction rs generalizing s ws with
  | nil =>
    have hadd : s.reg .rsp + BitVec.ofNat 64 (8 * 0) = s.reg .rsp := BitVec.add_zero _
    simp only [map_nil, run_nil, length_nil, hadd, assign, update_eq_self]
  | cons r rs ih =>
    obtain ⟨w, ws, rfl⟩ := exists_cons_of_length_eq_add_one hlen.symm
    obtain ⟨hr, hrs⟩ := not_or.mp (mem_cons.not.mp hrs)
    rw [length_cons] at hroom
    set t := (s.drop 1).set r (s.word s.sp) with ht
    have hrsp : t.reg .rsp = s.reg .rsp + 8 := by
      rw [ht, set_reg_of_ne hr, drop_rsp]
      rfl
    have hsp : t.sp = s.sp + 8 := by
      have hlt : s.sp + 8 < 2 ^ 64 := by omega
      rw [sp, hrsp]
      exact toNat_add_of_room hlt
    have hreg : t.reg = update (update s.reg r w) .rsp (s.reg .rsp + 8) := by
      rw [ht, word_of_stacked hs, set, drop, set]
      exact update_comm hr ..
    have hstack : Stacked t.mem t.sp ws := by
      rw [hsp]
      exact hs.2
    have hrest := ih hstack (Nat.succ_inj.mp hlen) hrs (by omega)
    rw [hrsp, hreg, assign_update hrs, update_idem] at hrest
    rw [map_cons, run_cons]
    refine hrest.trans ?_
    have hadd : s.reg .rsp + 8 + BitVec.ofNat 64 (8 * rs.length) = s.reg .rsp + BitVec.ofNat 64 (8 * (r :: rs).length) := by
      rw [length_cons]
      bv_omega
    rw [assign, hadd]
    rfl

theorem run_pops_mem (rs : List Reg) : (run (rs.map .pop) s).mem = s.mem := by
  induction rs generalizing s with
  | nil => rfl
  | cons q rs ih => exact ih

theorem run_pops_rsp (rs : List Reg) (hs : Stacked s.mem s.sp ws) (hlen : rs.length = ws.length)
    (hrs : Reg.rsp ∉ rs) (hroom : s.sp + 8 * rs.length < 2 ^ 64) :
    (run (rs.map .pop) s).reg .rsp = s.reg .rsp + BitVec.ofNat 64 (8 * rs.length) := by
  simp only [run_pops rs hs hlen hrs hroom, update_self]

theorem run_pops_sp (rs : List Reg) (hs : Stacked s.mem s.sp ws) (hlen : rs.length = ws.length)
    (hrs : Reg.rsp ∉ rs) (hroom : s.sp + 8 * rs.length < 2 ^ 64) : (run (rs.map .pop) s).sp = s.sp + 8 * rs.length := by
  rw [sp, run_pops_rsp rs hs hlen hrs hroom]
  exact toNat_add_of_room hroom

end Cpu

end NyanOS.Arch
