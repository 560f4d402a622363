import Mathlib.Tactic

/-! Page table entries (`mem/vmm.h`): a frame address with flags in its low 12 bits. -/
namespace NyanOS.Memory

abbrev Word := BitVec 64

def pageSize : Nat := 0x1000

def vmmFlagPresent : Word := 0x1
def vmmFlagWritable : Word := 0x2
def vmmFlagUser : Word := 0x4
def pteFlagShared : Word := 0x200

def pteGetAddr (entry : Word) : Word := entry &&& ~~~0xFFF

def pteGetFlags (entry : Word) : Word := entry &&& 0xFFF

def pteSetAddr (entry phys : Word) : Word := (phys &&& ~~~0xFFF) ||| (entry &&& 0xFFF)

/-- The physical address of a frame. -/
def physOf (frame : Nat) : Word := BitVec.ofNat 64 (frame * pageSize)

/-- The frame that an entry points to. -/
def frameOf (entry : Word) : Nat := (pteGetAddr entry).toNat / pageSize

def present (entry : Word) : Bool := entry &&& vmmFlagPresent != 0

def writable (entry : Word) : Bool := entry &&& vmmFlagWritable != 0

def user (entry : Word) : Bool := entry &&& vmmFlagUser != 0

def shared (entry : Word) : Bool := entry &&& pteFlagShared != 0

/-- A present entry of a page that belongs to its address space alone, or is copied on write. -/
def isPrivate (entry : Word) : Bool := present entry && !shared entry

variable {e flags e' : Word} {f : Nat}

theorem and_twoPow_ne_zero (e : Word) (i : Nat) (hi : i < 64) : (e &&& BitVec.twoPow 64 i != 0) = e.getLsbD i := by
  rw [BitVec.and_twoPow]
  by_cases h : e.getLsbD i
  · have hne : BitVec.twoPow 64 i ≠ 0#64 := by
      intro heq
      have hbit := congrArg (fun w : Word => w.getLsbD i) heq
      simp [hi] at hbit
    simp [h, hne]
  · simp [h]

theorem present_eq : present e = e.getLsbD 0 := and_twoPow_ne_zero e 0 (by decide)

theorem writable_eq : writable e = e.getLsbD 1 := and_twoPow_ne_zero e 1 (by decide)

theorem user_eq : user e = e.getLsbD 2 := and_twoPow_ne_zero e 2 (by decide)

theorem shared_eq : shared e = e.getLsbD 9 := and_twoPow_ne_zero e 9 (by decide)

theorem getLsbD_mask (i : Nat) : (0xFFF : Word).getLsbD i = decide (i < 12) := by
  by_cases hi : i < 64
  · interval_cases i <;> rfl
  rw [BitVec.getLsbD_of_ge _ _ (by omega)]
  simp
  omega

theorem frameOf_eq : frameOf e = (e >>> 12).toNat := by
  have hshift : pteGetAddr e >>> 12 = e >>> 12 := by
    apply BitVec.eq_of_getLsbD_eq
    intro i hi
    simp only [pteGetAddr, BitVec.getLsbD_ushiftRight, BitVec.getLsbD_and, BitVec.getLsbD_not, getLsbD_mask]
    by_cases hlt : 12 + i < 64
    · simp [hlt]
    · rw [BitVec.getLsbD_of_ge e _ (by omega)]
      simp
  rw [← hshift, BitVec.toNat_ushiftRight, Nat.shiftRight_eq_div_pow]
  rfl

theorem frameOf_congr (h : ∀ i, 12 ≤ i → e'.getLsbD i = e.getLsbD i) : frameOf e' = frameOf e := by
  rw [frameOf_eq, frameOf_eq]
  congr 1
  apply BitVec.eq_of_getLsbD_eq
  intro i _
  simp only [BitVec.getLsbD_ushiftRight]
  exact h _ (by omega)

theorem getLsbD_physOf_low (i : Nat) (hi : i < 12) : (physOf f).getLsbD i = false := by
  have hmul : f * pageSize = 2 ^ 12 * f := by simp [pageSize, mul_comm]
  rw [physOf, hmul, BitVec.getLsbD_ofNat, Nat.testBit_two_pow_mul]
  simp
  omega

theorem frameOf_physOf (hf : f < 2 ^ 52) : frameOf (physOf f) = f := by
  rw [frameOf_eq, BitVec.toNat_ushiftRight, physOf, BitVec.toNat_ofNat, Nat.shiftRight_eq_div_pow]
  simp only [pageSize]
  omega

theorem getLsbD_flags (hfl : flags.toNat < 2 ^ 12) (i : Nat) (hi : 12 ≤ i) : flags.getLsbD i = false := by
  rw [BitVec.getLsbD, Nat.testBit_lt_two_pow]
  exact lt_of_lt_of_le hfl (Nat.pow_le_pow_right (by decide) hi)

/-- The entry that `vmm_map_page` stores. -/
def mkPte (frame : Nat) (flags : Word) : Word := pteSetAddr 0 (physOf frame) ||| flags ||| vmmFlagPresent

theorem pteSetAddr_zero : pteSetAddr 0 (physOf f) = physOf f := by
  apply BitVec.eq_of_getLsbD_eq
  intro i hi
  simp only [pteSetAddr, BitVec.getLsbD_or, BitVec.getLsbD_and, BitVec.getLsbD_not, getLsbD_mask]
  by_cases hlow : i < 12
  · simp [hlow, getLsbD_physOf_low i hlow]
  · simp [hlow, hi]

theorem getLsbD_present (i : Nat) : vmmFlagPresent.getLsbD i = decide (i = 0) := by
  have h : vmmFlagPresent = BitVec.twoPow 64 0 := rfl
  rw [h, BitVec.getLsbD_twoPow]
  by_cases hi : i = 0 <;> simp [hi]
  omega

theorem getLsbD_writable (i : Nat) : vmmFlagWritable.getLsbD i = decide (i = 1) := by
  have h : vmmFlagWritable = BitVec.twoPow 64 1 := rfl
  rw [h, BitVec.getLsbD_twoPow]
  by_cases hi : i = 1 <;> simp [hi]
  omega

theorem frameOf_mkPte (hf : f < 2 ^ 52) (hfl : flags.toNat < 2 ^ 12) : frameOf (mkPte f flags) = f := by
  rw [mkPte, pteSetAddr_zero]
  rw [frameOf_congr (e := physOf f), frameOf_physOf hf]
  intro i hi
  have h0 : i ≠ 0 := by omega
  simp [BitVec.getLsbD_or, getLsbD_flags hfl i hi, getLsbD_present, h0]

@[simp] theorem present_mkPte : present (mkPte f flags) = true := by
  simp [present_eq, mkPte, getLsbD_present]

theorem getLsbD_mkPte (i : Nat) (h0 : i ≠ 0) (hi : i < 12) : (mkPte f flags).getLsbD i = flags.getLsbD i := by
  rw [mkPte, pteSetAddr_zero]
  simp [BitVec.getLsbD_or, getLsbD_physOf_low i hi, getLsbD_present, h0]

@[simp] theorem shared_mkPte : shared (mkPte f flags) = shared flags := by
  rw [shared_eq, shared_eq, getLsbD_mkPte 9 (by decide) (by decide)]

@[simp] theorem writable_mkPte : writable (mkPte f flags) = writable flags := by
  rw [writable_eq, writable_eq, getLsbD_mkPte 1 (by decide) (by decide)]

@[simp] theorem user_mkPte : user (mkPte f flags) = user flags := by
  rw [user_eq, user_eq, getLsbD_mkPte 2 (by decide) (by decide)]

/-- An address with the flags of another entry, as the copies of tables and pages store it. -/
def withFlags (frame : Nat) (flags : Word) : Word := physOf frame ||| (flags &&& 0xFFF)

theorem frameOf_withFlags (hf : f < 2 ^ 52) : frameOf (withFlags f flags) = f := by
  rw [withFlags, frameOf_congr (e := physOf f), frameOf_physOf hf]
  intro i hi
  have hlow : ¬ i < 12 := by omega
  simp only [BitVec.getLsbD_or, BitVec.getLsbD_and, getLsbD_mask, hlow, decide_false, Bool.and_false, Bool.or_false]

theorem getLsbD_withFlags (i : Nat) (hi : i < 12) : (withFlags f flags).getLsbD i = flags.getLsbD i := by
  simp only [withFlags, BitVec.getLsbD_or, BitVec.getLsbD_and, getLsbD_physOf_low i hi, getLsbD_mask,
    hi, decide_true, Bool.and_true, Bool.false_or]

@[simp] theorem present_withFlags : present (withFlags f flags) = present flags := by
  rw [present_eq, present_eq, getLsbD_withFlags 0 (by decide)]

@[simp] theorem shared_withFlags : shared (withFlags f flags) = shared flags := by
  rw [shared_eq, shared_eq, getLsbD_withFlags 9 (by decide)]

@[simp] theorem writable_withFlags : writable (withFlags f flags) = writable flags := by
  rw [writable_eq, writable_eq, getLsbD_withFlags 1 (by decide)]

@[simp] theorem user_withFlags : user (withFlags f flags) = user flags := by
  rw [user_eq, user_eq, getLsbD_withFlags 2 (by decide)]

def setWritable (entry : Word) : Word := entry ||| vmmFlagWritable

def clearWritable (entry : Word) : Word := entry &&& ~~~vmmFlagWritable

theorem getLsbD_setWritable (i : Nat) (h1 : i ≠ 1) : (setWritable e).getLsbD i = e.getLsbD i := by
  simp [setWritable, getLsbD_writable, h1]

theorem getLsbD_clearWritable (i : Nat) (h1 : i ≠ 1) : (clearWritable e).getLsbD i = e.getLsbD i := by
  by_cases hi : i < 64
  · simp only [clearWritable, BitVec.getLsbD_and, BitVec.getLsbD_not, getLsbD_writable, h1, hi,
      decide_false, decide_true, Bool.not_false, Bool.and_true]
  · rw [BitVec.getLsbD_of_ge _ _ (by omega), BitVec.getLsbD_of_ge _ _ (by omega)]

@[simp] theorem writable_setWritable : writable (setWritable e) = true := by
  simp [writable_eq, setWritable, getLsbD_writable]

@[simp] theorem writable_clearWritable : writable (clearWritable e) = false := by
  simp [writable_eq, clearWritable, getLsbD_writable]

theorem setWritable_of_writable (h : writable e = true) : setWritable e = e := by
  apply BitVec.eq_of_getLsbD_eq
  intro i _
  by_cases hi : i = 1
  · subst hi
    rw [writable_eq] at h
    rw [h, setWritable, BitVec.getLsbD_or, h, Bool.true_or]
  · exact getLsbD_setWritable i hi

@[simp] theorem present_setWritable : present (setWritable e) = present e := by
  rw [present_eq, present_eq, getLsbD_setWritable 0 (by decide)]

@[simp] theorem present_clearWritable : present (clearWritable e) = present e := by
  rw [present_eq, present_eq, getLsbD_clearWritable 0 (by decide)]

@[simp] theorem shared_setWritable : shared (setWritable e) = shared e := by
  rw [shared_eq, shared_eq, getLsbD_setWritable 9 (by decide)]

@[simp] theorem shared_clearWritable : shared (clearWritable e) = shared e := by
  rw [shared_eq, shared_eq, getLsbD_clearWritable 9 (by decide)]

@[simp] theorem user_setWritable : user (setWritable e) = user e := by
  rw [user_eq, user_eq, getLsbD_setWritable 2 (by decide)]

@[simp] theorem user_clearWritable : user (clearWritable e) = user e := by
  rw [user_eq, user_eq, getLsbD_clearWritable 2 (by decide)]

@[simp] theorem frameOf_setWritable : frameOf (setWritable e) = frameOf e :=
  frameOf_congr fun i hi => getLsbD_setWritable i (by omega)

@[simp] theorem frameOf_clearWritable : frameOf (clearWritable e) = frameOf e :=
  frameOf_congr fun i hi => getLsbD_clearWritable i (by omega)

@[simp] theorem present_zero : present 0#64 = false := rfl

/-- The flags of a page that was copied on write: those of the old entry, and writable. -/
theorem getLsbD_cowFlags (i : Nat) (h1 : i ≠ 1) (hi : i < 12) :
    (pteGetFlags e ||| vmmFlagWritable).getLsbD i = e.getLsbD i := by
  have hmask := getLsbD_mask i
  simp only [hi, decide_true] at hmask
  simp only [pteGetFlags, BitVec.getLsbD_or, BitVec.getLsbD_and, hmask, getLsbD_writable, h1,
    decide_false, Bool.and_true, Bool.or_false]

@[simp] theorem present_cowFlags : present (pteGetFlags e ||| vmmFlagWritable) = present e := by
  rw [present_eq, present_eq, getLsbD_cowFlags 0 (by decide) (by decide)]

@[simp] theorem shared_cowFlags : shared (pteGetFlags e ||| vmmFlagWritable) = shared e := by
  rw [shared_eq, shared_eq, getLsbD_cowFlags 9 (by decide) (by decide)]

@[simp] theorem user_cowFlags : user (pteGetFlags e ||| vmmFlagWritable) = user e := by
  rw [user_eq, user_eq, getLsbD_cowFlags 2 (by decide) (by decide)]

@[simp] theorem writable_cowFlags : writable (pteGetFlags e ||| vmmFlagWritable) = true := by
  rw [writable_eq, BitVec.getLsbD_or, getLsbD_writable]
  simp

/-- What a fork leaves of a leaf entry, in the parent and in the child. -/
def forkEntry (entry : Word) : Word := if shared entry then entry else clearWritable entry

@[simp] theorem present_forkEntry : present (forkEntry e) = present e := by
  rw [forkEntry]
  split <;> simp

@[simp] theorem shared_forkEntry : shared (forkEntry e) = shared e := by
  rw [forkEntry]
  split <;> simp

@[simp] theorem user_forkEntry : user (forkEntry e) = user e := by
  rw [forkEntry]
  split <;> simp

@[simp] theorem frameOf_forkEntry : frameOf (forkEntry e) = frameOf e := by
  rw [forkEntry]
  split <;> simp

@[simp] theorem isPrivate_forkEntry : isPrivate (forkEntry e) = isPrivate e := by
  simp [isPrivate]

theorem writable_forkEntry (hs : shared e = false) : writable (forkEntry e) = false := by
  simp [forkEntry, hs]

theorem forkEntry_of_shared (hs : shared e = true) : forkEntry e = e := by
  simp [forkEntry, hs]

end NyanOS.Memory
