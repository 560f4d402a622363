import Mathlib.Tactic

/-! The check of user pointers at the start of the system calls (`arch/syscall.c`). -/
namespace NyanOS

def userSpaceLimit : Nat := 0x00007FFFFFFFFFFF

/-- `verify_usr_access`: the sum wraps as the processor's does. -/
def verifyUsrAccess (ptr size : BitVec 64) : Bool :=
  if ptr = 0#64 then false
  else if size = 0#64 then true
  else if ptr + size < ptr then false
  else (ptr + size).toNat ≤ userSpaceLimit

theorem lt_userSpaceLimit_of_verifyUsrAccess {ptr size : BitVec 64} {addr : Nat}
    (h : verifyUsrAccess ptr size = true) (hlo : ptr.toNat ≤ addr)
    (hhi : addr < ptr.toNat + size.toNat) : addr < userSpaceLimit := by
  unfold verifyUsrAccess at h
  split at h
  · cases h
  split at h
  · next hz =>
    simp [hz] at hhi
    omega
  split at h
  · cases h
  next hwrap =>
  have hend : (ptr + size).toNat ≤ userSpaceLimit := by simpa using h
  have hle : ptr.toNat ≤ (ptr + size).toNat := by
    rw [BitVec.lt_def] at hwrap
    omega
  -- the sum did not wrap, so it is the end of the buffer
  have hsum : (ptr + size).toNat = ptr.toNat + size.toNat := by
    have hp := ptr.isLt
    have hs := size.isLt
    rw [BitVec.toNat_add] at hle ⊢
    omega
  omega

end NyanOS
