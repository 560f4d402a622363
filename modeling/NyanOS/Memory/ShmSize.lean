import NyanOS.Memory.Heap

/-!
# The size of a shared-memory object

`sys_ftruncate` on an object, and `shm_set_size` (`ipc/shm.c`) with the failures of its loop. The list of pages is
a block of the kernel heap, whose own frames are not seen here.
-/
namespace NyanOS.Memory

open Lib List

/-- The fields of `SharedMem_t` that `shm_set_size` writes. -/
structure ShmObject where
  physPages : List Nat
  pageCount : Nat
  size : Nat

/-- `shm_set_size`: whether it returned 0. `room` says whether the kernel heap has room; `kmalloc(0)` always fails. -/
def ShmObject.setSize (o : ShmObject) (newSize : Nat) (room : Bool) (m : Machine) : Bool × ShmObject × Machine :=
  if 0 < o.size then (false, o, m)
  else
    let numPages := (newSize + 0xFFF) % 2 ^ 32 / pageSize
    if numPages * 8 = 0 ∨ room = false then (false, o, m)
    else
      match shmAlloc numPages m with
      | (true, pageList, m) => (true, ⟨pageList, numPages, newSize⟩, m)
      | (false, pageList, m) => (false, o, { m with pmm := pageList.foldl pmmFreeFrame m.pmm })

/-- `sys_ftruncate` on the descriptor of an object, with its cast to `uint32_t`. -/
def ShmObject.ftruncate (o : ShmObject) (length : Nat) (room : Bool) (m : Machine) : Bool × ShmObject × Machine :=
  o.setSize (length % 2 ^ 32) room m

/-- The call failed and took nothing, or the object has the size that was asked for. -/
def ShmObject.Sized (o : ShmObject) (length : Nat) (m : Machine) (r : Bool × ShmObject × Machine) : Prop :=
  r.1 = false ∧ r.2.1 = o ∧ r.2.2.pmm.bitmap = m.pmm.bitmap ∨
    r.1 = true ∧ r.2.1.size = length ∧ r.2.1.pageCount = (length + 0xFFF) / pageSize ∧
      r.2.1.physPages.length = r.2.1.pageCount ∧ r.2.1.physPages.Nodup ∧
      ∀ f ∈ r.2.1.physPages, f ∈ freeFrames m.pmm ∧ r.2.2.pmm.bitmap f = true ∧ r.2.2.mem f = fun _ => 0

variable {m : Machine} {n f : Nat}

theorem mem_freeFrames {p : Pmm} : f ∈ freeFrames p ↔ f < p.totalPages ∧ p.bitmap f = false := by
  simp [freeFrames]

theorem Grow.free {p q : Pmm} {new : List Nat} {inc : Nat → Nat} (h : Grow p q new inc) (hf : f ∈ new) :
    f ∈ freeFrames p := mem_freeFrames.mpr (h.fresh f hf).2

/-- The frames that the loop took are new and cleared. If it stopped early there was none left. -/
theorem shmAlloc_spec (hok : m.pmm.Ok) : Grow m.pmm (shmAlloc n m).2.2.pmm (shmAlloc n m).2.1 (fun _ => 0) ∧
    (∀ g, (shmAlloc n m).2.2.mem g = if g ∈ (shmAlloc n m).2.1 then fun _ => 0 else m.mem g) ∧
    if (shmAlloc n m).1 then (shmAlloc n m).2.1.length = n
    else (shmAlloc n m).2.1.length < n ∧ ∀ f, f ∉ freeFrames (shmAlloc n m).2.2.pmm := by
  induction n generalizing m with
  | zero => exact ⟨.refl hok, fun g => by simp [shmAlloc], rfl⟩
  | succ n ih =>
    rcases pmmAllocFrame_cases hok with ⟨hfull, hall⟩ | ⟨f, htake, hlow, hlt, hclear⟩
    · simp only [shmAlloc, hfull, if_true, Bool.false_eq_true, if_false]
      refine ⟨.refl hok, fun g => by simp, Nat.succ_pos n, fun f hf => ?_⟩
      obtain ⟨hlt, hclear⟩ := mem_freeFrames.mp hf
      exact Bool.false_ne_true (hclear.symm.trans (hall f hlt))
    · have hne : f ≠ 0 := by omega
      have hgrow := grow_take hok hlow hlt hclear
      obtain ⟨hrest, hmem, hend⟩ := ih (m := ({ m with pmm := m.pmm.take f } : Machine).fill f fun _ => 0) hgrow.ok
      simp only [shmAlloc, htake, hne, if_false, length_cons]
      refine ⟨hgrow.trans hrest fun _ _ => rfl, fun g => ?_, ?_⟩
      · rw [hmem g]
        by_cases hg : g = f <;> simp [Machine.fill, hg]
      · split at hend
        · next hdone => rw [if_pos hdone, hend]
        next hfail =>
        rw [if_neg hfail]
        exact ⟨Nat.succ_lt_succ hend.1, hend.2⟩

/-- The loop comes to its end exactly if there are enough frames. -/
theorem shmAlloc_ok_iff (hok : m.pmm.Ok) : (shmAlloc n m).1 = true ↔ n ≤ (freeFrames m.pmm).card := by
  obtain ⟨hgrow, -, hend⟩ := shmAlloc_spec (n := n) hok
  split at hend
  · next hdone =>
    refine iff_of_true hdone ?_
    rw [← hend, ← toFinset_card_of_nodup hgrow.nodup]
    exact Finset.card_le_card fun f hf => hgrow.free (mem_toFinset.mp hf)
  · next hfail =>
    refine iff_of_false hfail (not_le.mpr (lt_of_le_of_lt ?_ hend.1))
    refine (Finset.card_le_card fun f hf => mem_toFinset.mpr ?_).trans (toFinset_card_le _)
    obtain ⟨hlt, hclear⟩ := mem_freeFrames.mp hf
    by_contra hnot
    refine hend.2 f (mem_freeFrames.mpr ⟨hgrow.total ▸ hlt, ?_⟩)
    simp [hgrow.bitmap, hclear, hnot]

/-- Two frames are free. -/
def twoFrames : Machine := ⟨⟨fun f => f < 256, fun _ => 0, 258, 256⟩, fun _ _ => 1⟩

end NyanOS.Memory
