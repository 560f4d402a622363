import NyanOS.Lib.Extent

/-!
The lists of free and of allocated address regions (`mem/vmm.c`). The allocation of list nodes
succeeds.
-/

namespace NyanOS.Memory

open Lib List

/-- `find_free_addr`: the front of the first region that is large enough, or 0. -/
def findFreeAddr : List Extent → Nat → Nat × List Extent
  | [], _ => (0, [])
  | curr :: next, size =>
    if size < curr.size then (curr.start, ⟨curr.start + size, curr.size - size⟩ :: next)
    else if curr.size = size then (curr.start, next)
    else
      let (addr, next) := findFreeAddr next size
      (addr, curr :: next)

/-- The end of `vmm_add_free_region`, with `prev` the last region before the new one. -/
def linkAfter (prev e : Extent) (next : List Extent) : List Extent :=
  if prev.stop = e.start then Extent.pushJoin (prev.join e) next else prev :: Extent.pushJoin e next

def insertAfter (prev e : Extent) : List Extent → List Extent
  | [] => linkAfter prev e []
  | curr :: next =>
    if curr.start < e.start then prev :: insertAfter curr e next else linkAfter prev e (curr :: next)

def vmmAddFreeRegion (head : List Extent) (addr size : Nat) : List Extent :=
  if size = 0 then head
  else
    match head with
    | [] => [⟨addr, size⟩]
    | curr :: next =>
      if curr.start < addr then insertAfter curr ⟨addr, size⟩ next
      else Extent.pushJoin ⟨addr, size⟩ (curr :: next)

def vmmFlagShm : BitVec 32 := 8

structure VmAllocated where
  addr : Nat
  size : Nat
  flags : BitVec 32
  deriving DecidableEq, Repr

def VmAllocated.isShm (a : VmAllocated) : Bool := a.flags &&& vmmFlagShm != 0

def vmmAddAllocatedMem (head : List VmAllocated) (addr size : Nat) (flags : BitVec 32) :
    List VmAllocated := ⟨addr, size, flags⟩ :: head

/-- `vmm_pop_allocated_mem`: the first node with the address, and the list without it. -/
def vmmPopAllocatedMem (addr : Nat) : List VmAllocated → Option (VmAllocated × List VmAllocated)
  | [] => none
  | curr :: next =>
    if curr.addr = addr then some (curr, next)
    else (vmmPopAllocatedMem addr next).map fun (node, next) => (node, curr :: next)

variable {lo hi addr size : Nat} {e prev x y : Extent} {l l' : List Extent}
  {node : VmAllocated} {head head' : List VmAllocated}

/-- A region inside a window of addresses. -/
def Within (lo hi : Nat) (e : Extent) : Prop := lo ≤ e.start ∧ e.stop ≤ hi

theorem within_join (hj : x.stop = y.start) (hx : Within lo hi x)
    (hy : Within lo hi y) : Within lo hi (x.join y) :=
  ⟨hx.1, Extent.stop_join_le hj hx.2 hy.2⟩

/-- A property that both parts of a divided region have holds of what a search takes and leaves. -/
theorem findFreeAddr_forall {P : Extent → Prop} (size : Nat)
    (hP : ∀ e : Extent, size ≤ e.size → P e → P ⟨e.start, size⟩ ∧ P ⟨e.start + size, e.size - size⟩)
    (h : ∀ e ∈ l, P e) :
    (∀ e ∈ (findFreeAddr l size).2, P e) ∧ ((findFreeAddr l size).1 ≠ 0 → P ⟨(findFreeAddr l size).1, size⟩) := by
  induction l with
  | nil => simp [findFreeAddr]
  | cons curr next ih =>
    obtain ⟨hcurr, hnext⟩ := forall_mem_cons.mp h
    obtain ⟨hrest, haddr⟩ := ih hnext
    simp only [findFreeAddr]
    split
    · next hlt =>
      obtain ⟨hfront, hback⟩ := hP curr (by omega) hcurr
      exact ⟨forall_mem_cons.mpr ⟨hback, hnext⟩, fun _ => hfront⟩
    split
    · next heq => exact ⟨hnext, fun _ => (hP curr (by omega) hcurr).1⟩
    · exact ⟨forall_mem_cons.mpr ⟨hcurr, hrest⟩, haddr⟩

theorem findFreeAddr_within (size : Nat) (h : ∀ e ∈ l, Within lo hi e) :
    (∀ e ∈ (findFreeAddr l size).2, Within lo hi e) ∧
      ((findFreeAddr l size).1 ≠ 0 → Within lo hi ⟨(findFreeAddr l size).1, size⟩) := by
  refine findFreeAddr_forall size (fun e hsize he => ?_) h
  simp only [Within, Extent.stop] at he ⊢
  omega

section Joined

variable {P : Extent → Prop} (hP : ∀ x y : Extent, x.stop = y.start → P x → P y → P (x.join y))
include hP

theorem linkAfter_forall (hp : P prev) (he : P e) (h : ∀ x ∈ l, P x) : ∀ x ∈ linkAfter prev e l, P x := by
  rw [linkAfter]
  split
  · next htouch => exact Extent.forall_pushJoin hP (hP prev e htouch hp he) h
  · exact forall_mem_cons.mpr ⟨hp, Extent.forall_pushJoin hP he h⟩

theorem insertAfter_forall (hp : P prev) (he : P e) (h : ∀ x ∈ l, P x) : ∀ x ∈ insertAfter prev e l, P x := by
  induction l generalizing prev with
  | nil => exact linkAfter_forall hP hp he h
  | cons curr next ih =>
    obtain ⟨hcurr, hnext⟩ := forall_mem_cons.mp h
    rw [insertAfter]
    split
    · exact forall_mem_cons.mpr ⟨hp, ih hcurr hnext⟩
    · exact linkAfter_forall hP hp he h

theorem vmmAddFreeRegion_forall (h : ∀ x ∈ l, P x) (he : P ⟨addr, size⟩) : ∀ x ∈ vmmAddFreeRegion l addr size, P x := by
  by_cases hsize : size = 0
  · simpa only [vmmAddFreeRegion, hsize, if_true] using h
  cases l with
  | nil => simpa [vmmAddFreeRegion, hsize] using he
  | cons curr next =>
    obtain ⟨hcurr, hnext⟩ := forall_mem_cons.mp h
    simp only [vmmAddFreeRegion, hsize, if_false]
    split
    · exact insertAfter_forall hP hcurr he hnext
    · exact Extent.forall_pushJoin hP he h

end Joined

theorem vmmAddFreeRegion_within (h : ∀ x ∈ l, Within lo hi x) (he : Within lo hi ⟨addr, size⟩) :
    ∀ x ∈ vmmAddFreeRegion l addr size, Within lo hi x :=
  vmmAddFreeRegion_forall (fun _ _ => within_join) h he

theorem isShm_of_flag : VmAllocated.isShm ⟨addr, size, vmmFlagShm⟩ = true := by
  have hflag : vmmFlagShm &&& vmmFlagShm ≠ 0 := by decide
  simpa [VmAllocated.isShm] using hflag

theorem vmmPopAllocatedMem_mem (h : vmmPopAllocatedMem addr head = some (node, head')) :
    node ∈ head ∧ node.addr = addr ∧ ∀ a ∈ head', a ∈ head := by
  induction head generalizing head' with
  | nil => simp [vmmPopAllocatedMem] at h
  | cons curr next ih =>
    simp only [vmmPopAllocatedMem] at h
    split at h
    · next heq =>
      obtain ⟨rfl, rfl⟩ := Prod.mk.inj (Option.some.inj h)
      exact ⟨by simp, heq, fun a ha => by simp [ha]⟩
    obtain ⟨⟨node', tail⟩, hpop, heq⟩ := Option.map_eq_some_iff.mp h
    cases heq
    obtain ⟨hmem, haddr, hsub⟩ := ih hpop
    refine ⟨by simp [hmem], haddr, ?_⟩
    intro a ha
    rcases mem_cons.mp ha with rfl | ha
    · simp
    · simp [hsub a ha]

end NyanOS.Memory
