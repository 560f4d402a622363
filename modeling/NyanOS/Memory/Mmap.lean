import NyanOS.Memory.Tiling
import NyanOS.Memory.Abstraction

/-!
# The regions of `sys_mmap`

The mappings that a task has made and not removed are followed with the length that was asked for. Together
with the free regions they fill the window of addresses, as long as no length is rounded to 0.
-/
namespace NyanOS.Memory

open Lib Extent Option

/-- `live` are the mappings, newest first, with their address and the length asked for. -/
structure Session where
  system : System
  live : List (Nat × Nat)

inductive MapCall where
  | mmap (object : Nat) (length : BitVec 64)
  | munmap (addr : Nat)
  deriving DecidableEq

/-- The address that `sys_mmap` returns. -/
def mmapResult (t : Task) (frames : List Nat) (length : Nat) : Nat :=
  if frames.length = 0 then 0 else (findFreeAddr t.vmFree (alignedSize length)).1

/-- A task maps objects and removes mappings that it has. -/
def mapTo (pid : Nat) (x : Session) : MapCall → Option Session
  | .mmap object length =>
    (x.system.find pid).bind fun t => x.system.shms[object]?.map fun frames =>
      let addr := mmapResult t frames length.toNat
      ⟨(sysMmap x.system t frames length.toNat).1,
        if addr = 0 then x.live else (addr, length.toNat) :: x.live⟩
  | .munmap addr =>
    if addr ∈ x.live.map Prod.fst then
      (x.system.find pid).map fun t => ⟨(vmmUnmapUser x.system t addr).2, x.live.eraseP (·.1 = addr)⟩
    else none

/-- The length is neither 0 nor so large that rounding it up gives 0. -/
def LengthOk (_ : Session) : MapCall → Prop
  | .mmap _ length => 0 < length.toNat ∧ length.toNat ≤ 2 ^ 64 - pageSize
  | .munmap _ => True

instance : ∀ (x : Session) (c : MapCall), Decidable (LengthOk x c)
  | _, .mmap _ _ => inferInstanceAs (Decidable (_ ∧ _))
  | _, .munmap _ => inferInstanceAs (Decidable True)

def record (x : Nat × Nat) : VmAllocated := ⟨x.1, alignedSize x.2, vmmFlagShm⟩

def mmapWindow : Set Nat := Set.Ico userMmapStart (userMmapStart + userMmapSize)

/-- The mappings have distinct addresses and sizes in pages that hold what was asked for; with the free
regions they tile the window; and each of them is what `sys_munmap` of its address takes from the list. -/
structure MmapSound (t : Task) (live : List (Nat × Nat)) : Prop where
  starts : (live.map Prod.fst).Nodup
  sizes : ∀ x ∈ live, 0 < (region x).size ∧ pageSize ∣ (region x).size ∧ x.2 ≤ (region x).size
  disjoint : (live.map region).Pairwise fun x y => Disjoint x.bytes y.bytes
  apart : Disjoint (cover (live.map region)) (cover t.vmFree)
  whole : cover (live.map region) ∪ cover t.vmFree = mmapWindow
  released : ∀ x ∈ live, ∃ others, vmmPopAllocatedMem x.1 t.vmAlloc = some (record x, others) ∧
    cover (vmmAddFreeRegion t.vmFree x.1 (alignedSize (record x).size)) = (region x).bytes ∪ cover t.vmFree

/-- The invariant behind it. Records of other memory, such as the stack, lie outside the window. -/
structure Tiled (t : Task) (live : List (Nat × Nat)) : Prop where
  separated : Separated t.vmFree
  sizes : ∀ x ∈ live, 0 < alignedSize x.2 ∧ x.2 ≤ alignedSize x.2
  disjoint : (live.map region).Pairwise fun x y => Disjoint x.bytes y.bytes
  apart : Disjoint (cover (live.map region)) (cover t.vmFree)
  whole : cover (live.map region) ∪ cover t.vmFree = mmapWindow
  records : ∃ others, t.vmAlloc = live.map record ++ others ∧ ∀ a ∈ others, a.addr ∉ mmapWindow

variable {t : Task} {live pre post : List (Nat × Nat)} {x : Nat × Nat} {n addr pid : Nat} {others rest : List VmAllocated}

theorem record_eq : record = recordWith vmmFlagShm := rfl

namespace Tiled

theorem tiling (h : Tiled t live) : Tiling mmapWindow t.vmFree live := ⟨h.separated, h.sizes, h.disjoint, h.apart, h.whole⟩

theorem of_tiling (h : Tiling mmapWindow t.vmFree live) (halloc : t.vmAlloc = live.map record ++ others)
    (hothers : ∀ a ∈ others, a.addr ∉ mmapWindow) : Tiled t live :=
  ⟨h.separated, h.sizes, h.disjoint, h.apart, h.whole, others, halloc, hothers⟩

theorem start (hfree : t.vmFree = [⟨userMmapStart, userMmapSize⟩]) (halloc : ∀ a ∈ t.vmAlloc, a.addr ∉ mmapWindow) :
    Tiled t [] := by
  refine of_tiling ?_ rfl halloc
  rw [hfree]
  exact Tiling.start (by decide)

theorem mmap (h : Tiled t live) (hn : 0 < alignedSize n) (hle : n ≤ alignedSize n)
    (hne : (findFreeAddr t.vmFree (alignedSize n)).1 ≠ 0) :
    Tiled { t with
      vmFree := (findFreeAddr t.vmFree (alignedSize n)).2
      vmAlloc := vmmAddAllocatedMem t.vmAlloc (findFreeAddr t.vmFree (alignedSize n)).1 (alignedSize n) vmmFlagShm }
      (((findFreeAddr t.vmFree (alignedSize n)).1, n) :: live) := by
  obtain ⟨others, halloc, hothers⟩ := h.records
  refine of_tiling (h.tiling.take hn hle hne) ?_ hothers
  simp only [vmmAddAllocatedMem, halloc]
  rfl

theorem pop (h : Tiled t (pre ++ x :: post)) (halloc : t.vmAlloc = (pre ++ x :: post).map record ++ others) :
    vmmPopAllocatedMem x.1 t.vmAlloc = some (record x, (pre ++ post).map record ++ others) := by
  rw [halloc, record_eq]
  exact pop_recordWith h.tiling.starts_ne

theorem munmap (h : Tiled t (pre ++ x :: post)) (hothers : ∀ a ∈ others, a.addr ∉ mmapWindow) : Tiled { t with
      vmFree := vmmAddFreeRegion t.vmFree x.1 (alignedSize (record x).size)
      vmAlloc := (pre ++ post).map record ++ others } (pre ++ post) := by
  have hsize : alignedSize (record x).size = alignedSize x.2 := alignedSize_alignedSize x.2
  rw [hsize]
  exact of_tiling h.tiling.give rfl hothers

theorem sound (h : Tiled t live) : MmapSound t live := by
  refine ⟨h.tiling.starts_nodup, fun x hx => ⟨(h.sizes x hx).1, dvd_alignedSize x.2, (h.sizes x hx).2⟩, h.disjoint,
    h.apart, h.whole, fun x hx => ?_⟩
  obtain ⟨others, halloc, -⟩ := h.records
  obtain ⟨pre, post, rfl⟩ := List.append_of_mem hx
  obtain ⟨hpos, hfree, -⟩ := h.tiling.middle
  refine ⟨(pre ++ post).map record ++ others, h.pop halloc, ?_⟩
  rw [show alignedSize (record x).size = alignedSize x.2 from alignedSize_alignedSize x.2]
  exact (vmmAddFreeRegion_spec hpos h.separated hfree).1

end Tiled

/-- The task is there and its regions tile the window. -/
def TiledTask (pid : Nat) (x : Session) : Prop := ∃ t, x.system.find pid = some t ∧ Tiled t x.live

theorem sysMmap_eq (s : System) (t : Task) (frames : List Nat) (n : Nat) :
    (mmapResult t frames n = 0 ∧ sysMmap s t frames n = (s, [])) ∨
    (mmapResult t frames n ≠ 0 ∧ mmapResult t frames n = (findFreeAddr t.vmFree (alignedSize n)).1 ∧
      (sysMmap s t frames n).1.tasks = { t with
        vmFree := (findFreeAddr t.vmFree (alignedSize n)).2
        vmAlloc := vmmAddAllocatedMem t.vmAlloc (findFreeAddr t.vmFree (alignedSize n)).1 (alignedSize n)
          vmmFlagShm } :: s.drop t.pid) := by
  unfold mmapResult sysMmap
  by_cases hf : frames.length = 0
  · simp [hf]
  simp only [if_neg hf]
  by_cases ha : (findFreeAddr t.vmFree (alignedSize n)).1 = 0
  · simp [ha]
  · rw [if_neg ha]
    exact .inr ⟨ha, trivial, rfl⟩

theorem vmmUnmapUser_tasks {s : System} {node : VmAllocated}
    (hpop : vmmPopAllocatedMem addr t.vmAlloc = some (node, rest)) :
    (vmmUnmapUser s t addr).2.tasks = { t with
      vmFree := vmmAddFreeRegion t.vmFree addr (alignedSize node.size)
      vmAlloc := rest } :: s.drop t.pid := by
  rw [vmmUnmapUser, hpop]
  rfl

theorem TiledTask.step {x y : Session} {c : MapCall} (hstep : guarded (ofNext (mapTo pid)) LengthOk x c y)
    (h : TiledTask pid x) : TiledTask pid y := by
  obtain ⟨t, hfind, ht⟩ := h
  obtain ⟨hok, hto⟩ := hstep
  have hpid := (find_some hfind).2
  cases c with
  | mmap object length =>
    obtain ⟨hlen0, hlen⟩ := hok
    obtain ⟨hpos, hle⟩ := alignedSize_of_ok hlen0 hlen
    rw [ofNext, mapTo, hfind, bind_some] at hto
    obtain ⟨frames, -, hy⟩ := map_eq_some_iff.mp hto
    subst hy
    rcases sysMmap_eq x.system t frames length.toNat with
      ⟨hz, hsys⟩ | ⟨hne, haddr, htasks⟩
    · refine ⟨t, ?_, ?_⟩
      · simp only [hsys]
        exact hfind
      · simp only [if_pos hz]
        exact ht
    · refine ⟨_, (find_put htasks).trans (if_pos hpid.symm), ?_⟩
      simp only [if_neg hne]
      rw [haddr] at hne ⊢
      exact ht.mmap hpos hle hne
  | munmap addr =>
    obtain ⟨hmem, hy⟩ := ite_none_right_eq_some.mp hto
    rw [hfind, map_some, some.injEq] at hy
    subst hy
    obtain ⟨⟨a, n⟩, hin, haddr⟩ := List.mem_map.mp hmem
    obtain ⟨z, pre, post, -, hz, hlive, herase⟩ :=
      List.exists_of_eraseP (p := fun w => decide (w.1 = addr)) hin (by simpa using haddr)
    have hzaddr : z.1 = addr := by simpa using hz
    subst hzaddr
    obtain ⟨others, halloc, hothers⟩ := ht.records
    have htiled := ht
    rw [hlive] at htiled halloc
    refine ⟨_, (find_put (vmmUnmapUser_tasks (htiled.pop halloc))).trans (if_pos hpid.symm), ?_⟩
    simp only [herase]
    exact htiled.munmap hothers

/-- The regions that a task maps with lengths that are not rounded to 0 tile the window with the free ones,
and `sys_munmap` releases what the `sys_mmap` that returned the address reserved. -/
theorem mmap_regions_tile {pid : Nat} {x₀ x : Session} {t₀ : Task} {calls : List MapCall}
    (hfind : x₀.system.find pid = some t₀) (hfree : t₀.vmFree = [⟨userMmapStart, userMmapSize⟩])
    (halloc : ∀ a ∈ t₀.vmAlloc, a.addr ∉ mmapWindow) (hlive : x₀.live = [])
    (hrun : Run (guarded (ofNext (mapTo pid)) LengthOk) x₀ calls x) :
    ∃ t, x.system.find pid = some t ∧ MmapSound t x.live := by
  have h₀ : TiledTask pid x₀ := ⟨t₀, hfind, by rw [hlive]; exact Tiled.start hfree halloc⟩
  obtain ⟨t, ht, htiled⟩ := hrun.invariant (P := TiledTask pid) (fun _ _ _ => TiledTask.step) h₀
  exact ⟨t, ht, htiled.sound⟩

/-- A new task, and a shared-memory object of one page. -/
def mapSession : Session :=
  ⟨⟨⟨⟨fun i => decide (i < 258), fun _ => 0, 300, 258⟩, fun _ _ => 0⟩, 0, [newTask 1 256 0], [[257]], [], []⟩, []⟩

theorem mmap_regions_tile_reuse : ∃ x, Run (guarded (ofNext (mapTo 1)) LengthOk) mapSession
      [.mmap 0 4096#64, .mmap 0 5000#64, .munmap 0x40000000, .mmap 0 1#64] x ∧
    x.live = [(0x40000000, 1), (0x40001000, 5000)] ∧ ∃ t, x.system.find 1 = some t ∧ MmapSound t x.live := by
  have hexec : ((exec (checked (mapTo 1) LengthOk) mapSession
      [.mmap 0 4096#64, .mmap 0 5000#64, .munmap 0x40000000, .mmap 0 1#64]).map fun x => x.live) =
      some [(0x40000000, 1), (0x40001000, 5000)] := by decide +kernel
  obtain ⟨x, hx, hlive⟩ := map_eq_some_iff.mp hexec
  have hrun := exec_checked hx
  have hfind : mapSession.system.find 1 = some (newTask 1 256 0) := rfl
  have hnone : ∀ a ∈ (newTask 1 256 0).vmAlloc, a.addr ∉ mmapWindow := fun a ha => absurd ha List.not_mem_nil
  exact ⟨x, hrun, hlive, mmap_regions_tile hfind rfl hnone rfl hrun⟩

/-- The largest length is rounded to 0: the next mapping gets the same address. -/
theorem mmap_same_address : ∃ x, Run (ofNext (mapTo 1)) mapSession [.mmap 0 0xFFFFFFFFFFFFFFFF#64, .mmap 0 4096#64] x ∧
    x.live.map Prod.fst = [0x40000000, 0x40000000] ∧ ¬ ∃ t, x.system.find 1 = some t ∧ MmapSound t x.live := by
  have hexec : ((exec (mapTo 1) mapSession [.mmap 0 0xFFFFFFFFFFFFFFFF#64, .mmap 0 4096#64]).map
      fun x => x.live.map Prod.fst) = some [0x40000000, 0x40000000] := by decide +kernel
  obtain ⟨x, hx, hlive⟩ := map_eq_some_iff.mp hexec
  refine ⟨x, exec_run hx, hlive, ?_⟩
  rintro ⟨t, -, hsound⟩
  have hnd := hsound.starts
  rw [hlive] at hnd
  exact absurd hnd (by decide)

end NyanOS.Memory
