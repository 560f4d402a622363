import NyanOS.Memory.FreeRegions
import NyanOS.Memory.System

/-!
# Regions that tile a window of addresses

The allocations that are live, with their address and the size asked for, and the free regions fill a window.
Both region allocators of the source, that of the kernel and that of a task, keep this.
-/
namespace NyanOS.Memory

open Lib Extent Set

def region (x : Nat × Nat) : Extent := ⟨x.1, alignedSize x.2⟩

/-- The node of an allocation in the list of allocated regions. -/
def recordWith (flags : BitVec 32) (x : Nat × Nat) : VmAllocated := ⟨x.1, alignedSize x.2, flags⟩

structure Tiling (window : Set Nat) (free : List Extent) (live : List (Nat × Nat)) : Prop where
  separated : Separated free
  sizes : ∀ x ∈ live, 0 < alignedSize x.2 ∧ x.2 ≤ alignedSize x.2
  disjoint : (live.map region).Pairwise fun x y => Disjoint x.bytes y.bytes
  apart : Disjoint (cover (live.map region)) (cover free)
  whole : cover (live.map region) ∪ cover free = window

variable {window : Set Nat} {free : List Extent} {live pre post : List (Nat × Nat)} {x : Nat × Nat} {n addr lo size : Nat}
  {flags : BitVec 32} {others : List VmAllocated}

theorem alignedSize_alignedSize (n : Nat) : alignedSize (alignedSize n) = alignedSize n := by
  simp only [alignedSize, pageSize]
  omega

theorem alignedSize_of_ok (h0 : 0 < n) (h : n ≤ 2 ^ 64 - pageSize) : 0 < alignedSize n ∧ n ≤ alignedSize n := by
  simp only [alignedSize, pageSize] at h ⊢
  omega

theorem pop_recordWith (hpre : ∀ y ∈ pre, y.1 ≠ x.1) :
    vmmPopAllocatedMem x.1 ((pre ++ x :: post).map (recordWith flags) ++ others) =
      some (recordWith flags x, (pre ++ post).map (recordWith flags) ++ others) := by
  induction pre with
  | nil => simp [vmmPopAllocatedMem, recordWith]
  | cons y pre ih =>
    obtain ⟨hy, hrest⟩ := List.forall_mem_cons.mp hpre
    have hne : (recordWith flags y).addr ≠ x.1 := hy
    simp only [List.cons_append, List.map_cons, vmmPopAllocatedMem, if_neg hne]
    rw [ih hrest]
    rfl

theorem cover_middle : cover ((pre ++ x :: post).map region) = (region x).bytes ∪ cover ((pre ++ post).map region) := by
  rw [List.map_append, List.map_cons, cover_append, cover_cons, List.map_append, cover_append, union_left_comm]

namespace Tiling

theorem start (hsize : 0 < size) : Tiling (Set.Ico lo (lo + size)) [⟨lo, size⟩] [] := by
  refine ⟨separated_cons.mpr ⟨hsize, by simp, separated_nil⟩, by simp, by simp, ?_, ?_⟩
  · simp [cover]
  · ext b
    simp

theorem take (h : Tiling window free live) (hn : 0 < alignedSize n) (hle : n ≤ alignedSize n)
    (hne : (findFreeAddr free (alignedSize n)).1 ≠ 0) :
    Tiling window (findFreeAddr free (alignedSize n)).2 (((findFreeAddr free (alignedSize n)).1, n) :: live) := by
  obtain ⟨hcover, hdisj, hsep⟩ := findFreeAddr_spec hn h.separated hne
  generalize findFreeAddr free (alignedSize n) = r at *
  obtain ⟨a, left⟩ := r
  have hapart := h.apart
  rw [hcover, disjoint_union_right] at hapart
  refine ⟨hsep, List.forall_mem_cons.mpr ⟨⟨hn, hle⟩, h.sizes⟩, ?_, ?_, ?_⟩
  · refine List.pairwise_cons.mpr ⟨fun y hy => ?_, h.disjoint⟩
    exact (hapart.1.mono_left (bytes_subset_cover hy)).symm
  · rw [List.map_cons, cover_cons, disjoint_union_left]
    exact ⟨hdisj, hapart.2⟩
  · have hwhole := h.whole
    rw [hcover] at hwhole
    rw [List.map_cons, cover_cons, union_comm (bytes _), union_assoc]
    exact hwhole

theorem starts_nodup (h : Tiling window free live) : (live.map Prod.fst).Nodup := by
  have hpair := List.pairwise_map.mp h.disjoint
  rw [List.Nodup, List.pairwise_map]
  refine List.Pairwise.imp_of_mem (fun {x y} hx hy hd heq => ?_) hpair
  have hin : (region x).start ∈ (region y).bytes := by
    have hpos := (h.sizes y hy).1
    simp only [region, mem_bytes] at hpos ⊢
    omega
  exact disjoint_left.mp hd (start_mem_bytes (h.sizes x hx).1) hin

section
variable (h : Tiling window free (pre ++ x :: post))
include h

theorem starts_ne : ∀ y ∈ pre, y.1 ≠ x.1 := by
  intro y hy heq
  have hnd := h.starts_nodup
  rw [List.map_append, List.map_cons, List.nodup_append] at hnd
  exact hnd.2.2 y.1 (List.mem_map_of_mem hy) x.1 List.mem_cons_self heq

theorem middle : 0 < alignedSize x.2 ∧ Disjoint (region x).bytes (cover free) ∧
      Disjoint (region x).bytes (cover ((pre ++ post).map region)) := by
  have hin : x ∈ pre ++ x :: post := by simp
  have hperm : ((pre ++ x :: post).map region).Perm (region x :: (pre ++ post).map region) :=
    (List.perm_middle (a := x)).map region
  have hpair := (hperm.pairwise_iff (R := fun x y => Disjoint x.bytes y.bytes) fun hd => hd.symm).mp h.disjoint
  refine ⟨(h.sizes x hin).1, ?_, disjoint_cover (List.pairwise_cons.mp hpair).1⟩
  exact h.apart.mono_left (bytes_subset_cover (List.mem_map_of_mem hin))

theorem give : Tiling window (vmmAddFreeRegion free x.1 (alignedSize x.2)) (pre ++ post) := by
  obtain ⟨hpos, hfree, hrest⟩ := h.middle
  obtain ⟨hcover, hsep⟩ := vmmAddFreeRegion_spec hpos h.separated hfree
  have hsub : (pre ++ post).Sublist (pre ++ x :: post) := (List.sublist_cons_self x post).append_left pre
  refine ⟨hsep, fun y hy => h.sizes y (hsub.subset hy), h.disjoint.sublist (hsub.map region), ?_, ?_⟩
  · have hapart := h.apart
    rw [cover_middle, disjoint_union_left] at hapart
    rw [hcover, disjoint_union_right]
    exact ⟨hrest.symm, hapart.2⟩
  · have hwhole := h.whole
    rw [cover_middle, union_assoc] at hwhole
    rw [hcover, union_left_comm]
    exact hwhole

end

end Tiling

end NyanOS.Memory
