import NyanOS.Memory.Region

/-!
# What the lists of regions cover

The first region that is large enough gives its front away, and a region that comes back is joined with its
neighbours. Both keep the free regions apart from each other.
-/
namespace NyanOS.Memory

open Lib Extent List

variable {addr size lo hi n : Nat} {e prev x y : Extent} {l : List Extent}

theorem findFreeAddr_starts (size : Nat) (h : ∀ x ∈ l, n < x.start) :
    ∀ x ∈ (findFreeAddr l size).2, n < x.start := by
  induction l with
  | nil => exact h
  | cons curr next ih =>
    obtain ⟨hcurr, hnext⟩ := forall_mem_cons.mp h
    rw [findFreeAddr]
    split
    · exact forall_mem_cons.mpr ⟨by simp only; omega, hnext⟩
    split
    · exact hnext
    · exact forall_mem_cons.mpr ⟨hcurr, ih hnext⟩

theorem findFreeAddr_spec (hsize : 0 < size) (h : Separated l) (hne : (findFreeAddr l size).1 ≠ 0) :
    cover l = bytes ⟨(findFreeAddr l size).1, size⟩ ∪ cover (findFreeAddr l size).2 ∧
      Disjoint (bytes ⟨(findFreeAddr l size).1, size⟩) (cover (findFreeAddr l size).2) ∧
      Separated (findFreeAddr l size).2 := by
  induction l with
  | nil => exact absurd rfl hne
  | cons curr next ih =>
    obtain ⟨hpos, hgap, hnext⟩ := separated_cons.mp h
    have hbehind : ∀ x ∈ next, Disjoint (bytes ⟨curr.start, curr.size⟩) x.bytes := by
      intro x hx
      have hlt := hgap x hx
      rw [Set.disjoint_left]
      intro b hb hbx
      simp only [mem_bytes, stop] at hb hbx hlt
      omega
    rw [findFreeAddr] at hne ⊢
    by_cases hlarge : size < curr.size
    · rw [if_pos hlarge]
      -- the front is given away and the rest stays
      have hsplit : curr.bytes = bytes ⟨curr.start, size⟩ ∪ bytes ⟨curr.start + size, curr.size - size⟩ := by
        ext b
        simp only [mem_bytes, Set.mem_union]
        omega
      have hfront : Disjoint (bytes ⟨curr.start, size⟩) (bytes ⟨curr.start + size, curr.size - size⟩) := by
        rw [Set.disjoint_left]
        intro b hb hb'
        simp only [mem_bytes] at hb hb'
        omega
      refine ⟨?_, ?_, separated_cons.mpr ⟨by simp only; omega, fun y hy => ?_, hnext⟩⟩
      · rw [cover_cons, cover_cons, hsplit, Set.union_assoc]
      · rw [cover_cons, Set.disjoint_union_right]
        refine ⟨hfront, disjoint_cover fun x hx => (hbehind x hx).mono_left ?_⟩
        change bytes _ ⊆ curr.bytes
        rw [hsplit]
        exact Set.subset_union_left
      · have hlt := hgap y hy
        simp only [stop] at hlt ⊢
        omega
    · rw [if_neg hlarge] at hne ⊢
      by_cases hexact : curr.size = size
      · rw [if_pos hexact]
        subst hexact
        exact ⟨cover_cons curr next, disjoint_cover hbehind, hnext⟩
      rw [if_neg hexact] at hne ⊢
      obtain ⟨hcover, hdisj, hsep⟩ := ih hnext hne
      have hsub : bytes ⟨(findFreeAddr next size).1, size⟩ ⊆ cover next := by
        rw [hcover]
        exact Set.subset_union_left
      have hcurr : Disjoint curr.bytes (cover next) := disjoint_cover hbehind
      refine ⟨?_, ?_, separated_cons.mpr ⟨hpos, ?_, hsep⟩⟩
      · rw [cover_cons, cover_cons, hcover, Set.union_left_comm]
      · rw [cover_cons, Set.disjoint_union_right]
        exact ⟨(hcurr.mono_right hsub).symm, hdisj⟩
      · exact findFreeAddr_starts size hgap

theorem stop_join (h : x.stop = y.start) : (x.join y).stop = y.stop := by
  simp only [stop, join] at h ⊢
  omega

theorem linkAfter_eq (prev e : Extent) (l : List Extent) : linkAfter prev e l = pushJoin prev (pushJoin e l) := by
  rw [linkAfter]
  cases l with
  | nil => simp [pushJoin]
  | cons x l =>
    by_cases ht : prev.stop = e.start
    · rw [if_pos ht]
      simp only [pushJoin, stop_join ht]
      by_cases hx : e.stop = x.start
      · rw [if_pos hx, if_pos hx]
        simp [join, ht, add_assoc]
      · rw [if_neg hx, if_neg hx]
        simp [ht]
    · rw [if_neg ht]
      simp only [pushJoin]
      by_cases hx : e.stop = x.start
      · have hstart : ¬ prev.stop = (e.join x).start := ht
        rw [if_pos hx]
        simp only [if_neg hstart]
      · rw [if_neg hx]
        simp only [if_neg ht]

theorem insertAfter_eq (hl : Separated (prev :: l)) (hd : ∀ x ∈ l, x.start ≠ e.start) :
    insertAfter prev e l = pushJoin prev (insertFree e l) := by
  induction l generalizing prev with
  | nil => exact linkAfter_eq prev e []
  | cons curr next ih =>
    obtain ⟨-, hgap, hnext⟩ := separated_cons.mp hl
    rw [insertAfter]
    split
    · next hlt =>
      have hskip : insertFree e (curr :: next) = pushJoin curr (insertFree e next) := by
        rw [insertFree, if_neg (by omega)]
      rw [ih hnext fun x hx => hd x (mem_cons_of_mem curr hx), hskip]
      -- the region behind `prev` starts where `curr` does
      refine (pushJoin_of_lt ?_).symm
      refine forall_pushJoin (P := fun x => prev.stop < x.start) (fun x y _ hx _ => hx) (hgap curr mem_cons_self) ?_
      refine forall_insertFree (P := fun x => prev.stop < x.start) (fun x y _ hx _ => hx) ?_ fun x hx =>
        hgap x (mem_cons_of_mem curr hx)
      exact lt_trans (hgap curr mem_cons_self) hlt
    · next hge =>
      have hne := hd curr mem_cons_self
      have hfirst : insertFree e (curr :: next) = pushJoin e (curr :: next) := by
        rw [insertFree, if_pos (by omega)]
      rw [linkAfter_eq, hfirst]

section
variable (hsize : 0 < size) (hl : Separated l) (hd : Disjoint (bytes ⟨addr, size⟩) (cover l))
include hsize hl hd

theorem vmmAddFreeRegion_eq : vmmAddFreeRegion l addr size = insertFree ⟨addr, size⟩ l := by
  have hne : ∀ x ∈ l, x.start ≠ addr := by
    intro x hx heq
    have hin : x.start ∈ bytes ⟨addr, size⟩ := by
      simp only [mem_bytes]
      omega
    exact Set.disjoint_left.mp hd hin (bytes_subset_cover hx (start_mem_bytes (hl.pos x hx)))
  have hz : size ≠ 0 := by omega
  cases l with
  | nil => simp [vmmAddFreeRegion, insertFree, hz]
  | cons curr next =>
    simp only [vmmAddFreeRegion, if_neg hz]
    have hcurr := hne curr mem_cons_self
    by_cases hlt : curr.start < addr
    · simp only [if_pos hlt]
      rw [insertAfter_eq hl fun x hx => hne x (mem_cons_of_mem curr hx), insertFree, if_neg (by simp only; omega)]
    · simp only [if_neg hlt]
      rw [insertFree, if_pos (by simp only; omega)]

theorem vmmAddFreeRegion_spec : cover (vmmAddFreeRegion l addr size) = bytes ⟨addr, size⟩ ∪ cover l ∧
      Separated (vmmAddFreeRegion l addr size) := by
  rw [vmmAddFreeRegion_eq hsize hl hd]
  exact ⟨cover_insertFree _ l, separated_insertFree hsize hl hd⟩

end

end NyanOS.Memory
