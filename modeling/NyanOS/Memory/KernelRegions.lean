import NyanOS.Memory.KernelMap

/-!
# The kernel's regions over whole runs

The regions that are live and free tile the window, and the pages of the live ones are the pages that are mapped.
-/
namespace NyanOS.Memory

open Lib Extent Option Set

def kernWindow : Set Nat := Set.Ico kernHeapStart (kernHeapStart + kernHeapSize)

/-- The pages of the allocations that are live. -/
def livePages (live : List (Nat × Nat)) : Set Nat := {v | v * pageSize ∈ cover (live.map region)}

/-- Regions in whole pages. -/
def Paged (e : Extent) : Prop := pageSize ∣ e.start ∧ pageSize ∣ e.size

variable {used : Nat → Bool} {kern root curr v n a addr size ptr : Nat} {pml4s : List Nat} {x y : KernelSession} {z : Nat × Nat}
  {live pre post : List (Nat × Nat)} {window : Set Nat} {free : List Extent}

theorem mem_regionPages (ha : pageSize ∣ a) :
    v ∈ List.range' (a / pageSize) (alignedSize n / pageSize) ↔ v * pageSize ∈ (region (a, n)).bytes := by
  obtain ⟨k, rfl⟩ := ha
  obtain ⟨l, hl⟩ := dvd_alignedSize n
  rw [List.mem_range'_1, mem_bytes, region, hl]
  simp only [pageSize]
  omega

theorem mem_kernPages : v * pageSize ∈ kernWindow ↔ v ∈ kernPages := by
  simp only [kernWindow, kernPages, mem_Ico, kernHeapStart, kernHeapSize, pageSize]
  omega

theorem livePages_cons (ha : pageSize ∣ z.1) : livePages (z :: live) =
    livePages live ∪ {v | v ∈ List.range' (z.1 / pageSize) (alignedSize z.2 / pageSize)} := by
  ext v
  rw [mem_union, mem_ofPred_eq, mem_regionPages ha]
  simp only [livePages, mem_ofPred_eq, List.map_cons, cover_cons, mem_union]
  exact Or.comm

theorem Tiling.livePages_sub (h : Tiling kernWindow free live) : livePages live ⊆ kernPages := by
  intro v hv
  refine mem_kernPages.mp ?_
  rw [← h.whole]
  exact .inl hv

theorem Tiling.livePages_middle (h : Tiling window free (pre ++ z :: post)) (ha : pageSize ∣ z.1) :
    livePages (pre ++ post) =
      livePages (pre ++ z :: post) \ {v | v ∈ List.range' (z.1 / pageSize) (alignedSize z.2 / pageSize)} := by
  ext v
  rw [mem_sdiff, mem_ofPred_eq, mem_regionPages ha]
  simp only [livePages, mem_ofPred_eq, cover_middle, mem_union]
  constructor
  · intro hv
    exact ⟨.inr hv, fun hz => disjoint_left.mp h.middle.2.2 hz hv⟩
  · rintro ⟨hz | hv, hnot⟩
    · exact absurd hz hnot
    · exact hv

structure KernelInv (used : Nat → Bool) (kern root : Nat) (pml4s : List Nat) (x : KernelSession) : Prop where
  tiling : Tiling kernWindow x.space.vmFree x.live
  records : x.space.vmAlloc = x.live.map (recordWith 0)
  freePaged : ∀ e ∈ x.space.vmFree, Paged e
  livePaged : ∀ y ∈ x.live, pageSize ∣ y.1
  map : KernMap used kern root pml4s x.space.machine (livePages x.live)

theorem findFreeAddr_paged (hn : pageSize ∣ n) (h : ∀ e ∈ free, Paged e) :
    (∀ e ∈ (findFreeAddr free n).2, Paged e) ∧ ((findFreeAddr free n).1 ≠ 0 → Paged ⟨(findFreeAddr free n).1, n⟩) := by
  refine findFreeAddr_forall n (fun e _ he => ⟨⟨he.1, hn⟩, ?_, ?_⟩) h
  · exact Nat.dvd_add he.1 hn
  · exact Nat.dvd_sub he.2 hn

theorem vmmAddFreeRegion_paged (h : ∀ e ∈ free, Paged e) (ha : pageSize ∣ a) (hn : pageSize ∣ n) :
    ∀ e ∈ vmmAddFreeRegion free a n, Paged e :=
  vmmAddFreeRegion_forall (P := Paged) (fun _ _ _ hx hy => ⟨hx.1, Nat.dvd_add hx.2 hy.2⟩) h ⟨ha, hn⟩

theorem isShm_zero : VmAllocated.isShm ⟨addr, size, 0⟩ = false := by
  rw [VmAllocated.isShm]
  exact (by decide : ((0 : BitVec 32) &&& vmmFlagShm != 0) = false)

namespace KernelInv

/-- The search fails and nothing happens, or the region that it carves is mapped page by page. -/
theorem alloc_cases (hok : Served kern x (.alloc curr size)) :
    (vmmAllocGlobal kern x.space curr size).1 = 0 ∧ (vmmAllocGlobal kern x.space curr size).2.2 = x.space ∨
    ∃ start left, findFreeAddr x.space.vmFree (alignedSize size) = (start, left) ∧ start ≠ 0 ∧
      (allocLoop kern curr (List.range' (start / pageSize) (alignedSize size / pageSize)) x.space.machine).1 =
        List.replicate (alignedSize size / pageSize) true ∧
      (vmmAllocGlobal kern x.space curr size).1 = start ∧
      (vmmAllocGlobal kern x.space curr size).2.2 =
        ⟨(allocLoop kern curr (List.range' (start / pageSize) (alignedSize size / pageSize)) x.space.machine).2,
          left, recordWith 0 (start, size) :: x.space.vmAlloc⟩ := by
  obtain ⟨hpos, -, hserved⟩ := hok
  rw [vmmAllocGlobal, if_neg (Nat.pos_iff_ne_zero.mp hpos)]
  generalize hfind : findFreeAddr x.space.vmFree (alignedSize size) = r at hserved ⊢
  obtain ⟨start, left⟩ := r
  dsimp only at hserved ⊢
  by_cases hstart : start = 0
  · rw [if_pos hstart]
    exact .inl ⟨rfl, rfl⟩
  have hflags := hserved hstart
  rw [List.length_range'] at hflags
  refine .inr ⟨start, left, rfl, hstart, hflags, ?_⟩
  rw [if_neg hstart, hflags, List.length_replicate, List.length_range', if_neg (lt_irrefl _)]
  exact ⟨rfl, rfl⟩

theorem alloc (h : KernelInv used kern root pml4s x) (hok : Served kern x (.alloc curr size))
    (hstep : kernelTo kern pml4s x (.alloc curr size) = some y) : KernelInv used kern root pml4s y := by
  rw [kernelTo] at hstep
  by_cases hc : curr = kern ∨ curr ∈ pml4s
  swap
  · rw [if_neg hc] at hstep
    cases hstep
  rw [if_pos hc] at hstep
  have hy : y = ⟨(vmmAllocGlobal kern x.space curr size).2.2,
      if (vmmAllocGlobal kern x.space curr size).1 = 0 then x.live
      else ((vmmAllocGlobal kern x.space curr size).1, size) :: x.live⟩ := (some.inj hstep).symm
  subst hy
  rcases alloc_cases hok with ⟨hptr, hspace⟩ | ⟨start, left, hfind, hstart, hflags, hptr, hspace⟩
  · rw [hptr, hspace, if_pos rfl]
    exact h
  obtain ⟨hpos, hsize, -⟩ := hok
  obtain ⟨hpos', hle⟩ := alignedSize_of_ok hpos (show size ≤ 2 ^ 64 - pageSize by simp only [pageSize]; omega)
  obtain ⟨hleft, hpaged⟩ := findFreeAddr_paged (dvd_alignedSize size) h.freePaged
  have htake := h.tiling.take hpos' hle (by rwa [hfind])
  rw [hfind] at hleft hpaged htake
  have haligned : pageSize ∣ start := (hpaged hstart).1
  rw [hptr, hspace, if_neg hstart]
  refine ⟨htake, ?_, hleft, List.forall_mem_cons.mpr ⟨haligned, h.livePaged⟩, ?_⟩
  · rw [h.records]
    rfl
  -- the pages of the new region are in the window, and no other allocation has them
  have hcons : livePages ((start, size) :: x.live) = _ := livePages_cons haligned
  have hmiddle : livePages ([] ++ x.live) = _ := Tiling.livePages_middle htake haligned
  rw [hcons]
  refine h.map.allocLoop hc List.nodup_range' (fun v hv => ⟨htake.livePages_sub ?_, fun hlive => ?_⟩) ?_
  · rw [hcons]
    exact .inr hv
  · rw [List.nil_append, List.nil_append] at hmiddle
    rw [hmiddle] at hlive
    exact hlive.2 hv
  · rw [List.length_range']
    exact hflags

/-- A live allocation is freed: its record is the one found, and its pages are unmapped. -/
theorem vmmFree_eq (h : KernelInv used kern root pml4s x) (hlive : x.live = pre ++ z :: post) :
    vmmFree kern x.space z.1 = some
      ⟨(List.range' (z.1 / pageSize) (alignedSize z.2 / pageSize)).foldl (unmapOne kern false) x.space.machine,
        vmmAddFreeRegion x.space.vmFree z.1 (alignedSize z.2), (pre ++ post).map (recordWith 0)⟩ := by
  have ht := h.tiling
  rw [hlive] at ht
  have hpos : z.1 ≠ 0 := by
    have hin : z.1 ∈ kernWindow := by
      rw [← ht.whole, cover_middle]
      exact .inl (.inl (start_mem_bytes (e := region z) ht.middle.1))
    have hlow : kernHeapStart ≤ z.1 := hin.1
    simp only [kernHeapStart] at hlow
    omega
  have hpop : vmmPopAllocatedMem z.1 ((pre ++ z :: post).map (recordWith 0) ++ []) = _ := pop_recordWith ht.starts_ne
  rw [List.append_nil, List.append_nil] at hpop
  rw [vmmFree, if_neg hpos, h.records, hlive, hpop, map_some]
  simp only [recordWith, isShm_zero, regionPages, alignedSize_alignedSize]

theorem release (h : KernelInv used kern root pml4s x)
    (hstep : kernelTo kern pml4s x (.free ptr) = some y) : KernelInv used kern root pml4s y := by
  obtain ⟨hmem, hy⟩ := ite_none_right_eq_some.mp hstep
  obtain ⟨w, hw, rfl⟩ := List.mem_map.mp hmem
  obtain ⟨z, pre, post, -, hz, hlive, herase⟩ :=
    List.exists_of_eraseP (p := fun u => decide (u.1 = w.1)) hw (decide_eq_true rfl)
  rw [← of_decide_eq_true hz] at hy herase
  rw [h.vmmFree_eq hlive, map_some, herase] at hy
  have hy' := (some.inj hy).symm
  subst hy'
  have ht := h.tiling
  have hmap := h.map
  have hpaged := h.livePaged
  rw [hlive] at ht hmap hpaged
  have haligned : pageSize ∣ z.1 := hpaged z (by simp)
  refine ⟨ht.give, rfl, vmmAddFreeRegion_paged h.freePaged haligned (dvd_alignedSize z.2), fun u hu => ?_, ?_⟩
  · refine hpaged u ?_
    exact ((List.sublist_cons_self z post).append_left pre).subset hu
  · rw [ht.livePages_middle haligned]
    refine hmap.unmapLoop List.nodup_range' fun v hv => ?_
    have hbytes := (mem_regionPages haligned).mp hv
    show v * pageSize ∈ cover _
    rw [cover_middle]
    exact .inl hbytes

theorem step {c : KernelCall} (hstep : guarded (ofNext (kernelTo kern pml4s)) (Served kern) x c y)
    (h : KernelInv used kern root pml4s x) : KernelInv used kern root pml4s y := by
  obtain ⟨hok, hto⟩ := hstep
  cases c with
  | alloc curr size => exact h.alloc hok hto
  | free ptr => exact h.release hto

theorem init {m : Machine} (h : KernMap m.pmm.bitmap kern root pml4s m ∅) :
    KernelInv (vmmInit m kern).machine.pmm.bitmap kern root pml4s ⟨vmmInit m kern, []⟩ := by
  have hnone : livePages [] = ∅ := by
    ext v
    simp [livePages, cover]
  refine ⟨Tiling.start (by decide), rfl, ?_, by simp, ?_⟩
  · intro e he
    obtain rfl := List.mem_singleton.mp he
    exact ⟨by decide, by decide⟩
  · rw [hnone]
    exact h.init

end KernelInv

/-- What holds of the window: `used` are the frames that were in use when the kernel began to allocate. -/
structure KernelSound (used : Nat → Bool) (kern : Nat) (x : KernelSession) : Prop where
  separated : Separated x.space.vmFree
  tile : cover (x.live.map region) ∪ cover x.space.vmFree = kernWindow
  apart : Disjoint (cover (x.live.map region)) (cover x.space.vmFree)
  disjoint : (x.live.map region).Pairwise fun y z => Disjoint y.bytes z.bytes
  sizes : ∀ y ∈ x.live, pageSize ∣ y.1 ∧ y.2 ≤ (region y).size
  mapped : ∀ v ∈ livePages x.live, ∃ f, vmmVirt2Phys x.space.machine kern v = some f ∧ used f = false
  distinct : ∀ v ∈ livePages x.live, ∀ w ∈ livePages x.live,
    vmmVirt2Phys x.space.machine kern v = vmmVirt2Phys x.space.machine kern w → v = w
  unmapped : ∀ v ∈ kernPages, v ∉ livePages x.live → vmmVirt2Phys x.space.machine kern v = none
  frames : ∀ f, x.space.machine.pmm.bitmap f = true ↔ used f = true ∨
    f ∈ tables x.space.machine.mem 2 (frameOf (x.space.machine.mem kern kernSlot)) ∨
    ∃ v ∈ livePages x.live, vmmVirt2Phys x.space.machine kern v = some f

namespace KernelInv

theorem phys (h : KernelInv used kern root pml4s x) (hv : v ∈ livePages x.live) :
    vmmVirt2Phys x.space.machine kern v = some (frameOf (leaf x.space.machine.mem 2 root v)) := by
  obtain ⟨f, hf, -⟩ := h.map.inside v hv
  rw [vmmVirt2Phys_eq, h.map.leaf_eq (h.map.sub hv), hf, present_mkPte, if_pos rfl]

theorem sound (h : KernelInv used kern root pml4s x) : KernelSound used kern x := by
  refine ⟨h.tiling.separated, h.tiling.whole, h.tiling.apart, h.tiling.disjoint, fun y hy => ?_, fun v hv => ?_,
    fun v hv w hw heq => ?_, fun v hv hlive => ?_, fun f => ?_⟩
  · exact ⟨h.livePaged y hy, (h.tiling.sizes y hy).2⟩
  · obtain ⟨f, hf, -, hlt, -, hused, -⟩ := h.map.inside v hv
    have hframe : frameOf (mkPte f kernFlags) = f := frameOf_mkPte (h.map.frame_lt hlt) kernFlags_lt
    refine ⟨f, ?_, hused⟩
    rw [h.phys hv, hf, hframe]
  · rw [h.phys hv, h.phys hw, some.injEq] at heq
    exact h.map.inj v hv w hw heq
  · rw [vmmVirt2Phys_eq, h.map.leaf_eq hv, h.map.outside v hv hlive]
    rfl
  · rw [h.map.bits f, h.map.entry.2]
    refine or_congr Iff.rfl (or_congr Iff.rfl (exists_congr fun v => and_congr_right fun hv => ?_))
    rw [h.phys hv, some.injEq]

end KernelInv

/-- The regions of the kernel in every run from `vmm_init`: `pml4s` are the page tables of the tasks. -/
theorem kernel_regions_tile {m : Machine} {calls : List KernelCall}
    (hentry : present (m.mem kern kernSlot) = true) (htree : TreeOk m 2 (frameOf (m.mem kern kernSlot)))
    (hroots : ∀ c, c = kern ∨ c ∈ pml4s → m.pmm.bitmap c = true ∧ c ∉ tables m.mem 2 (frameOf (m.mem kern kernSlot)))
    (hunmapped : ∀ v ∈ kernPages, vmmVirt2Phys m kern v = none)
    (hrun : Run (guarded (ofNext (kernelTo kern pml4s)) (Served kern)) ⟨vmmInit m kern, []⟩ calls x) :
    KernelSound (vmmInit m kern).machine.pmm.bitmap kern x := by
  have hstart := KernelInv.init (KernMap.boot hentry htree hroots hunmapped)
  exact (hrun.invariant (P := KernelInv _ kern _ pml4s) (fun _ _ _ => KernelInv.step) hstart).sound

instance : ∀ x c, Decidable (Served kern x c)
  | _, .alloc _ _ => inferInstanceAs (Decidable (_ ∧ _ ∧ (_ → _)))
  | _, .free _ => inferInstanceAs (Decidable True)

/-- Frame 256 is the PML4 of the kernel, frame 257 the empty table below its entries. -/
def bootMachine : Machine :=
  ⟨⟨fun i => decide (i < 258), fun _ => 0, 300, 258⟩, fun f _ => if f = 256 then mkPte 257 kernFlags else 0⟩

theorem empty_window {m : Machine} (hok : m.pmm.Ok) (hkern : m.pmm.bitmap 256 = true) (hused : m.pmm.bitmap 257 = true)
    (hentry : frameOf (m.mem 256 kernSlot) = 257) (hzero : ∀ i, m.mem 257 i = 0) :
    TreeOk m 2 (frameOf (m.mem 256 kernSlot)) ∧ (m.pmm.bitmap 256 = true ∧ 256 ∉ tables m.mem 2 (frameOf (m.mem 256 kernSlot))) ∧
      ∀ v ∈ kernPages, vmmVirt2Phys m 256 v = none := by
  have htables : tables m.mem 2 257 = [257] := tables_of_zero fun i _ => hzero i
  rw [hentry]
  refine ⟨⟨hok, ?_, ?_⟩, ⟨hkern, ?_⟩, fun v hv => ?_⟩
  · rw [htables]
    exact List.nodup_singleton 257
  · rw [htables, List.forall_mem_singleton]
    exact hused
  · rw [htables]
    decide
  · have hleaf : leaf m.mem 3 256 v = 0 := by
      rw [leaf, tableIndex_kernPages hv, hentry, leaf, hzero]
      exact ite_self _
    rw [vmmVirt2Phys_eq, hleaf]
    rfl

theorem kernel_regions_tile_reuse : ∃ x,
    Run (guarded (ofNext (kernelTo 256 [])) (Served 256)) ⟨vmmInit bootMachine 256, []⟩
      [.alloc 256 5000, .alloc 256 1, .free kernHeapStart, .alloc 256 4096] x ∧
    x.live = [(kernHeapStart, 4096), (kernHeapStart + 0x2000, 1)] ∧
    KernelSound (vmmInit bootMachine 256).machine.pmm.bitmap 256 x := by
  have hexec : ((exec (checked (kernelTo 256 []) (Served 256)) ⟨vmmInit bootMachine 256, []⟩
      [.alloc 256 5000, .alloc 256 1, .free kernHeapStart, .alloc 256 4096]).map fun x => x.live) =
      some [(kernHeapStart, 4096), (kernHeapStart + 0x2000, 1)] := by decide +kernel
  obtain ⟨x, hx, hlive⟩ := map_eq_some_iff.mp hexec
  have hrun := exec_checked hx
  have hok : bootMachine.pmm.Ok := ⟨fun i hi => decide_eq_true (by omega), by decide, by decide⟩
  obtain ⟨htree, hkern, hunmapped⟩ := empty_window hok rfl rfl (by decide) fun _ => rfl
  have hroots : ∀ c, c = 256 ∨ c ∈ [] → bootMachine.pmm.bitmap c = true ∧
      c ∉ tables bootMachine.mem 2 (frameOf (bootMachine.mem 256 kernSlot)) := by
    rintro c (rfl | hc)
    · exact hkern
    · exact absurd hc List.not_mem_nil
  exact ⟨x, hrun, hlive, kernel_regions_tile (by decide) htree hroots hunmapped hrun⟩

end NyanOS.Memory
