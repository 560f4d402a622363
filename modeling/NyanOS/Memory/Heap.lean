import NyanOS.Memory.Mmap

/-!
# The heap and the mappings of a task

The break and the regions of `sys_mmap` are kept apart by nothing but the break itself: its limit lies far
behind the window of the mappings.
-/
namespace NyanOS.Memory

open Lib Extent List

inductive SpaceCall where
  | sbrk (incr : BitVec 64)
  | mmap (object : Nat) (length : BitVec 64)
  | munmap (addr : Nat)
  deriving DecidableEq

/-- The calls of one task; `sys_sbrk` takes its argument as a signed number. -/
def spaceTo (pid : Nat) (s : System) : SpaceCall → Option System
  | .sbrk incr => (s.find pid).map fun t => (sysSbrk s t incr.toInt).1
  | .mmap object length =>
    (s.find pid).bind fun t => s.shms[object]?.map fun frames => (sysMmap s t frames length.toNat).1
  | .munmap addr => (s.find pid).map fun t => (vmmUnmapUser s t addr).2

/-- The bytes of the pages that hold the heap. -/
def heapPages (t : Task) : Set Nat := Set.Ico userHeapStart (alignedSize t.heapEnd)

/-- No page of the heap lies in a region that is recorded as mapped. -/
def HeapApart (t : Task) : Prop := ∀ a ∈ t.vmAlloc, Disjoint (heapPages t) (bytes ⟨a.addr, a.size⟩)

/-- The break stays below the window of the mappings. -/
def BreakOk (pid : Nat) (s : System) : SpaceCall → Prop
  | .sbrk incr => ∀ t ∈ s.find pid, (t.heapEnd : Int) + incr.toInt ≤ userMmapStart
  | _ => True

instance (pid : Nat) : ∀ (s : System) (c : SpaceCall), Decidable (BreakOk pid s c)
  | s, .sbrk incr => inferInstanceAs (Decidable (∀ t ∈ s.find pid, (t.heapEnd : Int) + incr.toInt ≤ userMmapStart))
  | _, .mmap _ _ => inferInstanceAs (Decidable True)
  | _, .munmap _ => inferInstanceAs (Decidable True)

/-- A region that leaves the room between the start of the heap and the window free. -/
def OutsideHeap (e : Extent) : Prop := e.stop ≤ userHeapStart ∨ userMmapStart ≤ e.start

/-- The invariant: the break is in its room, and nothing else is. -/
structure Roomy (t : Task) : Prop where
  low : userHeapStart ≤ t.heapEnd
  high : t.heapEnd ≤ userMmapStart
  free : ∀ e ∈ t.vmFree, OutsideHeap e
  alloc : ∀ a ∈ t.vmAlloc, OutsideHeap ⟨a.addr, a.size⟩ ∧ alignedSize a.size = a.size

variable {t : Task} {s s' : System} {pid addr brk : Nat}

theorem outsideHeap_join (x y : Extent) (h : x.stop = y.start) (hx : OutsideHeap x) (hy : OutsideHeap y) :
    OutsideHeap (x.join y) := by
  simp only [OutsideHeap, stop, join, userHeapStart, userMmapStart] at *
  omega

theorem outsideHeap_parts (size : Nat) (e : Extent) (hsize : size ≤ e.size) (he : OutsideHeap e) :
    OutsideHeap ⟨e.start, size⟩ ∧ OutsideHeap ⟨e.start + size, e.size - size⟩ := by
  simp only [OutsideHeap, stop, userHeapStart, userMmapStart] at *
  omega

namespace Roomy

theorem apart (h : Roomy t) : HeapApart t := by
  intro a ha
  have hout := (h.alloc a ha).1
  have hhigh := h.high
  rw [Set.disjoint_left]
  rintro b ⟨hlo, hhi⟩ hb
  simp only [OutsideHeap, stop, mem_bytes, alignedSize, pageSize, userHeapStart, userMmapStart] at *
  omega

theorem mmap (h : Roomy t) (n : Nat) (hne : (findFreeAddr t.vmFree (alignedSize n)).1 ≠ 0) : Roomy { t with
      vmFree := (findFreeAddr t.vmFree (alignedSize n)).2
      vmAlloc := vmmAddAllocatedMem t.vmAlloc (findFreeAddr t.vmFree (alignedSize n)).1 (alignedSize n)
        vmmFlagShm } := by
  obtain ⟨hfree, haddr⟩ := findFreeAddr_forall (alignedSize n) (outsideHeap_parts (alignedSize n)) h.free
  refine ⟨h.low, h.high, hfree, forall_mem_cons.mpr ⟨⟨haddr hne, alignedSize_alignedSize n⟩, h.alloc⟩⟩

theorem munmap {node : VmAllocated} {rest : List VmAllocated} (h : Roomy t)
    (hpop : vmmPopAllocatedMem addr t.vmAlloc = some (node, rest)) :
    Roomy { t with
      vmFree := vmmAddFreeRegion t.vmFree addr (alignedSize node.size)
      vmAlloc := rest } := by
  obtain ⟨hmem, rfl, hsub⟩ := vmmPopAllocatedMem_mem hpop
  obtain ⟨hout, hsize⟩ := h.alloc node hmem
  refine ⟨h.low, h.high, ?_, fun a ha => h.alloc a (hsub a ha)⟩
  dsimp only
  rw [hsize]
  exact vmmAddFreeRegion_forall outsideHeap_join h.free hout

theorem setBreak (h : Roomy t) (hlo : t.heapEnd ≤ brk) (hhi : brk ≤ userMmapStart) :
    Roomy { t with heapEnd := brk } := ⟨h.low.trans hlo, hhi, h.free, h.alloc⟩

end Roomy

/-- `sys_sbrk` moves the break forward by what was asked for, or leaves the task as it is. -/
theorem sysSbrk_tasks (s : System) (t : Task) (incr : Int) : (sysSbrk s t incr).1.tasks = s.tasks ∨
    (0 < incr ∧ t.heapEnd ≤ (t.heapEnd + incr.toNat) % 2 ^ 64 ∧
      (sysSbrk s t incr).1.tasks = { t with heapEnd := (t.heapEnd + incr.toNat) % 2 ^ 64 } :: s.drop t.pid) := by
  unfold sysSbrk
  cases hp : sbrkPages t.heapEnd incr with
  | none => exact .inl rfl
  | some r =>
    obtain ⟨nextBrk, pages⟩ := r
    unfold sbrkPages at hp
    split at hp
    · cases hp
    next hpos =>
    dsimp only at hp
    split at hp
    · cases hp
    next hwrap =>
    split at hp
    · cases hp
    obtain ⟨rfl, -⟩ := Prod.mk.inj (Option.some.inj hp)
    dsimp only
    split
    · exact .inr ⟨by omega, by omega, rfl⟩
    · exact .inl rfl

/-- The task is there and keeps its room. -/
def RoomyTask (pid : Nat) (s : System) : Prop := ∃ t, s.find pid = some t ∧ Roomy t

theorem RoomyTask.step {c : SpaceCall} (hstep : guarded (ofNext (spaceTo pid)) (BreakOk pid) s c s')
    (h : RoomyTask pid s) : RoomyTask pid s' := by
  obtain ⟨t, hfind, ht⟩ := h
  obtain ⟨hok, hto⟩ := hstep
  have hpid := (find_some hfind).2
  cases c with
  | sbrk incr =>
    rw [ofNext, spaceTo, hfind, Option.map_some, Option.some.injEq] at hto
    subst hto
    have hbound := hok t hfind
    rcases sysSbrk_tasks s t incr.toInt with hsame | ⟨hpos, hle, htasks⟩
    · exact ⟨t, (find_of_tasks hsame pid).trans hfind, ht⟩
    refine ⟨_, (find_put htasks).trans (if_pos hpid.symm), ht.setBreak hle ?_⟩
    have hmod := Nat.mod_le (t.heapEnd + incr.toInt.toNat) (2 ^ 64)
    omega
  | mmap object length =>
    rw [ofNext, spaceTo, hfind, Option.bind_some] at hto
    obtain ⟨frames, -, rfl⟩ := Option.map_eq_some_iff.mp hto
    rcases sysMmap_eq s t frames length.toNat with ⟨-, hsys⟩ | ⟨hne, haddr, htasks⟩
    · exact ⟨t, by rw [hsys]; exact hfind, ht⟩
    · rw [haddr] at hne
      exact ⟨_, (find_put htasks).trans (if_pos hpid.symm), ht.mmap length.toNat hne⟩
  | munmap addr =>
    rw [ofNext, spaceTo, hfind, Option.map_some, Option.some.injEq] at hto
    subst hto
    cases hpop : vmmPopAllocatedMem addr t.vmAlloc with
    | none => exact ⟨t, by rw [vmmUnmapUser, hpop]; exact hfind, ht⟩
    | some r =>
      obtain ⟨node, rest⟩ := r
      exact ⟨_, (find_put (vmmUnmapUser_tasks hpop)).trans (if_pos hpid.symm), ht.munmap hpop⟩

/-- While the break stays below the window of the mappings, the heap meets no mapping. -/
theorem heap_apart_of_breakOk {s₀ : System} {t₀ : Task} {calls : List SpaceCall}
    (hfind : s₀.find pid = some t₀) (hbrk : t₀.heapEnd = userHeapStart)
    (hfree : t₀.vmFree = [⟨userMmapStart, userMmapSize⟩])
    (halloc : ∀ a ∈ t₀.vmAlloc, a.addr + a.size ≤ userHeapStart ∧ alignedSize a.size = a.size)
    (hrun : Run (guarded (ofNext (spaceTo pid)) (BreakOk pid)) s₀ calls s) :
    ∃ t, s.find pid = some t ∧ HeapApart t := by
  have h₀ : RoomyTask pid s₀ := by
    refine ⟨t₀, hfind, hbrk.ge, ?_, ?_, fun a ha => ⟨.inl (halloc a ha).1, (halloc a ha).2⟩⟩
    · rw [hbrk]
      decide
    · intro e he
      rw [hfree, mem_singleton] at he
      rw [he]
      exact .inr (le_refl _)
  obtain ⟨t, ht, hroomy⟩ := hrun.invariant (P := RoomyTask pid) (fun _ _ _ => RoomyTask.step) h₀
  exact ⟨t, ht, hroomy.apart⟩

/-- The break moves twice while an object is mapped and removed. -/
theorem heap_apart_of_breakOk_small : ∃ s, Run (guarded (ofNext (spaceTo 1)) (BreakOk 1)) mapSession.system
      [.sbrk 4096#64, .mmap 0 4096#64, .sbrk 100#64, .munmap 0x40000000] s ∧
    ∃ t, s.find 1 = some t ∧ t.heapEnd = 0x20001064 ∧ HeapApart t := by
  have hexec : ((exec (checked (spaceTo 1) (BreakOk 1)) mapSession.system
      [.sbrk 4096#64, .mmap 0 4096#64, .sbrk 100#64, .munmap 0x40000000]).map
      fun s => (s.find 1).map (·.heapEnd)) = some (some 0x20001064) := by decide +kernel
  obtain ⟨s, hs, hbrk⟩ := Option.map_eq_some_iff.mp hexec
  obtain ⟨t, ht, hend⟩ := Option.map_eq_some_iff.mp hbrk
  have hrun := exec_checked hs
  have hfind : mapSession.system.find 1 = some (newTask 1 256 0) := rfl
  obtain ⟨u, hu, hapart⟩ :=
    heap_apart_of_breakOk hfind rfl rfl (fun a ha => absurd ha not_mem_nil) hrun
  obtain rfl : u = t := Option.some.inj (hu.symm.trans ht)
  exact ⟨s, hrun, u, ht, hend, hapart⟩

/-! With enough memory the heap grows -/

/-- The frames that can be allocated. -/
def freeFrames (p : Pmm) : Finset Nat := (Finset.range p.totalPages).filter fun i => p.bitmap i = false

/-- An operation takes at most `n` frames. -/
structure Uses (n : Nat) (p p' : Pmm) : Prop where
  ok : p'.Ok
  count : (freeFrames p).card ≤ (freeFrames p').card + n

variable {p p' p'' : Pmm} {m : Machine} {k n : Nat}

theorem Uses.refl (h : p.Ok) : Uses 0 p p := ⟨h, le_refl _⟩

theorem Uses.trans (h : Uses n p p') (h' : Uses k p' p'') : Uses (n + k) p p'' :=
  ⟨h'.ok, by have h1 := h.count; have h2 := h'.count; omega⟩

theorem Uses.mono (h : Uses n p p') (hle : n ≤ k) : Uses k p p' := ⟨h.ok, by have h1 := h.count; omega⟩

theorem uses_alloc (h : p.Ok) : Uses 1 p (pmmAllocFrame p).2 := by
  rcases pmmAllocFrame_cases h with ⟨hfull, -⟩ | ⟨f, hf, -, hhigh, hclear⟩
  · rw [hfull]
    exact (Uses.refl h).mono (by omega)
  rw [hf]
  refine ⟨ok_take h hhigh, ?_⟩
  -- the frame taken is the only one that is no longer free
  have hsub : (freeFrames p).erase f ⊆ freeFrames (p.take f) := by
    intro i hi
    obtain ⟨hne, hin⟩ := Finset.mem_erase.mp hi
    rw [freeFrames, Finset.mem_filter] at hin ⊢
    exact ⟨hin.1, by rw [bitmap_take, if_neg hne]; exact hin.2⟩
  have hmem : f ∈ freeFrames p := Finset.mem_filter.mpr ⟨Finset.mem_range.mpr hhigh, hclear⟩
  have hcard := Finset.card_le_card hsub
  rw [Finset.card_erase_of_mem hmem] at hcard
  exact Nat.sub_le_iff_le_add.mp hcard

theorem alloc_ne_zero (h : p.Ok) (hfree : 0 < (freeFrames p).card) : (pmmAllocFrame p).1 ≠ 0 := by
  rcases pmmAllocFrame_cases h with ⟨-, hall⟩ | ⟨f, hf, hlow, -, -⟩
  · obtain ⟨i, hi⟩ := Finset.card_pos.mp hfree
    obtain ⟨hrange, hclear⟩ := Finset.mem_filter.mp hi
    rw [hall i (Finset.mem_range.mp hrange)] at hclear
    cases hclear
  · rw [hf]
    omega

theorem uses_free (h : p.Ok) (f : Nat) : Uses 0 p (pmmFreeFrame p f) := by
  refine ⟨ok_freeFrame h, (Finset.card_le_card fun i hi => ?_).trans (Nat.le_add_right _ 0)⟩
  rw [freeFrames, Finset.mem_filter] at hi ⊢
  have hkeep : (pmmFreeFrame p f).totalPages = p.totalPages ∧
      (p.bitmap i = false → (pmmFreeFrame p f).bitmap i = false) := by
    unfold pmmFreeFrame
    dsimp only
    generalize (if 0 < p.refCounts f then p.refCounts f - 1 else p.refCounts f) = refs
    split
    · exact ⟨rfl, id⟩
    split
    · exact ⟨rfl, id⟩
    split
    · split
      · refine ⟨rfl, fun hb => ?_⟩
        by_cases hif : i = f
        · simp [Pmm.clear, hif]
        · simpa [Pmm.clear, Pmm.setRef, hif] using hb
      · exact ⟨rfl, id⟩
    · exact ⟨rfl, id⟩
  rw [hkeep.1]
  exact ⟨hi.1, hkeep.2 hi.2⟩

theorem uses_walk (m : Machine) (create : Bool) (depth table page : Nat) (h : m.pmm.Ok) :
    Uses depth m.pmm (walkToPte create depth table page m).2.pmm := by
  induction depth generalizing table m with
  | zero => exact Uses.refl h
  | succ depth ih =>
    rw [walkToPte]
    dsimp only
    split
    · exact (ih m _ h).mono (by omega)
    split
    · have halloc := uses_alloc h
      split
      · exact halloc.mono (by omega)
      -- the new table and the tables below it
      have hbelow := ih _ (pmmAllocFrame m.pmm).1 (show Pmm.Ok (Machine.pmm (((Machine.mk (pmmAllocFrame m.pmm).2 m.mem).fill
        (pmmAllocFrame m.pmm).1 fun _ => 0).set table (tableIndex (depth + 1) page)
        (pteSetAddr 0 (physOf (pmmAllocFrame m.pmm).1) ||| tableFlags))) from halloc.ok)
      exact (halloc.trans hbelow).mono (by omega)
    · exact (Uses.refl h).mono (by omega)

theorem uses_mapPage (m : Machine) (pml4 page frame : Nat) (flags : Word) (h : m.pmm.Ok) :
    Uses 3 m.pmm (vmmMapPage m pml4 page frame flags).2.pmm := by
  have hwalk := uses_walk m true 3 pml4 page h
  rw [vmmMapPage, vmmWalkToPte]
  split
  · next hw =>
    rw [hw] at hwalk
    exact hwalk
  next table i m' hw =>
  rw [hw] at hwalk
  change Uses 3 m.pmm (if _ then _ else _)
  split
  · exact hwalk.trans (uses_free hwalk.ok _)
  · exact hwalk

theorem uses_mapZeroPage (pml4 page : Nat) (h : m.pmm.Ok) : Uses 4 m.pmm (mapZeroPage m pml4 page).2.2.pmm := by
  have halloc := uses_alloc h
  rw [mapZeroPage]
  dsimp only
  split
  · exact halloc.mono (by omega)
  have hmap := uses_mapPage ((Machine.mk (pmmAllocFrame m.pmm).2 m.mem).fill (pmmAllocFrame m.pmm).1 fun _ => 0)
    pml4 page (pmmAllocFrame m.pmm).1 privateFlags halloc.ok
  exact halloc.trans hmap

theorem sbrkLoop_complete {pages : List Nat} (pml4 : Nat) (h : m.pmm.Ok)
    (hfree : 4 * pages.length ≤ (freeFrames m.pmm).card) : (sbrkLoop pml4 pages m).1.length = pages.length := by
  induction pages generalizing m with
  | nil => rfl
  | cons page pages ih =>
    rw [length_cons] at hfree
    have huses := uses_mapZeroPage pml4 page h
    have hne : (mapZeroPage m pml4 page).1 ≠ 0 := by
      have halloc := alloc_ne_zero h (by omega)
      simp [mapZeroPage, halloc]
    have hcount := huses.count
    have hrest := ih huses.ok (by omega)
    rw [sbrkLoop]
    split
    · next hz =>
      rw [hz] at hne
      exact absurd rfl hne
    next hm =>
    rw [hm] at hrest
    simpa using hrest

/-- A new task, a shared-memory object of one page, and four gigabytes of memory. -/
def heapSystem : System :=
  ⟨⟨⟨fun i => decide (i < 258), fun _ => 0, 2 ^ 20, 258⟩, fun _ _ => 0⟩, 0, [newTask 1 256 0], [[257]], [], []⟩

theorem heapSystem_ok : heapSystem.machine.pmm.Ok := by
  refine ⟨fun i hi => ?_, by decide, by decide⟩
  have hlt : i < 258 := by omega
  simpa [heapSystem] using hlt

theorem card_freeFrames_heapSystem : (freeFrames heapSystem.machine.pmm).card = 2 ^ 20 - 258 := by
  have hset : freeFrames heapSystem.machine.pmm = Finset.Ico 258 (2 ^ 20) := by
    ext i
    simp [freeFrames, heapSystem]
    omega
  rw [hset, Nat.card_Ico]

theorem sysSbrk_complete {incr : Int} {pages : List Nat}
    (hp : sbrkPages t.heapEnd incr = some (brk, pages)) (hok : s.machine.pmm.Ok)
    (hfree : 4 * pages.length ≤ (freeFrames s.machine.pmm).card) :
    (sysSbrk s t incr).1.tasks = { t with heapEnd := brk } :: s.drop t.pid ∧ (sysSbrk s t incr).1.shms = s.shms := by
  have hlen := sbrkLoop_complete t.pml4 hok hfree
  simp only [sysSbrk, hp, hlen, if_true]
  exact ⟨rfl, rfl⟩

/-- The heap grows into the window of the mappings, and the next mapping lies in the heap. -/
theorem heap_meets_mapping : ∃ s t, Run (ofNext (spaceTo 1)) heapSystem [.sbrk 0x20001000#64, .mmap 0 4096#64] s ∧
    s.find 1 = some t ∧ ¬ HeapApart t := by
  have hpages : sbrkPages (newTask 1 256 0).heapEnd (0x20001000#64).toInt =
      some (0x40001000, range' 0x20000 131073) := rfl
  have hfree : 4 * (range' 0x20000 131073).length ≤ (freeFrames heapSystem.machine.pmm).card := by
    rw [card_freeFrames_heapSystem, length_range']
    decide
  obtain ⟨htasks, hshms⟩ := sysSbrk_complete hpages heapSystem_ok hfree
  generalize hs : (sysSbrk heapSystem (newTask 1 256 0) (0x20001000#64).toInt).1 = s₁ at htasks hshms
  let t₁ : Task := { newTask 1 256 0 with heapEnd := 0x40001000 }
  have hfind : s₁.find 1 = some t₁ := (find_put htasks).trans rfl
  have hresult : mmapResult t₁ [257] 4096 ≠ 0 := by decide
  rcases sysMmap_eq s₁ t₁ [257] 4096 with ⟨hz, -⟩ | ⟨-, -, htasks'⟩
  · exact absurd hz hresult
  refine ⟨(sysMmap s₁ t₁ [257] 4096).1, _, .stepL (congrArg some hs) (.stepL ?_ .refl),
    (find_put htasks').trans rfl, fun hapart => ?_⟩
  · change (s₁.find 1).bind _ = _
    rw [hfind, hshms]
    rfl
  · -- the first page of the mapping is a page of the heap
    have hd := hapart ⟨0x40000000, 4096, vmmFlagShm⟩ mem_cons_self
    have hheap : 0x40000000 ∈ heapPages t₁ := ⟨by decide, by decide⟩
    have hmap : 0x40000000 ∈ bytes ⟨0x40000000, 4096⟩ := ⟨by decide, by decide⟩
    exact Set.disjoint_left.mp hd hheap hmap

end NyanOS.Memory
