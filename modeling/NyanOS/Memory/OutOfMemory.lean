import NyanOS.Memory.KernelSpace
import NyanOS.Memory.UpperHalf

/-!
# Allocations that fail in the middle

Other tasks take and give back frames while a call runs, so the results that `pmm_alloc_frame` gives it are any sequence: here
a list, with 0 for a failure. Three loops put frames behind a range of pages, in `vmm_alloc_global`, `sys_sbrk` and `sys_exec`.
They check different failures, and none checks that `vmm_map_page` found a frame for the tables.
-/
namespace NyanOS.Memory

open Lib Function List Option Prod

/-- Memory, and the results that `pmm_alloc_frame` is going to give; it fails when the list is at its end. -/
structure Supply where
  mem : Nat → Nat → Word
  results : List Nat

namespace Supply

def set (s : Supply) (frame i : Nat) (w : Word) : Supply :=
  { s with mem := update s.mem frame (update (s.mem frame) i w) }

def fill (s : Supply) (frame : Nat) (page : Nat → Word) : Supply :=
  { s with mem := update s.mem frame page }

/-- `pmm_alloc_frame` -/
def alloc (s : Supply) : Nat × Supply := (s.results.headD 0, { s with results := s.results.tail })

/-- `vmm_walk_to_pte`, with missing tables created. -/
def walk : Nat → Nat → Nat → Supply → Option (Nat × Nat) × Supply
  | 0, table, page, s => (some (table, tableIndex 0 page), s)
  | depth + 1, table, page, s =>
    let entry := s.mem table (tableIndex (depth + 1) page)
    if present entry then walk depth (frameOf entry) page s
    else
      let (new, s) := s.alloc
      if new = 0 then (none, s)
      else walk depth new page ((s.fill new fun _ => 0).set table (tableIndex (depth + 1) page) (tableEntry new))

/-- `vmm_map_page`. What it gives back is not seen here: any frame may be among the results. -/
def mapPage (s : Supply) (root page frame : Nat) (flags : Word) : Bool × Supply :=
  match walk 3 root page s with
  | (none, s) => (false, s)
  | (some (table, i), s) => (true, s.set table i (mkPte frame flags))

end Supply

/-- What the loops differ in: the address space and the flags, whether a missing frame ends the loop, whether the frame is
cleared, and the PML4 that `vmm_alloc_global` keeps in step. -/
structure MapLoop where
  root : Nat
  flags : Word
  checked : Bool
  cleared : Bool
  sync : Option Nat

namespace MapLoop

def after (l : MapLoop) (page : Nat) (s : Supply) : Supply :=
  match l.sync with
  | none => s
  | some curr => if curr ≠ l.root then s.set curr (tableIndex 3 page) (s.mem l.root (tableIndex 3 page)) else s

/-- A turn of the loop, with the frame for its page. -/
def turn (l : MapLoop) (page phys : Nat) (s : Supply) : Bool × Supply :=
  let s := if l.cleared then s.fill phys fun _ => 0 else s
  let (mapped, s) := s.mapPage l.root page phys l.flags
  (mapped, l.after page s)

/-- The frame for each page that the loop came to, and whether there were tables for it. -/
def run (l : MapLoop) : List Nat → Supply → List (Nat × Bool) × Supply
  | [], s => ([], s)
  | page :: pages, s =>
    let (phys, s) := s.alloc
    if l.checked ∧ phys = 0 then ([], s)
    else
      let (mapped, s) := l.turn page phys s
      let (rest, s) := l.run pages s
      ((phys, mapped) :: rest, s)

end MapLoop

/-- The loop of `vmm_alloc_global` in the address space `curr`. -/
def globalLoop (kern curr : Nat) : MapLoop := ⟨kern, kernFlags, true, false, some curr⟩

/-- The loop of `sys_sbrk`. -/
def heapLoop (pml4 : Nat) : MapLoop := ⟨pml4, privateFlags, true, true, none⟩

/-- The loop of `sys_exec` over the pages of the stack. -/
def stackLoop (pml4 : Nat) : MapLoop := ⟨pml4, privateFlags, false, false, none⟩

/-- `vmm_alloc_global`: the address or 0, and what the loop obtained. `node` says whether the record of the region could be
allocated. What is taken back after a failure is not modelled here: the call has handed out nothing. -/
def allocGlobalFrom (kern curr : Nat) (vmFree : List Extent) (size : Nat) (node : Bool) (s : Supply) :
    Nat × List (Nat × Bool) × Supply :=
  let start := (findFreeAddr vmFree (alignedSize size)).1
  if size = 0 ∨ start = 0 then (0, [], s)
  else
    let pages := range' (start / pageSize) (alignedSize size / pageSize)
    let (out, s) := (globalLoop kern curr).run pages s
    if out.length < pages.length then (0, out, s)
    else if !node then (0, out, s)
    else (start, out, s)

/-- `sys_sbrk` with a positive increment: the old break or `none` for -1. -/
def sbrkFrom (pml4 prevBrk : Nat) (incr : Int) (s : Supply) : Option Nat × List (Nat × Bool) × Supply :=
  match sbrkPages prevBrk incr with
  | none => (none, [], s)
  | some (_, pages) =>
    let (out, s) := (heapLoop pml4).run pages s
    (if out.length = pages.length then some prevBrk else none, out, s)

/-- `sys_exec` in its new address space: the PML4 if the program is started. What comes between the stack and the new kernel
stack, the arguments and the program, is `load`. -/
def execLoad (load : Nat → Supply → Bool × Supply) (new : Nat) (s : Supply) : Option Nat × List (Nat × Bool) × Supply :=
  let (out, s) := (stackLoop new).run stackPages s
  let (ok, s) := load new s
  if !ok then (none, out, s)
  else
    let (stk, s) := s.alloc
    (if stk = 0 then none else some new, out, s)

/-- `vmm_new_pml4`: 0, or a PML4 with the upper half of the kernel's. -/
def newRoot (kern : Nat) (s : Supply) : Nat × Supply :=
  let (new, s) := s.alloc
  (new, if new = 0 then s else s.fill new fun i => if 256 ≤ i ∧ i < 512 then s.mem kern i else 0)

/-- `sys_exec` up to the end of its loop over the stack. -/
def execStack (kern : Nat) (s : Supply) : List (Nat × Bool) × Supply :=
  let (new, s) := newRoot kern s
  (stackLoop new).run stackPages s

/-- `sys_exec` from the new PML4 on. -/
def execFrom (kern : Nat) (load : Nat → Supply → Bool × Supply) (s : Supply) : Option Nat × List (Nat × Bool) × Supply :=
  let (new, s) := newRoot kern s
  if new = 0 then (none, [], s) else execLoad load new s

/-- What was asked for on the way from one state to a later one was given: no result between them is a failure. -/
def Granted (s s' : Supply) : Prop := ∃ used, s.results = used ++ s'.results ∧ 0 ∉ used

/-! ### Tables have one place -/

/-- The part of the address space below a table of some depth on the way to a page. -/
def regionOf (depth page : Nat) : Nat := page % 512 ^ 4 / 512 ^ (depth + 1)

theorem regionOf_succ {depth page : Nat} (h : depth < 3) :
    regionOf depth page = regionOf (depth + 1) page * 512 + tableIndex (depth + 1) page := by
  unfold regionOf tableIndex
  interval_cases depth <;> omega

theorem regionOf_three (page : Nat) : regionOf 3 page = 0 := by
  unfold regionOf
  omega

theorem samePath_of_region {u v : Nat} (hregion : regionOf 0 u = regionOf 0 v) (hidx : tableIndex 0 u = tableIndex 0 v) :
    SamePath 3 u v := by
  unfold regionOf tableIndex at *
  unfold SamePath
  omega

/-- Depth and region of a table. -/
abbrev Places := Nat → Option (Nat × Nat)

/-- What a present entry of a table points to is the table of a part of its region. -/
def Placed (mem : Nat → Nat → Word) (place : Places) : Prop :=
  ∀ t d k i, place t = some (d + 1, k) → i < 512 → present (mem t i) = true →
    place (frameOf (mem t i)) = some (d, k * 512 + i)

/-- The frames that are going to be handed out: each once, and none of them a table. -/
structure Fresh (results : List Nat) (place : Places) : Prop where
  nodup : (results.filter (· ≠ 0)).Nodup
  free : ∀ f ∈ results, f ≠ 0 → place f = none ∧ f < 2 ^ 52

variable {mem mem' : Nat → Nat → Word} {place place' : Places} {s s' : Supply} {root page table depth t u v f d k i g j k' new phys size bound prevBrk nextBrk kern : Nat}
  {flags w : Word} {l : MapLoop} {results pages used rest : List Nat} {rs : List Nat}

theorem ne_of_place {x : Nat × Nat} (ht : place t = some x) (hu : place u = none) : t ≠ u :=
  ne_of_apply_ne place (by simp [ht, hu])

theorem place_update {x y : Nat × Nat} (ht : place t = some x) (hu : place u = none) :
    update place u (some y) t = some x := by
  rw [update_of_ne (ne_of_place ht hu), ht]

theorem Fresh.tail (h : Fresh (f :: rs) place) : Fresh rs place := by
  refine ⟨?_, fun g hg => h.free g (mem_cons_of_mem f hg)⟩
  have hnodup := h.nodup
  rw [filter_cons] at hnodup
  split at hnodup
  · exact (nodup_cons.mp hnodup).2
  · exact hnodup

theorem Fresh.taken (h : Fresh (f :: rs) place) (hf : f ≠ 0) (x : Nat × Nat) :
    Fresh rs (update place f (some x)) := by
  have hnodup := h.nodup
  rw [filter_cons, if_pos (by simpa using hf), nodup_cons] at hnodup
  refine ⟨hnodup.2, fun g hg hne => ?_⟩
  have hgf : g ≠ f := by
    rintro rfl
    exact hnodup.1 (mem_filter.mpr ⟨hg, by simpa using hne⟩)
  rw [update_of_ne hgf]
  exact h.free g (mem_cons_of_mem f hg) hne

theorem Supply.mem_set (s : Supply) (f i : Nat) (w : Word) (g j : Nat) :
    (s.set f i w).mem g j = if g = f ∧ j = i then w else s.mem g j := by
  simp only [Supply.set, update_apply]
  by_cases hg : g = f
  · subst hg
    simp [update_apply]
  · simp [hg]

theorem Supply.mem_set_of_ne (h : g ≠ f) : (s.set f i w).mem g = s.mem g := update_of_ne h _ _

theorem Supply.mem_fill_of_ne {c : Nat → Word} (h : g ≠ f) : (s.fill f c).mem g = s.mem g :=
  update_of_ne h _ _

theorem leaf_of_zeros (h : ∀ i, mem table i = 0) : leaf mem depth table page = 0 := by
  cases depth with
  | zero => exact h _
  | succ depth => simp [leaf, h]

section
variable (hp : Placed mem place) (hsame : ∀ t x, place t = some x → mem' t = mem t)
include hp hsame

theorem leaf_of_placed (ht : place t = some (depth, k)) : leaf mem' depth t u = leaf mem depth t u := by
  induction depth generalizing t k with
  | zero => rw [leaf, leaf, hsame t _ ht]
  | succ depth ih =>
    simp only [leaf, hsame t _ ht]
    split
    · next hpres => exact ih (hp t depth k _ ht tableIndex_lt hpres)
    · rfl

theorem placed_of_same : Placed mem' place := by
  intro t d k i ht hi hpres
  rw [hsame t _ ht] at hpres ⊢
  exact hp t d k i ht hi hpres

end

theorem slot_place (hp : Placed mem place) (hd : depth ≤ 3) (ht : place table = some (depth, regionOf depth page))
    (h : slot mem depth table page = some (t, i)) : place t = some (0, regionOf 0 page) ∧ i = tableIndex 0 page := by
  induction depth generalizing table with
  | zero =>
    obtain ⟨rfl, rfl⟩ := mk.inj (some.inj h)
    exact ⟨ht, rfl⟩
  | succ depth ih =>
    simp only [slot] at h
    split at h
    · next hpres =>
      refine ih (by omega) ?_ h
      rw [hp table depth _ _ ht tableIndex_lt hpres, ← regionOf_succ (by omega)]
    · cases h

/-! ### The walk -/

/-- A table attached where there was none. -/
def attach (s : Supply) (table i new : Nat) : Supply := (s.fill new fun _ => 0).set table i (tableEntry new)

section
variable {new : Nat}

theorem attach_mem (hne : t ≠ new) (htable : t ≠ table) : (attach s table i new).mem t = s.mem t := by
  rw [attach, Supply.mem_set_of_ne htable, Supply.mem_fill_of_ne hne]

theorem attach_entry : (attach s table i new).mem table i = tableEntry new := by
  rw [attach, Supply.mem_set, if_pos ⟨rfl, rfl⟩]

theorem attach_other (hne : t ≠ new) (hat : ¬ (t = table ∧ j = i)) : (attach s table i new).mem t j = s.mem t j := by
  rw [attach, Supply.mem_set, if_neg hat, Supply.mem_fill_of_ne hne]

theorem attach_new (hne : new ≠ table) (j : Nat) : (attach s table i new).mem new j = 0 := by
  rw [attach, Supply.mem_set_of_ne hne]
  exact congrFun (update_self new (fun _ => 0) s.mem) j

theorem attach_leaf (hp : Placed s.mem place) (htable : place table = some (d + 1, k))
    (habsent : present (s.mem table i) = false) (hnew : place new = none) (hnew52 : new < 2 ^ 52)
    (ht : place t = some (depth, k')) : leaf (attach s table i new).mem depth t u = leaf s.mem depth t u := by
  have hne := ne_of_place htable hnew
  induction depth generalizing t k' with
  | zero =>
    have htt : t ≠ table := by
      rintro rfl
      rw [htable] at ht
      cases ht
    rw [leaf, leaf, attach_mem (ne_of_place ht hnew) htt]
  | succ depth ih =>
    simp only [leaf]
    by_cases hat : t = table ∧ tableIndex (depth + 1) u = i
    · obtain ⟨rfl, rfl⟩ := hat
      rw [attach_entry, habsent, present_tableEntry, if_pos rfl, frameOf_tableEntry hnew52,
        leaf_of_zeros (attach_new hne.symm)]
      rfl
    · rw [attach_other (ne_of_place ht hnew) hat]
      split
      · next hpres => exact ih (hp t depth k' _ ht tableIndex_lt hpres)
      · rfl

theorem attach_placed (hp : Placed s.mem place) (htable : place table = some (d + 1, k)) (hi : i < 512)
    (hnew : place new = none) (hnew52 : new < 2 ^ 52) :
    Placed (attach s table i new).mem (update place new (some (d, k * 512 + i))) := by
  have hne := ne_of_place htable hnew
  intro t d' k' j ht hj hpres
  by_cases htn : t = new
  · subst htn
    rw [attach_new hne.symm] at hpres
    cases hpres
  rw [update_of_ne htn] at ht
  by_cases hat : t = table ∧ j = i
  · obtain ⟨rfl, rfl⟩ := hat
    rw [htable] at ht
    obtain ⟨rfl, rfl⟩ : d = d' ∧ k = k' := by simpa using ht
    rw [attach_entry, frameOf_tableEntry hnew52, update_self]
  · rw [attach_other htn hat] at hpres ⊢
    have hdown := hp t d' k' j ht hj hpres
    exact place_update hdown hnew

end

/-- The walk attaches tables below the one it starts from, or stops where there is none. -/
structure WalkedTo (s s' : Supply) (place place' : Places) (depth table page : Nat) (found : Option (Nat × Nat)) : Prop where
  grows : ∀ t x, place t = some x → place' t = some x
  origin : ∀ t x, place' t = some x → place t = some x ∨ t ∈ s.results
  rest : s'.results <:+ s.results
  placed : Placed s'.mem place'
  fresh : Fresh s'.results place'
  above : ∀ t d k, place t = some (d, k) → depth < d → s'.mem t = s.mem t
  leaf : ∀ t d k u, place t = some (d, k) → leaf s'.mem d t u = leaf s.mem d t u
  found : found = slot s'.mem depth table page

theorem WalkedTo.same {found : Option (Nat × Nat)} (hp : Placed s.mem place) (hf : Fresh rs place)
    (hrs : rs <:+ s.results) (hfound : found = slot s.mem depth table page) :
    ∃ place', WalkedTo s ⟨s.mem, rs⟩ place place' depth table page found :=
  ⟨place, fun _ _ h => h, fun _ _ => .inl, hrs, hp, hf, fun _ _ _ _ _ => rfl, fun _ _ _ _ _ => rfl, hfound⟩

theorem Supply.walk_absent (habsent : present (mem table (tableIndex (depth + 1) page)) = false) :
    Supply.walk (depth + 1) table page ⟨mem, new :: rs⟩ = if new = 0 then (none, ⟨mem, rs⟩)
      else Supply.walk depth new page (attach ⟨mem, rs⟩ table (tableIndex (depth + 1) page) new) := by
  rw [Supply.walk]
  dsimp only
  rw [if_neg (by simp [habsent])]
  rfl

theorem Supply.walk_spec (hp : Placed s.mem place) (hf : Fresh s.results place) (hd : depth ≤ 3)
    (ht : place table = some (depth, regionOf depth page)) :
    ∃ place', WalkedTo s (Supply.walk depth table page s).2 place place' depth table page
      (Supply.walk depth table page s).1 := by
  induction depth generalizing s place table with
  | zero => exact WalkedTo.same hp hf suffix_rfl rfl
  | succ depth ih =>
    by_cases hpres : present (s.mem table (tableIndex (depth + 1) page)) = true
    · -- the table below is there
      rw [Supply.walk, if_pos hpres]
      have hchild := hp table depth _ _ ht tableIndex_lt hpres
      rw [← regionOf_succ (by omega)] at hchild
      obtain ⟨place', hw⟩ := ih hp hf (by omega) hchild
      refine ⟨place', hw.grows, hw.origin, hw.rest, hw.placed, hw.fresh, fun t d k hx hlt => hw.above t d k hx (by omega),
        hw.leaf, ?_⟩
      have hentry := congrFun (hw.above table _ _ ht (by omega)) (tableIndex (depth + 1) page)
      rw [hw.found]
      simp only [slot, hentry, hpres, if_true]
    have habsent : present (s.mem table (tableIndex (depth + 1) page)) = false := by simpa using hpres
    have hnone : slot s.mem (depth + 1) table page = none := by simp only [slot, habsent, Bool.false_eq_true, if_false]
    obtain ⟨mem, results⟩ := s
    cases results with
    | nil =>
      rw [Supply.walk, if_neg hpres]
      exact WalkedTo.same hp hf suffix_rfl hnone.symm
    | cons new rs =>
      rw [Supply.walk_absent habsent]
      by_cases hnew : new = 0
      · rw [if_pos hnew]
        exact WalkedTo.same hp hf.tail (suffix_cons new rs) hnone.symm
      -- a new table, and the walk goes on in it
      rw [if_neg hnew]
      obtain ⟨hfree, hnew52⟩ := hf.free new mem_cons_self hnew
      have hattach : Placed (attach ⟨mem, rs⟩ table (tableIndex (depth + 1) page) new).mem
          (update place new (some (depth, regionOf depth page))) := by
        rw [regionOf_succ (by omega)]
        exact attach_placed hp ht tableIndex_lt hfree hnew52
      have hnewplace : update place new (some (depth, regionOf depth page)) new
          = some (depth, regionOf depth page) := update_self ..
      have hgrows : ∀ t x, place t = some x → update place new (some (depth, regionOf depth page)) t = some x :=
        fun _ _ hx => place_update hx hfree
      obtain ⟨place', hw⟩ := ih (s := attach ⟨mem, rs⟩ table (tableIndex (depth + 1) page) new) hattach
        (hf.taken hnew _) (by omega) hnewplace
      refine ⟨place', fun t x hx => hw.grows t x (hgrows t x hx), ?_, hw.rest.trans (suffix_cons new rs), hw.placed,
        hw.fresh, ?_, ?_, ?_⟩
      · intro t x hx
        rcases hw.origin t x hx with hold | hmem
        · by_cases htn : t = new
          · exact .inr (htn ▸ mem_cons_self)
          · rw [update_of_ne htn] at hold
            exact .inl hold
        · exact .inr (mem_cons_of_mem new hmem)
      · intro t d k hx hlt
        refine (hw.above t d k (hgrows t _ hx) (by omega)).trans (attach_mem (ne_of_place hx hfree) ?_)
        rintro rfl
        rw [ht] at hx
        have : depth + 1 = d := by simpa using congrArg (fst ∘ (Option.getD · (0, 0))) hx
        omega
      · intro t d k u hx
        exact (hw.leaf t d k u (hgrows t _ hx)).trans (attach_leaf (s := ⟨mem, rs⟩) hp ht habsent hfree hnew52 hx)
      · have hentry := congrFun (hw.above table _ _ (hgrows table _ ht) (by omega)) (tableIndex (depth + 1) page)
        rw [attach_entry] at hentry
        simp only [slot, hentry, present_tableEntry, if_true, frameOf_tableEntry hnew52]
        exact hw.found

/-! ### The loops -/

/-- A page after `vmm_map_page`: its entry, or none because there is no table for it. -/
def entryOf (flags : Word) (x : Nat × Bool) : Word := if x.2 then mkPte x.1 flags else 0

/-- The tables of an address space and the frames to come. -/
structure Ready (s : Supply) (place : Places) (root : Nat) : Prop where
  placed : Placed s.mem place
  fresh : Fresh s.results place
  root : place root = some (3, 0)

theorem slot_samePath (h : SamePath depth u v) : slot mem depth table u = slot mem depth table v := by
  induction depth generalizing table with
  | zero => rw [slot, slot, samePath_zero.mp h]
  | succ depth ih =>
    obtain ⟨hidx, hsub⟩ := samePath_succ.mp h
    simp only [slot, hidx, ih hsub]

section
variable (h : Ready s place root)
include h

theorem Ready.store (hslot : slot s.mem 3 root page = some (t, i)) (w : Word) : Ready (s.set t i w) place root ∧
      ∀ u, leaf (s.set t i w).mem 3 root u = if SamePath 3 u page then w else leaf s.mem 3 root u := by
  have hroot : ∀ page, place root = some (3, regionOf 3 page) := fun page => by rw [regionOf_three, h.root]
  obtain ⟨ht, -⟩ := slot_place h.placed le_rfl (hroot page) hslot
  have hupper : ∀ t' d k, place t' = some (d + 1, k) → (s.set t i w).mem t' = s.mem t' := by
    intro t' d k ht'
    refine Supply.mem_set_of_ne ?_
    rintro rfl
    rw [ht] at ht'
    cases ht'
  have hslots : ∀ depth t' k u, place t' = some (depth, k) →
      slot (s.set t i w).mem depth t' u = slot s.mem depth t' u := by
    intro depth
    induction depth with
    | zero => exact fun _ _ _ _ => rfl
    | succ depth ih =>
      intro t' k u ht'
      simp only [slot, hupper t' depth k ht']
      split
      · next hpres => exact ih _ _ u (h.placed t' depth k _ ht' tableIndex_lt hpres)
      · rfl
  refine ⟨⟨?_, h.fresh, h.root⟩, fun u => ?_⟩
  · intro t' d k j ht' hj hpres
    rw [hupper t' d k ht'] at hpres ⊢
    exact h.placed t' d k j ht' hj hpres
  have hsame := hslots 3 root 0 u h.root
  cases hu : slot s.mem 3 root u with
  | none =>
    rw [hu] at hsame
    rw [leaf_of_slot_none hsame, leaf_of_slot_none hu, if_neg]
    intro hpath
    rw [slot_samePath hpath, hslot] at hu
    cases hu
  | some found =>
    obtain ⟨t', j⟩ := found
    rw [hu] at hsame
    rw [leaf_of_slot hsame, leaf_of_slot hu, Supply.mem_set]
    by_cases hat : t' = t ∧ j = i
    · obtain ⟨rfl, rfl⟩ := hat
      obtain ⟨hregion, hidx⟩ := slot_place h.placed le_rfl (hroot u) hu
      obtain ⟨hregion', hidx'⟩ := slot_place h.placed le_rfl (hroot page) hslot
      rw [if_pos ⟨rfl, rfl⟩, if_pos]
      refine samePath_of_region ?_ (hidx.symm.trans hidx')
      simpa [hregion] using hregion'
    · rw [if_neg hat, if_neg]
      intro hpath
      rw [slot_samePath hpath, hslot] at hu
      obtain ⟨rfl, rfl⟩ := mk.inj (some.inj hu)
      exact hat ⟨rfl, rfl⟩

/-- `vmm_map_page` in any case: its page has the entry, or no entry, and the other pages are as they were. -/
theorem Ready.mapPage (page f : Nat) (flags : Word) : ∃ place', Ready (s.mapPage root page f flags).2 place' root
      ∧ (∀ t x, place' t = some x → place t = some x ∨ t ∈ s.results)
      ∧ (s.mapPage root page f flags).2.results <:+ s.results
      ∧ ∀ u, leaf (s.mapPage root page f flags).2.mem 3 root u =
        if SamePath 3 u page then entryOf flags (f, (s.mapPage root page f flags).1) else leaf s.mem 3 root u := by
  have hroot : place root = some (3, regionOf 3 page) := by rw [regionOf_three, h.root]
  obtain ⟨place', hw⟩ := Supply.walk_spec h.placed h.fresh le_rfl hroot
  have hready : Ready (Supply.walk 3 root page s).2 place' root := ⟨hw.placed, hw.fresh, hw.grows _ _ h.root⟩
  have hfound := hw.found
  rw [Supply.mapPage]
  cases hres : Supply.walk 3 root page s with
  | mk found s₁ =>
    rw [hres] at hw hready hfound
    cases found with
    | none =>
      refine ⟨place', hready, hw.origin, hw.rest, fun u => ?_⟩
      dsimp only
      rw [hw.leaf root 3 0 u h.root]
      split
      · next hpath =>
        have hnone : slot s₁.mem 3 root u = none := (slot_samePath hpath).trans hfound.symm
        rw [← hw.leaf root 3 0 u h.root, leaf_of_slot_none hnone]
        rfl
      · rfl
    | some found =>
      obtain ⟨t, i⟩ := found
      obtain ⟨hready', hleaf⟩ := hready.store hfound.symm (mkPte f flags)
      refine ⟨place', hready', hw.origin, hw.rest, fun u => ?_⟩
      dsimp only
      rw [hleaf u, hw.leaf root 3 0 u h.root]
      rfl

theorem Ready.rewrite (hresults : s'.results = s.results) (hsame : ∀ t x, place t = some x → s'.mem t = s.mem t) :
    Ready s' place root ∧ ∀ u, leaf s'.mem 3 root u = leaf s.mem 3 root u :=
  ⟨⟨placed_of_same h.placed hsame, hresults ▸ h.fresh, h.root⟩, fun _ => leaf_of_placed h.placed hsame h.root⟩

theorem Ready.alloc : Ready s.alloc.2 place root ∧ s.alloc.2.results <:+ s.results ∧
      (s.alloc.1 ≠ 0 → s.alloc.1 ∈ s.results ∧ place s.alloc.1 = none ∧ s.alloc.1 < 2 ^ 52) := by
  obtain ⟨mem, results⟩ := s
  cases results with
  | nil => exact ⟨h, suffix_rfl, fun hne => absurd rfl hne⟩
  | cons f rs =>
    refine ⟨⟨h.placed, h.fresh.tail, h.root⟩, suffix_cons f rs, fun hne => ?_⟩
    exact ⟨mem_cons_self, h.fresh.free f mem_cons_self hne⟩

end

/-- A PML4 that is kept in step with the kernel's is none of the kernel's tables. -/
def MapLoop.Apart (l : MapLoop) (place : Places) (results : List Nat) : Prop :=
  ∀ curr, l.sync = some curr → curr ≠ l.root → place curr = none ∧ curr ∉ results

/-- Only frames that were obtained are cleared. -/
def MapLoop.Sane (l : MapLoop) : Prop := l.cleared = true → l.checked = true

theorem Ready.after (h : Ready s place l.root) (ha : l.Apart place results) (page : Nat) :
    Ready (l.after page s) place l.root ∧ (l.after page s).results = s.results ∧
      ∀ u, leaf (l.after page s).mem 3 l.root u = leaf s.mem 3 l.root u := by
  rw [MapLoop.after]
  cases hsync : l.sync with
  | none => exact ⟨h, rfl, fun _ => rfl⟩
  | some curr =>
    dsimp only
    split
    · next hne =>
      have hfree := (ha curr hsync hne).1
      have hsame : ∀ t x, place t = some x →
          (s.set curr (tableIndex 3 page) (s.mem l.root (tableIndex 3 page))).mem t = s.mem t :=
        fun t x hx => Supply.mem_set_of_ne (ne_of_place hx hfree)
      obtain ⟨hready, hleaf⟩ := h.rewrite (show (s.set curr _ _).results = s.results from rfl) hsame
      exact ⟨hready, rfl, hleaf⟩
    · exact ⟨h, rfl, fun _ => rfl⟩

/-- The frames of a loop come from the results, and each page that it came to has its entry or none. -/
structure Ran (l : MapLoop) (s s' : Supply) (pages : List Nat) (out : List (Nat × Bool)) : Prop where
  length : out.length ≤ pages.length
  frames : ∀ x ∈ out, x.1 ≠ 0 → x.1 ∈ s.results ∧ x.1 < 2 ^ 52
  other : ∀ u, (∀ p ∈ pages, ¬ SamePath 3 u p) → leaf s'.mem 3 l.root u = leaf s.mem 3 l.root u
  entries : ∀ x ∈ pages.zip out, leaf s'.mem 3 l.root x.1 = entryOf l.flags x.2

theorem MapLoop.turn_spec (h : Ready s place l.root) (ha : l.Apart place s.results)
    (hphys : l.cleared = true → place phys = none) (page : Nat) :
    ∃ place', Ready (l.turn page phys s).2 place' l.root ∧ l.Apart place' (l.turn page phys s).2.results
      ∧ (l.turn page phys s).2.results <:+ s.results
      ∧ ∀ u, leaf (l.turn page phys s).2.mem 3 l.root u =
        if SamePath 3 u page then entryOf l.flags (phys, (l.turn page phys s).1) else leaf s.mem 3 l.root u := by
  rw [MapLoop.turn]
  generalize hs₁ : (if l.cleared then s.fill phys fun _ => 0 else s) = s₁
  obtain ⟨hready₁, hleaf₁⟩ : Ready s₁ place l.root ∧ ∀ u, leaf s₁.mem 3 l.root u = leaf s.mem 3 l.root u := by
    rw [← hs₁]
    split
    · next hcleared =>
      exact h.rewrite rfl fun t x hx => Supply.mem_fill_of_ne (ne_of_place hx (hphys hcleared))
    · exact ⟨h, fun _ => rfl⟩
  have hresults₁ : s₁.results = s.results := by
    rw [← hs₁]
    split <;> rfl
  obtain ⟨place', hready₂, horigin, hsuffix, hleaf₂⟩ := hready₁.mapPage page phys l.flags
  rw [hresults₁] at horigin hsuffix
  have ha' : l.Apart place' (s₁.mapPage l.root page phys l.flags).2.results := by
    intro curr hsync hne
    obtain ⟨hfree, hnot⟩ := ha curr hsync hne
    refine ⟨?_, fun hmem => hnot (hsuffix.subset hmem)⟩
    cases hx : place' curr with
    | none => rfl
    | some x =>
      rcases horigin curr x hx with hold | hmem
      · rw [hfree] at hold
        cases hold
      · exact absurd hmem hnot
  obtain ⟨hready₃, hresults₃, hleaf₃⟩ := hready₂.after ha' page
  refine ⟨place', hready₃, hresults₃ ▸ ha', hresults₃ ▸ hsuffix, fun u => ?_⟩
  dsimp only
  rw [hleaf₃ u, hleaf₂ u, hleaf₁ u]

theorem MapLoop.run_cons (l : MapLoop) (page : Nat) (pages : List Nat) (s : Supply) :
    l.run (page :: pages) s = if l.checked ∧ s.alloc.1 = 0 then ([], s.alloc.2)
      else ((s.alloc.1, (l.turn page s.alloc.1 s.alloc.2).1) :: (l.run pages (l.turn page s.alloc.1 s.alloc.2).2).1,
        (l.run pages (l.turn page s.alloc.1 s.alloc.2).2).2) := rfl

theorem MapLoop.run_spec (h : Ready s place l.root) (ha : l.Apart place s.results) (hsane : l.Sane)
    (hpages : pages.Pairwise fun p q => ¬ SamePath 3 p q) :
    (∃ place', Ready (l.run pages s).2 place' l.root) ∧ Ran l s (l.run pages s).2 pages (l.run pages s).1 := by
  induction pages generalizing s place with
  | nil => exact ⟨⟨place, h⟩, ⟨le_rfl, fun _ hx => absurd hx not_mem_nil, fun _ _ => rfl,
      fun _ hx => absurd hx not_mem_nil⟩⟩
  | cons page pages ih =>
    obtain ⟨hpage, hrest⟩ := pairwise_cons.mp hpages
    obtain ⟨halloc, hsuffix, hframe⟩ := h.alloc
    rw [MapLoop.run_cons]
    split
    · exact ⟨⟨place, halloc⟩, ⟨Nat.zero_le _, fun _ hx => absurd hx not_mem_nil, fun _ _ => rfl,
        fun _ hx => absurd hx (by simp)⟩⟩
    next hstop =>
    have hphys : l.cleared = true → place s.alloc.1 = none := fun hcleared =>
      (hframe fun hzero => hstop ⟨hsane hcleared, hzero⟩).2.1
    have ha₁ : l.Apart place s.alloc.2.results := fun curr hsync hne =>
      ⟨(ha curr hsync hne).1, fun hmem => (ha curr hsync hne).2 (hsuffix.subset hmem)⟩
    obtain ⟨place', hready, ha', hsuffix', hleaf⟩ := MapLoop.turn_spec halloc ha₁ hphys page
    obtain ⟨hfinal, hran⟩ := ih hready ha' hrest
    generalize l.turn page s.alloc.1 s.alloc.2 = turned at hready ha' hsuffix' hleaf hfinal hran
    obtain ⟨mapped, s₁⟩ := turned
    dsimp only at hleaf hsuffix' hfinal hran ⊢
    refine ⟨hfinal, ⟨?_, ?_, ?_, ?_⟩⟩
    · exact Nat.succ_le_succ hran.length
    · intro x hx hne
      rcases mem_cons.mp hx with rfl | hx
      · obtain ⟨hmem, -, hlt⟩ := hframe hne
        exact ⟨hmem, hlt⟩
      · obtain ⟨hmem, hlt⟩ := hran.frames x hx hne
        exact ⟨hsuffix.subset (hsuffix'.subset hmem), hlt⟩
    · intro u hu
      rw [hran.other u fun p hp => hu p (mem_cons_of_mem page hp), hleaf u, if_neg (hu page mem_cons_self)]
      rfl
    · intro x hx
      rw [zip_cons_cons] at hx
      rcases mem_cons.mp hx with rfl | hx
      · rw [hran.other page fun p hp => hpage p hp, hleaf page, if_pos (show SamePath 3 page page from rfl)]
      · exact hran.entries x hx

theorem MapLoop.run_length (h : l.checked = false) (pages : List Nat) (s : Supply) :
    (l.run pages s).1.length = pages.length := by
  induction pages generalizing s with
  | nil => rfl
  | cons page pages ih =>
    rw [MapLoop.run_cons, if_neg (by rw [h]; exact fun hc => Bool.noConfusion hc.1)]
    exact congrArg (· + 1) (ih _)

/-- The page is present and maps a frame that the loop obtained. -/
def Backed (l : MapLoop) (s : Supply) (out : List (Nat × Bool)) (page : Nat) : Prop :=
  present (leaf s.mem 3 l.root page) = true ∧ frameOf (leaf s.mem 3 l.root page) ≠ 0
    ∧ frameOf (leaf s.mem 3 l.root page) ∈ out.map fst

/-- Every frame was obtained, those for the tables too. -/
def Obtained (out : List (Nat × Bool)) : Prop := ∀ x ∈ out, x.1 ≠ 0 ∧ x.2 = true

theorem Ran.backed_iff {out : List (Nat × Bool)} (h : Ran l s s' pages out)
    (hflags : l.flags.toNat < 2 ^ 12) (hlen : out.length = pages.length) :
    (∀ page ∈ pages, Backed l s' out page) ↔ Obtained out := by
  constructor
  · intro hall x hx
    obtain ⟨i, hi, rfl⟩ := getElem_of_mem hx
    have hi' : i < pages.length := by omega
    have hpage : (pages[i], out[i]) ∈ pages.zip out := mem_iff_getElem.mpr ⟨i, by rw [length_zip]; omega, getElem_zip⟩
    obtain ⟨hpres, hne, -⟩ := hall _ (getElem_mem hi')
    rw [h.entries _ hpage, entryOf] at hpres hne
    dsimp only at hpres hne
    split at hpres
    · next hmapped =>
      refine ⟨fun hzero => hne ?_, hmapped⟩
      rw [if_pos hmapped, hzero, frameOf_mkPte (by decide) hflags]
    · cases hpres
  · intro hall page hpage
    obtain ⟨i, hi, rfl⟩ := getElem_of_mem hpage
    have hi' : i < out.length := by omega
    have hx : (pages[i], out[i]) ∈ pages.zip out := mem_iff_getElem.mpr ⟨i, by rw [length_zip]; omega, getElem_zip⟩
    have hmem : out[i] ∈ out := getElem_mem _
    obtain ⟨hne, hmapped⟩ := hall _ hmem
    have hframe := frameOf_mkPte (h.frames _ hmem hne).2 hflags
    rw [Backed, h.entries _ hx, entryOf, if_pos hmapped, hframe]
    exact ⟨present_mkPte, hne, mem_map_of_mem hmem⟩

/-! ### Requests that fail -/

/-- On the way from one state to a later one frames were asked for, and all of them given just if `P`. Of results that have
come to their end nothing is said. -/
def Asks (P : Prop) (s s' : Supply) : Prop := s'.results <:+ s.results ∧ (s'.results ≠ [] → (P ↔ Granted s s'))

section
variable {P Q : Prop} {s'' : Supply}

theorem Asks.congr (h : Asks Q s s') (hiff : P ↔ Q) (hs : s''.results = s'.results) : Asks P s s'' := by
  rw [Asks, Granted, hs, hiff]
  exact h

theorem Asks.refl : Asks True s s := ⟨suffix_rfl, fun _ => ⟨fun _ => ⟨[], rfl, not_mem_nil⟩, fun _ => trivial⟩⟩

theorem Asks.alloc : Asks (s.alloc.1 ≠ 0) s s.alloc.2 := by
  refine ⟨tail_suffix _, fun hmore => ?_⟩
  obtain ⟨mem, results⟩ := s
  cases results with
  | nil => exact absurd rfl hmore
  | cons f rs =>
    constructor
    · intro hne
      exact ⟨[f], rfl, fun hm => hne (mem_singleton.mp hm).symm⟩
    · rintro ⟨used, heq, hzero⟩ (rfl : f = 0)
      have hused : used = [0] := append_cancel_right (heq.symm.trans rfl)
      exact hzero (hused ▸ mem_singleton_self 0)

theorem Asks.trans (h : Asks P s s') (h' : Asks Q s' s'') : Asks (P ∧ Q) s s'' := by
  refine ⟨h'.1.trans h.1, fun hmore => ?_⟩
  rw [h'.2 hmore, h.2 fun hnil => hmore (suffix_nil.mp (hnil ▸ h'.1))]
  constructor
  · rintro ⟨⟨v, hv, hzero⟩, v', hv', hzero'⟩
    refine ⟨v ++ v', by rw [hv, hv', append_assoc], fun hm => ?_⟩
    exact (mem_append.mp hm).elim hzero hzero'
  · rintro ⟨used, heq, hzero⟩
    obtain ⟨⟨u, hu⟩, u', hu'⟩ := And.intro h.1 h'.1
    obtain rfl : used = u ++ u' := by
      refine append_cancel_right (heq.symm.trans ?_)
      rw [append_assoc, hu', hu]
    exact ⟨⟨u, hu.symm, fun hm => hzero (mem_append_left u' hm)⟩, u', hu'.symm, fun hm => hzero (mem_append_right u hm)⟩

end

theorem Supply.walk_asks (depth table page : Nat) (s : Supply) :
    Asks ((Supply.walk depth table page s).1.isSome = true) s (Supply.walk depth table page s).2 := by
  induction depth generalizing table s with
  | zero => exact Asks.refl.congr (iff_true_intro rfl) rfl
  | succ depth ih =>
    rw [Supply.walk]
    dsimp only
    split
    · exact ih _ s
    split
    · next hzero => exact Asks.alloc.congr (by simp [hzero]) rfl
    next hnew =>
    refine (Asks.trans (Asks.alloc.congr Iff.rfl ?_) (ih _ _)).congr (iff_and_self.mpr fun _ => hnew) rfl
    rfl

theorem Supply.mapPage_asks (root page f : Nat) (flags : Word) (s : Supply) :
    Asks ((s.mapPage root page f flags).1 = true) s (s.mapPage root page f flags).2 := by
  have hwalk := Supply.walk_asks 3 root page s
  rw [Supply.mapPage]
  generalize Supply.walk 3 root page s = walked at hwalk ⊢
  obtain ⟨found, s₁⟩ := walked
  cases found with
  | none => exact hwalk
  | some entry => exact hwalk

theorem MapLoop.turn_asks : Asks ((l.turn page f s).1 = true) s (l.turn page f s).2 := by
  have hafter : ∀ s', (l.after page s').results = s'.results := by
    intro s'
    rw [MapLoop.after]
    split
    · rfl
    · split <;> rfl
  rw [MapLoop.turn]
  generalize hs₁ : (if l.cleared then s.fill f fun _ => 0 else s) = s₁
  have hresults : s₁.results = s.results := by
    rw [← hs₁]
    split <;> rfl
  have hmap := Supply.mapPage_asks l.root page f l.flags s₁
  rw [Asks, Granted, hresults] at hmap
  exact Asks.congr hmap Iff.rfl (hafter _)

/-- All was given to a loop, just if it came to its end with frames for all pages and their tables. -/
theorem MapLoop.run_asks (l : MapLoop) (pages : List Nat) (s : Supply) :
    Asks ((l.run pages s).1.length = pages.length ∧ Obtained (l.run pages s).1) s (l.run pages s).2 := by
  induction pages generalizing s with
  | nil => exact Asks.refl.congr (iff_true_intro ⟨rfl, fun _ hx => absurd hx not_mem_nil⟩) rfl
  | cons page pages ih =>
    rw [MapLoop.run_cons]
    split
    · next hstop => exact Asks.alloc.congr (by simp [hstop.2]) rfl
    refine (Asks.alloc.trans (MapLoop.turn_asks.trans (ih _))).congr ?_ rfl
    dsimp only
    rw [length_cons, length_cons, Nat.add_right_cancel_iff]
    constructor
    · rintro ⟨hlen, hall⟩
      obtain ⟨hframe, htables⟩ := hall _ mem_cons_self
      exact ⟨hframe, htables, hlen, fun x hx => hall x (mem_cons_of_mem _ hx)⟩
    · rintro ⟨hframe, htables, hlen, hall⟩
      exact ⟨hlen, forall_mem_cons.mpr ⟨⟨hframe, htables⟩, hall⟩⟩

theorem Ran.backed_iff_granted (h : Ran l s (l.run pages s).2 pages (l.run pages s).1)
    (hflags : l.flags.toNat < 2 ^ 12) (hend : (l.run pages s).1.length = pages.length) (hmore : (l.run pages s).2.results ≠ []) :
    (∀ page ∈ pages, Backed l (l.run pages s).2 (l.run pages s).1 page) ↔ Granted s (l.run pages s).2 := by
  rw [← (MapLoop.run_asks ..).2 hmore, h.backed_iff hflags hend]
  exact ⟨fun hall => ⟨hend, hall⟩, fun hall => hall.2⟩

/-- Neighbouring pages do not go through the same entries, up to the whole address space. -/
theorem pairwise_range' (start n : Nat) (h : n ≤ 512 ^ 4) :
    (range' start n).Pairwise fun p q => ¬ SamePath 3 p q := by
  rw [pairwise_iff_getElem]
  intro i j hi hj hij hpath
  rw [length_range'] at hi hj
  simp only [getElem_range', SamePath] at hpath
  omega

theorem findFreeAddr_size {vmFree : List Extent} (hbound : ∀ e ∈ vmFree, e.size ≤ bound)
    (hne : (findFreeAddr vmFree size).1 ≠ 0) : size ≤ bound := by
  induction vmFree with
  | nil => exact absurd rfl hne
  | cons e vmFree ih =>
    obtain ⟨he, hrest⟩ := forall_mem_cons.mp hbound
    rw [findFreeAddr] at hne
    split at hne
    · omega
    split at hne
    · omega
    · exact ih hrest hne

theorem sbrkPages_range {incr : Int}
    (h : sbrkPages prevBrk incr = some (nextBrk, pages)) : ∃ start n, pages = range' start n ∧ n ≤ 512 ^ 4 := by
  unfold sbrkPages at h
  split at h
  · cases h
  dsimp only at h
  split at h
  · cases h
  split at h
  · cases h
  next hlimit =>
  obtain ⟨rfl, rfl⟩ := mk.inj (some.inj h)
  refine ⟨_, _, rfl, ?_⟩
  unfold userHeapMaxLimit at hlimit
  unfold pageSize
  omega

theorem Ready.fillRoot (h : Ready ⟨mem, new :: rs⟩ place kern) (hnew : new ≠ 0) :
    Ready (Supply.fill ⟨mem, rs⟩ new fun i => if 256 ≤ i ∧ i < 512 then mem kern i else 0)
      (update place new (some (3, 0))) new := by
  obtain ⟨hfree, -⟩ := h.fresh.free new mem_cons_self hnew
  refine ⟨?_, h.fresh.taken hnew (3, 0), update_self ..⟩
  intro t d k i ht hi hpres
  by_cases htn : t = new
  · subst htn
    rw [update_self] at ht
    obtain ⟨rfl, rfl⟩ : d = 2 ∧ 0 = k := by simpa using ht
    have hentry : (Supply.fill ⟨mem, rs⟩ t fun i => if 256 ≤ i ∧ i < 512 then mem kern i else 0).mem t =
        fun i => if 256 ≤ i ∧ i < 512 then mem kern i else 0 := update_self t _ mem
    rw [hentry] at hpres ⊢
    dsimp only at hpres ⊢
    split at hpres
    · next hupper =>
      rw [if_pos hupper]
      exact place_update (h.placed kern 2 0 i h.root hi hpres) hfree
    · cases hpres
  · rw [update_of_ne htn] at ht
    rw [Supply.mem_fill_of_ne htn] at hpres ⊢
    exact place_update (h.placed t d k i ht hi hpres) hfree

theorem Ready.newRoot (h : Ready s place kern) (hnew : (newRoot kern s).1 ≠ 0) :
    ∃ place', Ready (newRoot kern s).2 place' (newRoot kern s).1 := by
  obtain ⟨mem, results⟩ := s
  cases results with
  | nil => exact absurd rfl hnew
  | cons new rs =>
    have hnew : new ≠ 0 := hnew
    refine ⟨update place new (some (3, 0)), ?_⟩
    have hfill : (Memory.newRoot kern ⟨mem, new :: rs⟩).2 =
        Supply.fill ⟨mem, rs⟩ new fun i => if 256 ≤ i ∧ i < 512 then mem kern i else 0 := if_neg hnew
    rw [hfill]
    exact h.fillRoot hnew

theorem newRoot_results (kern : Nat) (s : Supply) : (newRoot kern s).2.results = s.results.tail := by
  rw [newRoot]
  dsimp only
  split <;> rfl

theorem execLoad_started {load : Nat → Supply → Bool × Supply} (h : (execLoad load root s).1 = some new) :
    new = root ∧ (execLoad load root s).2.1 = ((stackLoop root).run stackPages s).1
      ∧ (execLoad load root s).2.2.mem = (load root ((stackLoop root).run stackPages s).2).2.mem := by
  rw [execLoad] at h ⊢
  generalize (stackLoop root).run stackPages s = ran at h ⊢
  obtain ⟨out, s₁⟩ := ran
  dsimp only at h ⊢
  generalize load root s₁ = loaded at h ⊢
  obtain ⟨ok, s₂⟩ := loaded
  dsimp only at h ⊢
  split at h
  · cases h
  next hok =>
  rw [if_neg hok]
  dsimp only at h ⊢
  split at h
  · cases h
  · exact ⟨(some.inj h).symm, rfl, rfl⟩

section
variable {kern curr pml4 prevBrk nextBrk size : Nat} {vmFree : List Extent} {node : Bool} {incr : Int} {pages : List Nat}
  {load : Nat → Supply → Bool × Supply}

theorem allocGlobalFrom_iff (h : Ready s place kern) (ha : (globalLoop kern curr).Apart place s.results)
    (hregions : ∀ e ∈ vmFree, e.size ≤ kernHeapSize) :
    let r := allocGlobalFrom kern curr vmFree size node s
    r.2.2.results ≠ [] → r.1 ≠ 0 →
    ((∀ page ∈ range' (r.1 / pageSize) (alignedSize size / pageSize), Backed (globalLoop kern curr) r.2.2 r.2.1 page) ↔
      Granted s r.2.2) := by
  rw [allocGlobalFrom]
  generalize hstart : (findFreeAddr vmFree (alignedSize size)).1 = start
  intro r hmore hok
  dsimp only [r] at hmore hok ⊢
  split at hok
  · exact absurd rfl hok
  next hsome =>
  rw [if_neg hsome] at hmore ⊢
  have hsize : alignedSize size ≤ kernHeapSize := findFreeAddr_size hregions fun hz => hsome (.inr (hstart ▸ hz))
  have hpages := pairwise_range' (start / pageSize) (alignedSize size / pageSize) (by
    unfold kernHeapSize at hsize
    unfold pageSize
    omega)
  split at hok
  · exact absurd rfl hok
  next hlen =>
  rw [if_neg hlen] at hmore ⊢
  split at hok
  · exact absurd rfl hok
  next hnode =>
  rw [if_neg hnode] at hmore ⊢
  have hran := (MapLoop.run_spec h ha (fun _ => rfl) hpages).2
  exact hran.backed_iff_granted (show kernFlags.toNat < 2 ^ 12 by decide) (le_antisymm hran.length (not_lt.mp hlen)) hmore

theorem sbrkFrom_iff (h : Ready s place pml4) (hpages : sbrkPages prevBrk incr = some (nextBrk, pages)) :
    let r := sbrkFrom pml4 prevBrk incr s
    r.2.2.results ≠ [] → r.1 = some prevBrk →
    ((∀ page ∈ pages, Backed (heapLoop pml4) r.2.2 r.2.1 page) ↔ Granted s r.2.2) := by
  rw [sbrkFrom, hpages]
  intro r hmore hok
  have hpairs : pages.Pairwise fun p q => ¬ SamePath 3 p q := by
    obtain ⟨start, n, rfl, hn⟩ := sbrkPages_range hpages
    exact pairwise_range' start n hn
  dsimp only [r] at hmore hok ⊢
  split at hok
  · next hend =>
    have hran := (MapLoop.run_spec (l := heapLoop pml4) h (fun _ hsync => by cases hsync) (fun _ => rfl) hpairs).2
    exact hran.backed_iff_granted (show privateFlags.toNat < 2 ^ 12 by decide) hend hmore
  · cases hok

theorem execFrom_iff (h : Ready s place kern) (hload : ∀ new s place, Ready s place new →
      ∀ page ∈ stackPages, leaf (load new s).2.mem 3 new page = leaf s.mem 3 new page)
    (hmore : (execStack kern s).2.results ≠ []) (hok : (execFrom kern load s).1 = some new) :
    (∀ page ∈ stackPages, Backed (stackLoop new) (execFrom kern load s).2.2 (execFrom kern load s).2.1 page) ↔
      Granted s (execStack kern s).2 := by
  rw [execFrom] at hok ⊢
  dsimp only at hok ⊢
  split at hok
  · cases hok
  next hroot =>
  rw [if_neg hroot]
  obtain ⟨place₁, hready⟩ := h.newRoot hroot
  obtain ⟨hnew, hout, hmem⟩ := execLoad_started hok
  have hroots : Asks ((newRoot kern s).1 ≠ 0) s (newRoot kern s).2 := Asks.alloc.congr Iff.rfl (newRoot_results kern s)
  have hrun : _ ↔ Granted s (execStack kern s).2 :=
    (hroots.trans ((stackLoop (newRoot kern s).1).run_asks stackPages _)).2 hmore
  rw [hout, ← hrun]
  generalize newRoot kern s = root at *
  obtain ⟨new', s₁⟩ := root
  obtain rfl : new = new' := hnew
  dsimp only at *
  have hpages : stackPages.Pairwise fun p q => ¬ SamePath 3 p q := pairwise_range' _ userStackPages (by decide)
  obtain ⟨⟨place', hready'⟩, hran⟩ := MapLoop.run_spec (l := stackLoop new) hready (fun _ hsync => by cases hsync)
    (fun hcleared => by cases hcleared) hpages
  have hend := MapLoop.run_length (l := stackLoop new) rfl stackPages s₁
  have hsame : ∀ page ∈ stackPages, Backed (stackLoop new) (execLoad load new s₁).2.2 ((stackLoop new).run stackPages s₁).1 page ↔
      Backed (stackLoop new) ((stackLoop new).run stackPages s₁).2 ((stackLoop new).run stackPages s₁).1 page := by
    intro page hpage
    rw [Backed, Backed, hmem]
    have hkept : leaf (load new ((stackLoop new).run stackPages s₁).2).2.mem 3 (stackLoop new).root page =
        leaf ((stackLoop new).run stackPages s₁).2.mem 3 (stackLoop new).root page := hload new _ place' hready' page hpage
    rw [hkept]
  rw [forall₂_congr hsame, hran.backed_iff (show privateFlags.toNat < 2 ^ 12 by decide) hend]
  exact ⟨fun hall => ⟨hroot, hend, hall⟩, fun hall => hall.2.2⟩

end

theorem ready_empty (hnodup : (results.filter (· ≠ 0)).Nodup) (hresults : ∀ f ∈ results, f ≠ root ∧ f < 2 ^ 52) :
    Ready ⟨fun _ _ => 0, results⟩ (update (fun _ => none) root (some (3, 0))) root := by
  refine ⟨fun _ _ _ _ _ _ hpres => ?_, ⟨hnodup, fun f hf _ => ?_⟩, update_self ..⟩
  · exact absurd hpres (show ¬ present 0 = true by decide)
  obtain ⟨hne, hlt⟩ := hresults f hf
  exact ⟨update_of_ne hne .., hlt⟩

/-- A program of one page at 0x400000. -/
def loadOnePage (new : Nat) (s : Supply) : Bool × Supply :=
  let (out, s) := (heapLoop new).run [0x400] s
  (out.length == 1, s)

/-- Memory with nothing mapped, and the frames to come. -/
def emptySupply (results : List Nat) : Supply := ⟨fun _ _ => 0, results⟩

def kernRoot : Places := update (fun _ => none) 256 (some (3, 0))

theorem loadOnePage_kept (h : Ready s place new) : ∀ page ∈ stackPages,
    leaf (loadOnePage new s).2.mem 3 new page = leaf s.mem 3 new page := by
  obtain ⟨-, hran⟩ := MapLoop.run_spec (l := heapLoop new) h (fun _ hsync => by cases hsync) (fun _ => rfl)
    (pairwise_singleton _ 0x400)
  intro page hpage
  refine hran.other page fun p hp => ?_
  obtain rfl := mem_singleton.mp hp
  revert page
  decide

theorem granted_append (h : 0 ∉ used) (hs : s.results = used ++ rest) (hs' : s'.results = rest) :
    Granted s s' := ⟨used, by rw [hs', hs], h⟩

end NyanOS.Memory
