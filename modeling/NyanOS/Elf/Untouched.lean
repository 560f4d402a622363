import NyanOS.Elf.Loader
import NyanOS.Memory.KernelSpace
import NyanOS.Memory.UpperHalf

/-!
# What the loader leaves alone

The upper half of an address space is the kernel's. The loader keeps to the lower half, and to frames that it took
itself or that user programs can reach, exactly as long as the file asks for nothing else.
-/
namespace NyanOS.Elf

open Lib Memory List

/-- A page below `0x0000800000000000`, as the processor finds it. -/
def InUser (page : Nat) : Prop := tableIndex 3 page < limit 3

instance (page : Nat) : Decidable (InUser page) := inferInstanceAs (Decidable (_ < _))

/-- Every entry on the way to the page has the user bit. -/
def userAccess (mem : Nat → Nat → Memory.Word) : Nat → Nat → Nat → Bool
  | 0, table, page => present (mem table (tableIndex 0 page)) && user (mem table (tableIndex 0 page))
  | depth + 1, table, page =>
    let entry := mem table (tableIndex (depth + 1) page)
    present entry && user entry && userAccess mem depth (frameOf entry) page

/-- A frame that user programs can reach. -/
def UserFrame (m : Machine) (pml4 frame : Nat) : Prop :=
  ∃ page, userAccess m.mem 3 pml4 page = true ∧ phys m pml4 page = frame

variable {m m' m₀ : Machine} {r page u i f g depth table v : Nat} {x y : Loading} {file : File} {new : List Nat}
  {op : Op} {ops : List Op}

theorem phys_eq : phys m r page = if present (leaf m.mem 3 r page) then frameOf (leaf m.mem 3 r page) else 0 := by
  rw [phys, vmmVirt2Phys_eq]
  split <;> rfl

/-! ### Mapping a page -/

/-- A frame is taken and tables are added; the page has a new entry, if there was memory for its tables. -/
structure PageSpec (m m' : Machine) (r page f : Nat) (new : List Nat) : Prop where
  grow : Grow m.pmm m'.pmm (f :: new) fun _ => 0
  tables : (tables m'.mem 3 r).Perm (new ++ tables m.mem 3 r)
  keeps : Keeps m m' (NyanOS.Memory.tables m.mem 3 r)
  leaf : ∀ u, InUser u → leaf m'.mem 3 r u = leaf m.mem 3 r u ∨
    SamePath 3 u page ∧ NyanOS.Memory.leaf m'.mem 3 r u = mkPte f privateFlags
  upper : ∀ i, limit 3 ≤ i → m'.mem r i = m.mem r i

theorem remapDrop_absent {p : Pmm} (h : phys m r page = 0) : remapDrop p (leaf m.mem 3 r page) f = p := by
  rw [phys_eq] at h
  rw [remapDrop]
  split
  · next hc =>
    rw [if_pos hc.1] at h
    rw [h]
    rfl
  · rfl

theorem vmmMapPage_user (f : Nat) (flags : Memory.Word) (ht : TreeOk m 3 r) (hv : InUser page) (h0 : phys m r page = 0) :
    ∃ new m₁, WalkSpec m m₁ 3 r new ∧ (∀ i, limit 3 ≤ i → m₁.mem r i = m.mem r i) ∧
      ((vmmMapPage m r page f flags).2 = m₁ ∨
        ∃ t j, slot m₁.mem 3 r page = some (t, j) ∧ (vmmMapPage m r page f flags).2 = m₁.set t j (mkPte f flags)) := by
  obtain ⟨new, hspec, hslot, -⟩ := walkToPte_spec ht le_rfl hv
  have hupper : ∀ i, limit 3 ≤ i → (walkToPte true 3 r page m).2.mem r i = m.mem r i := fun i hi => walk_upper ht hv hi
  refine ⟨new, _, hspec, hupper, ?_⟩
  rw [vmmMapPage, vmmWalkToPte]
  generalize walkToPte true 3 r page m = res at hspec hslot hupper
  obtain ⟨place, m₁⟩ := res
  cases place with
  | none => exact .inl rfl
  | some place =>
    obtain ⟨t, j⟩ := place
    refine .inr ⟨t, j, hslot.symm, ?_⟩
    have hleaf : m₁.mem t j = leaf m.mem 3 r page := (leaf_of_slot hslot.symm).symm.trans (hspec.leaf page hv)
    have hpmm : remapDrop m₁.pmm (m₁.mem t j) f = m₁.pmm := by
      rw [hleaf]
      exact remapDrop_absent h0
    show ({ m₁ with pmm := remapDrop m₁.pmm (m₁.mem t j) f } : Machine).set t j _ = _
    rw [hpmm]

/-- A free frame that is taken and cleared. -/
structure Cleared (m m₁ : Machine) (r f : Nat) : Prop where
  tree : TreeOk m₁ 3 r
  tables : tables m₁.mem 3 r = tables m.mem 3 r
  leaf : ∀ u, InUser u → leaf m₁.mem 3 r u = leaf m.mem 3 r u
  other : ∀ g, g ≠ f → m₁.mem g = m.mem g
  zero : m₁.mem f = fun _ => 0
  notTable : f ∉ NyanOS.Memory.tables m.mem 3 r

theorem cleared_take (ht : TreeOk m 3 r) (hlow : 256 ≤ f) (hhigh : f < m.pmm.totalPages)
    (hclear : m.pmm.bitmap f = false) : Cleared m ((m.take f).fill f fun _ => 0) r f := by
  have hnot : f ∉ tables m.mem 3 r := fun hf => Bool.false_ne_true (hclear.symm.trans (ht.bits f hf))
  have hother : ∀ g, g ≠ f → ((m.take f).fill f fun _ => 0).mem g = m.mem g := fun g hg => mem_fill_of_ne _ hg
  have hin : ∀ g ∈ tables m.mem 3 r, ((m.take f).fill f fun _ => 0).mem g = m.mem g := by
    intro g hg
    refine hother g ?_
    rintro rfl
    exact hnot hg
  have hgrow := grow_take ht.pmm hlow hhigh hclear
  have htables := tables_congr hin
  refine ⟨⟨hgrow.ok, htables ▸ ht.nodup, fun g hg => ?_⟩, htables, fun u hu => leaf_congr hin hu le_rfl, hother,
    mem_fill_self _, hnot⟩
  rw [htables] at hg
  exact hgrow.bit_mono (ht.bits g hg)

theorem mapZeroPage_cases (ht : TreeOk m 3 r) (hv : InUser page) (h0 : phys m r page = 0) :
    (mapZeroPage m r page).1 = 0 ∧ (mapZeroPage m r page).2.2 = m ∨
    ∃ f new, (mapZeroPage m r page).1 = f ∧ f ≠ 0 ∧ PageSpec m (mapZeroPage m r page).2.2 r page f new := by
  rcases pmmAllocFrame_cases ht.pmm with ⟨hfull, -⟩ | ⟨f, hf, hlow, hhigh, hclear⟩
  · refine .inl ?_
    rw [mapZeroPage, hfull]
    exact ⟨rfl, rfl⟩
  have hne : f ≠ 0 := by omega
  have hgrow := grow_take ht.pmm hlow hhigh hclear
  rw [mapZeroPage, hf]
  simp only [if_neg hne]
  have hcleared := cleared_take ht hlow hhigh hclear
  generalize hm₁ : (m.take f).fill f (fun _ => 0) = m₁ at hcleared
  obtain ⟨ht₁, htables, hleaf, hmem, -, hnot⟩ := hcleared
  have hpmm : m₁.pmm = m.pmm.take f := by rw [← hm₁]; rfl
  have h0₁ : phys m₁ r page = 0 := by
    rw [phys_eq, hleaf page hv, ← phys_eq]
    exact h0
  obtain ⟨new, m₂, hspec, hupper, hend⟩ := vmmMapPage_user f privateFlags ht₁ hv h0₁
  have hrf : r ≠ f := by
    rintro rfl
    exact hnot table_mem_tables
  have hwalk : PageSpec m m₂ r page f new := by
    refine ⟨?_, htables ▸ hspec.tables, fun g hbit hg => ?_, fun u hu => .inl ?_, fun i hi => ?_⟩
    · exact hgrow.trans (hpmm ▸ hspec.grow) fun _ _ => rfl
    · have hgf : g ≠ f := Pmm.bit_ne hbit hclear
      rw [hspec.keeps g (by rw [hpmm]; exact hgrow.bit_mono hbit) (by rwa [htables]), hmem g hgf]
    · exact (hspec.leaf u hu).trans (hleaf u hu)
    · rw [hupper i hi, hmem r hrf]
  refine .inr ⟨f, new, rfl, hne, ?_⟩
  rcases hend with heq | ⟨t, j, hslot, heq⟩
  · rw [heq]
    exact hwalk
  -- the store goes to a table of the tree, and not to the topmost
  have hnd := (hspec.treeOk ht₁).nodup
  have htmem : t ∈ tables m₂.mem 3 r := slot_mem_tables hslot le_rfl hv
  rw [heq]
  refine ⟨hwalk.grow, ?_, fun g hbit hg => ?_, fun u hu => ?_, fun i hi => ?_⟩
  · rw [tables_set_slot hnd le_rfl hv hslot]
    exact hwalk.tables
  · have hgt : g ≠ t := by
      rintro rfl
      rcases mem_append.mp (hwalk.tables.mem_iff.mp htmem) with hnew | hold
      · exact hwalk.grow.not_new hbit (mem_cons_of_mem f hnew)
      · exact hg hold
    rw [mem_set_of_ne hgt]
    exact hwalk.keeps g hbit hg
  · rw [leaf_set_slot hnd le_rfl hv hu hslot]
    split
    · next hsame => exact .inr ⟨hsame, rfl⟩
    · exact hwalk.leaf u hu
  · rw [mem_set_of_ne (slot_ne_root hnd hv hslot)]
    exact hwalk.upper i hi

/-! ### What a call may do -/

/-- The frames that the loader has taken. -/
def taken (frames : List Nat) : Event → List Nat
  | .take f => f :: frames
  | _ => frames

/-- Only pages of the lower half are mapped, and the file is written to frames that the loader took before or that
user programs could reach when it began. -/
def EventOk (m₀ : Machine) (r : Nat) (frames : List Nat) : Event → Prop
  | .take _ => True
  | .map page => InUser page
  | .write f => f ∈ frames ∨ UserFrame m₀ r f

/-- The kernel is as it was: the pages of the upper half, and every frame in use that is neither a table of the lower
half nor within reach of user programs. -/
structure Untouched (m₀ : Machine) (r : Nat) (y : Loading) : Prop where
  events : Along taken (EventOk m₀ r) [] y.events
  upper : ∀ page, ¬ InUser page → leaf y.machine.mem 3 r page = leaf m₀.mem 3 r page
  kernel : ∀ g, m₀.pmm.bitmap g = true → g ∉ tables m₀.mem 3 r → ¬ UserFrame m₀ r g → y.machine.mem g = m₀.mem g

/-- An address space whose upper half has the kernel's tables: all tables are in use and no two are the same, and user
programs can reach none of them. Frames that are mapped are in use, unless they are no memory. -/
structure SpaceOk (m : Machine) (r : Nat) : Prop where
  tree : TreeOk m 3 r
  kernel : ∀ i, limit 3 ≤ i → i < 512 → present (m.mem r i) = true → ∀ g ∈ tables m.mem 2 (frameOf (m.mem r i)),
    m.pmm.bitmap g = true ∧ g ∉ tables m.mem 3 r ∧ ¬ UserFrame m r g
  apart : ∀ f, UserFrame m r f → f ∉ tables m.mem 3 r
  inUse : ∀ page, phys m r page ≠ 0 → m.pmm.bitmap (phys m r page) = true ∨ m.pmm.totalPages ≤ phys m r page

/-- An operation keeps to the lower half: a page of the upper half is mapped already, and a page that is mapped already
can be reached by user programs if it is written to. -/
def OpOk (m₀ : Machine) (r : Nat) : Op → Prop
  | .map page => InUser page ∨ phys m₀ r page ≠ 0
  | .copy page _ n _ => n = 0 ∨ phys m₀ r page = 0 ∨ UserFrame m₀ r (phys m₀ r page)

/-! ### While the loader runs -/

def Loading.frames (x : Loading) : List Nat := x.events.foldl taken []

structure Loaded (m₀ : Machine) (r : Nat) (x : Loading) : Prop where
  tree : TreeOk x.machine 3 r
  bits : ∀ g, m₀.pmm.bitmap g = true → x.machine.pmm.bitmap g = true
  total : x.machine.pmm.totalPages = m₀.pmm.totalPages
  grown : ∀ g ∈ tables x.machine.mem 3 r, g ∈ tables m₀.mem 3 r ∨
    m₀.pmm.bitmap g = false ∧ g < m₀.pmm.totalPages
  entries : ∀ i, limit 3 ≤ i → x.machine.mem r i = m₀.mem r i
  kernel : ∀ g, m₀.pmm.bitmap g = true → g ∉ tables m₀.mem 3 r → ¬ UserFrame m₀ r g →
    x.machine.mem g = m₀.mem g
  kept : ∀ u, InUser u → phys m₀ r u ≠ 0 → leaf x.machine.mem 3 r u = leaf m₀.mem 3 r u
  fresh : ∀ u, InUser u → phys m₀ r u = 0 → phys x.machine r u ≠ 0 →
    phys x.machine r u ∈ x.frames ∧ phys x.machine r u ∉ tables x.machine.mem 3 r
  own : ∀ g ∈ x.frames, m₀.pmm.bitmap g = false ∧ g < m₀.pmm.totalPages ∧ x.machine.pmm.bitmap g = true
  events : Along taken (EventOk m₀ r) [] x.events

theorem leaf_samePath {mem : Nat → Nat → Memory.Word} (h : SamePath depth u v) :
    leaf mem depth table u = leaf mem depth table v := by
  induction depth generalizing table with
  | zero => rw [leaf, leaf, samePath_zero.mp h]
  | succ depth ih =>
    obtain ⟨hidx, hsub⟩ := samePath_succ.mp h
    simp only [leaf, hidx, ih hsub]

theorem phys_mkPte (hf : f < 2 ^ 52) (h : leaf m.mem 3 r u = mkPte f privateFlags) : phys m r u = f := by
  rw [phys_eq, h, present_mkPte, if_pos rfl, frameOf_mkPte hf (by decide)]

theorem phys_congr (h : leaf m'.mem 3 r u = leaf m.mem 3 r u) : phys m' r u = phys m r u := by
  rw [phys_eq, phys_eq, h]

namespace Loaded

theorem start (hs : SpaceOk m₀ r) : Loaded m₀ r ⟨m₀, []⟩ := by
  refine ⟨hs.tree, fun _ h => h, rfl, fun _ => .inl, fun _ _ => rfl, fun _ _ _ _ => rfl, fun _ _ _ => rfl,
    fun u _ h0 hne => absurd h0 hne, fun g hg => ?_, trivial⟩
  cases hg

section

variable (h : Loaded m₀ r x)
include h

theorem upper (hs : SpaceOk m₀ r) (hv : ¬ InUser page) : leaf x.machine.mem 3 r page = leaf m₀.mem 3 r page := by
  have hlow : limit 3 ≤ tableIndex (2 + 1) page := not_lt.mp hv
  refine leaf_other (by decide) (h.entries _ hlow) fun g hg => ?_
  rw [below] at hg
  split at hg
  · next hp =>
    obtain ⟨hbit, hnot, huser⟩ := hs.kernel _ hlow tableIndex_lt hp g hg
    exact h.kernel g hbit hnot huser
  · cases hg

theorem phys_kept (hs : SpaceOk m₀ r) (hne : phys m₀ r page ≠ 0) : phys x.machine r page = phys m₀ r page := by
  by_cases hv : InUser page
  · exact phys_congr (h.kept page hv hne)
  · exact phys_congr (h.upper hs hv)

theorem not_table (hbit : m₀.pmm.bitmap g = true ∨ m₀.pmm.totalPages ≤ g)
    (hg : g ∉ tables m₀.mem 3 r) : g ∉ tables x.machine.mem 3 r := by
  intro hmem
  rcases h.grown g hmem with hold | ⟨hclear, hlt⟩
  · exact hg hold
  rcases hbit with hbit | hle
  · exact Bool.false_ne_true (hclear.symm.trans hbit)
  · exact absurd hlt (not_lt.mpr hle)

theorem map (hv : InUser page) (h0 : phys x.machine r page = 0) (hspec : PageSpec x.machine m' r page f new) :
    Loaded m₀ r ⟨m', x.events ++ [.take f, .map page]⟩ := by
  have hframes : (⟨m', x.events ++ [.take f, .map page]⟩ : Loading).frames = f :: x.frames := by
    rw [Loading.frames, foldl_append]
    rfl
  obtain ⟨hflow, hftotal, hfclear⟩ := hspec.grow.fresh f mem_cons_self
  have hfclear₀ : m₀.pmm.bitmap f = false := by
    cases hbit : m₀.pmm.bitmap f with
    | false => rfl
    | true => exact (hfclear.symm.trans (h.bits f hbit)).symm
  obtain ⟨hfnew, hnd⟩ := nodup_cons.mp hspec.grow.nodup
  have hmem : ∀ g, g ∈ tables m'.mem 3 r ↔ g ∈ new ∨ g ∈ tables x.machine.mem 3 r := fun g => by
    rw [hspec.tables.mem_iff, mem_append]
  have hnew : ∀ g ∈ new, x.machine.pmm.bitmap g = false := fun g hg =>
    (hspec.grow.fresh g (mem_cons_of_mem f hg)).2.2
  have hmono : ∀ g, x.machine.pmm.bitmap g = true → m'.pmm.bitmap g = true := fun g hg => hspec.grow.bit_mono hg
  have hf52 : f < 2 ^ 52 := lt_of_lt_of_le hftotal h.tree.pmm.total
  refine ⟨⟨hspec.grow.ok, ?_, fun g hg => ?_⟩, fun g hg => hmono g (h.bits g hg), hspec.grow.total.trans h.total,
    fun g hg => ?_, fun i hi => (hspec.upper i hi).trans (h.entries i hi), fun g hbit hg huser => ?_,
    fun u hu hne => ?_, fun u hu hz hne => ?_, fun g hg => ?_, ?_⟩
  · rw [hspec.tables.nodup_iff, nodup_append']
    exact ⟨hnd, h.tree.nodup, fun g hg hold => Bool.false_ne_true ((hnew g hg).symm.trans (h.tree.bits g hold))⟩
  · rcases (hmem g).mp hg with hg | hg
    · exact hspec.grow.bit_new (mem_cons_of_mem f hg)
    · exact hmono g (h.tree.bits g hg)
  · rcases (hmem g).mp hg with hg | hg
    · refine .inr ⟨?_, h.total ▸ (hspec.grow.fresh g (mem_cons_of_mem f hg)).2.1⟩
      cases hbit : m₀.pmm.bitmap g with
      | false => rfl
      | true => exact ((hnew g hg).symm.trans (h.bits g hbit)).symm
    · exact h.grown g hg
  · rw [hspec.keeps g (h.bits g hbit) (h.not_table (.inl hbit) hg)]
    exact h.kernel g hbit hg huser
  · rcases hspec.leaf u hu with hsame | ⟨hpath, -⟩
    · exact hsame.trans (h.kept u hu hne)
    -- the page itself was not mapped
    have hu0 : phys x.machine r u = 0 := by
      rw [phys_eq, leaf_samePath hpath, ← phys_eq]
      exact h0
    rw [phys_congr (h.kept u hu hne)] at hu0
    exact absurd hu0 hne
  · rw [hframes]
    rcases hspec.leaf u hu with hsame | ⟨-, hpte⟩
    · rw [phys_congr hsame] at hne ⊢
      obtain ⟨hown, hnot⟩ := h.fresh u hu hz hne
      refine ⟨mem_cons_of_mem f hown, fun hg => ?_⟩
      rcases (hmem _).mp hg with hg | hg
      · exact Bool.false_ne_true ((hnew _ hg).symm.trans (h.own _ hown).2.2)
      · exact hnot hg
    · rw [phys_mkPte hf52 hpte]
      refine ⟨mem_cons_self, fun hg => ?_⟩
      rcases (hmem _).mp hg with hg | hg
      · exact hfnew hg
      · exact Bool.false_ne_true (hfclear.symm.trans (h.tree.bits f hg))
  · rw [hframes] at hg
    rcases mem_cons.mp hg with rfl | hg
    · exact ⟨hfclear₀, h.total ▸ hftotal, hspec.grow.bit_new mem_cons_self⟩
    · obtain ⟨hclear, hlt, hbit⟩ := h.own g hg
      exact ⟨hclear, hlt, hmono g hbit⟩
  · exact along_append.mpr ⟨h.events, trivial, hv, trivial⟩

theorem write (hf : f ∉ tables x.machine.mem 3 r)
    (hok : f ∈ x.frames ∨ UserFrame m₀ r f) (hpmm : m'.pmm = x.machine.pmm)
    (hmem : ∀ g, g ≠ f → m'.mem g = x.machine.mem g) : Loaded m₀ r ⟨m', x.events ++ [.write f]⟩ := by
  have hframes : (⟨m', x.events ++ [.write f]⟩ : Loading).frames = x.frames := by
    rw [Loading.frames, foldl_append]
    rfl
  have hin : ∀ g ∈ tables x.machine.mem 3 r, m'.mem g = x.machine.mem g := by
    intro g hg
    refine hmem g ?_
    rintro rfl
    exact hf hg
  have htables := tables_congr hin
  have hleaf : ∀ u, InUser u → leaf m'.mem 3 r u = leaf x.machine.mem 3 r u := fun u hu => leaf_congr hin hu le_rfl
  refine ⟨⟨hpmm ▸ h.tree.pmm, htables ▸ h.tree.nodup, fun g hg => ?_⟩, ?_, ?_, fun g hg => ?_, fun i hi => ?_,
    fun g hbit hg huser => ?_, fun u hu hne => (hleaf u hu).trans (h.kept u hu hne), fun u hu hz hne => ?_, ?_, ?_⟩
  · rw [htables] at hg
    rw [hpmm]
    exact h.tree.bits g hg
  · rw [hpmm]
    exact h.bits
  · rw [hpmm]
    exact h.total
  · rw [htables] at hg
    exact h.grown g hg
  · rw [hin r table_mem_tables]
    exact h.entries i hi
  · rw [hmem g ?_, h.kernel g hbit hg huser]
    rintro rfl
    rcases hok with hown | huser'
    · exact Bool.false_ne_true ((h.own _ hown).1.symm.trans hbit)
    · exact huser huser'
  · rw [hframes]
    simp only [htables]
    rw [phys_congr (hleaf u hu)] at hne ⊢
    exact h.fresh u hu hz hne
  · rw [hframes, hpmm]
    exact h.own
  · exact along_append.mpr ⟨h.events, hok, trivial⟩

theorem untouched (hs : SpaceOk m₀ r) : Untouched m₀ r x := ⟨h.events, fun _ hv => h.upper hs hv, h.kernel⟩

end

end Loaded

/-! ### The operations -/

theorem storeBytes_pmm (offset n : Nat) (src : Bytes) : (storeBytes m f offset n src).pmm = m.pmm := by
  rw [storeBytes]
  generalize List.range n = l
  induction l generalizing m with
  | nil => rfl
  | cons k l ih => exact ih

theorem storeBytes_of_ne (offset n : Nat) (src : Bytes) (hg : g ≠ f) :
    (storeBytes m f offset n src).mem g = m.mem g := by
  rw [storeBytes]
  generalize List.range n = l
  induction l generalizing m with
  | nil => rfl
  | cons k l ih => exact ih.trans (mem_set_of_ne hg)

theorem exec_failed (hok : x.machine.pmm.Ok) (h : (op.exec r file x).1 = false) : (op.exec r file x).2 = x := by
  cases op with
  | map page =>
    rw [Op.exec] at h ⊢
    split at h
    · cases h
    next hp =>
    rw [if_neg hp]
    rcases pmmAllocFrame_cases hok with ⟨hfull, -⟩ | ⟨f, hf, hlow, -⟩
    · simp only [mapZeroPage, hfull, if_true]
    · simp only [mapZeroPage, hf, if_neg (show f ≠ 0 by omega)] at h
      cases h
  | copy page offset n src =>
    rw [Op.exec] at h ⊢
    split at h
    · next hz => rw [if_pos hz]
    · split at h <;> cases h

theorem exec_events (r : Nat) (file : File) (x : Loading) (op : Op) : ∃ es, (op.exec r file x).2.events = x.events ++ es := by
  cases op with
  | map page =>
    rw [Op.exec]
    split
    · exact ⟨[], (append_nil _).symm⟩
    generalize mapZeroPage x.machine r page = res
    obtain ⟨frame, mapped, m⟩ := res
    dsimp only
    split
    · exact ⟨[], (append_nil _).symm⟩
    · exact ⟨_, rfl⟩
  | copy page offset n src =>
    rw [Op.exec]
    split
    · exact ⟨[], (append_nil _).symm⟩
    split
    · exact ⟨[], (append_nil _).symm⟩
    · exact ⟨_, rfl⟩

theorem execAll_failed (h : (op.exec r file x).1 = false) :
    execAll r file (op :: ops) x = ([], false, (op.exec r file x).2) := by
  rw [execAll]
  generalize op.exec r file x = res at h
  obtain ⟨ok, y⟩ := res
  obtain rfl : ok = false := h
  rfl

theorem execAll_done (h : (op.exec r file x).1 = true) : execAll r file (op :: ops) x =
      (op :: (execAll r file ops (op.exec r file x).2).1, (execAll r file ops (op.exec r file x).2).2) := by
  rw [execAll]
  generalize op.exec r file x = res at h
  obtain ⟨ok, y⟩ := res
  obtain rfl : ok = true := h
  rfl

theorem execAll_events (ops : List Op) : ∃ es, (execAll r file ops x).2.2.events = x.events ++ es := by
  induction ops generalizing x with
  | nil => exact ⟨[], (append_nil _).symm⟩
  | cons op ops ih =>
    obtain ⟨es, hes⟩ := exec_events r file x op
    cases hdone : (op.exec r file x).1 with
    | false =>
      rw [execAll_failed hdone]
      exact ⟨es, hes⟩
    | true =>
      obtain ⟨fs, hfs⟩ := ih (x := (op.exec r file x).2)
      refine ⟨es ++ fs, ?_⟩
      rw [execAll_done hdone, ← append_assoc, ← hes]
      exact hfs

namespace Loaded

theorem target {n offset src : Nat} (h : Loaded m₀ r x) (hs : SpaceOk m₀ r) (hok : OpOk m₀ r (.copy page offset n src))
    (hn : n ≠ 0) (hne : phys x.machine r page ≠ 0) : phys x.machine r page ∉ tables x.machine.mem 3 r ∧
      (phys x.machine r page ∈ x.frames ∨ UserFrame m₀ r (phys x.machine r page)) := by
  by_cases h0 : phys m₀ r page = 0
  · have hv : InUser page := by
      by_contra hv
      rw [phys_congr (h.upper hs hv)] at hne
      exact hne h0
    obtain ⟨hown, hnot⟩ := h.fresh page hv h0 hne
    exact ⟨hnot, .inl hown⟩
  · have huser : UserFrame m₀ r (phys m₀ r page) := (hok.resolve_left hn).resolve_left h0
    rw [h.phys_kept hs h0]
    exact ⟨h.not_table (hs.inUse page h0) (hs.apart _ huser), .inr huser⟩

section
variable (h : Loaded m₀ r x) (hs : SpaceOk m₀ r)
include h hs

theorem exec (hok : OpOk m₀ r op) : Loaded m₀ r (op.exec r file x).2 := by
  cases op with
  | map page =>
    rw [Op.exec]
    split
    · exact h
    next hp =>
    have h0 : phys x.machine r page = 0 := not_not.mp hp
    have hv : InUser page := by
      rcases hok with hv | hne
      · exact hv
      · rw [h.phys_kept hs hne] at h0
        exact absurd h0 hne
    rcases mapZeroPage_cases h.tree hv h0 with ⟨hf, hm⟩ | ⟨f, new, hf, hne, hspec⟩
    · simp only [hf, hm, if_true]
      exact h
    · simp only [hf, if_neg hne]
      exact h.map hv h0 hspec
  | copy page offset n src =>
    rw [Op.exec]
    split
    · exact h
    next hne =>
    split
    · exact h
    next hn =>
    obtain ⟨hnot, hframe⟩ := h.target hs hok hn hne
    exact h.write hnot hframe (storeBytes_pmm _ _ _) fun g hg => storeBytes_of_ne _ _ _ hg

theorem exec_bad (hbad : ¬ OpOk m₀ r op)
    (hdone : (op.exec r file x).1 = true) : ¬ Along taken (EventOk m₀ r) [] (op.exec r file x).2.events := by
  cases op with
  | map page =>
    obtain ⟨hv, hz⟩ := not_or.mp hbad
    have h0 : phys x.machine r page = 0 := by
      rw [phys_congr (h.upper hs hv)]
      exact not_not.mp hz
    rw [Op.exec, if_neg (not_not.mpr h0)] at hdone ⊢
    generalize mapZeroPage x.machine r page = res at hdone
    obtain ⟨frame, mapped, m⟩ := res
    dsimp only at hdone ⊢
    split at hdone
    · cases hdone
    next hf =>
    rw [if_neg hf]
    intro halong
    exact hv (along_append.mp halong).2.2.1
  | copy page offset n src =>
    obtain ⟨hn, hrest⟩ := not_or.mp hbad
    obtain ⟨hne, huser⟩ := not_or.mp hrest
    rw [Op.exec, h.phys_kept hs hne, if_neg hne, if_neg hn]
    intro halong
    rcases (along_append.mp halong).2.1 with hown | huser'
    · obtain ⟨hclear, hlt, -⟩ := h.own _ hown
      rcases hs.inUse page hne with hbit | hle
      · exact Bool.false_ne_true (hclear.symm.trans hbit)
      · exact absurd hlt (not_lt.mpr hle)
    · exact huser huser'

theorem execAll_iff : Untouched m₀ r (execAll r file ops x).2.2 ↔ ∀ op ∈ (execAll r file ops x).1, OpOk m₀ r op := by
  induction ops generalizing x with
  | nil => exact ⟨fun _ op hop => absurd hop not_mem_nil, fun _ => h.untouched hs⟩
  | cons op ops ih =>
    cases hdone : (op.exec r file x).1 with
    | false =>
      rw [execAll_failed hdone, exec_failed h.tree.pmm hdone]
      exact ⟨fun _ op hop => absurd hop not_mem_nil, fun _ => h.untouched hs⟩
    | true =>
      rw [execAll_done hdone, forall_mem_cons]
      by_cases hok : OpOk m₀ r op
      · rw [ih (h.exec hs hok)]
        exact (and_iff_right hok).symm
      refine ⟨fun hsafe => ?_, fun hall => absurd hall.1 hok⟩
      obtain ⟨es, hes⟩ := execAll_events (r := r) (x := (op.exec r file x).2) ops
      have halong := hsafe.events
      rw [hes] at halong
      exact absurd (along_append.mp halong).1 (h.exec_bad hs hok hdone)

end

end Loaded

/-- A small machine: below entry 511 of the PML4 in frame 256 there is one page, of frame 260. -/
def smallKernel : Machine where
  pmm := ⟨fun i => decide (i < 261), fun _ => 0, 300, 261⟩
  mem f i :=
    if f = 256 ∧ i = 511 then mkPte 257 kernFlags
    else if f = 257 ∧ i = 510 then mkPte 258 kernFlags
    else if f = 258 ∧ i = 0 then mkPte 259 kernFlags
    else if f = 259 ∧ i = 0 then mkPte 260 kernFlags
    else 0

/-- A file with one segment of one byte at an address. -/
def oneSegment (vaddr : Nat) : Input where
  file := ⟨put64 (put64 (put64 (put32 (put16 (put16 (put64 (put64 (put32 (fun _ => 0) 0 0x464C457F) 24 0x400000)
    32 64) 54 56) 56 1) 64 1) 80 vaddr) 96 1) 104 1, 120⟩
  stack := fun _ => 0
  heap := fun _ => 0
  room := true

theorem smallKernel_user (page : Nat) : userAccess smallKernel.mem 3 256 page = false := by
  rw [userAccess]
  by_cases h : tableIndex (2 + 1) page = 511
  · rw [h]
    rfl
  have hzero : smallKernel.mem 256 (tableIndex (2 + 1) page) = 0 := by simp [smallKernel, h]
  rw [hzero]
  rfl

theorem smallKernel_userFrame : ¬ UserFrame smallKernel 256 f := by
  rintro ⟨page, huser, -⟩
  exact Bool.false_ne_true ((smallKernel_user page).symm.trans huser)

theorem smallKernel_phys (page : Nat) : phys smallKernel 256 page < 261 := by
  have hentry : ∀ f i, frameOf (smallKernel.mem f i) < 261 := by
    intro f i
    simp only [smallKernel]
    split_ifs <;> decide
  rw [phys_eq]
  split
  · cases hslot : slot smallKernel.mem 3 256 page with
    | none =>
      rw [leaf_of_slot_none hslot]
      decide
    | some place =>
      rw [leaf_of_slot hslot]
      exact hentry _ _
  · decide

theorem smallKernel_ok : SpaceOk smallKernel 256 := by
  have htables : tables smallKernel.mem 3 256 = [256] := by decide +kernel
  refine ⟨⟨⟨fun i hi => decide_eq_true (by omega), by decide, by decide⟩, ?_, ?_⟩, ?_, ?_, ?_⟩
  · rw [htables]
    exact nodup_singleton 256
  · rw [htables]
    intro g hg
    obtain rfl := mem_singleton.mp hg
    rfl
  · intro i _ _ hp g hg
    obtain rfl : i = 511 := by
      by_contra hi
      have hzero : smallKernel.mem 256 i = 0 := by simp [smallKernel, hi]
      rw [hzero] at hp
      cases hp
    have hkern : tables smallKernel.mem 2 (frameOf (smallKernel.mem 256 511)) = [257, 258, 259] := by decide +kernel
    rw [hkern] at hg
    refine ⟨?_, ?_, smallKernel_userFrame⟩
    · have hlt : g < 261 := by
        simp only [mem_cons, not_mem_nil, or_false] at hg
        omega
      exact decide_eq_true hlt
    · rw [htables]
      simp only [mem_cons, not_mem_nil, or_false] at hg ⊢
      omega
  · exact fun f huser => absurd huser smallKernel_userFrame
  · exact fun page _ => .inl (decide_eq_true (smallKernel_phys page))

end NyanOS.Elf
