import NyanOS.Fat.Chains
import NyanOS.Fat.Names

/-!
# Directories

A directory is the list of the slots of its clusters. What the walks over its sectors find is stated on this list.
-/
namespace NyanOS.Fat

open Lib List

variable {σ : Type} {g : Geometry} {w : View} {c fuel lba idx count : Nat} {xs is js : List Nat} {s : σ}
  {look : Nat → Bytes → σ → Visit σ} {cb : σ → Bytes → Location → σ × Bool} {fname : List Byte} {name ext buf e : Bytes}

/-- A cluster and the number of an entry in it. -/
abbrev Slot := Nat × Nat

/-- The slots of a directory with these clusters. -/
def dirSlots (g : Geometry) (xs : List Nat) : List Slot :=
  xs.flatMap fun c => (range (g.sectorsPerCluster * 16)).map fun k => (c, k)

def Geometry.locate (g : Geometry) (p : Slot) : Location := ⟨g.clusterLba p.1 + p.2 / 16, p.2 % 16 * 32⟩

/-- The entry in a slot, as it is found in its sector. -/
def View.entry (w : View) (p : Slot) : Bytes := entryOf (w.sector p.1 (p.2 / 16)) (p.2 % 16)

def freeEntry (e : Bytes) : Bool := e 0 == 0 || e 0 == 0xE5

/-- The slots that are in use: those before the first that never was, without the deleted ones. -/
def listed (g : Geometry) (w : View) (xs : List Nat) : List Slot :=
  ((dirSlots g xs).takeWhile fun p => w.entry p 0 ≠ 0).filter fun p => w.entry p 0 ≠ 0xE5

/-! ### Walks over sectors -/

def Visit.result : Visit σ → Bool × σ
  | .more s => (false, s)
  | .stop s found => (found, s)

/-- The sectors of a directory, with their numbers. -/
def dirSectors (g : Geometry) (w : View) (xs : List Nat) : List (Nat × Bytes) :=
  xs.flatMap fun c => (range g.sectorsPerCluster).map fun i => (g.clusterLba c + i, w.sector c i)

/-- A look at one sector after the other. -/
def lookAll (look : Nat → Bytes → σ → Visit σ) : List (Nat × Bytes) → σ → Visit σ
  | [], s => .more s
  | (lba, buf) :: rest, s =>
    match look lba buf s with
    | .stop s found => .stop s found
    | .more s => lookAll look rest s

theorem lookAll_append {l l' : List (Nat × Bytes)} : lookAll look (l ++ l') s = match lookAll look l s with
    | .stop s found => .stop s found
    | .more s => lookAll look l' s := by
  induction l generalizing s with
  | nil => rfl
  | cons a l ih =>
    simp only [cons_append, lookAll]
    cases look a.1 a.2 s with
    | stop s found => rfl
    | more s => exact ih

theorem Does.walkSectors (hg : g.Ok) (hc : g.Cluster c) (his : ∀ i ∈ is, i < g.sectorsPerCluster) :
    Does g (walkSectors look (g.clusterLba c) is s) w
      (lookAll look (is.map fun i => (g.clusterLba c + i, w.sector c i)) s) w := by
  induction is generalizing s with
  | nil => exact .ret
  | cons i is ih =>
    obtain ⟨hi, his⟩ := forall_mem_cons.mp his
    have hle := hg.clusterLba_le hc
    have hread : Does g (ataReadSectors (g.clusterLba c + i) 1) w (w.sector c i) w := Does.readSectors hg hc hi
    rw [Fat.walkSectors, Nat.mod_eq_of_lt (by omega)]
    refine hread.bind ?_
    rw [map_cons, lookAll]
    cases look (g.clusterLba c + i) (w.sector c i) s with
    | stop s found => exact .ret
    | more s => exact ih his

theorem Does.walkDir (hg : g.Ok) (h : Links g w.fat c xs) (hfuel : xs.length ≤ fuel) :
    Does g (walkDir g look fuel c s) w (lookAll look (dirSectors g w xs) s).result w := by
  induction xs generalizing c fuel s with
  | nil =>
    rw [Fat.walkDir.eq_def]
    dsimp only
    cases h with
    | nil hfin =>
      rw [if_neg (by omega)]
      exact .ret
  | cons x xs ih =>
    cases h with
    | cons hcell hrest =>
      cases fuel with
      | zero => simp at hfuel
      | succ fuel =>
        have hsectors : ∀ i ∈ range g.sectorsPerCluster, i < g.sectorsPerCluster := fun i => mem_range.mp
        rw [Fat.walkDir, if_pos (hg.inChain hcell).2, hg.clusterToLba_eq hcell]
        refine (Does.walkSectors hg hcell hsectors).bind ?_
        rw [dirSectors, flatMap_cons, lookAll_append, ← dirSectors]
        cases lookAll look ((range g.sectorsPerCluster).map fun i => (g.clusterLba x + i, w.sector x i)) s with
        | stop s found => exact .ret
        | more s => exact (Does.readFat hg hcell.2).bind (ih hrest (by simpa using hfuel))

/-! ### Walks over entries -/

def dirEntries (g : Geometry) (w : View) (ps : List Slot) : List (Bytes × Location) :=
  ps.map fun p => (w.entry p, g.locate p)

/-- The entries of a sector. -/
def sectorEntries (a : Nat × Bytes) : List (Bytes × Location) :=
  (range 16).map fun j => (entryOf a.2 j, ⟨a.1, j * 32⟩)

theorem flatMap_range (F : Nat → σ) (n m : Nat) :
    ((range n).flatMap fun i => (range m).map fun j => F (i * m + j)) = (range (n * m)).map F := by
  induction n with
  | zero => simp
  | succ n ih =>
    rw [range_succ, flatMap_append, ih, Nat.succ_mul, range_add, map_append, flatMap_singleton, map_map]
    rfl

theorem sectorEntries_eq : (dirSectors g w xs).flatMap sectorEntries = dirEntries g w (dirSlots g xs) := by
  rw [dirSectors, dirEntries, dirSlots, flatMap_assoc, map_flatMap]
  congr 1
  funext c
  rw [map_map, flatMap_map, ← flatMap_range]
  congr 1
  funext i
  refine map_congr_left fun j hj => ?_
  have hlt := mem_range.mp hj
  simp only [Function.comp, View.entry, Geometry.locate]
  rw [show (i * 16 + j) / 16 = i by omega, show (i * 16 + j) % 16 = j by omega]

/-- The callback goes over entries that are in use. -/
def visitAll (cb : σ → Bytes → Location → σ × Bool) : List (Bytes × Location) → σ → Bool × σ
  | [], s => (false, s)
  | (e, loc) :: es, s =>
    match cb s e loc with
    | (s, true) => (true, s)
    | (s, false) => visitAll cb es s

/-- The same over all entries, as the loop does it. -/
def visitList (cb : σ → Bytes → Location → σ × Bool) : List (Bytes × Location) → σ → Visit σ
  | [], s => .more s
  | (e, loc) :: es, s =>
    if e 0 = 0 then .stop s false
    else if e 0 = 0xE5 then visitList cb es s
    else
      match cb s e loc with
      | (s, true) => .stop s true
      | (s, false) => visitList cb es s

theorem visitSlots_eq :
    visitSlots cb lba buf js s = visitList cb (js.map fun j => (entryOf buf j, ⟨lba, j * 32⟩)) s := by
  induction js generalizing s with
  | nil => rfl
  | cons j js ih =>
    simp only [visitSlots, map_cons, visitList]
    split
    · rfl
    split
    · exact ih
    cases cb s (entryOf buf j) ⟨lba, j * 32⟩ with
    | mk s found =>
      cases found with
      | true => rfl
      | false => exact ih

theorem visitList_append {l l' : List (Bytes × Location)} : visitList cb (l ++ l') s = match visitList cb l s with
    | .stop s found => .stop s found
    | .more s => visitList cb l' s := by
  induction l generalizing s with
  | nil => rfl
  | cons a l ih =>
    simp only [cons_append, visitList]
    split
    · rfl
    split
    · exact ih
    cases cb s a.1 a.2 with
    | mk s found =>
      cases found with
      | true => rfl
      | false => exact ih

theorem lookAll_visitSlots {l : List (Nat × Bytes)} :
    lookAll (fun lba buf => visitSlots cb lba buf (range 16)) l s = visitList cb (l.flatMap sectorEntries) s := by
  induction l generalizing s with
  | nil => rfl
  | cons a l ih =>
    simp only [lookAll]
    rw [flatMap_cons, visitList_append, visitSlots_eq, ← sectorEntries]
    cases visitList cb (sectorEntries a) s with
    | stop s found => rfl
    | more s => exact ih

/-- The entries in use among these. -/
def liveEntries (es : List (Bytes × Location)) : List (Bytes × Location) :=
  (es.takeWhile fun e => e.1 0 ≠ 0).filter fun e => e.1 0 ≠ 0xE5

theorem visitList_result {es : List (Bytes × Location)} : (visitList cb es s).result = visitAll cb (liveEntries es) s := by
  induction es generalizing s with
  | nil => rfl
  | cons a es ih =>
    rw [visitList]
    by_cases h0 : a.1 0 = 0
    · rw [if_pos h0, liveEntries, takeWhile_cons_of_neg (by simpa using h0)]
      rfl
    by_cases h5 : a.1 0 = 0xE5
    · rw [if_neg h0, if_pos h5, ih, liveEntries, liveEntries, takeWhile_cons_of_pos (by simpa using h0),
        filter_cons_of_neg (by simpa using h5)]
    rw [if_neg h0, if_neg h5, liveEntries, takeWhile_cons_of_pos (by simpa using h0),
      filter_cons_of_pos (by simpa using h5), ← liveEntries, visitAll]
    cases cb s a.1 a.2 with
    | mk s found =>
      cases found with
      | true => rfl
      | false => exact ih

variable {ps : List Slot}

theorem liveEntries_eq : liveEntries (dirEntries g w ps) =
    dirEntries g w ((ps.takeWhile fun p => w.entry p 0 ≠ 0).filter fun p => w.entry p 0 ≠ 0xE5) := by
  rw [liveEntries, dirEntries, takeWhile_map, filter_map, ← dirEntries]
  rfl

theorem Geometry.Ok.slotsPerSector_eq (hg : g.Ok) : g.slotsPerSector = 16 := by
  rw [Geometry.slotsPerSector, hg.sector]

/-- `fat32_iterate` shows the callback the slots in use, in order, until it says that it is done. -/
theorem Does.iterate (hg : g.Ok) (h : Links g w.fat c xs) (hfuel : xs.length ≤ fuel) :
    Does g (fat32Iterate g cb fuel c s) w (visitAll cb (dirEntries g w (listed g w xs)) s) w := by
  rw [fat32Iterate, hg.slotsPerSector_eq, listed, ← liveEntries_eq, ← visitList_result, ← sectorEntries_eq,
    ← lookAll_visitSlots]
  exact Does.walkDir hg h hfuel

/-! ### Lookups -/

/-- The first slot in use with this name. -/
def findSlot (g : Geometry) (w : View) (xs : List Nat) (name ext : Bytes) : Option Slot :=
  (listed g w xs).find? fun p => matchesEntry name ext (w.entry p)

theorem visitAll_findCb : visitAll (findCb name ext) (dirEntries g w ps) none =
    match ps.find? fun p => matchesEntry name ext (w.entry p) with
    | some p => (true, some (w.entry p, g.locate p))
    | none => (false, none) := by
  induction ps with
  | nil => rfl
  | cons p ps ih =>
    rw [dirEntries, map_cons, visitAll, findCb, ← matchesEntry, find?_cons, ← dirEntries]
    cases matchesEntry name ext (w.entry p) with
    | true => rfl
    | false => exact ih

theorem Does.findFile (hg : g.Ok) (h : Links g w.fat c xs) (hfuel : xs.length ≤ fuel)
    (hparse : fat32ParseName fname = some (name, ext)) :
    Does g (fat32FindFile g fuel c fname) w ((findSlot g w xs name ext).map fun p => (w.entry p, g.locate p)) w := by
  have hiter : Does g (fat32Iterate g (findCb name ext) fuel c none) w _ w := Does.iterate hg h hfuel
  rw [visitAll_findCb, ← findSlot] at hiter
  rw [fat32FindFile, hparse]
  refine hiter.bind ?_
  cases findSlot g w xs name ext with
  | none => exact .ret
  | some p => exact .ret

theorem findFile_none (hparse : fat32ParseName fname = none) : Does g (fat32FindFile g fuel c fname) w none w := by
  rw [fat32FindFile, hparse]
  exact .ret

/-- The node that `fat32_finddir` makes of an entry. -/
def nodeOf (e : Bytes) (loc : Location) : Node :=
  ⟨(if entryIsDirectory e then vfsDirectory else vfsFile) ||| vfsNodeAutofree, entryFileSize e, entryFirstCluster e,
    loc.sectorLba, loc.offset⟩

theorem Does.finddir {node : Node} {mem : Nat → Bool} (hg : g.Ok)
    (h : Links g w.fat node.firstCluster xs) (hfuel : xs.length ≤ fuel) (hparse : fat32ParseName fname = some (name, ext))
    (hmem : ∀ i, mem i = true) : Does g (fat32Finddir g fuel node fname mem) w
      ((findSlot g w xs name ext).map fun p => nodeOf (w.entry p) (g.locate p)) w := by
  refine (Does.findFile hg h hfuel hparse).bind ?_
  cases findSlot g w xs name ext with
  | none => exact .ret
  | some p =>
    simp only [Option.map_some, hmem, Bool.and_self, if_true]
    exact .ret

/-! ### Free slots -/

theorem lookAll_freeSlot {l : List (Nat × Bytes)} (hg : g.Ok) : (lookAll (freeSlot g) l none).result.2 =
    ((l.flatMap sectorEntries).find? fun e => freeEntry e.1).map Prod.snd := by
  induction l with
  | nil => rfl
  | cons a l ih =>
    have hsector : ((sectorEntries a).find? fun e => freeEntry e.1) =
        ((range 16).find? fun j => freeEntry (entryOf a.2 j)).map fun j => (entryOf a.2 j, ⟨a.1, j * 32⟩) := by
      rw [sectorEntries, find?_map]
      rfl
    rw [lookAll, freeSlot, hg.slotsPerSector_eq, flatMap_cons, find?_append, hsector]
    simp only [freeEntry]
    cases (range 16).find? fun j => entryOf a.2 j 0 == 0 || entryOf a.2 j 0 == 0xE5 with
    | some j => rfl
    | none => exact ih

/-- The first slot that is free. -/
def freeDirSlot (g : Geometry) (w : View) (xs : List Nat) : Option Slot :=
  (dirSlots g xs).find? fun p => freeEntry (w.entry p)

theorem Does.findFreeDirectoryEntry (hg : g.Ok) (h : Links g w.fat c xs) (hfuel : xs.length ≤ fuel) :
    Does g (fat32FindFreeDirectoryEntry g fuel c) w ((freeDirSlot g w xs).map g.locate) w := by
  have hresult : (lookAll (freeSlot g) (dirSectors g w xs) none).result.2 = (freeDirSlot g w xs).map g.locate := by
    rw [lookAll_freeSlot hg, sectorEntries_eq, dirEntries, find?_map, freeDirSlot, Option.map_map]
    rfl
  rw [← hresult]
  exact (Does.walkDir hg h hfuel).bind .ret

/-! ### Listings -/

/-- Neither a volume label nor a part of a long name. -/
def visible (e : Bytes) : Bool := !(e 11 == 0x0F || e 11 == 0x08)

theorem visible_iff : visible e = true ↔ ¬ (e 11 = 0x0F ∨ e 11 = 0x08) := by simp [visible]

def direntOf (e : Bytes) : Dirent := ⟨entryName e, if entryIsDirectory e then vfsDirectory else vfsFile, entryFileSize e⟩

/-- What `fat32_readdir` returns for one index after the other. -/
def listing (g : Geometry) (w : View) (xs : List Nat) : List Dirent :=
  ((listed g w xs).filter fun p => visible (w.entry p)).map fun p => direntOf (w.entry p)

theorem visitAll_readdirCb (hidx : count ≤ idx) (hcount : count + ps.length < 2 ^ 32) :
    (if (visitAll (readdirCb idx) (dirEntries g w ps) (count, none)).1 then
      (visitAll (readdirCb idx) (dirEntries g w ps) (count, none)).2.2 else none) =
      (((ps.filter fun p => visible (w.entry p)).map fun p => direntOf (w.entry p))[idx - count]?) := by
  induction ps generalizing count with
  | nil => rfl
  | cons p ps ih =>
    rw [length_cons] at hcount
    rw [dirEntries, map_cons, visitAll, readdirCb, ← dirEntries]
    by_cases hattr : w.entry p 11 = 0x0F ∨ w.entry p 11 = 0x08
    · rw [if_pos hattr, filter_cons_of_neg (by rw [visible_iff]; exact not_not_intro hattr)]
      exact ih hidx (by omega)
    rw [if_neg hattr, filter_cons_of_pos (by rw [visible_iff]; exact hattr), map_cons]
    by_cases heq : count = idx
    · subst heq
      rw [if_pos rfl, Nat.sub_self]
      rfl
    rw [if_neg heq, Nat.mod_eq_of_lt (by omega), show idx - count = idx - (count + 1) + 1 by omega,
      getElem?_cons_succ]
    exact ih (by omega) (by omega)

theorem length_dirSlots : (dirSlots g xs).length = xs.length * (g.sectorsPerCluster * 16) := by
  induction xs with
  | nil => simp [dirSlots]
  | cons x xs ih =>
    rw [dirSlots, flatMap_cons, length_append, ← dirSlots, ih, length_map, length_range,
      length_cons, Nat.succ_mul, add_comm]

theorem Links.slots_lt (hg : g.Ok) (h : Links g w.fat c xs) : (dirSlots g xs).length < 2 ^ 32 := by
  have hlen : xs.length * g.sectorsPerCluster ≤ (g.fatEntries - 2) * g.sectorsPerCluster :=
    Nat.mul_le_mul_right _ (h.length_le hg)
  have hmul := hg.fat_le
  have harea := hg.area
  rw [length_dirSlots, ← mul_assoc]
  cases xs with
  | nil => simp
  | cons x xs =>
    have hcell := h.cell_of_mem mem_cons_self
    have hpos : 2 < g.fatEntries := by have := hcell.1; have := hcell.2; omega
    simp only [Geometry.fatEntries] at hpos
    omega

theorem Does.readdir {node : Node} (hg : g.Ok) (h : Links g w.fat node.firstCluster xs)
    (hfuel : xs.length ≤ fuel) : Does g (fat32Readdir g fuel node idx) w (listing g w xs)[idx]? w := by
  have hlen : (listed g w xs).length ≤ (dirSlots g xs).length :=
    (length_filter_le _ _).trans (takeWhile_sublist _).length_le
  have hcount : 0 + (listed g w xs).length < 2 ^ 32 := by
    have := h.slots_lt hg
    omega
  have hvisit := visitAll_readdirCb (g := g) (w := w) (Nat.zero_le idx) hcount
  rw [Nat.sub_zero] at hvisit
  rw [listing, ← hvisit]
  exact (Does.iterate hg h hfuel).bind .ret

end NyanOS.Fat
