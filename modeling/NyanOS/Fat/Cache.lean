import NyanOS.Lib.Bytes

/-!
# The disk and the FAT cache (`drivers/ata.c`, `fs/fat32.c`)

The disk is a sequence of bytes; sector `n` starts at byte `512 * n`. The driver has 28 bits for a
sector number. The cache keeps sectors of the FAT, and every write goes through to the disk.
-/

namespace NyanOS.Fat

open Lib Function

abbrev Disk := Bytes

def sectorSize : Nat := 512
def fatCacheSize : Nat := 64

/-- The fields of the BPB that are used, and the place of the partition. -/
structure Geometry where
  bytesPerSector : Nat
  sectorsPerCluster : Nat
  reservedSectors : Nat
  fatsNum : Nat
  sectorsPerFat32 : Nat
  rootCluster : Nat
  partitionLba : Nat

def ataRead (d : Disk) (lba : Nat) : Bytes := fun k => d (sectorSize * (lba % 2 ^ 28) + k)

def ataWrite (d : Disk) (lba secCount : Nat) (src : Bytes) : Disk :=
  splice d (sectorSize * (lba % 2 ^ 28)) (sectorSize * secCount) src

structure CacheEntry where
  lba : Nat
  lastUsed : Nat
  valid : Bool
  data : Bytes

/-- The disk and the state of the driver. -/
structure Vol where
  disk : Disk
  cache : Nat → CacheEntry
  tick : Nat

def cacheSlot (v : Vol) (lba : Nat) : Option Nat :=
  (List.range fatCacheSize).find? fun i => (v.cache i).valid && (v.cache i).lba == lba

/-- The choice of the entry to replace: the first that is not valid, or the one used least lately. -/
def victimFrom (cache : Nat → CacheEntry) : List Nat → Nat → Nat
  | [], victim => victim
  | i :: is, victim =>
    if (cache i).valid then
      victimFrom cache is (if (cache i).lastUsed < (cache victim).lastUsed then i else victim)
    else i

def Vol.setCache (v : Vol) (i : Nat) (e : CacheEntry) : Vol :=
  { v with cache := update v.cache i e }

def fatCacheReadSector (v : Vol) (lba : Nat) : Bytes × Vol :=
  let tick := (v.tick + 1) % 2 ^ 32
  match cacheSlot v lba with
  | some i =>
    ((v.cache i).data, { v.setCache i { v.cache i with lastUsed := tick } with tick := tick })
  | none =>
    let victim := victimFrom v.cache (List.range fatCacheSize) 0
    let data := ataRead v.disk lba
    (data, { v.setCache victim ⟨lba, tick, true, data⟩ with tick := tick })

/-- The entry of a sector, if there is one, gets the new content. -/
def refreshSlot (v : Vol) (lba : Nat) (src : Bytes) (tick : Nat) : Nat → CacheEntry :=
  match cacheSlot v lba with
  | some i => update v.cache i { v.cache i with data := src, lastUsed := tick }
  | none => v.cache

def fatCacheWriteSector (v : Vol) (lba : Nat) (src : Bytes) : Vol :=
  let tick := (v.tick + 1) % 2 ^ 32
  ⟨ataWrite v.disk lba 1 src, refreshSlot v lba src tick, tick⟩

/-- The sectors of the first FAT. -/
def Geometry.fatStart (g : Geometry) : Nat := g.partitionLba + g.reservedSectors

/-- The number of entries in the FAT. -/
def Geometry.fatEntries (g : Geometry) : Nat := 128 * g.sectorsPerFat32

/-- Sectors of 512 bytes, and a sector on the disk for every cluster that the FAT can name. -/
structure Geometry.Ok (g : Geometry) : Prop where
  sector : g.bytesPerSector = 512
  cluster : 0 < g.sectorsPerCluster
  fats : 0 < g.fatsNum
  area : g.fatStart + g.fatsNum * g.sectorsPerFat32 + (g.fatEntries - 2) * g.sectorsPerCluster ≤ 2 ^ 28

/-- Valid entries hold sectors of the FAT, each one once, as they are on the disk. -/
structure Coherent (g : Geometry) (v : Vol) : Prop where
  data : ∀ i < fatCacheSize, (v.cache i).valid = true →
    ∀ k < sectorSize, (v.cache i).data k = v.disk (sectorSize * (v.cache i).lba + k)
  fat : ∀ i < fatCacheSize, (v.cache i).valid = true →
    g.fatStart ≤ (v.cache i).lba ∧ (v.cache i).lba < g.fatStart + g.sectorsPerFat32
  once : ∀ i < fatCacheSize, ∀ j < fatCacheSize, (v.cache i).valid = true → (v.cache j).valid = true →
    (v.cache i).lba = (v.cache j).lba → i = j

/-- The cache is invisible: the driver works on a disk with this content. -/
structure Shows (g : Geometry) (v : Vol) (d : Disk) : Prop where
  disk : v.disk = d
  coherent : Coherent g v

variable {g : Geometry} {v v' : Vol} {d d' : Disk} {lba i victim tick a b k n : Nat} {is : List Nat} {src : Bytes}

theorem Geometry.Ok.fat_le (hg : g.Ok) : g.sectorsPerFat32 ≤ g.fatsNum * g.sectorsPerFat32 := Nat.le_mul_of_pos_left _ hg.fats

theorem Geometry.Ok.fat_lt (hg : g.Ok) : g.fatStart + g.sectorsPerFat32 ≤ 2 ^ 28 := by
  have harea := hg.area
  have hmul := hg.fat_le
  omega

theorem cacheSlot_some (h : cacheSlot v lba = some i) :
    i < fatCacheSize ∧ (v.cache i).valid = true ∧ (v.cache i).lba = lba := by
  have hmem := List.mem_of_find?_eq_some h
  have hprop := List.find?_some h
  simp only [Bool.and_eq_true, beq_iff_eq] at hprop
  exact ⟨List.mem_range.mp hmem, hprop⟩

theorem cacheSlot_none (h : cacheSlot v lba = none) (hi : i < fatCacheSize)
    (hv : (v.cache i).valid = true) : (v.cache i).lba ≠ lba := by
  intro heq
  have := List.find?_eq_none.mp h i (List.mem_range.mpr hi)
  simp [hv, heq] at this

theorem victimFrom_lt {cache : Nat → CacheEntry} (his : ∀ j ∈ is, j < fatCacheSize)
    (hvictim : victim < fatCacheSize) : victimFrom cache is victim < fatCacheSize := by
  induction is generalizing victim with
  | nil => exact hvictim
  | cons j is ih =>
    obtain ⟨hj, his⟩ := List.forall_mem_cons.mp his
    simp only [victimFrom]
    split
    · refine ih his ?_
      split
      · exact hj
      · exact hvictim
    · exact hj

theorem Coherent.put {e : CacheEntry} (h : Coherent g v) (hi : i < fatCacheSize)
    (hdata : ∀ k < sectorSize, e.data k = v.disk (sectorSize * e.lba + k))
    (hfat : g.fatStart ≤ e.lba ∧ e.lba < g.fatStart + g.sectorsPerFat32)
    (hother : ∀ j < fatCacheSize, j ≠ i → (v.cache j).valid = true → (v.cache j).lba ≠ e.lba) :
    Coherent g { v.setCache i e with tick := tick } where
  data := by
    intro j hj hv k hk
    simp only [Vol.setCache, update_apply] at hv ⊢
    split
    · exact hdata k hk
    next hne =>
    rw [if_neg hne] at hv
    exact h.data j hj hv k hk
  fat := by
    intro j hj hv
    simp only [Vol.setCache, update_apply] at hv ⊢
    split
    · exact hfat
    next hne =>
    rw [if_neg hne] at hv
    exact h.fat j hj hv
  once := by
    intro j hj k hk hvj hvk heq
    simp only [Vol.setCache, update_apply] at hvj hvk heq
    by_cases hji : j = i <;> by_cases hki : k = i
    · rw [hji, hki]
    · rw [if_pos hji, if_neg hki] at heq
      rw [if_neg hki] at hvk
      exact absurd heq.symm (hother k hk hki hvk)
    · rw [if_neg hji, if_pos hki] at heq
      rw [if_neg hji] at hvj
      exact absurd heq (hother j hj hji hvj)
    rw [if_neg hji, if_neg hki] at heq
    rw [if_neg hji] at hvj
    rw [if_neg hki] at hvk
    exact h.once j hj k hk hvj hvk heq

theorem Shows.readSector (hlt : g.fatStart + g.sectorsPerFat32 ≤ 2 ^ 28) (h : Shows g v d) (hlo : g.fatStart ≤ lba)
    (hhi : lba < g.fatStart + g.sectorsPerFat32) : ∃ buf v', fatCacheReadSector v lba = (buf, v') ∧ Shows g v' d ∧
      ∀ k < sectorSize, buf k = d (sectorSize * lba + k) := by
  obtain ⟨rfl, hc⟩ := h
  unfold fatCacheReadSector
  cases hslot : cacheSlot v lba with
  | some i =>
    obtain ⟨hi, hv, rfl⟩ := cacheSlot_some hslot
    refine ⟨_, _, rfl, ⟨rfl, hc.put hi (hc.data i hi hv) (hc.fat i hi hv) ?_⟩, hc.data i hi hv⟩
    intro j hj hne hvj heq
    exact hne (hc.once j hj i hi hvj hv heq)
  | none =>
    have hread : ∀ k < sectorSize, ataRead v.disk lba k = v.disk (sectorSize * lba + k) := by
      intro k _
      rw [ataRead, Nat.mod_eq_of_lt (by omega)]
    have hvictim : victimFrom v.cache (List.range fatCacheSize) 0 < fatCacheSize :=
      victimFrom_lt (fun j hj => List.mem_range.mp hj) (by decide)
    refine ⟨_, _, rfl, ⟨rfl, hc.put hvictim hread ⟨hlo, hhi⟩ ?_⟩, hread⟩
    intro j hj _ hvj
    exact cacheSlot_none hslot hj hvj

theorem sector_apart (hk : k < sectorSize) (hne : a ≠ b) :
    sectorSize * a + k < sectorSize * b ∨ sectorSize * b + sectorSize * 1 ≤ sectorSize * a + k := by
  simp only [sectorSize] at hk ⊢
  omega

theorem refreshSlot_eq (lba : Nat) (src : Bytes) (tick : Nat) (hc : Coherent g v) (hi : i < fatCacheSize) :
    (refreshSlot v lba src tick i).valid = (v.cache i).valid ∧
    (refreshSlot v lba src tick i).lba = (v.cache i).lba ∧
    ((v.cache i).valid = true → (refreshSlot v lba src tick i).data =
      if (v.cache i).lba = lba then src else (v.cache i).data) := by
  unfold refreshSlot
  cases hslot : cacheSlot v lba with
  | none =>
    refine ⟨rfl, rfl, fun hv => ?_⟩
    rw [if_neg (cacheSlot_none hslot hi hv)]
  | some j =>
    obtain ⟨hj, hvj, hlba⟩ := cacheSlot_some hslot
    by_cases hij : i = j
    · subst hij
      simp [hlba]
    simp only [update_of_ne hij]
    refine ⟨trivial, trivial, fun hv => ?_⟩
    rw [if_neg]
    intro heq
    exact hij (hc.once i hi j hj hv hvj (heq.trans hlba.symm))

/-- Writing a sector of the FAT: the entry that holds it is updated, and so is the disk. -/
theorem Shows.writeSector (hlt : g.fatStart + g.sectorsPerFat32 ≤ 2 ^ 28) (h : Shows g v d) (hhi : lba < g.fatStart + g.sectorsPerFat32) :
    Shows g (fatCacheWriteSector v lba src) (splice d (sectorSize * lba) sectorSize src) := by
  obtain ⟨rfl, hc⟩ := h
  have hdisk : ataWrite v.disk lba 1 src = splice v.disk (sectorSize * lba) sectorSize src := by
    rw [ataWrite, Nat.mod_eq_of_lt (by omega), mul_one]
  refine ⟨hdisk, ?_, ?_, ?_⟩
  · intro i hi hv k hk
    obtain ⟨hvalid, hlba, hdata⟩ := refreshSlot_eq lba src ((v.tick + 1) % 2 ^ 32) hc hi
    simp only [fatCacheWriteSector] at hv ⊢
    rw [hvalid] at hv
    rw [hlba, hdata hv, hdisk]
    split
    · next heq =>
      rw [heq, splice_add hk]
    next hne =>
    rw [splice_out (by simpa using sector_apart hk hne)]
    exact hc.data i hi hv k hk
  · intro i hi hv
    obtain ⟨hvalid, hlba, -⟩ := refreshSlot_eq lba src ((v.tick + 1) % 2 ^ 32) hc hi
    simp only [fatCacheWriteSector] at hv ⊢
    rw [hlba]
    exact hc.fat i hi (hvalid ▸ hv)
  · intro i hi j hj hvi hvj heq
    obtain ⟨hvalid, hlba, -⟩ := refreshSlot_eq lba src ((v.tick + 1) % 2 ^ 32) hc hi
    obtain ⟨hvalid', hlba', -⟩ := refreshSlot_eq lba src ((v.tick + 1) % 2 ^ 32) hc hj
    simp only [fatCacheWriteSector] at hvi hvj heq
    exact hc.once i hi j hj (hvalid ▸ hvi) (hvalid' ▸ hvj) (by rwa [hlba, hlba'] at heq)

theorem Shows.writeData (h : Shows g v d)
    (hdata : a + n ≤ sectorSize * g.fatStart ∨ sectorSize * (g.fatStart + g.sectorsPerFat32) ≤ a) :
    Shows g { v with disk := splice d a n src } (splice d a n src) := by
  obtain ⟨rfl, hc⟩ := h
  refine ⟨rfl, ?_, hc.fat, hc.once⟩
  intro i hi hv k hk
  have hlba := hc.fat i hi hv
  rw [hc.data i hi hv k hk]
  refine (splice_out ?_).symm
  simp only [sectorSize] at hdata hk ⊢
  omega

end NyanOS.Fat
