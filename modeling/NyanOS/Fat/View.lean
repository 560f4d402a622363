import NyanOS.Fat.Invisible
import NyanOS.Lib.Refine

/-!
# The volume as a table and clusters

What the functions see of the disk: the entries of the FAT, without their reserved bits, and the bytes of the clusters.
-/
namespace NyanOS.Fat

open Lib Function List

/-- The FAT is in reach of the driver, and offsets in it have 32 bits. -/
structure Geometry.FatOk (g : Geometry) : Prop where
  sector : g.bytesPerSector = 512
  fat : g.fatStart + g.sectorsPerFat32 ≤ 2 ^ 28
  entries : g.fatEntries ≤ 2 ^ 30

/-- The first sector of the clusters. -/
def Geometry.dataStart (g : Geometry) : Nat := g.fatStart + g.fatsNum * g.sectorsPerFat32

/-- The clusters that the FAT can name. -/
def Geometry.Cluster (g : Geometry) (c : Nat) : Prop := 2 ≤ c ∧ c < g.fatEntries

instance {g : Geometry} {c : Nat} : Decidable (g.Cluster c) := inferInstanceAs (Decidable (2 ≤ c ∧ c < g.fatEntries))

def Geometry.clusterLba (g : Geometry) (c : Nat) : Nat := g.dataStart + (c - 2) * g.sectorsPerCluster

def Geometry.fatAddr (g : Geometry) (c : Nat) : Nat := sectorSize * g.fatStart + 4 * c

def Geometry.clusterAddr (g : Geometry) (c : Nat) : Nat := sectorSize * g.clusterLba c

def fatOf (g : Geometry) (d : Disk) (c : Nat) : Nat := if c < g.fatEntries then get32 d (g.fatAddr c) % 2 ^ 28 else 0

def dataOf (g : Geometry) (d : Disk) (c : Nat) : Bytes := fun o =>
  if g.Cluster c ∧ o < g.bytesPerCluster then d (g.clusterAddr c + o) else 0

@[ext]
structure View where
  fat : Nat → Nat
  data : Nat → Bytes

def view (g : Geometry) (d : Disk) : View := ⟨fatOf g d, dataOf g d⟩

def View.setFat (w : View) (c value : Nat) : View := { w with fat := update w.fat c (value % 2 ^ 28) }

/-- Bytes written to a cluster from an offset on. -/
def View.write (w : View) (c o n : Nat) (src : Bytes) : View :=
  { w with data := update w.data c (splice (w.data c) o n src) }

variable {g : Geometry} {d : Disk} {w w' : View} {c c' i n o v x lba : Nat} {src : Bytes}
  {pre : Cmd → Disk → Prop} {Q : Unit → Disk → Prop}

@[simp] theorem View.setFat_data : (w.setFat c v).data = w.data := rfl

@[simp] theorem View.setFat_self : (w.setFat c v).fat c = v % 2 ^ 28 := update_self ..

theorem View.setFat_of_ne (h : x ≠ c) : (w.setFat c v).fat x = w.fat x := update_of_ne h ..

@[simp] theorem View.write_self : (w.write c o n src).data c = splice (w.data c) o n src := update_self ..

theorem View.write_of_ne (h : x ≠ c) : (w.write c o n src).data x = w.data x := update_of_ne h ..

theorem Geometry.Ok.entries_lt (hg : g.Ok) : g.fatEntries < eoc := by
  have harea := hg.area
  have hmul := hg.fat_le
  have hclusters : g.fatEntries - 2 ≤ (g.fatEntries - 2) * g.sectorsPerCluster := Nat.le_mul_of_pos_right _ hg.cluster
  simp only [fatEntries, eoc] at hclusters harea ⊢
  omega

theorem Geometry.Ok.fatOk (hg : g.Ok) : g.FatOk where
  sector := hg.sector
  fat := hg.fat_lt
  entries := by
    have := hg.entries_lt
    simp only [eoc] at this
    omega

/-! ### The calls -/

@[simp] theorem wp_fatCacheRead {Q : Bytes → Disk → Prop} :
    (fatCacheRead lba).wp onDisk pre d Q ↔ pre (.fatRead lba) d ∧ Q (clip sectorSize (ataRead d lba)) d := Iff.rfl

@[simp] theorem wp_fatCacheWrite :
    (fatCacheWrite lba src).wp onDisk pre d Q ↔ pre (.fatWrite lba src) d ∧ Q () (ataWrite d lba 1 src) := Iff.rfl

@[simp] theorem wp_ataWriteSectors :
    (ataWriteSectors lba n src).wp onDisk pre d Q ↔ pre (.ataWrite lba n src) d ∧ Q () (ataWrite d lba n src) := Iff.rfl

/-! ### The FAT -/

theorem sector_of_entry (hf : g.FatOk) (hc : c < g.fatEntries) :
    (g.partitionLba + g.reservedSectors + c * 4 % 2 ^ 32 / sectorSize) % 2 ^ 32 = g.fatStart + c / 128 ∧
      c / 128 < g.sectorsPerFat32 ∧ c * 4 % 2 ^ 32 % sectorSize = 4 * (c % 128) := by
  have hfat := hf.fat
  have hentries := hf.entries
  simp only [Geometry.fatStart, Geometry.fatEntries, sectorSize] at *
  omega

theorem get32_sector (hf : g.FatOk) (hc : c < g.fatEntries) :
    get32 (clip sectorSize (ataRead d (g.fatStart + c / 128))) (4 * (c % 128)) % 2 ^ 28 = fatOf g d c := by
  have hfat := hf.fat
  rw [fatOf, if_pos hc]
  congr 1
  refine get32_congr fun k hk => ?_
  simp only [Geometry.fatEntries] at hc
  simp only [clip, ataRead, Geometry.fatAddr]
  rw [if_pos (by simp only [sectorSize]; omega), Nat.mod_eq_of_lt (by omega)]
  simp only [sectorSize]
  congr 1
  omega

theorem allowed_fat (hc : c < g.fatEntries) :
    g.fatStart ≤ g.fatStart + c / 128 ∧ g.fatStart + c / 128 < g.fatStart + g.sectorsPerFat32 := by
  simp only [Geometry.fatEntries] at hc
  omega

theorem wp_readFat {Q : Nat → Disk → Prop} (hf : g.FatOk) (hc : c < g.fatEntries) :
    (fat32ReadFat g c).wp onDisk (allowed g) d Q ↔ Q (fatOf g d c) d := by
  obtain ⟨hlba, _, hoff⟩ := sector_of_entry hf hc
  simp only [sectorSize] at hlba hoff
  simp only [fat32ReadFat, Prog.wp_bind, Prog.wp_pure, wp_fatCacheRead, hf.sector]
  rw [hlba, hoff, get32_sector hf hc]
  exact and_iff_right (allowed_fat hc)

theorem wp_writeFatEntry (hf : g.FatOk) (hc : c < g.fatEntries) :
    (fat32WriteFatEntry g c v).wp onDisk (allowed g) d Q ↔ Q () (put32 d (g.fatAddr c) v) := by
  obtain ⟨hlba, hlt, hoff⟩ := sector_of_entry hf hc
  have hfat := hf.fat
  have hdisk : ataWrite d (g.fatStart + c / 128) 1
      (put32 (clip sectorSize (ataRead d (g.fatStart + c / 128))) (4 * (c % 128)) v) = put32 d (g.fatAddr c) v := by
    rw [ataWrite, put32, Nat.mod_eq_of_lt (by omega), mul_one, splice_splice (by simp only [sectorSize]; omega)]
    · rw [put32, Geometry.fatAddr]
      congr 1
      simp only [sectorSize]
      omega
    · intro k hk
      rw [clip, if_pos hk, ataRead, Nat.mod_eq_of_lt (by omega)]
  simp only [fat32WriteFatEntry, Prog.wp_bind, wp_fatCacheRead, wp_fatCacheWrite]
  rw [hlba, hoff, hdisk]
  exact (and_iff_right (allowed_fat hc)).trans (and_iff_right (allowed_fat hc))

theorem fatOf_put32 (hc : c < g.fatEntries) :
    fatOf g (put32 d (g.fatAddr c) v) = update (fatOf g d) c (v % 2 ^ 28) := by
  funext x
  by_cases hx : x = c
  · subst hx
    rw [update_self, fatOf, if_pos hc, get32_put32]
    omega
  · rw [update_of_ne hx, fatOf, fatOf, put32, get32_splice_out (by simp only [Geometry.fatAddr]; omega)]

/-! ### Free clusters -/

def isFree (f : Nat → Nat) (c : Nat) : Bool := decide (2 ≤ c) && f c == 0

/-- The free cluster with the least number. -/
def firstFree (g : Geometry) (f : Nat → Nat) : Option Nat := (range g.fatEntries).find? (isFree f)

theorem freeInSector_eq (hf : g.FatOk) (hi : i < g.sectorsPerFat32) :
    freeInSector (clip sectorSize (ataRead d (g.fatStart + i))) i =
      (range' (128 * i) 128).find? (isFree (fatOf g d)) := by
  have hentries := hf.entries
  simp only [Geometry.fatEntries] at hentries
  have hentry : ∀ j < 128, get32 (clip sectorSize (ataRead d (g.fatStart + i))) (4 * j) % 2 ^ 28 =
      fatOf g d (128 * i + j) := by
    intro j hj
    have hget := get32_sector (d := d) (c := 128 * i + j) hf (by simp only [Geometry.fatEntries]; omega)
    rwa [show (128 * i + j) / 128 = i by omega, show (128 * i + j) % 128 = j by omega] at hget
  have hsame : ∀ j ∈ range 128, (!(i == 0 && decide (j < 2)) &&
      get32 (clip sectorSize (ataRead d (g.fatStart + i))) (4 * j) % 2 ^ 28 == 0) =
        (isFree (fatOf g d) ∘ fun j => 128 * i + j) j := by
    intro j hj
    rw [hentry j (mem_range.mp hj), Function.comp, isFree]
    congr 1
    rw [Bool.eq_iff_iff]
    simp only [Bool.not_eq_true', Bool.and_eq_false_iff, beq_eq_false_iff_ne, decide_eq_false_iff_not, decide_eq_true_eq]
    omega
  rw [freeInSector, range'_eq_map_range, find?_map, show sectorSize / 4 = 128 from rfl, find?_congr hsame]
  refine Option.map_congr fun j hj => ?_
  have hlt := mem_range.mp (mem_of_find?_eq_some hj)
  omega

theorem wp_findFreeFrom {Q : Option Nat → Disk → Prop} (hf : g.FatOk) (hi : i + n = g.sectorsPerFat32) :
    (findFreeFrom g n i).wp onDisk (allowed g) d Q ↔
      Q ((range' (128 * i) (128 * n)).find? (isFree (fatOf g d))) d := by
  induction n generalizing i with
  | zero => exact Iff.rfl
  | succ n ih =>
    have hfat := hf.fat
    have hlba : (g.partitionLba + g.reservedSectors + i) % 2 ^ 32 = g.fatStart + i := by
      simp only [Geometry.fatStart] at hfat ⊢
      omega
    have hallowed : allowed g (.fatRead (g.fatStart + i)) d := ⟨Nat.le_add_right _ _, by omega⟩
    have hsplit : range' (128 * i) (128 * (n + 1)) = range' (128 * i) 128 ++ range' (128 * (i + 1)) (128 * n) := by
      rw [show 128 * (i + 1) = 128 * i + 1 * 128 by omega, range'_append]
      congr 1
      omega
    simp only [findFreeFrom, Prog.wp_bind, wp_fatCacheRead, hlba]
    rw [and_iff_right hallowed, freeInSector_eq hf (by omega), hsplit, find?_append]
    cases (range' (128 * i) 128).find? (isFree (fatOf g d)) with
    | none => exact ih (by omega)
    | some c => exact Iff.rfl

theorem wp_findFreeCluster {Q : Option Nat → Disk → Prop} (hf : g.FatOk) :
    (fat32FindFreeCluster g).wp onDisk (allowed g) d Q ↔ Q (firstFree g (fatOf g d)) d := by
  rw [fat32FindFreeCluster, wp_findFreeFrom hf (zero_add _), firstFree, range_eq_range', Geometry.fatEntries,
    mul_zero]

/-! ### The clusters -/

/-- Sector `i` of a cluster, as it is read. -/
def View.sector (w : View) (c i : Nat) : Bytes := clip sectorSize fun k => w.data c (sectorSize * i + k)

section
variable (hg : g.Ok)
include hg

theorem Geometry.Ok.bytesPerCluster_eq : g.bytesPerCluster = sectorSize * g.sectorsPerCluster := by
  rw [Geometry.bytesPerCluster, hg.sector, mul_comm]
  rfl

theorem Geometry.Ok.clusterLba_le (hc : g.Cluster c) : g.clusterLba c + g.sectorsPerCluster ≤ 2 ^ 28 := by
  have hlast : (c - 2 + 1) * g.sectorsPerCluster ≤ (g.fatEntries - 2) * g.sectorsPerCluster :=
    Nat.mul_le_mul_right _ (by have := hc.1; have := hc.2; omega)
  have harea := hg.area
  rw [add_mul, one_mul] at hlast
  simp only [Geometry.clusterLba, Geometry.dataStart]
  omega

theorem Geometry.Ok.clusterToLba_eq (hc : g.Cluster c) : fat32ClusterToLba g c = g.clusterLba c := by
  have hle := hg.clusterLba_le hc
  have hpos := hg.cluster
  simp only [Geometry.clusterLba, Geometry.dataStart, Geometry.fatStart] at hle
  simp only [fat32ClusterToLba, Geometry.dataStartLba, Geometry.clusterLba, Geometry.dataStart, Geometry.fatStart]
  rw [if_neg (by have := hc.1; omega)]
  omega

theorem Geometry.Ok.cluster_apart (hc : g.Cluster c) (hc' : g.Cluster c') (hne : c ≠ c') :
    g.clusterAddr c + g.bytesPerCluster ≤ g.clusterAddr c' ∨ g.clusterAddr c' + g.bytesPerCluster ≤ g.clusterAddr c := by
  have hmul : ∀ a b : Nat, g.Cluster a → a < b →
      (a - 2) * g.sectorsPerCluster + g.sectorsPerCluster ≤ (b - 2) * g.sectorsPerCluster := by
    intro a b ha hlt
    rw [← Nat.succ_mul]
    exact Nat.mul_le_mul_right _ (by have := ha.1; omega)
  rw [hg.bytesPerCluster_eq]
  simp only [Geometry.clusterAddr, Geometry.clusterLba, sectorSize]
  rcases Nat.lt_or_gt_of_ne hne with hlt | hlt
  · have := hmul c c' hc hlt
    omega
  · have := hmul c' c hc' hlt
    omega

theorem Geometry.Ok.fat_before (hx : x < g.fatEntries) : g.fatAddr x + 4 ≤ g.clusterAddr c := by
  have hmul := hg.fat_le
  simp only [Geometry.fatAddr, Geometry.clusterAddr, Geometry.clusterLba, Geometry.dataStart, Geometry.fatEntries,
    sectorSize] at *
  omega

theorem view_put32 (hc : c < g.fatEntries) : view g (put32 d (g.fatAddr c) v) = (view g d).setFat c v := by
  refine View.ext (fatOf_put32 hc) ?_
  funext x o
  simp only [view, View.setFat, dataOf]
  split
  · have hbefore := hg.fat_before (c := x) hc
    exact put32_out (by omega)
  · rfl

theorem view_splice (hc : g.Cluster c) (ho : o + n ≤ g.bytesPerCluster) :
    view g (splice d (g.clusterAddr c + o) n src) = (view g d).write c o n src := by
  refine View.ext ?_ ?_
  · funext x
    simp only [view, View.write, fatOf]
    split
    · next hx =>
      have hbefore := hg.fat_before (c := c) hx
      rw [get32_splice_out (by omega)]
    · rfl
  · funext x k
    simp only [view, View.write]
    by_cases hx : x = c
    · subst hx
      rw [update_self]
      simp only [dataOf, splice]
      by_cases hk : o ≤ k ∧ k < o + n
      · rw [if_pos ⟨hc, by omega⟩, if_pos (by omega), if_pos hk]
        congr 1
        omega
      · have hout : ¬ (g.clusterAddr x + o ≤ g.clusterAddr x + k ∧ g.clusterAddr x + k < g.clusterAddr x + o + n) := by omega
        rw [if_neg hk, if_neg hout]
    · rw [update_of_ne hx]
      simp only [dataOf]
      split
      · next hin =>
        have hapart := hg.cluster_apart hc hin.1 (Ne.symm hx)
        exact splice_out (by omega)
      · rfl

end

/-! ### The calls on the view -/

/-- On every disk with the view `w` the function returns `a` and leaves one with the view `w'`; it calls the cache for
the FAT only, and for nothing else. -/
abbrev Does {α : Type} (g : Geometry) (p : DiskM α) (w : View) (a : α) (w' : View) : Prop :=
  Computes onDisk (allowed g) (view g) p w a w'

theorem Does.onVol {α : Type} {p : DiskM α} {a : α} {v : Vol} (hg : g.Ok) (hc : Coherent g v)
    (h : Does g p (view g v.disk) a w') : ∃ v', p.run onVol v = some (a, v') ∧ Coherent g v' ∧ view g v'.disk = w' := by
  obtain ⟨v', d', hrun, hshows, hview⟩ := h.simulated (onVol_simulates hg.fatOk.fat) (t := v) (s := v.disk) ⟨rfl, hc⟩
  refine ⟨v', hrun, hshows.coherent, ?_⟩
  rw [hshows.disk, hview]

theorem Does.readFat (hg : g.Ok) (hc : c < g.fatEntries) : Does g (fat32ReadFat g c) w (w.fat c) w := by
  rintro d rfl
  rw [wp_readFat hg.fatOk hc]
  exact ⟨rfl, rfl⟩

theorem Does.writeFatEntry (hg : g.Ok) (hc : c < g.fatEntries) :
    Does g (fat32WriteFatEntry g c v) w () (w.setFat c v) := by
  rintro d rfl
  rw [wp_writeFatEntry hg.fatOk hc]
  exact ⟨rfl, view_put32 hg hc⟩

theorem Does.findFreeCluster (hg : g.Ok) : Does g (fat32FindFreeCluster g) w (firstFree g w.fat) w := by
  rintro d rfl
  rw [wp_findFreeCluster hg.fatOk]
  exact ⟨rfl, rfl⟩

theorem ataRead_sectors (hg : g.Ok) (hc : g.Cluster c) (hi : i + n ≤ g.sectorsPerCluster) :
    clip (sectorSize * n) (ataRead d (g.clusterLba c + i)) =
      clip (sectorSize * n) fun k => dataOf g d c (sectorSize * i + k) := by
  have hle := hg.clusterLba_le hc
  refine clip_congr fun k hk => ?_
  have hin : sectorSize * i + k < g.bytesPerCluster := by
    rw [hg.bytesPerCluster_eq]
    simp only [sectorSize] at hk ⊢
    omega
  have hlba : g.clusterLba c + i < 2 ^ 28 := by
    simp only [sectorSize] at hk
    omega
  rw [ataRead, dataOf, if_pos ⟨hc, hin⟩, Nat.mod_eq_of_lt hlba, Geometry.clusterAddr, mul_add, add_assoc]

theorem Does.readSectors (hg : g.Ok) (hc : g.Cluster c) (hi : i + n ≤ g.sectorsPerCluster) :
    Does g (ataReadSectors (g.clusterLba c + i) n) w (clip (sectorSize * n) fun k => w.data c (sectorSize * i + k)) w := by
  rintro d rfl
  exact ⟨trivial, ataRead_sectors hg hc hi, rfl⟩

theorem Does.writeSectors (hg : g.Ok) (hc : g.Cluster c) (hn : 0 < n) (hi : i + n ≤ g.sectorsPerCluster) :
    Does g (ataWriteSectors (g.clusterLba c + i) n src) w () (w.write c (sectorSize * i) (sectorSize * n) src) := by
  rintro d rfl
  have hle := hg.clusterLba_le hc
  have hlba : (g.clusterLba c + i) % 2 ^ 28 = g.clusterLba c + i := Nat.mod_eq_of_lt (by omega)
  have hmul := hg.fat_le
  rw [wp_ataWriteSectors]
  refine ⟨.inr ?_, rfl, ?_⟩
  · rw [hlba, Geometry.clusterLba, Geometry.dataStart]
    omega
  · rw [ataWrite, hlba, mul_add]
    refine view_splice hg hc ?_
    rw [hg.bytesPerCluster_eq, ← mul_add]
    exact Nat.mul_le_mul_left _ hi

end NyanOS.Fat
