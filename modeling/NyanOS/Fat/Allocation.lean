import NyanOS.Fat.View

/-!
# Clusters of the partition (`fs/fat32.c`, `make_disk.py`)

The image builder sizes the FAT for the sectors of the whole partition, so that it names more clusters than there are.
-/
namespace NyanOS.Fat

open Lib Function List

/-- `sectors_per_fat` of the image builder. -/
def sectorsPerFat (totalSectors sectorsPerCluster : Nat) : Nat :=
  (totalSectors / sectorsPerCluster * 4 + sectorSize - 1) / sectorSize

/-- The arguments that `Fat32Builder` can build an image for, on a disk with 28 bits for a sector number. -/
structure Builder where
  totalSectors : Nat
  hiddenSectors : Nat
  sectorsPerCluster : Nat
  cluster_pos : 0 < sectorsPerCluster
  cluster_lt : sectorsPerCluster < 2 ^ 8
  clusters_le : 3 ≤ totalSectors / sectorsPerCluster
  sectors_le : hiddenSectors + totalSectors ≤ 2 ^ 28
  fats_le : hiddenSectors + 32 + 2 * sectorsPerFat totalSectors sectorsPerCluster ≤ 2 ^ 28

namespace Builder

variable {b : Builder} {c c' : Nat}

def clusters (b : Builder) : Nat := b.totalSectors / b.sectorsPerCluster

/-- What is in the BPB; the partition starts after the hidden sectors. -/
def geometry (b : Builder) : Geometry :=
  ⟨sectorSize, b.sectorsPerCluster, 32, 2, sectorsPerFat b.totalSectors b.sectorsPerCluster, 2, b.hiddenSectors⟩

/-- The sectors of the cluster are sectors of the partition. -/
def InPartition (b : Builder) (c : Nat) : Prop :=
  fat32ClusterToLba b.geometry c + b.sectorsPerCluster ≤ b.hiddenSectors + b.totalSectors

instance : Decidable (b.InPartition c) := inferInstanceAs (Decidable (_ ≤ _))

theorem clusters_mul_le : b.clusters * b.sectorsPerCluster ≤ b.totalSectors := Nat.div_mul_le_self _ _

theorem entries_le : b.geometry.fatEntries ≤ b.clusters + 127 := by
  simp only [Geometry.fatEntries, geometry, sectorsPerFat, sectorSize, clusters]
  omega

theorem fatOk : b.geometry.FatOk where
  sector := rfl
  fat := by
    have hfats := b.fats_le
    simp only [Geometry.fatStart, geometry]
    omega
  entries := by
    have hle : b.clusters ≤ b.totalSectors := Nat.div_le_self _ _
    have hentries : b.geometry.fatEntries ≤ b.clusters + 127 := entries_le
    have hlba := b.sectors_le
    omega

theorem clusterToLba_eq (h2 : 2 ≤ c) (hc : c < b.geometry.fatEntries) : fat32ClusterToLba b.geometry c =
      b.hiddenSectors + 32 + 2 * sectorsPerFat b.totalSectors b.sectorsPerCluster + (c - 2) * b.sectorsPerCluster := by
  have hentries : b.geometry.fatEntries ≤ b.clusters + 127 := entries_le
  have hspan : (c - 2) * b.sectorsPerCluster ≤ (b.clusters + 127) * b.sectorsPerCluster :=
    Nat.mul_le_mul_right _ (by omega)
  have htotal : b.clusters * b.sectorsPerCluster ≤ b.totalSectors := clusters_mul_le
  have hsectors := b.sectors_le
  have hfats := b.fats_le
  have hlt := b.cluster_lt
  rw [add_mul] at hspan
  simp only [fat32ClusterToLba, Geometry.dataStartLba, geometry]
  rw [if_neg (by omega)]
  omega

theorem inPartition_mono (h2 : 2 ≤ c) (hle : c ≤ c') (hc : c' < b.geometry.fatEntries) (h : b.InPartition c') :
    b.InPartition c := by
  have hmul : (c - 2) * b.sectorsPerCluster ≤ (c' - 2) * b.sectorsPerCluster := Nat.mul_le_mul_right _ (by omega)
  rw [InPartition, clusterToLba_eq (by omega) (by omega)] at h ⊢
  omega

end Builder

/-! ### Allocations -/

variable {g : Geometry} {f : Nat → Nat} {c n x : Nat} {v : Vol}

/-- Clusters are found and marked as the ends of chains, as `fat32_write` and `fat32_create` do with each cluster they
take; the list of them. -/
def allocate (g : Geometry) : Nat → DiskM (List Nat)
  | 0 => return []
  | n + 1 => do
    match ← fat32FindFreeCluster g with
    | none => allocate g n
    | some cluster => do
      fat32WriteFatEntry g cluster eoc
      let rest ← allocate g n
      return cluster :: rest

def freeClusters (g : Geometry) (f : Nat → Nat) : List Nat := (List.range g.fatEntries).filter (isFree f)

theorem mem_freeClusters : c ∈ freeClusters g f ↔ g.Cluster c ∧ f c = 0 := by
  simp only [freeClusters, mem_filter, mem_range, isFree, Bool.and_eq_true, decide_eq_true_eq, beq_iff_eq,
    Geometry.Cluster]
  exact ⟨fun h => ⟨⟨h.2.1, h.1⟩, h.2.2⟩, fun h => ⟨h.1.2, h.1.1, h.2⟩⟩

theorem firstFree_eq : firstFree g f = (freeClusters g f).head? := head?_filter.symm

theorem freeClusters_sorted : (freeClusters g f).Pairwise (· < ·) := pairwise_lt_range.filter _

theorem freeClusters_update (hx : x ≠ 0) :
    freeClusters g (update f c x) = (freeClusters g f).filter (· ≠ c) := by
  rw [freeClusters, freeClusters, filter_filter]
  refine filter_congr fun k _ => ?_
  by_cases hk : k = c
  · subst hk
    simp [isFree, hx]
  · simp [isFree, hk]

theorem allocate_computes (hf : g.FatOk) (f : Nat → Nat) (n : Nat) :
    ∃ f', Computes onDisk (allowed g) (fatOf g) (allocate g n) f ((freeClusters g f).take n) f' := by
  induction n generalizing f with
  | zero => exact ⟨f, .ret⟩
  | succ n ih =>
    have hfind : Computes onDisk (allowed g) (fatOf g) (fat32FindFreeCluster g) f (freeClusters g f).head? f := by
      rintro d rfl
      rw [wp_findFreeCluster hf]
      exact ⟨firstFree_eq, rfl⟩
    cases hfree : freeClusters g f with
    | nil =>
      obtain ⟨f', hrest⟩ := ih f
      rw [hfree] at hfind hrest
      exact ⟨f', hfind.bind (by simpa using hrest)⟩
    | cons c rest =>
      have hc : c ∈ freeClusters g f := hfree ▸ mem_cons_self
      have hmark : Computes onDisk (allowed g) (fatOf g) (fat32WriteFatEntry g c eoc) f ()
          (update f c (eoc % 2 ^ 28)) := by
        rintro d rfl
        rw [wp_writeFatEntry hf (mem_freeClusters.mp hc).1.2]
        exact ⟨rfl, fatOf_put32 (mem_freeClusters.mp hc).1.2⟩
      have hsorted := freeClusters_sorted (g := g) (f := f)
      have hnext : freeClusters g (update f c (eoc % 2 ^ 28)) = rest := by
        rw [freeClusters_update (by decide), hfree, filter_cons_of_neg (by simp), filter_eq_self]
        intro k hk
        rw [hfree] at hsorted
        have := (pairwise_cons.mp hsorted).1 k hk
        exact decide_eq_true (by omega)
      obtain ⟨f', hrest⟩ := ih (update f c (eoc % 2 ^ 28))
      rw [hfree] at hfind
      rw [hnext] at hrest
      exact ⟨f', hfind.bind (hmark.bind (hrest.bind .ret))⟩

theorem forall_take_iff {P : Nat → Prop} [DecidablePred P] {l : List Nat} (h : l.Pairwise fun a b => P b → P a) :
    (∀ x ∈ l.take n, P x) ↔ n ≤ (l.filter P).length ∨ l.filter P = l := by
  induction l generalizing n with
  | nil => simp
  | cons a l ih =>
    obtain ⟨hhead, htail⟩ := pairwise_cons.mp h
    cases n with
    | zero => simp
    | succ n =>
      by_cases ha : P a
      · rw [take_succ_cons, filter_cons_of_pos (by simpa using ha), length_cons, Nat.succ_le_succ_iff,
          cons_inj_right, ← ih htail]
        simp [ha]
      have hnone : l.filter (fun x => decide (P x)) = [] := by
        rw [filter_eq_nil_iff]
        intro x hx hPx
        exact ha (hhead x hx (by simpa using hPx))
      rw [filter_cons_of_neg (by simpa using ha), hnone, take_succ_cons]
      constructor
      · intro hall
        exact absurd (hall a mem_cons_self) ha
      · rintro (hle | heq)
        · exact absurd hle (by simp)
        · cases heq

/-- On a volume of the image builder, whatever its FAT holds: the clusters found by allocations one after the other are
all in the partition exactly if they are not more than the free ones there, or if the FAT has no other free ones. -/
theorem allocate_inPartition_iff {b : Builder} (hc : Coherent b.geometry v) :
    (∀ ids v', (allocate b.geometry n).run onVol v = some (ids, v') → ∀ id ∈ ids, b.InPartition id) ↔
      n ≤ ((freeClusters b.geometry (fatOf b.geometry v.disk)).filter fun c => b.InPartition c).length ∨
        ((freeClusters b.geometry (fatOf b.geometry v.disk)).filter fun c => b.InPartition c) =
          freeClusters b.geometry (fatOf b.geometry v.disk) := by
  have hsorted : (freeClusters b.geometry (fatOf b.geometry v.disk)).Pairwise
      fun c c' => b.InPartition c' → b.InPartition c := by
    refine freeClusters_sorted.imp_of_mem fun {c c'} hmem hmem' hlt hin => ?_
    exact Builder.inPartition_mono (mem_freeClusters.mp hmem).1.1 (by omega) (mem_freeClusters.mp hmem').1.2 hin
  obtain ⟨f', hcomp⟩ := allocate_computes b.fatOk (fatOf b.geometry v.disk) n
  obtain ⟨v', _, hrun, _, _⟩ := hcomp.simulated (onVol_simulates b.fatOk.fat) (t := v) (s := v.disk) ⟨rfl, hc⟩
  rw [← forall_take_iff hsorted]
  constructor
  · intro hall
    exact hall _ v' hrun
  · intro hall ids v'' hrun'
    obtain ⟨rfl, _⟩ := Prod.mk.inj (Option.some.inj (hrun.symm.trans hrun'))
    exact hall

/-- A partition of 40 sectors: six of them are clusters, and the FAT names 126. -/
def smallPartition : Builder := ⟨40, 0, 1, by decide, by decide, by decide, by decide, by decide⟩

/-- The image of it with the empty root directory only. -/
def smallImage : Disk := fun a =>
  let value := if a / 4 = 4096 then eoc else if a / 4 = 4097 ∨ a / 4 = 4098 then 0x0FFFFFFF else 0
  BitVec.ofNat 8 (value / 2 ^ (8 * (a % 4)))

/-- The sixth cluster that is taken starts where the partition ends. -/
theorem allocate_past_partition :
    ((allocate smallPartition.geometry 6).run onVol (coldVolume smallImage)).map Prod.fst = some [3, 4, 5, 6, 7, 8] ∧
      fat32ClusterToLba smallPartition.geometry 8 = smallPartition.hiddenSectors + smallPartition.totalSectors := by
  decide +kernel

theorem coherent_cold {d : Disk} : Coherent g (coldVolume d) := by
  refine ⟨fun i _ hv => ?_, fun i _ hv => ?_, fun i _ j _ hv => ?_⟩
  all_goals exact absurd hv Bool.false_ne_true

theorem allocate_inPartition_iff_small : Coherent smallPartition.geometry (coldVolume smallImage) ∧
    ∀ ids v', (allocate smallPartition.geometry 5).run onVol (coldVolume smallImage) = some (ids, v') →
      ∀ id ∈ ids, smallPartition.InPartition id :=
  ⟨coherent_cold, (allocate_inPartition_iff coherent_cold).mpr (.inl (by decide +kernel))⟩

end NyanOS.Fat
