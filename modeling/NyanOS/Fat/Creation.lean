import NyanOS.Fat.Directory

/-!
# Creating files

What `fat32_create` writes: an entry in a free slot of the directory, the mark of a free cluster and, for a directory, the
first sector of that cluster.
-/
namespace NyanOS.Fat

open Lib List

variable {g : Geometry} {w w' : View} {c c' fuel i k n o flags : Nat} {xs ys : List Nat} {p q : Slot} {e src name ext : Bytes}
  {mem : Nat → Bool}

/-! ### Entries -/

def View.setEntry (w : View) (p : Slot) (e : Bytes) : View := w.write p.1 (32 * p.2) 32 e

theorem View.sector_apply (hk : k < sectorSize) : w.sector c i k = w.data c (sectorSize * i + k) := if_pos hk

theorem View.entry_apply (hk : k < 32) : w.entry p k = w.data p.1 (32 * p.2 + k) := by
  rw [View.entry, entryOf, View.sector_apply (by simp only [sectorSize]; omega)]
  congr 1
  simp only [sectorSize]
  omega

theorem View.entry_setEntry (hk : k < 32) : (w.setEntry p e).entry p k = e k := by
  rw [View.entry_apply hk, View.setEntry, View.write_self, splice_add hk]

theorem View.entry_setEntry_of_ne (hne : q ≠ p) (hk : k < 32) : (w.setEntry p e).entry q k = w.entry q k := by
  rw [View.entry_apply hk, View.entry_apply hk, View.setEntry]
  by_cases hc : q.1 = p.1
  · have hslot : q.2 ≠ p.2 := fun hs => hne (Prod.ext hc hs)
    rw [hc, View.write_self, splice_out (by omega)]
  · rw [View.write_of_ne hc]

theorem View.write_sector (hn : o + n ≤ sectorSize) :
    w.write c (sectorSize * i) sectorSize (splice (w.sector c i) o n src) = w.write c (sectorSize * i + o) n src := by
  rw [View.write, View.write, splice_splice hn fun k hk => View.sector_apply hk]

theorem Does.updateSector {f : Bytes → Bytes} (hg : g.Ok) (hc : g.Cluster c) (hi : i < g.sectorsPerCluster) :
    Does g (updateSector (g.clusterLba c + i) f) w () (w.write c (sectorSize * i) sectorSize (f (w.sector c i))) := by
  have hread : Does g (ataReadSectors (g.clusterLba c + i) 1) w (w.sector c i) w := Does.readSectors hg hc hi
  refine hread.bind ?_
  have hwrite : Does g (ataWriteSectors (g.clusterLba c + i) 1 (f (w.sector c i))) w () _ :=
    Does.writeSectors hg hc one_pos hi
  rwa [mul_one] at hwrite

theorem mem_dirSlots : p ∈ dirSlots g xs ↔ p.1 ∈ xs ∧ p.2 < g.sectorsPerCluster * 16 := by
  simp only [dirSlots, mem_flatMap, mem_map, mem_range, Prod.ext_iff]
  constructor
  · rintro ⟨c, hc, k, hk, rfl, rfl⟩
    exact ⟨hc, hk⟩
  · rintro ⟨hc, hk⟩
    exact ⟨p.1, hc, p.2, hk, rfl, rfl⟩

theorem Does.setEntry (hg : g.Ok) (hc : g.Cluster p.1) (hp : p.2 < g.sectorsPerCluster * 16) :
    Does g (Fat.updateSector (g.locate p).sectorLba fun buf => splice buf (g.locate p).offset 32 e) w () (w.setEntry p e) := by
  have hupdate := Does.updateSector (w := w) (i := p.2 / 16) (f := fun buf => splice buf (p.2 % 16 * 32) 32 e) hg hc
    (by omega)
  have haddr : sectorSize * (p.2 / 16) + p.2 % 16 * 32 = 32 * p.2 := by
    simp only [sectorSize]
    omega
  rwa [View.write_sector (by simp only [sectorSize]; omega), haddr] at hupdate

/-! ### Creation -/

/-- The volume with a new entry in slot `p` and the cluster `c` for it. -/
def View.created (w : View) (parent : Nat) (name ext : Bytes) (flags c : Nat) (p : Slot) : View :=
  let isDir := flags &&& vfsDirectory ≠ 0
  let w' := if isDir then w.write c 0 sectorSize (dotEntries c parent) else w
  (w'.setEntry p (newEntry name ext (if isDir then 0x10 else 0x20) c)).setFat c eoc

theorem Does.create {parent : Node} {fname : List Byte} (hg : g.Ok)
    (h : Links g w.fat parent.firstCluster xs) (hfuel : xs.length ≤ fuel) (hparse : fat32ParseName fname = some (name, ext))
    (hnew : findSlot g w xs name ext = none) (hfree : firstFree g w.fat = some c) (hslot : freeDirSlot g w xs = some p)
    (hmem : ∀ i, mem i = true) : Does g (fat32Create g fuel parent fname flags mem) w
      (some ⟨flags ||| vfsNodeAutofree, 0, c, (g.locate p).sectorLba, (g.locate p).offset⟩)
      (w.created parent.firstCluster name ext flags c p) := by
  have hcluster : g.Cluster c := (mem_freeClusters.mp (mem_of_mem_head? (firstFree_eq ▸ hfree))).1
  obtain ⟨hmemp, hp⟩ := mem_dirSlots.mp (mem_of_find?_eq_some hslot)
  have hfind := Does.findFile hg h hfuel hparse
  have hfind' : Does g (fat32FindFreeCluster g) w (some c) w := hfree ▸ Does.findFreeCluster hg
  have hslot' := Does.findFreeDirectoryEntry hg h hfuel
  rw [hnew] at hfind
  rw [hslot] at hslot'
  have hadd : ∀ loc, loc = g.locate p → Does g (addEntry g parent.firstCluster name ext flags c loc) w ()
      (w.created parent.firstCluster name ext flags c p) := by
    rintro _ rfl
    have hdots : Does g (ataWriteSectors (fat32ClusterToLba g c) 1 (dotEntries c parent.firstCluster)) w ()
        (w.write c 0 sectorSize (dotEntries c parent.firstCluster)) := by
      rw [hg.clusterToLba_eq hcluster]
      exact Does.writeSectors (i := 0) hg hcluster one_pos hg.cluster
    rw [addEntry, View.created]
    dsimp only
    split
    · exact hdots.bind ((Does.setEntry hg (h.cell_of_mem hmemp) hp).bind (Does.writeFatEntry hg hcluster.2))
    · exact (Does.setEntry hg (h.cell_of_mem hmemp) hp).bind (Does.writeFatEntry hg hcluster.2)
  rw [fat32Create]
  refine hfind.bind ?_
  simp only [Option.map_none, hparse]
  refine hfind'.bind (hslot'.bind ?_)
  simp only [Option.map_some, hmem, Bool.true_eq_false, if_false, Bool.and_self, if_true]
  exact (hadd _ rfl).bind .ret

theorem Does.create_full {parent : Node} {fname : List Byte}
    (hg : g.Ok) (h : Links g w.fat parent.firstCluster xs) (hfuel : xs.length ≤ fuel)
    (hparse : fat32ParseName fname = some (name, ext)) (hslot : freeDirSlot g w xs = none) :
    Does g (fat32Create g fuel parent fname flags mem) w none w := by
  have hslot' := Does.findFreeDirectoryEntry hg h hfuel
  rw [hslot] at hslot'
  rw [fat32Create]
  refine (Does.findFile hg h hfuel hparse).bind ?_
  cases findSlot g w xs name ext with
  | some p => exact .ret
  | none =>
    simp only [Option.map_none, hparse]
    refine (Does.findFreeCluster hg).bind ?_
    cases firstFree g w.fat with
    | none => exact .ret
    | some c => exact hslot'.bind .ret

theorem create_cases {parent : Node} (fname : List Byte) (flags : Nat) (hg : g.Ok)
    (h : Links g w.fat parent.firstCluster xs) (hfuel : xs.length ≤ fuel) (hmem : ∀ i, mem i = true) :
    Does g (fat32Create g fuel parent fname flags mem) w none w ∨
    ∃ name ext c p, fat32ParseName fname = some (name, ext) ∧ findSlot g w xs name ext = none ∧
      firstFree g w.fat = some c ∧ freeDirSlot g w xs = some p ∧
      Does g (fat32Create g fuel parent fname flags mem) w
        (some ⟨flags ||| vfsNodeAutofree, 0, c, (g.locate p).sectorLba, (g.locate p).offset⟩)
        (w.created parent.firstCluster name ext flags c p) := by
  cases hparse : fat32ParseName fname with
  | none =>
    left
    rw [fat32Create]
    refine (findFile_none hparse).bind ?_
    simp only [hparse]
    exact .ret
  | some r =>
    obtain ⟨name, ext⟩ := r
    have hfind := Does.findFile hg h hfuel hparse
    cases hnew : findSlot g w xs name ext with
    | some q =>
      left
      rw [hnew] at hfind
      rw [fat32Create]
      exact hfind.bind .ret
    | none =>
      have hcluster := Does.findFreeCluster (w := w) hg
      cases hfree : firstFree g w.fat with
      | none =>
        left
        rw [hnew] at hfind
        rw [hfree] at hcluster
        rw [fat32Create]
        refine hfind.bind ?_
        simp only [Option.map_none, hparse]
        exact hcluster.bind .ret
      | some c =>
        cases hslot : freeDirSlot g w xs with
        | none => exact .inl (Does.create_full hg h hfuel hparse hslot)
        | some p => exact .inr ⟨name, ext, c, p, rfl, hnew, rfl, rfl, Does.create hg h hfuel hparse hnew hfree hslot hmem⟩

/-! ### What stays -/

theorem mem_takeWhile {α : Type} {f : α → Bool} {l : List α} {a : α} :
    a ∈ l.takeWhile f ↔ ∃ l₁ l₂, l = l₁ ++ a :: l₂ ∧ (∀ x ∈ l₁, f x = true) ∧ f a = true := by
  induction l with
  | nil => simp
  | cons x l ih =>
    by_cases hx : f x = true
    · rw [takeWhile_cons_of_pos hx, mem_cons, ih]
      constructor
      · rintro (rfl | ⟨l₁, l₂, rfl, hl, ha⟩)
        · exact ⟨[], l, rfl, by simp, hx⟩
        · exact ⟨x :: l₁, l₂, rfl, forall_mem_cons.mpr ⟨hx, hl⟩, ha⟩
      · rintro ⟨l₁, l₂, heq, hl, ha⟩
        cases l₁ with
        | nil => exact .inl (List.cons.inj heq).1.symm
        | cons y l₁ => exact .inr ⟨l₁, l₂, (List.cons.inj heq).2, (forall_mem_cons.mp hl).2, ha⟩
    · rw [takeWhile_cons_of_neg hx]
      constructor
      · intro hm
        cases hm
      · rintro ⟨l₁, l₂, heq, hl, ha⟩
        cases l₁ with
        | nil => exact absurd ((List.cons.inj heq).1 ▸ ha) hx
        | cons y l₁ => exact absurd ((List.cons.inj heq).1 ▸ hl y mem_cons_self) hx

theorem mem_listed : p ∈ listed g w xs ↔ ∃ ps qs, dirSlots g xs = ps ++ p :: qs ∧ (∀ q ∈ ps, w.entry q 0 ≠ 0) ∧
    w.entry p 0 ≠ 0 ∧ w.entry p 0 ≠ 0xE5 := by
  simp only [listed, mem_filter, mem_takeWhile, decide_eq_true_eq]
  constructor
  · rintro ⟨⟨ps, qs, heq, hps, h0⟩, h5⟩
    exact ⟨ps, qs, heq, hps, h0, h5⟩
  · rintro ⟨ps, qs, heq, hps, h0, h5⟩
    exact ⟨⟨ps, qs, heq, hps, h0⟩, h5⟩

theorem listed_slot (h : p ∈ listed g w xs) : p ∈ dirSlots g xs := by
  obtain ⟨ps, qs, heq, _⟩ := mem_listed.mp h
  exact heq ▸ mem_append_right ps mem_cons_self

theorem listed_not_free (h : p ∈ listed g w xs) : freeEntry (w.entry p) = false := by
  obtain ⟨_, _, _, _, h0, h5⟩ := mem_listed.mp h
  rw [freeEntry, Bool.or_eq_false_iff]
  exact ⟨beq_false_of_ne h0, beq_false_of_ne h5⟩

/-- The chains go on, and every entry that is in use in a directory is still there. -/
structure Kept (g : Geometry) (w w' : View) : Prop where
  chains : ∀ a ys, Links g w.fat a ys → Links g w'.fat a ys
  entries : ∀ a ys, Links g w.fat a ys → ∀ q ∈ listed g w ys, q ∈ listed g w' ys ∧ ∀ k < 32, w'.entry q k = w.entry q k

section Created

variable {parent flags : Nat} {name ext : Bytes}

theorem View.created_fat : (w.created parent name ext flags c p).fat = (w.setFat c eoc).fat := by
  rw [View.created]
  split <;> rfl

theorem View.created_entry (hq : q.1 ≠ c) (hk : k < 32) : (w.created parent name ext flags c p).entry q k =
    if q = p then newEntry name ext (if flags &&& vfsDirectory ≠ 0 then 0x10 else 0x20) c k else w.entry q k := by
  have hsame : ∀ u : View, u.data q.1 = w.data q.1 → u.entry q k = w.entry q k := by
    intro u hu
    rw [View.entry_apply hk, View.entry_apply hk, hu]
  have hset : ∀ (u : View) (e : Bytes), u.data q.1 = w.data q.1 →
      ((u.setEntry p e).setFat c eoc).entry q k = if q = p then e k else w.entry q k := by
    intro u e hu
    have hdata : ((u.setEntry p e).setFat c eoc).entry q k = (u.setEntry p e).entry q k := rfl
    rw [hdata]
    split
    · next heq =>
      subst heq
      exact View.entry_setEntry hk
    · next hne => rw [View.entry_setEntry_of_ne hne hk, hsame u hu]
  rw [View.created]
  refine hset _ _ ?_
  split
  · exact View.write_of_ne hq
  · rfl

theorem newEntry_apply {attr : Byte} (hk : k < 8) : newEntry name ext attr c k = name k := hasName_newEntry.1 k hk

theorem kept_created (hc : w.fat c = 0) (hp : freeEntry (w.entry p) = true) (hname : name 0 ≠ 0) :
    Kept g w (w.created parent name ext flags c p) := by
  have hne : ∀ {a ys x}, Links g w.fat a ys → x ∈ ys → x ≠ c := by
    rintro a ys x h hx rfl
    exact h.fat_ne_zero hx hc
  refine ⟨fun a ys h => ?_, fun a ys h q hq => ?_⟩
  · rw [View.created_fat]
    exact h.congr fun x hx => View.setFat_of_ne (hne h hx)
  · have hqp : q ≠ p := by
      rintro rfl
      rw [listed_not_free hq] at hp
      cases hp
    have hqc : q.1 ≠ c := hne h (mem_dirSlots.mp (listed_slot hq)).1
    have hsame : ∀ k < 32, (w.created parent name ext flags c p).entry q k = w.entry q k := fun k hk => by
      rw [View.created_entry hqc hk, if_neg hqp]
    refine ⟨?_, hsame⟩
    obtain ⟨ps, qs, heq, hps, h0, h5⟩ := mem_listed.mp hq
    refine mem_listed.mpr ⟨ps, qs, heq, fun r hr => ?_, ?_, ?_⟩
    · have hrc : r.1 ≠ c := by
        have hmem : r ∈ dirSlots g ys := heq ▸ mem_append_left _ hr
        exact hne h (mem_dirSlots.mp hmem).1
      rw [View.created_entry hrc (by omega)]
      split
      · rw [newEntry_apply (by omega)]
        exact hname
      · exact hps r hr
    · rw [hsame 0 (by omega)]
      exact h0
    · rw [hsame 0 (by omega)]
      exact h5

end Created

/-- A name that is not there is created, and nothing that is there is lost, exactly if the directory has a free slot. -/
theorem create_succeeds_iff {v : Vol} {parent : Node} {fname : List Byte} {flags : Nat} {mem : Nat → Bool}
    {name ext : Bytes} (hg : g.Ok) (hc : Coherent g v) (h : Links g (view g v.disk).fat parent.firstCluster xs)
    (hfuel : g.fatEntries ≤ fuel) (hnul : 0 ∉ fname) (hparse : fat32ParseName fname = some (name, ext))
    (hnew : findSlot g (view g v.disk) xs name ext = none) (hfree : 2 ≤ (freeClusters g (view g v.disk).fat).length)
    (hmem : ∀ i, mem i = true) :
    (∃ node v', (fat32Create g fuel parent fname flags mem).run onVol v = some (some node, v') ∧
        Kept g (view g v.disk) (view g v'.disk)) ↔
      ∃ p ∈ dirSlots g xs, freeEntry ((view g v.disk).entry p) = true := by
  have hlen := h.length_le_fuel hg hfuel
  cases hslot : freeDirSlot g (view g v.disk) xs with
  | none =>
    have hfull : ¬ ∃ p ∈ dirSlots g xs, freeEntry ((view g v.disk).entry p) = true := by
      rintro ⟨p, hp, hfreep⟩
      exact find?_eq_none.mp hslot p hp hfreep
    have hdoes : Does g (fat32Create g fuel parent fname flags mem) (view g v.disk) none (view g v.disk) :=
      Does.create_full hg h hlen hparse hslot
    obtain ⟨v', hrun, _⟩ := hdoes.onVol hg hc
    refine iff_of_false ?_ hfull
    rintro ⟨node, v'', hrun', _⟩
    cases Option.some.inj (hrun.symm.trans hrun')
  | some p =>
    have hname : name 0 ≠ 0 := by
      obtain ⟨_, _, rfl, _⟩ := parts_of_parse hparse
      exact place_ne_zero fun h0 => hnul (mem_baseOf h0)
    have hp : freeEntry ((view g v.disk).entry p) = true := by simpa using find?_some hslot
    obtain ⟨c, cs, hcs⟩ := exists_cons_of_length_pos (lt_of_lt_of_le Nat.two_pos hfree)
    have hc0 := (mem_freeClusters.mp (hcs ▸ mem_cons_self : c ∈ freeClusters g (view g v.disk).fat)).2
    have hfirst : firstFree g (view g v.disk).fat = some c := by rw [firstFree_eq, hcs, head?_cons]
    have hdoes : Does g (fat32Create g fuel parent fname flags mem) (view g v.disk) _ _ :=
      Does.create hg h hlen hparse hnew hfirst hslot hmem
    obtain ⟨v', hrun, _, hview⟩ := hdoes.onVol hg hc
    refine iff_of_true ⟨_, v', hrun, ?_⟩ ⟨p, mem_of_find?_eq_some hslot, hp⟩
    rw [hview]
    exact kept_created hc0 hp hname

theorem smallVolume_ok : smallVolume.Ok := ⟨rfl, by decide, by decide, by decide⟩

/-- The root directory, which is one cluster, has 16 entries. -/
def fullDisk : Disk := diskOf (fun i => if i = 2 then eoc else 0) fun slot =>
  newEntry (Function.update blanks 0 (BitVec.ofNat 8 (0x41 + slot))) blanks 0x20 0

/-- The file `Z` is not there, and 125 clusters are free. -/
theorem create_fails_full :
    findSlot smallVolume (view smallVolume fullDisk) [2] (Function.update blanks 0 0x5A) blanks = none ∧
    (freeClusters smallVolume (view smallVolume fullDisk).fat).length = 125 ∧
    ((fat32Create smallVolume 128 (rootNode smallVolume) [0x5A] 1 fun _ => true).run onVol (coldVolume fullDisk)).map
      (fun r => r.1.isSome) = some false := by
  decide +kernel

theorem create_succeeds_iff_empty : ∃ node v',
    (fat32Create smallVolume 128 (rootNode smallVolume) [0x5A] 1 fun _ => true).run onVol (coldVolume emptyDisk) =
      some (some node, v') ∧ Kept smallVolume (view smallVolume emptyDisk) (view smallVolume v'.disk) := by
  have hroot : Links smallVolume (view smallVolume emptyDisk).fat (rootNode smallVolume).firstCluster [2] :=
    .cons (by decide) (.nil (by decide +kernel))
  exact (create_succeeds_iff smallVolume_ok coherent_cold hroot (le_refl 128) (by decide) rfl (by decide +kernel)
    (by decide +kernel) fun _ => rfl).mpr ⟨(2, 0), by decide +kernel, by decide +kernel⟩

end NyanOS.Fat
