import NyanOS.Fat.NewDirectory

/-!
# Listing and lookup

`fat32_readdir` leaves out labels and the parts of long names; `fat32_finddir` compares the eleven bytes of every entry.
-/
namespace NyanOS.Fat

open Lib Function List

variable {g : Geometry} {w : View} {fuel : Nat} {xs : List Nat} {p q : Slot} {e e' : Bytes} {s t n : List Byte}
  {name ext name' ext' : Bytes}

/-! ### Names up to case -/

def SameName (s t : List Byte) : Prop := s.map upperCase = t.map upperCase

theorem upperCase_upperCase {c : Byte} : upperCase (upperCase c) = upperCase c := by
  have hall : ∀ c : Byte, upperCase (upperCase c) = upperCase c := by decide +kernel
  exact hall c

theorem sameName_upper : SameName (s.map upperCase) t ↔ SameName s t := by
  rw [SameName, SameName, map_map]
  simp only [Function.comp_def, upperCase_upperCase]

theorem mem_of_sameName {c : Byte} (hc : ∀ b : Byte, upperCase b = c ↔ b = c) (h : SameName s t) : c ∈ s ↔ c ∈ t := by
  have hmem : ∀ u : List Byte, c ∈ u ↔ c ∈ u.map upperCase := by
    intro u
    rw [mem_map]
    exact ⟨fun hu => ⟨c, hu, (hc c).mpr rfl⟩, fun ⟨b, hb, he⟩ => (hc b).mp he ▸ hb⟩
  rw [hmem s, hmem t, h]

theorem Plain.congr (hs : Plain s) (h : SameName s t) : Plain t where
  nul := by
    rw [← mem_of_sameName (by decide +kernel) h]
    exact hs.nul
  blanks := by
    rw [← mem_of_sameName (by decide +kernel) h]
    exact hs.blanks
  ext := by
    intro hdot hnil
    refine hs.ext ((mem_of_sameName (fun b => upperCase_eq_dot) h).mpr hdot) ?_
    rw [← map_eq_nil_iff (f := upperCase), map_extOf, h, ← map_extOf, hnil, map_nil]

theorem parse_congr (h : SameName s t) (hs : fat32ParseName s = some (name, ext))
    (ht : fat32ParseName t = some (name', ext')) : name = name' ∧ ext = ext' := by
  obtain ⟨_, _, rfl, rfl⟩ := parts_of_parse hs
  obtain ⟨_, _, rfl, rfl⟩ := parts_of_parse ht
  rw [map_baseOf, map_extOf, h, ← map_baseOf, ← map_extOf]
  exact ⟨rfl, rfl⟩

/-! ### Directories as tools write them -/

def dotName : Bytes := update blanks 0 0x2E

def dotDotName : Bytes := update (update blanks 0 0x2E) 1 0x2E

/-- The eleven bytes are those of a name without blanks. -/
def ShortEntry (e : Bytes) : Prop :=
  ∃ s name ext, s ≠ [] ∧ Plain s ∧ fat32ParseName s = some (name, ext) ∧ HasName e name ext

/-- The visible entries are the two dot entries and entries of names, each once. There may be labels and parts of long
names with any bytes. -/
structure Tidy (g : Geometry) (w : View) (xs : List Nat) : Prop where
  names : ∀ p ∈ listed g w xs, visible (w.entry p) = true →
    ShortEntry (w.entry p) ∨
      entryIsDirectory (w.entry p) = true ∧ (HasName (w.entry p) dotName blanks ∨ HasName (w.entry p) dotDotName blanks)
  distinct : ∀ p ∈ listed g w xs, ∀ q ∈ listed g w xs, visible (w.entry p) = true → visible (w.entry q) = true →
    (∀ k < 11, w.entry p k = w.entry q k) → p = q

theorem entryName_dot (h : HasName e dotName blanks) : entryName e = [dotChar] := by
  rw [entryName_congr (h.eq (hasName_newEntry (c := 0) (n := 0)))]
  decide

theorem entryName_dotDot (h : HasName e dotDotName blanks) : entryName e = [dotChar, dotChar] := by
  rw [entryName_congr (h.eq (hasName_newEntry (c := 0) (n := 0)))]
  decide

theorem sameName_dots (k : Nat) (h : SameName (List.replicate k dotChar) n) : n = List.replicate k dotChar := by
  rw [SameName, map_replicate, upperCase_dot] at h
  rw [eq_replicate_iff]
  refine ⟨by simpa using (congrArg List.length h).symm, fun b hb => ?_⟩
  have hmem : upperCase b ∈ n.map upperCase := mem_map_of_mem hb
  rw [← h] at hmem
  exact upperCase_eq_dot.mp (eq_of_mem_replicate hmem)

theorem Tidy.listed_as (h : Tidy g w xs) (hparse : fat32ParseName n = some (name, ext)) (hp : p ∈ listed g w xs)
    (hv : visible (w.entry p) = true) : SameName (entryName (w.entry p)) n ↔
      Plain n ∧ HasName (w.entry p) name ext ∨ n = [dotChar] ∧ HasName (w.entry p) dotName blanks := by
  constructor
  · intro hsame
    rcases h.names p hp hv with ⟨s, name', ext', _, hplain, hs, hname⟩ | ⟨_, hdot | hdots⟩
    · rw [entryName_of_hasName hplain hs hname, sameName_upper] at hsame
      obtain ⟨rfl, rfl⟩ := parse_congr hsame hs hparse
      exact .inl ⟨hplain.congr hsame, hname⟩
    · rw [entryName_dot hdot] at hsame
      exact .inr ⟨sameName_dots 1 hsame, hdot⟩
    rw [entryName_dotDot hdots] at hsame
    rw [sameName_dots 2 hsame] at hparse
    cases hparse
  · rintro (⟨hplain, hname⟩ | ⟨rfl, hname⟩)
    · rw [entryName_of_hasName hplain hparse hname, sameName_upper]
      rfl
    · rw [entryName_dot hname]
      rfl

/-! ### Agreement -/

/-- `fat32_finddir` returns this node. -/
def Finds (g : Geometry) (fuel : Nat) (v : Vol) (dir : Node) (n : List Byte) (mem : Nat → Bool) (node : Node) : Prop :=
  ∃ v', (fat32Finddir g fuel dir n mem).run onVol v = some (some node, v')

/-- `fat32_readdir` returns this for some index. -/
def Reads (g : Geometry) (fuel : Nat) (v : Vol) (dir : Node) (d : Dirent) : Prop :=
  ∃ idx v', (fat32Readdir g fuel dir idx).run onVol v = some (some d, v')

/-- The name is found exactly if it is listed, with the size and the type that are listed. -/
def Agree (g : Geometry) (fuel : Nat) (v : Vol) (dir : Node) (n : List Byte) (mem : Nat → Bool) : Prop :=
  ((∃ node, Finds g fuel v dir n mem node) ↔ ∃ d, Reads g fuel v dir d ∧ SameName d.name n) ∧
    ∀ node d, Finds g fuel v dir n mem node → Reads g fuel v dir d → SameName d.name n →
      node.length = d.size ∧ node.flags = d.type ||| vfsNodeAutofree

/-- The first entry in use with the eleven bytes of the name: the name is plain, and the entry is listed, or one with the
same bytes is that has its size and type. A directory with an entry for itself has no name for that. -/
def Unambiguous (g : Geometry) (w : View) (xs : List Nat) (n : List Byte) (name ext : Bytes) : Prop :=
  (∀ p, findSlot g w xs name ext = some p → Plain n ∧ ∃ q ∈ listed g w xs, visible (w.entry q) = true ∧
    HasName (w.entry q) name ext ∧ entryFileSize (w.entry p) = entryFileSize (w.entry q) ∧
    entryIsDirectory (w.entry p) = entryIsDirectory (w.entry q)) ∧
  (n = [dotChar] → ∀ p ∈ listed g w xs, visible (w.entry p) = true → ¬ HasName (w.entry p) dotName blanks)

theorem findSlot_some (hnul : 0 ∉ n) (hparse : fat32ParseName n = some (name, ext))
    (h : findSlot g w xs name ext = some p) : p ∈ listed g w xs ∧ HasName (w.entry p) name ext := by
  rw [findSlot] at h
  have hmatch : matchesEntry name ext (w.entry p) = true := by simpa using find?_some h
  exact ⟨mem_of_find?_eq_some h, (matchesEntry_iff hnul hparse).mp hmatch⟩

theorem findSlot_isSome (hnul : 0 ∉ n) (hparse : fat32ParseName n = some (name, ext)) (hp : p ∈ listed g w xs)
    (hname : HasName (w.entry p) name ext) : ∃ q, findSlot g w xs name ext = some q := by
  cases hfind : findSlot g w xs name ext with
  | some q => exact ⟨q, rfl⟩
  | none => exact absurd ((matchesEntry_iff hnul hparse).mpr hname) (find?_eq_none.mp hfind p hp)

theorem invisible_not_directory (h : visible e = false) : entryIsDirectory e = false := by
  rw [visible, Bool.not_eq_false', Bool.or_eq_true, beq_iff_eq, beq_iff_eq] at h
  rw [entryIsDirectory]
  rcases h with h | h
  · rw [h]
    rfl
  · rw [h]
    rfl

theorem not_plain_dot : ¬ Plain [dotChar] := fun h => h.ext mem_cons_self rfl

theorem Tidy.dot_directory (h : Tidy g w xs) (hp : p ∈ listed g w xs) (hv : visible (w.entry p) = true)
    (hname : HasName (w.entry p) dotName blanks) : entryIsDirectory (w.entry p) = true := by
  rcases h.names p hp hv with ⟨s, name, ext, _, hplain, hs, hshort⟩ | ⟨hdir, _⟩
  · have hsame := (entryName_of_hasName hplain hs hshort).symm.trans (entryName_dot hname)
    have hdot : s = [dotChar] := sameName_dots 1 (by rw [SameName, hsame]; rfl)
    exact absurd (hdot ▸ hplain) not_plain_dot
  · exact hdir

theorem Tidy.blank_not_directory (h : Tidy g w xs) (hp : p ∈ listed g w xs) (hname : HasName (w.entry p) blanks blanks) :
    entryIsDirectory (w.entry p) = false := by
  cases hv : visible (w.entry p) with
  | false => exact invisible_not_directory hv
  | true =>
    have hblank : entryName (w.entry p) = [] := by
      rw [entryName_congr (hname.eq (hasName_newEntry (c := 0) (n := 0)))]
      decide
    rcases h.names p hp hv with ⟨s, name, ext, hne, hplain, hs, hshort⟩ | ⟨_, hdot | hdots⟩
    · rw [entryName_of_hasName hplain hs hshort, map_eq_nil_iff] at hblank
      exact absurd hblank hne
    · rw [entryName_dot hdot] at hblank
      cases hblank
    · rw [entryName_dotDot hdots] at hblank
      cases hblank

theorem nodeOf_flags_iff {loc : Location} :
    (nodeOf e loc).flags = (direntOf e').type ||| vfsNodeAutofree ↔ entryIsDirectory e = entryIsDirectory e' := by
  simp only [nodeOf, direntOf]
  cases entryIsDirectory e <;> cases entryIsDirectory e' <;> decide

section

variable {v : Vol} {dir : Node} {mem : Nat → Bool} {node : Node} {d : Dirent} (hg : g.Ok) (hc : Coherent g v)
  (h : Links g (view g v.disk).fat dir.firstCluster xs) (hfuel : g.fatEntries ≤ fuel)

include hg hc h hfuel

theorem finds_iff (hparse : fat32ParseName n = some (name, ext)) (hmem : ∀ i, mem i = true) :
    Finds g fuel v dir n mem node ↔ ∃ p, findSlot g (view g v.disk) xs name ext = some p ∧
      node = nodeOf ((view g v.disk).entry p) (g.locate p) := by
  obtain ⟨v', hrun, _⟩ := (Does.finddir hg h (h.length_le_fuel hg hfuel) hparse hmem).onVol hg hc
  rw [Finds, hrun]
  constructor
  · rintro ⟨_, heq⟩
    obtain ⟨p, hp, rfl⟩ := Option.map_eq_some_iff.mp (Prod.mk.inj (Option.some.inj heq)).1
    exact ⟨p, hp, rfl⟩
  · rintro ⟨p, hp, rfl⟩
    exact ⟨v', by rw [hp, Option.map_some]⟩

theorem reads_iff : Reads g fuel v dir d ↔ ∃ p ∈ listed g (view g v.disk) xs,
    visible ((view g v.disk).entry p) = true ∧ d = direntOf ((view g v.disk).entry p) := by
  have hread : ∀ idx, ∃ v', (fat32Readdir g fuel dir idx).run onVol v = some ((listing g (view g v.disk) xs)[idx]?, v') := by
    intro idx
    obtain ⟨v', hrun, _⟩ := (Does.readdir hg h (h.length_le_fuel hg hfuel)).onVol hg hc
    exact ⟨v', hrun⟩
  have hmem : (∃ idx v', (fat32Readdir g fuel dir idx).run onVol v = some (some d, v')) ↔
      d ∈ listing g (view g v.disk) xs := by
    rw [mem_iff_getElem?]
    refine exists_congr fun idx => ?_
    obtain ⟨v', hrun⟩ := hread idx
    rw [hrun]
    exact ⟨fun ⟨_, heq⟩ => (Prod.mk.inj (Option.some.inj heq)).1, fun heq => ⟨v', by rw [heq]⟩⟩
  rw [Reads, hmem, listing, mem_map]
  simp only [mem_filter, and_assoc, eq_comm]

/-- The name is found as it is listed exactly if nothing that is not listed, and no name with blanks or an empty
extension, stands in between. -/
theorem finddir_agrees_iff (htidy : Tidy g (view g v.disk) xs) (hnul : 0 ∉ n)
    (hparse : fat32ParseName n = some (name, ext)) (hmem : ∀ i, mem i = true) :
    Agree g fuel v dir n mem ↔ Unambiguous g (view g v.disk) xs n name ext := by
  simp only [Agree, finds_iff hg hc h hfuel hparse hmem, reads_iff hg hc h hfuel]
  constructor
  · rintro ⟨hiff, hagree⟩
    have hfirst : ∀ p, findSlot g (view g v.disk) xs name ext = some p → Plain n ∧
        ∃ q ∈ listed g (view g v.disk) xs, visible ((view g v.disk).entry q) = true ∧
          HasName ((view g v.disk).entry q) name ext ∧
          entryFileSize ((view g v.disk).entry p) = entryFileSize ((view g v.disk).entry q) ∧
          entryIsDirectory ((view g v.disk).entry p) = entryIsDirectory ((view g v.disk).entry q) := by
      intro p hp
      obtain ⟨_, ⟨q, hq, hv, rfl⟩, hsame⟩ := hiff.mp ⟨_, p, hp, rfl⟩
      obtain ⟨hsize, hflags⟩ := hagree _ _ ⟨p, hp, rfl⟩ ⟨q, hq, hv, rfl⟩ hsame
      rw [nodeOf_flags_iff] at hflags
      rcases (htidy.listed_as hparse hq hv).mp hsame with ⟨hplain, hname⟩ | ⟨rfl, hdot⟩
      · exact ⟨hplain, q, hq, hv, hname, hsize, hflags⟩
      obtain ⟨hlisted, hname⟩ := findSlot_some hnul hparse hp
      obtain ⟨_, _, rfl, rfl⟩ := parts_of_parse hparse
      rw [htidy.dot_directory hq hv hdot, htidy.blank_not_directory hlisted hname] at hflags
      cases hflags
    refine ⟨hfirst, ?_⟩
    rintro rfl p hp hv hdot
    obtain ⟨_, q, hq, _⟩ := hiff.mpr ⟨_, ⟨p, hp, hv, rfl⟩, (htidy.listed_as hparse hp hv).mpr (.inr ⟨rfl, hdot⟩)⟩
    exact not_plain_dot (hfirst q hq).1
  · rintro ⟨hfirst, hself⟩
    have hplain : ∀ q ∈ listed g (view g v.disk) xs, visible ((view g v.disk).entry q) = true →
        SameName (direntOf ((view g v.disk).entry q)).name n → HasName ((view g v.disk).entry q) name ext := by
      intro q hq hv hsame
      rcases (htidy.listed_as hparse hq hv).mp hsame with ⟨_, hname⟩ | ⟨hdot, hname⟩
      · exact hname
      · exact absurd hname (hself hdot q hq hv)
    refine ⟨⟨?_, ?_⟩, ?_⟩
    · rintro ⟨_, p, hp, rfl⟩
      obtain ⟨hn, q, hq, hv, hname, _⟩ := hfirst p hp
      exact ⟨_, ⟨q, hq, hv, rfl⟩, (htidy.listed_as hparse hq hv).mpr (.inl ⟨hn, hname⟩)⟩
    · rintro ⟨_, ⟨q, hq, hv, rfl⟩, hsame⟩
      obtain ⟨p, hp⟩ := findSlot_isSome hnul hparse hq (hplain q hq hv hsame)
      exact ⟨_, p, hp, rfl⟩
    · rintro _ _ ⟨p, hp, rfl⟩ ⟨q', hq', hv', rfl⟩ hsame
      obtain ⟨_, q, hq, hv, hname, hsize, hdir⟩ := hfirst p hp
      have hslot : q = q' := htidy.distinct q hq q' hq' hv hv' (hname.eq (hplain q' hq' hv' hsame))
      subst hslot
      exact ⟨hsize, nodeOf_flags_iff.mpr hdir⟩

end

/-- The root directory has the label `NYANOS` and the file `README.TXT` of five bytes. -/
def labelledDisk : Disk := diskOf (fun i => if i = 2 then eoc else 0) fun slot =>
  if slot = 0 then newEntry (place blanks 0 [0x4E, 0x59, 0x41, 0x4E, 0x4F, 0x53]) blanks 0x08 0
  else if slot = 1 then
    put32 (newEntry (place blanks 0 [0x52, 0x45, 0x41, 0x44, 0x4D, 0x45]) (place blanks 0 [0x54, 0x58, 0x54]) 0x20 3) 28 5
  else fun _ => 0

/-- The label is found and is not listed. -/
theorem label_found :
    ((fat32Finddir smallVolume 128 (rootNode smallVolume) [0x4E, 0x59, 0x41, 0x4E, 0x4F, 0x53] fun _ => true).run onVol
      (coldVolume labelledDisk)).map (fun r => r.1.isSome) = some true ∧
    ((fat32Readdir smallVolume 128 (rootNode smallVolume) 0).run onVol (coldVolume labelledDisk)).map
      (fun r => r.1.map Dirent.name) = some (some (readmeName.map upperCase)) ∧
    ((fat32Readdir smallVolume 128 (rootNode smallVolume) 1).run onVol (coldVolume labelledDisk)).map
      (fun r => r.1.isSome) = some false := by
  decide +kernel

instance {e name ext : Bytes} : Decidable (HasName e name ext) := inferInstanceAs (Decidable (_ ∧ _))

theorem labelledDisk_tidy : Tidy smallVolume (view smallVolume labelledDisk) [2] := by
  have hlisted : (listed smallVolume (view smallVolume labelledDisk) [2]).filter
      (fun p => visible ((view smallVolume labelledDisk).entry p)) = [(2, 1)] := by
    decide +kernel
  have hone : ∀ p ∈ listed smallVolume (view smallVolume labelledDisk) [2],
      visible ((view smallVolume labelledDisk).entry p) = true → p = (2, 1) := by
    intro p hp hv
    have hmem : p ∈ (listed smallVolume (view smallVolume labelledDisk) [2]).filter
        fun p => visible ((view smallVolume labelledDisk).entry p) := mem_filter.mpr ⟨hp, hv⟩
    rw [hlisted] at hmem
    exact mem_singleton.mp hmem
  refine ⟨fun p hp hv => ?_, fun p hp q hq hv hv' _ => (hone p hp hv).trans (hone q hq hv').symm⟩
  rw [hone p hp hv]
  exact .inl ⟨readmeName, _, _, by decide, readmeName_plain, rfl, by decide +kernel⟩

theorem finddir_agrees_iff_readme :
    Agree smallVolume 128 (coldVolume labelledDisk) (rootNode smallVolume) readmeName fun _ => true := by
  have hroot : Links smallVolume (view smallVolume labelledDisk).fat (rootNode smallVolume).firstCluster [2] :=
    .cons (by decide) (.nil (by decide +kernel))
  have hparse : fat32ParseName readmeName = some (place blanks 0 ((baseOf readmeName).map upperCase),
      place blanks 0 ((extOf readmeName).map upperCase)) := fat32ParseName_eq.trans (if_pos (by decide))
  refine (finddir_agrees_iff smallVolume_ok coherent_cold hroot (le_refl 128) labelledDisk_tidy (by decide) hparse
    fun _ => rfl).mpr ⟨fun p hp => ?_, fun hdot => absurd hdot (by decide)⟩
  have hslot : findSlot smallVolume (view smallVolume labelledDisk) [2] (place blanks 0 ((baseOf readmeName).map upperCase))
      (place blanks 0 ((extOf readmeName).map upperCase)) = some (2, 1) := by
    decide +kernel
  obtain rfl := Option.some.inj (hp.symm.trans hslot)
  exact ⟨readmeName_plain, (2, 1), by decide +kernel, by decide +kernel, by decide +kernel, rfl, rfl⟩

end NyanOS.Fat
