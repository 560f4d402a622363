import NyanOS.Fat.Creation

/-!
# New directories

`fat32_create` clears the first sector of a new directory and leaves the others as they were.
-/
namespace NyanOS.Fat

open Lib Function List

variable {g : Geometry} {w w' : View} {c c' fuel i k n : Nat} {xs : List Nat} {p q : Slot} {e e' name ext : Bytes} {es : List Bytes}

/-! ### Entries by their 32 bytes -/

def SameEntry (e e' : Bytes) : Prop := ∀ k < 32, e k = e' k

section

variable (h : SameEntry e e')
include h

theorem SameEntry.freeEntry : freeEntry e = freeEntry e' := by
  rw [Fat.freeEntry, Fat.freeEntry, h 0 (by omega)]

theorem SameEntry.visible : visible e = visible e' := by
  rw [Fat.visible, Fat.visible, h 11 (by omega)]

theorem SameEntry.entryName : entryName e = entryName e' := entryName_congr fun k hk => h k (by omega)

theorem SameEntry.entryFirstCluster : entryFirstCluster e = entryFirstCluster e' := by
  rw [Fat.entryFirstCluster, Fat.entryFirstCluster, get16_congr fun k hk => h (20 + k) (by omega),
    get16_congr fun k hk => h (26 + k) (by omega)]

theorem SameEntry.entryFileSize : entryFileSize e = entryFileSize e' := by
  rw [Fat.entryFileSize, Fat.entryFileSize]
  exact get32_congr fun k hk => h (28 + k) (by omega)

theorem SameEntry.entryIsDirectory : entryIsDirectory e = entryIsDirectory e' := by
  rw [Fat.entryIsDirectory, Fat.entryIsDirectory, h 11 (by omega)]

theorem SameEntry.direntOf : direntOf e = direntOf e' := by
  rw [Fat.direntOf, Fat.direntOf, h.entryName, h.entryIsDirectory, h.entryFileSize]

end

/-! ### A directory whose first sector is clean -/

/-- The directory is the cluster `c` with these entries in its first slots, and its first sector is empty after them. -/
structure Fresh (g : Geometry) (w : View) (c : Nat) (es : List Bytes) : Prop where
  chain : Links g w.fat c [c]
  used : ∀ i (h : i < es.length), SameEntry (w.entry (c, i)) es[i]
  live : ∀ e ∈ es, freeEntry e = false ∧ visible e = true
  clean : ∀ i, es.length ≤ i → i < 16 → w.entry (c, i) 0 = 0

theorem dirSlots_singleton : dirSlots g [c] = (List.range (g.sectorsPerCluster * 16)).map fun k => (c, k) :=
  flatMap_singleton ..

theorem takeWhile_range {α : Type} {f : Nat → α} {P : α → Bool} (hle : i ≤ n) (hin : ∀ k < i, P (f k) = true)
    (hend : i = n ∨ P (f i) = false) : ((List.range n).map f).takeWhile P = (List.range i).map f := by
  have hsplit : (List.range n).map f = (List.range i).map f ++ (List.range (n - i)).map fun k => f (i + k) := by
    rw [show n = i + (n - i) by omega, range_add, map_append, map_map, Nat.add_sub_cancel_left]
    rfl
  rw [hsplit, takeWhile_append_of_pos]
  · rcases hend with rfl | hfalse
    · simp
    cases hn : n - i with
    | zero => simp
    | succ m =>
      rw [range_succ_eq_map, map_cons, takeWhile_cons_of_neg (by simp [hfalse]), append_nil]
  · intro a ha
    obtain ⟨k, hk, rfl⟩ := mem_map.mp ha
    exact hin k (mem_range.mp hk)

section
variable (hg : g.Ok) (h : Fresh g w c es) (hlen : es.length < 16 ∨ es.length = 16 ∧ g.sectorsPerCluster = 1)
include hg h hlen

/-- The slots in use are those of the entries, unless the walk leaves the first sector. -/
theorem Fresh.listed_eq : listed g w [c] = (List.range es.length).map fun k => (c, k) := by
  have hpos := hg.cluster
  have hused : ∀ k < es.length, w.entry (c, k) 0 ≠ 0 ∧ w.entry (c, k) 0 ≠ 0xE5 := by
    intro k hk
    have hfree := (h.live _ (getElem_mem hk)).1
    rw [← (h.used k hk).freeEntry, freeEntry, Bool.or_eq_false_iff] at hfree
    exact ⟨ne_of_beq_false hfree.1, ne_of_beq_false hfree.2⟩
  rw [listed, dirSlots_singleton, takeWhile_range (i := es.length) (by omega), filter_eq_self]
  · intro p hp
    obtain ⟨k, hk, rfl⟩ := mem_map.mp hp
    exact decide_eq_true (hused k (mem_range.mp hk)).2
  · intro k hk
    exact decide_eq_true (hused k hk).1
  · rcases hlen with hlt | ⟨hlen, hone⟩
    · right
      exact decide_eq_false (not_not_intro (h.clean es.length (le_refl _) hlt))
    · left
      rw [hlen, hone]

theorem Fresh.listing_eq : listing g w [c] = es.map direntOf := by
  have hvisible : ∀ p ∈ (List.range es.length).map fun k => (c, k), visible (w.entry p) = true := by
    intro p hp
    obtain ⟨k, hk, rfl⟩ := mem_map.mp hp
    rw [(h.used k (mem_range.mp hk)).visible]
    exact (h.live _ (getElem_mem _)).2
  rw [listing, h.listed_eq hg hlen, filter_eq_self.mpr hvisible, map_map]
  refine ext_getElem (by simp) fun k hk _ => ?_
  rw [getElem_map, getElem_map, getElem_range]
  exact (h.used k (by simpa using hk)).direntOf

end

/-! ### Entries of new files -/

section NewEntry

variable {name ext : Bytes} {attr : Byte}

theorem newEntry_attr : newEntry name ext attr c 11 = attr := by
  rw [newEntry, putFirstCluster, put16_out (by omega), put16_out (by omega)]
  rfl

theorem entryFirstCluster_newEntry (hc : c < 2 ^ 32) : entryFirstCluster (newEntry name ext attr c) = c := by
  rw [entryFirstCluster, newEntry, putFirstCluster, zero_add, zero_add, get16_put16,
    get16_congr fun k hk => put16_out (by omega), get16_put16]
  omega

theorem entryFileSize_newEntry : entryFileSize (newEntry name ext attr c) = 0 := by
  have hzero : get32 (newEntry name ext attr c) 28 = get32 (fun _ => 0) 28 := by
    refine get32_congr fun k hk => ?_
    rw [newEntry, putFirstCluster, put16_out (by omega), put16_out (by omega)]
    simp only [show ¬ 28 + k < 8 by omega, show ¬ 28 + k < 11 by omega, show ¬ 28 + k = 11 by omega, if_false]
  rw [entryFileSize, hzero]
  rfl

theorem entryName_newEntry (c' : Nat) : entryName (newEntry name ext attr c) = entryName (newEntry name ext attr c') :=
  entryName_congr (hasName_newEntry.eq hasName_newEntry)

/-- How a new file is listed. -/
def fileDirent (name ext : Bytes) : Dirent := ⟨entryName (newEntry name ext 0x20 0), vfsFile, 0⟩

theorem direntOf_newFile : direntOf (newEntry name ext 0x20 c) = fileDirent name ext := by
  rw [direntOf, fileDirent, entryName_newEntry 0, entryFileSize_newEntry, entryIsDirectory, newEntry_attr]
  rfl

end NewEntry

/-- A name that does not start with the mark of a deleted entry. -/
structure Creatable (fname : List Byte) : Prop where
  nul : 0 ∉ fname
  first : fname.head? ≠ some 0xE5

theorem Creatable.first_byte {fname : List Byte} (h : Creatable fname)
    (hparse : fat32ParseName fname = some (name, ext)) : name 0 ≠ 0 ∧ name 0 ≠ 0xE5 := by
  obtain ⟨_, _, rfl, _⟩ := parts_of_parse hparse
  refine ⟨place_ne_zero fun h0 => h.nul (mem_baseOf h0), ?_⟩
  cases hbase : baseOf fname with
  | nil =>
    rw [map_nil, place_nil]
    decide
  | cons b bs =>
    have hupper : ∀ b : Byte, upperCase b = 0xE5 → b = 0xE5 := by decide +kernel
    have hhead : fname.head? = some b := by
      cases fname with
      | nil => cases hbase
      | cons a as =>
        by_cases ha : a = dotChar
        · rw [ha, baseOf_dot] at hbase
          cases hbase
        · rw [baseOf_cons_of_ne ha] at hbase
          rw [(List.cons.inj hbase).1, head?_cons]
    intro h5
    exact h.first (hhead.trans (congrArg some (hupper b h5)))

/-! ### Files in a fresh directory -/

theorem Fresh.freeDirSlot_eq (hg : g.Ok) (h : Fresh g w c es) (hlt : es.length < 16) :
    freeDirSlot g w [c] = some (c, es.length) := by
  have hpos := hg.cluster
  have hfind : ((List.range (g.sectorsPerCluster * 16)).find? fun k => freeEntry (w.entry (c, k))) = some es.length := by
    refine find?_range_eq_some.mpr ⟨?_, mem_range.mpr (by omega), fun k hk => ?_⟩
    · rw [freeEntry, h.clean es.length (le_refl _) hlt]
      rfl
    · rw [(h.used k hk).freeEntry, (h.live _ (getElem_mem hk)).1]
      rfl
  rw [freeDirSlot, dirSlots_singleton, find?_map]
  exact congrArg (Option.map fun k => (c, k)) hfind

theorem Fresh.freeDirSlot_none (h : Fresh g w c es) (hlen : es.length = 16) (hone : g.sectorsPerCluster = 1) :
    freeDirSlot g w [c] = none := by
  rw [freeDirSlot, find?_eq_none]
  intro p hp
  obtain ⟨hc, hk⟩ := mem_dirSlots.mp hp
  have hlt : p.2 < es.length := by
    rw [hone] at hk
    omega
  have hslot : p = (c, p.2) := Prod.ext (mem_singleton.mp hc) rfl
  rw [hslot, (h.used p.2 hlt).freeEntry, (h.live _ (getElem_mem hlt)).1]
  exact Bool.false_ne_true

theorem Fresh.created (h : Fresh g w c es) (hfree : w.fat c' = 0) (h0 : name 0 ≠ 0)
    (h5 : name 0 ≠ 0xE5) :
    Fresh g (w.created c name ext vfsFile c' (c, es.length)) c (es ++ [newEntry name ext 0x20 c']) := by
  have hne : c ≠ c' := fun he => h.chain.fat_ne_zero mem_cons_self (he ▸ hfree)
  have hentry : ∀ i k, k < 32 → (w.created c name ext vfsFile c' (c, es.length)).entry (c, i) k =
      if i = es.length then newEntry name ext 0x20 c' k else w.entry (c, i) k := by
    intro i k hk
    have hflags : ¬ (vfsFile &&& vfsDirectory ≠ 0) := by decide
    rw [View.created_entry hne hk, if_neg hflags]
    simp only [Prod.mk.injEq, true_and]
  refine ⟨?_, fun i hi k hk => ?_, fun e he => ?_, fun i hi hlt => ?_⟩
  · rw [View.created_fat]
    refine h.chain.congr fun x hx => View.setFat_of_ne ?_
    rw [mem_singleton.mp hx]
    exact hne
  · rw [hentry i k hk]
    by_cases heq : i = es.length
    · subst heq
      rw [if_pos rfl]
      simp
    have hlt : i < es.length := by
      rw [length_append, length_singleton] at hi
      omega
    rw [if_neg heq, getElem_append_left hlt]
    exact h.used i hlt k hk
  · rcases mem_append.mp he with hold | hnew
    · exact h.live e hold
    · rw [mem_singleton.mp hnew, freeEntry, newEntry_apply (by omega), visible, newEntry_attr]
      exact ⟨Bool.or_eq_false_iff.mpr ⟨beq_false_of_ne h0, beq_false_of_ne h5⟩, rfl⟩
  · rw [length_append, length_singleton] at hi
    rw [hentry i 0 (by omega), if_neg (by omega)]
    exact h.clean i (by omega) hlt

/-- Files are created in a directory, one after the other; the names of those that were. -/
def createAll (g : Geometry) (fuel : Nat) (dir : Node) : List (List Byte) → DiskM (List (List Byte))
  | [] => return []
  | fname :: rest => do
    let node ← fat32Create g fuel dir fname vfsFile fun _ => true
    let created ← createAll g fuel dir rest
    return if node.isSome then fname :: created else created

/-- How a file with this name is listed. -/
def nameDirent (fname : List Byte) : Option Dirent := (fat32ParseName fname).map fun r => fileDirent r.1 r.2

theorem Fresh.create {dir : Node} (fname : List Byte) (hg : g.Ok) (h : Fresh g w c es) (hdir : dir.firstCluster = c)
    (hfuel : 0 < fuel) (hname : Creatable fname) (hlen : es.length < 16 ∨ es.length = 16 ∧ g.sectorsPerCluster = 1) :
    Does g (fat32Create g fuel dir fname vfsFile fun _ => true) w none w ∨
    es.length < 16 ∧ ∃ name ext c' node w', fat32ParseName fname = some (name, ext) ∧
      Does g (fat32Create g fuel dir fname vfsFile fun _ => true) w (some node) w' ∧
      Fresh g w' c (es ++ [newEntry name ext 0x20 c']) := by
  have hchain : Links g w.fat dir.firstCluster [c] := by
    rw [hdir]
    exact h.chain
  have hmem : ∀ i : Nat, (fun _ => true : Nat → Bool) i = true := fun _ => rfl
  rcases create_cases fname vfsFile hg hchain hfuel hmem with
    hnone | ⟨name, ext, c', p, hparse, _, hfree, hslot, hdoes⟩
  · exact .inl hnone
  have hlt : es.length < 16 := by
    rcases hlen with hlt | ⟨hlen, hone⟩
    · exact hlt
    · rw [h.freeDirSlot_none hlen hone] at hslot
      cases hslot
  rw [h.freeDirSlot_eq hg hlt] at hslot
  cases hslot
  have hzero := (mem_freeClusters.mp (mem_of_mem_head? (firstFree_eq ▸ hfree))).2
  obtain ⟨h0, h5⟩ := hname.first_byte hparse
  rw [hdir] at hdoes
  exact .inr ⟨hlt, name, ext, c', _, _, hparse, hdoes, h.created hzero h0 h5⟩

theorem Fresh.createAll {dir : Node} {files : List (List Byte)} (hg : g.Ok) (h : Fresh g w c es)
    (hdir : dir.firstCluster = c) (hfuel : 0 < fuel) (hnames : ∀ f ∈ files, Creatable f)
    (hlen : es.length + files.length < 16 ∨ es.length ≤ 16 ∧ g.sectorsPerCluster = 1) :
    ∃ created w' es', Does g (createAll g fuel dir files) w created w' ∧ Fresh g w' c (es ++ es') ∧
      es'.map direntOf = created.filterMap nameDirent ∧
      ((es ++ es').length < 16 ∨ (es ++ es').length = 16 ∧ g.sectorsPerCluster = 1) := by
  induction files generalizing w es with
  | nil =>
    refine ⟨[], w, [], .ret, by rwa [append_nil], rfl, ?_⟩
    rw [length_nil] at hlen
    rw [append_nil]
    omega
  | cons f files ih =>
    obtain ⟨hf, hrest⟩ := forall_mem_cons.mp hnames
    rw [length_cons] at hlen
    rcases h.create f hg hdir hfuel hf (by omega) with hnone | ⟨hlt, name, ext, c', node, w₁, hparse, hdoes, hfresh⟩
    · obtain ⟨created, w', es', hall, hend⟩ := ih h hrest (by omega)
      exact ⟨created, w', es', hnone.bind (hall.bind .ret), hend⟩
    have hlen' : (es ++ [newEntry name ext 0x20 c']).length + files.length < 16 ∨
        (es ++ [newEntry name ext 0x20 c']).length ≤ 16 ∧ g.sectorsPerCluster = 1 := by
      rw [length_append, length_singleton]
      omega
    obtain ⟨created, w', es', hall, hend, hlist, hbound⟩ := ih hfresh hrest hlen'
    refine ⟨f :: created, w', newEntry name ext 0x20 c' :: es', hdoes.bind (hall.bind .ret), ?_, ?_, ?_⟩
    · rwa [append_assoc] at hend
    · rw [map_cons, direntOf_newFile, hlist]
      simp [nameDirent, hparse]
    · rwa [append_assoc] at hbound

/-! ### The new directory -/

def dotEntry (c : Nat) : Bytes := newEntry (update blanks 0 0x2E) blanks 0x10 c

def dotDotEntry (c : Nat) : Bytes := newEntry (update (update blanks 0 0x2E) 1 0x2E) blanks 0x10 c

/-- The first sector of the new cluster has the two dot entries and is empty after them. -/
theorem fresh_created {parent flags : Nat} (hcell : g.Cluster c) (hp : p.1 ≠ c)
    (hflags : flags &&& vfsDirectory ≠ 0) :
    Fresh g (w.created parent name ext flags c p) c [dotEntry c, dotDotEntry parent] := by
  have hentry : ∀ i k, i < 16 → k < 32 →
      (w.created parent name ext flags c p).entry (c, i) k = dotEntries c parent (32 * i + k) := by
    intro i k hi hk
    rw [View.entry_apply hk, View.created, if_pos hflags, View.setFat_data, View.setEntry, View.write_of_ne (Ne.symm hp),
      View.write_self, splice_mem (Nat.zero_le _) (by simp only [sectorSize]; omega)]
    rfl
  have hfirst : ∀ k < 32, dotEntries c parent (32 * 0 + k) = dotEntry c k := by
    intro k hk
    rw [Nat.mul_zero, Nat.zero_add, dotEntries, splice_out (by omega), splice_mem (Nat.zero_le k) (by omega)]
    rfl
  have hsecond : ∀ k < 32, dotEntries c parent (32 * 1 + k) = dotDotEntry parent k := by
    intro k hk
    rw [dotEntries, splice_add hk]
    rfl
  refine ⟨?_, ?_, ?_, ?_⟩
  · refine .cons hcell (.nil ?_)
    rw [View.created_fat, View.setFat_self]
    decide
  · intro i hi k hk
    have hi2 : i < 2 := hi
    rw [hentry i k (by omega) hk]
    rcases Nat.lt_succ_iff_lt_or_eq.mp hi2 with h0 | rfl
    · obtain rfl : i = 0 := by omega
      exact hfirst k hk
    · exact hsecond k hk
  · intro e he
    rcases mem_cons.mp he with rfl | he
    · rw [freeEntry, dotEntry, newEntry_apply (by omega), visible, newEntry_attr]
      decide
    · rw [mem_singleton.mp he, freeEntry, dotDotEntry, newEntry_apply (by omega), visible, newEntry_attr]
      decide
  · intro i hi hlt
    have h2 : 2 ≤ i := hi
    rw [hentry i 0 hlt (by omega), dotEntries, splice_out (by omega), splice_out (by omega)]

def dotDirents : List Dirent := [⟨[0x2E], vfsDirectory, 0⟩, ⟨[0x2E, 0x2E], vfsDirectory, 0⟩]

theorem direntOf_dots {parent : Nat} : [dotEntry c, dotDotEntry parent].map direntOf = dotDirents := by
  have hdot : entryName (dotEntry c) = [0x2E] := (entryName_newEntry 0).trans (by decide)
  have hdots : entryName (dotDotEntry parent) = [0x2E, 0x2E] := (entryName_newEntry 0).trans (by decide)
  simp only [map_cons, map_nil, direntOf, hdot, hdots]
  rw [dotEntry, dotDotEntry, entryFileSize_newEntry, entryFileSize_newEntry, entryIsDirectory, entryIsDirectory,
    newEntry_attr, newEntry_attr]
  rfl

/-- What `fat32_readdir` returns for one index after the other is this list. -/
def Lists (g : Geometry) (fuel : Nat) (dir : Node) (v : Vol) (ds : List Dirent) : Prop :=
  ∀ idx, ∃ v', (fat32Readdir g fuel dir idx).run onVol v = some (ds[idx]?, v')

/-- A new directory lists itself, its parent and the files that are created in it, and nothing else, if it is one sector
or has no more than 13 files. -/
theorem new_directory_lists {v v₁ : Vol} {parent dir : Node} {dname : List Byte} {flags : Nat} {mem : Nat → Bool}
    {files : List (List Byte)} (hg : g.Ok) (hc : Coherent g v) (h : Links g (view g v.disk).fat parent.firstCluster xs)
    (hfuel : g.fatEntries ≤ fuel) (hmem : ∀ i, mem i = true) (hflags : flags &&& vfsDirectory ≠ 0)
    (hcreate : (fat32Create g fuel parent dname flags mem).run onVol v = some (some dir, v₁))
    (hnames : ∀ f ∈ files, Creatable f) (hcount : g.sectorsPerCluster = 1 ∨ files.length ≤ 13) :
    ∃ created v₂, (createAll g fuel dir files).run onVol v₁ = some (created, v₂) ∧
      Lists g fuel dir v₂ (dotDirents ++ created.filterMap nameDirent) ∧
      entryFirstCluster ((view g v₂.disk).entry (dir.firstCluster, 0)) = dir.firstCluster ∧
      entryFirstCluster ((view g v₂.disk).entry (dir.firstCluster, 1)) = parent.firstCluster := by
  rcases create_cases dname flags hg h (h.length_le_fuel hg hfuel) hmem with
    hnone | ⟨name, ext, c, p, _, _, hfree, hslot, hdoes⟩
  · obtain ⟨_, hrun, _⟩ := hnone.onVol hg hc
    cases Option.some.inj (hrun.symm.trans hcreate)
  obtain ⟨v', hrun, hc₁, hview⟩ := hdoes.onVol hg hc
  obtain ⟨hdir, rfl⟩ := Prod.mk.inj (Option.some.inj (hrun.symm.trans hcreate))
  have hfirst : dir.firstCluster = c := (congrArg Node.firstCluster (Option.some.inj hdir)).symm
  have hcell := mem_freeClusters.mp (mem_of_mem_head? (firstFree_eq ▸ hfree))
  obtain ⟨hmemp, _⟩ := mem_dirSlots.mp (mem_of_find?_eq_some hslot)
  have hp : p.1 ≠ c := fun he => h.fat_ne_zero hmemp (he ▸ hcell.2)
  have hsmall : ∀ a, g.Cluster a → a < 2 ^ 32 := by
    intro a ha
    have := (hg.inChain ha).2
    simp only [eoc] at this
    omega
  have hparent : parent.firstCluster < 2 ^ 32 := by
    cases h with
    | nil _ => cases hmemp
    | cons hcell' _ => exact hsmall _ hcell'
  have hfresh : Fresh g (view g v'.disk) c [dotEntry c, dotDotEntry parent.firstCluster] :=
    hview ▸ fresh_created hcell.1 hp hflags
  have hpos : 0 < fuel := by
    have := hcell.1.2
    omega
  obtain ⟨created, w₂, es, hall, hend, hlist, hlen⟩ :=
    hfresh.createAll hg hfirst hpos hnames (by simp only [length_cons, length_nil]; omega)
  obtain ⟨v₂, hrun₂, hc₂, hview₂⟩ := hall.onVol hg hc₁
  subst hview₂
  have hchain : Links g (view g v₂.disk).fat dir.firstCluster [c] := by
    rw [hfirst]
    exact hend.chain
  rw [hfirst]
  refine ⟨created, v₂, hrun₂, fun idx => ?_, ?_, ?_⟩
  · obtain ⟨v₃, hrun₃, _⟩ := (Does.readdir hg hchain hpos).onVol hg hc₂
    refine ⟨v₃, hrun₃.trans ?_⟩
    rw [hend.listing_eq hg hlen, map_append, direntOf_dots, hlist]
  · rw [(hend.used 0 (by simp)).entryFirstCluster]
    exact entryFirstCluster_newEntry (hsmall c hcell.1)
  · rw [(hend.used 1 (by simp)).entryFirstCluster]
    exact entryFirstCluster_newEntry hparent

def oneLetterNames (n : Nat) : List (List Byte) := (List.range n).map fun i => [BitVec.ofNat 8 (0x41 + i)]

theorem oneLetterNames_creatable {f : List Byte} (h : f ∈ oneLetterNames 14) : Creatable f := by
  have hall : ∀ f ∈ oneLetterNames 14, 0 ∉ f ∧ f.head? ≠ some 0xE5 := by decide
  exact ⟨(hall f h).1, (hall f h).2⟩

/-- A directory of one sector takes 14 files. -/
theorem new_directory_lists_small : ∃ dir v₁ created v₂,
    (fat32Create smallVolume 128 (rootNode smallVolume) [0x44] vfsDirectory fun _ => true).run onVol
      (coldVolume emptyDisk) = some (some dir, v₁) ∧
    (createAll smallVolume 128 dir (oneLetterNames 14)).run onVol v₁ = some (created, v₂) ∧
    Lists smallVolume 128 dir v₂ (dotDirents ++ created.filterMap nameDirent) := by
  have hcreate : (((fat32Create smallVolume 128 (rootNode smallVolume) [0x44] vfsDirectory fun _ => true).run onVol
      (coldVolume emptyDisk)).bind Prod.fst).isSome = true := by
    decide +kernel
  obtain ⟨dir, hdir⟩ := Option.isSome_iff_exists.mp hcreate
  obtain ⟨⟨_, v₁⟩, hrun, rfl⟩ := Option.bind_eq_some_iff.mp hdir
  have hroot : Links smallVolume (view smallVolume emptyDisk).fat (rootNode smallVolume).firstCluster [2] :=
    .cons (by decide) (.nil (by decide +kernel))
  obtain ⟨created, v₂, hall, hlists, _⟩ := new_directory_lists smallVolume_ok coherent_cold hroot (le_refl 128)
    (fun _ => rfl) (by decide) hrun (fun _ => oneLetterNames_creatable) (.inl rfl)
  exact ⟨dir, v₁, created, v₂, hrun, hall, hlists⟩

/-- Clusters of two sectors. The second sector of the cluster that is taken next has an entry for `X` in it. -/
def wideVolume : Geometry := ⟨512, 2, 1, 1, 1, 2, 0⟩

def oldDisk : Disk := splice emptyDisk 2560 32 (newEntry (update blanks 0 0x58) blanks 0x20 0)

/-- The number of files that were created in a new directory, and the name that is listed after them. -/
def filesAndNext (g : Geometry) (files : List (List Byte)) : DiskM (Option (Nat × Option (List Byte))) := do
  match ← fat32Create g 128 (rootNode g) [0x44] vfsDirectory fun _ => true with
  | none => return none
  | some dir =>
    let created ← createAll g 128 dir files
    let next ← fat32Readdir g 128 dir (2 + created.length)
    return some (created.length, next.map Dirent.name)

/-- After 14 files the directory lists a file that was never in it. -/
theorem new_directory_reveals :
    ((filesAndNext wideVolume (oneLetterNames 14)).run onVol (coldVolume oldDisk)).map Prod.fst =
      some (some (14, some [0x58])) := by
  decide +kernel

end NyanOS.Fat
