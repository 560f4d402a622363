import NyanOS.Elf.Untouched

/-!
# The image that the loader builds

Pages are mapped first and filled later, a part of a page at a time. `Built` says what the pages that the loader has mapped
so far hold: an array of bytes, all zero in the beginning, to which the parts of the file are copied.
-/
namespace NyanOS.Elf

open Lib Memory List

variable {m m' m₀ : Machine} {r page u i f g a k offset size n : Nat} {x y : Loading} {file : File} {new ps : List Nat} {pages : Set Nat}
  {img buffer b b' : Bytes}

/-- The byte that a program finds at an address. -/
def userByte (m : Machine) (pml4 addr : Nat) : Option Memory.Byte :=
  (vmmVirt2Phys m pml4 (addr / pageSize)).map fun frame => pageBytes (m.mem frame) (addr % pageSize)

/-! ### The operations on the image -/

def opPages (pages : Set Nat) : Op → Set Nat
  | .map page => insert page pages
  | .copy .. => pages

def opImage (file : File) (img : Bytes) : Op → Bytes
  | .map _ => img
  | .copy page offset n src => splice img (pageSize * page + offset) n fun k => file.bytes (src + k)

/-- A page that was not mapped, and a copy within a page that is. -/
def OpFits (m₀ : Machine) (r : Nat) (pages : Set Nat) : Op → Prop
  | .map page => page < pageCount 3 ∧ phys m₀ r page = 0
  | .copy page offset n _ => page ∈ pages ∧ offset + n ≤ pageSize

/-- There is memory for every page that is mapped and for its tables. -/
def Supplied (pml4 : Nat) (file : File) : List Op → Loading → Prop
  | [], _ => True
  | op :: ops, x =>
    (∀ page, op = .map page → phys x.machine pml4 page = 0 →
      (mapZeroPage x.machine pml4 page).1 ≠ 0 ∧ (mapZeroPage x.machine pml4 page).2.1 = true)
    ∧ Supplied pml4 file ops (op.exec pml4 file x).2

structure Built (m₀ : Machine) (r : Nat) (pages : Set Nat) (img : Bytes) (x : Loading) : Prop where
  loaded : Loaded m₀ r x
  fresh : ∀ u ∈ pages, u < pageCount 3 ∧ phys m₀ r u = 0
  mapped : ∀ u ∈ pages, phys x.machine r u ≠ 0
  inj : ∀ u ∈ pages, ∀ v ∈ pages, phys x.machine r u = phys x.machine r v → u = v
  bytes : ∀ u ∈ pages, ∀ o < pageSize, pageBytes (x.machine.mem (phys x.machine r u)) o = img (pageSize * u + o)
  zero : ∀ u ∉ pages, ∀ o < pageSize, img (pageSize * u + o) = 0
  other : ∀ u < pageCount 3, u ∉ pages → leaf x.machine.mem 3 r u = leaf m₀.mem 3 r u

theorem inUser_of_lt (h : page < pageCount 3) : InUser page := tableIndex_lt_limit h

theorem mapZeroPage_new (ht : TreeOk m 3 r) (hv : page < pageCount 3) (hne : (mapZeroPage m r page).1 ≠ 0)
    (hmapped : (mapZeroPage m r page).2.1 = true) :
    leaf (mapZeroPage m r page).2.2.mem 3 r page = mkPte (mapZeroPage m r page).1 privateFlags
      ∧ (mapZeroPage m r page).2.2.mem (mapZeroPage m r page).1 = fun _ => 0 := by
  rcases pmmAllocFrame_cases ht.pmm with ⟨hfull, -⟩ | ⟨f, hf, hlow, hhigh, hclear⟩
  · rw [mapZeroPage, hfull] at hne
    exact absurd rfl hne
  have hf0 : f ≠ 0 := by omega
  rw [mapZeroPage, hf] at hmapped ⊢
  simp only [if_neg hf0] at hmapped ⊢
  have hbit := (grow_take ht.pmm hlow hhigh hclear).bit_new mem_cons_self
  have hcleared := cleared_take ht hlow hhigh hclear
  generalize hm₁ : (m.take f).fill f (fun _ => 0) = m₁ at hcleared hmapped ⊢
  have hbit₁ : m₁.pmm.bitmap f = true := by
    rw [← hm₁]
    exact hbit
  obtain ⟨ht₁, htables, -, -, hzero, hnot⟩ := hcleared
  rcases @vmmMapPage_spec m₁ r page f privateFlags ht₁ hv with
    ⟨new, m₂, m₃, hwalk, hmap, hstore, -⟩ | ⟨new, m₂, -, hmap, -⟩
  · rw [hmap]
    refine ⟨by rw [hstore.leaf page hv, if_pos rfl], ?_⟩
    have hnot₁ : f ∉ tables m₁.mem 3 r := by rwa [htables]
    have hnot₂ : f ∉ tables m₂.mem 3 r := by
      rw [hwalk.tables.mem_iff, mem_append, not_or]
      exact ⟨hwalk.grow.not_new hbit₁, hnot₁⟩
    rw [hstore.keeps f hnot₂, hwalk.keeps f hbit₁ hnot₁, hzero]
  · rw [hmap] at hmapped
    cases hmapped

theorem pageBytes_storeBytes (offset n : Nat) (src : Bytes) :
    pageBytes ((storeBytes m f offset n src).mem f) = splice (pageBytes (m.mem f)) offset n src := by
  induction n with
  | zero =>
    funext o
    exact (splice_out (by omega)).symm
  | succ n ih =>
    rw [storeBytes, range_succ, foldl_append, ← storeBytes]
    simp only [foldl_cons, foldl_nil]
    rw [pageBytes_storeByte, ih]
    funext o
    rw [Function.update_apply]
    by_cases ho : o = offset + n
    · rw [if_pos ho, splice_mem (by omega) (by omega), ho, Nat.add_sub_cancel_left]
    rw [if_neg ho]
    by_cases hin : offset ≤ o ∧ o < offset + n
    · rw [splice_mem hin.1 hin.2, splice_mem hin.1 (by omega)]
    · rw [splice_out (by omega), splice_out (by omega)]

namespace Built

theorem start (hs : SpaceOk m₀ r) : Built m₀ r ∅ (fun _ => 0) ⟨m₀, []⟩ where
  loaded := .start hs
  fresh _ hu := hu.elim
  mapped _ hu := hu.elim
  inj _ hu := hu.elim
  bytes _ hu := hu.elim
  zero _ _ _ _ := rfl
  other _ _ _ := rfl

theorem map (h : Built m₀ r pages img x) (hs : SpaceOk m₀ r) (hfits : OpFits m₀ r pages (.map page))
    (hsup : phys x.machine r page = 0 →
      (mapZeroPage x.machine r page).1 ≠ 0 ∧ (mapZeroPage x.machine r page).2.1 = true) :
    ((Op.map page).exec r file x).1 = true ∧ Built m₀ r (insert page pages) img ((Op.map page).exec r file x).2 := by
  obtain ⟨hv, h0⟩ := hfits
  have hloaded : Loaded m₀ r ((Op.map page).exec r file x).2 := h.loaded.exec hs (.inl (inUser_of_lt hv))
  rw [Op.exec] at hloaded ⊢
  by_cases hin : page ∈ pages
  · rw [if_pos (h.mapped page hin), Set.insert_eq_of_mem hin]
    exact ⟨rfl, h⟩
  have hz : phys x.machine r page = 0 := (phys_congr (h.other page hv hin)).trans h0
  obtain ⟨hne, hflag⟩ := hsup hz
  obtain ⟨hleaf, hzero⟩ := mapZeroPage_new h.loaded.tree hv hne hflag
  rcases mapZeroPage_cases h.loaded.tree (inUser_of_lt hv) hz with ⟨hf, -⟩ | ⟨f, new, hf, hf0, hspec⟩
  · exact absurd hf hne
  rw [if_neg (not_not.mpr hz)] at hloaded ⊢
  simp only [hf, if_neg hf0] at hloaded hleaf hzero ⊢
  generalize (mapZeroPage x.machine r page).2.2 = m' at hloaded hleaf hzero hspec
  obtain ⟨-, hftotal, hfclear⟩ := hspec.grow.fresh f mem_cons_self
  have hphys : phys m' r page = f := phys_mkPte (lt_of_lt_of_le hftotal h.loaded.tree.pmm.total) hleaf
  have hsame : ∀ u < pageCount 3, u ≠ page → leaf m'.mem 3 r u = leaf x.machine.mem 3 r u := by
    intro u hu hne
    rcases hspec.leaf u (inUser_of_lt hu) with heq | ⟨hpath, -⟩
    · exact heq
    · exact absurd ((samePath_iff_eq hu hv).mp hpath) hne
  have hne_page : ∀ u ∈ pages, u ≠ page := fun u hu heq => hin (heq ▸ hu)
  have hold : ∀ u ∈ pages, phys m' r u = phys x.machine r u := fun u hu =>
    phys_congr (hsame u (h.fresh u hu).1 (hne_page u hu))
  -- the frames of the pages so far are in use, so the new one is another
  have hframe : ∀ u ∈ pages, x.machine.pmm.bitmap (phys x.machine r u) = true
      ∧ phys x.machine r u ∉ tables x.machine.mem 3 r := by
    intro u hu
    obtain ⟨hu3, hu0⟩ := h.fresh u hu
    obtain ⟨hown, hnot⟩ := h.loaded.fresh u (inUser_of_lt hu3) hu0 (h.mapped u hu)
    exact ⟨(h.loaded.own _ hown).2.2, hnot⟩
  have hother : ∀ u ∈ pages, phys x.machine r u ≠ f := fun u hu heq =>
    Bool.false_ne_true (hfclear.symm.trans (heq ▸ (hframe u hu).1))
  refine ⟨trivial, hloaded, ?_, ?_, ?_, ?_, ?_, ?_⟩
  · rintro u (rfl | hu)
    · exact ⟨hv, h0⟩
    · exact h.fresh u hu
  · rintro u (rfl | hu)
    · rwa [hphys]
    · rw [hold u hu]
      exact h.mapped u hu
  · rintro u (rfl | hu) v (rfl | hv') heq
    · rfl
    · rw [hphys, hold v hv'] at heq
      exact absurd heq.symm (hother v hv')
    · rw [hphys, hold u hu] at heq
      exact absurd heq (hother u hu)
    · rw [hold u hu, hold v hv'] at heq
      exact h.inj u hu v hv' heq
  · rintro u (rfl | hu) o ho
    · rw [hphys, hzero, pageBytes_zero, h.zero u hin o ho]
    · rw [hold u hu, hspec.keeps _ (hframe u hu).1 (hframe u hu).2]
      exact h.bytes u hu o ho
  · intro u hu
    exact h.zero u fun hmem => hu (Set.mem_insert_of_mem page hmem)
  · intro u hu3 hu
    obtain ⟨hne, hnot⟩ := not_or.mp hu
    exact (hsame u hu3 hne).trans (h.other u hu3 hnot)

theorem copy {offset n src : Nat} (h : Built m₀ r pages img x) (hs : SpaceOk m₀ r)
    (hfits : OpFits m₀ r pages (.copy page offset n src)) : ((Op.copy page offset n src).exec r file x).1 = true ∧
      Built m₀ r pages (opImage file img (.copy page offset n src)) ((Op.copy page offset n src).exec r file x).2 := by
  obtain ⟨hin, hlen⟩ := hfits
  obtain ⟨hv, h0⟩ := h.fresh page hin
  have hloaded : Loaded m₀ r ((Op.copy page offset n src).exec r file x).2 := h.loaded.exec hs (.inr (.inl h0))
  have hne := h.mapped page hin
  rw [Op.exec] at hloaded ⊢
  rw [if_neg hne] at hloaded ⊢
  by_cases hn : n = 0
  · have himg : opImage file img (.copy page offset n src) = img := by
      funext a
      rw [opImage, hn]
      exact splice_out (by omega)
    rw [if_pos hn, himg]
    exact ⟨rfl, h⟩
  rw [if_neg hn] at hloaded ⊢
  dsimp only at hloaded ⊢
  have hframe : phys x.machine r page ∉ tables x.machine.mem 3 r := (h.loaded.fresh page (inUser_of_lt hv) h0 hne).2
  have hmem := fun g => storeBytes_of_ne (m := x.machine) (g := g) (f := phys x.machine r page) offset n fun k => file.bytes (src + k)
  have hbytes := pageBytes_storeBytes (m := x.machine) (f := phys x.machine r page) offset n fun k => file.bytes (src + k)
  generalize storeBytes x.machine (phys x.machine r page) offset n (fun k => file.bytes (src + k)) = m'
    at hloaded hmem hbytes
  have hleaf : ∀ u < pageCount 3, leaf m'.mem 3 r u = leaf x.machine.mem 3 r u := fun u hu =>
    leaf_congr (fun g hg => hmem g fun heq => hframe (heq ▸ hg)) (inUser_of_lt hu) le_rfl
  have hphys : ∀ u ∈ pages, phys m' r u = phys x.machine r u := fun u hu => phys_congr (hleaf u (h.fresh u hu).1)
  refine ⟨rfl, hloaded, h.fresh, ?_, ?_, ?_, ?_, ?_⟩
  · intro u hu
    rw [hphys u hu]
    exact h.mapped u hu
  · intro u hu v hv' heq
    rw [hphys u hu, hphys v hv'] at heq
    exact h.inj u hu v hv' heq
  · intro u hu o ho
    rw [hphys u hu]
    by_cases hup : u = page
    · subst hup
      rw [hbytes, opImage]
      by_cases hpart : offset ≤ o ∧ o < offset + n
      · rw [splice_mem hpart.1 hpart.2, splice_mem (by omega) (by omega)]
        exact congrArg (fun k => file.bytes (src + k)) (by omega)
      · rw [splice_out (by omega), splice_out (by omega)]
        exact h.bytes u hu o ho
    · rw [hmem _ fun heq => hup (h.inj u hu page hin heq), h.bytes u hu o ho, opImage, splice_out]
      unfold pageSize at *
      omega
  · intro u hu o ho
    have hup : u ≠ page := fun heq => hu (heq ▸ hin)
    rw [opImage, splice_out, h.zero u hu o ho]
    unfold pageSize at *
    omega
  · exact fun u hu3 hu => (hleaf u hu3).trans (h.other u hu3 hu)

theorem execAll {ops : List Op} (h : Built m₀ r pages img x) (hs : SpaceOk m₀ r)
    (hfits : Along opPages (OpFits m₀ r) pages ops) (hsup : Supplied r file ops x) :
    (Elf.execAll r file ops x).2.1 = true ∧
      Built m₀ r (ops.foldl opPages pages) (ops.foldl (opImage file) img) (Elf.execAll r file ops x).2.2 := by
  induction ops generalizing x pages img with
  | nil => exact ⟨rfl, h⟩
  | cons op ops ih =>
    obtain ⟨hop, hrest⟩ := along_cons.mp hfits
    obtain ⟨hhead, htail⟩ := hsup
    have hstep : (op.exec r file x).1 = true ∧ Built m₀ r (opPages pages op) (opImage file img op) (op.exec r file x).2 := by
      cases op with
      | map page => exact h.map hs hop (hhead page rfl)
      | copy page offset n src => exact h.copy hs hop
    rw [execAll_done hstep.1]
    exact ih hstep.2 hrest htail

end Built

/-! ### The segments of a file -/

/-- An address of the segment. -/
def Phdr.Covers (h : Phdr) (a : Nat) : Prop := h.vaddr ≤ a ∧ a < h.vaddr + h.memsz

def File.ehdr (f : File) : Ehdr := ehdrOf f.bytes

def File.phdrs (f : File) : List Phdr := (List.range f.ehdr.phnum).map (phdrAt fun k => f.bytes (f.ehdr.phoff + k))

/-- A segment that can be loaded: its data is in the file, and its addresses are those of pages that are not mapped. -/
structure Loadable (m : Machine) (r : Nat) (f : File) (h : Phdr) : Prop where
  size : h.filesz ≤ h.memsz
  data : h.offset + h.filesz ≤ f.length
  low : h.vaddr + h.memsz ≤ 2 ^ 47
  unmapped : ∀ a, h.Covers a → phys m r (a / pageSize) = 0

/-- The file is a program whose segments do not overlap. -/
structure Program (m : Machine) (r : Nat) (f : File) : Prop where
  header : ehdrSize ≤ f.length
  magic : f.ehdr.magic = true
  phentsize : f.ehdr.phentsize = phdrSize
  phnum : 0 < f.ehdr.phnum * phdrSize ∧ f.ehdr.phnum * phdrSize < 2 ^ 16
  phdrs : f.ehdr.phoff + f.ehdr.phnum * phdrSize ≤ f.length
  loadable : ∀ h ∈ f.phdrs, h.type = ptLoad → Loadable m r f h
  apart : f.phdrs.Pairwise fun h h' => h.type = ptLoad → h'.type = ptLoad → ∀ a, ¬ (h.Covers a ∧ h'.Covers a)

/-- What loading a segment adds to an image. -/
def segmentImage (file : File) (img : Bytes) (h : Phdr) : Bytes :=
  if h.type = ptLoad then splice img h.vaddr h.filesz fun k => file.bytes (h.offset + k) else img

def segmentCovered (pages : Set Nat) (h : Phdr) : Set Nat :=
  if h.type = ptLoad ∧ h.memsz ≠ 0 then {u | u ∈ segmentPages h} ∪ pages else pages

section
variable {h : Phdr} {hs : List Phdr}

theorem mem_segmentPages (hlow : h.vaddr + h.memsz ≤ 2 ^ 47) (hne : h.memsz ≠ 0) :
    page ∈ segmentPages h ↔ ∃ a, h.Covers a ∧ a / pageSize = page := by
  rw [segmentPages, mem_range'_1, Nat.mod_eq_of_lt (by omega)]
  unfold Phdr.Covers pageSize
  constructor
  · rintro ⟨hlo, hhi⟩
    refine ⟨max h.vaddr (4096 * page), ?_, ?_⟩ <;> omega
  · rintro ⟨a, ha, rfl⟩
    omega

/-- The loop over the parts of a segment, from a part on: every part is within a page of the segment, and together they
are the rest of the segment's data. -/
theorem copyOps_spec (m₀ : Machine) (r : Nat) (img : Bytes) (hsize : h.filesz ≤ h.memsz)
    (hdata : h.offset + h.filesz ≤ file.length) (hlow : h.vaddr + h.memsz ≤ 2 ^ 47)
    (hin : ∀ u ∈ segmentPages h, u ∈ pages) (fuel copied : Nat) (hle : copied ≤ h.filesz)
    (hfuel : h.filesz ≤ copied + fuel) :
    Along opPages (OpFits m₀ r) pages (copyOps file h fuel copied (h.offset + copied)) ∧
      (copyOps file h fuel copied (h.offset + copied)).foldl opPages pages = pages ∧
      (copyOps file h fuel copied (h.offset + copied)).foldl (opImage file) img
        = splice img (h.vaddr + copied) (h.filesz - copied) fun k => file.bytes (h.offset + copied + k) := by
  induction fuel generalizing copied img with
  | zero =>
    refine ⟨trivial, rfl, ?_⟩
    funext a
    exact (splice_out (by omega)).symm
  | succ fuel ih =>
    rw [copyOps]
    by_cases hmore : copied < h.filesz
    · rw [if_pos hmore, Nat.mod_eq_of_lt (show h.vaddr + copied < 2 ^ 64 by omega)]
      dsimp only
      generalize hchunk : min (pageSize - (h.vaddr + copied) % pageSize) (h.filesz - copied) = chunk
      have hcount : file.count (h.offset + copied) chunk = chunk := by
        rw [File.count]
        omega
      have hoff : (h.vaddr + copied) % pageSize + chunk ≤ pageSize := by
        unfold pageSize at *
        omega
      have hpos : 0 < chunk := by
        unfold pageSize at *
        omega
      obtain ⟨halong, hpages, himg⟩ := ih
        (opImage file img (.copy ((h.vaddr + copied) / pageSize) ((h.vaddr + copied) % pageSize) chunk (h.offset + copied)))
        (copied + chunk) (by omega) (by omega)
      rw [hcount, add_assoc h.offset copied chunk]
      refine ⟨⟨⟨hin _ ?_, hoff⟩, halong⟩, hpages, ?_⟩
      · exact (mem_segmentPages hlow (by omega)).mpr ⟨h.vaddr + copied, ⟨by omega, by omega⟩, rfl⟩
      · rw [foldl_cons, himg, opImage, Nat.div_add_mod]
        have hconcat := splice_concat img (fun k => file.bytes (h.offset + copied + k)) (h.vaddr + copied) chunk
          (h.filesz - (copied + chunk))
        rw [show chunk + (h.filesz - (copied + chunk)) = h.filesz - copied by omega] at hconcat
        rw [← hconcat]
        simp only [add_assoc]
    · rw [if_neg hmore]
      refine ⟨trivial, rfl, ?_⟩
      funext a
      exact (splice_out (by omega)).symm

theorem mapOps_spec (file : File) (pages : Set Nat) (img : Bytes) (hps : ∀ p ∈ ps, p < pageCount 3 ∧ phys m₀ r p = 0) :
    Along opPages (OpFits m₀ r) pages (ps.map .map) ∧
      (ps.map .map).foldl opPages pages = {u | u ∈ ps} ∪ pages ∧ (ps.map .map).foldl (opImage file) img = img := by
  induction ps generalizing pages with
  | nil => exact ⟨trivial, by simp, rfl⟩
  | cons p ps ih =>
    obtain ⟨hp, hrest⟩ := forall_mem_cons.mp hps
    obtain ⟨halong, hpages, himg⟩ := ih (insert p pages) hrest
    refine ⟨⟨hp, halong⟩, ?_, himg⟩
    rw [map_cons, foldl_cons, opPages, hpages]
    ext u
    simp only [Set.mem_union, Set.mem_ofPred_eq, Set.mem_insert_iff, mem_cons]
    tauto

theorem segmentOps_spec (pages : Set Nat) (img : Bytes) (hload : h.type = ptLoad → Loadable m₀ r file h) :
    Along opPages (OpFits m₀ r) pages (segmentOps file h) ∧
      (segmentOps file h).foldl opPages pages = segmentCovered pages h ∧
      (segmentOps file h).foldl (opImage file) img = segmentImage file img h := by
  rw [segmentOps, segmentCovered, segmentImage]
  by_cases htype : h.type = ptLoad
  · obtain ⟨hsize, hdata, hlow, hunmapped⟩ := hload htype
    rw [if_pos htype]
    by_cases hzero : h.memsz = 0
    · rw [if_neg (fun hc => hc.2 hzero), if_neg (fun hc => hc.2 hzero)]
      refine ⟨trivial, rfl, ?_⟩
      funext a
      exact (splice_out (by omega)).symm
    rw [if_pos ⟨htype, hzero⟩, if_pos ⟨htype, hzero⟩]
    have hps : ∀ p ∈ segmentPages h, p < pageCount 3 ∧ phys m₀ r p = 0 := by
      intro p hp
      obtain ⟨a, ha, rfl⟩ := (mem_segmentPages hlow hzero).mp hp
      refine ⟨?_, hunmapped a ha⟩
      have : a < 2 ^ 47 := lt_of_lt_of_le ha.2 hlow
      unfold pageSize
      rw [show pageCount 3 = 2 ^ 35 by decide]
      omega
    obtain ⟨hmaps, hpages, himg⟩ := mapOps_spec file pages img hps
    have hin : ∀ u ∈ segmentPages h, u ∈ {u | u ∈ segmentPages h} ∪ pages := fun u hu => .inl hu
    obtain ⟨hcopies, hpages', himg'⟩ := copyOps_spec m₀ r img hsize hdata hlow hin h.filesz 0 (Nat.zero_le _) (by omega)
    refine ⟨along_append.mpr ⟨hmaps, hpages ▸ hcopies⟩, ?_, ?_⟩
    · rw [foldl_append, hpages]
      exact hpages'
    · rw [foldl_append, himg]
      exact himg'
  · rw [if_neg (fun hc => htype hc.1), if_neg (fun hc => htype hc.1), if_neg htype]
    exact ⟨trivial, rfl, rfl⟩

theorem phdrsOps_spec (pages : Set Nat) (img : Bytes) (hload : ∀ h ∈ hs, h.type = ptLoad → Loadable m₀ r file h) :
    Along opPages (OpFits m₀ r) pages (hs.flatMap (segmentOps file)) ∧
      (hs.flatMap (segmentOps file)).foldl opPages pages = hs.foldl segmentCovered pages ∧
      (hs.flatMap (segmentOps file)).foldl (opImage file) img = hs.foldl (segmentImage file) img := by
  induction hs generalizing pages img with
  | nil => exact ⟨trivial, rfl, rfl⟩
  | cons h hs ih =>
    obtain ⟨hhead, hrest⟩ := forall_mem_cons.mp hload
    obtain ⟨halong, hpages, himg⟩ := segmentOps_spec pages img hhead
    obtain ⟨halong', hpages', himg'⟩ := ih (segmentCovered pages h) (segmentImage file img h) hrest
    rw [flatMap_cons, foldl_append, foldl_append, hpages, himg]
    exact ⟨along_append.mpr ⟨halong, hpages ▸ halong'⟩, hpages', himg'⟩

/-! ### Segments that do not overlap -/

theorem segmentImage_out (hsize : h.type = ptLoad → h.filesz ≤ h.memsz)
    (hout : h.type = ptLoad → ¬ h.Covers a) : segmentImage file img h a = img a := by
  rw [segmentImage]
  split
  · next htype =>
    have hsize := hsize htype
    have hout := hout htype
    unfold Phdr.Covers at hout
    exact splice_out (by omega)
  · rfl

theorem foldl_segmentImage_out (hsize : ∀ h ∈ hs, h.type = ptLoad → h.filesz ≤ h.memsz)
    (hout : ∀ h ∈ hs, h.type = ptLoad → ¬ h.Covers a) : hs.foldl (segmentImage file) img a = img a := by
  induction hs generalizing img with
  | nil => rfl
  | cons h hs ih =>
    obtain ⟨hsize, hsizes⟩ := forall_mem_cons.mp hsize
    obtain ⟨hout, houts⟩ := forall_mem_cons.mp hout
    rw [foldl_cons, ih hsizes houts, segmentImage_out hsize hout]

theorem foldl_segmentImage_mem (hsize : ∀ h ∈ hs, h.type = ptLoad → h.filesz ≤ h.memsz)
    (hapart : hs.Pairwise fun h h' => h.type = ptLoad → h'.type = ptLoad → ∀ a, ¬ (h.Covers a ∧ h'.Covers a))
    (hzero : ∀ h ∈ hs, h.type = ptLoad → ∀ a, h.Covers a → img a = 0) (hmem : h ∈ hs) (htype : h.type = ptLoad)
    (hk : k < h.memsz) :
    hs.foldl (segmentImage file) img (h.vaddr + k) = if k < h.filesz then file.bytes (h.offset + k) else 0 := by
  induction hs generalizing img with
  | nil => cases hmem
  | cons h₀ hs ih =>
    obtain ⟨hsize, hsizes⟩ := forall_mem_cons.mp hsize
    obtain ⟨hzero, hzeros⟩ := forall_mem_cons.mp hzero
    obtain ⟨hapart, haparts⟩ := pairwise_cons.mp hapart
    have hcovers : h.Covers (h.vaddr + k) := ⟨by omega, by omega⟩
    rw [foldl_cons]
    rcases mem_cons.mp hmem with rfl | hmem
    · rw [foldl_segmentImage_out hsizes fun h' hmem' htype' hc => hapart h' hmem' htype htype' _ ⟨hcovers, hc⟩,
        segmentImage, if_pos htype]
      split
      · next hlt => rw [splice_add hlt]
      · rw [splice_out (by omega), hzero htype _ hcovers]
    · refine ih hsizes haparts (fun h' hmem' htype' a hc => ?_) hmem
      rw [segmentImage_out hsize fun htype₀ hc₀ => hapart h' hmem' htype₀ htype' a ⟨hc₀, hc⟩]
      exact hzeros h' hmem' htype' a hc

theorem mem_foldl_segmentCovered (hlow : ∀ h ∈ hs, h.type = ptLoad → h.vaddr + h.memsz ≤ 2 ^ 47) :
    page ∈ hs.foldl segmentCovered pages ↔
      page ∈ pages ∨ ∃ h ∈ hs, h.type = ptLoad ∧ ∃ a, h.Covers a ∧ a / pageSize = page := by
  induction hs generalizing pages with
  | nil => simp
  | cons h hs ih =>
    obtain ⟨hlow, hlows⟩ := forall_mem_cons.mp hlow
    rw [foldl_cons, ih hlows, exists_mem_cons_iff, ← or_assoc]
    refine or_congr ?_ Iff.rfl
    rw [segmentCovered]
    split
    · next hc =>
      rw [Set.mem_union, Set.mem_ofPred_eq, mem_segmentPages (hlow hc.1) hc.2, or_comm, and_iff_right hc.1]
    next hc =>
    refine ⟨.inl, fun hor => hor.resolve_right ?_⟩
    rintro ⟨htype, a, ha, -⟩
    have hzero : h.memsz = 0 := not_not.mp fun hne => hc ⟨htype, hne⟩
    unfold Phdr.Covers at ha
    omega

end

/-! ### The headers -/

theorem File.read_eq (h : offset + size ≤ file.length) (hk : k < size) :
    file.read offset size buffer k = file.bytes (offset + k) := by
  have hcount : file.count offset size = size := by
    rw [File.count]
    omega
  rw [File.read, hcount, splice_mem (Nat.zero_le k) (by omega), Nat.sub_zero]

theorem ehdrOf_congr (h : ∀ k < ehdrSize, b k = b' k) : ehdrOf b = ehdrOf b' := by
  unfold ehdrSize at h
  have h64 : ∀ a, a + 8 ≤ 64 → get64 b a = get64 b' a := fun a ha => get64_congr fun k hk => h _ (by omega)
  have h16 : ∀ a, a + 2 ≤ 64 → get16 b a = get16 b' a := fun a ha => get16_congr fun k hk => h _ (by omega)
  simp only [ehdrOf, h 0 (by omega), h 1 (by omega), h 2 (by omega), h 3 (by omega), h64 24 (by omega),
    h64 32 (by omega), h16 54 (by omega), h16 56 (by omega)]

theorem phdrAt_congr (h : ∀ k < n * phdrSize, b k = b' k) (hi : i < n) :
    phdrAt b i = phdrAt b' i := by
  unfold phdrSize at h
  have h64 : ∀ a, a + 8 ≤ 56 → get64 b (56 * i + a) = get64 b' (56 * i + a) := fun a ha =>
    get64_congr fun k hk => h _ (by omega)
  have h32 : get32 b (56 * i) = get32 b' (56 * i) := get32_congr fun k hk => h _ (by omega)
  simp only [phdrAt, phdrSize, h32, h64 8 (by omega), h64 16 (by omega), h64 32 (by omega), h64 40 (by omega)]

theorem Program.headers {input : Input} (hp : Program m r input.file) :
    input.ehdr = input.file.ehdr ∧ input.phdrs = input.file.phdrs := by
  have hehdr : input.ehdr = input.file.ehdr := by
    refine ehdrOf_congr fun k hk => ?_
    rw [File.read_eq (by have := hp.header; omega) hk, zero_add]
  refine ⟨hehdr, ?_⟩
  have hsize : input.phdrsSize = input.file.ehdr.phnum * phdrSize := by
    rw [Input.phdrsSize, hehdr, hp.phentsize]
    exact Nat.mod_eq_of_lt hp.phnum.2
  rw [Input.phdrs, File.phdrs, hsize, hehdr]
  refine map_congr_left fun i hi => ?_
  exact phdrAt_congr (fun k hk => File.read_eq hp.phdrs hk) (mem_range.mp hi)

/-- A page of the lower or of the upper half. -/
def Canonical (page : Nat) : Prop := page < pageCount 3 ∨ ¬ InUser page

/-- The loader builds what the file describes: it returns the entry point, every segment is found at its addresses, with
zeros after its data, and the other pages are mapped as they were. -/
theorem elf_load_builds_image (hs : SpaceOk m r) {input : Input} (hp : Program m r input.file) (hroom : input.room = true)
    (hsup : Supplied r input.file input.ops ⟨m, []⟩) : (elfLoadPML4 m r input).2.1 = input.file.ehdr.entry ∧
    (∀ h ∈ input.file.phdrs, h.type = ptLoad → ∀ k < h.memsz,
      userByte (elfLoadPML4 m r input).2.2.machine r (h.vaddr + k) =
        some (if k < h.filesz then input.file.bytes (h.offset + k) else 0)) ∧
    ∀ page, Canonical page → (∀ h ∈ input.file.phdrs, h.type = ptLoad → ∀ a, h.Covers a → a / pageSize ≠ page) →
      vmmVirt2Phys (elfLoadPML4 m r input).2.2.machine r page = vmmVirt2Phys m r page := by
  obtain ⟨hehdr, hphdrs⟩ := hp.headers
  have hops : input.ops = input.file.phdrs.flatMap (segmentOps input.file) := by
    rw [Input.ops, hehdr, hphdrs, if_pos ⟨hp.magic, hroom⟩]
  obtain ⟨halong, hpages, himg⟩ := phdrsOps_spec ∅ (fun _ => 0) hp.loadable
  rw [hops] at hsup
  obtain ⟨hok, hbuilt⟩ := (Built.start hs).execAll hs halong hsup
  rw [hpages, himg] at hbuilt
  have hlow : ∀ h ∈ input.file.phdrs, h.type = ptLoad → h.vaddr + h.memsz ≤ 2 ^ 47 := fun h hmem htype =>
    (hp.loadable h hmem htype).low
  have hsize : ∀ h ∈ input.file.phdrs, h.type = ptLoad → h.filesz ≤ h.memsz := fun h hmem htype =>
    (hp.loadable h hmem htype).size
  simp only [elfLoadPML4, hops, hok, hehdr, hp.magic, hroom, and_self, if_true]
  refine ⟨trivial, fun h hmem htype k hk => ?_, fun page hcan hnot => ?_⟩
  · have hin : (h.vaddr + k) / pageSize ∈ input.file.phdrs.foldl segmentCovered ∅ :=
      (mem_foldl_segmentCovered hlow).mpr (.inr ⟨h, hmem, htype, h.vaddr + k, ⟨by omega, by omega⟩, rfl⟩)
    have hne := hbuilt.mapped _ hin
    have hbyte := hbuilt.bytes _ hin ((h.vaddr + k) % pageSize) (Nat.mod_lt _ (by decide))
    rw [Nat.div_add_mod, foldl_segmentImage_mem hsize hp.apart (fun _ _ _ _ _ => rfl) hmem htype hk] at hbyte
    rw [← hbyte, userByte]
    rw [phys] at hne ⊢
    cases htrans : vmmVirt2Phys (execAll r input.file (input.file.phdrs.flatMap (segmentOps input.file)) ⟨m, []⟩).2.2.machine
        r ((h.vaddr + k) / pageSize) with
    | none =>
      rw [htrans] at hne
      exact absurd rfl hne
    | some frame => rfl
  · rw [vmmVirt2Phys_eq, vmmVirt2Phys_eq]
    rcases hcan with hlt | hupper
    · have hout : page ∉ input.file.phdrs.foldl segmentCovered ∅ := by
        rw [mem_foldl_segmentCovered hlow]
        rintro (hin | ⟨h, hmem, htype, a, ha, heq⟩)
        · exact hin
        · exact hnot h hmem htype a ha heq
      rw [hbuilt.other page hlt hout]
    · rw [hbuilt.loaded.upper hs hupper]

/-- One segment of one byte in a new page. -/
theorem elf_load_builds_image_byte : (elfLoadPML4 smallKernel 256 (oneSegment 0x400000)).2.1 = 0x400000 ∧
    userByte (elfLoadPML4 smallKernel 256 (oneSegment 0x400000)).2.2.machine 256 0x400000 = some 0x7F := by
  have hphdrs : (oneSegment 0x400000).file.phdrs = [⟨1, 0, 0x400000, 1, 1⟩] := by decide +kernel
  have hops : (oneSegment 0x400000).ops = [.map 0x400, .copy 0x400 0 1 0] := by decide +kernel
  have hprogram : Program smallKernel 256 (oneSegment 0x400000).file := by
    refine ⟨by decide +kernel, by decide +kernel, by decide +kernel, by decide +kernel, by decide +kernel, ?_, ?_⟩
    · rw [hphdrs]
      intro h hmem _
      obtain rfl := mem_singleton.mp hmem
      refine ⟨by decide, by decide +kernel, by decide, fun a ha => ?_⟩
      obtain rfl : a = 0x400000 := le_antisymm (Nat.lt_succ_iff.mp ha.2) ha.1
      decide +kernel
    · rw [hphdrs]
      exact pairwise_singleton _ _
  have hsup : Supplied 256 (oneSegment 0x400000).file (oneSegment 0x400000).ops ⟨smallKernel, []⟩ := by
    rw [hops]
    refine ⟨fun page heq _ => ?_, ⟨fun page heq => ?_, trivial⟩⟩
    · cases heq
      decide +kernel
    · cases heq
  obtain ⟨hentry, hbytes, -⟩ := elf_load_builds_image smallKernel_ok hprogram rfl hsup
  refine ⟨hentry.trans (by decide +kernel), ?_⟩
  rw [hphdrs] at hbytes
  exact (hbytes _ mem_cons_self rfl 0 one_pos).trans (by decide +kernel)

end NyanOS.Elf
