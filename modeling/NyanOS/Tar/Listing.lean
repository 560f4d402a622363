import NyanOS.Tar.Archive

/-!
# Listing and lookup in an archive

Both scans see the tree that is in the names of the headers.
-/
namespace NyanOS.Tar

open Lib List
open Fat (Dirent vfsFile vfsDirectory)

variable {b : Bytes} {a base fuel turns idx count : Nat} {h : Header} {hs : List Header} {name path n : List Byte} {d node : Node}

/-- The type of a member is in its typeflag, and directories have a slash at the end of their names. No two members have
the same path. -/
structure WellFormed (hs : List Header) : Prop where
  directory : ∀ h ∈ hs, h.typeflag = 0x35 ↔ h.name.getLast? = some slash
  distinct : (hs.map fun h => stem h.name).Nodup

def Header.type (h : Header) : Nat := if h.typeflag = 0x35 then vfsDirectory else vfsFile

/-- The members directly in a directory, in the order of the archive. -/
def children (hs : List Header) (path : List Byte) : List Header := hs.filter fun h => parent h.name = path

/-- How a member is listed. -/
def Header.dirent (h : Header) : Dirent := ⟨leaf h.name, h.type, h.size⟩

section
variable (hat : HeaderAt b a h) (hdir : h.typeflag = 0x35 ↔ h.name.getLast? = some slash)
include hat hdir

theorem isDirectory_eq : isDirectory b a h.name = true ↔ h.typeflag = 0x35 := by
  rw [isDirectory, hat.typeflag, Bool.or_eq_true, beq_iff_eq, beq_iff_eq, ← hdir, or_self]

theorem flags_eq : (if isDirectory b a h.name then vfsDirectory else vfsFile) = h.type := by
  simp only [Header.type, isDirectory_eq hat hdir]

end

/-! ### Listing -/

theorem fillDirent_eq (hat : HeaderAt b a h) (hdir : h.typeflag = 0x35 ↔ h.name.getLast? = some slash)
    (hparent : parent h.name = path) : fillDirent b a h.name (h.name.drop path.length) = h.dirent := by
  have hstem : stem h.name = path ++ leaf h.name := hparent ▸ stem_eq
  rw [fillDirent, Header.dirent, Header.type, hat.fileSize]
  by_cases hlast : h.name.getLast? = some slash
  · have hdrop : h.name.drop path.length = leaf h.name ++ [slash] := by
      conv_lhs => rw [eq_stem_concat hlast, hstem, append_assoc]
      exact drop_left
    rw [if_pos ((isDirectory_eq hat hdir).mpr (hdir.mpr hlast)), if_pos (hdir.mpr hlast), hdrop,
      if_pos getLast?_concat, dropLast_concat]
  · have hdrop : h.name.drop path.length = leaf h.name := by
      rw [stem_of_not_slash hlast] at hstem
      conv_lhs => rw [hstem]
      exact drop_left
    have hfile : ¬ h.typeflag = 0x35 := fun ht => hlast (hdir.mp ht)
    rw [if_neg fun ht => hfile ((isDirectory_eq hat hdir).mp ht), if_neg hfile, hdrop]

theorem readdirFrom_eq (ha : Archive b a hs) (hdir : ∀ h ∈ hs, h.typeflag = 0x35 ↔ h.name.getLast? = some slash)
    (hpath : DirPath path) (hfuel : 100 ≤ fuel) (hturns : hs.length < turns) (hcount : count ≤ idx)
    (hidx : idx < 2 ^ 32) :
    readdirFrom b fuel path idx turns a count = some (((children hs path).map Header.dirent)[idx - count]?) := by
  induction ha generalizing turns count with
  | nil hzero =>
    cases turns with
    | zero => cases hturns
    | succ turns => exact if_pos (hzero 0 (by omega))
  | @cons a h hs hat hlt _ ih =>
    cases turns with
    | zero => cases hturns
    | succ turns =>
      obtain ⟨hhead, htail⟩ := forall_mem_cons.mp hdir
      rw [length_cons] at hturns
      have hchild : _ ↔ parent h.name = path := child_iff hat.nonempty hpath
      rw [readdirFrom, if_neg hat.first, hat.cstr hfuel, hat.next hlt]
      by_cases hparent : parent h.name = path
      · obtain ⟨htake, hne, hinside⟩ := hchild.mpr hparent
        have hmem : children (h :: hs) path = h :: children hs path := filter_cons_of_pos (decide_eq_true hparent)
        dsimp only
        rw [if_neg (not_not_intro htake), if_neg hne, if_neg (by rw [hinside]; exact Bool.false_ne_true), hmem,
          map_cons]
        by_cases heq : count = idx
        · subst heq
          rw [if_pos rfl, fillDirent_eq hat hhead hparent, Nat.sub_self]
          rfl
        · rw [if_neg heq, Nat.mod_eq_of_lt (by omega), ih htail (by omega) (by omega),
            show idx - count = idx - (count + 1) + 1 by omega, getElem?_cons_succ]
      · have hskip : children (h :: hs) path = children hs path := filter_cons_of_neg (by simpa using hparent)
        have hrest : readdirFrom b fuel path idx turns (a + 512 + aligned h.size) count = _ := ih htail (by omega) hcount
        rw [hskip, ← hrest]
        dsimp only
        by_cases htake : h.name.take path.length = path
        · rw [if_neg (not_not_intro htake)]
          by_cases hne : (h.name.drop path.length).length = 0
          · rw [if_pos hne]
          have hinside : slashInside (h.name.drop path.length) = true := by
            rw [← Bool.not_eq_false]
            exact fun hin => hparent (hchild.mp ⟨htake, hne, hin⟩)
          rw [if_neg hne, if_pos hinside]
        · rw [if_pos htake]

/-! ### Lookup -/

theorem matchesPath_iff (hchars : 0 ∉ name) : matchesPath name path = true ↔ name = path ∨ name = path ++ [slash] := by
  simp only [matchesPath, Bool.or_eq_true, Bool.and_eq_true, beq_iff_eq]
  refine or_congr_right ⟨?_, ?_⟩
  · rintro ⟨⟨htake, hslash⟩, hend⟩
    have hone : name.drop path.length = [slash] := by
      cases hdrop : name.drop path.length with
      | nil =>
        rw [getD_eq_getElem?_getD, getElem?_eq_none (drop_eq_nil_iff.mp hdrop)] at hslash
        exact absurd hslash (by decide)
      | cons c rest =>
        have hget : ∀ i, (c :: rest).getD i 0 = name.getD (path.length + i) 0 := fun i => by
          rw [← hdrop, getD_eq_getElem?_getD, getD_eq_getElem?_getD, getElem?_drop]
        have hc : c = slash := (hget 0).trans hslash
        cases rest with
        | nil => rw [hc]
        | cons c' rest =>
          have hmem : c' ∈ name := mem_of_mem_drop (show c' ∈ name.drop path.length by simp [hdrop])
          have hzero : c' = 0 := (hget 1).trans hend
          exact absurd (hzero ▸ hmem) hchars
    rw [← hone, ← take_append_drop path.length name, htake]
    simp
  · rintro rfl
    simp

theorem stem_iff (hpath : path.getLast? ≠ some slash) : stem name = path ↔ name = path ∨ name = path ++ [slash] := by
  constructor
  · rintro rfl
    by_cases hlast : name.getLast? = some slash
    · exact .inr (eq_stem_concat hlast)
    · exact .inl (stem_of_not_slash hlast).symm
  · rintro (rfl | rfl)
    · exact stem_of_not_slash hpath
    · exact stem_concat

theorem finddirFrom_spec (ha : Archive b a hs) (hdir : ∀ h ∈ hs, h.typeflag = 0x35 ↔ h.name.getLast? = some slash)
    (hfuel : 100 ≤ fuel) (hturns : hs.length < turns) (n path : List Byte) :
    (finddirFrom b fuel n path turns a = some none ∧ (n.length < 128 → ∀ h ∈ hs, matchesPath h.name path = false)) ∨
      ∃ h ∈ hs, ∃ addr, HeaderAt b addr h ∧ matchesPath h.name path = true ∧
        finddirFrom b fuel n path turns a = some (some ⟨n, h.type, h.size, .header addr⟩) := by
  induction ha generalizing turns with
  | nil hzero =>
    cases turns with
    | zero => cases hturns
    | succ turns => exact .inl ⟨by simp [finddirFrom, validate_zero hzero], by simp⟩
  | @cons a h hs hat hlt _ ih =>
    cases turns with
    | zero => cases hturns
    | succ turns =>
      obtain ⟨hhead, htail⟩ := forall_mem_cons.mp hdir
      simp only [finddirFrom, hat.validate, hat.cstr hfuel, hat.next hlt, hat.fileSize, flags_eq hat hhead, if_true]
      by_cases hmatch : matchesPath h.name path = true
      · rw [if_pos hmatch]
        split
        · next hlong => exact .inl ⟨rfl, fun hn => by omega⟩
        · exact .inr ⟨h, by simp, a, hat, hmatch, rfl⟩
      · rw [if_neg hmatch]
        rcases ih htail (Nat.lt_of_succ_lt_succ hturns) with ⟨hnone, hall⟩ | ⟨h', hmem, hfound⟩
        · exact .inl ⟨hnone, fun hn => forall_mem_cons.mpr ⟨by simpa using hmatch, hall hn⟩⟩
        · exact .inr ⟨h', mem_cons_of_mem h hmem, hfound⟩

/-- The nodes that `tar_vfs_finddir` gives, starting from the root. -/
inductive Reachable (b : Bytes) (base fuel : Nat) : Node → Prop
  | root : Reachable b base fuel tarFsInit
  | found {d node : Node} {n : List Byte} (hd : Reachable b base fuel d)
      (hfind : tarVfsFinddir b base fuel d n = some (some node)) : Reachable b base fuel node

section Agreement

variable (ha : Archive b base hs) (hwf : WellFormed hs) (hbase : base ≠ 0) (hfuel : 100 ≤ fuel) (hturns : hs.length < fuel)
include ha hwf hbase hfuel hturns

theorem Reachable.header (hd : Reachable b base fuel d) :
    d = tarFsInit ∨ ∃ h ∈ hs, pathOf b fuel d.deviceData = h.name ∧ d.flags = h.type := by
  cases hd with
  | root => exact .inl rfl
  | found _ hfind =>
    rw [tarVfsFinddir, if_neg hbase] at hfind
    rcases finddirFrom_spec ha hwf.directory hfuel hturns _ _ with ⟨hnone, -⟩ | ⟨h, hmem, addr, hat, -, hsome⟩
    · cases hnone.symm.trans hfind
    · cases hsome.symm.trans hfind
      exact .inr ⟨h, hmem, hat.cstr hfuel, rfl⟩

theorem Reachable.dirPath (hd : Reachable b base fuel d) (hdir : d.flags = vfsDirectory) :
    DirPath (pathOf b fuel d.deviceData) := by
  rcases hd.header ha hwf hbase hfuel hturns with rfl | ⟨h, hmem, hpath, hflags⟩
  · exact .inl rfl
  have htype : h.typeflag = 0x35 := by
    by_contra hfile
    rw [hflags, Header.type, if_neg hfile] at hdir
    cases hdir
  exact .inr (hpath ▸ (hwf.directory h hmem).mp htype)

/-- In every directory that lookups lead to, the listing has its direct children, once each and in the order of the
archive, and a lookup finds just the names that are listed, with the type and the size of the listing. -/
theorem tar_listing_and_lookup_agree (hd : Reachable b base fuel d) (hdir : d.flags = vfsDirectory) :
    let entries := (children hs (pathOf b fuel d.deviceData)).map Header.dirent
    (∀ idx < 2 ^ 32, tarVfsReaddir b base fuel d idx = some entries[idx]?) ∧
      ∀ n, n ≠ [] → slash ∉ n → n.length ≤ 127 → ∃ r, tarVfsFinddir b base fuel d n = some r ∧
        ∀ flags length, (∃ node, r = some node ∧ node.flags = flags ∧ node.length = length) ↔ ⟨n, flags, length⟩ ∈ entries := by
  have hpath := hd.dirPath ha hwf hbase hfuel hturns hdir
  generalize hp : pathOf b fuel d.deviceData = path at hpath
  refine ⟨fun idx hidx => ?_, fun n hne hn hlen => ?_⟩
  · rw [tarVfsReaddir, if_neg hbase, hp]
    exact readdirFrom_eq ha hwf.directory hpath hfuel hturns (Nat.zero_le idx) hidx
  have hlast : (path ++ n).getLast? ≠ some slash := by
    rw [getLast?_append_of_ne_nil _ hne]
    exact fun he => hn (mem_of_getLast? he)
  -- the name is listed for the header whose path, but for a slash at the end, is that of the directory and the name
  have hlisted : ∀ h : Header, (parent h.name = path ∧ leaf h.name = n) ↔ h.name = path ++ n ∨ h.name = path ++ n ++ [slash] := by
    intro h
    rw [parent_leaf_iff hpath, ← stem_iff hlast, and_iff_left hn]
  have hchars : ∀ h ∈ hs, (0 : Byte) ∉ h.name := fun h hmem => ha.chars hmem
  rw [tarVfsFinddir, if_neg hbase, hp]
  have hmem : ∀ flags length, (⟨n, flags, length⟩ : Dirent) ∈ (children hs path).map Header.dirent ↔
      ∃ h ∈ hs, matchesPath h.name (path ++ n) = true ∧ h.type = flags ∧ h.size = length := by
    intro flags length
    simp only [mem_map, children, mem_filter, decide_eq_true_eq, Header.dirent, Dirent.mk.injEq]
    constructor
    · rintro ⟨h, ⟨hh, hparent⟩, hleaf, htype, hsize⟩
      exact ⟨h, hh, (matchesPath_iff (hchars h hh)).mpr ((hlisted h).mp ⟨hparent, hleaf⟩), htype, hsize⟩
    · rintro ⟨h, hh, hmatch, htype, hsize⟩
      obtain ⟨hparent, hleaf⟩ := (hlisted h).mpr ((matchesPath_iff (hchars h hh)).mp hmatch)
      exact ⟨h, ⟨hh, hparent⟩, hleaf, htype, hsize⟩
  rcases finddirFrom_spec ha hwf.directory hfuel hturns n (path ++ n) with ⟨hnone, hall⟩ | ⟨h, hh, addr, -, hmatch, hsome⟩
  · refine ⟨none, hnone, fun flags length => ?_⟩
    rw [hmem]
    constructor
    · rintro ⟨_, hr, _⟩
      cases hr
    · rintro ⟨h, hh, hmatch, _⟩
      cases (hall (by omega) h hh).symm.trans hmatch
  · refine ⟨_, hsome, fun flags length => ?_⟩
    rw [hmem]
    constructor
    · rintro ⟨_, hr, rfl, rfl⟩
      cases hr
      exact ⟨h, hh, hmatch, rfl, rfl⟩
    · rintro ⟨h', hh', hmatch', rfl, rfl⟩
      -- no two headers have the path
      have hstem : ∀ {x : Header}, x ∈ hs → matchesPath x.name (path ++ n) = true → stem x.name = path ++ n :=
        fun hx hm => (stem_iff hlast).mpr ((matchesPath_iff (hchars _ hx)).mp hm)
      obtain rfl : h' = h := inj_on_of_nodup_map hwf.distinct hh' hh ((hstem hh' hmatch').trans (hstem hh hmatch).symm)
      exact ⟨_, rfl, rfl, rfl⟩

end Agreement

/-- The bytes of a header. -/
def Header.byte (h : Header) (k : Nat) : Byte :=
  if k < sizeField then h.name.getD k 0
  else if k < sizeField + 11 then BitVec.ofNat 8 (0x30 + h.size / 8 ^ (10 - (k - sizeField)) % 8)
  else if k = typeflagField then h.typeflag
  else if k < magicField then 0
  else magic.getD (k - magicField) 0

/-- A directory `d/` and in it the file `d/a` of five bytes. -/
def twoMembers : List Header := [⟨[0x64, slash], 0, 0x35⟩, ⟨[0x64, slash, 0x61], 5, 0x30⟩]

def twoMembersAt (base : Nat) : Bytes := fun a =>
  if a < base then 0
  else if a < base + 512 then Header.byte ⟨[0x64, slash], 0, 0x35⟩ (a - base)
  else if a < base + 1024 then Header.byte ⟨[0x64, slash, 0x61], 5, 0x30⟩ (a - base - 512)
  else 0

theorem archive_twoMembers : Archive (twoMembersAt 4096) 4096 twoMembers := by
  refine .cons ⟨by decide, by decide, by decide, by decide, by decide, by decide, by decide, by decide, by decide⟩ (by decide) ?_
  refine .cons ⟨by decide, by decide, by decide, by decide, by decide, by decide, by decide, by decide, by decide⟩ (by decide) ?_
  exact .nil (by decide +kernel)

theorem tar_listing_and_lookup_agree_twoMembers :
    ∃ d, tarVfsFinddir (twoMembersAt 4096) 4096 100 tarFsInit [0x64] = some (some d) ∧
      tarVfsReaddir (twoMembersAt 4096) 4096 100 d 0 = some (some ⟨[0x61], vfsFile, 5⟩) ∧
      tarVfsReaddir (twoMembersAt 4096) 4096 100 d 1 = some none := by
  have hfind : tarVfsFinddir (twoMembersAt 4096) 4096 100 tarFsInit [0x64] =
      some (some ⟨[0x64], vfsDirectory, 0, .header 4096⟩) := by decide +kernel
  have hlist := (tar_listing_and_lookup_agree archive_twoMembers ⟨by decide, by decide⟩ (by decide) (by decide) (by decide)
    (Reachable.found .root hfind) rfl).1
  exact ⟨_, hfind, (hlist 0 (by decide)).trans rfl, (hlist 1 (by decide)).trans rfl⟩

end NyanOS.Tar
