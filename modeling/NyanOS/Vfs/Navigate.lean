import Mathlib.Data.List.TakeWhile
import NyanOS.Vfs.ResolvePath

/-!
# The walk along a path (`vfs_navigate`)

The file systems are arbitrary: `finddir` may be missing, may fail and may change the state. The loops of the source have
fuel, and `none` means that it did not suffice.
-/
namespace NyanOS.Vfs

open List Option Lib.Split

open Syscall (Name slash)

variable {N σ : Type}

/-- `free` is what is done with a node that is marked. -/
structure FileSystem (N σ : Type) where
  flags : σ → N → BitVec 32
  finddir : N → Option (Name → σ → Option N × σ)
  free : N → σ → σ

structure Mount (N : Type) where
  path : Name
  root : Option N

def vfsDirectory : BitVec 32 := 0x02

def vfsNodeAutofree : BitVec 32 := 0x10

/-- The loop that copies a component: with 127 bytes it does not move any more. -/
def takeName : Nat → Name → Name → Option (Name × Name)
  | 0, _, _ => none
  | _ + 1, name, [] => some (name, [])
  | fuel + 1, name, c :: path =>
    if c = slash then some (name, c :: path)
    else if name.length < 127 then takeName fuel (name ++ [c]) path
    else takeName fuel name (c :: path)

def Mount.covers (m : Mount N) (path : Name) : Bool :=
  m.path.isPrefixOf path && (path[m.path.length]? == some slash || path.length == m.path.length || m.path.length == 1)

def bestMount (mounts : List (Mount N)) (path : Name) : Option (Mount N) :=
  mounts.foldl (fun best m => if m.covers path ∧ ∀ b ∈ best, b.path.length < m.path.length then some m else best) none

section
variable [DecidableEq N] (fs : FileSystem N σ) (root : N)

/-- A component in a directory: the next node, and the name if it was looked up. -/
def lookup (node : N) (name : Name) (s : σ) : Option N × List Name × σ :=
  if fs.flags s node ≠ vfsDirectory then (none, [], s)
  else
    match fs.finddir node with
    | none => (none, [], s)
    | some finddir =>
      let (next, s) := finddir name s
      (next, [name], if node ≠ root ∧ fs.flags s node &&& vfsNodeAutofree ≠ 0 then fs.free node s else s)

/-- The result, and the names that were looked up. -/
def walk : Nat → N → Name → σ → Option (Option N × List Name × σ)
  | 0, _, _, _ => none
  | fuel + 1, node, path, s =>
    match path.dropWhile (· = slash) with
    | [] => some (some node, [], s)
    | c :: rest =>
      (takeName fuel [] (c :: rest)).bind fun (name, rest) =>
        match lookup fs root node name s with
        | (none, seen, s) => some (none, seen, s)
        | (some next, seen, s) => (walk fuel next rest s).map fun (r, names, s) => (r, seen ++ names, s)

end

def vfsNavigate [DecidableEq N] (fs : FileSystem N σ) (mounts : List (Mount N)) (fuel : Nat) (path : Name) (s : σ) :
    Option (Option N × List Name × σ) :=
  match bestMount mounts path with
  | none | some ⟨_, none⟩ => some (none, [], s)
  | some ⟨point, some root⟩ => walk fs root fuel root (path.drop point.length) s

/-! ### Components -/

def components (path : Name) : List Name := (path.splitOn slash).filter (· ≠ [])

variable {path name rest r : Name} {fuel : Nat} {c : BitVec 8}

theorem components_slash : components (slash :: path) = components path := by
  rw [components, splitOn_cons_self, filter_cons_of_neg (by simp), components]

theorem components_dropWhile : components (path.dropWhile (· = slash)) = components path := by
  induction path with
  | nil => rfl
  | cons b path ih =>
    by_cases hb : b = slash
    · rw [dropWhile_cons_of_pos (by simpa using hb), ih, hb, components_slash]
    · rw [dropWhile_cons_of_neg (by simpa using hb)]

theorem dropWhile_slash_cons (h : path.dropWhile (· = slash) = c :: rest) :
    c ≠ slash ∧ (c :: rest).length ≤ path.length := by
  have hhead := head?_dropWhile_not (fun b => decide (b = slash)) path
  have hle := (dropWhile_suffix (fun b => decide (b = slash)) (l := path)).length_le
  rw [h] at hhead hle
  exact ⟨by simpa using hhead, hle⟩

theorem components_cons (hc : c ≠ slash) : components (c :: path) =
    (c :: path).takeWhile (· ≠ slash) :: components ((c :: path).dropWhile (· ≠ slash)) := by
  have hjoin := takeWhile_append_dropWhile (p := fun b => decide (b ≠ slash)) (l := c :: path)
  have hfirst : slash ∉ (c :: path).takeWhile (· ≠ slash) := fun hmem => by simpa using mem_takeWhile_imp hmem
  have hne : (c :: path).takeWhile (· ≠ slash) ≠ [] := by simp [hc]
  have hhead := head?_dropWhile_not (fun b => decide (b ≠ slash)) (c :: path)
  generalize (c :: path).takeWhile (· ≠ slash) = first at hjoin hfirst hne
  generalize (c :: path).dropWhile (· ≠ slash) = rest at hjoin hhead
  rw [← hjoin]
  cases rest with
  | nil => rw [append_nil, components, splitOn_of_not_mem hfirst, filter_cons_of_pos (by simpa using hne)]; rfl
  | cons b rest =>
    obtain rfl : b = slash := by simpa using hhead
    rw [components_slash, components, splitOn_append_cons, splitOn_of_not_mem hfirst, singleton_append,
      filter_cons_of_pos (by simpa using hne), components]

theorem takeName_some (h : takeName fuel name path = some (r, rest)) : r = name ++ path.takeWhile (· ≠ slash) ∧
    rest = path.dropWhile (· ≠ slash) ∧ (name.length ≤ 127 → r.length ≤ 127) := by
  fun_induction takeName fuel name path with
  | case1 => cases h
  | case2 =>
    cases h
    simp
  | case3 =>
    cases h
    simp
  | case4 fuel name c path hc hlen ih =>
    obtain ⟨hr, hrest, hshort⟩ := ih h
    rw [length_append, length_singleton] at hshort
    rw [takeWhile_cons_of_pos (by simpa using hc), dropWhile_cons_of_pos (by simpa using hc)]
    exact ⟨by rw [hr, append_assoc, singleton_append], hrest, fun _ => hshort (by omega)⟩
  | case5 _ _ _ _ _ _ ih => exact ih h

theorem takeName_enough (hshort : (name ++ path.takeWhile (· ≠ slash)).length ≤ 127) (hf : path.length < fuel) :
    takeName fuel name path = some (name ++ path.takeWhile (· ≠ slash), path.dropWhile (· ≠ slash)) := by
  fun_induction takeName fuel name path with
  | case1 => omega
  | case2 => simp
  | case3 => simp
  | case4 fuel name c path hc hlen ih =>
    rw [takeWhile_cons_of_pos (by simpa using hc), append_cons name] at hshort
    rw [takeWhile_cons_of_pos (by simpa using hc), dropWhile_cons_of_pos (by simpa using hc), append_cons name _ (takeWhile _ _)]
    exact ih hshort (Nat.lt_of_succ_lt_succ hf)
  | case5 fuel name c path hc hlen ih =>
    rw [takeWhile_cons_of_pos (by simpa using hc), length_append, length_cons] at hshort
    omega

/-! ### The walk -/

section
variable [DecidableEq N] (fs : FileSystem N σ) (root : N)

/-- The components that the walk copies: up to the first that has no node. -/
def extracted : N → List Name → σ → List Name
  | _, [], _ => []
  | node, c :: cs, s =>
    c :: match lookup fs root node c s with
      | (none, _, _) => []
      | (some next, _, s) => extracted next cs s

variable {fs root} {node : N} {s s' : σ} {result : Option N} {names : List Name}

theorem lookup_names : ∀ c ∈ (lookup fs root node name s).2.1, c = name := by
  intro c hc
  unfold lookup at hc
  split at hc
  · cases hc
  split at hc
  · cases hc
  · exact mem_singleton.mp hc

theorem walk_some (h : walk fs root fuel node path s = some (result, names, s')) :
    (∀ c ∈ extracted fs root node (components path) s, c.length ≤ 127) ∧ ∀ c ∈ names, c ∈ components path := by
  fun_induction walk fs root fuel node path s generalizing names with
  | case1 => cases h
  | case2 fuel node path s hdrop =>
    cases h
    rw [← components_dropWhile, hdrop]
    exact ⟨fun _ hc => (not_mem_nil hc).elim, fun _ hc => (not_mem_nil hc).elim⟩
  | case3 fuel node path s c rest hdrop ih =>
    obtain ⟨⟨name, rest⟩, htake, h⟩ := bind_eq_some_iff.mp h
    obtain ⟨hname, rfl, hshort⟩ := takeName_some htake
    rw [nil_append] at hname
    rw [← components_dropWhile, hdrop, components_cons (dropWhile_slash_cons hdrop).1, ← hname, extracted]
    have hseen : ∀ c ∈ (lookup fs root node name s).2.1, c = name := lookup_names
    dsimp only at h
    generalize lookup fs root node name s = found at h hseen ⊢
    obtain ⟨_ | next, seen, t⟩ := found
    · cases h
      refine ⟨fun c hc => ?_, fun c hc => mem_cons.mpr (.inl (hseen c hc))⟩
      rw [mem_singleton.mp hc]
      exact hshort (Nat.zero_le _)
    · obtain ⟨⟨_, later, _⟩, hwalk, heq⟩ := map_eq_some_iff.mp h
      cases heq
      obtain ⟨hlater, hnames⟩ := ih _ _ _ hwalk
      refine ⟨forall_mem_cons.mpr ⟨hshort (Nat.zero_le _), hlater⟩, fun c hc => mem_cons.mpr ?_⟩
      exact (mem_append.mp hc).imp (hseen c) (hnames c)

theorem walk_enough (h : ∀ c ∈ extracted fs root node (components path) s, c.length ≤ 127)
    (hf : path.length + 1 < fuel) : (walk fs root fuel node path s).isSome := by
  fun_induction walk fs root fuel node path s with
  | case1 => omega
  | case2 => rfl
  | case3 fuel node path s c rest hdrop ih =>
    obtain ⟨hc, hle⟩ := dropWhile_slash_cons hdrop
    rw [← components_dropWhile, hdrop, components_cons hc, extracted] at h
    obtain ⟨hname, hlater⟩ := forall_mem_cons.mp h
    rw [takeName_enough (by rwa [nil_append]) (by omega), nil_append, bind_some]
    dsimp only
    generalize lookup fs root node _ s = found at hlater ⊢
    obtain ⟨_ | next, seen, t⟩ := found
    · rfl
    · have hrest := (dropWhile_suffix (fun b => decide (b ≠ slash)) (l := rest)).length_le
      rw [isSome_map]
      refine ih _ _ _ hlater ?_
      rw [dropWhile_cons_of_pos (by simpa using hc)]
      rw [length_cons] at hle
      omega

end

theorem bestMount_covers {mounts : List (Mount N)} {m : Mount N} (h : bestMount mounts path = some m) :
    m ∈ mounts ∧ m.covers path := by
  unfold bestMount at h
  refine foldlRecOn (motive := fun best => best = some m → m ∈ mounts ∧ m.covers path) mounts _ (b := none) nofun
    (fun best hbest next hnext heq => ?_) h
  split at heq
  · next hcovers =>
    cases heq
    exact ⟨hnext, hcovers.1⟩
  · exact hbest heq

theorem Mount.covers_components {m : Mount N} (h : m.covers path) (hone : m.path.length = 1 → m.path = [slash])
    (hc : name ∈ components (path.drop m.path.length)) : name ∈ components path := by
  simp only [covers, Bool.and_eq_true, Bool.or_eq_true, isPrefixOf_iff_prefix, beq_iff_eq] at h
  obtain ⟨⟨rest, rfl⟩, hnext⟩ := h
  rw [drop_left] at hc
  rw [getElem?_append_right le_rfl, Nat.sub_self, length_append] at hnext
  rcases hnext with (hnext | hnext) | hnext
  · obtain ⟨rest, rfl⟩ : ∃ tail, rest = slash :: tail := head?_eq_some_iff.mp (by rwa [head?_eq_getElem?])
    rw [components_slash] at hc
    rw [components, splitOn_append_cons, filter_append]
    exact mem_append_right _ hc
  · rw [eq_nil_of_length_eq_zero (show rest.length = 0 by omega)] at hc
    cases hc
  · rwa [hone hnext, singleton_append, components_slash]

/-- The components that `vfs_navigate` copies out of the path behind the mount point. -/
def namesTaken [DecidableEq N] (fs : FileSystem N σ) (mounts : List (Mount N)) (path : Name) (s : σ) : List Name :=
  match bestMount mounts path with
  | none | some ⟨_, none⟩ => []
  | some ⟨point, some root⟩ => extracted fs root root (components (path.drop point.length)) s

/-- A file system of one directory without files, mounted at the given path. -/
def bareFs : FileSystem Unit Unit := ⟨fun _ _ => vfsDirectory, fun _ => some fun _ s => (none, s), fun _ s => s⟩

theorem bareFs_stuck (hplain : slash ∉ name) (hlong : 127 < name.length) :
    vfsNavigate bareFs [⟨[slash], some ()⟩] fuel (slash :: name) () = none := by
  have hbest : bestMount [⟨[slash], some ()⟩] (slash :: name) = some ⟨[slash], some ()⟩ := by
    simp [bestMount, Mount.covers]
  have hsplit : components name = [name] := by
    rw [components, splitOn_of_not_mem hplain, filter_cons_of_pos (by simpa using ne_nil_of_length_pos (by omega))]
    rfl
  refine eq_none_iff_forall_ne_some.mpr fun ⟨result, names, s'⟩ hwalk => ?_
  rw [vfsNavigate, hbest] at hwalk
  have hshort := (walk_some hwalk).1 name (by simp [hsplit, extracted])
  omega

end NyanOS.Vfs
