import NyanOS.Lib.Split
import NyanOS.Syscall.UserStrings

/-!
# Paths (`fs/vfs.c`)

`resolve_path` byte by byte, with the buffers it works in: `none` stands for a write behind the end of one of
them. `normalize` says what the result is in terms of the components of the path.
-/
namespace NyanOS.Vfs

open List Option Lib.Split

open Syscall (Name slash dot pushName normalize)

/-- The components stacked so far and the bytes of the present one. -/
structure Scan where
  stack : List Name
  nameBuf : Name

namespace Scan

def put (s : Scan) (c : BitVec 8) : Option Scan :=
  if s.nameBuf.length < 32 then some { s with nameBuf := s.nameBuf ++ [c] } else none

/-- A separator, or the end of the path: the present component ends. -/
def close (s : Scan) : Option Scan :=
  if 32 ≤ s.nameBuf.length then none
  else if s.nameBuf = [] then some s
  else if s.nameBuf = [dot, dot] then some ⟨s.stack.dropLast, []⟩
  else if s.nameBuf = [dot] then some ⟨s.stack, []⟩
  else if s.stack.length < 32 then some ⟨s.stack ++ [s.nameBuf], []⟩
  else none

def run : Scan → Name → Option Scan
  | s, [] => s.close
  | s, c :: cs => (if c = slash then s.close else s.put c).bind (run · cs)

end Scan

def joinPath (cwd inpPath : Name) : Name :=
  if inpPath.head? = some slash then inpPath
  else cwd ++ (if 1 < cwd.length ∧ cwd.getLast? ≠ some slash then [slash] else []) ++ inpPath

def resolvePath (cwd inpPath : Name) : Option Name :=
  let tmp := joinPath cwd inpPath
  if 256 ≤ tmp.length then none
  else
    let start := if tmp.head? = some slash then tmp.tail else tmp
    (Scan.run ⟨[], []⟩ start).map fun s => slash :: [slash].intercalate s.stack

/-! ### Components -/

/-- The stack after the components `cs`, on a stack that held `st`. -/
def stackAfter (st cs : List Name) : List Name := cs.foldl pushName st

/-- The stack holds at most 32 components at any time. -/
def StackFits (st cs : List Name) : Prop := ∀ seen, seen <+: cs → (stackAfter st seen).length ≤ 32

/-- A path that fits the buffers of `resolve_path`. -/
structure Fits (path : Name) : Prop where
  length : path.length < 256
  component : ∀ c ∈ path.splitOn slash, c.length ≤ 31
  stack : StackFits [] (path.splitOn slash)

variable {cwd path p q c x buf first k safePath cwd' : Name} {st cs ks rest : List Name}

theorem StackFits.tail (h : StackFits st (c :: cs)) : StackFits (pushName st c) cs :=
  fun seen hseen => h (c :: seen) (cons_prefix_cons.mpr ⟨rfl, hseen⟩)

theorem close_eq (hc : c.length ≤ 31) (hst : (pushName st c).length ≤ 32) :
    Scan.close ⟨st, c⟩ = some ⟨pushName st c, []⟩ := by
  rw [Scan.close, if_neg (by dsimp only; omega), pushName] at *
  dsimp only
  split
  · next h => rw [h]
  split
  · rfl
  split
  · rfl
  next hnil hup hdot =>
  rw [if_neg hnil, if_neg hup, if_neg hdot, length_append, length_singleton] at hst
  rw [if_pos (by omega)]

/-- The loop of `resolve_path` from the middle of a component: the bytes in the buffer belong to it. -/
theorem run_eq (hsplit : path.splitOn slash = first :: rest)
    (hcomp : ∀ c ∈ (buf ++ first) :: rest, c.length ≤ 31) (hfits : StackFits st ((buf ++ first) :: rest)) :
    Scan.run ⟨st, buf⟩ path = some ⟨stackAfter st ((buf ++ first) :: rest), []⟩ := by
  induction path generalizing st buf first rest with
  | nil =>
    rw [splitOn_nil, List.cons.injEq] at hsplit
    obtain ⟨rfl, rfl⟩ := hsplit
    rw [append_nil] at hcomp hfits ⊢
    exact close_eq (hcomp buf mem_cons_self) (hfits [buf] (prefix_refl _))
  | cons b path ih =>
    obtain ⟨first', rest', hrest⟩ := exists_splitOn slash path
    by_cases hb : b = slash
    · subst hb
      rw [splitOn_cons_self, List.cons.injEq] at hsplit
      obtain ⟨rfl, rfl⟩ := hsplit
      rw [append_nil] at hcomp hfits ⊢
      have hclose : Scan.close ⟨st, buf⟩ = some ⟨pushName st buf, []⟩ :=
        close_eq (hcomp buf mem_cons_self) (hfits [buf] (by simp))
      rw [Scan.run, if_pos rfl, hclose, bind_some]
      rw [hrest] at hcomp hfits ⊢
      exact ih hrest (fun c hc => hcomp c (mem_cons_of_mem buf hc)) hfits.tail
    · rw [splitOn_cons_of_ne hb, hrest, modifyHead_cons, List.cons.injEq] at hsplit
      obtain ⟨rfl, rfl⟩ := hsplit
      have hlen : buf.length < 32 := by
        have hall := hcomp (buf ++ b :: first') mem_cons_self
        rw [length_append, length_cons] at hall
        omega
      rw [Scan.run, if_neg hb, Scan.put, if_pos hlen, bind_some]
      rw [append_cons buf b first'] at hcomp hfits ⊢
      exact ih hrest hcomp hfits

/-! ### What is kept of a path -/

/-- A component that stays on the stack. -/
structure Kept (c : Name) : Prop where
  ne_nil : c ≠ []
  ne_dot : c ≠ [dot]
  ne_up : c ≠ [dot, dot]
  noSlash : slash ∉ c

theorem pushName_kept (h : Kept c) : pushName st c = st ++ [c] := by
  rw [pushName, if_neg h.ne_nil, if_neg h.ne_up, if_neg h.ne_dot]

theorem stackAfter_kept (h : ∀ c ∈ ks, Kept c) : stackAfter st ks = st ++ ks := by
  induction ks generalizing st with
  | nil => rw [append_nil]; rfl
  | cons c ks ih =>
    rw [stackAfter, foldl_cons, pushName_kept (h c mem_cons_self), append_cons st c ks]
    exact ih fun k hk => h k (mem_cons_of_mem c hk)

theorem kept_pushName (hc : slash ∉ c) (h : ∀ k ∈ st, Kept k) : ∀ k ∈ pushName st c, Kept k := by
  rw [pushName]
  split
  · exact h
  split
  · exact fun k hk => h k (mem_of_mem_dropLast hk)
  split
  · exact h
  next hnil hup hdot =>
  intro k hk
  rcases mem_append.mp hk with hk | hk
  · exact h k hk
  · rw [mem_singleton.mp hk]
    exact ⟨hnil, hdot, hup, hc⟩

theorem kept_stackAfter (hcs : ∀ c ∈ cs, slash ∉ c) (h : ∀ k ∈ st, Kept k) : ∀ k ∈ stackAfter st cs, Kept k := by
  induction cs generalizing st with
  | nil => exact h
  | cons c cs ih =>
    exact ih (fun d hd => hcs d (mem_cons_of_mem c hd)) (kept_pushName (hcs c mem_cons_self) h)

theorem mem_stackAfter (h : k ∈ stackAfter st cs) : k ∈ st ∨ k ∈ cs := by
  induction cs generalizing st with
  | nil => exact .inl h
  | cons c cs ih =>
    rcases ih h with hk | hk
    · rw [pushName] at hk
      split_ifs at hk
      · exact .inl hk
      · exact .inl (mem_of_mem_dropLast hk)
      · exact .inl hk
      · rcases mem_append.mp hk with hk | hk
        · exact .inl hk
        · exact .inr (mem_singleton.mp hk ▸ mem_cons_self)
    · exact .inr (mem_cons_of_mem c hk)

/-- The components that `normalize` keeps. -/
def keptOf (path : Name) : List Name := stackAfter [] (path.splitOn slash)

theorem normalize_eq (path : Name) : normalize path = slash :: [slash].intercalate (keptOf path) := rfl

theorem kept_keptOf (path : Name) : ∀ k ∈ keptOf path, Kept k :=
  kept_stackAfter not_mem_of_splitOn fun _ hk => absurd hk not_mem_nil

theorem splitOn_rebuilt (h : ∀ k ∈ ks, Kept k) (hne : ks ≠ []) :
    (slash :: [slash].intercalate ks).splitOn slash = [] :: ks := by
  rw [splitOn_cons_self, splitOn_intercalate slash (fun k hk => (h k hk).noSlash) hne]

theorem splitOn_normalize (hne : keptOf path ≠ []) : (normalize path).splitOn slash = [] :: keptOf path := by
  rw [normalize_eq, splitOn_rebuilt (kept_keptOf path) hne]

theorem keptOf_rebuilt (h : ∀ k ∈ ks, Kept k) : keptOf (slash :: [slash].intercalate ks) = ks := by
  by_cases hne : ks = []
  · rw [hne]
    rfl
  · rw [keptOf, splitOn_rebuilt h hne]
    exact (stackAfter_kept h).trans (nil_append ks)

/-! ### Lengths -/

/-- The bytes of some components, each with a separator. -/
def bytesOf (cs : List Name) : Nat := (cs.map (·.length + 1)).sum

theorem bytesOf_cons : bytesOf (c :: cs) = c.length + 1 + bytesOf cs := by
  rw [bytesOf, map_cons, sum_cons, bytesOf]

theorem bytesOf_append : bytesOf (cs ++ ks) = bytesOf cs + bytesOf ks := by
  rw [bytesOf, map_append, sum_append, bytesOf, bytesOf]

theorem bytesOf_splitOn (path : Name) : bytesOf (path.splitOn slash) = path.length + 1 := by
  induction path with
  | nil => rfl
  | cons b path ih =>
    obtain ⟨first, rest, hrest⟩ := exists_splitOn slash path
    rw [length_cons]
    by_cases hb : b = slash
    · rw [hb, splitOn_cons_self, bytesOf_cons, ih, length_nil]
      omega
    rw [splitOn_cons_of_ne hb, hrest, modifyHead_cons, bytesOf_cons, length_cons]
    rw [hrest, bytesOf_cons] at ih
    omega

theorem bytesOf_pushName : bytesOf (pushName st c) ≤ bytesOf st + (c.length + 1) := by
  rw [pushName]
  split
  · omega
  split
  · have hsplit : bytesOf st.dropLast ≤ bytesOf st := by
      rw [bytesOf, bytesOf, map_dropLast]
      exact List.Sublist.sum_le_sum (dropLast_sublist _) fun _ _ => Nat.zero_le _
    omega
  · split
    · omega
    · rw [bytesOf_append, bytesOf_cons]
      exact le_refl _

theorem bytesOf_stackAfter : bytesOf (stackAfter st cs) ≤ bytesOf st + bytesOf cs := by
  induction cs generalizing st with
  | nil => exact le_refl _
  | cons c cs ih =>
    have hstep : bytesOf (pushName st c) ≤ bytesOf st + (c.length + 1) := bytesOf_pushName
    have hrest : bytesOf (stackAfter (pushName st c) cs) ≤ bytesOf (pushName st c) + bytesOf cs := ih
    rw [bytesOf_cons]
    change bytesOf (stackAfter (pushName st c) cs) ≤ _
    omega

theorem length_rebuilt (h : ∀ k ∈ ks, Kept k) : (slash :: [slash].intercalate ks).length ≤ max 1 (bytesOf ks) := by
  by_cases hne : ks = []
  · rw [hne]
    exact le_max_left ..
  have hbytes := bytesOf_splitOn (slash :: [slash].intercalate ks)
  rw [splitOn_rebuilt h hne, bytesOf_cons, length_nil] at hbytes
  omega

theorem length_normalize_le (h : path.head? = some slash) : (normalize path).length ≤ path.length := by
  obtain ⟨tail, rfl⟩ := head?_eq_some_iff.mp h
  have hbytes : bytesOf (keptOf (slash :: tail)) ≤ bytesOf (tail.splitOn slash) := by
    have hafter : bytesOf (stackAfter [] (tail.splitOn slash)) ≤ bytesOf [] + bytesOf (tail.splitOn slash) :=
      bytesOf_stackAfter
    rw [show bytesOf [] = 0 from rfl, zero_add] at hafter
    rw [keptOf, splitOn_cons_self]
    exact hafter
  have hlen := length_rebuilt (kept_keptOf (slash :: tail))
  rw [bytesOf_splitOn] at hbytes
  rw [← normalize_eq] at hlen
  rw [length_cons]
  omega

/-! ### The results -/

theorem StackFits.kept_append (hks : ∀ k ∈ ks, Kept k) (hlen : ks.length ≤ 32) (hcs : StackFits ks cs) :
    StackFits [] ([] :: (ks ++ cs)) := by
  intro seen hseen
  cases seen with
  | nil => exact Nat.zero_le _
  | cons c seen =>
    obtain ⟨rfl, htail⟩ := cons_prefix_cons.mp hseen
    change (stackAfter [] seen).length ≤ 32
    rcases prefix_or_prefix_of_prefix htail (prefix_append ks cs) with hin | ⟨more, rfl⟩
    · rw [stackAfter_kept fun k hmem => hks k (hin.subset hmem), nil_append]
      exact hin.length_le.trans hlen
    have hmore : stackAfter [] (ks ++ more) = stackAfter ks more := by
      rw [stackAfter, foldl_append]
      exact congrArg (fun st => stackAfter st more) ((stackAfter_kept hks).trans (nil_append ks))
    rw [hmore]
    exact hcs more ((prefix_append_right_inj ks).mp htail)

theorem Fits.of_kept (h : Fits path) (hlen : x.length < 256) (hsplit : x.splitOn slash = [] :: (keptOf path ++ cs))
    (hcs : ∀ c ∈ cs, c.length ≤ 31) (hstack : StackFits (keptOf path) cs) : Fits x := by
  refine ⟨hlen, ?_, ?_⟩
  · rw [hsplit]
    intro c hc
    rcases mem_cons.mp hc with rfl | hc
    · exact Nat.zero_le _
    rcases mem_append.mp hc with hc | hc
    · rcases mem_stackAfter hc with hc | hc
      · exact absurd hc not_mem_nil
      · exact h.component c hc
    · exact hcs c hc
  · rw [hsplit]
    exact StackFits.kept_append (kept_keptOf path) (h.stack _ (prefix_refl _)) hstack

/-- Where the loop of `resolve_path` starts. -/
def skipSlash (tmp : Name) : Name := if tmp.head? = some slash then tmp.tail else tmp

theorem splitOn_skipSlash (tmp : Name) : ∃ first rest, (skipSlash tmp).splitOn slash = first :: rest ∧
    (tmp.splitOn slash = first :: rest ∨ tmp.splitOn slash = [] :: first :: rest) := by
  obtain ⟨first, rest, hrest⟩ := exists_splitOn slash (skipSlash tmp)
  refine ⟨first, rest, hrest, ?_⟩
  unfold skipSlash at hrest
  split at hrest
  · next habs =>
    obtain ⟨tail, rfl⟩ := head?_eq_some_iff.mp habs
    exact .inr (splitOn_cons_self.trans (congrArg _ hrest))
  · exact .inl hrest

theorem resolvePath_eq (h : Fits (joinPath cwd path)) : resolvePath cwd path = some (normalize (joinPath cwd path)) := by
  obtain ⟨first, rest, hstart, hsplit⟩ := splitOn_skipSlash (joinPath cwd path)
  have hcomp := h.component
  have hstack := h.stack
  have hrun : Scan.run ⟨[], []⟩ (skipSlash (joinPath cwd path)) = some ⟨keptOf (joinPath cwd path), []⟩ := by
    rw [keptOf]
    rcases hsplit with hsplit | hsplit
    · rw [hsplit] at hcomp hstack ⊢
      exact run_eq hstart hcomp hstack
    rw [hsplit] at hcomp hstack ⊢
    change _ = some (⟨stackAfter [] (first :: rest), []⟩ : Scan)
    exact run_eq hstart (fun c hc => hcomp c (mem_cons_of_mem [] hc)) hstack.tail
  rw [resolvePath, if_neg (not_le.mpr h.length), normalize_eq]
  exact congrArg (Option.map fun s : Scan => slash :: [slash].intercalate s.stack) hrun

theorem joinPath_abs (hcwd : cwd.head? = some slash) (path : Name) : (joinPath cwd path).head? = some slash := by
  rw [joinPath]
  split
  · assumption
  · rw [append_assoc, head?_append, hcwd]
    rfl

theorem joinPath_append (hp : p ≠ []) (q : Name) : joinPath cwd (p ++ slash :: q) = joinPath cwd p ++ slash :: q := by
  obtain ⟨b, bs, rfl⟩ := exists_cons_of_ne_nil hp
  rw [joinPath, joinPath, cons_append, head?_cons, head?_cons]
  split
  · rfl
  · rw [append_assoc (cwd ++ _)]
    rfl

theorem fits_normalize (hlen : (normalize path).length < 256) (h : Fits path) : Fits (normalize path) := by
  have hfull : (keptOf path).length ≤ 32 := h.stack _ (prefix_refl _)
  by_cases hne : keptOf path = []
  · have hsplit : (normalize path).splitOn slash = [] :: (keptOf path ++ [[]]) := by
      rw [normalize_eq, hne]
      rfl
    refine h.of_kept hlen hsplit (by simp) fun seen hseen => ?_
    rcases prefix_cons_iff.mp hseen with rfl | ⟨seen, rfl, hnil⟩
    · exact hfull
    · rw [prefix_nil.mp hnil]
      exact hfull
  · have hsplit : (normalize path).splitOn slash = [] :: (keptOf path ++ []) := by
      rw [splitOn_normalize hne, append_nil]
    refine h.of_kept hlen hsplit (by simp) fun seen hseen => ?_
    rw [prefix_nil.mp hseen]
    exact hfull

theorem normalize_normalize (path : Name) : normalize (normalize path) = normalize path := by
  rw [normalize_eq (normalize path), normalize_eq path, keptOf_rebuilt (kept_keptOf path)]

theorem length_normalize_gt (hne : keptOf path ≠ []) : 1 < (normalize path).length := by
  obtain ⟨k, ks, hks⟩ := exists_cons_of_ne_nil hne
  have hk : k ≠ [] := (kept_keptOf path k (hks ▸ mem_cons_self)).ne_nil
  have hpos : 0 < k.length := length_pos_of_ne_nil hk
  have hbytes := bytesOf_splitOn (normalize path)
  rw [splitOn_normalize hne, hks, bytesOf_cons, bytesOf_cons, length_nil] at hbytes
  omega

theorem getLast_normalize (hne : keptOf path ≠ []) : (normalize path).getLast? ≠ some slash := by
  intro hlast
  obtain ⟨init, hinit⟩ := getLast?_eq_some_iff.mp hlast
  have hsplit := splitOn_normalize hne
  rw [hinit, splitOn_append_cons, splitOn_nil] at hsplit
  have hempty : ([] : Name) ∈ keptOf path := by
    have hlast := congrArg List.getLast? hsplit
    rw [getLast?_concat, getLast?_cons_of_ne_nil hne] at hlast
    exact mem_of_getLast? hlast.symm
  exact (kept_keptOf path _ hempty).ne_nil rfl

theorem splitOn_join (hq : q.head? ≠ some slash) :
    (joinPath (normalize path) q).splitOn slash = [] :: (keptOf path ++ q.splitOn slash) := by
  rw [joinPath, if_neg hq]
  by_cases hne : keptOf path = []
  · rw [normalize_eq, hne]
    exact splitOn_cons_self
  rw [if_pos ⟨length_normalize_gt hne, getLast_normalize hne⟩, append_assoc, singleton_append,
    splitOn_append_cons, splitOn_normalize hne]
  rfl

theorem length_join_le (habs : path.head? = some slash) (hq : q.head? ≠ some slash) :
    (joinPath (normalize path) q).length ≤ (path ++ slash :: q).length := by
  have hlen := length_normalize_le habs
  rw [joinPath, if_neg hq]
  simp only [length_append, length_cons]
  split
  · rw [length_singleton]
    omega
  · rw [length_nil]
    omega

/-- The path joined with a relative one has the same meaning after normalising its first part. -/
theorem keptOf_join (hq : q.head? ≠ some slash) : keptOf (joinPath (normalize path) q) = keptOf (path ++ slash :: q) := by
  rw [keptOf, keptOf, splitOn_join hq, splitOn_append_cons, stackAfter, stackAfter, foldl_append]
  change List.foldl pushName [] (keptOf path ++ q.splitOn slash) = _
  rw [foldl_append]
  exact congrArg (fun st => stackAfter st (q.splitOn slash))
    ((stackAfter_kept (kept_keptOf path)).trans (nil_append _))

theorem Fits.left (h : Fits (p ++ slash :: q)) : Fits p := by
  have hcomp := h.component
  have hstack := h.stack
  have hlen := h.length
  rw [splitOn_append_cons] at hcomp hstack
  rw [length_append] at hlen
  exact ⟨by omega, fun c hc => hcomp c (mem_append_left _ hc),
    fun seen hseen => hstack seen (hseen.trans (prefix_append ..))⟩

theorem Fits.join (habs : path.head? = some slash) (hq : q.head? ≠ some slash) (h : Fits (path ++ slash :: q)) :
    Fits (joinPath (normalize path) q) := by
  have hcomp := h.component
  have hstack := h.stack
  rw [splitOn_append_cons] at hcomp hstack
  refine h.left.of_kept ((length_join_le habs hq).trans_lt h.length) (splitOn_join hq)
    (fun c hc => hcomp c (mem_append_right _ hc)) fun seen hseen => ?_
  have hall := hstack (path.splitOn slash ++ seen) ((prefix_append_right_inj _).mpr hseen)
  rwa [stackAfter, foldl_append] at hall

/-- `resolve_path` is canonical and compositional, for an absolute working directory and paths that fit. -/
theorem resolvePath_canonical (hcwd : cwd.head? = some slash) : (∀ path, Fits (joinPath cwd path) →
      resolvePath cwd path = some (normalize (joinPath cwd path)) ∧
      ∀ cwd', resolvePath cwd' (normalize (joinPath cwd path)) = some (normalize (joinPath cwd path))) ∧
    ∀ p q, p ≠ [] → q.head? ≠ some slash → Fits (joinPath cwd (p ++ slash :: q)) →
      (resolvePath cwd p).bind (resolvePath · q) = resolvePath cwd (p ++ slash :: q) := by
  constructor
  · intro path h
    refine ⟨resolvePath_eq h, fun cwd' => ?_⟩
    have hself : joinPath cwd' (normalize (joinPath cwd path)) = normalize (joinPath cwd path) := if_pos rfl
    have hfits : Fits (joinPath cwd' (normalize (joinPath cwd path))) := by
      rw [hself]
      exact fits_normalize ((length_normalize_le (joinPath_abs hcwd path)).trans_lt h.length) h
    rw [resolvePath_eq hfits, hself, normalize_normalize]
  · intro p q hp hq h
    have habs := joinPath_abs hcwd p
    have hjoin : Fits (joinPath cwd p ++ slash :: q) := joinPath_append hp q ▸ h
    have hright : resolvePath cwd (p ++ slash :: q) = some (normalize (joinPath cwd p ++ slash :: q)) := by
      rw [resolvePath_eq h, joinPath_append hp]
    have hfirst := resolvePath_eq hjoin.left
    have hsecond := resolvePath_eq (hjoin.join habs hq)
    rw [hfirst, bind_some, hright, hsecond, normalize_eq, keptOf_join hq, normalize_eq]

/-- `/a` and `b/..`, then `../c`: the result is `/c`. -/
theorem resolvePath_canonical_up :
    let a : BitVec 8 := 0x61
    let b : BitVec 8 := 0x62
    let c : BitVec 8 := 0x63
    (resolvePath [slash, a] [b, slash, dot, dot]).bind (resolvePath · [dot, dot, slash, c]) = some [slash, c] := by
  intro a b c
  have hstack : ∀ seen ∈ ([[], [a], [b], [dot, dot], [dot, dot], [c]] : List Name).inits,
      (stackAfter [] seen).length ≤ 32 := by decide
  have hfits : Fits (joinPath [slash, a] ([b, slash, dot, dot] ++ slash :: [dot, dot, slash, c])) :=
    ⟨by decide, by decide, fun seen hseen => hstack seen ((mem_inits ..).mpr hseen)⟩
  rw [(resolvePath_canonical rfl).2 _ _ (by decide) (by decide) hfits]
  decide

/-- `sys_chdir` with the path copied from the user: the result and the working directory afterwards. -/
def sysChdir (cwd safePath : Name) : Option (Int × Name) :=
  (resolvePath cwd safePath).map fun newPath => if 255 ≤ newPath.length then (-1, cwd) else (0, newPath)

theorem sysChdir_absolute {r : Int} (hcwd : cwd.head? = some slash)
    (h : sysChdir cwd safePath = some (r, cwd')) : cwd'.head? = some slash := by
  obtain ⟨newPath, hnew, hres⟩ := map_eq_some_iff.mp h
  split at hres
  · cases hres
    exact hcwd
  cases hres
  rw [resolvePath] at hnew
  dsimp only at hnew
  split at hnew
  · cases hnew
  obtain ⟨s, -, hs⟩ := map_eq_some_iff.mp hnew
  rw [← hs]
  rfl

end NyanOS.Vfs
