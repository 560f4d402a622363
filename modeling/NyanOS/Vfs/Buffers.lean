import Mathlib.Data.List.DropRight
import NyanOS.Vfs.ResolvePath

/-!
# Paths in their buffers (`fs/vfs.c`, `arch/syscall.c`)

What four system calls make of a string of the user: it is copied, cut to 255 bytes, and resolved into a buffer of 256
bytes. `none` stands for a write behind the end of a buffer, as in `resolve_path`.
-/
namespace NyanOS.Vfs

open List Option Lib.Split

open Syscall (Name Addr Bytes slash pushName normalize)

variable {cwd path c buf first full : Name} {st cs rest : List Name} {s : Scan}

/-- `resolve_path` with its output of 256 bytes. -/
def resolveInto (cwd inpPath : Name) : Option Name :=
  (resolvePath cwd inpPath).bind fun full => if full.length < 256 then some full else none

/-- How `vfs_open` splits the name of a file that it creates; without a separator it gives up. -/
def splitParent (filename : Name) : Option (Option (Name × Name)) :=
  let childName := filename.rtakeWhile (· ≠ slash)
  match filename.length - childName.length with
  | 0 => some none
  | lastSlash + 1 =>
    if lastSlash < 128 ∧ childName.length < 128 then
      some (some (if lastSlash = 0 then [slash] else filename.take lastSlash, childName))
    else none

/-! ### What a finished walk says -/

theorem StackFits.cons (hst : st.length ≤ 32) (h : StackFits (pushName st c) cs) : StackFits st (c :: cs) := by
  intro seen hseen
  rcases prefix_cons_iff.mp hseen with rfl | ⟨seen, rfl, hin⟩
  · exact hst
  · exact h seen hin

theorem close_some (hst : st.length ≤ 32) (h : Scan.close ⟨st, c⟩ = some s) :
    c.length ≤ 31 ∧ s = ⟨pushName st c, []⟩ ∧ (pushName st c).length ≤ 32 := by
  unfold Scan.close at h
  unfold pushName
  dsimp only at h
  split at h
  · cases h
  refine ⟨by omega, ?_⟩
  split_ifs at h ⊢ with hnil hup hdot hroom
  · cases h
    exact ⟨by rw [hnil], hst⟩
  · cases h
    exact ⟨rfl, (dropLast_sublist _).length_le.trans hst⟩
  · cases h
    exact ⟨rfl, hst⟩
  · cases h
    exact ⟨rfl, by rw [length_append, length_singleton]; omega⟩

theorem run_some (hst : st.length ≤ 32) (hsplit : path.splitOn slash = first :: rest)
    (h : Scan.run ⟨st, buf⟩ path = some s) :
    (∀ c ∈ (buf ++ first) :: rest, c.length ≤ 31) ∧ StackFits st ((buf ++ first) :: rest) := by
  induction path generalizing st buf first rest with
  | nil =>
    rw [splitOn_nil, cons.injEq] at hsplit
    obtain ⟨rfl, rfl⟩ := hsplit
    obtain ⟨hlen, -, hpush⟩ := close_some hst h
    rw [append_nil, forall_mem_singleton]
    exact ⟨hlen, .cons hst fun seen hseen => by rw [prefix_nil.mp hseen]; exact hpush⟩
  | cons b path ih =>
    obtain ⟨first', rest', hrest⟩ := exists_splitOn slash path
    rw [Scan.run] at h
    obtain ⟨u, hu, hrun⟩ := bind_eq_some_iff.mp h
    split at hu
    · next hb =>
      rw [hb, splitOn_cons_self, hrest, cons.injEq] at hsplit
      obtain ⟨rfl, rfl⟩ := hsplit
      obtain ⟨hlen, rfl, hpush⟩ := close_some hst hu
      obtain ⟨hcomp, hfits⟩ := ih hpush hrest hrun
      rw [append_nil]
      exact ⟨forall_mem_cons.mpr ⟨hlen, hcomp⟩, .cons hst hfits⟩
    · next hb =>
      rw [splitOn_cons_of_ne hb, hrest, modifyHead_cons, cons.injEq] at hsplit
      obtain ⟨rfl, rfl⟩ := hsplit
      obtain ⟨-, hput⟩ := ite_none_right_eq_some.mp hu
      cases hput
      rw [append_cons buf b first']
      exact ih hst hrest hrun

theorem fits_of_resolvePath (h : resolvePath cwd path = some full) : Fits (joinPath cwd path) := by
  obtain ⟨first, rest, hstart, hsplit⟩ := splitOn_skipSlash (joinPath cwd path)
  unfold resolvePath at h
  dsimp only at h
  split at h
  · cases h
  next hlen =>
  obtain ⟨s, hs, -⟩ := map_eq_some_iff.mp h
  obtain ⟨hcomp, hfits⟩ := run_some (Nat.zero_le _) hstart hs
  refine ⟨Nat.not_le.mp hlen, ?_, ?_⟩
  · rcases hsplit with hsplit | hsplit
    · rwa [hsplit]
    · rw [hsplit]
      exact forall_mem_cons.mpr ⟨Nat.zero_le _, hcomp⟩
  · rcases hsplit with hsplit | hsplit
    · rwa [hsplit]
    · rw [hsplit]
      exact .cons (Nat.zero_le _) hfits

theorem resolveInto_iff : resolveInto cwd path = some full ↔
    (Fits (joinPath cwd path) ∧ (normalize (joinPath cwd path)).length < 256) ∧ full = normalize (joinPath cwd path) := by
  unfold resolveInto
  constructor
  · intro h
    obtain ⟨out, hout, hlen⟩ := bind_eq_some_iff.mp h
    have hfits := fits_of_resolvePath hout
    rw [resolvePath_eq hfits] at hout
    cases hout
    obtain ⟨hlen, hfull⟩ := ite_none_right_eq_some.mp hlen
    exact ⟨⟨hfits, hlen⟩, (some.inj hfull).symm⟩
  · rintro ⟨⟨hfits, hlen⟩, rfl⟩
    rw [resolvePath_eq hfits, bind_some, if_pos hlen]

theorem splitParent_iff (hslash : slash ∈ full) (hcomp : ∀ c ∈ full.splitOn slash, c.length ≤ 31) :
    (splitParent full).isSome ↔ (full.rdropWhile (· ≠ slash)).length ≤ 128 := by
  have hjoin : full.rdropWhile (· ≠ slash) ++ full.rtakeWhile (· ≠ slash) = full := rdropWhile_append_rtakeWhile
  have hchild : slash ∉ full.rtakeWhile (· ≠ slash) := fun hmem => by simpa using mem_rtakeWhile_imp hmem
  unfold splitParent
  dsimp only
  generalize hparent : full.rdropWhile (· ≠ slash) = parent at hjoin ⊢
  generalize full.rtakeWhile (· ≠ slash) = child at hjoin hchild ⊢
  have hne : parent ≠ [] := by
    rintro rfl
    exact hchild (by rwa [show child = full from hjoin])
  have hlast : parent.getLast hne = slash := by
    subst hparent
    simpa using rdropWhile_last_not _ _ hne
  have hshort : child.length ≤ 31 := by
    rw [← hjoin, ← dropLast_append_getLast hne, hlast, append_assoc, singleton_append, splitOn_append_cons] at hcomp
    refine hcomp child (mem_append_right _ ?_)
    rw [splitOn_of_not_mem hchild]
    exact mem_singleton_self child
  have hlength := congrArg length hjoin
  have hpos := length_pos_of_ne_nil hne
  rw [length_append] at hlength
  obtain ⟨k, hk⟩ : ∃ k, full.length - child.length = k + 1 := ⟨parent.length - 1, by omega⟩
  rw [hk]
  dsimp only
  split
  · simp only [isSome_some, true_iff]
    omega
  · simp only [isSome_none, Bool.false_eq_true, false_iff]
    omega

/-- All indices of `resolve_path` are in bounds just if the joined path fits and the result has less than 256 bytes, and
those of the split just if it finds the last separator in the first 128 bytes. -/
theorem path_buffers_iff (cwd path : Name) :
    ((resolveInto cwd path).isSome ↔ Fits (joinPath cwd path) ∧ (normalize (joinPath cwd path)).length < 256) ∧
    ∀ full, resolveInto cwd path = some full →
      ((splitParent full).isSome ↔ (full.rdropWhile (· ≠ slash)).length ≤ 128) := by
  refine ⟨?_, fun full hfull => ?_⟩
  · rw [isSome_iff_exists]
    simp only [resolveInto_iff, exists_and_left, exists_eq, and_true]
  · obtain ⟨⟨hfits, hlen⟩, rfl⟩ := resolveInto_iff.mp hfull
    exact splitParent_iff mem_cons_self (fits_normalize hlen hfits).component

/-- A name of 32 bytes is too long for `name_buf`, and six names of 30 bytes are too long for `parent_path`. -/
theorem path_past_buffers : resolveInto [slash] (replicate 32 0x61) = none ∧
    (resolveInto [slash] (replicate 6 (slash :: replicate 30 0x61)).flatten).bind splitParent = none := by
  decide +kernel

/-! ### Long strings -/

variable {m : Bytes} {a : Addr} {str : Name} {n : Nat}

/-- The loop of `copy_string_from_user`, with the bytes that there is room for. -/
def copyFrom (m : Bytes) : Addr → Nat → Option Name
  | _, 0 => some []
  | src, left + 1 =>
    if !verifyUsrAccess src 1#64 then none
    else if m src = 0#8 then some []
    else (copyFrom m (src + 1#64) left).map (m src :: ·)

def copyStringFromUser (m : Bytes) (src : Addr) (maxLen : Nat) : Option Name :=
  (copyFrom m src maxLen).map (take (maxLen - 1))

inductive PathCall where
  | sysOpen
  | sysChdir
  | sysMkdir
  | sysUnlink
  deriving DecidableEq

/-- Where a relative path starts. -/
def PathCall.base (call : PathCall) (cwd : Name) : Name :=
  match call with
  | .sysOpen | .sysChdir => cwd
  | .sysMkdir | .sysUnlink => if cwd = [] then [slash] else cwd

/-- The path that a call acts on, or that it fails; `sys_open` has found a free descriptor. -/
def PathCall.target (call : PathCall) (m : Bytes) (src : Addr) (cwd : Name) : Option (Option Name) :=
  match copyStringFromUser m src 256 with
  | none => some none
  | some safePath => (resolveInto (call.base cwd) safePath).map fun full =>
    if call ≠ .sysOpen ∧ 255 ≤ full.length then none else some full

/-- A string of the user with its terminator. -/
def StringAt (m : Bytes) : Addr → Name → Prop
  | a, [] => m a = 0#8
  | a, c :: str => m a = c ∧ c ≠ 0#8 ∧ StringAt m (a + 1#64) str

instance decidableStringAt (m : Bytes) : (a : Addr) → (str : Name) → Decidable (StringAt m a str)
  | a, [] => inferInstanceAs (Decidable (m a = 0#8))
  | a, c :: str =>
    have := decidableStringAt m (a + 1#64) str
    inferInstanceAs (Decidable (m a = c ∧ c ≠ 0#8 ∧ StringAt m (a + 1#64) str))

theorem copyFrom_cases (h : StringAt m a str) : copyFrom m a n = none ∨ copyFrom m a n = some (str.take n) := by
  induction n generalizing a str with
  | zero => exact .inr rfl
  | succ n ih =>
    unfold copyFrom
    split
    · exact .inl rfl
    cases str with
    | nil =>
      rw [if_pos (show m a = 0#8 from h)]
      exact .inr rfl
    | cons c str =>
      obtain ⟨rfl, hc, hstr⟩ := h
      rw [if_neg hc]
      rcases ih hstr with hnone | hsome
      · rw [hnone]
        exact .inl rfl
      · rw [hsome]
        exact .inr rfl

theorem copyStringFromUser_cases (h : StringAt m a str) :
    copyStringFromUser m a 256 = none ∨ copyStringFromUser m a 256 = some (str.take 255) := by
  unfold copyStringFromUser
  rcases copyFrom_cases (n := 256) h with hnone | hsome
  · rw [hnone]
    exact .inl rfl
  · rw [hsome, map_some, take_take]
    exact .inr rfl

end NyanOS.Vfs
