import NyanOS.Lib.Trace
import NyanOS.UserPointer

/-!
# Strings of the user as the kernel reads them (`string.c`)

The functions of `string.c` leave the bytes that they touch in a trace, next to the ranges that
`verify_usr_access` accepted. Strings of the kernel are lists without their terminator.
-/
namespace NyanOS.Syscall

open Lib Traced List BitVec Set

abbrev Addr := BitVec 64

abbrev Bytes := Addr → BitVec 8

inductive Access where
  | verified (p n : BitVec 64)
  | read (a : Addr)
  | write (a : Addr) (b : BitVec 8)
  deriving DecidableEq

abbrev UserM := Traced Access

def verify (p n : BitVec 64) : UserM Bool :=
  if verifyUsrAccess p n then do
    emit (.verified p n)
    return true
  else return false

def readByte (m : Bytes) (a : Addr) : UserM (BitVec 8) := do
  emit (.read a)
  return m a

/-- The loop of `strlen`, `strcpy`, `strcat` and `kprint`: the bytes before the terminator. A string
without one keeps the processor going round the address space; here it stops after one round. -/
def scan (m : Bytes) : Nat → Addr → UserM (List (BitVec 8))
  | 0, _ => return []
  | fuel + 1, s => do
    let b ← readByte m s
    if b = 0#8 then return []
    else
      let bs ← scan m fuel (s + 1#64)
      return b :: bs

def addressSpace : Nat := 2 ^ 64

def readString (m : Bytes) (s : Addr) : UserM (List (BitVec 8)) := scan m addressSpace s

def strlen (m : Bytes) (s : Addr) : UserM Nat := do
  let bs ← readString m s
  return bs.length

/-- `strcpy` and `strcat` to a buffer of the kernel, with the bytes copied. -/
def strcpy (m : Bytes) (src : Addr) : UserM (List (BitVec 8)) := readString m src

/-- `kprint`, with the bytes sent to the serial port. -/
def kprint (m : Bytes) (str : Addr) : UserM (List (BitVec 8)) := readString m str

/-- `strcmp` of a string of the user and a name of the kernel. -/
def strcmp (m : Bytes) : List (BitVec 8) → Addr → UserM Int
  | [], s => do
    let b ← readByte m s
    return b.toNat
  | c :: cs, s => do
    let b ← readByte m s
    if b ≠ 0#8 ∧ b = c then strcmp m cs (s + 1#64) else return b.toNat - c.toNat

/-- `strncpy` to a buffer of the kernel: the source stays at the terminator. -/
def strncpy (m : Bytes) : Nat → Addr → UserM (List (BitVec 8))
  | 0, _ => return []
  | n + 1, s => do
    let b ← readByte m s
    let bs ← strncpy m n (if b ≠ 0#8 then s + 1#64 else s)
    return b :: bs

/-- `memcpy` from the user. -/
def memcpy (m : Bytes) (src : Addr) : Nat → UserM (List (BitVec 8))
  | 0 => return []
  | n + 1 => do
    let b ← readByte m src
    let bs ← memcpy m (src + 1#64) n
    return b :: bs

/-- `strncpy` of a name of the kernel to the user, `n` bytes with padding. -/
def strncpyOut (dest : Addr) : List (BitVec 8) → Nat → UserM PUnit
  | _, 0 => return ⟨⟩
  | [], n + 1 => do
    emit (.write dest 0)
    strncpyOut (dest + 1#64) [] n
  | b :: bs, n + 1 => do
    emit (.write dest b)
    strncpyOut (dest + 1#64) bs n

/-- The pointer at an address, eight bytes with the lowest first. -/
def load64 (m : Bytes) (a : Addr) : UserM Addr := do
  let bs ← memcpy m a 8
  return bs.foldr (fun b v => v <<< 8 ||| b.setWidth 64) 0

/-! What has been verified, and the bytes that are touched -/

def range (p n : BitVec 64) : Set Addr := {a | p.toNat ≤ a.toNat ∧ a.toNat < p.toNat + n.toNat}

def Access.next (v : Set Addr) : Access → Set Addr
  | .verified p n => v ∪ range p n
  | _ => v

def Access.Within (v : Set Addr) : Access → Prop
  | .verified _ _ => True
  | .read a => a ∈ v
  | .write a _ => a ∈ v

/-- Every byte touched lies in `v` or in a range that was verified before. -/
def Safe (v : Set Addr) (es : List Access) : Prop := Along Access.next Access.Within v es

/-- What is verified after the events. -/
def after (v : Set Addr) (es : List Access) : Set Addr := es.foldl Access.next v

def addrOf : Access → Option Addr
  | .verified _ _ => none
  | .read a => some a
  | .write a _ => some a

/-- The call verifies nothing and touches exactly the bytes of `T`. -/
structure Touches {α : Type} (x : UserM α) (T : Set Addr) : Prop where
  quiet : ∀ e ∈ x.events, addrOf e ≠ none
  exact : ∀ a, a ∈ T ↔ ∃ e ∈ x.events, addrOf e = some a

variable {α β : Type} {x : UserM α} {f : α → UserM β} {T T' v : Set Addr} {m : Bytes} {s p n : BitVec 64}
  {es es' : List Access} {cs : List (BitVec 8)}

theorem Access.next_of_addr {e : Access} (h : addrOf e ≠ none) (v : Set Addr) : e.next v = v := by
  cases e with
  | verified => exact absurd rfl h
  | read | write => rfl

theorem Access.within_of_addr {e : Access} {a : Addr} (h : addrOf e = some a) : e.Within v ↔ a ∈ v := by
  cases e with
  | verified => cases h
  | read | write =>
    cases h
    rfl

namespace Touches

theorem after_eq (h : Touches x T) : after v x.events = v :=
  foldl_eq_self fun e he w => Access.next_of_addr (h.quiet e he) w

theorem safe_iff (h : Touches x T) : Safe v x.events ↔ T ⊆ v := by
  rw [Safe, along_iff_forall fun e he w => Access.next_of_addr (h.quiet e he) w]
  constructor
  · intro hall a ha
    obtain ⟨e, he, hea⟩ := (h.exact a).mp ha
    exact (Access.within_of_addr hea).mp (hall e he)
  · intro hsub e he
    obtain ⟨a, ha⟩ := Option.ne_none_iff_exists'.mp (h.quiet e he)
    exact (Access.within_of_addr ha).mpr (hsub ((h.exact a).mpr ⟨e, he, ha⟩))

theorem pure (a : α) : Touches (Pure.pure a : UserM α) ∅ := ⟨by simp, by simp⟩

theorem bind (h : Touches x T) (hf : Touches (f x.value) T') : Touches (x >>= f) (T ∪ T') := by
  refine ⟨fun e he => ?_, fun a => ?_⟩
  · rw [events_bind, mem_append] at he
    exact he.elim (h.quiet e) (hf.quiet e)
  · simp only [mem_union, h.exact, hf.exact, events_bind, mem_append, or_and_right, exists_or]

theorem map (h : Touches x T) (g : α → β) : Touches (x >>= fun a => Pure.pure (g a)) T := by
  have hb := h.bind (f := fun a => Pure.pure (g a)) (pure (g x.value))
  rwa [union_empty] at hb

theorem congr (h : Touches x T) (he : T = T') : Touches x T' := he ▸ h

end Touches

/-- The addresses lie in a given set. -/
def Within {α : Type} (x : UserM α) (v : Set Addr) : Prop := ∃ T, Touches x T ∧ T ⊆ v

theorem Touches.within (h : Touches x T) (hsub : T ⊆ v) : Within x v := ⟨T, h, hsub⟩

theorem Touches.bind_within (h : Touches x T) (hf : Within (f x.value) T) : Touches (x >>= f) T := by
  obtain ⟨T', hT', hsub⟩ := hf
  exact (h.bind hT').congr (union_eq_left.mpr hsub)

namespace Within

theorem pure (a : α) : Within (Pure.pure a : UserM α) v := (Touches.pure a).within (empty_subset _)

theorem bind (h : Within x v) (hf : Within (f x.value) v) : Within (x >>= f) v := by
  obtain ⟨T, hT, hsub⟩ := h
  obtain ⟨T', hT', hsub'⟩ := hf
  exact (hT.bind hT').within (union_subset hsub hsub')

theorem map (h : Within x v) (g : α → β) : Within (x >>= fun a => Pure.pure (g a)) v := h.bind (.pure _)

end Within

theorem safe_append : Safe v (es ++ es') ↔ Safe v es ∧ Safe (after v es) es' := along_append

theorem safe_bind (h : Touches x T) : Safe v (x >>= f).events ↔ T ⊆ v ∧ Safe v (f x.value).events := by
  rw [events_bind, safe_append, h.after_eq, h.safe_iff]

theorem safe_verify (f : Bool → UserM β) : Safe v (verify p n >>= f).events ↔
      if verifyUsrAccess p n then Safe (v ∪ range p n) (f true).events else Safe v (f false).events := by
  unfold verify
  split
  · simp [Safe, Access.next, Access.Within]
  · simp

theorem after_bind (x : UserM α) (f : α → UserM β) :
    after v (x >>= f).events = after (after v x.events) (f x.value).events := by
  rw [events_bind, after, after, after, foldl_append]

theorem after_verify : after v (verify p n).events = if verifyUsrAccess p n then v ∪ range p n else v := by
  unfold verify
  split <;> simp [after, Access.next]

@[simp] theorem value_verify : (verify p n).value = verifyUsrAccess p n := by
  unfold verify
  split
  · next h => simp [h]
  · next h => simpa using h

theorem touches_readByte (m : Bytes) (a : Addr) : Touches (readByte m a) {a} :=
  ⟨by simp [readByte, addrOf], by simp [readByte, addrOf, eq_comm]⟩

@[simp] theorem value_readByte (m : Bytes) (a : Addr) : (readByte m a).value = m a := rfl

/-! The bytes that the functions of `string.c` touch -/

/-- `n` bytes from `s` on. -/
def span (s : Addr) (n : Nat) : Set Addr := {a | ∃ k < n, a = s + BitVec.ofNat 64 k}

/-- The bytes that a loop reaches in `n` turns if it stops at a terminator. -/
def upTo (m : Bytes) (n : Nat) (s : Addr) : Set Addr :=
  {a | ∃ k < n, (∀ j < k, m (s + BitVec.ofNat 64 j) ≠ 0#8) ∧ a = s + BitVec.ofNat 64 k}

/-- The string at `s` with its terminator. -/
def stringAt (m : Bytes) (s : Addr) : Set Addr := {a | ∃ n, a ∈ upTo m n s}

theorem add_ofNat_succ (s : Addr) (k : Nat) : s + 1#64 + BitVec.ofNat 64 k = s + BitVec.ofNat 64 (k + 1) := by
  rw [BitVec.add_assoc, add_comm k 1, BitVec.ofNat_add]

theorem span_succ (s : Addr) (n : Nat) : span s (n + 1) = {s} ∪ span (s + 1#64) n := by
  ext a
  constructor
  · rintro ⟨k, hk, rfl⟩
    cases k with
    | zero => exact .inl (by simp)
    | succ k => exact .inr ⟨k, by omega, (add_ofNat_succ s k).symm⟩
  · rintro (rfl | ⟨k, hk, rfl⟩)
    · exact ⟨0, by omega, by simp⟩
    · exact ⟨k + 1, by omega, add_ofNat_succ s k⟩

theorem mem_upTo_self (m : Bytes) (n : Nat) (s : Addr) : s ∈ upTo m (n + 1) s := ⟨0, by omega, by simp, by simp⟩

theorem upTo_succ_of_end (n : Nat) (h : m s = 0#8) : upTo m (n + 1) s = {s} := by
  ext a
  constructor
  · rintro ⟨k, -, hk, rfl⟩
    cases k with
    | zero => simp
    | succ k => exact absurd h (by simpa using hk 0 (by omega))
  · rintro rfl
    exact mem_upTo_self m n a

theorem upTo_succ_of_ne (n : Nat) (h : m s ≠ 0#8) : upTo m (n + 1) s = {s} ∪ upTo m n (s + 1#64) := by
  ext a
  constructor
  · rintro ⟨k, hlt, hk, rfl⟩
    cases k with
    | zero => exact .inl (by simp)
    | succ k =>
      refine .inr ⟨k, by omega, fun j hj => ?_, (add_ofNat_succ s k).symm⟩
      rw [add_ofNat_succ]
      exact hk (j + 1) (by omega)
  · rintro (rfl | ⟨k, hlt, hk, rfl⟩)
    · exact mem_upTo_self m n a
    · refine ⟨k + 1, by omega, fun j hj => ?_, add_ofNat_succ s k⟩
      cases j with
      | zero => simpa using h
      | succ j =>
        rw [← add_ofNat_succ]
        exact hk j (by omega)

theorem upTo_subset_stringAt (m : Bytes) (n : Nat) (s : Addr) : upTo m n s ⊆ stringAt m s := fun _ h => ⟨n, h⟩

theorem mem_stringAt_self (m : Bytes) (s : Addr) : s ∈ stringAt m s := ⟨1, mem_upTo_self m 0 s⟩

theorem stringAt_of_end (h : m s = 0#8) : stringAt m s = {s} := by
  ext a
  constructor
  · rintro ⟨n, k, hlt, hk⟩
    rw [← upTo_succ_of_end n h]
    exact ⟨k, by omega, hk⟩
  · rintro rfl
    exact mem_stringAt_self m a

theorem stringAt_of_ne (h : m s ≠ 0#8) : stringAt m s = {s} ∪ stringAt m (s + 1#64) := by
  ext a
  constructor
  · rintro ⟨n, k, hlt, hk⟩
    have ha : a ∈ upTo m (n + 1) s := ⟨k, by omega, hk⟩
    rw [upTo_succ_of_ne n h] at ha
    exact ha.imp_right fun hr => ⟨n, hr⟩
  · rintro (rfl | ⟨n, hn⟩)
    · exact mem_stringAt_self m a
    · exact ⟨n + 1, by rw [upTo_succ_of_ne n h]; exact .inr hn⟩

theorem succ_mem_stringAt (h : m s ≠ 0#8) : s + 1#64 ∈ stringAt m s := by
  rw [stringAt_of_ne h]
  exact .inr (mem_stringAt_self m (s + 1#64))

theorem upTo_addressSpace (m : Bytes) (s : Addr) : upTo m addressSpace s = stringAt m s := by
  refine Set.Subset.antisymm (upTo_subset_stringAt m _ s) ?_
  rintro a ⟨n, k, -, hk, rfl⟩
  refine ⟨k % addressSpace, Nat.mod_lt _ (by decide), fun j hj => hk j ?_, ?_⟩
  · exact lt_of_lt_of_le hj (Nat.mod_le _ _)
  · congr 1
    apply BitVec.eq_of_toNat_eq
    simp [addressSpace]

theorem touches_scan (m : Bytes) (fuel : Nat) (s : Addr) : Touches (scan m fuel s) (upTo m fuel s) := by
  induction fuel generalizing s with
  | zero => exact (Touches.pure []).congr (by ext a; simp [upTo])
  | succ fuel ih =>
    by_cases hz : m s = 0#8
    · have hrest : Touches (if m s = 0#8 then pure [] else do
          let bs ← scan m fuel (s + 1#64)
          return m s :: bs) ∅ := by
        rw [if_pos hz]
        exact Touches.pure []
      rw [upTo_succ_of_end fuel hz, ← Set.union_empty {s}]
      exact (touches_readByte m s).bind hrest
    · have hrest : Touches (if m s = 0#8 then pure [] else do
          let bs ← scan m fuel (s + 1#64)
          return m s :: bs) (upTo m fuel (s + 1#64)) := by
        rw [if_neg hz]
        exact (ih (s + 1#64)).map (m s :: ·)
      rw [upTo_succ_of_ne fuel hz]
      exact (touches_readByte m s).bind hrest

theorem touches_readString (m : Bytes) (s : Addr) : Touches (readString m s) (stringAt m s) :=
  (touches_scan m addressSpace s).congr (upTo_addressSpace m s)

theorem touches_strlen (m : Bytes) (s : Addr) : Touches (strlen m s) (stringAt m s) :=
  (touches_readString m s).map length

theorem ne_of_lt_length_scan (m : Bytes) {fuel : Nat} {s : Addr} {j : Nat}
    (h : j < (scan m fuel s).value.length) : m (s + BitVec.ofNat 64 j) ≠ 0#8 := by
  induction fuel generalizing s j with
  | zero => simp [scan] at h
  | succ fuel ih =>
    by_cases hz : m s = 0#8
    · simp [scan, hz] at h
    cases j with
    | zero => simpa using hz
    | succ j =>
      rw [← add_ofNat_succ]
      simp [scan, hz] at h
      exact ih h

theorem value_strlen (m : Bytes) (s : Addr) : (strlen m s).value = (scan m addressSpace s).value.length := rfl

theorem span_strlen_subset (m : Bytes) (s : Addr) : span s ((strlen m s).value + 1) ⊆ stringAt m s := by
  rintro a ⟨k, hk, rfl⟩
  rw [value_strlen] at hk
  refine ⟨k + 1, k, by omega, fun j hj => ?_, rfl⟩
  have hj' : j < (scan m addressSpace s).value.length := by omega
  exact ne_of_lt_length_scan m hj'

theorem value_strlen_of_end (h : m s = 0#8) : (strlen m s).value = 0 := by
  by_contra hne
  have hpos : 0 < (scan m addressSpace s).value.length := pos_of_ne_zero hne
  have hs := ne_of_lt_length_scan m hpos
  simp only [BitVec.add_zero] at hs
  exact hs h

theorem touches_memcpy (m : Bytes) (n : Nat) (s : Addr) : Touches (memcpy m s n) (span s n) := by
  induction n generalizing s with
  | zero => exact (Touches.pure []).congr (by ext a; simp [span])
  | succ n ih =>
    rw [span_succ]
    exact (touches_readByte m s).bind ((ih (s + 1#64)).map (m s :: ·))

theorem touches_strncpy (m : Bytes) (n : Nat) (s : Addr) : Touches (strncpy m n s) (upTo m n s) := by
  induction n generalizing s with
  | zero => exact (Touches.pure []).congr (by ext a; simp [upTo])
  | succ n ih =>
    have hrest := (ih (if m s ≠ 0#8 then s + 1#64 else s)).map (m s :: ·)
    refine ((touches_readByte m s).bind hrest).congr ?_
    by_cases hz : m s = 0#8
    · rw [upTo_succ_of_end n hz, if_neg (by simpa using hz)]
      cases n with
      | zero => simp [upTo]
      | succ n => rw [upTo_succ_of_end n hz, Set.union_self]
    · rw [upTo_succ_of_ne n hz, if_pos hz]

/-- The bytes that `strcmp` reads of the user's string. -/
def compared (m : Bytes) : List (BitVec 8) → Addr → Set Addr
  | [], s => {s}
  | c :: cs, s => {s} ∪ {a | (m s ≠ 0#8 ∧ m s = c) ∧ a ∈ compared m cs (s + 1#64)}

theorem touches_strcmp (m : Bytes) (cs : List (BitVec 8)) (s : Addr) : Touches (strcmp m cs s) (compared m cs s) := by
  induction cs generalizing s with
  | nil => exact (touches_readByte m s).map _
  | cons c cs ih =>
    refine (touches_readByte m s).bind ?_
    rw [value_readByte]
    by_cases hc : m s ≠ 0#8 ∧ m s = c
    · rw [if_pos hc]
      exact (ih (s + 1#64)).congr (by ext a; exact ⟨fun ha => ⟨hc, ha⟩, And.right⟩)
    · rw [if_neg hc]
      exact (Touches.pure _).congr (by ext a; exact ⟨False.elim, fun ha => hc ha.1⟩)

theorem compared_subset_stringAt (m : Bytes) (cs : List (BitVec 8)) (s : Addr) : compared m cs s ⊆ stringAt m s := by
  induction cs generalizing s with
  | nil => exact singleton_subset_iff.mpr (mem_stringAt_self m s)
  | cons c cs ih =>
    rintro a (rfl | ⟨⟨hz, -⟩, ha⟩)
    · exact mem_stringAt_self m a
    · rw [stringAt_of_ne hz]
      exact .inr (ih (s + 1#64) ha)

theorem mem_compared_self (m : Bytes) (cs : List (BitVec 8)) (s : Addr) : s ∈ compared m cs s := by
  cases cs with
  | nil => exact rfl
  | cons => exact .inl rfl

theorem compared_of_head_ne (h : cs.head? ≠ some (m s)) : compared m cs s = {s} := by
  cases cs with
  | nil => rfl
  | cons c cs =>
    have hc : m s ≠ c := fun e => h (by simp [e])
    simp [compared, hc]

theorem value_strcmp_of_head_ne (hz : m s ≠ 0#8) (h : cs.head? ≠ some (m s)) : (strcmp m cs s).value ≠ 0 := by
  have hpos : (m s).toNat ≠ 0 := fun e => hz (eq_of_toNat_eq e)
  cases cs with
  | nil => simpa [strcmp] using hpos
  | cons c cs =>
    have hc : m s ≠ c := fun e => h (by simp [e])
    have hn : (m s).toNat ≠ c.toNat := fun e => hc (eq_of_toNat_eq e)
    simp [strcmp, hc]
    omega

theorem succ_mem_compared (hz : m s ≠ 0#8) (h : cs.head? = some (m s)) : s + 1#64 ∈ compared m cs s := by
  cases cs with
  | nil => cases h
  | cons c cs =>
    simp only [head?_cons, Option.some.injEq] at h
    exact .inr ⟨⟨hz, h.symm⟩, mem_compared_self m cs _⟩

/-- The pointer stored at an address. -/
def pointerAt (m : Bytes) (a : Addr) : Addr := (load64 m a).value

theorem touches_load64 (m : Bytes) (a : Addr) : Touches (load64 m a) (span a 8) := (touches_memcpy m 8 a).map _

theorem touches_write (a : Addr) (b : BitVec 8) : Touches (emit (Access.write a b)) {a} :=
  ⟨by simp [addrOf], by simp [addrOf, eq_comm]⟩

theorem touches_strncpyOut (bs : List (BitVec 8)) (n : Nat) (dest : Addr) :
    Touches (strncpyOut dest bs n) (span dest n) := by
  induction n generalizing bs dest with
  | zero => cases bs <;> exact (Touches.pure _).congr (by ext a; simp [span])
  | succ n ih =>
    rw [span_succ]
    cases bs with
    | nil => exact (touches_write dest 0).bind (ih [] (dest + 1#64))
    | cons b bs => exact (touches_write dest b).bind (ih bs (dest + 1#64))

/-! Ranges that were verified -/

theorem mem_range_one {a : Addr} : a ∈ range p 1#64 ↔ a = p := by
  constructor
  · rintro ⟨hlo, hhi⟩
    apply eq_of_toNat_eq
    simp at hhi
    omega
  · rintro rfl
    exact ⟨le_refl _, by simp⟩

theorem range_one (p : BitVec 64) : range p 1#64 = {p} := by
  ext a
  exact mem_range_one

theorem add_one_ne (s : Addr) : s + 1#64 ≠ s := by
  intro h
  have h1 := congrArg BitVec.toNat h
  have hs := s.isLt
  simp at h1
  omega

theorem add_lt_of_verify (h : verifyUsrAccess p n = true) : p.toNat + n.toNat < 2 ^ 64 := by
  by_contra hge
  have hp := p.isLt
  have hn := n.isLt
  have hlo : p.toNat ≤ p.toNat + n.toNat - 1 := by omega
  have hlt := lt_userSpaceLimit_of_verifyUsrAccess h hlo (by omega)
  unfold userSpaceLimit at hlt
  omega

theorem span_eq_range (h : verifyUsrAccess p n = true) : span p n.toNat = range p n := by
  have hsum := add_lt_of_verify h
  ext a
  constructor
  · rintro ⟨k, hk, rfl⟩
    have hto : (p + BitVec.ofNat 64 k).toNat = p.toNat + k := by
      rw [BitVec.toNat_add, BitVec.toNat_ofNat]
      omega
    exact ⟨by omega, by omega⟩
  · rintro ⟨hlo, hhi⟩
    refine ⟨a.toNat - p.toNat, by omega, BitVec.eq_of_toNat_eq ?_⟩
    have ha := a.isLt
    rw [BitVec.toNat_add, BitVec.toNat_ofNat]
    omega

end NyanOS.Syscall
