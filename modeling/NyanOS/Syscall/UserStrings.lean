import NyanOS.Syscall.Strings

/-!
# The system calls that take a string or a list of the user (`arch/syscall.c`)

`sys_exec`, `sys_mq_open`, `sys_mq_unlink`, `sys_shm_open`, `sys_kprint` and `sys_list_files`, with the
functions of the kernel that they hand the user's pointer to. Whether `kmalloc` succeeds is an argument.
-/
namespace NyanOS.Syscall

open Lib Traced List Set

abbrev Name := List (BitVec 8)

def sysKprint (m : Bytes) (s : Addr) : UserM Int := do
  if !(← verify s 1#64) then return -1
  else
    let len ← strlen m s
    if !(← verify s (BitVec.ofNat 64 (len + 1))) then return -1
    else
      let _ ← kprint m s
      return 0

/-! Message queues (`ipc/mq.c`) and shared memory (`ipc/shm.c`) by name -/

/-- The search of `mq_open`, `mq_unlink` and `shm_get` along their lists. -/
def findName (m : Bytes) (name : Addr) : List Name → UserM (Option Nat)
  | [] => return none
  | q :: qs => do
    let d ← strcmp m q name
    if d = 0 then return some 0
    else
      let r ← findName m name qs
      return r.map (· + 1)

/-- `mq_open`: the queue found, and the names of the queues afterwards. -/
def mqOpen (m : Bytes) (queues : List Name) (kmalloc : Bool) (name : Addr) : UserM (Option Nat × List Name) := do
  match ← findName m name queues with
  | some i => return (some i, queues)
  | none =>
    if !kmalloc then return (none, queues)
    else
      let bs ← strncpy m 32 name
      return (some 0, (bs.take 31).takeWhile (· ≠ 0#8) :: queues)

def sysMqOpen (m : Bytes) (queues : List Name) (kmalloc : Bool) (name : Addr) :
    UserM (Option Nat × List Name) := do
  if !(← verify name 1#64) then return (none, queues)
  else mqOpen m queues kmalloc name

def mqUnlink (m : Bytes) (queues : List Name) (name : Addr) : UserM (Int × List Name) := do
  match ← findName m name queues with
  | none => return (-1, queues)
  | some i => return (0, queues.eraseIdx i)

def sysMqUnlink (m : Bytes) (queues : List Name) (name : Addr) : UserM (Int × List Name) := do
  if !(← verify name 1#64) then return (-1, queues)
  else mqUnlink m queues name

def oCreat : BitVec 32 := 0x08

/-- Whether `kmalloc` succeeds for the object and for its node. -/
structure ShmAlloc where
  object : Bool
  node : Bool

def shmGet (m : Bytes) (objects : List Name) (kmalloc : Bool) (name : Addr) (flags : BitVec 32) :
    UserM (Option Nat × List Name) := do
  let len ← strlen m name
  if 63 < len then return (none, objects)
  else
    match ← findName m name objects with
    | some i => return (some i, objects)
    | none =>
      if flags &&& oCreat = 0 ∨ kmalloc = false then return (none, objects)
      else
        let bs ← strcpy m name
        return (some 0, bs :: objects)

/-- `shm_create_vfs_node`, with the name of the node. -/
def shmCreateVfsNode (m : Bytes) (objects : List Name) (kmalloc : ShmAlloc) (name : Addr)
    (flags : BitVec 32) : UserM (Option (Nat × Name) × List Name) := do
  match ← shmGet m objects kmalloc.object name flags with
  | (none, objects) => return (none, objects)
  | (some i, objects) =>
    if !kmalloc.node then return (none, objects)
    else
      let len ← strlen m name
      let bs ← strncpy m len name
      return (some (i, bs), objects)

/-- `sys_shm_open` up to the node; the handle and its slot need nothing more of the user. -/
def sysShmOpen (m : Bytes) (objects : List Name) (kmalloc : ShmAlloc) (name : Addr) (flags : BitVec 32) :
    UserM (Option (Nat × Name) × List Name) := do
  if !(← verify name 64#64) then return (none, objects)
  else shmCreateVfsNode m objects kmalloc name flags

/-! The files of the archive (`fs/tar.c`) -/

/-- The loop of `tar_list` over the names of the headers that are valid. -/
def tarListFrom (maxLen : BitVec 64) : Addr → BitVec 64 → List Name → UserM PUnit
  | list, _, [] => emit (.write list 0)
  | list, currLen, name :: names =>
    let len := name.length + 1
    if maxLen ≤ currLen + BitVec.ofNat 64 len then emit (.write list 0)
    else do
      strncpyOut list name len
      tarListFrom maxLen (list + BitVec.ofNat 64 len) (currLen + BitVec.ofNat 64 len) names

/-- `tar_list`, with no archive or the names in it. -/
def tarList (archive : Option (List Name)) (list : Addr) (maxLen : BitVec 64) : UserM PUnit :=
  match archive with
  | none => return ⟨⟩
  | some names => tarListFrom maxLen list 0 names

def sysListFiles (archive : Option (List Name)) (list : Addr) (maxLen : BitVec 64) : UserM Int := do
  if !(← verify list 1#64) then return -1
  else
    tarList archive list maxLen
    return 0

/-! Programs -/

def slash : BitVec 8 := 0x2f

def dot : BitVec 8 := 0x2e

/-- The components of a path, with the stack of `resolve_path`; the empty ones are skipped. -/
def pushName (stack : List Name) (name : Name) : List Name :=
  if name = [] then stack
  else if name = [dot, dot] then stack.dropLast
  else if name = [dot] then stack
  else stack ++ [name]

def normalize (path : Name) : Name := slash :: [slash].intercalate ((path.splitOn slash).foldl pushName [])

/-- `resolve_path`, for components that fit its buffers. -/
def resolvePath (m : Bytes) (cwd : Name) (inpPath : Addr) : UserM Name := do
  let b ← readByte m inpPath
  if b = slash then
    let bs ← strcpy m inpPath
    return normalize bs
  else
    let bs ← strcpy m inpPath
    return normalize (cwd ++ (if 1 < cwd.length ∧ cwd.getLast? ≠ some slash then [slash] else []) ++ bs)

def argSlot (argv : Addr) (i : Nat) : Addr := argv + BitVec.ofNat 64 (8 * i)

/-- The first loop of `sys_exec`: the number of arguments and their size. `left` is what is missing to the
limit of 128. -/
def measureArgs (m : Bytes) (argv : Addr) : Nat → Nat → Nat → UserM (Option (Nat × Nat))
  | 0, _, _ => return none
  | left + 1, argc, size => do
    if !(← verify (argSlot argv argc) 8#64) then return none
    else
      let p ← load64 m (argSlot argv argc)
      if p = 0#64 then return some (argc, size)
      else if !(← verify p 1#64) then return none
      else
        let len ← strlen m p
        measureArgs m argv left (argc + 1) (size + len + 1)

def copyArgs (m : Bytes) (argv : Addr) : Nat → Nat → UserM Name
  | 0, _ => return []
  | left + 1, i => do
    let p ← load64 m (argSlot argv i)
    let len ← strlen m p
    let bs ← memcpy m p (len + 1)
    let rest ← copyArgs m argv left (i + 1)
    return bs ++ rest

/-- The addresses of the arguments on the new stack. -/
def layoutArgs (m : Bytes) (argv start : Addr) : Nat → Nat → Nat → UserM (List Addr)
  | 0, _, _ => return [0#64]
  | left + 1, i, off => do
    let p ← load64 m (argSlot argv i)
    let len ← strlen m p
    let rest ← layoutArgs m argv start left (i + 1) (off + len + 1)
    return (start + BitVec.ofNat 64 off) :: rest

def userStackTop : Addr := 0x1000000#64

def startUsrAddr (argc argvSize : Nat) : Addr :=
  let start := (userStackTop - BitVec.ofNat 64 argvSize) &&& ~~~0xf#64
  if (start - BitVec.ofNat 64 ((argc + 1) * 8)) &&& 0xf#64 = 0 then start - 8#64 else start

structure ExecAlloc where
  argvBuf : Bool
  argvList : Bool

structure ExecArgs where
  argvBuf : Name
  argvList : List Addr
  fullPath : Name

/-- `sys_exec` after its first loop, up to the path of the program: what follows needs nothing more of the
caller's memory. -/
def copyExecArgs (m : Bytes) (cwd : Name) (kmalloc : ExecAlloc) (rawPath argv : Addr) :
    Option (Nat × Nat) → UserM (Option ExecArgs)
  | none => return none
  | some (argc, argvSize) =>
    if !kmalloc.argvBuf then return none
    else do
      let buf ← copyArgs m argv argc 0
      if !kmalloc.argvList then return none
      else
        let list ← layoutArgs m argv (startUsrAddr argc argvSize) argc 0 0
        let path ← resolvePath m cwd rawPath
        return some ⟨buf, list, path⟩

def sysExec (m : Bytes) (cwd : Name) (kmalloc : ExecAlloc) (rawPath argv : Addr) : UserM (Option ExecArgs) := do
  if !(← verify rawPath 1#64) then return none
  else if argv = 0#64 then return none
  else
    let measured ← measureArgs m argv 128 0 0
    copyExecArgs m cwd kmalloc rawPath argv measured

/-! The simple handlers -/

section Handlers

variable {m : Bytes} {s name list : Addr} {v : Set Addr} {queues names : List Name} {maxLen currLen : BitVec 64}

theorem safe_guard {α : Type} {p n : BitVec 64} (fail : α) (x : UserM α) :
    Safe ∅ (verify p n >>= fun b => if !b then pure fail else x).events ↔
      (verifyUsrAccess p n = true → Safe (range p n) x.events) := by
  rw [safe_verify]
  by_cases h : verifyUsrAccess p n = true
  · simp [h]
  · simp [h, Safe]

theorem safe_sysKprint (m : Bytes) (s : Addr) :
    Safe ∅ (sysKprint m s).events ↔ (verifyUsrAccess s 1#64 = true → m s = 0#8) := by
  rw [sysKprint, safe_guard]
  refine imp_congr_right fun hv => ?_
  rw [range_one, safe_bind (touches_strlen m s)]
  constructor
  · rintro ⟨hsub, -⟩
    by_contra hz
    exact add_one_ne s (hsub (succ_mem_stringAt hz))
  · intro hz
    refine ⟨(stringAt_of_end hz).subset, ?_⟩
    rw [value_strlen_of_end hz, safe_verify]
    simp only [hv]
    exact ((touches_readString m s).map _).safe_iff.mpr ((stringAt_of_end hz).subset.trans subset_union_left)

theorem within_findName (m : Bytes) (name : Addr) (queues : List Name) :
    Within (findName m name queues) (stringAt m name) := by
  induction queues with
  | nil => exact .pure none
  | cons q qs ih =>
    refine ((touches_strcmp m q name).within (compared_subset_stringAt m q name)).bind ?_
    split
    · exact .pure (some 0)
    · exact ih.map _

/-- No name starts as the user's string does: every comparison ends at the first byte. -/
theorem findName_of_heads_ne (hz : m name ≠ 0#8) (hq : ∀ q ∈ queues, q.head? ≠ some (m name)) :
    (findName m name queues).value = none ∧ Safe {name} (findName m name queues).events := by
  induction queues with
  | nil => exact ⟨rfl, trivial⟩
  | cons q qs ih =>
    obtain ⟨hval, hsafe⟩ := ih fun x hx => hq x (mem_cons_of_mem q hx)
    have hhead := hq q mem_cons_self
    have hd := value_strcmp_of_head_ne hz hhead
    constructor
    · simp [findName, hd, hval]
    · rw [findName, safe_bind (touches_strcmp m q name), compared_of_head_ne hhead, if_neg hd]
      refine ⟨subset_rfl, ?_⟩
      simpa using hsafe

/-- A name that starts as the user's string does makes the search read the second byte. -/
theorem not_safe_findName (hz : m name ≠ 0#8) {q : Name} (hmem : q ∈ queues) (hq : q.head? = some (m name)) :
    ¬ Safe {name} (findName m name queues).events := by
  induction queues with
  | nil => cases hmem
  | cons x xs ih =>
    rw [findName, safe_bind (touches_strcmp m x name)]
    rintro ⟨hsub, hrest⟩
    by_cases hx : x.head? = some (m name)
    · exact add_one_ne name (hsub (succ_mem_compared hz hx))
    rw [if_neg (value_strcmp_of_head_ne hz hx)] at hrest
    have hin : q ∈ xs := (mem_cons.mp hmem).resolve_left fun e => hx (e ▸ hq)
    exact ih hin (by simpa using hrest)

theorem safe_findName_iff :
    Safe {name} (findName m name queues).events ↔ m name = 0#8 ∨ ∀ q ∈ queues, q.head? ≠ some (m name) := by
  by_cases hz : m name = 0#8
  · obtain ⟨T, hT, hsub⟩ := within_findName m name queues
    rw [stringAt_of_end hz] at hsub
    simp [hz, hT.safe_iff, hsub]
  constructor
  · intro h
    refine .inr fun q hq hhead => ?_
    exact not_safe_findName hz hq hhead h
  · rintro (h | h)
    · exact absurd h hz
    · exact (findName_of_heads_ne hz h).2

theorem safe_sysMqUnlink (m : Bytes) (queues : List Name) (name : Addr) : Safe ∅ (sysMqUnlink m queues name).events ↔
      (verifyUsrAccess name 1#64 = true → m name = 0#8 ∨ ∀ q ∈ queues, q.head? ≠ some (m name)) := by
  rw [sysMqUnlink, safe_guard, range_one]
  refine imp_congr_right fun _ => ?_
  rw [← safe_findName_iff]
  have hev : (mqUnlink m queues name).events = (findName m name queues).events := by
    rw [mqUnlink, events_bind]
    cases (findName m name queues).value <;> simp
  rw [hev]

theorem safe_sysMqOpen (m : Bytes) (queues : List Name) (kmalloc : Bool) (name : Addr) :
    Safe ∅ (sysMqOpen m queues kmalloc name).events ↔ (verifyUsrAccess name 1#64 = true →
        m name = 0#8 ∨ (∀ q ∈ queues, q.head? ≠ some (m name)) ∧ kmalloc = false) := by
  rw [sysMqOpen, safe_guard, range_one]
  refine imp_congr_right fun _ => ?_
  obtain ⟨T, hT, hsub⟩ := within_findName m name queues
  have hcopy := touches_strncpy m 32 name
  rw [mqOpen, safe_bind hT, ← hT.safe_iff, safe_findName_iff]
  by_cases hz : m name = 0#8
  · have hend : upTo m 32 name ⊆ {name} := (upTo_succ_of_end 31 hz).subset
    simp only [hz, true_or, true_and, iff_true]
    cases (findName m name queues).value with
    | some => exact trivial
    | none => cases kmalloc with
      | false => exact trivial
      | true => exact (hcopy.map _).safe_iff.mpr hend
  · simp only [hz, false_or]
    refine and_congr_right fun hq => ?_
    rw [(findName_of_heads_ne hz hq).1]
    cases kmalloc with
    | false => exact ⟨fun _ => rfl, fun _ => trivial⟩
    | true =>
      refine ⟨fun h => ?_, fun h => by cases h⟩
      have hup := (hcopy.map _).safe_iff.mp h
      rw [upTo_succ_of_ne 31 hz] at hup
      exact absurd (hup (.inr (mem_upTo_self m 30 _))) (add_one_ne name)

theorem touches_shmGet (m : Bytes) (objects : List Name) (kmalloc : Bool) (name : Addr) (flags : BitVec 32) :
    Touches (shmGet m objects kmalloc name flags) (stringAt m name) := by
  refine (touches_strlen m name).bind_within ?_
  split
  · exact .pure _
  refine (within_findName m name objects).bind ?_
  cases (findName m name objects).value with
  | some i => exact .pure _
  | none =>
    dsimp only
    split
    · exact .pure _
    · exact ((touches_readString m name).within subset_rfl).map _

theorem touches_shmCreateVfsNode (m : Bytes) (objects : List Name) (kmalloc : ShmAlloc) (name : Addr)
    (flags : BitVec 32) : Touches (shmCreateVfsNode m objects kmalloc name flags) (stringAt m name) := by
  refine (touches_shmGet m objects kmalloc.object name flags).bind_within ?_
  obtain ⟨found, objects'⟩ := (shmGet m objects kmalloc.object name flags).value
  cases found with
  | none => exact .pure _
  | some i =>
    dsimp only
    split
    · exact .pure _
    · refine ((touches_strlen m name).within subset_rfl).bind (Within.map ?_ _)
      exact (touches_strncpy m _ name).within (upTo_subset_stringAt m _ name)

theorem stringAt_subset_span {n : Nat} (hn : n < 2 ^ 64) :
    stringAt m s ⊆ span s n ↔ ∃ k < n, m (s + BitVec.ofNat 64 k) = 0#8 := by
  constructor
  · intro hsub
    by_contra hne
    push Not at hne
    -- without a terminator the byte after the span belongs to the string
    obtain ⟨k, hk, hkn⟩ := hsub ⟨n + 1, n, by omega, hne, rfl⟩
    have hto := congrArg BitVec.toNat hkn
    rw [BitVec.toNat_add, BitVec.toNat_add, BitVec.toNat_ofNat, BitVec.toNat_ofNat] at hto
    have hs := s.isLt
    omega
  · rintro ⟨k, hk, hz⟩ a ⟨-, i, -, hi, rfl⟩
    have hle : i ≤ k := by
      by_contra hlt
      exact hi k (by omega) hz
    exact ⟨i, by omega, rfl⟩

theorem safe_sysShmOpen (m : Bytes) (objects : List Name) (kmalloc : ShmAlloc) (name : Addr) (flags : BitVec 32) :
    Safe ∅ (sysShmOpen m objects kmalloc name flags).events ↔
      (verifyUsrAccess name 64#64 = true → ∃ k < 64, m (name + BitVec.ofNat 64 k) = 0#8) := by
  rw [sysShmOpen, safe_guard]
  refine imp_congr_right fun hv => ?_
  rw [(touches_shmCreateVfsNode m objects kmalloc name flags).safe_iff, ← span_eq_range hv]
  exact stringAt_subset_span (by decide)

theorem mem_of_safe_tarListFrom (h : Safe v (tarListFrom maxLen list currLen names).events) : list ∈ v := by
  cases names with
  | nil => exact (touches_write list 0).safe_iff.mp h rfl
  | cons x xs =>
    rw [tarListFrom] at h
    split at h
    · exact (touches_write list 0).safe_iff.mp h rfl
    · rw [safe_bind (touches_strncpyOut x _ list)] at h
      exact h.1 ⟨0, by omega, by simp⟩

theorem safe_tarListFrom_iff : Safe {list} (tarListFrom maxLen list currLen names).events ↔
      ∀ x ∈ names.head?, maxLen ≤ currLen + BitVec.ofNat 64 (x.length + 1) := by
  cases names with
  | nil => exact ⟨fun _ x hx => (by cases hx), fun _ => (touches_write list 0).safe_iff.mpr subset_rfl⟩
  | cons x xs =>
    rw [tarListFrom]
    by_cases hfull : maxLen ≤ currLen + BitVec.ofNat 64 (x.length + 1)
    · rw [if_pos hfull, (touches_write list 0).safe_iff]
      exact ⟨fun _ y hy => by cases hy; exact hfull, fun _ => subset_rfl⟩
    rw [if_neg hfull, safe_bind (touches_strncpyOut x _ list)]
    refine ⟨fun ⟨hspan, hrest⟩ => ?_, fun h => absurd (h x rfl) hfull⟩
    exfalso
    cases hx : x.length with
    | zero =>
      rw [hx] at hrest
      have hnext : list + 1#64 ∈ ({list} : Set Addr) := mem_of_safe_tarListFrom hrest
      exact add_one_ne list hnext
    | succ n => exact add_one_ne list (hspan ⟨1, by omega, rfl⟩)

theorem safe_sysListFiles (archive : Option (List Name)) (list : Addr) (maxLen : BitVec 64) :
    Safe ∅ (sysListFiles archive list maxLen).events ↔
      (verifyUsrAccess list 1#64 = true → ∀ x ∈ archive.bind head?, maxLen ≤ BitVec.ofNat 64 (x.length + 1)) := by
  rw [sysListFiles, safe_guard, range_one]
  refine imp_congr_right fun _ => ?_
  rw [events_bind, events_pure, append_nil]
  cases archive with
  | none => exact ⟨fun _ x hx => (by cases hx), fun _ => trivial⟩
  | some names =>
    rw [tarList, safe_tarListFrom_iff]
    simp

end Handlers

/-! `sys_exec` -/

section Exec

variable {m : Bytes} {argv rawPath : Addr} {v : Set Addr} {n left argc size total : Nat}

def argAt (m : Bytes) (argv : Addr) (i : Nat) : Addr := pointerAt m (argSlot argv i)

/-- The first loop gets past argument `i`. -/
def ArgPasses (m : Bytes) (argv : Addr) (i : Nat) : Prop :=
  verifyUsrAccess (argSlot argv i) 8#64 = true ∧ argAt m argv i ≠ 0#64 ∧
    verifyUsrAccess (argAt m argv i) 1#64 = true

/-- The list of arguments ends at `n`. -/
def ArgsEnd (m : Bytes) (argv : Addr) (n : Nat) : Prop :=
  verifyUsrAccess (argSlot argv n) 8#64 = true ∧ argAt m argv n = 0#64

/-- What is verified once the first `n` arguments were passed: the first byte of the path, the pointers
and the first byte of each argument. -/
def verifiedArgs (m : Bytes) (rawPath argv : Addr) : Nat → Set Addr
  | 0 => {rawPath}
  | n + 1 => verifiedArgs m rawPath argv n ∪ range (argSlot argv n) 8#64 ∪ {argAt m argv n}

theorem verifiedArgs_mono (m : Bytes) (rawPath argv : Addr) {i n : Nat} (h : i ≤ n) : verifiedArgs m rawPath argv i ⊆ verifiedArgs m rawPath argv n := by
  induction h with
  | refl => exact subset_rfl
  | step _ ih => exact ih.trans (subset_union_left.trans subset_union_left)

theorem value_load64 (i : Nat) : (load64 m (argSlot argv i)).value = argAt m argv i := rfl

theorem load_subset (h : verifyUsrAccess (argSlot argv n) 8#64 = true) :
    span (argSlot argv n) 8 ⊆ v ∪ range (argSlot argv n) 8#64 := by
  have hspan : span (argSlot argv n) 8 = range (argSlot argv n) 8#64 := span_eq_range h
  rw [hspan]
  exact subset_union_right

theorem safe_measureArgs_succ (left argc size : Nat) : Safe v (measureArgs m argv (left + 1) argc size).events ↔
      (ArgPasses m argv argc →
        stringAt m (argAt m argv argc) ⊆ v ∪ range (argSlot argv argc) 8#64 ∪ {argAt m argv argc} ∧
        Safe (v ∪ range (argSlot argv argc) 8#64 ∪ {argAt m argv argc})
          (measureArgs m argv left (argc + 1) (size + (strlen m (argAt m argv argc)).value + 1)).events) := by
  rw [measureArgs, safe_verify]
  by_cases hs : verifyUsrAccess (argSlot argv argc) 8#64 = true
  · simp only [hs, Bool.not_true, if_true, Bool.false_eq_true, if_false]
    rw [safe_bind (touches_load64 m _), and_iff_right (load_subset hs)]
    rw [value_load64]
    by_cases hz : argAt m argv argc = 0#64
    · rw [if_pos hz]
      exact ⟨fun _ hp => absurd hz hp.2.1, fun _ => trivial⟩
    rw [if_neg hz, safe_verify]
    by_cases hp : verifyUsrAccess (argAt m argv argc) 1#64 = true
    · have hpass : ArgPasses m argv argc := ⟨hs, hz, hp⟩
      rw [imp_iff_right hpass, if_pos hp, range_one]
      exact safe_bind (touches_strlen m _)
    · rw [if_neg hp]
      exact ⟨fun _ hpass => absurd hpass.2.2 hp, fun _ => trivial⟩
  · rw [if_neg hs]
    exact ⟨fun _ hpass => absurd hpass.1 hs, fun _ => trivial⟩

theorem safe_measureArgs (rawPath : Addr) (left argc size : Nat) :
    Safe (verifiedArgs m rawPath argv argc) (measureArgs m argv left argc size).events ↔
      ∀ i, argc ≤ i → i < argc + left → (∀ j, argc ≤ j → j ≤ i → ArgPasses m argv j) →
        stringAt m (argAt m argv i) ⊆ verifiedArgs m rawPath argv (i + 1) := by
  induction left generalizing argc size with
  | zero => exact ⟨fun _ i hlo hhi => by omega, fun _ => trivial⟩
  | succ left ih =>
    rw [safe_measureArgs_succ]
    constructor
    · intro h i hlo hhi hpass
      obtain ⟨hstr, hrest⟩ := h (hpass argc (le_refl _) hlo)
      rcases eq_or_lt_of_le hlo with rfl | hlt
      · exact hstr
      · exact (ih (argc + 1) _).mp hrest i hlt (by omega) fun j hj => hpass j (by omega)
    · intro h hpass
      refine ⟨h argc (le_refl _) (by omega) fun j h1 h2 => by rwa [le_antisymm h2 h1], ?_⟩
      refine (ih (argc + 1) _).mpr fun i hlo hhi hall => h i (by omega) (by omega) fun j h1 h2 => ?_
      rcases eq_or_lt_of_le h1 with rfl | hlt
      · exact hpass
      · exact hall j hlt h2

theorem measureArgs_turn (v : Set Addr) (left argc size : Nat) : (ArgPasses m argv argc ∧
      ∃ size', (measureArgs m argv (left + 1) argc size).value = (measureArgs m argv left (argc + 1) size').value ∧
        after v (measureArgs m argv (left + 1) argc size).events =
          after (v ∪ range (argSlot argv argc) 8#64 ∪ {argAt m argv argc})
            (measureArgs m argv left (argc + 1) size').events) ∨
    (ArgsEnd m argv argc ∧ (measureArgs m argv (left + 1) argc size).value = some (argc, size) ∧
      after v (measureArgs m argv (left + 1) argc size).events = v ∪ range (argSlot argv argc) 8#64) ∨
    (¬ ArgPasses m argv argc ∧ ¬ ArgsEnd m argv argc ∧ (measureArgs m argv (left + 1) argc size).value = none) := by
  simp only [measureArgs, value_bind, after_bind, value_verify, after_verify]
  by_cases hs : verifyUsrAccess (argSlot argv argc) 8#64 = true
  · simp only [hs, if_true, Bool.not_true, Bool.false_eq_true, if_false, value_bind, after_bind,
      (touches_load64 m _).after_eq]
    by_cases hz : (load64 m (argSlot argv argc)).value = 0#64
    · simp only [if_pos hz]
      exact .inr (.inl ⟨⟨hs, hz⟩, rfl, rfl⟩)
    simp only [if_neg hz, value_bind, after_bind, value_verify, after_verify]
    by_cases hp : verifyUsrAccess (load64 m (argSlot argv argc)).value 1#64 = true
    · simp only [hp, if_true, Bool.not_true, Bool.false_eq_true, if_false, value_bind, after_bind, range_one,
        (touches_strlen m _).after_eq]
      exact .inl ⟨⟨hs, hz, hp⟩, _, rfl, rfl⟩
    · refine .inr (.inr ⟨fun h => hp h.2.2, fun h => hz h.2, ?_⟩)
      simp [hp]
  · refine .inr (.inr ⟨fun h => hs h.1, fun h => hs h.1, ?_⟩)
    simp [hs]

theorem measureArgs_value (rawPath : Addr)
    (h : (measureArgs m argv left argc size).value = some (n, total)) :
    argc ≤ n ∧ n < argc + left ∧ (∀ j, argc ≤ j → j < n → ArgPasses m argv j) ∧ ArgsEnd m argv n ∧
      after (verifiedArgs m rawPath argv argc) (measureArgs m argv left argc size).events =
        verifiedArgs m rawPath argv n ∪ range (argSlot argv n) 8#64 := by
  induction left generalizing argc size with
  | zero => cases h
  | succ left ih =>
    rcases measureArgs_turn (verifiedArgs m rawPath argv argc) left argc size with
      ⟨hpass, size', hval, haft⟩ | ⟨hend, hval, haft⟩ | ⟨-, -, hval⟩
    · rw [hval] at h
      obtain ⟨hle, hlt, hall, hend, hset⟩ := ih h
      refine ⟨by omega, by omega, fun j h1 h2 => ?_, hend, haft.trans hset⟩
      rcases eq_or_lt_of_le h1 with rfl | hj
      · exact hpass
      · exact hall j hj h2
    · rw [hval] at h
      cases h
      exact ⟨le_refl _, by omega, fun j h1 h2 => by omega, hend, haft⟩
    · rw [hval] at h
      cases h

theorem measureArgs_of_end (left argc size : Nat) (hle : argc ≤ n) (hlt : n < argc + left)
    (hpass : ∀ j, argc ≤ j → j < n → ArgPasses m argv j) (hend : ArgsEnd m argv n) :
    ∃ total, (measureArgs m argv left argc size).value = some (n, total) := by
  induction left generalizing argc size with
  | zero => omega
  | succ left ih =>
    rcases measureArgs_turn ∅ left argc size with ⟨hp, size', hval, -⟩ | ⟨he, hval, -⟩ | ⟨hnp, hne, -⟩
    · have hne : argc ≠ n := fun e => hp.2.1 (by rw [e]; exact hend.2)
      rw [hval]
      exact ih (argc + 1) size' (by omega) (by omega) fun j h1 => hpass j (by omega)
    · have heq : argc = n := by
        by_contra hne
        exact (hpass argc (le_refl _) (by omega)).2.1 he.2
      subst heq
      exact ⟨size, hval⟩
    · rcases eq_or_lt_of_le hle with rfl | hj
      · exact absurd hend hne
      · exact absurd (hpass argc (le_refl _) hj) hnp

theorem touches_resolvePath (m : Bytes) (cwd : Name) (inpPath : Addr) :
    Touches (resolvePath m cwd inpPath) (stringAt m inpPath) := by
  have hstr := touches_readString m inpPath
  refine ((touches_readByte m inpPath).bind (?_ : Touches _ (stringAt m inpPath))).congr ?_
  · split
    · exact hstr.map _
    · exact hstr.map _
  · exact union_eq_right.mpr (singleton_subset_iff.mpr (mem_stringAt_self m inpPath))

theorem within_copyArgs (left i : Nat)
    (h : ∀ j, i ≤ j → j < i + left → span (argSlot argv j) 8 ⊆ v ∧ stringAt m (argAt m argv j) ⊆ v) :
    Within (copyArgs m argv left i) v := by
  induction left generalizing i with
  | zero => exact .pure []
  | succ left ih =>
    obtain ⟨hptr, hstr⟩ := h i (le_refl _) (by omega)
    have hload : Within (load64 m (argSlot argv i)) v := (touches_load64 m _).within hptr
    have hlen : Within (strlen m (load64 m (argSlot argv i)).value) v := (touches_strlen m _).within hstr
    refine hload.bind (hlen.bind ?_)
    refine ((touches_memcpy m _ _).within ((span_strlen_subset m (argAt m argv i)).trans hstr)).bind (Within.map ?_ _)
    exact ih (i + 1) fun j h1 h2 => h j (by omega) (by omega)

theorem within_layoutArgs (start : Addr) (left i off : Nat)
    (h : ∀ j, i ≤ j → j < i + left → span (argSlot argv j) 8 ⊆ v ∧ stringAt m (argAt m argv j) ⊆ v) :
    Within (layoutArgs m argv start left i off) v := by
  induction left generalizing i off with
  | zero => exact .pure _
  | succ left ih =>
    obtain ⟨hptr, hstr⟩ := h i (le_refl _) (by omega)
    have hload : Within (load64 m (argSlot argv i)) v := (touches_load64 m _).within hptr
    have hlen : Within (strlen m (load64 m (argSlot argv i)).value) v := (touches_strlen m _).within hstr
    refine hload.bind (hlen.bind (Within.map ?_ _))
    exact ih (i + 1) _ fun j h1 h2 => h j (by omega) (by omega)

/-- Each argument lies in what is verified when it is measured, and so does the path when it is copied. -/
def ExecFits (m : Bytes) (kmalloc : ExecAlloc) (rawPath argv : Addr) : Prop :=
  verifyUsrAccess rawPath 1#64 = true → argv ≠ 0#64 →
    (∀ i < 128, (∀ j ≤ i, ArgPasses m argv j) →
      stringAt m (argAt m argv i) ⊆ verifiedArgs m rawPath argv (i + 1)) ∧
    (∀ n < 128, (∀ j < n, ArgPasses m argv j) → ArgsEnd m argv n → kmalloc.argvBuf = true →
      kmalloc.argvList = true →
        stringAt m rawPath ⊆ verifiedArgs m rawPath argv n ∪ range (argSlot argv n) 8#64)

theorem safe_copyExecArgs (cwd : Name) (kmalloc : ExecAlloc) (rawPath : Addr) (total : Nat)
    (h : ∀ j < n, span (argSlot argv j) 8 ⊆ v ∧ stringAt m (argAt m argv j) ⊆ v) :
    Safe v (copyExecArgs m cwd kmalloc rawPath argv (some (n, total))).events ↔
      (kmalloc.argvBuf = true → kmalloc.argvList = true → stringAt m rawPath ⊆ v) := by
  obtain ⟨buf, list⟩ := kmalloc
  obtain ⟨T, hT, hsub⟩ := within_copyArgs n 0 fun j _ hj => h j (by omega)
  obtain ⟨U, hU, husub⟩ := within_layoutArgs (startUsrAddr n total) n 0 0 fun j _ hj => h j (by omega)
  cases buf with
  | false => exact ⟨fun _ hb => (by cases hb), fun _ => trivial⟩
  | true =>
    cases list with
    | false =>
      refine ⟨fun _ _ hl => (by cases hl), fun _ => (safe_bind hT).mpr ⟨hsub, ?_⟩⟩
      exact trivial
    | true =>
      have hpath := (touches_resolvePath m cwd rawPath).map fun path => some (ExecArgs.mk (copyArgs m argv n 0).value
          (layoutArgs m argv (startUsrAddr n total) n 0 0).value path)
      constructor
      · intro hs _ _
        exact hpath.safe_iff.mp ((safe_bind hU).mp ((safe_bind hT).mp hs).2).2
      · intro hs
        exact (safe_bind hT).mpr ⟨hsub, (safe_bind hU).mpr ⟨husub, hpath.safe_iff.mpr (hs rfl rfl)⟩⟩

theorem safe_sysExec (m : Bytes) (cwd : Name) (kmalloc : ExecAlloc) (rawPath argv : Addr) :
    Safe ∅ (sysExec m cwd kmalloc rawPath argv).events ↔ ExecFits m kmalloc rawPath argv := by
  rw [sysExec, safe_guard, ExecFits, range_one]
  refine imp_congr_right fun _ => ?_
  by_cases hz : argv = 0#64
  · rw [if_pos hz]
    exact ⟨fun _ h => absurd hz h, fun _ => trivial⟩
  rw [if_neg hz, imp_iff_right hz, events_bind, safe_append]
  have hfirst : Safe {rawPath} (measureArgs m argv 128 0 0).events ↔ ∀ i < 128, (∀ j ≤ i, ArgPasses m argv j) →
      stringAt m (argAt m argv i) ⊆ verifiedArgs m rawPath argv (i + 1) := by
    refine (safe_measureArgs rawPath 128 0 0).trans ?_
    simp only [Nat.zero_le, true_imp_iff, Nat.zero_add]
  refine (and_congr_left' hfirst).trans (and_congr_right fun hstr => ?_)
  -- the list of arguments has at most one end, and the first loop finds it
  cases hval : (measureArgs m argv 128 0 0).value with
  | none =>
    refine ⟨fun _ n hn hpass hend => ?_, fun _ => trivial⟩
    obtain ⟨total, hsome⟩ := measureArgs_of_end 128 0 0 (Nat.zero_le n) (by omega) (fun j _ => hpass j) hend
    rw [hval] at hsome
    cases hsome
  | some r =>
    obtain ⟨n, total⟩ := r
    obtain ⟨-, hn, hpass, hend, hafter⟩ := measureArgs_value rawPath hval
    have hcov : ∀ j < n, span (argSlot argv j) 8 ⊆ verifiedArgs m rawPath argv n ∪ range (argSlot argv n) 8#64 ∧
        stringAt m (argAt m argv j) ⊆ verifiedArgs m rawPath argv n ∪ range (argSlot argv n) 8#64 := by
      intro j hj
      have hmono := (verifiedArgs_mono m rawPath argv (Nat.succ_le_of_lt hj)).trans
        (subset_union_left (t := range (argSlot argv n) 8#64))
      refine ⟨?_, (hstr j (by omega) fun i hi => hpass i (Nat.zero_le i) (by omega)).trans hmono⟩
      exact ((load_subset (hpass j (Nat.zero_le j) hj).1).trans subset_union_left).trans hmono
    change Safe (after (verifiedArgs m rawPath argv 0) _) _ ↔ _
    rw [hafter, safe_copyExecArgs cwd kmalloc rawPath total hcov]
    constructor
    · intro h n' hn' hpass' hend' hbuf hlist
      obtain ⟨total', hsome⟩ := measureArgs_of_end 128 0 0 (Nat.zero_le n') (by omega) (fun j _ => hpass' j) hend'
      rw [hval] at hsome
      cases hsome
      exact h hbuf hlist
    · intro h
      exact h n (by omega) (fun j hj => hpass j (Nat.zero_le j) hj) hend

end Exec

/-! All six -/

/-- A call with its arguments, the content of memory, and what it finds in the kernel. -/
inductive StringCall where
  | exec (m : Bytes) (cwd : Name) (kmalloc : ExecAlloc) (rawPath argv : Addr)
  | mqOpen (m : Bytes) (queues : List Name) (kmalloc : Bool) (name : Addr)
  | mqUnlink (m : Bytes) (queues : List Name) (name : Addr)
  | shmOpen (m : Bytes) (objects : List Name) (kmalloc : ShmAlloc) (name : Addr) (flags : BitVec 32)
  | kprint (m : Bytes) (s : Addr)
  | listFiles (archive : Option (List Name)) (list : Addr) (maxLen : BitVec 64)

/-- What the call verifies and touches, in order. -/
def StringCall.events : StringCall → List Access
  | .exec m cwd kmalloc rawPath argv => (sysExec m cwd kmalloc rawPath argv).events
  | .mqOpen m queues kmalloc name => (sysMqOpen m queues kmalloc name).events
  | .mqUnlink m queues name => (sysMqUnlink m queues name).events
  | .shmOpen m objects kmalloc name flags => (sysShmOpen m objects kmalloc name flags).events
  | .kprint m s => (sysKprint m s).events
  | .listFiles archive list maxLen => (sysListFiles archive list maxLen).events

/-- The strings of the call end within what it verifies: for a name of a queue, the first byte settles
every comparison and no new queue is made; for the list of files, no name fits. -/
def StringCall.Fits : StringCall → Prop
  | .exec m _ kmalloc rawPath argv => ExecFits m kmalloc rawPath argv
  | .mqOpen m queues kmalloc name => verifyUsrAccess name 1#64 = true →
      m name = 0#8 ∨ (∀ q ∈ queues, q.head? ≠ some (m name)) ∧ kmalloc = false
  | .mqUnlink m queues name => verifyUsrAccess name 1#64 = true →
      m name = 0#8 ∨ ∀ q ∈ queues, q.head? ≠ some (m name)
  | .shmOpen m _ _ name _ => verifyUsrAccess name 64#64 = true → ∃ k < 64, m (name + BitVec.ofNat 64 k) = 0#8
  | .kprint m s => verifyUsrAccess s 1#64 = true → m s = 0#8
  | .listFiles archive list maxLen => verifyUsrAccess list 1#64 = true →
      ∀ x ∈ archive.bind head?, maxLen ≤ BitVec.ofNat 64 (x.length + 1)

/-- A call touches only bytes that it verified before if and only if its strings fit. -/
theorem stringCall_safe_iff (c : StringCall) : Safe ∅ c.events ↔ c.Fits := by
  cases c with
  | exec m cwd kmalloc rawPath argv => exact safe_sysExec m cwd kmalloc rawPath argv
  | mqOpen m queues kmalloc name => exact safe_sysMqOpen m queues kmalloc name
  | mqUnlink m queues name => exact safe_sysMqUnlink m queues name
  | shmOpen m objects kmalloc name flags => exact safe_sysShmOpen m objects kmalloc name flags
  | kprint m s => exact safe_sysKprint m s
  | listFiles archive list maxLen => exact safe_sysListFiles archive list maxLen

/-- A string that starts at the last byte of the user half and has no terminator there leads
`sys_kprint` into the addresses of the kernel. -/
theorem sysKprint_unsafe : ¬ Safe ∅ (StringCall.kprint (fun _ => 0x41#8) 0x00007FFFFFFFFFFE#64).events := by
  rw [StringCall.events, safe_sysKprint]
  decide

end NyanOS.Syscall
