import NyanOS.Libc.Safety
import NyanOS.Memory.Heap

/-!
# The heap of a task and its kernel

The functions of the heap with `sys_sbrk` below them, in place of an `sbrk` that fails or grows the heap. What the
pages of a grown heap hold is left as it was: nothing reads it before it is written.
-/
namespace NyanOS.Libc

open Lib Memory List Option

variable {n arg last ptr size brk : Nat} {s : System} {t t' : Task} {p q : Process} {l : List Block}

/-- The program of the task `pid`: its memory, `g_heap_base`, and the pointers it holds with the sizes asked for. -/
structure Process where
  sys : System
  pid : Nat
  mem : Bytes
  base : Nat
  live : List (Nat × Nat)

namespace Process

def task (p : Process) : Option Task := p.sys.find p.pid

def heap (p : Process) (t : Task) : Heap := ⟨p.mem, p.base, t.heapEnd⟩

def session (p : Process) (t : Task) : Session := ⟨p.heap t, p.live⟩

end Process

/-- `(void *)-1` -/
def minusOne : Nat := 2 ^ 64 - 1

/-- What `sys_sbrk` returns for its argument, and the system after it. -/
def sysSbrkReturn (s : System) (t : Task) (arg1 : Nat) : Nat × System :=
  let incrPayload := (BitVec.ofNat 64 arg1).toInt
  if incrPayload ≤ 0 then (t.heapEnd, s)
  else
    match sbrkPages t.heapEnd incrPayload with
    | none => (minusOne, s)
    | some (_, pages) =>
      let (s, flags) := sysSbrk s t incrPayload
      (if flags.length = pages.length then t.heapEnd else minusOne, s)

namespace Process

/-- `request_space`, with 0 for `NULL`. -/
def requestSpace (p : Process) (t : Task) (last size : Nat) : Nat × Process :=
  let (request, sys) := sysSbrkReturn p.sys t (add64 size metaSize)
  if request = minusOne then (0, { p with sys := sys })
  else
    let b := setMagic (setFree (setNext (setSize p.mem request size) request 0) request false) request heapMagic
    (request, { p with sys := sys, mem := if last ≠ 0 then setNext b last request else b })

def malloc (p : Process) (t : Task) (size : Nat) : Nat × Process :=
  if size = 0 then (0, p)
  else
    let size := roundUp16 size
    if p.base = 0 then
      let (blk, p) := p.requestSpace t 0 size
      if blk = 0 then (0, p) else (blk + metaSize, { p with base := blk })
    else
      let (last, blk) := findFreeBlk p.mem size walkFuel p.base p.base
      if blk = 0 then
        let (blk, p) := p.requestSpace t last size
        if blk = 0 then (0, p) else (blk + metaSize, p)
      else (blk + metaSize, { p with mem := setMagic (setFree (splitBlk p.mem blk size) blk false) blk heapMagic })

def free (p : Process) (t : Task) (ptr : Nat) : Process := { p with mem := (Libc.free (p.heap t) ptr).mem }

def realloc (p : Process) (t : Task) (ptr size : Nat) : Nat × Process :=
  if ptr = 0 then p.malloc t size
  else if size = 0 then (0, p.free t ptr)
  else
    let blk := ptr - metaSize
    if size ≤ (blockAt p.mem blk).size then (ptr, p)
    else
      let (new, p) := p.malloc t size
      if new = 0 then (0, p)
      else (new, Process.free { p with mem := memcpy p.mem new ptr (blockAt p.mem blk).size } t ptr)

end Process

inductive Act where
  | malloc (n : Nat)
  | free (ptr : Nat)
  | realloc (ptr n : Nat)
  /-- The program stores a byte at an offset into memory that it holds. -/
  | store (ptr off : Nat) (v : Lib.Byte)
  /-- The rest of the system goes on; the break of the task is its own. -/
  | others (s : System)

def actTo (p : Process) : Act → Option Process
  | .malloc n => p.task.map fun t =>
    let (ptr, q) := p.malloc t n
    { q with live := if ptr = 0 then p.live else (ptr, n) :: p.live }
  | .free ptr => p.task.bind fun t => ((p.session t).sizeOf ptr).map fun _ =>
    { p.free t ptr with live := (p.session t).drop ptr }
  | .realloc ptr n => p.task.bind fun t => ((p.session t).sizeOf ptr).map fun _ =>
    let (new, q) := p.realloc t ptr n
    { q with live := if n = 0 then (p.session t).drop ptr else if new = 0 then p.live
        else (new, n) :: (p.session t).drop ptr }
  | .store ptr off v => p.task.bind fun t => ((p.session t).sizeOf ptr).bind fun n =>
    if off < n then some { p with mem := splice p.mem (ptr + off) 1 fun _ => v } else none
  | .others s => if (s.find p.pid).map Task.heapEnd = p.task.map Task.heapEnd then some { p with sys := s } else none

/-- A size that stays a positive number of the kernel's when it is rounded and gets its header. -/
def Fit (n : Nat) : Prop := n + 32 ≤ 2 ^ 63

instance : Decidable (Fit n) := inferInstanceAs (Decidable (n + 32 ≤ 2 ^ 63))

/-- The sizes that `malloc` is called with, by the program or by `realloc`. -/
def SizesFit (p : Process) : Act → Prop
  | .malloc n => Fit n
  | .realloc ptr n => (blockAt p.mem (ptr - metaSize)).size < n → Fit n
  | _ => True

/-- A program that starts, in any system. -/
structure Process.Fresh (p : Process) : Prop where
  task : p.task.map Task.heapEnd = some userHeapStart
  base : p.base = 0
  live : p.live = []

/-- What the next `malloc` returns lies in the heap as the kernel knows it afterwards. -/
def MallocInside (p : Process) (n : Nat) : Prop :=
  ∀ t, p.task = some t → (p.malloc t n).1 ≠ 0 →
    userHeapStart ≤ (p.malloc t n).1 ∧
    ∃ t', (p.malloc t n).2.task = some t' ∧ (p.malloc t n).1 + n ≤ t'.heapEnd

/-! What the kernel answers -/

theorem toInt_arg (harg : arg < 2 ^ 63) : (BitVec.ofNat 64 arg).toInt = arg := by
  rw [BitVec.toInt_eq_toNat_of_lt (by rw [BitVec.toNat_ofNat]; omega), BitVec.toNat_ofNat, Nat.mod_eq_of_lt (by omega)]

theorem sbrkPages_eq (harg : 0 < arg) (harg' : arg < 2 ^ 63) (hbrk : brk ≤ userHeapMaxLimit) :
    (userHeapMaxLimit < brk + arg ∧ sbrkPages brk arg = none) ∨
    (brk + arg ≤ userHeapMaxLimit ∧ ∃ start, (brk % pageSize ≠ 0 → start = (brk + 0xFFF) / pageSize) ∧
      sbrkPages brk arg = some (brk + arg, List.range' start ((brk + arg + 0xFFF) / pageSize - start))) := by
  have hpos : ¬ (arg : Int) ≤ 0 := by omega
  have hsum : (brk + arg) % 2 ^ 64 = brk + arg := by
    unfold userHeapMaxLimit at hbrk
    exact Nat.mod_eq_of_lt (by omega)
  rw [sbrkPages, if_neg hpos, Int.toNat_natCast]
  simp only [hsum, if_neg (show ¬ brk + arg < brk by omega)]
  by_cases hlim : userHeapMaxLimit < brk + arg
  · exact .inl ⟨hlim, if_pos hlim⟩
  · rw [if_neg hlim]
    exact .inr ⟨by omega, _, fun hne => if_neg hne, rfl⟩

theorem sysSbrkReturn_grow (hfind : s.find t.pid = some t) (hbrk : t.heapEnd ≤ userHeapMaxLimit) (harg : 0 < arg)
    (harg' : arg < 2 ^ 63) : ((sysSbrkReturn s t arg).1 = minusOne ∧ (sysSbrkReturn s t arg).2.find t.pid = some t) ∨
    ((sysSbrkReturn s t arg).1 = t.heapEnd ∧ t.heapEnd + arg ≤ userHeapMaxLimit ∧
      (sysSbrkReturn s t arg).2.find t.pid = some { t with heapEnd := t.heapEnd + arg }) := by
  rw [sysSbrkReturn, toInt_arg harg', if_neg (show ¬ (arg : Int) ≤ 0 by omega)]
  rcases sbrkPages_eq harg harg' hbrk with ⟨-, hpages⟩ | ⟨hlim, start, -, hpages⟩
  · rw [hpages]
    exact .inl ⟨rfl, hfind⟩
  rw [hpages]
  simp only [sysSbrk, hpages]
  split
  · refine .inr ⟨rfl, hlim, ?_⟩
    exact (find_put rfl).trans (if_pos rfl)
  · exact .inl ⟨rfl, hfind⟩

/-- An argument that the kernel reads as negative, or zero: the answer is the break, as for a success. -/
theorem sysSbrkReturn_stay (harg : arg = 0 ∨ 2 ^ 63 ≤ arg) (harg' : arg < 2 ^ 64) :
    sysSbrkReturn s t arg = (t.heapEnd, s) := by
  have hle : (BitVec.ofNat 64 arg).toInt ≤ 0 := by
    rw [BitVec.toInt_eq_toNat_cond, BitVec.toNat_ofNat, Nat.mod_eq_of_lt harg']
    split <;> omega
  exact if_pos hle

theorem sysSbrkReturn_samePage (hbrk : t.heapEnd + arg ≤ userHeapMaxLimit) (harg : 0 < arg) (harg' : arg < 2 ^ 63)
    (hpage : t.heapEnd % pageSize ≠ 0) (hroom : t.heapEnd % pageSize + arg ≤ pageSize) :
    (sysSbrkReturn s t arg).1 = t.heapEnd := by
  rw [sysSbrkReturn, toInt_arg harg', if_neg (show ¬ (arg : Int) ≤ 0 by omega)]
  rcases sbrkPages_eq harg harg' (by omega : t.heapEnd ≤ userHeapMaxLimit) with ⟨hlim, -⟩ | ⟨-, start, hstart, hpages⟩
  · omega
  have hnone : (t.heapEnd + arg + 0xFFF) / pageSize - start = 0 := by
    rw [hstart hpage]
    unfold pageSize at hpage hroom ⊢
    omega
  rw [hnone, range'_zero] at hpages
  rw [hpages]
  simp only [sysSbrk, hpages, sbrkLoop]
  exact if_pos rfl

/-! The process and its heap -/

/-- The heap of the process, with the break that the kernel keeps for it. -/
def Process.Has (p : Process) (h : Heap) : Prop :=
  ∃ t, p.task = some t ∧ t.heapEnd ≤ userHeapMaxLimit ∧ p.heap t = h

theorem pid_of_task (ht : p.task = some t) : t.pid = p.pid := (find_some ht).2

theorem requestSpace_sim (last : Nat) (ht : p.task = some t) (hbrk : t.heapEnd ≤ userHeapMaxLimit) (hpos : 0 < t.heapEnd)
    (hsize : size + 32 ≤ 2 ^ 63) : ((p.requestSpace t last size).1 = 0 ∧ (p.requestSpace t last size).2.Has (p.heap t) ∧
      Libc.requestSpace (p.heap t) last size false = none) ∨
    ((p.requestSpace t last size).1 = t.heapEnd ∧ ∃ h, (p.requestSpace t last size).2.Has h ∧ h.base = p.base ∧
      Libc.requestSpace (p.heap t) last size true = some (t.heapEnd, h)) := by
  have hadd : add64 size metaSize = size + metaSize := add64_eq (by unfold metaSize; omega)
  have hpid := pid_of_task ht
  have hfind : p.sys.find t.pid = some t := hpid ▸ ht
  have harg : 0 < size + metaSize ∧ size + metaSize < 2 ^ 63 := by
    unfold metaSize
    omega
  rw [Process.requestSpace, hadd]
  rcases sysSbrkReturn_grow hfind hbrk harg.1 harg.2 with ⟨hno, hsame⟩ | ⟨hyes, hlim, hgrown⟩
  · refine .inl ?_
    simp only [hno, if_true]
    refine ⟨trivial, ⟨t, hpid ▸ hsame, hbrk, rfl⟩, ?_⟩
    rw [Libc.requestSpace, sbrk, if_neg fun hok => Bool.false_ne_true hok.1]
    rfl
  · refine .inr ?_
    have hne : t.heapEnd ≠ minusOne := by
      unfold minusOne userHeapMaxLimit at *
      omega
    have hlt : t.heapEnd + (size + metaSize) < 2 ^ 64 := by
      unfold userHeapMaxLimit at hlim
      omega
    simp only [hyes, if_neg hne]
    refine ⟨trivial, _, ⟨_, hpid ▸ hgrown, hlim, rfl⟩, rfl, ?_⟩
    rw [Libc.requestSpace, sbrk, hadd, if_pos ⟨rfl, hlt⟩]
    rfl

theorem malloc_sim (ht : p.task = some t) (hbrk : t.heapEnd ≤ userHeapMaxLimit) (hpos : 0 < t.heapEnd) (hn : Fit n) :
    ∃ ok, (p.malloc t n).1 = (Libc.malloc (p.heap t) n ok).1 ∧
      (p.malloc t n).2.Has (Libc.malloc (p.heap t) n ok).2 := by
  have hsize := (roundUp16_bounds hn).2
  have hnonzero : t.heapEnd ≠ 0 := by omega
  by_cases hzero : n = 0
  · refine ⟨false, ?_⟩
    rw [Process.malloc, Libc.malloc, if_pos hzero, if_pos hzero]
    exact ⟨rfl, t, ht, hbrk, rfl⟩
  unfold Process.malloc Libc.malloc
  simp only [if_neg hzero]
  by_cases hbase : p.base = 0
  · have hbase' : (p.heap t).base = 0 := hbase
    simp only [if_pos hbase, if_pos hbase']
    rcases requestSpace_sim 0 ht hbrk hpos hsize with ⟨hno, hhas, hreq⟩ | ⟨hyes, h, hhas, -, hreq⟩
    · refine ⟨false, ?_⟩
      simp only [hno, hreq, if_true]
      exact ⟨trivial, hhas⟩
    refine ⟨true, ?_⟩
    simp only [hyes, hreq, if_neg hnonzero]
    obtain ⟨t', ht', hbrk', rfl⟩ := hhas
    exact ⟨trivial, t', ht', hbrk', rfl⟩
  · have hbase' : ¬ (p.heap t).base = 0 := hbase
    simp only [if_neg hbase, if_neg hbase']
    have hfind : findFreeBlk (p.heap t).mem (roundUp16 n) walkFuel (p.heap t).base (p.heap t).base =
        findFreeBlk p.mem (roundUp16 n) walkFuel p.base p.base := rfl
    rw [hfind]
    generalize findFreeBlk p.mem (roundUp16 n) walkFuel p.base p.base = found
    obtain ⟨last, blk⟩ := found
    dsimp only
    by_cases hblk : blk = 0
    · simp only [if_pos hblk]
      rcases requestSpace_sim last ht hbrk hpos hsize with ⟨hno, hhas, hreq⟩ | ⟨hyes, h, hhas, -, hreq⟩
      · refine ⟨false, ?_⟩
        simp only [hno, hreq, if_true]
        exact ⟨trivial, hhas⟩
      refine ⟨true, ?_⟩
      simp only [hyes, hreq, if_neg hnonzero]
      exact ⟨trivial, hhas⟩
    · simp only [if_neg hblk]
      exact ⟨false, trivial, t, ht, hbrk, rfl⟩

theorem heap_free (t t' : Task) : (p.free t ptr).heap t' = Libc.free (p.heap t') ptr := by
  by_cases hptr : ptr = 0
  · simp only [Process.free, Libc.free, if_pos hptr, Process.heap]
  by_cases hmagic : (blockAt p.mem (ptr - metaSize)).magic = heapMagic
  · simp [Process.free, Libc.free, hptr, Process.heap, hmagic]
  · simp [Process.free, Libc.free, hptr, Process.heap, hmagic]

theorem realloc_sim (ht : p.task = some t) (hbrk : t.heapEnd ≤ userHeapMaxLimit) (hpos : 0 < t.heapEnd) (hptr : ptr ≠ 0)
    (hn : (blockAt p.mem (ptr - metaSize)).size < n → Fit n) :
    ∃ ok, (p.realloc t ptr n).1 = (Libc.realloc (p.heap t) ptr n ok).1 ∧
      (p.realloc t ptr n).2.Has (Libc.realloc (p.heap t) ptr n ok).2 := by
  unfold Process.realloc Libc.realloc
  simp only [if_neg hptr]
  by_cases hzero : n = 0
  · simp only [if_pos hzero]
    exact ⟨false, trivial, t, ht, hbrk, heap_free t t⟩
  simp only [if_neg hzero]
  by_cases hfits : n ≤ (blockAt p.mem (ptr - metaSize)).size
  · have hfits' : n ≤ (blockAt (p.heap t).mem (ptr - metaSize)).size := hfits
    simp only [if_pos hfits, if_pos hfits']
    exact ⟨false, trivial, t, ht, hbrk, rfl⟩
  have hfits' : ¬ n ≤ (blockAt (p.heap t).mem (ptr - metaSize)).size := hfits
  simp only [if_neg hfits, if_neg hfits']
  obtain ⟨ok, hsame, hhas⟩ := malloc_sim ht hbrk hpos (hn (by omega))
  refine ⟨ok, ?_⟩
  generalize p.malloc t n = r at hsame hhas
  generalize Libc.malloc (p.heap t) n ok = r' at hsame hhas
  obtain ⟨new, q⟩ := r
  obtain ⟨new', h⟩ := r'
  obtain rfl : new = new' := hsame
  obtain ⟨t', ht', hbrk', rfl⟩ := hhas
  dsimp only
  by_cases hnull : new = 0
  · rw [if_pos hnull, if_pos hnull]
    exact ⟨rfl, t', ht', hbrk', rfl⟩
  · rw [if_neg hnull, if_neg hnull]
    exact ⟨rfl, t', ht', hbrk', heap_free t t'⟩

/-! Runs -/

theorem heapStart_pos : 0 < userHeapStart := by decide

/-- The heap of the process is made of blocks, and the kernel's break is their end. -/
def Process.Sound (p : Process) : Prop :=
  ∃ t l, p.task = some t ∧ t.heapEnd ≤ userHeapMaxLimit ∧ SessionIs userHeapStart (p.session t) l

theorem Process.Fresh.sound (hp : p.Fresh) : p.Sound := by
  obtain ⟨htask, hbase, hlive⟩ := hp
  obtain ⟨t, ht, hbrk⟩ := map_eq_some_iff.mp htask
  refine ⟨t, [], ht, ?_, ⟨trivial, hbase, hbrk, ?_, List.IsChain.nil⟩, ?_, ?_⟩
  · rw [hbrk]
    decide
  · change t.heapEnd < 2 ^ 64
    rw [hbrk]
    decide
  · intro e he
    change e ∈ p.live at he
    rw [hlive] at he
    cases he
  · change (p.live.map Prod.fst).Nodup
    rw [hlive]
    exact nodup_nil

theorem Process.Has.sound {h : Heap} {live : List (Nat × Nat)} (hhas : q.Has h)
    (hs : SessionIs userHeapStart ⟨h, live⟩ l) : Process.Sound { q with live := live } := by
  obtain ⟨t, ht, hbrk, rfl⟩ := hhas
  exact ⟨t, l, ht, hbrk, hs⟩

theorem heapEnd_pos (hs : SessionIs userHeapStart (p.session t) l) : 0 < t.heapEnd := by
  have hbrk : t.heapEnd = userHeapStart + total l := hs.heap.brk
  have hpos := heapStart_pos
  omega

theorem Process.Sound.step {c : Act} (hstep : guarded (ofNext actTo) SizesFit p c q) (hp : p.Sound) : q.Sound := by
  obtain ⟨hok, hnext⟩ := hstep
  obtain ⟨t, l, ht, hbrk, hs⟩ := hp
  have hpos := heapEnd_pos hs
  cases c with
  | malloc n =>
    obtain ⟨t', ht', rfl⟩ := map_eq_some_iff.mp hnext
    obtain rfl : t = t' := some.inj (ht.symm.trans ht')
    obtain ⟨ok, hsame, hhas⟩ := malloc_sim ht hbrk hpos hok
    dsimp only
    rw [hsame]
    by_cases hzero : n = 0
    · have hnone : Libc.malloc (p.heap t) n ok = (0, p.heap t) := if_pos hzero
      rw [hnone] at hhas ⊢
      exact hhas.sound hs
    rcases hs.malloc ok heapStart_pos (pos_of_ne_zero hzero) hok with hfail | ⟨hne, l', hnew, -⟩
    · have hnone : Libc.malloc (p.heap t) n ok = (0, p.heap t) := hfail
      rw [hnone] at hhas ⊢
      exact hhas.sound hs
    have hne' : (Libc.malloc (p.heap t) n ok).1 ≠ 0 := hne
    rw [if_neg hne']
    exact hhas.sound hnew
  | free ptr =>
    obtain ⟨t', ht', hfree⟩ := bind_eq_some_iff.mp hnext
    obtain rfl : t = t' := some.inj (ht.symm.trans ht')
    obtain ⟨n, hn, rfl⟩ := map_eq_some_iff.mp hfree
    obtain ⟨l', hfreed⟩ := hs.free heapStart_pos (mem_of_sizeOf hn)
    have hhas : (p.free t ptr).Has (Libc.free (p.heap t) ptr) := ⟨t, ht, hbrk, heap_free t t⟩
    exact hhas.sound hfreed
  | realloc ptr n =>
    obtain ⟨t', ht', hre⟩ := bind_eq_some_iff.mp hnext
    obtain rfl : t = t' := some.inj (ht.symm.trans ht')
    obtain ⟨k, hk, rfl⟩ := map_eq_some_iff.mp hre
    have hlive := mem_of_sizeOf hk
    have hptr : ptr ≠ 0 := by
      obtain ⟨a, x, heq, -⟩ := hs.owns _ hlive
      rw [show ptr = a + metaSize from heq]
      unfold metaSize
      omega
    obtain ⟨ok, hsame, hhas⟩ := realloc_sim ht hbrk hpos hptr hok
    obtain ⟨l', hnew⟩ := hs.realloc ok heapStart_pos hlive hok
    dsimp only
    rw [hsame]
    exact hhas.sound hnew
  | store ptr off v =>
    obtain ⟨t', ht', hstore⟩ := bind_eq_some_iff.mp hnext
    obtain rfl : t = t' := some.inj (ht.symm.trans ht')
    obtain ⟨n, hn, hput⟩ := bind_eq_some_iff.mp hstore
    obtain ⟨hoff, heq⟩ := ite_none_right_eq_some.mp hput
    cases heq
    obtain ⟨a, x, heq, hx, -, hroom⟩ := hs.owns _ (mem_of_sizeOf hn)
    obtain rfl : ptr = a + metaSize := heq
    have hout : Outside (a + metaSize) (a + metaSize + x.size) (p.session t).heap.mem
        (splice p.mem (a + metaSize + off) 1 fun _ => v) := fun i hi => splice_out (by omega)
    exact ⟨t, l, ht, hbrk, hs.write hx hout⟩
  | others s =>
    obtain ⟨hbreak, heq⟩ := ite_none_right_eq_some.mp hnext
    cases heq
    rw [ht, map_some] at hbreak
    obtain ⟨t', ht', hsame⟩ := map_eq_some_iff.mp hbreak
    refine ⟨t', l, ht', hsame ▸ hbrk, ?_⟩
    have hsession : Process.session { p with sys := s } t' = p.session t := by
      simp only [Process.session, Process.heap, hsame]
    rw [hsession]
    exact hs

theorem Process.Sound.inside (hp : p.Sound) (hn : 0 < n) (hfit : Fit n) : MallocInside p n := by
  obtain ⟨t, l, ht, hbrk, hs⟩ := hp
  intro t' ht' hne
  obtain rfl : t = t' := some.inj (ht.symm.trans ht')
  obtain ⟨ok, hsame, t', ht', -, hheap⟩ := malloc_sim ht hbrk (heapEnd_pos hs) hfit
  rw [hsame] at hne ⊢
  rcases malloc_spec ok heapStart_pos hs.heap hn hfit with hfail | ⟨l', a, x, hblocks, hptr, hx, -, hsize, -⟩
  · have hnone : Libc.malloc (p.heap t) n ok = (0, p.heap t) := hfail
    rw [hnone] at hne
    exact absurd rfl hne
  have hptr' : (Libc.malloc (p.heap t) n ok).1 = a + metaSize := hptr
  have hend : t'.heapEnd = userHeapStart + total l' := (congrArg Heap.brk hheap).trans hblocks.brk
  obtain ⟨hlo, hhi⟩ := placed_bounds hx
  rw [hptr']
  refine ⟨by omega, t', ht', ?_⟩
  simp only at hhi
  omega

/-! Sizes that do not fit -/

/-- Rounded and with its header, such a size is negative for the kernel, or has become small. -/
theorem add64_of_not_fit (hn : ¬ Fit n) (hn' : n < 2 ^ 64) :
    2 ^ 63 ≤ add64 (roundUp16 n) metaSize ∧ add64 (roundUp16 n) metaSize < 2 ^ 64 ∨
      0 < add64 (roundUp16 n) metaSize ∧ add64 (roundUp16 n) metaSize ≤ metaSize := by
  unfold Fit at hn
  unfold add64 roundUp16 add64 metaSize
  omega

theorem sysSbrkReturn_of_not_fit (hn : ¬ Fit n) (hn' : n < 2 ^ 64) (hbrk : t.heapEnd + metaSize ≤ userHeapMaxLimit)
    (hpage : t.heapEnd % pageSize ≠ 0) (hroom : t.heapEnd % pageSize + metaSize ≤ pageSize) :
    (sysSbrkReturn s t (add64 (roundUp16 n) metaSize)).1 = t.heapEnd := by
  rcases add64_of_not_fit hn hn' with ⟨hneg, hlt⟩ | ⟨hpos, hsmall⟩
  · rw [sysSbrkReturn_stay (.inr hneg) hlt]
  · exact sysSbrkReturn_samePage (by omega) hpos (hsmall.trans_lt (by decide)) hpage (by omega)

theorem heapEnd_sysSbrkReturn (hfind : s.find t.pid = some t) (hbrk : t.heapEnd ≤ userHeapMaxLimit)
    (harg : arg < 2 ^ 64) (hafter : (sysSbrkReturn s t arg).2.find t.pid = some t') :
    t'.heapEnd ≤ userHeapMaxLimit := by
  by_cases hgrow : 0 < arg ∧ arg < 2 ^ 63
  · rcases sysSbrkReturn_grow hfind hbrk hgrow.1 hgrow.2 with ⟨-, hsame⟩ | ⟨-, hlim, hgrown⟩
    · obtain rfl := some.inj (hsame.symm.trans hafter)
      exact hbrk
    · obtain rfl := some.inj (hgrown.symm.trans hafter)
      exact hlim
  · rw [sysSbrkReturn_stay (by omega) harg] at hafter
    obtain rfl := some.inj (hfind.symm.trans hafter)
    exact hbrk

/-- With all blocks in use and room in the last page, the memory begins at the break and ends beyond it. -/
theorem not_inside_of_not_fit (ht : p.task = some t) (hs : SessionIs userHeapStart (p.session t) l)
    (hused : ∀ y ∈ l, y.free = false) (hn : ¬ Fit n) (hn' : n < 2 ^ 64) (hbrk : t.heapEnd + metaSize ≤ userHeapMaxLimit)
    (hpage : t.heapEnd % pageSize ≠ 0) (hroom : t.heapEnd % pageSize + metaSize ≤ pageSize) :
    (p.malloc t n).1 = t.heapEnd + metaSize ∧ ¬ MallocInside p n := by
  have hzero : n ≠ 0 := by
    rintro rfl
    exact hn (by decide)
  have hend : t.heapEnd = userHeapStart + total l := hs.heap.brk
  have hl : l ≠ [] := by
    rintro rfl
    rw [hend] at hpage
    exact hpage (by decide)
  have hbase : p.base = userHeapStart := hs.heap.base.trans (if_neg hl)
  have hchain : Chain p.mem userHeapStart l 0 := hs.heap.chain
  have hnone : ∀ y ∈ l, ¬ Fits (roundUp16 n) y := fun y hy hfits =>
    Bool.false_ne_true ((hused y hy).symm.trans hfits.1)
  have hfind : findFreeBlk p.mem (roundUp16 n) walkFuel userHeapStart userHeapStart = (lastOf userHeapStart l, 0) :=
    findFreeBlk_none heapStart_pos hchain hl hnone hs.heap.length_lt.le
  have hne : t.heapEnd ≠ minusOne := by
    unfold minusOne userHeapMaxLimit at *
    omega
  have hanswer := sysSbrkReturn_of_not_fit (s := p.sys) hn hn' hbrk hpage hroom
  have hmalloc : (p.malloc t n).1 = t.heapEnd + metaSize ∧
      (p.malloc t n).2.sys = (sysSbrkReturn p.sys t (add64 (roundUp16 n) metaSize)).2 ∧ (p.malloc t n).2.pid = p.pid := by
    rw [Process.malloc, if_neg hzero, hbase]
    simp only [if_neg heapStart_pos.ne', hfind, if_true, Process.requestSpace, hanswer, if_neg hne,
      if_neg (heapEnd_pos hs).ne', and_self]
  obtain ⟨hptr, hsys, hpid⟩ := hmalloc
  refine ⟨hptr, fun hinside => ?_⟩
  obtain ⟨-, t', ht', hle⟩ := hinside t ht (by rw [hptr]; unfold metaSize; omega)
  rw [Process.task, hsys, hpid, ← pid_of_task ht] at ht'
  have hlim := heapEnd_sysSbrkReturn (pid_of_task ht ▸ ht) (by omega) (Nat.mod_lt _ (by decide)) ht'
  rw [hptr] at hle
  unfold Fit at hn
  unfold userHeapMaxLimit metaSize at *
  omega

/-- A program in a system with nothing else. -/
def freshProcess : Process := ⟨heapSystem, 1, fun _ => 0, 0, []⟩

instance : ∀ p c, Decidable (SizesFit p c)
  | _, .malloc n => inferInstanceAs (Decidable (Fit n))
  | p, .realloc ptr n => inferInstanceAs (Decidable ((blockAt p.mem (ptr - metaSize)).size < n → Fit n))
  | _, .free _ => inferInstanceAs (Decidable True)
  | _, .store _ _ _ => inferInstanceAs (Decidable True)
  | _, .others _ => inferInstanceAs (Decidable True)

theorem fresh_freshProcess : freshProcess.Fresh := ⟨rfl, rfl, rfl⟩

/-- After a first `malloc` the program has a page, and the header behind the break would be stored in it. -/
theorem run_freshProcess : ∃ p t, Run (guarded (ofNext actTo) SizesFit) freshProcess [.malloc 16] p ∧
    p.task = some t ∧ t.heapEnd = userHeapStart + 40 ∧ p.live = [(userHeapStart + 24, 16)] ∧
    accessOk (mmuEntry p.sys.machine t.pml4 (t.heapEnd / pageSize)) true true = true := by
  have hexec : ((exec (checked actTo SizesFit) freshProcess [.malloc 16]).bind fun p => p.task.map fun t =>
      (t.heapEnd, p.live, accessOk (mmuEntry p.sys.machine t.pml4 (t.heapEnd / pageSize)) true true)) =
      some (userHeapStart + 40, [(userHeapStart + 24, 16)], true) := by decide +kernel
  obtain ⟨p, hp, htask⟩ := bind_eq_some_iff.mp hexec
  obtain ⟨t, ht, heq⟩ := map_eq_some_iff.mp htask
  obtain ⟨hend, hrest⟩ := Prod.mk.inj heq
  obtain ⟨hlive, haccess⟩ := Prod.mk.inj hrest
  exact ⟨p, t, exec_checked hp, ht, hend, hlive, haccess⟩

theorem used_of_forty (hs : SessionIs userHeapStart (p.session t) l) (hend : t.heapEnd = userHeapStart + 40)
    (hlive : (ptr, n) ∈ p.live) : ∀ y ∈ l, y.free = false := by
  have hbrk : t.heapEnd = userHeapStart + total l := hs.heap.brk
  have hlen := length_le_total l
  obtain ⟨a, x, -, hx, hfree, -⟩ := hs.owns _ hlive
  obtain ⟨pre, post, rfl, -⟩ := placed_split hx
  rw [length_append, length_cons] at hlen
  unfold metaSize at hlen
  have hpre : pre = [] := length_eq_zero_iff.mp (by omega)
  have hpost : post = [] := length_eq_zero_iff.mp (by omega)
  subst hpre hpost
  intro y hy
  obtain rfl := mem_singleton.mp hy
  exact hfree

/-- The state after the first `malloc` is one in which no size that does not fit gives memory of the heap. -/
theorem run_not_inside (hn : ¬ Fit n) (hn' : n < 2 ^ 64) :
    ∃ p t, Run (guarded (ofNext actTo) SizesFit) freshProcess [.malloc 16] p ∧ p.task = some t ∧
      accessOk (mmuEntry p.sys.machine t.pml4 (t.heapEnd / pageSize)) true true = true ∧
      (p.malloc t n).1 = t.heapEnd + metaSize ∧ ¬ MallocInside p n := by
  obtain ⟨p, t, hrun, ht, hend, hlive, haccess⟩ := run_freshProcess
  obtain ⟨t', l, ht', -, hs⟩ :=
    hrun.invariant (P := Process.Sound) (fun _ _ _ => Process.Sound.step) fresh_freshProcess.sound
  obtain rfl : t = t' := some.inj (ht.symm.trans ht')
  have hused := used_of_forty hs hend (hlive ▸ mem_cons_self)
  refine ⟨p, t, hrun, ht, haccess, not_inside_of_not_fit ht hs hused hn hn' ?_ ?_ ?_⟩
  all_goals
    rw [hend]
    decide

/-- The sizes for which `malloc` gives memory of the heap, or none, in every state that a program can come to with
such sizes. -/
theorem malloc_inside_iff (hn : 0 < n) (hn' : n < 2 ^ 64) :
    (∀ p₀ acts p, Process.Fresh p₀ → Run (guarded (ofNext actTo) SizesFit) p₀ acts p → MallocInside p n) ↔
      n + 32 ≤ 2 ^ 63 := by
  constructor
  · intro hall
    by_contra hfit
    obtain ⟨p, t, hrun, -, -, -, hout⟩ := run_not_inside hfit hn'
    exact hout (hall _ _ _ fresh_freshProcess hrun)
  · intro hfit p₀ acts p hfresh hrun
    have hsound := hrun.invariant (P := Process.Sound) (fun _ _ _ => Process.Sound.step) hfresh.sound
    exact hsound.inside hn hfit

theorem malloc_inside_iff_page :
    (∀ p₀ acts p, Process.Fresh p₀ → Run (guarded (ofNext actTo) SizesFit) p₀ acts p → MallocInside p 4096) ↔
      4096 + 32 ≤ 2 ^ 63 := malloc_inside_iff (by decide) (by decide)

/-- A program that has asked for 16 bytes asks for half of all addresses: the kernel takes the size for a negative
one and answers with the break, where the header is stored. The page of the header is there. -/
theorem malloc_outside_heap : ∃ p t, Run (guarded (ofNext actTo) SizesFit) freshProcess [.malloc 16] p ∧
    p.task = some t ∧ accessOk (mmuEntry p.sys.machine t.pml4 (t.heapEnd / pageSize)) true true = true ∧
    (p.malloc t (2 ^ 63)).1 = t.heapEnd + metaSize ∧ ¬ MallocInside p (2 ^ 63) :=
  run_not_inside (by decide) (by decide)

end NyanOS.Libc
