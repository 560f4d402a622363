import NyanOS.Lib.Extent
import NyanOS.Libc.Ops

/-!
# The heap over whole runs

The calls of one program on its heap, with its own stores into the memory it was given.
-/
namespace NyanOS.Libc

open Lib List Option

variable {b b' mem : Bytes} {a b₀ n p size k : Nat} {x w : Block} {l pre post old mid rest : List Block} {q r : Nat × Block}
  {h : Heap} {ok : Bool}

/-- The heap that began at the break `b₀` consists of the blocks `l`. -/
structure HeapIs (b₀ : Nat) (h : Heap) (l : List Block) : Prop where
  chain : Chain h.mem b₀ l 0
  base : h.base = ptrTo b₀ l 0
  brk : h.brk = b₀ + total l
  bound : h.brk < 2 ^ 64
  spaced : l.IsChain Spaced

theorem placed_split (h : (p, x) ∈ placed a l) : ∃ pre post, l = pre ++ x :: post ∧ p = a + total pre := by
  induction l generalizing a with
  | nil => cases h
  | cons y l ih =>
    rcases mem_cons.mp h with heq | htail
    · cases heq
      exact ⟨[], l, rfl, rfl⟩
    · obtain ⟨pre, post, rfl, rfl⟩ := ih htail
      exact ⟨y :: pre, post, rfl, by rw [total_cons, add_assoc]⟩

theorem placed_eq_or_apart (hq : q ∈ placed a l) (hr : r ∈ placed a l) :
    q = r ∨ q.1 + metaSize + q.2.size ≤ r.1 ∨ r.1 + metaSize + r.2.size ≤ q.1 := by
  induction l generalizing a with
  | nil => cases hq
  | cons x l ih =>
    rcases mem_cons.mp hq with rfl | hq <;> rcases mem_cons.mp hr with rfl | hr
    · exact .inl rfl
    · have hlo := (placed_bounds hr).1
      exact .inr (.inl (by simp only; omega))
    · have hlo := (placed_bounds hq).1
      exact .inr (.inr (by simp only; omega))
    · exact ih hq hr

theorem placed_replace (old mid : List Block) (htotal : total mid = total old) (h : q ∈ placed a (pre ++ (old ++ post))) :
    q ∈ placed (a + total pre) old ∨
      q ∈ placed a (pre ++ (mid ++ post)) ∧ (q.1 < a + total pre ∨ a + total pre + total old ≤ q.1) := by
  have hmid : placed a (pre ++ (mid ++ post)) =
      placed a pre ++ (placed (a + total pre) mid ++ placed (a + total pre + total old) post) := by
    rw [placed_append, placed_append, htotal]
  rw [placed_append, placed_append, mem_append, mem_append] at h
  rw [hmid, mem_append, mem_append]
  rcases h with hpre | hold | hpost
  · have hlt : q.1 < a + total pre := by
      have hhi := (placed_bounds hpre).2
      unfold metaSize at hhi
      omega
    exact .inr ⟨.inl hpre, .inl hlt⟩
  · exact .inl hold
  · exact .inr ⟨.inr (.inr hpost), .inr (placed_bounds hpost).1⟩

theorem chain_payload (hc : Chain b a l 0) (hx : (p, x) ∈ placed a l)
    (hout : Outside (p + metaSize) (p + metaSize + x.size) b b') : Chain b' a l 0 := by
  refine chain_congr (fun q hq k hk => hout _ ?_) hc
  rcases placed_eq_or_apart hq hx with rfl | hlo | hhi
  · simp only
    omega
  · simp only at hlo
    omega
  · simp only at hhi
    omega

/-! `malloc` -/

/-- The blocks in use stay, and the block at `p` was none of them. -/
def Keeps (a : Nat) (l l' : List Block) (p : Nat) : Prop :=
  ∀ q ∈ placed a l, q.2.free = false → q ∈ placed a l' ∧ q.1 ≠ p

theorem roundUp16_bounds (hn : n + 32 ≤ 2 ^ 63) : n ≤ roundUp16 n ∧ roundUp16 n + 32 ≤ 2 ^ 63 := by
  unfold roundUp16 add64
  omega

theorem HeapIs.length_lt (hh : HeapIs b₀ h l) : l.length < walkFuel := by
  have hlen := length_le_total l
  have hbound := hh.bound
  have hbrk := hh.brk
  unfold metaSize at hlen
  unfold walkFuel
  omega

theorem requestSpace_eq (h : Heap) (last : Nat) (ok : Bool) (hsize : size < 2 ^ 63) :
    requestSpace h last size ok = none ∨ h.brk + (metaSize + size) < 2 ^ 64 ∧
      requestSpace h last size ok = some (h.brk, ⟨if last ≠ 0 then setNext (newHeader h.mem h.brk size) last h.brk
        else newHeader h.mem h.brk size, h.base, h.brk + (metaSize + size)⟩) := by
  have hadd : add64 size metaSize = metaSize + size := (add64_eq (by unfold metaSize; omega)).trans (add_comm _ _)
  rw [requestSpace, sbrk, hadd]
  by_cases hok : ok = true ∧ h.brk + (metaSize + size) < 2 ^ 64
  · rw [if_pos hok]
    exact .inr ⟨hok.2, rfl⟩
  · rw [if_neg hok]
    exact .inl rfl

theorem HeapIs.grow (hh : HeapIs b₀ h l) (hbound : b₀ + total (l ++ [⟨size, false⟩]) < 2 ^ 64)
    (hc : Chain b' b₀ (l ++ [⟨size, false⟩]) 0) :
    HeapIs b₀ ⟨b', b₀, b₀ + total (l ++ [⟨size, false⟩])⟩ (l ++ [⟨size, false⟩]) := by
  refine ⟨hc, ?_, rfl, hbound, isChain_append.mpr ⟨hh.spaced, List.IsChain.singleton _, ?_⟩⟩
  · cases l <;> rfl
  · intro w _ y hy hboth
    cases hy
    exact Bool.false_ne_true hboth.2

theorem keeps_append (x : Block) : Keeps a l (l ++ [x]) (a + total l) := by
  intro q hq _
  have hhi := (placed_bounds hq).2
  rw [placed_append]
  refine ⟨mem_append_left _ hq, ?_⟩
  unfold metaSize at hhi
  omega

theorem mem_placed_append (pre post : List Block) : (a + total pre, x) ∈ placed a (pre ++ x :: post) := by
  rw [placed_append]
  exact mem_append_right _ mem_cons_self

theorem HeapIs.replace (old mid : List Block) (hh : HeapIs b₀ h (pre ++ (old ++ post))) (hold : old ≠ []) (hmid : mid ≠ [])
    (htotal : total mid = total old) (hout : Outside (b₀ + total pre) (b₀ + total pre + total old) h.mem b')
    (hnew : Chain b' (b₀ + total pre) mid (ptrTo (b₀ + total pre + total old) post 0))
    (hs : (pre ++ (mid ++ post)).IsChain Spaced) : HeapIs b₀ { h with mem := b' } (pre ++ (mid ++ post)) := by
  refine ⟨hh.chain.replace hout hold hmid htotal hnew, ?_, ?_, hh.bound, hs⟩
  · rw [hh.base, ptrTo, ptrTo, if_neg (by simp [hold]), if_neg (by simp [hmid])]
  · rw [hh.brk, total_append, total_append, total_append, total_append, htotal]

theorem malloc_grow (hb : 0 < b₀) (hh : HeapIs b₀ h l) (hn : 0 < n) (hn' : n + 32 ≤ 2 ^ 63)
    (hnone : ∀ y ∈ l, ¬ Fits (roundUp16 n) y) : malloc h n ok = (0, h) ∨
      (malloc h n ok).1 = b₀ + total l + metaSize ∧ HeapIs b₀ (malloc h n ok).2 (l ++ [⟨roundUp16 n, false⟩]) := by
  have hsize : roundUp16 n < 2 ^ 63 := by
    have hbounds := roundUp16_bounds hn'
    omega
  have htotal : total (l ++ [⟨roundUp16 n, false⟩]) = total l + (metaSize + roundUp16 n) := total_append
  have hbrk := hh.brk
  have hbase := hh.base
  rcases eq_nil_or_concat' l with rfl | ⟨pre, y, rfl⟩
  · have hfirst : h.base = 0 := hbase
    rcases requestSpace_eq h 0 ok hsize with hreq | ⟨hlt, hreq⟩
    · refine .inl ?_
      rw [malloc, if_neg (by omega)]
      simp only [if_pos hfirst, hreq]
    rw [hbrk, add_assoc, ← htotal] at hlt hreq
    rw [malloc, if_neg (by omega)]
    simp only [if_pos hfirst, hreq]
    exact .inr ⟨trivial, hh.grow hlt ⟨blockAt_newHeader (by omega), trivial⟩⟩
  · have hlen := hh.length_lt
    have hfind : findFreeBlk h.mem (roundUp16 n) walkFuel b₀ b₀ = (b₀ + total pre, 0) := by
      rw [findFreeBlk_none hb hh.chain (by simp) hnone hlen.le, lastOf, dropLast_concat]
    have hbase : h.base = b₀ := hh.base.trans (if_neg (by simp))
    rcases requestSpace_eq h (b₀ + total pre) ok hsize with hreq | ⟨hlt, hreq⟩
    · refine .inl ?_
      rw [malloc, if_neg (by omega)]
      simp only [hbase, hfind, hreq, if_neg (show b₀ ≠ 0 by omega), if_true]
    rw [hbrk, add_assoc, ← htotal] at hlt hreq
    rw [if_pos (by omega), hbase] at hreq
    have hgrow := chain_grow hh.chain (show roundUp16 n < 2 ^ 64 by omega) (by omega)
    rw [malloc, if_neg (by omega)]
    simp only [hbase, hfind, hreq, if_neg (show b₀ ≠ 0 by omega), if_true]
    exact .inr ⟨trivial, hh.grow hlt hgrow⟩

theorem spaced_taken (hs : (pre ++ x :: post).IsChain Spaced) (hx : x.free = true) :
    (pre ++ (taken x size ++ post)).IsChain Spaced := by
  obtain ⟨hpre, hrest, -⟩ := isChain_append.mp hs
  obtain ⟨hpost, htail⟩ := isChain_cons.mp hrest
  have hused : ∀ (w : Block) (k : Nat), Spaced w ⟨k, false⟩ ∧ Spaced ⟨k, false⟩ w :=
    fun w k => ⟨fun h => Bool.false_ne_true h.2, fun h => Bool.false_ne_true h.1⟩
  unfold taken
  split
  · refine isChain_append.mpr ⟨hpre, ?_, fun w _ y hy => ?_⟩
    · refine isChain_cons_cons.mpr ⟨(hused _ _).2, isChain_cons.mpr ⟨fun y hy hboth => ?_, htail⟩⟩
      exact hpost y hy ⟨hx, hboth.2⟩
    · cases hy
      exact (hused _ _).1
  · refine isChain_append.mpr ⟨hpre, ?_, fun w _ y hy => ?_⟩
    · exact isChain_cons.mpr ⟨fun y _ => (hused _ _).2, htail⟩
    · cases hy
      exact (hused _ _).1

theorem malloc_fit (ok : Bool) (hb : 0 < b₀) (hh : HeapIs b₀ h (pre ++ x :: post)) (hn : 0 < n) (hn' : n + 32 ≤ 2 ^ 63)
    (hpre : ∀ y ∈ pre, ¬ Fits (roundUp16 n) y) (hx : Fits (roundUp16 n) x) :
    (malloc h n ok).1 = b₀ + total pre + metaSize ∧
      HeapIs b₀ (malloc h n ok).2 (pre ++ (taken x (roundUp16 n) ++ post)) := by
  have hsize : roundUp16 n < 2 ^ 63 := by
    have hbounds := roundUp16_bounds hn'
    omega
  have hlen := hh.length_lt
  have hbase : h.base = b₀ := hh.base.trans (if_neg (by simp))
  have hbrk := hh.brk
  have hbound := hh.bound
  generalize hp : b₀ + total pre = p
  have hfind : (findFreeBlk h.mem (roundUp16 n) walkFuel b₀ b₀).2 = p := by
    rw [length_append] at hlen
    rw [findFreeBlk_found hb hh.chain hpre hx (by omega), hp]
  have hmalloc : malloc h n ok =
      (p + metaSize, { h with mem := setMagic (setFree (splitBlk h.mem p (roundUp16 n)) p false) p heapMagic }) := by
    rw [malloc, if_neg (by omega)]
    simp only [hbase, hfind, if_neg (show b₀ ≠ 0 by omega), if_neg (show p ≠ 0 by omega)]
  have htotal : total (pre ++ x :: post) = total pre + (metaSize + x.size + total post) := total_append
  have hptr : ptrTo (p + (metaSize + x.size)) post 0 ≤ _ := ptrTo_le (Nat.zero_le _)
  have hchain : Chain h.mem p [x] (ptrTo (p + (metaSize + x.size)) post 0) := ⟨hp ▸ hh.chain.header, trivial⟩
  obtain ⟨htaken, hout⟩ := chain_taken hchain (by omega) (by omega) hsize
  subst hp
  rw [hmalloc]
  exact ⟨rfl, HeapIs.replace [x] (taken x (roundUp16 n)) hh (cons_ne_nil _ _) taken_ne_nil total_taken hout htaken
    (spaced_taken hh.spaced hx.1)⟩

theorem malloc_spec (ok : Bool) (hb : 0 < b₀) (hh : HeapIs b₀ h l) (hn : 0 < n) (hn' : n + 32 ≤ 2 ^ 63) :
    malloc h n ok = (0, h) ∨ ∃ l' p x, HeapIs b₀ (malloc h n ok).2 l' ∧ (malloc h n ok).1 = p + metaSize ∧
      (p, x) ∈ placed b₀ l' ∧ x.free = false ∧ n ≤ x.size ∧ Keeps b₀ l l' p := by
  obtain ⟨hle, -⟩ := roundUp16_bounds hn'
  rcases exists_first_fit (roundUp16 n) l with hnone | ⟨pre, x, post, rfl, hpre, hx⟩
  · rcases malloc_grow hb hh hn hn' hnone with hfail | ⟨hptr, hgrow⟩
    · exact .inl hfail
    · exact .inr ⟨_, _, _, hgrow, hptr, mem_placed_append l [], rfl, hle, keeps_append _⟩
  obtain ⟨hptr, htook⟩ := malloc_fit ok hb hh hn hn' hpre hx
  obtain ⟨y, rest, hy, hused, hroom⟩ : ∃ y rest, taken x (roundUp16 n) = y :: rest ∧ y.free = false ∧
      roundUp16 n ≤ y.size := by
    unfold taken
    split
    · exact ⟨_, _, rfl, rfl, le_refl _⟩
    · exact ⟨_, _, rfl, rfl, hx.2⟩
  refine .inr ⟨_, _, y, htook, hptr, ?_, hused, hle.trans hroom, fun q hq hqused => ?_⟩
  · rw [hy]
    exact mem_placed_append pre (rest ++ post)
  · rcases placed_replace [x] (taken x (roundUp16 n)) total_taken hq with hold | ⟨hkept, hne⟩
    · obtain rfl := mem_singleton.mp hold
      exact absurd (hqused.symm.trans hx.1) Bool.false_ne_true
    refine ⟨hkept, ?_⟩
    rw [total_cons] at hne
    unfold metaSize at hne
    omega

/-! `free` -/

theorem HeapIs.joined (hb : 0 < b₀) (hh : HeapIs b₀ h l)
    (hc : Chain b' b₀ (w :: rest) 0) (hl : l ≠ []) (htotal : total (w :: rest) = total l) (hlen : rest.length < l.length) :
    HeapIs b₀ { h with mem := coalesce walkFuel h.base b' } (joined w rest) := by
  have hbase : h.base = b₀ := hh.base.trans (if_neg hl)
  have hbound := hh.bound
  rw [hh.brk, ← htotal] at hbound
  obtain ⟨hchain, -⟩ := coalesce_eq hb hc hbound (hlen.trans hh.length_lt)
  rw [hbase]
  refine ⟨hchain, ?_, ?_, hh.bound, spaced_joined⟩
  · rw [ptrTo, if_neg joined_ne_nil]
  · rw [hh.brk, total_joined, htotal]

theorem free_spec (hb : 0 < b₀) (hh : HeapIs b₀ h l) (hx : (p, x) ∈ placed b₀ l) :
    ∃ l', HeapIs b₀ (free h (p + metaSize)) l' ∧
      ∀ q ∈ placed b₀ l, q.2.free = false → q.1 ≠ p → q ∈ placed b₀ l' := by
  obtain ⟨pre, post, rfl, rfl⟩ := placed_split hx
  have hhead := hh.chain.header
  have hfree : free h (b₀ + total pre + metaSize) =
      { h with mem := coalesce walkFuel h.base (setFree h.mem (b₀ + total pre) true) } := by
    rw [free, if_neg (by unfold metaSize; omega), Nat.add_sub_cancel]
    exact if_neg fun hne => hne (congrArg BlockMeta.magic hhead)
  have hout : Outside (b₀ + total pre) (b₀ + total pre + total [x]) h.mem (setFree h.mem (b₀ + total pre) true) :=
    Outside.free (le_refl _) (by rw [total_cons]; omega)
  have hnew : Chain (setFree h.mem (b₀ + total pre) true) (b₀ + total pre) [⟨x.size, true⟩]
      (ptrTo (b₀ + total pre + total [x]) post 0) := by
    refine ⟨?_, trivial⟩
    rw [blockAt_setFree, hhead]
    rfl
  have hchain : Chain _ b₀ (pre ++ ([⟨x.size, true⟩] ++ post)) 0 :=
    Chain.replace hh.chain hout (cons_ne_nil _ _) (cons_ne_nil _ _) rfl hnew
  have hkeep : ∀ q ∈ placed b₀ (pre ++ x :: post), q.1 ≠ b₀ + total pre →
      q ∈ placed b₀ (pre ++ ([⟨x.size, true⟩] ++ post)) := by
    intro q hq hne
    rcases placed_replace [x] [⟨x.size, true⟩] rfl hq with hold | ⟨hkept, -⟩
    · obtain rfl := mem_singleton.mp hold
      exact absurd rfl hne
    · exact hkept
  have htotal : total (pre ++ ([⟨x.size, true⟩] ++ post)) = total (pre ++ x :: post) := by
    simp only [total_append, total_cons, cons_append, nil_append]
  have hlen : (pre ++ ([(⟨x.size, true⟩ : Block)] ++ post)).length = (pre ++ x :: post).length := by
    simp only [length_append, length_cons, cons_append, nil_append]
  generalize pre ++ ([⟨x.size, true⟩] ++ post) = m at hchain hkeep htotal hlen
  rw [hfree]
  cases m with
  | nil =>
    rw [length_append, length_cons, length_nil] at hlen
    omega
  | cons w rest =>
    refine ⟨_, hh.joined hb hchain (by simp) htotal (by rw [← hlen]; exact Nat.lt_succ_self _), ?_⟩
    exact fun q hq hused hne => mem_placed_joined (hkeep q hq hne) hused

/-! Runs -/

/-- The heap of a program and the pointers it holds, each with the size it asked for last. -/
structure Session where
  heap : Heap
  live : List (Nat × Nat)

inductive Call where
  | malloc (n : Nat) (ok : Bool)
  | free (ptr : Nat)
  | realloc (ptr n : Nat) (ok : Bool)
  /-- The program stores a byte at an offset into memory that it holds. -/
  | store (ptr off : Nat) (v : Byte)

def Session.sizeOf (s : Session) (ptr : Nat) : Option Nat := (s.live.find? (·.1 == ptr)).map (·.2)

def Session.drop (s : Session) (ptr : Nat) : List (Nat × Nat) := s.live.filter (·.1 != ptr)

/-- A program frees, reallocates and writes only what it holds. -/
def callTo (s : Session) : Call → Option Session
  | .malloc n ok =>
    let (ptr, h) := malloc s.heap n ok
    some ⟨h, if ptr = 0 then s.live else (ptr, n) :: s.live⟩
  | .free ptr => (s.sizeOf ptr).map fun _ => ⟨free s.heap ptr, s.drop ptr⟩
  | .realloc ptr n ok => (s.sizeOf ptr).map fun _ =>
    let (new, h) := realloc s.heap ptr n ok
    ⟨h, if n = 0 then s.drop ptr else if new = 0 then s.live else (new, n) :: s.drop ptr⟩
  | .store ptr off v => (s.sizeOf ptr).bind fun n =>
    if off < n then some { s with heap := { s.heap with mem := splice s.heap.mem (ptr + off) 1 fun _ => v } } else none

/-- The sizes that `malloc` is called with, by the program or by `realloc`. -/
def SizesOk (s : Session) : Call → Prop
  | .malloc n _ => 0 < n ∧ n < 2 ^ 62
  | .realloc ptr n _ => (blockAt s.heap.mem (ptr - metaSize)).size < n → n < 2 ^ 62
  | _ => True

instance : ∀ s c, Decidable (SizesOk s c)
  | _, .malloc n _ => inferInstanceAs (Decidable (0 < n ∧ n < 2 ^ 62))
  | s, .realloc ptr n _ => inferInstanceAs (Decidable ((blockAt s.heap.mem (ptr - metaSize)).size < n → n < 2 ^ 62))
  | _, .free _ => inferInstanceAs (Decidable True)
  | _, .store _ _ _ => inferInstanceAs (Decidable True)

/-- The pointer of `e` belongs to a block in use that has the bytes asked for. -/
def Owns (b₀ : Nat) (l : List Block) (e : Nat × Nat) : Prop :=
  ∃ p x, e.1 = p + metaSize ∧ (p, x) ∈ placed b₀ l ∧ x.free = false ∧ e.2 ≤ x.size

structure SessionIs (b₀ : Nat) (s : Session) (l : List Block) : Prop where
  heap : HeapIs b₀ s.heap l
  owns : ∀ e ∈ s.live, Owns b₀ l e
  nodup : (s.live.map Prod.fst).Nodup

variable {s t : Session} {l' : List Block} {ptr : Nat} {e : Nat × Nat}

theorem mem_of_sizeOf (h : s.sizeOf ptr = some n) : (ptr, n) ∈ s.live := by
  obtain ⟨⟨p, k⟩, hfind, rfl⟩ := map_eq_some_iff.mp h
  obtain rfl : p = ptr := by simpa using find?_some hfind
  exact mem_of_find?_eq_some hfind

theorem mem_drop : e ∈ s.drop ptr ↔ e ∈ s.live ∧ e.1 ≠ ptr := by
  rw [Session.drop, mem_filter, bne_iff_ne]

theorem nodup_drop (h : (s.live.map Prod.fst).Nodup) : ((s.drop ptr).map Prod.fst).Nodup :=
  h.sublist (filter_sublist.map _)

theorem SessionIs.add {h : Heap} {live : List (Nat × Nat)} (hh : HeapIs b₀ h l) (howns : ∀ e ∈ live, Owns b₀ l e)
    (hnodup : (live.map Prod.fst).Nodup) (hnew : Owns b₀ l (ptr, n)) (hne : ∀ e ∈ live, e.1 ≠ ptr) :
    SessionIs b₀ ⟨h, (ptr, n) :: live⟩ l := by
  refine ⟨hh, forall_mem_cons.mpr ⟨hnew, howns⟩, nodup_cons.mpr ⟨fun hmem => ?_, hnodup⟩⟩
  obtain ⟨e, he, heq⟩ := mem_map.mp hmem
  exact hne e he heq

theorem SessionIs.malloc (ok : Bool) (hb : 0 < b₀) (hs : SessionIs b₀ s l) (hn : 0 < n) (hn' : n + 32 ≤ 2 ^ 63) :
    Libc.malloc s.heap n ok = (0, s.heap) ∨ (Libc.malloc s.heap n ok).1 ≠ 0 ∧
      ∃ l', SessionIs b₀ ⟨(Libc.malloc s.heap n ok).2, ((Libc.malloc s.heap n ok).1, n) :: s.live⟩ l' ∧
        ∀ q ∈ placed b₀ l, q.2.free = false → q ∈ placed b₀ l' := by
  rcases malloc_spec ok hb hs.heap hn hn' with hfail | ⟨l', p, x, hheap, hptr, hx, hused, hsize, hkeeps⟩
  · exact .inl hfail
  refine .inr ⟨by rw [hptr]; unfold metaSize; omega, l', ?_, fun q hq hqused => (hkeeps q hq hqused).1⟩
  refine SessionIs.add hheap (fun e he => ?_) hs.nodup ⟨p, x, hptr, hx, hused, hsize⟩ fun e he => ?_
  · obtain ⟨q, y, heq, hy, hyused, hysize⟩ := hs.owns e he
    exact ⟨q, y, heq, (hkeeps _ hy hyused).1, hyused, hysize⟩
  · obtain ⟨q, y, heq, hy, hyused, -⟩ := hs.owns e he
    have hne := (hkeeps _ hy hyused).2
    omega

theorem SessionIs.free (hb : 0 < b₀) (hs : SessionIs b₀ s l) (hlive : (ptr, n) ∈ s.live) :
    ∃ l', SessionIs b₀ ⟨Libc.free s.heap ptr, s.drop ptr⟩ l' := by
  obtain ⟨p, x, rfl, hx, -, -⟩ := hs.owns _ hlive
  obtain ⟨l', hheap, hkeeps⟩ := free_spec hb hs.heap hx
  refine ⟨l', hheap, fun e he => ?_, nodup_drop hs.nodup⟩
  obtain ⟨hmem, hne⟩ := mem_drop.mp he
  obtain ⟨q, y, heq, hy, hyused, hysize⟩ := hs.owns e hmem
  exact ⟨q, y, heq, hkeeps _ hy hyused (by omega), hyused, hysize⟩

theorem SessionIs.write (hs : SessionIs b₀ s l) (hx : (p, x) ∈ placed b₀ l)
    (hout : Outside (p + metaSize) (p + metaSize + x.size) s.heap.mem b') :
    SessionIs b₀ { s with heap := { s.heap with mem := b' } } l :=
  ⟨⟨chain_payload hs.heap.chain hx hout, hs.heap.base, hs.heap.brk, hs.heap.bound, hs.heap.spaced⟩, hs.owns, hs.nodup⟩

theorem Chain.size_of_mem (hc : Chain b a l 0) (hx : (p, x) ∈ placed a l) : (blockAt b p).size = x.size := by
  obtain ⟨pre, post, rfl, rfl⟩ := placed_split hx
  exact congrArg BlockMeta.size hc.header

theorem SessionIs.realloc (ok : Bool) (hb : 0 < b₀) (hs : SessionIs b₀ s l) (hlive : (ptr, k) ∈ s.live)
    (hn : (blockAt s.heap.mem (ptr - metaSize)).size < n → n + 32 ≤ 2 ^ 63) :
    ∃ l', SessionIs b₀ ⟨(Libc.realloc s.heap ptr n ok).2,
      if n = 0 then s.drop ptr else if (Libc.realloc s.heap ptr n ok).1 = 0 then s.live
      else ((Libc.realloc s.heap ptr n ok).1, n) :: s.drop ptr⟩ l' := by
  obtain ⟨p, x, heq, hx, hused, -⟩ := hs.owns _ hlive
  obtain rfl : ptr = p + metaSize := heq
  have hsize : (blockAt s.heap.mem p).size = x.size := hs.heap.chain.size_of_mem hx
  have hptr : p + metaSize ≠ 0 := by unfold metaSize; omega
  rw [Nat.add_sub_cancel, hsize] at hn
  rw [Libc.realloc, if_neg hptr, Nat.add_sub_cancel]
  by_cases hzero : n = 0
  · rw [if_pos hzero, if_pos hzero]
    exact hs.free hb hlive
  rw [if_neg hzero, if_neg hzero]
  simp only [hsize]
  by_cases hfits : n ≤ x.size
  · rw [if_pos hfits, if_neg hptr]
    refine ⟨l, SessionIs.add hs.heap (fun e he => ?_) (nodup_drop hs.nodup) ⟨p, x, rfl, hx, hused, hfits⟩ fun e he => ?_⟩
    · exact hs.owns e (mem_drop.mp he).1
    · exact (mem_drop.mp he).2
  rw [if_neg hfits]
  rcases hs.malloc ok hb (pos_of_ne_zero hzero) (hn (by omega)) with hfail | ⟨hne, l', hnew, hkeeps⟩
  · -- the old block stays as it is
    rw [hfail]
    exact ⟨l, hs⟩
  -- the contents are copied into the new block, then the old one is freed
  generalize Libc.malloc s.heap n ok = r at hne hnew
  obtain ⟨new, h'⟩ := r
  have hold : (blockAt h'.mem p).size = x.size := hnew.heap.chain.size_of_mem (hkeeps _ hx hused)
  have hdiff : new ≠ p + metaSize := by
    rintro rfl
    exact (nodup_cons.mp hnew.nodup).1 (mem_map.mpr ⟨_, hlive, rfl⟩)
  have hdrop : Session.drop ⟨h', (new, n) :: s.live⟩ (p + metaSize) = (new, n) :: s.drop (p + metaSize) :=
    filter_cons_of_pos (bne_iff_ne.mpr hdiff)
  obtain ⟨p', x', heq, hx', -, hroom⟩ := hnew.owns _ mem_cons_self
  have hcopy : SessionIs b₀ ⟨{ h' with mem := memcpy h'.mem new (p + metaSize) x.size }, (new, n) :: s.live⟩ l' :=
    hnew.write hx' fun i hi => splice_out (by omega)
  obtain ⟨l'', hfreed⟩ := hcopy.free hb (mem_cons_of_mem _ hlive)
  simp only [if_neg hne, hold]
  rw [← hdrop]
  exact ⟨l'', hfreed⟩

theorem SessionIs.step {c : Call} (hb : 0 < b₀) (hstep : guarded (ofNext callTo) SizesOk s c t)
    (hs : ∃ l, SessionIs b₀ s l) : ∃ l, SessionIs b₀ t l := by
  obtain ⟨hok, hnext⟩ := hstep
  obtain ⟨l, hs⟩ := hs
  cases c with
  | malloc n ok =>
    have ht : t = ⟨(Libc.malloc s.heap n ok).2, if (Libc.malloc s.heap n ok).1 = 0 then s.live
      else ((Libc.malloc s.heap n ok).1, n) :: s.live⟩ := (some.inj hnext).symm
    subst ht
    rcases hs.malloc ok hb hok.1 (by have := hok.2; omega) with hfail | ⟨hne, l', hnew, -⟩
    · rw [hfail]
      exact ⟨l, hs⟩
    · rw [if_neg hne]
      exact ⟨l', hnew⟩
  | free ptr =>
    obtain ⟨n, hn, rfl⟩ := map_eq_some_iff.mp hnext
    exact hs.free hb (mem_of_sizeOf hn)
  | realloc ptr n ok =>
    obtain ⟨k, hk, rfl⟩ := map_eq_some_iff.mp hnext
    exact hs.realloc ok hb (mem_of_sizeOf hk) fun hgrow => by have := hok hgrow; omega
  | store ptr off v =>
    obtain ⟨n, hn, hstore⟩ := bind_eq_some_iff.mp hnext
    obtain ⟨hoff, heq⟩ := ite_none_right_eq_some.mp hstore
    cases heq
    obtain ⟨p, x, rfl, hx, -, hroom⟩ := hs.owns _ (mem_of_sizeOf hn)
    exact ⟨l, hs.write hx fun i hi => splice_out (by omega)⟩

/-- The bytes of the block that a pointer points into. -/
def payload (h : Heap) (ptr : Nat) : Set Nat := Extent.bytes ⟨ptr, (blockAt h.mem (ptr - metaSize)).size⟩

theorem SessionIs.disjoint (hs : SessionIs b₀ s l) :
    s.live.Pairwise fun e e' => Disjoint (payload s.heap e.1) (payload s.heap e'.1) := by
  have hne : s.live.Pairwise fun e e' => e.1 ≠ e'.1 := pairwise_map.mp hs.nodup
  refine hne.imp_of_mem fun he he' hdiff => ?_
  obtain ⟨p, x, hp, hx, -, -⟩ := hs.owns _ he
  obtain ⟨p', x', hp', hx', -, -⟩ := hs.owns _ he'
  rw [payload, payload, hp, hp', Nat.add_sub_cancel, Nat.add_sub_cancel, hs.heap.chain.size_of_mem hx,
    hs.heap.chain.size_of_mem hx', Set.disjoint_left]
  intro i hi hi'
  rw [Extent.mem_bytes] at hi hi'
  rcases placed_eq_or_apart hx hx' with heq | hapart | hapart
  · exact hdiff (by rw [hp, hp', (Prod.mk.inj heq).1])
  · simp only at hapart hi hi'
    omega
  · simp only at hapart hi hi'
    omega

/-- A program that has not called `malloc` yet. -/
def freshSession (mem : Bytes) (b₀ : Nat) : Session := ⟨⟨mem, 0, b₀⟩, []⟩

theorem SessionIs.of_run {calls : List Call} (hb : 0 < b₀) (hb' : b₀ < 2 ^ 64)
    (hrun : Run (guarded (ofNext callTo) SizesOk) (freshSession mem b₀) calls s) : ∃ l, SessionIs b₀ s l := by
  have hstart : SessionIs b₀ (freshSession mem b₀) [] :=
    ⟨⟨trivial, rfl, rfl, hb', List.IsChain.nil⟩, fun e he => absurd he not_mem_nil, nodup_nil⟩
  exact hrun.invariant (P := fun s => ∃ l, SessionIs b₀ s l) (fun _ _ _ => SessionIs.step hb) ⟨[], hstart⟩

/-- The heap after any calls: the blocks from `g_heap_base` on follow each other and end at the break, no two free
ones are neighbours, each pointer has what was asked for to itself, and a `malloc` that fails changes nothing. -/
theorem heap_blocks_exact {mem : Bytes} {calls : List Call} (hb : 0 < b₀) (hb' : b₀ < 2 ^ 64)
    (hrun : Run (guarded (ofNext callTo) SizesOk) (freshSession mem b₀) calls s) :
    (∃ l, Chain s.heap.mem s.heap.base l 0 ∧ s.heap.base = ptrTo b₀ l 0 ∧ s.heap.brk = b₀ + total l ∧
      l.IsChain Spaced ∧ ∀ e ∈ s.live, Owns b₀ l e) ∧
    s.live.Pairwise (fun e e' => Disjoint (payload s.heap e.1) (payload s.heap e'.1)) ∧
    ∀ n ok, 0 < n → n < 2 ^ 62 → (malloc s.heap n ok).1 = 0 → (malloc s.heap n ok).2 = s.heap := by
  obtain ⟨l, hs⟩ := SessionIs.of_run hb hb' hrun
  refine ⟨⟨l, ?_, hs.heap.base, hs.heap.brk, hs.heap.spaced, hs.owns⟩, hs.disjoint, fun n ok hn hn' hnull => ?_⟩
  · cases l with
    | nil => trivial
    | cons x l =>
      rw [hs.heap.base]
      exact hs.heap.chain
  · rcases hs.malloc ok hb hn (by omega) with hfail | ⟨hne, -⟩
    · rw [hfail]
    · exact absurd hnull hne

/-- A freed block is split for a smaller request, and what is left of it is joined with the block that `realloc`
moves away from. -/
theorem heap_blocks_exact_reuse : ∃ s, Run (guarded (ofNext callTo) SizesOk) (freshSession (fun _ => 0) 0x1000)
      [.malloc 100 true, .malloc 50 true, .store 0x10A0 49 7, .free 0x1018, .malloc 20 true, .realloc 0x10A0 200 true] s ∧
    s.live = [(0x10F8, 200), (0x1018, 20)] ∧
    ∃ l, Chain s.heap.mem s.heap.base l 0 ∧ s.heap.base = ptrTo 0x1000 l 0 ∧ s.heap.brk = 0x1000 + total l ∧
      l.IsChain Spaced ∧ ∀ e ∈ s.live, Owns 0x1000 l e := by
  have hexec : (exec (checked callTo SizesOk) (freshSession (fun _ => 0) 0x1000)
      [.malloc 100 true, .malloc 50 true, .store 0x10A0 49 7, .free 0x1018, .malloc 20 true,
        .realloc 0x10A0 200 true]).map (·.live) = some [(0x10F8, 200), (0x1018, 20)] := by decide +kernel
  obtain ⟨s, hs, hlive⟩ := map_eq_some_iff.mp hexec
  have hrun := exec_checked hs
  exact ⟨s, hrun, hlive, (heap_blocks_exact (by decide) (by decide) hrun).1⟩

/-! Pointers that are freed twice -/

/-- What `free` prints. -/
def freePrints (h : Heap) (ptr : Nat) : Option String :=
  if ptr ≠ 0 ∧ (blockAt h.mem (ptr - metaSize)).magic ≠ heapMagic then some "MALLOC_ERROR: Double free or corruption!\n"
  else none

def Rejects (h : Heap) (ptr : Nat) : Prop := freePrints h ptr ≠ none ∧ free h ptr = h

end NyanOS.Libc
