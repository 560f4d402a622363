import NyanOS.Memory.Bitmap

/-!
# The history of the frames

A ledger books, for each frame, the references added and dropped since it was allocated last. The frame
allocator agrees with its ledger in every state it reaches.
-/
namespace NyanOS.Memory

open Function Option

open Lib (Run ofNext exec exec_run)

structure Ledger where
  taken : Nat → Bool
  incs : Nat → Nat
  frees : Nat → Nat

namespace Ledger

/-- One for the allocation, with the increments and without the frees. -/
def refs (l : Ledger) (f : Nat) : Nat := if l.taken f then 1 + l.incs f - l.frees f else 0

def empty : Ledger := ⟨fun _ => false, fun _ => 0, fun _ => 0⟩

def take (l : Ledger) (f : Nat) : Ledger where
  taken := update l.taken f true
  incs := update l.incs f 0
  frees := update l.frees f 0

def inc (l : Ledger) (f : Nat) : Ledger := { l with incs := update l.incs f (l.incs f + 1) }

def free (l : Ledger) (f : Nat) : Ledger := { l with frees := update l.frees f (l.frees f + 1) }

variable {l : Ledger} {f g : Nat}

theorem taken_of_refs (h : 0 < l.refs f) : l.taken f = true := by
  by_contra hn
  rw [refs, if_neg hn] at h
  omega

theorem taken_take : (l.take f).taken g = if g = f then true else l.taken g := by
  simp [take, update_apply]

theorem refs_take : (l.take f).refs g = if g = f then 1 else l.refs g := by
  by_cases hg : g = f
  · subst hg
    simp [refs, take]
  · simp [refs, take, hg]

theorem refs_inc (h : 0 < l.refs f) : (l.inc f).refs g = if g = f then l.refs f + 1 else l.refs g := by
  by_cases hg : g = f
  · subst hg
    have ht := taken_of_refs h
    simp only [refs, ht, if_true] at h
    simp only [refs, inc, ht, if_true, update_self]
    omega
  · simp [refs, inc, hg]

theorem refs_free : (l.free f).refs g = if g = f then l.refs f - 1 else l.refs g := by
  by_cases hg : g = f
  · subst hg
    simp only [refs, free, if_true, update_self]
    split <;> omega
  · simp [refs, free, hg]

end Ledger

/-! The allocator with its ledger -/

structure Booked where
  pmm : PmmState
  ledger : Ledger

inductive PmmAct where
  | allocFrame
  | incRef (addr : Nat)
  | freeFrame (addr : Nat)
  | decRef (addr : Nat)
  deriving DecidableEq

/-- Only frames that are allocated get or lose references, and none has `2 ^ 32` of them. -/
def pmmTo (x : Booked) : PmmAct → Option Booked
  | .allocFrame =>
    let (addr, s) := x.pmm.pmmAllocFrame
    some ⟨s, if addr = 0 then x.ledger else x.ledger.take (addr / pageSize)⟩
  | .incRef addr =>
    if 0 < x.ledger.refs (addr / pageSize) ∧ x.ledger.refs (addr / pageSize) + 1 < 2 ^ 32 then
      some ⟨x.pmm.pmmIncRef addr, x.ledger.inc (addr / pageSize)⟩
    else none
  | .freeFrame addr =>
    if 0 < x.ledger.refs (addr / pageSize) then
      some ⟨x.pmm.pmmFreeFrame addr, x.ledger.free (addr / pageSize)⟩
    else none
  | .decRef addr =>
    if 0 < x.ledger.refs (addr / pageSize) then
      some ⟨x.pmm.pmmDecRef addr, x.ledger.free (addr / pageSize)⟩
    else none

/-- The books are right: `p₀` is the allocator at the start. -/
structure Balanced (p₀ p : Pmm) (l : Ledger) : Prop where
  ok : p.Ok
  total : p.totalPages = p₀.totalPages
  range : ∀ f, l.taken f = true → 256 ≤ f ∧ f < p.totalPages ∧ p₀.bitmap f = false
  count : ∀ f, l.taken f = true → p.refCounts f = l.refs f
  bit : ∀ f, l.taken f = true → (p.bitmap f = true ↔ 0 < l.refs f)
  other : ∀ f, l.taken f = false → p.bitmap f = p₀.bitmap f

namespace Balanced

variable {p₀ p : Pmm} {l : Ledger} {f : Nat}

theorem start (h : p₀.Ok) : Balanced p₀ p₀ .empty := by
  refine ⟨h, rfl, ?_, ?_, ?_, fun _ _ => rfl⟩ <;>
  · intro f hf
    cases hf

section
variable (h : Balanced p₀ p l)
include h

theorem allocated (hf : 0 < l.refs f) : p.Allocated f := by
  have ht := Ledger.taken_of_refs hf
  obtain ⟨hlow, hhigh, -⟩ := h.range f ht
  exact ⟨hlow, hhigh, (h.bit f ht).mpr hf⟩

theorem of_clear (hf : p.bitmap f = false) : l.refs f = 0 ∧ p₀.bitmap f = false := by
  cases ht : l.taken f with
  | false => exact ⟨by simp [Ledger.refs, ht], by rw [← h.other f ht]; exact hf⟩
  | true =>
    refine ⟨?_, (h.range f ht).2.2⟩
    by_contra hne
    have hset := (h.bit f ht).mpr (pos_of_ne_zero hne)
    rw [hf] at hset
    cases hset

theorem take (hlow : 256 ≤ f) (hhigh : f < p.totalPages) (hclear : p.bitmap f = false) :
    Balanced p₀ (p.take f) (l.take f) := by
  refine ⟨ok_take h.ok hhigh, h.total, fun g hg => ?_, fun g hg => ?_, fun g hg => ?_, fun g hg => ?_⟩
  all_goals
    rw [Ledger.taken_take] at hg
    by_cases hgf : g = f
  · rw [hgf]
    exact ⟨hlow, hhigh, (h.of_clear hclear).2⟩
  · exact h.range g (by simpa [hgf] using hg)
  · rw [refCounts_take, Ledger.refs_take, if_pos hgf, if_pos hgf]
  · rw [refCounts_take, Ledger.refs_take, if_neg hgf, if_neg hgf]
    exact h.count g (by simpa [hgf] using hg)
  · rw [bitmap_take, Ledger.refs_take, if_pos hgf, if_pos hgf]
    simp
  · rw [bitmap_take, Ledger.refs_take, if_neg hgf, if_neg hgf]
    exact h.bit g (by simpa [hgf] using hg)
  · simp [hgf] at hg
  · rw [bitmap_take, if_neg hgf]
    exact h.other g (by simpa [hgf] using hg)

theorem incRef (hf : 0 < l.refs f) (hlt : l.refs f + 1 < 2 ^ 32) : Balanced p₀ (pmmIncRef p f) (l.inc f) := by
  have hcount := h.count f (Ledger.taken_of_refs hf)
  refine ⟨ok_incRef h.ok, h.total, h.range, fun g hg => ?_, fun g hg => ?_, h.other⟩
  · rw [refCounts_incRef, Ledger.refs_inc hf]
    split
    · rw [hcount, Nat.mod_eq_of_lt hlt]
    · exact h.count g hg
  · rw [bitmap_incRef, Ledger.refs_inc hf, h.bit g hg]
    split
    · next hgf =>
      subst hgf
      omega
    · rfl

theorem freeFrame (hf : 0 < l.refs f) : Balanced p₀ (pmmFreeFrame p f) (l.free f) := by
  have hcount := h.count f (Ledger.taken_of_refs hf)
  obtain ⟨href, hbit, htotal⟩ := pmmFreeFrame_spec (h.allocated hf) (by omega)
  refine ⟨ok_freeFrame h.ok, htotal.trans h.total, fun g hg => ?_, fun g hg => ?_, fun g hg => ?_, fun g hg => ?_⟩
  · rw [htotal]
    exact h.range g hg
  · rw [href, Ledger.refs_free, hcount]
    split
    · rfl
    · exact h.count g hg
  · rw [hbit, Ledger.refs_free, hcount]
    by_cases hgf : g = f
    · subst hgf
      rw [if_pos rfl]
      by_cases hone : l.refs g = 1
      · simp [hone]
      have hset := (h.bit g hg).mpr hf
      have hpos : 0 < l.refs g - 1 := by omega
      simp [hone, hset, hpos]
    · rw [if_neg hgf, if_neg fun hc => hgf hc.1]
      exact h.bit g hg
  · have hgf : g ≠ f := by
      rintro rfl
      have ht : l.taken g = true := Ledger.taken_of_refs hf
      exact Bool.noConfusion (ht.symm.trans hg)
    rw [hbit, if_neg fun hc => hgf hc.1]
    exact h.other g hg

end

end Balanced

/-- The books of the block of memory. -/
structure Sound (s₀ : PmmState) (x : Booked) : Prop where
  whole : x.pmm.Whole
  balanced : Balanced s₀.toPmm x.pmm.toPmm x.ledger

theorem Sound.step {s₀ : PmmState} {x y : Booked} {a : PmmAct} (hstep : ofNext pmmTo x a y) (h : Sound s₀ x) :
    Sound s₀ y := by
  have hhint : x.pmm.lastFreePage ≤ x.pmm.totalPages := h.balanced.ok.hint
  cases a with
  | allocFrame =>
    have hy : y = ⟨x.pmm.pmmAllocFrame.2, if x.pmm.pmmAllocFrame.1 = 0 then x.ledger
        else x.ledger.take (x.pmm.pmmAllocFrame.1 / pageSize)⟩ := (some.inj hstep).symm
    subst hy
    obtain ⟨haddr, hpmm⟩ := PmmState.pmmAllocFrame_toPmm h.whole hhint
    obtain ⟨htotal, hsize⟩ := PmmState.alloc_sizes x.pmm
    refine ⟨?_, ?_⟩
    · rw [PmmState.Whole, htotal, hsize]
      exact h.whole
    · dsimp only
      rw [hpmm, haddr]
      rcases pmmAllocFrame_cases h.balanced.ok with ⟨hfull, -⟩ | ⟨f, hf, hlow, hhigh, hclear⟩
      · rw [hfull, zero_mul, if_pos rfl]
        exact h.balanced
      have hne : f * pageSize ≠ 0 := Nat.mul_ne_zero (by omega) (by decide)
      rw [hf, if_neg hne, Nat.mul_div_cancel f (by decide)]
      exact h.balanced.take hlow hhigh hclear
  | incRef addr =>
    obtain ⟨⟨hpos, hlt⟩, hy⟩ := ite_none_right_eq_some.mp hstep
    cases hy
    have hhigh : addr / pageSize < x.pmm.totalPages := (h.balanced.allocated hpos).high
    have hcount := h.balanced.count _ (Ledger.taken_of_refs hpos)
    rw [PmmState.toPmm_refCounts hhigh] at hcount
    refine ⟨h.whole, ?_⟩
    dsimp only
    rw [PmmState.pmmIncRef_toPmm h.whole hhigh (by omega)]
    exact h.balanced.incRef hpos hlt
  | freeFrame addr | decRef addr =>
    obtain ⟨hpos, hy⟩ := ite_none_right_eq_some.mp hstep
    cases hy
    obtain ⟨htotal, hsize⟩ := PmmState.whole_of_step x.pmm addr
    have hwhole : (x.pmm.pmmFreeFrame addr).Whole := by
      rw [PmmState.Whole, htotal, hsize]
      exact h.whole
    have hbal : Balanced s₀.toPmm (x.pmm.pmmFreeFrame addr).toPmm (x.ledger.free (addr / pageSize)) := by
      rw [PmmState.pmmFreeFrame_toPmm h.whole]
      exact h.balanced.freeFrame hpos
    exact ⟨hwhole, hbal⟩

theorem full_of_pmmAllocFrame {s₀ : PmmState} {x : Booked} (h : Sound s₀ x) (hint : Nat)
    (hz : ({ x.pmm with lastFreePage := hint } : PmmState).pmmAllocFrame.1 = 0) {i : Nat}
    (hi : i < x.pmm.totalPages) : bitmapTest x.pmm.block i = true := by
  have hlow : ∀ i < x.pmm.totalPages, i < 256 → bitmapTest x.pmm.block i = true := by
    intro i hi hlt
    rw [← PmmState.toPmm_bitmap hi]
    exact h.balanced.ok.low i hlt
  -- the address 0 is the one of the first frame, which is reserved
  have hfirst : ∀ f, bitmapTest x.pmm.block f = false → f * pageSize = 0 → bitmapTest x.pmm.block i = true := by
    intro f hclear hzero
    have hf : f = 0 := (Nat.mul_eq_zero.mp hzero).resolve_right (by decide)
    rw [hf, hlow 0 (by omega) (by decide)] at hclear
    cases hclear
  unfold PmmState.pmmAllocFrame at hz
  dsimp only at hz
  split at hz
  · next f hf => exact hfirst f (scan_some hf).2.2 hz
  next hup =>
  split at hz
  · next f hf => exact hfirst f (scan_some hf).2.2 hz
  next hdown =>
  by_cases hside : i < hint
  · exact scan_none hdown i (Nat.zero_le i) (by omega)
  · exact scan_none hup i (by omega) (by omega)

/-- After every sequence of operations from `pmm_init` on: the count of a frame in use is the number of its
references, its bit says whether there is one, an allocation takes a frame that is neither in use nor
reserved and fails only if there is none, and the hint is in range. -/
theorem frames_accounted {content : Lib.Bytes} {memmap : List MemmapEntry} {s₀ : PmmState} {x : Booked}
    {acts : List PmmAct} (hinit : pmmInit content memmap = some s₀) (h8 : 8 ∣ s₀.totalPages)
    (hrun : Run (ofNext pmmTo) ⟨s₀, .empty⟩ acts x) : (∀ f, 0 < x.ledger.refs f → x.pmm.refCount f = x.ledger.refs f) ∧
    (∀ f, x.ledger.taken f = true → (bitmapTest x.pmm.block f = true ↔ 0 < x.ledger.refs f)) ∧
    (∀ addr s, x.pmm.pmmAllocFrame = (addr, s) → addr ≠ 0 → ∃ f < x.pmm.totalPages, addr = f * pageSize ∧
      x.ledger.refs f = 0 ∧ bitmapTest s₀.block f = false) ∧
    (∀ hint, ({ x.pmm with lastFreePage := hint } : PmmState).pmmAllocFrame.1 = 0 →
      ∀ i < x.pmm.totalPages, bitmapTest x.pmm.block i = true) ∧
    x.pmm.lastFreePage ≤ x.pmm.totalPages := by
  obtain ⟨hwhole, hok⟩ := pmmInit_ok hinit h8
  have h : Sound s₀ x := hrun.invariant (fun _ _ _ => Sound.step) ⟨hwhole, Balanced.start hok⟩
  have hhint : x.pmm.lastFreePage ≤ x.pmm.totalPages := h.balanced.ok.hint
  refine ⟨fun f hf => ?_, fun f hf => ?_, fun addr s hs hne => ?_, fun hint hz i hi => ?_, hhint⟩
  · rw [← PmmState.toPmm_refCounts (h.balanced.allocated hf).high]
    exact h.balanced.count f (Ledger.taken_of_refs hf)
  · rw [← PmmState.toPmm_bitmap (h.balanced.range f hf).2.1]
    exact h.balanced.bit f hf
  · obtain ⟨haddr, -⟩ := PmmState.pmmAllocFrame_toPmm h.whole hhint
    rw [hs] at haddr
    rcases pmmAllocFrame_cases h.balanced.ok with ⟨hfull, -⟩ | ⟨f, hf, -, hhigh, hclear⟩
    · rw [hfull, zero_mul] at haddr
      exact absurd haddr hne
    rw [hf] at haddr
    obtain ⟨hrefs, hstart⟩ := h.balanced.of_clear hclear
    have hlt : f < s₀.totalPages := by
      have htotal : x.pmm.totalPages = s₀.totalPages := h.balanced.total
      rw [← htotal]
      exact hhigh
    rw [PmmState.toPmm_bitmap hlt] at hstart
    exact ⟨f, hhigh, haddr, hrefs, hstart⟩
  · exact full_of_pmmAllocFrame h hint hz hi

/-- A machine with eight pages above the first megabyte, two of which hold the block: a frame is taken,
shared and dropped twice. -/
theorem frames_accounted_small : ∃ s₀ x, pmmInit (fun _ => 0) [⟨true, 0x100000, 0x8000⟩] = some s₀ ∧ 8 ∣ s₀.totalPages ∧
    Run (ofNext pmmTo) ⟨s₀, .empty⟩
      [.allocFrame, .incRef 0x102000, .freeFrame 0x102000, .decRef 0x102000, .allocFrame] x ∧
    x.ledger.refs 0x102 = 1 ∧ x.pmm.refCount 0x102 = 1 ∧ x.pmm.lastFreePage ≤ x.pmm.totalPages := by
  have hsome : ((pmmInit (fun _ => 0) [⟨true, 0x100000, 0x8000⟩]).bind fun s₀ =>
      (exec pmmTo ⟨s₀, .empty⟩
        [.allocFrame, .incRef 0x102000, .freeFrame 0x102000, .decRef 0x102000, .allocFrame]).map
        fun x => (s₀.totalPages, x.ledger.refs 0x102)) = some (264, 1) := by decide +kernel
  obtain ⟨s₀, hinit, hrest⟩ := bind_eq_some_iff.mp hsome
  obtain ⟨x, hx, hval⟩ := map_eq_some_iff.mp hrest
  obtain ⟨htotal, hrefs⟩ := Prod.mk.inj hval
  have h8 : 8 ∣ s₀.totalPages := by
    rw [htotal]
    decide
  obtain ⟨hcount, -, -, -, hhint⟩ := frames_accounted hinit h8 (exec_run hx)
  exact ⟨s₀, x, hinit, h8, exec_run hx, hrefs, (hcount 0x102 (by omega)).trans hrefs, hhint⟩

end NyanOS.Memory
