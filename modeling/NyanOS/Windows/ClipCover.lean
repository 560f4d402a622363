import NyanOS.Windows.Clip

/-!
# Clip lists are the visible regions

Each step of `clip_rect` moves a part of what is left of a rectangle to the fragments; the numbers stay small enough for
64 bits.
-/
namespace NyanOS.Screen

open Lib Set Int

variable {r c piece : Rect} {b : Building} {s : Rest × Building} {p : Pool} {v : Video} {win : Window} {above : List Window}
  {n px rx rw py ry rh lo x y : Int} {rest : Rest} {l : List Rect}

theorem s64_eq (hlo : -2 ^ 63 ≤ n) (hhi : n < 2 ^ 63) : s64 n = n := bmod_eq_of_le (by omega) (by omega)

theorem u64_eq (hlo : 0 ≤ n) (hhi : n < 2 ^ 64) : (u64 n : Int) = n := by
  rw [u64, emod_eq_of_lt hlo hhi, toNat_of_nonneg hlo]

theorem s64_u64 : s64 (u64 n) = s64 n := by
  rw [s64, u64, toNat_of_nonneg (emod_nonneg n (by decide)), s64]
  exact emod_bmod n (2 ^ 64)

/-- A side whose ends are numbers of 64 bits. -/
structure Side (lo len : Int) : Prop where
  begins : -2 ^ 62 < lo
  pos : 0 < len
  short : len < 2 ^ 62
  ends : lo + len < 2 ^ 63

/-- A rectangle whose corners are. -/
structure Fits (r : Rect) : Prop where
  horizontal : Side r.x r.w
  vertical : Side r.y r.h

theorem Fits.pos (h : Fits r) : 0 < r.w ∧ 0 < r.h := by
  have hw := h.horizontal.pos
  have hh := h.vertical.pos
  omega

/-! ### The pool -/

theorem appendRect_ok (h : (appendRect b r).2.failed = false) :
    b.2.failed = false ∧ (appendRect b r).1 = b.1 ++ [r] := by
  unfold appendRect rectAlloc at h ⊢
  dsimp only at h ⊢
  split at h
  · exact absurd h.symm Bool.false_ne_true
  · next hfree => exact ⟨h, by rw [if_neg hfree, if_pos rfl]⟩

/-! ### Cutting -/

namespace Rest

def pixels (r : Rest) : Set (Int × Int) := {p | r.rx ≤ p.1 ∧ p.1 < r.rx + r.rw ∧ r.ry ≤ p.2 ∧ p.2 < r.ry + r.rh}

structure Fits (r : Rest) : Prop where
  horizontal : Side r.rx r.rw
  vertical : Side r.ry r.rh

end Rest

/-- The fragments are what was taken from `r`, and nothing of it lies in `c`. -/
structure Cutting (r c : Rect) (rest : Rest) (fragments : List Rect) : Prop where
  fits : rest.Fits
  tiles : Tiles fragments (r.pixels \ rest.pixels)
  inside : rest.pixels ⊆ r.pixels
  outside : ∀ q ∈ r.pixels, q ∈ c.pixels → q ∈ rest.pixels
  fragments : ∀ f ∈ fragments, Fits f

theorem Cutting.cut {rest rest' : Rest} (h : Cutting r c rest l)
    (hsplit : ∀ q, q ∈ rest.pixels ↔ q ∈ piece.pixels ∨ q ∈ rest'.pixels)
    (hdisjoint : ∀ q ∈ piece.pixels, q ∉ rest'.pixels) (hclip : ∀ q ∈ piece.pixels, q ∉ c.pixels)
    (hpiece : Screen.Fits piece) (hfits : rest'.Fits) : Cutting r c rest' (l ++ [piece]) := by
  refine ⟨hfits, ?_, fun q hq => h.inside ((hsplit q).mpr (.inr hq)), fun q hq hc => ?_, fun f hf => ?_⟩
  · have hpieces : Disjoint (r.pixels \ rest.pixels) piece.pixels := by
      rw [disjoint_left]
      exact fun q hq hp => hq.2 ((hsplit q).mpr (.inl hp))
    refine (h.tiles.append (tiles_singleton hpiece.pos.1 hpiece.pos.2) hpieces).congr fun q => ?_
    rw [mem_union, mem_sdiff, mem_sdiff, hsplit q]
    constructor
    · rintro ⟨hr, hrest⟩
      by_cases hp : q ∈ piece.pixels
      · exact .inr hp
      · exact .inl ⟨hr, not_or.mpr ⟨hp, hrest⟩⟩
    · rintro (⟨hr, hnot⟩ | hp)
      · exact ⟨hr, fun hrest => hnot (.inr hrest)⟩
      · exact ⟨h.inside ((hsplit q).mpr (.inl hp)), hdisjoint q hp⟩
  · exact ((hsplit q).mp (h.outside q hq hc)).resolve_left fun hp => hclip q hp hc
  · rcases List.mem_append.mp hf with hf | hf
    · exact h.fragments f hf
    · exact List.mem_singleton.mp hf ▸ hpiece

/-! ### One axis -/

section
variable {lo len c' : Int} {w : Nat}

/-- Two sides overlap. -/
def Meets (lo len c w : Int) : Prop := lo < c + w ∧ c < lo + len

theorem cutLow_spec (hs : Side lo len) (hmeets : c' < lo + len) : (cutLow lo len c' = none ∧ c' ≤ lo) ∨
      ∃ new rest, cutLow lo len c' = some (new, c', rest) ∧ lo + new = c' ∧ new + rest = len ∧
        Side lo new ∧ Side c' rest := by
  obtain ⟨hbegins, hpos, hshort, hends⟩ := hs
  have hend : s64 (lo + len) = lo + len := s64_eq (by omega) (by omega)
  rw [cutLow, hend]
  by_cases hcut : lo < c' ∧ c' < lo + len
  · have hnew : (u64 (c' - lo) : Int) = c' - lo := u64_eq (by omega) (by omega)
    have hrest : s64 (len - u64 (c' - lo)) = len - (c' - lo) := by
      rw [hnew]
      exact s64_eq (by omega) (by omega)
    rw [if_pos hcut]
    refine .inr ⟨_, _, rfl, ?_, ?_, ⟨?_, ?_, ?_, ?_⟩, ⟨?_, ?_, ?_, ?_⟩⟩
    all_goals omega
  · rw [if_neg hcut]
    exact .inl ⟨rfl, by omega⟩

theorem cutLow_none (hs : Side lo len) (hmeets : c' < lo + len) (h : cutLow lo len c' = none) : c' ≤ lo :=
  (cutLow_spec hs hmeets).elim And.right fun ⟨_, _, hsome, _⟩ => nomatch h.symm.trans hsome

theorem cutHigh_spec (hs : Side lo len) (hc : Side c' w) (hmeets : lo < c' + w) :
    (cutHigh lo len c' w = none ∧ lo + len ≤ c' + w) ∨
      ∃ new rest, cutHigh lo len c' w = some (new, c' + w, rest) ∧ lo + rest = c' + w ∧ rest + new = len ∧
        Side (c' + w) new ∧ Side lo rest := by
  obtain ⟨hbegins, hpos, hshort, hends⟩ := hs
  have hend : s64 (lo + len) = lo + len := s64_eq (by omega) (by omega)
  have hend' : s64 (c' + w) = c' + w := s64_eq (by have := hc.begins; omega) hc.ends
  simp only [cutHigh, hend, hend']
  by_cases hcut : c' + w < lo + len ∧ lo < c' + w
  · have hnew : (u64 (lo + len - (c' + w)) : Int) = lo + len - (c' + w) := u64_eq (by omega) (by omega)
    have hrest : s64 (len - u64 (lo + len - (c' + w))) = len - (lo + len - (c' + w)) := by
      rw [hnew]
      exact s64_eq (by omega) (by omega)
    rw [if_pos hcut]
    refine .inr ⟨_, _, rfl, ?_, ?_, ⟨?_, ?_, ?_, ?_⟩, ⟨?_, ?_, ?_, ?_⟩⟩
    all_goals omega
  · rw [if_neg hcut]
    exact .inl ⟨rfl, by omega⟩

theorem cutHigh_none (hs : Side lo len) (hc : Side c' w) (hmeets : lo < c' + w) (h : cutHigh lo len c' w = none) :
    lo + len ≤ c' + w :=
  (cutHigh_spec hs hc hmeets).elim And.right fun ⟨_, _, hsome, _⟩ => nomatch h.symm.trans hsome

end

/-! ### The four cuts -/

/-- A stage of `clip_rect` at which the rest still meets `c`. -/
structure Stage (r c : Rect) (rest : Rest) (l : List Rect) : Prop where
  cutting : Cutting r c rest l
  horizontal : Meets rest.rx rest.rw c.x c.w
  vertical : Meets rest.ry rest.rh c.y c.h

structure Shrinks (rest rest' : Rest) : Prop where
  left : rest.rx ≤ rest'.rx
  right : rest'.rx + rest'.rw ≤ rest.rx + rest.rw
  top : rest.ry ≤ rest'.ry
  bottom : rest'.ry + rest'.rh ≤ rest.ry + rest.rh

theorem Shrinks.refl : Shrinks rest rest := ⟨le_rfl, le_rfl, le_rfl, le_rfl⟩

/-- The stage after a cut, if the pool was not empty. -/
def After (r c : Rect) (s s' : Rest × Building) (P : Rest → Prop) : Prop :=
  s'.2.2.failed = false → s.2.2.failed = false ∧
    (Stage r c s.1 s.2.1 → Stage r c s'.1 s'.2.1 ∧ Shrinks s.1 s'.1 ∧ P s'.1)

theorem After.append {P : Rest → Prop}
    (h : Stage r c s.1 s.2.1 → Stage r c rest (s.2.1 ++ [piece]) ∧ Shrinks s.1 rest ∧ P rest) :
    After r c s (rest, appendRect s.2 piece) P := by
  intro hok
  obtain ⟨hfailed, hlist⟩ := appendRect_ok hok
  refine ⟨hfailed, fun hstage => ?_⟩
  rw [hlist]
  exact h hstage

theorem After.keep {P : Rest → Prop} (h : Stage r c s.1 s.2.1 → P s.1) : After r c s s P :=
  fun hok => ⟨hok, fun hstage => ⟨hstage, .refl, h hstage⟩⟩

/-- The pixels of one axis are split between a piece outside of `c` and a rest that meets it. -/
structure Split (lo len px pw lo' len' c w : Int) : Prop where
  piece : Side px pw
  rest : Side lo' len'
  parts : ∀ a, lo ≤ a ∧ a < lo + len ↔ px ≤ a ∧ a < px + pw ∨ lo' ≤ a ∧ a < lo' + len'
  apart : ∀ a, px ≤ a → a < px + pw → ¬ (lo' ≤ a ∧ a < lo' + len') ∧ ¬ (c ≤ a ∧ a < c + w)
  meets : Meets lo' len' c w
  shrinks : lo ≤ lo' ∧ lo' + len' ≤ lo + len

theorem Rest.height_eq (h : rest.Fits) : (u64 rest.rh : Int) = rest.rh :=
  u64_eq h.vertical.pos.le (by have := h.vertical.short; omega)

theorem Rest.width_eq (h : rest.Fits) : (u64 rest.rw : Int) = rest.rw :=
  u64_eq h.horizontal.pos.le (by have := h.horizontal.short; omega)

theorem Stage.splitHorizontal {pw : Nat} (h : Stage r c rest l)
    (hs : Split rest.rx rest.rw px pw rx rw c.x c.w) :
    Stage r c { rest with rx := rx, rw := rw } (l ++ [⟨px, rest.ry, pw, u64 rest.rh⟩]) ∧
      Shrinks rest { rest with rx := rx, rw := rw } := by
  have hfits := h.cutting.fits
  have hh := Rest.height_eq hfits
  refine ⟨⟨h.cutting.cut (fun q => ?_) (fun q hq hrest => ?_) (fun q hq hclip => ?_) ⟨hs.piece, ?_⟩
    ⟨hs.rest, hfits.vertical⟩, hs.meets, h.vertical⟩, ⟨hs.shrinks.1, hs.shrinks.2, le_rfl, le_rfl⟩⟩
  · have hparts := hs.parts q.1
    simp only [Rest.pixels, Rect.pixels, mem_ofPred_eq, hh]
    tauto
  · exact (hs.apart q.1 hq.1 hq.2.1).1 ⟨hrest.1, hrest.2.1⟩
  · exact (hs.apart q.1 hq.1 hq.2.1).2 ⟨hclip.1, hclip.2.1⟩
  · rw [hh]
    exact hfits.vertical

theorem Stage.splitVertical {ph : Nat} (h : Stage r c rest l)
    (hs : Split rest.ry rest.rh py ph ry rh c.y c.h) :
    Stage r c { rest with ry := ry, rh := rh } (l ++ [⟨rest.rx, py, u64 rest.rw, ph⟩]) ∧
      Shrinks rest { rest with ry := ry, rh := rh } := by
  have hfits := h.cutting.fits
  have hw := Rest.width_eq hfits
  refine ⟨⟨h.cutting.cut (fun q => ?_) (fun q hq hrest => ?_) (fun q hq hclip => ?_) ⟨?_, hs.piece⟩
    ⟨hfits.horizontal, hs.rest⟩, h.horizontal, hs.meets⟩, ⟨le_rfl, le_rfl, hs.shrinks.1, hs.shrinks.2⟩⟩
  · have hparts := hs.parts q.2
    simp only [Rest.pixels, Rect.pixels, mem_ofPred_eq, hw]
    tauto
  · exact (hs.apart q.2 hq.2.2.1 hq.2.2.2).1 ⟨hrest.2.2.1, hrest.2.2.2⟩
  · exact (hs.apart q.2 hq.2.2.1 hq.2.2.2).2 ⟨hclip.2.2.1, hclip.2.2.2⟩
  · rw [hw]
    exact hfits.horizontal

theorem cutLow_split {lo len c' rest x : Int} {new w : Nat} (hs : Side lo len) (hc : Side c' w) (hmeets : Meets lo len c' w)
    (hcut : cutLow lo len c' = some (new, x, rest)) : x = c' ∧ Split lo len lo new x rest c' w := by
  have hw := hc.pos
  rcases cutLow_spec hs hmeets.2 with ⟨hnone, -⟩ | ⟨_, _, hsome, hnew, hrest, hpiece, hside⟩
  · cases hnone.symm.trans hcut
  obtain ⟨rfl, hpair⟩ := Prod.mk.inj (Option.some.inj (hcut.symm.trans hsome))
  cases hpair
  have hpos := hside.pos
  exact ⟨rfl, hpiece, hside, fun a => by omega, fun a => by omega, ⟨by omega, by omega⟩, by omega⟩

theorem cutHigh_split {lo len c' rest x : Int} {new w : Nat} (hs : Side lo len) (hc : Side c' w)
    (hmeets : Meets lo len c' w) (hcut : cutHigh lo len c' w = some (new, x, rest)) :
    lo + rest = c' + w ∧ Split lo len x new lo rest c' w := by
  have hw := hc.pos
  rcases cutHigh_spec hs hc hmeets.1 with ⟨hnone, -⟩ | ⟨_, _, hsome, hend, hrest, hpiece, hside⟩
  · cases hnone.symm.trans hcut
  obtain ⟨rfl, hpair⟩ := Prod.mk.inj (Option.some.inj (hcut.symm.trans hsome))
  cases hpair
  have hpos := hside.pos
  exact ⟨hend, hpiece, hside, fun a => by omega, fun a => by omega, ⟨by omega, by omega⟩, by omega⟩

section
variable (hc : Fits c)
include hc

theorem cutLeft_after : After r c s (cutLeft c s) fun rest => c.x ≤ rest.rx := by
  rw [cutLeft]
  cases hcut : cutLow s.1.rx s.1.rw c.x with
  | none => exact .keep fun hstage => cutLow_none hstage.cutting.fits.horizontal hstage.horizontal.2 hcut
  | some cut =>
    refine After.append fun hstage => ?_
    obtain ⟨hx, hsplit⟩ := cutLow_split hstage.cutting.fits.horizontal hc.horizontal hstage.horizontal hcut
    exact ⟨(hstage.splitHorizontal hsplit).1, (hstage.splitHorizontal hsplit).2, hx.ge⟩

theorem cutTop_after : After r c s (cutTop c s) fun rest => c.y ≤ rest.ry := by
  rw [cutTop]
  cases hcut : cutLow s.1.ry s.1.rh c.y with
  | none => exact .keep fun hstage => cutLow_none hstage.cutting.fits.vertical hstage.vertical.2 hcut
  | some cut =>
    refine After.append fun hstage => ?_
    obtain ⟨hy, hsplit⟩ := cutLow_split hstage.cutting.fits.vertical hc.vertical hstage.vertical hcut
    exact ⟨(hstage.splitVertical hsplit).1, (hstage.splitVertical hsplit).2, hy.ge⟩

theorem cutRight_after : After r c s (cutRight c s) fun rest => rest.rx + rest.rw ≤ c.x + c.w := by
  rw [cutRight]
  cases hcut : cutHigh s.1.rx s.1.rw c.x c.w with
  | none => exact .keep fun hstage => cutHigh_none hstage.cutting.fits.horizontal hc.horizontal hstage.horizontal.1 hcut
  | some cut =>
    refine After.append fun hstage => ?_
    obtain ⟨hx, hsplit⟩ := cutHigh_split hstage.cutting.fits.horizontal hc.horizontal hstage.horizontal hcut
    exact ⟨(hstage.splitHorizontal hsplit).1, (hstage.splitHorizontal hsplit).2, hx.le⟩

theorem cutBottom_after : After r c s (cutBottom c s) fun rest => rest.ry + rest.rh ≤ c.y + c.h := by
  rw [cutBottom]
  cases hcut : cutHigh s.1.ry s.1.rh c.y c.h with
  | none => exact .keep fun hstage => cutHigh_none hstage.cutting.fits.vertical hc.vertical hstage.vertical.1 hcut
  | some cut =>
    refine After.append fun hstage => ?_
    obtain ⟨hy, hsplit⟩ := cutHigh_split hstage.cutting.fits.vertical hc.vertical hstage.vertical hcut
    exact ⟨(hstage.splitVertical hsplit).1, (hstage.splitVertical hsplit).2, hy.le⟩

end

theorem rectIntersect_iff (hr : Fits r) (hc : Fits c) :
    rectIntersect r c = true ↔ Meets r.x r.w c.x c.w ∧ Meets r.y r.h c.y c.h := by
  have hside : ∀ {lo : Int} {len : Nat}, Side lo len → s64 (lo + s64 len) = lo + len := by
    intro lo len hs
    have hpos := hs.pos
    have hshort := hs.short
    rw [s64_eq (n := len) (by omega) (by omega)]
    exact s64_eq (by have := hs.begins; omega) hs.ends
  simp only [rectIntersect, hside hr.horizontal, hside hr.vertical, hside hc.horizontal, hside hc.vertical, Meets,
    Bool.not_eq_true', Bool.or_eq_false_iff, decide_eq_false_iff_not]
  omega

theorem clipRect_ok (hc : Fits c) (hok : (clipRect r c p).2.failed = false) : p.failed = false := by
  unfold clipRect at hok
  split at hok
  · exact (appendRect_ok hok).1
  have h₃ := (cutBottom_after (r := r) hc hok).1
  have h₂ := (cutTop_after (r := r) hc h₃).1
  have h₁ := (cutRight_after (r := r) hc h₂).1
  exact (cutLeft_after (r := r) hc h₁).1

theorem clipRect_spec (hr : Fits r) (hc : Fits c) (hok : (clipRect r c p).2.failed = false) :
    Tiles (clipRect r c p).1 (r.pixels \ c.pixels) ∧ ∀ f ∈ (clipRect r c p).1, Fits f := by
  unfold clipRect at hok ⊢
  by_cases hmeets : rectIntersect r c = true
  · rw [if_neg (by simp [hmeets])] at hok ⊢
    obtain ⟨hx, hy⟩ := (rectIntersect_iff hr hc).mp hmeets
    have hw : s64 r.w = r.w := s64_eq (by omega) (by have := hr.horizontal.short; omega)
    have hh : s64 r.h = r.h := s64_eq (by omega) (by have := hr.vertical.short; omega)
    rw [hw, hh] at hok ⊢
    generalize hs₀ : ((⟨r.x, r.y, r.w, r.h⟩ : Rest), (([], p) : Building)) = s₀ at hok ⊢
    obtain ⟨hok₃, h₄⟩ := cutBottom_after (r := r) hc hok
    obtain ⟨hok₂, h₃⟩ := cutTop_after (r := r) hc hok₃
    obtain ⟨hok₁, h₂⟩ := cutRight_after (r := r) hc hok₂
    obtain ⟨-, h₁⟩ := cutLeft_after (r := r) hc hok₁
    have hstart : Stage r c s₀.1 s₀.2.1 := by
      subst hs₀
      refine ⟨⟨⟨hr.horizontal, hr.vertical⟩, ?_, fun q hq => hq, fun q hq _ => hq, fun f hf => absurd hf List.not_mem_nil⟩,
        hx, hy⟩
      refine tiles_nil.congr fun q => ?_
      constructor
      · exact fun hq => hq.2 hq.1
      · exact fun hq => hq.elim
    obtain ⟨hs₁, -, hleft⟩ := h₁ hstart
    obtain ⟨hs₂, hshrinks₂, hright⟩ := h₂ hs₁
    obtain ⟨hs₃, hshrinks₃, htop⟩ := h₃ hs₂
    obtain ⟨hs₄, hshrinks₄, hbottom⟩ := h₄ hs₃
    refine ⟨hs₄.cutting.tiles.congr fun q => ?_, hs₄.cutting.fragments⟩
    -- What is left over lies in the clipper.
    rw [mem_sdiff, mem_sdiff]
    refine and_congr_right fun hq => not_congr ⟨fun hqc => hs₄.cutting.outside q hq hqc, fun hrest => ?_⟩
    obtain ⟨hlo, hhi, hlo', hhi'⟩ := hrest
    have h₂l := hshrinks₂.left
    have h₃l := hshrinks₃.left
    have h₄l := hshrinks₄.left
    have h₃r := hshrinks₃.right
    have h₄r := hshrinks₄.right
    have h₄t := hshrinks₄.top
    rw [Rect.mem_pixels]
    omega
  · rw [if_pos (by simpa using hmeets)] at hok ⊢
    obtain ⟨-, hlist⟩ := appendRect_ok hok
    rw [hlist, List.nil_append]
    refine ⟨(tiles_singleton hr.pos.1 hr.pos.2).congr fun q => ?_, fun f hf => List.mem_singleton.mp hf ▸ hr⟩
    rw [mem_sdiff]
    refine and_iff_left_of_imp fun hq hqc => hmeets ((rectIntersect_iff hr hc).mpr ?_)
    rw [Rect.mem_pixels] at hq hqc
    simp only [Meets]
    omega

/-! ### The loops of `recalc_clip_list` -/

/-- One turn of the inner loop, with `b` the new list so far. -/
def blockOne (c : Rect) (b : Building) (r : Rect) : Building := (b.1 ++ (clipRect r c b.2).1, rectFree (clipRect r c b.2).2)

theorem blockAll_eq : blockAll c b = b.1.foldl (blockOne c) ([], b.2) := rfl

theorem blockLoop_ok (hc : Fits c) (hok : (l.foldl (blockOne c) b).2.failed = false) : b.2.failed = false := by
  induction l generalizing b with
  | nil => exact hok
  | cons r l ih =>
    have hnext : (blockOne c b r).2.failed = false := ih hok
    have hclip : (clipRect r c b.2).2.failed = false := hnext
    exact clipRect_ok hc hclip

theorem blockLoop_spec (hc : Fits c) (hl : ∀ r ∈ l, Fits r)
    (hdisjoint : l.Pairwise fun r r' => Disjoint r.pixels r'.pixels) (hok : (l.foldl (blockOne c) b).2.failed = false) :
    ∃ new, (l.foldl (blockOne c) b).1 = b.1 ++ new ∧ Tiles new (covered l \ c.pixels) ∧ ∀ f ∈ new, Fits f := by
  induction l generalizing b with
  | nil =>
    refine ⟨[], (List.append_nil _).symm, tiles_nil.congr fun q => ?_, fun f hf => absurd hf List.not_mem_nil⟩
    exact ⟨fun hq => absurd hq.1.choose_spec.1 List.not_mem_nil, fun hq => hq.elim⟩
  | cons r l ih =>
    obtain ⟨hr, hl⟩ := List.forall_mem_cons.mp hl
    obtain ⟨hapart, hdisjoint⟩ := List.pairwise_cons.mp hdisjoint
    rw [List.foldl_cons] at hok ⊢
    obtain ⟨new, hnew, htiles, hfits⟩ := ih hl hdisjoint hok
    have hnext : (blockOne c b r).2.failed = false := blockLoop_ok hc hok
    have hclip : (clipRect r c b.2).2.failed = false := hnext
    obtain ⟨hfragments, hfits'⟩ := clipRect_spec hr hc hclip
    refine ⟨(clipRect r c b.2).1 ++ new, by rw [hnew, blockOne, List.append_assoc], ?_, fun f hf => ?_⟩
    · have hparts : Disjoint (r.pixels \ c.pixels) (covered l \ c.pixels) := by
        rw [disjoint_left]
        rintro q hq ⟨⟨r', hr', hq'⟩, -⟩
        exact disjoint_left.mp (hapart r' hr') hq.1 hq'
      refine (hfragments.append htiles hparts).congr fun q => ?_
      rw [covered_cons, ← union_sdiff_distrib]
    · rcases List.mem_append.mp hf with hf | hf
      · exact hfits' f hf
      · exact hfits f hf

theorem blockAll_spec {S : Set (Int × Int)} (hc : Fits c) (htiles : Tiles b.1 S) (hfits : ∀ r ∈ b.1, Fits r)
    (hok : (blockAll c b).2.failed = false) :
    Tiles (blockAll c b).1 (S \ c.pixels) ∧ ∀ f ∈ (blockAll c b).1, Fits f := by
  obtain ⟨new, hnew, hcut, hfits'⟩ := blockLoop_spec hc hfits htiles.disjoint hok
  have heq : (blockAll c b).1 = new := hnew
  rw [heq]
  refine ⟨hcut.congr fun q => ?_, hfits'⟩
  rw [mem_sdiff, mem_sdiff, htiles.cover]

/-- The outer loop. -/
def blockers (above : List Window) (b : Building) : Building :=
  above.foldl (fun b blocker => blockAll blocker.rect b) b

theorem blockers_ok (habove : ∀ a ∈ above, Fits a.rect) (hok : (blockers above b).2.failed = false) :
    b.2.failed = false := by
  induction above generalizing b with
  | nil => exact hok
  | cons a above ih =>
    obtain ⟨ha, habove⟩ := List.forall_mem_cons.mp habove
    have hnext : (blockAll a.rect b).2.failed = false := ih habove hok
    rw [blockAll_eq] at hnext
    have hstart : (([], b.2) : Building).2.failed = false := blockLoop_ok ha hnext
    exact hstart

theorem blockers_spec {S : Set (Int × Int)} (habove : ∀ a ∈ above, Fits a.rect) (htiles : Tiles b.1 S)
    (hfits : ∀ r ∈ b.1, Fits r) (hok : (blockers above b).2.failed = false) :
    Tiles (blockers above b).1 {q | q ∈ S ∧ ∀ a ∈ above, q ∉ a.rect.pixels} := by
  induction above generalizing b S with
  | nil => exact htiles.congr fun q => by simp
  | cons a above ih =>
    obtain ⟨ha, habove⟩ := List.forall_mem_cons.mp habove
    obtain ⟨hcut, hfits'⟩ := blockAll_spec ha htiles hfits (blockers_ok habove hok)
    refine (ih habove hcut hfits' hok).congr fun q => ?_
    simp only [mem_ofPred_eq, mem_sdiff, List.forall_mem_cons]
    tauto

/-! ### The screen -/

/-- A window whose place and size are as the code that creates, drags and resizes windows leaves them. -/
structure Window.Placed (w : Window) : Prop where
  x : -2 ^ 62 < w.x ∧ w.x < 2 ^ 62
  y : -2 ^ 62 < w.y ∧ w.y < 2 ^ 62
  width : 1 ≤ w.width ∧ w.width < 2 ^ 62
  height : 1 ≤ w.height ∧ w.height < 2 ^ 62
  right : 0 ≤ w.x + w.width
  bottom : 0 ≤ w.y + w.height

theorem Window.Placed.fits (h : win.Placed) : Fits win.rect := by
  obtain ⟨hx, hy, hw, hh, -, -⟩ := h
  exact ⟨⟨hx.1, by simp only [Window.rect]; omega, by simp only [Window.rect]; omega, by simp only [Window.rect]; omega⟩,
    ⟨hy.1, by simp only [Window.rect]; omega, by simp only [Window.rect]; omega, by simp only [Window.rect]; omega⟩⟩

theorem clamp_spec {len max : Nat} (hlo : -2 ^ 62 < lo ∧ lo < 2 ^ 62) (hlen : 1 ≤ len ∧ len < 2 ^ 62)
    (hend : 0 ≤ lo + len) (hmax : max < 2 ^ 64) :
    let lo' := (clampLow lo len).1
    let len' := clampHigh max lo' (clampLow lo len).2
    (s64 len' ≤ 0 ∨ max < u64 (lo' + (clampLow lo len).2) ∧ max ≤ u64 lo' →
      ∀ a, lo ≤ a → a < lo + len → 0 ≤ a → ¬ a < max) ∧
    (0 < s64 len' → Side lo' len' ∧ ∀ a, lo' ≤ a ∧ a < lo' + len' ↔ (lo ≤ a ∧ a < lo + len) ∧ 0 ≤ a ∧ a < max) := by
  obtain ⟨lo', len₁, hlow, hlo', hlen₁, hsame⟩ : ∃ lo' len₁, clampLow lo len = (lo', len₁) ∧ (0 ≤ lo' ∧ lo' < 2 ^ 62) ∧
      len₁ < 2 ^ 62 ∧ ∀ a, lo' ≤ a ∧ a < lo' + len₁ ↔ (lo ≤ a ∧ a < lo + len) ∧ 0 ≤ a := by
    unfold clampLow
    split
    · have hu : (u64 (len + lo) : Int) = len + lo := u64_eq (by omega) (by omega)
      exact ⟨_, _, rfl, by omega, by omega, fun a => by omega⟩
    · exact ⟨_, _, rfl, by omega, by omega, fun a => by omega⟩
  rw [hlow]
  have hsum : (u64 (lo' + len₁) : Int) = lo' + len₁ := u64_eq (by omega) (by omega)
  have hstart : (u64 lo' : Int) = lo' := u64_eq (by omega) (by omega)
  dsimp only
  unfold clampHigh
  split
  · next hover =>
    by_cases hinside : lo' < max
    · have hu : (u64 (max - lo') : Int) = max - lo' := u64_eq (by omega) (by omega)
      have hs : s64 (u64 (max - lo')) = max - lo' := by
        rw [hu]
        exact s64_eq (by omega) (by omega)
      rw [hs]
      refine ⟨fun hno a => by omega, fun _ => ⟨⟨by omega, by omega, by omega, by omega⟩, fun a => ?_⟩⟩
      have := hsame a
      omega
    · -- the difference wraps around and is a negative number
      have hneg : s64 (u64 (max - lo')) ≤ 0 := by
        rw [s64_u64, s64_eq (by omega) (by omega)]
        omega
      refine ⟨fun _ a => ?_, fun hpos => by omega⟩
      have := hsame a
      omega
  · next hover =>
    have hs : s64 len₁ = len₁ := s64_eq (by omega) (by omega)
    rw [hs]
    refine ⟨fun hno a => ?_, fun hpos => ⟨⟨by omega, by omega, by omega, by omega⟩, fun a => ?_⟩⟩
    · have := hsame a
      omega
    · have := hsame a
      omega

/-- The pixels that a window may show: the taskbar is the desktop's. -/
def area (v : Video) (win : Window) : Set (Int × Int) :=
  {q | 0 ≤ q.1 ∧ q.1 < v.width ∧ 0 ≤ q.2 ∧ q.2 < (if win.desktop then v.height else v.height - taskbarHeight : Nat)}

structure Video.Ok (v : Video) : Prop where
  width : v.width < 2 ^ 64
  height : taskbarHeight < v.height ∧ v.height < 2 ^ 64
  pitch : v.width ≤ v.pitch

theorem screenRect_spec (hv : v.Ok) (hw : win.Placed) :
    (screenRect v win = none ∧ ∀ q, ¬ (q ∈ win.rect.pixels ∧ q ∈ area v win)) ∨
      ∃ r, screenRect v win = some r ∧ Fits r ∧ ∀ q, q ∈ r.pixels ↔ q ∈ win.rect.pixels ∧ q ∈ area v win := by
  have hheight := hv.height
  obtain ⟨max, hmax, hlt⟩ : ∃ max, max = (if win.desktop then v.height else v.height - taskbarHeight) ∧ max < 2 ^ 64 := by
    refine ⟨_, rfl, ?_⟩
    split <;> omega
  have hmax' : (if win.desktop then v.height else u64 (v.height - taskbarHeight)) = max := by
    rw [hmax]
    split
    · rfl
    · have hu : (u64 (v.height - taskbarHeight) : Int) = v.height - taskbarHeight := u64_eq (by omega) (by omega)
      omega
  obtain ⟨hxnone, hxsome⟩ := clamp_spec hw.x hw.width hw.right hv.width
  obtain ⟨hynone, hysome⟩ := clamp_spec hw.y hw.height hw.bottom hlt
  unfold screenRect
  rw [hmax']
  dsimp only
  have hpixels : ∀ q, q ∈ win.rect.pixels ∧ q ∈ area v win ↔
      ((win.x ≤ q.1 ∧ q.1 < win.x + win.width) ∧ 0 ≤ q.1 ∧ q.1 < v.width) ∧
      (win.y ≤ q.2 ∧ q.2 < win.y + win.height) ∧ 0 ≤ q.2 ∧ q.2 < max := by
    intro q
    rw [hmax]
    constructor
    · rintro ⟨⟨hlo, hhi, hlo', hhi'⟩, hpos, hlt, hpos', hlt'⟩
      exact ⟨⟨⟨hlo, hhi⟩, hpos, hlt⟩, ⟨hlo', hhi'⟩, hpos', hlt'⟩
    · rintro ⟨⟨⟨hlo, hhi⟩, hpos, hlt⟩, ⟨hlo', hhi'⟩, hpos', hlt'⟩
      exact ⟨⟨hlo, hhi, hlo', hhi'⟩, hpos, hlt, hpos', hlt'⟩
  split
  · next hnone =>
    refine .inl ⟨rfl, fun q hq => ?_⟩
    obtain ⟨-, ⟨hlo, hhi⟩, hpos, hlt⟩ := (hpixels q).mp hq
    exact hynone (.inr hnone) q.2 hlo hhi hpos hlt
  · split
    · next hempty =>
      refine .inl ⟨rfl, fun q hq => ?_⟩
      obtain ⟨⟨⟨hlo, hhi⟩, hpos, hlt⟩, ⟨hlo', hhi'⟩, hpos', hlt'⟩ := (hpixels q).mp hq
      rcases hempty with hempty | hempty
      · exact hxnone (.inl hempty) q.1 hlo hhi hpos hlt
      · exact hynone (.inl hempty) q.2 hlo' hhi' hpos' hlt'
    · next hpos =>
      obtain ⟨hx, hy⟩ := not_or.mp hpos
      obtain ⟨hside, hparts⟩ := hxsome (by omega)
      obtain ⟨hside', hparts'⟩ := hysome (by omega)
      refine .inr ⟨_, rfl, ⟨hside, hside'⟩, fun q => ?_⟩
      rw [hpixels, ← hparts, ← hparts', Rect.mem_pixels]
      exact and_assoc.symm

theorem recalcClipList_tiles (hv : v.Ok) (hw : win.Placed) (habove : ∀ a ∈ above, a.Placed)
    (hok : (recalcClipList v above win p).2.failed = false) : Tiles (recalcClipList v above win p).1.clipList
      {q | (q ∈ win.rect.pixels ∧ q ∈ area v win) ∧ ∀ a ∈ above, q ∉ a.rect.pixels} := by
  have habove' : ∀ a ∈ above, Fits a.rect := fun a ha => (habove a ha).fits
  unfold recalcClipList at hok ⊢
  dsimp only at hok ⊢
  generalize hfree : ({ p with free := p.free + win.clipList.length } : Pool) = p₀ at hok ⊢
  cases halloc : rectAlloc p₀ with
  | mk ok p₁ =>
    rw [halloc] at hok
    dsimp only at hok ⊢
    cases ok with
    | false =>
      -- without a rectangle the pool has failed
      unfold rectAlloc at halloc
      split at halloc
      · obtain ⟨-, rfl⟩ := Prod.mk.inj halloc
        exact absurd hok.symm Bool.false_ne_true
      · cases (Prod.mk.inj halloc).1
    | true =>
      rw [if_neg (by simp)] at hok ⊢
      rcases screenRect_spec hv hw with ⟨hnone, hempty⟩ | ⟨r, hsome, hfits, hpixels⟩
      · rw [hnone]
        refine tiles_nil.congr fun q => ?_
        exact ⟨fun hq => hempty q hq.1, fun hq => hq.elim⟩
      rw [hsome] at hok ⊢
      have hstart : Tiles [r] (r.pixels) := tiles_singleton hfits.pos.1 hfits.pos.2
      have hfits' : ∀ r' ∈ [r], Fits r' := fun r' hr' => List.mem_singleton.mp hr' ▸ hfits
      refine (blockers_spec (b := ([r], p₁)) habove' hstart hfits' hok).congr fun q => ?_
      rw [mem_ofPred_eq, mem_ofPred_eq, hpixels]

theorem recalcClipList_window (v : Video) (above : List Window) (win : Window) (p : Pool) :
    ∃ l, (recalcClipList v above win p).1 = { win with clipList := l } := by
  unfold recalcClipList
  dsimp only
  split
  · exact ⟨_, rfl⟩
  split
  · exact ⟨_, rfl⟩
  · exact ⟨_, rfl⟩

/-! ### Drawing -/

theorem u64_le (hn : 0 ≤ n) : (u64 n : Int) ≤ n := by
  rw [u64, toNat_of_nonneg (emod_nonneg n (by decide))]
  omega

theorem u64_index_lt {w h : Nat} (hx : 0 ≤ x) (hx' : x < w) (hy : 0 ≤ y) (hy' : y < h) :
    u64 (y * w + x) < w * h := by
  have hnonneg : 0 ≤ y * w + x := add_nonneg (mul_nonneg hy (natCast_nonneg w)) hx
  have hrow : y * w + x < w * h := calc
    y * w + x < y * w + w := by omega
    _ = (y + 1) * w := by ring
    _ ≤ h * w := mul_le_mul_of_nonneg_right (by omega) (natCast_nonneg w)
    _ = w * h := mul_comm _ _
  have hle := u64_le hnonneg
  have hlt : (u64 (y * w + x) : Int) < (w * h : Nat) := by
    rw [Nat.cast_mul]
    omega
  exact ofNat_lt.mp hlt

theorem winDraw_inside (hv : v.Ok) (hclip : ∀ r ∈ win.clipList, ∀ q ∈ r.pixels, q ∈ win.rect.pixels ∧ q ∈ area v win) :
    ∀ px ∈ winDraw v win, px.src < win.width * win.height ∧ px.dst < v.pitch * v.height := by
  intro px hpx
  obtain ⟨r, hr, hpx⟩ := List.mem_flatMap.mp hpx
  obtain ⟨row, hrow, hpx⟩ := List.mem_flatMap.mp hpx
  obtain ⟨col, hcol, rfl⟩ := List.mem_map.mp hpx
  rw [List.mem_range] at hrow hcol
  have hq : (r.x + col, r.y + row) ∈ r.pixels := ⟨by simp, by simpa using hcol, by simp, by simpa using hrow⟩
  obtain ⟨⟨hx, hx', hy, hy'⟩, hpos, hlt, hpos', hlt'⟩ := hclip r hr _ hq
  have hheight : r.y + row < v.height := by
    refine hlt'.trans_le ?_
    split
    · exact le_rfl
    · exact ofNat_le.mpr (Nat.sub_le _ _)
  have hpitch := hv.pitch
  dsimp only [Window.rect] at hx hx' hy hy' hpos hlt hpos'
  constructor
  · have hindex : (row + (r.y - win.y)) * win.width + (r.x - win.x) + col =
        (r.y + row - win.y) * win.width + (r.x + col - win.x) := by ring
    dsimp only
    rw [hindex]
    exact u64_index_lt (by omega) (by omega) (by omega) (by omega)
  · have hindex : (row + r.y) * v.pitch + r.x + col = (r.y + row) * v.pitch + (r.x + col) := by ring
    dsimp only
    rw [hindex]
    exact u64_index_lt (by omega) (by omega) hpos' hheight

/-- After `recalc_clip_list` the clip list of a window tiles what is to be seen of the window, and `win_draw` stays in
the pixels of the window and in the back buffer. -/
theorem clip_list_exact (hv : v.Ok) (hw : win.Placed) (habove : ∀ a ∈ above, a.Placed)
    (hok : (recalcClipList v above win p).2.failed = false) : Tiles (recalcClipList v above win p).1.clipList
      {q | (q ∈ win.rect.pixels ∧ q ∈ area v win) ∧ ∀ a ∈ above, q ∉ a.rect.pixels} ∧
    ∀ px ∈ winDraw v (recalcClipList v above win p).1,
      px.src < win.width * win.height ∧ px.dst < v.pitch * v.height := by
  have htiles := recalcClipList_tiles hv hw habove hok
  refine ⟨htiles, ?_⟩
  obtain ⟨l, hl⟩ := recalcClipList_window v above win p
  rw [hl] at htiles ⊢
  exact winDraw_inside hv fun r hr q hq => (htiles.pixels_subset hr hq).1

/-- A window that hangs over the left edge of the screen, under another one. -/
def overhanging : Window where
  id := 1
  x := -10
  y := 20
  width := 100
  height := 50
  desktop := false
  flags := ⟨true, true, true, false, true⟩
  state := .normal
  preState := .normal
  preX := -10
  preY := 20
  preW := 100
  preH := 50
  pixelsSize := 20000
  clipList := []

theorem clip_list_exact_overhanging : Tiles [⟨0, 20, 20, 50⟩, ⟨20, 20, 70, 10⟩]
      {q | (q ∈ overhanging.rect.pixels ∧ q ∈ area ⟨640, 480, 640⟩ overhanging) ∧
        ∀ a ∈ [{ overhanging with x := 20, y := 30 }], q ∉ a.rect.pixels} := by
  have hlist : (recalcClipList ⟨640, 480, 640⟩ [{ overhanging with x := 20, y := 30 }] overhanging ⟨8, false⟩).1.clipList =
      [⟨0, 20, 20, 50⟩, ⟨20, 20, 70, 10⟩] := by decide +kernel
  have hplaced : overhanging.Placed := ⟨by decide, by decide, by decide, by decide, by decide, by decide⟩
  have habove : ({ overhanging with x := 20, y := 30 } : Window).Placed :=
    ⟨by decide, by decide, by decide, by decide, by decide, by decide⟩
  rw [← hlist]
  exact (clip_list_exact ⟨by decide, by decide, by decide⟩ hplaced (List.forall_mem_singleton.mpr habove)
    (by decide +kernel)).1

end NyanOS.Screen
