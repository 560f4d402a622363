import NyanOS.Windows.Pointers

/-!
# The order of the windows

The list from the bottom to the top over runs of `win_create`, `win_focus`, `win_cycle_focus` and `win_close`, above the
desktop, which has no border.
-/
namespace NyanOS.Windows

open Lib Sched Function List Option

variable {w w' : Sched.Windows} {k k' : Kernel} {d p q curr fuel : Nat} {l l₁ l₂ : List Nat} {borderless pixels : Bool}
  {o : Nat → Bool}

/-- A bound on the turns of a loop: there are no more addresses. -/
def walkFuel : Nat := 2 ^ 64

/-- The loop of `win_cycle_focus`: the lowest window with a border that is not the top, or 0. -/
def cycleScan (w : Sched.Windows) : Nat → Nat → Nat
  | 0, _ => 0
  | fuel + 1, curr =>
    if curr = 0 then 0
    else if (w.window curr).borderless = false ∧ curr ≠ w.top then curr
    else cycleScan w fuel (w.window curr).next

/-- `win_cycle_focus`. A window that is minimized gets its size back first, which leaves the list alone. -/
def winCycleFocus (w : Sched.Windows) : Sched.Windows :=
  if w.list = 0 then w
  else
    let found := cycleScan w walkFuel w.list
    if found = 0 then w else winFocus w found

/-- `create` has the block that `kmalloc` returns, or 0, and whether there is memory for the pixels. -/
inductive OrderAct where
  | create (p : Nat) (pixels borderless : Bool)
  | focus (p : Nat)
  | cycle
  | close (p : Nat)

/-- A new block is an address that no window has, and only windows of the list other than the desktop are closed. -/
def orderTo (desktop : Nat) (k : Kernel) : OrderAct → Option Kernel
  | .create p pixels borderless =>
    if k.windows.live p = false ∧ p < 2 ^ 64 then some (winCreate k p pixels true borderless) else none
  | .focus p => if p = 0 ∨ k.windows.live p = true then some { k with windows := winFocus k.windows p } else none
  | .cycle => some { k with windows := winCycleFocus k.windows }
  | .close p =>
    if k.windows.live p = true ∧ p ≠ desktop then some { k with windows := winClose k.windows p } else none

/-! ### What the operations are for -/

/-- Bring `p` to the top; the others keep their order. -/
def toTop (l : List Nat) (p : Nat) : List Nat := l.erase p ++ [p]

/-- The order after an operation; `flat` are the windows without border. -/
def orderAfter (flat : Nat → Bool) (l : List Nat) : OrderAct → List Nat
  | .create p pixels _ => if p ≠ 0 ∧ pixels = true then l ++ [p] else l
  | .focus p => if p ≠ 0 ∧ flat p = false then toTop l p else l
  | .cycle =>
    match l.dropLast.find? fun p => !flat p with
    | none => l
    | some p => toTop l p
  | .close p => l.erase p

/-- The windows that are created and not closed since. -/
def opened (o : Nat → Bool) : OrderAct → Nat → Bool
  | .create p pixels _ => if p ≠ 0 ∧ pixels = true then update o p true else o
  | .close p => update o p false
  | _ => o

/-! ### The flags -/

theorem borderless_set {f : Window → Window} (hf : ∀ x, (f x).borderless = x.borderless) :
    ((w.set p f).window q).borderless = (w.window q).borderless := by
  by_cases hq : q = p
  · subst hq
    simp [Sched.Windows.set, hf]
  · simp [Sched.Windows.set, hq]

theorem borderless_winFocus : ((winFocus w p).window q).borderless = (w.window q).borderless := by
  unfold winFocus
  dsimp only
  split
  · rfl
  split
  · simp [borderless_set]
  · split <;> simp [borderless_set]

theorem borderless_winClose : ((winClose w p).window q).borderless = (w.window q).borderless := by
  unfold winClose
  dsimp only
  split
  · rfl
  split
  · split <;> simp [borderless_set]
  split
  · split <;> simp [borderless_set]
  · simp [borderless_set]

theorem borderless_winCycleFocus : ((winCycleFocus w).window q).borderless = (w.window q).borderless := by
  unfold winCycleFocus
  dsimp only
  split
  · rfl
  split
  · rfl
  · exact borderless_winFocus

theorem borderless_winLink (hq : q ≠ p) : ((winLink w p borderless).window q).borderless = (w.window q).borderless := by
  unfold winLink
  dsimp only
  split
  · simp [hq]
  · simp [Sched.Windows.set, update_apply, hq]
    split <;> simp_all

/-! ### The operations -/

theorem WindowList.create (h : WindowList k.windows l) (hfree : k.windows.live p = false) (hp : p ≠ 0) :
    WindowList (winCreate k p true true borderless).windows (l ++ [p]) := by
  have hlink : WindowList (winLink k.windows p borderless) (l ++ [p]) := h.link hp hfree
  unfold winCreate
  rw [if_neg (by simp [hp])]
  dsimp only
  rw [if_pos rfl]
  split
  · exact hlink.setOwner
  · exact hlink

theorem borderless_winCreate (hq : q ≠ p) :
    ((winCreate k p pixels true borderless).windows.window q).borderless = (k.windows.window q).borderless := by
  unfold winCreate
  split
  · rfl
  dsimp only
  rw [if_pos rfl]
  split
  · have hlink : ((winLink k.windows p borderless).window q).borderless = (k.windows.window q).borderless :=
      borderless_winLink hq
    rw [← hlink]
    dsimp only
    refine borderless_set ?_
    exact fun _ => rfl
  · exact borderless_winLink hq

theorem WindowList.erase_eq (h : WindowList w (l₁ ++ p :: l₂)) :
    (l₁ ++ p :: l₂).erase p = l₁ ++ l₂ := by
  have hnot : p ∉ l₁ := fun hmem => disjoint_of_nodup_append h.dlist.nodup hmem mem_cons_self
  rw [erase_append_right _ hnot, erase_cons_head]

theorem WindowList.winFocus_eq (h : WindowList w l) (hp : p ∈ l) (hflat : (w.window p).borderless = false) :
    WindowList (winFocus w p) (toTop l p) := by
  obtain ⟨l₁, l₂, rfl⟩ := append_of_mem hp
  rw [toTop, h.erase_eq]
  by_cases htop : p = w.top
  · -- the top stays where it is
    obtain rfl := h.dlist.eq_last.mp htop
    rw [winFocus, if_pos (.inr (.inr htop)), append_nil]
    exact h
  · refine h.raise ?_
    rintro (hzero | hflat' | htop')
    · exact h.dlist.ne_zero hp hzero
    · exact Bool.false_ne_true (hflat.symm.trans hflat')
    · exact htop htop'

theorem WindowList.winClose_eq (h : WindowList w l) (hp : p ∈ l) : WindowList (winClose w p) (l.erase p) := by
  obtain ⟨l₁, l₂, rfl⟩ := append_of_mem hp
  rw [h.erase_eq]
  exact h.remove

/-- The scan from the window `curr`, with the windows `l` still ahead below the top `q`. -/
theorem cycleScan_eq (h : Seg (· ≠ 0) (next w) curr (l ++ [q]) 0) (htop : w.top = q) (hq : q ∉ l)
    (hfuel : l.length + 1 < fuel) : cycleScan w fuel curr = (l.find? fun p => !(w.window p).borderless).getD 0 := by
  induction l generalizing curr fuel with
  | nil =>
    obtain ⟨rfl, hcurr, hend⟩ := h
    obtain ⟨fuel, rfl⟩ : ∃ f, fuel = f + 2 := ⟨fuel - 2, by simp at hfuel; omega⟩
    have hnext : (w.window curr).next = 0 := hend
    rw [cycleScan, if_neg hcurr, if_neg fun hfound => hfound.2 htop.symm, cycleScan, if_pos hnext]
    rfl
  | cons x l ih =>
    obtain ⟨rfl, hcurr, hrest⟩ := h
    obtain ⟨hne, hq⟩ := not_or.mp fun hmem => hq (mem_cons.mpr hmem)
    obtain ⟨fuel, rfl⟩ : ∃ f, fuel = f + 1 := ⟨fuel - 1, by omega⟩
    rw [length_cons] at hfuel
    have hbelow : curr ≠ w.top := fun heq => hne (htop.symm.trans heq.symm)
    rw [cycleScan, if_neg hcurr]
    cases hflat : (w.window curr).borderless with
    | false =>
      rw [if_pos ⟨rfl, hbelow⟩, find?_cons_of_pos (by simp [hflat])]
      rfl
    | true =>
      rw [if_neg fun hfound => Bool.false_ne_true hfound.1.symm, find?_cons_of_neg (by simp [hflat])]
      exact ih hrest hq (by omega)

theorem WindowList.winCycleFocus_eq (h : WindowList w l) (hl : l ≠ []) (hfuel : l.length < walkFuel) :
    WindowList (winCycleFocus w) (orderAfter (fun p => (w.window p).borderless) l .cycle) := by
  obtain ⟨l', q, rfl⟩ := (eq_nil_or_concat' l).resolve_left hl
  have htop : q = w.top := h.dlist.eq_last.mpr rfl
  have hq : q ∉ l' := fun hmem => disjoint_of_nodup_append h.dlist.nodup hmem mem_cons_self
  have hscan := cycleScan_eq h.dlist.seg htop.symm hq (by simpa using hfuel)
  have hlist : w.list ≠ 0 := fun hzero => hl (h.dlist.first_eq_zero.mp hzero)
  rw [winCycleFocus, if_neg hlist, hscan, orderAfter, dropLast_concat]
  cases hfind : l'.find? fun p => !(w.window p).borderless with
  | none => exact h
  | some p =>
    have hp : p ∈ l' ++ [q] := mem_append_left _ (mem_of_find?_eq_some hfind)
    have hflat : (w.window p).borderless = false := by simpa using find?_some hfind
    dsimp only [getD_some]
    rw [if_neg (h.dlist.ne_zero hp)]
    exact h.winFocus_eq hp hflat

/-! ### Runs -/

/-- The desktop is below all others, and the windows are those of `o`. -/
structure Ordered (d : Nat) (o : Nat → Bool) (k : Kernel) (l : List Nat) : Prop where
  list : WindowList k.windows (d :: l)
  flat : (k.windows.window d).borderless = true
  opened : ∀ p, p ∈ d :: l ↔ o p = true
  addresses : ∀ p ∈ d :: l, p < 2 ^ 64

theorem Ordered.length_lt (h : Ordered d o k l) : (d :: l).length < walkFuel := by
  have hsub : d :: l ⊆ List.range' 1 (2 ^ 64 - 1) := by
    intro p hp
    have hlt := h.addresses p hp
    have hne := h.list.dlist.ne_zero hp
    rw [mem_range'_1]
    omega
  have hle := (h.list.dlist.nodup.subperm hsub).length_le
  rw [length_range'] at hle
  unfold walkFuel
  omega

theorem erase_above (hp : p ≠ d) : (d :: l).erase p = d :: l.erase p := erase_cons_tail (by simpa using hp.symm)

theorem toTop_above (hp : p ≠ d) : toTop (d :: l) p = d :: toTop l p := by rw [toTop, erase_above hp]; rfl

theorem mem_toTop (hp : p ∈ l) : q ∈ toTop l p ↔ q ∈ l := (perm_append_comm.trans (perm_cons_erase hp).symm).mem_iff

theorem Ordered.toTop (h : Ordered d o k l) (hp : p ∈ d :: l) (hne : p ≠ d)
    (hw : WindowList w' (Windows.toTop (d :: l) p)) (hflat : (w'.window d).borderless = (k.windows.window d).borderless) :
    Ordered d o { k with windows := w' } (Windows.toTop l p) := by
  have hmem : ∀ q, q ∈ d :: Windows.toTop l p ↔ q ∈ d :: l := by
    intro q
    rw [← toTop_above hne]
    exact mem_toTop hp
  refine ⟨toTop_above hne ▸ hw, hflat.trans h.flat, fun q => (hmem q).trans (h.opened q), fun q hq => ?_⟩
  exact h.addresses q ((hmem q).mp hq)

theorem Ordered.step {a : OrderAct} (h : Ordered d o k l) (hstep : orderTo d k a = some k') :
    ∃ l', orderAfter (fun p => (k.windows.window p).borderless) (d :: l) a = d :: l' ∧
      Ordered d (Windows.opened o a) k' l' := by
  cases a with
  | create p pixels borderless =>
    obtain ⟨⟨hfree, hlt⟩, heq⟩ := ite_none_right_eq_some.mp hstep
    cases heq
    rw [orderAfter, Windows.opened]
    by_cases hmade : p ≠ 0 ∧ pixels = true
    · obtain ⟨hp, rfl⟩ := hmade
      rw [if_pos ⟨hp, rfl⟩, if_pos ⟨hp, rfl⟩]
      have hne : d ≠ p := by
        rintro rfl
        exact Bool.false_ne_true (hfree.symm.trans ((h.list.members d).mpr mem_cons_self))
      refine ⟨l ++ [p], rfl, h.list.create hfree hp, (borderless_winCreate hne).trans h.flat, fun q => ?_, ?_⟩
      · rw [← cons_append, mem_append, h.opened, mem_singleton, update_apply]
        by_cases hq : q = p <;> simp [hq]
      · intro q hq
        rcases mem_append.mp (show q ∈ (d :: l) ++ [p] from hq) with hold | hnew
        · exact h.addresses q hold
        · exact mem_singleton.mp hnew ▸ hlt
    · rw [if_neg hmade, if_neg hmade]
      have hnone : p = 0 ∨ pixels = false := by
        rcases not_and_or.mp hmade with hzero | hpixels
        · exact .inl (not_not.mp hzero)
        · exact .inr (Bool.eq_false_iff.mpr hpixels)
      rw [winCreate, if_pos hnone]
      exact ⟨l, rfl, h⟩
  | focus p =>
    obtain ⟨hp, heq⟩ := ite_none_right_eq_some.mp hstep
    cases heq
    rw [orderAfter]
    by_cases hmove : p ≠ 0 ∧ (k.windows.window p).borderless = false
    · rw [if_pos hmove]
      have hmem := (h.list.members p).mp (hp.resolve_left hmove.1)
      have hne : p ≠ d := by
        rintro rfl
        exact Bool.false_ne_true (hmove.2.symm.trans h.flat)
      exact ⟨_, toTop_above hne, h.toTop hmem hne (h.list.winFocus_eq hmem hmove.2) borderless_winFocus⟩
    · rw [if_neg hmove]
      have hstay : p = 0 ∨ (k.windows.window p).borderless = true ∨ p = k.windows.top := by
        rcases not_and_or.mp hmove with hzero | hflat
        · exact .inl (not_not.mp hzero)
        · exact .inr (.inl (by simpa using hflat))
      rw [winFocus, if_pos hstay]
      exact ⟨l, rfl, h⟩
  | cycle =>
    cases hstep
    have hcycle := h.list.winCycleFocus_eq (cons_ne_nil d l) h.length_lt
    rw [orderAfter] at hcycle ⊢
    cases hfind : (d :: l).dropLast.find? fun p => !(k.windows.window p).borderless with
    | none =>
      rw [hfind] at hcycle
      refine ⟨l, rfl, hcycle, ?_, h.opened, h.addresses⟩
      exact borderless_winCycleFocus.trans h.flat
    | some p =>
      rw [hfind] at hcycle
      have hmem : p ∈ d :: l := mem_of_mem_dropLast (mem_of_find?_eq_some hfind)
      have hflat : (k.windows.window p).borderless = false := by simpa using find?_some hfind
      have hne : p ≠ d := by
        rintro rfl
        exact Bool.false_ne_true (hflat.symm.trans h.flat)
      exact ⟨_, toTop_above hne, h.toTop hmem hne hcycle borderless_winCycleFocus⟩
  | close p =>
    obtain ⟨⟨hp, hne⟩, heq⟩ := ite_none_right_eq_some.mp hstep
    cases heq
    have hmem := (h.list.members p).mp hp
    have hrest : ∀ q, q ∈ d :: l.erase p ↔ q ∈ d :: l ∧ q ≠ p := by
      intro q
      rw [← erase_above hne, h.list.dlist.nodup.mem_erase_iff, and_comm]
    refine ⟨l.erase p, erase_above hne, erase_above hne ▸ h.list.winClose_eq hmem,
      borderless_winClose.trans h.flat, fun q => ?_, fun q hq => h.addresses q ((hrest q).mp hq).1⟩
    rw [hrest, h.opened, Windows.opened, update_apply]
    by_cases hq : q = p <;> simp [hq]

/-- From the desktop alone, after any operations: the windows are linked in one list with the desktop first, they are
those that were created and not closed since, and whatever the next operation is, it gives the order it is for. -/
theorem windows_ordered {acts : List OrderAct} (hd : d < 2 ^ 64) (hlist : WindowList k.windows [d])
    (hflat : (k.windows.window d).borderless = true) (hrun : Run (ofNext (orderTo d)) k acts k') :
    ∃ l, WindowList k'.windows (d :: l) ∧
      (∀ p, p ∈ d :: l ↔ acts.foldl opened (fun p => decide (p = d)) p = true) ∧
      ∀ a k'', orderTo d k' a = some k'' → WindowList k''.windows
        (orderAfter (fun p => (k'.windows.window p).borderless) (d :: l) a) := by
  have hstart : Ordered d (fun p => decide (p = d)) k [] := by
    refine ⟨hlist, hflat, fun p => ?_, fun p hp => ?_⟩
    · rw [mem_singleton, decide_eq_true_iff]
    · exact mem_singleton.mp hp ▸ hd
  have hstep : ∀ o s a t, ofNext (orderTo d) s a t → (∃ l, Ordered d o s l) → ∃ l, Ordered d (opened o a) t l := by
    rintro o s a t hs ⟨l, hl⟩
    obtain ⟨l', -, hl'⟩ := hl.step hs
    exact ⟨l', hl'⟩
  obtain ⟨l, hl⟩ := hrun.tracked (P := fun o k => ∃ l, Ordered d o k l) hstep ⟨[], hstart⟩
  refine ⟨l, hl.list, hl.opened, fun a k'' hnext => ?_⟩
  obtain ⟨l', heq, hl'⟩ := hl.step hnext
  rw [heq]
  exact hl'.list

/-- The desktop is made before any other window. -/
def desktopKernel : Kernel := winCreate bootKernel 0x1000 true true true

/-- Three windows: the second comes to the top, then the lowest, and the one that is left below them is closed. -/
theorem windows_ordered_cycled : ∃ k' l, Run (ofNext (orderTo 0x1000)) desktopKernel
      [.create 0x2000 true false, .create 0x3000 true false, .create 0x4000 true false, .focus 0x3000, .cycle,
        .close 0x4000] k' ∧
    k'.windows.list = 0x1000 ∧ k'.windows.top = 0x2000 ∧ WindowList k'.windows (0x1000 :: l) := by
  have hexec : (exec (orderTo 0x1000) desktopKernel [.create 0x2000 true false, .create 0x3000 true false,
      .create 0x4000 true false, .focus 0x3000, .cycle, .close 0x4000]).map
      (fun k => (k.windows.list, k.windows.top)) = some (0x1000, 0x2000) := by decide +kernel
  obtain ⟨k', hk, hends⟩ := map_eq_some_iff.mp hexec
  obtain ⟨hbottom, htop⟩ := Prod.mk.inj hends
  have hrun := exec_run hk
  have hlist : WindowList desktopKernel.windows [0x1000] := bootKernel_windows.create rfl (by decide)
  obtain ⟨l, hl, -⟩ := windows_ordered (by decide) hlist rfl hrun
  exact ⟨k', l, hrun, hbottom, htop, hl⟩

end NyanOS.Windows
