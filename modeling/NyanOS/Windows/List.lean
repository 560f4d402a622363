import NyanOS.Lib.DoublyLinked
import NyanOS.Sched.Model

/-!
# The list of windows (`gui/window.c`)

The windows are linked from the bottom, `g_win_list`, to the top, `g_win_top`.
-/
namespace NyanOS.Windows

open Lib Sched Function List

variable {w : Sched.Windows} {p n q : Nat} {l : List Nat} {l₁ l₂ : List Nat}

/-- `win_create` links the new window at the top. -/
def winLink (w : Sched.Windows) (p : Nat) (borderless : Bool) : Sched.Windows :=
  let empty : Bool := w.list = 0 || w.top = 0
  let w : Sched.Windows := { w with
    window := update w.window p
      { prev := if empty then 0 else w.top, next := 0, ownerPid := -1, borderless := borderless }
    live := update w.live p true }
  if empty then { w with list := p, top := p }
  else { w.set w.top fun x => { x with next := p } with top := p }

/-- `win_create` with the block of the window and whether `vmm_alloc_global` and `rect_alloc`
succeed. The last failure frees a window that is linked already. -/
def winCreate (k : Kernel) (p : Nat) (pixels rect borderless : Bool) : Kernel :=
  if p = 0 ∨ pixels = false then k
  else
    let k := { k with windows := winLink k.windows p borderless }
    let k := if k.tasks.curr ≠ 0 ∧ borderless = false then
        let pid := (k.tasks.task k.tasks.curr).pid
        { k.setTask k.tasks.curr fun t => { t with win := p } with
          windows := k.windows.set p fun x => { x with ownerPid := pid } }
      else k
    if rect then k
    else { k with windows := { k.windows with live := update k.windows.live p false } }

/-- `win_focus` moves a window to the top. -/
def winFocus (w : Sched.Windows) (p : Nat) : Sched.Windows :=
  if p = 0 ∨ (w.window p).borderless = true ∨ p = w.top then w
  else if p = w.list then
    let w := w.set w.top fun x => { x with next := w.list }
    let w := w.set w.list fun x => { x with prev := w.top }
    let w : Sched.Windows := { w with top := w.list }
    let w : Sched.Windows := { w with list := (w.window w.list).next }
    let w := w.set w.list fun x => { x with prev := 0 }
    w.set w.top fun x => { x with next := 0 }
  else
    let prev := (w.window p).prev
    let next := (w.window p).next
    let w := if prev ≠ 0 ∧ next ≠ 0 then
        ((w.set prev fun x => { x with next := next }).set next fun x => { x with prev := prev }).set p
          fun x => { x with next := 0 }
      else w
    let w := w.set p fun x => { x with prev := w.top }
    let w := w.set w.top fun x => { x with next := p }
    { w with top := p }

def next (w : Sched.Windows) (p : Nat) : Nat := (w.window p).next

def prev (w : Sched.Windows) (p : Nat) : Nat := (w.window p).prev

/-- The windows that exist, from the bottom to the top. -/
structure WindowList (w : Sched.Windows) (l : List Nat) : Prop where
  dlist : DList (next w) (prev w) w.list w.top l
  members : ∀ p, w.live p = true ↔ p ∈ l

section
variable (w : Sched.Windows) (p v : Nat)

theorem next_setNext : next (w.set p fun x => { x with next := v }) = update (next w) p v := by
  funext q
  by_cases h : q = p <;> simp [next, Sched.Windows.set, h]

theorem next_setPrev : next (w.set p fun x => { x with prev := v }) = next w := by
  funext q
  by_cases h : q = p <;> simp [next, Sched.Windows.set, h]

theorem prev_setPrev : prev (w.set p fun x => { x with prev := v }) = update (prev w) p v := by
  funext q
  by_cases h : q = p <;> simp [prev, Sched.Windows.set, h]

theorem prev_setNext : prev (w.set p fun x => { x with next := v }) = prev w := by
  funext q
  by_cases h : q = p <;> simp [prev, Sched.Windows.set, h]

end

theorem winFocus_bottom (hstay : ¬ (p = 0 ∨ (w.window p).borderless = true ∨ p = w.top))
    (hlist : p = w.list) (hn : n = next w p) : next (winFocus w p) = update (update (next w) w.top p) p 0 ∧
    prev (winFocus w p) = update (update (prev w) p w.top) n 0 ∧
    (winFocus w p).list = n ∧ (winFocus w p).top = p := by
  have htop : p ≠ w.top := fun he => hstay (.inr (.inr he))
  let w₁ := w.set w.top fun x => { x with next := w.list }
  let w₂ := w₁.set w₁.list fun x => { x with prev := w₁.top }
  have hn₂ : next w₂ = update (next w) w.top p := by
    rw [next_setPrev, next_setNext, hlist]
  have hp₂ : prev w₂ = update (prev w) p w.top := by
    rw [prev_setPrev, prev_setNext, hlist]
    rfl
  have hlist₂ : next w₂ w₂.list = n := by
    rw [hn₂, show w₂.list = p from hlist.symm, update_of_ne htop, hn]
  let w₄ : Sched.Windows := { w₂ with list := next w₂ w₂.list, top := w₂.list }
  have heq : winFocus w p = (w₄.set w₄.list fun x => { x with prev := 0 }).set w₄.top
      fun x => { x with next := 0 } := by
    rw [winFocus, if_neg hstay, if_pos hlist]
    rfl
  rw [heq, next_setNext, next_setPrev, prev_setNext, prev_setPrev]
  change update (next w₂) w₂.list 0 = _ ∧ update (prev w₂) (next w₂ w₂.list) 0 = _ ∧ next w₂ w₂.list = n ∧ w₂.list = p
  rw [hlist₂, hn₂, hp₂, show w₂.list = p from hlist.symm]
  exact ⟨rfl, rfl, rfl, rfl⟩

theorem winFocus_middle (hstay : ¬ (p = 0 ∨ (w.window p).borderless = true ∨ p = w.top))
    (hlist : p ≠ w.list) (hprev : prev w p ≠ 0) (hnext : next w p ≠ 0) : next (winFocus w p) = update (update
      (update (next w) (prev w p) (next w p)) p 0) w.top p ∧
    prev (winFocus w p) = update (update (prev w) (next w p) (prev w p)) p w.top ∧
    (winFocus w p).list = w.list ∧ (winFocus w p).top = p := by
  let v := ((((w.set (prev w p) fun x => { x with next := next w p }).set (next w p)
    fun x => { x with prev := prev w p }).set p fun x => { x with next := 0 }).set p
    fun x => { x with prev := w.top }).set w.top fun x => { x with next := p }
  have heq : winFocus w p = { v with top := p } := by
    rw [winFocus, if_neg hstay, if_neg hlist]
    dsimp only
    rw [if_pos ⟨hprev, hnext⟩]
    rfl
  rw [heq]
  refine ⟨?_, ?_, rfl, rfl⟩
  · change next v = _
    rw [next_setNext, next_setPrev, next_setNext, next_setPrev, next_setNext]
  · change prev v = _
    rw [prev_setNext, prev_setPrev, prev_setNext, prev_setPrev, prev_setNext]

theorem winClose_live : (winClose w p).live = update w.live p false := by
  unfold winClose
  dsimp only
  split
  · rfl
  split
  · split <;> rfl
  split
  · split <;> rfl
  · rfl

theorem mem_remove (hnd : (l₁ ++ p :: l₂).Nodup) (q : Nat) : q ∈ l₁ ++ l₂ ↔ q ∈ l₁ ++ p :: l₂ ∧ q ≠ p := by
  have hp : p ∉ l₁ ++ l₂ := (nodup_cons.mp (nodup_middle.mp hnd)).1
  by_cases hq : q = p
  · subst hq
    simp [hp]
  · simp [hq]

/-- The four branches of `win_close` bend the same links; they differ in which of them exist. -/
theorem winClose_links (h : DList (next w) (prev w) w.list w.top (l₁ ++ p :: l₂)) :
    (winClose w p).list = (if l₁ = [] then next w p else w.list) ∧
    (winClose w p).top = (if l₂ = [] then prev w p else w.top) ∧
    ∀ q, q ≠ 0 → next (winClose w p) q = update (next w) (prev w p) (next w p) q ∧
      prev (winClose w p) q = update (prev w) (next w p) (prev w p) q := by
  have hprev : (w.window p).prev = 0 ↔ l₁ = [] := h.prev_eq_zero
  have hnext : (w.window p).next = 0 ↔ l₂ = [] := h.next_eq_zero
  -- a link of null is no link of a window
  have hnull : ∀ {f : Nat → Nat} {a v : Nat}, a = 0 → ∀ q, q ≠ 0 → f q = update f a v q := by
    rintro f a v rfl q hq
    rw [update_of_ne hq]
  unfold winClose
  dsimp only
  split
  · next h0 =>
    have h₁ := hprev.mp h0.1
    have h₂ := hnext.mp h0.2
    exact ⟨by simp [h₁, next, h0], by simp [h₂, prev, h0], fun q hq => ⟨hnull h0.1 q hq, hnull h0.2 q hq⟩⟩
  next h0 =>
  split
  · next hp =>
    have h₁ := h.eq_first.mp hp
    have hn0 : (w.window p).next ≠ 0 := fun he => h0 ⟨hprev.mpr h₁, he⟩
    rw [← hp, if_pos hn0, if_pos h₁, if_neg fun he => hn0 (hnext.mpr he)]
    refine ⟨rfl, rfl, fun q hq => ⟨?_, ?_⟩⟩
    · change next (w.set _ fun x => { x with prev := 0 }) q = _
      rw [next_setPrev]
      exact hnull (hprev.mpr h₁) q hq
    · change prev (w.set _ fun x => { x with prev := 0 }) q = _
      rw [prev_setPrev, ← hprev.mpr h₁]
      rfl
  next hp =>
  have h₁ : l₁ ≠ [] := fun he => hp (h.eq_first.mpr he)
  have hp0 : (w.window p).prev ≠ 0 := fun he => h₁ (hprev.mp he)
  split
  · next ht =>
    have h₂ := h.eq_last.mp ht
    rw [← ht, if_pos hp0, if_pos h₂]
    refine ⟨rfl, rfl, fun q hq => ⟨?_, ?_⟩⟩
    · change next (w.set _ fun x => { x with next := 0 }) q = _
      rw [next_setNext, ← hnext.mpr h₂]
      rfl
    · change prev (w.set _ fun x => { x with next := 0 }) q = _
      rw [prev_setNext]
      exact hnull (hnext.mpr h₂) q hq
  · next ht =>
    have h₂ : l₂ ≠ [] := fun he => ht (h.eq_last.mpr he)
    rw [if_neg h₂]
    refine ⟨rfl, rfl, fun q _ => ⟨?_, ?_⟩⟩
    · change next (((w.set _ fun x => { x with next := _ }).set _ fun x => { x with prev := _ })) q = _
      rw [next_setPrev, next_setNext]
      rfl
    · change prev (((w.set _ fun x => { x with next := _ }).set _ fun x => { x with prev := _ })) q = _
      rw [prev_setPrev, prev_setNext]
      rfl

theorem WindowList.remove (h : WindowList w (l₁ ++ p :: l₂)) : WindowList (winClose w p) (l₁ ++ l₂) := by
  obtain ⟨hlist, htop, hlinks⟩ := winClose_links h.dlist
  have hmem := mem_remove h.dlist.nodup
  have hne : ∀ q ∈ l₁ ++ l₂, q ≠ 0 := fun q hq => h.dlist.ne_zero ((hmem q).mp hq).1
  refine ⟨h.dlist.remove hlist htop (fun q hq => ?_) fun q hq => ?_, fun q => ?_⟩
  · rw [(hlinks q (hne q hq)).1, update_apply]
  · rw [(hlinks q (hne q hq)).2, update_apply]
  · rw [hmem, winClose_live]
    by_cases hqp : q = p
    · simp [hqp]
    · rw [update_of_ne hqp, h.members q]
      exact (and_iff_left hqp).symm

theorem WindowList.close (h : WindowList w l) (hp : p ∈ l) :
    ∃ l', WindowList (winClose w p) l' ∧ ∀ q, q ∈ l' ↔ q ∈ l ∧ q ≠ p := by
  obtain ⟨l₁, l₂, rfl⟩ := append_of_mem hp
  exact ⟨l₁ ++ l₂, h.remove, mem_remove h.dlist.nodup⟩

theorem winLink_live {borderless : Bool} : (winLink w p borderless).live = update w.live p true := by
  unfold winLink
  dsimp only
  split <;> rfl

theorem WindowList.link {borderless : Bool} (h : WindowList w l) (hp : p ≠ 0) (hfree : w.live p = false) :
    WindowList (winLink w p borderless) (l ++ [p]) := by
  have hold : ∀ q ∈ l, q ≠ p := by
    rintro q hq rfl
    simp [(h.members q).mpr hq] at hfree
  refine ⟨?_, fun q => ?_⟩
  · have hempty : (decide (w.list = 0) || decide (w.top = 0)) = decide (l = []) := by
      simp [h.dlist.first_eq_zero, h.dlist.last_eq_zero]
    unfold winLink
    dsimp only
    rw [hempty]
    by_cases hl : l = []
    · subst hl
      have htop : w.top = 0 := h.dlist.last_eq_zero.mpr rfl
      exact h.dlist.append hp rfl (by simp [next]) (by simp [prev, htop]) (by simp) (by simp)
    have htop : w.top ≠ p := by
      obtain ⟨a, l', rfl⟩ := exists_cons_of_ne_nil hl
      exact hold _ (DSeg.last_mem h.dlist)
    simp only [hl, decide_false, Bool.false_eq_true, if_false]
    refine h.dlist.append hp ?_ ?_ ?_ (fun q hq => ?_) fun q hq => ?_
    · simp [hl, Sched.Windows.set]
    · simp [next, Sched.Windows.set, update_of_ne htop.symm]
    · simp [prev, Sched.Windows.set, update_of_ne htop.symm]
    · by_cases hq' : q = w.top
      · simp [next, Sched.Windows.set, hq']
      · simp [next, Sched.Windows.set, hq', hold q hq]
    · by_cases hq' : q = w.top
      · simp [prev, Sched.Windows.set, hq', update_of_ne htop]
      · simp [prev, Sched.Windows.set, hq', hold q hq]
  · rw [winLink_live]
    by_cases hq : q = p
    · simp [hq]
    · rw [update_of_ne hq, h.members q]
      simp [hq]

theorem winFocus_live : (winFocus w p).live = w.live := by
  unfold winFocus
  dsimp only
  split
  · rfl
  split
  · rfl
  · split <;> rfl

theorem WindowList.raise (h : WindowList w (l₁ ++ p :: l₂))
    (hstay : ¬ (p = 0 ∨ (w.window p).borderless = true ∨ p = w.top)) : WindowList (winFocus w p) (l₁ ++ l₂ ++ [p]) := by
  have hp : p ∈ l₁ ++ p :: l₂ := mem_append_right _ mem_cons_self
  have hmem : ∀ q, q ∈ l₁ ++ l₂ ++ [p] ↔ q ∈ l₁ ++ p :: l₂ := by
    intro q
    simp only [mem_append, mem_cons, not_mem_nil, or_false]
    tauto
  have htop : p ≠ w.top := fun he => hstay (.inr (.inr he))
  have h₂ : l₂ ≠ [] := fun he => htop (h.dlist.eq_last.mpr he)
  have hother : ∀ q ∈ l₁ ++ l₂, q ≠ p ∧ q ≠ 0 := fun q hq =>
    have hq' := (mem_remove h.dlist.nodup q).mp hq
    ⟨hq'.2, h.dlist.ne_zero hq'.1⟩
  have hnp : next w p ≠ p := h.dlist.seg.next_ne_self (by simp) hp
  refine ⟨?_, fun q => ?_⟩
  · by_cases hlist : p = w.list
    · have h₁ := h.dlist.eq_first.mp hlist
      have hprev : prev w p = 0 := h.dlist.prev_eq_zero.mpr h₁
      obtain ⟨hn, hp, hl, ht⟩ := winFocus_bottom hstay hlist rfl
      rw [hn, hp, hl, ht]
      refine h.dlist.moveToEnd h₂ (by rw [if_pos h₁]) ?_ ?_ (fun q hq => ?_) fun q hq => ?_
      · rw [update_self]
      · rw [update_of_ne hnp.symm, update_self]
      · rw [update_of_ne (hother q hq).1, update_apply, hprev, if_neg (hother q hq).2]
      · rw [update_apply, update_of_ne (hother q hq).1, hprev]
    · have h₁ : l₁ ≠ [] := fun he => hlist (h.dlist.eq_first.mpr he)
      have hprev : prev w p ≠ 0 := fun he => h₁ (h.dlist.prev_eq_zero.mp he)
      have hnext : next w p ≠ 0 := fun he => h₂ (h.dlist.next_eq_zero.mp he)
      obtain ⟨hn, hp, hl, ht⟩ := winFocus_middle hstay hlist hprev hnext
      rw [hn, hp, hl, ht]
      refine h.dlist.moveToEnd h₂ (by rw [if_neg h₁]) ?_ ?_ (fun q hq => ?_) fun q hq => ?_
      · rw [update_of_ne htop, update_self]
      · rw [update_self]
      · rw [update_apply, update_of_ne (hother q hq).1, update_apply]
      · rw [update_of_ne (hother q hq).1, update_apply]
  · rw [winFocus_live, h.members q, hmem]

theorem WindowList.focus (h : WindowList w l) (hp : p ∈ l) :
    ∃ l', WindowList (winFocus w p) l' ∧ ∀ q, q ∈ l' ↔ q ∈ l := by
  by_cases hstay : p = 0 ∨ (w.window p).borderless = true ∨ p = w.top
  · rw [winFocus, if_pos hstay]
    exact ⟨l, h, fun _ => Iff.rfl⟩
  obtain ⟨l₁, l₂, rfl⟩ := append_of_mem hp
  refine ⟨_, h.raise hstay, fun q => ?_⟩
  simp only [mem_append, mem_cons, not_mem_nil, or_false]
  tauto

theorem WindowList.setOwner {pid : Int} (h : WindowList w l) :
    WindowList (w.set q fun x => { x with ownerPid := pid }) l := by
  have hlinks : next (w.set q fun x => { x with ownerPid := pid }) = next w ∧
      prev (w.set q fun x => { x with ownerPid := pid }) = prev w := by
    constructor <;> funext r <;> by_cases hr : r = q <;> simp [next, prev, Sched.Windows.set, hr]
  refine ⟨?_, h.members⟩
  rw [hlinks.1, hlinks.2]
  exact h.dlist

end NyanOS.Windows
