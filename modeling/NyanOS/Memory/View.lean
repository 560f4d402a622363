import NyanOS.Memory.SpaceOps

/-! What a task sees of its address space: the bytes of its pages. -/

namespace NyanOS.Memory

abbrev Byte := BitVec 8

def byteOf (w : Word) (k : Nat) : Byte := w.extractLsb' (8 * k) 8

def setByte (w : Word) (k : Nat) (b : Byte) : Word :=
  (w &&& ~~~((0xFF : Word) <<< (8 * k))) ||| (b.setWidth 64 <<< (8 * k))

theorem getLsbD_byteMask (i : Nat) : (0xFF : Word).getLsbD i = decide (i < 8) := by
  by_cases hi : i < 64
  · interval_cases i <;> rfl
  rw [BitVec.getLsbD_of_ge _ _ (by omega)]
  simp
  omega

theorem byteOf_setByte {w : Word} {b : Byte} {j k : Nat} (hj : j < 8) (hk : k < 8) :
    byteOf (setByte w k b) j = if j = k then b else byteOf w j := by
  apply BitVec.eq_of_getLsbD_eq
  intro i hi
  simp only [byteOf, setByte, BitVec.getLsbD_extractLsb', hi, decide_true, Bool.true_and,
    BitVec.getLsbD_or, BitVec.getLsbD_and, BitVec.getLsbD_not, BitVec.getLsbD_shiftLeft,
    getLsbD_byteMask, BitVec.getLsbD_setWidth]
  have hlt : 8 * j + i < 64 := by omega
  by_cases hjk : j = k
  · subst hjk
    have hsub : 8 * j + i - 8 * j = i := by omega
    have hge : ¬ 8 * j + i < 8 * j := by omega
    simp [hlt, hsub, hge, hi]
    omega
  · rw [if_neg hjk, BitVec.getLsbD_extractLsb']
    rcases Nat.lt_or_gt_of_ne hjk with hlow | hhigh
    · have hbelow : 8 * j + i < 8 * k := by omega
      simp [hlt, hbelow, hi]
    have hge : ¬ 8 * j + i < 8 * k := by omega
    have hout : ¬ 8 * j + i - 8 * k < 8 := by omega
    have hzero : b.getLsbD (8 * j + i - 8 * k) = false := BitVec.getLsbD_of_ge _ _ (by omega)
    simp [hlt, hge, hout, hzero, hi]

/-- The bytes of a frame. -/
def pageBytes (content : Nat → Word) (offset : Nat) : Byte := byteOf (content (offset / 8)) (offset % 8)

/-- A store of one byte into a frame. -/
def storeByte (m : Machine) (frame offset : Nat) (b : Byte) : Machine :=
  m.set frame (offset / 8) (setByte (m.mem frame (offset / 8)) (offset % 8) b)

/-- A page as its task sees it. Shared pages are named by their frame. -/
inductive Page
  | absent
  | priv (bytes : Nat → Byte)
  | shm (frame : Nat)

def viewOf (mem : Nat → Nat → Word) (entry : Word) : Page :=
  if present entry then
    if shared entry then .shm (frameOf entry) else .priv (pageBytes (mem (frameOf entry)))
  else .absent

/-- The user half of an address space. -/
def pagesOf (mem : Nat → Nat → Word) (pml4 page : Nat) : Page :=
  if page < pageCount 3 then viewOf mem (leaf mem 3 pml4 page) else .absent

variable {base : Nat → Bool} {m m' : Machine} {mem mem' : Nat → Nat → Word}
  {kern roots rest fresh new : List Nat} {r r' page v f g i o child : Nat} {w e e' : Word} {b : Byte}

theorem pageBytes_storeByte : pageBytes ((storeByte m f o b).mem f) = Function.update (pageBytes (m.mem f)) o b := by
  funext j
  simp only [pageBytes, storeByte, mem_set, true_and, Function.update_apply]
  by_cases hword : j / 8 = o / 8
  · rw [if_pos hword, byteOf_setByte (Nat.mod_lt _ (by decide)) (Nat.mod_lt _ (by decide))]
    by_cases hj : j = o
    · simp [hj]
    · have hmod : ¬ j % 8 = o % 8 := by omega
      simp [hj, hmod, hword]
  · have hj : j ≠ o := fun h => hword (by rw [h])
    simp [hword, hj]

theorem pageBytes_zero : pageBytes (fun _ => 0) = fun _ => 0 := by
  funext j
  simp [pageBytes, byteOf]

theorem viewOf_sameTarget (h : SameTarget e e') (hm : Maps e (frameOf e) → mem' (frameOf e) = mem (frameOf e)) :
    viewOf mem' e' = viewOf mem e := by
  simp only [viewOf, h.present, h.shared, h.frame]
  by_cases hp : present e = true
  · by_cases hs : shared e = true
    · simp [hp, hs]
    · have hmaps : Maps e (frameOf e) := by simp [Maps, isPrivate, hp, hs]
      simp [hp, hs, hm hmaps]
  · simp [hp]

/-- The frames in use that are no tables keep their content. -/
abbrev KeepsPages (m m' : Machine) (roots : List Nat) : Prop := Keeps m m' (allTables m.mem roots)

theorem Inv.pagesOf_eq (hi : Inv base m kern roots) (hr : r ∈ roots) (hk : KeepsPages m m' roots)
    (hl : ∀ v < pageCount 3, SameTarget (leaf m.mem 3 r v) (leaf m'.mem 3 r' v)) :
    pagesOf m'.mem r' = pagesOf m.mem r := by
  funext v
  simp only [pagesOf]
  split
  · next hv =>
    apply viewOf_sameTarget (hl v hv)
    intro hmaps
    obtain ⟨ha, hn, _⟩ := hi.mapped r hr v hv _ hmaps
    exact hk _ ha.bit fun hmem => hn (List.mem_append_left _ hmem)
  · rfl

theorem Inv.kern_eq (hi : Inv base m kern roots) (hk : KeepsPages m m' roots) (hf : f ∈ kern) : m'.mem f = m.mem f := by
  refine hk f (hi.owned f (List.mem_append_right _ hf)).1.bit ?_
  intro hmem
  exact (List.nodup_append.mp hi.nodup).2.2 f hmem f hf rfl

theorem KeepsPages.of_tables (h : Keeps m m' (tables m.mem 3 r)) (hr : r ∈ roots) : KeepsPages m m' roots :=
  fun g hbit hg => h g hbit fun hmem => hg (mem_allTables.mpr ⟨r, hr, hmem⟩)

end NyanOS.Memory
