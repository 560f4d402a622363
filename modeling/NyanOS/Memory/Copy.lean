import NyanOS.Memory.Walk

/-!
Freeing a tree drops one reference for each of its private entries and for each table. Copying
a tree adds the same references and leaves both trees with the same, no longer writable,
private pages; a copy that fails takes everything back but the writable bits.
-/

namespace NyanOS.Memory

open List

variable {m m' m₁ m'' : Machine} {mem mem' : Nat → Nat → Word} {p q q' : Pmm}
  {depth table parent child kernPml4 k g j c n : Nat} {new l : List Nat}

/-- The frames that `vmm_free_table` drops, in its order. -/
def freed (mem : Nat → Nat → Word) : Nat → Nat → List Nat
  | 0, table => (range (limit 0)).flatMap (fun i =>
      if isPrivate (mem table i) then [frameOf (mem table i)] else []) ++ [table]
  | depth + 1, table => (range (limit (depth + 1))).flatMap (fun i =>
      if present (mem table i) then freed mem depth (frameOf (mem table i)) else []) ++ [table]

theorem foldl_flatMap_eq {f : Pmm → Nat → Pmm} {g : Nat → List Nat}
    (h : ∀ p, ∀ i ∈ l, f p i = (g i).foldl pmmFreeFrame p) : l.foldl f p = (l.flatMap g).foldl pmmFreeFrame p := by
  induction l generalizing p with
  | nil => rfl
  | cons i l ih =>
    rw [foldl_cons, flatMap_cons, foldl_append, h p i (by simp)]
    exact ih fun p j hj => h p j (by simp [hj])

theorem freeTable_eq : freeTable mem depth table p = (freed mem depth table).foldl pmmFreeFrame p := by
  induction depth generalizing table p with
  | zero =>
    simp only [freeTable, freed, foldl_append, foldl_cons, foldl_nil]
    refine congrArg (pmmFreeFrame · table) (foldl_flatMap_eq ?_)
    intro p i _
    split <;> rfl
  | succ depth ih =>
    simp only [freeTable, freed, foldl_append, foldl_cons, foldl_nil]
    refine congrArg (pmmFreeFrame · table) (foldl_flatMap_eq ?_)
    intro p i _
    split
    · exact ih
    · rfl

theorem count_leaves (hk : k ≤ 512) : ((range k).flatMap (fun i =>
    if isPrivate (mem table i) then [frameOf (mem table i)] else [])).count g = refsUpTo mem 0 table k g := by
  induction k with
  | zero => simp
  | succ k ih =>
    rw [range_succ, flatMap_append, count_append, ih (by omega), refsUpTo_zero_succ (by omega)]
    congr 1
    by_cases hp : isPrivate (mem table k) = true
    · by_cases hg : frameOf (mem table k) = g <;> simp [hp, hg, Maps]
    · simp [hp, Maps]

theorem count_freed (hd : depth ≤ 3) : (freed mem depth table).count g =
    refsIn mem depth table g + (tables mem depth table).count g := by
  induction depth generalizing table with
  | zero =>
    rw [freed, count_append, count_leaves limit_le]
    rfl
  | succ depth ih =>
    have hloop : ∀ k ≤ 512, ((range k).flatMap (fun i =>
        if present (mem table i) then freed mem depth (frameOf (mem table i)) else [])).count g =
        refsUpTo mem (depth + 1) table k g + ((range k).flatMap (below mem depth table)).count g := by
      intro k hk
      induction k with
      | zero => simp
      | succ k ihk =>
        rw [range_succ, flatMap_append, count_append, ihk (by omega),
          flatMap_append, count_append, refsUpTo_succ (by omega) (by omega)]
        by_cases hp : present (mem table k) = true
        · simp only [flatMap_cons, flatMap_nil, append_nil, hp, if_true, below, ih (by omega)]
          omega
        · simp [hp, below]
    rw [freed, tables_succ_eq, count_append, hloop _ limit_le, refsIn_eq]
    simp only [count_cons, count_nil]
    omega

theorem mem_freed (hd : depth ≤ 3) : g ∈ freed mem depth table ↔
    (∃ v < pageCount depth, Maps (leaf mem depth table v) g) ∨ g ∈ tables mem depth table := by
  rw [← count_pos_iff, count_freed hd, ← refsIn_pos, ← count_pos_iff (l := tables _ _ _)]
  omega

/-- A fork leaves this in the parent, for a present or an absent entry. -/
def parentEntry (entry : Word) : Word := if present entry then forkEntry entry else entry

def childEntry (entry : Word) : Word := if present entry then forkEntry entry else 0

theorem maps_parentEntry {e : Word} : Maps (parentEntry e) g ↔ Maps e g := by
  by_cases hp : present e = true
  · simp [parentEntry, hp, Maps]
  · simp [parentEntry, hp]

theorem maps_childEntry {e : Word} : Maps (childEntry e) g ↔ Maps e g := by
  by_cases hp : present e = true
  · simp [childEntry, hp, Maps]
  · simp [childEntry, hp, Maps, isPrivate]

/-- What a copy needs of the tree it reads. -/
structure CopyPre (m : Machine) (depth table : Nat) : Prop where
  tree : TreeOk m depth table
  mapped : ∀ v f, tableIndex depth v < limit depth → Maps (leaf m.mem depth table v) f →
    m.pmm.Allocated f ∧ 0 < m.pmm.refCounts f
  room : ∀ g, 0 < refsIn m.mem depth table g →
    m.pmm.refCounts g + refsIn m.mem depth table g < 2 ^ 32

structure CopyOk (m m' : Machine) (depth parent child : Nat) : Prop where
  grow : Grow m.pmm m'.pmm (tables m'.mem depth child) (refsIn m.mem depth parent)
  keeps : Keeps m m' (tables m.mem depth parent)
  parentTables : tables m'.mem depth parent = tables m.mem depth parent
  parentLeaf : ∀ v, tableIndex depth v < limit depth →
    leaf m'.mem depth parent v = parentEntry (leaf m.mem depth parent v)
  childLeaf : ∀ v, tableIndex depth v < limit depth →
    leaf m'.mem depth child v = childEntry (leaf m.mem depth parent v)

/-- The allocator has the same frames in use, with the same counts. -/
structure SameUse (p q : Pmm) : Prop where
  bitmap : ∀ g, q.bitmap g = p.bitmap g
  refs : ∀ g, p.bitmap g = true → q.refCounts g = p.refCounts g
  total : q.totalPages = p.totalPages
  ok : q.Ok

structure CopyFailed (m m' : Machine) (depth parent : Nat) : Prop where
  use : SameUse m.pmm m'.pmm
  keeps : Keeps m m' (tables m.mem depth parent)
  parentTables : tables m'.mem depth parent = tables m.mem depth parent
  parentLeaf : ∀ v, tableIndex depth v < limit depth →
    leaf m'.mem depth parent v = leaf m.mem depth parent v ∨
      leaf m'.mem depth parent v = parentEntry (leaf m.mem depth parent v)

/-- The level-1 loop of the copy after `k` entries. -/
structure LeafLoop (m m' : Machine) (parent child k : Nat) : Prop where
  grow : Grow m.pmm m'.pmm [child] (refsUpTo m.mem 0 parent k)
  parentWord : ∀ j, m'.mem parent j =
    if j < k then parentEntry (m.mem parent j) else m.mem parent j
  childWord : ∀ j, m'.mem child j = if j < k then childEntry (m.mem parent j) else 0
  other : ∀ g, g ≠ parent → g ≠ child → m'.mem g = m.mem g

theorem Grow.incRef {inc inc' : Nat → Nat} {f : Nat} (hg : Grow p q new inc)
    (hf : f ∉ new) (hroom : p.refCounts f + inc' f < 2 ^ 32)
    (hinc : ∀ g, inc' g = inc g + if f = g then 1 else 0) : Grow p (pmmIncRef q f) new inc' := by
  refine ⟨hg.nodup, hg.fresh, hg.bitmap, ?_, hg.total, ok_incRef hg.ok⟩
  intro g
  rw [refCounts_incRef, hg.refs, hg.refs]
  by_cases hgf : g = f
  · subst hgf
    have heq := hinc g
    simp only [if_true] at heq
    simp only [if_true, hf, if_false]
    rw [Nat.mod_eq_of_lt (by omega), heq, add_assoc]
  · have heq := hinc g
    rw [if_neg (Ne.symm hgf), add_zero] at heq
    simp only [if_neg hgf, heq]

theorem Grow.congr_inc {inc inc' : Nat → Nat} (hg : Grow p q new inc)
    (h : ∀ g, inc' g = inc g) : Grow p q new inc' := by
  obtain rfl : inc' = inc := funext h
  exact hg

theorem LeafLoop.next (h : LeafLoop m m' parent child k)
    (hgrow : Grow m.pmm m''.pmm [child] (refsUpTo m.mem 0 parent (k + 1)))
    (hparent : ∀ j, m''.mem parent j = if j = k then parentEntry (m.mem parent k) else m'.mem parent j)
    (hchild : ∀ j, m''.mem child j = if j = k then childEntry (m.mem parent k) else m'.mem child j)
    (hother : ∀ g, g ≠ parent → g ≠ child → m''.mem g = m'.mem g) : LeafLoop m m'' parent child (k + 1) := by
  refine ⟨hgrow, fun j => ?_, fun j => ?_, fun g hgp hgc => (hother g hgp hgc).trans (h.other g hgp hgc)⟩
  · rw [hparent, h.parentWord]
    grind
  · rw [hchild, h.childWord]
    grind

section
variable (hpre : CopyPre m 0 parent) (hne : parent ≠ child)
include hpre hne

theorem leafLoop_step (hk : k < 512)
    (h : LeafLoop m m' parent child k) : LeafLoop m (copyLeaf parent child m' k) parent child (k + 1) := by
  have hentry : m'.mem parent k = m.mem parent k := by simp [h.parentWord]
  have hempty : m'.mem child k = 0 := by simp [h.childWord]
  have hleaf : leaf m.mem 0 parent k = m.mem parent k := by
    simp [leaf, tableIndex, Nat.mod_eq_of_lt hk]
  have hrefs : ∀ g, refsUpTo m.mem 0 parent (k + 1) g = refsUpTo m.mem 0 parent k g +
      if Maps (m.mem parent k) g then 1 else 0 := fun g => refsUpTo_zero_succ hk
  by_cases hp : present (m.mem parent k) = true
  · by_cases hs : shared (m.mem parent k) = true
    · have hstep : copyLeaf parent child m' k = m'.set child k (m.mem parent k) := by
        simp [copyLeaf, hentry, hp, hs]
      rw [hstep]
      refine h.next (h.grow.congr_inc fun g => by simp [hrefs, Maps, isPrivate, hs]) (fun j => ?_) (fun j => ?_)
        fun g _ hgc => mem_set_of_ne hgc
      · rw [mem_set_of_ne hne]
        split
        · next hj => simp [hj, parentEntry, hp, forkEntry, hs, hentry]
        · rfl
      · simp [mem_set, childEntry, hp, forkEntry, hs]
    · have hmaps : Maps (leaf m.mem 0 parent k) (frameOf (m.mem parent k)) := by
        simp [hleaf, Maps, isPrivate, hp, hs]
      have hstep : copyLeaf parent child m' k = { ((m'.set parent k (clearWritable (m.mem parent k))).set child k
              (clearWritable (m.mem parent k))) with
            pmm := pmmIncRef m'.pmm (frameOf (m.mem parent k)) } := by
        simp [copyLeaf, hentry, hp, hs, mem_set]
      have hbit := (hpre.mapped k _ (tableIndex_lt_limit_of_lt (by decide)) hmaps).1.bit
      have hroom := hpre.room (frameOf (m.mem parent k)) (refsIn_pos.mpr ⟨k, lt_of_lt_of_le hk (by decide), hmaps⟩)
      have hle : refsUpTo m.mem 0 parent (k + 1) (frameOf (m.mem parent k)) ≤
          refsIn m.mem 0 parent (frameOf (m.mem parent k)) := refsUpTo_mono hk
      rw [hstep]
      refine h.next (h.grow.incRef (h.grow.not_new hbit) (by omega) fun g => ?_) (fun j => ?_) (fun j => ?_)
        fun g hgp hgc => (mem_set_of_ne hgc).trans (mem_set_of_ne hgp)
      · rw [hrefs]
        simp [Maps, isPrivate, hp, hs]
      · simp [mem_set, hne, parentEntry, hp, forkEntry, hs]
      · simp [mem_set, Ne.symm hne, childEntry, hp, forkEntry, hs]
  · have hstep : copyLeaf parent child m' k = m' := by simp [copyLeaf, hentry, hp]
    rw [hstep]
    refine h.next (h.grow.congr_inc fun g => by simp [hrefs, Maps, isPrivate, hp]) (fun j => ?_) (fun j => ?_)
      fun _ _ _ => rfl
    · split
      · next hj => simp [hj, parentEntry, hp, hentry]
      · rfl
    · split
      · next hj => simp [hj, childEntry, hp, hempty]
      · rfl

theorem leafLoop_run (h : LeafLoop m m₁ parent child 0) (hk : k ≤ 512) :
    LeafLoop m ((range k).foldl (copyLeaf parent child) m₁) parent child k := by
  induction k with
  | zero => exact h
  | succ k ih =>
    rw [range_succ, foldl_append]
    exact leafLoop_step hpre hne (by omega) (ih (by omega))

theorem copyLeaves_spec (h : LeafLoop m m₁ parent child 0) :
    LeafLoop m (copyLeaves parent child m₁) parent child (limit 0) :=
  leafLoop_run hpre hne h limit_le

end

theorem alloc_child (ht : TreeOk m depth parent) : (pmmAllocFrame m.pmm = (0, m.pmm)) ∨
    ∃ child, pmmAllocFrame m.pmm = (child, m.pmm.take child) ∧ child ≠ 0 ∧ child < 2 ^ 52 ∧
      m.pmm.bitmap child = false ∧ parent ≠ child ∧
      Grow m.pmm (m.pmm.take child) [child] fun _ => 0 := by
  rcases pmmAllocFrame_cases ht.pmm with ⟨hfull, _⟩ | ⟨c, hc, hlow, hhigh, hclear⟩
  · exact .inl hfull
  right
  have hbit := ht.bits parent table_mem_tables
  exact ⟨c, hc, by omega, lt_of_lt_of_le hhigh ht.pmm.total, hclear, Pmm.bit_ne hbit hclear,
    grow_take ht.pmm hlow hhigh hclear⟩

theorem CopyFailed.refl (hok : m.pmm.Ok) : CopyFailed m m depth parent :=
  ⟨⟨fun _ => rfl, fun _ _ => rfl, rfl, hok⟩, fun _ _ _ => rfl, rfl, fun _ _ => .inl rfl⟩

/-- The result of a copy: a new tree, or failure. -/
def CopySpec (m : Machine) (depth parent : Nat) (r : Nat × Machine) : Prop :=
  (r.1 ≠ 0 ∧ r.1 < 2 ^ 52 ∧ CopyOk m r.2 depth parent r.1) ∨
    (r.1 = 0 ∧ CopyFailed m r.2 depth parent)

theorem leafLoop_start (hne : parent ≠ child) (hgrow : Grow m.pmm (m.pmm.take child) [child] fun _ => 0) :
    LeafLoop m ((m.take child).fill child fun _ => 0) parent child 0 := by
  refine ⟨hgrow.congr_inc fun g => refsUpTo_zero, ?_, ?_, ?_⟩
  · intro j
    rw [mem_fill_of_ne _ hne]
    simp
  · intro j
    rw [mem_fill_self]
    simp
  · intro g _ hgc
    rw [mem_fill_of_ne _ hgc]

theorem copyOk_of_leafLoop (hclear : m.pmm.bitmap child = false)
    (h : LeafLoop m m' parent child (limit 0)) : CopyOk m m' 0 parent child := by
  refine ⟨?_, ?_, tables_zero.trans tables_zero.symm, ?_, ?_⟩
  · rw [tables_zero]
    exact h.grow.congr_inc fun g => refsIn_eq
  · intro g hg hmem
    exact h.other g (by simpa [tables] using hmem) (Pmm.bit_ne hg hclear)
  · intro v hv
    simp only [leaf, h.parentWord, hv, if_true]
  · intro v hv
    simp only [leaf, h.childWord, hv, if_true]

theorem copyLeafTable_spec (hpre : CopyPre m 0 parent) : CopySpec m 0 parent (copyHierarchy kernPml4 0 parent m) := by
  rcases alloc_child hpre.tree with hfull | ⟨c, hc, hc0, hc52, hclear, hne, hgrow⟩
  · have hfail : copyHierarchy kernPml4 0 parent m = (0, m) := by simp [copyHierarchy, hfull]
    rw [hfail]
    exact .inr ⟨rfl, CopyFailed.refl hpre.tree.pmm⟩
  have hrun : copyHierarchy kernPml4 0 parent m = (c, copyLeaves parent c ((m.take c).fill c fun _ => 0)) := by
    simp [copyHierarchy, hc, hc0]
  have hloop := copyLeaves_spec hpre hne (leafLoop_start hne hgrow)
  generalize copyLeaves parent c _ = m' at hrun hloop
  rw [hrun]
  exact .inl ⟨hc0, hc52, copyOk_of_leafLoop hclear hloop⟩

/-- The upper-level loop of the copy after `k` entries. -/
structure TreeLoop (m m' : Machine) (depth parent child k : Nat) : Prop where
  grow : Grow m.pmm m'.pmm (tables m'.mem (depth + 1) child) (refsUpTo m.mem (depth + 1) parent k)
  keeps : Keeps m m' (tables m.mem (depth + 1) parent)
  top : m'.mem parent = m.mem parent
  todo : ∀ j, k ≤ j → j < limit (depth + 1) → ∀ g ∈ below m.mem depth parent j, m'.mem g = m.mem g
  done : ∀ j < k, j < limit (depth + 1) → present (m.mem parent j) = true →
    tables m'.mem depth (frameOf (m.mem parent j)) = tables m.mem depth (frameOf (m.mem parent j)) ∧
    ∀ v, leaf m'.mem depth (frameOf (m.mem parent j)) v =
      parentEntry (leaf m.mem depth (frameOf (m.mem parent j)) v)
  childDone : ∀ j < k, j < limit (depth + 1) →
    present (m'.mem child j) = present (m.mem parent j) ∧
    (present (m.mem parent j) = true → ∀ v, leaf m'.mem depth (frameOf (m'.mem child j)) v =
      childEntry (leaf m.mem depth (frameOf (m.mem parent j)) v))
  childTodo : ∀ j, k ≤ j → m'.mem child j = 0

theorem TreeLoop.ne_child (h : TreeLoop m m' depth parent child k) (hg : m.pmm.bitmap g = true) : g ≠ child :=
  Pmm.bit_ne hg (h.grow.fresh child table_mem_tables).2.2

/-- The tree below a table is as it was. -/
def SameTree (mem mem' : Nat → Nat → Word) (depth table : Nat) : Prop :=
  tables mem' depth table = tables mem depth table ∧ ∀ v, leaf mem' depth table v = leaf mem depth table v

theorem same_below (hd : depth < 3) (h : ∀ g ∈ tables mem depth table, mem' g = mem g) : SameTree mem mem' depth table :=
  ⟨tables_congr h, fun _ => leaf_congr h (tableIndex_lt_limit_of_lt hd) (by omega)⟩

theorem below_of_present (hp : present (mem table k) = true) :
    below mem depth table k = tables mem depth (frameOf (mem table k)) := if_pos hp

/-- A frame that is mapped below the parent is in use, so it is none of the new tables. -/
theorem CopyPre.refs_zero {inc : Nat → Nat} (hpre : CopyPre m depth parent)
    (hg : Grow m.pmm q new inc) {f : Nat} (hf : f ∈ new) : refsIn m.mem depth parent f = 0 := by
  by_contra hne
  obtain ⟨v, hv, hmaps⟩ := refsIn_pos.mp (pos_of_ne_zero hne)
  exact hg.not_new (hpre.mapped v f (tableIndex_lt_limit hv) hmaps).1.bit hf

theorem TreeLoop.below_cases (h : TreeLoop m m' depth parent child k) (hd : depth < 3)
    (hj : j < limit (depth + 1)) (hpj : present (m.mem parent j) = true) :
    tables m'.mem depth (frameOf (m.mem parent j)) = tables m.mem depth (frameOf (m.mem parent j)) ∧
    ∀ v, leaf m'.mem depth (frameOf (m.mem parent j)) v = leaf m.mem depth (frameOf (m.mem parent j)) v ∨
      leaf m'.mem depth (frameOf (m.mem parent j)) v = parentEntry (leaf m.mem depth (frameOf (m.mem parent j)) v) := by
  by_cases hlt : j < k
  · obtain ⟨htab, hlf⟩ := h.done j hlt hj hpj
    exact ⟨htab, fun v => .inr (hlf v)⟩
  · obtain ⟨htab, hlf⟩ := same_below hd fun g hg => h.todo j (by omega) hj g (below_of_present hpj ▸ hg)
    exact ⟨htab, fun v => .inl (hlf v)⟩

/-- The loop at an entry with a table below it. -/
structure AtTable (m m' : Machine) (depth parent child k : Nat) : Prop where
  loop : TreeLoop m m' depth parent child k
  pre : CopyPre m (depth + 1) parent
  deep : depth < 3
  entry : k < limit (depth + 1)
  present : present (m.mem parent k) = true

namespace AtTable

variable (h : AtTable m m' depth parent child k)
include h

theorem same : SameTree m.mem m'.mem depth (frameOf (m.mem parent k)) := by
  refine same_below h.deep fun g hg => h.loop.todo k le_rfl h.entry g ?_
  rwa [below_of_present h.present]

theorem refs : refsIn m'.mem depth (frameOf (m.mem parent k)) g = refsIn m.mem depth (frameOf (m.mem parent k)) g :=
  refsIn_congr fun v _ => by rw [h.same.2]

theorem refs_le : refsUpTo m.mem (depth + 1) parent k g + refsIn m.mem depth (frameOf (m.mem parent k)) g ≤
    refsIn m.mem (depth + 1) parent g := by
  have hlim : limit (depth + 1) ≤ 512 := limit_le
  have hk := h.entry
  have hsucc : refsUpTo m.mem (depth + 1) parent (k + 1) g = _ := refsUpTo_succ (by omega) h.deep
  rw [if_pos h.present] at hsucc
  rw [← hsucc]
  exact refsUpTo_mono hk

theorem copyPre : CopyPre m' depth (frameOf (m.mem parent k)) := by
  obtain ⟨htables, hleaf⟩ := h.same
  have hchild := h.pre.tree.child h.entry h.present
  refine ⟨⟨h.loop.grow.ok, htables ▸ hchild.nodup, ?_⟩, ?_, ?_⟩
  · intro g hg
    rw [htables] at hg
    exact h.loop.grow.bit_mono (hchild.bits g hg)
  · intro v f _ hmaps
    rw [hleaf] at hmaps
    -- the same entry, reached from the parent through entry `k`
    have hpage : tableIndex (depth + 1) (k * 512 ^ (depth + 1) + v % 512 ^ (depth + 1)) = k := by
      have hlim : limit (depth + 1) ≤ 512 := limit_le
      exact tableIndex_top (lt_of_lt_of_le h.entry hlim) (Nat.mod_lt _ (Nat.pow_pos (by decide)))
    have hv : leaf m.mem (depth + 1) parent (k * 512 ^ (depth + 1) + v % 512 ^ (depth + 1)) =
        leaf m.mem depth (frameOf (m.mem parent k)) v := by
      have hmod : leaf m.mem depth (frameOf (m.mem parent k)) (v % 512 ^ (depth + 1)) =
          leaf m.mem depth (frameOf (m.mem parent k)) v := by
        conv_rhs => rw [← Nat.div_add_mod' v (512 ^ (depth + 1)), leaf_shift]
      simp only [leaf, hpage, h.present, if_true, leaf_shift, hmod]
    obtain ⟨halloc, hpos⟩ := h.pre.mapped _ f (by rw [hpage]; exact h.entry) (hv ▸ hmaps)
    have hgrow := h.loop.grow
    refine ⟨⟨halloc.low, hgrow.total ▸ halloc.high, hgrow.bit_mono halloc.bit⟩, ?_⟩
    rw [hgrow.refs, if_neg (hgrow.not_new halloc.bit)]
    omega
  · intro g hpos
    rw [h.refs] at hpos ⊢
    rw [h.loop.grow.refs]
    have hle := h.refs_le (g := g)
    have hroom := h.pre.room g (by omega)
    by_cases hnew : g ∈ tables m'.mem (depth + 1) child
    · have hzero := h.pre.refs_zero h.loop.grow hnew
      simp only [hnew, if_true]
      omega
    · simp only [hnew, if_false]
      omega

/-- Whatever happens below the entry keeps the child tree and the other frames in use. -/
theorem kept (hkeep : Keeps m' m₁ (tables m'.mem depth (frameOf (m.mem parent k)))) :
    (∀ g ∈ tables m'.mem (depth + 1) child, m₁.mem g = m'.mem g) ∧
    ∀ g, m.pmm.bitmap g = true → g ∉ below m.mem depth parent k → m₁.mem g = m'.mem g := by
  have hgrow := h.loop.grow
  have hbits := (h.pre.tree.child h.entry h.present).bits
  rw [h.same.1] at hkeep
  refine ⟨fun g hg => hkeep g (hgrow.bit_new hg) fun hmem => hgrow.not_new (hbits g hmem) hg, fun g hg hmem => ?_⟩
  exact hkeep g (hgrow.bit_mono hg) (below_of_present h.present ▸ hmem)

theorem other (hout : ∀ g, m.pmm.bitmap g = true → g ∉ below m.mem depth parent k → m₁.mem g = m'.mem g)
    (hj : j < limit (depth + 1)) (hjk : j ≠ k) (hpj : Memory.present (m.mem parent j) = true) :
    SameTree m'.mem m₁.mem depth (frameOf (m.mem parent j)) := by
  have hap := nodup_tables_succ.mp h.pre.tree.nodup
  refine same_below h.deep fun g hg => ?_
  rw [(h.loop.below_cases h.deep hj hpj).1] at hg
  exact hout g ((h.pre.tree.child hj hpj).bits g hg) (hap.below_disjoint hj h.entry hjk (below_of_present hpj ▸ hg))

end AtTable

theorem treeLoop_skip (h : TreeLoop m m' depth parent child k) (hd : depth < 3)
    (hk : k < limit (depth + 1)) (hp : present (m.mem parent k) = false) :
    TreeLoop m m' depth parent child (k + 1) := by
  have hlim : limit (depth + 1) ≤ 512 := limit_le
  refine ⟨h.grow.congr_inc ?_, h.keeps, h.top, ?_, ?_, ?_, ?_⟩
  · intro g
    rw [refsUpTo_succ (by omega) hd, hp]
    simp
  · intro j hj
    exact h.todo j (by omega)
  · intro j hj hlt hpj
    have hjk : j ≠ k := fun hjk => Bool.false_ne_true (hp.symm.trans (hjk ▸ hpj))
    exact h.done j (by omega) hlt hpj
  · intro j hj hlt
    by_cases hjk : j = k
    · subst hjk
      rw [h.childTodo j le_rfl, hp]
      exact ⟨rfl, by simp⟩
    · exact h.childDone j (by omega) hlt
  · intro j hj
    exact h.childTodo j (by omega)

theorem treeLoop_step (h : AtTable m m' depth parent child k) (hc : c < 2 ^ 52)
    (hcopy : CopyOk m' m₁ depth (frameOf (m.mem parent k)) c) :
    TreeLoop m (m₁.set child k (withFlags c (m.mem parent k))) depth parent child (k + 1) := by
  have hlim : limit (depth + 1) ≤ 512 := limit_le
  have hk := h.entry
  have hap := nodup_tables_succ.mp h.pre.tree.nodup
  obtain ⟨htables, hleaf⟩ := h.same
  obtain ⟨hkept, hout⟩ := h.kept hcopy.keeps
  have hne : ∀ g, m.pmm.bitmap g = true → g ≠ child := fun g hg => h.loop.ne_child hg
  have hchildap := nodup_tables_succ.mp h.loop.grow.nodup
  -- the copy's own tables are new, so none of them is the child's top table
  have hcnew : ∀ g ∈ tables m₁.mem depth c, g ≠ child := by
    rintro g hg rfl
    exact hcopy.grow.not_new (h.loop.grow.bit_new table_mem_tables) hg
  have hword : ∀ j, j ≠ k → (m₁.set child k (withFlags c (m.mem parent k))).mem child j = m'.mem child j := by
    intro j hj
    rw [mem_set, if_neg (fun hjk => hj hjk.2), hkept child table_mem_tables]
  have hnewword : (m₁.set child k (withFlags c (m.mem parent k))).mem child k = withFlags c (m.mem parent k) := by
    simp [mem_set]
  have hpmm : (m₁.set child k (withFlags c (m.mem parent k))).pmm = m₁.pmm := rfl
  have hset : ∀ g, g ≠ child → (m₁.set child k (withFlags c (m.mem parent k))).mem g = m₁.mem g :=
    fun g hg => mem_set_of_ne hg
  generalize m₁.set child k (withFlags c (m.mem parent k)) = m₂ at hword hnewword hpmm hset ⊢
  have hout₂ : ∀ g, m.pmm.bitmap g = true → g ∉ below m.mem depth parent k → m₂.mem g = m'.mem g :=
    fun g hg hmem => (hset g (hne g hg)).trans (hout g hg hmem)
  obtain ⟨hctables, hcleaf⟩ := same_below h.deep fun g hg => hset g (hcnew g hg)
  have hperm : (tables m₂.mem (depth + 1) child).Perm (tables m₁.mem depth c ++ tables m'.mem (depth + 1) child) := by
    refine tables_replace hk (fun j _ hj => hword j hj) ?_ ?_
    · intro j hj hjk g hg
      have hgc : g ≠ child := by
        rintro rfl
        exact hchildap.top_not_below hj hg
      rw [hset g hgc, hkept g (below_subset hj hg)]
    · have hold : below m'.mem depth child k = [] := by
        simp [below, h.loop.childTodo k le_rfl]
      have hnow : below m₂.mem depth child k = tables m₁.mem depth c := by
        simp only [below, hnewword, present_withFlags, h.present, if_true, frameOf_withFlags hc, hctables]
      rw [hold, hnow, append_nil]
  refine ⟨?_, ?_, ?_, ?_, ?_, ?_, ?_⟩
  · rw [hpmm]
    have htrans := h.loop.grow.trans hcopy.grow (by
      intro g hg
      have hle := h.refs_le (g := g)
      have hzero := h.pre.refs_zero h.loop.grow hg
      rw [h.refs]
      omega)
    refine (htrans.perm (perm_append_comm.trans hperm.symm)).congr_inc ?_
    intro g
    rw [refsUpTo_succ (by omega) h.deep, if_pos h.present, h.refs]
  · intro g hg hmem
    rw [hout₂ g hg fun hb => hmem (below_subset hk hb), h.loop.keeps g hg hmem]
  · rw [hout₂ parent (h.pre.tree.bits parent table_mem_tables) (hap.top_not_below hk), h.loop.top]
  · intro j hj hlt g hg
    have hbit := h.pre.tree.bits g (below_subset hlt hg)
    rw [hout₂ g hbit (hap.below_disjoint hlt hk (by omega) hg), h.loop.todo j (by omega) hlt g hg]
  · intro j hj hlt hpj
    by_cases hjk : j = k
    · subst hjk
      obtain ⟨htab, hlf⟩ := same_below h.deep fun g hg => hset g (by
        rw [hcopy.parentTables, htables] at hg
        exact hne g ((h.pre.tree.child hlt hpj).bits g hg))
      refine ⟨by rw [htab, hcopy.parentTables, htables], fun v => ?_⟩
      rw [hlf, hcopy.parentLeaf v (tableIndex_lt_limit_of_lt h.deep), hleaf]
    · obtain ⟨htab, hlf⟩ := h.loop.done j (by omega) hlt hpj
      obtain ⟨htab₂, hlf₂⟩ := h.other hout₂ hlt hjk hpj
      exact ⟨htab₂.trans htab, fun v => (hlf₂ v).trans (hlf v)⟩
  · intro j hj hlt
    by_cases hjk : j = k
    · subst hjk
      rw [hnewword, present_withFlags]
      refine ⟨rfl, fun _ v => ?_⟩
      rw [frameOf_withFlags hc, hcleaf, hcopy.childLeaf v (tableIndex_lt_limit_of_lt h.deep), hleaf]
    · obtain ⟨hpres, hlf⟩ := h.loop.childDone j (by omega) hlt
      rw [hword j hjk]
      refine ⟨hpres, fun hpj v => ?_⟩
      have hpc : present (m'.mem child j) = true := hpres.trans hpj
      obtain ⟨-, hlf₂⟩ := same_below h.deep fun g hg => (hset g (by
        rintro rfl
        exact hchildap.top j hlt hpc hg)).trans (hkept g (tables_child hlt hpc g hg))
      rw [hlf₂, hlf hpj]
  · intro j hj
    rw [hword j (by omega)]
    exact h.loop.childTodo j (by omega)

theorem tables_succ_congr (htop : mem' table = mem table) (h : ∀ j < limit (depth + 1), present (mem table j) = true →
      tables mem' depth (frameOf (mem table j)) = tables mem depth (frameOf (mem table j))) :
    tables mem' (depth + 1) table = tables mem (depth + 1) table := by
  rw [tables_succ_eq, tables_succ_eq]
  congr 1
  refine flatMap_congr ?_
  intro j hj
  simp only [below, htop]
  by_cases hp : present (mem table j) = true
  · simp only [hp, if_true]
    exact h j (mem_range.mp hj) hp
  · simp [hp]

theorem TreeLoop.child_refs (h : TreeLoop m m' depth parent child k) (hd : depth < 3) (hk : k ≤ limit (depth + 1)) :
    refsIn m'.mem (depth + 1) child g = refsUpTo m.mem (depth + 1) parent k g := by
  have hlim : limit (depth + 1) ≤ 512 := limit_le
  have hprefix : ∀ j ≤ limit (depth + 1), refsUpTo m'.mem (depth + 1) child j g =
      refsUpTo m.mem (depth + 1) parent (min j k) g := by
    intro j hj
    induction j with
    | zero => simp
    | succ j ih =>
      rw [refsUpTo_succ (by omega) hd, ih (by omega)]
      by_cases hjk : j < k
      · rw [min_eq_left (by omega), min_eq_left (by omega), refsUpTo_succ (by omega) hd]
        obtain ⟨hpres, hlf⟩ := h.childDone j hjk (by omega)
        rw [hpres]
        by_cases hp : present (m.mem parent j) = true
        · rw [if_pos hp, if_pos hp]
          congr 1
          refine refsIn_congr ?_
          intro v _
          rw [hlf hp, maps_childEntry]
        · rw [if_neg hp, if_neg hp]
      · rw [min_eq_right (by omega), min_eq_right (by omega), h.childTodo j (by omega)]
        simp
  rw [refsIn_eq, hprefix _ le_rfl, min_eq_right hk]

theorem Grow.undo {inc : Nat → Nat} (h : Grow p q new inc) (huse : SameUse q q')
    (hcount : ∀ g, l.count g = inc g + new.count g)
    (hmapped : ∀ g, 0 < inc g → p.Allocated g ∧ 0 < p.refCounts g) : SameUse p (l.foldl pmmFreeFrame q') := by
  have hnewcount : ∀ g ∈ new, l.count g = 1 := by
    intro g hg
    have hzero : inc g = 0 := by
      by_contra hne
      exact h.not_new (hmapped g (pos_of_ne_zero hne)).1.bit hg
    rw [hcount, hzero, count_eq_one_of_mem h.nodup hg]
  have holdcount : ∀ g, g ∉ new → l.count g = inc g := by
    intro g hg
    rw [hcount, count_eq_zero.mpr hg, add_zero]
  have hrefs : ∀ g, q.bitmap g = true → q'.refCounts g = if g ∈ new then 1 else p.refCounts g + inc g := by
    intro g hg
    rw [huse.refs g hg, h.refs]
  have hbits : ∀ g, q'.bitmap g = (p.bitmap g || decide (g ∈ new)) := by
    intro g
    rw [huse.bitmap, h.bitmap]
  have htotal : q'.totalPages = p.totalPages := huse.total.trans h.total
  have halloc : ∀ g ∈ l, q'.Allocated g := by
    intro g hg
    by_cases hnew : g ∈ new
    · obtain ⟨hlow, hhigh, _⟩ := h.fresh g hnew
      exact ⟨hlow, htotal ▸ hhigh, by rw [hbits]; simp [hnew]⟩
    have hpos : 0 < inc g := by
      rw [← holdcount g hnew]
      exact count_pos_iff.mpr hg
    obtain ⟨ha, _⟩ := hmapped g hpos
    exact ⟨ha.low, htotal ▸ ha.high, by rw [hbits, ha.bit, Bool.true_or]⟩
  have hle : ∀ g, l.count g ≤ q'.refCounts g := by
    intro g
    by_cases hnew : g ∈ new
    · rw [hnewcount g hnew, hrefs g (h.bit_new hnew), if_pos hnew]
    rw [holdcount g hnew]
    by_cases hzero : inc g = 0
    · omega
    have hbit := (hmapped g (pos_of_ne_zero hzero)).1.bit
    rw [hrefs g (h.bit_mono hbit), if_neg hnew]
    omega
  obtain ⟨hfrefs, hfbits, hftotal⟩ := freeAll_spec halloc hle
  refine ⟨?_, ?_, hftotal.trans htotal, ok_freeAll huse.ok⟩
  · intro g
    rw [hfbits]
    by_cases hnew : g ∈ new
    · have hmem : g ∈ l := by
        rw [← count_pos_iff, hnewcount g hnew]
        exact one_pos
      rw [if_pos ⟨hmem, by rw [hnewcount g hnew, hrefs g (h.bit_new hnew), if_pos hnew]⟩, (h.fresh g hnew).2.2]
    · have hnot : ¬ (g ∈ l ∧ q'.refCounts g = l.count g) := by
        rintro ⟨hmem, heq⟩
        have hpos : 0 < inc g := by
          rw [← holdcount g hnew]
          exact count_pos_iff.mpr hmem
        obtain ⟨ha, href⟩ := hmapped g hpos
        rw [holdcount g hnew, hrefs g (h.bit_mono ha.bit), if_neg hnew] at heq
        omega
      rw [if_neg hnot, hbits]
      simp [hnew]
  · intro g hg
    have hnew := h.not_new hg
    rw [hfrefs, holdcount g hnew, hrefs g (h.bit_mono hg), if_neg hnew]
    omega

theorem treeLoop_fail (h : AtTable m m' depth parent child k)
    (hfail : CopyFailed m' m₁ depth (frameOf (m.mem parent k))) :
    CopyFailed m (vmmFreeTable m₁ (depth + 1) child) (depth + 1) parent ∧ m₁.mem parent = m.mem parent := by
  have hk := h.entry
  have hd := h.deep
  have hap := nodup_tables_succ.mp h.pre.tree.nodup
  obtain ⟨htables, hleaf⟩ := h.same
  obtain ⟨hkept, hout⟩ := h.kept hfail.keeps
  have hparentmem : m₁.mem parent = m.mem parent := by
    rw [hout parent (h.pre.tree.bits parent table_mem_tables) (hap.top_not_below hk), h.loop.top]
  -- the counts that the child holds
  have hcount : ∀ g, (freed m₁.mem (depth + 1) child).count g =
      refsUpTo m.mem (depth + 1) parent k g + (tables m'.mem (depth + 1) child).count g := by
    intro g
    rw [count_freed (by omega), tables_congr hkept, ← h.loop.child_refs hd (by omega)]
    refine congrArg (· + _) (refsIn_congr fun v hv => ?_)
    rw [leaf_congr hkept (tableIndex_lt_limit hv) (by omega)]
  have hmapped : ∀ g, 0 < refsUpTo m.mem (depth + 1) parent k g → m.pmm.Allocated g ∧ 0 < m.pmm.refCounts g := by
    intro g hpos
    have hle : refsUpTo m.mem (depth + 1) parent k g ≤ refsIn m.mem (depth + 1) parent g := refsUpTo_mono (by omega)
    obtain ⟨v, hv, hmaps⟩ := refsIn_pos.mp (lt_of_lt_of_le hpos hle)
    exact h.pre.mapped v g (tableIndex_lt_limit hv) hmaps
  have hpmm : (vmmFreeTable m₁ (depth + 1) child).pmm =
      (freed m₁.mem (depth + 1) child).foldl pmmFreeFrame m₁.pmm := freeTable_eq
  refine ⟨⟨hpmm ▸ h.loop.grow.undo hfail.use hcount hmapped, ?_, ?_, ?_⟩, hparentmem⟩
  · intro g hg hmem
    exact (hout g hg fun hb => hmem (below_subset hk hb)).trans (h.loop.keeps g hg hmem)
  · refine tables_succ_congr hparentmem ?_
    intro j hj hpj
    by_cases hjk : j = k
    · subst hjk
      exact hfail.parentTables.trans htables
    · exact (h.other hout hj hjk hpj).1.trans (h.loop.below_cases hd hj hpj).1
  · intro v hv
    show leaf m₁.mem (depth + 1) parent v = _ ∨ leaf m₁.mem (depth + 1) parent v = _
    simp only [leaf, hparentmem]
    by_cases hpv : present (m.mem parent (tableIndex (depth + 1) v)) = true
    · simp only [hpv, if_true]
      by_cases hjk : tableIndex (depth + 1) v = k
      · rw [hjk]
        have := hfail.parentLeaf v (tableIndex_lt_limit_of_lt hd)
        rwa [hleaf] at this
      · rw [(h.other hout hv hjk hpv).2]
        exact (h.loop.below_cases hd hv hpv).2 v
    · left
      simp [hpv]

/-- The result of the upper-level loop. -/
def LoopSpec (m : Machine) (depth parent child : Nat) (r : Bool × Machine) : Prop :=
  (r.1 = true ∧ TreeLoop m r.2 depth parent child (limit (depth + 1))) ∨
    (r.1 = false ∧ CopyFailed m r.2 (depth + 1) parent ∧ r.2.mem parent = m.mem parent)

theorem copyChildren_spec {copy : Nat → Machine → Nat × Machine}
    (hcopy : ∀ m t, CopyPre m depth t → CopySpec m depth t (copy t m))
    (hpre : CopyPre m (depth + 1) parent) (hd : depth < 3) (hn : k + n = limit (depth + 1))
    (h : TreeLoop m m' depth parent child k) :
    LoopSpec m depth parent child (copyChildren copy (depth + 1) parent child (range' k n) m') := by
  induction n generalizing k m' with
  | zero =>
    obtain rfl : k = limit (depth + 1) := by omega
    exact .inl ⟨rfl, h⟩
  | succ n ih =>
    rw [range'_succ]
    by_cases hp : present (m.mem parent k) = true
    · have hat : AtTable m m' depth parent child k := ⟨h, hpre, hd, by omega, hp⟩
      have hspec := hcopy m' (frameOf (m.mem parent k)) hat.copyPre
      generalize hresult : copy (frameOf (m.mem parent k)) m' = r at hspec
      obtain ⟨c, m₁⟩ := r
      rcases hspec with ⟨hc0, hc52, hok⟩ | ⟨rfl, hfail⟩
      · have hstep : copyChildren copy (depth + 1) parent child (k :: range' (k + 1) n) m' =
            copyChildren copy (depth + 1) parent child (range' (k + 1) n)
              (m₁.set child k (withFlags c (m.mem parent k))) := by
          have hc0' : c ≠ 0 := hc0
          simp [copyChildren, h.top, hp, hresult, hc0']
        rw [hstep]
        exact ih (by omega) (treeLoop_step hat hc52 hok)
      · right
        have hstep : copyChildren copy (depth + 1) parent child (k :: range' (k + 1) n) m' =
            (false, vmmFreeTable m₁ (depth + 1) child) := by
          simp [copyChildren, h.top, hp, hresult]
        rw [hstep]
        exact ⟨rfl, treeLoop_fail hat hfail⟩
    · have hstep : copyChildren copy (depth + 1) parent child (k :: range' (k + 1) n) m' =
          copyChildren copy (depth + 1) parent child (range' (k + 1) n) m' := by
        simp [copyChildren, h.top, hp]
      rw [hstep]
      exact ih (by omega) (treeLoop_skip h hd (by omega) (by simpa using hp))

theorem treeLoop_start (hpre : CopyPre m (depth + 1) parent) (hne : parent ≠ child)
    (hclear : m.pmm.bitmap child = false) (hgrow : Grow m.pmm (m.pmm.take child) [child] fun _ => 0) :
    TreeLoop m ((m.take child).fill child fun _ => 0) depth parent child 0 := by
  have hother : ∀ g, m.pmm.bitmap g = true → ((m.take child).fill child fun _ => 0).mem g = m.mem g := by
    intro g hg
    exact mem_fill_of_ne _ (Pmm.bit_ne hg hclear)
  have hzero : ∀ j, ((m.take child).fill child fun _ => 0).mem child j = 0 := fun j => by rw [mem_fill_self]
  refine ⟨?_, fun g hg _ => hother g hg, mem_fill_of_ne _ hne, ?_, by simp, by simp, fun j _ => hzero j⟩
  · rw [tables_of_zero fun i _ => hzero i]
    exact hgrow.congr_inc fun g => refsUpTo_zero
  · intro j _ hj g hg
    exact hother g (hpre.tree.bits g (below_subset hj hg))

theorem copyOk_of_treeLoop (h : TreeLoop m m' depth parent child (limit (depth + 1))) :
    CopyOk m m' (depth + 1) parent child := by
  refine ⟨h.grow.congr_inc fun g => refsIn_eq, h.keeps, ?_, ?_, ?_⟩
  · exact tables_succ_congr h.top fun j hj hp => (h.done j hj hj hp).1
  · intro v hv
    simp only [leaf, h.top]
    by_cases hp : present (m.mem parent (tableIndex (depth + 1) v)) = true
    · simp only [hp, if_true]
      exact (h.done _ hv hv hp).2 v
    · simp [hp, parentEntry]
  · intro v hv
    obtain ⟨hpres, hlf⟩ := h.childDone _ hv hv
    simp only [leaf, hpres]
    by_cases hp : present (m.mem parent (tableIndex (depth + 1) v)) = true
    · simp only [hp, if_true]
      exact hlf hp v
    · simp [hp, childEntry]

theorem copyOk_copyUpper (hpre : CopyPre m 3 parent) (h : CopyOk m m' 3 parent child) :
    CopyOk m (copyUpper kernPml4 child m') 3 parent child := by
  have hchildap := nodup_tables_succ.mp h.grow.nodup
  have hne : ∀ g, g ≠ child → (copyUpper kernPml4 child m').mem g = m'.mem g := fun g hg =>
    mem_fill_of_ne _ hg
  have hlow : ∀ j < 256, (copyUpper kernPml4 child m').mem child j = m'.mem child j := by
    intro j hj
    rw [copyUpper, mem_fill_self, if_neg (by omega)]
  have hparent : ∀ g, m.pmm.bitmap g = true → g ≠ child := by
    rintro g hg rfl
    exact h.grow.not_new hg table_mem_tables
  have hsub : ∀ j < limit 3, ∀ g ∈ below m'.mem 2 child j, (copyUpper kernPml4 child m').mem g = m'.mem g := by
    intro j hj g hg
    apply hne
    rintro rfl
    exact hchildap.top_not_below hj hg
  have htables : tables (copyUpper kernPml4 child m').mem 3 child = tables m'.mem 3 child := by
    rw [tables_succ_eq, tables_succ_eq]
    congr 1
    refine flatMap_congr ?_
    intro j hj
    exact below_congr (hlow j (mem_range.mp hj)) (hsub j (mem_range.mp hj))
  have hparentsame : ∀ g ∈ tables m'.mem 3 parent, (copyUpper kernPml4 child m').mem g = m'.mem g := by
    intro g hg
    rw [h.parentTables] at hg
    exact hne g (hparent g (hpre.tree.bits g hg))
  refine ⟨htables ▸ h.grow, ?_, ?_, ?_, ?_⟩
  · intro g hg hmem
    rw [hne g (hparent g hg), h.keeps g hg hmem]
  · rw [tables_congr hparentsame, h.parentTables]
  · intro v hv
    rw [leaf_congr hparentsame hv le_rfl, h.parentLeaf v hv]
  · intro v hv
    rw [leaf_other (by decide) (hlow _ hv) (hsub _ hv), h.childLeaf v hv]

/-- `vmm_copy_hierarchy` copies the tree, or fails and takes everything back but writable bits. -/
theorem copyHierarchy_spec (hpre : CopyPre m depth parent) (hd : depth ≤ 3) :
    CopySpec m depth parent (copyHierarchy kernPml4 depth parent m) := by
  induction depth generalizing parent m with
  | zero => exact copyLeafTable_spec hpre
  | succ depth ih =>
    rcases alloc_child hpre.tree with hfull | ⟨c, hc, hc0, hc52, hclear, hne, hgrow⟩
    · have hfail : copyHierarchy kernPml4 (depth + 1) parent m = (0, m) := by
        simp [copyHierarchy, hfull]
      rw [hfail]
      exact .inr ⟨rfl, CopyFailed.refl hpre.tree.pmm⟩
    · have hloop := copyChildren_spec (fun m t hp => ih hp (by omega)) hpre (by omega)
        (zero_add _) (treeLoop_start hpre hne hclear hgrow)
      rw [← range_eq_range'] at hloop
      have hrun : copyHierarchy kernPml4 (depth + 1) parent m = finishCopy kernPml4 (depth + 1) c
          (copyChildren (copyHierarchy kernPml4 depth) (depth + 1) parent c (range (limit (depth + 1)))
            ((m.take c).fill c fun _ => 0)) := by
        simp only [copyHierarchy, hc, if_neg hc0]
      generalize copyChildren (copyHierarchy kernPml4 depth) (depth + 1) parent c _ _ = r at hloop hrun
      obtain ⟨ok, m'⟩ := r
      rw [hrun]
      rcases hloop with ⟨hok, hdone⟩ | ⟨hok, hfail, -⟩
      · obtain rfl : ok = true := hok
        refine .inl ⟨hc0, hc52, ?_⟩
        by_cases htop : depth + 1 = 3
        · obtain rfl : depth = 2 := by omega
          exact copyOk_copyUpper hpre (copyOk_of_treeLoop hdone)
        · simp only [finishCopy, htop, if_false, if_true]
          exact copyOk_of_treeLoop hdone
      · obtain rfl : ok = false := hok
        exact .inr ⟨rfl, hfail⟩

end NyanOS.Memory
