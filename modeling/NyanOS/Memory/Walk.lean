import NyanOS.Memory.Tree

/-! What the walk that creates missing tables, the mapping and the unmapping of a page do to a tree. -/
namespace NyanOS.Memory

open List

variable {m m' m₁ : Machine} {mem mem' : Nat → Nat → Word} {p q r : Pmm} {depth table page frame i f j u c : Nat}
  {w flags : Word} {new new' l new₁ : List Nat} {inc inc' : Nat → Nat}

/-- The allocator after taking the frames `new` and adding `inc g` references to each frame `g`. -/
structure Grow (p p' : Pmm) (new : List Nat) (inc : Nat → Nat) : Prop where
  nodup : new.Nodup
  fresh : ∀ g ∈ new, 256 ≤ g ∧ g < p.totalPages ∧ p.bitmap g = false
  bitmap : ∀ g, p'.bitmap g = (p.bitmap g || decide (g ∈ new))
  refs : ∀ g, p'.refCounts g = if g ∈ new then 1 else p.refCounts g + inc g
  total : p'.totalPages = p.totalPages
  ok : p'.Ok

theorem Grow.refl (hok : p.Ok) : Grow p p [] fun _ => 0 := ⟨nodup_nil, by simp, by simp, by simp, rfl, hok⟩

theorem grow_take (hok : p.Ok) (hlow : 256 ≤ f) (hhigh : f < p.totalPages)
    (hclear : p.bitmap f = false) : Grow p (p.take f) [f] fun _ => 0 := by
  refine ⟨nodup_singleton f, ?_, ?_, ?_, rfl, ok_take hok hhigh⟩
  · intro g hg
    obtain rfl := mem_singleton.mp hg
    exact ⟨hlow, hhigh, hclear⟩
  · intro g
    by_cases hg : g = f <;> simp [hg]
  · intro g
    by_cases hg : g = f <;> simp [hg]

section
variable (hg : Grow p q new inc)
include hg

theorem Grow.perm (hp : new.Perm new') : Grow p q new' inc := by
  refine ⟨hp.nodup_iff.mp hg.nodup, ?_, ?_, ?_, hg.total, hg.ok⟩
  · intro g hmem
    exact hg.fresh g (hp.mem_iff.mpr hmem)
  · intro g
    rw [hg.bitmap]
    simp only [hp.mem_iff]
  · intro g
    rw [hg.refs]
    simp only [hp.mem_iff]

theorem Grow.bit_mono (h : p.bitmap f = true) : q.bitmap f = true := by
  rw [hg.bitmap, h, Bool.true_or]

theorem Grow.bit_new (h : f ∈ new) : q.bitmap f = true := by
  rw [hg.bitmap]
  simp [h]

theorem Grow.not_new (h : p.bitmap f = true) : f ∉ new := by
  intro hmem
  rw [(hg.fresh f hmem).2.2] at h
  simp at h

theorem Grow.trans (hg' : Grow q r new' inc')
    (hzero : ∀ g ∈ new, inc' g = 0) : Grow p r (new ++ new') fun g => inc g + inc' g := by
  have hdisj : ∀ g ∈ new, g ∉ new' := fun g hmem => hg'.not_new (hg.bit_new hmem)
  refine ⟨nodup_append'.mpr ⟨hg.nodup, hg'.nodup, hdisj⟩, ?_, ?_, ?_, hg'.total.trans hg.total, hg'.ok⟩
  · intro g hmem
    rcases mem_append.mp hmem with hmem | hmem
    · exact hg.fresh g hmem
    obtain ⟨hlow, hhigh, hclear⟩ := hg'.fresh g hmem
    refine ⟨hlow, hg.total ▸ hhigh, ?_⟩
    rw [hg.bitmap] at hclear
    exact (Bool.or_eq_false_iff.mp hclear).1
  · intro g
    rw [hg'.bitmap, hg.bitmap]
    simp [Bool.or_assoc]
  · intro g
    rw [hg'.refs, hg.refs]
    by_cases hnew : g ∈ new
    · simp [hnew, hdisj g hnew, hzero g hnew]
    by_cases hnew' : g ∈ new'
    · simp [hnew']
    · simp [hnew, hnew', add_assoc]

end

/-- Frames in use outside the list keep their contents. -/
def Keeps (m m' : Machine) (ts : List Nat) : Prop :=
  ∀ g, m.pmm.bitmap g = true → g ∉ ts → m'.mem g = m.mem g

/-- The tables below one entry. -/
def below (mem : Nat → Nat → Word) (depth table i : Nat) : List Nat :=
  if present (mem table i) then tables mem depth (frameOf (mem table i)) else []

theorem tables_succ_eq : tables mem (depth + 1) table =
    table :: (List.range (limit (depth + 1))).flatMap (below mem depth table) := rfl

theorem below_congr (htop : mem' table j = mem table j) (h : ∀ g ∈ below mem depth table j, mem' g = mem g) :
    below mem' depth table j = below mem depth table j := by
  simp only [below, htop] at h ⊢
  by_cases hp : present (mem table j) = true
  · simp only [hp, if_true] at h ⊢
    exact tables_congr h
  · simp [hp]

theorem flatMap_perm_of_update {g g' : Nat → List Nat} (hnd : l.Nodup) (hi : i ∈ l)
    (hne : ∀ j ∈ l, j ≠ i → g' j = g j) (heq : (g' i).Perm (new ++ g i)) :
    (l.flatMap g').Perm (new ++ l.flatMap g) := by
  obtain ⟨l₁, l₂, rfl⟩ := append_of_mem hi
  obtain ⟨_, hnd₂, hdisj⟩ := nodup_append.mp hnd
  have h₁ : l₁.flatMap g' = l₁.flatMap g := flatMap_congr fun j hj =>
    hne j (by simp [hj]) (hdisj j hj i (by simp))
  have h₂ : l₂.flatMap g' = l₂.flatMap g := by
    refine flatMap_congr ?_
    intro j hj
    refine hne j (by simp [hj]) ?_
    rintro rfl
    exact (nodup_cons.mp hnd₂).1 hj
  simp only [flatMap_append, flatMap_cons, h₁, h₂]
  refine (List.Perm.append_left _ (heq.append_right _)).trans ?_
  rw [append_assoc]
  exact perm_append_comm_assoc _ _ _

theorem tables_replace (hi : i < limit (depth + 1)) (htop : ∀ j < limit (depth + 1), j ≠ i → mem' table j = mem table j)
    (hkeep : ∀ j < limit (depth + 1), j ≠ i → ∀ g ∈ below mem depth table j, mem' g = mem g)
    (hsub : (below mem' depth table i).Perm (new ++ below mem depth table i)) :
    (tables mem' (depth + 1) table).Perm (new ++ tables mem (depth + 1) table) := by
  rw [tables_succ_eq, tables_succ_eq]
  have hflat : ((List.range (limit (depth + 1))).flatMap (below mem' depth table)).Perm
      (new ++ (List.range (limit (depth + 1))).flatMap (below mem depth table)) := by
    refine flatMap_perm_of_update nodup_range (mem_range.mpr hi) ?_ hsub
    intro j hj hne
    exact below_congr (htop j (mem_range.mp hj) hne) (hkeep j (mem_range.mp hj) hne)
  exact (hflat.cons table).trans perm_middle.symm

theorem leaf_other (hd : depth < 3) (htop : mem' table (tableIndex (depth + 1) u) =
      mem table (tableIndex (depth + 1) u))
    (hkeep : ∀ g ∈ below mem depth table (tableIndex (depth + 1) u), mem' g = mem g) :
    leaf mem' (depth + 1) table u = leaf mem (depth + 1) table u := by
  simp only [leaf, htop]
  by_cases hp : present (mem table (tableIndex (depth + 1) u)) = true
  · simp only [below, hp, if_true] at hkeep ⊢
    exact leaf_congr hkeep (tableIndex_lt_limit_of_lt hd) (by omega)
  · simp [hp]

theorem Apart.below_disjoint (hap : Apart mem depth table) (hi : i < limit (depth + 1))
    (hj : j < limit (depth + 1)) (hne : i ≠ j) {g : Nat} (hg : g ∈ below mem depth table i) :
    g ∉ below mem depth table j := by
  by_cases hpi : present (mem table i) = true
  · by_cases hpj : present (mem table j) = true
    · simp only [below, hpi, hpj, if_true] at hg ⊢
      exact hap.disjoint i hi j hj hne hpi hpj g hg
    · simp [below, hpj]
  · simp [below, hpi] at hg

theorem Apart.top_not_below (hap : Apart mem depth table) (hi : i < limit (depth + 1)) :
    table ∉ below mem depth table i := by
  by_cases hp : present (mem table i) = true
  · simpa only [below, hp, if_true] using hap.top i hi hp
  · simp [below, hp]

theorem below_subset (hi : i < limit (depth + 1)) {g : Nat} (hg : g ∈ below mem depth table i) :
    g ∈ tables mem (depth + 1) table := by
  rw [tables_succ_eq]
  exact mem_cons_of_mem _ (mem_flatMap.mpr ⟨i, mem_range.mpr hi, hg⟩)

/-- The entry of a new table. -/
def tableEntry (frame : Nat) : Word := pteSetAddr 0 (physOf frame) ||| tableFlags

theorem tableEntry_eq : tableEntry frame = mkPte frame tableFlags := by
  have hflags : tableFlags ||| vmmFlagPresent = tableFlags := by decide
  rw [tableEntry, mkPte, BitVec.or_assoc, hflags]

theorem present_tableEntry : present (tableEntry frame) = true := by
  rw [tableEntry_eq, present_mkPte]

theorem frameOf_tableEntry (hf : frame < 2 ^ 52) : frameOf (tableEntry frame) = frame := by
  rw [tableEntry_eq, frameOf_mkPte hf (by decide)]

theorem tables_of_zero (h : ∀ i < limit depth, mem table i = 0) : tables mem depth table = [table] := by
  cases depth with
  | zero => rfl
  | succ depth =>
    simp only [tables, List.cons.injEq, true_and, flatMap_eq_nil_iff, mem_range]
    intro i hi
    simp [h i hi]

theorem leaf_of_zero (h : ∀ i < limit depth, mem table i = 0)
    (hv : tableIndex depth page < limit depth) : leaf mem depth table page = 0 := by
  cases depth with
  | zero => exact h _ hv
  | succ depth => simp [leaf, h _ hv]

/-- The state of a tree on which the walk and the copy rely. -/
structure TreeOk (m : Machine) (depth table : Nat) : Prop where
  pmm : m.pmm.Ok
  nodup : (tables m.mem depth table).Nodup
  bits : ∀ g ∈ tables m.mem depth table, m.pmm.bitmap g = true

/-- The walk adds empty tables to the tree and changes no entry of a page. -/
structure WalkSpec (m m' : Machine) (depth table : Nat) (new : List Nat) : Prop where
  grow : Grow m.pmm m'.pmm new fun _ => 0
  keeps : Keeps m m' (tables m.mem depth table)
  tables : (tables m'.mem depth table).Perm (new ++ tables m.mem depth table)
  leaf : ∀ u, tableIndex depth u < limit depth →
    leaf m'.mem depth table u = leaf m.mem depth table u

theorem WalkSpec.refl (hok : m.pmm.Ok) : WalkSpec m m depth table [] :=
  ⟨Grow.refl hok, fun _ _ _ => rfl, List.Perm.refl _, fun _ _ => rfl⟩

theorem WalkSpec.treeOk (h : WalkSpec m m' depth table new) (ht : TreeOk m depth table) : TreeOk m' depth table := by
  refine ⟨h.grow.ok, ?_, ?_⟩
  · rw [h.tables.nodup_iff, nodup_append']
    exact ⟨h.grow.nodup, ht.nodup, fun g hg hmem => h.grow.not_new (ht.bits g hmem) hg⟩
  · intro g hg
    rcases mem_append.mp (h.tables.mem_iff.mp hg) with hnew | hold
    · exact h.grow.bit_new hnew
    · exact h.grow.bit_mono (ht.bits g hold)

theorem TreeOk.child (ht : TreeOk m (depth + 1) table) (hi : i < limit (depth + 1))
    (hp : present (m.mem table i) = true) : TreeOk m depth (frameOf (m.mem table i)) :=
  ⟨ht.pmm, (nodup_tables_succ.mp ht.nodup).child i hi hp, fun g hg => ht.bits g (tables_child hi hp g hg)⟩

/-- A walk below one entry, seen from the table above: only that entry may have changed. -/
theorem walkSpec_above (hd : depth < 3)
    (ht : TreeOk m (depth + 1) table) (hi : i < limit (depth + 1)) (hgrow : Grow m.pmm m₁.pmm new₁ fun _ => 0)
    (hsub : ∀ g ∈ tables m₁.mem depth c, g ∈ new₁ ++ below m.mem depth table i)
    (hperm : (tables m₁.mem depth c).Perm (new₁ ++ below m.mem depth table i))
    (htop : ∀ j, j ≠ i → m₁.mem table j = m.mem table j)
    (hentry : present (m₁.mem table i) = true ∧ frameOf (m₁.mem table i) = c)
    (hout : ∀ g, g ≠ table → m.pmm.bitmap g = true → m₁.mem g = m.mem g)
    (hleaf : ∀ u, tableIndex (depth + 1) u = i → leaf m₁.mem depth c u = leaf m.mem (depth + 1) table u)
    (h : WalkSpec m₁ m' depth c new) : WalkSpec m m' (depth + 1) table (new₁ ++ new) := by
  have hap := nodup_tables_succ.mp ht.nodup
  have htbit := ht.bits table table_mem_tables
  have htable : m'.mem table = m₁.mem table := by
    refine h.keeps table (hgrow.bit_mono htbit) ?_
    intro hmem
    rcases mem_append.mp (hsub table hmem) with hnew | hold
    · exact hgrow.not_new htbit hnew
    · exact hap.top_not_below hi hold
  have hother : ∀ j < limit (depth + 1), j ≠ i → ∀ g ∈ below m.mem depth table j, m'.mem g = m.mem g := by
    intro j hj hne g hg
    have hgbit := ht.bits g (below_subset hj hg)
    have hgtop : g ≠ table := by
      rintro rfl
      exact hap.top_not_below hj hg
    rw [← hout g hgtop hgbit]
    refine h.keeps g (hgrow.bit_mono hgbit) ?_
    intro hmem
    rcases mem_append.mp (hsub g hmem) with hnew | hold
    · exact hgrow.not_new hgbit hnew
    · exact hap.below_disjoint hj hi hne hg hold
  refine ⟨by simpa using hgrow.trans h.grow (by simp), ?_, ?_, ?_⟩
  · intro g hg hmem
    have hgtop : g ≠ table := by
      rintro rfl
      exact hmem table_mem_tables
    rw [← hout g hgtop hg]
    refine h.keeps g (hgrow.bit_mono hg) ?_
    intro hsubmem
    rcases mem_append.mp (hsub g hsubmem) with hnew | hold
    · exact hgrow.not_new hg hnew
    · exact hmem (below_subset hi hold)
  · refine tables_replace hi ?_ hother ?_
    · intro j _ hne
      rw [htable, htop j hne]
    · have hbelow : below m'.mem depth table i = tables m'.mem depth c := by
        simp only [below, htable, hentry.1, hentry.2, if_true]
      rw [hbelow]
      refine h.tables.trans ((hperm.append_left new).trans ?_)
      rw [append_assoc]
      exact perm_append_comm_assoc _ _ _
  · intro u hu
    by_cases hui : tableIndex (depth + 1) u = i
    · rw [← hleaf u hui, ← h.leaf u (tableIndex_lt_limit_of_lt hd)]
      simp only [NyanOS.Memory.leaf, hui, htable, hentry.1, hentry.2, if_true]
    · refine leaf_other hd ?_ (hother _ hu hui)
      rw [htable, htop _ hui]

theorem walkToPte_spec (ht : TreeOk m depth table) (hd : depth ≤ 3) (hv : tableIndex depth page < limit depth) :
    ∃ new, WalkSpec m (walkToPte true depth table page m).2 depth table new ∧
      (walkToPte true depth table page m).1 = slot (walkToPte true depth table page m).2.mem depth table page ∧
      ((walkToPte true depth table page m).1 = none →
        ∀ g < m.pmm.totalPages, (walkToPte true depth table page m).2.pmm.bitmap g = true) := by
  induction depth generalizing table m with
  | zero => exact ⟨[], WalkSpec.refl ht.pmm, rfl, by simp [walkToPte]⟩
  | succ depth ih =>
    have hsubv : tableIndex depth page < limit depth := tableIndex_lt_limit_of_lt (by omega)
    by_cases hp : present (m.mem table (tableIndex (depth + 1) page)) = true
    · have hstep : walkToPte true (depth + 1) table page m =
          walkToPte true depth (frameOf (m.mem table (tableIndex (depth + 1) page))) page m := by
        simp [walkToPte, hp]
      rw [hstep]
      obtain ⟨new, hspec, hslot, hnone⟩ := ih (ht.child hv hp) (by omega) hsubv
      have hbelow : below m.mem depth table (tableIndex (depth + 1) page) =
          tables m.mem depth (frameOf (m.mem table (tableIndex (depth + 1) page))) := by
        simp [below, hp]
      have habove := walkSpec_above (i := tableIndex (depth + 1) page) (by omega) ht hv
        (Grow.refl ht.pmm) (by simp [hbelow]) (by simp [hbelow])
        (fun _ _ => rfl) ⟨hp, rfl⟩ (fun _ _ _ => rfl)
        (fun u hu => by simp [NyanOS.Memory.leaf, hu, hp]) hspec
      refine ⟨new, habove, ?_, hnone⟩
      have htable := hspec.keeps table (ht.bits table table_mem_tables) ((nodup_tables_succ.mp ht.nodup).top _ hv hp)
      rw [hslot]
      simp only [slot, htable, hp, if_true]
    · rcases pmmAllocFrame_cases ht.pmm with ⟨hfull, hall⟩ | ⟨c, hc, hlow, hhigh, hclear⟩
      · have hstep : walkToPte true (depth + 1) table page m = (none, m) := by
          simp [walkToPte, hp, hfull]
        rw [hstep]
        exact ⟨[], WalkSpec.refl ht.pmm, by simp [slot, hp], fun _ => hall⟩
      · have hc0 : c ≠ 0 := by omega
        have hc52 : c < 2 ^ 52 := lt_of_lt_of_le hhigh ht.pmm.total
        have htbit := ht.bits table table_mem_tables
        have htc : table ≠ c := Pmm.bit_ne htbit hclear
        -- the machine with the new table linked in
        obtain ⟨m₁, hm₁⟩ : ∃ m₁ : Machine, m₁ = ((m.take c).fill c fun _ => 0).set table (tableIndex (depth + 1) page) (tableEntry c) := ⟨_, rfl⟩
        have hstep : walkToPte true (depth + 1) table page m = walkToPte true depth c page m₁ := by
          simp [walkToPte, hp, hc, hc0, hm₁, tableEntry]
        have hpmm : m₁.pmm = m.pmm.take c := by rw [hm₁]; rfl
        have hgrow : Grow m.pmm m₁.pmm [c] fun _ => 0 := by
          rw [hpmm]
          exact grow_take ht.pmm hlow hhigh hclear
        have hzero : ∀ j, m₁.mem c j = 0 := by
          intro j
          rw [hm₁, mem_set_of_ne (Ne.symm htc), mem_fill_self]
        have hentry : m₁.mem table (tableIndex (depth + 1) page) = tableEntry c := by
          rw [hm₁, mem_set]
          simp
        have htree : TreeOk m₁ depth c := by
          refine ⟨hgrow.ok, by rw [tables_of_zero fun i _ => hzero i]; exact nodup_singleton c, ?_⟩
          intro g hg
          rw [tables_of_zero fun i _ => hzero i] at hg
          exact hgrow.bit_new hg
        rw [hstep]
        obtain ⟨new, hspec, hslot, hnone⟩ := ih htree (by omega) hsubv
        have hbelow : below m.mem depth table (tableIndex (depth + 1) page) = [] := by
          simp [below, hp]
        have htop : ∀ j, j ≠ tableIndex (depth + 1) page → m₁.mem table j = m.mem table j := by
          intro j hj
          rw [hm₁, mem_set, if_neg (fun h => hj h.2), mem_fill_of_ne _ htc]
        have hout : ∀ g, g ≠ table → m.pmm.bitmap g = true → m₁.mem g = m.mem g := by
          intro g hg hbit
          rw [hm₁, mem_set_of_ne hg, mem_fill_of_ne _ (Pmm.bit_ne hbit hclear)]
        have htables : NyanOS.Memory.tables m₁.mem depth c = [c] := tables_of_zero fun i _ => hzero i
        have hleaf : ∀ u, NyanOS.Memory.leaf m₁.mem depth c u = 0 := fun u =>
          leaf_of_zero (fun i _ => hzero i) (tableIndex_lt_limit_of_lt (by omega))
        have habove := walkSpec_above (i := tableIndex (depth + 1) page) (by omega) ht hv hgrow
          (by simp [hbelow, htables]) (by simp [hbelow, htables]) htop
          ⟨by rw [hentry, present_tableEntry], by rw [hentry, frameOf_tableEntry hc52]⟩ hout
          (fun u hu => by simp [NyanOS.Memory.leaf, hu, hp, hleaf]) hspec
        refine ⟨[c] ++ new, habove, ?_, ?_⟩
        · have htable : (walkToPte true depth c page m₁).2.mem table = m₁.mem table := by
            refine hspec.keeps table (hgrow.bit_mono htbit) ?_
            rw [htables]
            simpa using htc
          rw [hslot]
          simp only [slot, htable, hentry, present_tableEntry, if_true, frameOf_tableEntry hc52]
        · intro hfail g hg
          exact hnone hfail g (by rw [hpmm]; exact hg)

/-- Storing the entry of a page: that entry changes, the tables and the other frames stay. -/
structure StoreSpec (m m' : Machine) (pml4 page : Nat) (w : Word) : Prop where
  tables : tables m'.mem 3 pml4 = tables m.mem 3 pml4
  leaf : ∀ u < pageCount 3, leaf m'.mem 3 pml4 u = if u = page then w else leaf m.mem 3 pml4 u
  keeps : ∀ g, g ∉ NyanOS.Memory.tables m.mem 3 pml4 → m'.mem g = m.mem g

theorem storeSpec_set (hnd : (tables m.mem 3 table).Nodup) (hv : page < pageCount 3)
    (h : slot m.mem 3 table page = some (f, i)) : StoreSpec m (m.set f i w) table page w := by
  have hidx := tableIndex_lt_limit hv
  refine ⟨tables_set_slot hnd le_rfl hidx h, ?_, ?_⟩
  · intro u hu
    rw [leaf_set_slot hnd le_rfl hidx (tableIndex_lt_limit hu) h]
    simp only [samePath_iff_eq hu hv]
  · intro g hg
    apply mem_set_of_ne
    rintro rfl
    exact hg (slot_mem_tables h le_rfl hidx)

/-- The reference that the remap branch of `vmm_map_page` drops. -/
def remapDrop (p : Pmm) (old : Word) (frame : Nat) : Pmm :=
  if present old ∧ frameOf old ≠ frame ∧ shared old = false then pmmDecRef p (frameOf old) else p

/-- `vmm_map_page` adds missing tables, then stores the entry and drops the old frame; without
memory for a table it changes no entry. -/
theorem vmmMapPage_spec (ht : TreeOk m 3 table) (hv : page < pageCount 3) :
    (∃ new m₁ m₂, WalkSpec m m₁ 3 table new ∧ vmmMapPage m table page frame flags = (true, m₂) ∧
      StoreSpec m₁ m₂ table page (mkPte frame flags) ∧
      m₂.pmm = remapDrop m₁.pmm (leaf m.mem 3 table page) frame) ∨
    ∃ new m₁, WalkSpec m m₁ 3 table new ∧ vmmMapPage m table page frame flags = (false, m₁) ∧
      ∀ g < m.pmm.totalPages, m₁.pmm.bitmap g = true := by
  have hidx := tableIndex_lt_limit hv
  obtain ⟨new, hspec, hslot, hnone⟩ := walkToPte_spec ht le_rfl hidx
  generalize hwalk : walkToPte true 3 table page m = r at hspec hslot hnone
  obtain ⟨place, m₁⟩ := r
  cases place with
  | none =>
    right
    refine ⟨new, m₁, hspec, ?_, hnone rfl⟩
    simp [vmmMapPage, vmmWalkToPte, hwalk]
  | some place =>
    left
    obtain ⟨f, i⟩ := place
    have hleaf := (leaf_of_slot hslot.symm).symm.trans (hspec.leaf page hidx)
    refine ⟨new, m₁, ({ m₁ with pmm := remapDrop m₁.pmm (m₁.mem f i) frame } : Machine).set f i
      (mkPte frame flags), hspec, ?_, ?_, ?_⟩
    · simp only [vmmMapPage, vmmWalkToPte, hwalk, remapDrop]
    · have hstore : StoreSpec m₁ (m₁.set f i (mkPte frame flags)) table page (mkPte frame flags) :=
        storeSpec_set (hspec.treeOk ht).nodup hv hslot.symm
      exact ⟨hstore.tables, hstore.leaf, hstore.keeps⟩
    · rw [← hleaf]
      rfl

theorem vmmUnmapPage_spec (ht : TreeOk m 3 table) (hv : page < pageCount 3) :
    StoreSpec m (vmmUnmapPage m table page) table page 0 ∨
      (vmmUnmapPage m table page = m ∧ leaf m.mem 3 table page = 0) := by
  cases hslot : slot m.mem 3 table page with
  | none =>
    right
    refine ⟨?_, leaf_of_slot_none hslot⟩
    simp [vmmUnmapPage, vmmWalkToPte, walkToPte_false, hslot]
  | some place =>
    left
    obtain ⟨f, i⟩ := place
    have heq : vmmUnmapPage m table page = m.set f i 0 := by
      simp [vmmUnmapPage, vmmWalkToPte, walkToPte_false, hslot]
    rw [heq]
    exact storeSpec_set ht.nodup hv hslot

theorem vmmUnmapPage_pmm : (vmmUnmapPage m table page).pmm = m.pmm := by
  simp only [vmmUnmapPage, vmmWalkToPte, walkToPte_false]
  cases slot m.mem 3 table page with
  | none => rfl
  | some place => rfl

theorem vmmVirt2Phys_eq : vmmVirt2Phys m table page =
    if present (leaf m.mem 3 table page) then some (frameOf (leaf m.mem 3 table page)) else none := by
  simp only [vmmVirt2Phys, vmmWalkToPte, walkToPte_false]
  cases hslot : slot m.mem 3 table page with
  | none => simp [leaf_of_slot_none hslot]
  | some place =>
    obtain ⟨f, i⟩ := place
    rw [leaf_of_slot hslot]

end NyanOS.Memory
