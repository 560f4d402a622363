import NyanOS.Memory.UpperHalf
import NyanOS.Memory.Cow

/-!
A fork that fails, in `vmm_copy_hierarchy` or for want of a kernel stack right after it, takes everything back
that it did to the frames and to the parent, but for writable bits.
-/
namespace NyanOS.Memory

open Lib

variable {m m' : Machine} {p q : Pmm} {parent child page kernPml4 pid c : Nat} {e : Word}

/-- What a failed fork leaves behind, compared with the state in which `vmm_copy_hierarchy` was entered. -/
structure Restored (m m' : Machine) (parent : Nat) : Prop where
  /-- The same frames are in use, with the same counts. -/
  use : SameUse m.pmm m'.pmm
  /-- Only tables of the parent have been written, apart from free frames, and not its upper half. -/
  confined : Confined m m' parent
  translation : ∀ page < pageCount 3, vmmVirt2Phys m' parent page = vmmVirt2Phys m parent page
  entry : ∀ page < pageCount 3, leaf m'.mem 3 parent page = leaf m.mem 3 parent page ∨
    isPrivate (leaf m.mem 3 parent page) = true ∧
      leaf m'.mem 3 parent page = clearWritable (leaf m.mem 3 parent page)
  /-- The next write to a page that lost its writable bit gives it back, without a copy. -/
  rewrite : ∀ page < pageCount 3, writable (leaf m.mem 3 parent page) = true →
    leaf m'.mem 3 parent page ≠ leaf m.mem 3 parent page →
    m.pmm.refCounts (frameOf (leaf m.mem 3 parent page)) = 1 →
    (vmmHandleCow m' parent page).1 = true ∧ (vmmHandleCow m' parent page).2.pmm = m'.pmm ∧
      leaf (vmmHandleCow m' parent page).2.mem 3 parent page = leaf m.mem 3 parent page

theorem setWritable_clearWritable (h : writable e = true) : setWritable (clearWritable e) = e := by
  apply BitVec.eq_of_getLsbD_eq
  intro i _
  by_cases hi : i = 1
  · subst hi
    rw [← writable_eq, ← writable_eq, writable_setWritable, h]
  · rw [getLsbD_setWritable i hi, getLsbD_clearWritable i hi]

/-- The entry of a parent after a fork: the same one, or a private one without its writable bit. -/
theorem parentEntry_cases (e : Word) : parentEntry e = e ∨ isPrivate e = true ∧ parentEntry e = clearWritable e := by
  rw [parentEntry]
  split
  · next hp =>
    rw [forkEntry]
    cases hs : shared e with
    | true => exact .inl (if_pos rfl)
    | false => exact .inr ⟨by simp [isPrivate, hp, hs], if_neg (by decide)⟩
  · exact .inl rfl

theorem CopyFailed.restored (h : CopyFailed m m' 3 parent) (hpre : CopyPre m 3 parent)
    (hrow : m'.mem parent = m.mem parent) (huser : ∀ page < pageCount 3, present (leaf m.mem 3 parent page) = true →
      user (leaf m.mem 3 parent page) = true) : Restored m m' parent := by
  have hentry : ∀ page < pageCount 3, leaf m'.mem 3 parent page = leaf m.mem 3 parent page ∨
      isPrivate (leaf m.mem 3 parent page) = true ∧
        leaf m'.mem 3 parent page = clearWritable (leaf m.mem 3 parent page) := by
    intro page hv
    rcases h.parentLeaf page (tableIndex_lt_limit hv) with hsame | hfork
    · exact .inl hsame
    · rw [hfork]
      exact parentEntry_cases _
  refine ⟨h.use, ⟨h.keeps, fun i _ => congrFun hrow i⟩, ?_, hentry, ?_⟩
  · intro page hv
    rw [vmmVirt2Phys_eq, vmmVirt2Phys_eq]
    rcases hentry page hv with hsame | ⟨-, hclear⟩
    · rw [hsame]
    · rw [hclear, present_clearWritable, frameOf_clearWritable]
  · intro page hv hw hne hcount
    obtain ⟨hpriv, hclear⟩ := (hentry page hv).resolve_left hne
    have hidx := tableIndex_lt_limit hv
    have hmaps : Maps (leaf m.mem 3 parent page) (frameOf (leaf m.mem 3 parent page)) := ⟨hpriv, rfl⟩
    have hpres : present (leaf m.mem 3 parent page) = true := ((Bool.and_eq_true _ _).mp hpriv).1
    obtain ⟨halloc, -⟩ := hpre.mapped page _ hidx hmaps
    have hpres' : present (leaf m'.mem 3 parent page) = true := by rw [hclear, present_clearWritable, hpres]
    have huser' : user (leaf m'.mem 3 parent page) = true := by rw [hclear, user_clearWritable, huser page hv hpres]
    have hget : pmmGetRefCount m'.pmm (frameOf (leaf m'.mem 3 parent page)) ≤ 1 := by
      rw [hclear, frameOf_clearWritable, pmmGetRefCount, if_pos (h.use.total ▸ halloc.high),
        h.use.refs _ halloc.bit, hcount]
    obtain ⟨t, i, hslot, hleaf⟩ := slot_of_present hpres'
    rw [hleaf] at hpres' huser' hget
    have hcall : vmmHandleCow m' parent page = (true, m'.set t i (setWritable (m'.mem t i))) := by
      rw [vmmHandleCow, vmmWalkToPte, walkToPte_false, hslot]
      dsimp only
      rw [if_neg (by rw [hpres', huser']; decide), if_pos hget]
    have hnodup : (tables m'.mem 3 parent).Nodup := h.parentTables ▸ hpre.tree.nodup
    have hstore := (storeSpec_set (w := setWritable (m'.mem t i)) hnodup hv hslot).leaf page hv
    rw [if_pos rfl, ← hleaf, hclear, setWritable_clearWritable hw] at hstore
    rw [hcall]
    refine ⟨rfl, rfl, ?_⟩
    rw [← hleaf, hclear, setWritable_clearWritable hw]
    exact hstore

theorem CopyOk.undo (h : CopyOk m m' 3 parent child) (hpre : CopyPre m 3 parent) :
    CopyFailed m (vmmFreeTable m' 3 child) 3 parent := by
  have hrefs : ∀ g, refsIn m'.mem 3 child g = refsIn m.mem 3 parent g := by
    intro g
    refine refsIn_congr fun v hv => ?_
    rw [h.childLeaf v (tableIndex_lt_limit hv), maps_childEntry]
  have hcount : ∀ g, (freed m'.mem 3 child).count g = refsIn m.mem 3 parent g + (tables m'.mem 3 child).count g := by
    intro g
    rw [count_freed le_rfl, hrefs]
  have hmapped : ∀ g, 0 < refsIn m.mem 3 parent g → m.pmm.Allocated g ∧ 0 < m.pmm.refCounts g := by
    intro g hpos
    obtain ⟨v, hv, hmaps⟩ := refsIn_pos.mp hpos
    exact hpre.mapped v g (tableIndex_lt_limit hv) hmaps
  have hpmm : (vmmFreeTable m' 3 child).pmm = (freed m'.mem 3 child).foldl pmmFreeFrame m'.pmm := freeTable_eq
  have hsame : SameUse m'.pmm m'.pmm := ⟨fun _ => rfl, fun _ _ => rfl, rfl, h.grow.ok⟩
  refine ⟨?_, h.keeps, h.parentTables, fun v hv => .inr (h.parentLeaf v hv)⟩
  rw [hpmm]
  exact h.grow.undo hsame hcount hmapped

/-- The state in which a fork enters `vmm_copy_hierarchy`: the empty table of the new task is given back. -/
def forkEntered (s : System) (queue : Bool) : Machine := vmmRetPml4 (schedNewTask s queue).2 (schedNewTask s queue).1

theorem taskFactoryFork_failed {s : System} {t : Task} {queue : Bool}
    (hnew : (schedNewTask s queue).1 ≠ 0) (hcopy : vmmCopyHierarchy (forkEntered s queue) s.kernPml4 t.pml4 = (c, m'))
    (hok : m'.pmm.Ok) (hfail : (taskFactoryFork s t pid queue).1 = false) :
    c = 0 ∧ (taskFactoryFork s t pid queue).2.machine = m' ∨
      c ≠ 0 ∧ (taskFactoryFork s t pid queue).2.machine = vmmFreeTable m' 3 c := by
  rw [taskFactoryFork] at hfail ⊢
  rw [forkEntered] at hcopy
  dsimp only at hfail ⊢
  rw [if_neg hnew, hcopy] at hfail ⊢
  dsimp only at hfail ⊢
  split at hfail
  · next hc =>
    rw [if_pos hc]
    exact .inl ⟨hc, rfl⟩
  next hc =>
  rw [if_neg hc]
  refine .inr ⟨hc, ?_⟩
  split at hfail
  · next hstk =>
    rw [if_pos hstk]
    rcases pmmAllocFrame_cases hok with ⟨hfull, -⟩ | ⟨f, hf, hlow, -⟩
    · rw [hfull, schedDestroyTask, if_pos hc]
      rfl
    rw [hf] at hstk
    dsimp only at hstk
    omega
  · cases hfail

/-- A failed fork changes nothing, in `vmm_copy_hierarchy` itself and in `task_factory_fork`. -/
theorem failed_fork_restores (hpre : CopyPre m 3 parent)
    (huser : ∀ page < pageCount 3, present (leaf m.mem 3 parent page) = true → user (leaf m.mem 3 parent page) = true) :
    (∀ kernPml4, (vmmCopyHierarchy m kernPml4 parent).1 = 0 →
      Restored m (vmmCopyHierarchy m kernPml4 parent).2 parent) ∧
    ∀ s t pid queue, (schedNewTask s queue).1 ≠ 0 → forkEntered s queue = m → t.pml4 = parent →
      (taskFactoryFork s t pid queue).1 = false → Restored m (taskFactoryFork s t pid queue).2.machine parent := by
  have hspec : ∀ kernPml4, CopySpec m 3 parent (vmmCopyHierarchy m kernPml4 parent) := fun kernPml4 =>
    copyHierarchy_spec hpre le_rfl
  have hrow : ∀ kernPml4, (vmmCopyHierarchy m kernPml4 parent).2.mem parent = m.mem parent := fun kernPml4 =>
    (copyHierarchy_upper kernPml4 hpre).1
  constructor
  · intro kernPml4 hzero
    rcases hspec kernPml4 with ⟨hne, -⟩ | ⟨-, hfailed⟩
    · exact absurd hzero hne
    · exact hfailed.restored hpre (hrow kernPml4) huser
  · intro s t pid queue hnew hm ht hfail
    subst hm ht
    have hrow := hrow s.kernPml4
    have hspec := hspec s.kernPml4
    obtain ⟨⟨c, m'⟩, hcopy⟩ : ∃ r, vmmCopyHierarchy (forkEntered s queue) s.kernPml4 t.pml4 = r := ⟨_, rfl⟩
    rw [hcopy] at hrow hspec
    have hok : m'.pmm.Ok := by
      rcases hspec with ⟨-, -, hdone⟩ | ⟨-, hfailed⟩
      · exact hdone.grow.ok
      · exact hfailed.use.ok
    rcases taskFactoryFork_failed hnew hcopy hok hfail with ⟨hc, hres⟩ | ⟨hc, hres⟩
    · rw [hres]
      exact (hspec.resolve_left fun h => h.1 hc).2.restored hpre hrow huser
    obtain ⟨-, -, hdone⟩ := hspec.resolve_right fun h => hc h.1
    rw [hres]
    exact (hdone.undo hpre).restored hpre hrow huser

/-- A machine in which a task with a stack page leaves two frames. -/
def tightMachine : Machine := ⟨⟨fun i => decide (i < 256), fun _ => 0, 264, 256⟩, fun _ _ => 0⟩

theorem tightMachine_ok : tightMachine.pmm.Ok := ⟨fun i hi => by simpa [tightMachine] using hi, by decide, by decide⟩

def tightRun : List (Action × Outcome) :=
  [(.create 1 true, .ok true), (.access 1 0xFFFFF8 (some 7) true, .fault (.stack 258 true))]

set_option maxRecDepth 100000 in
/-- The copy of the task gets frames for two of its four tables. -/
theorem failed_fork_restores_tight : ∃ s, exec stepTo (System.boot tightMachine 0) tightRun = some s ∧
    (vmmCopyHierarchy s.machine 0 256).1 = 0 ∧ Restored s.machine (vmmCopyHierarchy s.machine 0 256).2 256 := by
  have hexec : ((exec stepTo (System.boot tightMachine 0) tightRun).map fun s =>
      ((vmmCopyHierarchy s.machine 0 256).1, s.roots)) = some (0, [256]) := by decide +kernel
  obtain ⟨s, hs, hres⟩ := Option.map_eq_some_iff.mp hexec
  obtain ⟨hzero, hroots⟩ := Prod.mk.inj hres
  have hrun : SystemRun (System.boot tightMachine 0) tightRun s := by
    refine systemRun_of_exec ?_ hs
    intro l hl s
    fin_cases hl <;> exact trivial
  have hinv := ((reached_boot tightMachine_ok).of_run hrun).inv.space
  have hmem : 256 ∈ s.roots := by
    rw [hroots]
    exact List.mem_singleton_self _
  exact ⟨s, hs, hzero, (failed_fork_restores (hinv.copyPre hmem) fun page hv hp => hinv.userOk 256 hmem page hv hp).1 0 hzero⟩

end NyanOS.Memory
