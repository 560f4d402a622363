import NyanOS.Memory.Space

/-! What the operations on frames, entries and whole trees do to the invariant. -/

namespace NyanOS.Memory

open List

variable {base : Nat → Bool} {m m' m₁ : Machine} {p q : Pmm}
  {kern kern' roots rest new roots' : List Nat} {r page v f g i child r' : Nat} {w e e' : Word} {mem' : Nat → Nat → Word}

/-- Two entries that differ at most in the writable bit of a private page. -/
structure SameTarget (e e' : Word) : Prop where
  present : present e' = present e
  frame : frameOf e' = frameOf e
  shared : shared e' = shared e
  user : user e' = user e
  writable : NyanOS.Memory.shared e = true → writable e' = writable e

theorem SameTarget.refl : SameTarget e e := ⟨rfl, rfl, rfl, rfl, fun _ => rfl⟩

theorem Maps.flags (h : Maps e f) : present e = true ∧ shared e = false := by simpa [isPrivate] using h.1

theorem SameTarget.maps_iff (h : SameTarget e e') : Maps e' f ↔ Maps e f := by
  simp only [Maps, isPrivate, h.present, h.shared, h.frame]

theorem sameTarget_setWritable (hs : shared e = false) : SameTarget e (setWritable e) := by
  refine ⟨by simp, by simp, by simp, by simp, ?_⟩
  intro hsh
  simp [hs] at hsh

theorem sameTarget_parentEntry : SameTarget e (parentEntry e) := by
  by_cases hp : present e = true
  · simp only [parentEntry, hp, if_true]
    exact ⟨by simp, by simp, by simp, by simp, fun hs => by rw [forkEntry_of_shared hs]⟩
  · simp only [parentEntry, hp]
    exact .refl

/-! ### The two parts of the invariant -/

/-- What a frame is used for: since the system started, not at all, as a table or by the kernel, or behind pages. -/
inductive FrameUse (base : Nat → Bool) (p : Pmm) (own : List Nat) (refs : Nat → Nat) (g : Nat) : Prop
  | boot (hbase : base g = true) (hbit : p.bitmap g = true) (hown : g ∉ own) (hrefs : refs g = 0)
  | free (hbase : base g = false) (hbit : p.bitmap g = false) (hown : g ∉ own) (hrefs : refs g = 0)
  | owned (hbase : base g = false) (ha : p.Allocated g) (hown : g ∈ own) (hrefs : refs g = 0) (hcount : p.refCounts g = 1)
  | mapped (hbase : base g = false) (ha : p.Allocated g) (hown : g ∉ own) (hrefs : 0 < refs g)
      (hcount : p.refCounts g = refs g)

theorem Inv.frame (hi : Inv base m kern roots) (g : Nat) :
    FrameUse base m.pmm (allTables m.mem roots ++ kern) (totalRefs m.mem roots) g := by
  by_cases hown : g ∈ allTables m.mem roots ++ kern
  · obtain ⟨ha, hcount, hbase⟩ := hi.owned g hown
    exact .owned hbase ha hown (hi.totalRefs_owned hown) hcount
  by_cases hrefs : 0 < totalRefs m.mem roots g
  · obtain ⟨r, hr, v, hv, hmaps⟩ := totalRefs_pos.mp hrefs
    obtain ⟨ha, -, hcount, hbase⟩ := hi.mapped r hr v hv g hmaps
    exact .mapped hbase ha hown hrefs hcount
  cases hbit : m.pmm.bitmap g with
  | false => exact .free (hi.of_clear hbit).2.2 hbit hown (by omega)
  | true => exact .boot (by simpa [hown, hrefs] using hi.taken g hbit) hbit hown (by omega)

theorem allocated_congr (ha : p.Allocated g) (htotal : q.totalPages = p.totalPages) (hbit : q.bitmap g = true) :
    q.Allocated g := ⟨ha.low, htotal ▸ ha.high, hbit⟩

section FrameUse

variable {own own' : List Nat} {refs refs' : Nat → Nat}

theorem FrameUse.congr (h : FrameUse base p own refs g) (hbit : q.bitmap g = p.bitmap g)
    (hcount : p.bitmap g = true → q.refCounts g = p.refCounts g) (htotal : q.totalPages = p.totalPages)
    (hown : g ∈ own' ↔ g ∈ own) (hrefs : refs' g = refs g) : FrameUse base q own' refs' g := by
  cases h with
  | boot hb hset ho hr => exact .boot hb (hbit.trans hset) (hown.not.mpr ho) (hrefs.trans hr)
  | free hb hclear ho hr => exact .free hb (hbit.trans hclear) (hown.not.mpr ho) (hrefs.trans hr)
  | owned hb ha ho hr hc =>
    exact .owned hb (allocated_congr ha htotal (hbit.trans ha.bit)) (hown.mpr ho) (hrefs.trans hr) ((hcount ha.bit).trans hc)
  | mapped hb ha ho hr hc =>
    refine .mapped hb (allocated_congr ha htotal (hbit.trans ha.bit)) (hown.not.mpr ho) (hrefs ▸ hr) ?_
    rw [hcount ha.bit, hc, hrefs]

end FrameUse

/-- The entries of the address spaces. -/
structure Entries (mem : Nat → Nat → Word) (kern roots : List Nat) : Prop where
  sharedOk : ∀ r ∈ roots, ∀ v < pageCount 3, present (leaf mem 3 r v) = true → shared (leaf mem 3 r v) = true →
    frameOf (leaf mem 3 r v) ∈ kern ∧ writable (leaf mem 3 r v) = true
  userOk : ∀ r ∈ roots, ∀ v < pageCount 3, present (leaf mem 3 r v) = true → user (leaf mem 3 r v) = true
  exclusive : ∀ r ∈ roots, ∀ v < pageCount 3, ∀ f, Maps (leaf mem 3 r v) f → writable (leaf mem 3 r v) = true →
    totalRefs mem roots f = 1
  home : ∀ r ∈ roots, ∀ v < pageCount 3, ∀ r' ∈ roots, ∀ v' < pageCount 3, ∀ f,
    Maps (leaf mem 3 r v) f → Maps (leaf mem 3 r' v') f → v = v'

theorem Inv.of_frames (hok : m.pmm.Ok) (hfew : roots.length ≤ maxTasks) (hnodup : (allTables m.mem roots ++ kern).Nodup)
    (hframes : ∀ g, FrameUse base m.pmm (allTables m.mem roots ++ kern) (totalRefs m.mem roots) g)
    (hentries : Entries m.mem kern roots) : Inv base m kern roots := by
  refine ⟨hok, hfew, fun g hg => ?_, hnodup, fun g hg => ?_, fun r hr v hv f hf => ?_, hentries.sharedOk, hentries.userOk,
    hentries.exclusive, hentries.home, fun g hg => ?_⟩
  · cases hframes g <;> simp_all
  · cases hframes g <;> simp_all
  · have hpos := totalRefs_pos.mpr ⟨r, hr, v, hv, hf⟩
    cases hframes f with
    | mapped hbase ha hown _ hcount => exact ⟨ha, hown, hcount, hbase⟩
    | _ => omega
  · cases hframes g <;> simp_all

theorem Entries.of_old (hi : Inv base m kern roots)
    (hfrom : ∀ r ∈ roots', ∀ v < pageCount 3, present (leaf mem' 3 r v) = true → ∃ r₀ ∈ roots,
      SameTarget (leaf m.mem 3 r₀ v) (leaf mem' 3 r v) ∧ ∀ f, Maps (leaf mem' 3 r v) f →
        writable (leaf mem' 3 r v) = true → totalRefs mem' roots' f = 1)
    (hkern : ∀ r ∈ roots, ∀ v < pageCount 3, present (leaf m.mem 3 r v) = true → shared (leaf m.mem 3 r v) = true →
      frameOf (leaf m.mem 3 r v) ∈ kern → frameOf (leaf m.mem 3 r v) ∈ kern') : Entries mem' kern' roots' := by
  refine ⟨fun r hr v hv hp hs => ?_, fun r hr v hv hp => ?_, fun r hr v hv f hf => ?_, fun r hr v hv r' hr' v' hv' f hf hf' => ?_⟩
  · obtain ⟨r₀, hr₀, hst, -⟩ := hfrom r hr v hv hp
    rw [hst.present] at hp
    rw [hst.shared] at hs
    rw [hst.frame, hst.writable hs]
    obtain ⟨hmem, hw⟩ := hi.sharedOk r₀ hr₀ v hv hp hs
    exact ⟨hkern r₀ hr₀ v hv hp hs hmem, hw⟩
  · obtain ⟨r₀, hr₀, hst, -⟩ := hfrom r hr v hv hp
    rw [hst.present] at hp
    rw [hst.user]
    exact hi.userOk r₀ hr₀ v hv hp
  · obtain ⟨-, -, -, hone⟩ := hfrom r hr v hv hf.flags.1
    exact hone f hf
  · obtain ⟨r₀, hr₀, hst, -⟩ := hfrom r hr v hv hf.flags.1
    obtain ⟨r₁, hr₁, hst', -⟩ := hfrom r' hr' v' hv' hf'.flags.1
    exact hi.home r₀ hr₀ v hv r₁ hr₁ v' hv' f (hst.maps_iff.mp hf) (hst'.maps_iff.mp hf')

theorem Entries.same (hi : Inv base m kern roots)
    (hsame : ∀ r ∈ roots', ∀ v < pageCount 3, present (leaf mem' 3 r v) = true →
      r ∈ roots ∧ leaf mem' 3 r v = leaf m.mem 3 r v) (hle : ∀ f, totalRefs mem' roots' f ≤ totalRefs m.mem roots f)
    (hkern : ∀ r ∈ roots, ∀ v < pageCount 3, present (leaf m.mem 3 r v) = true → shared (leaf m.mem 3 r v) = true →
      frameOf (leaf m.mem 3 r v) ∈ kern → frameOf (leaf m.mem 3 r v) ∈ kern') : Entries mem' kern' roots' := by
  refine .of_old hi (fun r hr v hv hp => ?_) hkern
  obtain ⟨hr₀, hl⟩ := hsame r hr v hv hp
  refine ⟨r, hr₀, hl ▸ .refl, fun f hf hw => ?_⟩
  have hpos : 0 < totalRefs mem' roots' f := totalRefs_pos.mpr ⟨r, hr, v, hv, hf⟩
  rw [hl] at hf hw
  have hone := hi.exclusive r hr₀ v hv f hf hw
  have := hle f
  omega

/-! ### Operations -/

/-- Writable bits may change, as long as a writable private entry stays the only one. -/
theorem Inv.relabel (hi : Inv base m kern roots) (hu : SameUse m.pmm m'.pmm)
    (ht : ∀ r ∈ roots, tables m'.mem 3 r = tables m.mem 3 r)
    (hl : ∀ r ∈ roots, ∀ v < pageCount 3, SameTarget (leaf m.mem 3 r v) (leaf m'.mem 3 r v))
    (hx : ∀ r ∈ roots, ∀ v < pageCount 3, ∀ f, Maps (leaf m.mem 3 r v) f →
      writable (leaf m'.mem 3 r v) = true → totalRefs m.mem roots f = 1) : Inv base m' kern roots := by
  have htotal : ∀ f, totalRefs m'.mem roots f = totalRefs m.mem roots f :=
    fun f => totalRefs_congr fun r hr v hv => (hl r hr v hv).maps_iff
  have hall := allTables_congr ht
  refine .of_frames hu.ok hi.few (hall ▸ hi.nodup) (fun g => ?_) (.of_old hi (fun r hr v hv _ => ?_) fun _ _ _ _ _ _ hk => hk)
  · exact (hi.frame g).congr (hu.bitmap g) (hu.refs g) hu.total (by rw [hall]) (htotal g)
  · refine ⟨r, hr, hl r hr v hv, fun f hf hw => ?_⟩
    rw [htotal]
    exact hx r hr v hv f ((hl r hr v hv).maps_iff.mp hf) hw

theorem SameUse.of_eq (hok : p.Ok) (h : q = p) : SameUse p q := by
  subst h
  exact ⟨fun _ => rfl, fun _ _ => rfl, rfl, hok⟩

theorem leaf_of_not_table (hf : f ∉ allTables m.mem roots) (hm : ∀ g, g ≠ f → m'.mem g = m.mem g) (hr : r ∈ roots) :
    tables m'.mem 3 r = tables m.mem 3 r ∧ ∀ v < pageCount 3, leaf m'.mem 3 r v = leaf m.mem 3 r v := by
  have hsame : ∀ g ∈ tables m.mem 3 r, m'.mem g = m.mem g := by
    intro g hg
    refine hm g ?_
    rintro rfl
    exact hf (mem_allTables.mpr ⟨r, hr, hg⟩)
  refine ⟨tables_congr hsame, ?_⟩
  intro v hv
  exact leaf_congr hsame (tableIndex_lt_limit hv) le_rfl

theorem Inv.rewrite (hi : Inv base m kern roots) (hf : f ∉ allTables m.mem roots)
    (hp : m'.pmm = m.pmm) (hm : ∀ g, g ≠ f → m'.mem g = m.mem g) : Inv base m' kern roots := by
  have hkeep := fun r (hr : r ∈ roots) => leaf_of_not_table hf hm hr
  refine hi.relabel (.of_eq hi.pmm hp) (fun r hr => (hkeep r hr).1) ?_ ?_
  · intro r hr v hv
    rw [(hkeep r hr).2 v hv]
    exact .refl
  · intro r hr v hv f hmaps hw
    rw [(hkeep r hr).2 v hv] at hw
    exact hi.exclusive r hr v hv f hmaps hw

/-- New frames in use that become tables or the kernel's, with every entry unchanged. -/
theorem Inv.grow (hi : Inv base m kern roots) (hg : Grow m.pmm m'.pmm new fun _ => 0)
    (hperm : (allTables m'.mem roots ++ kern').Perm (new ++ (allTables m.mem roots ++ kern)))
    (hkern : ∀ g ∈ kern, g ∈ kern') (hleaf : ∀ r ∈ roots, ∀ v < pageCount 3, leaf m'.mem 3 r v = leaf m.mem 3 r v) :
    Inv base m' kern' roots := by
  have htotal : ∀ f, totalRefs m'.mem roots f = totalRefs m.mem roots f :=
    fun f => totalRefs_congr fun r hr v hv => by rw [hleaf r hr v hv]
  have hclear : ∀ g ∈ new, g ∉ allTables m.mem roots ++ kern ∧ totalRefs m.mem roots g = 0 ∧
      base g = false := fun g hmem => hi.of_clear (hg.fresh g hmem).2.2
  refine .of_frames hg.ok hi.few ?_ (fun g => ?_) (.same hi (fun r hr v hv _ => ⟨hr, hleaf r hr v hv⟩) (fun f => (htotal f).le)
    fun _ _ _ _ _ _ => hkern _)
  · rw [hperm.nodup_iff, nodup_append']
    exact ⟨hg.nodup, hi.nodup, fun g hnew hmem => (hclear g hnew).1 hmem⟩
  · have hmem : g ∈ allTables m'.mem roots ++ kern' ↔ g ∈ new ∨ g ∈ allTables m.mem roots ++ kern := by
      rw [hperm.mem_iff, mem_append]
    by_cases hnew : g ∈ new
    · obtain ⟨hlow, hhigh, _⟩ := hg.fresh g hnew
      obtain ⟨-, hzero, hbase⟩ := hclear g hnew
      refine .owned hbase ⟨hlow, hg.total ▸ hhigh, hg.bit_new hnew⟩ (hmem.mpr (.inl hnew)) ((htotal g).trans hzero) ?_
      rw [hg.refs, if_pos hnew]
    · refine (hi.frame g).congr ?_ (fun _ => ?_) hg.total (by simp [hmem, hnew]) (htotal g)
      · simp [hg.bitmap, hnew]
      · rw [hg.refs, if_neg hnew, add_zero]

theorem Inv.walk (hi : Inv base m kern (r :: rest)) (hw : WalkSpec m m' 3 r new) : Inv base m' kern (r :: rest) ∧
      ∀ r' ∈ r :: rest, ∀ v < pageCount 3, leaf m'.mem 3 r' v = leaf m.mem 3 r' v := by
  have hother := hi.other_spaces hw.keeps
  have hleaf : ∀ r' ∈ r :: rest, ∀ v < pageCount 3, leaf m'.mem 3 r' v = leaf m.mem 3 r' v := by
    intro r' hr' v hv
    rcases mem_cons.mp hr' with rfl | hr'
    · exact hw.leaf v (tableIndex_lt_limit hv)
    · exact (hother r' hr').2 v hv
  refine ⟨hi.grow hw.grow ?_ (fun _ h => h) hleaf, hleaf⟩
  rw [allTables_cons, allTables_cons, allTables_congr fun r' hr' => (hother r' hr').1]
  simp only [← append_assoc]
  exact (hw.tables.append_right _).append_right _

theorem Inv.take (hi : Inv base m kern roots) (hlow : 256 ≤ f) (hhigh : f < m.pmm.totalPages)
    (hclear : m.pmm.bitmap f = false) (c : Nat → Word) : Inv base ((m.take f).fill f c) (f :: kern) roots := by
  have hf := (hi.of_clear hclear).1
  have hkeep : ∀ r ∈ roots, tables ((m.take f).fill f c).mem 3 r = tables m.mem 3 r ∧
      ∀ v < pageCount 3, leaf ((m.take f).fill f c).mem 3 r v = leaf m.mem 3 r v := by
    intro r hr
    refine leaf_of_not_table (fun hmem => hf (mem_append_left _ hmem)) ?_ hr
    intro g hg
    exact mem_fill_of_ne c hg
  refine hi.grow (grow_take hi.pmm hlow hhigh hclear) ?_ (fun g hg => by simp [hg]) (fun r hr => (hkeep r hr).2)
  rw [allTables_congr fun r hr => (hkeep r hr).1]
  exact perm_middle

/-- No shared mapping points to the frame. -/
def Unshared (m : Machine) (roots : List Nat) (frame : Nat) : Prop :=
  ∀ r ∈ roots, ∀ v < pageCount 3, present (leaf m.mem 3 r v) = true →
    shared (leaf m.mem 3 r v) = true → frameOf (leaf m.mem 3 r v) ≠ frame

theorem Inv.give (hi : Inv base m (f :: kern) roots) (hsh : Unshared m roots f) :
    Inv base { m with pmm := pmmFreeFrame m.pmm f } kern roots := by
  have hmid : (allTables m.mem roots ++ f :: kern).Perm (f :: (allTables m.mem roots ++ kern)) := perm_middle
  have hnd := hmid.nodup_iff.mp hi.nodup
  obtain ⟨hne, hnd⟩ := nodup_cons.mp hnd
  obtain ⟨ha, href, hbase⟩ := hi.owned f (by simp)
  obtain ⟨hrefs, hbits, htotal⟩ := pmmFreeFrame_spec ha (by omega)
  refine .of_frames (ok_freeFrame hi.pmm) hi.few hnd (fun g => ?_) (.same hi (fun _ hr _ _ _ => ⟨hr, rfl⟩) (fun _ => le_rfl) ?_)
  · by_cases hgf : g = f
    · subst hgf
      exact .free hbase (by simp [hbits, href]) hne (hi.totalRefs_owned (by simp))
    · refine (hi.frame g).congr (by simp [hbits, hgf]) (fun _ => by simp [hrefs, hgf]) htotal ?_ rfl
      simp [hmid.mem_iff, hgf]
  · intro r hr v hv hp hs hin
    exact (mem_cons.mp hin).resolve_left (hsh r hr v hv hp hs)

/-- A frame of the kernel with an empty user half becomes the root of an address space. -/
theorem Inv.addRoot (hi : Inv base m (f :: kern) roots) (hlen : roots.length < maxTasks)
    (hsh : Unshared m roots f) (ht : tables m.mem 3 f = [f])
    (hl : ∀ v < pageCount 3, leaf m.mem 3 f v = 0) : Inv base m kern (f :: roots) := by
  have hnone : ∀ v < pageCount 3, ∀ g, ¬ Maps (leaf m.mem 3 f v) g := by
    intro v hv g hmaps
    rw [hl v hv] at hmaps
    exact absurd hmaps.1 (by decide)
  have hrefs : ∀ g, totalRefs m.mem (f :: roots) g = totalRefs m.mem roots g := by
    intro g
    rw [totalRefs_cons, Nat.add_eq_right]
    by_contra hpos
    obtain ⟨v, hv, hmaps⟩ := refsIn_pos.mp (pos_of_ne_zero hpos)
    exact hnone v hv g hmaps
  have hall : (allTables m.mem (f :: roots) ++ kern).Perm (allTables m.mem roots ++ f :: kern) := by
    rw [allTables_cons, ht]
    exact perm_middle.symm
  refine .of_frames hi.pmm (by simpa using hlen) (hall.nodup_iff.mpr hi.nodup)
    (fun g => (hi.frame g).congr rfl (fun _ => rfl) rfl hall.mem_iff (hrefs g)) (.same hi ?_ (fun g => (hrefs g).le) ?_)
  · intro r hr v hv hp
    rcases mem_cons.mp hr with rfl | hr
    · rw [hl v hv] at hp
      exact absurd hp (by decide)
    · exact ⟨hr, rfl⟩
  · intro r hr v hv hp hs hin
    exact (mem_cons.mp hin).resolve_left (hsh r hr v hv hp hs)

/-- `q` is `p` after the frame of an entry lost the reference of this entry. -/
structure Drop (p q : Pmm) (e : Word) : Prop where
  refs : ∀ g, q.refCounts g + (if Maps e g then 1 else 0) = p.refCounts g
  bits : ∀ g, q.bitmap g = if Maps e g ∧ p.refCounts g = 1 then false else p.bitmap g
  total : q.totalPages = p.totalPages
  ok : q.Ok

theorem drop_none (hok : p.Ok) (he : isPrivate e = false) : Drop p p e := by
  have hnot : ∀ g, ¬ Maps e g := fun g h => by simp [h.1] at he
  exact ⟨fun g => by simp [hnot g], fun g => by simp [hnot g], rfl, hok⟩

theorem drop_decRef (hok : p.Ok) (he : Maps e f) (ha : p.Allocated f) (hpos : 0 < p.refCounts f) :
    Drop p (pmmDecRef p f) e := by
  have hiff : ∀ g, Maps e g ↔ g = f := by
    intro g
    simp only [Maps, he.1, he.2, true_and]
    exact eq_comm
  obtain ⟨hrefs, hbits, htotal⟩ := pmmFreeFrame_spec ha hpos
  refine ⟨?_, ?_, htotal, ok_freeFrame hok⟩
  · intro g
    simp only [pmmDecRef, hrefs, hiff]
    split
    · next heq =>
      subst heq
      omega
    · rfl
  · intro g
    simp only [pmmDecRef, hbits, hiff]
    by_cases hg : g = f
    · subst hg
      rfl
    · simp [hg]

section

variable (hi : Inv base m kern (r :: rest)) (hs : StoreSpec m m' r page w)
include hi hs

theorem totalRefs_store (hv : page < pageCount 3) :
    totalRefs m'.mem (r :: rest) g + (if Maps (leaf m.mem 3 r page) g then 1 else 0) =
      totalRefs m.mem (r :: rest) g + (if Maps w g then 1 else 0) := by
  have hother := hi.other_spaces fun g _ hg => hs.keeps g hg
  have hrest : totalRefs m'.mem rest g = totalRefs m.mem rest g :=
    totalRefs_congr fun r' hr' v hv => by rw [(hother r' hr').2 v hv]
  have hone : refsIn m'.mem 3 r g + (if Maps (leaf m.mem 3 r page) g then 1 else 0) =
      refsIn m.mem 3 r g + (if Maps (leaf m'.mem 3 r page) g then 1 else 0) := by
    refine refsIn_update hv ?_
    intro u hu hne
    rw [hs.leaf u hu, if_neg hne]
  rw [hs.leaf page hv, if_pos rfl] at hone
  rw [totalRefs_cons, totalRefs_cons, hrest]
  omega

theorem store_leaf (hr' : r' ∈ r :: rest) (hv : v < pageCount 3) :
    leaf m'.mem 3 r' v = if r' = r ∧ v = page then w else leaf m.mem 3 r' v := by
  by_cases heq : r' = r
  · subst heq
    simp [hs.leaf v hv]
  · have hmem : r' ∈ rest := by simpa [heq] using hr'
    simp [heq, ((hi.other_spaces fun g _ hg => hs.keeps g hg) r' hmem).2 v hv]

theorem store_allTables : allTables m'.mem (r :: rest) = allTables m.mem (r :: rest) := by
  refine allTables_congr ?_
  intro r' hr'
  rcases mem_cons.mp hr' with rfl | hr'
  · exact hs.tables
  · exact ((hi.other_spaces fun g _ hg => hs.keeps g hg) r' hr').1

end

/-- The entry of one page is replaced and its old frame dropped. A private new frame comes from
the kernel's frames, as `pmm_alloc_frame` hands it out. -/
theorem Inv.replace (fresh : List Nat) (hi : Inv base m (fresh ++ kern) (r :: rest))
    (hv : page < pageCount 3) (hs : StoreSpec m m' r page w) (hd : Drop m.pmm m'.pmm (leaf m.mem 3 r page))
    (hw : ∀ f, Maps w f ↔ f ∈ fresh) (huser : present w = true → user w = true)
    (hsh : present w = true → shared w = true → frameOf w ∈ kern ∧ writable w = true)
    (hfree : ∀ f ∈ fresh, Unshared m (r :: rest) f) : Inv base m' kern (r :: rest) := by
  have hall := store_allTables hi hs
  have hleaf := fun r' (hr' : r' ∈ r :: rest) v (hv : v < pageCount 3) => store_leaf hi hs hr' hv
  have htotal := fun g => totalRefs_store (g := g) hi hs hv
  have hsplit : (allTables m.mem (r :: rest) ++ (fresh ++ kern)).Perm
      (fresh ++ (allTables m.mem (r :: rest) ++ kern)) := by
    simp only [← append_assoc]
    exact perm_append_comm.append_right _
  obtain ⟨_, hnd, hdisj⟩ := nodup_append'.mp (hsplit.nodup_iff.mp hi.nodup)
  have hmem : ∀ g, g ∈ allTables m.mem (r :: rest) ++ (fresh ++ kern) ↔
      g ∈ fresh ∨ g ∈ allTables m.mem (r :: rest) ++ kern := fun g => by rw [hsplit.mem_iff, mem_append]
  have hnew : ∀ g ∈ fresh, ¬ Maps (leaf m.mem 3 r page) g ∧ totalRefs m'.mem (r :: rest) g = 1 := by
    intro g hg
    have hin := (hmem g).mpr (.inl hg)
    have hnot : ¬ Maps (leaf m.mem 3 r page) g := fun hmaps => (hi.mapped r (by simp) page hv g hmaps).2.1 hin
    have hT := htotal g
    simp only [hnot, if_false, (hw g).mpr hg, if_true, hi.totalRefs_owned hin] at hT
    exact ⟨hnot, by omega⟩
  -- the private entries of the new state: the new one and the others
  have hcases : ∀ r' ∈ r :: rest, ∀ u < pageCount 3, ∀ f, Maps (leaf m'.mem 3 r' u) f →
      (r' = r ∧ u = page ∧ f ∈ fresh) ∨ (f ∉ fresh ∧ Maps (leaf m.mem 3 r' u) f ∧
        leaf m'.mem 3 r' u = leaf m.mem 3 r' u) := by
    intro r' hr' u hu f hmaps
    rw [hleaf r' hr' u hu] at hmaps ⊢
    by_cases heq : r' = r ∧ u = page
    · rw [if_pos heq] at hmaps
      exact .inl ⟨heq.1, heq.2, (hw f).mp hmaps⟩
    rw [if_neg heq] at hmaps ⊢
    refine .inr ⟨?_, hmaps, rfl⟩
    intro hf
    exact (hi.mapped r' hr' u hu f hmaps).2.1 (by simp [hf])
  refine .of_frames hd.ok hi.few (hall ▸ hnd) (fun g => ?_) ⟨?_, ?_, ?_, ?_⟩
  · rw [hall]
    have hT := htotal g
    have hR := hd.refs g
    have hB := hd.bits g
    simp only [hw] at hT
    by_cases hf : g ∈ fresh
    · obtain ⟨ha, hcount, hbase⟩ := hi.owned g ((hmem g).mpr (.inl hf))
      obtain ⟨hnot, hone⟩ := hnew g hf
      simp only [hnot, if_false, false_and] at hR hB
      exact .mapped hbase (allocated_congr ha hd.total (hB.trans ha.bit)) (hdisj hf) (by omega) (by omega)
    by_cases hold : Maps (leaf m.mem 3 r page) g
    · -- the frame loses a reference, and is free if this was the last one
      obtain ⟨ha, hown, hcount, hbase⟩ := hi.mapped r (by simp) page hv g hold
      rw [hmem, not_or] at hown
      simp only [hold, if_true, hf, if_false, true_and] at hT hR hB
      by_cases hlast : m.pmm.refCounts g = 1
      · exact .free hbase (by simpa [hlast] using hB) hown.2 (by omega)
      · rw [if_neg hlast] at hB
        exact .mapped hbase (allocated_congr ha hd.total (hB.trans ha.bit)) hown.2 (by omega) (by omega)
    · simp only [hold, if_false, false_and, hf] at hT hR hB
      exact (hi.frame g).congr hB (fun _ => by omega) hd.total (by rw [hmem, or_iff_right hf]) (by omega)
  · intro r' hr' u hu hp hs'
    rw [hleaf r' hr' u hu] at hp hs' ⊢
    by_cases heq : r' = r ∧ u = page
    · simp only [if_pos heq] at hp hs' ⊢
      exact hsh hp hs'
    simp only [if_neg heq] at hp hs' ⊢
    obtain ⟨hin, hwr⟩ := hi.sharedOk r' hr' u hu hp hs'
    rcases mem_append.mp hin with hf | hin
    · exact absurd rfl (hfree _ hf r' hr' u hu hp hs')
    · exact ⟨hin, hwr⟩
  · intro r' hr' u hu
    rw [hleaf r' hr' u hu]
    split
    · exact huser
    · exact hi.userOk r' hr' u hu
  · intro r' hr' u hu f hmaps hwr
    rcases hcases r' hr' u hu f hmaps with ⟨_, _, hf⟩ | ⟨hf, hold, heq⟩
    · exact (hnew f hf).2
    rw [heq] at hwr
    have hone := hi.exclusive r' hr' u hu f hold hwr
    have hpos : 0 < totalRefs m'.mem (r :: rest) f := totalRefs_pos.mpr ⟨r', hr', u, hu, hmaps⟩
    have hnot : ¬ Maps w f := fun h => hf ((hw f).mp h)
    have hT := htotal f
    simp only [hnot, if_false, add_zero] at hT
    omega
  · intro r₁ hr₁ v₁ hv₁ r₂ hr₂ v₂ hv₂ f hmaps₁ hmaps₂
    rcases hcases r₁ hr₁ v₁ hv₁ f hmaps₁ with ⟨_, rfl, hf⟩ | ⟨hf, hold₁, _⟩
    · rcases hcases r₂ hr₂ v₂ hv₂ f hmaps₂ with ⟨_, rfl, _⟩ | ⟨hf', _, _⟩
      · rfl
      · exact absurd hf hf'
    rcases hcases r₂ hr₂ v₂ hv₂ f hmaps₂ with ⟨_, _, hf'⟩ | ⟨_, hold₂, _⟩
    · exact absurd hf' hf
    · exact hi.home r₁ hr₁ v₁ hv₁ r₂ hr₂ v₂ hv₂ f hold₁ hold₂

theorem Inv.totalRefs_fork (hi : Inv base m kern (r :: rest)) (hc : CopyOk m m' 3 r child) :
    totalRefs m'.mem (child :: r :: rest) f = totalRefs m.mem (r :: rest) f + refsIn m.mem 3 r f := by
  have hother := hi.other_spaces hc.keeps
  have hrest : totalRefs m'.mem rest f = totalRefs m.mem rest f :=
    totalRefs_congr fun r' hr' v hv => by rw [(hother r' hr').2 v hv]
  have hparent : refsIn m'.mem 3 r f = refsIn m.mem 3 r f :=
    refsIn_congr fun v hv => by rw [hc.parentLeaf v (tableIndex_lt_limit hv), maps_parentEntry]
  have hchild : refsIn m'.mem 3 child f = refsIn m.mem 3 r f :=
    refsIn_congr fun v hv => by rw [hc.childLeaf v (tableIndex_lt_limit hv), maps_childEntry]
  rw [totalRefs_cons, totalRefs_cons, totalRefs_cons, hrest, hparent, hchild]
  omega

theorem not_writable_parentEntry (h : Maps e f) : writable (parentEntry e) = false := by
  simp [parentEntry, h.flags.1, writable_forkEntry h.flags.2]

theorem not_writable_childEntry (h : Maps e f) : writable (childEntry e) = false := by
  simp [childEntry, h.flags.1, writable_forkEntry h.flags.2]

/-- The entry of the parent, before the fork, that an entry of parent or child comes from. -/
theorem fork_leaf (hi : Inv base m kern (r :: rest)) (hc : CopyOk m m' 3 r child)
    (hr' : r' ∈ child :: r :: rest) (hv : v < pageCount 3) :
    (r' = child ∧ leaf m'.mem 3 r' v = childEntry (leaf m.mem 3 r v)) ∨
    (r' = r ∧ leaf m'.mem 3 r' v = parentEntry (leaf m.mem 3 r v)) ∨
    (r' ∈ rest ∧ leaf m'.mem 3 r' v = leaf m.mem 3 r' v) := by
  rcases mem_cons.mp hr' with rfl | hr'
  · exact .inl ⟨rfl, hc.childLeaf v (tableIndex_lt_limit hv)⟩
  rcases mem_cons.mp hr' with rfl | hr'
  · exact .inr (.inl ⟨rfl, hc.parentLeaf v (tableIndex_lt_limit hv)⟩)
  · exact .inr (.inr ⟨hr', (hi.other_spaces hc.keeps r' hr').2 v hv⟩)

theorem sameTarget_childEntry (hp : present e = true) : SameTarget e (childEntry e) := by
  have heq : childEntry e = parentEntry e := by simp [childEntry, parentEntry, hp]
  rw [heq]
  exact sameTarget_parentEntry

section
variable (hi : Inv base m kern (r :: rest))
include hi

theorem Inv.fork (hlen : (r :: rest).length < maxTasks)
    (hc : CopyOk m m' 3 r child) : Inv base m' kern (child :: r :: rest) := by
  have hother := hi.other_spaces hc.keeps
  have htotal := fun f => hi.totalRefs_fork (f := f) hc
  have hall : allTables m'.mem (child :: r :: rest) = tables m'.mem 3 child ++ allTables m.mem (r :: rest) := by
    rw [allTables_cons, allTables_cons, allTables_cons, hc.parentTables,
      allTables_congr fun r' hr' => (hother r' hr').1]
  have hclear : ∀ g ∈ tables m'.mem 3 child, g ∉ allTables m.mem (r :: rest) ++ kern ∧
      totalRefs m.mem (r :: rest) g = 0 ∧ base g = false :=
    fun g hg => hi.of_clear (hc.grow.fresh g hg).2.2
  refine .of_frames hc.grow.ok hlen ?_ (fun g => ?_) (.of_old hi (fun r' hr' v hv hp => ?_) fun _ _ _ _ _ _ hk => hk)
  · rw [hall, append_assoc, nodup_append']
    exact ⟨hc.grow.nodup, hi.nodup, fun g hg hmem => (hclear g hg).1 hmem⟩
  · rw [hall, append_assoc]
    have hT := htotal g
    have hcons : totalRefs m.mem (r :: rest) g = refsIn m.mem 3 r g + totalRefs m.mem rest g := totalRefs_cons
    have hcount := hc.grow.refs g
    by_cases hnew : g ∈ tables m'.mem 3 child
    · obtain ⟨hlow, hhigh, _⟩ := hc.grow.fresh g hnew
      obtain ⟨-, hzero, hbase⟩ := hclear g hnew
      rw [if_pos hnew] at hcount
      exact .owned hbase ⟨hlow, hc.grow.total ▸ hhigh, hc.grow.bit_new hnew⟩ (mem_append_left _ hnew) (by omega) hcount
    have hmem : g ∈ tables m'.mem 3 child ++ (allTables m.mem (r :: rest) ++ kern) ↔ g ∈ allTables m.mem (r :: rest) ++ kern := by
      rw [mem_append, or_iff_right hnew]
    have hbit : m'.pmm.bitmap g = m.pmm.bitmap g := by simp [hc.grow.bitmap, hnew]
    rw [if_neg hnew] at hcount
    by_cases hzero : refsIn m.mem 3 r g = 0
    · exact (hi.frame g).congr hbit (fun _ => by omega) hc.grow.total hmem (by omega)
    obtain ⟨v, hv, hmaps⟩ := refsIn_pos.mp (pos_of_ne_zero hzero)
    obtain ⟨ha, hown, href, hbase⟩ := hi.mapped r (by simp) v hv g hmaps
    exact .mapped hbase (allocated_congr ha hc.grow.total (hbit.trans ha.bit)) (hmem.not.mpr hown) (by omega) (by omega)
  · rcases fork_leaf hi hc hr' hv with ⟨_, hl⟩ | ⟨_, hl⟩ | ⟨hmem, hl⟩
    · have hold : present (leaf m.mem 3 r v) = true := by
        by_contra hnot
        simp [hl, childEntry, hnot] at hp
      refine ⟨r, by simp, hl ▸ sameTarget_childEntry hold, fun f hf hw => ?_⟩
      rw [hl] at hf hw
      simp [not_writable_childEntry (maps_childEntry.mp hf)] at hw
    · refine ⟨r, by simp, hl ▸ sameTarget_parentEntry, fun f hf hw => ?_⟩
      rw [hl] at hf hw
      simp [not_writable_parentEntry (maps_parentEntry.mp hf)] at hw
    · -- a writable private page belongs to neither parent nor child
      refine ⟨r', by simp [hmem], hl ▸ .refl, fun f hf hw => ?_⟩
      rw [hl] at hf hw
      have hone := hi.exclusive r' (by simp [hmem]) v hv f hf hw
      have hpos : 0 < totalRefs m.mem rest f := totalRefs_pos.mpr ⟨r', hmem, v, hv, hf⟩
      rw [htotal]
      rw [totalRefs_cons] at hone ⊢
      omega

theorem Inv.copyFailed (hc : CopyFailed m m' 3 r) : Inv base m' kern (r :: rest) := by
  have hother := hi.other_spaces hc.keeps
  refine hi.relabel hc.use ?_ ?_ ?_
  · intro r' hr'
    rcases mem_cons.mp hr' with rfl | hr'
    · exact hc.parentTables
    · exact (hother r' hr').1
  · intro r' hr' v hv
    rcases mem_cons.mp hr' with rfl | hr'
    · rcases hc.parentLeaf v (tableIndex_lt_limit hv) with hl | hl
      · rw [hl]
        exact .refl
      · rw [hl]
        exact sameTarget_parentEntry
    · rw [(hother r' hr').2 v hv]
      exact .refl
  · intro r' hr' v hv f hmaps hw
    rcases mem_cons.mp hr' with rfl | hr'
    · rcases hc.parentLeaf v (tableIndex_lt_limit hv) with hl | hl
      · rw [hl] at hw
        exact hi.exclusive r' (by simp) v hv f hmaps hw
      · rw [hl, not_writable_parentEntry hmaps] at hw
        simp at hw
    · rw [(hother r' hr').2 v hv] at hw
      exact hi.exclusive r' (by simp [hr']) v hv f hmaps hw

/-- The references that `vmm_free_table` drops: one for each table, one for each private page. -/
theorem Inv.count_freed : (∀ g ∈ tables m.mem 3 r, (freed m.mem 3 r).count g = 1) ∧
    ∀ g, g ∉ tables m.mem 3 r → (freed m.mem 3 r).count g = refsIn m.mem 3 r g := by
  refine ⟨?_, ?_⟩
  · intro g hg
    have hin : g ∈ allTables m.mem (r :: rest) ++ kern := mem_append_left _ (mem_allTables.mpr ⟨r, by simp, hg⟩)
    have hzero := hi.totalRefs_owned hin
    rw [totalRefs_cons] at hzero
    rw [NyanOS.Memory.count_freed le_rfl, count_eq_one_of_mem (hi.treeOk (by simp)).nodup hg]
    omega
  · intro g hg
    rw [NyanOS.Memory.count_freed le_rfl, count_eq_zero.mpr hg, Nat.add_zero]

theorem Inv.free : Inv base (vmmFreeTable m 3 r) kern rest := by
  obtain ⟨hone, hcount⟩ := hi.count_freed
  have hnd := hi.nodup
  rw [allTables_cons, append_assoc, nodup_append'] at hnd
  obtain ⟨_, hnd, hdisj⟩ := hnd
  -- the frames that are dropped, and what is left of their counts
  have hfreed : ∀ g ∈ freed m.mem 3 r, m.pmm.Allocated g ∧ base g = false ∧
      (freed m.mem 3 r).count g ≤ m.pmm.refCounts g := by
    intro g hg
    rcases (mem_freed le_rfl).mp hg with ⟨v, hv, hmaps⟩ | hg
    · obtain ⟨ha, hn, href, hbase⟩ := hi.mapped r (by simp) v hv g hmaps
      have hnot : g ∉ tables m.mem 3 r := fun h =>
        hn (mem_append_left _ (mem_allTables.mpr ⟨r, by simp, h⟩))
      refine ⟨ha, hbase, ?_⟩
      rw [hcount g hnot, href, totalRefs_cons]
      omega
    · obtain ⟨ha, href, hbase⟩ := hi.owned g (mem_append_left _ (mem_allTables.mpr ⟨r, by simp, hg⟩))
      exact ⟨ha, hbase, by rw [hone g hg, href]⟩
  have hle : ∀ g, (freed m.mem 3 r).count g ≤ m.pmm.refCounts g := by
    intro g
    by_cases hg : g ∈ freed m.mem 3 r
    · exact (hfreed g hg).2.2
    · rw [count_eq_zero.mpr hg]
      exact Nat.zero_le _
  obtain ⟨hrefs, hbits, htotal⟩ := freeAll_spec (fun g hg => (hfreed g hg).1) hle
  rw [← freeTable_eq] at hrefs hbits htotal
  have hown : ∀ g, g ∈ allTables m.mem (r :: rest) ++ kern ↔ g ∈ tables m.mem 3 r ∨ g ∈ allTables m.mem rest ++ kern := by
    intro g
    rw [allTables_cons, append_assoc, mem_append]
  have hcons : ∀ g, totalRefs m.mem (r :: rest) g = refsIn m.mem 3 r g + totalRefs m.mem rest g := fun g => totalRefs_cons
  refine .of_frames ?_ ?_ hnd (fun g => ?_)
    (.same hi (fun r' hr' _ _ _ => ⟨by simp [hr'], rfl⟩) (fun f => (Nat.le_add_left ..).trans_eq (hcons f).symm) fun _ _ _ _ _ _ hk => hk)
  · show (freeTable m.mem 3 r m.pmm).Ok
    rw [freeTable_eq]
    exact ok_freeAll hi.pmm
  · have := hi.few
    simp only [length_cons] at this
    omega
  show FrameUse base (freeTable m.mem 3 r m.pmm) (allTables m.mem rest ++ kern) (totalRefs m.mem rest) g
  have hR := hrefs g
  have hB := hbits g
  have hT := hcons g
  by_cases htable : g ∈ tables m.mem 3 r
  · obtain ⟨ha, href, hbase⟩ := hi.owned g ((hown g).mpr (.inl htable))
    have hzero := hi.totalRefs_owned ((hown g).mpr (.inl htable))
    rw [if_pos ⟨(mem_freed le_rfl).mpr (.inr htable), by rw [hone g htable, href]⟩] at hB
    exact .free hbase hB (hdisj htable) (by omega)
  have hcnt := hcount g htable
  by_cases hzero : refsIn m.mem 3 r g = 0
  · have hnot : g ∉ freed m.mem 3 r := count_eq_zero.mp (hcnt.trans hzero)
    rw [if_neg fun h => hnot h.1] at hB
    exact (hi.frame g).congr hB (fun _ => by omega) htotal (by rw [hown, or_iff_right htable]) (by omega)
  obtain ⟨v, hv, hmaps⟩ := refsIn_pos.mp (Nat.pos_of_ne_zero hzero)
  obtain ⟨ha, hn, href, hbase⟩ := hi.mapped r (by simp) v hv g hmaps
  have hin : g ∈ freed m.mem 3 r := count_pos_iff.mp (by omega)
  have hnot : g ∉ allTables m.mem rest ++ kern := fun h => hn ((hown g).mpr (.inr h))
  by_cases hlast : totalRefs m.mem rest g = 0
  · rw [if_pos ⟨hin, by omega⟩] at hB
    exact .free hbase hB hnot hlast
  · rw [if_neg (by omega)] at hB
    exact .mapped hbase (allocated_congr ha htotal (hB.trans ha.bit)) hnot (by omega) (by omega)

end

end NyanOS.Memory
