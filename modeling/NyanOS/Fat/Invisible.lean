import NyanOS.Fat.Files
import NyanOS.Lib.Run

/-!
# The FAT cache is invisible

The same programs on a disk with the cache and on one without it.
-/
namespace NyanOS.Fat

open Lib Option

variable {α S : Type} {g : Geometry} {v v' : Vol} {d d' : Disk} {fuel n : Nat}

/-- The FAT is read and written through the cache, and everything else past it. -/
def allowed (g : Geometry) : Cmd → Disk → Prop
  | .fatRead lba, _ | .fatWrite lba _, _ => g.fatStart ≤ lba ∧ lba < g.fatStart + g.sectorsPerFat32
  | .ataRead _ _, _ => True
  | .ataWrite lba secCount _, _ =>
    lba % 2 ^ 28 + secCount ≤ g.fatStart ∨ g.fatStart + g.sectorsPerFat32 ≤ lba % 2 ^ 28

instance : ∀ c d, Decidable (allowed g c d)
  | .fatRead lba, _ | .fatWrite lba _, _ => inferInstanceAs (Decidable (_ ≤ lba ∧ lba < _))
  | .ataRead _ _, _ => inferInstanceAs (Decidable True)
  | .ataWrite _ _ _, _ => inferInstanceAs (Decidable (_ ≤ _ ∨ _ ≤ _))

theorem clip_congr {b b' : Bytes} (h : ∀ k < n, b k = b' k) : clip n b = clip n b' := by
  funext k
  simp only [clip]
  split
  · exact h k ‹_›
  · rfl

theorem onVol_simulates (hfat : g.fatStart + g.sectorsPerFat32 ≤ 2 ^ 28) (c : Cmd) (v : Vol) (d : Disk)
    (hpre : allowed g c d) (h : Shows g v d) :
    (onVol c v).1 = (onDisk c d).1 ∧ Shows g (onVol c v).2 (onDisk c d).2 := by
  cases c with
  | fatRead lba =>
    obtain ⟨buf, v', hread, hshows, hbuf⟩ := h.readSector hfat hpre.1 hpre.2
    have hlba : lba % 2 ^ 28 = lba := Nat.mod_eq_of_lt (by have := hpre.2; omega)
    simp only [onVol, onDisk, hread]
    refine ⟨clip_congr fun k hk => ?_, hshows⟩
    rw [hbuf k hk, ataRead, hlba]
  | fatWrite lba src =>
    have hlba : lba % 2 ^ 28 = lba := Nat.mod_eq_of_lt (by have := hpre.2; omega)
    refine ⟨rfl, ?_⟩
    simp only [onVol, onDisk, ataWrite, hlba, mul_one]
    exact h.writeSector hfat hpre.2
  | ataRead lba secCount =>
    obtain ⟨rfl, hc⟩ := h
    exact ⟨rfl, rfl, hc⟩
  | ataWrite lba secCount src =>
    refine ⟨rfl, ?_⟩
    simp only [onVol, onDisk, ataWrite, h.disk]
    refine h.writeData ?_
    rcases hpre with hbelow | habove
    · left
      rw [← mul_add]
      exact Nat.mul_le_mul_left _ hbelow
    · exact .inr (Nat.mul_le_mul_left _ habove)

/-! ### Runs of the operations -/

/-- The functions of the module, with any arguments. -/
inductive FatOp where
  | readFat (cluster : Nat)
  | writeFatEntry (cluster value : Nat)
  | findFreeCluster
  | findFreeDirectoryEntry (dirCluster : Nat)
  | findFile (cluster : Nat) (name : List Byte)
  | finddir (node : Node) (name : List Byte) (mem : Nat → Bool)
  | readdir (node : Node) (idx : Nat)
  | listRoot
  | readFile (entry : Bytes) (mem : Bool)
  | read (node : Node) (offset size : Nat) (buffer : Bytes) (mem : Bool)
  | write (node : Node) (offset size : Nat) (buffer : Bytes) (mem : Bool)
  | updateSize (node : Node) (newSize : Nat)
  | truncate (node : Node)
  | create (parent : Node) (fname : List Byte) (flags : Nat) (mem : Nat → Bool)
  | unlink (node : Node)

def FatOp.Answer : FatOp → Type
  | .readFat _ => Nat
  | .findFreeCluster => Option Nat
  | .findFreeDirectoryEntry _ => Option Location
  | .findFile _ _ => Option (Bytes × Location)
  | .finddir _ _ _ | .create _ _ _ _ => Option Node
  | .readdir _ _ => Option Dirent
  | .listRoot => List (List Byte)
  | .readFile _ _ => Option Bytes
  | .read _ _ _ _ _ => Nat × Bytes
  | .write _ _ _ _ _ => Nat × Node
  | .updateSize _ _ | .truncate _ => Node
  | .writeFatEntry _ _ | .unlink _ => Unit

def FatOp.prog (g : Geometry) (fuel : Nat) : (op : FatOp) → DiskM op.Answer
  | .readFat cluster => fat32ReadFat g cluster
  | .writeFatEntry cluster value => fat32WriteFatEntry g cluster value
  | .findFreeCluster => fat32FindFreeCluster g
  | .findFreeDirectoryEntry dirCluster => fat32FindFreeDirectoryEntry g fuel dirCluster
  | .findFile cluster name => fat32FindFile g fuel cluster name
  | .finddir node name mem => fat32Finddir g fuel node name mem
  | .readdir node idx => fat32Readdir g fuel node idx
  | .listRoot => fat32ListRoot g fuel
  | .readFile entry mem => fat32ReadFile g fuel entry mem
  | .read node offset size buffer mem => fat32Read g node offset size buffer mem
  | .write node offset size buffer mem => fat32Write g fuel node offset size buffer mem
  | .updateSize node newSize => fat32UpdateSize node newSize
  | .truncate node => fat32Truncate g fuel node
  | .create parent fname flags mem => fat32Create g fuel parent fname flags mem
  | .unlink node => fat32Unlink g fuel node

/-- A call with what it returned. -/
abbrev Event := (op : FatOp) × op.Answer

/-- The call ends and returns that. -/
def fatStep {S : Type} (h : (c : Cmd) → S → c.Reply × S) (g : Geometry) (fuel : Nat) (s : S) (e : Event) (s' : S) : Prop :=
  (e.1.prog g fuel).run h s = some (e.2, s')

/-- Done on the disk without the cache, the call ends, looks up and changes entries of the FAT only, and writes all else
outside of the FAT. -/
def Stays (g : Geometry) (fuel : Nat) (v : Vol) (e : Event) : Prop :=
  (e.1.prog g fuel).wp onDisk (allowed g) v.disk fun _ _ => True

instance {e : Event} : Decidable (Stays g fuel v e) :=
  inferInstanceAs (Decidable ((e.1.prog g fuel).wp onDisk (allowed g) v.disk fun _ _ => True))

theorem fatStep_simulates {e : Event} (hfat : g.fatStart + g.sectorsPerFat32 ≤ 2 ^ 28)
    (hstep : guarded (fatStep onVol g fuel) (Stays g fuel) v e v') (hc : Coherent g v) :
    Coherent g v' ∧ fatStep onDisk g fuel v.disk e v'.disk := by
  obtain ⟨hstays, hrun⟩ := hstep
  obtain ⟨a, w, d', hvol, hdisk, hshows, -⟩ := Prog.run_simulates (onVol_simulates hfat) hstays ⟨rfl, hc⟩
  obtain ⟨ha, hw⟩ := Prod.mk.inj (some.inj (hrun.symm.trans hvol))
  subst hw
  refine ⟨hshows.coherent, ?_⟩
  rw [fatStep, hdisk, hshows.disk, ha]

/-- From an empty cache on, whatever is called: the cache holds what is on the disk, each sector once, and the calls
return what they return without a cache. -/
theorem fat_cache_invisible {es : List Event} (hfat : g.fatStart + g.sectorsPerFat32 ≤ 2 ^ 28)
    (hcold : ∀ i < fatCacheSize, (v.cache i).valid = false)
    (hrun : Run (guarded (fatStep onVol g fuel) (Stays g fuel)) v es v') :
    Coherent g v' ∧ Run (fatStep onDisk g fuel) v.disk es v'.disk := by
  have hstart : Coherent g v := by
    refine ⟨fun i hi hv => ?_, fun i hi hv => ?_, fun i hi j hj hv => ?_⟩
    all_goals exact absurd (hv.symm.trans (hcold i hi)) Bool.noConfusion
  refine ⟨hrun.invariant (P := Coherent g) (fun _ _ _ hs hc => (fatStep_simulates hfat hs hc).1) hstart, ?_⟩
  refine hrun.simulate (P := Coherent g) Vol.disk ?_ ?_ hstart
  · exact fun _ _ _ hs hc => (fatStep_simulates hfat hs hc).1
  · exact fun _ _ _ hs hc => (fatStep_simulates hfat hs hc).2

/-- One FAT of one sector, and clusters of one sector. -/
def smallVolume : Geometry := ⟨512, 1, 1, 1, 1, 2, 0⟩

/-- Sector 1 is the FAT, and sector 2 the root directory. -/
def diskOf (fat : Nat → Nat) (root : Nat → Bytes) : Disk := fun a =>
  if 512 ≤ a ∧ a < 1024 then BitVec.ofNat 8 (fat (a % 512 / 4) / 2 ^ (8 * (a % 4)))
  else if 1024 ≤ a ∧ a < 1536 then root (a % 512 / 32) (a % 32)
  else 0

def coldVolume (d : Disk) : Vol := ⟨d, fun _ => ⟨0, 0, false, fun _ => 0⟩, 2 ^ 32 - 2⟩

def emptyDisk : Disk := diskOf (fun i => if i = 2 then eoc else 0) fun _ _ => 0

def rootNode (g : Geometry) : Node := ⟨vfsDirectory, 0, g.rootCluster, 0, 0⟩

/-- Calls one after the other, each if it meets the condition. -/
def calls {S : Type} (h : (c : Cmd) → S → c.Reply × S) (ok : S → FatOp → Bool) (g : Geometry) (fuel : Nat) :
    List FatOp → S → Option (List Event × S)
  | [], s => some ([], s)
  | op :: ops, s =>
    if ok s op then ((op.prog g fuel).run h s).bind fun r => (calls h ok g fuel ops r.2).map fun t => (⟨op, r.1⟩ :: t.1, t.2)
    else none

theorem calls_run {h : (c : Cmd) → S → c.Reply × S} {ok : S → FatOp → Bool} {cond : S → Event → Prop}
    {ops : List FatOp} {s s' : S} {es : List Event} (hok : ∀ s e, ok s e.1 = true → cond s e)
    (hcalls : calls h ok g fuel ops s = some (es, s')) :
    es.length = ops.length ∧ Run (guarded (fatStep h g fuel) cond) s es s' := by
  induction ops generalizing s es with
  | nil =>
    obtain ⟨rfl, rfl⟩ := Prod.mk.inj (some.inj hcalls)
    exact ⟨rfl, .refl⟩
  | cons op ops ih =>
    obtain ⟨hcond, hbind⟩ := ite_none_right_eq_some.mp hcalls
    obtain ⟨⟨a, t⟩, hrun, hrest⟩ := bind_eq_some_iff.mp hbind
    obtain ⟨⟨es, t'⟩, htail, heq⟩ := map_eq_some_iff.mp hrest
    cases heq
    obtain ⟨hlen, hrun'⟩ := ih htail
    exact ⟨congrArg (· + 1) hlen, .stepL ⟨hok s ⟨op, a⟩ hcond, hrun⟩ hrun'⟩

def staysOn (g : Geometry) (fuel : Nat) (v : Vol) (op : FatOp) : Bool :=
  decide ((op.prog g fuel).wp onDisk (allowed g) v.disk fun _ _ => True)

/-- A file is created, written, read and unlinked while the tick wraps around. -/
def fileCalls : List FatOp :=
  let file : Node := ⟨0x11, 0, 3, 2, 0⟩
  [.create (rootNode smallVolume) [0x41] 1 fun _ => true, .write file 0 600 (fun k => BitVec.ofNat 8 k) true,
    .read { file with length := 600 } 510 20 (fun _ => 0) true, .unlink { file with length := 600 }]

theorem fat_cache_invisible_file : ∃ es v', es.length = 4 ∧
    Run (guarded (fatStep onVol smallVolume 4) (Stays smallVolume 4)) (coldVolume emptyDisk) es v' ∧
    Coherent smallVolume v' ∧ Run (fatStep onDisk smallVolume 4) emptyDisk es v'.disk := by
  have hcalls : (calls onVol (staysOn smallVolume 4) smallVolume 4 fileCalls (coldVolume emptyDisk)).isSome = true := by
    decide +kernel
  obtain ⟨⟨es, v'⟩, hes⟩ := isSome_iff_exists.mp hcalls
  have hstays : ∀ s (e : Event), staysOn smallVolume 4 s e.1 = true → Stays smallVolume 4 s e :=
    fun _ _ hdec => of_decide_eq_true hdec
  obtain ⟨hlen, hrun⟩ := calls_run hstays hes
  exact ⟨es, v', hlen, hrun, fat_cache_invisible (by decide) (fun _ _ => rfl) hrun⟩

/-- The number of bytes that the last call, a `fat32_read`, returned. -/
def lastRead (es : List Event) : Option Nat :=
  match es.getLast? with
  | some ⟨.read _ _ _ _ _, answer⟩ => some (Prod.fst answer)
  | _ => none

/-- Two files whose chains leave the FAT. -/
def brokenDisk : Disk :=
  diskOf (fun i => if i = 2 then eoc else if i = 3 then 128 else if i = 4 then 144 else 0) fun slot =>
    if slot = 0 then put32 (newEntry (Function.update blanks 0 0x41) blanks 0x20 3) 28 1536
    else if slot = 1 then put32 (newEntry (Function.update blanks 0 0x43) blanks 0x20 4) 28 1536
    else fun _ => 0

/-- To read the first file is to look up entry 128, in the sector of the root directory. A file is created there, and
the second file is read, which looks up entry 144 in the same sector. -/
def staleCalls : List FatOp :=
  [.read ⟨0x11, 1536, 3, 2, 0⟩ 0 1536 (fun _ => 0) true, .create (rootNode smallVolume) [0x42] 1 fun _ => true,
    .read ⟨0x11, 1536, 4, 2, 32⟩ 0 1536 (fun _ => 0) true]

theorem fat_cache_stale :
    ((calls onVol (fun _ _ => true) smallVolume 4 staleCalls (coldVolume brokenDisk)).bind fun r => lastRead r.1) =
      some 1024 ∧
    ((calls onDisk (fun _ _ => true) smallVolume 4 staleCalls brokenDisk).bind fun r => lastRead r.1) = some 1536 := by
  decide +kernel

end NyanOS.Fat
