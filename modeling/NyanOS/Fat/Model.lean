import NyanOS.Fat.Cache
import NyanOS.Lib.Prog

/-!
# FAT32 files and directories (`fs/fat32.c`)

The functions are programs over the calls of the FAT cache and of the disk driver. Loops that follow a chain to its end
have a bound on their turns and are stuck beyond it. The answers of `kmalloc` are arguments, in the order of the calls.
A string has no NUL among its characters.
-/

namespace NyanOS.Fat

open Lib

/-- The calls of `fat_cache_read_sector`, `fat_cache_write_sector`, `ata_read_sectors` and `ata_write_sectors`. -/
inductive Cmd where
  | fatRead (lba : Nat)
  | fatWrite (lba : Nat) (src : Bytes)
  | ataRead (lba secCount : Nat)
  | ataWrite (lba secCount : Nat) (src : Bytes)

def Cmd.Reply : Cmd → Type
  | .fatRead _ | .ataRead _ _ => Bytes
  | .fatWrite _ _ | .ataWrite _ _ _ => Unit

abbrev DiskM := Prog Cmd Cmd.Reply

/-- A buffer of `n` bytes; what lies beyond it is not looked at if sectors have 512 bytes. -/
def clip (n : Nat) (b : Bytes) : Bytes := fun k => if k < n then b k else 0

/-- The commands with the cache. -/
def onVol : (c : Cmd) → Vol → c.Reply × Vol
  | .fatRead lba, v => (clip sectorSize (fatCacheReadSector v lba).1, (fatCacheReadSector v lba).2)
  | .fatWrite lba src, v => ((), fatCacheWriteSector v lba src)
  | .ataRead lba secCount, v => (clip (sectorSize * secCount) (ataRead v.disk lba), v)
  | .ataWrite lba secCount src, v => ((), { v with disk := ataWrite v.disk lba secCount src })

/-- The commands without it. -/
def onDisk : (c : Cmd) → Disk → c.Reply × Disk
  | .fatRead lba, d => (clip sectorSize (ataRead d lba), d)
  | .fatWrite lba src, d => ((), ataWrite d lba 1 src)
  | .ataRead lba secCount, d => (clip (sectorSize * secCount) (ataRead d lba), d)
  | .ataWrite lba secCount src, d => ((), ataWrite d lba secCount src)

def fatCacheRead (lba : Nat) : DiskM Bytes := Prog.ask (Cmd.fatRead lba)

def fatCacheWrite (lba : Nat) (src : Bytes) : DiskM Unit := Prog.ask (Cmd.fatWrite lba src)

def ataReadSectors (lba secCount : Nat) : DiskM Bytes := Prog.ask (Cmd.ataRead lba secCount)

def ataWriteSectors (lba secCount : Nat) (src : Bytes) : DiskM Unit := Prog.ask (Cmd.ataWrite lba secCount src)

def eoc : Nat := 0x0FFFFFF8
def vfsFile : Nat := 0x01
def vfsDirectory : Nat := 0x02
def vfsNodeAutofree : Nat := 0x10

/-- A `vfs_node_t` of this file system with its `fat32_node_data`. -/
structure Node where
  flags : Nat
  length : Nat
  firstCluster : Nat
  sectorLba : Nat
  offset : Nat
  deriving DecidableEq

structure Location where
  sectorLba : Nat
  offset : Nat
  deriving DecidableEq

def Geometry.dataStartLba (g : Geometry) : Nat :=
  (g.partitionLba + g.reservedSectors + g.fatsNum * g.sectorsPerFat32 % 2 ^ 32) % 2 ^ 32

def Geometry.bytesPerCluster (g : Geometry) : Nat := g.sectorsPerCluster * g.bytesPerSector

/-- The directory entries in a sector. -/
def Geometry.slotsPerSector (g : Geometry) : Nat := g.bytesPerSector / 32

def fat32ClusterToLba (g : Geometry) (cluster : Nat) : Nat :=
  if cluster < 2 then g.dataStartLba
  else (g.dataStartLba + (cluster - 2) * g.sectorsPerCluster) % 2 ^ 32

def fat32ReadFat (g : Geometry) (cluster : Nat) : DiskM Nat := do
  let fatOffset := cluster * 4 % 2 ^ 32
  let fatSector := (g.partitionLba + g.reservedSectors + fatOffset / g.bytesPerSector) % 2 ^ 32
  let buf ← fatCacheRead fatSector
  return get32 buf (fatOffset % g.bytesPerSector) % 2 ^ 28

def fat32WriteFatEntry (g : Geometry) (cluster value : Nat) : DiskM Unit := do
  let fatOffset := cluster * 4 % 2 ^ 32
  let targetLba := (g.partitionLba + g.reservedSectors + fatOffset / sectorSize) % 2 ^ 32
  let buf ← fatCacheRead targetLba
  fatCacheWrite targetLba (put32 buf (fatOffset % sectorSize) value)

/-- The first free entry in sector `i` of the FAT. Clusters 0 and 1 do not exist. -/
def freeInSector (buf : Bytes) (i : Nat) : Option Nat :=
  ((List.range (sectorSize / 4)).find? fun j =>
    !(i == 0 && decide (j < 2)) && get32 buf (4 * j) % 2 ^ 28 == 0).map fun j => (i * 128 + j) % 2 ^ 32

/-- The loop of `fat32_find_free_cluster`, with `n` sectors to go. -/
def findFreeFrom (g : Geometry) : Nat → Nat → DiskM (Option Nat)
  | 0, _ => return none
  | n + 1, i => do
    let buf ← fatCacheRead ((g.partitionLba + g.reservedSectors + i) % 2 ^ 32)
    match freeInSector buf i with
    | some cluster => return some cluster
    | none => findFreeFrom g n (i + 1)

def fat32FindFreeCluster (g : Geometry) : DiskM (Option Nat) := findFreeFrom g g.sectorsPerFat32 0

/-! Directory entries are blocks of 32 bytes. -/

def entryFirstCluster (e : Bytes) : Nat := get16 e 20 * 2 ^ 16 + get16 e 26

def entryFileSize (e : Bytes) : Nat := get32 e 28

def entryIsDirectory (e : Bytes) : Bool := e 11 &&& 0x10 != 0

/-- Does `strncmp` return 0? -/
def strncmp (s1 s2 : Bytes) : Nat → Nat → Bool
  | 0, _ => true
  | n + 1, i => if s1 i = s2 i then if s1 i = 0 then true else strncmp s1 s2 n (i + 1) else false

def upperCase (c : Byte) : Byte := if 0x61 ≤ c ∧ c ≤ 0x7A then c &&& 0xDF else c

def parseFrom : List Byte → Nat → Nat → Bool → Bytes → Bytes → Option (Bytes × Bytes)
  | [], _, _, _, name, ext => some (name, ext)
  | c :: cs, i, j, isExt, name, ext =>
    if c = 0x2E then
      if isExt then none else parseFrom cs (i + 1) j true name ext
    else if isExt = false ∧ 8 ≤ i then none
    else if isExt then
      if 3 ≤ j then none
      else parseFrom cs (i + 1) (j + 1) isExt name (Function.update ext j (upperCase c))
    else parseFrom cs (i + 1) j isExt (Function.update name i (upperCase c)) ext

/-- The name and the extension, padded with blanks. -/
def fat32ParseName (fname : List Byte) : Option (Bytes × Bytes) :=
  if 12 < fname.length then none
  else parseFrom fname 0 0 false (fun _ => 0x20) fun _ => 0x20

/-! ### Walks over the sectors of a directory -/

/-- How a look at directory entries ends: with more to come, or with a result. -/
inductive Visit (σ : Type)
  | more (s : σ)
  | stop (s : σ) (found : Bool)

/-- The loop over the sectors of a cluster that `fat32_iterate` and `fat32_find_free_directory_entry` have. -/
def walkSectors {σ : Type} (look : Nat → Bytes → σ → Visit σ) (rootLba : Nat) : List Nat → σ → DiskM (Visit σ)
  | [], s => return .more s
  | i :: is, s => do
    let currLba := (rootLba + i) % 2 ^ 32
    let buf ← ataReadSectors currLba 1
    match look currLba buf s with
    | .stop s found => return .stop s found
    | .more s => walkSectors look rootLba is s

/-- Their loop over the clusters. -/
def walkDir {σ : Type} (g : Geometry) (look : Nat → Bytes → σ → Visit σ) : Nat → Nat → σ → DiskM (Bool × σ)
  | fuel, curr, s =>
    if curr < eoc then
      match fuel with
      | 0 => .stuck
      | fuel + 1 => do
        match ← walkSectors look (fat32ClusterToLba g curr) (List.range g.sectorsPerCluster) s with
        | .stop s found => return (found, s)
        | .more s =>
          let next ← fat32ReadFat g curr
          walkDir g look fuel next s
    else return (false, s)

/-- Entry `j` of a sector. -/
def entryOf (buf : Bytes) (j : Nat) : Bytes := fun k => buf (j * 32 + k)

/-- The loop of `fat32_iterate` over the entries of a sector; the callback says whether it is done. -/
def visitSlots {σ : Type} (cb : σ → Bytes → Location → σ × Bool) (lba : Nat) (buf : Bytes) : List Nat → σ → Visit σ
  | [], s => .more s
  | j :: js, s =>
    let e := entryOf buf j
    if e 0 = 0 then .stop s false
    else if e 0 = 0xE5 then visitSlots cb lba buf js s
    else
      match cb s e ⟨lba, j * 32⟩ with
      | (s, true) => .stop s true
      | (s, false) => visitSlots cb lba buf js s

/-- The flag says whether the callback ended the visit. -/
def fat32Iterate {σ : Type} (g : Geometry) (cb : σ → Bytes → Location → σ × Bool) (fuel cluster : Nat) (ctx : σ) :
    DiskM (Bool × σ) :=
  walkDir g (fun lba buf => visitSlots cb lba buf (List.range g.slotsPerSector)) fuel cluster ctx

/-- The first entry of a sector that is free. -/
def freeSlot (g : Geometry) (lba : Nat) (buf : Bytes) (out : Option Location) : Visit (Option Location) :=
  match (List.range g.slotsPerSector).find? fun j => entryOf buf j 0 == 0 || entryOf buf j 0 == 0xE5 with
  | some j => .stop (some ⟨lba, j * 32⟩) true
  | none => .more out

def fat32FindFreeDirectoryEntry (g : Geometry) (fuel dirCluster : Nat) : DiskM (Option Location) := do
  let (_, out) ← walkDir g (freeSlot g) fuel dirCluster none
  return out

def findCb (name ext : Bytes) (out : Option (Bytes × Location)) (e : Bytes) (loc : Location) :
    Option (Bytes × Location) × Bool :=
  if strncmp e name 8 0 && strncmp (fun k => e (8 + k)) ext 3 0 then (some (e, loc), true)
  else (out, false)

def fat32FindFile (g : Geometry) (fuel cluster : Nat) (name : List Byte) : DiskM (Option (Bytes × Location)) := do
  match fat32ParseName name with
  | none => return none
  | some (target, ext) =>
    let (found, out) ← fat32Iterate g (findCb target ext) fuel cluster none
    return if found then out else none

def fat32Finddir (g : Geometry) (fuel : Nat) (node : Node) (name : List Byte) (mem : Nat → Bool) :
    DiskM (Option Node) := do
  match ← fat32FindFile g fuel node.firstCluster name with
  | none => return none
  | some (e, loc) =>
    return if mem 0 && mem 1 then
      some ⟨(if entryIsDirectory e then vfsDirectory else vfsFile) ||| vfsNodeAutofree,
        entryFileSize e, entryFirstCluster e, loc.sectorLba, loc.offset⟩
    else none

end NyanOS.Fat
