import NyanOS.Fat.Model

/-!
# Reading, writing and creating files (`fs/fat32.c`)

Offsets and sizes are numbers of 64 bits. A function that changes the node it is given returns it.
-/
namespace NyanOS.Fat

open Lib Function

def InChain (cluster : Nat) : Prop := 2 ≤ cluster ∧ cluster < eoc

instance {cluster : Nat} : Decidable (InChain cluster) := inferInstanceAs (Decidable (2 ≤ cluster ∧ cluster < eoc))

/-- To read a sector, change its bytes and write it back, as for a directory entry. -/
def updateSector (lba : Nat) (f : Bytes → Bytes) : DiskM Unit := do
  let buf ← ataReadSectors lba 1
  ataWriteSectors lba 1 (f buf)

/-! ### Reading -/

/-- The first loop of `fat32_read`; `none` if the chain ends before. -/
def skipRead (g : Geometry) : Nat → Nat → DiskM (Option Nat)
  | 0, curr => return some curr
  | n + 1, curr => do
    let next ← fat32ReadFat g curr
    if eoc ≤ next then return none else skipRead g n next

/-- Its second loop, with `remSize` bytes to go to position `pos` of the buffer. It makes no more turns than there are
bytes. The result is the number of bytes left. -/
def readLoop (g : Geometry) : Nat → Nat → Nat → Nat → Nat → Bytes → DiskM (Nat × Bytes)
  | fuel, remSize, curr, readOffset, pos, buffer =>
    if 0 < remSize ∧ InChain curr then
      match fuel with
      | 0 => .stuck
      | fuel + 1 => do
        let copySize := min remSize (g.bytesPerCluster - readOffset)
        let tmp ← ataReadSectors (fat32ClusterToLba g curr) g.sectorsPerCluster
        let buffer := splice buffer pos copySize fun k => tmp (readOffset + k)
        let rem := remSize - copySize
        if 0 < rem then
          let next ← fat32ReadFat g curr
          readLoop g fuel rem next 0 (pos + copySize) buffer
        else readLoop g fuel rem curr 0 (pos + copySize) buffer
    else return (remSize, buffer)

/-- `fat32_read`: the number of bytes read, and the buffer. -/
def fat32Read (g : Geometry) (node : Node) (offset size : Nat) (buffer : Bytes) (mem : Bool) : DiskM (Nat × Bytes) := do
  if node.length ≤ offset then return (0, buffer)
  let size := if node.length < (offset + size) % 2 ^ 64 then node.length - offset else size
  if node.firstCluster < 2 then return (0, buffer)
  match ← skipRead g (offset / g.bytesPerCluster) node.firstCluster with
  | none => return (0, buffer)
  | some curr =>
    if mem = false then return (0, buffer)
    let (remSize, buffer) ← readLoop g size size curr (offset % g.bytesPerCluster % 2 ^ 32) 0 buffer
    return (size - remSize, buffer)

/-! ### Writing -/

def fat32UpdateSize (node : Node) (newSize : Nat) : DiskM Node := do
  updateSector node.sectorLba fun buf => put32 buf (node.offset + 28) newSize
  return { node with length := newSize }

/-- The fields `first_cluster_high` and `first_cluster_low` of the entry at an offset. -/
def putFirstCluster (buf : Bytes) (offset cluster : Nat) : Bytes :=
  put16 (put16 buf (offset + 20) (cluster / 2 ^ 16)) (offset + 26) cluster

/-- The loop that gives back the clusters of a chain, in `fat32_truncate` and `fat32_unlink`. -/
def freeChain (g : Geometry) : Nat → Nat → DiskM Unit
  | fuel, curr =>
    if InChain curr then
      match fuel with
      | 0 => .stuck
      | fuel + 1 => do
        let next ← fat32ReadFat g curr
        fat32WriteFatEntry g curr 0
        freeChain g fuel next
    else return ()

def fat32Truncate (g : Geometry) (fuel : Nat) (node : Node) : DiskM Node := do
  freeChain g fuel node.firstCluster
  updateSector node.sectorLba fun buf => put32 (putFirstCluster buf node.offset 0) (node.offset + 28) 0
  return { node with firstCluster := 0, length := 0 }

/-- The loop of `fat32_write` to the end of the chain: the last cluster and the number of clusters. -/
def lastCluster (g : Geometry) : Nat → Nat → Nat → Nat → DiskM (Nat × Nat)
  | fuel, curr, prev, count =>
    if InChain curr then
      match fuel with
      | 0 => .stuck
      | fuel + 1 => do
        let next ← fat32ReadFat g curr
        lastCluster g fuel next curr ((count + 1) % 2 ^ 32)
    else return (prev, count)

/-- The loop that adds clusters to a chain; `false` if there is none left. -/
def extendChain (g : Geometry) : Nat → Nat → DiskM Bool
  | 0, _ => return true
  | n + 1, prev => do
    match ← fat32FindFreeCluster g with
    | none => return false
    | some cluster =>
      fat32WriteFatEntry g prev cluster
      fat32WriteFatEntry g cluster eoc
      extendChain g n cluster

/-- A file without clusters gets its first one; `none` if there is none left. -/
def firstCluster (g : Geometry) (node : Node) : DiskM (Option Node) := do
  if node.firstCluster = 0 then
    match ← fat32FindFreeCluster g with
    | none => return none
    | some cluster =>
      updateSector node.sectorLba fun buf => putFirstCluster buf node.offset cluster
      fat32WriteFatEntry g cluster eoc
      return some { node with firstCluster := cluster }
  else return some node

/-- The part of `fat32_write` that makes room for bytes up to `endOff`, with the node and whether there is room. -/
def makeRoom (g : Geometry) (fuel : Nat) (node : Node) (endOff : Nat) : DiskM (Bool × Node) := do
  match ← firstCluster g node with
  | none => return (false, node)
  | some node =>
    let (prev, count) ← lastCluster g fuel node.firstCluster 0 0
    if prev < 2 then return (false, node)
    let occupied := count * g.bytesPerCluster % 2 ^ 64
    if occupied < endOff then
      let left := ((endOff - occupied + g.bytesPerCluster) % 2 ^ 64 + 2 ^ 64 - 1) % 2 ^ 64 / g.bytesPerCluster
      let ok ← extendChain g left prev
      return (ok, node)
    else return (true, node)

/-- The loop of `fat32_write` to the cluster of the offset, which does not look for the end of the chain. -/
def skipWrite (g : Geometry) : Nat → Nat → DiskM Nat
  | 0, curr => return curr
  | n + 1, curr => do
    let next ← fat32ReadFat g curr
    skipWrite g n next

/-- The loop that writes the bytes from position `pos` of the buffer on. -/
def writeLoop (g : Geometry) : Nat → Nat → Nat → Nat → Nat → Bytes → DiskM Nat
  | fuel, remSize, curr, readOffset, pos, buffer =>
    if 0 < remSize ∧ InChain curr then
      match fuel with
      | 0 => .stuck
      | fuel + 1 => do
        let copySize := min remSize (g.bytesPerCluster - readOffset)
        let lba := fat32ClusterToLba g curr
        let tmp ← ataReadSectors lba g.sectorsPerCluster
        ataWriteSectors lba g.sectorsPerCluster (splice tmp readOffset copySize fun k => buffer (pos + k))
        let rem := remSize - copySize
        if 0 < rem then
          let next ← fat32ReadFat g curr
          writeLoop g fuel rem next 0 (pos + copySize) buffer
        else writeLoop g fuel rem curr 0 (pos + copySize) buffer
    else return remSize

/-- `fat32_write`: the number of bytes written, and the node. -/
def fat32Write (g : Geometry) (fuel : Nat) (node : Node) (offset size : Nat) (buffer : Bytes) (mem : Bool) :
    DiskM (Nat × Node) := do
  if size = 0 then return (0, node)
  let endOff := (offset + size) % 2 ^ 64
  let (ok, node) ← if node.length < endOff ∨ node.firstCluster = 0 then makeRoom g fuel node endOff
    else pure (true, node)
  if ok = false then return (0, node)
  let curr ← skipWrite g (offset / g.bytesPerCluster) node.firstCluster
  if mem = false then return (0, node)
  let remSize ← writeLoop g size size curr (offset % g.bytesPerCluster % 2 ^ 32) 0 buffer
  let node ← if node.length < endOff then fat32UpdateSize node endOff else pure node
  return (size - remSize, node)

/-! ### Creating and deleting -/

/-- A directory entry as `fat32_create` fills it. -/
def newEntry (name ext : Bytes) (attributes : Byte) (cluster : Nat) : Bytes :=
  let e : Bytes := fun k => if k < 8 then name k else if k < 11 then ext (k - 8) else if k = 11 then attributes else 0
  putFirstCluster e 0 cluster

def blanks : Bytes := fun _ => 0x20

/-- The first sector of a new directory. -/
def dotEntries (cluster parent : Nat) : Bytes :=
  let dot := newEntry (update blanks 0 0x2E) blanks 0x10 cluster
  let twoDot := newEntry (update (update blanks 0 0x2E) 1 0x2E) blanks 0x10 parent
  splice (splice (fun _ => 0) 0 32 dot) 32 32 twoDot

/-- The part of `fat32_create` after the checks. -/
def addEntry (g : Geometry) (parent : Nat) (name ext : Bytes) (flags cluster : Nat) (loc : Location) : DiskM Unit := do
  let isDir := flags &&& vfsDirectory ≠ 0
  if isDir then ataWriteSectors (fat32ClusterToLba g cluster) 1 (dotEntries cluster parent)
  updateSector loc.sectorLba fun buf =>
    splice buf loc.offset 32 (newEntry name ext (if isDir then 0x10 else 0x20) cluster)
  fat32WriteFatEntry g cluster eoc

def fat32Create (g : Geometry) (fuel : Nat) (parent : Node) (fname : List Byte) (flags : Nat) (mem : Nat → Bool) :
    DiskM (Option Node) := do
  match ← fat32FindFile g fuel parent.firstCluster fname with
  | some _ => return none
  | none =>
    match fat32ParseName fname with
    | none => return none
    | some (name, ext) =>
      match ← fat32FindFreeCluster g with
      | none => return none
      | some cluster =>
        match ← fat32FindFreeDirectoryEntry g fuel parent.firstCluster with
        | none => return none
        | some loc =>
          if mem 0 = false then return none
          addEntry g parent.firstCluster name ext flags cluster loc
          return if mem 1 && mem 2 then some ⟨flags ||| vfsNodeAutofree, 0, cluster, loc.sectorLba, loc.offset⟩ else none

/-- `fat32_unlink` does not look at the answer of `kmalloc`, which is taken to succeed. -/
def fat32Unlink (g : Geometry) (fuel : Nat) (node : Node) : DiskM Unit := do
  updateSector node.sectorLba fun buf => update buf node.offset 0xE5
  freeChain g fuel node.firstCluster

/-! ### Listing -/

/-- The name of an entry as `list_cb` and `readdir_cb` write it. -/
def entryName (e : Bytes) : List Byte :=
  let part (start n : Nat) := ((List.range n).map fun k => e (start + k)).takeWhile (· ≠ 0x20)
  part 0 8 ++ if e 8 ≠ 0x20 then 0x2E :: part 8 3 else []

/-- A `dirent_t`. -/
structure Dirent where
  name : List Byte
  type : Nat
  size : Nat

/-- Volume labels and parts of long names are not counted. -/
def readdirCb (target : Nat) (ctx : Nat × Option Dirent) (e : Bytes) (_ : Location) : (Nat × Option Dirent) × Bool :=
  if e 11 = 0x0F ∨ e 11 = 0x08 then (ctx, false)
  else if ctx.1 = target then
    ((ctx.1, some ⟨entryName e, if entryIsDirectory e then vfsDirectory else vfsFile, entryFileSize e⟩), true)
  else (((ctx.1 + 1) % 2 ^ 32, ctx.2), false)

def fat32Readdir (g : Geometry) (fuel : Nat) (node : Node) (idx : Nat) : DiskM (Option Dirent) := do
  let (found, ctx) ← fat32Iterate g (readdirCb idx) fuel node.firstCluster (0, none)
  return if found then ctx.2 else none

def listCb (out : List (List Byte)) (e : Bytes) (_ : Location) : List (List Byte) × Bool := (out ++ [entryName e], false)

/-- `fat32_list_root`, with the lines it prints. -/
def fat32ListRoot (g : Geometry) (fuel : Nat) : DiskM (List (List Byte)) := do
  let (_, names) ← fat32Iterate g listCb fuel g.rootCluster []
  return names

/-- The loop of `fat32_read_file`, which reads whole clusters. -/
def readWhole (g : Geometry) : Nat → Nat → Nat → Bytes → DiskM Bytes
  | fuel, curr, pos, buf =>
    if curr < eoc then
      match fuel with
      | 0 => .stuck
      | fuel + 1 => do
        let tmp ← ataReadSectors (fat32ClusterToLba g curr) g.sectorsPerCluster
        let next ← fat32ReadFat g curr
        readWhole g fuel next (pos + g.bytesPerCluster) (splice buf pos (sectorSize * g.sectorsPerCluster) tmp)
    else return buf

def fat32ReadFile (g : Geometry) (fuel : Nat) (entry : Bytes) (mem : Bool) : DiskM (Option Bytes) := do
  if mem = false then return none
  let buf ← readWhole g fuel (entryFirstCluster entry) 0 fun _ => 0
  return some (update buf (entryFileSize entry) 0)

end NyanOS.Fat
