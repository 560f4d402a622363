import NyanOS.Fat.Files

/-!
# The tar file system (`fs/tar.c`, `fs/tar_fs.c`)

The archive lies in memory. Loops over its headers have a bound on their turns and return `none` beyond it; strings in
memory are read up to a bound as well. A string that is an argument has no NUL among its characters, and `search_path` has
room for the path of a header and a name of 127 characters.
-/
namespace NyanOS.Tar

open Lib
open Fat (Dirent vfsFile vfsDirectory)

def slash : Byte := 0x2F

/-- Offsets of the fields of a `tar_header_t`. -/
def sizeField : Nat := 124
def typeflagField : Nat := 156
def magicField : Nat := 257

/-- The string at an address. -/
def cstr (b : Bytes) : Nat → Nat → List Byte
  | 0, _ => []
  | fuel + 1, a => if b a = 0 then [] else b a :: cstr b fuel (a + 1)

/-- The loop of `oct2bin`, with `size` characters to go. -/
def oct2binFrom (b : Bytes) : Nat → Nat → Nat → Nat
  | 0, _, n => n
  | size + 1, a, n =>
    if b a < 0x30 ∨ 0x37 < b a then n else oct2binFrom b size (a + 1) ((n * 8 + ((b a).toNat - 0x30)) % 2 ^ 64)

def oct2bin (b : Bytes) (a size : Nat) : Nat := oct2binFrom b size a 0

def tarValidate (b : Bytes) (header : Nat) : Bool :=
  b (header + magicField) == 0x75 && b (header + magicField + 1) == 0x73 && b (header + magicField + 2) == 0x74 &&
    b (header + magicField + 3) == 0x61 && b (header + magicField + 4) == 0x72

def fileSize (b : Bytes) (header : Nat) : Nat := oct2bin b (header + sizeField) 11

def nextHeader (b : Bytes) (header : Nat) : Nat :=
  let sizeAligned := (fileSize b header + 511) / 512 * 512
  (header + 512 + sizeAligned) % 2 ^ 64

/-- The `device_data` of a node: the empty string of the root, or a header. -/
inductive DeviceData where
  | root
  | header (addr : Nat)
  deriving DecidableEq

/-- A `vfs_node_t` of this file system. -/
structure Node where
  name : List Byte
  flags : Nat
  length : Nat
  deviceData : DeviceData
  deriving DecidableEq

def tarFsInit : Node := ⟨[slash], vfsDirectory, 0, .root⟩

/-- The string that `device_data` points to, which is the name of a header. -/
def pathOf (b : Bytes) (fuel : Nat) : DeviceData → List Byte
  | .root => []
  | .header addr => cstr b fuel addr

/-- A directory by its type or by its name. -/
def isDirectory (b : Bytes) (header : Nat) (name : List Byte) : Bool :=
  b (header + typeflagField) == 0x35 || name.getLast? == some slash

/-- The two comparisons of `tar_vfs_finddir`. -/
def matchesPath (name searchPath : List Byte) : Bool :=
  let len := searchPath.length
  name == searchPath || name.take len == searchPath && name.getD len 0 == slash && name.getD (len + 1) 0 == 0

def finddirFrom (b : Bytes) (fuel : Nat) (name searchPath : List Byte) : Nat → Nat → Option (Option Node)
  | 0, _ => none
  | turns + 1, iter =>
    if tarValidate b iter then
      let hname := cstr b fuel iter
      if matchesPath hname searchPath then
        if 128 ≤ name.length then some none
        else some (some ⟨name, if isDirectory b iter hname then vfsDirectory else vfsFile, fileSize b iter, .header iter⟩)
      else finddirFrom b fuel name searchPath turns (nextHeader b iter)
    else some none

def tarVfsFinddir (b : Bytes) (base fuel : Nat) (node : Node) (name : List Byte) : Option (Option Node) :=
  if base = 0 then some none else finddirFrom b fuel name (pathOf b fuel node.deviceData ++ name) fuel base

/-- Is there something after the first slash? -/
def slashInside (suffix : List Byte) : Bool :=
  match suffix.dropWhile (· ≠ slash) with
  | [] => false
  | _ :: rest => !rest.isEmpty

/-- The `dirent_t` for a header, given what its name has after the path of the directory. -/
def fillDirent (b : Bytes) (header : Nat) (name suffix : List Byte) : Dirent :=
  if isDirectory b header name then
    ⟨if suffix.getLast? = some slash then suffix.dropLast else suffix, vfsDirectory, fileSize b header⟩
  else ⟨suffix, vfsFile, fileSize b header⟩

def readdirFrom (b : Bytes) (fuel : Nat) (dirPath : List Byte) (idx : Nat) : Nat → Nat → Nat → Option (Option Dirent)
  | 0, _, _ => none
  | turns + 1, header, currIdx =>
    if b header = 0 then some none
    else
      let name := cstr b fuel header
      let suffix := name.drop dirPath.length
      if name.take dirPath.length ≠ dirPath then readdirFrom b fuel dirPath idx turns (nextHeader b header) currIdx
      else if suffix.length = 0 then readdirFrom b fuel dirPath idx turns (nextHeader b header) currIdx
      else if slashInside suffix then readdirFrom b fuel dirPath idx turns (nextHeader b header) currIdx
      else if currIdx = idx then some (some (fillDirent b header name suffix))
      else readdirFrom b fuel dirPath idx turns (nextHeader b header) ((currIdx + 1) % 2 ^ 32)

def tarVfsReaddir (b : Bytes) (base fuel : Nat) (node : Node) (idx : Nat) : Option (Option Dirent) :=
  if base = 0 then some none else readdirFrom b fuel (pathOf b fuel node.deviceData) idx fuel base 0

end NyanOS.Tar
