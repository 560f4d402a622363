import NyanOS.Lib.Bytes
import NyanOS.Lib.Trace
import NyanOS.Memory.System

/-!
# The loader of programs (`elf.c`)

`elf_load_PML4` on a file and an address space. The loops over the segments are cut into operations, one for each
page that is mapped and one for each part of a page that is copied, and the loader stops at the first that fails.
The headers are taken from the buffer once, before the first segment is loaded.
-/
namespace NyanOS.Elf

open Lib Memory

/-- An open file: its bytes and their number. -/
structure File where
  bytes : Bytes
  length : Nat

/-- How many bytes `vfs_read` finds at an offset. -/
def File.count (f : File) (offset size : Nat) : Nat := min size (f.length - offset)

/-- `vfs_read` to a buffer. -/
def File.read (f : File) (offset size : Nat) (buffer : Bytes) : Bytes :=
  splice buffer 0 (f.count offset size) fun k => f.bytes (offset + k)

def ehdrSize : Nat := 64

structure Ehdr where
  magic : Bool
  entry : Nat
  phoff : Nat
  phentsize : Nat
  phnum : Nat

def ehdrOf (b : Bytes) : Ehdr where
  magic := b 0 = 0x7F#8 ∧ b 1 = 0x45#8 ∧ b 2 = 0x4C#8 ∧ b 3 = 0x46#8
  entry := get64 b 24
  phoff := get64 b 32
  phentsize := get16 b 54
  phnum := get16 b 56

def phdrSize : Nat := 56

structure Phdr where
  type : Nat
  offset : Nat
  vaddr : Nat
  filesz : Nat
  memsz : Nat
  deriving DecidableEq

def phdrAt (b : Bytes) (i : Nat) : Phdr :=
  let a := phdrSize * i
  ⟨get32 b a, get64 b (a + 8), get64 b (a + 16), get64 b (a + 32), get64 b (a + 40)⟩

def ptLoad : Nat := 1

inductive Op
  | map (page : Nat)
  /-- `n` bytes of the file from `src` on. -/
  | copy (page offset n src : Nat)
  deriving DecidableEq

/-- The pages from `start_page` to `end_page`. -/
def segmentPages (h : Phdr) : List Nat :=
  List.range' (h.vaddr / pageSize) ((h.vaddr + h.memsz + 0xFFF) % 2 ^ 64 / pageSize - h.vaddr / pageSize)

/-- The loop that copies a segment, a page at most in a turn; `pos` is the offset of the file. -/
def copyOps (f : File) (h : Phdr) : Nat → Nat → Nat → List Op
  | 0, _, _ => []
  | fuel + 1, copied, pos =>
    if copied < h.filesz then
      let addr := (h.vaddr + copied) % 2 ^ 64
      let chunk := min (pageSize - addr % pageSize) (h.filesz - copied)
      .copy (addr / pageSize) (addr % pageSize) (f.count pos chunk) pos ::
        copyOps f h fuel (copied + chunk) (pos + f.count pos chunk)
    else []

def segmentOps (f : File) (h : Phdr) : List Op :=
  if h.type = ptLoad ∧ h.memsz ≠ 0 then
    (segmentPages h).map .map ++ copyOps f h h.filesz 0 h.offset
  else []

/-- What the loader does to memory: it takes a frame for a page, maps a page and writes to a frame. -/
inductive Event
  | take (frame : Nat)
  | map (page : Nat)
  | write (frame : Nat)

structure Loading where
  machine : Machine
  events : List Event

/-- `vmm_virt2phys`, with 0 for a page that is not mapped. -/
def phys (m : Machine) (pml4 page : Nat) : Nat := (vmmVirt2Phys m pml4 page).getD 0

/-- A part of the file in a frame. -/
def storeBytes (m : Machine) (frame offset n : Nat) (src : Bytes) : Machine :=
  (List.range n).foldl (fun m k => storeByte m frame (offset + k) (src k)) m

/-- An operation, and whether it succeeds. -/
def Op.exec (pml4 : Nat) (f : File) (x : Loading) : Op → Bool × Loading
  | .map page =>
    if phys x.machine pml4 page ≠ 0 then (true, x)
    else
      let (frame, _, m) := mapZeroPage x.machine pml4 page
      if frame = 0 then (false, ⟨m, x.events⟩) else (true, ⟨m, x.events ++ [.take frame, .map page]⟩)
  | .copy page offset n src =>
    let frame := phys x.machine pml4 page
    if frame = 0 then (false, x)
    else if n = 0 then (true, x)
    else (true, ⟨storeBytes x.machine frame offset n fun k => f.bytes (src + k), x.events ++ [.write frame]⟩)

/-- The operations that succeed, up to the first that fails. -/
def execAll (pml4 : Nat) (f : File) : List Op → Loading → List Op × Bool × Loading
  | [], x => ([], true, x)
  | op :: ops, x =>
    match op.exec pml4 f x with
    | (false, x) => ([], false, x)
    | (true, x) =>
      let (done, ok, x) := execAll pml4 f ops x
      (op :: done, ok, x)

/-- The file and what the loader finds in the memory of its variables: on the stack, and in the block that
`kmalloc` returns. -/
structure Input where
  file : File
  stack : Bytes
  heap : Bytes
  /-- Does `kmalloc` succeed? -/
  room : Bool

def Input.ehdr (x : Input) : Ehdr := ehdrOf (x.file.read 0 ehdrSize x.stack)

/-- The product is cut to 16 bits. -/
def Input.phdrsSize (x : Input) : Nat := x.ehdr.phnum * x.ehdr.phentsize % 2 ^ 16

/-- The loop looks at `e_phnum` headers of the buffer, whatever its size. -/
def Input.phdrs (x : Input) : List Phdr :=
  (List.range x.ehdr.phnum).map (phdrAt (x.file.read x.ehdr.phoff x.phdrsSize x.heap))

def Input.ops (x : Input) : List Op :=
  if x.ehdr.magic ∧ x.room then x.phdrs.flatMap (segmentOps x.file) else []

/-- `elf_load_PML4` on an open file: the operations made, the entry point or 0, and what happened to memory. -/
def elfLoadPML4 (m : Machine) (pml4 : Nat) (x : Input) : List Op × Nat × Loading :=
  let (done, ok, y) := execAll pml4 x.file x.ops ⟨m, []⟩
  (done, if x.ehdr.magic ∧ x.room ∧ ok then x.ehdr.entry else 0, y)

end NyanOS.Elf
