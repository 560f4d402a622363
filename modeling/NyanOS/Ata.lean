import Mathlib.Tactic

/-!
# Partition devices

`ata_fs_read` and `ata_fs_write` of `drivers/ata.c`, the file operations of `/dev/hdaN`. The state of the disk is left
out: a call is known by the commands it gives to the drive.
-/
namespace NyanOS.Ata

def sectorSize : Nat := 0x200

/-- The fields come from an entry of the partition table. -/
structure PartitionDevice where
  startLba : Nat
  sectorCount : Nat
  driveSel : Nat
  start_lt : startLba < 2 ^ 32

inductive Kind
  | read
  | write
  deriving DecidableEq

/-- The registers of the drive when a command is given. -/
structure Command where
  kind : Kind
  lo : Nat
  mid : Nat
  hi : Nat
  drive : Nat
  secCount : Nat
  deriving DecidableEq

/-- The 28 bits of the address that the drive reads from its registers. -/
def Command.lba (c : Command) : Nat := c.lo + c.mid * 2 ^ 8 + c.hi * 2 ^ 16 + c.drive % 2 ^ 4 * 2 ^ 24

/-- To the drive a count of 0 means 256 sectors. -/
def Command.count (c : Command) : Nat := if c.secCount = 0 then 256 else c.secCount

def program (kind : Kind) (lba secCount driveSel : Nat) : Command :=
  ⟨kind, lba % 2 ^ 8, lba / 2 ^ 8 % 2 ^ 8, lba / 2 ^ 16 % 2 ^ 8,
    lba / 2 ^ 24 % 2 ^ 4 + 0xE0 + driveSel % 2 * 2 ^ 4, secCount⟩

def ataReadSectors (lba secCount driveSel : Nat) : List Command := [program .read lba secCount driveSel]

def ataWriteSectors (lba secCount driveSel : Nat) : List Command :=
  if secCount = 0 then [] else [program .write lba secCount driveSel]

variable (p : PartitionDevice) (room : Bool) (offset size : Nat)

def startLba : Nat := (p.startLba + offset / sectorSize) % 2 ^ 64

def endLba : Nat := (p.startLba + (offset + size + (2 ^ 64 - 1)) % 2 ^ 64 / sectorSize) % 2 ^ 64

def numSectors : Nat := (endLba p offset size + (2 ^ 64 - startLba p offset) + 1) % 2 ^ 64

/-- `vmm_alloc`, with `room` if there is memory for the request; a request for nothing fails. -/
def vmmAlloc (size : Nat) : Bool := room && size != 0

/-- The common body of `ata_fs_read` and `ata_fs_write`: the count returned and the commands given. -/
def ataFs (transfer : Nat → Nat → Nat → List Command) : Nat × List Command :=
  if 255 < numSectors p offset size then (0, [])
  else if vmmAlloc room (2 * numSectors p offset size * 256) = false then (0, [])
  -- The address is narrowed to `uint32_t` and the count to `uint8_t` by the call.
  else (size, transfer (startLba p offset % 2 ^ 32) (numSectors p offset size % 2 ^ 8) p.driveSel)

def ataFsRead : Nat × List Command := ataFs p room offset size ataReadSectors

/-- The sectors are read, modified and written back. -/
def ataFsWrite : Nat × List Command :=
  ataFs p room offset size fun lba n sel => ataReadSectors lba n sel ++ ataWriteSectors lba n sel

/-- Every sector of every command is one of the partition, and a call that gives no command returns 0. -/
def Stays (r : Nat × List Command) : Prop :=
  (∀ c ∈ r.2, ∀ i < c.count, p.startLba ≤ c.lba + i ∧ c.lba + i < p.startLba + p.sectorCount) ∧ (r.2 = [] → r.1 = 0)

/-- The call is refused, or its sectors are those of the partition after the address is cut to 28 bits. -/
def Allowed : Prop :=
  255 < numSectors p offset size ∨ numSectors p offset size = 0 ∨ room = false ∨
    p.startLba ≤ startLba p offset % 2 ^ 28 ∧
      startLba p offset % 2 ^ 28 + numSectors p offset size ≤ p.startLba + p.sectorCount

variable {p room offset size}

theorem lba_program {kind : Kind} {lba n sel : Nat} : (program kind lba n sel).lba = lba % 2 ^ 28 := by
  simp only [program, Command.lba]
  omega

theorem count_program {kind : Kind} {lba n sel : Nat} (hn : n ≠ 0) : (program kind lba n sel).count = n := if_neg hn

/-- Both functions give commands for the same sectors and for no others. -/
theorem stays_ataFs_iff {transfer : Nat → Nat → Nat → List Command}
    (hread : ∀ lba n sel, program .read lba n sel ∈ transfer lba n sel)
    (hall : ∀ lba n sel, ∀ c ∈ transfer lba n sel, ∃ kind, c = program kind lba n sel) :
    Stays p (ataFs p room offset size transfer) ↔ Allowed p room offset size := by
  have hrefused : Stays p (0, []) := ⟨by simp, fun _ => rfl⟩
  rw [ataFs, Allowed]
  split
  · next hmany => exact ⟨fun _ => .inl hmany, fun _ => hrefused⟩
  split
  · next hfail =>
    refine ⟨fun _ => ?_, fun _ => hrefused⟩
    simp only [vmmAlloc, Bool.and_eq_false_iff, bne_eq_false_iff_eq] at hfail
    rcases hfail with hfull | hzero
    · exact .inr (.inr (.inl hfull))
    · exact .inr (.inl (by omega))
  next hmany halloc =>
  simp only [vmmAlloc, Bool.and_eq_false_iff, bne_eq_false_iff_eq, not_or] at halloc
  have hcount : numSectors p offset size % 2 ^ 8 = numSectors p offset size := by omega
  rw [hcount]
  have hlba : startLba p offset % 2 ^ 32 % 2 ^ 28 = startLba p offset % 2 ^ 28 := by omega
  constructor
  · intro h
    have hin := h.1 _ (hread _ _ _)
    rw [count_program (by omega), lba_program, hlba] at hin
    have hfirst := hin 0 (by omega)
    have hlast := hin (numSectors p offset size - 1) (by omega)
    exact .inr (.inr (.inr (by omega)))
  · intro h
    refine ⟨fun c hc i hi => ?_, fun hnone => ?_⟩
    · obtain ⟨kind, rfl⟩ := hall _ _ _ c hc
      rw [count_program (by omega)] at hi
      rw [lba_program, hlba]
      rcases h with hmany' | hzero | hfull | hin
      · exact absurd hmany' hmany
      · omega
      · exact absurd hfull halloc.1
      · omega
    · exact absurd (hread _ _ _) (hnone ▸ List.not_mem_nil)

end NyanOS.Ata
