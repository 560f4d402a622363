import NyanOS.Fat.Invisible

/-!
# The copies of the FAT

The module writes entries of the first FAT, and nothing brings the others up to date.
-/
namespace NyanOS.Fat

open Lib Option

variable {g : Geometry} {v v' : Vol} {d : Disk} {fuel lba secCount : Nat}

/-- Byte `k` of copy `i`. -/
def Geometry.copyByte (g : Geometry) (i k : Nat) : Nat := sectorSize * (g.fatStart + i * g.sectorsPerFat32) + k

def Identical (g : Geometry) (d : Disk) : Prop :=
  ∀ i < g.fatsNum, ∀ k < sectorSize * g.sectorsPerFat32, d (g.copyByte i k) = d (g.copyByte 0 k)

/-- The sectors are none of a copy behind the first one. -/
def Geometry.Before (g : Geometry) (lba secCount : Nat) : Prop :=
  lba % 2 ^ 28 + secCount ≤ g.fatStart + g.sectorsPerFat32 ∨ g.fatStart + g.fatsNum * g.sectorsPerFat32 ≤ lba % 2 ^ 28

def spares (g : Geometry) : Cmd → Vol → Prop
  | .fatRead _, _ | .ataRead _ _, _ => True
  | .fatWrite lba _, _ => g.Before lba 1
  | .ataWrite lba secCount _, _ => g.Before lba secCount

instance : ∀ c v, Decidable (spares g c v)
  | .fatRead _, _ | .ataRead _ _, _ => inferInstanceAs (Decidable True)
  | .fatWrite _ _, _ | .ataWrite _ _ _, _ => inferInstanceAs (Decidable (_ ≤ _ ∨ _ ≤ _))

/-- The call ends and writes no sector of a copy behind the first one. -/
def Spares (g : Geometry) (fuel : Nat) (v : Vol) (e : Event) : Prop :=
  (e.1.prog g fuel).wp onVol (spares g) v fun _ _ => True

/-- The copies behind the first one are as they were. -/
def SameBehind (g : Geometry) (d d' : Disk) : Prop :=
  ∀ i < g.fatsNum, 0 < i → ∀ k < sectorSize * g.sectorsPerFat32, d' (g.copyByte i k) = d (g.copyByte i k)

theorem ataWrite_behind {src : Bytes} (h : g.Before lba secCount) :
    SameBehind g d (ataWrite d lba secCount src) := by
  intro i hi hpos k hk
  have hfirst : g.sectorsPerFat32 ≤ i * g.sectorsPerFat32 := Nat.le_mul_of_pos_left _ hpos
  have hlast : (i + 1) * g.sectorsPerFat32 ≤ g.fatsNum * g.sectorsPerFat32 := Nat.mul_le_mul_right _ hi
  rw [Nat.succ_mul] at hlast
  refine splice_out ?_
  unfold Geometry.Before at h
  unfold Geometry.copyByte
  unfold sectorSize at hk ⊢
  omega

theorem onVol_behind (c : Cmd) (h : spares g c v) : SameBehind g v.disk (onVol c v).2.disk := by
  cases c with
  | fatRead lba =>
    have hdisk : (fatCacheReadSector v lba).2.disk = v.disk := by
      unfold fatCacheReadSector
      dsimp only
      split <;> rfl
    intro i _ _ k _
    exact congrFun hdisk _
  | fatWrite lba src => exact ataWrite_behind h
  | ataRead lba secCount => exact fun _ _ _ _ _ => rfl
  | ataWrite lba secCount src => exact ataWrite_behind h

theorem step_behind {e : Event} (h : guarded (fatStep onVol g fuel) (Spares g fuel) v e v') :
    SameBehind g v.disk v'.disk := by
  obtain ⟨hspares, hrun⟩ := h
  have hstep : ∀ (c : Cmd) (w u : Vol), spares g c u → w = u ∧ SameBehind g v.disk u.disk →
      (onVol c w).1 = (onVol c u).1 ∧ (onVol c w).2 = (onVol c u).2 ∧ SameBehind g v.disk (onVol c u).2.disk := by
    rintro c w u hc ⟨rfl, hsame⟩
    exact ⟨rfl, rfl, fun i hi hpos k hk => (onVol_behind c hc i hi hpos k hk).trans (hsame i hi hpos k hk)⟩
  obtain ⟨a, w, u, hw, -, ⟨rfl, hsame⟩, -⟩ := Prog.run_simulates hstep hspares ⟨rfl, fun _ _ _ _ _ => rfl⟩
  obtain ⟨-, rfl⟩ := Prod.mk.inj (some.inj (hrun.symm.trans hw))
  exact hsame

def sparesOn (g : Geometry) (fuel : Nat) (v : Vol) (op : FatOp) : Bool :=
  decide ((op.prog g fuel).wp onVol (spares g) v fun _ _ => True)

/-- Two FATs of one sector each, and the same disk behind the first of them once more. -/
def twoFats : Geometry := { smallVolume with fatsNum := 2 }

def twoFatDisk : Disk := fun a => emptyDisk (if 1024 ≤ a then a - 512 else a)

end NyanOS.Fat
