import NyanOS.Fat.Allocation
import NyanOS.Lib.Links

/-!
# Chains of clusters

The clusters that the loops of `fs/fat32.c` follow through the FAT.
-/
namespace NyanOS.Fat

open Lib List

variable {g : Geometry} {f : Nat → Nat} {c c' fuel : Nat} {xs : List Nat}

/-- The clusters of a chain, from the first one to an end mark. -/
abbrev Links (g : Geometry) (f : Nat → Nat) : Nat → List Nat → Prop := Linked f g.Cluster (eoc ≤ ·)

theorem Geometry.Ok.not_end (hg : g.Ok) (c : Nat) (hc : g.Cluster c) : ¬ eoc ≤ c := by
  have := hg.entries_lt
  have := hc.2
  omega

theorem Geometry.Ok.inChain (hg : g.Ok) (hc : g.Cluster c) : InChain c := ⟨hc.1, by have := hg.not_end c hc; omega⟩

theorem Links.nodup (hg : g.Ok) (h : Links g f c xs) : xs.Nodup := Linked.nodup hg.not_end h

theorem Links.length_le (hg : g.Ok) (h : Links g f c xs) : xs.length ≤ g.fatEntries - 2 := by
  have hsub : xs.Subperm (List.range' 2 (g.fatEntries - 2)) := by
    refine (h.nodup hg).subperm fun x hx => mem_range'_1.mpr ?_
    have hcell := h.cell_of_mem hx
    exact ⟨hcell.1, by have := hcell.1; have := hcell.2; omega⟩
  simpa using hsub.length_le

theorem Links.length_le_fuel (hg : g.Ok) (h : Links g f c xs) (hfuel : g.fatEntries ≤ fuel) : xs.length ≤ fuel := by
  have := h.length_le hg
  omega

theorem Links.fat_ne_zero (h : Links g f c xs) (hx : c' ∈ xs) : f c' ≠ 0 := by
  obtain ⟨ys, zs, rfl⟩ := append_of_mem hx
  cases h.drop with
  | cons _ hrest =>
    cases hrest with
    | nil hfin => exact fun h0 => absurd hfin (h0 ▸ by decide)
    | cons hcell _ => exact fun h0 => absurd hcell.1 (by omega)

end NyanOS.Fat
