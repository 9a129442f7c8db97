import Mathlib.Tactic.Ring
import Synch.Transparency.Frontier

/-!
# Nodes read out of tiles

A node of the tree is not stored itself: it is folded from the hashes under it, which lie next
to one another in one tile.
-/

namespace Synch.Transparency

open Synch.Support

/-! ## Where a node lies -/

/-- The tile that holds the hashes under a node. -/
def tileOf (level index : Nat) : Nat :=
  index * 2 ^ (level % 8) / 256

/-- The number of the node among those of its level in the tile. -/
def offsetIn (level index : Nat) : Nat :=
  index - tileOf level index * 256 / 2 ^ (level % 8)

/-- The hashes under a node are those of one tile, at its offset. -/
theorem tileOf_add_offsetIn (level index : Nat) :
    tileOf level index * 256 / 2 ^ (level % 8) ≤ index ∧
      tileOf level index * 256 + offsetIn level index * 2 ^ (level % 8) = index * 2 ^ (level % 8) ∧
      (offsetIn level index + 1) * 2 ^ (level % 8) ≤ 256 := by
  have hwithin : level % 8 < 8 := Nat.mod_lt _ (by decide)
  have hpos : 0 < 2 ^ (level % 8) := Nat.two_pow_pos _
  have hside : 0 < 2 ^ (8 - level % 8) := Nat.two_pow_pos _
  have hwhole : 256 = 2 ^ (level % 8) * 2 ^ (8 - level % 8) := by
    rw [← Nat.pow_add, Nat.add_sub_cancel' hwithin.le]
  unfold offsetIn tileOf
  generalize 2 ^ (level % 8) = span at *
  generalize 2 ^ (8 - level % 8) = count at *
  have htile : index * span / 256 = index / count := by
    rw [hwhole, Nat.mul_comm index, Nat.mul_div_mul_left _ _ hpos]
  have hfirst : index / count * 256 / span = index / count * count := by
    rw [hwhole, Nat.mul_left_comm, Nat.mul_div_cancel_left _ hpos]
  have hoffset : index - index / count * count = index % count := by
    have hsplit := Nat.div_add_mod' index count
    omega
  rw [htile, hfirst, hoffset]
  refine ⟨Nat.div_mul_le_self index count, ?_, ?_⟩
  · calc
      index / count * 256 + index % count * span
          = (index / count * count + index % count) * span := by
        rw [hwhole]
        ring
      _ = index * span := by rw [Nat.div_add_mod']
  · calc
      (index % count + 1) * span ≤ count * span :=
        Nat.mul_le_mul_right span (Nat.mod_lt index hside)
      _ = 256 := by rw [hwhole, Nat.mul_comm]

/-- The tile of a complete subtree of the tree reaches to the end of the subtree. -/
theorem offsetIn_le_width {size level index : Nat} (hinside : (index + 1) * 2 ^ level ≤ size) :
    (offsetIn level index + 1) * 2 ^ (level % 8) ≤
      widthAt size (level / 8) (tileOf level index) := by
  obtain ⟨-, hplace, hfits⟩ := tileOf_add_offsetIn level index
  have hlevel : 2 ^ level = 2 ^ (level % 8) * 2 ^ (8 * (level / 8)) := by
    rw [← Nat.pow_add, Nat.mod_add_div]
  have hreach : (index + 1) * 2 ^ (level % 8) ≤ size / 2 ^ (8 * (level / 8)) := by
    rw [Nat.le_div_iff_mul_le (Nat.two_pow_pos _), Nat.mul_assoc, ← hlevel]
    exact hinside
  rw [Nat.add_mul, Nat.one_mul] at hreach hfits ⊢
  unfold widthAt
  omega

theorem widthAt_tileOf {size level index : Nat} (hinside : (index + 1) * 2 ^ level ≤ size) :
    widthAt size (level / 8) (tileOf level index) ≠ 0 := by
  have hpos : 0 < 2 ^ (level % 8) := Nat.two_pow_pos _
  have hslice := offsetIn_le_width hinside
  rw [Nat.succ_mul] at hslice
  omega

theorem index_of_mem_subtreeParts {stop : Nat} {part : Nat × Nat} (h : part ∈ subtreeParts 0 stop) :
    part.2 / 2 ^ part.1 * 2 ^ part.1 = part.2 ∧ (part.2 / 2 ^ part.1 + 1) * 2 ^ part.1 ≤ stop := by
  obtain ⟨haligned, hend, -⟩ := mem_subtreeParts (Nat.zero_mod _) h
  have hindex : part.2 / 2 ^ part.1 * 2 ^ part.1 = part.2 :=
    Nat.div_mul_cancel (Nat.dvd_of_mod_eq_zero (mod_two_pow_of_succ haligned))
  rw [Nat.succ_mul, hindex]
  exact ⟨rfl, hend⟩

section Reading

variable {sha256 : List UInt8 → Hash} {σ : Type} {source : TileSource σ} {size : Nat}
    {reader : Reader σ}

theorem returns_fetch {path : TilePath} {reader : Reader σ} {answer : Option (List UInt8)}
    {next : σ} (h : source.fetch path reader.source = (.ok answer, next)) :
    Returns (fetch source path) reader answer { reader with source := next } := by
  simp only [Returns, Task.outcome, fetch, h]

theorem returns_hashTile {tileLevel index : Nat} {answer : List UInt8} {next : σ}
    (hwidth : widthAt size tileLevel index ≠ 0)
    (hfetch : source.fetch ⟨.hashes tileLevel, index, widthAt size tileLevel index⟩
      reader.source = (.ok (some answer), next))
    (hlength : answer.length = widthAt size tileLevel index * 32) :
    Returns (hashTile source size tileLevel index) reader answer
      { reader with source := next } := by
  apply (returns_refuseIf hwidth).bind
  have hbytes : Returns (tileBytes source (.hashes tileLevel) tileLevel index
      (widthAt size tileLevel index)) reader answer { reader with source := next } := by
    exact (returns_fetch hfetch).bind returns_pure
  apply hbytes.bind
  exact (returns_refuseIf (not_not.mpr hlength)).bind returns_pure

/-- A reader folds a complete subtree from the bytes of its tile. -/
theorem returns_storedHash (hword : size < 2 ^ 64) {level index : Nat}
    (hinside : (index + 1) * 2 ^ level ≤ size) {data : List UInt8}
    (hlength : data.length = widthAt size (level / 8) (tileOf level index) * 32) {next : Reader σ}
    (htile : Returns (hashTile source size (level / 8) (tileOf level index)) reader data next) :
    Returns (storedHash sha256 source size level index) reader
      (treeValue (nodeHash sha256) (hashAt data) (offsetIn level index * 2 ^ (level % 8))
        (2 ^ (level % 8))) next := by
  have hpos : 0 < 2 ^ (level % 8) := Nat.two_pow_pos _
  have hindex : ¬2 ^ (64 - level % 8) ≤ index := by
    intro hle
    have hmul := Nat.mul_le_mul_right (2 ^ (level % 8)) hle
    rw [← Nat.pow_add, Nat.sub_add_cancel (by omega)] at hmul
    have hshift : index * 2 ^ (level % 8) ≤ index * 2 ^ level :=
      Nat.mul_le_mul_left _ (Nat.pow_le_pow_right (by decide) (Nat.mod_le level 8))
    have hspan : 0 < 2 ^ level := Nat.two_pow_pos level
    rw [Nat.succ_mul] at hinside
    omega
  have hend : (offsetIn level index * 2 ^ (level % 8) + 2 ^ (level % 8)) * 32 ≤ data.length := by
    rw [hlength, ← Nat.succ_mul]
    exact Nat.mul_le_mul_right 32 (offsetIn_le_width hinside)
  have hrun : slice data (offsetIn level index * 2 ^ (level % 8) * 32)
      ((offsetIn level index + 1) * 2 ^ (level % 8) * 32) = some _ :=
    slice_eq (by rw [Nat.succ_mul]; omega) (by rw [Nat.succ_mul]; exact hend)
  have hspan : (offsetIn level index + 1) * 2 ^ (level % 8) * 32 -
      offsetIn level index * 2 ^ (level % 8) * 32 = 2 ^ (level % 8) * 32 := by
    rw [← Nat.sub_mul, Nat.succ_mul, Nat.add_sub_cancel_left]
  rw [hspan] at hrun
  apply (returns_refuseIf hindex).bind
  apply htile.bind
  apply (returns_orRefuse hrun).bind
  exact returns_orRefuse (fold_run hend)

theorem fold_fullTile {data : List UInt8} (hlength : data.length = 256 * 32) :
    fold sha256 data = some (treeValue (nodeHash sha256) (hashAt data) 0 256) := by
  have hfold : fold sha256 ((data.drop (0 * 32)).take (2 ^ 8 * 32)) = some _ :=
    fold_run (by omega)
  have htake : data.take (2 ^ 8 * 32) = data := List.take_of_length_le hlength.le
  rwa [Nat.zero_mul, List.drop_zero, htake] at hfold

end Reading

end Synch.Transparency
