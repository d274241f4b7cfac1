import Mathlib.Algebra.Order.Field.Power
import Mathlib.Algebra.Order.Field.Rat
import Mathlib.Data.Rat.Floor
import Mathlib.Tactic.FieldSimp
import Mathlib.Tactic.Linarith
import Mathlib.Tactic.NormNum
import Mathlib.Tactic.Positivity
import Mathlib.Tactic.Ring
import ReceiptPrinter.Number.Binary

namespace ReceiptPrinter.Number

theorem two_zpow_add_one (e : Int) : (2 : Rat) ^ (e + 1) = 2 * 2 ^ e := by
  rw [zpow_add_one₀ (by norm_num), mul_comm]

theorem natAbs_num_div_den {x : Rat} (h : 0 < x) : x = (x.num.natAbs : Rat) / x.den := by
  have hn : ((x.num.natAbs : Int) : Rat) = x.num := by
    rw [Int.natAbs_of_nonneg (Rat.num_nonneg.mpr h.le)]
  rw [← Int.cast_natCast x.num.natAbs, hn, Rat.num_div_den]

theorem zpow_log2_sub_le {n d : Nat} (hn : n ≠ 0) (hd : d ≠ 0) :
    (2 : Rat) ^ ((n.log2 : Int) - d.log2 - 1) ≤ n / d := by
  have hl : ((2 ^ n.log2 : Nat) : Rat) ≤ n := by exact_mod_cast Nat.log2_self_le hn
  have hu : (d : Rat) ≤ (2 ^ (d.log2 + 1) : Nat) := by exact_mod_cast Nat.lt_log2_self.le
  have hp : (0 : Rat) < d := by exact_mod_cast Nat.pos_of_ne_zero hd
  rw [le_div_iff₀ hp]
  calc (2 : Rat) ^ ((n.log2 : Int) - d.log2 - 1) * d
      ≤ 2 ^ ((n.log2 : Int) - d.log2 - 1) * (2 ^ (d.log2 + 1) : Nat) := by gcongr
    _ = 2 ^ ((n.log2 : Int) - d.log2 - 1) * 2 ^ ((d.log2 : Int) + 1) := by push_cast; norm_cast
    _ = 2 ^ (n.log2 : Int) := by rw [← zpow_add₀ (by norm_num)]; congr 1; omega
    _ = (2 ^ n.log2 : Nat) := by push_cast; norm_cast
    _ ≤ n := hl

theorem lt_zpow_log2_sub {n d : Nat} (hd : d ≠ 0) :
    (n / d : Rat) < 2 ^ ((n.log2 : Int) - d.log2 + 1) := by
  have hu : (n : Rat) < (2 ^ (n.log2 + 1) : Nat) := by exact_mod_cast Nat.lt_log2_self
  have hl : ((2 ^ d.log2 : Nat) : Rat) ≤ d := by exact_mod_cast Nat.log2_self_le hd
  have hp : (0 : Rat) < d := by exact_mod_cast Nat.pos_of_ne_zero hd
  rw [div_lt_iff₀ hp]
  calc (n : Rat) < (2 ^ (n.log2 + 1) : Nat) := hu
    _ = 2 ^ ((n.log2 : Int) + 1) := by push_cast; norm_cast
    _ = 2 ^ ((n.log2 : Int) - d.log2 + 1) * 2 ^ (d.log2 : Int) := by
      rw [← zpow_add₀ (by norm_num)]; congr 1; omega
    _ = 2 ^ ((n.log2 : Int) - d.log2 + 1) * (2 ^ d.log2 : Nat) := by push_cast; norm_cast
    _ ≤ 2 ^ ((n.log2 : Int) - d.log2 + 1) * d := by gcongr

theorem zpow_log2_le {x : Rat} (h : 0 < x) : (2 : Rat) ^ log2 x ≤ x := by
  have hn : x.num.natAbs ≠ 0 := Int.natAbs_ne_zero.mpr (Rat.num_pos.mpr h).ne'
  have hb := zpow_log2_sub_le hn x.den_nz
  rw [← natAbs_num_div_den h] at hb
  simp only [log2]
  split
  · next hc => exact hc
  · exact hb

theorem lt_zpow_log2 {x : Rat} (h : 0 < x) : x < (2 : Rat) ^ (log2 x + 1) := by
  have hb := lt_zpow_log2_sub (n := x.num.natAbs) x.den_nz
  rw [← natAbs_num_div_den h] at hb
  simp only [log2]
  split
  · exact hb
  · next hc =>
    rw [sub_add_cancel]
    exact not_le.mp hc

/-- A number is nearest to `x`, and it is even when a neighbour is as near. -/
structure IsNearest (x : Rat) (n : Nat) : Prop where
  low : (n : Rat) - 1 / 2 ≤ x
  high : x ≤ n + 1 / 2
  even_of_low : x = n - 1 / 2 → n % 2 = 0
  even_of_high : x = n + 1 / 2 → n % 2 = 0

theorem floor_toNat {x : Rat} (h : 0 ≤ x) : (x.floor.toNat : Rat) ≤ x ∧ x < x.floor.toNat + 1 := by
  have hn : (x.floor.toNat : Int) = ⌊x⌋ := Int.toNat_of_nonneg (Int.floor_nonneg.mpr h)
  have hf : ((x.floor.toNat : Int) : Rat) = (⌊x⌋ : Int) := by rw [hn]
  rw [← Int.cast_natCast x.floor.toNat, hf]
  exact ⟨Int.floor_le x, Int.lt_floor_add_one x⟩

theorem isNearest_roundHalfEven {x : Rat} (h : 0 ≤ x) : IsNearest x (roundHalfEven x) := by
  obtain ⟨hl, hu⟩ := floor_toNat h
  simp only [roundHalfEven]
  generalize x.floor.toNat = n at hl hu
  split
  · next hc =>
    refine ⟨by linarith, ?_, fun he => by linarith, ?_⟩
    · obtain hc | ⟨hc, -⟩ := hc <;> linarith
    · intro he
      obtain hc | ⟨-, hn⟩ := hc
      · linarith
      · exact hn
  · next hc =>
    rw [not_or, not_lt, not_and_or] at hc
    have hs : ((n + 1 : Nat) : Rat) = n + 1 := by push_cast; rfl
    refine ⟨by linarith [hc.1], by linarith, ?_, fun he => by linarith⟩
    intro he
    obtain hn | hn := hc.2
    · exact absurd (by linarith) hn
    · omega

namespace IsNearest

variable {x : Rat} {n m : Nat}

theorem le_of_lt (h : IsNearest x n) (hx : x < m) : n ≤ m := by
  have hn : (n : Rat) < m + 1 := by linarith [h.low]
  exact_mod_cast Nat.lt_succ_iff.mp (by exact_mod_cast hn)

theorem le_of_le (h : IsNearest x n) (hx : (m : Rat) ≤ x) : m ≤ n := by
  have hn : (m : Rat) < n + 1 := by linarith [h.high]
  exact_mod_cast Nat.lt_succ_iff.mp (by exact_mod_cast hn)

theorem eq_of_natCast (h : IsNearest (m : Rat) n) : n = m := by
  have hl : (n : Rat) < m + 1 := by linarith [h.low]
  have hu : (m : Rat) < n + 1 := by linarith [h.high]
  have hl' : n < m + 1 := by exact_mod_cast hl
  have hu' : m < n + 1 := by exact_mod_cast hu
  omega

end IsNearest

end ReceiptPrinter.Number
