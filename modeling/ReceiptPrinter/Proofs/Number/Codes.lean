import Mathlib.Order.Monotone.Basic
import ReceiptPrinter.Proofs.Number.Rounding

namespace ReceiptPrinter.Number.Binary

variable (b : Binary)

theorem band_pos : 0 < b.band := by
  rw [band, Nat.one_shiftLeft]
  exact Nat.two_pow_pos _

theorem cast_band : (b.band : Rat) = 2 ^ (b.fraction : Int) := by
  rw [band, Nat.one_shiftLeft]
  push_cast
  norm_cast

/-- The band above the lowest that a code lies in. -/
def level (code : Nat) : Nat := code / b.band - 1

def gap (code : Nat) : Rat := 2 ^ (b.lowest + b.level code)

theorem gap_pos (c : Nat) : 0 < b.gap c := by
  unfold gap
  positivity

/-- A place within a band. Only the lowest band reaches down to zero. -/
structure Placed (k r : Nat) : Prop where
  le : r ≤ 2 * b.band
  lowest_or_le : k = 0 ∨ b.band ≤ r

theorem exists_placed (c : Nat) :
    ∃ r, c = b.level c * b.band + r ∧ r < 2 * b.band ∧ b.Placed (b.level c) r := by
  have hb := b.band_pos
  have hm := Nat.mod_lt c hb
  have hd := Nat.div_add_mod' c b.band
  unfold level
  cases hq : c / b.band with
  | zero =>
    rw [hq] at hd
    exact ⟨c, by simp, by omega, by omega, Or.inl rfl⟩
  | succ q =>
    rw [hq, Nat.succ_mul] at hd
    exact ⟨b.band + c % b.band, by rw [Nat.add_sub_cancel]; omega, by omega, by omega,
      Or.inr (by omega)⟩

variable {b}

theorem Placed.value_eq {k r : Nat} (h : b.Placed k r) :
    b.value (k * b.band + r) = r * 2 ^ (b.lowest + k) := by
  have hb := b.band_pos
  have hdiv : ∀ q t, t < b.band → (q * b.band + t) / b.band = q := by
    intro q t ht
    rw [Nat.mul_comm, Nat.mul_add_div hb, Nat.div_eq_of_lt ht, Nat.add_zero]
  have hmod : ∀ q t, t < b.band → (q * b.band + t) % b.band = t := by
    intro q t ht
    rw [Nat.mul_comm, Nat.mul_add_mod, Nat.mod_eq_of_lt ht]
  unfold value
  by_cases hr : r < b.band
  · have hk : k = 0 := h.lowest_or_le.resolve_right (by omega)
    subst hk
    simp [hr]
  · obtain ⟨t, rfl⟩ := Nat.exists_eq_add_of_le (not_lt.mp hr)
    have hle := h.le
    rw [if_neg (by omega)]
    by_cases ht : t = b.band
    · have he : k * b.band + (b.band + t) = (k + 2) * b.band + 0 := by rw [ht]; ring
      have hz : b.lowest + ((k + 2 : Nat) : Int) - 1 = b.lowest + k + 1 := by push_cast; ring
      rw [he, hdiv _ _ hb, hmod _ _ hb, hz, two_zpow_add_one, ht]
      push_cast
      ring
    · have hl : t < b.band := by omega
      have he : k * b.band + (b.band + t) = (k + 1) * b.band + t := by ring
      have hz : b.lowest + ((k + 1 : Nat) : Int) - 1 = b.lowest + k := by push_cast; ring
      rw [he, hdiv _ _ hl, hmod _ _ hl, hz]

theorem Placed.value_succ {k r : Nat} (h : b.Placed k r) (hr : r < 2 * b.band) :
    b.value (k * b.band + r + 1) = (r + 1) * 2 ^ (b.lowest + k) := by
  have hs : b.Placed k (r + 1) := ⟨hr, h.lowest_or_le.imp id fun hb => by omega⟩
  have hv := hs.value_eq
  rw [← Nat.add_assoc] at hv
  rw [hv]
  push_cast
  rfl

variable (b)

theorem value_succ (c : Nat) : b.value (c + 1) = b.value c + b.gap c := by
  obtain ⟨r, hc, hr, hp⟩ := b.exists_placed c
  have hv := hp.value_eq
  have hs := hp.value_succ hr
  rw [← hc] at hv hs
  rw [hs, hv, gap]
  ring

theorem value_strictMono : StrictMono b.value :=
  strictMono_nat_of_lt_succ fun c => by
    rw [value_succ]
    exact lt_add_of_pos_right _ (b.gap_pos c)

theorem value_band (k : Nat) : b.value (k * b.band + b.band) = 2 ^ (b.fraction + b.lowest + k) := by
  have hp : b.Placed k b.band := ⟨by have := b.band_pos; omega, Or.inr le_rfl⟩
  rw [hp.value_eq, b.cast_band, ← zpow_add₀ (by norm_num), add_assoc]

theorem value_zero : b.value 0 = 0 := by
  rw [value, if_pos b.band_pos, Nat.cast_zero, zero_mul]

theorem value_nonneg (c : Nat) : 0 ≤ b.value c := by
  rw [← b.value_zero]
  exact b.value_strictMono.monotone (Nat.zero_le c)

theorem gap_succ_le (c : Nat) : b.gap (c + 1) ≤ 2 * b.gap c := by
  have hl : b.level (c + 1) ≤ b.level c + 1 := by
    have hd : (c + 1) / b.band ≤ (c + b.band) / b.band :=
      Nat.div_le_div_right (by have := b.band_pos; omega)
    rw [Nat.add_div_right c b.band_pos] at hd
    unfold level
    omega
  unfold gap
  rw [← two_zpow_add_one]
  exact zpow_le_zpow_right₀ (by norm_num) (by omega)

theorem value_succ_le_gap (c : Nat) : b.value (c + 1) ≤ 2 * b.band * b.gap c := by
  obtain ⟨r, hc, hr, hp⟩ := b.exists_placed c
  have hs := hp.value_succ hr
  rw [← hc] at hs
  rw [hs, gap]
  have hq : (r : Rat) + 1 ≤ 2 * b.band := by exact_mod_cast hr
  exact mul_le_mul_of_nonneg_right hq (by positivity)

end ReceiptPrinter.Number.Binary
