import Mathlib.Data.Nat.Log
import Mathlib.Tactic.LinearCombination
import ReceiptPrinter.Number.Decimal
import ReceiptPrinter.Proofs.Number.Fractions
import ReceiptPrinter.Proofs.Number.Rounding

namespace ReceiptPrinter.Number

/-- The second magnitude is off the first by two and a half units in the last place of a double at
most. -/
def IsNear (x y : Rat) : Prop := |y - x| ≤ 5 / 2 ^ 54 * x

theorem not_isNear_zero {x : Rat} (hx : 0 < x) : ¬ IsNear x 0 := by
  intro h
  have hl := (abs_le.mp h).1
  linarith

theorem IsNear.of_between {x y z : Rat} (h : IsNear x z) (hy : x ≤ y ∧ y ≤ z ∨ z ≤ y ∧ y ≤ x) :
    IsNear x y := by
  obtain ⟨hl, hu⟩ := abs_le.mp h
  apply abs_le.mpr
  obtain ⟨h1, h2⟩ | ⟨h1, h2⟩ := hy <;> constructor <;> linarith

/-- The decimals of few digits that come near a short multiple of a power of two and miss it. -/
def closeDecimals : List Decimal :=
  [⟨7038531, -32⟩, ⟨14077062, -32⟩, ⟨28154124, -32⟩, ⟨25645849, -15⟩, ⟨28874659, 15⟩]

/-- Powers of ten and of two, as far as singles need them, are whole in this unit. -/
def unit : Nat := 10 ^ 52 * 2 ^ 200

theorem unit_pos : 0 < unit := by decide

structure IsNearRatio (x m n : Nat) : Prop where
  le : (2 ^ 54 - 5) * x * n ≤ m * (2 ^ 54 * unit)
  ge : m * (2 ^ 54 * unit) ≤ (2 ^ 54 + 5) * x * n

namespace IsNearRatio

instance (x m n : Nat) : Decidable (IsNearRatio x m n) :=
  decidable_of_iff (_ ∧ _) ⟨fun h => ⟨h.1, h.2⟩, fun h => ⟨h.le, h.ge⟩⟩

variable {x m n p q : Nat}

theorem mul_le_mul (h : IsNearRatio x m n) (h' : IsNearRatio x p q) (hm : m < 2 ^ 25) (hq : q < 2 ^ 25) :
    m * q ≤ p * n := by
  by_contra hc
  have hlt : (p * n + 1) * unit ≤ m * q * unit := Nat.mul_le_mul_right _ (not_le.mp hc)
  have hmq : m * q * unit ≤ 2 ^ 50 * unit :=
    Nat.mul_le_mul_right _ ((Nat.mul_le_mul hm.le hq.le).trans (by norm_num))
  have h1 := Nat.mul_le_mul_right q h.ge
  have h2 := Nat.mul_le_mul_right n h'.le
  have h3 := Nat.mul_le_mul_right q h.le
  have hu := unit_pos
  have e1 : m * (2 ^ 54 * unit) * q = 2 ^ 54 * (m * q * unit) := by ring
  have e2 : p * (2 ^ 54 * unit) * n = 2 ^ 54 * (p * n * unit) := by ring
  have e3 : ∀ c, c * x * n * q = c * (x * n * q) := fun c => by ring
  have e4 : (2 ^ 54 - 5) * x * q * n = (2 ^ 54 - 5) * (x * n * q) := by ring
  rw [e1, e3] at h1
  rw [e2, e4] at h2
  rw [e1, e3] at h3
  rw [Nat.succ_mul] at hlt
  generalize m * q * unit = mq at *
  generalize p * n * unit = pn at *
  generalize x * n * q = xnq at *
  generalize unit = u at *
  omega

theorem mul_eq_mul (h : IsNearRatio x m n) (h' : IsNearRatio x p q) (hm : m < 2 ^ 25) (hn : n < 2 ^ 25)
    (hp : p < 2 ^ 25) (hq : q < 2 ^ 25) : m * q = p * n :=
  le_antisymm (h.mul_le_mul h' hm hq) (h'.mul_le_mul h hp hn)

end IsNearRatio

/-- Near the ratio of the two powers no fraction has short terms, apart from the ratio itself and from
what leads to close decimals. -/
def IsSeparate (i j : Nat) : Prop :=
  let x := 10 ^ i * 2 ^ j
  let t := leastTerms 40 ((2 ^ 54 - 5) * x) (2 ^ 54 * unit) ((2 ^ 54 + 5) * x) (2 ^ 54 * unit)
  2 ^ 25 ≤ t.1 ∨ 2 ^ 25 ≤ t.2 ∨ 0 < t.2 ∧ IsNearRatio x t.1 t.2 ∧
    (t.1 * unit = t.2 * x ∨
      ⟨t.2, i - 52⟩ ∈ closeDecimals ∧ Nat.Coprime t.1 t.2 ∧ (2 ^ 25 ≤ 2 * t.1 ∨ 2 ^ 25 ≤ 2 * t.2))

instance (i j : Nat) : Decidable (IsSeparate i j) := inferInstanceAs (Decidable (_ ∨ _))

/-- The exponents are those that decimals of singles and the ends of their basins have once both are
brought to full length. Other powers of two than these six are too far from the power of ten for that. -/
theorem isSeparate_window : ∀ i < 91, ∀ s < 6,
    97 ≤ Nat.log2 (unit / 10 ^ i) + s - 1 → IsSeparate i (Nat.log2 (unit / 10 ^ i) + s - 1) := by
  decide +kernel

section Window

variable {x i j m n : Nat}

theorem le_of_isNearRatio (h : IsNearRatio x m n) (hn : 0 < n) (hmn : m ≤ 10 * n) : x ≤ 11 * unit := by
  have hle := h.le.trans (Nat.mul_le_mul_right _ hmn)
  have hx : (2 ^ 54 - 5) * x ≤ 10 * (2 ^ 54 * unit) := by
    refine Nat.le_of_mul_le_mul_right (hle.trans_eq ?_) hn
    ring
  omega

theorem ge_of_isNearRatio (h : IsNearRatio x m n) (hm : 0 < m) (hnm : n ≤ 2 * m) : unit ≤ 3 * x := by
  have hge := h.ge.trans (Nat.mul_le_mul_left _ hnm)
  have hx : 2 ^ 54 * unit ≤ 2 * ((2 ^ 54 + 5) * x) := by
    refine Nat.le_of_mul_le_mul_left (hge.trans_eq ?_) hm
    ring
  omega

theorem window_of_isNearRatio (hi : i < 91) (hm : m < 2 ^ 25) (hm' : 2 ^ 25 ≤ 2 * m) (hn : n < 2 ^ 25)
    (hn' : 2 ^ 25 ≤ 10 * n) (h : IsNearRatio (10 ^ i * 2 ^ j) m n) :
    ∃ s < 6, j = Nat.log2 (unit / 10 ^ i) + s - 1 := by
  have hx := le_of_isNearRatio h (by omega) (by omega)
  have hx' := ge_of_isNearRatio h (by omega) (by omega)
  have ht : 0 < 10 ^ i := Nat.pow_pos (by decide)
  have hle : 10 ^ i ≤ unit := (Nat.pow_le_pow_right (by decide) (by omega : i ≤ 90)).trans (by decide)
  have hw : unit / 10 ^ i ≠ 0 := (Nat.div_pos hle ht).ne'
  have hupper : unit < 10 ^ i * (unit / 10 ^ i + 1) := Nat.lt_mul_div_succ unit ht
  have hlower : 10 ^ i * (unit / 10 ^ i) ≤ unit := Nat.mul_div_le unit (10 ^ i)
  generalize unit / 10 ^ i = w at *
  have hj : 2 ^ j < 2 ^ (w.log2 + 5) := by
    have h11 : 2 ^ j < 11 * (w + 1) := Nat.lt_of_mul_lt_mul_left (a := 10 ^ i) (by linarith)
    have hu : w < 2 ^ (w.log2 + 1) := Nat.lt_log2_self
    rw [Nat.pow_add] at hu ⊢
    omega
  have hj' : 2 ^ w.log2 < 2 ^ (j + 2) := by
    have h3 : w ≤ 3 * 2 ^ j := Nat.le_of_mul_le_mul_left (by linarith) ht
    have hl : 2 ^ w.log2 ≤ w := Nat.log2_self_le hw
    have hp : 0 < 2 ^ j := Nat.two_pow_pos j
    rw [Nat.pow_add]
    omega
  have h5 := (Nat.pow_lt_pow_iff_right (by decide)).mp hj
  have h2 := (Nat.pow_lt_pow_iff_right (by decide)).mp hj'
  exact ⟨j + 1 - w.log2, by omega, by omega⟩

/-- A fraction of terms of full length that is near a ratio is this ratio, unless it leads to a close
decimal. -/
theorem eq_or_mem_close (hi : i < 91) (hj : 97 ≤ j) (hm : m < 2 ^ 25) (hm' : 2 ^ 25 ≤ 2 * m)
    (hn : n < 2 ^ 25) (hn' : 2 ^ 25 ≤ 10 * n) (h : IsNearRatio (10 ^ i * 2 ^ j) m n) :
    m * unit = n * (10 ^ i * 2 ^ j) ∨ ⟨n, i - 52⟩ ∈ closeDecimals := by
  obtain ⟨s, hs, rfl⟩ := window_of_isNearRatio hi hm hm' hn hn' h
  obtain ⟨hlm, hln⟩ := leastTerms_le 40 (by decide) (by omega) h.le h.ge
  obtain hc | hc | ⟨h0, ht, hc⟩ := isSeparate_window i hi s hs hj
  · exact absurd (hc.trans hlm) (not_le.mpr hm)
  · exact absurd (hc.trans hln) (not_le.mpr hn)
  · have hmul := h.mul_eq_mul ht hm hn (hlm.trans_lt hm) (hln.trans_lt hn)
    generalize leastTerms _ _ _ _ _ = t at *
    obtain hc | ⟨hc, hcop, hlong⟩ := hc
    · left
      refine Nat.eq_of_mul_eq_mul_right h0 ?_
      calc m * unit * t.2 = n * (t.1 * unit) := by rw [Nat.mul_right_comm, hmul]; ring
        _ = _ := by rw [hc]; ring
    · right
      -- A proper multiple of the terms would be too long.
      obtain ⟨k, rfl⟩ : t.2 ∣ n := hcop.symm.dvd_of_dvd_mul_left ⟨m, by rw [← hmul, Nat.mul_comm]⟩
      have hmk : m = t.1 * k := Nat.eq_of_mul_eq_mul_right h0 (hmul.trans (by ring))
      subst hmk
      obtain rfl : k = 1 := by
        by_contra hk
        have hk0 : k ≠ 0 := by
          rintro rfl
          omega
        have h1 := Nat.mul_le_mul_left t.1 (show 2 ≤ k by omega)
        have h2 := Nat.mul_le_mul_left t.2 (show 2 ≤ k by omega)
        omega
      rwa [Nat.mul_one]

end Window

theorem exists_mul_pow_lt {b N n : Nat} (hb : 1 < b) (hn : 0 < n) (hN : n < N) :
    ∃ k, n * b ^ k < N ∧ N ≤ b * (n * b ^ k) := by
  have hq : (N - 1) / n ≠ 0 := (Nat.div_pos (by omega) hn).ne'
  refine ⟨Nat.log b ((N - 1) / n), ?_, ?_⟩
  · have hle := (Nat.le_div_iff_mul_le hn).mp (Nat.pow_log_le_self b hq)
    rw [Nat.mul_comm]
    omega
  · have hlt := (Nat.div_lt_iff_lt_mul hn).mp (Nat.lt_pow_succ_log_self hb ((N - 1) / n))
    rw [Nat.pow_succ] at hlt
    have he : b * (n * b ^ Nat.log b ((N - 1) / n)) = b ^ Nat.log b ((N - 1) / n) * b * n := by ring
    omega

theorem IsNear.isNearRatio {v e s : Rat} {x m n : Nat} (h : IsNear v e) (hs : 0 < s) (hv : v * s = n * x)
    (he : e * s = m * unit) : IsNearRatio x m n := by
  obtain ⟨hl, hu⟩ := abs_le.mp h
  have hl' := mul_le_mul_of_nonneg_right hl hs.le
  have hu' := mul_le_mul_of_nonneg_right hu hs.le
  have hle : 2 ^ 54 * (n * x) ≤ 2 ^ 54 * (m * unit) + 5 * (n * x) := by
    have hr : (2 : Rat) ^ 54 * (n * x) ≤ 2 ^ 54 * (m * unit) + 5 * (n * x) := by
      rw [← hv, ← he]
      linarith
    exact_mod_cast hr
  have hge : 2 ^ 54 * (m * unit) ≤ 2 ^ 54 * (n * x) + 5 * (n * x) := by
    have hr : (2 : Rat) ^ 54 * (m * unit) ≤ 2 ^ 54 * (n * x) + 5 * (n * x) := by
      rw [← hv, ← he]
      linarith
    exact_mod_cast hr
  have e1 : ∀ c, c * x * n = c * (n * x) := fun c => by ring
  have e2 : m * (2 ^ 54 * unit) = 2 ^ 54 * (m * unit) := by ring
  constructor
  · rw [e1, e2]
    omega
  · rw [e1, e2]
    omega

theorem zpow_mul_pow {b : Rat} (hb : b ≠ 0) {e : Int} {n k : Nat} (h : e + n = k) :
    b ^ e * b ^ n = b ^ k := by
  rw [← zpow_natCast, ← zpow_natCast, ← zpow_add₀ hb, h]

theorem Decimal.value_pos (d : Decimal) (h : d.digits ≠ 0) : 0 < d.value := by
  have hd : (0 : Rat) < d.digits := by exact_mod_cast Nat.pos_of_ne_zero h
  unfold value
  positivity

theorem not_dvd_of_mem_close {d : Decimal} (h : d ∈ closeDecimals) : ¬ 10 ∣ d.digits := by
  revert d
  decide

/-- What is near a decimal of few digits is the decimal itself, or no short multiple of a power of two,
unless the decimal is one of the close ones. -/
theorem eq_or_mem_close_of_isNear {d : Decimal} (h0 : d.digits ≠ 0) (hd : d.digits < 2 ^ 25)
    (hq : -45 ≤ d.exponent) (hq' : d.exponent ≤ 38) {m : Nat} {g : Int} (hm : m < 2 ^ 25) (hg : g ≤ 103)
    (h : IsNear d.value (m * 2 ^ g)) : d.value = m * 2 ^ g ∨ d ∈ closeDecimals := by
  have hm0 : m ≠ 0 := by
    rintro rfl
    rw [Nat.cast_zero, zero_mul] at h
    exact not_isNear_zero (d.value_pos h0) h
  -- Trailing zeros on both sides make the terms as long as they may be.
  obtain ⟨k, hk, hk'⟩ := exists_mul_pow_lt (b := 10) (by decide) (Nat.pos_of_ne_zero h0) hd
  obtain ⟨l, hlm, hlm'⟩ := exists_mul_pow_lt (b := 2) (by decide) (Nat.pos_of_ne_zero hm0) hm
  have hk8 : k < 8 := by
    by_contra hc
    have hp : 10 ^ 8 ≤ 10 ^ k := Nat.pow_le_pow_right (by decide) (not_lt.mp hc)
    have hle := Nat.le_mul_of_pos_left (10 ^ k) (Nat.pos_of_ne_zero h0)
    omega
  obtain ⟨i, hi⟩ := Int.eq_ofNat_of_zero_le (show 0 ≤ d.exponent - k + 52 by omega)
  obtain ⟨j, hj⟩ := Int.eq_ofNat_of_zero_le (show 0 ≤ 200 - g by omega)
  have hq : (10 : Rat) ^ d.exponent * 10 ^ 52 = 10 ^ (k + i) := zpow_mul_pow (by norm_num) (by omega)
  have hr : (2 : Rat) ^ g * 2 ^ j = 2 ^ 200 := zpow_mul_pow (by norm_num) (by omega)
  have hv : d.value * (10 ^ 52 * 2 ^ (j + l)) = (d.digits * 10 ^ k : Nat) * (10 ^ i * 2 ^ (j + l) : Nat) := by
    rw [Decimal.value]
    push_cast
    rw [pow_add] at hq
    linear_combination d.digits * 2 ^ (j + l) * hq
  have he : m * (2 : Rat) ^ g * (10 ^ 52 * 2 ^ (j + l)) = (m * 2 ^ l : Nat) * unit := by
    rw [unit, pow_add]
    push_cast
    linear_combination m * 10 ^ 52 * 2 ^ l * hr
  obtain heq | hc := eq_or_mem_close (by omega) (by omega) hlm hlm' hk hk'
    (h.isNearRatio (by positivity) hv he)
  · left
    have heq' : ((m * 2 ^ l : Nat) : Rat) * unit = (d.digits * 10 ^ k : Nat) * (10 ^ i * 2 ^ (j + l) : Nat) := by
      exact_mod_cast heq
    rw [← hv, ← he] at heq'
    exact (mul_right_cancel₀ (by positivity) heq').symm
  · right
    have hk0 : k = 0 := by
      by_contra hne
      exact not_dvd_of_mem_close hc ((dvd_pow_self 10 hne).mul_left _)
    subst hk0
    have hi' : (i : Int) - 52 = d.exponent := by omega
    rwa [pow_zero, Nat.mul_one, hi'] at hc

end ReceiptPrinter.Number
