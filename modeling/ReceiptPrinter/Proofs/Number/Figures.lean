import Mathlib.Algebra.Order.Field.Rat
import Mathlib.Tactic.Linarith
import Mathlib.Tactic.NormNum
import Mathlib.Tactic.Positivity
import ReceiptPrinter.Number.Decimal

namespace ReceiptPrinter

namespace Text

theorem numeral_ne_nil (n : Nat) : numeral n ≠ [] := Nat.toDigits_ne_nil

theorem isDigit_of_mem_numeral {n : Nat} {c : Char} (h : c ∈ numeral n) : c.isDigit = true :=
  Nat.isDigit_of_mem_toDigits (by decide) (by decide) h

theorem ofDigitChars_numeral (n : Nat) : Nat.ofDigitChars 10 (numeral n) 0 = n :=
  Nat.ofDigitChars_ten_toDigits

theorem head?_numeral_ne {n : Nat} (hn : n ≠ 0) : (numeral n).head? ≠ some '0' := by
  induction n using Nat.strong_induction_on with
  | _ n ih =>
    unfold numeral at *
    rw [Nat.toDigits_eq_if (by decide)]
    split
    · next hlt =>
      have hd : ∀ m < 10, m ≠ 0 → m.digitChar ≠ '0' := by decide
      rw [List.head?_cons]
      exact fun h => hd n hlt hn (Option.some.inj h)
    · next hge =>
      rw [List.head?_append_of_ne_nil _ Nat.toDigits_ne_nil]
      exact ih (n / 10) (Nat.div_lt_self (by omega) (by decide)) (by omega)

end Text

namespace Number.Decimal

variable (d : Decimal)

theorem length_figures_pos : 0 < d.figures.length := List.length_pos_iff.mpr (Text.numeral_ne_nil _)

theorem digits_lt : d.digits < 10 ^ d.figures.length :=
  (Nat.length_toDigits_le_iff (by decide) d.length_figures_pos).mp le_rfl

theorem point_eq : d.point = d.figures.length + d.exponent := rfl

theorem parts_of_nonneg (he : 0 ≤ d.exponent) :
    d.wholePart = d.figures ++ zeros d.exponent.toNat ∧ d.fractionPart = [] := by
  have hf := d.length_figures_pos
  have hpt := d.point_eq
  have hp : ¬ d.point ≤ 0 := by omega
  rw [wholePart, fractionPart, if_neg hp, if_neg hp]
  constructor
  · apply List.take_of_length_le
    rw [List.length_append, zeros, List.length_replicate]
    omega
  · apply List.drop_eq_nil_of_le
    omega

theorem parts_of_neg (hp : 0 < d.point) (he : d.exponent < 0) :
    d.wholePart = d.figures.take d.point.toNat ∧ d.fractionPart = d.figures.drop d.point.toNat := by
  have hz : zeros d.exponent.toNat = [] := by
    rw [Int.toNat_of_nonpos he.le]
    rfl
  rw [wholePart, fractionPart, if_neg (not_le.mpr hp), if_neg (not_le.mpr hp), hz, List.append_nil]
  exact ⟨rfl, rfl⟩

theorem parts_of_point (hp : d.point ≤ 0) :
    d.wholePart = ['0'] ∧ d.fractionPart = zeros (-d.point).toNat ++ d.figures := by
  rw [wholePart, fractionPart, if_pos hp, if_pos hp]
  exact ⟨rfl, rfl⟩

theorem length_fractionPart : d.fractionPart.length = (-d.exponent).toNat := by
  have hf := d.length_figures_pos
  have hpt := d.point_eq
  by_cases he : 0 ≤ d.exponent
  · rw [(d.parts_of_nonneg he).2, List.length_nil]
    omega
  · by_cases hp : d.point ≤ 0
    · rw [(d.parts_of_point hp).2, List.length_append, zeros, List.length_replicate]
      omega
    · rw [(d.parts_of_neg (by omega) (by omega)).2, List.length_drop]
      omega

theorem ofDigitChars_parts :
    Nat.ofDigitChars 10 (d.wholePart ++ d.fractionPart) 0 = d.digits * 10 ^ d.exponent.toNat := by
  have hv : Nat.ofDigitChars 10 d.figures 0 = d.digits := Text.ofDigitChars_numeral _
  by_cases he : 0 ≤ d.exponent
  · obtain ⟨hw, hf⟩ := d.parts_of_nonneg he
    rw [hw, hf, List.append_nil, Nat.ofDigitChars_append, hv, zeros, Nat.ofDigitChars_replicate_zero,
      Nat.mul_comm]
  · rw [Int.toNat_of_nonpos (by omega), pow_zero, mul_one]
    by_cases hp : d.point ≤ 0
    · obtain ⟨hw, hf⟩ := d.parts_of_point hp
      have hz : Nat.ofDigitChars 10 ['0'] 0 = 0 := by decide
      rw [hw, hf, Nat.ofDigitChars_append, Nat.ofDigitChars_append, hz, zeros,
        Nat.ofDigitChars_replicate_zero, Nat.mul_zero, hv]
    · obtain ⟨hw, hf⟩ := d.parts_of_neg (by omega) (by omega)
      rw [hw, hf, List.take_append_drop, hv]

theorem isDigit_of_mem_zeros {n : Nat} {c : Char} (h : c ∈ zeros n) : c.isDigit = true := by
  rw [List.eq_of_mem_replicate h]
  decide

theorem isDigit_of_mem_figures {c : Char} (h : c ∈ d.figures) : c.isDigit = true :=
  Text.isDigit_of_mem_numeral h

theorem isDigit_of_mem_wholePart {c : Char} (h : c ∈ d.wholePart) : c.isDigit = true := by
  rw [wholePart] at h
  split at h
  · rw [List.mem_singleton.mp h]
    decide
  · obtain h | h := List.mem_append.mp (List.mem_of_mem_take h)
    · exact d.isDigit_of_mem_figures h
    · exact isDigit_of_mem_zeros h

theorem isDigit_of_mem_fractionPart {c : Char} (h : c ∈ d.fractionPart) : c.isDigit = true := by
  rw [fractionPart] at h
  split at h
  · obtain h | h := List.mem_append.mp h
    · exact isDigit_of_mem_zeros h
    · exact d.isDigit_of_mem_figures h
  · exact d.isDigit_of_mem_figures (List.mem_of_mem_drop h)

theorem head?_figures_ne (h : d.digits ≠ 0) : d.figures.head? ≠ some '0' := Text.head?_numeral_ne h

theorem wholePart_eq_or_head?_ne (h : d.digits ≠ 0) :
    d.wholePart = ['0'] ∨ d.wholePart.head? ≠ some '0' := by
  have hf := d.head?_figures_ne h
  have hne : d.figures ≠ [] := Text.numeral_ne_nil _
  by_cases hp : d.point ≤ 0
  · left
    exact (d.parts_of_point hp).1
  · right
    rw [wholePart, if_neg hp, List.head?_take, if_neg (by omega), List.head?_append_of_ne_nil _ hne]
    exact hf

theorem wholePart_ne_nil : d.wholePart ≠ [] := by
  have hne : d.figures ≠ [] := Text.numeral_ne_nil _
  by_cases hp : d.point ≤ 0
  · rw [(d.parts_of_point hp).1]
    exact List.cons_ne_nil _ _
  · rw [wholePart, if_neg hp]
    intro ht
    obtain ht | ht := List.take_eq_nil_iff.mp ht
    · omega
    · exact hne (List.append_eq_nil_iff.mp ht).1

end Number.Decimal

end ReceiptPrinter
