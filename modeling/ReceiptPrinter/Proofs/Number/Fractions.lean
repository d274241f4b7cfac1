import Mathlib.Algebra.Order.Ring.Nat
import Mathlib.Tactic.Linarith

namespace ReceiptPrinter.Number

/-- The least numerator and the least denominator of the fractions from `a / b` up to `c / d`, found
along the continued fraction that the two ends have in common. Where the steps run out the terms come
out too low. -/
def leastTerms : Nat → Nat → Nat → Nat → Nat → Nat × Nat
  | 0, _, _, _, _ => (0, 0)
  | k + 1, a, b, c, d =>
    let q := a / b
    if a % b = 0 then (q, 1)
    else if (q + 1) * d ≤ c then (q + 1, 1)
    else
      let t := leastTerms k d (c - q * d) b (a % b)
      (q * t.1 + t.2, t.1)

theorem leastTerms_le (k : Nat) {a b c d m n : Nat} (hb : 0 < b) (hn : 0 < n) (hl : a * n ≤ m * b)
    (hu : m * d ≤ c * n) : (leastTerms k a b c d).1 ≤ m ∧ (leastTerms k a b c d).2 ≤ n := by
  induction k generalizing a b c d m n with
  | zero => exact ⟨Nat.zero_le m, Nat.zero_le n⟩
  | succ k ih =>
    have ha : b * (a / b) + a % b = a := Nat.div_add_mod a b
    rw [leastTerms]
    generalize a / b = q at ha
    generalize a % b = r at ha
    subst ha
    dsimp only
    have hq : b * (q * n) + r * n ≤ b * m := by linarith
    split
    · next hr =>
      have hle : q * n ≤ m := Nat.le_of_mul_le_mul_left (by omega) hb
      exact ⟨(Nat.le_mul_of_pos_right q hn).trans hle, hn⟩
    · next hr =>
      have hrn : 0 < r * n := Nat.mul_pos (Nat.pos_of_ne_zero hr) hn
      have hlt : q * n < m := Nat.lt_of_mul_lt_mul_left (a := b) (by omega)
      split
      · exact ⟨(Nat.le_mul_of_pos_right q hn).trans_lt hlt, hn⟩
      · next hc =>
        -- Without its whole part the fraction is turned over, and the ends change places.
        obtain ⟨m, rfl⟩ := Nat.exists_eq_add_of_lt hlt
        have hd : 0 < d := Nat.pos_of_ne_zero fun h0 => hc (h0 ▸ Nat.zero_le c)
        have hcd : q * d < c := by
          have hqd : q * n * d < (q * n + m + 1) * d := Nat.mul_lt_mul_of_pos_right hlt hd
          refine Nat.lt_of_mul_lt_mul_right (a := n) (lt_of_lt_of_le ?_ hu)
          rwa [Nat.mul_right_comm]
        obtain ⟨c, rfl⟩ := Nat.exists_eq_add_of_lt hcd
        have hl' : d * (m + 1) ≤ n * (q * d + c + 1 - q * d) := by
          rw [Nat.add_assoc, Nat.add_sub_cancel_left]
          linarith
        have hu' : n * r ≤ b * (m + 1) := by linarith
        obtain ⟨h1, h2⟩ := ih (by omega) (Nat.succ_pos m) hl' hu'
        exact ⟨(Nat.add_le_add (Nat.mul_le_mul_left q h1) h2 :), h1⟩

end ReceiptPrinter.Number
