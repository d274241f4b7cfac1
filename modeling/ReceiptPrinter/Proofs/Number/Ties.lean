import ReceiptPrinter.Proofs.Number.Shortest

namespace ReceiptPrinter.Number

open Binary

theorem Binary.gap_mono (b : Binary) : Monotone b.gap := by
  intro c d h
  apply zpow_le_zpow_right₀ (by norm_num)
  have hl : b.level c ≤ b.level d := Nat.sub_le_sub_right (Nat.div_le_div_right h) 1
  omega

theorem two_mul_two_pow_ne (r n k j : Nat) : 2 * (r * 2 ^ (k + j)) ≠ (2 * n + 1) * 10 ^ k := by
  intro h
  have ht : (10 : Nat) ^ k = 2 ^ k * 5 ^ k := by rw [← Nat.mul_pow]
  -- Divided by the power of two, the left side is even and the right side is odd.
  have hc : 2 ^ k * (2 * (r * 2 ^ j)) = 2 ^ k * ((2 * n + 1) * 5 ^ k) := by
    rw [ht, pow_add] at h
    linarith
  have hodd : Odd ((2 * n + 1) * 5 ^ k) := (odd_two_mul_add_one n).mul (Odd.pow (by decide))
  rw [← Nat.eq_of_mul_eq_mul_left (Nat.two_pow_pos k) hc] at hodd
  exact Nat.not_even_iff_odd.mpr hodd (even_two_mul _)

/-- A number lies halfway between two neighbours on a grid, the even one below it, and either neighbour
lies in the basin. -/
structure IsTie (i : Basin) (x : Rat) (n : Nat) (e : Int) : Prop where
  even : n % 2 = 0
  halfway : 2 * x = (2 * n + 1 : Nat) * 10 ^ e
  below : i.holds (n * 10 ^ e) = true
  above : i.holds ((n + 1 : Nat) * 10 ^ e) = true

namespace Single

section Grid

variable {i : Basin} {x : Rat} {e : Int}

theorem onGrid_up_cases (i : Basin) (x : Rat) (e : Int) :
    onGrid i .up x e = onGrid i .even x e ∨
      ∃ n, IsTie i x n e ∧ onGrid i .even x e = some n ∧ onGrid i .up x e = some (n + 1) := by
  simp only [onGrid]
  generalize (x / 10 ^ e).floor.toNat = m
  cases hb : i.holds (m * 10 ^ e) <;> cases ha : i.holds ((m + 1) * 10 ^ e)
  · exact Or.inl rfl
  · exact Or.inl rfl
  · exact Or.inl rfl
  · dsimp only
    split_ifs with hl hr
    · exact Or.inl rfl
    · exact Or.inl rfl
    · obtain hm | hm := Nat.mod_two_eq_zero_or_one m
      · right
        refine ⟨m, ⟨hm, ?_, hb, ?_⟩, ?_, rfl⟩
        · push_cast
          linarith
        · push_cast
          exact ha
        · rw [Tie.choose, hm, Nat.add_zero]
      · left
        rw [Tie.choose, Tie.choose, hm]

theorem search_up_cases (i : Basin) (x : Rat) (k : Nat) (e : Int) :
    search i .up x k e = search i .even x k e ∨
      ∃ n f, IsTie i x n f ∧ search i .even x k e = ⟨n, f⟩ ∧ search i .up x k e = ⟨n + 1, f⟩ := by
  induction k generalizing e with
  | zero => exact Or.inl rfl
  | succ k ih =>
    rw [search, search]
    obtain h | ⟨n, ht, he, hu⟩ := onGrid_up_cases i x e
    · rw [h]
      cases onGrid i .even x e with
      | none => exact ih (e - 1)
      | some n => exact Or.inl rfl
    · rw [he, hu]
      exact Or.inr ⟨n, e, ht, rfl, rfl⟩

end Grid

variable (x : Single)

theorem shortest_up_cases : x.shortest .up = x.shortest .even ∨
    ∃ n e, IsTie (single.basin x.code) x.magnitude n e ∧
      x.shortest .even = ⟨n, e⟩ ∧ x.shortest .up = ⟨n + 1, e⟩ := by
  by_cases h0 : x.code = 0
  · left
    rw [shortest_of_zero _ h0, shortest_of_zero _ h0]
  · rw [shortest_eq_search _ h0, shortest_eq_search _ h0]
    exact search_up_cases _ _ _ _

end Single

namespace IsTie

variable {x : Single} {n : Nat} {e : Int} (h : IsTie (single.basin x.code) x.magnitude n e)
include h

theorem code_ne_zero : x.code ≠ 0 := by
  intro h0
  have hh := h.halfway
  have hp : (0 : Rat) < (2 * n + 1 : Nat) * 10 ^ e := by positivity
  rw [Single.magnitude, h0, single.value_zero, mul_zero] at hh
  exact hp.ne hh

theorem le_gap : (10 : Rat) ^ e ≤ single.gap x.code := by
  obtain ⟨hl, -, -⟩ := (Basin.holds_iff _ _).mp h.below
  obtain ⟨-, hh, -⟩ := (Basin.holds_iff _ _).mp h.above
  have hw := single.width_basin h.code_ne_zero
  have hg := single.gap_mono (Nat.sub_le x.code 1)
  push_cast at hh
  linarith

/-- On a grid of whole numbers a tie would be an odd multiple of a power of two that divides all
values around it. -/
theorem exponent_neg : e < 0 := by
  by_contra hn
  obtain ⟨k, rfl⟩ := Int.eq_ofNat_of_zero_le (not_lt.mp hn)
  obtain ⟨r, hc, -, hp⟩ := single.exists_placed x.code
  have hv : x.magnitude = r * single.gap x.code := by
    have hv := hp.value_eq
    rwa [← hc] at hv
  have hg := h.le_gap
  have hh := h.halfway
  rw [hv] at hh
  rw [Binary.gap] at hg hh
  generalize single.lowest + single.level x.code = g at hg hh
  have hk : (k : Int) ≤ g := by
    have ht : (2 : Rat) ^ (k : Int) ≤ 10 ^ (k : Int) := by
      rw [zpow_natCast, zpow_natCast]
      exact pow_le_pow_left₀ (by norm_num) (by norm_num) k
    exact (zpow_le_zpow_iff_right₀ (by norm_num)).mp (ht.trans hg)
  obtain ⟨j, rfl⟩ := Int.le.dest hk
  have he : 2 * (r * 2 ^ (k + j)) = (2 * n + 1) * 10 ^ k := by
    rw [← Nat.cast_add, zpow_natCast, zpow_natCast] at hh
    exact_mod_cast hh
  exact two_mul_two_pow_ne r n k j he

/-- A tie has a figure behind the tenths, so it is no number of halves. -/
theorem two_mul_ne (z : Nat) : 2 * x.magnitude ≠ z := by
  intro hz
  obtain ⟨k, hk⟩ := Int.le.dest h.exponent_neg
  have hh := h.halfway
  have he : e = -((k + 1 : Nat) : Int) := by omega
  have hp : (10 : Rat) ^ (k + 1) ≠ 0 := by positivity
  rw [hz, he, zpow_neg, zpow_natCast, eq_mul_inv_iff_mul_eq₀ hp] at hh
  have hn : z * 10 ^ (k + 1) = 2 * n + 1 := by exact_mod_cast hh
  rw [pow_succ, ← mul_assoc] at hn
  generalize z * 10 ^ k = m at hn
  omega

end IsTie

end ReceiptPrinter.Number
