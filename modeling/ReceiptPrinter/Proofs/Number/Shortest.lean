import ReceiptPrinter.Number.Single
import ReceiptPrinter.Proofs.Number.Nearest

namespace ReceiptPrinter.Number.Single

open Binary

theorem Tie.choose_eq (tie : Tie) (n : Nat) : tie.choose n = n ∨ tie.choose n = n + 1 := by
  cases tie with
  | even =>
    change n + n % 2 = n ∨ n + n % 2 = n + 1
    omega
  | up => exact Or.inr rfl

section Grid

variable {i : Basin} {tie : Tie} {x : Rat} {e : Int}

theorem onGrid_cases (i : Basin) (tie : Tie) (x : Rat) (e : Int) :
    (onGrid i tie x e = none ∧ i.holds ((x / 10 ^ e).floor.toNat * 10 ^ e) = false ∧
        i.holds (((x / 10 ^ e).floor.toNat + 1) * 10 ^ e) = false) ∨
      ∃ n : Nat, onGrid i tie x e = some n ∧ i.holds (n * 10 ^ e) = true := by
  simp only [onGrid]
  generalize (x / 10 ^ e).floor.toNat = m
  have hs : ((m + 1 : Nat) : Rat) = m + 1 := by push_cast; rfl
  cases hb : i.holds (m * 10 ^ e) <;> cases ha : i.holds ((m + 1) * 10 ^ e)
  · exact Or.inl ⟨rfl, rfl, rfl⟩
  · exact Or.inr ⟨m + 1, rfl, by rw [hs, ha]⟩
  · exact Or.inr ⟨m, rfl, hb⟩
  · right
    dsimp only
    split
    · exact ⟨m, rfl, hb⟩
    · split
      · exact ⟨m + 1, rfl, by rw [hs, ha]⟩
      · obtain hc | hc := tie.choose_eq m
        · exact ⟨m, by rw [hc], hb⟩
        · exact ⟨m + 1, by rw [hc], by rw [hs, ha]⟩

theorem holds_onGrid {n : Nat} (h : onGrid i tie x e = some n) : i.holds (n * 10 ^ e) = true := by
  obtain ⟨hn, -, -⟩ | ⟨m, hm, hh⟩ := onGrid_cases i tie x e
  · rw [hn] at h
    cases h
  · rw [hm] at h
    obtain rfl := Option.some.inj h
    exact hh

theorem le_of_onGrid_eq_none (hl : i.low < x) (hh : x < i.high) (h0 : 0 ≤ x)
    (h : onGrid i tie x e = none) : i.high - i.low ≤ 10 ^ e := by
  have hp : (0 : Rat) < 10 ^ e := by positivity
  obtain ⟨hm, hm'⟩ := floor_toNat (div_nonneg h0 hp.le)
  rw [le_div_iff₀ hp] at hm
  rw [div_lt_iff₀ hp] at hm'
  have hout : ∀ y, i.holds y = false → ¬ (i.low < y ∧ y < i.high) := by
    rintro y hy ⟨hly, hyh⟩
    rw [i.holds_of_lt hly hyh] at hy
    cases hy
  obtain ⟨-, hb, ha⟩ | ⟨n, hn, -⟩ := onGrid_cases i tie x e
  · have hlow : (x / 10 ^ e).floor.toNat * 10 ^ e ≤ i.low := by
      by_contra hc
      exact hout _ hb ⟨not_le.mp hc, hm.trans_lt hh⟩
    have hhigh : i.high ≤ ((x / 10 ^ e).floor.toNat + 1) * 10 ^ e := by
      by_contra hc
      exact hout _ ha ⟨hl.trans hm', not_le.mp hc⟩
    linarith
  · rw [h] at hn
    cases hn

/-- The search ends at a multiple within the basin, on the coarsest grid that has one. -/
theorem search_spec {k : Nat} {f : Int} (hf : onGrid i tie x f ≠ none) (hk : e - k < f) (he : f ≤ e) :
    onGrid i tie x (search i tie x k e).exponent = some (search i tie x k e).digits ∧
      f ≤ (search i tie x k e).exponent ∧ (search i tie x k e).exponent ≤ e ∧
      ((search i tie x k e).exponent = e ∨
        onGrid i tie x ((search i tie x k e).exponent + 1) = none) := by
  induction k generalizing e with
  | zero => omega
  | succ k ih =>
    unfold search
    cases hg : onGrid i tie x e with
    | some n => exact ⟨hg, he, le_rfl, Or.inl rfl⟩
    | none =>
      have hne : f ≠ e := fun h => hf (h ▸ hg)
      dsimp only
      obtain ⟨ho, hfe, hle, hc⟩ := ih (e := e - 1) (by omega) (by omega)
      refine ⟨ho, hfe, by omega, Or.inr ?_⟩
      obtain hc | hc := hc
      · rw [hc, sub_add_cancel]
        exact hg
      · exact hc

end Grid

theorem band_single : single.band = 2 ^ 23 := rfl

theorem lowest_single : single.lowest = -149 := rfl

theorem level_single_le {c : Nat} (hc : c < single.infinity) : single.level c ≤ 253 := by
  have hd : c / single.band < 255 := Nat.div_lt_of_lt_mul hc
  unfold level
  omega

theorem ten_pow_lt_width {c : Nat} (hc : c ≠ 0) :
    (10 : Rat) ^ (-45 : Int) < (single.basin c).high - (single.basin c).low := by
  refine lt_of_lt_of_le ?_ (single.two_zpow_lowest_le_width hc)
  norm_num [single]

variable {x : Single} (tie : Tie)

theorem shortest_eq_search (h0 : x.code ≠ 0) :
    x.shortest tie = search (single.basin x.code) tie x.magnitude 84 38 := if_neg h0

theorem onGrid_lowest (h0 : x.code ≠ 0) :
    onGrid (single.basin x.code) tie x.magnitude (-45) ≠ none := fun h =>
  absurd (le_of_onGrid_eq_none (single.low_basin_lt_value h0) (single.value_lt_high_basin x.code)
    (single.value_nonneg x.code) h) (not_le.mpr (ten_pow_lt_width h0))

theorem onGrid_shortest (h0 : x.code ≠ 0) :
    onGrid (single.basin x.code) tie x.magnitude (x.shortest tie).exponent =
      some (x.shortest tie).digits := by
  rw [shortest_eq_search tie h0]
  exact (search_spec (k := 84) (e := 38) (onGrid_lowest tie h0) (by omega) (by omega)).1

theorem holds_shortest (h0 : x.code ≠ 0) :
    (single.basin x.code).holds (x.shortest tie).value = true :=
  holds_onGrid (onGrid_shortest tie h0)

theorem width_le_of_shortest (h0 : x.code ≠ 0) :
    (x.shortest tie).exponent = 38 ∨ (single.basin x.code).high - (single.basin x.code).low ≤
      10 ^ ((x.shortest tie).exponent + 1) := by
  rw [shortest_eq_search tie h0]
  have hs := search_spec (k := 84) (e := 38) (onGrid_lowest tie h0) (by omega) (by omega)
  exact hs.2.2.2.imp id fun h => le_of_onGrid_eq_none (single.low_basin_lt_value h0)
    (single.value_lt_high_basin x.code) (single.value_nonneg x.code) h

theorem value_shortest_lt (h0 : x.code ≠ 0) :
    (x.shortest tie).value < 2 ^ (24 : Int) * single.gap x.code := by
  obtain ⟨-, hh, -⟩ := (Basin.holds_iff _ _).mp (holds_shortest tie h0)
  have hs := single.value_strictMono (Nat.lt_succ_self x.code)
  have hg := single.value_succ_le_gap x.code
  have hb : (2 * single.band : Rat) = 2 ^ (24 : Int) := by norm_num [band_single]
  rw [hb] at hg
  have hhigh : (single.basin x.code).high = (single.value x.code + single.value (x.code + 1)) / 2 := rfl
  linarith

theorem exponent_shortest_mem (h0 : x.code ≠ 0) :
    -45 ≤ (x.shortest tie).exponent ∧ (x.shortest tie).exponent ≤ 38 := by
  rw [shortest_eq_search tie h0]
  have hs := search_spec (k := 84) (e := 38) (onGrid_lowest tie h0) (by omega) (by omega)
  exact ⟨hs.2.1, hs.2.2.1⟩

theorem isFinite_iff : x.isFinite = true ↔ x.code < single.infinity := decide_eq_true_iff

theorem shortest_of_zero (h0 : x.code = 0) : x.shortest tie = ⟨0, 0⟩ := if_pos h0

theorem nearest_value_shortest (hf : x.isFinite = true) :
    single.nearest (x.shortest tie).value = x.code := by
  by_cases h0 : x.code = 0
  · rw [shortest_of_zero tie h0, h0, Decimal.value, Nat.cast_zero, zero_mul, Binary.nearest,
      if_pos le_rfl]
  · have hh := holds_shortest tie h0
    obtain ⟨hl, -, -⟩ := (Basin.holds_iff _ _).mp hh
    have hp := (single.low_basin_pos h0).trans_le hl
    exact single.nearest_of_holds rfl (isFinite_iff.mp hf) hp hh

theorem nearest_eq_of_code {y : Rat} (h : single.nearest y = x.code) : nearest x.negative y = x := by
  unfold nearest
  congr 1

theorem digits_shortest_pos (h0 : x.code ≠ 0) : 0 < (x.shortest tie).digits := by
  obtain ⟨hl, -, -⟩ := (Basin.holds_iff _ _).mp (holds_shortest tie h0)
  have hp := (single.low_basin_pos h0).trans_le hl
  apply Nat.pos_of_ne_zero
  intro hz
  rw [Decimal.value, hz, Nat.cast_zero, zero_mul] at hp
  exact lt_irrefl 0 hp

theorem digits_shortest_lt (hf : x.isFinite = true) (h0 : x.code ≠ 0) :
    (x.shortest tie).digits < 2 ^ 28 := by
  have hv := value_shortest_lt tie h0
  have hg : single.gap x.code ≤ 2 ^ (104 : Int) := by
    have hl := level_single_le (isFinite_iff.mp hf)
    have hs := lowest_single
    exact zpow_le_zpow_right₀ (by norm_num) (by omega)
  have hw := single.gap_le_width h0
  have hp : (0 : Rat) < 10 ^ (x.shortest tie).exponent := by positivity
  rw [Decimal.value] at hv
  suffices hd : ((x.shortest tie).digits : Rat) < 2 ^ 28 by exact_mod_cast hd
  refine lt_of_mul_lt_mul_right ?_ hp.le
  obtain he | he := width_le_of_shortest tie h0
  · have ht : (2 : Rat) ^ (24 : Int) * 2 ^ (104 : Int) < 2 ^ 28 * 10 ^ (38 : Int) := by norm_num
    rw [he] at hv ⊢
    linarith
  · rw [zpow_add_one₀ (by norm_num)] at he
    linarith

end ReceiptPrinter.Number.Single
