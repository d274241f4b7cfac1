import ReceiptPrinter.Proofs.Number.Separation
import ReceiptPrinter.Proofs.Number.Shortest

namespace ReceiptPrinter.Number

/-- A short multiple of a power of two. -/
def IsShort (x : Rat) : Prop := ∃ (m : Nat) (g : Int), m < 2 ^ 25 ∧ -150 ≤ g ∧ g ≤ 103 ∧ x = m * 2 ^ g

/-- Powers of two cannot make up for powers of five. -/
theorem five_pow_dvd {a b k : Nat} {e : Int} (h : (a : Rat) * 2 ^ e = b * 5 ^ k) : 5 ^ k ∣ a := by
  obtain ⟨n, rfl | rfl⟩ := e.eq_nat_or_neg
  · have hn : a * 2 ^ n = b * 5 ^ k := by
      rw [zpow_natCast] at h
      exact_mod_cast h
    have hcop : Nat.Coprime (5 ^ k) (2 ^ n) := Nat.Coprime.pow _ _ (by decide)
    exact hcop.dvd_of_dvd_mul_right ⟨b, by rw [hn, Nat.mul_comm]⟩
  · have hn : a = b * 5 ^ k * 2 ^ n := by
      rw [zpow_neg, zpow_natCast, mul_inv_eq_iff_eq_mul₀ (by positivity)] at h
      exact_mod_cast h
    exact ⟨b * 2 ^ n, by rw [hn]; ring⟩

theorem lt_of_five_pow_dvd {a k : Nat} (h0 : a ≠ 0) (ha : a < 2 ^ 25) (h : 5 ^ k ∣ a) : k < 11 := by
  by_contra hc
  have hk : 5 ^ 11 ≤ 5 ^ k := Nat.pow_le_pow_right (by decide) (not_lt.mp hc)
  have hle := Nat.le_of_dvd (Nat.pos_of_ne_zero h0) h
  omega

theorem abs_exponent_le_of_isShort {d : Decimal} (h0 : d.digits ≠ 0) (hd : d.digits < 2 ^ 25)
    (h : IsShort d.value) : |d.exponent| ≤ 22 := by
  obtain ⟨m, g, hm, -, -, hv⟩ := h
  have hten : ∀ q : Int, (10 : Rat) ^ q = 5 ^ q * 2 ^ q := fun q => by
    rw [← mul_zpow]
    norm_num
  rw [Decimal.value, hten] at hv
  obtain ⟨k, hk | hk⟩ := d.exponent.eq_nat_or_neg
  · rw [hk, zpow_natCast] at hv
    have hm0 : m ≠ 0 := by
      rintro rfl
      have hd0 : (d.digits : Rat) ≠ 0 := by exact_mod_cast h0
      rw [Nat.cast_zero, zero_mul] at hv
      exact absurd hv (by positivity)
    have hdvd : 5 ^ k ∣ m := by
      refine five_pow_dvd (b := d.digits) (e := g - k) ?_
      rw [zpow_sub₀ (by norm_num), ← mul_div_assoc, ← hv, ← mul_assoc, mul_div_cancel_right₀ _ (by positivity)]
    have hlt := lt_of_five_pow_dvd hm0 hm hdvd
    rw [hk, abs_of_nonneg (Int.natCast_nonneg k)]
    omega
  · rw [hk, zpow_neg, zpow_natCast] at hv
    have hdvd : 5 ^ k ∣ d.digits := by
      refine five_pow_dvd (b := m) (e := -k - g) ?_
      rw [zpow_sub₀ (by norm_num)]
      field_simp at hv ⊢
      linear_combination hv
    have hlt := lt_of_five_pow_dvd h0 hd hdvd
    rw [hk, abs_neg, abs_of_nonneg (Int.natCast_nonneg k)]
    omega

namespace Binary

variable (b : Binary)

theorem high_basin {c k r : Nat} (hc : c = k * b.band + r) (hr : r < 2 * b.band) (h : b.Placed k r) :
    (b.basin c).high = (2 * r + 1 : Nat) * 2 ^ (b.lowest + k - 1) := by
  have hz := two_zpow_add_one (b.lowest + k - 1)
  rw [sub_add_cancel] at hz
  dsimp only [basin]
  rw [hc, h.value_succ hr, h.value_eq, hz]
  push_cast
  ring

theorem high_basin_pred {c : Nat} (hc : c ≠ 0) : (b.basin (c - 1)).high = (b.basin c).low := by
  dsimp only [basin]
  rw [Nat.sub_add_cancel (Nat.pos_of_ne_zero hc)]

theorem isShort_high_basin {c : Nat} (hc : c < single.infinity) : IsShort (single.basin c).high := by
  obtain ⟨r, hr, hlt, hp⟩ := single.exists_placed c
  have hb := Single.band_single
  have hl := Single.lowest_single
  have hk := Single.level_single_le hc
  exact ⟨2 * r + 1, single.lowest + single.level c - 1, by omega, by omega, by omega,
    single.high_basin hr hlt hp⟩

end Binary

namespace Single

open Binary

theorem onGrid_near {i : Basin} {tie : Tie} {x : Rat} {e : Int} {n : Nat} (hl : i.low < x)
    (hh : x < i.high) (h0 : 0 ≤ x) (h : onGrid i tie x e = some n) :
    2 * |n * 10 ^ e - x| ≤ 10 ^ e ∨ (x < n * 10 ^ e ∧ n * 10 ^ e - 10 ^ e ≤ i.low) ∨
      (n * 10 ^ e ≤ x ∧ i.high ≤ n * 10 ^ e + 10 ^ e) := by
  have hp : (0 : Rat) < 10 ^ e := by positivity
  obtain ⟨hb, ha⟩ := floor_toNat (div_nonneg h0 hp.le)
  rw [le_div_iff₀ hp] at hb
  rw [div_lt_iff₀ hp, add_mul, one_mul] at ha
  simp only [onGrid, add_mul, one_mul] at h
  generalize (x / 10 ^ e).floor.toNat = k at h ha hb
  have hs : ((k + 1 : Nat) : Rat) * 10 ^ e = k * 10 ^ e + 10 ^ e := by
    push_cast
    ring
  split at h
  · cases h
  · next _ hout =>
    obtain rfl := Option.some.inj h
    refine Or.inr (Or.inr ⟨hb, not_lt.mp fun hc => ?_⟩)
    rw [i.holds_of_lt (hl.trans ha) hc] at hout
    cases hout
  · next hout _ =>
    obtain rfl := Option.some.inj h
    rw [hs, add_sub_cancel_right]
    refine Or.inr (Or.inl ⟨ha, not_lt.mp fun hc => ?_⟩)
    rw [i.holds_of_lt hc (hb.trans_lt hh)] at hout
    cases hout
  · left
    have hdown : k * 10 ^ e - x ≤ 0 := by linarith
    have hup : 0 ≤ ((k + 1 : Nat) : Rat) * 10 ^ e - x := by linarith
    split at h
    · obtain rfl := Option.some.inj h
      rw [abs_of_nonpos hdown]
      linarith
    · split at h
      · obtain rfl := Option.some.inj h
        rw [abs_of_nonneg hup]
        linarith
      · obtain rfl := Option.some.inj h
        obtain hc | hc := tie.choose_eq k
        · rw [hc, abs_of_nonpos hdown]
          linarith
        · rw [hc, abs_of_nonneg hup]
          linarith

variable {x : Single} (tie : Tie)

theorem value_le_low_gap {c : Nat} (hc : c ≠ 0) :
    single.value c ≤ 2 ^ 25 * (single.value c - (single.basin c).low) := by
  obtain ⟨c, rfl⟩ := Nat.exists_eq_add_one_of_ne_zero hc
  have hg := single.value_succ_le_gap c
  have hl : (single.basin (c + 1)).low = (single.value c + single.value (c + 1)) / 2 := rfl
  have hb : (single.band : Rat) = 2 ^ 23 := by norm_num [band_single]
  rw [hl, single.value_succ c] at *
  rw [hb] at hg
  linarith

theorem value_lt_high_gap (c : Nat) :
    single.value c < 2 ^ 25 * ((single.basin c).high - single.value c) := by
  have hg := single.value_succ_le_gap c
  have hp := single.gap_pos c
  have hh : (single.basin c).high = (single.value c + single.value (c + 1)) / 2 := rfl
  have hb : (single.band : Rat) = 2 ^ 23 := by norm_num [band_single]
  rw [hh, single.value_succ c] at *
  rw [hb] at hg
  linarith

/-- A shortest decimal of many digits is on so fine a grid that it stays clear of the ends. -/
theorem not_isNear_of_long (h0 : x.code ≠ 0) (hd : 2 ^ 25 ≤ (x.shortest tie).digits) :
    ¬ IsNear (x.shortest tie).value (single.basin x.code).low ∧
      ¬ IsNear (x.shortest tie).value (single.basin x.code).high := by
  have hl := single.low_basin_lt_value h0
  have hh := single.value_lt_high_basin x.code
  have hx := single.value_nonneg x.code
  have hon := onGrid_near (x := single.value x.code) hl hh hx (onGrid_shortest tie h0)
  have hgl := value_le_low_gap h0
  have hgh := value_lt_high_gap x.code
  have hs : (2 : Rat) ^ 25 * 10 ^ (x.shortest tie).exponent ≤
      (x.shortest tie).digits * 10 ^ (x.shortest tie).exponent := by
    have hd' : (2 : Rat) ^ 25 ≤ (x.shortest tie).digits := by exact_mod_cast hd
    gcongr
  have hp : (0 : Rat) < 10 ^ (x.shortest tie).exponent := by positivity
  rw [Decimal.value]
  generalize ((x.shortest tie).digits : Rat) * 10 ^ (x.shortest tie).exponent = v at *
  generalize (10 : Rat) ^ (x.shortest tie).exponent = s at *
  generalize single.value x.code = m at *
  have hon : 2 * |v - m| ≤ s := by
    obtain hon | ⟨h1, h2⟩ | ⟨h1, h2⟩ := hon
    · exact hon
    · linarith
    · linarith
  have ha := abs_le.mp (show |v - m| ≤ s / 2 by linarith)
  constructor
  · intro h
    have hn := (abs_le.mp h).1
    linarith
  · intro h
    have hn := (abs_le.mp h).2
    linarith

theorem exists_end_between {i : Basin} {v y : Rat} (hv : i.holds v = true) (hy : ¬ i.holds y = true) :
    ∃ e, (e = i.low ∨ e = i.high) ∧ (v ≤ e ∧ e ≤ y ∨ y ≤ e ∧ e ≤ v) := by
  obtain ⟨hl, hh, -⟩ := (i.holds_iff v).mp hv
  by_cases h : i.low < y ∧ y < i.high
  · exact absurd (i.holds_of_lt h.1 h.2) hy
  · rw [not_and_or, not_lt, not_lt] at h
    obtain h | h := h
    · exact ⟨i.low, Or.inl rfl, Or.inr ⟨h, hl⟩⟩
    · exact ⟨i.high, Or.inr rfl, Or.inl ⟨hh, h⟩⟩

/-- What is near the shortest decimal of a number rounds to the number, too. Where an end of the basin
might come between them, the decimal would be the end, and then it has to be met exactly. -/
theorem nearest_eq_of_isNear (hf : x.isFinite = true) (h0 : x.code ≠ 0) {y : Rat}
    (hc : x.shortest tie ∉ closeDecimals) (hy : IsNear (x.shortest tie).value y)
    (hs : (x.shortest tie).digits < 2 ^ 25 → IsShort (x.shortest tie).value → y = (x.shortest tie).value) :
    single.nearest y = x.code := by
  have hv := holds_shortest tie h0
  obtain ⟨hq, hq'⟩ := exponent_shortest_mem tie h0
  have hfin := isFinite_iff.mp hf
  suffices hh : (single.basin x.code).holds y = true by
    obtain ⟨hl, -, -⟩ := (Basin.holds_iff _ _).mp hh
    exact single.nearest_of_holds rfl hfin ((single.low_basin_pos h0).trans_le hl) hh
  by_contra hout
  obtain ⟨e, he, hb⟩ := exists_end_between hv hout
  have hne := hy.of_between hb
  have hse : IsShort e := by
    obtain rfl | rfl := he
    · rw [← single.high_basin_pred h0]
      exact isShort_high_basin ((Nat.sub_le _ _).trans_lt hfin)
    · exact isShort_high_basin hfin
  by_cases hd : (x.shortest tie).digits < 2 ^ 25
  · obtain ⟨m, g, hm, hg, hg', rfl⟩ := hse
    obtain heq | hmem := eq_or_mem_close_of_isNear (digits_shortest_pos tie h0).ne' hd hq hq' hm hg' hne
    · rw [hs hd ⟨m, g, hm, hg, hg', heq⟩] at hout
      exact hout hv
    · exact hc hmem
  · obtain ⟨hnl, hnh⟩ := not_isNear_of_long tie h0 (not_lt.mp hd)
    obtain rfl | rfl := he
    · exact hnl hne
    · exact hnh hne

end Single

end ReceiptPrinter.Number
