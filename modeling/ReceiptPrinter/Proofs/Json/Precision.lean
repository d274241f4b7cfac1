import ReceiptPrinter.Proofs.Json.Literals
import ReceiptPrinter.Proofs.Number.Margin

namespace ReceiptPrinter

open Number

namespace Json.Literal

/-- Well within the normal range the double is off by half a unit in its last place at most. -/
theorem roundDouble_near {x : Rat} (hl : 2 ^ (-200 : Int) ≤ x) (hu : x ≤ 2 ^ (200 : Int)) :
    ∃ y, roundDouble x = some y ∧ |y - x| ≤ x / 2 ^ 53 := by
  have hx : 0 < x := lt_of_lt_of_le (by positivity) hl
  have hb : (Binary.double.band : Rat) = 2 ^ 52 := Binary.double.cast_band.trans (by norm_num [Binary.double])
  have hband : Binary.double.band * (2 : Rat) ^ Binary.double.lowest ≤ x := by
    rw [Binary.cast_band, ← zpow_add₀ (by norm_num)]
    exact (zpow_le_zpow_right₀ (by norm_num) (by decide)).trans hl
  have herr := Binary.double.abs_value_rounded_sub_le hx hband
  have hlt : Binary.double.rounded x < Binary.double.infinity := by
    rw [← Binary.double.value_strictMono.lt_iff_lt]
    refine lt_double_infinity (e := 201) ?_ (by decide)
    have h := (abs_le.mp herr).2
    have hp : (2 : Rat) ^ (201 : Int) = 2 * 2 ^ (200 : Int) := two_zpow_add_one 200
    rw [hb] at h
    rw [hp]
    linarith
  refine ⟨_, if_pos ?_, ?_⟩
  · rw [Binary.double.nearest_of_pos hx]
    omega
  · rw [Binary.double.nearest_of_pos hx, Nat.min_eq_right hlt.le]
    refine herr.trans_eq ?_
    rw [hb]
    norm_num

theorem tenPower_near {k : Nat} (hk : k ≤ 45) : |tenPower k - 10 ^ k| ≤ 10 ^ k / 2 ^ 53 := by
  have h1 : (1 : Rat) ≤ 10 ^ k := one_le_pow₀ (by norm_num)
  have h45 : (10 : Rat) ^ k ≤ 10 ^ 45 := pow_le_pow_right₀ (by norm_num) hk
  have hl : (2 : Rat) ^ (-200 : Int) ≤ 10 ^ k := le_trans (by norm_num) h1
  have hu : (10 : Rat) ^ k ≤ 2 ^ (200 : Int) := h45.trans (by norm_num)
  obtain ⟨y, hy, herr⟩ := roundDouble_near hl hu
  rw [tenPower, zpow_natCast, value_nearest_of_roundDouble hy]
  exact herr

theorem roundDouble_isNear {v z : Rat} (hl : 2 ^ (-199 : Int) ≤ v) (hu : v ≤ 2 ^ (199 : Int))
    (h : |z - v| ≤ max v z / 2 ^ 53) : ∃ y, roundDouble z = some y ∧ IsNear v y := by
  have hv : 0 < v := lt_of_lt_of_le (by positivity) hl
  obtain ⟨h1, h2⟩ := abs_le.mp h
  have hz : v / 2 ≤ z ∧ z ≤ 17 / 16 * v ∧ |z - v| ≤ 17 / 16 * v / 2 ^ 53 := by
    rcases max_cases v z with ⟨hm, -⟩ | ⟨hm, -⟩ <;> rw [hm] at h1 h2 <;>
      exact ⟨by linarith, by linarith, abs_le.mpr ⟨by linarith, by linarith⟩⟩
  obtain ⟨hz1, hz2, herr⟩ := hz
  have hl' : (2 : Rat) ^ (-199 : Int) = 2 * 2 ^ (-200 : Int) := by norm_num
  have hu' : (2 : Rat) ^ (200 : Int) = 2 * 2 ^ (199 : Int) := two_zpow_add_one 199
  obtain ⟨y, hy, hyz⟩ := roundDouble_near (x := z) (by linarith) (by linarith)
  refine ⟨y, hy, ?_⟩
  calc |y - v| ≤ |y - z| + |z - v| := abs_sub_le y z v
    _ ≤ 5 / 2 ^ 54 * v := by linarith

theorem rescale_eq_roundDouble {x : Rat} {e : Int} (he : e ≤ 308) : rescale 0 x e =
    roundDouble (if e < 0 then x / tenPower e.natAbs else x * tenPower e.natAbs) := by
  rw [rescale]
  split
  · rfl
  · rfl

theorem rescale_isNear {x : Rat} {e : Int} (hx : 1 ≤ x) (hx' : x ≤ 2 ^ 53) (hl : -45 ≤ e) (hu : e ≤ 38) :
    ∃ y, rescale 0 x e = some y ∧ IsNear (x * 10 ^ e) y := by
  have ht := tenPower_near (k := e.natAbs) (by omega)
  have hp : (0 : Rat) < 10 ^ e.natAbs := by positivity
  have hv : (2 : Rat) ^ (-199 : Int) ≤ x * 10 ^ e := by
    have he : (10 : Rat) ^ (-45 : Int) ≤ 10 ^ e := zpow_le_zpow_right₀ (by norm_num) hl
    calc (2 : Rat) ^ (-199 : Int) ≤ 10 ^ (-45 : Int) := by norm_num
      _ ≤ 10 ^ e := he
      _ ≤ x * 10 ^ e := le_mul_of_one_le_left (by positivity) hx
  have hv' : x * 10 ^ e ≤ (2 : Rat) ^ (199 : Int) := by
    have he : (10 : Rat) ^ e ≤ 10 ^ (38 : Int) := zpow_le_zpow_right₀ (by norm_num) hu
    calc x * 10 ^ e ≤ 2 ^ 53 * 10 ^ (38 : Int) := mul_le_mul hx' he (by positivity) (by positivity)
      _ ≤ 2 ^ (199 : Int) := by norm_num
  rw [rescale_eq_roundDouble (by omega)]
  apply roundDouble_isNear hv hv'
  generalize tenPower e.natAbs = t at *
  split
  · next he =>
    have hten : (10 : Rat) ^ e = (10 ^ e.natAbs)⁻¹ := by
      rw [← zpow_natCast, ← zpow_neg]
      congr 1
      omega
    have ht0 : 0 < t := by linarith [(abs_le.mp ht).1]
    have hdiff : x / t - x * (10 ^ e.natAbs)⁻¹ = x / t * ((10 ^ e.natAbs - t) / 10 ^ e.natAbs) := by
      field_simp
    have hrel : |(10 ^ e.natAbs - t) / 10 ^ e.natAbs| ≤ 1 / 2 ^ 53 := by
      rw [abs_div, abs_of_pos hp, div_le_iff₀ hp, abs_sub_comm]
      linarith
    have hz : 0 < x / t := div_pos (by linarith) ht0
    rw [hten, hdiff, abs_mul, abs_of_pos hz]
    calc x / t * |(10 ^ e.natAbs - t) / 10 ^ e.natAbs| ≤ x / t * (1 / 2 ^ 53) := by gcongr
      _ = x / t / 2 ^ 53 := mul_one_div _ _
      _ ≤ _ := by gcongr; exact le_max_right _ _
  · next he =>
    have hten : (10 : Rat) ^ e = 10 ^ e.natAbs := by
      rw [← zpow_natCast]
      congr 1
      omega
    rw [hten, ← mul_sub, abs_mul, abs_of_pos (by linarith : 0 < x)]
    calc x * |t - 10 ^ e.natAbs| ≤ x * (10 ^ e.natAbs / 2 ^ 53) := by gcongr
      _ = x * 10 ^ e.natAbs / 2 ^ 53 := (mul_div_assoc _ _ _).symm
      _ ≤ _ := by gcongr; exact le_max_left _ _

theorem nearest_rescale_of_mem_close : ∀ d ∈ closeDecimals, ∃ y,
    rescale 0 d.digits d.exponent = some y ∧ Binary.single.nearest y = Binary.single.nearest d.value := by
  have h : ∀ d ∈ closeDecimals, (rescale 0 d.digits d.exponent).map Binary.single.nearest =
      some (Binary.single.nearest d.value) := by
    decide +kernel
  exact fun d hd => Option.map_eq_some_iff.mp (h d hd)

section OfSingle

variable {x : Single} (hf : x.isFinite = true)

include hf

theorem exists_double?_of_eq {m : Nat} {g : Int} (hm : m < 2 ^ 53) (hg : -1074 ≤ g)
    (hp : |(ofSingle x).power| ≤ 22) (hv : (x.shortest .even).value = m * 2 ^ g) :
    ∃ y, (ofSingle x).double? = some y ∧ Binary.single.nearest y = x.code := by
  obtain ⟨hl, hu⟩ := abs_le.mp hp
  rw [← magnitude_ofSingle] at hv
  refine ⟨_, double?_eq_magnitude (coefficient_ofSingle_lt hf) hl hu hv hm hg, ?_⟩
  rw [magnitude_ofSingle, Single.nearest_value_shortest .even hf]

theorem exists_double?_of_digits (h0 : x.code ≠ 0)
    (hc : (ofSingle x).coefficient = (x.shortest .even).digits)
    (hp : (ofSingle x).power = (x.shortest .even).exponent) :
    ∃ y, (ofSingle x).double? = some y ∧ Binary.single.nearest y = x.code := by
  have hlt := coefficient_ofSingle_lt hf
  have hd0 := Single.digits_shortest_pos .even h0
  obtain ⟨hq, hq'⟩ := Single.exponent_shortest_mem .even h0
  by_cases hs : (x.shortest .even).digits < 2 ^ 25 ∧ IsShort (x.shortest .even).value
  · obtain ⟨hd, hs⟩ := hs
    have he := abs_exponent_le_of_isShort hd0.ne' hd hs
    obtain ⟨m, g, hm, hg, -, hv⟩ := hs
    exact exists_double?_of_eq hf (m := m) (g := g) (by omega) (by omega) (hp ▸ he) hv
  · rw [double?_eq_rescale hlt (by omega), hc, hp]
    by_cases hclose : x.shortest .even ∈ closeDecimals
    · obtain ⟨y, hy, hn⟩ := nearest_rescale_of_mem_close _ hclose
      exact ⟨y, hy, hn.trans (Single.nearest_value_shortest .even hf)⟩
    · rw [hc] at hlt
      have h1 : (1 : Rat) ≤ (x.shortest .even).digits := by exact_mod_cast hd0
      have h2 : ((x.shortest .even).digits : Rat) ≤ 2 ^ 53 := by exact_mod_cast hlt.le
      obtain ⟨y, hy, hnear⟩ := rescale_isNear h1 h2 hq hq'
      exact ⟨y, hy, Single.nearest_eq_of_isNear .even hf h0 hclose hnear fun hd h => absurd ⟨hd, h⟩ hs⟩

theorem exists_double?_ofSingle :
    ∃ y, (ofSingle x).double? = some y ∧ Binary.single.nearest y = x.code := by
  by_cases h0 : x.code = 0
  · refine exists_double?_of_eq hf (m := 0) (g := 0) (by decide) (by decide) ?_ ?_
    · have hp : (ofSingle x).power = -1 := by
        rw [ofSingle_of_zero x h0]
        rfl
      rw [hp]
      decide
    · rw [Single.shortest_of_zero _ h0]
      simp [Decimal.value]
  · obtain ⟨hc, hp⟩ | ⟨he, -, hc, hp⟩ := ofSingle_cases x
    · exact exists_double?_of_digits hf h0 hc hp
    · have hlt := coefficient_ofSingle_lt hf
      refine exists_double?_of_eq hf (m := (x.shortest .even).digits * 10 ^ (x.shortest .even).exponent.toNat)
        (g := 0) (by omega) (by decide) (by rw [hp]; decide) ?_
      rw [Decimal.value, zpow_zero, mul_one, ← Int.toNat_of_nonneg he, zpow_natCast, Int.toNat_natCast]
      push_cast
      rfl

/-- Every finite single is read back from its literal bit for bit, although double precision stands
in between. -/
theorem single?_ofSingle : (ofSingle x).single? = some x := by
  obtain ⟨y, hy, hn⟩ := exists_double?_ofSingle hf
  have hs : (ofSingle x).negative = x.negative := by
    simp only [ofSingle]
    split <;> rfl
  rw [single?, isWord_ofSingle, if_neg Bool.false_ne_true, hy, Option.map_some, hs,
    Single.nearest_eq_of_code hn]

end OfSingle

end Json.Literal

end ReceiptPrinter
