import ReceiptPrinter.Proofs.Style.Scale
import ReceiptPrinter.Script.Command

namespace ReceiptPrinter

open Number Number.Binary

namespace Number.Single

theorem value_ofRat_of_nonneg {x : Rat} (h : 0 ≤ x) : (ofRat x).value = single.value (single.nearest x) := by
  have hn : ¬ x < 0 := not_lt.mpr h
  simp [ofRat, value, nearest, magnitude, hn]

theorem value_ofRat_zero : (ofRat 0).value = 0 := by
  have h0 : single.nearest 0 = 0 := if_pos le_rfl
  rw [value_ofRat_of_nonneg le_rfl, h0, single.value_zero]

theorem value_ofRat_neg (x : Rat) : (ofRat (-x)).value = -(ofRat x).value := by
  obtain h | rfl | h := lt_trichotomy x 0
  · have hn : ¬ -x < 0 := by linarith
    simp [ofRat, value, nearest, magnitude, h, hn]
  · rw [neg_zero, value_ofRat_zero, neg_zero]
  · have hn : ¬ x < 0 := by linarith
    simp [ofRat, value, nearest, magnitude, h, hn]

theorem value_ofRat_mono {x y : Rat} (h : x ≤ y) : (ofRat x).value ≤ (ofRat y).value := by
  have hm : ∀ {x y : Rat}, 0 ≤ x → x ≤ y → (ofRat x).value ≤ (ofRat y).value := by
    intro x y hx hxy
    rw [value_ofRat_of_nonneg hx, value_ofRat_of_nonneg (hx.trans hxy)]
    exact single.value_strictMono.monotone (single.nearest_mono rfl hxy)
  have hp : ∀ {x : Rat}, 0 ≤ x → 0 ≤ (ofRat x).value := by
    intro x hx
    rw [value_ofRat_of_nonneg hx]
    exact single.value_nonneg _
  by_cases hx : 0 ≤ x
  · exact hm hx h
  · have hxn := value_ofRat_neg (-x)
    rw [neg_neg] at hxn
    by_cases hy : 0 ≤ y
    · have h1 := hp (x := -x) (by linarith)
      have h2 := hp hy
      linarith
    · have hyn := value_ofRat_neg (-y)
      rw [neg_neg] at hyn
      have h1 := hm (x := -y) (y := -x) (by linarith) (by linarith)
      linarith

theorem lt_value_infinity : (2 : Rat) ^ 65 < single.value single.infinity := by
  have hi : single.value single.infinity = 2 ^ 128 := (single.value_band 254).trans (by norm_num [single])
  rw [hi]
  norm_num

theorem value_ofRat_eq_self {x : Rat} {z g : Int} (hx : x = z * 2 ^ g) (hz : |z| ≤ 2 ^ 24) (hg : -149 ≤ g)
    (hb : |x| ≤ 2 ^ 65) : (ofRat x).value = x := by
  have hm : ∀ {x : Rat} {m : Nat}, x = m * 2 ^ g → m ≤ 2 ^ 24 → x ≤ 2 ^ 65 → (ofRat x).value = x := by
    intro x m hx hm hb
    have hi := hb.trans_lt lt_value_infinity
    have h0 : 0 ≤ x := by
      rw [hx]
      positivity
    obtain rfl | hp := h0.eq_or_lt
    · exact value_ofRat_zero
    · rw [value_ofRat_of_nonneg h0]
      obtain hm | hm := hm.lt_or_eq
      · exact (single.value_nearest_of_lt hp hm hg hx hi).2
      · -- The power itself has a figure too many, so it is counted in steps twice as wide.
        have hx' : x = (2 ^ 23 : Nat) * 2 ^ (g + 1) := by
          rw [hx, hm, two_zpow_add_one]
          push_cast
          ring
        have hg' : single.lowest ≤ g + 1 := hg.trans (by omega)
        exact (single.value_nearest_of_lt hp (by decide) hg' hx' hi).2
  have hn : (z.natAbs : Rat) = |(z : Rat)| := by rw [Nat.cast_natAbs, Int.cast_abs]
  have hl : z.natAbs ≤ 2 ^ 24 := by
    rw [Int.abs_eq_natAbs] at hz
    exact_mod_cast hz
  obtain h | h := le_total 0 z
  · have hc : (z.natAbs : Rat) = z := by rw [hn, abs_of_nonneg (by exact_mod_cast h)]
    exact hm (hx.trans (by rw [hc])) hl ((le_abs_self x).trans hb)
  · have hc : (z.natAbs : Rat) = -z := by rw [hn, abs_of_nonpos (by exact_mod_cast h)]
    have hv := hm (x := -x) (m := z.natAbs) (by rw [hx, hc]; ring) hl ((neg_le_abs x).trans hb)
    rw [value_ofRat_neg] at hv
    linarith

theorem abs_value_ofRat_sub_le {x : Rat} (hl : 1 / 2 ≤ |x|) (hu : |x| ≤ 2 ^ 64) :
    |(ofRat x).value - x| ≤ |x| / 2 ^ 24 := by
  have hm : ∀ {x : Rat}, 1 / 2 ≤ x → x ≤ 2 ^ 64 → |(ofRat x).value - x| ≤ x / 2 ^ 24 := by
    intro x hl hu
    have hx : 0 < x := by linarith
    have hband : single.band * (2 : Rat) ^ single.lowest ≤ x := by
      refine le_trans ?_ hl
      norm_num [band_single, lowest_single]
    have he := single.abs_value_rounded_sub_le hx hband
    have hd : (2 * single.band : Rat) = 2 ^ 24 := by norm_num [band_single]
    rw [hd] at he
    have hi : single.rounded x < single.infinity := by
      apply single.value_strictMono.lt_iff_lt.mp
      have hv := le_abs_self (single.value (single.rounded x) - x)
      have h65 : single.value (single.rounded x) ≤ 2 ^ 65 := by linarith
      exact h65.trans_lt lt_value_infinity
    rw [value_ofRat_of_nonneg hx.le, single.nearest_of_pos hx, min_eq_right hi.le]
    exact he
  obtain h | h := abs_choice x
  · rw [h] at hl hu ⊢
    exact hm hl hu
  · rw [h] at hl hu ⊢
    have hv := hm hl hu
    rw [value_ofRat_neg, ← abs_neg] at hv
    rwa [neg_sub, sub_neg_eq_add, neg_add_eq_sub] at hv

theorem abs_value_ofRat_mem {x : Rat} (hl : 1 / 2 ≤ |x|) (hu : |x| ≤ 2 ^ 64) :
    |x| - |x| / 2 ^ 24 ≤ |(ofRat x).value| ∧ |(ofRat x).value| ≤ |x| + |x| / 2 ^ 24 := by
  have he := abs_value_ofRat_sub_le hl hu
  have h1 := abs_sub_abs_le_abs_sub (ofRat x).value x
  have h2 := abs_sub_abs_le_abs_sub x (ofRat x).value
  rw [abs_sub_comm] at h2
  constructor <;> linarith

end Number.Single

namespace Style

open Number.Single

theorem abs_half (x : Rat) : |x / 2| = |x| / 2 := by
  rw [abs_div, abs_two]

def exactScale (n : Int64) : Rat := n.toInt / 2 + 1

theorem value_scaleOf_mono {n m : Int64} (h : n ≤ m) : (scaleOf n).value ≤ (scaleOf m).value := by
  have hn : (n.toInt : Rat) ≤ m.toInt := by exact_mod_cast Int64.le_iff_toInt_le.mp h
  apply value_ofRat_mono
  apply add_le_add_left
  apply value_ofRat_mono
  apply div_le_div_of_nonneg_right _ zero_le_two
  exact value_ofRat_mono hn

/-- The first two operations are exact where the number has no more than 24 binary figures. -/
theorem scaleOf_of_abs_le {n : Int64} (h : |n.toInt| ≤ 2 ^ 24) : scaleOf n = .ofRat (exactScale n) := by
  have hr : |(n.toInt : Rat)| ≤ 2 ^ 24 := by exact_mod_cast h
  have h1 : (Single.ofRat n.toInt).value = n.toInt :=
    value_ofRat_eq_self (z := n.toInt) (g := 0) (by simp) h (by decide) (hr.trans (by norm_num))
  have h2 : (Single.ofRat (n.toInt / 2)).value = n.toInt / 2 := by
    apply value_ofRat_eq_self (z := n.toInt) (g := -1) (by norm_num; ring) h (by decide)
    rw [abs_half]
    linarith
  rw [scaleOf, h1, h2, exactScale]

theorem exactScale_eq_zero_or (n : Int64) : exactScale n = 0 ∨ 1 / 2 ≤ |exactScale n| := by
  have hx : exactScale n = (n.toInt + 2 : Int) / 2 := by
    rw [exactScale]
    push_cast
    ring
  by_cases h0 : n.toInt + 2 = 0
  · left
    rw [hx, h0, Int.cast_zero, zero_div]
  · right
    have h1 : (1 : Rat) ≤ |((n.toInt + 2 : Int) : Rat)| := by exact_mod_cast Int.one_le_abs h0
    rw [hx, abs_half]
    linarith

theorem abs_exactScale_le (n : Int64) : |exactScale n| ≤ 2 ^ 64 := by
  have hn := abs_le.mp (abs_toInt_le n)
  unfold exactScale
  rw [abs_le]
  constructor <;> linarith [hn.1, hn.2]

theorem value_scaleOf_eq {n : Int64} (hl : -2 ^ 24 ≤ n.toInt) (hu : n.toInt ≤ 2 ^ 24 - 2) :
    (scaleOf n).value = exactScale n := by
  have h : |n.toInt| ≤ 2 ^ 24 := abs_le.mpr ⟨hl, by omega⟩
  have hz : |n.toInt + 2| ≤ 2 ^ 24 := abs_le.mpr ⟨by omega, by omega⟩
  have hr : |(n.toInt : Rat) + 2| ≤ 2 ^ 24 := by exact_mod_cast hz
  have hx : exactScale n = (n.toInt + 2 : Int) * 2 ^ (-1 : Int) := by
    rw [exactScale]
    push_cast
    norm_num
    ring
  rw [scaleOf_of_abs_le h]
  apply value_ofRat_eq_self hx hz (by decide)
  rw [hx, abs_mul]
  push_cast
  norm_num
  linarith

/-- Far from zero three roundings, each within half a unit in the last place, add up to less than four. -/
theorem abs_sub_exactScale_le {n : Int64} {x y z : Rat} (hn : 2 ^ 24 ≤ |(n.toInt : Rat)|)
    (hx : |x - n.toInt| ≤ |(n.toInt : Rat)| / 2 ^ 24) (hy : |y - x / 2| ≤ |x / 2| / 2 ^ 24)
    (hz : |z - (y + 1)| ≤ |y + 1| / 2 ^ 24) : |z - exactScale n| ≤ |exactScale n| / 2 ^ 22 := by
  have ht : ∀ {a b c : Rat}, a = b + c → |a| ≤ |b| + |c| := fun h => h ▸ abs_add_le _ _
  have h0 : |(n.toInt / 2 : Rat)| ≤ |exactScale n| + |(-1 : Rat)| := ht (by rw [exactScale]; ring)
  have h1 : |x / 2| ≤ |(n.toInt / 2 : Rat)| + |(x - n.toInt) / 2| := ht (by ring)
  have h2 : |y - n.toInt / 2| ≤ |y - x / 2| + |(x - n.toInt) / 2| := ht (by ring)
  have h3 : |y + 1| ≤ |exactScale n| + |y - n.toInt / 2| := ht (by rw [exactScale]; ring)
  have h4 : |z - exactScale n| ≤ |z - (y + 1)| + |y - n.toInt / 2| := ht (by rw [exactScale]; ring)
  simp only [abs_half, abs_neg, abs_one] at h0 h1 h2 hy
  linarith

theorem abs_value_scaleOf_sub_le (n : Int64) :
    |(scaleOf n).value - exactScale n| ≤ |exactScale n| / 2 ^ 22 := by
  -- The scale crosses zero where sizes are small, and a bound by it holds there because only one step rounds.
  by_cases h : |n.toInt| ≤ 2 ^ 24
  · rw [scaleOf_of_abs_le h]
    obtain h0 | h1 := exactScale_eq_zero_or n
    · rw [h0, value_ofRat_zero, sub_zero, abs_zero, zero_div]
    · have he := abs_value_ofRat_sub_le h1 (abs_exactScale_le n)
      linarith [abs_nonneg (exactScale n)]
  · have hn : 2 ^ 24 ≤ |(n.toInt : Rat)| := by exact_mod_cast (not_le.mp h).le
    have hu := abs_toInt_le n
    rw [scaleOf]
    have hx := abs_value_ofRat_sub_le (x := n.toInt) (by linarith) (by linarith)
    have hxa := abs_value_ofRat_mem (x := n.toInt) (by linarith) (by linarith)
    generalize (Single.ofRat n.toInt).value = x at *
    have hy := abs_value_ofRat_sub_le (x := x / 2) (by linarith [abs_half x]) (by linarith [abs_half x])
    have hya := abs_value_ofRat_mem (x := x / 2) (by linarith [abs_half x]) (by linarith [abs_half x])
    generalize (Single.ofRat (x / 2)).value = y at *
    have hs := abs_sub_abs_le_abs_sub y (-1)
    have ht := abs_add_le y 1
    rw [abs_neg, abs_one, sub_neg_eq_add] at hs
    rw [abs_one] at ht
    have hz := abs_value_ofRat_sub_le (x := y + 1) (by linarith [abs_half x]) (by linarith [abs_half x])
    exact abs_sub_exactScale_le hn hx hy hz

/-- A size changes nothing of a style but the scale. The scale grows with the size, it is exact as far as
single precision has the halves, and beyond that it is finite and near. It is no negative zero. -/
theorem scaleOf_near_exactScale (n : Int64) :
    (∀ s : Style, (Command.charSize n).perform s = { style := { s with scale := some (scaleOf n) } }) ∧
      (∀ m : Int64, n ≤ m → (scaleOf n).value ≤ (scaleOf m).value) ∧
      (-2 ^ 24 ≤ n.toInt → n.toInt ≤ 2 ^ 24 - 2 → (scaleOf n).value = exactScale n) ∧
      (scaleOf n).isFinite = true ∧ ((scaleOf n).negative = true → (scaleOf n).code ≠ 0) ∧
      |(scaleOf n).value - exactScale n| ≤ |exactScale n| / 2 ^ 22 :=
  ⟨fun _ => rfl, fun _ => value_scaleOf_mono, value_scaleOf_eq, isFinite_scaleOf n, code_scaleOf_ne_zero,
    abs_value_scaleOf_sub_le n⟩

theorem scaleOf_near_exactScale_ends :
    (scaleOf 16777214).value = 8388608 ∧ (scaleOf 16777215).value ≠ exactScale 16777215 ∧
      (scaleOf (-16777216)).value = -8388607 ∧ (scaleOf (-16777217)).value ≠ exactScale (-16777217) ∧
      (scaleOf (-16777217)).value ≤ (scaleOf 16777214).value := by
  obtain ⟨-, -, hu, -⟩ := scaleOf_near_exactScale 16777214
  obtain ⟨-, -, hl, -⟩ := scaleOf_near_exactScale (-16777216)
  obtain ⟨-, hm, -⟩ := scaleOf_near_exactScale (-16777217)
  refine ⟨?_, by decide +kernel, ?_, by decide +kernel, hm _ (by decide)⟩
  · exact (hu (by decide) (by decide)).trans (by decide +kernel)
  · exact (hl (by decide) (by decide)).trans (by decide +kernel)

end Style

end ReceiptPrinter
