import ReceiptPrinter.Proofs.Number.Shortest
import ReceiptPrinter.Style.Basic

namespace ReceiptPrinter

open Number Number.Binary

namespace Number.Single

theorem ofRat_eq (x : Rat) : ofRat x = nearest (x < 0) |x| := by
  rw [ofRat]
  by_cases h : x < 0
  · rw [if_pos h, abs_of_neg h]
  · rw [if_neg h, abs_of_nonneg (not_lt.mp h)]

theorem abs_value (x : Single) : |x.value| = x.magnitude := by
  have hm : 0 ≤ x.magnitude := single.value_nonneg x.code
  rw [value]
  split
  · rw [abs_neg, abs_of_nonneg hm]
  · exact abs_of_nonneg hm

/-- A number of either sign that is a multiple of `2 ^ g` and no larger than a code. -/
structure IsMultiple (x : Single) (g : Int) (c : Nat) : Prop where
  exists_eq : ∃ z : Int, x.value = z * 2 ^ g
  code_le : x.code ≤ c

theorem isMultiple_ofRat {x : Rat} {z g : Int} {c : Nat} (hx : x = z * 2 ^ g)
    (hc : |x| < (single.basin c).high) (hi : c < single.infinity) : (ofRat x).IsMultiple g c := by
  have hle : single.nearest |x| ≤ c := single.nearest_le_of_lt_high rfl hc
  have hxa : |x| = z.natAbs * 2 ^ g := by
    rw [hx, abs_mul, abs_of_pos (by positivity : (0 : Rat) < 2 ^ g), Nat.cast_natAbs, Int.cast_abs]
  obtain ⟨i, hv⟩ := single.exists_value_nearest hxa (hle.trans_lt hi)
  rw [ofRat_eq]
  refine ⟨?_, hle⟩
  by_cases hn : x < 0
  · refine ⟨-i, ?_⟩
    simp only [value, nearest, magnitude, hn, decide_true, ↓reduceIte, hv]
    push_cast
    ring
  · refine ⟨i, ?_⟩
    simp only [value, nearest, magnitude, hn, decide_false, Bool.false_eq_true, ↓reduceIte, hv]
    push_cast
    rfl

theorem IsMultiple.abs_value_le {x : Single} {g : Int} {c : Nat} (h : x.IsMultiple g c) :
    |x.value| ≤ single.value c := by
  rw [abs_value]
  exact single.value_strictMono.monotone h.code_le

theorem IsMultiple.isFinite {x : Single} {g : Int} {c : Nat} (h : x.IsMultiple g c)
    (hc : c < single.infinity) : x.isFinite = true :=
  isFinite_iff.mpr (h.code_le.trans_lt hc)

end Number.Single

namespace Style

theorem value_half : single.value 0x3f000000 = 2 ^ (-1 : Int) :=
  (single.value_band 125).trans (by norm_num [single])

theorem value_pow_62 : single.value 0x5e800000 = 2 ^ 62 :=
  (single.value_band 188).trans (by norm_num [single])

theorem value_pow_63 : single.value 0x5f000000 = 2 ^ 63 :=
  (single.value_band 189).trans (by norm_num [single])

theorem lt_high_pow_62 : (2 : Rat) ^ 62 + 1 < (single.basin 0x5e800000).high := by
  have hl : single.level 0x5e800000 = 188 := by decide
  have hg : single.gap 0x5e800000 = 2 ^ (39 : Int) := by
    rw [Binary.gap, hl]
    rfl
  dsimp only [Binary.basin]
  rw [single.value_succ 0x5e800000, value_pow_62, hg]
  norm_num

theorem abs_toInt_le (n : Int64) : |(n.toInt : Rat)| ≤ 2 ^ 63 := by
  have hl : -2 ^ 63 ≤ n.toInt := Int64.le_toInt n
  have hu : n.toInt < 2 ^ 63 := Int64.toInt_lt n
  rw [abs_le]
  constructor
  · exact_mod_cast hl
  · exact_mod_cast hu.le

theorem isMultiple_half (n : Int64) :
    (Single.ofRat ((Single.ofRat n.toInt).value / 2)).IsMultiple (-1) 0x5e800000 := by
  have hn : (Single.ofRat n.toInt).IsMultiple 0 0x5f000000 := by
    refine Single.isMultiple_ofRat (z := n.toInt) (by simp) ?_ (by decide)
    refine lt_of_le_of_lt ?_ (single.value_lt_high_basin _)
    rw [value_pow_63]
    exact abs_toInt_le n
  obtain ⟨z, hz⟩ := hn.exists_eq
  refine Single.isMultiple_ofRat (z := z) (by rw [hz]; norm_num; ring) ?_ (by decide)
  refine lt_of_le_of_lt ?_ (single.value_lt_high_basin _)
  have hb := hn.abs_value_le
  rw [value_pow_63] at hb
  rw [value_pow_62, abs_div]
  norm_num at hb ⊢
  linarith

/-- Before its last rounding a scale is a number of halves, and one at most above `2 ^ 62`. -/
theorem exists_scaleOf_eq (n : Int64) : ∃ x : Rat, scaleOf n = .ofRat x ∧
    (∃ z : Int, x = z * 2 ^ (-1 : Int)) ∧ |x| < (single.basin 0x5e800000).high := by
  have hh := isMultiple_half n
  refine ⟨_, rfl, ?_, lt_of_le_of_lt ?_ lt_high_pow_62⟩
  · obtain ⟨w, hw⟩ := hh.exists_eq
    refine ⟨w + 2, ?_⟩
    rw [hw]
    push_cast
    norm_num
    ring
  · have hb := hh.abs_value_le
    have ht := abs_add_le (Single.ofRat ((Single.ofRat n.toInt).value / 2)).value 1
    rw [value_pow_62] at hb
    rw [abs_one] at ht
    linarith

theorem isMultiple_scaleOf (n : Int64) : (scaleOf n).IsMultiple (-1) 0x5e800000 := by
  obtain ⟨x, hx, ⟨z, hz⟩, hb⟩ := exists_scaleOf_eq n
  rw [hx]
  exact Single.isMultiple_ofRat hz hb (by decide)

theorem isFinite_scaleOf (n : Int64) : (scaleOf n).isFinite = true :=
  (isMultiple_scaleOf n).isFinite (by decide)

theorem abs_value_scaleOf_le (n : Int64) : |(scaleOf n).value| ≤ 2 ^ 62 := by
  rw [← value_pow_62]
  exact (isMultiple_scaleOf n).abs_value_le

theorem code_scaleOf_ne_zero {n : Int64} (h : (scaleOf n).negative = true) : (scaleOf n).code ≠ 0 := by
  obtain ⟨x, hx, ⟨z, hz⟩, -⟩ := exists_scaleOf_eq n
  rw [hx, Single.ofRat_eq] at h ⊢
  have hn : x < 0 := of_decide_eq_true h
  have hzn : z ≤ -1 := by
    by_contra hc
    have hz0 : (0 : Rat) ≤ z := by exact_mod_cast (show (0 : Int) ≤ z by omega)
    have hx0 : 0 ≤ x := by
      rw [hz]
      positivity
    linarith
  have hv : single.value 0x3f000000 ≤ |x| := by
    have hzr : (z : Rat) ≤ -1 := by exact_mod_cast hzn
    rw [value_half, abs_of_neg hn, hz]
    norm_num
    linarith
  have hc : 0x3f000000 ≤ single.nearest |x| := single.le_nearest_of_value_le rfl (by decide) hv
  dsimp only [Single.nearest]
  omega

end Style

end ReceiptPrinter
