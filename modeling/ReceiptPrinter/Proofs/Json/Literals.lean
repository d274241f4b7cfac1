import ReceiptPrinter.Proofs.Json.Scanning
import ReceiptPrinter.Proofs.Number.Figures
import ReceiptPrinter.Proofs.Number.Shortest

namespace ReceiptPrinter.Json.Literal

open Number

def coefficient (l : Literal) : Nat := Nat.ofDigitChars 10 (l.whole ++ l.fraction) 0

def power (l : Literal) : Int := l.exponent.getD 0 - l.fraction.length

def magnitude (l : Literal) : Rat := l.coefficient * (10 : Rat) ^ l.power

theorem le_ofDigitChars (word : Nat) (t : Text) : word ≤ Nat.ofDigitChars 10 t word := by
  induction t generalizing word with
  | nil => exact le_rfl
  | cons c t ih =>
    rw [Nat.ofDigitChars_cons]
    exact le_trans (by omega) (ih _)

theorem accumulate_eq {word : Nat} {t : Text} (h : Nat.ofDigitChars 10 t word ≤ wordLimit) :
    accumulate word t = (Nat.ofDigitChars 10 t word, []) := by
  induction t generalizing word with
  | nil => rfl
  | cons c t ih =>
    rw [Nat.ofDigitChars_cons] at h ⊢
    have hn : 10 * word + digitValue c ≤ wordLimit := le_trans (le_ofDigitChars _ t) h
    rw [accumulate, if_pos hn]
    exact ih h

theorem accumulate_whole {l : Literal} (h : l.coefficient ≤ wordLimit) :
    accumulate 0 l.whole = (Nat.ofDigitChars 10 l.whole 0, []) := by
  rw [coefficient, Nat.ofDigitChars_append] at h
  exact accumulate_eq ((le_ofDigitChars _ _).trans h)

theorem scaled_eq {l : Literal} (h : l.coefficient ≤ wordLimit) :
    l.scaled = (l.coefficient, l.power) := by
  have hw := accumulate_whole h
  rw [coefficient, Nat.ofDigitChars_append] at h
  rw [scaled, hw, accumulate_eq h, coefficient, Nat.ofDigitChars_append, power]
  simp

theorem value_double_infinity : Binary.double.value Binary.double.infinity = 2 ^ (1024 : Int) :=
  (Binary.double.value_band 2046).trans (by norm_num [Binary.double])

theorem lt_double_infinity {x : Rat} {e : Int} (hx : x < 2 ^ e) (he : e ≤ 1024) :
    x < Binary.double.value Binary.double.infinity := by
  rw [value_double_infinity]
  exact hx.trans_le (zpow_le_zpow_right₀ (by norm_num) he)

theorem roundDouble_eq_self {x : Rat} {m : Nat} {g : Int} (hx : x = m * 2 ^ g) (hm : m < 2 ^ 53)
    (hg : -1074 ≤ g) (hlt : x < 2 ^ (128 : Int)) : roundDouble x = some x := by
  have hn : Binary.double.nearest x < Binary.double.infinity ∧
      Binary.double.value (Binary.double.nearest x) = x := by
    by_cases h0 : 0 < x
    · exact Binary.double.value_nearest_of_lt h0 hm hg hx (lt_double_infinity hlt (by decide))
    · have hz : x = 0 := le_antisymm (not_lt.mp h0) (hx ▸ by positivity)
      have hc : Binary.double.nearest 0 = 0 := if_pos le_rfl
      rw [hz, hc]
      exact ⟨by decide, Binary.double.value_zero⟩
  rw [roundDouble, if_pos hn.1, hn.2]

theorem value_nearest_of_roundDouble {x y : Rat} (h : roundDouble x = some y) :
    Binary.double.value (Binary.double.nearest x) = y := by
  rw [roundDouble] at h
  split at h
  · exact Option.some.inj h
  · cases h

theorem tenPower_eq {k : Nat} (hk : k ≤ 22) : tenPower k = (10 : Rat) ^ (k : Int) := by
  have hp : (10 : Rat) ^ (k : Int) = (5 ^ k : Nat) * 2 ^ (k : Int) := by
    push_cast
    rw [zpow_natCast, zpow_natCast, ← mul_pow]
    norm_num
  have hm : 5 ^ k < 2 ^ 53 :=
    (Nat.pow_le_pow_right (by decide) hk).trans_lt (by decide)
  have hlt : (10 : Rat) ^ (k : Int) < 2 ^ (128 : Int) :=
    (zpow_le_zpow_right₀ (n := 22) (by norm_num) (by omega)).trans_lt (by norm_num)
  exact value_nearest_of_roundDouble (roundDouble_eq_self hp hm (by omega) hlt)

theorem double?_eq_rescale {l : Literal} (hc : l.coefficient < 2 ^ 53) (hl : -308 ≤ l.power) :
    l.double? = rescale 0 l.coefficient l.power := by
  have hs := scaled_eq (hc.le.trans (by decide : 2 ^ 53 ≤ wordLimit))
  have hcr : (l.coefficient : Rat) < 2 ^ (53 : Int) := by exact_mod_cast hc
  have hword : roundDouble l.coefficient = some (l.coefficient : Rat) :=
    roundDouble_eq_self (g := 0) (by rw [zpow_zero, mul_one]) hc (by decide)
      (hcr.trans (zpow_lt_zpow_right₀ (by norm_num) (by norm_num)))
  have hk : (-l.power - 1).toNat / 308 = 0 := Nat.div_eq_of_lt (by omega)
  rw [double?, hs]
  dsimp only
  rw [hword, Option.bind_some, hk]

/-- A literal of few digits around the point is read in double precision without an error, where
its magnitude is a double at all. -/
theorem double?_eq_magnitude {l : Literal} (hc : l.coefficient < 2 ^ 53) (hl : -22 ≤ l.power)
    (hu : l.power ≤ 22) {m : Nat} {g : Int} (hx : l.magnitude = m * 2 ^ g) (hm : m < 2 ^ 53)
    (hg : -1074 ≤ g) : l.double? = some l.magnitude := by
  have hcr : (l.coefficient : Rat) < 2 ^ (53 : Int) := by exact_mod_cast hc
  have hlt : l.magnitude < 2 ^ (128 : Int) := by
    have hp : (10 : Rat) ^ l.power ≤ 10 ^ (22 : Int) := zpow_le_zpow_right₀ (by norm_num) hu
    have hn : (2 : Rat) ^ (53 : Int) * 10 ^ (22 : Int) < 2 ^ (128 : Int) := by norm_num
    refine lt_of_le_of_lt ?_ hn
    exact mul_le_mul hcr.le hp (by positivity) (by positivity)
  have hself := roundDouble_eq_self hx hm hg hlt
  have hten := tenPower_eq (k := l.power.natAbs) (by omega)
  rw [double?_eq_rescale hc (by omega), rescale, hten]
  by_cases he : l.power < 0
  · have ha : ((l.power.natAbs : Nat) : Int) = -l.power := by omega
    rw [if_pos he, ha, zpow_neg, div_inv_eq_mul]
    exact hself
  · have ha : ((l.power.natAbs : Nat) : Int) = l.power := by omega
    rw [if_neg he, if_pos (by omega), ha]
    exact hself

section OfNat

variable {n : Nat}

theorem isWritten_ofNat : (ofNat n).IsWritten where
  whole_ne_nil := Text.numeral_ne_nil n
  isDigit_whole := fun _ => Text.isDigit_of_mem_numeral
  whole_eq_or := by
    by_cases hn : n = 0
    · exact Or.inl (hn ▸ rfl)
    · exact Or.inr (Text.head?_numeral_ne hn)
  isDigit_fraction := fun _ h => nomatch h

theorem coefficient_ofNat : (ofNat n).coefficient = n := by
  have ht : (ofNat n).whole ++ (ofNat n).fraction = Text.numeral n := List.append_nil _
  rw [coefficient, ht, Text.ofDigitChars_numeral]

theorem scaled_ofNat (h : n ≤ wordLimit) : (ofNat n).scaled = (n, 0) := by
  rw [scaled_eq (coefficient_ofNat.trans_le h), coefficient_ofNat]
  rfl

theorem isWord_ofNat (h : n ≤ wordLimit) : (ofNat n).isWord = true := by
  rw [isWord, accumulate_whole (coefficient_ofNat.trans_le h)]
  rfl

end OfNat

section OfSingle

variable (x : Single)

theorem ofSingle_cases :
    (ofSingle x).coefficient = (x.shortest .even).digits ∧
        (ofSingle x).power = (x.shortest .even).exponent ∨
      0 ≤ (x.shortest .even).exponent ∧ (x.shortest .even).point ≤ 13 ∧
        (ofSingle x).coefficient =
          (x.shortest .even).digits * 10 ^ (x.shortest .even).exponent.toNat * 10 ∧
        (ofSingle x).power = -1 := by
  simp only [ofSingle, coefficient, power]
  generalize x.shortest .even = d
  have hf := d.length_fractionPart
  have ho := d.ofDigitChars_parts
  split
  · next hp =>
    by_cases he : 0 ≤ d.exponent
    · have hn := (d.parts_of_nonneg he).2
      rw [hn, List.append_nil] at ho
      refine Or.inr ⟨he, hp.2, ?_, ?_⟩
      · rw [hn, List.isEmpty_nil, if_pos rfl, Nat.ofDigitChars_append, ho, Nat.ofDigitChars_cons,
          Nat.ofDigitChars_nil]
        omega
      · rw [hn, List.isEmpty_nil, if_pos rfl]
        rfl
    · have hn : d.fractionPart.isEmpty = false := by
        rw [List.isEmpty_eq_false_iff, ← List.length_pos_iff]
        omega
      rw [Int.toNat_of_nonpos (by omega), pow_zero, mul_one] at ho
      refine Or.inl ⟨?_, ?_⟩
      · rw [hn, if_neg Bool.false_ne_true, ho]
      · rw [hn, if_neg Bool.false_ne_true, Option.getD_none, hf]
        omega
  · have hl := d.length_figures_pos
    have hpt := d.point_eq
    refine Or.inl ⟨?_, ?_⟩
    · rw [List.take_append_drop]
      exact Text.ofDigitChars_numeral _
    · rw [Option.getD_some, List.length_drop]
      omega

theorem magnitude_ofSingle : (ofSingle x).magnitude = (x.shortest .even).value := by
  rw [magnitude, Decimal.value]
  obtain ⟨hc, hp⟩ | ⟨he, -, hc, hp⟩ := ofSingle_cases x
  · rw [hc, hp]
  · have hz : (10 : Rat) ^ (x.shortest .even).exponent = 10 ^ (x.shortest .even).exponent.toNat := by
      rw [← zpow_natCast, Int.toNat_of_nonneg he]
    rw [hc, hp, hz]
    push_cast
    rw [zpow_neg_one, mul_assoc, mul_inv_cancel₀ (by norm_num), mul_one]

theorem isWord_ofSingle : (ofSingle x).isWord = false := by
  unfold ofSingle isWord
  dsimp only
  generalize x.shortest .even = d
  split
  · cases h : d.fractionPart <;> simp
  · simp

theorem ofSingle_of_zero (h0 : x.code = 0) : ofSingle x = ⟨x.negative, ['0'], ['0'], none⟩ := by
  rw [ofSingle, Single.shortest_of_zero _ h0]
  rfl

theorem isWritten_ofSingle : (ofSingle x).IsWritten := by
  by_cases h0 : x.code = 0
  · rw [ofSingle_of_zero x h0]
    exact ⟨by simp, by simp, Or.inl rfl, by simp⟩
  · have hd := (Single.digits_shortest_pos .even h0).ne'
    unfold ofSingle
    generalize x.shortest .even = d at hd
    dsimp only
    have hf := d.length_figures_pos
    split
    · refine ⟨d.wholePart_ne_nil, fun _ => d.isDigit_of_mem_wholePart,
        d.wholePart_eq_or_head?_ne hd, ?_⟩
      dsimp only
      split
      · simp
      · exact fun _ => d.isDigit_of_mem_fractionPart
    · refine ⟨?_, fun c hc => ?_, Or.inr ?_, fun c hc => ?_⟩
      · exact List.length_pos_iff.mp (by rw [List.length_take]; omega)
      · exact d.isDigit_of_mem_figures (List.mem_of_mem_take hc)
      · rw [List.head?_take, if_neg one_ne_zero]
        exact d.head?_figures_ne hd
      · exact d.isDigit_of_mem_figures (List.mem_of_mem_drop hc)

variable {x}

theorem coefficient_ofSingle_lt (h : x.isFinite = true) : (ofSingle x).coefficient < 2 ^ 53 := by
  have hd : (x.shortest .even).digits < 2 ^ 28 := by
    by_cases h0 : x.code = 0
    · rw [Single.shortest_of_zero _ h0]
      decide
    · exact Single.digits_shortest_lt _ h h0
  obtain ⟨hc, -⟩ | ⟨he, hp, hc, -⟩ := ofSingle_cases x
  · omega
  · generalize x.shortest .even = d at he hp hc
    have hl := d.length_figures_pos
    have hpt := d.point_eq
    have hm : d.digits * 10 ^ d.exponent.toNat < 10 ^ 13 := by
      calc d.digits * 10 ^ d.exponent.toNat
          < 10 ^ d.figures.length * 10 ^ d.exponent.toNat :=
            Nat.mul_lt_mul_of_pos_right d.digits_lt (Nat.pow_pos (by decide))
        _ = 10 ^ (d.figures.length + d.exponent.toNat) := (Nat.pow_add _ _ _).symm
        _ ≤ 10 ^ 13 := Nat.pow_le_pow_right (by decide) (by omega)
    rw [hc]
    omega

end OfSingle

end ReceiptPrinter.Json.Literal
