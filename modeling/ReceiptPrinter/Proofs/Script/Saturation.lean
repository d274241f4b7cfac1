import ReceiptPrinter.Proofs.Script.Numeral

namespace ReceiptPrinter.Numeral

/-- The integer that a word starts with, in digits with a sign or none in front of them. A word that starts
with no numeral counts as zero. -/
inductive Starts : Text → Int → Prop
  | numeral {w tail : Text} {v : Int} (h : IsNumeral w v) (ht : ∀ c ∈ tail.head?, c.isDigit = false) :
    Starts (w ++ tail) v
  | bare {w : Text} (h : ∀ u v, IsNumeral u v → ¬ u <+: w) : Starts w 0

theorem starts_iff {w : Text} {v : Int} : Starts w v ↔ v = value w := by
  constructor
  · rintro (⟨h, ht⟩ | h)
    · exact (value_append h ht).symm
    · exact (value_eq_zero (digits_eq_nil_iff.mpr h)).symm
  · rintro rfl
    by_cases h : digits w = []
    · rw [value_eq_zero h]
      exact .bare (digits_eq_nil_iff.mp h)
    · obtain ⟨u, tail, v, rfl, hu, ht⟩ := exists_isNumeral_append h
      rw [value_append hu ht]
      exact .numeral hu ht

/-- A number behind one more digit. The product and the sum are each kept within 64 bits. -/
def push (n : Int64) (c : Char) : Int64 :=
  .ofIntClamp ((Int64.ofIntClamp (n.toInt * 10)).toInt + (c.toNat - '0'.toNat : Nat))

def accumulate (ds : Text) : Int64 := ds.foldl push 0

theorem toInt_ofIntClamp (v : Int) : (Int64.ofIntClamp v).toInt = max (-2 ^ 63) (min v (2 ^ 63 - 1)) := by
  have hl : Int64.minValue.toInt = -2 ^ 63 := Int64.toInt_minValue
  have hu : Int64.maxValue.toInt = 2 ^ 63 - 1 := Int64.toInt_maxValue
  unfold Int64.ofIntClamp
  split
  · split
    · rw [Int64.toInt_ofIntLE]
      omega
    · omega
  · omega

/-- The cut behind a digit keeps what a cut behind all the digits needs: a number that is cut off stays at
the largest, whatever digits follow. -/
theorem push_cutOff (m : Nat) (c : Char) : push (cutOff m) c = cutOff (10 * m + (c.toNat - '0'.toNat) : Nat) := by
  rw [push, ← Int64.toInt_inj]
  simp only [toInt_ofIntClamp, toInt_cutOff_eq]
  omega

theorem foldl_push_cutOff (ds : Text) (m : Nat) : ds.foldl push (cutOff m) = cutOff (Nat.ofDigitChars 10 ds m) := by
  induction ds generalizing m with
  | nil => rfl
  | cons c ds ih => rw [List.foldl_cons, push_cutOff, ih, Nat.ofDigitChars_cons]

theorem accumulate_eq (ds : Text) : accumulate ds = cutOff (Nat.ofDigitChars 10 ds 0) :=
  foldl_push_cutOff ds 0

theorem cutOff_neg (v : Int) : cutOff (-v) = -cutOff v := by
  have hm : max (-(largest : Int)) (min (-v) largest) = -max (-(largest : Int)) (min v largest) := by omega
  rw [cutOff, cutOff, hm, Int64.ofInt_neg]

theorem read_eq_accumulate (w : Text) : read (some w) =
    if w.head? = some '-' then -accumulate (digits w) else accumulate (digits w) := by
  rw [read_some, value, accumulate_eq]
  split
  · exact cutOff_neg _
  · rfl

theorem cutOff_eq_ofIntClamp_iff (v : Int) : cutOff v = .ofIntClamp v ↔ -2 ^ 63 < v := by
  rw [← Int64.toInt_inj, toInt_cutOff_eq, toInt_ofIntClamp]
  omega

theorem natAbs_cutOff_sub_le (v : Int) {n : Int64} (h : n ≠ Int64.minValue) :
    ((cutOff v).toInt - v).natAbs ≤ (n.toInt - v).natAbs := by
  have hm : Int64.minValue.toInt = -2 ^ 63 := Int64.toInt_minValue
  have hn : n.toInt ≠ Int64.minValue.toInt := Int64.toInt_inj.not.mpr h
  have hge := n.le_toInt
  have hlt := n.toInt_lt
  rw [toInt_cutOff_eq]
  omega

theorem read_write_iff (n : Int64) : read (some (write n.toInt)) = n ↔ n ≠ Int64.minValue := by
  have hl : (largest : Int) = 2 ^ 63 - 1 := rfl
  have hm : Int64.minValue.toInt = -2 ^ 63 := Int64.toInt_minValue
  constructor
  · rintro h rfl
    exact absurd h (by decide)
  · intro h
    have hn : n.toInt ≠ Int64.minValue.toInt := Int64.toInt_inj.not.mpr h
    have hge := n.le_toInt
    exact read_write (by omega)

/-- Every word starts with one integer and is read as the number of 64 bits nearest to it, the least one
apart: digits are cut off at the largest before the sign counts. -/
theorem read_nearest (w : Text) (n : Int64) :
    (∃ v : Int, (∀ u, Starts w u ↔ u = v) ∧
      (-2 ^ 63 < v → v < 2 ^ 63 → (read (some w)).toInt = v) ∧
      (2 ^ 63 ≤ v → read (some w) = Int64.maxValue) ∧
      (v ≤ -2 ^ 63 → read (some w) = Int64.minValue + 1) ∧
      (n ≠ Int64.minValue → ((read (some w)).toInt - v).natAbs ≤ (n.toInt - v).natAbs) ∧
      (read (some w) = .ofIntClamp v ↔ -2 ^ 63 < v) ∧
      read (some w) = if w.head? = some '-' then -accumulate (digits w) else accumulate (digits w)) ∧
    (read (some (write n.toInt)) = n ↔ n ≠ Int64.minValue) := by
  have hl : (largest : Int) = 2 ^ 63 - 1 := rfl
  refine ⟨⟨value w, fun u => starts_iff, ?_, ?_, ?_, ?_, ?_, read_eq_accumulate w⟩, read_write_iff n⟩
  all_goals rw [read_some]
  · intro hlow hup
    exact toInt_cutOff (by omega) (by omega)
  · intro h
    exact cutOff_of_largest_le (by omega)
  · intro h
    exact cutOff_of_le_neg_largest (by omega)
  · exact natAbs_cutOff_sub_le _
  · exact cutOff_eq_ofIntClamp_iff _

theorem read_nearest_ends :
    (Starts "-0009223372036854775807px".toList (-9223372036854775807) ∧
        (read (some "-0009223372036854775807px".toList)).toInt = -9223372036854775807) ∧
      (Starts "+9223372036854775808".toList 9223372036854775808 ∧
        read (some "+9223372036854775808".toList) = Int64.maxValue) ∧
      Starts "-9223372036854775809".toList (-9223372036854775809) ∧
        read (some "-9223372036854775809".toList) = Int64.minValue + 1 ∧
        (Int64.minValue + 2 ≠ Int64.minValue ∧
          ((read (some "-9223372036854775809".toList)).toInt - -9223372036854775809).natAbs ≤
            ((Int64.minValue + 2).toInt - -9223372036854775809).natAbs) := by
  have hin : Starts "-0009223372036854775807px".toList (-9223372036854775807) :=
    @Starts.numeral "-0009223372036854775807".toList "px".toList _
      (@IsNumeral.minus "0009223372036854775807".toList (by decide) (by simp)) (by simp)
  have habove : Starts "+9223372036854775808".toList 9223372036854775808 :=
    @Starts.numeral "+9223372036854775808".toList [] _
      (@IsNumeral.plus "9223372036854775808".toList (by decide) (by simp)) (by simp)
  have hbelow : Starts "-9223372036854775809".toList (-9223372036854775809) :=
    @Starts.numeral "-9223372036854775809".toList [] _
      (@IsNumeral.minus "9223372036854775809".toList (by decide) (by simp)) (by simp)
  have hn : Int64.minValue + 2 ≠ Int64.minValue := by decide
  refine ⟨⟨hin, ?_⟩, ⟨habove, ?_⟩, hbelow, ?_⟩
  · obtain ⟨v, hv, hr, -⟩ := (read_nearest "-0009223372036854775807px".toList 0).1
    obtain rfl := (hv _).mp hin
    exact hr (by decide) (by decide)
  · obtain ⟨v, hv, -, hr, -⟩ := (read_nearest "+9223372036854775808".toList 0).1
    obtain rfl := (hv _).mp habove
    exact hr (by decide)
  · obtain ⟨v, hv, -, -, hr, hd, -⟩ :=
      (read_nearest "-9223372036854775809".toList (Int64.minValue + 2)).1
    obtain rfl := (hv _).mp hbelow
    exact ⟨hr (by decide), hn, hd hn⟩

/-- The least number has a numeral like the others, and is read as the one above it. -/
theorem read_least :
    Starts "-9223372036854775808".toList (-2 ^ 63) ∧ Int64.ofIntClamp (-2 ^ 63) = Int64.minValue ∧
      read (some "-9223372036854775808".toList) = Int64.minValue + 1 ∧
      read (some "-9223372036854775808".toList) ≠ .ofIntClamp (-2 ^ 63) := by
  refine ⟨?_, by decide, by decide, by decide⟩
  exact @Starts.numeral "-9223372036854775808".toList [] _
    (@IsNumeral.minus "9223372036854775808".toList (by decide) (by simp)) (by simp)

end ReceiptPrinter.Numeral
