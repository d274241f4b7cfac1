import ReceiptPrinter.Proofs.Json.Literals

namespace ReceiptPrinter

open Json Number

namespace Number.Decimal

variable (d : Decimal)

theorem value_parts : (Nat.ofDigitChars 10 (d.wholePart ++ d.fractionPart) 0 : Rat) *
    10 ^ (-(d.fractionPart.length : Int)) = d.value := by
  rw [d.ofDigitChars_parts, d.length_fractionPart, value]
  by_cases he : 0 ≤ d.exponent
  · have hz : (10 : Rat) ^ d.exponent = 10 ^ d.exponent.toNat := by
      rw [← zpow_natCast, Int.toNat_of_nonneg he]
    have hn : (-d.exponent).toNat = 0 := Int.toNat_of_nonpos (by omega)
    rw [hn, hz]
    push_cast
    rw [mul_one]
  · have hn : (((-d.exponent).toNat : Nat) : Int) = -d.exponent := Int.toNat_of_nonneg (by omega)
    have hz : d.exponent.toNat = 0 := Int.toNat_of_nonpos (by omega)
    rw [hn, hz, pow_zero, mul_one, neg_neg]

variable {d}

theorem le_digits (h : d.digits ≠ 0) : 10 ^ (d.figures.length - 1) ≤ d.digits := by
  by_contra hc
  have hl := d.length_figures_pos
  obtain h1 | h1 : d.figures.length - 1 = 0 ∨ 0 < d.figures.length - 1 := by omega
  · rw [h1] at hc
    omega
  · have hn : d.figures.length ≤ d.figures.length - 1 :=
      (Nat.length_toDigits_le_iff (by decide) h1).mpr (not_le.mp hc)
    omega

theorem point_le_iff (h : d.digits ≠ 0) {p : Int} : d.point ≤ p ↔ d.value < 10 ^ p := by
  have hl := d.length_figures_pos
  have hpt := d.point_eq
  have he : (0 : Rat) < 10 ^ d.exponent := by positivity
  constructor
  · intro hp
    have hd : (d.digits : Rat) < 10 ^ (d.figures.length : Int) := by
      rw [zpow_natCast]
      exact_mod_cast d.digits_lt
    calc d.value < 10 ^ (d.figures.length : Int) * 10 ^ d.exponent := mul_lt_mul_of_pos_right hd he
      _ = 10 ^ d.point := by rw [hpt, zpow_add₀ (by norm_num)]
      _ ≤ 10 ^ p := zpow_le_zpow_right₀ (by norm_num) hp
  · intro hv
    have hd : (10 : Rat) ^ (d.figures.length - 1) ≤ d.digits := by exact_mod_cast le_digits h
    have hlow : (10 : Rat) ^ (d.point - 1) ≤ d.value := by
      calc (10 : Rat) ^ (d.point - 1) = 10 ^ (d.figures.length - 1) * 10 ^ d.exponent := by
            rw [← zpow_natCast, ← zpow_add₀ (by norm_num)]
            congr 1
            omega
        _ ≤ d.value := mul_le_mul_of_nonneg_right hd he.le
    have hlt := (zpow_lt_zpow_iff_right₀ (by norm_num : (1 : Rat) < 10)).mp (hlow.trans_lt hv)
    omega

variable (d)

theorem plain_eq : d.plain = d.wholePart ++ Lexeme.fractionText d.fractionPart := by
  rw [plain, Lexeme.fractionText]
  split
  · exact (List.append_nil _).symm
  · rfl

end Number.Decimal

namespace Json.Literal

def plain (x : Single) : Literal :=
  ⟨x.negative, (x.shortest .up).wholePart, (x.shortest .up).fractionPart, none⟩

variable {x : Single}

theorem text_plain (h : x.isFinite = true) : (plain x).text = x.plainText := by
  rw [Single.plainText, if_pos h, text_eq, textWith, Decimal.plain_eq]
  apply congrArg
  exact congrArg (_ ++ ·) (List.append_nil _)

variable (x)

theorem isWritten_plain : (plain x).IsWritten where
  whole_ne_nil := (x.shortest .up).wholePart_ne_nil
  isDigit_whole := fun _ => (x.shortest .up).isDigit_of_mem_wholePart
  whole_eq_or := by
    by_cases h0 : x.code = 0
    · left
      rw [plain, Single.shortest_of_zero _ h0]
      rfl
    · exact (x.shortest .up).wholePart_eq_or_head?_ne (Single.digits_shortest_pos .up h0).ne'
  isDigit_fraction := fun _ => (x.shortest .up).isDigit_of_mem_fractionPart

theorem magnitude_plain : (plain x).magnitude = (x.shortest .up).value := by
  have hp : (plain x).power = -((x.shortest .up).fractionPart.length : Int) := zero_sub _
  rw [magnitude, hp]
  exact (x.shortest .up).value_parts

def whole? (t : Text) : Option Literal :=
  match Lexeme.scanNumber t with
  | some (l, n) => if n = t.length then some l else none
  | none => none

theorem IsWritten.whole?_text {l : Literal} (h : l.IsWritten) : whole? l.text = some l := by
  have hs := h.scanNumber_text Lexeme.stops_nil
  rw [List.append_nil] at hs
  rw [whole?, hs]
  exact if_pos rfl

end Json.Literal

namespace Number.Single

/-- The number whose plain text it is. What is no literal counts as infinity. -/
def ofPlain (t : Text) : Single :=
  match Literal.whole? t with
  | some l => nearest l.negative l.magnitude
  | none => ⟨t.head? = some '-', Binary.single.infinity, le_rfl⟩

theorem plainText_of_not_isFinite {x : Single} (h : x.isFinite = false) :
    x.plainText = if x.negative then ['-', 'i', 'n', 'f'] else ['i', 'n', 'f'] := by
  rw [plainText, h]
  cases x.negative <;> rfl

theorem code_of_not_isFinite {x : Single} (h : x.isFinite = false) : x.code = Binary.single.infinity :=
  le_antisymm x.code_le (not_lt.mp (of_decide_eq_false h))

theorem ofPlain_plainText (x : Single) : ofPlain x.plainText = x := by
  cases h : x.isFinite with
  | true =>
    rw [← Literal.text_plain h, ofPlain, (Literal.isWritten_plain x).whole?_text]
    apply nearest_eq_of_code
    rw [Literal.magnitude_plain]
    exact nearest_value_shortest .up h
  | false =>
    have hc := code_of_not_isFinite h
    rw [plainText_of_not_isFinite h]
    obtain ⟨negative, code, hle⟩ := x
    change code = Binary.single.infinity at hc
    subst hc
    cases negative <;> rfl

/-- No two numbers, zeros and infinities of either sign included, have one plain text. -/
theorem plainText_injective : Function.Injective plainText :=
  Function.LeftInverse.injective ofPlain_plainText

theorem mem_plainText {x : Single} {c : Char} (h : c ∈ x.plainText) :
    c.isDigit = true ∨ c ∈ ['-', '.', 'i', 'n', 'f'] := by
  rw [plainText] at h
  obtain h | h := List.mem_append.mp h
  · right
    split at h
    · obtain rfl := List.mem_singleton.mp h
      exact List.mem_cons_self
    · cases h
  · split at h
    · rw [Decimal.plain_eq, Lexeme.fractionText] at h
      obtain h | h := List.mem_append.mp h
      · exact Or.inl (Decimal.isDigit_of_mem_wholePart _ h)
      · split at h
        · cases h
        · obtain rfl | h := List.mem_cons.mp h
          · exact Or.inr (by decide)
          · exact Or.inl (Decimal.isDigit_of_mem_fractionPart _ h)
    · exact Or.inr (List.mem_cons_of_mem _ (List.mem_cons_of_mem _ h))

end Number.Single

end ReceiptPrinter
