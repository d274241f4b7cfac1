import ReceiptPrinter.Proofs.Number.Ties
import ReceiptPrinter.Proofs.Printout.Rereading
import ReceiptPrinter.Proofs.Service.Reading
import ReceiptPrinter.Proofs.Style.Declarations
import ReceiptPrinter.Proofs.Style.Scale

namespace ReceiptPrinter

open Json Number

def Css.size? (t : Text) : Option Literal :=
  ((value? "font-size".toList t).bind fun v => v.dropSuffix? "em".toList).bind Literal.whole?

namespace Json

def Value.number? : Value → Option Literal
  | .number l => some l
  | _ => none

namespace Literal

/-- The literals stand for one number, with one sign even if it is zero. -/
structure Agrees (a b : Literal) : Prop where
  negative : a.negative = b.negative
  magnitude : a.magnitude = b.magnitude

theorem negative_ofSingle (x : Single) : (ofSingle x).negative = x.negative := by
  rw [ofSingle]
  split <;> rfl

theorem exponent_ofSingle_eq_none_iff (x : Single) : (ofSingle x).exponent = none ↔
    x.code = 0 ∨ 10 ^ (-6 : Int) ≤ (ofSingle x).magnitude ∧ (ofSingle x).magnitude < 10 ^ (13 : Int) := by
  by_cases h0 : x.code = 0
  · rw [ofSingle_of_zero x h0]
    exact iff_of_true rfl (Or.inl h0)
  · have hd := (Single.digits_shortest_pos .even h0).ne'
    rw [magnitude_ofSingle, ← not_lt, ← Decimal.point_le_iff hd, ← Decimal.point_le_iff hd, ofSingle, not_le]
    split
    · next h => exact iff_of_true rfl (Or.inr h)
    · next h => exact iff_of_false (Option.some_ne_none _) fun hc => hc.elim h0 h

theorem plain_agrees_cases (x : Single) : (plain x).Agrees (ofSingle x) ∨
    ∃ n e, IsTie (Binary.single.basin x.code) x.magnitude n e ∧
      (ofSingle x).magnitude = n * 10 ^ e ∧ (plain x).magnitude = (n + 1 : Nat) * 10 ^ e := by
  obtain h | ⟨n, e, ht, hn, hs⟩ := x.shortest_up_cases
  · left
    refine ⟨(negative_ofSingle x).symm, ?_⟩
    rw [magnitude_plain, magnitude_ofSingle, h]
  · right
    refine ⟨n, e, ht, ?_, ?_⟩
    · rw [magnitude_ofSingle, hn, Decimal.value]
    · rw [magnitude_plain, hs, Decimal.value]

theorem plain_agrees_of_half {x : Single} {z : Nat} (hz : 2 * x.magnitude = z) :
    (plain x).Agrees (ofSingle x) := by
  obtain h | ⟨n, e, ht, -⟩ := plain_agrees_cases x
  · exact h
  · exact absurd hz (ht.two_mul_ne z)

theorem nearest_plain {x : Single} (hf : x.isFinite = true) :
    Binary.single.nearest (plain x).magnitude = x.code := by
  rw [magnitude_plain]
  exact Single.nearest_value_shortest .up hf

theorem nearest_ofSingle {x : Single} (hf : x.isFinite = true) :
    Binary.single.nearest (ofSingle x).magnitude = x.code := by
  rw [magnitude_ofSingle]
  exact Single.nearest_value_shortest .even hf

end Literal

end Json

theorem Number.Single.IsMultiple.exists_half {x : Single} {c : Nat} (h : x.IsMultiple (-1) c) :
    ∃ z : Nat, 2 * x.magnitude = z := by
  obtain ⟨z, hz⟩ := h.exists_eq
  refine ⟨z.natAbs, ?_⟩
  rw [← x.abs_value, hz, abs_mul, zpow_neg_one, abs_of_pos (by norm_num : (0 : Rat) < 2⁻¹), Nat.cast_natAbs,
    Int.cast_abs, mul_comm, mul_assoc, inv_mul_cancel₀ (by norm_num), mul_one]

namespace Style

def scaleLiteral? (t : Text) : Option Literal :=
  ((Value.whole? t).bind fun v => v.member? scaleKey).bind Value.number?

variable {s : Style} {x : Single}

theorem fontSize_of_scale (h : s.scale = some x) : s.fontSize = x := by
  rw [fontSize, h]

theorem size?_css (hf : s.fontSize.isFinite = true) : Css.size? s.css = some (.plain s.fontSize) := by
  have hd : (s.fontSize.plainText ++ "em".toList).dropSuffix? "em".toList = some s.fontSize.plainText :=
    List.dropSuffix?_eq_some_iff.mpr ⟨_, rfl, beq_self_eq_true _⟩
  rw [Css.size?, size_css, Option.bind_some, hd, Option.bind_some, ← Literal.text_plain hf]
  exact (Literal.isWritten_plain _).whole?_text

theorem member?_scale (s : Style) : s.toValue.member? scaleKey = s.scale.map scaleValue := by
  obtain ⟨bold, size, width, alignment, underline, strike, rotated, emphasis, scale⟩ := s
  cases scale <;> rfl

theorem scaleLiteral?_json (h : s.scale = some x) (hf : x.isFinite = true) :
    scaleLiteral? s.json = some (.ofSingle x) := by
  have hw := s.isWritten_toValue
  rw [scaleLiteral?, json, hw.whole?_of_read hw.read_compact, Option.bind_some, member?_scale, h,
    Option.map_some, scaleValue, if_pos hf]
  rfl

theorem plain_agrees_scaleOf (n : Int64) : (Literal.plain (scaleOf n)).Agrees (.ofSingle (scaleOf n)) := by
  obtain ⟨z, hz⟩ := (isMultiple_scaleOf n).exists_half
  exact Literal.plain_agrees_of_half hz

end Style

end ReceiptPrinter
