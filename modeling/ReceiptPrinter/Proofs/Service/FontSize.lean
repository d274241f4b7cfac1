import ReceiptPrinter.Proofs.Service.Active
import ReceiptPrinter.Proofs.Style.FontSize

namespace ReceiptPrinter

open Json Number

/-- A scale in a token of an answer is a number, and the declarations beside it have the same one. -/
def Json.Value.SizeAgrees (v : Value) : Prop :=
  ∀ y, (v.member? Token.styleKey).bind (Value.member? Style.scaleKey) = some y →
    ∃ b c : Literal, y = .number b ∧
      ((v.member? "css".toList).bind Value.text?).bind Css.size? = some c ∧ c.Agrees b

namespace Service

theorem member?_tokens (paper : Paper) (p : Printout) :
    (found (parseValue paper p)).member? Printout.tokensKey = some (.array (p.tokens.map tokenValue)) := by
  rw [member?_found (isWritten_parseValue paper)]
  rfl

theorem member?_style (t : Token) : (tokenValue t).member? Token.styleKey = some t.style.toValue := by
  cases t <;> rfl

theorem sizeAgrees_tokenValue {t : Token} (h : t.style.IsSized) : (tokenValue t).SizeAgrees := by
  intro y hy
  rw [member?_style, Option.bind_some, Style.member?_scale, Option.map_eq_some_iff] at hy
  obtain ⟨x, hx, rfl⟩ := hy
  obtain ⟨n, rfl⟩ := h x hx
  have hf := Style.isFinite_scaleOf n
  have hs := Style.fontSize_of_scale hx
  have hc := Style.size?_css (s := t.style) (hs ▸ hf)
  refine ⟨_, _, if_pos hf, ?_, Style.plain_agrees_scaleOf n⟩
  rw [css?_tokenValue, Option.bind_some, hc, hs]

/-- The number of a font size stands for the scale in the declarations and in the text of a style, in
the one never with an exponent and in the other by magnitude. It is one and the same unless the scale
lies halfway between two shortest decimals of which the lower is even: then the declarations have the
upper one. No number of halves is such a scale, so the tokens of an answer have one number in both. -/
theorem css_size_agrees :
    (∀ (s : Style) (x : Single), s.scale = some x → x.isFinite = true →
      ∃ a b : Literal, Css.size? s.css = some a ∧ Style.scaleLiteral? s.json = some b ∧
        a.exponent = none ∧
        (b.exponent = none ↔
          x.code = 0 ∨ 10 ^ (-6 : Int) ≤ b.magnitude ∧ b.magnitude < 10 ^ (13 : Int)) ∧
        Single.nearest a.negative a.magnitude = x ∧ Single.nearest b.negative b.magnitude = x ∧
        (a.Agrees b ∨ ∃ (n : Nat) (e : Int), n % 2 = 0 ∧ 2 * x.magnitude = (2 * n + 1 : Nat) * 10 ^ e ∧
          b.magnitude = n * 10 ^ e ∧ a.magnitude = (n + 1 : Nat) * 10 ^ e) ∧
        ((∃ z : Nat, 2 * x.magnitude = z) → a.Agrees b)) ∧
    ∀ (initial : Paper) (before : List Request) (r : Request) (q : ParseRequest), r.method = .post →
      Resource.ofPath r.path = some .parse → Body.read ParseRequest.ofValue r = .ok q →
      ∃ a ∈ reply initial before r, a.status = 200 ∧
        ∃ vs, a.member? Printout.tokensKey = some (.array vs) ∧ ∀ v ∈ vs, v.SizeAgrees := by
  constructor
  · intro s x hs hf
    have hx := Style.fontSize_of_scale hs
    have ha := Style.size?_css (s := s) (hx ▸ hf)
    rw [hx] at ha
    refine ⟨_, _, ha, Style.scaleLiteral?_json hs hf, rfl, Literal.exponent_ofSingle_eq_none_iff x,
      Single.nearest_eq_of_code (Literal.nearest_plain hf), ?_, ?_, ?_⟩
    · rw [Literal.negative_ofSingle]
      exact Single.nearest_eq_of_code (Literal.nearest_ofSingle hf)
    · apply (Literal.plain_agrees_cases x).imp id
      rintro ⟨n, e, ht, hb, hu⟩
      exact ⟨n, e, ht.even, ht.halfway, hb, hu⟩
    · rintro ⟨z, hz⟩
      exact Literal.plain_agrees_of_half hz
  · intro initial before r q hm hp hb
    refine ⟨_, reply_post_parse initial before hm hp hb, rfl, _, member?_tokens _ _, ?_⟩
    rw [List.forall_mem_map]
    intro t ht
    exact sizeAgrees_tokenValue (Script.isSized_of_mem_tokens ht)

/-- The least negative number, and a size that a script sets. -/
theorem css_size_agrees_small :
    let s : Style := { scale := some ⟨true, 1, by decide⟩ }
    let r : Request := ⟨.post, "/api/parse".toList, some json,
      Utf8.encode "[\"[GS]!3\\nTea\"]".toList⟩
    (∃ b : Literal, Style.scaleLiteral? s.json = some b ∧ b.text = "-1e-45".toList ∧
      ∃ a : Literal, Css.size? s.css = some a ∧ a.text = "-0.".toList ++ List.replicate 44 '0' ++ ['1'] ∧
        Single.nearest a.negative a.magnitude = ⟨true, 1, by decide⟩) ∧
    ∃ a ∈ reply .mm80 [] r,
      ∃ vs, a.member? Printout.tokensKey = some (.array vs) ∧ ∀ v ∈ vs, v.SizeAgrees := by
  intro s r
  obtain ⟨hs, hr⟩ := css_size_agrees
  constructor
  · obtain ⟨a, b, ha, hb, -, -, hn, -⟩ := hs s _ rfl (by decide)
    have hca : (Css.size? s.css).map Literal.text =
        some ("-0.".toList ++ List.replicate 44 '0' ++ ['1']) := by decide +kernel
    have hcb : (Style.scaleLiteral? s.json).map Literal.text = some "-1e-45".toList := by decide +kernel
    rw [ha] at hca
    rw [hb] at hcb
    exact ⟨b, hb, Option.some.inj hcb, a, ha, Option.some.inj hca, hn⟩
  · obtain ⟨a, ha, -, hv⟩ := hr .mm80 [] r ⟨some "[GS]!3\nTea".toList, none⟩ rfl (by decide)
      (by decide +kernel)
    exact ⟨a, ha, hv⟩

/-- This scale, 1.00390625, is a tie. -/
theorem css_size_differs :
    let s : Style := { scale := some ⟨false, 0x3f808000, by decide⟩ }
    ∃ a b : Literal, Css.size? s.css = some a ∧ Style.scaleLiteral? s.json = some b ∧
      a.text = "1.0039063".toList ∧ b.text = "1.0039062".toList ∧ a.magnitude ≠ b.magnitude := by
  intro s
  refine ⟨⟨false, ['1'], "0039063".toList, none⟩, ⟨false, ['1'], "0039062".toList, none⟩, by decide +kernel,
    by decide +kernel, by decide, by decide, ?_⟩
  have hp : (10 : Rat) ^ (-7 : Int) ≠ 0 := by positivity
  intro h
  exact absurd (mul_right_cancel₀ hp h) (by decide)

end Service

end ReceiptPrinter
