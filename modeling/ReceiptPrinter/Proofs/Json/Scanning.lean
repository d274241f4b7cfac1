import Mathlib.Data.List.TakeWhile
import ReceiptPrinter.Json.Writer
import ReceiptPrinter.Proofs.Number.Figures
import ReceiptPrinter.Proofs.Text.Escapes

namespace ReceiptPrinter.Json

namespace Lexeme

section Strings

def CodeUnit.Writes (u : CodeUnit) (c : Char) : Prop :=
  ∀ done rest, joinUnits done (u :: rest) = joinUnits (c :: done) rest

theorem writes_char (c : Char) : (CodeUnit.char c).Writes c := fun _ _ => rfl

theorem not_surrogate (c : Char) : isLowSurrogate c.toNat = false ∧ isHighSurrogate c.toNat = false := by
  have hc : c.toNat < 0xd800 ∨ 0xdfff < c.toNat ∧ c.toNat < 0x110000 := c.valid
  simp only [isLowSurrogate, isHighSurrogate, Bool.and_eq_false_iff, decide_eq_false_iff_not]
  omega

theorem writes_unit (c : Char) : (CodeUnit.unit c.toNat).Writes c := by
  intro done rest
  obtain ⟨hl, hh⟩ := not_surrogate c
  rw [joinUnits.eq_def]
  dsimp only
  rw [hl, hh, if_neg Bool.false_ne_true, if_neg Bool.false_ne_true, Char.ofNat_toNat]

/-- The text is scanned as one unit, which stands for the character. -/
def Scans (t : Text) (c : Char) : Prop := ∃ u : CodeUnit, u.Writes c ∧ ∀ done count rest,
  scanUnits done count (t ++ rest) = scanUnits (u :: done) (count + t.length) rest

theorem scans_short {e c : Char} (hu : e ≠ 'u') (hs : shortEscape e = some c) :
    Scans ['\\', e] c := by
  refine ⟨.char c, writes_char c, fun done count rest => ?_⟩
  rw [List.cons_append, List.cons_append, scanUnits.eq_4 _ _ _ _ fun _ _ _ _ _ h _ => hu h, hs]
  rfl

theorem scanUnits_unit {n : Nat} {t : Text} (ht : Hex.IsSpelling 4 n t) (hn : n < 0x10000)
    (done : List CodeUnit) (count : Nat) (rest : Text) :
    scanUnits done count ('\\' :: 'u' :: (t ++ rest)) = scanUnits (.unit n :: done) (count + 6) rest := by
  have h := Hex.number?_of_isSpelling ht hn
  obtain ⟨a, t₁, -, h₁, rfl⟩ := List.forall₂_cons_right_iff.mp ht
  obtain ⟨b, t₂, -, h₂, rfl⟩ := List.forall₂_cons_right_iff.mp h₁
  obtain ⟨c, t₃, -, h₃, rfl⟩ := List.forall₂_cons_right_iff.mp h₂
  obtain ⟨d, t₄, -, h₄, rfl⟩ := List.forall₂_cons_right_iff.mp h₃
  obtain rfl : t₄ = [] := List.forall₂_nil_right_iff.mp h₄
  simp only [List.cons_append, List.nil_append]
  rw [scanUnits, h]

theorem scans_unit {c : Char} {t : Text} (hc : c.toNat < 0x10000) (ht : Hex.IsSpelling 4 c.toNat t) :
    Scans ('\\' :: 'u' :: t) c := by
  refine ⟨.unit c.toNat, writes_unit c, fun done count rest => ?_⟩
  have hl : ('\\' :: 'u' :: t).length = 6 := congrArg (· + 2) ht.length_eq
  rw [List.cons_append, List.cons_append, scanUnits_unit ht hc, hl]

theorem scans_plain {c : Char} (hq : c ≠ '"') (hb : c ≠ '\\') (hc : ¬ c < ' ') : Scans [c] c := by
  refine ⟨.char c, writes_char c, fun done count rest => ?_⟩
  rw [List.cons_append, scanUnits.eq_5 _ _ _ _ hq (fun _ _ _ _ _ h _ => hb h) fun _ _ h _ => hb h,
    if_neg hc]
  rfl

/-- The text is scanned as units, one or more, which together stand for the character. -/
def Yields (c : Char) (t : Text) : Prop := ∃ us : List CodeUnit,
  (∀ done rest, joinUnits done (us ++ rest) = joinUnits (c :: done) rest) ∧ ∀ done count rest,
    scanUnits done count (t ++ rest) = scanUnits (us.reverse ++ done) (count + t.length) rest

theorem Scans.yields {t : Text} {c : Char} (h : Scans t c) : Yields c t := by
  obtain ⟨u, hu, hs⟩ := h
  exact ⟨[u], hu, hs⟩

theorem lt_of_pair {c : Char} {m n : Nat} (hc : c.toNat = 0x10000 + m * 0x400 + n) : m < 0x400 := by
  have hv : c.toNat < 0xd800 ∨ 0xdfff < c.toNat ∧ c.toNat < 0x110000 := c.valid
  omega

theorem joinUnits_pair {c : Char} {m n : Nat} (hc : c.toNat = 0x10000 + m * 0x400 + n) (hn : n < 0x400)
    (done : Text) (rest : List CodeUnit) :
    joinUnits done (.unit (0xd800 + m) :: .unit (0xdc00 + n) :: rest) = joinUnits (c :: done) rest := by
  have hm := lt_of_pair hc
  have hl : isLowSurrogate (0xd800 + m) = false := by
    simp [isLowSurrogate]
    omega
  have hh : isHighSurrogate (0xd800 + m) = true := by
    simp [isHighSurrogate]
    omega
  have hu : isLowSurrogate (0xdc00 + n) = true := by
    simp [isLowSurrogate]
    omega
  rw [joinUnits.eq_def]
  simp only [hl, hh, hu, if_pos, if_neg Bool.false_ne_true, Nat.add_sub_cancel_left, ← hc, Char.ofNat_toNat]

theorem yields_pair {c : Char} {m n : Nat} {t u : Text} (hc : c.toNat = 0x10000 + m * 0x400 + n)
    (hn : n < 0x400) (ht : Hex.IsSpelling 4 (0xd800 + m) t) (hu : Hex.IsSpelling 4 (0xdc00 + n) u) :
    Yields c ('\\' :: 'u' :: (t ++ '\\' :: 'u' :: u)) := by
  have hm := lt_of_pair hc
  have hl : ('\\' :: 'u' :: (t ++ '\\' :: 'u' :: u)).length = 12 := by
    simp [ht.length_eq, hu.length_eq, Hex.digits]
  refine ⟨[.unit (0xd800 + m), .unit (0xdc00 + n)], fun done rest => joinUnits_pair hc hn done rest,
    fun done count rest => ?_⟩
  rw [List.cons_append, List.cons_append, List.append_assoc, scanUnits_unit ht (by omega), List.cons_append,
    List.cons_append, scanUnits_unit hu (by omega), hl]
  rfl

theorem scanUnits_flatten {s : Text} {parts : List Text} (h : List.Forall₂ Yields s parts) (rest : Text)
    (done : List CodeUnit) (count : Nat) :
    ∃ us : List CodeUnit, scanUnits done count (parts.flatten ++ '"' :: rest) =
        some (done.reverse ++ us, count + parts.flatten.length + 1) ∧
      ∀ acc, joinUnits acc us = some (acc.reverse ++ s) := by
  induction h generalizing done count with
  | nil => exact ⟨[], by rw [List.append_nil]; rfl, fun acc => by rw [List.append_nil]; rfl⟩
  | @cons c t s parts hc _ ih =>
    obtain ⟨vs, hv, hs⟩ := hc
    obtain ⟨us, hus, hj⟩ := ih (vs.reverse ++ done) (count + t.length)
    refine ⟨vs ++ us, ?_, fun acc => ?_⟩
    · rw [List.flatten_cons, List.append_assoc, hs, hus, List.length_append, List.reverse_append,
        List.reverse_reverse, List.append_assoc, Nat.add_assoc count]
    · rw [hv, hj, List.reverse_cons, List.append_assoc]
      rfl

theorem scanString_flatten {s : Text} {parts : List Text} (h : List.Forall₂ Yields s parts) (rest : Text) :
    scanString (parts.flatten ++ '"' :: rest) =
      some (.string (some s), parts.flatten.length + 1) := by
  obtain ⟨us, hus, hj⟩ := scanUnits_flatten h rest [] 0
  rw [scanString, hus, Option.map_some, List.reverse_nil, List.nil_append]
  dsimp only
  rw [hj, Nat.zero_add]
  rfl

end Strings

section Numbers

def endsNumber (c : Char) : Bool := !(c.isDigit || c == '.' || c == 'e' || c == 'E')

def Stops (t : Text) : Prop := ∀ c ∈ t.head?, endsNumber c = true

theorem stops_cons {c : Char} (h : endsNumber c = true) (t : Text) : Stops (c :: t) := by
  intro d hd
  rw [List.head?_cons, Option.mem_some_iff] at hd
  exact hd ▸ h

theorem stops_nil : Stops [] := fun _ h => nomatch h

theorem digits_append {ds t : Text} (hd : ∀ c ∈ ds, c.isDigit = true)
    (ht : ∀ c ∈ t.head?, c.isDigit = false) : digits (ds ++ t) = ds := by
  rw [digits, List.takeWhile_append_of_pos hd]
  cases t with
  | nil => rw [List.takeWhile_nil, List.append_nil]
  | cons c t =>
    have hc : c.isDigit = false := ht c (List.head?_cons ▸ rfl)
    rw [List.takeWhile_cons_of_neg (by rw [hc]; decide), List.append_nil]

theorem isDigit_of_stops {t : Text} (h : Stops t) : ∀ c ∈ t.head?, c.isDigit = false := by
  intro c hc
  have he := h c hc
  rw [endsNumber] at he
  cases hd : c.isDigit with
  | false => rfl
  | true => rw [hd] at he; cases he

def fractionText (t : Text) : Text := if t.isEmpty then [] else '.' :: t

theorem scanFraction_append {ds t : Text} (hd : ∀ c ∈ ds, c.isDigit = true)
    (ht : ∀ c ∈ t.head?, c.isDigit = false ∧ c ≠ '.') :
    scanFraction (fractionText ds ++ t) = some (ds, (fractionText ds).length) := by
  cases ds with
  | nil =>
    have hp : ∀ r, t ≠ '.' :: r := by
      rintro r rfl
      exact (ht '.' rfl).2 rfl
    exact scanFraction.eq_2 t hp
  | cons d ds =>
    have h := digits_append hd fun c hc => (ht c hc).1
    have hf : fractionText (d :: ds) = '.' :: d :: ds := rfl
    rw [hf, List.cons_append, scanFraction, h]
    rfl

def exponentPart (e : Option Int) : Text := (e.map Literal.exponentText).getD []

/-- An exponent is written with either letter, with or without a sign, and with any digits that give it. -/
inductive IsExponent : Option Int → Text → Prop where
  | absent : IsExponent none []
  | present {c : Char} {sign ds : Text} (hc : c = 'e' ∨ c = 'E')
      (hs : sign = [] ∨ sign = ['+'] ∨ sign = ['-']) (hne : ds ≠ []) (hd : ∀ d ∈ ds, d.isDigit = true) :
    IsExponent (some (if sign = ['-'] then -(Nat.ofDigitChars 10 ds 0 : Int) else Nat.ofDigitChars 10 ds 0))
      (c :: (sign ++ ds))

theorem isExponent_exponentPart (e : Option Int) : IsExponent e (exponentPart e) := by
  cases e with
  | none => exact .absent
  | some e =>
    have hd : ∀ d ∈ Text.numeral e.natAbs, d.isDigit = true := fun _ => Text.isDigit_of_mem_numeral
    have hne := Text.numeral_ne_nil e.natAbs
    have hp : exponentPart (some e) =
      'e' :: (if e < 0 then '-' else '+') :: Text.numeral e.natAbs := rfl
    rw [hp]
    by_cases he : e < 0
    · have h := IsExponent.present (Or.inl rfl) (Or.inr (Or.inr rfl)) hne hd
      rw [if_pos rfl, Text.ofDigitChars_numeral, Int.ofNat_natAbs_of_nonpos he.le, Int.neg_neg] at h
      rw [if_pos he]
      exact h
    · have h := IsExponent.present (Or.inl rfl) (Or.inr (Or.inl rfl)) hne hd
      rw [if_neg (by decide), Text.ofDigitChars_numeral, Int.natAbs_of_nonneg (not_lt.mp he)] at h
      rw [if_neg he]
      exact h

theorem scanExponent_of_stops {t : Text} (ht : Stops t) : scanExponent t = some (none, 0) := by
  cases t with
  | nil => rfl
  | cons c t =>
    have hc := ht c rfl
    have hn : (c == 'e' || c == 'E') = false := by
      unfold endsNumber at hc
      cases h1 : c == 'e' <;> cases h2 : c == 'E' <;> simp_all
    rw [scanExponent, hn, if_neg Bool.false_ne_true]

theorem scanExponent_append {e : Option Int} {x : Text} (h : IsExponent e x) {t : Text} (ht : Stops t) :
    scanExponent (x ++ t) = some (e, x.length) := by
  cases h with
  | absent => exact scanExponent_of_stops ht
  | @present c sign ds hc hs hne hd =>
    have hds := digits_append hd (isDigit_of_stops ht)
    have hce : (c == 'e' || c == 'E') = true := by
      obtain rfl | rfl := hc <;> rfl
    obtain ⟨d, us, rfl⟩ := List.exists_cons_of_ne_nil hne
    have hd := hd d List.mem_cons_self
    have hsign : d ≠ '+' ∧ d ≠ '-' := by
      constructor <;> rintro rfl <;> cases hd
    rw [List.cons_append] at hds
    rw [List.cons_append, scanExponent, hce, if_pos rfl]
    obtain rfl | rfl | rfl := hs <;> simp [hds, hsign]

theorem head?_exponent {e : Option Int} {x : Text} (h : IsExponent e x) {t : Text} (ht : Stops t) :
    ∀ c ∈ (x ++ t).head?, c.isDigit = false ∧ c ≠ '.' := by
  intro c hc
  cases h with
  | absent =>
    refine ⟨isDigit_of_stops ht c hc, ?_⟩
    rintro rfl
    exact absurd (ht '.' hc) (by decide)
  | @present d sign ds hd _ _ _ =>
    obtain rfl : d = c := Option.some.inj hc
    obtain rfl | rfl := hd <;> decide

theorem head?_fractionText (ds : Text) {t : Text}
    (ht : ∀ c ∈ t.head?, c.isDigit = false ∧ c ≠ '.') :
    ∀ c ∈ (fractionText ds ++ t).head?, c.isDigit = false := by
  intro c hc
  cases ds with
  | nil => exact (ht c hc).1
  | cons d ds =>
    obtain rfl : '.' = c := Option.some.inj hc
    decide

end Numbers

end Lexeme

namespace Literal

/-- The literal has a text: digits without a superfluous zero in front. -/
structure IsWritten (l : Literal) : Prop where
  whole_ne_nil : l.whole ≠ []
  isDigit_whole : ∀ c ∈ l.whole, c.isDigit = true
  whole_eq_or : l.whole = ['0'] ∨ l.whole.head? ≠ some '0'
  isDigit_fraction : ∀ c ∈ l.fraction, c.isDigit = true

open Lexeme

def textWith (l : Literal) (x : Text) : Text :=
  (if l.negative then ['-'] else []) ++ (l.whole ++ (fractionText l.fraction ++ x))

theorem text_eq (l : Literal) : l.text = l.textWith (exponentPart l.exponent) := by
  rw [text, textWith, List.append_assoc, List.append_assoc]
  rfl

theorem head?_textWith (l : Literal) {c : Char} (hc : l.whole.head? = some c) (x rest : Text) :
    (l.textWith x ++ rest).head? = some (if l.negative then '-' else c) := by
  obtain ⟨ds, hds⟩ := List.head?_eq_some_iff.mp hc
  rw [textWith, hds]
  cases l.negative <;> rfl

theorem IsWritten.exists_head? {l : Literal} (h : l.IsWritten) :
    ∃ c, l.whole.head? = some c ∧ c.isDigit = true := by
  obtain ⟨c, ds, hds⟩ := List.exists_cons_of_ne_nil h.whole_ne_nil
  refine ⟨c, by rw [hds]; rfl, h.isDigit_whole c ?_⟩
  rw [hds]
  exact List.mem_cons_self

theorem IsWritten.scanNumber_textWith {l : Literal} (h : l.IsWritten) {x : Text}
    (hexp : IsExponent l.exponent x) {rest : Text} (hr : Stops rest) :
    scanNumber (l.textWith x ++ rest) = some (l, (l.textWith x).length) := by
  have he := head?_exponent hexp hr
  have hw := digits_append h.isDigit_whole (head?_fractionText l.fraction he)
  have hf := scanFraction_append h.isDigit_fraction he
  have hx := scanExponent_append hexp hr
  have hz : (l.whole.isEmpty || l.whole.head? == some '0' && decide (1 < l.whole.length)) = false := by
    rw [List.isEmpty_eq_false_iff.mpr h.whole_ne_nil, Bool.false_or, Bool.and_eq_false_iff,
      beq_eq_false_iff_ne, decide_eq_false_iff_not]
    apply h.whole_eq_or.symm.imp id
    intro hone
    rw [hone]
    decide
  have hn : (l.textWith x ++ rest).head? = some '-' ↔ l.negative = true := by
    obtain ⟨c, hc, hd⟩ := h.exists_head?
    have hne : c ≠ '-' := by
      rintro rfl
      cases hd
    rw [l.head?_textWith hc]
    cases l.negative with
    | true => exact iff_of_true rfl rfl
    | false => exact iff_of_false (fun h => hne (Option.some.inj h)) Bool.false_ne_true
  have ht : (if l.negative then (l.textWith x ++ rest).tail else l.textWith x ++ rest) =
      l.whole ++ (fractionText l.fraction ++ (x ++ rest)) := by
    rw [textWith]
    cases l.negative <;> simp
  have hl : (l.textWith x).length = l.whole.length + (fractionText l.fraction).length +
      x.length + if l.negative then 1 else 0 := by
    rw [textWith]
    cases l.negative <;> simp <;> omega
  simp only [scanNumber, hn, Bool.decide_eq_true, ht, hw, hz, if_neg Bool.false_ne_true, List.drop_left,
    hf, hx, Option.bind_some, Option.map_some, hl]

theorem IsWritten.scanNumber_text {l : Literal} (h : l.IsWritten) {rest : Text} (hr : Stops rest) :
    scanNumber (l.text ++ rest) = some (l, l.text.length) := by
  rw [text_eq]
  exact h.scanNumber_textWith (isExponent_exponentPart l.exponent) hr

end Literal

end ReceiptPrinter.Json
