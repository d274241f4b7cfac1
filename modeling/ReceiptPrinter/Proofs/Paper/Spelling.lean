import ReceiptPrinter.Paper
import ReceiptPrinter.Proofs.Script.Grammar
import ReceiptPrinter.Proofs.Script.Numeral

namespace ReceiptPrinter

namespace Text

theorem trimStart_append {front : Text} (h : front.isBlank = true) {t : Text}
    (ht : ∀ c ∈ t.head?, isSpace c = false) : trimStart (front ++ t) = t := by
  rw [trimStart, List.dropWhile_append_of_pos (isSpace_of_mem h)]
  cases t with
  | nil => rfl
  | cons c t => exact List.dropWhile_cons_of_neg (by rw [ht c rfl]; decide)

theorem trimEnd_append {back : Text} (h : back.isBlank = true) {t : Text}
    (ht : ∀ c ∈ t.getLast?, isSpace c = false) : trimEnd (t ++ back) = t := by
  have hb : isBlank back.reverse = true := List.all_reverse.trans h
  have hs : trimStart (back.reverse ++ t.reverse) = t.reverse :=
    trimStart_append hb (by rwa [List.head?_reverse])
  rw [trimStart] at hs
  rw [trimEnd, List.reverse_append, hs, List.reverse_reverse]

theorem exists_trimStart (t : Text) : ∃ front : Text, front.isBlank = true ∧ t = front ++ trimStart t :=
  ⟨t.takeWhile isSpace, List.all_takeWhile, List.takeWhile_append_dropWhile.symm⟩

theorem exists_trimEnd (t : Text) : ∃ back : Text, back.isBlank = true ∧ t = trimEnd t ++ back := by
  obtain ⟨front, hf, ht⟩ := exists_trimStart t.reverse
  refine ⟨front.reverse, List.all_reverse.trans hf, ?_⟩
  have hr := congrArg List.reverse ht
  rw [List.reverse_reverse, List.reverse_append] at hr
  exact hr

theorem IsWord.trim_eq_iff {w : Text} (hw : w.IsWord) (t : Text) : trim t = w ↔
    ∃ front back : Text, front.isBlank = true ∧ back.isBlank = true ∧ t = front ++ w ++ back := by
  constructor
  · rintro rfl
    obtain ⟨front, hf, hs⟩ := exists_trimStart t
    obtain ⟨back, hb, he⟩ := exists_trimEnd (trimStart t)
    exact ⟨front, back, hf, hb, by rw [trim, List.append_assoc, ← he, ← hs]⟩
  · rintro ⟨front, back, hf, hb, rfl⟩
    have hh : ∀ c ∈ (w ++ back).head?, isSpace c = false := by
      rw [List.head?_append_of_ne_nil _ hw.ne_nil]
      exact fun c hc => hw.isSpace_eq_false c (List.mem_of_head? hc)
    rw [trim, List.append_assoc, trimStart_append hf hh]
    exact trimEnd_append hb fun c hc => hw.isSpace_eq_false c (List.mem_of_getLast? hc)

theorem toLower_eq_digit_iff {c d : Char} (hd : d.isDigit = true) : c.toLower = d ↔ c = d := by
  have hr := Numeral.toNat_of_isDigit hd
  simp only [← Char.toNat_inj, toNat_toLower]
  split <;> omega

theorem lowerAscii_eq_digits_iff {ds w : Text} (hd : ∀ d ∈ ds, d.isDigit = true) :
    lowerAscii w = ds ↔ w = ds := by
  induction ds generalizing w with
  | nil => exact List.map_eq_nil_iff
  | cons d ds ih =>
    rw [List.forall_mem_cons] at hd
    cases w with
    | nil => simp [lowerAscii]
    | cons c w =>
      have hw := ih (w := w) hd.2
      rw [lowerAscii] at hw ⊢
      simp [toLower_eq_digit_iff hd.1, hw]

/-- The part of a text in small letters that comes of one character. As far as ASCII goes it is as the
Unicode standard has it: no other character has a small letter there, but the sign for kelvin. -/
structure Lowers (c : Char) (part : Text) : Prop where
  of_ascii : c.toNat < 0x80 → part = [c.toLower]
  of_not_ascii : 0x80 ≤ c.toNat → part = ['k'] ∨ ∃ d ∈ part, 0x80 ≤ d.toNat

def IsLowering (lower : Text → Text) : Prop :=
  ∀ t, ∃ parts, List.Forall₂ Lowers t parts ∧ lower t = parts.flatten

theorem isLowering_flatMap {f : Char → Text} (h : ∀ c, Lowers c (f c)) : IsLowering (List.flatMap f) := by
  intro t
  refine ⟨t.map f, List.forall₂_map_right_iff.mpr (List.forall₂_same.mpr fun c _ => h c), ?_⟩
  exact List.flatMap_def

/-- Lowers the letters of ASCII, and the two others with ASCII in their small letters. -/
def lowerChar (c : Char) : Text :=
  if c = '\u212a' then ['k'] else if c = '\u0130' then ['i', '\u0307'] else [c.toLower]

theorem lowers_lowerChar (c : Char) : Lowers c (lowerChar c) := by
  rw [lowerChar]
  split_ifs with hk hi
  · subst hk
    exact ⟨fun h => absurd h (by decide), fun _ => Or.inl rfl⟩
  · subst hi
    exact ⟨fun h => absurd h (by decide), fun _ => Or.inr ⟨'\u0307', by decide, by decide⟩⟩
  · refine ⟨fun _ => rfl, fun h => Or.inr ⟨c.toLower, List.mem_singleton.mpr rfl, ?_⟩⟩
    rw [toNat_toLower]
    split <;> omega

theorem isAscii_of_toLower {c : Char} (h : c.toLower.toNat < 0x80) : c.toNat < 0x80 := by
  rw [toNat_toLower] at h
  split at h <;> omega

theorem flatten_eq_lowerAscii {t : Text} {parts : List Text} (h : List.Forall₂ Lowers t parts)
    (ha : ∀ c ∈ t, c.toNat < 0x80) : parts.flatten = lowerAscii t := by
  induction h with
  | nil => rfl
  | @cons c part t parts hc _ ih =>
    rw [List.forall_mem_cons] at ha
    rw [List.flatten_cons, hc.of_ascii ha.1, ih ha.2]
    rfl

theorem isAscii_of_flatten {t : Text} {parts : List Text} (h : List.Forall₂ Lowers t parts)
    (ha : ∀ d ∈ parts.flatten, d.toNat < 0x80 ∧ d ≠ 'k') : ∀ c ∈ t, c.toNat < 0x80 := by
  induction h with
  | nil => exact fun _ hc => nomatch hc
  | @cons c part t parts hc _ ih =>
    rw [List.flatten_cons, List.forall_mem_append] at ha
    refine List.forall_mem_cons.mpr ⟨not_le.mp fun hn => ?_, ih ha.2⟩
    obtain rfl | ⟨d, hd, hdn⟩ := hc.of_not_ascii hn
    · exact (ha.1 'k' (List.mem_singleton.mpr rfl)).2 rfl
    · exact not_le.mpr (ha.1 d hd).1 hdn

theorem IsLowering.eq_iff {lower : Text → Text} (h : IsLowering lower) {ds : Text}
    (hd : ∀ d ∈ ds, d.toNat < 0x80 ∧ d ≠ 'k') (t : Text) : lower t = ds ↔ lowerAscii t = ds := by
  obtain ⟨parts, hp, hl⟩ := h t
  constructor
  · rintro rfl
    rw [hl] at hd
    rw [hl, flatten_eq_lowerAscii hp (isAscii_of_flatten hp hd)]
  · rintro rfl
    have ha : ∀ c ∈ t, c.toNat < 0x80 := fun c hc =>
      isAscii_of_toLower (hd c.toLower (List.mem_map_of_mem hc)).1
    rw [hl, flatten_eq_lowerAscii hp ha]

end Text

namespace Paper

def IsUnit (u : Text) : Prop := u = [] ∨ List.Forall₂ (· ∈ ·) u [['M', 'm'], ['M', 'm']]

/-- A name is spelled as the width, with the unit or without it, and with blanks around it. -/
def IsSpelling (p : Paper) (t : Text) : Prop :=
  ∃ front unit back : Text, front.isBlank = true ∧ IsUnit unit ∧ back.isBlank = true ∧
    t = front ++ (p.digits ++ unit) ++ back

theorem isDigit_of_mem_digits (p : Paper) : ∀ d ∈ p.digits, d.isDigit = true := fun _ =>
  Text.isDigit_of_mem_numeral

theorem lowerAscii_eq_name_or_digits_iff (p : Paper) (t : Text) :
    t.lowerAscii = p.name ∨ t.lowerAscii = p.digits ↔ ∃ unit, IsUnit unit ∧ t = p.digits ++ unit := by
  have hu : ∀ u : Text, u.lowerAscii = ['m', 'm'] ↔ List.Forall₂ (· ∈ ·) u [['M', 'm'], ['M', 'm']] :=
    fun u => Text.lowerAscii_eq_iff (by simp)
  have hd := fun w => Text.lowerAscii_eq_digits_iff (w := w) p.isDigit_of_mem_digits
  constructor
  · rintro (h | h)
    · obtain ⟨ds, u, rfl, hds, hm⟩ := List.map_eq_append_iff.mp h
      exact ⟨u, Or.inr ((hu u).mp hm), by rw [(hd ds).mp hds]⟩
    · exact ⟨[], Or.inl rfl, by rw [(hd t).mp h, List.append_nil]⟩
  · rintro ⟨u, rfl | hm, rfl⟩
    · exact Or.inr ((hd _).mpr (List.append_nil _))
    · refine Or.inl (List.map_eq_append_iff.mpr ⟨_, _, rfl, (hd _).mpr rfl, (hu u).mpr hm⟩)

theorem parse?_eq_some_iff_lowerAscii (p : Paper) (t : Text) : parse? t = some p ↔
    t.trim.lowerAscii = p.name ∨ t.trim.lowerAscii = p.digits := by
  rw [parse?]
  constructor
  · intro h
    simpa using List.find?_some h
  · rintro (h | h) <;> rw [h] <;> cases p <;> decide

theorem IsUnit.isSpace_eq_false {u : Text} (h : IsUnit u) : ∀ c ∈ u, isSpace c = false := by
  have hm : ∀ c ∈ ['M', 'm'], isSpace c = false := by simp [isSpace]
  obtain rfl | h := h
  · exact fun _ hc => absurd hc List.not_mem_nil
  · obtain _ | ⟨hc, _ | ⟨hd, ⟨⟩⟩⟩ := h
    exact List.forall_mem_cons.mpr ⟨hm _ hc, List.forall_mem_singleton.mpr (hm _ hd)⟩

theorem isWord_digits_append (p : Paper) {u : Text} (h : IsUnit u) : Text.IsWord (p.digits ++ u) where
  ne_nil := List.append_ne_nil_of_left_ne_nil (Text.numeral_ne_nil _) u
  isSpace_eq_false := by
    rw [List.forall_mem_append]
    exact ⟨fun c hc => Numeral.isSpace_of_isDigit (p.isDigit_of_mem_digits c hc), h.isSpace_eq_false⟩

theorem parse?_eq_some_iff (p : Paper) (t : Text) : parse? t = some p ↔ p.IsSpelling t := by
  rw [parse?_eq_some_iff_lowerAscii, lowerAscii_eq_name_or_digits_iff]
  constructor
  · rintro ⟨unit, hu, ht⟩
    obtain ⟨front, back, hf, hb, h⟩ := ((p.isWord_digits_append hu).trim_eq_iff t).mp ht
    exact ⟨front, unit, back, hf, hu, hb, h⟩
  · rintro ⟨front, unit, back, hf, hu, hb, h⟩
    exact ⟨unit, hu, ((p.isWord_digits_append hu).trim_eq_iff t).mpr ⟨front, back, hf, hb, h⟩⟩

theorem ofText_eq_ok_iff (p : Paper) (t : Text) : ofText t = .ok p ↔ p.IsSpelling t := by
  rw [← parse?_eq_some_iff, ofText]
  cases parse? t <;> simp

theorem ofText_eq_error_iff (t e : Text) :
    ofText t = .error e ↔ (∀ p : Paper, ¬ p.IsSpelling t) ∧ e = unknownText t := by
  simp only [← parse?_eq_some_iff, ofText]
  cases parse? t with
  | none =>
    constructor
    · intro h
      exact ⟨nofun, (Except.error.inj h).symm⟩
    · rintro ⟨-, rfl⟩
      rfl
  | some p => simp

theorem isSpelling_name (p : Paper) : p.IsSpelling p.name :=
  (parse?_eq_some_iff p p.name).mp (by cases p <;> decide)

theorem IsSpelling.of_named {p : Paper} {t : Text} (h : named t = some p) : p.IsSpelling t := by
  have hn : p.name = t := by simpa using List.find?_some h
  exact hn ▸ p.isSpelling_name

def dropUnit (t : Text) : Text := (t.dropSuffix? ['m', 'm']).getD t

theorem dropUnit_eq_digits_iff (p : Paper) (t : Text) :
    dropUnit t = p.digits ↔ t = p.name ∨ t = p.digits := by
  rw [dropUnit]
  constructor
  · intro h
    cases hs : t.dropSuffix? ['m', 'm'] with
    | none =>
      rw [hs, Option.getD_none] at h
      exact Or.inr h
    | some u =>
      rw [hs, Option.getD_some] at h
      obtain ⟨m, ht, hm⟩ := List.dropSuffix?_eq_some_iff.mp hs
      exact Or.inl (by rw [ht, h, eq_of_beq hm, name])
  · rintro (rfl | rfl)
    · have hn : p.name.dropSuffix? ['m', 'm'] = some p.digits :=
        List.dropSuffix?_eq_some_iff.mpr ⟨_, rfl, beq_self_eq_true _⟩
      rw [hn, Option.getD_some]
    · cases p <;> decide

theorem dropUnit_lower_eq_iff {lower : Text → Text} (hl : Text.IsLowering lower) (p : Paper) (t : Text) :
    dropUnit (lower t.trim) = p.digits ↔ p.IsSpelling t := by
  have hd : ∀ d ∈ p.digits, d.toNat < 0x80 ∧ d ≠ 'k' := by
    intro d h
    have hr := Numeral.toNat_of_isDigit (p.isDigit_of_mem_digits d h)
    refine ⟨by omega, ?_⟩
    rintro rfl
    exact absurd hr (by decide)
  have hn : ∀ d ∈ p.name, d.toNat < 0x80 ∧ d ≠ 'k' :=
    List.forall_mem_append.mpr ⟨hd, by simp⟩
  rw [dropUnit_eq_digits_iff, hl.eq_iff hn, hl.eq_iff hd, ← parse?_eq_some_iff_lowerAscii,
    parse?_eq_some_iff]

end Paper

end ReceiptPrinter
