import Mathlib.Data.List.SplitBy
import ReceiptPrinter.Proofs.Text.Split

namespace ReceiptPrinter

namespace Text

/-- The longest stretches of a text that hold no blank, from left to right. -/
def runs (t : Text) : List Text :=
  (t.splitBy fun c d => isSpace c == isSpace d).filter fun run => run.all fun c => !isSpace c

structure IsGap (gap : Text) : Prop where
  ne_nil : gap ≠ []
  isBlank : gap.isBlank = true

theorem isSpace_of_mem {gap : Text} (h : gap.isBlank = true) : ∀ c ∈ gap, isSpace c = true :=
  List.all_eq_true.mp h

theorem IsGap.isSpace_head? {gap : Text} (h : gap.IsGap) (t : Text) :
    ∀ c ∈ (gap ++ t).head?, isSpace c = true := by
  obtain ⟨b, u, rfl⟩ := List.exists_cons_of_ne_nil h.ne_nil
  rintro c ⟨⟩
  exact isSpace_of_mem h.isBlank b List.mem_cons_self

theorem words_cons {c : Char} (h : isSpace c = true) (t : Text) : words (c :: t) = words t :=
  words_append_cons h [] t

theorem words_append {gap : Text} (h : gap.isBlank = true) (t : Text) : words (gap ++ t) = words t := by
  induction gap with
  | nil => rfl
  | cons c gap ih =>
    have hc := isSpace_of_mem h
    rw [List.forall_mem_cons] at hc
    rw [List.cons_append, words_cons hc.1, ih (List.all_eq_true.mpr hc.2)]

theorem IsWord.words_append {w t : Text} (hw : w.IsWord) (ht : ∀ c ∈ t.head?, isSpace c = true) :
    words (w ++ t) = w :: words t := by
  cases t with
  | nil => rw [List.append_nil, hw.words_eq, words_nil]
  | cons c t =>
    have hc : isSpace c = true := ht c rfl
    rw [hw.words_append_cons hc, words_cons hc]

theorem runs_append {s t : Text} {b : Bool} (hs : ∀ c ∈ s, isSpace c = b)
    (ht : ∀ c ∈ t.head?, isSpace c = !b) : runs (s ++ t) = runs s ++ runs t := by
  have hd : ∀ c ∈ s.getLast?, ∀ d ∈ t.head?, (isSpace c == isSpace d) = false := by
    intro c hc d hd
    simp [hs c (List.mem_of_getLast? hc), ht d hd]
  rw [runs, List.splitBy_append hd, List.filter_append]
  rfl

theorem isChain_of_forall {s : Text} {b : Bool} (hs : ∀ c ∈ s, isSpace c = b) :
    s.IsChain fun c d => (isSpace c == isSpace d) = true := by
  apply List.Pairwise.isChain
  apply List.pairwise_of_forall_mem_list
  intro c hc d hd
  simp [hs c hc, hs d hd]

theorem IsGap.runs_eq {gap : Text} (h : gap.IsGap) : runs gap = [] := by
  have hs := isSpace_of_mem h.isBlank
  obtain ⟨c, t, rfl⟩ := List.exists_cons_of_ne_nil h.ne_nil
  rw [runs, List.splitBy_of_isChain h.ne_nil (isChain_of_forall hs)]
  simp [hs c]

theorem IsWord.runs_eq {w : Text} (h : w.IsWord) : runs w = [w] := by
  rw [runs, List.splitBy_of_isChain h.ne_nil (isChain_of_forall h.isSpace_eq_false)]
  simpa using h.isSpace_eq_false

theorem exists_stretch {t : Text} (h : t ≠ []) :
    ∃ (b : Bool) (s r : Text), t = s ++ r ∧ s ≠ [] ∧ (∀ c ∈ s, isSpace c = b) ∧
      ∀ c ∈ r.head?, isSpace c = !b := by
  obtain ⟨c, u, rfl⟩ := List.exists_cons_of_ne_nil h
  let p := fun d => isSpace d == isSpace c
  refine ⟨isSpace c, (c :: u).takeWhile p, (c :: u).dropWhile p, ?_, ?_, ?_, ?_⟩
  · exact List.takeWhile_append_dropWhile.symm
  · simp [p]
  · intro d hd
    have hp := List.all_eq_true.mp (List.all_takeWhile (p := p)) d hd
    exact eq_of_beq hp
  · intro d hd
    have hn := List.head?_dropWhile_not p (c :: u)
    rw [hd] at hn
    exact Bool.eq_not.mpr fun he => by simp [p, he] at hn

theorem words_eq_runs (t : Text) : words t = runs t := by
  -- Both sides are divided behind the first stretch, blank or not, and what is left is shorter.
  induction hn : t.length using Nat.strong_induction_on generalizing t with
  | _ n ih =>
    by_cases h : t = []
    · subst h
      rfl
    · obtain ⟨b, s, r, rfl, h0, hs, hr⟩ := exists_stretch h
      have hl : r.length < n := by
        have hp := List.length_pos_iff.mpr h0
        rw [← hn, List.length_append]
        omega
      rw [runs_append hs hr, ← ih r.length hl r rfl]
      cases b with
      | true =>
        have hb : s.isBlank = true := List.all_eq_true.mpr hs
        rw [words_append hb, IsGap.runs_eq ⟨h0, hb⟩, List.nil_append]
      | false =>
        have hw : s.IsWord := ⟨h0, hs⟩
        rw [hw.words_append hr, hw.runs_eq, List.singleton_append]

theorem words_flatMap {parts : List (Text × Text)} {tail : Text}
    (h : ∀ p ∈ parts, p.1.IsGap ∧ p.2.IsWord) (ht : tail.isBlank = true) :
    words (parts.flatMap (fun p => p.1 ++ p.2) ++ tail) = parts.map Prod.snd ∧
      ∀ c ∈ (parts.flatMap (fun p => p.1 ++ p.2) ++ tail).head?, isSpace c = true := by
  induction parts with
  | nil =>
    have hw := words_append ht []
    rw [List.append_nil, words_nil] at hw
    exact ⟨hw, fun c hc => isSpace_of_mem ht c (List.mem_of_head? hc)⟩
  | cons p parts ih =>
    rw [List.forall_mem_cons] at h
    obtain ⟨hw, hs⟩ := ih h.2
    simp only [List.flatMap_cons, List.append_assoc, List.map_cons]
    constructor
    · rw [words_append h.1.1.isBlank, h.1.2.words_append hs, hw]
    · exact h.1.1.isSpace_head? _

theorem toNat_toLower (c : Char) :
    c.toLower.toNat = if 65 ≤ c.toNat ∧ c.toNat ≤ 90 then c.toNat + 32 else c.toNat := by
  by_cases h : 65 ≤ c.toNat ∧ c.toNat ≤ 90
  · have hv : c.val ≥ 'A'.val ∧ c.val ≤ 'Z'.val := h
    have hl : c.toLower.toNat = (c.toNat + 32) % 2 ^ 32 := congrArg Char.toNat (dif_pos hv)
    rw [if_pos h, hl]
    omega
  · have hv : ¬ (c.val ≥ 'A'.val ∧ c.val ≤ 'Z'.val) := h
    have hl : c.toLower = c := dif_neg hv
    rw [if_neg h, hl]

theorem toLower_eq_iff {c d : Char} (hu : d.toUpper.toNat + 32 = d.toNat)
    (hd : 97 ≤ d.toNat ∧ d.toNat ≤ 122) : c.toLower = d ↔ c = d.toUpper ∨ c = d := by
  simp only [← Char.toNat_inj, toNat_toLower]
  split <;> omega

theorem map_eq_iff {f : Char → Char} {g : Char → Text} {ds w : Text}
    (h : ∀ d ∈ ds, ∀ c, f c = d ↔ c ∈ g d) : w.map f = ds ↔ List.Forall₂ (· ∈ ·) w (ds.map g) := by
  induction ds generalizing w with
  | nil => simp
  | cons d ds ih =>
    rw [List.forall_mem_cons] at h
    cases w with
    | nil => simp
    | cons c w => simp [h.1 c, ih (w := w) h.2]

theorem lowerAscii_eq_iff {ds w : Text}
    (h : ∀ d ∈ ds, d.toUpper.toNat + 32 = d.toNat ∧ 97 ≤ d.toNat ∧ d.toNat ≤ 122) :
    w.lowerAscii = ds ↔ List.Forall₂ (· ∈ ·) w (ds.map fun d => [d.toUpper, d]) := by
  apply map_eq_iff
  intro d hd c
  simp [toLower_eq_iff (h d hd).1 (h d hd).2]

end Text

namespace Keyword

def letters : Keyword → List Text
  | .lf => [['L', 'l'], ['F', 'f']]
  | .esc => [['E', 'e'], ['S', 's'], ['C', 'c']]
  | .gs => [['G', 'g'], ['S', 's']]

/-- A word that has each letter of a keyword as a capital or as a small one. -/
def IsSpelling (k : Keyword) (w : Text) : Prop := List.Forall₂ (· ∈ ·) w k.letters

variable {k : Keyword} {w : Text}

theorem isSpelling_iff : k.IsSpelling w ↔ w.lowerAscii = k.name := by
  have hl : k.letters = k.name.map fun d => [d.toUpper, d] := by cases k <;> decide
  have hn : ∀ d ∈ k.name, d.toUpper.toNat + 32 = d.toNat ∧ 97 ≤ d.toNat ∧ d.toNat ≤ 122 := by
    cases k <;> simp [name]
  rw [Text.lowerAscii_eq_iff hn, IsSpelling, hl]

theorem ofWord?_eq_some_iff : ofWord? w = some k ↔ k.IsSpelling w := by
  rw [isSpelling_iff, ofWord?]
  constructor
  · intro h
    have hk := List.find?_some h
    exact (eq_of_beq hk).symm
  · intro h
    rw [h]
    cases k <;> rfl

theorem IsSpelling.subset (h : k.IsSpelling w) : w ⊆ k.letters.flatten := by
  unfold IsSpelling at h
  generalize k.letters = ls at h
  induction h with
  | nil => exact List.nil_subset _
  | cons hc _ ih =>
    apply List.cons_subset.mpr
    exact ⟨List.mem_append_left _ hc, fun d hd => List.mem_append_right _ (ih hd)⟩

theorem IsSpelling.isWord (h : k.IsSpelling w) : w.IsWord where
  ne_nil := by
    rintro rfl
    have hl := isSpelling_iff.mp h
    cases k <;> cases hl
  isSpace_eq_false := by
    have hl : ∀ c ∈ k.letters.flatten, isSpace c = false := by cases k <;> simp [letters, isSpace]
    exact fun c hc => hl c (h.subset hc)

end Keyword

namespace Line

/-- The longest stretch without a blank at the start of a line. -/
def front (raw : Text) : Text := raw.takeWhile fun c => !isSpace c

def behind (raw : Text) : Text := raw.dropWhile fun c => !isSpace c

theorem front_append_behind (raw : Text) : front raw ++ behind raw = raw :=
  List.takeWhile_append_dropWhile

theorem isSpace_of_mem_front {raw : Text} : ∀ c ∈ front raw, isSpace c = false := by
  intro c hc
  have hp := List.all_eq_true.mp List.all_takeWhile c hc
  simpa using hp

theorem isSpace_head?_behind (raw : Text) : ∀ c ∈ (behind raw).head?, isSpace c = true := by
  intro c hc
  have hn := List.head?_dropWhile_not (fun c => !isSpace c) raw
  unfold behind at hc
  rw [hc] at hn
  simpa using hn

theorem front_of_startsBlank {raw : Text} (h : raw.startsBlank = true) : front raw = [] := by
  cases raw with
  | nil => rfl
  | cons c t =>
    have hc : isSpace c = true := h
    simp [front, hc]

theorem front_append {w t : Text} (hw : w.IsWord) (ht : ∀ c ∈ t.head?, isSpace c = true) :
    front (w ++ t) = w ∧ behind (w ++ t) = t := by
  have hp : ∀ c ∈ w, (!isSpace c) = true := fun c hc => by simp [hw.isSpace_eq_false c hc]
  unfold front behind
  rw [List.takeWhile_append_of_pos hp, List.dropWhile_append_of_pos hp]
  cases t with
  | nil => exact ⟨List.append_nil w, rfl⟩
  | cons c t =>
    have hc : isSpace c = true := ht c rfl
    simp [hc]

theorem ofText_eq (raw : Text) :
    ofText raw = match Keyword.ofWord? (front raw) with
      | some k => ⟨raw, some k, Text.words (behind raw)⟩
      | none => plain raw := by
  have hn : Keyword.ofWord? [] = none := by decide
  by_cases hs : raw.startsBlank = true
  · rw [front_of_startsBlank hs, hn, ofText, if_pos hs]
  · by_cases hf : front raw = []
    · cases raw with
      | nil => rfl
      | cons c t =>
        have hc : isSpace c ≠ true := hs
        simp [front, hc] at hf
    · have hw : (front raw).IsWord := ⟨hf, isSpace_of_mem_front⟩
      have ht := hw.words_append (isSpace_head?_behind raw)
      rw [front_append_behind] at ht
      cases hk : Keyword.ofWord? (front raw) <;> simp [ofText, hs, ht, hk]

/-- A line has a keyword just when it starts with a spelling of one, with no blank in front and none
within. Its arguments are the stretches between the blanks behind that, and it has none without a keyword.
So any spelling and any words, with any gaps in front of them, are read back. -/
theorem ofText_iff_spelling :
    (∀ (raw : Text) (k : Keyword), (ofText raw).keyword = some k ↔
        raw.startsBlank = false ∧ k.IsSpelling (front raw)) ∧
      (∀ raw : Text, (ofText raw).raw = raw ∧
        (ofText raw).args = if (ofText raw).keyword.isSome then Text.runs (behind raw) else []) ∧
      ∀ (k : Keyword) (w : Text) (parts : List (Text × Text)) (tail : Text), k.IsSpelling w →
        (∀ p ∈ parts, p.1.IsGap ∧ p.2.IsWord) → tail.isBlank = true →
          ofText (w ++ (parts.flatMap (fun p => p.1 ++ p.2) ++ tail)) =
            ⟨w ++ (parts.flatMap (fun p => p.1 ++ p.2) ++ tail), some k, parts.map Prod.snd⟩ := by
  refine ⟨fun raw k => ?_, fun raw => ?_, fun k w parts tail hk hp ht => ?_⟩
  · have hk : (ofText raw).keyword = Keyword.ofWord? (front raw) := by
      rw [ofText_eq]
      cases Keyword.ofWord? (front raw) <;> rfl
    have hs : k.IsSpelling (front raw) → raw.startsBlank = false := by
      intro h
      rw [← front_append_behind raw]
      exact h.isWord.startsBlank_append _
    rw [hk, Keyword.ofWord?_eq_some_iff]
    exact ⟨fun h => ⟨hs h, h⟩, And.right⟩
  · rw [ofText_eq, Text.words_eq_runs]
    cases Keyword.ofWord? (front raw) <;> exact ⟨rfl, rfl⟩
  · obtain ⟨hw, hh⟩ := Text.words_flatMap hp ht
    obtain ⟨hf, hb⟩ := front_append hk.isWord hh
    rw [ofText_eq, hf, hb, hw, Keyword.ofWord?_eq_some_iff.mpr hk]

/-- Blanks of several kinds between and behind the words. A long s is no letter of a keyword, and a word that
only starts with a keyword is none. -/
theorem ofText_iff_spelling_gaps :
    let line := "eSc\u3000a\t \u00a01 \r".toList
    Keyword.IsSpelling .esc "eSc".toList ∧
      ofText line = ⟨line, some .esc, [['a'], ['1']]⟩ ∧
      (ofText "e\u017fc a".toList).keyword ≠ some .esc ∧ (ofText "LF1".toList).keyword ≠ some .lf := by
  have hk : Keyword.IsSpelling .esc "eSc".toList := Keyword.isSpelling_iff.mpr (by decide)
  let parts : List (Text × Text) := [("\u3000".toList, ['a']), ("\t \u00a0".toList, ['1'])]
  have hp : ∀ p ∈ parts, p.1.IsGap ∧ p.2.IsWord := by
    simp only [parts, List.forall_mem_cons]
    exact ⟨⟨⟨by decide, by decide⟩, by decide⟩, ⟨⟨by decide, by decide⟩, by decide⟩, nofun⟩
  obtain ⟨hl, -, ha⟩ := ofText_iff_spelling
  refine ⟨hk, ha .esc "eSc".toList parts " \r".toList hk hp (by decide), ?_, ?_⟩
  · rw [Ne, hl, Keyword.isSpelling_iff]
    decide
  · rw [Ne, hl, Keyword.isSpelling_iff]
    decide

end Line

end ReceiptPrinter
