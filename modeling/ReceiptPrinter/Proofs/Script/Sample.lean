import ReceiptPrinter.Proofs.Paper.Spelling
import ReceiptPrinter.Script.Sample

namespace ReceiptPrinter

namespace Text

/-- A part of a text in small letters, where of all characters beyond ASCII the sign for kelvin alone
comes to a letter k. -/
structure LowersFully (c : Char) (part : Text) : Prop extends Lowers c part where
  kelvin : 0x80 ≤ c.toNat → (part = ['k'] ↔ c = '\u212a')

def IsFullLowering (lower : Text → Text) : Prop :=
  ∀ t, ∃ parts, List.Forall₂ LowersFully t parts ∧ lower t = parts.flatten

theorem lowersFully_lowerChar (c : Char) : LowersFully c (lowerChar c) where
  toLowers := lowers_lowerChar c
  kelvin := by
    intro hc
    rw [lowerChar]
    split_ifs with hk hi
    · exact iff_of_true rfl hk
    · exact iff_of_false (by decide) hk
    · refine iff_of_false (fun h => ?_) hk
      have ht := isAscii_of_toLower (c := c) (by rw [(List.cons.inj h).1]; decide)
      omega

theorem isFullLowering_flatMap : IsFullLowering (List.flatMap lowerChar) := fun t =>
  ⟨t.map lowerChar, List.forall₂_map_right_iff.mpr (List.forall₂_same.mpr fun c _ => lowersFully_lowerChar c),
    List.flatMap_def⟩

end Text

namespace Sample

/-- The letters of a name, each as a capital and as a small one. The sign for kelvin is a capital too. -/
def letters : Sample → List Text
  | .cafe => [['C', 'c'], ['A', 'a'], ['F', 'f'], ['E', 'e']]
  | .styles => [['S', 's'], ['T', 't'], ['Y', 'y'], ['L', 'l'], ['E', 'e'], ['S', 's']]
  | .ticket => [['T', 't'], ['I', 'i'], ['C', 'c'], ['K', 'k', '\u212a'], ['E', 'e'], ['T', 't']]

def IsSpelling (s : Sample) (t : Text) : Prop := List.Forall₂ (· ∈ ·) t s.letters

theorem lowerLetter_eq_iff {c d : Char} (hu : d.toUpper.toNat + 32 = d.toNat)
    (hd : 97 ≤ d.toNat ∧ d.toNat ≤ 122) :
    lowerLetter c = d ↔ c ∈ if d = 'k' then ['K', 'k', '\u212a'] else [d.toUpper, d] := by
  have hl := Text.toLower_eq_iff (c := c) hu hd
  by_cases hc : c = '\u212a'
  · subst hc
    have hn : '\u212a' ≠ d.toUpper ∧ '\u212a' ≠ d := by
      have hk : '\u212a'.toNat = 8490 := rfl
      constructor <;> intro h <;> have hd := congrArg Char.toNat h <;> omega
    by_cases hk : d = 'k'
    · simp [lowerLetter, hk]
    · simp [lowerLetter, hk, Ne.symm hk, hn.1, hn.2]
  · rw [lowerLetter, if_neg hc, hl]
    by_cases hk : d = 'k'
    · subst hk
      simp [hc]
    · simp [hk]

theorem map_lowerLetter_eq_iff (s : Sample) (t : Text) : t.map lowerLetter = s.name ↔ s.IsSpelling t := by
  have hl : s.letters = s.name.map fun d => if d = 'k' then ['K', 'k', '\u212a'] else [d.toUpper, d] := by
    cases s <;> decide
  have hn : s.name.all (fun d => d.toUpper.toNat + 32 = d.toNat ∧ 97 ≤ d.toNat ∧ d.toNat ≤ 122) = true := by
    cases s <;> decide
  rw [IsSpelling, hl]
  apply Text.map_eq_iff
  intro d hd c
  obtain ⟨hup, hletter⟩ := of_decide_eq_true (List.all_eq_true.mp hn d hd)
  exact lowerLetter_eq_iff hup hletter

theorem named_eq_some_iff (s : Sample) (t : Text) : named t = some s ↔ s.IsSpelling t := by
  rw [← map_lowerLetter_eq_iff, named]
  constructor
  · intro h
    have hs := List.find?_some h
    exact (eq_of_beq hs).symm
  · intro h
    rw [h]
    cases s <;> rfl

theorem named_eq_none_iff (t : Text) : named t = none ↔ ∀ s : Sample, ¬ s.IsSpelling t := by
  simp only [← named_eq_some_iff]
  exact Option.eq_none_iff_forall_ne_some

theorem lowersFully_cases {c : Char} {part : Text} (h : Text.LowersFully c part) :
    part = [lowerLetter c] ∨ (∃ d ∈ part, 0x80 ≤ d.toNat) ∧ 0x80 ≤ (lowerLetter c).toNat := by
  obtain hc | hc := Nat.lt_or_ge c.toNat 0x80
  · left
    have hk : c ≠ '\u212a' := by
      rintro rfl
      exact absurd hc (by decide)
    rw [h.of_ascii hc, lowerLetter, if_neg hk]
  · obtain hp | hp := h.of_not_ascii hc
    · left
      rw [hp, lowerLetter, if_pos ((h.kelvin hc).mp hp)]
    · right
      refine ⟨hp, ?_⟩
      have hk : c ≠ '\u212a' := by
        intro hk
        obtain ⟨d, hd, hn⟩ := hp
        rw [(h.kelvin hc).mpr hk, List.mem_singleton] at hd
        subst hd
        exact absurd hn (by decide)
      rw [lowerLetter, if_neg hk]
      exact not_lt.mp fun hl => not_lt.mpr hc (Text.isAscii_of_toLower hl)

theorem flatten_eq_iff {t ds : Text} {parts : List Text} (h : List.Forall₂ Text.LowersFully t parts)
    (ha : ∀ d ∈ ds, d.toNat < 0x80) : parts.flatten = ds ↔ t.map lowerLetter = ds := by
  induction h generalizing ds with
  | nil => exact Iff.rfl
  | @cons c part t parts hc _ ih =>
    rw [List.flatten_cons, List.map_cons]
    obtain rfl | ⟨⟨d, hd, hn⟩, hl⟩ := lowersFully_cases hc
    · cases ds with
      | nil => simp
      | cons d ds =>
        rw [List.forall_mem_cons] at ha
        simp [ih ha.2]
    · apply iff_of_false
      · rintro rfl
        exact not_lt.mpr hn (ha d (List.mem_append_left _ hd))
      · rintro rfl
        exact not_lt.mpr hl (ha _ List.mem_cons_self)

theorem lower_eq_name_iff {lower : Text → Text} (h : Text.IsFullLowering lower) (s : Sample) (t : Text) :
    lower t = s.name ↔ s.IsSpelling t := by
  have ha : s.name.all (·.toNat < 0x80) = true := by
    cases s <;> decide
  obtain ⟨parts, hp, hl⟩ := h t
  rw [hl, flatten_eq_iff hp fun d hd => of_decide_eq_true (List.all_eq_true.mp ha d hd),
    map_lowerLetter_eq_iff]

end Sample

end ReceiptPrinter
