import Mathlib.Algebra.Order.Floor.Semiring
import Mathlib.Algebra.Ring.Int.Parity
import Mathlib.Data.Rat.Floor
import ReceiptPrinter.Proofs.Script.Grammar
import ReceiptPrinter.Proofs.Script.Numeral
import ReceiptPrinter.Script.Command

namespace ReceiptPrinter

namespace Style

theorem hasBit_eq (mode : Int64) (weight : Nat) :
    hasBit mode weight = decide (Odd ⌊(mode.toInt / weight : Rat)⌋) := by
  rw [Rat.floor_intCast_div_natCast, hasBit, Bool.eq_iff_iff]
  simp [Int.odd_iff]

/-- What a mode number makes of a style. Beyond 64 bits it counts as the nearest end of them. -/
def inMode (s : Style) (v : Int) : Style :=
  if 2 ^ 63 ≤ v then { s with bold := true, size := .large, width := .wide, scale := none }
  else if v ≤ -2 ^ 63 then { s with bold := false, size := .normal, width := .normal, scale := none }
  else
    { s with
      bold := decide (Odd ⌊(v / 8 : Rat)⌋)
      size := if Odd ⌊(v / 32 : Rat)⌋ then .large else if Odd ⌊(v / 16 : Rat)⌋ then .tall else .normal
      width := if Odd ⌊(v / 32 : Rat)⌋ then .wide else .normal
      scale := none }

theorem setMode_cutOff (s : Style) (v : Int) : s.setMode (Numeral.cutOff v) = s.inMode v := by
  have hl : (Numeral.largest : Int) = 2 ^ 63 - 1 := rfl
  unfold inMode
  split
  · next h =>
    rw [Numeral.cutOff_of_largest_le (by omega)]
    rfl
  · split
    · next h =>
      rw [Numeral.cutOff_of_le_neg_largest (by omega)]
      rfl
    · have hb : ∀ n : Nat, hasBit (Numeral.cutOff v) n = decide (Odd ⌊(v / n : Rat)⌋) := fun n => by
        rw [hasBit_eq, Numeral.toInt_cutOff (by omega) (by omega)]
      have h8 := hb 8
      have h16 := hb 16
      have h32 := hb 32
      push_cast at h8 h16 h32
      simp [setMode, h8, h16, h32]

end Style

namespace Command

def modeLine (rest : Text) : Text := "ESC !".toList ++ rest

theorem perform_modeLine (s : Style) {rest : Text} (h : ∀ c ∈ rest.head?, isSpace c = true) :
    (Line.ofText (modeLine rest)).command.perform s =
      { style := s.setMode (Numeral.read rest.words.head?) } := by
  have hk : Keyword.ofWord? "ESC".toList = some .esc := by decide
  have hw : Text.IsWord "ESC".toList := by decide
  have hm : Text.IsWord ['!'] := by decide
  have hs : ∀ c ∈ (' ' :: '!' :: rest).head?, isSpace c = true := by
    rintro _ ⟨⟩
    rfl
  obtain ⟨hf, hb⟩ := Line.front_append hw hs
  have hr : Text.words (' ' :: '!' :: rest) = ['!'] :: rest.words := by
    rw [Text.words_cons rfl]
    exact hm.words_append h
  have hl : Line.ofText (modeLine rest) = ⟨modeLine rest, some .esc, ['!'] :: rest.words⟩ := by
    have he : modeLine rest = "ESC".toList ++ ' ' :: '!' :: rest := rfl
    rw [Line.ofText_eq, he, hf, hb, hk, hr]
  rw [hl]
  rfl

theorem perform_modeLine_word (s : Style) {w : Text} (h : w.IsWord) :
    (Line.ofText (modeLine (' ' :: w))).command.perform s =
      { style := s.setMode (Numeral.read (some w)) } := by
  have hs : ∀ c ∈ (' ' :: w).head?, isSpace c = true := by
    rintro _ ⟨⟩
    rfl
  have hw : Text.words (' ' :: w) = [w] := by rw [Text.words_cons rfl, h.words_eq]
  rw [perform_modeLine s hs, hw]
  rfl

/-- A mode is read from any numeral of its number, whatever follows that in the word. A word that starts with
no numeral counts as zero, and so does a missing one. -/
theorem perform_modeLine_numeral (s : Style) :
    (∀ (w tail : Text) (v : Int), Numeral.IsNumeral w v → (∀ c ∈ tail, isSpace c = false) →
        (∀ c ∈ tail.head?, c.isDigit = false) →
          (Line.ofText ("ESC ! ".toList ++ (w ++ tail))).command.perform s = { style := s.inMode v }) ∧
      (∀ w : Text, w.IsWord → (∀ u v, Numeral.IsNumeral u v → ¬ u <+: w) →
        (Line.ofText ("ESC ! ".toList ++ w)).command.perform s = { style := s.inMode 0 }) ∧
      ∀ gap : Text, gap.isBlank = true →
        (Line.ofText ("ESC !".toList ++ gap)).command.perform s = { style := s.inMode 0 } := by
  have h0 : (0 : Int64) = Numeral.cutOff 0 := by decide
  refine ⟨fun w tail v hw ht hd => ?_, fun w hw hn => ?_, fun gap hg => ?_⟩
  · have hword : (w ++ tail).IsWord := by
      constructor
      · exact List.append_ne_nil_of_left_ne_nil hw.isWord.ne_nil tail
      · exact List.forall_mem_append.mpr ⟨hw.isWord.isSpace_eq_false, ht⟩
    have hp := perform_modeLine_word s hword
    rw [Numeral.read_append hw hd, Style.setMode_cutOff] at hp
    exact hp
  · have hp := perform_modeLine_word s hw
    rw [Numeral.read_eq_zero (Numeral.digits_eq_nil_iff.mpr hn), h0, Style.setMode_cutOff] at hp
    exact hp
  · have hs : ∀ c ∈ gap.head?, isSpace c = true := fun c hc =>
      Text.isSpace_of_mem hg c (List.mem_of_head? hc)
    have hw : gap.words = [] := by
      have h := Text.words_append hg []
      rwa [List.append_nil, Text.words_nil] at h
    have hr : Numeral.read none = Numeral.cutOff 0 := by decide
    have hp := perform_modeLine s hs
    rw [hw, List.head?_nil, hr, Style.setMode_cutOff] at hp
    exact hp

/-- A negative mode with leading zeros, one below 64 bits, and a word of a sign and letters. -/
theorem perform_modeLine_numeral_negative :
    let s : Style := { alignment := .center, scale := some Number.Single.two }
    (Line.ofText "ESC ! -0024px".toList).command.perform s =
        { style := { bold := true, size := .large, width := .wide, alignment := .center } } ∧
      (Line.ofText "ESC ! -9223372036854775809".toList).command.perform s = { style := { alignment := .center } } ∧
      (Line.ofText "ESC ! +x8".toList).command.perform s = { style := { alignment := .center } } := by
  intro s
  obtain ⟨hm, hz, -⟩ := perform_modeLine_numeral s
  have hn : Numeral.IsNumeral "-0024".toList (-24) :=
    @Numeral.IsNumeral.minus "0024".toList (by decide) (by simp)
  have hb : Numeral.IsNumeral "-9223372036854775809".toList (-9223372036854775809) :=
    @Numeral.IsNumeral.minus "9223372036854775809".toList (by decide) (by simp)
  have hx : ∀ u v, Numeral.IsNumeral u v → ¬ u <+: "+x8".toList :=
    Numeral.digits_eq_nil_iff.mp (by decide)
  refine ⟨?_, ?_, ?_⟩
  · exact (hm _ "px".toList _ hn (by simp [isSpace]) (by simp)).trans (by decide +kernel)
  · exact (hm _ [] _ hb (by simp) (by simp)).trans (by decide)
  · exact (hz _ (by decide) hx).trans (by decide +kernel)

end Command

end ReceiptPrinter
