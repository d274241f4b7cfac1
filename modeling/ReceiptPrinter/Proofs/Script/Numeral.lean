import Mathlib.Data.List.TakeWhile
import ReceiptPrinter.Proofs.Number.Figures
import ReceiptPrinter.Proofs.Text.Split
import ReceiptPrinter.Script.Numeral

namespace ReceiptPrinter.Numeral

def write (n : Int) : Text := (if n < 0 then ['-'] else []) ++ Text.numeral n.natAbs

theorem isSign_of_isDigit {c : Char} (h : c.isDigit = true) : (c == '-' || c == '+') = false := by
  have hm : c ≠ '-' := by
    rintro rfl
    cases h
  have hp : c ≠ '+' := by
    rintro rfl
    cases h
  rw [beq_eq_false_iff_ne.mpr hm, beq_eq_false_iff_ne.mpr hp, Bool.false_or]

theorem toNat_of_isDigit {c : Char} (h : c.isDigit = true) : 48 ≤ c.toNat ∧ c.toNat ≤ 57 := by
  simpa [Char.isDigit, UInt32.le_iff_toNat_le] using h

theorem isSpace_of_isDigit {c : Char} (h : c.isDigit = true) : isSpace c = false := by
  have hl := toNat_of_isDigit h
  simp [isSpace]
  omega

theorem exists_numeral_eq_cons (n : Nat) :
    ∃ c t, Text.numeral n = c :: t ∧ c.isDigit = true := by
  obtain ⟨c, t, h⟩ := List.exists_cons_of_ne_nil (Text.numeral_ne_nil n)
  refine ⟨c, t, h, Text.isDigit_of_mem_numeral (n := n) ?_⟩
  rw [h]
  exact List.mem_cons_self

theorem hasSign_numeral (n : Nat) : hasSign (Text.numeral n) = false := by
  obtain ⟨c, t, h, hc⟩ := exists_numeral_eq_cons n
  rw [h]
  exact isSign_of_isDigit hc

theorem isWord_write (n : Int) : (write n).IsWord where
  ne_nil h := Text.numeral_ne_nil n.natAbs (List.append_eq_nil_iff.mp h).2
  isSpace_eq_false c hc := by
    obtain hs | hd := List.mem_append.mp hc
    · split at hs
      · rw [List.mem_singleton.mp hs]
        decide
      · exact nomatch hs
    · exact isSpace_of_isDigit (Text.isDigit_of_mem_numeral hd)

theorem digits_write (n : Int) : digits (write n) = Text.numeral n.natAbs := by
  have hd : (Text.numeral n.natAbs).takeWhile Char.isDigit = Text.numeral n.natAbs :=
    List.takeWhile_eq_self_iff.mpr fun _ => Text.isDigit_of_mem_numeral
  rw [digits, write]
  split
  · exact hd
  · rw [List.nil_append, hasSign_numeral, if_neg Bool.false_ne_true, hd]

theorem head?_write_eq_minus (n : Int) : (write n).head? = some '-' ↔ n < 0 := by
  rw [write]
  split
  · next h => exact iff_of_true rfl h
  · next h =>
    obtain ⟨c, t, ht, hc⟩ := exists_numeral_eq_cons n.natAbs
    rw [ht]
    refine iff_of_false (fun hm => ?_) h
    obtain rfl := Option.some.inj hm
    cases hc

/-- The integer that a word starts with, however long its digits are. It is zero where the word starts
with none. -/
def value (w : Text) : Int :=
  let n : Int := Nat.ofDigitChars 10 (digits w) 0
  if w.head? = some '-' then -n else n

theorem value_write (n : Int) : value (write n) = n := by
  rw [value, digits_write, Text.ofDigitChars_numeral]
  simp only [head?_write_eq_minus]
  split <;> omega

def cutOff (v : Int) : Int64 := .ofInt (max (-largest) (min v largest))

theorem cutOff_of_largest_le {v : Int} (h : largest ≤ v) : cutOff v = .ofInt largest := by
  rw [cutOff, min_eq_right h, max_eq_right]
  decide

theorem cutOff_of_le_neg_largest {v : Int} (h : v ≤ -largest) : cutOff v = .ofInt (-largest) := by
  rw [cutOff, max_eq_left (min_le_of_left_le h)]

theorem toInt_cutOff_eq (v : Int) : (cutOff v).toInt = max (-2 ^ 63 + 1) (min v (2 ^ 63 - 1)) := by
  have hn : (largest : Int) = 2 ^ 63 - 1 := rfl
  rw [cutOff, Int64.toInt_ofInt_of_le] <;> omega

theorem toInt_cutOff {v : Int} (hl : -largest ≤ v) (hu : v ≤ largest) : (cutOff v).toInt = v := by
  have hn : (largest : Int) = 2 ^ 63 - 1 := rfl
  rw [toInt_cutOff_eq]
  omega

/-- The cut behind the digits and in front of the sign is a cut at both ends. -/
theorem read_some (w : Text) : read (some w) = cutOff (value w) := by
  have hl : (0 : Int) ≤ largest := Int.natCast_nonneg _
  rw [read, Option.getD_some, cutOff, value]
  congr 1
  split <;> omega

theorem read_write {n : Int64} (h : -largest ≤ n.toInt) : read (some (write n.toInt)) = n := by
  have hu := n.toInt_lt
  have hl : (largest : Int) = 2 ^ 63 - 1 := rfl
  rw [read_some, value_write, ← Int64.toInt_inj, toInt_cutOff h (by omega)]

/-- Digits with a sign or none in front of them, and the integer that they write. -/
inductive IsNumeral : Text → Int → Prop
  | unsigned {ds : Text} (h0 : ds ≠ []) (hd : ∀ c ∈ ds, c.isDigit = true) :
    IsNumeral ds (Nat.ofDigitChars 10 ds 0)
  | plus {ds : Text} (h0 : ds ≠ []) (hd : ∀ c ∈ ds, c.isDigit = true) :
    IsNumeral ('+' :: ds) (Nat.ofDigitChars 10 ds 0)
  | minus {ds : Text} (h0 : ds ≠ []) (hd : ∀ c ∈ ds, c.isDigit = true) :
    IsNumeral ('-' :: ds) (-Nat.ofDigitChars 10 ds 0)

theorem IsNumeral.isWord {w : Text} {v : Int} (h : IsNumeral w v) : w.IsWord := by
  have hs : ∀ {ds : Text}, (∀ c ∈ ds, c.isDigit = true) → ∀ c ∈ ds, isSpace c = false :=
    fun hd c hc => isSpace_of_isDigit (hd c hc)
  cases h with
  | unsigned h0 hd => exact ⟨h0, hs hd⟩
  | plus h0 hd | minus h0 hd =>
    exact ⟨List.cons_ne_nil _ _, List.forall_mem_cons.mpr ⟨by decide, hs hd⟩⟩

theorem takeWhile_isDigit_append {ds tail : Text} (hd : ∀ c ∈ ds, c.isDigit = true)
    (ht : ∀ c ∈ tail.head?, c.isDigit = false) : (ds ++ tail).takeWhile Char.isDigit = ds := by
  rw [List.takeWhile_append_of_pos hd]
  cases tail with
  | nil => exact List.append_nil ds
  | cons c tail => simp [ht c rfl]

variable {w tail : Text} {v : Int}

theorem value_append (h : IsNumeral w v) (ht : ∀ c ∈ tail.head?, c.isDigit = false) : value (w ++ tail) = v := by
  unfold value
  cases h with
  | @unsigned ds h0 hd =>
    obtain ⟨c, u, rfl⟩ := List.exists_cons_of_ne_nil h0
    have hc := hd c List.mem_cons_self
    have hs : hasSign (c :: u ++ tail) = false := isSign_of_isDigit hc
    have hm : (c :: u ++ tail).head? ≠ some '-' := by
      rintro ⟨⟩
      cases hc
    simp only [digits, hs, Bool.false_eq_true, ↓reduceIte, hm, takeWhile_isDigit_append hd ht]
  | @plus ds h0 hd =>
    have hs : digits ('+' :: ds ++ tail) = ds := takeWhile_isDigit_append hd ht
    have hm : ('+' :: ds ++ tail).head? ≠ some '-' := by simp
    simp only [hs, hm, ↓reduceIte]
  | @minus ds h0 hd =>
    have hs : digits ('-' :: ds ++ tail) = ds := takeWhile_isDigit_append hd ht
    have hm : ('-' :: ds ++ tail).head? = some '-' := rfl
    simp only [hs, hm, ↓reduceIte]

theorem read_append (h : IsNumeral w v) (ht : ∀ c ∈ tail.head?, c.isDigit = false) :
    read (some (w ++ tail)) = cutOff v := by
  rw [read_some, value_append h ht]

theorem digits_ne_nil (h : IsNumeral w v) : digits (w ++ tail) ≠ [] := by
  have ht : ∀ {c : Char} {u : Text}, c.isDigit = true → (c :: u).takeWhile Char.isDigit ≠ [] := by
    intro c u hc
    simp [hc]
  cases h with
  | unsigned h0 hd =>
    obtain ⟨c, u, rfl⟩ := List.exists_cons_of_ne_nil h0
    have hc := hd c List.mem_cons_self
    have hs : hasSign (c :: u ++ tail) = false := isSign_of_isDigit hc
    unfold digits
    rw [hs]
    exact ht hc
  | plus h0 hd | minus h0 hd =>
    obtain ⟨c, u, rfl⟩ := List.exists_cons_of_ne_nil h0
    exact ht (hd c List.mem_cons_self)

theorem exists_isNumeral_append (h : digits w ≠ []) :
    ∃ u tail v, w = u ++ tail ∧ IsNumeral u v ∧ ∀ c ∈ tail.head?, c.isDigit = false := by
  have hd : ∀ t : Text, ∀ c ∈ t.takeWhile Char.isDigit, c.isDigit = true := fun t =>
    List.all_eq_true.mp List.all_takeWhile
  have ht : ∀ t : Text, ∀ c ∈ (t.dropWhile Char.isDigit).head?, c.isDigit = false := by
    intro t c hc
    have hn := List.head?_dropWhile_not Char.isDigit t
    rwa [hc] at hn
  unfold digits at h
  split at h
  · next hs =>
    cases w with
    | nil => cases hs
    | cons s t =>
      have hw : s :: t = s :: t.takeWhile Char.isDigit ++ t.dropWhile Char.isDigit := by
        rw [List.cons_append, List.takeWhile_append_dropWhile]
      have hs : s = '-' ∨ s = '+' := by simpa [hasSign] using hs
      obtain rfl | rfl := hs
      · exact ⟨_, _, _, hw, .minus h (hd t), ht t⟩
      · exact ⟨_, _, _, hw, .plus h (hd t), ht t⟩
  · exact ⟨_, _, _, List.takeWhile_append_dropWhile.symm, .unsigned h (hd w), ht w⟩

theorem digits_eq_nil_iff : digits w = [] ↔ ∀ u v, IsNumeral u v → ¬ u <+: w := by
  constructor
  · rintro h u v hu ⟨tail, rfl⟩
    exact digits_ne_nil hu h
  · intro h
    by_contra h0
    obtain ⟨u, tail, v, rfl, hu, -⟩ := exists_isNumeral_append h0
    exact h u v hu (List.prefix_append u tail)

theorem value_eq_zero (h : digits w = []) : value w = 0 := by
  simp [value, h]

theorem read_eq_zero (h : digits w = []) : read (some w) = 0 := by
  rw [read_some, value_eq_zero h]
  decide

end ReceiptPrinter.Numeral
