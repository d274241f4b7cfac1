import Mathlib.Data.List.Forall2
import ReceiptPrinter.Proofs.Json.Scanning

namespace ReceiptPrinter.Json

namespace Lexeme

theorem lexFrom_length (t rest : Text) : lexFrom t.length (t ++ rest) = lexFrom 0 rest := by
  induction t with
  | nil => rfl
  | cons c t ih => exact ih

theorem lexFrom_gap {g : Text} (hg : ∀ c ∈ g, isGap c = true) (rest : Text) :
    lexFrom 0 (g ++ rest) = lexFrom 0 rest := by
  induction g with
  | nil => rfl
  | cons c g ih =>
    rw [List.cons_append, lexFrom, if_pos (hg c List.mem_cons_self)]
    exact ih fun c hc => hg c (List.mem_cons_of_mem _ hc)

/-- In front of what a number cannot go on with, the text is read as the lexemes. -/
def Spells (t : Text) (ls : List Lexeme) : Prop :=
  ∀ rest, Stops rest → lexFrom 0 (t ++ rest) = ls ++ lexFrom 0 rest

theorem spells_scanned {c : Char} {t : Text} {l : Lexeme} (hg : isGap c = false)
    (hs : ∀ rest, Stops rest → scan c (t ++ rest) = some (l, t.length)) : Spells (c :: t) [l] := by
  intro rest hr
  rw [List.cons_append, lexFrom, hg, if_neg Bool.false_ne_true, hs rest hr]
  dsimp only
  rw [lexFrom_length]
  rfl

def startsNumber (c : Char) : Bool := c == '-' || c.isDigit

theorem ne_of_startsNumber {c d : Char} (hc : startsNumber c = true) (hd : startsNumber d = false) :
    c ≠ d := by
  rintro rfl
  exact Bool.false_ne_true (hd.symm.trans hc)

theorem isGap_of_startsNumber {c : Char} (hc : startsNumber c = true) : isGap c = false := by
  have hne : ∀ d, startsNumber d = false → (c == d) = false := fun d hd =>
    beq_eq_false_iff_ne.mpr (ne_of_startsNumber hc hd)
  rw [isGap, hne ' ' rfl, hne '\n' rfl, hne '\t' rfl, hne '\r' rfl]
  rfl

theorem scan_number {c : Char} (hc : startsNumber c = true) (rest : Text) :
    scan c rest = (scanNumber (c :: rest)).map fun (l, n) => (.number l, n - 1) := by
  rw [scan] <;> exact ne_of_startsNumber hc rfl

theorem spells_number {l : Literal} (h : l.IsWritten) {x : Text} (hx : IsExponent l.exponent x) :
    Spells (l.textWith x) [.number l] := by
  obtain ⟨d, hd, hdigit⟩ := h.exists_head?
  obtain ⟨t, ht⟩ := List.head?_eq_some_iff.mp (List.append_nil (l.textWith x) ▸ l.head?_textWith hd x [])
  have hc : startsNumber (if l.negative then '-' else d) = true := by
    cases l.negative with
    | true => rfl
    | false => exact Bool.or_eq_true_iff.mpr (Or.inr hdigit)
  rw [ht]
  apply spells_scanned (isGap_of_startsNumber hc)
  intro rest hr
  have hs := h.scanNumber_textWith hx hr
  rw [ht] at hs
  rw [scan_number hc, ← List.cons_append, hs]
  rfl

theorem spells_string {s : Text} {parts : List Text} (h : List.Forall₂ Yields s parts) :
    Spells ('"' :: (parts.flatten ++ ['"'])) [.string (some s)] := by
  apply spells_scanned rfl
  intro rest _
  have hs := scanString_flatten h rest
  rw [List.append_assoc, List.length_append]
  exact hs

theorem spells_nil : Spells [] [] := fun _ _ => rfl

theorem stops_append {t rest : Text} (ht : Stops t) (hr : Stops rest) : Stops (t ++ rest) := by
  cases t with
  | nil => exact hr
  | cons c t => exact stops_cons (ht c rfl) _

theorem endsNumber_of_isGap {c : Char} (h : isGap c = true) : endsNumber c = true := by
  simp only [isGap, Bool.or_eq_true, beq_iff_eq] at h
  obtain ((rfl | rfl) | rfl) | rfl := h <;> rfl

theorem stops_of_isGap {g : Text} (hg : ∀ c ∈ g, isGap c = true) : Stops g := fun c hc =>
  endsNumber_of_isGap (hg c (List.mem_of_mem_head? hc))

namespace Spells

variable {t u : Text} {ls ms : List Lexeme}

theorem append (ht : Spells t ls) (hu : Spells u ms) (hs : Stops u) : Spells (t ++ u) (ls ++ ms) := by
  intro rest hr
  rw [List.append_assoc, List.append_assoc, ht _ (stops_append hs hr), hu _ hr]

theorem mark {c : Char} {l : Lexeme} (hc : ∀ rest, lexFrom 0 (c :: rest) = l :: lexFrom 0 rest)
    (h : Spells t ls) : Spells (c :: t) (l :: ls) := by
  intro rest hr
  rw [List.cons_append, hc, h _ hr, List.cons_append]

theorem joined {parts : List Text} {lss : List (List Lexeme)} (h : List.Forall₂ Spells parts lss) :
    Spells (List.intercalate [','] parts) (List.intercalate [.comma] lss) := by
  induction h with
  | nil => exact spells_nil
  | cons hp hps ih =>
    cases hps with
    | nil =>
      rw [List.intercalate_singleton, List.intercalate_singleton]
      exact hp
    | cons hq hqs =>
      rw [List.intercalate_cons_cons, List.intercalate_cons_cons, List.append_assoc, List.append_assoc]
      exact hp.append (ih.mark fun _ => rfl) (stops_cons rfl _)

end Spells

structure Brackets where
  opening : Char
  closing : Char
  openLexeme : Lexeme
  closeLexeme : Lexeme
  lexFrom_opening : ∀ rest, lexFrom 0 (opening :: rest) = openLexeme :: lexFrom 0 rest
  lexFrom_closing : ∀ rest, lexFrom 0 (closing :: rest) = closeLexeme :: lexFrom 0 rest
  endsNumber_closing : endsNumber closing = true

namespace Brackets

def square : Brackets := ⟨'[', ']', .arrayOpen, .arrayClose, fun _ => rfl, fun _ => rfl, rfl⟩

def curly : Brackets := ⟨'\x7b', '\x7d', .objectOpen, .objectClose, fun _ => rfl, fun _ => rfl, rfl⟩

variable (b : Brackets)

def enclose (lss : List (List Lexeme)) : List Lexeme :=
  b.openLexeme :: (List.intercalate [.comma] lss ++ [b.closeLexeme])

variable {parts : List Text} {lss : List (List Lexeme)}

def spaced (g : Text) (parts : List Text) (g' : Text) : Text :=
  b.opening :: (g ++ (List.intercalate [','] parts ++ (g' ++ [b.closing])))

theorem lexFrom_spaced {g g' : Text} (hg : ∀ c ∈ g, isGap c = true) (hg' : ∀ c ∈ g', isGap c = true)
    (h : List.Forall₂ Spells parts lss) (rest : Text) :
    lexFrom 0 (b.spaced g parts g' ++ rest) = b.enclose lss ++ lexFrom 0 rest := by
  have hs : Stops (g' ++ b.closing :: rest) :=
    stops_append (stops_of_isGap hg') (stops_cons b.endsNumber_closing rest)
  simp only [spaced, List.cons_append, List.append_assoc, List.nil_append]
  rw [b.lexFrom_opening, lexFrom_gap hg, Spells.joined h _ hs, lexFrom_gap hg', b.lexFrom_closing, enclose,
    List.cons_append, List.append_assoc, List.singleton_append]

end Brackets

end Lexeme

end ReceiptPrinter.Json
