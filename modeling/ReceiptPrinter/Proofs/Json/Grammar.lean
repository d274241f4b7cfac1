import ReceiptPrinter.Json.Decoding
import ReceiptPrinter.Proofs.Json.Spelling

namespace ReceiptPrinter.Json

open Lexeme

def shortEscapes : List (Char × Char) :=
  [('"', '"'), ('\\', '\\'), ('/', '/'), ('b', '\x08'), ('f', '\x0c'), ('n', '\n'), ('r', '\r'), ('t', '\t')]

/-- The ways to write a character between quotes: as itself, with a letter behind a backslash, by its number,
or by the two numbers of a surrogate pair. -/
inductive IsEscape : Char → Text → Prop where
  | itself {c : Char} (hq : c ≠ '"') (hb : c ≠ '\\') (hc : ' ' ≤ c) : IsEscape c [c]
  | short {e c : Char} (h : (e, c) ∈ shortEscapes) : IsEscape c ['\\', e]
  | unit {c : Char} {t : Text} (hc : c.toNat < 0x10000) (ht : Hex.IsSpelling 4 c.toNat t) :
    IsEscape c ('\\' :: 'u' :: t)
  | pair {c : Char} {m n : Nat} {t u : Text} (hc : c.toNat = 0x10000 + m * 0x400 + n) (hn : n < 0x400)
      (ht : Hex.IsSpelling 4 (0xd800 + m) t) (hu : Hex.IsSpelling 4 (0xdc00 + n) u) :
    IsEscape c ('\\' :: 'u' :: (t ++ '\\' :: 'u' :: u))

theorem IsEscape.yields {c : Char} {t : Text} (h : IsEscape c t) : Yields c t := by
  cases h with
  | itself hq hb hc => exact (scans_plain hq hb (Char.not_lt.mpr hc)).yields
  | @short e _ h =>
    have hall : ∀ p ∈ shortEscapes, p.1 ≠ 'u' ∧ shortEscape p.1 = some p.2 := by decide
    exact (scans_short (hall _ h).1 (hall _ h).2).yields
  | unit hc ht => exact (scans_unit hc ht).yields
  | pair hc hn ht hu => exact yields_pair hc hn ht hu

namespace Value

structure Entry where
  key : Text
  value : Value
  keyText : Text
  valueText : Text

def Entry.text (e : Entry) : Text := e.keyText ++ ':' :: e.valueText

def IsGap (g : Text) : Prop := g ⊆ [' ', '\n', '\t', '\r']

/-- The text is JSON for the value. Each character of a string and each exponent is written in some way, and
there may be gaps around all that stands in it. -/
inductive IsText : Value → Text → Prop where
  | null : IsText .null ['n', 'u', 'l', 'l']
  | bool (b : Bool) : IsText (.bool b) (if b then ['t', 'r', 'u', 'e'] else ['f', 'a', 'l', 's', 'e'])
  | number {l : Literal} {x : Text} (h : l.IsWritten) (hx : IsExponent l.exponent x) :
    IsText (.number l) (l.textWith x)
  | text {t : Text} {parts : List Text} (h : List.Forall₂ IsEscape t parts) :
    IsText (.ofText t) ('"' :: (parts.flatten ++ ['"']))
  | array (ps : List (Value × Text)) {g g' : Text} (hg : IsGap g) (hg' : IsGap g')
      (h : ∀ p ∈ ps, IsText p.1 p.2) :
    IsText (.array (ps.map Prod.fst)) (Brackets.square.spaced g (ps.map Prod.snd) g')
  | object (es : List Entry) {g g' : Text} (hg : IsGap g) (hg' : IsGap g')
      (hk : ∀ e ∈ es, IsText (.ofText e.key) e.keyText) (hv : ∀ e ∈ es, IsText e.value e.valueText) :
    IsText (.ofMembers (es.map fun e => (e.key, e.value))) (Brackets.curly.spaced g (es.map Entry.text) g')
  | padded {v : Value} {t g g' : Text} (hg : IsGap g) (hg' : IsGap g') (h : IsText v t) :
    IsText v (g ++ (t ++ g'))

theorem intactItems_eq (items : List Value) : intactItems items = items.all intact := by
  induction items with
  | nil => rfl
  | cons v items ih => rw [intactItems, ih, List.all_cons]

theorem intactMembers_eq (ms : List Member) : intactMembers ms = ms.all (·.2.intact) := by
  induction ms with
  | nil => rfl
  | cons m ms ih => rw [intactMembers, ih, List.all_cons]

def memberLexemes (m : Member) : List Lexeme := .string m.1 :: .colon :: m.2.lexemes

theorem lexemesItems_eq (v : Value) (items : List Value) : v.lexemes ++ lexemesItems items =
    List.intercalate [.comma] ((v :: items).map lexemes) ++ [.arrayClose] := by
  induction items generalizing v with
  | nil => rw [lexemesItems, List.map_singleton, List.intercalate_singleton]
  | cons w items ih =>
    simp only [lexemesItems, ih, List.map_cons, List.intercalate_cons_cons, List.append_assoc,
      List.cons_append, List.nil_append]

theorem lexemes_array (items : List Value) :
    lexemes (.array items) = Brackets.square.enclose (items.map lexemes) := by
  cases items with
  | nil => rfl
  | cons v items =>
    rw [lexemes, lexemesItems_eq]
    rfl

theorem lexemesMembers_eq (m : Member) (ms : List Member) : memberLexemes m ++ lexemesMembers ms =
    List.intercalate [.comma] ((m :: ms).map memberLexemes) ++ [.objectClose] := by
  induction ms generalizing m with
  | nil => rw [lexemesMembers, List.map_singleton, List.intercalate_singleton]
  | cons n ms ih =>
    have hn : lexemesMembers (n :: ms) = .comma :: (memberLexemes n ++ lexemesMembers ms) := rfl
    simp only [hn, ih, List.map_cons, List.intercalate_cons_cons, List.append_assoc, List.cons_append,
      List.nil_append]

theorem lexemes_object (ms : List Member) :
    lexemes (.object ms) = Brackets.curly.enclose (ms.map memberLexemes) := by
  cases ms with
  | nil => rfl
  | cons m ms =>
    have hm : lexemes (.object (m :: ms)) = .objectOpen :: (memberLexemes m ++ lexemesMembers ms) := rfl
    rw [hm, lexemesMembers_eq]
    rfl

theorem forall₂_map {α β γ : Type} {r : β → γ → Prop} {f : α → β} {g : α → γ} {l : List α}
    (h : ∀ a ∈ l, r (f a) (g a)) : List.Forall₂ r (l.map f) (l.map g) := by
  rw [List.forall₂_map_left_iff, List.forall₂_map_right_iff, List.forall₂_same]
  exact h

theorem isGap_iff {g : Text} : IsGap g ↔ ∀ c ∈ g, isGap c = true := by
  have hc : ∀ c, isGap c = true ↔ c ∈ [' ', '\n', '\t', '\r'] := by simp [isGap, or_assoc]
  exact forall₂_congr fun c _ => (hc c).symm

/-- The value ends with a bracket, so anything may follow it. -/
def isClosed : Value → Bool
  | .array _ => true
  | .object _ => true
  | _ => false

theorem lexFrom_array {ps : List (Value × Text)} {g g' : Text} (hg : IsGap g) (hg' : IsGap g')
    (h : ∀ p ∈ ps, Spells p.2 p.1.lexemes) (rest : Text) :
    lexFrom 0 (Brackets.square.spaced g (ps.map Prod.snd) g' ++ rest) =
      lexemes (.array (ps.map Prod.fst)) ++ lexFrom 0 rest := by
  rw [lexemes_array, List.map_map]
  exact Brackets.square.lexFrom_spaced (isGap_iff.mp hg) (isGap_iff.mp hg') (forall₂_map h) rest

theorem lexFrom_object {es : List Entry} {g g' : Text} (hg : IsGap g) (hg' : IsGap g')
    (hk : ∀ e ∈ es, Spells e.keyText [.string (some e.key)])
    (hv : ∀ e ∈ es, Spells e.valueText e.value.lexemes) (rest : Text) :
    lexFrom 0 (Brackets.curly.spaced g (es.map Entry.text) g' ++ rest) =
      lexemes (.ofMembers (es.map fun e => (e.key, e.value))) ++ lexFrom 0 rest := by
  have hm : ∀ e ∈ es, Spells e.text (memberLexemes (some e.key, e.value)) := fun e he =>
    (hk e he).append ((hv e he).mark fun _ => rfl) (stops_cons rfl _)
  rw [ofMembers, lexemes_object, List.map_map, List.map_map]
  exact Brackets.curly.lexFrom_spaced (isGap_iff.mp hg) (isGap_iff.mp hg') (forall₂_map hm) rest

namespace IsText

variable {v : Value} {t : Text}

theorem intact (h : IsText v t) : v.intact = true := by
  induction h with
  | array _ _ _ _ ih =>
    rw [Value.intact, intactItems_eq, List.all_map, List.all_eq_true]
    exact ih
  | object _ _ _ _ _ _ ihv =>
    rw [ofMembers, Value.intact, intactMembers_eq, List.all_map, List.all_map, List.all_eq_true]
    exact ihv
  | padded _ _ _ ih => exact ih
  | _ => rfl

theorem spells (h : IsText v t) : Spells t v.lexemes := by
  induction h with
  | null => exact spells_scanned rfl fun _ _ => rfl
  | bool b => cases b <;> exact spells_scanned rfl fun _ _ => rfl
  | number h hx => exact spells_number h hx
  | text h => exact spells_string (h.imp fun _ _ => IsEscape.yields)
  | array _ hg hg' _ ih => exact fun rest _ => lexFrom_array hg hg' ih rest
  | object _ hg hg' _ _ ihk ihv => exact fun rest _ => lexFrom_object hg hg' ihk ihv rest
  | padded hg hg' _ ih =>
    intro rest hr
    have hs := stops_append (stops_of_isGap (isGap_iff.mp hg')) hr
    rw [List.append_assoc, List.append_assoc, lexFrom_gap (isGap_iff.mp hg), ih _ hs,
      lexFrom_gap (isGap_iff.mp hg')]

theorem lexFrom_append (h : IsText v t) (hc : v.isClosed = true) (rest : Text) :
    lexFrom 0 (t ++ rest) = v.lexemes ++ lexFrom 0 rest := by
  induction h generalizing rest with
  | array _ hg hg' h _ => exact lexFrom_array hg hg' (fun p hp => (h p hp).spells) rest
  | object _ hg hg' hk hv _ _ =>
    exact lexFrom_object hg hg' (fun e he => (hk e he).spells) (fun e he => (hv e he).spells) rest
  | padded hg hg' _ ih =>
    rw [List.append_assoc, List.append_assoc, lexFrom_gap (isGap_iff.mp hg), ih hc,
      lexFrom_gap (isGap_iff.mp hg')]
  | _ => cases hc

theorem read_append (h : IsText v t) (hc : v.isClosed = true) (rest : Text) : (read (t ++ rest)).1 = v := by
  rw [read, lex, h.lexFrom_append hc, readValue_lexemes v [] _ h.intact, readNext]

theorem read_eq (h : IsText v t) : read t = (v, []) := by
  have hl : lex t = v.lexemes ++ [] := by
    have hr := h.spells [] stops_nil
    rwa [List.append_nil] at hr
  rw [read, hl, readValue_lexemes v [] [] h.intact, readNext]

theorem whole?_eq (h : IsText v t) : whole? t = some v := by
  rw [whole?, h.read_eq]
  exact if_pos h.intact

end IsText

end Value

end ReceiptPrinter.Json
