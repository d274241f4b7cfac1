import ReceiptPrinter.Proofs.Json.Plain
import ReceiptPrinter.Proofs.Style.RoundTrip
import ReceiptPrinter.Proofs.Text.Split

namespace ReceiptPrinter

open Json Number

namespace Css

abbrev Declaration := Text × Text

def Declaration.text (d : Declaration) : Text := d.1 ++ ": ".toList ++ d.2

def Declaration.ofText (t : Text) : Declaration :=
  (t.takeWhile (· != ':'), (t.dropWhile (· != ':')).drop 2)

def read (t : Text) : List Declaration :=
  (Text.splitOn (· == ';') t).dropLast.map fun d => .ofText (Text.trimStart d)

def value? (name t : Text) : Option Text := (read t).lookup name

/-- A declaration is plain if its text can be told apart at the marks. -/
structure Declaration.IsPlain (d : Declaration) : Prop where
  startsBlank : Text.startsBlank d.1 = false
  colon_not_mem : ':' ∉ d.1
  semicolon_not_mem : ';' ∉ d.1 ++ d.2

namespace Declaration

instance (d : Declaration) : Decidable d.IsPlain :=
  decidable_of_iff (Text.startsBlank d.1 = false ∧ ':' ∉ d.1 ∧ ';' ∉ d.1 ++ d.2)
    ⟨fun h => ⟨h.1, h.2.1, h.2.2⟩, fun h => ⟨h.startsBlank, h.colon_not_mem, h.semicolon_not_mem⟩⟩

variable {d : Declaration} (h : d.IsPlain)
include h

theorem IsPlain.ofText_text : ofText d.text = d := by
  have hn : ∀ c ∈ d.1, (c != ':') = true := by
    rintro c hc
    refine bne_iff_ne.mpr ?_
    rintro rfl
    exact h.colon_not_mem hc
  have ht : d.text = d.1 ++ ':' :: ' ' :: d.2 := List.append_assoc _ _ _
  rw [ofText, ht, List.takeWhile_append_of_pos hn, List.dropWhile_append_of_pos hn,
    List.takeWhile_cons_of_neg (by decide), List.dropWhile_cons_of_neg (by decide), List.append_nil]
  rfl

theorem IsPlain.semicolon_not_mem_text : ';' ∉ d.text := by
  have hs : ';' ∉ ": ".toList := by decide
  have hd := h.semicolon_not_mem
  rw [List.mem_append, not_or] at hd
  rw [text, List.mem_append, List.mem_append, not_or, not_or]
  exact ⟨⟨hd.1, hs⟩, hd.2⟩

theorem IsPlain.trimStart_text : Text.trimStart d.text = d.text := by
  obtain ⟨name, value⟩ := d
  cases name with
  | nil => exact List.dropWhile_cons_of_neg (by decide)
  | cons c name =>
    have hc : isSpace c = false := h.startsBlank
    exact List.dropWhile_cons_of_neg (by rw [hc]; decide)

theorem IsPlain.read_append (t : Text) : read (d.text ++ ';' :: t) = d :: read t := by
  have hn : ∀ c ∈ d.text, (c == ';') = false := by
    intro c hc
    rw [beq_eq_false_iff_ne]
    rintro rfl
    exact h.semicolon_not_mem_text hc
  rw [read, Text.splitOn_append_cons rfl, Text.splitOn_eq_singleton hn, List.singleton_append,
    List.dropLast_cons_of_ne_nil (Text.splitOn_ne_nil _ t), List.map_cons, h.trimStart_text, h.ofText_text]
  rfl

end Declaration

theorem read_nil : read [] = [] := rfl

theorem read_blank_cons (t : Text) : read (' ' :: t) = read t := by
  obtain ⟨p, ps, hp⟩ := List.exists_cons_of_ne_nil (Text.splitOn_ne_nil (· == ';') t)
  have hs : Text.splitOn (· == ';') (' ' :: t) = (' ' :: p) :: ps := by
    rw [Text.splitOn_cons, hp]
    rfl
  rw [read, read, hs, hp]
  cases ps <;> rfl

theorem read_intercalate {ds : List Declaration} (h : ∀ d ∈ ds, d.IsPlain) :
    read (List.intercalate [' '] (ds.map fun d => d.text ++ [';'])) = ds := by
  induction ds with
  | nil => exact read_nil
  | cons d ds ih =>
    obtain ⟨hd, hds⟩ := List.forall_mem_cons.mp h
    cases ds with
    | nil =>
      rw [List.map_singleton, List.intercalate_singleton]
      exact hd.read_append []
    | cons e es =>
      have ht : List.intercalate [' '] ((d :: e :: es).map fun d => d.text ++ [';']) =
          d.text ++ ';' :: ' ' :: List.intercalate [' '] ((e :: es).map fun d => d.text ++ [';']) := by
        rw [List.map_cons, List.map_cons, List.intercalate_cons_cons, List.append_assoc, List.append_assoc]
        rfl
      rw [ht, hd.read_append, read_blank_cons, ih hds]

end Css

namespace Style

variable (s : Style)

theorem semicolon_not_mem_plainText (x : Single) : ';' ∉ x.plainText := by
  intro h
  obtain hd | hc := Single.mem_plainText h
  · cases hd
  · exact absurd hc (by decide)

theorem isPlain_of_mem_declarations : ∀ d ∈ s.declarations, Css.Declaration.IsPlain d := by
  simp only [declarations, List.forall_mem_append, List.forall_mem_cons]
  refine ⟨⟨⟨⟨?weight, ?size, by simp⟩, ?width⟩, ?alignment, ?decoration, by simp⟩, ?transform⟩
  case weight => cases s.bold <;> decide
  case size =>
    refine ⟨rfl, by simp, ?_⟩
    simp [semicolon_not_mem_plainText]
  case width => cases s.isWide <;> decide
  case alignment => cases s.alignment <;> decide
  case decoration =>
    rw [decoration]
    cases s.underline <;> cases s.strike <;> decide
  case transform => cases s.rotated <;> decide

theorem read_css : Css.read s.css = s.declarations :=
  Css.read_intercalate s.isPlain_of_mem_declarations

theorem value?_css (name : Text) : Css.value? name s.css = s.declarations.lookup name :=
  congrArg (List.lookup name) s.read_css

theorem weight_css : Css.value? "font-weight".toList s.css =
    some (if s.bold then "bold".toList else "normal".toList) := s.value?_css _

theorem size_css : Css.value? "font-size".toList s.css = some (s.fontSize.plainText ++ "em".toList) :=
  s.value?_css _

theorem width_css : Css.value? "width".toList s.css = if s.isWide then some "200%".toList else none := by
  rw [value?_css, declarations]
  cases s.isWide <;> cases s.rotated <;> rfl

theorem alignment_css : Css.value? "text-align".toList s.css = some s.alignment.name := by
  rw [value?_css, declarations]
  cases s.isWide <;> rfl

theorem decoration_css : Css.value? "text-decoration".toList s.css = some s.decoration := by
  rw [value?_css, declarations]
  cases s.isWide <;> rfl

theorem transform_css : Css.value? "transform".toList s.css =
    if s.rotated then some "rotate(-90deg)".toList else none := by
  rw [value?_css, declarations]
  cases s.isWide <;> cases s.rotated <;> rfl

theorem underline_eq : s.underline = (Text.words s.decoration).contains "underline".toList := by
  rw [decoration]
  cases s.underline <;> cases s.strike <;> rfl

theorem strike_eq : s.strike = (Text.words s.decoration).contains "line-through".toList := by
  rw [decoration]
  cases s.underline <;> cases s.strike <;> rfl

end Style

theorem Alignment.name_injective : Function.Injective name := fun a b h =>
  Option.some_inj.mp (a.named_name.symm.trans ((congrArg named h).trans b.named_name))

theorem eq_of_ite_eq {α : Type} {a b : α} (hab : a ≠ b) {p q : Bool}
    (h : (if p then a else b) = if q then a else b) : p = q := by
  cases p <;> cases q
  · rfl
  · exact absurd h.symm hab
  · exact absurd h hab
  · rfl

/-- The declarations of a style show seven of its properties, each of them in full, and nothing else. -/
theorem Style.css_eq_iff (s s' : Style) : s.css = s'.css ↔
    s.bold = s'.bold ∧ s.fontSize = s'.fontSize ∧ s.isWide = s'.isWide ∧ s.alignment = s'.alignment ∧
      s.underline = s'.underline ∧ s.strike = s'.strike ∧ s.rotated = s'.rotated := by
  constructor
  · intro h
    have hv := fun name => congrArg (Css.value? name) h
    have hd : s.decoration = s'.decoration := by
      have hd := hv "text-decoration".toList
      rwa [decoration_css, decoration_css, Option.some_inj] at hd
    refine ⟨?_, ?_, ?_, ?_, ?_, ?_, ?_⟩
    · have hb := hv "font-weight".toList
      rw [weight_css, weight_css, Option.some_inj] at hb
      exact eq_of_ite_eq (by decide) hb
    · have hf := hv "font-size".toList
      rw [size_css, size_css, Option.some_inj] at hf
      exact Single.plainText_injective (List.append_cancel_right hf)
    · have hw := hv "width".toList
      rw [width_css, width_css] at hw
      exact eq_of_ite_eq (by decide) hw
    · have ha := hv "text-align".toList
      rw [alignment_css, alignment_css, Option.some_inj] at ha
      exact Alignment.name_injective ha
    · rw [s.underline_eq, s'.underline_eq, hd]
    · rw [s.strike_eq, s'.strike_eq, hd]
    · have hr := hv "transform".toList
      rw [transform_css, transform_css] at hr
      exact eq_of_ite_eq (by decide) hr
  · rintro ⟨hb, hf, hw, ha, hu, hs, hr⟩
    rw [css, css, declarations, declarations, decoration, decoration, hb, hf, hw, ha, hu, hs, hr]

end ReceiptPrinter
