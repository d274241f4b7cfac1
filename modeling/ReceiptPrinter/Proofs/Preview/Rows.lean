import Mathlib.Data.List.DropRight
import Mathlib.Data.List.SplitBy
import ReceiptPrinter.Preview

namespace ReceiptPrinter

namespace Preview

/-- A character of print with the style of the token that brings it. -/
abbrev Glyph := Char × Style

def glyphs (content : Text) (s : Style) : List Glyph := content.map (·, s)

theorem glyphs_cons (c : Char) (t : Text) (s : Style) : glyphs (c :: t) s = (c, s) :: glyphs t s := rfl

theorem map_fst_glyphs (c : Text) (s : Style) : (glyphs c s).map Prod.fst = c := by
  rw [glyphs, List.map_map]
  exact List.map_id c

/-- The text in front of the first code, and every code with the text behind it. -/
structure Cut where
  lead : List Glyph
  coded : List (UInt32 × Style × List Glyph)

structure Row where
  text : Text
  style : Style

namespace Row

/-- A line has the style of its last character. -/
def ofGlyphs (gs : List Glyph) : Row := ⟨gs.map Prod.fst, (gs.getLast?.map Prod.snd).getD {}⟩

def trimmed (r : Row) : Text := r.text.rdropWhile isSpace

def columns (paper : Paper) (r : Row) : Nat :=
  match r.style.width with
  | .normal => paper.columns
  | .wide => paper.columns / 2

def pad (paper : Paper) (r : Row) : Nat := (max 0 ((r.columns paper : Int) - r.trimmed.length)).toNat

def margin (paper : Paper) (r : Row) : Nat :=
  match r.style.alignment with
  | .left => 0
  | .center => r.pad paper / 2
  | .right => r.pad paper

def print (paper : Paper) (r : Row) : Text :=
  (if r.trimmed = [] then [] else List.replicate (r.margin paper) ' ' ++ r.trimmed) ++ ['\n']

end Row

def lines (gs : List Glyph) : List Row := (gs.splitBy fun g _ => g.1 != '\n').map Row.ofGlyphs

def codeRows (size : UInt32) (s : Style) : List Row :=
  let side := max (size.toNat / 25) 1
  List.replicate side ⟨List.replicate (2 * side) '#', s⟩

namespace Cut

def ofTokens : List Token → Cut
  | [] => ⟨[], []⟩
  | .text content s :: rest => ⟨glyphs content s ++ (ofTokens rest).lead, (ofTokens rest).coded⟩
  | .qr size s :: rest => ⟨[], (size, s, (ofTokens rest).lead) :: (ofTokens rest).coded⟩

def rows (c : Cut) : List Row :=
  lines c.lead ++ c.coded.flatMap fun (size, s, gs) => codeRows size s ++ lines gs

theorem ofTokens_congr {a b : List Token} (h : ofTokens a = ofTokens b) (before : List Token) :
    ofTokens (before ++ a) = ofTokens (before ++ b) := by
  induction before with
  | nil => exact h
  | cons t before ih =>
    cases t with
    | text content s => simp only [List.cons_append, ofTokens, ih]
    | qr size s => simp only [List.cons_append, ofTokens, ih]

theorem ofTokens_split (a b : Text) (s : Style) (rest : List Token) :
    ofTokens (.text (a ++ b) s :: rest) = ofTokens (.text a s :: .text b s :: rest) := by
  simp only [ofTokens, glyphs, List.map_append, List.append_assoc]

theorem ofTokens_empty (s : Style) (rest : List Token) : ofTokens (.text [] s :: rest) = ofTokens rest :=
  rfl

end Cut

namespace Row

theorem trimmed_eq (r : Row) : r.trimmed = Text.trimEnd r.text := rfl

theorem pad_eq (paper : Paper) (r : Row) : r.pad paper = r.columns paper - r.trimmed.length := by
  rw [pad]
  omega

theorem print_eq (paper : Paper) (s : Style) (t : Text) : print paper ⟨t, s⟩ = row paper s t := by
  have hc : columns paper ⟨t, s⟩ = Preview.columns paper s := by
    rw [columns, Preview.columns, Style.isWide]
    cases s.width <;> rfl
  have hp : pad paper ⟨t, s⟩ = Preview.columns paper s - (Text.trimEnd t).length := by
    rw [pad_eq, hc, trimmed_eq]
  have hm : margin paper ⟨t, s⟩ =
      indent s.alignment (Preview.columns paper s - (Text.trimEnd t).length) := by
    rw [margin, hp]
    cases s.alignment <;> rfl
  rw [print, row, trimmed_eq, hm]
  cases Text.trimEnd t with
  | nil => simp
  | cons c u => simp [Text.spaces]

theorem print_append_newline (paper : Paper) (s : Style) (t : Text) :
    print paper ⟨t ++ ['\n'], s⟩ = row paper s t := by
  have ht : Text.trimEnd (t ++ ['\n']) = Text.trimEnd t := by
    rw [Text.trimEnd, List.reverse_append]
    rfl
  rw [print_eq, row, row, ht]

end Row

theorem isChain_iff {l : List Glyph} :
    (l.IsChain fun g _ => (g.1 != '\n') = true) ↔ ∀ g ∈ l.dropLast, g.1 ≠ '\n' := by
  induction l with
  | nil => exact ⟨fun _ _ => nofun, fun _ => .nil⟩
  | cons g l ih =>
    cases l with
    | nil => exact ⟨fun _ _ => nofun, fun _ => .singleton g⟩
    | cons k l =>
      rw [List.isChain_cons_cons, ih, bne_iff_ne, List.dropLast_cons_cons, List.forall_mem_cons]

theorem lines_of_dropLast {l : List Glyph} (hl : ∀ g ∈ l.dropLast, g.1 ≠ '\n') (h0 : l ≠ []) :
    lines l = [Row.ofGlyphs l] := by
  rw [lines, List.splitBy_of_isChain h0 (isChain_iff.mpr hl), List.map_singleton]

theorem lines_append {gs : List Glyph} (h : ∀ g ∈ gs.getLast?, g.1 = '\n') (hs : List Glyph) :
    lines (gs ++ hs) = lines gs ++ lines hs := by
  rw [lines, List.splitBy_append, List.map_append]
  · rfl
  · intro g hg k _
    rw [h g hg]
    rfl

theorem lines_append_newline {gs : List Glyph} (hn : ∀ g ∈ gs, g.1 ≠ '\n') (s : Style)
    (hs : List Glyph) :
    lines (gs ++ ('\n', s) :: hs) = Row.ofGlyphs (gs ++ [('\n', s)]) :: lines hs := by
  have hl : lines (gs ++ [('\n', s)]) = [Row.ofGlyphs (gs ++ [('\n', s)])] := by
    apply lines_of_dropLast
    · rwa [List.dropLast_concat]
    · exact List.concat_ne_nil _ _
  have he : ∀ g ∈ (gs ++ [('\n', s)]).getLast?, g.1 = '\n' := by
    rw [List.getLast?_concat]
    rintro _ ⟨⟩
    rfl
  have ha : gs ++ ('\n', s) :: hs = (gs ++ [('\n', s)]) ++ hs := by
    rw [List.append_assoc, List.singleton_append]
  rw [ha, lines_append he, hl, List.singleton_append]

def printAll (paper : Paper) (rs : List Row) : Text := rs.flatMap (Row.print paper)

def rowsFrom (gs : List Glyph) (ts : List Token) : List Row :=
  Cut.rows ⟨gs ++ (Cut.ofTokens ts).lead, (Cut.ofTokens ts).coded⟩

theorem rowsFrom_nil (gs : List Glyph) : rowsFrom gs [] = lines gs := by
  simp [rowsFrom, Cut.ofTokens, Cut.rows]

theorem rowsFrom_text (gs : List Glyph) (c : Text) (s : Style) (ts : List Token) :
    rowsFrom gs (.text c s :: ts) = rowsFrom (gs ++ glyphs c s) ts := by
  simp [rowsFrom, Cut.ofTokens]

theorem rowsFrom_qr (gs : List Glyph) (n : UInt32) (s : Style) (ts : List Token) :
    rowsFrom gs (.qr n s :: ts) = lines gs ++ codeRows n s ++ rowsFrom [] ts := by
  simp [rowsFrom, Cut.ofTokens, Cut.rows]

theorem rowsFrom_append_newline {gs : List Glyph} (hn : ∀ g ∈ gs, g.1 ≠ '\n') (s : Style)
    (hs : List Glyph) (ts : List Token) :
    rowsFrom (gs ++ ('\n', s) :: hs) ts = Row.ofGlyphs (gs ++ [('\n', s)]) :: rowsFrom hs ts := by
  simp only [rowsFrom, Cut.rows, List.append_assoc, List.cons_append]
  rw [lines_append_newline hn, List.cons_append]

structure Held.IsOf (h : Held) (gs : List Glyph) : Prop where
  text : h.text = gs.map Prod.fst
  style : ∀ g ∈ gs.getLast?, g.2 = h.style
  ne_newline : ∀ g ∈ gs, g.1 ≠ '\n'

variable (paper : Paper) {h : Held} {gs : List Glyph}

theorem feed_newline (s : Style) (held : Text) {pieces : List Text} (hp : pieces ≠ []) :
    feed paper s held ([] :: pieces) =
      (row paper s held ++ (feed paper s [] pieces).1, (feed paper s [] pieces).2) := by
  obtain ⟨p, ps, rfl⟩ := List.exists_cons_of_ne_nil hp
  simp [feed]

theorem feed_char (s : Style) (held : Text) (c : Char) (p : Text) (ps : List Text) :
    feed paper s held ((c :: p) :: ps) = feed paper s (held ++ [c]) (p :: ps) := by
  cases ps <;> simp [feed]

theorem layout_text (c : Text) (s : Style) (ts : List Token) :
    layout paper h (.text c s :: ts) =
      (feed paper s h.text (Text.splitOn (· == '\n') c)).1 ++
        layout paper ⟨(feed paper s h.text (Text.splitOn (· == '\n') c)).2,
          if c.isEmpty then h.style else s⟩ ts := rfl

theorem layout_empty (s : Style) (ts : List Token) :
    layout paper h (.text [] s :: ts) = layout paper h ts := by
  simp [layout_text, Text.splitOn, feed]

theorem layout_newline (s : Style) (c : Text) (ts : List Token) :
    layout paper h (.text ('\n' :: c) s :: ts) =
      row paper s h.text ++ layout paper ⟨[], s⟩ (.text c s :: ts) := by
  have hs : Text.splitOn (· == '\n') ('\n' :: c) = [] :: Text.splitOn (· == '\n') c := rfl
  rw [layout_text, layout_text, hs, feed_newline _ _ _ (Text.splitOn_ne_nil _ c)]
  simp

theorem layout_char (s : Style) {x : Char} (hx : x ≠ '\n') (c : Text) (ts : List Token) :
    layout paper h (.text (x :: c) s :: ts) =
      layout paper ⟨h.text ++ [x], s⟩ (.text c s :: ts) := by
  obtain ⟨p, ps, hp⟩ := List.exists_cons_of_ne_nil (Text.splitOn_ne_nil (· == '\n') c)
  rw [layout_text, layout_text, Text.splitOn_cons, if_neg (by simpa using hx), hp]
  simp [feed_char]

namespace Held.IsOf

theorem nil (s : Style) : IsOf ⟨[], s⟩ [] where
  text := rfl
  style := fun _ h => nomatch h
  ne_newline := fun _ h => nomatch h

theorem concat (hh : h.IsOf gs) (s : Style) {x : Char} (hx : x ≠ '\n') :
    IsOf ⟨h.text ++ [x], s⟩ (gs ++ [(x, s)]) where
  text := by rw [hh.text, List.map_append, List.map_singleton]
  style := by
    rw [List.getLast?_concat]
    rintro _ ⟨⟩
    rfl
  ne_newline := by
    rw [List.forall_mem_append]
    exact ⟨hh.ne_newline, List.forall_mem_singleton.mpr hx⟩

theorem row_eq (hh : h.IsOf gs) (s : Style) :
    row paper s h.text = (Row.ofGlyphs (gs ++ [('\n', s)])).print paper := by
  have hr : Row.ofGlyphs (gs ++ [('\n', s)]) = ⟨h.text ++ ['\n'], s⟩ := by
    rw [Row.ofGlyphs, hh.text, List.getLast?_concat, List.map_append]
    rfl
  rw [hr, Row.print_append_newline]

theorem flush_eq (hh : h.IsOf gs) : h.flush paper = printAll paper (lines gs) := by
  by_cases h0 : gs = []
  · subst h0
    rw [Held.flush, hh.text]
    rfl
  · have hl : ∀ g ∈ gs.dropLast, g.1 ≠ '\n' :=
      fun g hg => hh.ne_newline g (List.dropLast_subset gs hg)
    have hg : gs.getLast? = some (gs.getLast h0) := List.getLast?_eq_some_getLast h0
    have hr : Row.ofGlyphs gs = ⟨h.text, h.style⟩ := by
      rw [Row.ofGlyphs, hg, hh.text, ← hh.style _ hg]
      rfl
    have ht : h.text ≠ [] := by
      rw [hh.text]
      exact List.map_eq_nil_iff.not.mpr h0
    rw [Held.flush, if_neg (List.isEmpty_iff.not.mpr ht), lines_of_dropLast hl h0, hr, printAll,
      List.flatMap_singleton, Row.print_eq]

end Held.IsOf

theorem square_eq (n : UInt32) (s : Style) :
    square paper s n = printAll paper (codeRows n s) := by
  rw [square, printAll, codeRows, List.flatMap_replicate, Row.print_eq]
  rfl

theorem layout_text_eq {ts : List Token}
    (ih : ∀ {h : Held} {gs : List Glyph}, h.IsOf gs → layout paper h ts = printAll paper (rowsFrom gs ts))
    (hh : h.IsOf gs) (c : Text) (s : Style) :
    layout paper h (.text c s :: ts) = printAll paper (rowsFrom (gs ++ glyphs c s) ts) := by
  induction c generalizing h gs with
  | nil =>
    rw [layout_empty, ih hh, glyphs, List.map_nil, List.append_nil]
  | cons x c ihc =>
    by_cases hx : x = '\n'
    · subst hx
      rw [layout_newline, ihc (.nil s), hh.row_eq, glyphs_cons,
        rowsFrom_append_newline hh.ne_newline, printAll, printAll, List.flatMap_cons]
      rfl
    · rw [layout_char _ _ hx, ihc (hh.concat s hx), glyphs_cons, List.append_assoc,
        List.singleton_append]

theorem layout_eq (hh : h.IsOf gs) (ts : List Token) :
    layout paper h ts = printAll paper (rowsFrom gs ts) := by
  induction ts generalizing h gs with
  | nil =>
    rw [layout, hh.flush_eq, rowsFrom_nil]
  | cons t ts ih =>
    cases t with
    | text c s =>
      rw [layout_text_eq paper ih hh, rowsFrom_text]
    | qr n s =>
      rw [layout, hh.flush_eq, square_eq, ih (.nil {}), rowsFrom_qr]
      simp only [printAll, List.flatMap_append]

end Preview

namespace Printout

def rows (p : Printout) : List Preview.Row := (Preview.Cut.ofTokens p.tokens).rows

theorem preview_eq_printAll (p : Printout) (paper : Paper) :
    p.preview paper = Preview.printAll paper p.rows :=
  Preview.layout_eq paper (.nil {}) p.tokens

/-- The preview prints the rows of the text between codes and of the codes, each placed on the roll for
itself. So it does not matter how the text is divided among tokens of one style, nor where tokens without
text stand. -/
theorem preview_eq_rows (p : Printout) (paper : Paper) :
    p.preview paper = p.rows.flatMap (Preview.Row.print paper) ∧
      ∀ (before after : List Token) (log : List Notice) (s : Style),
        (∀ a b : Text, preview ⟨before ++ .text (a ++ b) s :: after, log⟩ paper =
          preview ⟨before ++ .text a s :: .text b s :: after, log⟩ paper) ∧
        preview ⟨before ++ .text [] s :: after, log⟩ paper =
          preview ⟨before ++ after, log⟩ paper := by
  refine ⟨p.preview_eq_printAll paper, fun before after log s => ⟨fun a b => ?_, ?_⟩⟩
  · simp only [preview_eq_printAll, rows]
    rw [Preview.Cut.ofTokens_congr (Preview.Cut.ofTokens_split a b s after)]
  · simp only [preview_eq_printAll, rows]
    rw [Preview.Cut.ofTokens_congr (Preview.Cut.ofTokens_empty s after)]

end Printout

end ReceiptPrinter
