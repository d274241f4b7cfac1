import ReceiptPrinter.Proofs.Preview.Joining

namespace ReceiptPrinter

namespace Text

def ink (t : Text) : Text := t.filter fun c => !isSpace c

theorem ink_append (t u : Text) : ink (t ++ u) = ink t ++ ink u := List.filter_append ..

theorem ink_flatMap {α : Type} (l : List α) (f : α → Text) :
    ink (l.flatMap f) = l.flatMap fun a => ink (f a) := List.filter_flatMap ..

theorem ink_eq_nil_iff {t : Text} : ink t = [] ↔ ∀ c ∈ t, isSpace c = true := by
  simp [ink]

theorem ink_eq_self {t : Text} (h : ∀ c ∈ t, isSpace c = false) : ink t = t := by
  apply List.filter_eq_self.mpr
  intro c hc
  simp [h c hc]

theorem ink_rdropWhile (t : Text) : ink (t.rdropWhile isSpace) = ink t := by
  have hb : ink (t.rtakeWhile isSpace) = [] :=
    ink_eq_nil_iff.mpr fun c hc => List.mem_rtakeWhile_imp hc
  have ht : t.rdropWhile isSpace ++ t.rtakeWhile isSpace = t := List.rdropWhile_append_rtakeWhile
  calc ink (t.rdropWhile isSpace)
      = ink (t.rdropWhile isSpace) ++ ink (t.rtakeWhile isSpace) := by rw [hb, List.append_nil]
    _ = ink t := by rw [← ink_append, ht]

end Text

namespace Preview

namespace Row

variable (paper : Paper) (r : Row)

theorem isSpace_getLast?_placed : ∀ c ∈ (r.placed paper).getLast?, isSpace c = false := by
  intro c hc
  by_cases ht : r.trimmed = []
  · simp [placed, ht] at hc
  · have hl : r.trimmed.getLast ht = c := by
      simpa [placed, ht, List.getLast?_append, List.getLast?_eq_some_getLast] using hc
    have hn := List.rdropWhile_last_not isSpace r.text ht
    rw [← hl]
    exact Bool.eq_false_iff.mpr hn

theorem margin_le_pad : r.margin paper ≤ r.pad paper := by
  unfold margin
  cases r.style.alignment <;> dsimp only <;> omega

theorem trimmed_suffix_placed : r.trimmed <:+ r.placed paper := by
  unfold placed
  split
  · next h => simp [h]
  · exact List.suffix_append _ _

theorem length_placed_le : (r.placed paper).length ≤ max (r.columns paper) r.trimmed.length := by
  have hm := r.margin_le_pad paper
  have hp := r.pad_eq paper
  unfold placed
  split
  · simp
  · simp only [List.length_append, Text.spaces, List.length_replicate]
    omega

theorem ink_placed : Text.ink (r.placed paper) = Text.ink r.text := by
  have ht : Text.ink r.trimmed = Text.ink r.text := Text.ink_rdropWhile r.text
  have hs : Text.ink (Text.spaces (r.margin paper)) = [] :=
    Text.ink_eq_nil_iff.mpr fun c hc => by
      rw [List.eq_of_mem_replicate hc]
      rfl
  unfold placed
  split
  · next h => rw [← ht, h]
  · rw [Text.ink_append, hs, ht, List.nil_append]

theorem ink_print : Text.ink (r.print paper) = Text.ink r.text := by
  have hp : r.print paper = r.placed paper ++ ['\n'] := rfl
  have hn : Text.ink ['\n'] = [] := by decide
  rw [hp, Text.ink_append, r.ink_placed paper, hn, List.append_nil]

end Row

theorem endsLine_joinLines (ls : List Text) : EndsLine (Text.joinLines ls) := by
  obtain rfl | ⟨ms, l, rfl⟩ := List.eq_nil_or_concat ls
  · exact Or.inl rfl
  · right
    simp [Text.joinLines]

theorem endsLine_append_newline (t u : Text) : EndsLine (t ++ '\n' :: u) ↔ EndsLine u := by
  cases u with
  | nil => simp [EndsLine]
  | cons c u => simp [EndsLine, List.getLast?_append, List.getLast?_cons]

theorem countP_not_endsLine_cons (t : Text) (ts : List Text) :
    (t :: ts).countP (fun t => ¬ EndsLine t) =
      ts.countP (fun t => ¬ EndsLine t) + if EndsLine t then 0 else 1 := by
  by_cases h : EndsLine t <;> simp [h]

theorem flatMap_text_lines (gs : List Glyph) : (lines gs).flatMap Row.text = gs.map Prod.fst := by
  have hr : Row.text ∘ Row.ofGlyphs = List.map Prod.fst := rfl
  rw [lines, List.flatMap_def, List.map_map, hr, ← List.map_flatten, List.flatten_splitBy]

theorem length_lines_append (held : List Glyph) (hn : ∀ g ∈ held, g.1 ≠ '\n') (gs : List Glyph) :
    (lines (held ++ gs)).length =
      (gs.map Prod.fst).count '\n' + if EndsLine ((held ++ gs).map Prod.fst) then 0 else 1 := by
  -- The glyphs held are the line that has been read and not ended yet.
  induction gs generalizing held with
  | nil =>
    by_cases h0 : held = []
    · subst h0
      rfl
    · have hd : ∀ g ∈ held.dropLast, g.1 ≠ '\n' := fun g hg => hn g (List.dropLast_subset held hg)
      have ho : ¬ EndsLine (held.map Prod.fst) := by
        simpa [EndsLine, h0, List.getLast?_map, List.getLast?_eq_some_getLast h0] using
          hn _ (List.getLast_mem h0)
      simp only [List.append_nil, lines_of_dropLast hd h0, if_neg ho]
      rfl
  | cons g gs ih =>
    obtain ⟨c, s⟩ := g
    by_cases hc : c = '\n'
    · subst hc
      have hg := ih [] (fun _ => nofun)
      rw [List.nil_append] at hg
      rw [lines_append_newline hn, List.length_cons, hg, List.map_append, List.map_cons, List.count_cons_self]
      simp only [endsLine_append_newline]
      omega
    · have hh : ∀ k ∈ held ++ [(c, s)], k.1 ≠ '\n' := by
        rw [List.forall_mem_append, List.forall_mem_singleton]
        exact ⟨hn, hc⟩
      have hg := ih _ hh
      rw [List.append_assoc, List.singleton_append] at hg
      rw [hg, List.map_cons, List.count_cons_of_ne hc]

theorem length_lines (gs : List Glyph) :
    (lines gs).length =
      (gs.map Prod.fst).count '\n' + if EndsLine (gs.map Prod.fst) then 0 else 1 :=
  length_lines_append [] (fun _ => nofun) gs

end Preview

namespace Token

/-- What can be seen of a token. A code is a square with two characters to a cell. -/
def ink : Token → Text
  | .text c _ => c.ink
  | .qr n _ => List.replicate (2 * max (n.toNat / 25) 1 ^ 2) '#'

/-- The texts that codes divide, each joined from its tokens. -/
def stretches (ts : List Token) : List Text :=
  (ts.splitOnP isCode).map fun run => (run.filterMap content?).flatten

theorem stretches_text (c : Text) (s : Style) (ts : List Token) :
    stretches (.text c s :: ts) = (stretches ts).modifyHead (c ++ ·) := by
  have hc : (text c s).isCode = false := rfl
  simp only [stretches, List.splitOnP_cons_eq_if_modifyHead, hc, Bool.false_eq_true, ↓reduceIte]
  cases ts.splitOnP isCode <;> rfl

theorem stretches_qr (n : UInt32) (s : Style) (ts : List Token) :
    stretches (.qr n s :: ts) = [] :: stretches ts := by
  have hc : (qr n s).isCode = true := rfl
  simp only [stretches, List.splitOnP_cons_eq_if_modifyHead, hc, ↓reduceIte, List.map_cons]
  rfl

end Token

namespace Preview

theorem ink_codeRows (n : UInt32) (s : Style) :
    (codeRows n s).flatMap (fun r => r.text.ink) = (Token.qr n s).ink := by
  have hi : ∀ k : Nat, Text.ink (List.replicate k '#') = List.replicate k '#' := fun k =>
    Text.ink_eq_self fun c hc => by
      rw [List.eq_of_mem_replicate hc]
      rfl
  have hk : ∀ k : Nat, k * (2 * k) = 2 * k ^ 2 := fun k => by ring
  simp only [codeRows, Token.ink, List.flatMap_replicate, hi, List.flatten_replicate_replicate, hk]

theorem ink_rowsFrom (gs : List Glyph) (ts : List Token) :
    (rowsFrom gs ts).flatMap (fun r => r.text.ink) = Text.ink (gs.map Prod.fst) ++ ts.flatMap Token.ink := by
  have hl : ∀ hs : List Glyph, (lines hs).flatMap (fun r => r.text.ink) = Text.ink (hs.map Prod.fst) := by
    intro hs
    rw [← flatMap_text_lines, Text.ink_flatMap]
  induction ts generalizing gs with
  | nil => simp [rowsFrom_nil, hl]
  | cons t ts ih =>
    cases t with
    | text c s =>
      simp [rowsFrom_text, ih, List.map_append, map_fst_glyphs, Text.ink_append, Token.ink]
    | qr n s =>
      simp only [rowsFrom_qr, List.flatMap_append, ih, hl, ink_codeRows, List.flatMap_cons, List.append_assoc]
      rfl

theorem modifyHead_self (ts : List Text) : ts.modifyHead (fun t => t) = ts :=
  congrFun List.modifyHead_id ts

theorem length_rowsFrom (gs : List Glyph) (ts : List Token) :
    (rowsFrom gs ts).length =
      (gs.map Prod.fst ++ (ts.filterMap Token.content?).flatten).count '\n' +
        ((ts.filterMap Token.codeSize?).map fun n => max (n.toNat / 25) 1).sum +
        ((Token.stretches ts).modifyHead (gs.map Prod.fst ++ ·)).countP (fun t => ¬ EndsLine t) := by
  induction ts generalizing gs with
  | nil => simp [rowsFrom_nil, length_lines, Token.stretches, List.countP_cons]
  | cons t ts ih =>
    cases t with
    | text c s =>
      have hf : (Token.text c s :: ts).filterMap Token.codeSize? = ts.filterMap Token.codeSize? :=
        List.filterMap_cons_none rfl
      rw [rowsFrom_text, ih, hf, Token.stretches_text, List.modifyHead_modifyHead, List.map_append,
        map_fst_glyphs]
      simp [Token.content?, Function.comp_def]
    | qr n s =>
      have hk : (codeRows n s).length = max (n.toNat / 25) 1 := List.length_replicate
      have hc : (Token.qr n s :: ts).filterMap Token.content? = ts.filterMap Token.content? :=
        List.filterMap_cons_none rfl
      have hf : (Token.qr n s :: ts).filterMap Token.codeSize? = n :: ts.filterMap Token.codeSize? :=
        List.filterMap_cons_some rfl
      have hi := ih []
      have ho := countP_not_endsLine_cons (gs.map Prod.fst) (Token.stretches ts)
      simp only [List.map_nil, List.nil_append, modifyHead_self] at hi
      simp only [rowsFrom_qr, List.length_append, hk, hi, length_lines, hc, hf, Token.stretches_qr,
        List.modifyHead_cons, List.append_nil, ho, List.count_append, List.map_cons, List.sum_cons]
      omega

end Preview

namespace Printout

open Preview

/-- A preview is made of ended lines without blanks at their ends, as many as there are line feeds, rows of
codes and texts left open in front of a code or at the end. A line is no wider than its columns, unless its
text alone is, and all that can be seen of the tokens is there, in order and once. -/
theorem preview_contents (p : Printout) (paper : Paper) :
    EndsLine (p.preview paper) ∧
      (∀ l ∈ (p.preview paper).lines, ∀ c ∈ l.getLast?, isSpace c = false) ∧
      (p.preview paper).lines.length = p.text.count '\n' +
        ((p.tokens.filterMap Token.codeSize?).map fun n => max (n.toNat / 25) 1).sum +
        (Token.stretches p.tokens).countP (fun t => ¬ EndsLine t) ∧
      List.Forall₂ (fun l r => r.trimmed <:+ l ∧ l.length ≤ max (r.columns paper) r.trimmed.length)
        (p.preview paper).lines p.rows ∧
      (p.preview paper).ink = p.tokens.flatMap Token.ink := by
  have hj : p.preview paper = Text.joinLines (p.rows.map (Row.placed paper)) := by
    rw [preview_eq_printAll, printAll_eq_joinLines]
  have hrows : p.rows = rowsFrom [] p.tokens := rfl
  refine ⟨?_, ?_, ?_, ?_, ?_⟩
  · rw [hj]
    exact endsLine_joinLines _
  · simp only [lines_preview, List.forall_mem_map]
    exact fun r _ => r.isSpace_getLast?_placed paper
  · have hl := length_rowsFrom [] p.tokens
    simp only [List.map_nil, List.nil_append, modifyHead_self] at hl
    rw [lines_preview, List.length_map, hrows, hl, text]
  · rw [lines_preview, List.forall₂_map_left_iff, List.forall₂_same]
    exact fun r _ => ⟨r.trimmed_suffix_placed paper, r.length_placed_le paper⟩
  · have hp : ∀ r ∈ p.rows, (r.print paper).ink = r.text.ink := fun r _ => r.ink_print paper
    have hi := ink_rowsFrom [] p.tokens
    rw [preview_eq_printAll, printAll, Text.ink_flatMap, List.flatMap_congr hp, hrows, hi]
    rfl

/-- A code that interrupts a line, a blank that is no space, and an open line with nothing to see. -/
theorem preview_contents_interrupted :
    let p : Printout := ⟨[.text "ab \nc".toList {}, .text "d\u3000".toList { alignment := .right }, .qr 60 {},
      .text "é\n".toList {}, .text "\t".toList { width := .wide }], []⟩
    (p.preview .mm58).lines =
        ["ab".toList, Text.spaces 30 ++ "cd".toList, "####".toList, "####".toList, "é".toList, []] ∧
      (∀ l ∈ (p.preview .mm58).lines, ∀ c ∈ l.getLast?, isSpace c = false) ∧
      p.text.count '\n' = 2 ∧
      (Token.stretches p.tokens).countP (fun t => ¬ EndsLine t) = 2 ∧
      (p.preview .mm58).lines.length = 2 + 2 + 2 ∧
      (p.preview .mm58).ink = "abcd########é".toList := by
  intro p
  have hn : p.text.count '\n' = 2 := by decide
  have ho : (Token.stretches p.tokens).countP (fun t => ¬ EndsLine t) = 2 := by decide
  obtain ⟨-, hs, hl, -, hi⟩ := p.preview_contents .mm58
  rw [hn, ho] at hl
  exact ⟨by decide, hs, hn, ho, hl, hi.trans (by decide)⟩

end Printout

end ReceiptPrinter
