import ReceiptPrinter.Proofs.Preview.Lines
import ReceiptPrinter.Proofs.Script.Joining
import ReceiptPrinter.Proofs.Script.Tokens

namespace ReceiptPrinter

namespace Preview

/-- The tokens behind the last code, or all of them where there is no code. -/
def behindCode (ts : List Token) : List Token := ts.rtakeWhile fun t => !t.isCode

def openText (ts : List Token) : Text := ((behindCode ts).filterMap Token.content?).flatten

def EndsLine (t : Text) : Prop := t = [] ∨ t.getLast? = some '\n'

instance (t : Text) : Decidable (EndsLine t) := inferInstanceAs (Decidable (_ ∨ _))

theorem EndsLine.eq_newline {t : Text} (h : EndsLine t) : ∀ c ∈ t.getLast?, c = '\n' := by
  obtain rfl | h := h
  · exact fun _ => nofun
  · rw [h]
    rintro _ ⟨⟩
    rfl

def rowsOf (ts : List Token) : List Row := rowsFrom [] ts

theorem rowsFrom_eq (gs : List Glyph) (h : EndsLine (gs.map Prod.fst)) (ts : List Token) :
    rowsFrom gs ts = lines gs ++ rowsOf ts := by
  have hl : ∀ g ∈ gs.getLast?, g.1 = '\n' := by
    intro g hg
    apply h.eq_newline
    rw [List.getLast?_map, hg]
    rfl
  rw [rowsOf, rowsFrom, rowsFrom, Cut.rows, Cut.rows, lines_append hl, List.append_assoc]
  rfl

theorem rowsFrom_append_qr (gs : List Glyph) (a : List Token) (n : UInt32) (s : Style) (b : List Token) :
    rowsFrom gs (a ++ .qr n s :: b) = rowsFrom gs a ++ codeRows n s ++ rowsOf b := by
  induction a generalizing gs with
  | nil => rw [List.nil_append, rowsFrom_qr, rowsFrom_nil, rowsOf]
  | cons t a ih =>
    cases t with
    | text c u => rw [List.cons_append, rowsFrom_text, rowsFrom_text, ih]
    | qr m u =>
      rw [List.cons_append, rowsFrom_qr, rowsFrom_qr, ih]
      simp only [List.append_assoc]

section Texts

variable {a : List Token} (ha : ∀ t ∈ a, t.isCode = false)

include ha

theorem map_fst_lead : (Cut.ofTokens a).lead.map Prod.fst = (a.filterMap Token.content?).flatten := by
  induction a with
  | nil => rfl
  | cons t a ih =>
    rw [List.forall_mem_cons] at ha
    cases t with
    | text c s =>
      rw [Cut.ofTokens, List.map_append, ih ha.2, map_fst_glyphs]
      rfl
    | qr n s => exact absurd ha.1 Bool.noConfusion

theorem rowsFrom_append_of_texts (gs : List Glyph) (b : List Token) :
    rowsFrom gs (a ++ b) = rowsFrom (gs ++ (Cut.ofTokens a).lead) b := by
  induction a generalizing gs with
  | nil => rw [List.nil_append, Cut.ofTokens, List.append_nil]
  | cons t a ih =>
    rw [List.forall_mem_cons] at ha
    cases t with
    | text c s => rw [List.cons_append, rowsFrom_text, ih ha.2, Cut.ofTokens, List.append_assoc]
    | qr n s => exact absurd ha.1 Bool.noConfusion

theorem rowsOf_append_of_texts (h : EndsLine ((a.filterMap Token.content?).flatten)) (b : List Token) :
    rowsOf (a ++ b) = rowsOf a ++ rowsOf b := by
  rw [← map_fst_lead ha] at h
  have hb := rowsFrom_append_of_texts ha [] b
  have hn := rowsFrom_append_of_texts ha [] []
  rw [List.nil_append, rowsFrom_eq _ h] at hb
  rw [List.nil_append, List.append_nil, rowsFrom_nil] at hn
  rw [rowsOf, rowsOf, hb, hn]

end Texts

theorem isCode_of_mem_behindCode {a : List Token} : ∀ t ∈ behindCode a, t.isCode = false := by
  intro t ht
  have h : (!t.isCode) = true := List.mem_rtakeWhile_imp (p := fun t : Token => !t.isCode) ht
  simpa using h

theorem eq_behindCode_or (a : List Token) :
    a = behindCode a ∨ ∃ x n s, a = x ++ .qr n s :: behindCode a := by
  have ha : a.rdropWhile (fun t => !t.isCode) ++ behindCode a = a := List.rdropWhile_append_rtakeWhile
  obtain hd | ⟨x, t, hd⟩ := List.eq_nil_or_concat (a.rdropWhile fun t => !t.isCode)
  · rw [hd, List.nil_append] at ha
    exact Or.inl ha.symm
  · rw [List.concat_eq_append] at hd
    have ht := List.rdropWhile_last_not (fun t : Token => !t.isCode) a (hd ▸ List.concat_ne_nil t x)
    simp only [hd, List.getLast_append_singleton] at ht
    rw [hd, List.append_assoc, List.singleton_append] at ha
    cases t with
    | text c s => exact absurd rfl ht
    | qr n s => exact Or.inr ⟨x, n, s, ha.symm⟩

/-- Where the last line of some tokens is ended, other tokens behind them start on a line of their own. -/
theorem rowsOf_append {a : List Token} (h : EndsLine (openText a)) (b : List Token) :
    rowsOf (a ++ b) = rowsOf a ++ rowsOf b := by
  have hback := rowsOf_append_of_texts isCode_of_mem_behindCode h b
  -- The last code ends every line in front of it, so only the texts behind it meet the other tokens.
  obtain ha | ⟨x, n, s, ha⟩ := eq_behindCode_or a
  · rw [← ha] at hback
    exact hback
  · generalize behindCode a = back at ha hback
    subst ha
    simp only [rowsOf, List.append_assoc, List.cons_append, rowsFrom_append_qr] at hback ⊢
    rw [hback]

theorem printAll_append (paper : Paper) (rs us : List Row) :
    printAll paper (rs ++ us) = printAll paper rs ++ printAll paper us :=
  List.flatMap_append

end Preview

namespace Printout

open Preview

theorem preview_eq_rowsOf (p : Printout) (paper : Paper) :
    p.preview paper = printAll paper (rowsOf p.tokens) :=
  p.preview_eq_printAll paper

theorem preview_append {a : List Token} (h : EndsLine (openText a)) (b : List Token) (log k m : List Notice)
    (paper : Paper) :
    preview ⟨a ++ b, log⟩ paper = preview ⟨a, k⟩ paper ++ preview ⟨b, m⟩ paper := by
  rw [preview_eq_rowsOf, preview_eq_rowsOf, preview_eq_rowsOf, rowsOf_append h, printAll_append]

end Printout

namespace Token

open Preview

variable {t : Token}

theorem IsRegular.endsLine (h : t.IsRegular) : EndsLine (openText [t]) := by
  cases t with
  | text c s =>
    obtain ⟨u, rfl, -⟩ := h.isLine c rfl
    have ho : openText [text (u ++ ['\n']) s] = u ++ ['\n'] := List.append_nil _
    rw [ho]
    exact Or.inr List.getLast?_concat
  | qr n s => exact Or.inl rfl

def height : Token → Nat
  | .text _ _ => 1
  | .qr n _ => n.toNat / 25

theorem IsRegular.length_rowsOf (h : t.IsRegular) : (rowsOf [t]).length = t.height := by
  cases t with
  | text c s =>
    obtain ⟨u, rfl, hn, -⟩ := h.isLine c rfl
    have hg : ∀ g ∈ glyphs u s, g.1 ≠ '\n' := by
      rw [glyphs, List.forall_mem_map]
      rintro _ hc rfl
      exact hn hc
    have hu : glyphs (u ++ ['\n']) s = glyphs u s ++ ('\n', s) :: [] := List.map_append
    rw [rowsOf, rowsFrom_text, List.nil_append, hu, rowsFrom_append_newline hg, rowsFrom_nil]
    rfl
  | qr n s =>
    have hr : rowsOf [qr n s] = codeRows n s := by
      rw [rowsOf, rowsFrom_qr, rowsFrom_nil]
      exact List.append_nil _
    have hl : (codeRows n s).length = max (n.toNat / 25) 1 := List.length_replicate
    rw [hr, hl]
    obtain rfl | rfl := h.codeSize n rfl <;> rfl

/-- Tokens of which each is a line or a code of its own are printed one by one. -/
theorem rowsOf_eq_flatMap {ts : List Token} (h : ∀ t ∈ ts, t.IsRegular) :
    rowsOf ts = ts.flatMap fun t => rowsOf [t] := by
  induction ts with
  | nil => rfl
  | cons t ts ih =>
    rw [List.forall_mem_cons] at h
    have hj := rowsOf_append h.1.endsLine ts
    rw [List.singleton_append] at hj
    rw [hj, ih h.2, List.flatMap_cons]

theorem length_rowsOf {ts : List Token} (h : ∀ t ∈ ts, t.IsRegular) :
    (rowsOf ts).length = (ts.map height).sum := by
  rw [rowsOf_eq_flatMap h, List.length_flatMap]
  exact congrArg List.sum (List.map_congr_left fun t ht => (h t ht).length_rowsOf)

theorem sum_height (ts : List Token) :
    (ts.map height).sum = ts.countP (fun t => t.content?.isSome) +
      ((ts.filterMap codeSize?).map fun n => n.toNat / 25).sum := by
  induction ts with
  | nil => rfl
  | cons t ts ih =>
    rw [List.map_cons, List.sum_cons, ih]
    cases t with
    | text c s =>
      have hc : (text c s :: ts).countP (fun t => t.content?.isSome) =
          ts.countP (fun t => t.content?.isSome) + 1 := List.countP_cons_of_pos rfl
      have hf : (text c s :: ts).filterMap codeSize? = ts.filterMap codeSize? :=
        List.filterMap_cons_none rfl
      rw [hc, hf, height]
      omega
    | qr n s =>
      have hc : (qr n s :: ts).countP (fun t => t.content?.isSome) =
          ts.countP (fun t => t.content?.isSome) := List.countP_cons_of_neg Bool.noConfusion
      have hf : (qr n s :: ts).filterMap codeSize? = n :: ts.filterMap codeSize? :=
        List.filterMap_cons_some rfl
      rw [hc, hf, height, List.map_cons, List.sum_cons]
      omega

end Token

namespace Script

open Preview

theorem preview_print (script : Text) (paper : Paper) :
    (print script).preview paper =
      (print script).tokens.flatMap fun t => Printout.preview ⟨[t], []⟩ paper := by
  rw [Printout.preview_eq_rowsOf, Token.rowsOf_eq_flatMap fun _ => isRegular_of_mem_tokens, printAll,
    List.flatMap_assoc]
  simp only [Printout.preview_eq_rowsOf, printAll]

/-- The preview of a script is that of its tokens one after the other, so it only grows with the script,
by a line for a text and by the height of each code. In general previews are joined like their tokens,
unless the last line of the first is left unended. -/
theorem preview_joined (script : Text) (paper : Paper) :
    (print script).preview paper =
        (print script).tokens.flatMap (fun t => Printout.preview ⟨[t], []⟩ paper) ∧
      (∀ more : Text, (print script).preview paper <+: (print (script ++ '\n' :: more)).preview paper) ∧
      ((print script).preview paper).lines.length =
        (print script).tokens.countP (fun t => t.content?.isSome) +
          (((print script).tokens.filterMap Token.codeSize?).map fun n => n.toNat / 25).sum ∧
      ∀ (a b : List Token) (log k m : List Notice),
        openText a = [] ∨ (openText a).getLast? = some '\n' →
          Printout.preview ⟨a ++ b, log⟩ paper =
            Printout.preview ⟨a, k⟩ paper ++ Printout.preview ⟨b, m⟩ paper := by
  refine ⟨preview_print script paper, fun more => ?_, ?_, fun a b log k m h => ?_⟩
  · rw [preview_print, preview_print, print_append]
    exact List.flatMap_append ▸ List.prefix_append _ _
  · rw [Printout.lines_preview, List.length_map, ← Token.sum_height]
    exact Token.length_rowsOf fun _ => isRegular_of_mem_tokens
  · exact Printout.preview_append h b log k m paper

/-- A text whose line is ended lets a code and another text follow. One that is not would take over
the text behind it. -/
theorem preview_joined_behind_line :
    let paper := Paper.mm58
    let a : List Token := [.text "a".toList {}, .qr 25 {}, .text "b\nc\n".toList { alignment := .right }]
    let b : List Token := [.text "d".toList {}]
    (openText a = [] ∨ (openText a).getLast? = some '\n') ∧
      Printout.preview ⟨a ++ b, []⟩ paper = Printout.preview ⟨a, []⟩ paper ++ Printout.preview ⟨b, []⟩ paper ∧
      Printout.preview ⟨b ++ b, []⟩ paper ≠ Printout.preview ⟨b, []⟩ paper ++ Printout.preview ⟨b, []⟩ paper := by
  intro paper a b
  have h : openText a = [] ∨ (openText a).getLast? = some '\n' := by decide
  obtain ⟨-, -, -, hj⟩ := preview_joined [] paper
  exact ⟨h, hj a b [] [] [] h, by decide⟩

end Script

end ReceiptPrinter
