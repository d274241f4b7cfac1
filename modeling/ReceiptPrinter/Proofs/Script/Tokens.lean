import ReceiptPrinter.Proofs.Script.Run
import ReceiptPrinter.Proofs.Style.Scale
import ReceiptPrinter.Proofs.Text.Split

namespace ReceiptPrinter

namespace Text

/-- A text is one line: a line feed ends it, and it is empty or not blank before that. -/
def IsLine (t : Text) : Prop :=
  ∃ u, t = u ++ ['\n'] ∧ '\n' ∉ u ∧ (u = [] ∨ ∃ c ∈ u, isSpace c = false)

theorem isLine_append {u : Text} (hn : '\n' ∉ u) (hb : isBlank u = false) : IsLine (u ++ ['\n']) := by
  obtain ⟨c, hc, hs⟩ := List.all_eq_false.mp hb
  exact ⟨u, rfl, hn, Or.inr ⟨c, hc, Bool.eq_false_iff.mpr hs⟩⟩

theorem IsLine.count {t : Text} (h : t.IsLine) : t.count '\n' = 1 := by
  obtain ⟨u, rfl, hn, -⟩ := h
  rw [List.count_append, List.count_eq_zero.mpr hn]
  rfl

end Text

/-- A finite number, no negative zero and not large. -/
structure Number.Single.IsScale (x : Number.Single) : Prop where
  isFinite : x.isFinite = true
  code_ne_zero : x.negative = true → x.code ≠ 0
  abs_value_le : |x.value| ≤ 2 ^ 62

namespace Style

theorem isScale_scaleOf (n : Int64) : (scaleOf n).IsScale :=
  ⟨isFinite_scaleOf n, code_scaleOf_ne_zero, abs_value_scaleOf_le n⟩

structure IsRegular (s : Style) : Prop where
  wide_iff_large : s.width = .wide ↔ s.size = .large
  isScale : ∀ x ∈ s.scale, x.IsScale

variable {s : Style}

theorem isRegular_default : IsRegular {} := ⟨by decide, fun _ h => nomatch h⟩

theorem isRegular_setMode (s : Style) (mode : Int64) : (s.setMode mode).IsRegular where
  wide_iff_large := by
    dsimp only [setMode]
    cases hasBit mode 32 <;> cases hasBit mode 16 <;> decide
  isScale := fun _ h => nomatch h

theorem IsRegular.setSize (h : s.IsRegular) (n : Int64) : (s.setSize n).IsRegular where
  wide_iff_large := h.wide_iff_large
  isScale := by
    rintro _ ⟨⟩
    exact isScale_scaleOf n

theorem IsRegular.perform (h : s.IsRegular) (c : Command) : (c.perform s).style.IsRegular := by
  cases c with
  | reset => exact isRegular_default
  | printMode mode => exact isRegular_setMode s mode
  | charSize n => exact h.setSize n
  | _ => exact ⟨h.wide_iff_large, h.isScale⟩

end Style

namespace Command

/-- Commands that lines of a script stand for. Their text holds no line feed and is not blank, and
their codes come in two sizes. -/
def IsScripted : Command → Prop
  | .text t => '\n' ∉ t ∧ Text.isBlank t = false
  | .qrCode n => n = 100 ∨ n = 200
  | _ => True

theorem isScripted_ofEscape (args : List Text) : (ofEscape args).IsScripted := by
  unfold ofEscape
  split
  · split <;> trivial
  · trivial

theorem isScripted_ofGroup (args : List Text) : (ofGroup args).IsScripted := by
  unfold ofGroup
  split
  · split
    · trivial
    · trivial
    · split
      · unfold qrSize
        split
        · exact Or.inl rfl
        · exact Or.inr rfl
      · trivial
    · trivial
  · trivial

end Command

theorem Line.isScripted_command {l : Line} (h : '\n' ∉ l.raw) : l.command.IsScripted := by
  unfold command
  split
  · trivial
  · exact Command.isScripted_ofEscape l.args
  · exact Command.isScripted_ofGroup l.args
  · cases hb : l.isBlank with
    | true => trivial
    | false => exact ⟨h, hb⟩

theorem Line.raw_ofText (t : Text) : (Line.ofText t).raw = t := by
  unfold ofText
  split
  · rfl
  · split
    · rfl
    · split <;> rfl

theorem Script.isScripted_of_mem_commands {script : Text} {c : Command} (h : c ∈ commands script) :
    c.IsScripted := by
  obtain ⟨l, hl, rfl⟩ := List.mem_map.mp h
  obtain ⟨t, ht, rfl⟩ := List.mem_map.mp hl
  apply Line.isScripted_command
  rw [Line.raw_ofText]
  intro hn
  exact absurd (Text.sep_of_mem_splitOn ht _ (Line.mem_of_mem_dropReturn hn)) (by decide)

namespace Token

def isCode : Token → Bool
  | .text _ _ => false
  | .qr _ _ => true

def codeSize? : Token → Option UInt32
  | .text _ _ => none
  | .qr n _ => some n

def isCut (t : Token) : Bool := t.content? == some Command.cutLine

structure IsRegular (t : Token) : Prop where
  style : t.style.IsRegular
  isLine : ∀ c ∈ t.content?, c.IsLine
  codeSize : ∀ n ∈ t.codeSize?, n = 100 ∨ n = 200

variable {s : Style}

theorem isRegular_text (hs : s.IsRegular) {c : Text} (hc : c.IsLine) : (text c s).IsRegular where
  style := hs
  isLine := by
    rintro _ ⟨⟩
    exact hc
  codeSize := fun _ h => nomatch h

theorem isRegular_qr (hs : s.IsRegular) {n : UInt32} (hn : n = 100 ∨ n = 200) : (qr n s).IsRegular where
  style := hs
  isLine := fun _ h => nomatch h
  codeSize := by
    rintro _ ⟨⟩
    exact hn

end Token

namespace Outcome

/-- A code is logged if and only if it is printed, and a cut is not logged without its line. -/
structure IsRegular (o : Outcome) : Prop where
  token : ∀ t ∈ o.token, t.IsRegular
  isCode_iff : o.token.any Token.isCode = true ↔ o.notice = some .qrGenerated
  isCut : o.notice = some .paperCut → o.token.any Token.isCut = true

variable {s : Style} {n : Option Notice}

theorem isRegular_none (hq : n ≠ some .qrGenerated) (hc : n ≠ some .paperCut) :
    IsRegular ⟨s, none, n⟩ where
  token := fun _ h => nomatch h
  isCode_iff := ⟨nofun, fun h => absurd h hq⟩
  isCut := fun h => absurd h hc

theorem isRegular_some {t : Token} (ht : t.IsRegular)
    (hq : t.isCode = true ↔ n = some .qrGenerated) (hc : n = some .paperCut → t.isCut = true) :
    IsRegular ⟨s, some t, n⟩ where
  token := by
    rintro _ ⟨⟩
    exact ht
  isCode_iff := hq
  isCut := hc

end Outcome

namespace Command

theorem isLine_cutLine : cutLine.IsLine :=
  Text.isLine_append (u := "--- Cut Paper ---".toList) (by decide) rfl

theorem isRegular_perform {s : Style} (hs : s.IsRegular) {c : Command} (hc : c.IsScripted) :
    (c.perform s).IsRegular := by
  cases c with
  | lineFeed =>
    have ht := Token.isRegular_text hs ⟨[], rfl, List.not_mem_nil, Or.inl rfl⟩
    exact Outcome.isRegular_some ht ⟨nofun, nofun⟩ nofun
  | text t =>
    have ht := Token.isRegular_text hs (Text.isLine_append hc.1 hc.2)
    exact Outcome.isRegular_some ht ⟨nofun, nofun⟩ nofun
  | cut =>
    have ht := Token.isRegular_text hs isLine_cutLine
    exact Outcome.isRegular_some ht ⟨nofun, nofun⟩ fun _ => rfl
  | qrCode n =>
    exact Outcome.isRegular_some (Token.isRegular_qr hs hc) ⟨fun _ => rfl, fun _ => rfl⟩ nofun
  | _ => exact Outcome.isRegular_none nofun nofun

end Command

namespace Script

theorem isRegular_of_mem_outcomes {script : Text} {o : Outcome} (h : o ∈ outcomes script) :
    o.IsRegular := by
  obtain ⟨s, hs, c, hc, rfl⟩ :=
    Command.exists_of_mem_run (fun _ c h => h.perform c) Style.isRegular_default h
  exact Command.isRegular_perform hs (isScripted_of_mem_commands hc)

theorem isRegular_of_mem_tokens {script : Text} {t : Token} (h : t ∈ (print script).tokens) :
    t.IsRegular := by
  obtain ⟨o, ho, hot⟩ := List.mem_filterMap.mp h
  exact (isRegular_of_mem_outcomes ho).token t hot

theorem countP_tokens (script : Text) (p : Token → Bool) :
    (print script).tokens.countP p = (outcomes script).countP fun o => o.token.any p := by
  rw [print, Printout.ofOutcomes, List.countP_filterMap]
  exact List.countP_congr fun o _ => by cases o.token <;> rfl

theorem count_log (script : Text) (n : Notice) :
    (print script).log.count n = (outcomes script).countP fun o => o.notice == some n := by
  rw [print, Printout.ofOutcomes, List.count_filterMap]

theorem countP_isCode (script : Text) :
    (print script).tokens.countP Token.isCode = (print script).log.count .qrGenerated := by
  rw [countP_tokens, count_log]
  refine List.countP_congr fun o ho => ?_
  rw [(isRegular_of_mem_outcomes ho).isCode_iff, beq_iff_eq]

theorem count_paperCut_le (script : Text) :
    (print script).log.count .paperCut ≤ (print script).tokens.countP Token.isCut := by
  rw [countP_tokens, count_log]
  refine List.countP_mono_left fun o ho hn => ?_
  exact (isRegular_of_mem_outcomes ho).isCut (beq_iff_eq.mp hn)

theorem count_newline_text (script : Text) : (print script).text.count '\n' =
    (print script).tokens.countP fun t => t.content?.isSome := by
  have hl : ∀ c ∈ (print script).tokens.filterMap Token.content?, c.count '\n' = 1 := by
    intro c hc
    obtain ⟨t, ht, htc⟩ := List.mem_filterMap.mp hc
    exact ((isRegular_of_mem_tokens ht).isLine c htc).count
  rw [Printout.text, List.count_flatten, List.map_congr_left hl, List.map_const', List.sum_replicate_nat,
    List.length_filterMap_eq_countP, Nat.mul_one]

/-- Whatever the script, all tokens are regular, the codes are those logged, each cut that is logged
is printed, and the text has one line feed to a token of text. -/
theorem tokens_isRegular (script : Text) :
    (∀ t ∈ (print script).tokens, t.IsRegular) ∧
      (print script).tokens.countP Token.isCode = (print script).log.count .qrGenerated ∧
      (print script).log.count .paperCut ≤ (print script).tokens.countP Token.isCut ∧
      (print script).text.count '\n' = (print script).tokens.countP fun t => t.content?.isSome :=
  ⟨fun _ => isRegular_of_mem_tokens, countP_isCode script, count_paperCut_le script,
    count_newline_text script⟩

end Script

end ReceiptPrinter
