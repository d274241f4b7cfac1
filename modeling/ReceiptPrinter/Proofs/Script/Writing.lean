import ReceiptPrinter.Proofs.Script.Endings
import ReceiptPrinter.Proofs.Script.Numeral

namespace ReceiptPrinter

/-- A line that stands for itself: not blank, ended by nothing of its own, and either indented or of a
first word that is no keyword. -/
structure Text.IsLiteral (t : Text) : Prop where
  isBlank_eq_false : t.isBlank = false
  not_mem_newline : '\n' ∉ t
  getLast?_ne_return : t.getLast? ≠ some '\r'
  no_keyword : t.startsBlank = true ∨ ∀ w ∈ t.words.head?, ∀ k : Keyword, w.lowerAscii ≠ k.name

namespace Keyword

theorem ofWord?_eq_none {w : Text} (h : ∀ k : Keyword, w.lowerAscii ≠ k.name) : ofWord? w = none := by
  rw [ofWord?, List.find?_eq_none]
  intro k _ hk
  exact h k (beq_iff_eq.mp hk).symm

end Keyword

namespace Line

theorem ofText_of_isLiteral {t : Text} (h : t.IsLiteral) : ofText t = plain t := by
  rw [ofText]
  split
  · rfl
  · next hs =>
    have hk := h.no_keyword.resolve_left hs
    split
    · rfl
    · next w args hw =>
      rw [hw] at hk
      rw [Keyword.ofWord?_eq_none (hk w rfl)]

theorem ofText_of_keyword {w : Text} {k : Keyword} (hk : Keyword.ofWord? w = some k) (hw : w.IsWord)
    (t : Text) : ofText (w ++ ' ' :: t) = ⟨w ++ ' ' :: t, some k, t.words⟩ := by
  rw [ofText, hw.startsBlank_append, if_neg Bool.false_ne_true, hw.words_append_cons rfl]
  dsimp only
  rw [hk]

end Line

namespace Command

def switch (on : Bool) : Text := if on then ['1'] else ['0']

def side : Alignment → Text
  | .left => ['0']
  | .center => ['1']
  | .right => ['2']

def numbered (keyword : Text) (n : Int) : Text := keyword ++ ' ' :: (['!'] ++ ' ' :: Numeral.write n)

def written : Command → Text
  | .lineFeed => "LF".toList
  | .reset => "ESC @".toList
  | .printMode n => numbered "ESC".toList n.toInt
  | .emphasis on => "ESC E ".toList ++ switch on
  | .align a => "ESC a ".toList ++ side a
  | .underline on => "ESC - ".toList ++ switch on
  | .doubleStrike on => "ESC G ".toList ++ switch on
  | .rotate on => "ESC V ".toList ++ switch on
  | .openDrawer => "ESC p".toList
  | .charSize n => numbered "GS".toList n.toInt
  | .cut => "GS V".toList
  | .qrCode size => if size = 100 then "GS ( k 1 3".toList else "GS ( k 1 4".toList
  | .text t => t
  | .blank => []
  | .ignored => "ESC".toList

/-- Commands that have a line: the lowest of all integers has none, codes come in two sizes, and a
text must be literal. -/
def IsWritable : Command → Prop
  | .printMode n => -Numeral.largest ≤ n.toInt
  | .charSize n => -Numeral.largest ≤ n.toInt
  | .qrCode size => size = 100 ∨ size = 200
  | .text t => t.IsLiteral
  | _ => True

structure IsLineOf (c : Command) (t : Text) : Prop where
  not_mem_newline : '\n' ∉ t
  getLast?_ne_return : t.getLast? ≠ some '\r'
  command_eq : (Line.ofText t).command = c

theorem isLineOf_of_not_mem {c : Command} {t : Text} (hn : '\n' ∉ t) (hr : '\r' ∉ t)
    (hc : (Line.ofText t).command = c) : c.IsLineOf t :=
  ⟨hn, fun h => hr (List.mem_of_getLast? h), hc⟩

theorem not_mem_numbered {w : Text} (hw : w.IsWord) {c : Char} (hs : isSpace c = true) (hc : c ≠ ' ')
    (n : Int) : c ∉ numbered w n := by
  have hne : ∀ u : Text, u.IsWord → c ∉ u := by
    intro u hu h
    rw [hu.isSpace_eq_false c h] at hs
    cases hs
  have hm : c ≠ '!' := by
    rintro rfl
    cases hs
  simp [numbered, hne w hw, hne _ (Numeral.isWord_write n), hc, hm]

theorem isLineOf_numbered {w : Text} {k : Keyword} (hk : Keyword.ofWord? w = some k) (hw : w.IsWord)
    {c : Command} {n : Int}
    (hc : Line.command ⟨numbered w n, some k, [['!'], Numeral.write n]⟩ = c) :
    c.IsLineOf (numbered w n) := by
  have hm : Text.IsWord ['!'] := by decide
  have hl : Line.ofText (numbered w n) = ⟨numbered w n, some k, [['!'], Numeral.write n]⟩ := by
    rw [numbered, Line.ofText_of_keyword hk hw, hm.words_append_cons rfl, (Numeral.isWord_write n).words_eq]
  refine isLineOf_of_not_mem (not_mem_numbered hw rfl (by decide) n)
    (not_mem_numbered hw rfl (by decide) n) ?_
  rw [hl, hc]

theorem isLineOf_printMode {n : Int64} (h : -Numeral.largest ≤ n.toInt) :
    (printMode n).IsLineOf (printMode n).written :=
  isLineOf_numbered (k := .esc) (by decide) (by decide) (congrArg printMode (Numeral.read_write h))

theorem isLineOf_charSize {n : Int64} (h : -Numeral.largest ≤ n.toInt) :
    (charSize n).IsLineOf (charSize n).written :=
  isLineOf_numbered (k := .gs) (by decide) (by decide) (congrArg charSize (Numeral.read_write h))

theorem isLineOf_text {t : Text} (h : t.IsLiteral) : (text t).IsLineOf t where
  not_mem_newline := h.not_mem_newline
  getLast?_ne_return := h.getLast?_ne_return
  command_eq := by
    rw [Line.ofText_of_isLiteral h]
    exact if_neg (Bool.eq_false_iff.mp h.isBlank_eq_false)

theorem isLineOf_written {c : Command} (h : c.IsWritable) : c.IsLineOf c.written := by
  cases c with
  | printMode n => exact isLineOf_printMode h
  | charSize n => exact isLineOf_charSize h
  | text t => exact isLineOf_text h
  | qrCode size => obtain rfl | rfl := h <;> exact ⟨by decide, by decide, by decide⟩
  | align a => cases a <;> exact ⟨by decide, by decide, by decide⟩
  | emphasis on | underline on | doubleStrike on | rotate on =>
    cases on <;> exact ⟨by decide, by decide, by decide⟩
  | _ => exact ⟨by decide, by decide, by decide⟩

end Command

namespace Script

def writing (cs : List Command) : Text := joined (cs.map Command.written)

theorem ofScript_writing {cs : List Command} (hne : cs ≠ []) (h : ∀ c ∈ cs, c.IsWritable) :
    Line.ofScript (writing cs) = cs.map fun c => .ofText c.written := by
  have hn : ∀ l ∈ cs.map Command.written, '\n' ∉ l :=
    List.forall_mem_map.mpr fun c hc => (Command.isLineOf_written (h c hc)).not_mem_newline
  rw [writing, ofScript_joined (fun hm => hne (List.map_eq_nil_iff.mp hm)) hn, List.map_map]
  refine List.map_congr_left fun c hc => ?_
  rw [Function.comp, Line.dropReturn_eq_self (Command.isLineOf_written (h c hc)).getLast?_ne_return]

/-- Commands are read back from the script they are written as, so it prints what they do one after
the other. -/
theorem commands_writing {cs : List Command} (hne : cs ≠ []) (h : ∀ c ∈ cs, c.IsWritable) :
    commands (writing cs) = cs ∧ print (writing cs) = .ofOutcomes (Command.run {} cs) := by
  have hc : commands (writing cs) = cs := by
    rw [commands, ofScript_writing hne h, List.map_map]
    have hl : ∀ c ∈ cs, (Line.ofText c.written).command = c := fun c hc =>
      (Command.isLineOf_written (h c hc)).command_eq
    exact (List.map_congr_left hl).trans (List.map_id cs)
  exact ⟨hc, by rw [print, outcomes, hc]⟩

/-- Neither an indented text nor one whose first word only starts like a keyword is a command. -/
theorem commands_writing_literals :
    let script := "ESC ! -8\n esc E 1\nGS ! 9223372036854775807\nESC\n\nGS ( k 1 3\nEscape".toList
    let cs : List Command := [.printMode (-8), .text " esc E 1".toList, .charSize 9223372036854775807,
      .ignored, .blank, .qrCode 100, .text "Escape".toList]
    cs ≠ [] ∧ (∀ c ∈ cs, c.IsWritable) ∧ commands script = cs ∧
      print script = .ofOutcomes (Command.run {} cs) := by
  intro script cs
  have hi : Text.IsLiteral " esc E 1".toList := ⟨by decide, by decide, by decide, Or.inl (by decide)⟩
  have he : Text.IsLiteral "Escape".toList := by
    refine ⟨by decide, by decide, by decide, Or.inr ?_⟩
    intro w hw k
    obtain rfl : "Escape".toList = w := Option.some.inj hw
    cases k <;> decide
  have hm : -Numeral.largest ≤ Int64.toInt (-8) := by decide
  have hs : -Numeral.largest ≤ Int64.toInt 9223372036854775807 := by decide
  have hw : ∀ c ∈ cs, c.IsWritable := by
    simp only [cs, List.forall_mem_cons]
    exact ⟨hm, hi, hs, trivial, trivial, Or.inl rfl, he, nofun⟩
  exact ⟨by decide, hw, @commands_writing cs (by decide) hw⟩

end Script

end ReceiptPrinter
