import ReceiptPrinter.Proofs.CommandLine.Printing
import ReceiptPrinter.Proofs.Preview.Lines
import ReceiptPrinter.Proofs.Text.Decoding

namespace ReceiptPrinter

theorem Notice.named_message (n : Notice) : named n.message = some n := by
  cases n <;> decide

theorem Notice.newline_not_mem_message (n : Notice) : '\n' ∉ n.message := by
  cases n <;> decide

namespace CommandLine

def logHeading : Text := "Command Log:".toList

def logLine (n : Notice) : Text := Text.spaces 2 ++ n.message

/-- The lines behind the last one that is the heading of the log. -/
def behindHeading (t : Text) : List Text := t.lines.rtakeWhile (· != logHeading)

def throughHeading (t : Text) : List Text := t.lines.rdropWhile (· != logHeading)

def readLog (t : Text) : Option (List Notice) := (behindHeading t).mapM fun l => Notice.named (l.drop 2)

/-- What stands in front of the heading and the empty line before it. -/
def readPreview (t : Text) : Text := Text.joinLines (throughHeading t).dropLast.dropLast

theorem logLine_ne_logHeading (n : Notice) : (logLine n != logHeading) = true := by
  cases n <;> decide

theorem named_drop_logLine (n : Notice) : Notice.named ((logLine n).drop 2) = some n := n.named_message

theorem newline_not_mem_logLine (n : Notice) : '\n' ∉ logLine n := by
  simp [logLine, Text.spaces, n.newline_not_mem_message]

section Lines

variable (before : List Text) (log : List Notice)

/-- Whatever comes before, the last heading is the one that only lines of a log stand behind. -/
theorem rtakeWhile_heading :
    (before ++ logHeading :: log.map logLine).rtakeWhile (· != logHeading) = log.map logLine := by
  have hl : ∀ l ∈ (log.map logLine).reverse, (l != logHeading) = true := by
    simp only [List.mem_reverse]
    exact List.forall_mem_map.mpr fun n _ => logLine_ne_logHeading n
  rw [List.rtakeWhile, List.reverse_append, List.reverse_cons, List.append_assoc,
    List.takeWhile_append_of_pos hl, List.singleton_append, List.takeWhile_cons_of_neg (by simp),
    List.append_nil, List.reverse_reverse]

theorem rdropWhile_heading :
    (before ++ logHeading :: log.map logLine).rdropWhile (· != logHeading) = before ++ [logHeading] := by
  have ha : (before ++ logHeading :: log.map logLine).rdropWhile (· != logHeading) ++
      (before ++ logHeading :: log.map logLine).rtakeWhile (· != logHeading) =
      (before ++ [logHeading]) ++ log.map logLine := by
    rw [List.rdropWhile_append_rtakeWhile, List.append_assoc, List.singleton_append]
  rw [rtakeWhile_heading] at ha
  exact List.append_cancel_right ha

end Lines

section Write

variable (paper : Paper) (p : Printout)

theorem write_text_eq : Format.text.write paper p =
    Text.joinLines ((p.rows.map (Preview.Row.placed paper) ++ [[]]) ++ logHeading :: p.log.map logLine) := by
  have hm : p.messages.map (Text.spaces 2 ++ ·) = p.log.map logLine := by
    rw [Printout.messages, List.map_map]
    rfl
  rw [Format.write, hm, p.preview_eq_printAll, Preview.printAll_eq_joinLines, ← Text.joinLines_append,
    List.append_assoc]
  rfl

theorem lines_write_text : (Format.text.write paper p).lines =
    (p.rows.map (Preview.Row.placed paper) ++ [[]]) ++ logHeading :: p.log.map logLine := by
  have hp : ∀ l ∈ p.rows.map (Preview.Row.placed paper), '\n' ∉ l :=
    List.forall_mem_map.mpr fun r hr =>
      r.newline_not_mem_placed (Preview.newline_not_mem_of_mem_rows hr) paper
  have hl : ∀ l ∈ p.log.map logLine, '\n' ∉ l :=
    List.forall_mem_map.mpr fun n _ => newline_not_mem_logLine n
  rw [write_text_eq]
  apply Text.lines_joinLines
  simp only [List.forall_mem_append, List.forall_mem_cons]
  exact ⟨⟨hp, List.not_mem_nil, by simp⟩, by decide, hl⟩

theorem behindHeading_write : behindHeading (Format.text.write paper p) = p.log.map logLine := by
  rw [behindHeading, lines_write_text, rtakeWhile_heading]

theorem readLog_write : readLog (Format.text.write paper p) = some p.log := by
  rw [readLog, behindHeading_write]
  exact mapM_map_of_forall fun n _ => named_drop_logLine n

theorem readPreview_write : readPreview (Format.text.write paper p) = p.preview paper := by
  rw [readPreview, throughHeading, lines_write_text, rdropWhile_heading, List.dropLast_concat,
    List.dropLast_concat, p.preview_eq_printAll, Preview.printAll_eq_joinLines]

end Write

/-- The arguments ask for a print, and the script that is printed is the one that they name. -/
def Prints (args : List Text) (around : Surroundings) (script : Text) (paper : Paper)
    (format : Format) : Prop :=
  ∃ o, readArguments args = .ok (.print o) ∧ o.source.load around = .ok script ∧
    o.paper.getD .standard = paper ∧ o.format.getD .text = format

variable {args : List Text} {around : Surroundings} {script : Text} {paper : Paper} {format : Format}

theorem Prints.run_eq (h : Prints args around script paper format) :
    run args around = { code := 0, stdout := format.write paper (Script.print script) } := by
  obtain ⟨o, hr, hl, rfl, rfl⟩ := h
  rw [run, hr]
  dsimp only
  rw [Invocation.report, hl]
  rfl

theorem prints_printing (sample script : Text) (paper : Paper) (format : Format)
    (hi : around.input = .ok (Utf8.encode script)) :
    Prints (printing (some ['-']) sample paper format) around script paper format := by
  have hd : ∀ t ∈ some ['-'], t ≠ [] ∧ (t.head? ≠ some '-' ∨ t = ['-']) := by simp
  obtain ⟨o, hr, hp, -, hpaper, hformat⟩ := asks_printing hd sample paper format
  have ha : around.at ['-'] = .ok (Utf8.encode script) := (if_pos (by decide)).trans hi
  refine ⟨o, hr, ?_, hpaper, hformat⟩
  rw [o.load_of_path hp, ha]
  exact congrArg Except.ok (Utf8.decodeLossy_encode script)

/-- What the text format writes is divided by the last heading in it, whatever the script prints: the log
is behind it, line by line, and the preview in front. So two runs that write the same have the same
preview and the same log. -/
theorem print_text_divided :
    (∀ args around script paper, Prints args around script paper .text →
      behindHeading (run args around).stdout =
          (Script.print script).messages.map (Text.spaces 2 ++ ·) ∧
        readLog (run args around).stdout = some (Script.print script).log ∧
        readPreview (run args around).stdout = (Script.print script).preview paper) ∧
    (∀ args around script paper args' around' script' paper',
      Prints args around script paper .text → Prints args' around' script' paper' .text →
      (run args around).stdout = (run args' around').stdout →
      (Script.print script).preview paper = (Script.print script').preview paper' ∧
        (Script.print script).log = (Script.print script').log) ∧
    ∀ sample script paper (around : Surroundings), around.input = .ok (Utf8.encode script) →
      Prints (printing (some ['-']) sample paper .text) around script paper .text := by
  refine ⟨?_, ?_, fun sample script paper around hi => prints_printing sample script paper .text hi⟩
  · intro args around script paper h
    have hm : (Script.print script).messages.map (Text.spaces 2 ++ ·) =
        (Script.print script).log.map logLine := by
      rw [Printout.messages, List.map_map]
      rfl
    rw [h.run_eq, hm]
    exact ⟨behindHeading_write .., readLog_write .., readPreview_write ..⟩
  · intro args around script paper args' around' script' paper' h h' he
    rw [h.run_eq, h'.run_eq] at he
    have hp := congrArg readPreview he
    have hl := congrArg readLog he
    rw [readPreview_write, readPreview_write] at hp
    rw [readLog_write, readLog_write] at hl
    exact ⟨hp, Option.some.inj hl⟩

/-- A receipt with a heading and a notice of its own, which tells of nothing, and the same receipt of
another script. -/
theorem print_text_divided_forged :
    let script := "Command Log:\n  Paper Cut".toList
    let script' := script ++ "\r\n \n".toList
    let around (s : Text) : Surroundings := ⟨.ok (Utf8.encode s), fun _ => .ok []⟩
    let report (s : Text) := run (printing (some ['-']) [] .mm58 .text) (around s)
    (report script).stdout = "Command Log:\n  Paper Cut\n\nCommand Log:\n".toList ∧
      readLog (report script).stdout = some [] ∧
      readPreview (report script).stdout = "Command Log:\n  Paper Cut\n".toList ∧
      (Script.print script).log = (Script.print script').log := by
  intro script script' around report
  obtain ⟨hread, hsame, hprints⟩ := print_text_divided
  have h := hprints [] script .mm58 (around script) rfl
  have h' := hprints [] script' .mm58 (around script') rfl
  have hw : (report script).stdout = "Command Log:\n  Paper Cut\n\nCommand Log:\n".toList := by
    decide +kernel
  have hw' : (report script').stdout = "Command Log:\n  Paper Cut\n\nCommand Log:\n".toList := by
    decide +kernel
  obtain ⟨-, hlog, hpreview⟩ := hread _ _ _ _ h
  refine ⟨hw, hlog.trans (by decide), hpreview.trans (by decide), ?_⟩
  exact (hsame _ _ _ _ _ _ _ _ h h' (hw.trans hw'.symm)).2

end CommandLine

end ReceiptPrinter
