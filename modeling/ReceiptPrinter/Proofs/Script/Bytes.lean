import ReceiptPrinter.Proofs.Script.Pieces
import ReceiptPrinter.Proofs.Text.Decoding

namespace ReceiptPrinter

open Utf8

def byteLines (bytes : List UInt8) : List (List UInt8) := bytes.splitOn newline

theorem length_byteLines (bytes : List UInt8) : (byteLines bytes).length = bytes.count newline + 1 := by
  induction bytes with
  | nil => rfl
  | cons b bytes ih =>
    rw [byteLines] at *
    rw [List.splitOn_cons_eq_if_modifyHead, List.count_cons]
    split
    · rw [List.length_cons, ih]
    · rw [List.length_modifyHead, ih, Nat.add_zero]

theorem splitOn_decodeLossy (bytes : List UInt8) :
    Text.splitOn (· == '\n') (decodeLossy bytes) = (byteLines bytes).map decodeLossy := by
  -- Each line feed leaves fewer bytes on both of its sides.
  induction hn : bytes.length using Nat.strongRecOn generalizing bytes with
  | _ n ih =>
    by_cases h : newline ∈ bytes
    · obtain ⟨x, y, rfl⟩ := List.append_of_mem h
      have hl : x.length + (y.length + 1) = n := by rw [← hn, List.length_append, List.length_cons]
      have hc : Text.splitOn (· == '\n') (decodeLossy x ++ '\n' :: decodeLossy y) =
          Text.splitOn (· == '\n') (decodeLossy x) ++ Text.splitOn (· == '\n') (decodeLossy y) :=
        Text.splitOn_append_cons rfl _ _
      rw [decodeLossy_append_newline, hc, ih x.length (by omega) x rfl, ih y.length (by omega) y rfl,
        byteLines, byteLines, byteLines, List.splitOn_append_cons_self, List.map_append]
    · have hs : byteLines bytes = [bytes] := List.splitOn_eq_singleton h
      have ht : ∀ c ∈ decodeLossy bytes, (c == '\n') = false := fun c hc =>
        beq_eq_false_iff_ne.mpr fun he => newline_not_mem_decodeLossy h (he ▸ hc)
      rw [hs, Text.splitOn_eq_singleton ht]
      rfl

def Line.ofBytes (bytes : List UInt8) : Line := .ofText (dropReturn (decodeLossy bytes))

namespace Command

theorem due_perform_congr (s u : Style) (c : Command) : (c.perform s).due = (c.perform u).due := by
  cases c <;> rfl

/-- The style that a run starts in changes the styles of what is printed and nothing else. -/
theorem due_run_congr (s u : Style) (cs : List Command) :
    (run s cs).map Outcome.due = (run u cs).map Outcome.due := by
  induction cs generalizing s u with
  | nil => rfl
  | cons c cs ih =>
    rw [run, run, List.map_cons, List.map_cons, due_perform_congr s u,
      ih (c.perform s).style (c.perform u).style]

end Command

namespace Script

theorem ofScript_decodeLossy (bytes : List UInt8) :
    Line.ofScript (decodeLossy bytes) = (byteLines bytes).map Line.ofBytes := by
  rw [Line.ofScript, splitOn_decodeLossy, List.map_map]
  rfl

theorem length_ofScript_decodeLossy (bytes : List UInt8) :
    (Line.ofScript (decodeLossy bytes)).length = bytes.count newline + 1 := by
  rw [ofScript_decodeLossy, List.length_map, length_byteLines]

def joinedBytes (ls : List (List UInt8)) : List UInt8 := List.intercalate [newline] ls

def commandsOf (ls : List (List UInt8)) : List Command := ls.map fun l => (Line.ofBytes l).command

def outcomeBehind (before : List (List UInt8)) (line : List UInt8) : Outcome :=
  (Line.ofBytes line).command.perform (Command.styleAfter {} (commandsOf before))

variable {before after : List (List UInt8)} {line : List UInt8}

theorem ofScript_joinedBytes (h : ∀ l ∈ before ++ after, newline ∉ l) (hl : newline ∉ line) :
    Line.ofScript (decodeLossy (joinedBytes (before ++ line :: after))) =
      before.map Line.ofBytes ++ Line.ofBytes line :: after.map Line.ofBytes := by
  have hm : ∀ l ∈ before ++ line :: after, newline ∉ l := by
    rw [List.forall_mem_append, List.forall_mem_cons]
    rw [List.forall_mem_append] at h
    exact ⟨h.1, hl, h.2⟩
  have hs : byteLines (joinedBytes (before ++ line :: after)) = before ++ line :: after :=
    List.splitOn_intercalate newline hm (by simp)
  rw [ofScript_decodeLossy, hs, List.map_append, List.map_cons]

theorem outcomes_joinedBytes (h : ∀ l ∈ before ++ after, newline ∉ l) (hl : newline ∉ line) :
    outcomes (decodeLossy (joinedBytes (before ++ line :: after))) =
      Command.run {} (commandsOf before) ++ outcomeBehind before line ::
        Command.run (outcomeBehind before line).style (commandsOf after) := by
  rw [outcomes, commands, ofScript_joinedBytes h hl, List.map_append, List.map_cons, List.map_map,
    List.map_map, Command.run_append]
  rfl

/-- Bytes are read line by line, and what encodes a text is read as that text. What no character comes
of leaves one mark for each longest broken stretch. A script has one line more than there are line feeds.
The bytes of one line make that line and no other: what is printed and logged in front of it is not
changed, and behind it no more than the styles, by the style that the line leaves. -/
theorem decodeLossy_by_line :
    (∀ x y : List UInt8, decodeLossy (x ++ 0x0a :: y) = decodeLossy x ++ '\n' :: decodeLossy y) ∧
    (∀ t : Text, decodeLossy (encode t) = t) ∧
    (∀ bytes : List UInt8, ∃ cs, (∀ ds, Decodes bytes ds ↔ ds = cs) ∧
      decodeLossy bytes = cs.map (·.getD '\ufffd')) ∧
    (∀ bytes : List UInt8, (Line.ofScript (decodeLossy bytes)).length = bytes.count 0x0a + 1) ∧
    ∀ before after : List (List UInt8), (∀ l ∈ before ++ after, 0x0a ∉ l) → ∀ line : List UInt8, 0x0a ∉ line →
      Line.ofScript (decodeLossy (joinedBytes (before ++ line :: after))) =
        before.map Line.ofBytes ++ Line.ofBytes line :: after.map Line.ofBytes ∧
      outcomes (decodeLossy (joinedBytes (before ++ line :: after))) =
        Command.run {} (commandsOf before) ++ outcomeBehind before line ::
          Command.run (outcomeBehind before line).style (commandsOf after) ∧
      ∀ s u : Style, (Command.run s (commandsOf after)).map Outcome.due =
        (Command.run u (commandsOf after)).map Outcome.due := by
  refine ⟨decodeLossy_append_newline, decodeLossy_encode, fun bytes => ?_, length_ofScript_decodeLossy,
    fun before after h line hl => ?_⟩
  · exact ⟨scalars bytes, fun ds => decodes_iff.trans eq_comm, rfl⟩
  · exact ⟨ofScript_joinedBytes h hl, outcomes_joinedBytes h hl,
      fun s u => Command.due_run_congr s u _⟩

/-- A command, a character that is cut off at the end of its line, and a text. -/
theorem decodeLossy_by_line_cut :
    let line : List UInt8 := [0x43, 0xe2, 0x82]
    0x0a ∉ line ∧
      outcomes (decodeLossy (joinedBytes [encode "ESC E 1".toList, line, encode "Tea".toList])) =
        [{ style := { bold := true, emphasis := true } },
          { style := { bold := true, emphasis := true }
            token := some (.text "C\ufffd\n".toList { bold := true, emphasis := true }) },
          { style := { bold := true, emphasis := true }
            token := some (.text "Tea\n".toList { bold := true, emphasis := true }) }] := by
  intro line
  obtain ⟨-, -, -, -, h⟩ := decodeLossy_by_line
  have hl : 0x0a ∉ line := by decide
  obtain ⟨-, ho, -⟩ := h [encode "ESC E 1".toList] [encode "Tea".toList] (by decide) line hl
  exact ⟨hl, ho.trans (by decide)⟩

end Script

end ReceiptPrinter
