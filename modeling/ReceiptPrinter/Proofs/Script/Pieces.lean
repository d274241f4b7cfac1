import ReceiptPrinter.Proofs.Script.Run
import ReceiptPrinter.Proofs.Text.Split

namespace ReceiptPrinter

inductive Shape where
  | text (content : Text)
  | qr (size : UInt32)
deriving DecidableEq

def Token.shape : Token → Shape
  | .text c _ => .text c
  | .qr n _ => .qr n

/-- What a stretch of a script is due: something printed and something logged. -/
structure Due where
  shape : Option Shape := none
  notice : Option Notice := none
deriving DecidableEq

def Outcome.due (o : Outcome) : Due := ⟨o.token.map Token.shape, o.notice⟩

namespace Script

/-- The stretches of a script around its line feeds, with all their carriage returns. -/
def pieces (script : Text) : List Text := List.splitOn '\n' script

namespace Piece

def words (piece : Text) : List Text := (List.splitOnP isSpace piece).filter fun w => !w.isEmpty

def keyword (piece : Text) : Option Text := (words piece).head?.map Text.lowerAscii

def isBlank (piece : Text) : Bool := piece.all isSpace

def isIndented (piece : Text) : Bool := piece.head?.any isSpace

def literal (piece : Text) : Due :=
  match piece.reverse with
  | '\r' :: t => { shape := some (.text (t.reverse ++ ['\n'])) }
  | _ => { shape := some (.text (piece ++ ['\n'])) }

def escapeDue (words : List Text) : Due :=
  if words[1]? = some ['@'] then { notice := some .initialized }
  else if words[1]? = some ['p'] then { notice := some .drawerOpened }
  else {}

def groupDue (words : List Text) : Due :=
  if words[1]? = some ['V'] then
    { shape := some (.text Command.cutLine), notice := some .paperCut }
  else if words[1]? = some ['('] ∧ words[2]? = some ['k'] then
    { shape := some (.qr (if words[4]? = some ['3'] then 100 else 200)), notice := some .qrGenerated }
  else {}

def due (piece : Text) : Due :=
  if isBlank piece then {}
  else if isIndented piece then literal piece
  else if keyword piece = some ['l', 'f'] then { shape := some (.text ['\n']) }
  else if keyword piece = some ['e', 's', 'c'] then escapeDue (words piece)
  else if keyword piece = some ['g', 's'] then groupDue (words piece)
  else literal piece

/-- Line feeds, lines of text, cuts and codes print; other commands and blank lines do not. -/
def prints (piece : Text) : Bool :=
  !isBlank piece && (isIndented piece ||
    match keyword piece with
    | some ['e', 's', 'c'] => false
    | some ['g', 's'] =>
      (words piece)[1]? = some ['V'] ∨
        (words piece)[1]? = some ['('] ∧ (words piece)[2]? = some ['k']
    | _ => true)

theorem words_eq (piece : Text) : words piece = Text.words piece := by
  simp only [words, Text.words, Text.splitOn_eq_splitOnP]

theorem literal_eq (piece : Text) :
    literal piece = { shape := some (.text (Line.dropReturn piece ++ ['\n'])) } := by
  obtain h | h := List.eq_nil_or_concat piece
  · subst h
    rfl
  · obtain ⟨t, c, rfl⟩ := h
    by_cases hc : c = '\r'
    · subst hc
      simp [literal, Line.dropReturn]
    · simp [literal, Line.dropReturn, hc]

theorem shape_escapeDue (ws : List Text) : (escapeDue ws).shape = none := by
  rw [escapeDue]
  split
  · rfl
  · split <;> rfl

theorem isSome_groupDue (ws : List Text) : (groupDue ws).shape.isSome =
    decide (ws[1]? = some ['V'] ∨ ws[1]? = some ['('] ∧ ws[2]? = some ['k']) := by
  rw [groupDue]
  by_cases hv : ws[1]? = some ['V']
  · simp [hv]
  · by_cases hk : ws[1]? = some ['('] ∧ ws[2]? = some ['k'] <;> simp [hv, hk]

theorem isSome_due (piece : Text) : (due piece).shape.isSome = prints piece := by
  have hl : (literal piece).shape.isSome = true := by rw [literal_eq]; rfl
  rw [due, prints]
  by_cases hb : isBlank piece = true
  · simp [hb]
  · by_cases hi : isIndented piece = true
    · simp [hb, hi, hl]
    · simp only [hb, hi, Bool.false_eq_true, ↓reduceIte, Bool.not_false, Bool.true_and, Bool.false_or]
      split
      · next h => simp [h]
      · split
        · next h => simp [h, shape_escapeDue]
        · split
          · next h => simp [h, isSome_groupDue]
          · split <;> simp_all

theorem due_escape (s : Style) (first : Text) (args : List Text) :
    ((Command.ofEscape args).perform s).due = escapeDue (first :: args) := by
  by_cases hw : ∃ c, args.head? = some [c]
  · obtain ⟨c, hc⟩ := hw
    obtain ⟨args, rfl⟩ := List.head?_eq_some_iff.mp hc
    simp only [Command.ofEscape, escapeDue, List.getElem?_cons_succ, List.getElem?_cons_zero,
      Option.some.injEq, List.cons.injEq, and_true]
    split <;> simp_all [Command.perform, Outcome.due]
  · have hn := not_exists.mp hw
    rw [Command.ofEscape_eq_ignored hn]
    rw [List.head?_eq_getElem?] at hn
    simp [escapeDue, hn, Command.perform, Outcome.due]

theorem due_group (s : Style) (first : Text) (args : List Text) :
    ((Command.ofGroup args).perform s).due = groupDue (first :: args) := by
  by_cases hw : ∃ c, args.head? = some [c]
  · obtain ⟨c, hc⟩ := hw
    obtain ⟨args, rfl⟩ := List.head?_eq_some_iff.mp hc
    simp only [Command.ofGroup, groupDue, List.getElem?_cons_succ, List.getElem?_cons_zero,
      Option.some.injEq, List.cons.injEq, and_true]
    split
    · simp [Command.perform, Outcome.due]
    · simp [Command.perform, Outcome.due, Token.shape]
    · split <;>
        simp_all [Command.perform, Outcome.due, Token.shape, Command.qrSize, List.head?_eq_getElem?]
    · simp_all [Command.perform, Outcome.due]
  · have hn := not_exists.mp hw
    rw [Command.ofGroup_eq_ignored hn]
    rw [List.head?_eq_getElem?] at hn
    simp [groupDue, hn, Command.perform, Outcome.due]

theorem ofText_of_isBlank {t : Text} (h : Text.isBlank t = true) : Line.ofText t = .plain t := by
  cases t with
  | nil => rfl
  | cons c t =>
    have hc : isSpace c = true := by
      simp only [Text.isBlank, List.all_cons, Bool.and_eq_true] at h
      exact h.1
    simp [Line.ofText, Text.startsBlank, hc]

theorem command_plain (t : Text) :
    (Line.plain t).command = if Text.isBlank t then .blank else .text t := rfl

theorem ofWord?_eq (w : Text) : Keyword.ofWord? w =
    if Text.lowerAscii w = ['l', 'f'] then some .lf
    else if Text.lowerAscii w = ['e', 's', 'c'] then some .esc
    else if Text.lowerAscii w = ['g', 's'] then some .gs
    else none := by
  have hlf : Keyword.lf.name = ['l', 'f'] := rfl
  have hesc : Keyword.esc.name = ['e', 's', 'c'] := rfl
  have hgs : Keyword.gs.name = ['g', 's'] := rfl
  simp only [Keyword.ofWord?, List.find?_cons, List.find?_nil, hlf, hesc, hgs]
  grind

theorem due_perform (s : Style) (piece : Text) :
    ((Line.ofText (Line.dropReturn piece)).command.perform s).due = due piece := by
  rw [due]
  by_cases hb : isBlank piece = true
  · have hd : Text.isBlank (Line.dropReturn piece) = true := (Line.isBlank_dropReturn piece).trans hb
    rw [ofText_of_isBlank hd, command_plain, if_pos hd, if_pos hb]
    rfl
  · have hf : Text.isBlank piece = false := Bool.eq_false_iff.mpr hb
    have hd : Text.isBlank (Line.dropReturn piece) = false := (Line.isBlank_dropReturn piece).trans hf
    have hs : Text.startsBlank (Line.dropReturn piece) = isIndented piece := Line.startsBlank_dropReturn hf
    have hp : ((Line.plain (Line.dropReturn piece)).command.perform s).due = literal piece := by
      rw [command_plain, hd, literal_eq]
      rfl
    rw [if_neg hb, Line.ofText, hs]
    by_cases hi : isIndented piece = true
    · rw [if_pos hi, if_pos hi, hp]
    · rw [if_neg hi, if_neg hi, Line.words_dropReturn, keyword, words_eq]
      cases hw : Text.words piece with
      | nil => simpa using hp
      | cons w args =>
        simp only [List.head?_cons, Option.map_some, Option.some.injEq, ofWord?_eq]
        by_cases hlf : Text.lowerAscii w = ['l', 'f']
        · rw [if_pos hlf, if_pos hlf]
          rfl
        · rw [if_neg hlf, if_neg hlf]
          by_cases hesc : Text.lowerAscii w = ['e', 's', 'c']
          · rw [if_pos hesc, if_pos hesc]
            exact due_escape s w args
          · rw [if_neg hesc, if_neg hesc]
            by_cases hgs : Text.lowerAscii w = ['g', 's']
            · rw [if_pos hgs, if_pos hgs]
              exact due_group s w args
            · rw [if_neg hgs, if_neg hgs]
              exact hp

-- The carriage return behind the last word is a blank like any other.
example : due "gs ( k 0 3\r".toList = { shape := some (.qr 100), notice := some .qrGenerated } := by decide

end Piece

theorem ofScript_eq (script : Text) :
    Line.ofScript script = (pieces script).map fun p => .ofText (Line.dropReturn p) := by
  rw [Line.ofScript, Text.splitOn_eq_splitOnP, pieces, List.splitOn_eq_splitOnP]

theorem due_run (s : Style) (ps : List Text) :
    (Command.run s (ps.map fun p => (Line.ofText (Line.dropReturn p)).command)).map Outcome.due =
      ps.map Piece.due := by
  induction ps generalizing s with
  | nil => rfl
  | cons p ps ih => simp only [List.map_cons, Command.run, Piece.due_perform, ih]

theorem due_outcomes (script : Text) :
    (outcomes script).map Outcome.due = (pieces script).map Piece.due := by
  rw [outcomes, commands, ofScript_eq, List.map_map]
  exact due_run {} (pieces script)

/-- A script prints and logs what its pieces are due, in their order, and as many tokens as there
are pieces that print. -/
theorem print_eq_due (script : Text) :
    (print script).tokens.map Token.shape = (pieces script).filterMap (fun p => (Piece.due p).shape) ∧
      (print script).log = (pieces script).filterMap (fun p => (Piece.due p).notice) ∧
      (print script).tokens.length = (pieces script).countP Piece.prints := by
  have hd := due_outcomes script
  have ht : (print script).tokens.map Token.shape =
      (pieces script).filterMap fun p => (Piece.due p).shape := by
    have h := congrArg (List.filterMap Due.shape) hd
    rw [List.filterMap_map, List.filterMap_map] at h
    rw [print, Printout.ofOutcomes, List.map_filterMap]
    exact h
  have hn : (print script).log = (pieces script).filterMap fun p => (Piece.due p).notice := by
    have h := congrArg (List.filterMap Due.notice) hd
    rw [List.filterMap_map, List.filterMap_map] at h
    exact h
  refine ⟨ht, hn, ?_⟩
  have hl := congrArg List.length ht
  rw [List.length_map, List.length_filterMap_eq_countP] at hl
  rw [hl]
  exact List.countP_congr fun p _ => by rw [Piece.isSome_due]

end Script

end ReceiptPrinter
