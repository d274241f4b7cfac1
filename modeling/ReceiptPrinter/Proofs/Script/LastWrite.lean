import Mathlib.Data.List.Induction
import ReceiptPrinter.Proofs.Script.Run

namespace ReceiptPrinter

open Number

namespace Line

/-- The argument of a line with a keyword and a one-letter word behind it, if it is such a line. -/
def argument? (k : Keyword) (word : Char) (l : Line) : Option (Option Text) :=
  if l.keyword = some k ∧ l.args.head? = some [word] then some l.args[1]? else none

def resets (l : Line) : Bool := (l.argument? .esc '@').isSome

/-- The fields that a line writes, each with its new value. -/
structure Writes where
  bold : Option Bool
  size : Option SizeScale
  width : Option WidthMode
  alignment : Option Alignment
  underline : Option Bool
  strike : Option Bool
  rotated : Option Bool
  emphasis : Option Bool
  scale : Option (Option Single)
  fontSize : Option Single

def switched (arg : Option Text) : Bool := arg = some ['1']

def modeBit (weight : Int) (arg : Option Text) : Bool := Style.hasBit (Numeral.read arg) weight

def modeSize (arg : Option Text) : SizeScale :=
  if modeBit 32 arg then .large else if modeBit 16 arg then .tall else .normal

def modeWidth (arg : Option Text) : WidthMode := if modeBit 32 arg then .wide else .normal

def modeFontSize (arg : Option Text) : Single :=
  if modeBit 32 arg then .oneAndHalf else if modeBit 16 arg then .two else .one

def placed (arg : Option Text) : Alignment :=
  if arg = some ['0'] then .left else if arg = some ['1'] then .center else .right

def scaled (arg : Option Text) : Single := Style.scaleOf (Numeral.read arg)

def writes (l : Line) : Writes where
  bold := ((l.argument? .esc '!').map (modeBit 8)).or ((l.argument? .esc 'E').map switched)
  size := (l.argument? .esc '!').map modeSize
  width := (l.argument? .esc '!').map modeWidth
  alignment := (l.argument? .esc 'a').map placed
  underline := (l.argument? .esc '-').map switched
  strike := (l.argument? .esc 'G').map switched
  rotated := (l.argument? .esc 'V').map switched
  emphasis := (l.argument? .esc 'E').map switched
  scale := ((l.argument? .esc '!').map fun _ => none).or
    ((l.argument? .gs '!').map fun arg => some (scaled arg))
  fontSize := ((l.argument? .esc '!').map modeFontSize).or ((l.argument? .gs '!').map scaled)

/-- The lines behind the last reset, the latest first. -/
def sinceReset (ls : List Line) : List Line := ls.reverse.takeWhile fun l => !l.resets

/-- What the last line since the last reset wrote into a field. -/
def lastWrite (field : Writes → Option α) (standard : α) (ls : List Line) : α :=
  ((sinceReset ls).findSome? fun l => field l.writes).getD standard

theorem lastWrite_append (field : Writes → Option α) (standard : α) (ls : List Line) (l : Line) :
    lastWrite field standard (ls ++ [l]) =
      if l.resets then standard else (field l.writes).getD (lastWrite field standard ls) := by
  rw [lastWrite, lastWrite, sinceReset, sinceReset, List.reverse_append, List.reverse_singleton,
    List.singleton_append, List.takeWhile_cons]
  cases l.resets with
  | true => rfl
  | false => cases h : field l.writes <;> simp [h]

def restyle (s : Style) (l : Line) : Style :=
  if l.resets then {}
  else
    { bold := l.writes.bold.getD s.bold
      size := l.writes.size.getD s.size
      width := l.writes.width.getD s.width
      alignment := l.writes.alignment.getD s.alignment
      underline := l.writes.underline.getD s.underline
      strike := l.writes.strike.getD s.strike
      rotated := l.writes.rotated.getD s.rotated
      emphasis := l.writes.emphasis.getD s.emphasis
      scale := l.writes.scale.getD s.scale }

theorem restyle_of_keyword_ne {l : Line} (s : Style) (hesc : l.keyword ≠ some .esc)
    (hgs : l.keyword ≠ some .gs) : restyle s l = s := by
  have he : ∀ c, l.argument? .esc c = none := fun c => if_neg fun h => hesc h.1
  have hg : ∀ c, l.argument? .gs c = none := fun c => if_neg fun h => hgs h.1
  simp [restyle, resets, writes, he, hg]

theorem isOn_eq (arg : Option Text) : Command.isOn arg = switched arg := by
  rw [Bool.eq_iff_iff]
  simp [Command.isOn, switched]

theorem setMode_eq (s : Style) (arg : Option Text) : s.setMode (Numeral.read arg) =
    { s with bold := modeBit 8 arg, size := modeSize arg, width := modeWidth arg, scale := none } := rfl

theorem style_ofEscape (s : Style) (raw : Text) (args : List Text) :
    ((Command.ofEscape args).perform s).style = restyle s ⟨raw, some .esc, args⟩ := by
  by_cases hw : ∃ c, args.head? = some [c]
  · obtain ⟨c, hc⟩ := hw
    obtain ⟨args, rfl⟩ := List.head?_eq_some_iff.mp hc
    simp only [Command.ofEscape]
    split <;> simp_all [restyle, resets, writes, argument?, Command.perform, setMode_eq, isOn_eq,
      Style.setEmphasis, Command.alignmentOf, placed, List.head?_eq_getElem?]
  · have hn := not_exists.mp hw
    rw [Command.ofEscape_eq_ignored hn]
    simp [restyle, resets, writes, argument?, hn, Command.perform]

theorem style_ofGroup (s : Style) (raw : Text) (args : List Text) :
    ((Command.ofGroup args).perform s).style = restyle s ⟨raw, some .gs, args⟩ := by
  by_cases hw : ∃ c, args.head? = some [c]
  · obtain ⟨c, hc⟩ := hw
    obtain ⟨args, rfl⟩ := List.head?_eq_some_iff.mp hc
    simp only [Command.ofGroup]
    split
    · simp [restyle, resets, writes, argument?, Command.perform, Style.setSize, scaled,
        List.head?_eq_getElem?]
    · simp [restyle, resets, writes, argument?, Command.perform]
    · split <;> simp [restyle, resets, writes, argument?, Command.perform]
    · simp_all [restyle, resets, writes, argument?, Command.perform]
  · have hn := not_exists.mp hw
    rw [Command.ofGroup_eq_ignored hn]
    simp [restyle, resets, writes, argument?, hn, Command.perform]

theorem style_perform (s : Style) (l : Line) : (l.command.perform s).style = restyle s l := by
  obtain ⟨raw, keyword, args⟩ := l
  match keyword with
  | some .esc => exact style_ofEscape s raw args
  | some .gs => exact style_ofGroup s raw args
  | some .lf => rw [restyle_of_keyword_ne s (by simp) (by simp)]; rfl
  | none =>
    rw [restyle_of_keyword_ne s (by simp) (by simp)]
    unfold command
    cases isBlank ⟨raw, none, args⟩ <;> rfl

theorem fontSize_restyle (s : Style) (l : Line) : (restyle s l).fontSize =
    if l.resets then .one else l.writes.fontSize.getD s.fontSize := by
  rw [restyle]
  cases l.resets with
  | true => rfl
  | false =>
    cases he : l.argument? .esc '!' with
    | some arg =>
      simp only [writes, he, Style.fontSize, modeSize, modeFontSize, Bool.false_eq_true, ↓reduceIte,
        Option.map_some, Option.some_or, Option.getD_some]
      cases modeBit 32 arg <;> cases modeBit 16 arg <;> rfl
    | none => cases hg : l.argument? .gs '!' <;> simp [writes, he, hg, Style.fontSize]

def decided (ls : List Line) : Style where
  bold := lastWrite Writes.bold false ls
  size := lastWrite Writes.size .normal ls
  width := lastWrite Writes.width .normal ls
  alignment := lastWrite Writes.alignment .left ls
  underline := lastWrite Writes.underline false ls
  strike := lastWrite Writes.strike false ls
  rotated := lastWrite Writes.rotated false ls
  emphasis := lastWrite Writes.emphasis false ls
  scale := lastWrite Writes.scale none ls

theorem decided_append (ls : List Line) (l : Line) : decided (ls ++ [l]) = restyle (decided ls) l := by
  unfold decided restyle
  simp only [lastWrite_append]
  cases l.resets <;> rfl

/-- Going through the lines forward and searching them backward agree. -/
theorem styleAfter_eq_decided (ls : List Line) :
    Command.styleAfter {} (ls.map command) = decided ls := by
  induction ls using List.reverseRecOn with
  | nil => rfl
  | append_singleton ls l ih =>
    rw [List.map_append, List.map_singleton, Command.styleAfter_append, ih, style_perform, decided_append]

theorem fontSize_decided (ls : List Line) :
    (decided ls).fontSize = lastWrite Writes.fontSize .one ls := by
  induction ls using List.reverseRecOn with
  | nil => rfl
  | append_singleton ls l ih => rw [decided_append, fontSize_restyle, ih, lastWrite_append]

end Line

namespace Script

open Line

def tokenAt? (script : Text) (k : Nat) : Option Token := (outcomes script)[k]?.bind Outcome.token

theorem style_tokenAt? {script : Text} {k : Nat} {t : Token} (h : tokenAt? script k = some t) :
    t.style = decided ((Line.ofScript script).take k) := by
  obtain ⟨o, ho, ht⟩ := Option.bind_eq_some_iff.mp h
  rw [outcomes, Command.getElem?_run] at ho
  obtain ⟨c, -, rfl⟩ := Option.map_eq_some_iff.mp ho
  rw [Command.style_of_token ht, commands, ← List.map_take, styleAfter_eq_decided]

theorem filterMap_eq_range {f : α → Option β} (xs : List α) :
    xs.filterMap f = (List.range xs.length).filterMap fun k => xs[k]?.bind f := by
  induction xs with
  | nil => rfl
  | cons x xs ih =>
    rw [List.length_cons, List.range_succ_eq_map, List.filterMap_cons, List.filterMap_cons,
      List.filterMap_map, ih]
    rfl

/-- The tokens of a script come line by line, and every field of their style is what the last line
wrote into it that writes it, of those between the last reset and the line of the token. -/
theorem tokens_style_eq_lastWrite (script : Text) :
    (print script).tokens =
        (List.range (Line.ofScript script).length).filterMap (tokenAt? script) ∧
      ∀ k t, tokenAt? script k = some t →
        let ls := (Line.ofScript script).take k
        t.style.bold = lastWrite Writes.bold false ls ∧
          t.style.size = lastWrite Writes.size .normal ls ∧
          t.style.width = lastWrite Writes.width .normal ls ∧
          t.style.alignment = lastWrite Writes.alignment .left ls ∧
          t.style.underline = lastWrite Writes.underline false ls ∧
          t.style.strike = lastWrite Writes.strike false ls ∧
          t.style.rotated = lastWrite Writes.rotated false ls ∧
          t.style.emphasis = lastWrite Writes.emphasis false ls ∧
          t.style.scale = lastWrite Writes.scale none ls ∧
          t.style.fontSize = lastWrite Writes.fontSize .one ls := by
  constructor
  · have hl : (outcomes script).length = (Line.ofScript script).length := by
      rw [outcomes, Command.length_run, commands, List.length_map]
    rw [print, Printout.ofOutcomes, filterMap_eq_range, hl]
    rfl
  · intro k t h ls
    rw [style_tokenAt? h]
    exact ⟨rfl, rfl, rfl, rfl, rfl, rfl, rfl, rfl, rfl, fontSize_decided ls⟩

/-- A scale from before a reset is gone, and of two lines that write boldness the later one counts. -/
theorem tokens_style_behind_reset :
    let script := "GS ! 4\nESC @\nESC ! 16\nESC E 1\nHi".toList
    let ls := (Line.ofScript script).take 4
    tokenAt? script 4 =
        some (.text "Hi\n".toList { bold := true, size := .tall, emphasis := true }) ∧
      true = lastWrite Writes.bold false ls ∧ SizeScale.tall = lastWrite Writes.size .normal ls ∧
      none = lastWrite Writes.scale none ls ∧ Number.Single.two = lastWrite Writes.fontSize .one ls := by
  intro script ls
  have ht : tokenAt? script 4 =
      some (.text "Hi\n".toList { bold := true, size := .tall, emphasis := true }) := by decide
  obtain ⟨hb, hs, -, -, -, -, -, -, hx, hf⟩ := (tokens_style_eq_lastWrite script).2 4 _ ht
  exact ⟨ht, hb, hs, hx, hf⟩

end Script

end ReceiptPrinter
