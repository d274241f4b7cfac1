import Mathlib.Logic.Relation
import ReceiptPrinter.Proofs.Script.Joining
import ReceiptPrinter.Proofs.Script.Pieces

namespace ReceiptPrinter

namespace Style

inductive Field where
  | bold
  | size
  | width
  | alignment
  | underline
  | strike
  | rotated
  | emphasis
  | scale
deriving DecidableEq

def Field.pick (f : Field) (fs : List Field) (new old : α) : α := if f ∈ fs then new else old

def overlay (s : Style) (fs : List Field) (t : Style) : Style where
  bold := Field.bold.pick fs t.bold s.bold
  size := Field.size.pick fs t.size s.size
  width := Field.width.pick fs t.width s.width
  alignment := Field.alignment.pick fs t.alignment s.alignment
  underline := Field.underline.pick fs t.underline s.underline
  strike := Field.strike.pick fs t.strike s.strike
  rotated := Field.rotated.pick fs t.rotated s.rotated
  emphasis := Field.emphasis.pick fs t.emphasis s.emphasis
  scale := Field.scale.pick fs t.scale s.scale

variable {fs gs : List Field}

theorem Field.pick_comm (h : ∀ f ∈ fs, f ∉ gs) (f : Field) (x y z : α) :
    f.pick gs y (f.pick fs x z) = f.pick fs x (f.pick gs y z) := by
  by_cases hf : f ∈ fs
  · simp only [pick, if_pos hf, if_neg (h f hf)]
  · simp only [pick, if_neg hf]

theorem Field.pick_absorb (h : fs ⊆ gs) (f : Field) (x y z : α) :
    f.pick gs y (f.pick fs x z) = f.pick gs y z := by
  by_cases hf : f ∈ gs
  · simp only [pick, if_pos hf]
  · simp only [pick, if_neg hf, if_neg fun hm => hf (h hm)]

theorem overlay_comm (h : ∀ f ∈ fs, f ∉ gs) (s t u : Style) :
    (s.overlay fs t).overlay gs u = (s.overlay gs u).overlay fs t := by
  simp only [overlay, Field.pick_comm h]

theorem overlay_absorb (h : fs ⊆ gs) (s t u : Style) :
    (s.overlay fs t).overlay gs u = s.overlay gs u := by
  simp only [overlay, Field.pick_absorb h]

end Style

/-- The kinds of commands that set the style and do nothing else. -/
inductive Setting where
  | mode
  | emphasis
  | alignment
  | underline
  | strike
  | rotation
  | charSize
deriving DecidableEq

namespace Setting

def keyword : Setting → Keyword
  | .charSize => .gs
  | _ => .esc

def letter : Setting → Char
  | .mode => '!'
  | .emphasis => 'E'
  | .alignment => 'a'
  | .underline => '-'
  | .strike => 'G'
  | .rotation => 'V'
  | .charSize => '!'

def fields : Setting → List Style.Field
  | .mode => [.bold, .size, .width, .scale]
  | .emphasis => [.bold, .emphasis]
  | .alignment => [.alignment]
  | .underline => [.underline]
  | .strike => [.strike]
  | .rotation => [.rotated]
  | .charSize => [.scale]

/-- The mode sets boldness like the emphasis, and unsets the scale that the size sets. -/
def entangled : List (Setting × Setting) := [(mode, emphasis), (mode, charSize)]

def IsIndependent (k m : Setting) : Prop := k ≠ m ∧ (k, m) ∉ entangled ∧ (m, k) ∉ entangled
deriving Decidable

def IsOverriddenBy (k m : Setting) : Prop := k = m ∨ k = charSize ∧ m = mode
deriving Decidable

theorem isIndependent_iff {k m : Setting} : k.IsIndependent m ↔ ∀ f ∈ k.fields, f ∉ m.fields := by
  unfold IsIndependent
  cases k <;> cases m <;> decide

theorem IsOverriddenBy.fields_subset {k m : Setting} (h : k.IsOverriddenBy m) : k.fields ⊆ m.fields := by
  obtain rfl | ⟨rfl, rfl⟩ := h
  · exact List.Subset.refl k.fields
  · decide

end Setting

namespace Command

def setting? : Command → Option Setting
  | .printMode _ => some .mode
  | .emphasis _ => some .emphasis
  | .align _ => some .alignment
  | .underline _ => some .underline
  | .doubleStrike _ => some .strike
  | .rotate _ => some .rotation
  | .charSize _ => some .charSize
  | _ => none

variable {c d : Command} {k m : Setting}

/-- A command of a kind sets the fields of its kind, to values that do not depend on the style before. -/
theorem exists_perform_eq (h : c.setting? = some k) :
    ∃ t, ∀ s, c.perform s = { style := s.overlay k.fields t } := by
  refine ⟨(c.perform {}).style, fun s => ?_⟩
  cases c <;> cases h <;> rfl

/-- From every style, two lists of commands print and log the same and leave the same style. -/
structure Alike (cs ds : List Command) : Prop where
  styleAfter_eq : ∀ s, styleAfter s cs = styleAfter s ds
  printout_eq : ∀ s, Printout.ofOutcomes (run s cs) = .ofOutcomes (run s ds)

namespace Alike

variable {cs ds : List Command}

theorem symm (h : Alike cs ds) : Alike ds cs where
  styleAfter_eq s := (h.styleAfter_eq s).symm
  printout_eq s := (h.printout_eq s).symm

theorem within (h : Alike cs ds) (before after : List Command) :
    Alike (before ++ cs ++ after) (before ++ ds ++ after) where
  styleAfter_eq s := by
    have hs := h.styleAfter_eq (styleAfter s before)
    simp only [styleAfter, List.foldl_append] at hs ⊢
    rw [hs]
  printout_eq s := by
    simp only [List.append_assoc, run_append, Printout.ofOutcomes_append, h.styleAfter_eq, h.printout_eq]

theorem idle (h : c = .blank ∨ c = .ignored) : Alike [] [c] := by
  obtain rfl | rfl := h <;> exact ⟨fun _ => rfl, fun _ => rfl⟩

theorem swap (hc : c.setting? = some k) (hd : d.setting? = some m) (h : k.IsIndependent m) :
    Alike [c, d] [d, c] := by
  obtain ⟨t, ht⟩ := exists_perform_eq hc
  obtain ⟨u, hu⟩ := exists_perform_eq hd
  constructor
  · intro s
    have hs := Style.overlay_comm (Setting.isIndependent_iff.mp h) s t u
    simp only [styleAfter, List.foldl_cons, List.foldl_nil, ht, hu, hs]
  · intro s
    simp only [run, ht, hu]
    rfl

theorem swap_openDrawer (hc : c.setting? = some k) : Alike [c, .openDrawer] [.openDrawer, c] := by
  obtain ⟨t, ht⟩ := exists_perform_eq hc
  constructor
  · intro s
    rfl
  · intro s
    simp only [run, ht]
    rfl

theorem override (hc : c.setting? = some k) (hd : d.setting? = some m) (h : k.IsOverriddenBy m) :
    Alike [c, d] [d] := by
  obtain ⟨t, ht⟩ := exists_perform_eq hc
  obtain ⟨u, hu⟩ := exists_perform_eq hd
  constructor
  · intro s
    have hs := Style.overlay_absorb h.fields_subset s t u
    simp only [styleAfter, List.foldl_cons, List.foldl_nil, ht, hu, hs]
  · intro s
    simp only [run, ht, hu]
    rfl

end Alike

end Command

namespace Line

def IsCalled (l : Line) (k : Keyword) (letter : Char) : Prop :=
  l.keyword = some k ∧ l.args.head? = some [letter]
deriving Decidable

theorem setting?_command {l : Line} {k : Setting} (h : l.IsCalled k.keyword k.letter) :
    l.command.setting? = some k := by
  obtain ⟨raw, keyword, args⟩ := l
  obtain ⟨rfl, ha⟩ := h
  obtain ⟨args, rfl⟩ := List.head?_eq_some_iff.mp ha
  cases k <;> rfl

theorem command_eq_openDrawer {l : Line} (h : l.IsCalled .esc 'p') : l.command = .openDrawer := by
  obtain ⟨raw, keyword, args⟩ := l
  obtain ⟨rfl, ha⟩ := h
  obtain ⟨args, rfl⟩ := List.head?_eq_some_iff.mp ha
  rfl

end Line

namespace Script

def lineOf (piece : Text) : Line := .ofText (Line.dropReturn piece)

def commandOf (piece : Text) : Command := (lineOf piece).command

theorem commands_eq (script : Text) : commands script = (pieces script).map commandOf := by
  rw [commands, ofScript_eq, List.map_map]
  rfl

def IsIdle (piece : Text) : Prop := commandOf piece = .blank ∨ commandOf piece = .ignored
deriving Decidable

def IsSetting (k : Setting) (piece : Text) : Prop := (lineOf piece).IsCalled k.keyword k.letter
deriving Decidable

def IsDrawer (piece : Text) : Prop := (lineOf piece).IsCalled .esc 'p'
deriving Decidable

/-- Lines in one place of a script that may stand for others. -/
inductive Rule : List Text → List Text → Prop where
  | insert {t : Text} (ht : IsIdle t) : Rule [] [t]
  | delete {t : Text} (ht : IsIdle t) : Rule [t] []
  | swap {t u : Text} {k m : Setting} (ht : IsSetting k t) (hu : IsSetting m u)
      (h : k.IsIndependent m) : Rule [t, u] [u, t]
  | drawerUp {t u : Text} {k : Setting} (ht : IsSetting k t) (hu : IsDrawer u) : Rule [t, u] [u, t]
  | drawerDown {t u : Text} {k : Setting} (ht : IsSetting k t) (hu : IsDrawer u) : Rule [u, t] [t, u]
  | override {t u : Text} {k m : Setting} (ht : IsSetting k t) (hu : IsSetting m u)
      (h : k.IsOverriddenBy m) : Rule [t, u] [u]

inductive Rewriting : List Text → List Text → Prop where
  | at_place (before after : List Text) {old new : List Text} (h : Rule old new) :
      Rewriting (before ++ old ++ after) (before ++ new ++ after)

theorem Rule.alike {old new : List Text} (h : Rule old new) :
    Command.Alike (old.map commandOf) (new.map commandOf) := by
  have hs : ∀ {k : Setting} {t : Text}, IsSetting k t → (commandOf t).setting? = some k :=
    fun ht => Line.setting?_command ht
  have hd : ∀ {t : Text}, IsDrawer t → commandOf t = .openDrawer :=
    fun ht => Line.command_eq_openDrawer ht
  cases h with
  | insert ht => exact .idle ht
  | delete ht => exact (Command.Alike.idle ht).symm
  | swap ht hu h => exact .swap (hs ht) (hs hu) h
  | drawerUp ht hu =>
    simp only [List.map_cons, List.map_nil, hd hu]
    exact .swap_openDrawer (hs ht)
  | drawerDown ht hu =>
    simp only [List.map_cons, List.map_nil, hd hu]
    exact (Command.Alike.swap_openDrawer (hs ht)).symm
  | override ht hu h => exact .override (hs ht) (hs hu) h

theorem Rewriting.printout_eq {ls ms : List Text} (h : Rewriting ls ms) :
    Printout.ofOutcomes (Command.run {} (ls.map commandOf)) =
      .ofOutcomes (Command.run {} (ms.map commandOf)) := by
  obtain ⟨before, after, hr⟩ := h
  simp only [List.map_append]
  exact (hr.alike.within _ _).printout_eq {}

theorem print_eq_of_pieces (script : Text) :
    print script = .ofOutcomes (Command.run {} ((pieces script).map commandOf)) := by
  rw [print, outcomes, commands_eq]

/-- A script prints and logs the same after any number of rewritings of its lines. -/
theorem print_eq_of_rewritings {a b : Text} (h : Relation.ReflTransGen Rewriting (pieces a) (pieces b)) :
    print a = print b := by
  rw [print_eq_of_pieces, print_eq_of_pieces]
  -- The lines between the rewritings need not be those of a script: only commands are performed.
  generalize pieces b = ls at h
  induction h with
  | refl => rfl
  | tail _ hr ih => exact ih.trans hr.printout_eq

/-- A swap across a carriage return, a size that the mode after it unsets, a drawer opened earlier
and a line put in that does nothing. -/
theorem print_eq_of_rewritings_between :
    let a := "ESC a 1\r\nESC - 1\nGS ! 3\nESC ! 8\nESC p\nHi".toList
    let b := "ESC - 1\nESC a 1\r\nESC p\nESC ! 8\nGS r\nHi".toList
    Relation.ReflTransGen Rewriting (pieces a) (pieces b) ∧ print a = print b := by
  intro a b
  let place := "ESC a 1\r".toList
  let line := "ESC - 1".toList
  let size := "GS ! 3".toList
  let mode := "ESC ! 8".toList
  let drawer := "ESC p".toList
  let idle := "GS r".toList
  let text := "Hi".toList
  have hplace : IsSetting .alignment place := by decide
  have hline : IsSetting .underline line := by decide
  have hsize : IsSetting .charSize size := by decide
  have hmode : IsSetting .mode mode := by decide
  have hdrawer : IsDrawer drawer := by decide
  have hidle : IsIdle idle := by decide
  have h₁ : Rewriting [place, line, size, mode, drawer, text] [line, place, size, mode, drawer, text] :=
    .at_place [] [size, mode, drawer, text] (.swap hplace hline (by decide))
  have h₂ : Rewriting [line, place, size, mode, drawer, text] [line, place, mode, drawer, text] :=
    .at_place [line, place] [drawer, text] (.override hsize hmode (by decide))
  have h₃ : Rewriting [line, place, mode, drawer, text] [line, place, drawer, mode, text] :=
    .at_place [line, place] [text] (.drawerUp hmode hdrawer)
  have h₄ : Rewriting [line, place, drawer, mode, text] [line, place, drawer, mode, idle, text] :=
    .at_place [line, place, drawer, mode] [text] (.insert hidle)
  have ha : pieces a = [place, line, size, mode, drawer, text] := by decide
  have hb : pieces b = [line, place, drawer, mode, idle, text] := by decide
  have h : Relation.ReflTransGen Rewriting (pieces a) (pieces b) := by
    rw [ha, hb]
    exact (((Relation.ReflTransGen.single h₁).tail h₂).tail h₃).tail h₄
  exact ⟨h, print_eq_of_rewritings h⟩

-- The order of a mode and an emphasis counts: they set boldness both.
example : print "ESC ! 8\nESC E 0\nHi".toList ≠ print "ESC E 0\nESC ! 8\nHi".toList := by decide

end Script

end ReceiptPrinter
