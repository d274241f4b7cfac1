import ReceiptPrinter.Proofs.Text.Split
import ReceiptPrinter.Script.Basic

namespace ReceiptPrinter

namespace Line

theorem dropReturn_eq_self {t : Text} (h : t.getLast? ≠ some '\r') : dropReturn t = t := if_neg h

end Line

namespace Script

def joined (ls : List Text) : Text := List.intercalate ['\n'] ls

theorem ofScript_joined {ls : List Text} (hne : ls ≠ []) (h : ∀ l ∈ ls, '\n' ∉ l) :
    Line.ofScript (joined ls) = ls.map fun l => .ofText (Line.dropReturn l) := by
  rw [Line.ofScript, joined, Text.splitOn_intercalate '\n' hne h]

theorem print_congr {a b : Text} (h : Line.ofScript a = Line.ofScript b) : print a = print b := by
  rw [print, print, outcomes, outcomes, commands, commands, h]

theorem events_congr {a b : Text} (h : Line.ofScript a = Line.ofScript b) : events a = events b := by
  rw [events, events, print_congr h, outcomes, outcomes, commands, commands, h]

def ended (l : Text × Bool) : Text := if l.2 then l.1 ++ ['\r'] else l.1

theorem not_mem_ended {l : Text × Bool} (h : '\n' ∉ l.1) : '\n' ∉ ended l := by
  rw [ended]
  split
  · simp [h]
  · exact h

theorem dropReturn_ended {l : Text × Bool} (h : l.1.getLast? ≠ some '\r') :
    Line.dropReturn (ended l) = Line.dropReturn l.1 := by
  rw [ended, Line.dropReturn_eq_self h]
  split
  · exact Line.dropReturn_append l.1
  · exact Line.dropReturn_eq_self h

variable {ls : List (Text × Bool)}

theorem ofScript_ended (hn : ∀ l ∈ ls, '\n' ∉ l.1) (hr : ∀ l ∈ ls, l.1.getLast? ≠ some '\r') :
    Line.ofScript (joined (ls.map ended)) = Line.ofScript (joined (ls.map Prod.fst)) := by
  by_cases hne : ls = []
  · rw [hne]
    rfl
  · have hm : ∀ f : Text × Bool → Text, ls.map f ≠ [] := fun f h => hne (List.map_eq_nil_iff.mp h)
    rw [ofScript_joined (hm _) (List.forall_mem_map.mpr fun l hl => not_mem_ended (hn l hl)),
      ofScript_joined (hm _) (List.forall_mem_map.mpr hn), List.map_map, List.map_map]
    refine List.map_congr_left fun l hl => ?_
    rw [Function.comp, Function.comp, dropReturn_ended (hr l hl)]

/-- Whichever lines of a script end in a carriage return besides, the last one included, the script
prints and tells the same. -/
theorem print_mixed_endings (hn : ∀ l ∈ ls, '\n' ∉ l.1) (hr : ∀ l ∈ ls, l.1.getLast? ≠ some '\r') :
    print (joined (ls.map ended)) = print (joined (ls.map Prod.fst)) ∧
      events (joined (ls.map ended)) = events (joined (ls.map Prod.fst)) := by
  have h := ofScript_ended hn hr
  exact ⟨print_congr h, events_congr h⟩

/-- A command, a blank line, an indented text and a cut at the very end, all but the text with a
carriage return. -/
theorem print_mixed_endings_cut :
    let script := "ESC ! 8\r\n\r\n hi \nGS V 0\r".toList
    print script = print "ESC ! 8\n\n hi \nGS V 0".toList ∧
      events script = events "ESC ! 8\n\n hi \nGS V 0".toList :=
  @print_mixed_endings
    [("ESC ! 8".toList, true), ([], true), (" hi ".toList, false), ("GS V 0".toList, true)]
    (by decide) (by decide)

end Script

end ReceiptPrinter
