import ReceiptPrinter.Proofs.Script.Run

namespace ReceiptPrinter

instance : Append Printout := ⟨fun p q => ⟨p.tokens ++ q.tokens, p.log ++ q.log⟩⟩

namespace Printout

theorem ofOutcomes_append (os us : List Outcome) :
    ofOutcomes (os ++ us) = ofOutcomes os ++ ofOutcomes us := by
  rw [ofOutcomes, List.filterMap_append, List.filterMap_append]
  rfl

end Printout

namespace Script

def finalStyle (script : Text) : Style := ((outcomes script).getLast?.map Outcome.style).getD {}

def printFrom (s : Style) (script : Text) : Printout := .ofOutcomes (Command.run s (commands script))

theorem printFrom_default (script : Text) : printFrom {} script = print script := rfl

theorem finalStyle_eq (script : Text) : finalStyle script = Command.styleAfter {} (commands script) :=
  (Command.styleAfter_eq_getLast? {} (commands script)).symm

theorem commands_append (a b : Text) : commands (a ++ '\n' :: b) = commands a ++ commands b := by
  have h : Text.splitOn (· == '\n') (a ++ '\n' :: b) =
      Text.splitOn (· == '\n') a ++ Text.splitOn (· == '\n') b := Text.splitOn_append_cons rfl a b
  simp only [commands, Line.ofScript, h, List.map_append]

theorem printFrom_append (s : Style) (a b : Text) : printFrom s (a ++ '\n' :: b) =
    printFrom s a ++ printFrom (Command.styleAfter s (commands a)) b := by
  rw [printFrom, commands_append, Command.run_append, Printout.ofOutcomes_append]
  rfl

theorem print_append (a b : Text) :
    print (a ++ '\n' :: b) = print a ++ printFrom (finalStyle a) b := by
  rw [finalStyle_eq]
  exact printFrom_append {} a b

theorem log_printFrom (s : Style) (script : Text) : (printFrom s script).log = (print script).log :=
  Command.filterMap_notice_run s {} (commands script)

def resetLine : Text := "ESC @".toList

theorem commands_resetLine : commands resetLine = [.reset] := by decide

theorem printFrom_reset (s : Style) (script : Text) :
    printFrom s (resetLine ++ '\n' :: script) = ⟨[], [.initialized]⟩ ++ print script := by
  have hr : printFrom s resetLine = ⟨[], [.initialized]⟩ := by
    rw [printFrom, commands_resetLine]
    rfl
  have hs : Command.styleAfter s (commands resetLine) = {} := by
    rw [commands_resetLine]
    rfl
  rw [printFrom_append, hr, hs, printFrom_default]

/-- Of two joined scripts the second goes on in the style that the first leaves, and changes nothing
of what the first prints and logs. Behind a reset it prints as on its own. -/
theorem print_joined (a b : Text) :
    (print (a ++ '\n' :: b)).tokens = (print a).tokens ++ (printFrom (finalStyle a) b).tokens ∧
      (print (a ++ '\n' :: b)).log = (print a).log ++ (printFrom (finalStyle a) b).log ∧
      (printFrom (finalStyle a) b).log = (print b).log ∧
      (print a).tokens <+: (print (a ++ '\n' :: b)).tokens ∧
      (print a).log <+: (print (a ++ '\n' :: b)).log ∧
      (print (a ++ "\nESC @\n".toList ++ b)).tokens = (print a).tokens ++ (print b).tokens ∧
      (print (a ++ "\nESC @\n".toList ++ b)).log = (print a).log ++ [.initialized] ++ (print b).log := by
  have hj := print_append a b
  have he : a ++ "\nESC @\n".toList ++ b = a ++ '\n' :: (resetLine ++ '\n' :: b) := by
    rw [List.append_assoc]
    rfl
  have hr : print (a ++ "\nESC @\n".toList ++ b) = print a ++ (⟨[], [.initialized]⟩ ++ print b) := by
    rw [he, print_append, printFrom_reset]
  refine ⟨by rw [hj]; rfl, by rw [hj]; rfl, log_printFrom _ b, ?_, ?_, by rw [hr]; rfl, ?_⟩
  · rw [hj]
    exact List.prefix_append _ _
  · rw [hj]
    exact List.prefix_append _ _
  · rw [hr, List.append_assoc]
    rfl

end Script

end ReceiptPrinter
