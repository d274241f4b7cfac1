import ReceiptPrinter.Proofs.Text.Split

namespace ReceiptPrinter.Text

/-- The lines of a text: what each line feed ends, and what is left behind the last one. -/
def lines (t : Text) : List Text :=
  let pieces := splitOn (· == '\n') t
  if pieces.getLast? = some [] then pieces.dropLast else pieces

theorem joinLines_cons (l : Text) (ls : List Text) : joinLines (l :: ls) = l ++ '\n' :: joinLines ls := by
  simp [joinLines]

theorem joinLines_append (ls ms : List Text) : joinLines (ls ++ ms) = joinLines ls ++ joinLines ms := by
  rw [joinLines, List.map_append, List.flatten_append]
  rfl

variable {ls : List Text}

theorem splitOn_joinLines (h : ∀ l ∈ ls, '\n' ∉ l) :
    splitOn (· == '\n') (joinLines ls) = ls ++ [[]] := by
  induction ls with
  | nil => rfl
  | cons l ls ih =>
    rw [List.forall_mem_cons] at h
    have hl : ∀ c ∈ l, (c == '\n') = false := fun c hc =>
      beq_eq_false_iff_ne.mpr fun hn => h.1 (hn ▸ hc)
    have hs : splitOn (· == '\n') (l ++ '\n' :: joinLines ls) =
        splitOn (· == '\n') l ++ splitOn (· == '\n') (joinLines ls) := splitOn_append_cons rfl l _
    rw [joinLines_cons, hs, splitOn_eq_singleton hl, ih h.2]
    rfl

theorem lines_joinLines (h : ∀ l ∈ ls, '\n' ∉ l) : lines (joinLines ls) = ls := by
  rw [lines, splitOn_joinLines h, List.getLast?_concat, if_pos rfl, List.dropLast_concat]

end ReceiptPrinter.Text
