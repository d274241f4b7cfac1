import ReceiptPrinter.Proofs.Preview.Rows
import ReceiptPrinter.Proofs.Text.Lines

namespace ReceiptPrinter

namespace Text

theorem mem_dropLast_of_mem_rdropWhile {t : Text} {c : Char} (hc : isSpace c = true)
    (h : c ∈ t.rdropWhile isSpace) : c ∈ t.dropLast := by
  obtain rfl | ⟨u, x, rfl⟩ := List.eq_nil_or_concat t
  · exact nomatch h
  · rw [List.concat_eq_append] at h ⊢
    rw [List.dropLast_concat]
    by_cases hx : isSpace x = true
    · rw [List.rdropWhile_concat_pos _ _ _ hx] at h
      exact (List.rdropWhile_prefix isSpace u).subset h
    · rw [List.rdropWhile_concat_neg _ _ _ hx] at h
      obtain h | h := List.mem_append.mp h
      · exact h
      · obtain rfl := List.mem_singleton.mp h
        exact absurd hc hx

end Text

namespace Preview

namespace Row

def placed (paper : Paper) (r : Row) : Text :=
  if r.trimmed = [] then [] else Text.spaces (r.margin paper) ++ r.trimmed

theorem newline_not_mem_placed {r : Row} (h : '\n' ∉ r.trimmed) (paper : Paper) :
    '\n' ∉ r.placed paper := by
  rw [placed]
  split
  · exact List.not_mem_nil
  · simp [Text.spaces, h]

theorem trimmed_subset (r : Row) : r.trimmed ⊆ r.text :=
  (List.rdropWhile_prefix isSpace r.text).subset

end Row

theorem newline_not_mem_of_mem_lines {gs : List Glyph} {r : Row} (h : r ∈ lines gs) :
    '\n' ∉ r.trimmed := by
  obtain ⟨l, hl, rfl⟩ := List.mem_map.mp h
  have hd := isChain_iff.mp (List.isChain_of_mem_splitBy hl)
  intro hn
  have hm : '\n' ∈ (l.map Prod.fst).dropLast := Text.mem_dropLast_of_mem_rdropWhile rfl hn
  rw [← List.map_dropLast] at hm
  obtain ⟨g, hg, hgn⟩ := List.mem_map.mp hm
  exact hd g hg hgn

theorem newline_not_mem_of_mem_codeRows {n : UInt32} {s : Style} {r : Row} (h : r ∈ codeRows n s) :
    '\n' ∉ r.trimmed := by
  obtain rfl := List.eq_of_mem_replicate h
  intro hn
  have hc : '\n' = '#' := List.eq_of_mem_replicate (Row.trimmed_subset _ hn)
  exact absurd hc (by decide)

theorem newline_not_mem_of_mem_rows {c : Cut} {r : Row} (h : r ∈ c.rows) : '\n' ∉ r.trimmed := by
  rw [Cut.rows, List.mem_append, List.mem_flatMap] at h
  obtain h | ⟨⟨n, s, gs⟩, -, h⟩ := h
  · exact newline_not_mem_of_mem_lines h
  · obtain h | h := List.mem_append.mp h
    · exact newline_not_mem_of_mem_codeRows h
    · exact newline_not_mem_of_mem_lines h

theorem printAll_eq_joinLines (paper : Paper) (rs : List Row) :
    printAll paper rs = Text.joinLines (rs.map (Row.placed paper)) := by
  rw [printAll, Text.joinLines, List.map_map, List.flatMap_def]
  rfl

end Preview

namespace Printout

theorem lines_preview (p : Printout) (paper : Paper) :
    (p.preview paper).lines = p.rows.map (Preview.Row.placed paper) := by
  rw [preview_eq_printAll, Preview.printAll_eq_joinLines, Text.lines_joinLines]
  exact List.forall_mem_map.mpr fun r hr =>
    r.newline_not_mem_placed (Preview.newline_not_mem_of_mem_rows hr) paper

end Printout

theorem Paper.columns_le_of_widthMm_le {narrow wide : Paper} (h : narrow.widthMm ≤ wide.widthMm) :
    narrow.columns ≤ wide.columns := by
  revert h
  cases narrow <;> cases wide <;> decide

namespace Preview.Row

variable {narrow wide : Paper}

theorem columns_le (h : narrow.columns ≤ wide.columns) (r : Row) :
    r.columns narrow ≤ r.columns wide ∧
      r.columns wide ≤ r.columns narrow + (wide.columns - narrow.columns) := by
  rw [columns, columns]
  cases r.style.width <;> dsimp only <;> omega

theorem margin_le (h : narrow.columns ≤ wide.columns) (r : Row) :
    r.margin narrow ≤ r.margin wide ∧
      r.margin wide ≤ r.margin narrow + (wide.columns - narrow.columns) := by
  have hc := columns_le h r
  rw [margin, margin, pad_eq, pad_eq]
  cases r.style.alignment <;> dsimp only <;> omega

theorem exists_placed_eq (h : narrow.columns ≤ wide.columns) (r : Row) :
    ∃ n ≤ wide.columns - narrow.columns, r.placed wide = Text.spaces n ++ r.placed narrow := by
  -- What is left of a row without its blanks does not depend on the roll, so neither does the case.
  rw [placed, placed]
  split
  · exact ⟨0, Nat.zero_le _, rfl⟩
  · have hm := margin_le h r
    have hs : Text.spaces (r.margin wide) =
        Text.spaces (r.margin wide - r.margin narrow) ++ Text.spaces (r.margin narrow) := by
      rw [Text.spaces, Text.spaces, Text.spaces, List.replicate_append_replicate,
        Nat.sub_add_cancel hm.1]
    refine ⟨r.margin wide - r.margin narrow, by omega, ?_⟩
    rw [hs, List.append_assoc]

end Preview.Row

namespace Printout

/-- On a wider roll a preview has the same lines, each with some spaces more in front of it. -/
theorem lines_preview_of_widthMm_le {narrow wide : Paper} (h : narrow.widthMm ≤ wide.widthMm) (p : Printout) :
    List.Forall₂ (fun l m => ∃ n ≤ wide.columns - narrow.columns, m = Text.spaces n ++ l)
      (p.preview narrow).lines (p.preview wide).lines := by
  rw [lines_preview, lines_preview, List.forall₂_map_left_iff, List.forall₂_map_right_iff,
    List.forall₂_same]
  exact fun r _ => r.exists_placed_eq (Paper.columns_le_of_widthMm_le h)

/-- The middle of half an odd number of columns, and a code at the right. -/
theorem lines_preview_of_widthMm_le_centered :
    let p : Printout :=
      ⟨[.text "odd".toList { width := .wide, alignment := .center }, .qr 50 { alignment := .right }], []⟩
    Paper.mm58.widthMm ≤ Paper.mm112.widthMm ∧
      (p.preview .mm58).lines =
        [Text.spaces 6 ++ "odd".toList, Text.spaces 28 ++ "####".toList, Text.spaces 28 ++ "####".toList] ∧
      (p.preview .mm112).lines =
        [Text.spaces 15 ++ "odd".toList, Text.spaces 65 ++ "####".toList, Text.spaces 65 ++ "####".toList] ∧
      List.Forall₂ (fun l m => ∃ n ≤ Paper.mm112.columns - Paper.mm58.columns, m = Text.spaces n ++ l)
        (p.preview .mm58).lines (p.preview .mm112).lines := by
  intro p
  have h : Paper.mm58.widthMm ≤ Paper.mm112.widthMm := by decide
  exact ⟨h, by decide, by decide, p.lines_preview_of_widthMm_le h⟩

end Printout

end ReceiptPrinter
