import ReceiptPrinter.Script.Line

namespace ReceiptPrinter

namespace Text

theorem splitOn_eq_splitOnP (sep : Char → Bool) (t : Text) : splitOn sep t = t.splitOnP sep := by
  induction t with
  | nil => rfl
  | cons c t ih =>
    have hne := List.splitOnP_ne_nil sep t
    rw [splitOn_cons, List.splitOnP_cons_eq_if_modifyHead, ih]
    cases h : t.splitOnP sep with
    | nil => exact absurd h hne
    | cons p ps => rfl

theorem sep_of_mem_splitOn {sep : Char → Bool} {t p : Text} (h : p ∈ splitOn sep t) :
    ∀ c ∈ p, sep c = false := by
  induction t generalizing p with
  | nil =>
    obtain rfl := List.mem_singleton.mp h
    exact fun _ hc => nomatch hc
  | cons x t ih =>
    obtain ⟨q, qs, hq⟩ := List.exists_cons_of_ne_nil (splitOn_ne_nil sep t)
    rw [splitOn_cons, hq] at h
    rw [hq] at ih
    cases hx : sep x with
    | true =>
      rw [if_pos hx] at h
      obtain rfl | h := List.mem_cons.mp h
      · exact fun _ hc => nomatch hc
      · exact ih h
    | false =>
      rw [hx, if_neg Bool.false_ne_true] at h
      obtain rfl | h := List.mem_cons.mp h
      · exact List.forall_mem_cons.mpr ⟨hx, ih List.mem_cons_self⟩
      · exact ih (List.mem_cons_of_mem q h)

theorem splitOn_intercalate (c : Char) {ls : List Text} (hne : ls ≠ []) (h : ∀ l ∈ ls, c ∉ l) :
    splitOn (· == c) (List.intercalate [c] ls) = ls := by
  rw [splitOn_eq_splitOnP, ← List.splitOn_eq_splitOnP]
  exact List.splitOn_intercalate c h hne

theorem words_append_cons {c : Char} (h : isSpace c = true) (a b : Text) :
    words (a ++ c :: b) = words a ++ words b := by
  simp only [words, splitOn_append_cons h, List.filter_append]

theorem words_nil : words [] = [] := rfl

theorem splitOn_eq_singleton {sep : Char → Bool} {t : Text} (h : ∀ c ∈ t, sep c = false) :
    splitOn sep t = [t] := by
  induction t with
  | nil => rfl
  | cons c t ih =>
    rw [List.forall_mem_cons] at h
    rw [splitOn_cons, h.1, if_neg Bool.false_ne_true, ih h.2]
    rfl

structure IsWord (w : Text) : Prop where
  ne_nil : w ≠ []
  isSpace_eq_false : ∀ c ∈ w, isSpace c = false

instance (w : Text) : Decidable w.IsWord :=
  decidable_of_iff (w ≠ [] ∧ (w.all fun c => isSpace c == false) = true)
    ⟨fun h => ⟨h.1, fun c hc => eq_of_beq (List.all_eq_true.mp h.2 c hc)⟩,
      fun h => ⟨h.ne_nil, List.all_eq_true.mpr fun c hc => beq_iff_eq.mpr (h.isSpace_eq_false c hc)⟩⟩

theorem IsWord.words_eq {w : Text} (h : w.IsWord) : words w = [w] := by
  rw [words, splitOn_eq_singleton h.isSpace_eq_false,
    List.filter_cons_of_pos (by simp [h.ne_nil]), List.filter_nil]

theorem IsWord.words_append_cons {w : Text} (h : w.IsWord) {c : Char} (hc : isSpace c = true) (t : Text) :
    words (w ++ c :: t) = w :: words t := by
  rw [Text.words_append_cons hc, h.words_eq, List.singleton_append]

theorem IsWord.startsBlank_append {w : Text} (h : w.IsWord) (t : Text) : startsBlank (w ++ t) = false := by
  obtain ⟨c, u, rfl⟩ := List.exists_cons_of_ne_nil h.ne_nil
  exact h.isSpace_eq_false c List.mem_cons_self

end Text

namespace Line

theorem dropReturn_append (t : Text) : dropReturn (t ++ ['\r']) = t := by
  simp [dropReturn]

theorem dropReturn_cases (t : Text) : dropReturn t = t ∨ t = dropReturn t ++ ['\r'] := by
  by_cases h : t.getLast? = some '\r'
  · obtain ⟨u, rfl⟩ := List.getLast?_eq_some_iff.mp h
    exact Or.inr (by rw [dropReturn_append])
  · exact Or.inl (if_neg h)

theorem mem_of_mem_dropReturn {t : Text} {c : Char} (h : c ∈ dropReturn t) : c ∈ t := by
  obtain ht | ht := dropReturn_cases t
  · rwa [ht] at h
  · rw [ht]
    exact List.mem_append_left _ h

theorem words_dropReturn (t : Text) : Text.words (dropReturn t) = Text.words t := by
  obtain h | h := dropReturn_cases t
  · rw [h]
  · have hw := Text.words_append_cons (c := '\r') rfl (dropReturn t) []
    rw [← h, Text.words_nil, List.append_nil] at hw
    exact hw.symm

theorem isBlank_dropReturn (t : Text) : Text.isBlank (dropReturn t) = Text.isBlank t := by
  obtain h | h := dropReturn_cases t
  · rw [h]
  · have hb : Text.isBlank (dropReturn t ++ ['\r']) = Text.isBlank (dropReturn t) := by
      simp [Text.isBlank, isSpace]
    rw [← h] at hb
    exact hb.symm

/-- A lone carriage return starts with a blank and leaves nothing, so blank texts are left out. -/
theorem startsBlank_dropReturn {t : Text} (hb : Text.isBlank t = false) :
    Text.startsBlank (dropReturn t) = Text.startsBlank t := by
  obtain h | h := dropReturn_cases t
  · rw [h]
  · cases hd : dropReturn t with
    | nil =>
      rw [hd] at h
      rw [h] at hb
      exact absurd hb (by decide)
    | cons c u =>
      rw [hd] at h
      rw [h]
      rfl

end Line

end ReceiptPrinter
