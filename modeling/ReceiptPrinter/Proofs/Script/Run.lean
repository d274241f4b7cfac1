import ReceiptPrinter.Script.Basic

namespace ReceiptPrinter.Command

theorem ofEscape_eq_ignored {args : List Text} (h : ∀ c, args.head? ≠ some [c]) :
    ofEscape args = .ignored := by
  unfold ofEscape
  split
  · next c args => exact absurd rfl (h c)
  · rfl

theorem ofGroup_eq_ignored {args : List Text} (h : ∀ c, args.head? ≠ some [c]) :
    ofGroup args = .ignored := by
  unfold ofGroup
  split
  · next c args => exact absurd rfl (h c)
  · rfl

theorem styleAfter_append (s : Style) (cs : List Command) (c : Command) :
    styleAfter s (cs ++ [c]) = (c.perform (styleAfter s cs)).style := by
  rw [styleAfter, List.foldl_append]
  rfl

theorem getElem?_run (s : Style) (cs : List Command) (k : Nat) :
    (run s cs)[k]? = cs[k]?.map fun c => c.perform (styleAfter s (cs.take k)) := by
  induction cs generalizing s k with
  | nil => rfl
  | cons c cs ih =>
    cases k with
    | zero => rfl
    | succ k => exact ih (c.perform s).style k

theorem styleAfter_eq_getLast? (s : Style) (cs : List Command) :
    styleAfter s cs = ((run s cs).getLast?.map Outcome.style).getD s := by
  induction cs generalizing s with
  | nil => rfl
  | cons c cs ih =>
    have h := ih (c.perform s).style
    rw [run, List.getLast?_cons]
    rw [styleAfter, List.foldl_cons, ← styleAfter, h]
    cases (run (c.perform s).style cs).getLast? <;> rfl

theorem notice_perform (s u : Style) (c : Command) : (c.perform s).notice = (c.perform u).notice := by
  cases c <;> rfl

theorem filterMap_notice_run (s u : Style) (cs : List Command) :
    (run s cs).filterMap Outcome.notice = (run u cs).filterMap Outcome.notice := by
  induction cs generalizing s u with
  | nil => rfl
  | cons c cs ih =>
    rw [run, run, List.filterMap_cons, List.filterMap_cons, notice_perform s u c,
      ih (c.perform s).style (c.perform u).style]

theorem style_of_token {s : Style} {c : Command} {t : Token} (h : (c.perform s).token = some t) :
    t.style = s := by
  cases c <;> simp [perform] at h <;> subst h <;> rfl

/-- What holds of the style at the start and outlasts every command holds of the styles that the
commands of a run meet. -/
theorem exists_of_mem_run {p : Style → Prop} (hp : ∀ s c, p s → p (perform s c).style) {s : Style}
    (hs : p s) {cs : List Command} {o : Outcome} (ho : o ∈ run s cs) :
    ∃ u, p u ∧ ∃ c ∈ cs, o = c.perform u := by
  induction cs generalizing s with
  | nil => exact nomatch ho
  | cons c cs ih =>
    obtain rfl | ho := List.mem_cons.mp ho
    · exact ⟨s, hs, c, List.mem_cons_self, rfl⟩
    · obtain ⟨u, hu, d, hd, hod⟩ := ih (hp s c hs) ho
      exact ⟨u, hu, d, List.mem_cons_of_mem c hd, hod⟩

theorem forall_run {p : Style → Prop} (hp : ∀ s c, p s → p (perform s c).style) {s : Style} (hs : p s)
    (cs : List Command) : ∀ o ∈ run s cs, p o.style ∧ ∀ t ∈ o.token, p t.style := by
  intro o ho
  obtain ⟨u, hu, c, -, rfl⟩ := exists_of_mem_run hp hs ho
  exact ⟨hp u c hu, fun t ht => (style_of_token ht).symm ▸ hu⟩

end ReceiptPrinter.Command
