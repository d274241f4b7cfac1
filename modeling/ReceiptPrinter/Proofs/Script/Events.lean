import ReceiptPrinter.Script.Basic

namespace ReceiptPrinter.Script

namespace Event

/-- The line that something is told of. Only the end of a run is told of no line. -/
def line? : Event → Option Nat
  | unknownCommand line _ => some line
  | action line _ => some line
  | finished _ _ => none

def notice? : Event → Option Notice
  | action _ notice => some notice
  | _ => none

end Event

variable {number : Nat} {l : Line} {o : Outcome}

theorem mem_lineEvents_unknown {i : Nat} {t : Text} :
    .unknownCommand i t ∈ lineEvents number l o ↔ i = number ∧ l.command = .ignored ∧ l.raw = t := by
  rw [lineEvents]
  cases o.notice <;> by_cases h : l.command = .ignored <;> simp [h, eq_comm]

theorem mem_lineEvents_action {i : Nat} {n : Notice} :
    .action i n ∈ lineEvents number l o ↔ i = number ∧ o.notice = some n := by
  rw [lineEvents]
  cases o.notice <;> by_cases h : l.command = .ignored <;> simp [h, eq_comm]

theorem line?_of_mem_lineEvents {e : Event} (h : e ∈ lineEvents number l o) : e.line? = some number := by
  cases e with
  | unknownCommand i t => rw [(mem_lineEvents_unknown.mp h).1, Event.line?]
  | action i n => rw [(mem_lineEvents_action.mp h).1, Event.line?]
  | finished t a =>
    rw [lineEvents] at h
    cases hn : o.notice <;> by_cases hc : l.command = .ignored <;> simp [hn, hc] at h

theorem notices_lineEvents : (lineEvents number l o).filterMap Event.notice? = o.notice.toList := by
  rw [lineEvents]
  cases o.notice <;> by_cases h : l.command = .ignored <;>
    simp [h, Event.notice?, List.filterMap_cons]

theorem mem_eventsFrom {e : Event} {ls : List Line} {os : List Outcome} :
    e ∈ eventsFrom number ls os ↔
      ∃ k l o, ls[k]? = some l ∧ os[k]? = some o ∧ e ∈ lineEvents (number + k) l o := by
  induction ls generalizing number os with
  | nil => simp [eventsFrom]
  | cons l ls ih =>
    cases os with
    | nil => simp [eventsFrom]
    | cons o os =>
      rw [eventsFrom, List.mem_append, ih]
      constructor
      · rintro (h | ⟨k, m, u, hm, hu, h⟩)
        · exact ⟨0, l, o, rfl, rfl, h⟩
        · refine ⟨k + 1, m, u, hm, hu, ?_⟩
          rwa [Nat.add_assoc, Nat.add_comm 1] at h
      · rintro ⟨k, m, u, hm, hu, h⟩
        cases k with
        | zero =>
          obtain rfl := Option.some.inj hm
          obtain rfl := Option.some.inj hu
          exact Or.inl h
        | succ k =>
          refine Or.inr ⟨k, m, u, hm, hu, ?_⟩
          rwa [Nat.add_assoc, Nat.add_comm 1]

theorem notices_eventsFrom {ls : List Line} {os : List Outcome} (h : os.length = ls.length) :
    (eventsFrom number ls os).filterMap Event.notice? = os.filterMap Outcome.notice := by
  induction ls generalizing number os with
  | nil => rw [List.length_eq_zero_iff.mp h, eventsFrom.eq_2 _ _ _ (by simp)]; rfl
  | cons l ls ih =>
    cases os with
    | nil => simp at h
    | cons o os =>
      rw [eventsFrom, List.filterMap_append, notices_lineEvents, ih (Nat.succ.inj h), List.filterMap_cons]
      cases o.notice <;> rfl

/-- A line that is ignored logs nothing, so no line is told of twice. -/
theorem lines_lineEvents (number : Nat) (l : Line) (s : Style) :
    (lineEvents number l (l.command.perform s)).filterMap Event.line? = [] ∨
      (lineEvents number l (l.command.perform s)).filterMap Event.line? = [number] := by
  rw [lineEvents]
  by_cases hc : l.command = .ignored
  · rw [hc]
    exact Or.inr rfl
  · rw [if_neg hc]
    cases (l.command.perform s).notice with
    | none => exact Or.inl rfl
    | some n => exact Or.inr rfl

theorem lines_eventsFrom (number : Nat) (ls : List Line) (s : Style) :
    let told := (eventsFrom number ls (Command.run s (ls.map Line.command))).filterMap Event.line?
    told.Pairwise (· < ·) ∧ ∀ i ∈ told, number ≤ i := by
  induction ls generalizing number s with
  | nil => simp [eventsFrom]
  | cons l ls ih =>
    obtain ⟨hp, hl⟩ := ih (number + 1) (l.command.perform s).style
    have hlt : ∀ i ∈ (eventsFrom (number + 1) ls (Command.run (l.command.perform s).style
        (ls.map Line.command))).filterMap Event.line?, number < i := hl
    rw [List.map_cons, Command.run, eventsFrom, List.filterMap_append]
    obtain h | h := lines_lineEvents number l s
    · rw [h, List.nil_append]
      exact ⟨hp, fun i hi => Nat.le_of_lt (hlt i hi)⟩
    · rw [h, List.singleton_append]
      refine ⟨List.pairwise_cons.mpr ⟨hlt, hp⟩, List.forall_mem_cons.mpr ⟨Nat.le_refl number, ?_⟩⟩
      exact fun i hi => Nat.le_of_lt (hlt i hi)

theorem length_outcomes (script : Text) : (outcomes script).length = (Line.ofScript script).length := by
  rw [outcomes, Command.length_run, commands, List.length_map]

theorem mem_eventsFrom_one {e : Event} {ls : List Line} {os : List Outcome} (h : os.length = ls.length) :
    e ∈ eventsFrom 1 ls os ↔ ∃ i : Fin ls.length, e ∈ lineEvents (i + 1) ls[i] os[i] := by
  rw [mem_eventsFrom]
  constructor
  · rintro ⟨k, l, o, hl, ho, he⟩
    obtain ⟨hk, rfl⟩ := List.getElem?_eq_some_iff.mp hl
    obtain ⟨_, rfl⟩ := List.getElem?_eq_some_iff.mp ho
    exact ⟨⟨k, hk⟩, Nat.add_comm 1 k ▸ he⟩
  · rintro ⟨⟨k, hk⟩, he⟩
    exact ⟨k, _, _, List.getElem?_eq_getElem hk, List.getElem?_eq_getElem (h ▸ hk), Nat.add_comm k 1 ▸ he⟩

/-- What is told of a run fits what is read and what comes out: of each line at most one thing and in
their order, of a line that it is unknown just when it is ignored, every notice at the line that logs
it, and at the end, and only there, the counts of the printout. -/
theorem events_fit_printout (script : Text) : ∃ told : List Event,
    events script = told ++ [.finished (print script).tokens.length (print script).log.length] ∧
      (∀ e ∈ told, e.line?.isSome) ∧
      (told.filterMap Event.line?).Pairwise (· < ·) ∧
      (∀ i t, .unknownCommand i t ∈ told ↔ 1 ≤ i ∧
        ∃ l, (Line.ofScript script)[i - 1]? = some l ∧ l.command = .ignored ∧ l.raw = t) ∧
      (∀ i n, .action i n ∈ told ↔ 1 ≤ i ∧
        ∃ o, (outcomes script)[i - 1]? = some o ∧ o.notice = some n) ∧
      (told.filterMap Event.notice?).map Notice.message = (print script).messages := by
  have hlen := length_outcomes script
  refine ⟨eventsFrom 1 (Line.ofScript script) (outcomes script), rfl, ?_,
    (lines_eventsFrom 1 (Line.ofScript script) {}).1, ?_, ?_, ?_⟩
  · intro e he
    obtain ⟨i, h⟩ := (mem_eventsFrom_one hlen).mp he
    rw [line?_of_mem_lineEvents h, Option.isSome_some]
  · intro i t
    rw [mem_eventsFrom_one hlen]
    constructor
    · rintro ⟨⟨k, hk⟩, h⟩
      obtain ⟨rfl, hc, ht⟩ := mem_lineEvents_unknown.mp h
      exact ⟨Nat.succ_pos k, _, List.getElem?_eq_getElem hk, hc, ht⟩
    · rintro ⟨hi, l, hl, hc, ht⟩
      obtain ⟨hk, rfl⟩ := List.getElem?_eq_some_iff.mp hl
      exact ⟨⟨i - 1, hk⟩, mem_lineEvents_unknown.mpr ⟨(Nat.sub_add_cancel hi).symm, hc, ht⟩⟩
  · intro i n
    rw [mem_eventsFrom_one hlen]
    constructor
    · rintro ⟨⟨k, hk⟩, h⟩
      obtain ⟨rfl, hn⟩ := mem_lineEvents_action.mp h
      exact ⟨Nat.succ_pos k, _, List.getElem?_eq_getElem (Nat.lt_of_lt_of_eq hk hlen.symm), hn⟩
    · rintro ⟨hi, o, ho, hn⟩
      obtain ⟨hk, rfl⟩ := List.getElem?_eq_some_iff.mp ho
      refine ⟨⟨i - 1, Nat.lt_of_lt_of_eq hk hlen⟩, ?_⟩
      exact mem_lineEvents_action.mpr ⟨(Nat.sub_add_cancel hi).symm, hn⟩
  · rw [notices_eventsFrom hlen]
    rfl

end ReceiptPrinter.Script
