import ReceiptPrinter.Proofs.Json.Grammar
import ReceiptPrinter.Proofs.Service.Parse

namespace ReceiptPrinter

open Json

/-- The status of a refusal where a value of another kind was due. A number beyond double precision is not
even taken for a number. -/
def Json.Value.mismatch : Value → Nat
  | .number l => if (Value.number l).storable 0 then 422 else 400
  | _ => 422

namespace Paper

def names : List Text := ["58mm".toList, "80mm".toList, "112mm".toList]

/-- A paper is given by its name, or by an object with null for its name and nothing else. -/
inductive IsMeant : Paper → Value → Prop where
  | name (p : Paper) : IsMeant p (.ofText p.name)
  | object (p : Paper) : IsMeant p (.object [(some p.name, .null)])

inductive Refuses : Value → Nat → Prop where
  | name {t : Text} (h : t ∉ names) : Refuses (.ofText t) 422
  | key {k : Text} {v : Value} {rest : List Member} (h : k ∉ names) : Refuses (.object ((some k, v) :: rest)) 422
  | value {k : Text} {v : Value} {rest : List Member} (h : k ∈ names) (hv : v ≠ .null) :
    Refuses (.object ((some k, v) :: rest)) v.mismatch
  | members {k : Text} {m : Member} {rest : List Member} (h : k ∈ names) :
    Refuses (.object ((some k, .null) :: m :: rest)) 400
  | empty : Refuses (.object []) 400
  | array (items : List Value) : Refuses (.array items) 400
  | number (l : Literal) : Refuses (.number l) 400
  | bool (b : Bool) : Refuses (.bool b) 400

theorem IsMeant.mem_names {p : Paper} {t : Text} (h : p.IsMeant (.ofText t)) : t ∈ names := by
  generalize hv : Value.ofText t = v at h
  cases h with
  | name =>
    obtain rfl : t = p.name := Option.some.inj (Value.string.inj hv)
    cases p <;> decide
  | object => cases hv

theorem names_eq : names = all.map name := by decide

theorem named_eq_none {t : Text} (h : t ∉ names) : named t = none := by
  rw [names_eq] at h
  rw [named, List.find?_eq_none]
  exact fun p hp hn => h (List.mem_map.mpr ⟨p, hp, beq_iff_eq.mp hn⟩)

theorem exists_of_mem_names {t : Text} (h : t ∈ names) : ∃ p : Paper, t = p.name := by
  rw [names_eq] at h
  obtain ⟨p, -, hp⟩ := List.mem_map.mp h
  exact ⟨p, hp.symm⟩

end Paper

namespace ParseRequest

def IsScript (t : Text) (v : Value) : Prop := v = .ofText t

/-- A value that asks for a script and a paper, either of which may be left open: an object, which may have
other members, or an array. -/
inductive IsSpelling (script : Option Text) (paper : Option Paper) : Value → Prop where
  | object {ms : List Member} (hs : Given IsScript script (Value.withKey "script".toList ms))
      (hp : Given Paper.IsMeant paper (Value.withKey "paper".toList ms)) : IsSpelling script paper (.object ms)
  | array {ss ps : List Value} (hs : Given IsScript script ss) (hp : Given Paper.IsMeant paper ps)
      (h : ps ≠ [] → ss ≠ []) : IsSpelling script paper (.array (ss ++ ps))

inductive Refuses (ms : List Member) : Text → Value → Nat → Prop where
  | repeated {k : Text} {v : Value} (hk : k = "script".toList ∨ k = "paper".toList)
      (h : Value.withKey k ms ≠ []) : Refuses ms k v 422
  | script {v : Value} (h : Value.withKey "script".toList ms = []) (hn : v ≠ .null)
      (hv : ∀ t, v ≠ .ofText t) : Refuses ms "script".toList v v.mismatch
  | paper {v : Value} {e : Nat} (h : Value.withKey "paper".toList ms = []) (hv : Paper.Refuses v e) :
    Refuses ms "paper".toList v e

theorem readMembers_append {σ : Type} (read : σ → Text → Value → Except Fault σ) (s : σ) (a b : List Member) :
    Value.readMembers read s (a ++ b) =
      (Value.readMembers read s a).bind fun s => Value.readMembers read s b := by
  induction a generalizing s with
  | nil => rfl
  | cons m a ih =>
    obtain ⟨_ | k, v⟩ := m
    · rfl
    · rw [List.cons_append, Value.readMembers, Value.readMembers]
      cases read s k v with
      | error e => rfl
      | ok s => exact ih s

theorem readScript_of_isScript (t : Text) (v : Value) (h : IsScript t v) : readScript v = .ok (some t) := by
  rw [h]
  rfl

theorem readPaper_of_isMeant (p : Paper) (v : Value) (h : p.IsMeant v) : readPaper v = .ok (some p) := by
  cases h <;> cases p <;> decide

def FailsWith {α : Type} (x : Except Fault α) (e : Nat) : Prop :=
  ∃ f, x = .error f ∧ (Rejection.fault f).status = e

theorem FailsWith.map {α β : Type} {x : Except Fault α} {e : Nat} (h : FailsWith x e) (f : α → β) :
    FailsWith (x.map f) e := by
  obtain ⟨g, rfl, he⟩ := h
  exact ⟨g, rfl, he⟩

theorem status_fault {v : Value} (h : v.IsWritten) : (Rejection.fault v.fault).status = v.mismatch := by
  cases h with
  | @number l h =>
    rw [Value.fault, Value.mismatch, Value.storable]
    split_ifs <;> rfl
  | _ => rfl

theorem readScript_fails {v : Value} (h : v.IsWritten) (hn : v ≠ .null) (hv : ∀ t, v ≠ .ofText t) :
    FailsWith (readScript v) v.mismatch := by
  refine ⟨v.fault, ?_, status_fault h⟩
  rw [readScript, Body.readOption, Value.isNull_eq_false hn, if_neg Bool.false_ne_true]
  cases h with
  | text t => exact absurd rfl (hv t)
  | _ => rfl

theorem readPaper_fails {v : Value} {e : Nat} (h : v.IsWritten) (hr : Paper.Refuses v e) :
    FailsWith (readPaper v) e := by
  cases hr with
  | name hk =>
    rw [readPaper_of_isNull rfl, Value.ofText, Value.readName, Paper.named_eq_none hk]
    exact ⟨.unsuitable, rfl, rfl⟩
  | key hk =>
    rw [readPaper_of_isNull rfl, Value.readName, Paper.named_eq_none hk]
    exact ⟨.unsuitable, rfl, rfl⟩
  | @value k v rest hk hv =>
    obtain ⟨p, rfl⟩ := Paper.exists_of_mem_names hk
    rw [readPaper_of_isNull rfl, Value.readName, p.named_name]
    dsimp only
    rw [Value.isNull_eq_false hv]
    exact ⟨v.fault, rfl, status_fault (Value.isWritten_of_mem h List.mem_cons_self).2⟩
  | members hk =>
    obtain ⟨p, rfl⟩ := Paper.exists_of_mem_names hk
    rw [readPaper_of_isNull rfl, Value.readName, p.named_name]
    exact ⟨.malformed, rfl, rfl⟩
  | empty => exact ⟨.malformed, rfl, rfl⟩
  | array items => exact ⟨.malformed, rfl, rfl⟩
  | number l => exact ⟨.malformed, rfl, rfl⟩
  | bool b => exact ⟨.malformed, rfl, rfl⟩

/-- The fields hold what the members say, and a field is taken just when a member has its name. -/
structure Draft.Holds (d : Draft) (script : Option Text) (paper : Option Paper) (ms : List Member) : Prop where
  script_eq : d.script.join = script
  paper_eq : d.paper.join = paper
  script_iff : d.script.isSome ↔ Value.withKey "script".toList ms ≠ []
  paper_iff : d.paper.isSome ↔ Value.withKey "paper".toList ms ≠ []

variable {ms : List Member} {script : Option Text} {paper : Option Paper}

theorem readMembers_of_given (hw : ∀ m ∈ ms, m.1.isSome = true ∧ m.2.IsWritten)
    (hs : Given IsScript script (Value.withKey "script".toList ms))
    (hp : Given Paper.IsMeant paper (Value.withKey "paper".toList ms)) :
    ∃ d, Value.readMembers readMember {} ms = .ok d ∧ d.Holds script paper ms := by
  obtain ⟨f, hf, hfs, hfi⟩ := fill_of_given readScript rfl readScript_of_isScript hs
  obtain ⟨g, hg, hgs, hgi⟩ := fill_of_given readPaper rfl readPaper_of_isMeant hp
  refine ⟨⟨f, g⟩, ?_, hfs, hgs, hfi, hgi⟩
  exact readMembers_of_fill (List.all_eq_true.mpr fun m hm => (hw m hm).1)
    (fun m hm => (hw m hm).2.isText_compact.intact) hf hg

theorem ofValue_of_isSpelling {v : Value} (hw : v.IsWritten) (h : IsSpelling script paper v) :
    ofValue v = .ok ⟨script, paper⟩ := by
  cases h with
  | object hs hp =>
    obtain ⟨d, hd, rfl, rfl, -, -⟩ := readMembers_of_given (fun m hm => Value.isWritten_of_mem hw hm) hs hp
    rw [ofValue, hd]
    rfl
  | array hs hp h =>
    cases hp with
    | absent =>
      cases hs with
      | absent => rfl
      | null => rfl
      | some ht => rw [ht]; rfl
    | null =>
      cases hs with
      | absent => exact absurd rfl (h (List.cons_ne_nil _ _))
      | null => rfl
      | some ht => rw [ht]; rfl
    | some hm =>
      have hr := readPaper_of_isMeant _ _ hm
      cases hs with
      | absent => exact absurd rfl (h (List.cons_ne_nil _ _))
      | null =>
        rw [List.singleton_append, ofValue, hr]
        rfl
      | some ht =>
        rw [ht, List.singleton_append, ofValue, hr]
        rfl

theorem once_fails_of_isSome {α : Type} {field : Option α} (h : field.isSome) (x : Except Fault α) :
    FailsWith (Body.once field x) 422 :=
  ⟨.unsuitable, if_pos h, rfl⟩

theorem once_fails {α : Type} {field : Option α} (h : ¬ field.isSome) {x : Except Fault α} {e : Nat}
    (hx : FailsWith x e) : FailsWith (Body.once field x) e := by
  rw [Body.once, if_neg h]
  exact hx.map some

theorem readMember_fails {d : Draft} (hd : d.Holds script paper ms) {k : Text} {v : Value} {e : Nat}
    (hw : v.IsWritten) (h : Refuses ms k v e) : FailsWith (readMember d k v) e := by
  cases h with
  | repeated hk h =>
    obtain rfl | rfl := hk
    · rw [readMember_script]
      exact (once_fails_of_isSome (hd.script_iff.mpr h) _).map _
    · rw [readMember_paper]
      exact (once_fails_of_isSome (hd.paper_iff.mpr h) _).map _
  | script h hn hv =>
    rw [readMember_script]
    exact (once_fails (fun hd' => hd.script_iff.mp hd' h) (readScript_fails hw hn hv)).map _
  | paper h hv =>
    rw [readMember_paper]
    exact (once_fails (fun hd' => hd.paper_iff.mp hd' h) (readPaper_fails hw hv)).map _

theorem ofValue_fails {pre post : List Member} {k : Text} {v : Value} {e : Nat}
    (hw : (Value.object (pre ++ (some k, v) :: post)).IsWritten)
    (hpre : IsSpelling script paper (.object pre)) (h : Refuses pre k v e) :
    FailsWith (ofValue (.object (pre ++ (some k, v) :: post))) e := by
  have hm := fun m hm => Value.isWritten_of_mem hw (m := m) hm
  rw [List.forall_mem_append, List.forall_mem_cons] at hm
  obtain ⟨hpm, ⟨-, hv⟩, -⟩ := hm
  cases hpre with
  | object hs hp =>
    obtain ⟨d, hd, hh⟩ := readMembers_of_given hpm hs hp
    obtain ⟨f, hf, he⟩ := readMember_fails hh hv h
    refine FailsWith.map ⟨f, ?_, he⟩ _
    rw [readMembers_append, hd]
    dsimp only [Except.bind]
    rw [Value.readMembers, hf]
    rfl

theorem script_or_refused (v : Value) (h : Value.withKey "script".toList ms = []) :
    (v = .null ∨ ∃ t, IsScript t v) ∨ ∃ e, Refuses ms "script".toList v e := by
  by_cases hn : v = .null
  · exact Or.inl (Or.inl hn)
  · by_cases ht : ∃ t, v = .ofText t
    · exact Or.inl (Or.inr ht)
    · exact Or.inr ⟨_, .script h hn (not_exists.mp ht)⟩

theorem paper_or_refused {v : Value} (hw : v.IsWritten) :
    (v = .null ∨ ∃ p : Paper, p.IsMeant v) ∨ ∃ e, Paper.Refuses v e := by
  cases hw with
  | null => exact Or.inl (Or.inl rfl)
  | bool b => exact Or.inr ⟨_, .bool b⟩
  | number _ => exact Or.inr ⟨_, .number _⟩
  | text t =>
    by_cases ht : t ∈ Paper.names
    · obtain ⟨p, rfl⟩ := Paper.exists_of_mem_names ht
      exact Or.inl (Or.inr ⟨p, .name p⟩)
    · exact Or.inr ⟨_, .name ht⟩
  | array _ => exact Or.inr ⟨_, .array _⟩
  | @object ms _ =>
    obtain _ | ⟨⟨k, w⟩, ms⟩ := ms
    · exact Or.inr ⟨_, .empty⟩
    · by_cases hk : k ∈ Paper.names
      · by_cases hn : w = .null
        · subst hn
          obtain _ | ⟨m, ms⟩ := ms
          · obtain ⟨p, rfl⟩ := Paper.exists_of_mem_names hk
            exact Or.inl (Or.inr ⟨p, .object p⟩)
          · exact Or.inr ⟨_, .members hk⟩
        · exact Or.inr ⟨_, .value hk hn⟩
      · exact Or.inr ⟨_, .key hk⟩

theorem isSpelling_concat_or (h : IsSpelling script paper (.object ms)) (k : Text) {v : Value}
    (hw : v.IsWritten) :
    (∃ script paper, IsSpelling script paper (.object (ms ++ [(some k, v)]))) ∨ ∃ e, Refuses ms k v e := by
  cases h with
  | object hs hp =>
    have hother : ∀ key, k ≠ key →
        Value.withKey key (ms ++ [(some k, v)]) = Value.withKey key ms := by
      intro key hk
      rw [Value.withKey_append, Value.withKey_cons_of_ne hk]
      exact List.append_nil _
    have hsame : Value.withKey k (ms ++ [(some k, v)]) = Value.withKey k ms ++ [v] := by
      rw [Value.withKey_append, Value.withKey_cons_self]
      rfl
    by_cases hks : k = "script".toList
    · subst hks
      by_cases h0 : Value.withKey "script".toList ms = []
      · refine (script_or_refused v h0).imp (fun hv => ?_) id
        obtain ⟨o, ho⟩ := Given.of_or hv
        rw [h0, List.nil_append] at hsame
        exact ⟨o, paper, .object (hsame ▸ ho) ((hother "paper".toList (by decide)).symm ▸ hp)⟩
      · exact Or.inr ⟨422, .repeated (Or.inl rfl) h0⟩
    · have hs := (hother _ hks).symm ▸ hs
      by_cases hkp : k = "paper".toList
      · subst hkp
        by_cases h0 : Value.withKey "paper".toList ms = []
        · refine (paper_or_refused hw).imp (fun hv => ?_) fun ⟨e, he⟩ => ⟨e, .paper h0 he⟩
          obtain ⟨o, ho⟩ := Given.of_or hv
          rw [h0, List.nil_append] at hsame
          exact ⟨script, o, .object hs (hsame ▸ ho)⟩
        · exact Or.inr ⟨422, .repeated (Or.inr rfl) h0⟩
      · exact Or.inl ⟨script, paper, .object hs ((hother _ hkp).symm ▸ hp)⟩

/-- An object is accepted, or one of its members is the first to be refused. -/
theorem isSpelling_or (hw : ∀ m ∈ ms, m.1.isSome = true ∧ m.2.IsWritten) :
    (∃ script paper, IsSpelling script paper (.object ms)) ∨
      ∃ pre k v post e, ms = pre ++ (some k, v) :: post ∧
        (∃ script paper, IsSpelling script paper (.object pre)) ∧ Refuses pre k v e := by
  induction ms using List.reverseRecOn with
  | nil => exact Or.inl ⟨none, none, .object .absent .absent⟩
  | append_singleton ms m ih =>
    rw [List.forall_mem_append, List.forall_mem_singleton] at hw
    obtain ⟨k, v⟩ := m
    obtain ⟨hms, hk, hv⟩ := hw
    obtain ⟨k, rfl⟩ := Option.isSome_iff_exists.mp hk
    obtain ⟨script, paper, h⟩ | ⟨pre, l, w, post, e, rfl, hpre, hr⟩ := ih hms
    · obtain h' | ⟨e, hr⟩ := isSpelling_concat_or h k hv
      · exact Or.inl h'
      · exact Or.inr ⟨ms, k, v, [], e, rfl, ⟨script, paper, h⟩, hr⟩
    · exact Or.inr ⟨pre, l, w, post ++ [(some k, v)], e, by simp, hpre, hr⟩

/-- A known key is repeated, a script is neither text nor null, or a text is the name of no paper. -/
inductive Faulty (ms : List Member) : Prop where
  | repeated {k : Text} (hk : k = "script".toList ∨ k = "paper".toList)
      (h : 1 < (Value.withKey k ms).length)
  | script {v : Value} (h : v ∈ Value.withKey "script".toList ms) (hn : v ≠ .null)
      (hv : ∀ t, v ≠ .ofText t)
  | paper {t : Text} (h : .ofText t ∈ Value.withKey "paper".toList ms) (ht : t ∉ Paper.names)

/-- The scripts that are numbers are within double precision, and the papers are text or null. -/
structure Plain (ms : List Member) : Prop where
  script : ∀ l : Literal, .number l ∈ Value.withKey "script".toList ms → (Value.number l).storable 0 = true
  paper : ∀ v ∈ Value.withKey "paper".toList ms, v = .null ∨ ∃ t, v = .ofText t

theorem Faulty.not_isSpelling (h : Faulty ms) : ¬ IsSpelling script paper (.object ms) := by
  rintro (⟨hs, hp⟩)
  cases h with
  | repeated hk h =>
    obtain rfl | rfl := hk
    · exact absurd hs.length_le h.not_ge
    · exact absurd hp.length_le h.not_ge
  | script h hn hv =>
    obtain h0 | ⟨t, ht⟩ := hs.of_mem h
    · exact hn h0
    · exact hv t ht
  | paper h ht =>
    obtain hn | ⟨p, hp⟩ := hp.of_mem h
    · cases hn
    · exact ht hp.mem_names

theorem Plain.refuses_eq {pre post : List Member} {k : Text} {v : Value} {e : Nat}
    (h : Plain (pre ++ (some k, v) :: post)) (hr : Refuses pre k v e) : e = 422 := by
  have hmem : v ∈ Value.withKey k (pre ++ (some k, v) :: post) := by
    rw [Value.withKey_append, Value.withKey_cons_self]
    exact List.mem_append_right _ List.mem_cons_self
  cases hr with
  | repeated _ _ => rfl
  | script _ _ _ =>
    cases v with
    | number l => exact if_pos (h.script l hmem)
    | _ => rfl
  | paper _ hv =>
    obtain rfl | ⟨t, rfl⟩ := h.paper v hmem
    · cases hv
    · cases hv
      rfl

end ParseRequest

end ReceiptPrinter
