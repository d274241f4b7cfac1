import ReceiptPrinter.Proofs.Json.Bytes
import ReceiptPrinter.Proofs.Json.Members
import ReceiptPrinter.Proofs.Service.Active

namespace ReceiptPrinter

open Json

/-- What may be given for an option. Null says no more than nothing at all. -/
inductive Given (means : α → Value → Prop) : Option α → List Value → Prop where
  | absent : Given means none []
  | null : Given means none [.null]
  | some {a : α} {v : Value} (h : means a v) : Given means (some a) [v]

namespace Given

variable {means : α → Value → Prop} {o : Option α} {vs : List Value} {v : Value}

theorem length_le (h : Given means o vs) : vs.length ≤ 1 := by
  cases h <;> simp

theorem of_mem (h : Given means o vs) (hv : v ∈ vs) : v = .null ∨ ∃ a, means a v := by
  cases h with
  | absent => cases hv
  | null => exact Or.inl (List.mem_singleton.mp hv)
  | some h => exact Or.inr ⟨_, List.mem_singleton.mp hv ▸ h⟩

theorem of_or (h : v = .null ∨ ∃ a, means a v) : ∃ o, Given means o [v] := by
  obtain rfl | ⟨a, h⟩ := h
  · exact ⟨none, .null⟩
  · exact ⟨Option.some a, .some h⟩

end Given

inductive Paper.Stated : List Value → Option Paper → Prop where
  | absent : Stated [] none
  | null : Stated [.null] none
  | name {v : Value} {p : Paper} (h : v.name? Value.isNull named = some p) : Stated [v] (some p)

namespace ParseRequest

/-- A value that gives a script, and a paper or not: an object, which may have any other members, or an
array. -/
inductive Gives : Value → Text → Option Paper → Prop where
  | object {ms : List Member} {script : Text} {paper : Option Paper} (hk : Value.keyed ms = true)
      (hi : ∀ m ∈ ms, m.2.intact = true)
      (hs : Value.withKey "script".toList ms = [.ofText script])
      (hp : Paper.Stated (Value.withKey "paper".toList ms) paper) : Gives (.object ms) script paper
  | array {vs : List Value} {script : Text} {paper : Option Paper} (hp : Paper.Stated vs paper) :
    Gives (.array (.ofText script :: vs)) script paper

def fill (read : Value → Except Fault α) (field : Option α) (vs : List Value) :
    Except Fault (Option α) :=
  vs.foldlM (fun field v => Body.once field (read v)) field

theorem once_of_fill_cons {read : Value → Except Fault α} {field field' : Option α} {v : Value}
    {vs : List Value} (h : fill read field (v :: vs) = .ok field') :
    ∃ g, Body.once field (read v) = .ok g ∧ fill read g vs = .ok field' := by
  rw [fill, List.foldlM_cons] at h
  cases hg : Body.once field (read v) with
  | error e =>
    rw [hg] at h
    cases h
  | ok g =>
    rw [hg] at h
    exact ⟨g, rfl, h⟩

theorem readMember_script (d : Draft) (v : Value) : readMember d "script".toList v =
    (Body.once d.script (readScript v)).map fun script => { d with script } :=
  if_pos rfl

theorem readMember_paper (d : Draft) (v : Value) : readMember d "paper".toList v =
    (Body.once d.paper (readPaper v)).map fun paper => { d with paper } :=
  (if_neg (by decide)).trans (if_pos rfl)

theorem readMember_other {k : Text} (hs : k ≠ "script".toList) (hp : k ≠ "paper".toList) (d : Draft) (v : Value) :
    readMember d k v = Body.skip d v :=
  (if_neg hs).trans (if_neg hp)

theorem readMember_of_fill {k : Text} {v : Value} (hv : v.intact = true) {ms : List Member} {d d' : Draft}
    (hs : fill readScript d.script (Value.withKey "script".toList ((some k, v) :: ms)) = .ok d'.script)
    (hp : fill readPaper d.paper (Value.withKey "paper".toList ((some k, v) :: ms)) = .ok d'.paper) :
    ∃ e, readMember d k v = .ok e ∧
      fill readScript e.script (Value.withKey "script".toList ms) = .ok d'.script ∧
      fill readPaper e.paper (Value.withKey "paper".toList ms) = .ok d'.paper := by
  by_cases hks : k = "script".toList
  · subst hks
    rw [Value.withKey_cons_self] at hs
    rw [Value.withKey_cons_of_ne (by decide)] at hp
    obtain ⟨g, hg, hs⟩ := once_of_fill_cons hs
    rw [readMember_script, hg]
    exact ⟨_, rfl, hs, hp⟩
  · rw [Value.withKey_cons_of_ne hks] at hs
    by_cases hkp : k = "paper".toList
    · subst hkp
      rw [Value.withKey_cons_self] at hp
      obtain ⟨g, hg, hp⟩ := once_of_fill_cons hp
      rw [readMember_paper, hg]
      exact ⟨_, rfl, hs, hp⟩
    · rw [Value.withKey_cons_of_ne hkp] at hp
      rw [readMember_other hks hkp, Body.skip, if_pos hv]
      exact ⟨d, rfl, hs, hp⟩

theorem readMembers_of_fill {ms : List Member} (hk : Value.keyed ms = true)
    (hi : ∀ m ∈ ms, m.2.intact = true) {d d' : Draft}
    (hs : fill readScript d.script (Value.withKey "script".toList ms) = .ok d'.script)
    (hp : fill readPaper d.paper (Value.withKey "paper".toList ms) = .ok d'.paper) :
    Value.readMembers readMember d ms = .ok d' := by
  induction ms generalizing d with
  | nil =>
    obtain ⟨s, p⟩ := d
    cases hs
    cases hp
    rfl
  | cons m ms ih =>
    obtain ⟨key, v⟩ := m
    rw [Value.keyed, List.all_cons, Bool.and_eq_true] at hk
    obtain ⟨k, rfl⟩ := Option.isSome_iff_exists.mp hk.1
    obtain ⟨hv, hr⟩ := List.forall_mem_cons.mp hi
    obtain ⟨e, he, hs, hp⟩ := readMember_of_fill hv hs hp
    rw [Value.readMembers, he]
    exact ih hk.2 hr hs hp

theorem readPaper_of_isNull {v : Value} (hn : v.isNull = false) :
    readPaper v = (Value.readName Value.isNull Paper.named v).map some := by
  rw [readPaper, Body.readOption, hn, if_neg Bool.false_ne_true]

theorem readPaper_of_name? {v : Value} {p : Paper} (h : v.name? Value.isNull Paper.named = some p) :
    readPaper v = .ok (some p) := by
  have hn : v.isNull = false := by
    apply Value.isNull_eq_false
    rintro rfl
    cases h
  rw [Value.name?] at h
  rw [readPaper_of_isNull hn]
  cases hr : Value.readName Value.isNull Paper.named v with
  | error e =>
    rw [hr] at h
    cases h
  | ok q =>
    rw [hr] at h
    cases h
    rfl

theorem fill_of_given {α : Type} (read : Value → Except Fault (Option α)) {means : α → Value → Prop}
    (hn : read .null = .ok none) (hr : ∀ a v, means a v → read v = .ok (some a)) {o : Option α}
    {vs : List Value} (h : Given means o vs) :
    ∃ f, fill read none vs = .ok f ∧ f.join = o ∧ (f.isSome ↔ vs ≠ []) := by
  cases h with
  | absent => exact ⟨none, rfl, rfl, by simp⟩
  | null => exact ⟨some none, by rw [fill, List.foldlM_cons, hn]; rfl, rfl, by simp⟩
  | @some a v h => exact ⟨some (some a), by rw [fill, List.foldlM_cons, hr a v h]; rfl, rfl, by simp⟩

theorem given_of_stated {vs : List Value} {paper : Option Paper} (h : Paper.Stated vs paper) :
    Given (fun p v => v.name? Value.isNull Paper.named = some p) paper vs := by
  cases h with
  | absent => exact .absent
  | null => exact .null
  | name h => exact .some h

theorem fill_of_stated {vs : List Value} {paper : Option Paper} (h : Paper.Stated vs paper) :
    ∃ f, fill readPaper none vs = .ok f ∧ f.join = paper := by
  obtain ⟨f, hf, hj, -⟩ := fill_of_given readPaper rfl (fun _ _ => readPaper_of_name?) (given_of_stated h)
  exact ⟨f, hf, hj⟩

theorem ofValue_of_gives {v : Value} {script : Text} {paper : Option Paper} (h : Gives v script paper) :
    ofValue v = .ok ⟨some script, paper⟩ := by
  cases h with
  | @object ms _ _ hk hi hs hp =>
    obtain ⟨f, hf, rfl⟩ := fill_of_stated hp
    have hm : Value.readMembers readMember {} ms = .ok ⟨some (some script), f⟩ := by
      apply readMembers_of_fill hk hi
      · rw [hs]
        rfl
      · exact hf
    rw [ofValue, hm]
    rfl
  | array hp =>
    cases hp with
    | absent => rfl
    | null => rfl
    | name h =>
      rw [ofValue, readPaper_of_name? h]
      rfl

def value (script : Text) (paper : Option Paper) : Value :=
  .ofMembers (("script".toList, .ofText script) :: (paper.map fun p => ("paper".toList, p.toValue)).toList)

theorem isWritten_value (script : Text) (paper : Option Paper) : (value script paper).IsWritten := by
  apply Value.IsWritten.object
  rw [List.forall_mem_cons]
  refine ⟨.text _, ?_⟩
  cases paper with
  | none => exact fun _ h => nomatch h
  | some p => exact List.forall_mem_singleton.mpr (.text _)

theorem gives_value (script : Text) (paper : Option Paper) : Gives (value script paper) script paper := by
  cases paper with
  | none => exact .object rfl (List.forall_mem_singleton.mpr rfl) rfl .absent
  | some p =>
    refine .object rfl ?_ rfl (.name p.name?_toValue)
    exact List.forall_mem_cons.mpr ⟨rfl, List.forall_mem_singleton.mpr rfl⟩

end ParseRequest

/-- The request asks for what a script prints, in a body that the service takes. -/
structure Request.AsksFor (r : Request) (script : Text) (paper : Option Paper) : Prop where
  post : r.method = .post
  path : Resource.ofPath r.path = some .parse
  json : r.contentType.any MediaType.isJson = true
  fits : r.body.length ≤ Body.sizeLimit
  gives : ParseRequest.Gives (Value.readBytes r.body).1 script paper

theorem Request.AsksFor.read_body {r : Request} {script : Text} {paper : Option Paper}
    (h : r.AsksFor script paper) : Body.read ParseRequest.ofValue r = .ok ⟨some script, paper⟩ := by
  rw [Body.read, h.json, if_neg (by decide), if_neg h.fits.not_gt, ParseRequest.ofValue_of_gives h.gives]
  rfl

namespace Service

def asking (script : Text) (paper : Option Paper) : Request :=
  ⟨.post, "/api/parse".toList, some json, Utf8.encode (ParseRequest.value script paper).compact⟩

theorem asksFor_asking {script : Text} {paper : Option Paper}
    (h : (asking script paper).body.length ≤ Body.sizeLimit) :
    (asking script paper).AsksFor script paper := by
  have hp : Resource.ofPath "/api/parse".toList = some .parse := by decide
  have hj : (some json).any MediaType.isJson = true := by decide
  refine ⟨rfl, hp, hj, h, ?_⟩
  rw [asking, Value.readBytes_encode, (ParseRequest.isWritten_value script paper).read_compact]
  exact ParseRequest.gives_value script paper

/-- Whatever came before, the answer holds exactly what the script prints, with the declarations of each
token's style beside it, the paper that was asked for or else the active one, and the preview on that
paper. Any script that fits in a body can be asked for. -/
theorem reply_printout (script : Text) (paper : Option Paper) (initial : Paper) (before : List Request) :
    (∀ r : Request, r.AsksFor script paper →
      ∃ a ∈ reply initial before r, a.status = 200 ∧
        a.printout? = some (Script.print script) ∧
        a.css? = some ((Script.print script).tokens.map fun t => t.style.css) ∧
        a.paper? "paper".toList = some (paper.getD (activeAfter initial before)) ∧
        a.preview? = some ((Script.print script).preview (paper.getD (activeAfter initial before)))) ∧
    ((asking script paper).body.length ≤ Body.sizeLimit →
      (asking script paper).AsksFor script paper) := by
  refine ⟨fun r hr => ?_, asksFor_asking⟩
  have hf := Script.isFinite_print script
  have ha := reply_post_parse initial before hr.post hr.path hr.read_body
  exact ⟨_, ha, rfl, printout?_parseValue _ hf, css?_parseValue _, paper?_parseValue _,
    preview?_parseValue _⟩

theorem reply_printout_behind_choice :
    let script := "[GS]!0x11\nTea \"hot\"\t1\\2\n[CUT]".toList
    ∃ a ∈ reply .mm58 [choosing "112mm".toList] (asking script none), a.status = 200 ∧
      a.printout? = some (Script.print script) ∧
      a.css? = some ((Script.print script).tokens.map fun t => t.style.css) ∧
      a.paper? "paper".toList = some .mm112 ∧
      a.preview? = some ((Script.print script).preview .mm112) := by
  intro script
  have ha : activeAfter .mm58 [choosing "112mm".toList] = .mm112 := by decide +kernel
  obtain ⟨h, hf⟩ := reply_printout script none .mm58 [choosing "112mm".toList]
  rw [ha] at h
  exact h _ (hf (by decide +kernel))

end Service

end ReceiptPrinter
