import ReceiptPrinter.Proofs.Service.Reading

namespace ReceiptPrinter

open Json

def Request.namedPaper? (r : Request) : Option Paper :=
  (Body.read PaperRequest.ofValue r).toOption.bind fun q => Paper.parse? q.name

namespace Service

def activeAfter (active : Paper) (rs : List Request) : Paper := rs.foldl (fun p r => (answer p r).2) active

def reply (active : Paper) (before : List Request) (r : Request) : Option Response :=
  (serve active (before ++ [r]))[before.length]?

abbrev Exchange := Request × Response

def exchanges (active : Paper) (rs : List Request) : List Exchange := rs.zip (serve active rs)

def Exchange.isChoice (e : Exchange) : Bool :=
  e.1.method = .put ∧ Resource.ofPath e.1.path = some .paper ∧ e.2.status = 200

/-- The first list is the second without some exchanges that are no choices. -/
inductive Thinned : List Exchange → List Exchange → Prop where
  | nil : Thinned [] []
  | keep {a b : List Exchange} (e : Exchange) (h : Thinned a b) : Thinned (e :: a) (e :: b)
  | drop {a b : List Exchange} {e : Exchange} (he : e.isChoice = false) (h : Thinned a b) :
    Thinned a (e :: b)

theorem length_serve (active : Paper) (rs : List Request) : (serve active rs).length = rs.length := by
  induction rs generalizing active with
  | nil => rfl
  | cons r rs ih => simp [serve, ih]

theorem serve_append (active : Paper) (a b : List Request) :
    serve active (a ++ b) = serve active a ++ serve (activeAfter active a) b := by
  induction a generalizing active with
  | nil => rfl
  | cons r a ih => simp [serve, ih, activeAfter]

theorem reply_eq (active : Paper) (before : List Request) (r : Request) :
    reply active before r = some (answer (activeAfter active before) r).1 := by
  have hl := length_serve active before
  rw [reply, serve_append, List.getElem?_append_right hl.le, hl, Nat.sub_self]
  rfl

theorem exchanges_concat (active : Paper) (rs : List Request) (r : Request) :
    exchanges active (rs ++ [r]) =
      exchanges active rs ++ [(r, (answer (activeAfter active rs) r).1)] := by
  rw [exchanges, serve_append, List.zip_append (length_serve active rs).symm]
  rfl

theorem activeAfter_concat (active : Paper) (rs : List Request) (r : Request) :
    activeAfter active (rs ++ [r]) = (answer (activeAfter active rs) r).2 := by
  rw [activeAfter, List.foldl_append]
  rfl

theorem status_rejected_ne (e : Rejection) : (rejected e).status ≠ 200 := by
  cases e with
  | fault f => cases f <;> decide
  | _ => decide

theorem choosePaper_cases (active : Paper) (r : Request) :
    (∃ p, r.namedPaper? = some p ∧ choosePaper active r = (found p.info, p)) ∨
      (choosePaper active r).1.status ≠ 200 ∧ (choosePaper active r).2 = active := by
  rw [choosePaper, Request.namedPaper?]
  cases Body.read PaperRequest.ofValue r with
  | error e => exact Or.inr ⟨status_rejected_ne e, rfl⟩
  | ok q =>
    dsimp only [Except.toOption, Option.bind_some]
    cases Paper.parse? q.name with
    | none => exact Or.inr ⟨nofun, rfl⟩
    | some p => exact Or.inl ⟨p, rfl, rfl⟩

/-- A request either chooses the paper that its body names, or leaves the active one. -/
theorem answer_cases (active : Paper) (r : Request) :
    (Exchange.isChoice (r, (answer active r).1) = true ∧
      ∃ p, r.namedPaper? = some p ∧ answer active r = (found p.info, p)) ∨
    Exchange.isChoice (r, (answer active r).1) = false ∧ (answer active r).2 = active := by
  by_cases hc : r.method = .put ∧ Resource.ofPath r.path = some .paper
  · obtain ⟨hm, hp⟩ := hc
    have ha : answer active r = choosePaper active r := by rw [answer, hp, hm]
    rw [ha]
    obtain ⟨p, hn, hf⟩ | ⟨hs, hu⟩ := choosePaper_cases active r
    · exact Or.inl ⟨by simp [Exchange.isChoice, hm, hp, hf, found], p, hn, hf⟩
    · exact Or.inr ⟨by simp [Exchange.isChoice, hs], hu⟩
  · refine Or.inr ⟨decide_eq_false fun h => hc ⟨h.1, h.2.1⟩, ?_⟩
    rw [answer]
    split
    · rfl
    · next hp =>
      split
      · rfl
      · rfl
      · rfl
      · next hm => exact absurd ⟨hm, hp⟩ hc
      · rfl

theorem exchanges_cons (active : Paper) (r : Request) (rs : List Request) : exchanges active (r :: rs) =
    (r, (answer active r).1) :: exchanges (answer active r).2 rs := rfl

/-- What is left out has not changed the active paper, so the answers stay. -/
theorem serve_of_thinned {active : Paper} {es : List Exchange} {rs : List Request}
    (h : Thinned es (exchanges active rs)) : serve active (es.map Prod.fst) = es.map Prod.snd := by
  induction rs generalizing active es with
  | nil =>
    cases h
    rfl
  | cons r rs ih =>
    rw [exchanges_cons] at h
    cases h with
    | keep e h =>
      rw [List.map_cons, List.map_cons, serve, ih h]
    | drop he h =>
      obtain ⟨hc, -⟩ | ⟨-, hu⟩ := answer_cases active r
      · exact absurd (hc.symm.trans he) nofun
      · rw [hu] at h
        exact ih h

def lastChoice? (active : Paper) (rs : List Request) : Option Exchange :=
  ((exchanges active rs).filter Exchange.isChoice).getLast?

theorem lastChoice?_concat (active : Paper) (rs : List Request) (r : Request) :
    lastChoice? active (rs ++ [r]) =
      if Exchange.isChoice (r, (answer (activeAfter active rs) r).1) then
        some (r, (answer (activeAfter active rs) r).1)
      else lastChoice? active rs := by
  rw [lastChoice?, exchanges_concat, List.filter_append, List.filter_singleton]
  cases Exchange.isChoice (r, (answer (activeAfter active rs) r).1) with
  | true => exact List.getLast?_concat
  | false => rw [cond_false, List.append_nil, if_neg Bool.false_ne_true, lastChoice?]

theorem activeAfter_of_lastChoice? (active : Paper) (rs : List Request) :
    match lastChoice? active rs with
    | none => activeAfter active rs = active
    | some e => e.1.namedPaper? = some (activeAfter active rs) ∧
        e.2 = found (activeAfter active rs).info := by
  induction rs using List.reverseRecOn with
  | nil => rfl
  | append_singleton rs r ih =>
    rw [lastChoice?_concat, activeAfter_concat]
    obtain ⟨hc, p, hn, hf⟩ | ⟨hc, hu⟩ := answer_cases (activeAfter active rs) r
    · rw [if_pos hc, hf]
      exact ⟨hn, rfl⟩
    · rw [if_neg (Bool.eq_false_iff.mp hc), hu]
      exact ih

theorem answer_get_paper (active : Paper) {r : Request} (hm : r.method = .get)
    (hp : Resource.ofPath r.path = some .paper) : answer active r = (found active.info, active) := by
  rw [answer, hp, hm]
  rfl

theorem answer_post_parse (active : Paper) {r : Request} (hm : r.method = .post)
    (hp : Resource.ofPath r.path = some .parse) : answer active r = (parse active r, active) := by
  rw [answer, hp, hm]

theorem parse_of_read (active : Paper) {r : Request} {q : ParseRequest}
    (h : Body.read ParseRequest.ofValue r = .ok q) : parse active r =
      found (parseValue (q.paper.getD active) (Script.print (q.script.getD Sample.standard.script))) := by
  rw [parse, h]

theorem reply_get_paper (active : Paper) (before : List Request) {r : Request} (hm : r.method = .get)
    (hp : Resource.ofPath r.path = some .paper) :
    reply active before r = some (found (activeAfter active before).info) := by
  rw [reply_eq, answer_get_paper _ hm hp]

theorem reply_post_parse (active : Paper) (before : List Request) {r : Request} {q : ParseRequest}
    (hm : r.method = .post) (hp : Resource.ofPath r.path = some .parse)
    (hb : Body.read ParseRequest.ofValue r = .ok q) :
    reply active before r = some (found (parseValue (q.paper.getD (activeAfter active before))
      (Script.print (q.script.getD Sample.standard.script)))) := by
  rw [reply_eq, answer_post_parse _ hm hp, parse_of_read _ hb]

/-- The active paper is that of the last choice, or the first one. It is shown on demand and printed on
when a request names none. No other request changes it, so leaving such requests out changes no answer
to the rest. -/
theorem active_eq_lastChoice (initial : Paper) (before : List Request) :
    (match lastChoice? initial before with
      | none => activeAfter initial before = initial
      | some e => e.1.namedPaper? = some (activeAfter initial before) ∧
          e.2 = found (activeAfter initial before).info) ∧
    (∀ r : Request, r.method = .get → Resource.ofPath r.path = some .paper →
      ∃ a ∈ reply initial before r,
        a.status = 200 ∧ a.paper? "name".toList = some (activeAfter initial before)) ∧
    (∀ (r : Request) (q : ParseRequest), r.method = .post → Resource.ofPath r.path = some .parse →
      Body.read ParseRequest.ofValue r = .ok q → q.paper = none →
      ∃ a ∈ reply initial before r,
        a.status = 200 ∧ a.paper? "paper".toList = some (activeAfter initial before)) ∧
    (∀ r : Request, (∀ a ∈ reply initial before r, Exchange.isChoice (r, a) = false) →
      activeAfter initial (before ++ [r]) = activeAfter initial before) ∧
    ∀ es : List Exchange, Thinned es (exchanges initial before) →
      serve initial (es.map Prod.fst) = es.map Prod.snd := by
  refine ⟨activeAfter_of_lastChoice? initial before, ?_, ?_, ?_, fun es h => serve_of_thinned h⟩
  · intro r hm hp
    exact ⟨_, reply_get_paper initial before hm hp, rfl, paper?_info _⟩
  · intro r q hm hp hb hq
    have hr := reply_post_parse initial before hm hp hb
    rw [hq, Option.getD_none] at hr
    exact ⟨_, hr, rfl, paper?_parseValue _⟩
  · intro r hc
    rw [activeAfter_concat]
    obtain ⟨ht, -⟩ | ⟨-, hu⟩ := answer_cases (activeAfter initial before) r
    · exact absurd (ht.symm.trans (hc _ (reply_eq initial before r))) nofun
    · exact hu

def json : Text := "application/json".toList

def choosing (name : Text) : Request :=
  ⟨.put, "/api/paper".toList, some json,
    Utf8.encode (Value.ofMembers [("name".toList, .ofText name)]).compact⟩

/-- A choice stands although the next one is refused. -/
theorem active_behind_refused :
    let before := [choosing "112MM ".toList, choosing "A4".toList]
    activeAfter .mm58 before = .mm112 ∧
      (∃ a ∈ reply .mm58 before ⟨.get, "/api/paper".toList, none, []⟩,
        a.status = 200 ∧ a.paper? "name".toList = some .mm112) ∧
      (∃ a ∈ reply .mm58 before ⟨.post, "/api/parse".toList, some json, Utf8.encode "[]".toList⟩,
        a.status = 200 ∧ a.paper? "paper".toList = some .mm112) ∧
      activeAfter .mm58 (before ++ [⟨.head, "/api/paper".toList, none, []⟩]) = .mm112 ∧
      serve .mm58 [choosing "112MM ".toList] = [found Paper.mm112.info] := by
  intro before
  have ha : activeAfter .mm58 before = .mm112 := by decide +kernel
  have he : exchanges .mm58 before = [(choosing "112MM ".toList, found Paper.mm112.info),
      (choosing "A4".toList, ⟨400, some "Unknown paper size: A4".toList⟩)] := by decide +kernel
  obtain ⟨-, hg, hp, hn, ht⟩ := active_eq_lastChoice .mm58 before
  rw [ha] at hg hp hn
  rw [he] at ht
  refine ⟨ha, hg _ rfl (by decide), ?_, ?_, ?_⟩
  · exact hp _ ⟨none, none⟩ rfl (by decide) (by decide +kernel) rfl
  · exact hn _ fun _ _ => decide_eq_false fun h => nomatch h.1
  · exact ht [_] (.keep _ (.drop (by decide) .nil))

end Service

end ReceiptPrinter
