import ReceiptPrinter.Proofs.Json.Bytes
import ReceiptPrinter.Proofs.Paper.Spelling
import ReceiptPrinter.Proofs.Service.Active

namespace ReceiptPrinter

open Json

structure Request.PutsPaper (r : Request) : Prop where
  put : r.method = .put
  path : Resource.ofPath r.path = some .paper

/-- The request asks for a paper by a name, in a body that the service takes. -/
structure Request.Names (r : Request) (name : Text) : Prop extends r.PutsPaper where
  body : Body.read PaperRequest.ofValue r = .ok ⟨name⟩

theorem ParseRequest.named_of_readPaper {s : Text} {p : Paper}
    (h : readPaper (.ofText s) = .ok (some p)) : Paper.named s = some p := by
  have hr : readPaper (.ofText s) =
      (((Paper.named s).map Except.ok).getD (.error .unsuitable)).map some := rfl
  rw [hr] at h
  cases hn : Paper.named s with
  | none =>
    rw [hn] at h
    cases h
  | some q =>
    rw [hn] at h
    cases h
    rfl

namespace Service

/-- Behind requests the paper is what is shown, and what is printed on when none is named. -/
structure InUse (initial : Paper) (before : List Request) (p : Paper) : Prop where
  shown : ∀ r : Request, r.method = .get → Resource.ofPath r.path = some .paper →
    ∃ a ∈ reply initial before r, a.status = 200 ∧ a.member? "name".toList = some (.ofText p.name)
  printed : ∀ (r : Request) (q : ParseRequest), r.method = .post → Resource.ofPath r.path = some .parse →
    Body.read ParseRequest.ofValue r = .ok q → q.paper = none →
    ∃ a ∈ reply initial before r, a.status = 200 ∧ a.member? "paper".toList = some (.ofText p.name)

/-- The paper is answered with the strict form of its name, and in use until the next one is put. -/
structure Chooses (initial : Paper) (before : List Request) (r : Request) (p : Paper) : Prop where
  answered : ∃ a ∈ reply initial before r,
    a.status = 200 ∧ a.member? "name".toList = some (.ofText p.name)
  inUse : ∀ after : List Request, (∀ x ∈ after, ¬ x.PutsPaper) → InUse initial (before ++ [r] ++ after) p

structure Refuses (initial : Paper) (before : List Request) (r : Request) (name : Text) : Prop where
  answered : reply initial before r = some ⟨400, some ("Unknown paper size: ".toList ++ name)⟩
  activeAfter_eq : activeAfter initial (before ++ [r]) = activeAfter initial before

theorem member?_info (p : Paper) : (found p.info).member? "name".toList = some (.ofText p.name) := by
  rw [member?_found p.isWritten_info]
  rfl

theorem member?_parseValue (p : Paper) (printout : Printout) :
    (found (parseValue p printout)).member? "paper".toList = some (.ofText p.name) := by
  rw [member?_found (isWritten_parseValue p)]
  rfl

theorem inUse_activeAfter (initial : Paper) (before : List Request) :
    InUse initial before (activeAfter initial before) where
  shown r hm hp := ⟨_, reply_get_paper initial before hm hp, rfl, member?_info _⟩
  printed r q hm hp hb hq := by
    have hr := reply_post_parse initial before hm hp hb
    rw [hq, Option.getD_none] at hr
    exact ⟨_, hr, rfl, member?_parseValue _ _⟩

theorem answer_of_not_putsPaper (active : Paper) {r : Request} (h : ¬ r.PutsPaper) :
    (answer active r).2 = active := by
  obtain ⟨hc, -⟩ | ⟨-, hu⟩ := answer_cases active r
  · have hr : r.method = .put ∧ Resource.ofPath r.path = some .paper ∧ (answer active r).1.status = 200 :=
      of_decide_eq_true hc
    exact absurd ⟨hr.1, hr.2.1⟩ h
  · exact hu

theorem activeAfter_of_not_putsPaper (active : Paper) {rs : List Request} (h : ∀ r ∈ rs, ¬ r.PutsPaper) :
    activeAfter active rs = active := by
  induction rs with
  | nil => rfl
  | cons r rs ih =>
    rw [List.forall_mem_cons] at h
    have hr : activeAfter active (r :: rs) = activeAfter (answer active r).2 rs := rfl
    rw [hr, answer_of_not_putsPaper active h.1, ih h.2]

theorem activeAfter_append (active : Paper) (a b : List Request) :
    activeAfter active (a ++ b) = activeAfter (activeAfter active a) b := List.foldl_append

theorem answer_of_names (active : Paper) {r : Request} {name : Text} (h : r.Names name) :
    answer active r = match Paper.ofText name with
      | .ok p => (found p.info, p)
      | .error e => (⟨400, some e⟩, active) := by
  have ha : answer active r = choosePaper active r := by rw [answer, h.path, h.put]
  rw [ha, choosePaper, h.body, Paper.ofText]
  dsimp only
  cases Paper.parse? name <;> rfl

theorem names_choosing {name : Text} (h : (choosing name).body.length ≤ Body.sizeLimit) :
    (choosing name).Names name where
  put := rfl
  path := by
    have hp : Resource.ofPath "/api/paper".toList = some .paper := by decide
    exact hp
  body := by
    have hj : (some json).any MediaType.isJson = true := by decide
    have hc : (choosing name).contentType = some json := rfl
    have hw : (Value.ofMembers [("name".toList, .ofText name)]).IsWritten :=
      .object (List.forall_mem_singleton.mpr (.text _))
    have hb : (choosing name).body = Utf8.encode (Value.ofMembers [("name".toList, .ofText name)]).compact := rfl
    rw [Body.read, hc, hj, if_neg (by decide), if_neg h.not_gt, hb, Value.readBytes_encode, hw.read_compact]
    rfl

section Names

variable {initial : Paper} {before : List Request} {r : Request} {name : Text} (h : r.Names name)
include h

theorem chooses_of_ofText {p : Paper} (hp : Paper.ofText name = .ok p) : Chooses initial before r p := by
  have ha := answer_of_names (activeAfter initial before) h
  have hc := activeAfter_concat initial before r
  have hy := reply_eq initial before r
  rw [hp] at ha
  rw [ha] at hc hy
  refine ⟨⟨_, hy, rfl, member?_info p⟩, fun after hn => ?_⟩
  have hu := inUse_activeAfter initial (before ++ [r] ++ after)
  rwa [activeAfter_append, hc, activeAfter_of_not_putsPaper p hn] at hu

theorem refuses_of_ofText {e : Text} (he : Paper.ofText name = .error e) : Refuses initial before r name := by
  have ha := answer_of_names (activeAfter initial before) h
  have hc := activeAfter_concat initial before r
  have hy := reply_eq initial before r
  obtain ⟨-, rfl⟩ := (Paper.ofText_eq_error_iff name e).mp he
  rw [he] at ha
  rw [ha] at hc hy
  exact ⟨hy, hc⟩

end Names

/-- A name stands for a paper just when it is the width between blanks, with or without the unit in
either case, whatever is lowered beyond the letters of ASCII, and the strict form of a name is one such.
Asked for by such a name, the paper is chosen. Any other name is refused. -/
theorem reply_of_names (s : Text) :
    (∀ p : Paper, Paper.ofText s = .ok p ↔ p.IsSpelling s) ∧
    (∀ e, Paper.ofText s = .error e ↔
      (∀ p : Paper, ¬ p.IsSpelling s) ∧ e = "Unknown paper size: ".toList ++ s) ∧
    (∀ lower, Text.IsLowering lower → ∀ p : Paper,
      Paper.dropUnit (lower s.trim) = p.digits ↔ p.IsSpelling s) ∧
    (∀ p : Paper, ParseRequest.readPaper (.ofText s) = .ok (some p) → Paper.ofText s = .ok p) ∧
    (∀ (initial : Paper) (before : List Request) (r : Request), r.Names s →
      (∃ p : Paper, p.IsSpelling s ∧ Chooses initial before r p) ∨
        (∀ p : Paper, ¬ p.IsSpelling s) ∧ Refuses initial before r s) ∧
    ((choosing s).body.length ≤ Body.sizeLimit → (choosing s).Names s) := by
  have hok := fun p : Paper => Paper.ofText_eq_ok_iff p s
  have herror := Paper.ofText_eq_error_iff s
  refine ⟨hok, herror, fun lower hl p => Paper.dropUnit_lower_eq_iff hl p s, ?_, ?_, names_choosing⟩
  · intro p hp
    exact (hok p).mpr (.of_named (ParseRequest.named_of_readPaper hp))
  · intro initial before r hr
    cases ho : Paper.ofText s with
    | ok p => exact Or.inl ⟨p, (hok p).mp ho, chooses_of_ofText hr ho⟩
    | error e => exact Or.inr ⟨((herror e).mp ho).1, refuses_of_ofText hr ho⟩

/-- A name between other blanks than spaces, with one letter of its unit a capital. -/
theorem reply_of_names_capital :
    let s := "\u00a0112Mm\n".toList
    Paper.ofText s = .ok .mm112 ∧
      Paper.dropUnit ((Text.trim s).flatMap Text.lowerChar) = Paper.mm112.digits ∧
      Paper.ofText "112mm".toList = .ok .mm112 ∧ InUse .mm58 [choosing s] .mm112 := by
  intro s
  have hs : Paper.mm112.IsSpelling s := ⟨['\u00a0'], ['M', 'm'], ['\n'], rfl, Or.inr (by decide), rfl, rfl⟩
  obtain ⟨ho, -, hl, -, hr, hf⟩ := reply_of_names s
  obtain ⟨-, -, -, hn, -⟩ := reply_of_names "112mm".toList
  refine ⟨(ho _).mpr hs, (hl _ (Text.isLowering_flatMap Text.lowers_lowerChar) _).mpr hs,
    hn _ (by decide), ?_⟩
  obtain ⟨p, hp, hu⟩ | ⟨hp, -⟩ := hr .mm58 [] (choosing s) (hf (by decide +kernel))
  · have he : p = .mm112 := Except.ok.inj (((ho p).mpr hp).symm.trans ((ho _).mpr hs))
    exact he ▸ hu.inUse [] nofun
  · exact absurd hs (hp _)

end Service

end ReceiptPrinter
