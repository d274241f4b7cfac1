import ReceiptPrinter.Proofs.Service.Bodies

namespace ReceiptPrinter

open Json

/-- The request posts a value to be printed. Any bytes may follow the value. -/
structure Request.Posts (r : Request) (v : Value) : Prop where
  post : r.method = .post
  path : Resource.ofPath r.path = some .parse
  json : r.contentType.any MediaType.isJson = true
  fits : r.body.length ≤ Body.sizeLimit
  body : ∃ t rest, v.IsText t ∧ r.body = Utf8.encode t ++ rest

namespace Service

variable {r : Request} {v : Value}

theorem read_of_posts {α : Type} (h : r.Posts v) (hc : v.isClosed = true) (decode : Value → Except Fault α) :
    Body.read decode r = (decode v).mapError .fault := by
  obtain ⟨t, rest, ht, hb⟩ := h.body
  rw [Body.read, h.json, if_neg (by decide), if_neg h.fits.not_gt, hb, ht.readBytes_append hc]

theorem reply_of_fails (initial : Paper) (before : List Request) (h : r.Posts v) (hc : v.isClosed = true)
    {e : Nat} (hf : ParseRequest.FailsWith (ParseRequest.ofValue v) e) :
    reply initial before r = some ⟨e, none⟩ := by
  obtain ⟨f, hf, rfl⟩ := hf
  have hb := read_of_posts h hc ParseRequest.ofValue
  rw [hf] at hb
  rw [reply_eq, answer_post_parse _ h.post h.path, parse, hb]
  rfl

/-- All ways to write a request get the same answer. An object that is none of them gets the status of the
first member that is refused, and that is 422 unless something is no number or no name at all. No request of
this kind changes anything. -/
theorem reply_of_posts (initial : Paper) (before : List Request) :
    (∀ (r : Request) (v : Value) (script : Option Text) (paper : Option Paper), r.Posts v →
      ParseRequest.IsSpelling script paper v →
      reply initial before r = some (found (parseValue (paper.getD (activeAfter initial before))
        (Script.print (script.getD Sample.standard.script))))) ∧
    (∀ (r : Request) (ms : List Member), r.Posts (.object ms) → ParseRequest.Faulty ms → ParseRequest.Plain ms →
      reply initial before r = some ⟨422, none⟩) ∧
    (∀ (r : Request) (ms : List Member), r.Posts (.object ms) →
      (∃ script paper, ParseRequest.IsSpelling script paper (.object ms)) ∨
      ∃ pre k v post e, ms = pre ++ (some k, v) :: post ∧
        (∃ script paper, ParseRequest.IsSpelling script paper (.object pre)) ∧
        ParseRequest.Refuses pre k v e ∧ reply initial before r = some ⟨e, none⟩) ∧
    ∀ r : Request, r.method = .post → Resource.ofPath r.path = some .parse →
      activeAfter initial (before ++ [r]) = activeAfter initial before := by
  have hrefused : ∀ (r : Request) (ms : List Member), r.Posts (.object ms) →
      (∃ script paper, ParseRequest.IsSpelling script paper (.object ms)) ∨
      ∃ pre k v post e, ms = pre ++ (some k, v) :: post ∧
        (∃ script paper, ParseRequest.IsSpelling script paper (.object pre)) ∧
        ParseRequest.Refuses pre k v e ∧ reply initial before r = some ⟨e, none⟩ := by
    intro r ms h
    obtain ⟨t, rest, ht, -⟩ := h.body
    have hw := ht.isWritten
    refine (ParseRequest.isSpelling_or fun m hm => Value.isWritten_of_mem hw hm).imp_right ?_
    rintro ⟨pre, k, v, post, e, rfl, ⟨script, paper, hpre⟩, hr⟩
    have hf := ParseRequest.ofValue_fails hw hpre hr
    exact ⟨pre, k, v, post, e, rfl, ⟨script, paper, hpre⟩, hr, reply_of_fails initial before h rfl hf⟩
  refine ⟨?_, ?_, hrefused, ?_⟩
  · intro r v script paper h hs
    obtain ⟨t, rest, ht, -⟩ := h.body
    have hc : v.isClosed = true := by
      cases hs <;> rfl
    have hb : Body.read ParseRequest.ofValue r = .ok ⟨script, paper⟩ := by
      rw [read_of_posts h hc, ParseRequest.ofValue_of_isSpelling ht.isWritten hs]
      rfl
    rw [reply_post_parse initial before h.post h.path hb]
  · intro r ms h hf hp
    obtain ⟨script, paper, hs⟩ | ⟨pre, k, v, post, e, rfl, -, hr, ha⟩ := hrefused r ms h
    · exact absurd hs hf.not_isSpelling
    · rw [ha, hp.refuses_eq hr]
  · intro r hm hp
    rw [activeAfter_concat, answer_post_parse _ hm hp]

def posting (body : List UInt8) : Request := ⟨.post, "/api/parse".toList, some json, body⟩

theorem ofPath_posting (body : List UInt8) : Resource.ofPath (posting body).path = some .parse := by
  have hp : Resource.ofPath "/api/parse".toList = some .parse := by decide
  exact hp

theorem isJson_posting (body : List UInt8) : (posting body).contentType.any MediaType.isJson = true := by
  have hj : (some json).any MediaType.isJson = true := by decide
  exact hj

theorem posts_posting (body rest : List UInt8) {v : Value} {t : Text} (h : v.IsText t)
    (hb : body = Utf8.encode t ++ rest) (hf : body.length ≤ Body.sizeLimit) : (posting body).Posts v :=
  ⟨rfl, ofPath_posting body, isJson_posting body, hf, t, rest, h, hb⟩

/-- An object with escapes in a key and in the script, gaps, another member and bytes behind it that are no
text says what an array says in a few characters. A paper that is given twice is refused. -/
theorem reply_of_posts_escapes :
    let text := "\n\x7b\"a\\/\":[ ],\"paper\":null ,\t\"scr\\u0069pt\":\"\\uD83d\\uDE00\"\x7d".toList
    let object := Utf8.encode text ++ [0x2c, 0xff]
    let array := Utf8.encode "[\"😀\"]".toList
    let twice := Utf8.encode "\x7b\"paper\":null,\"paper\":\"58mm\"\x7d".toList
    reply .mm112 [] (posting object) = reply .mm112 [] (posting array) ∧
      reply .mm112 [] (posting twice) = some ⟨422, none⟩ := by
  intro text object array twice
  have hself : ∀ c : Char, c ≠ '"' ∧ c ≠ '\\' ∧ ' ' ≤ c → IsEscape c [c] := fun _ h => .itself h.1 h.2.1 h.2.2
  have hi : IsEscape 'i' "\\u0069".toList := .unit (by decide) (by unfold Hex.IsSpelling; decide)
  have hpair : IsEscape '😀' "\\uD83d\\uDE00".toList :=
    .pair (m := 0x3d) (n := 0x200) (t := "D83d".toList) (u := "DE00".toList) (by decide) (by decide)
      (by unfold Hex.IsSpelling; decide) (by unfold Hex.IsSpelling; decide)
  have hother : Value.IsText (.ofText "a/".toList) "\"a\\/\"".toList :=
    .text (.cons (hself 'a' (by decide)) (.cons (.short (e := '/') (by decide)) .nil))
  have hkey : Value.IsText (.ofText "script".toList) "\t\"scr\\u0069pt\"".toList :=
    .pad (g := ['\t']) (by unfold Value.IsGap; decide) (.text (.cons (hself 's' (by decide))
      (.cons (hself 'c' (by decide)) (.cons (hself 'r' (by decide)) (.cons hi
        (.cons (hself 'p' (by decide)) (.cons (hself 't' (by decide)) .nil)))))))
  have hscript : Value.IsText (.ofText ['😀']) "\"\\uD83d\\uDE00\"".toList := .text (.cons hpair .nil)
  have hempty : Value.IsText (.array []) "[ ]".toList :=
    .array [] Value.isGap_space Value.isGap_nil (List.forall_mem_nil _)
  have hnull : Value.IsText .null "null ".toList :=
    .padded Value.isGap_nil Value.isGap_space .null
  have hobject : Value.IsText (.ofMembers [("a/".toList, .array []), ("paper".toList, .null),
      ("script".toList, .ofText ['😀'])]) text := by
    refine .pad (g := ['\n']) (by unfold Value.IsGap; decide) (.object [
      ⟨"a/".toList, .array [], "\"a\\/\"".toList, "[ ]".toList⟩,
      ⟨"paper".toList, .null, "\"paper\"".toList, "null ".toList⟩,
      ⟨"script".toList, .ofText ['😀'], "\t\"scr\\u0069pt\"".toList, "\"\\uD83d\\uDE00\"".toList⟩]
      Value.isGap_nil Value.isGap_nil ?_ ?_)
    · simp only [List.forall_mem_cons]
      exact ⟨hother, Value.isText_quote "paper".toList, hkey, List.forall_mem_nil _⟩
    · simp only [List.forall_mem_cons]
      exact ⟨hempty, hnull, hscript, List.forall_mem_nil _⟩
  have harray : Value.IsText (.array [.ofText ['😀']]) "[\"😀\"]".toList :=
    .array [(.ofText ['😀'], "\"😀\"".toList)] Value.isGap_nil Value.isGap_nil
      (List.forall_mem_singleton.mpr (Value.isText_quote ['😀']))
  have htwice : Value.IsWritten
      (.ofMembers [("paper".toList, .null), ("paper".toList, .ofText "58mm".toList)]) := by
    apply Value.IsWritten.object
    simp only [List.forall_mem_cons]
    exact ⟨.null, .text _, List.forall_mem_nil _⟩
  have hpo := posts_posting object [0x2c, 0xff] hobject rfl (by decide +kernel)
  have hpa := posts_posting array [] harray (List.append_nil _).symm (by decide +kernel)
  have hpt := posts_posting twice [] htwice.isText_compact (by decide +kernel) (by decide +kernel)
  obtain ⟨hs, hf, -, -⟩ := reply_of_posts .mm112 []
  constructor
  · rw [hs _ _ (some ['😀']) none hpo (.object (.some rfl) .null),
      hs _ _ (some ['😀']) none hpa (.array (.some rfl) .absent (absurd rfl))]
  · apply hf _ _ hpt (.repeated (Or.inr rfl) (by decide))
    refine ⟨nofun, ?_⟩
    exact List.forall_mem_cons.mpr ⟨Or.inl rfl, List.forall_mem_singleton.mpr (Or.inr ⟨_, rfl⟩)⟩

/-- A paper that is a number is not refused like a name of none, nor is a script that is a number beyond double
precision, and an object may stand for a name. -/
theorem reply_paper_no_name :
    let number := Value.ofMembers [("paper".toList, .ofNat 5)]
    let beyond := Value.ofMembers [("script".toList, .number ⟨false, ['1'], [], some 999⟩)]
    let object := Value.ofMembers [("paper".toList, .ofMembers [("58mm".toList, .null)])]
    ((posting (Utf8.encode number.compact)).Posts number ∧ reply .mm80 [] (posting (Utf8.encode number.compact)) = some ⟨400, none⟩) ∧
      ((posting (Utf8.encode beyond.compact)).Posts beyond ∧ reply .mm80 [] (posting (Utf8.encode beyond.compact)) = some ⟨400, none⟩) ∧
      (posting (Utf8.encode object.compact)).Posts object ∧
        ∃ a ∈ reply .mm80 [] (posting (Utf8.encode object.compact)), a.status = 200 := by
  intro number beyond object
  have hposts : ∀ {k : Text} {v : Value}, v.IsWritten →
      (Utf8.encode (Value.ofMembers [(k, v)]).compact).length ≤ Body.sizeLimit →
      (posting (Utf8.encode (Value.ofMembers [(k, v)]).compact)).Posts (.ofMembers [(k, v)]) := by
    intro k v hv hf
    have hw : (Value.ofMembers [(k, v)]).IsWritten := .object (List.forall_mem_singleton.mpr hv)
    exact posts_posting _ [] hw.isText_compact (List.append_nil _).symm hf
  have hbeyond : (⟨false, ['1'], [], some 999⟩ : Literal).IsWritten :=
    ⟨by decide, List.forall_mem_singleton.mpr rfl, by decide, List.forall_mem_nil _⟩
  have hname : Value.IsWritten (.ofMembers [("58mm".toList, .null)]) :=
    .object (List.forall_mem_singleton.mpr .null)
  have hpn : (posting (Utf8.encode number.compact)).Posts number :=
    hposts (.number Literal.isWritten_ofNat) (by decide +kernel)
  have hpb : (posting (Utf8.encode beyond.compact)).Posts beyond := hposts (.number hbeyond) (by decide +kernel)
  have hpo : (posting (Utf8.encode object.compact)).Posts object := hposts hname (by decide +kernel)
  refine ⟨⟨hpn, ?_⟩, ⟨hpb, ?_⟩, hpo, ?_⟩
  · exact reply_of_fails .mm80 [] hpn rfl ⟨.malformed, rfl, rfl⟩
  · exact reply_of_fails .mm80 [] hpb rfl ⟨.malformed, by decide +kernel, rfl⟩
  · have hb : Body.read ParseRequest.ofValue (posting (Utf8.encode object.compact)) = .ok ⟨none, some .mm58⟩ := by
      rw [read_of_posts hpo rfl]
      rfl
    exact ⟨_, reply_post_parse .mm80 [] hpo.post hpo.path hb, rfl⟩

section Quoting

/-- A body for a script in bytes that stand for themselves between quotes. -/
def quoting (bytes : List UInt8) : List UInt8 :=
  Utf8.encode "\x7b\"script\":".toList ++ 0x22 :: (bytes ++ [0x22, 0x7d])

variable {bytes : List UInt8}

theorem readBytes_quoting (h : ∀ b ∈ bytes, Value.IsPlainByte b) : (Value.readBytes (quoting bytes)).1 =
    .object [(some "script".toList, .string (Utf8.decode? bytes))] := by
  have hs : Lexeme.Stops (Value.ofScalars (Utf8.scalars [0x7d])) := Lexeme.stops_cons rfl []
  have hq := Value.lexFrom_quoted h hs
  have hl : ∀ t, Lexeme.lex ("\x7b\"script\":".toList ++ t) =
      .objectOpen :: .string (some "script".toList) :: .colon :: Lexeme.lexFrom 0 t := fun _ => rfl
  have hv : .objectOpen :: .string (some "script".toList) :: .colon :: .string (Utf8.decode? bytes) ::
      Lexeme.lexFrom 0 (Value.ofScalars (Utf8.scalars [0x7d])) =
        (Value.object [(some "script".toList, .string (Utf8.decode? bytes))]).lexemes ++ [] := rfl
  rw [quoting, Value.readBytes, Value.ofScalars_encode_append, Value.read, hl, hq, hv,
    Value.readValue_lexemes _ _ _ rfl, Value.readNext]

/-- Bytes that are no text are not put right in a script that is posted, but refused. -/
theorem reply_quoting (initial : Paper) (before : List Request) (h : ∀ b ∈ bytes, Value.IsPlainByte b)
    (hf : (posting (quoting bytes)).body.length ≤ Body.sizeLimit) :
    reply initial before (posting (quoting bytes)) =
      match Utf8.decode? bytes with
      | some script => some (found (parseValue (activeAfter initial before) (Script.print script)))
      | none => some ⟨400, none⟩ := by
  have hv : (Value.readBytes (posting (quoting bytes)).body).1 =
      .object [(some "script".toList, .string (Utf8.decode? bytes))] := readBytes_quoting h
  have hb : Body.read ParseRequest.ofValue (posting (quoting bytes)) =
      match Utf8.decode? bytes with
      | some script => .ok ⟨some script, none⟩
      | none => .error (.fault .malformed) := by
    rw [Body.read, isJson_posting, if_neg (by decide), if_neg hf.not_gt, hv]
    cases Utf8.decode? bytes <;> rfl
  rw [reply_eq, answer_post_parse _ rfl (ofPath_posting _), parse, hb]
  cases Utf8.decode? bytes <;> rfl

end Quoting

end Service

end ReceiptPrinter
