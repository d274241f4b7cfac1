import ReceiptPrinter.Proofs.CommandLine.Log
import ReceiptPrinter.Proofs.Script.Sample
import ReceiptPrinter.Proofs.Service.Active
import ReceiptPrinter.Proofs.Text.Escapes

namespace ReceiptPrinter

open Json

/-- The request is for the sample of a name, with all bytes of the name as escapes. -/
structure Request.GetsSample (r : Request) (name : Text) : Prop where
  get : r.method = .get
  path : ∃ segment, Percent.IsSpelling name segment ∧ r.path = "/api/samples/".toList ++ segment

theorem Resource.ofPath_sample {segment : Text} (hne : segment ≠ [])
    (h : ∀ c ∈ segment, c ∈ "%0123456789abcdefABCDEF".toList) :
    ofPath ("/api/samples/".toList ++ segment) = some (.sample segment) := by
  have hmark : "%0123456789abcdefABCDEF".toList.all (fun c => c != '?' && c != '#') = true := by decide
  have hslash : "%0123456789abcdefABCDEF".toList.all (· != '/') = true := by decide
  have hfront : "/api/samples/".toList.all (fun c => c != '?' && c != '#') = true := by decide
  have ht : ("/api/samples/".toList ++ segment).takeWhile (fun c => c != '?' && c != '#') =
      "/api/samples/".toList ++ segment := by
    rw [List.takeWhile_eq_self_iff, List.forall_mem_append]
    exact ⟨List.all_eq_true.mp hfront, fun c hc => List.all_eq_true.mp hmark c (h c hc)⟩
  have hs : Text.splitOn (· == '/') segment = [segment] :=
    Text.splitOn_eq_singleton fun c hc =>
      beq_eq_false_iff_ne.mpr (bne_iff_ne.mp (List.all_eq_true.mp hslash c (h c hc)))
  have hp : "/api/samples/".toList ++ segment = "/api/samples".toList ++ '/' :: segment := rfl
  rw [ofPath, ht, hp, Text.splitOn_append_cons (by decide), hs]
  have hf : Text.splitOn (· == '/') "/api/samples".toList ++ [segment] =
      [[], "api".toList, "samples".toList, segment] := by
    rw [show Text.splitOn (· == '/') "/api/samples".toList = [[], "api".toList, "samples".toList] by decide]
    rfl
  rw [hf, ofSegments, if_pos ⟨rfl, rfl, hne⟩]

namespace Service

theorem isWritten_sampleValue (name : Text) (s : Sample) : (sampleValue name s).IsWritten := by
  apply Value.IsWritten.object
  simp only [List.forall_mem_cons]
  exact ⟨.text _, .text _, by simp⟩

def sampleNamed (name : Text) : Response :=
  match Sample.named name with
  | some s => found (sampleValue name s)
  | none => ⟨404, some (Sample.unknownText name)⟩

theorem reply_getsSample (initial : Paper) (before : List Request) {r : Request} {name : Text}
    (hne : name ≠ []) (h : r.GetsSample name) : reply initial before r = some (sampleNamed name) := by
  obtain ⟨hm, segment, hs, hp⟩ := h
  have hr : Resource.ofPath r.path = some (.sample segment) := by
    rw [hp]
    exact Resource.ofPath_sample (Percent.ne_nil_of_isSpelling hs hne) (Percent.mem_of_isSpelling hs)
  have ha : ∀ active, (answer active r).1 = sample segment := by
    intro active
    rw [answer, hr, hm]
    rfl
  rw [reply_eq, ha, sample, Percent.decode?_of_isSpelling hs]
  rfl

end Service

namespace CommandLine

theorem asks_sample (name : Text) :
    Asks ["print".toList, Word.assigning "sample".toList name] none name .standard .text := by
  let o : PrintOptions := { sample := some name }
  have hs : PrintOptions.setOption {} "sample".toList name = some o := rfl
  have hr : PrintOptions.grammar.read {} [Word.assigning "sample".toList name] = .ok o :=
    Grammar.read_assigning _ _ _ (by decide) hs
  have ha : readArguments ["print".toList, Word.assigning "sample".toList name] =
      (PrintOptions.grammar.read {} [Word.assigning "sample".toList name]).map .print := rfl
  refine ⟨o, ?_, rfl, rfl, rfl, rfl⟩
  rw [ha, hr]
  rfl

theorem prints_of_named {args : List Text} {name : Text} {paper : Paper} {format : Format}
    (h : Asks args none name paper format) {s : Sample} (hs : Sample.named name = some s)
    (around : Surroundings) : Prints args around s.script paper format := by
  obtain ⟨o, hr, hpath, hname, hpaper, hformat⟩ := h
  have hsource : o.source = .sample name := by rw [PrintOptions.source, hpath, hname]
  refine ⟨o, hr, ?_, hpaper, hformat⟩
  rw [hsource, Source.load, hs]
  rfl

end CommandLine

open CommandLine Service

/-- A name stands for a sample, or for none, in the service and on the command line alike: both give the
same script, or the same words about the name as it stands. The names are those of the samples with each
letter in either case, where the sign for kelvin is a capital of k, and that is what any full lowering of
letters makes of them. -/
theorem sample_of_name {name : Text} (hne : name ≠ []) :
    ((∃ s : Sample, s.IsSpelling name ∧
        (∀ initial before r, r.GetsSample name → ∃ a ∈ reply initial before r, a.status = 200 ∧
          a.member? "name".toList = some (.ofText name) ∧
          a.member? "script".toList = some (.ofText s.script)) ∧
        ∀ args paper format around, Asks args none name paper format →
          Prints args around s.script paper format ∧ run args around =
            { code := 0, stdout := format.write paper (Script.print s.script), stderr := some [] }) ∨
      (∀ s : Sample, ¬ s.IsSpelling name) ∧
        (∀ initial before r, r.GetsSample name →
          reply initial before r = some ⟨404, some ("Unknown sample: ".toList ++ name)⟩) ∧
        ∀ args paper format around, Asks args none name paper format → run args around =
          { code := 1, stdout := [], stderr := some ("Error: Unknown sample: ".toList ++ name ++ ['\n']) }) ∧
    Asks ["print".toList, Word.assigning "sample".toList name] none name .standard .text ∧
    ∀ lower, Text.IsFullLowering lower → ∀ s : Sample, lower name = s.name ↔ s.IsSpelling name := by
  refine ⟨?_, asks_sample name, fun lower h s => Sample.lower_eq_name_iff h s name⟩
  cases hs : Sample.named name with
  | some s =>
    refine Or.inl ⟨s, (Sample.named_eq_some_iff s name).mp hs, ?_, ?_⟩
    · intro initial before r h
      have ha : sampleNamed name = found (sampleValue name s) := by rw [sampleNamed, hs]
      refine ⟨_, reply_getsSample initial before hne h, ?_⟩
      rw [ha, member?_found (isWritten_sampleValue name s), member?_found (isWritten_sampleValue name s)]
      exact ⟨rfl, rfl, rfl⟩
    · intro args paper format around h
      have hp := prints_of_named h hs around
      exact ⟨hp, hp.run_eq⟩
  | none =>
    refine Or.inr ⟨(Sample.named_eq_none_iff name).mp hs, ?_, ?_⟩
    · intro initial before r h
      have ha : sampleNamed name = ⟨404, some (Sample.unknownText name)⟩ := by rw [sampleNamed, hs]
      rw [reply_getsSample initial before hne h, ha]
      rfl
    · intro args paper format around h
      rw [run_of_unknown h hs]
      rfl

/-- The ticket with the sign for kelvin in it, and a name with a slash, a quote and a line feed. -/
theorem sample_of_name_kelvin :
    let kelvin := "Tic\u212aET".toList
    let other := "a/\"\n".toList
    let get (segment : String) : Request := ⟨.get, ("/api/samples/" ++ segment).toList, none, []⟩
    let args (name : Text) := ["print".toList, Word.assigning "sample".toList name]
    let around : Surroundings := ⟨.ok [], fun _ => .ok []⟩
    (∃ a ∈ reply .mm58 [] (get "%54%69%63%e2%84%Aa%45%54"), a.status = 200 ∧
      a.member? "name".toList = some (.ofText kelvin) ∧
      a.member? "script".toList = some (.ofText Sample.ticket.script)) ∧
    Prints (args kelvin) around Sample.ticket.script .mm80 .text ∧
    kelvin.flatMap Text.lowerChar = Sample.ticket.name ∧
    reply .mm58 [] (get "%61%2f%22%0A") = some ⟨404, some "Unknown sample: a/\"\n".toList⟩ ∧
    run (args other) around = { code := 1, stderr := some "Error: Unknown sample: a/\"\n\n".toList } := by
  intro kelvin other get args around
  obtain ⟨hk, hka, hl⟩ := sample_of_name (show kelvin ≠ [] by decide)
  obtain ⟨ho, hoa, -⟩ := sample_of_name (show other ≠ [] by decide)
  have hgk : (get "%54%69%63%e2%84%Aa%45%54").GetsSample kelvin :=
    ⟨rfl, "%54%69%63%e2%84%Aa%45%54".toList, by unfold Percent.IsSpelling; decide +kernel, by decide⟩
  have hgo : (get "%61%2f%22%0A").GetsSample other :=
    ⟨rfl, "%61%2f%22%0A".toList, by unfold Percent.IsSpelling; decide +kernel, by decide⟩
  have hticket : Sample.ticket.IsSpelling kelvin := by
    unfold Sample.IsSpelling
    decide
  have hnone : ∀ s : Sample, ¬ s.IsSpelling other := by
    unfold Sample.IsSpelling
    rintro (_ | _ | _) <;> decide
  obtain ⟨s, hs, hget, hrun⟩ | ⟨hn, -⟩ := hk
  · obtain rfl : s = .ticket := by
      rw [← Sample.named_eq_some_iff] at hs hticket
      exact Option.some.inj (hs.symm.trans hticket)
    obtain ⟨s, hs, -⟩ | ⟨-, hmissing, hfail⟩ := ho
    · exact absurd hs (hnone s)
    · have hlower := (hl _ Text.isFullLowering_flatMap .ticket).mpr hs
      exact ⟨hget _ _ _ hgk, (hrun _ _ _ around hka).1, hlower, hmissing _ _ _ hgo,
        hfail _ _ _ around hoa⟩
  · exact absurd hticket (hn _)

end ReceiptPrinter
