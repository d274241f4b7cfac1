import ReceiptPrinter.CommandLine.Basic
import ReceiptPrinter.Proofs.Printout.RoundTrip
import ReceiptPrinter.Proofs.Service.Reading
import ReceiptPrinter.Proofs.Text.Lines

namespace ReceiptPrinter.CommandLine

namespace Word

def assigning (name value : Text) : Text := '-' :: '-' :: (name ++ '=' :: value)

theorem ofText_assigning {name : Text} (h : '=' ∉ name) (value : Text) :
    ofText (assigning name value) = .long name (some value) := by
  have hn : ∀ c ∈ name, (c != '=') = true := fun c hc => bne_iff_ne.mpr fun he => h (he ▸ hc)
  have ht : (name ++ '=' :: value).takeWhile (· != '=') = name := by
    rw [List.takeWhile_append_of_pos hn]
    exact List.append_nil name
  have hd : (name ++ '=' :: value).dropWhile (· != '=') = '=' :: value := by
    rw [List.dropWhile_append_of_pos hn]
    rfl
  have hl : ofText (assigning name value) =
      .long ((name ++ '=' :: value).takeWhile (· != '=')) ((name ++ '=' :: value).dropWhile (· != '=')).tail? := by
    rw [assigning]
    cases name <;> rfl
  rw [hl, ht, hd]
  rfl

theorem ofText_eq_plain {t : Text} (h : t.head? ≠ some '-' ∨ t = ['-']) : ofText t = .plain t := by
  obtain h | rfl := h
  · unfold ofText
    split
    · exact absurd rfl h
    · exact absurd rfl h
    · exact absurd rfl h
    · rfl
  · rfl

end Word

namespace Grammar

variable {σ : Type} (g : Grammar σ) (s : σ) (rest : List Text)

theorem read_assigning {name : Text} (h : '=' ∉ name) {value : Text} {u : σ}
    (hu : g.option s name value = some u) :
    g.read s (Word.assigning name value :: rest) = g.read u rest := by
  rw [read, Word.ofText_assigning h]
  dsimp only
  rw [hu]
  rfl

theorem read_word {t : Text} (h : Word.ofText t = .plain t) {u : σ} (hu : g.word s t = some u) :
    g.read s (t :: rest) = g.read u rest := by
  rw [read, h]
  dsimp only
  rw [hu]
  rfl

end Grammar

theorem Format.named_name (f : Format) : named f.name = some f := by
  cases f <;> decide

/-- In whatever spelling, the arguments ask for a print of what is under a path, or of a sample where
there is no path. -/
def Asks (args : List Text) (path : Option Text) (sample : Text) (paper : Paper) (format : Format) : Prop :=
  ∃ o, readArguments args = .ok (.print o) ∧ o.path = path ∧
    o.sample.getD Sample.standard.name = sample ∧ o.paper.getD .standard = paper ∧
    o.format.getD .text = format

def printing (path : Option Text) (sample : Text) (paper : Paper) (format : Format) : List Text :=
  ["print".toList, Word.assigning "sample".toList sample, Word.assigning "paper".toList paper.name,
    Word.assigning "format".toList format.name] ++ path.toList

theorem PrintOptions.read_path {o : PrintOptions} (ho : o.path = none) {path : Option Text}
    (h : ∀ t ∈ path, t ≠ [] ∧ (t.head? ≠ some '-' ∨ t = ['-'])) :
    grammar.read o path.toList = .ok { o with path } := by
  cases path with
  | none =>
    obtain ⟨place, sample, paper, format⟩ := o
    obtain rfl : place = none := ho
    rfl
  | some t =>
    obtain ⟨hne, ht⟩ := h t rfl
    have hw : o.setWord t = some { o with path := some t } := by
      rw [setWord, if_neg (List.isEmpty_iff.not.mpr hne), ho]
      rfl
    exact Grammar.read_word _ _ _ (Word.ofText_eq_plain ht) hw

theorem asks_printing {path : Option Text} (h : ∀ t ∈ path, t ≠ [] ∧ (t.head? ≠ some '-' ∨ t = ['-']))
    (sample : Text) (paper : Paper) (format : Format) :
    Asks (printing path sample paper format) path sample paper format := by
  let o : PrintOptions := { sample := some sample, paper := some paper, format := some format }
  have hs : PrintOptions.setOption {} "sample".toList sample = some { sample := some sample } := rfl
  have hp : PrintOptions.setOption { sample := some sample } "paper".toList paper.name =
      some { sample := some sample, paper := some paper } := by
    rw [PrintOptions.setOption, Paper.named_name]
    rfl
  have hf : PrintOptions.setOption { sample := some sample, paper := some paper } "format".toList format.name =
      some o := by
    rw [PrintOptions.setOption, Format.named_name]
    rfl
  have hr : PrintOptions.grammar.read {} (printing path sample paper format).tail = .ok { o with path } := by
    simp only [printing, List.cons_append, List.nil_append, List.tail_cons]
    rw [Grammar.read_assigning _ _ _ (by decide) hs, Grammar.read_assigning _ _ _ (by decide) hp,
      Grammar.read_assigning _ _ _ (by decide) hf, PrintOptions.read_path rfl h]
  have ha : readArguments (printing path sample paper format) =
      (PrintOptions.grammar.read {} (printing path sample paper format).tail).map .print := rfl
  refine ⟨{ o with path }, ?_, rfl, rfl, rfl, rfl⟩
  rw [ha, hr]
  rfl

def Format.Shows (paper : Paper) (p : Printout) (stdout : Text) : Format → Prop
  | .json => ∃ t, stdout = t ++ ['\n'] ∧ Printout.read? t = some p
  | .log => stdout = p.messages.flatMap (· ++ ['\n'])
  | .text => stdout = p.preview paper ++ "\nCommand Log:\n".toList ++
      p.messages.flatMap fun m => ' ' :: ' ' :: m ++ ['\n']

theorem Format.shows_write (paper : Paper) {p : Printout} (h : p.IsFinite) (f : Format) :
    f.Shows paper p (f.write paper p) := by
  cases f with
  | json =>
    have hr := Printout.read?_indented h (g := []) fun _ hc => nomatch hc
    rw [List.append_nil] at hr
    exact ⟨p.toValue.indented 0, rfl, hr⟩
  | log => exact (List.flatMap_def ..).symm
  | text =>
    have hl : Text.joinLines (p.messages.map (Text.spaces 2 ++ ·)) =
        p.messages.flatMap fun m => ' ' :: ' ' :: m ++ ['\n'] := by
      rw [Text.joinLines, List.map_map, List.flatMap_def]
      rfl
    rw [write, Text.joinLines_append, hl]
    exact (List.append_assoc ..).symm

def Surroundings.at (around : Surroundings) (path : Text) : Reading :=
  if isStandardInput path then around.input else around.file path

theorem PrintOptions.load_of_path {o : PrintOptions} {t : Text} (h : o.path = some t)
    (around : Surroundings) : o.source.load around = (around.at t).script := by
  rw [source, h, Surroundings.at]
  dsimp only
  split <;> rfl

section Runs

variable {args : List Text} {path : Option Text} {sample : Text} {paper : Paper} {format : Format}
  {around : Surroundings}

theorem run_eq_of_asks (h : Asks args path sample paper format) (around : Surroundings) :
    ∃ o : PrintOptions, run args around = o.report (o.source.load around) ∧ o.path = path ∧
      o.sample.getD Sample.standard.name = sample ∧
      ∀ script, o.report (.ok script) =
        { code := 0, stdout := format.write paper (Script.print script) } := by
  obtain ⟨o, hr, hpath, hsample, rfl, rfl⟩ := h
  refine ⟨o, ?_, hpath, hsample, fun _ => rfl⟩
  rw [run, hr]
  rfl

theorem run_of_readable {t : Text} (h : Asks args (some t) sample paper format) {bytes : List UInt8}
    (hb : around.at t = .ok bytes) : run args around =
      { code := 0, stdout := format.write paper (Script.print (Utf8.decodeLossy bytes)) } := by
  obtain ⟨o, hr, hpath, -, hreport⟩ := run_eq_of_asks h around
  rw [hr, o.load_of_path hpath, hb]
  exact hreport _

theorem run_of_unreadable {t : Text} (h : Asks args (some t) sample paper format) {e : ReadFault}
    (he : around.at t = .error e) : run args around = .failed (.reading e) := by
  obtain ⟨o, hr, hpath, -⟩ := run_eq_of_asks h around
  rw [hr, o.load_of_path hpath, he]
  rfl

theorem run_of_unknown (h : Asks args none sample paper format) (hs : Sample.named sample = none)
    (around : Surroundings) : run args around = .failed (.unknownSample sample) := by
  obtain ⟨o, hr, hpath, hsample, -⟩ := run_eq_of_asks h around
  have hsource : o.source = .sample sample := by rw [PrintOptions.source, hpath, hsample]
  rw [hr, hsource, Source.load, hs]
  rfl

/-- A run reads the path to be printed and nothing else, so that this can be read beforehand. -/
theorem run_congr {around' : Surroundings}
    (h : ∀ o t, readArguments args = .ok (.print o) → o.path = some t → around.at t = around'.at t) :
    run args around = run args around' := by
  rw [run, run]
  cases hr : readArguments args with
  | error stop => rfl
  | ok invocation =>
    cases invocation with
    | print o =>
      have hl : o.source.load around = o.source.load around' := by
        cases hp : o.path with
        | none => rw [PrintOptions.source, hp, Source.load, Source.load]
        | some t => rw [o.load_of_path hp, o.load_of_path hp, h o t hr hp]
      exact congrArg o.report hl
    | samples => rfl
    | serve o => rfl

end Runs

/-- Bytes give the same report from a file and from the standard input, whatever they are: no error, and
what the format shows of the printout of the text that they stand for. A path that cannot be read and a
sample that is not known end in code one, with nothing printed. -/
theorem run_print (sample : Text) (paper : Paper) (format : Format) :
    (∀ bytes : List UInt8, ∃ stdout, format.Shows paper (Script.print (Utf8.decodeLossy bytes)) stdout ∧
      (∀ args path around, Asks args (some path) sample paper format → isStandardInput path = false →
        around.file path = .ok bytes → run args around = ⟨0, stdout, some []⟩) ∧
      ∀ args path around, Asks args (some path) sample paper format → isStandardInput path = true →
        around.input = .ok bytes → run args around = ⟨0, stdout, some []⟩) ∧
    (∀ args path around e, Asks args (some path) sample paper format →
      (if isStandardInput path then around.input else around.file path) = .error e →
        (run args around).code = 1 ∧ (run args around).stdout = []) ∧
    (∀ args around, Asks args none sample paper format → Sample.named sample = none →
      (run args around).code = 1 ∧ (run args around).stdout = []) ∧
    ∀ path : Option Text, (∀ t ∈ path, t ≠ [] ∧ (t.head? ≠ some '-' ∨ t = ['-'])) →
      Asks (printing path sample paper format) path sample paper format := by
  refine ⟨fun bytes => ?_, ?_, ?_, fun path h => asks_printing h sample paper format⟩
  · refine ⟨_, format.shows_write paper (Script.isFinite_print _), ?_, ?_⟩
    · intro args path around h ht hf
      exact run_of_readable h ((if_neg (Bool.eq_false_iff.mp ht)).trans hf)
    · intro args path around h ht hi
      exact run_of_readable h ((if_pos ht).trans hi)
  · intro args path around e h he
    rw [run_of_unreadable h he]
    exact ⟨rfl, rfl⟩
  · intro args around h hs
    rw [run_of_unknown h hs around]
    exact ⟨rfl, rfl⟩

/-- A byte that is no character, in a file outside of the working directory and on the standard input, and
then a file that is not there and a sample that nobody knows. -/
theorem run_print_latin :
    let bytes : List UInt8 := [0x43, 0x61, 0x66, 0xe9, 0x0a, 0x47, 0x53, 0x20, 0x56]
    let around : Surroundings :=
      { input := .ok bytes
        file := fun path =>
          if path = "/tmp/r.txt".toList then .ok bytes
          else .error ⟨"No such file or directory (os error 2)".toList⟩ }
    let args (path : Option Text) := printing path "nope".toList .mm58 .log
    run (args (some "/tmp/r.txt".toList)) around = { code := 0, stdout := "Paper Cut\n".toList } ∧
      run (args (some ['-'])) around = { code := 0, stdout := "Paper Cut\n".toList } ∧
      (run (args (some "../s.txt".toList)) around).code = 1 ∧
      (run (args (some "../s.txt".toList)) around).stdout = [] ∧
      (run (args none) around).code = 1 ∧ (run (args none) around).stdout = [] := by
  intro bytes around args
  obtain ⟨hprint, hfail, hunknown, hasks⟩ := run_print "nope".toList .mm58 .log
  obtain ⟨stdout, hshows, hpath, hinput⟩ := hprint bytes
  have hout : stdout = "Paper Cut\n".toList := hshows.trans (by decide)
  have hf := hpath _ _ around (hasks (some "/tmp/r.txt".toList) (by decide)) (by decide) rfl
  have hi := hinput _ _ around (hasks (some ['-']) (by decide)) (by decide) rfl
  have hs := hfail _ _ around _ (hasks (some "../s.txt".toList) (by decide)) rfl
  have hn := hunknown _ around (hasks none nofun) (by decide)
  rw [hout] at hf hi
  exact ⟨hf, hi, hs.1, hs.2, hn.1, hn.2⟩

end ReceiptPrinter.CommandLine
