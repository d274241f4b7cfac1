import ReceiptPrinter.Paper
import ReceiptPrinter.Script.Sample

namespace ReceiptPrinter.CommandLine

inductive Format where
  | text
  | json
  | log
deriving DecidableEq

namespace Format

def name : Format → Text
  | .text => "text".toList
  | .json => "json".toList
  | .log => "log".toList

def named (t : Text) : Option Format := [text, json, log].find? (·.name == t)

end Format

inductive Stop where
  | usage
  | help
  | version
deriving DecidableEq

inductive Word where
  | plain (t : Text)
  | divider
  | short (letters : Text)
  | long (name : Text) (value : Option Text)
deriving DecidableEq

def Word.ofText (t : Text) : Word :=
  match t with
  | ['-', '-'] => .divider
  | '-' :: '-' :: rest =>
    .long (rest.takeWhile (· != '=')) (rest.dropWhile (· != '=')).tail?
  | '-' :: c :: rest => .short (c :: rest)
  | t => .plain t

/-- The options of a command and the words in its places, where an argument may be refused. -/
structure Grammar (σ : Type) where
  option : σ → Text → Text → Option σ
  word : σ → Text → Option σ

def orUsage (x : Option α) : Except Stop α := x.elim (.error .usage) .ok

namespace Grammar

variable {σ : Type}

def readWords (g : Grammar σ) (s : σ) : List Text → Except Stop σ
  | [] => .ok s
  | w :: rest => (orUsage (g.word s w)).bind fun s => g.readWords s rest

/-- Goes through the arguments of a command. The value of an option stands behind an equals sign
or is the next argument, which then looks like a word. Behind a divider all are words. -/
def read (g : Grammar σ) (s : σ) : List Text → Except Stop σ
  | [] => .ok s
  | a :: rest =>
    match Word.ofText a with
    | .plain t => (orUsage (g.word s t)).bind fun s => g.read s rest
    | .divider => g.readWords s rest
    | .short letters => .error (if letters.head? = some 'h' then .help else .usage)
    | .long name (some v) => (orUsage (g.option s name v)).bind fun s => g.read s rest
    | .long name none =>
      if name = "help".toList then .error .help
      else
        match rest with
        | [] => .error .usage
        | b :: rest =>
          match Word.ofText b with
          | .plain v => (orUsage (g.option s name v)).bind fun s => g.read s rest
          | _ => .error .usage

end Grammar

def once (field : Option α) (value : Option α) : Option (Option α) :=
  if field.isSome then none else value.map some

structure PrintOptions where
  path : Option Text := none
  sample : Option Text := none
  paper : Option Paper := none
  format : Option Format := none
deriving DecidableEq

namespace PrintOptions

def setOption (o : PrintOptions) (name value : Text) : Option PrintOptions :=
  if name = "sample".toList then (once o.sample (some value)).map fun sample => { o with sample }
  else if name = "paper".toList then
    (once o.paper (Paper.named value)).map fun paper => { o with paper }
  else if name = "format".toList then
    (once o.format (Format.named value)).map fun format => { o with format }
  else none

def setWord (o : PrintOptions) (w : Text) : Option PrintOptions :=
  if w.isEmpty then none else (once o.path (some w)).map fun path => { o with path }

def grammar : Grammar PrintOptions := ⟨setOption, setWord⟩

end PrintOptions

structure ServeOptions where
  listen : Option Text := none
  paper : Option Paper := none
deriving DecidableEq

namespace ServeOptions

def setOption (o : ServeOptions) (name value : Text) : Option ServeOptions :=
  if name = "listen".toList then (once o.listen (some value)).map fun listen => { o with listen }
  else if name = "paper".toList then
    (once o.paper (Paper.named value)).map fun paper => { o with paper }
  else none

def grammar : Grammar ServeOptions := ⟨setOption, fun _ _ => none⟩

end ServeOptions

def bare : Grammar Unit := ⟨fun _ _ _ => none, fun _ _ => none⟩

inductive Invocation where
  | print (o : PrintOptions)
  | samples
  | serve (o : ServeOptions)
deriving DecidableEq

def commandNames : List Text :=
  ["print".toList, "samples".toList, "serve".toList, "help".toList]

def readHelp : List Text → Stop
  | [] => .help
  | [name] => if commandNames.contains name then .help else .usage
  | _ => .usage

def readArguments : List Text → Except Stop Invocation
  | [] => .error .usage
  | a :: rest =>
    match Word.ofText a with
    | .plain name =>
      if name = "print".toList then (PrintOptions.grammar.read {} rest).map .print
      else if name = "samples".toList then (bare.read () rest).map fun _ => .samples
      else if name = "serve".toList then (ServeOptions.grammar.read {} rest).map .serve
      else if name = "help".toList then .error (readHelp rest)
      else .error .usage
    | .short letters =>
      .error (if letters.head? = some 'h' then .help
        else if letters.head? = some 'V' then .version else .usage)
    | .long name none =>
      .error (if name = "help".toList then .help
        else if name = "version".toList then .version else .usage)
    | _ => .error .usage

end ReceiptPrinter.CommandLine
