import ReceiptPrinter.CommandLine.Arguments
import ReceiptPrinter.Preview
import ReceiptPrinter.Printout.Json
import ReceiptPrinter.Script.Basic
import ReceiptPrinter.Text.Utf8

namespace ReceiptPrinter.CommandLine

/-- Why bytes cannot be read, in the words of the system. -/
structure ReadFault where
  message : Text
deriving DecidableEq

abbrev Reading := Except ReadFault (List UInt8)

/-- What a run finds when it reads the standard input, or the file of a path. -/
structure Surroundings where
  input : Reading
  file : Text → Reading

inductive AddressFault where
  | noColon
  | badNumber
deriving DecidableEq

def AddressFault.text : AddressFault → Text
  | .noColon => "invalid socket address".toList
  | .badNumber => "invalid port value".toList

inductive Failure where
  | unknownSample (name : Text)
  | reading (e : ReadFault)
  | bind (address : Text) (e : AddressFault)
deriving DecidableEq

def Failure.message : Failure → Text
  | .unknownSample name => Sample.unknownText name
  | .reading e => "I/O error: ".toList ++ e.message
  | .bind address e =>
    "Server error: Failed to bind to ".toList ++ address ++ ": ".toList ++ e.text

/-- How a run ends. What is written about wrong usage is left open. -/
structure Report where
  code : Nat
  stdout : Text := []
  stderr : Option Text := some []
deriving DecidableEq

def Report.failed (e : Failure) : Report :=
  { code := 1, stderr := some ("Error: ".toList ++ e.message ++ ['\n']) }

def versionText : Text := "tillroll 0.1.0\n".toList

def Report.stopped : Stop → Report
  | .usage => { code := 2, stderr := none }
  | .help => { code := 0 }
  | .version => { code := 0, stdout := versionText }

/-- The path of the standard input, whatever empty steps follow its name. -/
def isStandardInput (path : Text) : Bool :=
  match Text.splitOn (· == '/') path with
  | first :: rest => first == ['-'] && rest.all fun name => name == [] || name == ['.']
  | [] => false

inductive Source where
  | input
  | file (path : Text)
  | sample (name : Text)
deriving DecidableEq

def PrintOptions.source (o : PrintOptions) : Source :=
  match o.path with
  | some path => if isStandardInput path then .input else .file path
  | none => .sample (o.sample.getD Sample.standard.name)

def Reading.script (r : Reading) : Except Failure Text := (r.map Utf8.decodeLossy).mapError .reading

def Source.load (around : Surroundings) : Source → Except Failure Text
  | .input => around.input.script
  | .file path => (around.file path).script
  | .sample name => ((Sample.named name).map fun s => .ok s.script).getD (.error (.unknownSample name))

def Format.write (paper : Paper) (p : Printout) : Format → Text
  | .text =>
    p.preview paper ++ Text.joinLines ([[], "Command Log:".toList] ++ p.messages.map (Text.spaces 2 ++ ·))
  | .json => p.toValue.indented 0 ++ ['\n']
  | .log => Text.joinLines p.messages

def PrintOptions.report (o : PrintOptions) (script : Except Failure Text) : Report :=
  match script with
  | .ok script =>
    { code := 0
      stdout := (o.format.getD .text).write (o.paper.getD .standard) (Script.print script) }
  | .error e => .failed e

def sampleList : Text :=
  Text.joinLines ("Available samples:".toList :: Sample.all.map fun s =>
    Text.spaces 2 ++ s.name ++ if s = .standard then " (default)".toList else [])

def isSocketNumber (t : Text) : Bool :=
  let ds := if t.head? = some '+' then t.tail else t
  !ds.isEmpty && ds.all Char.isDigit && Nat.ofDigitChars 10 ds 0 < 0x10000

/-- An address ends in a 16-bit number behind its last colon. -/
def checkAddress (t : Text) : Except AddressFault Unit :=
  if !t.contains ':' then .error .noColon
  else if isSocketNumber (t.reverse.takeWhile (· != ':')).reverse then .ok ()
  else .error .badNumber

def standardAddress : Text := "127.0.0.1:8080".toList

/-- Listening itself is left out. -/
def ServeOptions.report (o : ServeOptions) : Report :=
  let address := o.listen.getD standardAddress
  match checkAddress address with
  | .ok () => { code := 0 }
  | .error e => .failed (.bind address e)

def Invocation.report (around : Surroundings) : Invocation → Report
  | .print o => o.report (o.source.load around)
  | .samples => { code := 0, stdout := sampleList }
  | .serve o => o.report

def run (args : List Text) (around : Surroundings) : Report :=
  match readArguments args with
  | .ok invocation => invocation.report around
  | .error stop => .stopped stop

end ReceiptPrinter.CommandLine
