import ReceiptPrinter.Printout.Basic
import ReceiptPrinter.Script.Line
import ReceiptPrinter.Script.Numeral

namespace ReceiptPrinter

inductive Command where
  | lineFeed
  | reset
  | printMode (mode : Int64)
  | emphasis (on : Bool)
  | align (alignment : Alignment)
  | underline (on : Bool)
  | doubleStrike (on : Bool)
  | rotate (on : Bool)
  | openDrawer
  | charSize (n : Int64)
  | cut
  | qrCode (size : UInt32)
  | text (t : Text)
  | blank
  | ignored
deriving DecidableEq

namespace Command

def isOn (arg : Option Text) : Bool := arg == some ['1']

def alignmentOf (arg : Option Text) : Alignment :=
  if arg = some ['0'] then .left else if arg = some ['1'] then .center else .right

def qrSize (arg : Option Text) : UInt32 := if arg = some ['3'] then 100 else 200

def ofEscape : List Text → Command
  | [c] :: args =>
    match c with
    | '@' => .reset
    | '!' => .printMode (Numeral.read args.head?)
    | 'E' => .emphasis (isOn args.head?)
    | 'a' => .align (alignmentOf args.head?)
    | '-' => .underline (isOn args.head?)
    | 'G' => .doubleStrike (isOn args.head?)
    | 'V' => .rotate (isOn args.head?)
    | 'p' => .openDrawer
    | _ => .ignored
  | _ => .ignored

def ofGroup : List Text → Command
  | [c] :: args =>
    match c with
    | '!' => .charSize (Numeral.read args.head?)
    | 'V' => .cut
    | '(' => if args.head? = some ['k'] then .qrCode (qrSize args[2]?) else .ignored
    | _ => .ignored
  | _ => .ignored

end Command

def Line.command (l : Line) : Command :=
  match l.keyword with
  | some .lf => .lineFeed
  | some .esc => .ofEscape l.args
  | some .gs => .ofGroup l.args
  | none => if l.isBlank then .blank else .text l.raw

/-- What a command leaves behind: the style of the following lines, and what it prints and logs. -/
structure Outcome where
  style : Style
  token : Option Token := none
  notice : Option Notice := none
deriving DecidableEq

namespace Command

def cutLine : Text := "--- Cut Paper ---\n".toList

def perform (s : Style) : Command → Outcome
  | .lineFeed => { style := s, token := some (.text ['\n'] s) }
  | .reset => { style := {}, notice := some .initialized }
  | .printMode mode => { style := s.setMode mode }
  | .emphasis on => { style := s.setEmphasis on }
  | .align alignment => { style := { s with alignment } }
  | .underline on => { style := { s with underline := on } }
  | .doubleStrike on => { style := { s with strike := on } }
  | .rotate on => { style := { s with rotated := on } }
  | .openDrawer => { style := s, notice := some .drawerOpened }
  | .charSize n => { style := s.setSize n }
  | .cut => { style := s, token := some (.text cutLine s), notice := some .paperCut }
  | .qrCode size => { style := s, token := some (.qr size s), notice := some .qrGenerated }
  | .text t => { style := s, token := some (.text (t ++ ['\n']) s) }
  | .blank => { style := s }
  | .ignored => { style := s }

def run (s : Style) : List Command → List Outcome
  | [] => []
  | c :: rest => c.perform s :: run (c.perform s).style rest

def styleAfter (s : Style) (cs : List Command) : Style :=
  cs.foldl (fun s c => (c.perform s).style) s

theorem length_run (s : Style) (cs : List Command) : (run s cs).length = cs.length := by
  induction cs generalizing s with
  | nil => rfl
  | cons c cs ih => simp [run, ih]

theorem run_append (s : Style) (a b : List Command) :
    run s (a ++ b) = run s a ++ run (styleAfter s a) b := by
  induction a generalizing s with
  | nil => rfl
  | cons c a ih => simp [run, ih, styleAfter]

end Command

end ReceiptPrinter
