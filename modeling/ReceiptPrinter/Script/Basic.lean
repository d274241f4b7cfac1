import ReceiptPrinter.Script.Command

namespace ReceiptPrinter

def Printout.ofOutcomes (os : List Outcome) : Printout :=
  ⟨os.filterMap Outcome.token, os.filterMap Outcome.notice⟩

namespace Script

def commands (script : Text) : List Command := (Line.ofScript script).map Line.command

def outcomes (script : Text) : List Outcome := Command.run {} (commands script)

def print (script : Text) : Printout := .ofOutcomes (outcomes script)

/-- What is told of a run. Lines count from one. -/
inductive Event where
  | unknownCommand (line : Nat) (text : Text)
  | action (line : Nat) (notice : Notice)
  | finished (tokens actions : Nat)
deriving DecidableEq

def lineEvents (number : Nat) (l : Line) (o : Outcome) : List Event :=
  (if l.command = .ignored then [.unknownCommand number l.raw] else []) ++
    (o.notice.map (.action number)).toList

def eventsFrom (number : Nat) : List Line → List Outcome → List Event
  | l :: ls, o :: os => lineEvents number l o ++ eventsFrom (number + 1) ls os
  | _, _ => []

def events (script : Text) : List Event :=
  let p := print script
  eventsFrom 1 (Line.ofScript script) (outcomes script) ++ [.finished p.tokens.length p.log.length]

end Script

end ReceiptPrinter
