import ReceiptPrinter.Text.Basic

namespace ReceiptPrinter

inductive Keyword where
  | lf
  | esc
  | gs
deriving DecidableEq

namespace Keyword

def name : Keyword → Text
  | .lf => "lf".toList
  | .esc => "esc".toList
  | .gs => "gs".toList

def ofWord? (w : Text) : Option Keyword := [lf, esc, gs].find? (·.name == Text.lowerAscii w)

end Keyword

structure Line where
  raw : Text
  keyword : Option Keyword
  args : List Text
deriving DecidableEq

namespace Line

def plain (raw : Text) : Line := ⟨raw, none, []⟩

/-- An indented line has no keyword. -/
def ofText (raw : Text) : Line :=
  if Text.startsBlank raw then plain raw
  else
    match Text.words raw with
    | [] => plain raw
    | w :: args =>
      match Keyword.ofWord? w with
      | some k => ⟨raw, some k, args⟩
      | none => plain raw

def isBlank (l : Line) : Bool := Text.isBlank l.raw

def dropReturn (t : Text) : Text := if t.getLast? = some '\r' then t.dropLast else t

def ofScript (script : Text) : List Line :=
  (Text.splitOn (· == '\n') script).map fun t => ofText (dropReturn t)

end Line

end ReceiptPrinter
