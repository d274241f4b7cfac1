import ReceiptPrinter.Json.Writer
import ReceiptPrinter.Json.Decoding

namespace ReceiptPrinter

open Json

inductive Paper where
  | mm58
  | mm80
  | mm112
deriving DecidableEq

namespace Paper

def all : List Paper := [mm58, mm80, mm112]

def standard : Paper := mm80

def widthMm : Paper → Nat
  | .mm58 => 58
  | .mm80 => 80
  | .mm112 => 112

def widthDots : Paper → Nat
  | .mm58 => 384
  | .mm80 => 576
  | .mm112 => 832

def charDots : Nat := 12

def columns (p : Paper) : Nat := p.widthDots / charDots

def digits (p : Paper) : Text := Text.numeral p.widthMm

def name (p : Paper) : Text := p.digits ++ ['m', 'm']

def named (t : Text) : Option Paper := all.find? (·.name == t)

/-- Reads a name with blanks around it, in either case, with or without the unit. -/
def parse? (t : Text) : Option Paper :=
  let t := Text.lowerAscii (Text.trim t)
  all.find? fun p => t == p.name || t == p.digits

def unknownText (t : Text) : Text := "Unknown paper size: ".toList ++ t

def ofText (t : Text) : Except Text Paper := (parse? t).elim (.error (unknownText t)) .ok

def toValue (p : Paper) : Value := .ofText p.name

def info (p : Paper) : Value :=
  .ofMembers [("name".toList, p.toValue), ("width_mm".toList, .ofNat p.widthMm),
    ("width_dots".toList, .ofNat p.widthDots), ("columns".toList, .ofNat p.columns)]

end Paper

end ReceiptPrinter
