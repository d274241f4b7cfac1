import ReceiptPrinter.Text.Basic

namespace ReceiptPrinter.Number

/-- The number `digits * 10 ^ exponent`. -/
structure Decimal where
  digits : Nat
  exponent : Int
deriving DecidableEq

namespace Decimal

def value (d : Decimal) : Rat := d.digits * (10 : Rat) ^ d.exponent

def figures (d : Decimal) : Text := Text.numeral d.digits

def zeros (n : Nat) : Text := List.replicate n '0'

def point (d : Decimal) : Int := d.figures.length + d.exponent

def wholePart (d : Decimal) : Text :=
  if d.point ≤ 0 then ['0']
  else (d.figures ++ zeros d.exponent.toNat).take d.point.toNat

def fractionPart (d : Decimal) : Text :=
  if d.point ≤ 0 then zeros (-d.point).toNat ++ d.figures
  else d.figures.drop d.point.toNat

def plain (d : Decimal) : Text :=
  if d.fractionPart.isEmpty then d.wholePart else d.wholePart ++ '.' :: d.fractionPart

end Decimal

end ReceiptPrinter.Number
