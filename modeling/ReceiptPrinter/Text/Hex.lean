import ReceiptPrinter.Text.Basic

namespace ReceiptPrinter.Hex

def value? (c : Char) : Option Nat :=
  if '0' ≤ c ∧ c ≤ '9' then some (c.toNat - '0'.toNat)
  else if 'a' ≤ c ∧ c ≤ 'f' then some (c.toNat - 'a'.toNat + 10)
  else if 'A' ≤ c ∧ c ≤ 'F' then some (c.toNat - 'A'.toNat + 10)
  else none

def number? (digits : Text) : Option Nat :=
  digits.foldl (fun n c => n.bind fun n => (value? c).map (16 * n + ·)) (some 0)

end ReceiptPrinter.Hex
