import ReceiptPrinter.Text.Basic

namespace ReceiptPrinter.Numeral

def largest : Nat := 0x7fffffffffffffff

def hasSign (t : Text) : Bool := t.head?.any fun c => c == '-' || c == '+'

def digits (t : Text) : Text := (if hasSign t then t.tail else t).takeWhile Char.isDigit

/-- The number that a word starts with, cut off at the largest magnitude. A word that starts with
none is zero, and so is a missing word. -/
def read (word : Option Text) : Int64 :=
  let t := word.getD []
  let n : Int := min largest (Nat.ofDigitChars 10 (digits t) 0)
  .ofInt (if t.head? = some '-' then -n else n)

end ReceiptPrinter.Numeral
