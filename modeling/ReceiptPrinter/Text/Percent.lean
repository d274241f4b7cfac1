import ReceiptPrinter.Text.Hex
import ReceiptPrinter.Text.Utf8

namespace ReceiptPrinter.Percent

/-- The bytes of a text in which a percent sign before two hex digits stands for one byte. -/
def bytes : Text → List UInt8
  | [] => []
  | '%' :: a :: b :: rest =>
    match Hex.number? [a, b] with
    | some n => .ofNat n :: bytes rest
    | none => String.utf8EncodeChar '%' ++ bytes (a :: b :: rest)
  | c :: rest => String.utf8EncodeChar c ++ bytes rest

def decode? (t : Text) : Option Text := Utf8.decode? (bytes t)

end ReceiptPrinter.Percent
