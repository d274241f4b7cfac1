import ReceiptPrinter.Text.Basic

namespace ReceiptPrinter

inductive Sample where
  | cafe
  | styles
  | ticket
deriving DecidableEq

namespace Sample

def all : List Sample := [cafe, styles, ticket]

def standard : Sample := cafe

def name : Sample → Text
  | .cafe => "cafe".toList
  | .styles => "styles".toList
  | .ticket => "ticket".toList

def cafeLines : List String :=
  ["ESC @", "ESC ! 24", "ESC a 1", "The Cozy Corner Cafe", "ESC ! 0", "LF",
    "123 Main Street, Anytown", "LF", "Tel: (555) 123-4567", "LF", "LF", "ESC a 0",
    "------------------------------------------", "Item            Qty    Price     Total",
    "------------------------------------------", "Coffee          2      2.50      5.00",
    "Sandwich        1      5.00      5.00", "Cake            3      3.00      9.00",
    "------------------------------------------", "Subtotal:                         19.00",
    "Tax (10%):                        1.90", "------------------------------------------",
    "ESC E 1", "Total:                           20.90", "ESC E 0",
    "------------------------------------------", "ESC p 0 25 250", "ESC a 1",
    "Thank you for visiting The Cozy Corner Cafe!", "LF", "LF", "ESC d 3", "GS V 1"]

def stylesLines : List String :=
  ["ESC @", "ESC a 1", "ESC ! 56", "STYLE SHOWCASE", "ESC ! 0", "LF", "ESC a 0", "ESC E 1",
    "Emphasized text", "ESC E 0", "ESC - 1", "Underlined text", "ESC - 0", "ESC G 1",
    "Double-strike text", "ESC G 0", "ESC ! 16", "Double height", "ESC ! 32", "Double width",
    "ESC ! 0", "GS ! 2", "Character size 2", "ESC ! 0", "ESC a 2", "Right aligned", "ESC a 0",
    "ESC V 1", "Rotated", "ESC V 0", "LF", "GS V 0"]

def ticketLines : List String :=
  ["ESC @", "ESC a 1", "ESC ! 8", "ADMIT ONE", "ESC ! 0", "Gallery Night - Hall B", "LF",
    "GS ( k 1 4", "LF", "Scan at the door", "GS V 1"]

def lines : Sample → List String
  | .cafe => cafeLines
  | .styles => stylesLines
  | .ticket => ticketLines

def script (s : Sample) : Text := List.intercalate ['\n'] (s.lines.map String.toList)

/-- Lower case as far as it reaches the letters a to z, which besides their capitals only the
sign for kelvin does. -/
def lowerLetter (c : Char) : Char := if c = '\u212a' then 'k' else c.toLower

def named (t : Text) : Option Sample := all.find? (·.name == t.map lowerLetter)

def unknownText (t : Text) : Text := "Unknown sample: ".toList ++ t

end Sample

end ReceiptPrinter
