import ReceiptPrinter.Paper
import ReceiptPrinter.Printout.Basic

namespace ReceiptPrinter.Preview

def columns (paper : Paper) (s : Style) : Nat :=
  if s.isWide then paper.columns / 2 else paper.columns

def indent (alignment : Alignment) (room : Nat) : Nat :=
  match alignment with
  | .left => 0
  | .center => room / 2
  | .right => room

/-- A line of print on the roll: no blanks at its end, and none at all without text. -/
def row (paper : Paper) (s : Style) (t : Text) : Text :=
  let t := Text.trimEnd t
  if t.isEmpty then ['\n']
  else Text.spaces (indent s.alignment (columns paper s - t.length)) ++ t ++ ['\n']

/-- Text that waits for the end of its line. -/
structure Held where
  text : Text := []
  style : Style := {}

def Held.flush (paper : Paper) (h : Held) : Text :=
  if h.text.isEmpty then [] else row paper h.style h.text

/-- Prints the lines that end within a text, and returns what is held of the last. -/
def feed (paper : Paper) (s : Style) (held : Text) : List Text → Text × Text
  | [] => ([], held)
  | [last] => ([], held ++ last)
  | piece :: rest =>
    let (rows, left) := feed paper s [] rest
    (row paper s (held ++ piece) ++ rows, left)

def cellDots : Nat := 25

def side (size : UInt32) : Nat := max (size.toNat / cellDots) 1

def square (paper : Paper) (s : Style) (size : UInt32) : Text :=
  (List.replicate (side size) (row paper s (List.replicate (2 * side size) '#'))).flatten

def layout (paper : Paper) (held : Held) : List Token → Text
  | [] => held.flush paper
  | .text content s :: rest =>
    let (rows, left) := feed paper s held.text (Text.splitOn (· == '\n') content)
    rows ++ layout paper ⟨left, if content.isEmpty then held.style else s⟩ rest
  | .qr size s :: rest => held.flush paper ++ square paper s size ++ layout paper {} rest

end Preview

def Printout.preview (p : Printout) (paper : Paper) : Text := Preview.layout paper {} p.tokens

end ReceiptPrinter
