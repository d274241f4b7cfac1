import ReceiptPrinter.Number.Single

namespace ReceiptPrinter

open Number

inductive Alignment where
  | left
  | center
  | right
deriving DecidableEq

inductive SizeScale where
  | normal
  | tall
  | large
deriving DecidableEq

inductive WidthMode where
  | normal
  | wide
deriving DecidableEq

structure Style where
  bold : Bool := false
  size : SizeScale := .normal
  width : WidthMode := .normal
  alignment : Alignment := .left
  underline : Bool := false
  strike : Bool := false
  rotated : Bool := false
  emphasis : Bool := false
  scale : Option Single := none
deriving DecidableEq

namespace Style

/-- A bit of the two's complement of a mode, named by its weight. -/
def hasBit (mode : Int64) (weight : Int) : Bool := mode.toInt / weight % 2 == 1

/-- Takes boldness and size from a mode. Of the two size bits the one for double width wins. -/
def setMode (s : Style) (mode : Int64) : Style :=
  let wide := hasBit mode 32
  { s with
    bold := hasBit mode 8
    size := if wide then .large else if hasBit mode 16 then .tall else .normal
    width := if wide then .wide else .normal
    scale := none }

/-- Half of `n` and one more, rounded to single precision at each operation. -/
def scaleOf (n : Int64) : Single :=
  .ofRat ((Single.ofRat ((Single.ofRat n.toInt).value / 2)).value + 1)

def setSize (s : Style) (n : Int64) : Style := { s with scale := some (scaleOf n) }

def setEmphasis (s : Style) (on : Bool) : Style := { s with bold := on, emphasis := on }

/-- The font size in em. A scale goes before the size of the print mode. -/
def fontSize (s : Style) : Single :=
  match s.scale, s.size with
  | some x, _ => x
  | none, .tall => .two
  | none, .large => .oneAndHalf
  | none, .normal => .one

def isWide (s : Style) : Bool := s.width == .wide

end Style

end ReceiptPrinter
