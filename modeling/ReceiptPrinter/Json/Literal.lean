import ReceiptPrinter.Number.Single

namespace ReceiptPrinter.Json

open Number

/-- A number as it stands in JSON text. An absent fraction is empty. -/
structure Literal where
  negative : Bool
  whole : Text
  fraction : Text
  exponent : Option Int
deriving DecidableEq

namespace Literal

def exponentText (e : Int) : Text :=
  'e' :: (if e < 0 then '-' else '+') :: Text.numeral e.natAbs

def text (l : Literal) : Text :=
  (if l.negative then ['-'] else []) ++ l.whole ++
    (if l.fraction.isEmpty then [] else '.' :: l.fraction) ++
    (l.exponent.map exponentText).getD []

def ofNat (n : Nat) : Literal := ⟨false, Text.numeral n, [], none⟩

/-- The shortest decimal of a finite number. An exponent is written below a millionth and from
ten million million upwards; without one there is always a fraction. -/
def ofSingle (x : Single) : Literal :=
  let d := x.shortest .even
  if -6 < d.point ∧ d.point ≤ 13 then
    ⟨x.negative, d.wholePart, if d.fractionPart.isEmpty then ['0'] else d.fractionPart, none⟩
  else ⟨x.negative, d.figures.take 1, d.figures.drop 1, some (d.point - 1)⟩

def wordLimit : Nat := 0xffffffffffffffff

def digitValue (c : Char) : Nat := c.toNat - '0'.toNat

/-- Appends digits to a 64-bit word for as long as they fit, and returns those left over. -/
def accumulate (word : Nat) : Text → Nat × Text
  | [] => (word, [])
  | c :: rest =>
    let next := 10 * word + digitValue c
    if next ≤ wordLimit then accumulate next rest else (word, c :: rest)

def scaled (l : Literal) : Nat × Int :=
  let whole := accumulate 0 l.whole
  let all := accumulate whole.1 l.fraction
  (all.1, l.exponent.getD 0 + whole.2.length + all.2.length - l.fraction.length)

/-- The literal is an integer that a 64-bit word of its sign holds. -/
def isWord (l : Literal) : Bool :=
  l.fraction.isEmpty && l.exponent.isNone && (accumulate 0 l.whole).2.isEmpty &&
    (!l.negative || (accumulate 0 l.whole).1 ≤ 0x8000000000000000)

def roundDouble (x : Rat) : Option Rat :=
  let code := Binary.double.nearest x
  if code < Binary.double.infinity then some (Binary.double.value code) else none

def tenPower (k : Nat) : Rat := Binary.double.value (Binary.double.nearest ((10 : Rat) ^ (k : Int)))

/-- Scales by a power of ten in double precision, dividing by `10 ^ 308` for as often as the
first argument says before the last step. -/
def rescale : Nat → Rat → Int → Option Rat
  | 0, x, e =>
    if e < 0 then roundDouble (x / tenPower e.natAbs)
    else if e ≤ 308 then roundDouble (x * tenPower e.natAbs)
    else if x = 0 then some 0 else none
  | k + 1, x, e =>
    if x = 0 then some 0
    else (roundDouble (x / tenPower 308)).bind (rescale k · (e + 308))

def double? (l : Literal) : Option Rat :=
  let (word, e) := l.scaled
  (roundDouble word).bind (rescale ((-e - 1).toNat / 308) · e)

/-- A word is rounded once. Any other literal is read in double precision first. -/
def single? (l : Literal) : Option Single :=
  if l.isWord then some (Single.nearest l.negative l.scaled.1)
  else l.double?.map (Single.nearest l.negative)

end Literal

end ReceiptPrinter.Json
