import ReceiptPrinter.Number.Binary
import ReceiptPrinter.Number.Decimal

namespace ReceiptPrinter.Number

/-- A single-precision number: a sign and the code of a magnitude, infinity included. -/
structure Single where
  negative : Bool
  code : Nat
  code_le : code ≤ Binary.single.infinity := by decide
deriving DecidableEq

namespace Single

def isFinite (x : Single) : Bool := x.code < Binary.single.infinity

def magnitude (x : Single) : Rat := Binary.single.value x.code

def value (x : Single) : Rat := if x.negative then -x.magnitude else x.magnitude

theorem nearest_le (b : Binary) (x : Rat) : b.nearest x ≤ b.infinity := by
  unfold Binary.nearest
  split
  · exact Nat.zero_le _
  · exact Nat.min_le_left _ _

def nearest (negative : Bool) (magnitude : Rat) : Single where
  negative := negative
  code := Binary.single.nearest magnitude
  code_le := nearest_le _ _

/-- Rounds a result of arithmetic. An exact zero is positive. -/
def ofRat (x : Rat) : Single := nearest (x < 0) (if x < 0 then -x else x)

def one : Single := ⟨false, 0x3f800000, by decide⟩

def oneAndHalf : Single := ⟨false, 0x3fc00000, by decide⟩

def two : Single := ⟨false, 0x40000000, by decide⟩

/-- How an exact half between two shortest decimals is settled. -/
inductive Tie where
  | even
  | up

def Tie.choose (tie : Tie) (n : Nat) : Nat :=
  match tie with
  | .even => n + n % 2
  | .up => n + 1

/-- The multiple of `10 ^ e` nearest to `x` among the two around it that lie in the basin. -/
def onGrid (i : Binary.Basin) (tie : Tie) (x : Rat) (e : Int) : Option Nat :=
  let step := (10 : Rat) ^ e
  let n := (x / step).floor.toNat
  let below := n * step
  let above := (n + 1) * step
  match i.holds below, i.holds above with
  | false, false => none
  | true, false => some n
  | false, true => some (n + 1)
  | true, true =>
    if x - below < above - x then some n
    else if above - x < x - below then some (n + 1)
    else some (tie.choose n)

/-- Tries coarser grids first, so that the first multiple found has the fewest digits. -/
def search (i : Binary.Basin) (tie : Tie) (x : Rat) : Nat → Int → Decimal
  | 0, e => ⟨(x / (10 : Rat) ^ e).floor.toNat, e⟩
  | k + 1, e =>
    match onGrid i tie x e with
    | some n => ⟨n, e⟩
    | none => search i tie x k (e - 1)

/-- The shortest decimal that rounds to the magnitude of a finite number, and of those the
nearest. The grids reach from the largest magnitude down past the smallest. -/
def shortest (tie : Tie) (x : Single) : Decimal :=
  if x.code = 0 then ⟨0, 0⟩
  else search (Binary.single.basin x.code) tie x.magnitude 84 38

def plainText (x : Single) : Text :=
  (if x.negative then ['-'] else []) ++
    if x.isFinite then (x.shortest .up).plain else ['i', 'n', 'f']

end Single

end ReceiptPrinter.Number
