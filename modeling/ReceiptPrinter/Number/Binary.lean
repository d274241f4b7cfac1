namespace ReceiptPrinter.Number

def log2 (x : Rat) : Int :=
  let e : Int := (x.num.natAbs.log2 : Int) - x.den.log2
  if (2 : Rat) ^ e ≤ x then e else e - 1

/-- The nearest natural number, an exact half going to the even one. -/
def roundHalfEven (x : Rat) : Nat :=
  let n := x.floor.toNat
  let rest := x - n
  if rest < 1 / 2 ∨ rest = 1 / 2 ∧ n % 2 = 0 then n else n + 1

/-- A binary floating-point format. Codes number its magnitudes upwards from zero: a code is a
band of equally spaced values and a place in it. -/
structure Binary where
  fraction : Nat
  lowest : Int
  infinity : Nat

namespace Binary

def single : Binary := ⟨23, -149, 0x7f800000⟩

def double : Binary := ⟨52, -1074, 0x7ff0000000000000⟩

def band (b : Binary) : Nat := 1 <<< b.fraction

/-- The value of a code. Infinity stands where the next value would, so that rounding to it needs
no rule of its own. -/
def value (b : Binary) (code : Nat) : Rat :=
  if code < b.band then code * (2 : Rat) ^ b.lowest
  else (b.band + code % b.band : Nat) * (2 : Rat) ^ (b.lowest + (code / b.band : Nat) - 1)

def spacing (b : Binary) (x : Rat) : Int :=
  max b.lowest (log2 x - b.fraction)

def nearest (b : Binary) (x : Rat) : Nat :=
  if x ≤ 0 then 0
  else
    let e := b.spacing x
    min b.infinity ((e - b.lowest).toNat * b.band + roundHalfEven (x / (2 : Rat) ^ e))

/-- The magnitudes that round to one code. Their ends go to the even one of two neighbours. -/
structure Basin where
  low : Rat
  high : Rat
  closed : Bool

def Basin.holds (i : Basin) (x : Rat) : Bool :=
  if i.closed then i.low ≤ x && x ≤ i.high else i.low < x && x < i.high

def basin (b : Binary) (code : Nat) : Basin where
  low := (b.value (code - 1) + b.value code) / 2
  high := (b.value code + b.value (code + 1)) / 2
  closed := code % 2 == 0

end Binary

end ReceiptPrinter.Number
