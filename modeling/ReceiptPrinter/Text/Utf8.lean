import ReceiptPrinter.Text.Basic

namespace ReceiptPrinter.Utf8

structure Begun where
  value : Nat
  missing : Nat
  low : Nat := 0x80
  high : Nat := 0xbf

/-- The start of a character. The bounds leave out overlong forms, surrogates and numbers above
the last character. -/
def lead (b : Nat) : Option Begun :=
  if b < 0x80 then some { value := b, missing := 0 }
  else if b < 0xc2 then none
  else if b < 0xe0 then some { value := b - 0xc0, missing := 1 }
  else if b = 0xe0 then some { value := 0, missing := 2, low := 0xa0 }
  else if b = 0xed then some { value := 0xd, missing := 2, high := 0x9f }
  else if b < 0xf0 then some { value := b - 0xe0, missing := 2 }
  else if b = 0xf0 then some { value := 0, missing := 3, low := 0x90 }
  else if b < 0xf4 then some { value := b - 0xf0, missing := 3 }
  else if b = 0xf4 then some { value := 4, missing := 3, high := 0x8f }
  else none

def extend (p : Begun) (b : Nat) : Option Begun :=
  if p.low ≤ b ∧ b ≤ p.high then some { value := p.value * 64 + (b - 0x80), missing := p.missing - 1 }
  else none

def settle (p : Begun) : List (Option Char) × Option Begun :=
  if p.missing = 0 then ([some (Char.ofNat p.value)], none) else ([], some p)

def fresh (b : Nat) : List (Option Char) × Option Begun :=
  match lead b with
  | some p => settle p
  | none => ([none], none)

/-- Takes a byte. One that does not continue an open character ends it and starts anew. -/
def step (state : Option Begun) (b : Nat) : List (Option Char) × Option Begun :=
  match state with
  | none => fresh b
  | some p =>
    match extend p b with
    | some q => settle q
    | none => (none :: (fresh b).1, (fresh b).2)

def scan (state : Option Begun) : List UInt8 → List (Option Char)
  | [] => if state.isSome then [none] else []
  | b :: rest => (step state b.toNat).1 ++ scan (step state b.toNat).2 rest

/-- The characters that bytes encode, with a gap for each longest stretch that starts no
character to its end. -/
def scalars (bytes : List UInt8) : List (Option Char) := scan none bytes

def decode? (bytes : List UInt8) : Option Text := (scalars bytes).mapM id

def decodeLossy (bytes : List UInt8) : Text := (scalars bytes).map (·.getD '\ufffd')

def encode (t : Text) : List UInt8 := t.flatMap String.utf8EncodeChar

end ReceiptPrinter.Utf8
