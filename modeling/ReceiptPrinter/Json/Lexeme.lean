import ReceiptPrinter.Json.Literal
import ReceiptPrinter.Text.Hex

namespace ReceiptPrinter.Json

/-- The words of JSON text. A string without a value holds half of a surrogate pair. Nothing
follows an invalid lexeme. -/
inductive Lexeme where
  | arrayOpen
  | arrayClose
  | objectOpen
  | objectClose
  | comma
  | colon
  | null
  | bool (b : Bool)
  | number (l : Literal)
  | string (s : Option Text)
  | invalid
deriving DecidableEq

namespace Lexeme

def isGap (c : Char) : Bool := c == ' ' || c == '\n' || c == '\t' || c == '\r'

inductive CodeUnit where
  | char (c : Char)
  | unit (n : Nat)

def shortEscape : Char → Option Char
  | '"' => some '"'
  | '\\' => some '\\'
  | '/' => some '/'
  | 'b' => some '\x08'
  | 'f' => some '\x0c'
  | 'n' => some '\n'
  | 'r' => some '\r'
  | 't' => some '\t'
  | _ => none

/-- Reads a string from behind its opening quote, and counts the characters up to and with the
closing one. -/
def scanUnits (done : List CodeUnit) (count : Nat) : Text → Option (List CodeUnit × Nat)
  | [] => none
  | '"' :: _ => some (done.reverse, count + 1)
  | '\\' :: 'u' :: a :: b :: c :: d :: rest =>
    match Hex.number? [a, b, c, d] with
    | some n => scanUnits (.unit n :: done) (count + 6) rest
    | none => none
  | '\\' :: e :: rest =>
    match shortEscape e with
    | some c => scanUnits (.char c :: done) (count + 2) rest
    | none => none
  | c :: rest => if c < ' ' then none else scanUnits (.char c :: done) (count + 1) rest

def isHighSurrogate (n : Nat) : Bool := 0xd800 ≤ n && n < 0xdc00

def isLowSurrogate (n : Nat) : Bool := 0xdc00 ≤ n && n < 0xe000

/-- Joins surrogate pairs. One half alone has no character. -/
def joinUnits (done : Text) : List CodeUnit → Option Text
  | [] => some done.reverse
  | .char c :: rest => joinUnits (c :: done) rest
  | .unit n :: rest =>
    if isLowSurrogate n then none
    else if isHighSurrogate n then
      match rest with
      | .unit m :: rest =>
        if isLowSurrogate m then
          joinUnits (Char.ofNat (0x10000 + (n - 0xd800) * 0x400 + (m - 0xdc00)) :: done) rest
        else none
      | _ => none
    else joinUnits (Char.ofNat n :: done) rest

def scanString (t : Text) : Option (Lexeme × Nat) :=
  (scanUnits [] 0 t).map fun (units, n) => (.string (joinUnits [] units), n)

def digits (t : Text) : Text := t.takeWhile Char.isDigit

def scanFraction : Text → Option (Text × Nat)
  | '.' :: rest => if (digits rest).isEmpty then none else some (digits rest, (digits rest).length + 1)
  | _ => some ([], 0)

def scanExponent : Text → Option (Option Int × Nat)
  | c :: rest =>
    if c == 'e' || c == 'E' then
      let signed := rest.head?.any fun c => c == '+' || c == '-'
      let ds := digits (if signed then rest.tail else rest)
      let n : Int := Nat.ofDigitChars 10 ds 0
      if ds.isEmpty then none
      else some (some (if rest.head? = some '-' then -n else n), ds.length + if signed then 2 else 1)
    else some (none, 0)
  | [] => some (none, 0)

/-- Reads a number from its first character on. A leading zero stands alone. -/
def scanNumber (t : Text) : Option (Literal × Nat) :=
  let negative := t.head? = some '-'
  let t := if negative then t.tail else t
  let whole := digits t
  let t := t.drop whole.length
  if whole.isEmpty || whole.head? == some '0' && 1 < whole.length then none
  else
    (scanFraction t).bind fun (fraction, m) =>
      (scanExponent (t.drop m)).map fun (exponent, n) =>
        (⟨negative, whole, fraction, exponent⟩, whole.length + m + n + if negative then 1 else 0)

def scan (c : Char) (rest : Text) : Option (Lexeme × Nat) :=
  match c with
  | '[' => some (.arrayOpen, 0)
  | ']' => some (.arrayClose, 0)
  | '\x7b' => some (.objectOpen, 0)
  | '\x7d' => some (.objectClose, 0)
  | ',' => some (.comma, 0)
  | ':' => some (.colon, 0)
  | '"' => scanString rest
  | 'n' => if ['u', 'l', 'l'].isPrefixOf rest then some (.null, 3) else none
  | 't' => if ['r', 'u', 'e'].isPrefixOf rest then some (.bool true, 3) else none
  | 'f' => if ['a', 'l', 's', 'e'].isPrefixOf rest then some (.bool false, 4) else none
  | _ => (scanNumber (c :: rest)).map fun (l, n) => (.number l, n - 1)

/-- The lexemes of a text behind as many characters as the first argument says. -/
def lexFrom : Nat → Text → List Lexeme
  | _, [] => []
  | k + 1, _ :: rest => lexFrom k rest
  | 0, c :: rest =>
    if isGap c then lexFrom 0 rest
    else
      match scan c rest with
      | some (l, n) => l :: lexFrom n rest
      | none => [.invalid]

def lex (t : Text) : List Lexeme := lexFrom 0 t

end Lexeme

end ReceiptPrinter.Json
