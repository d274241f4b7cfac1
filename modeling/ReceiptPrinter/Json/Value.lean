import ReceiptPrinter.Json.Lexeme

namespace ReceiptPrinter.Json

/-- A JSON value as far as its text goes. Where the text stops being JSON the value is broken,
and every array or object around that place ends there. A key of a member has no value where a
string with half of a surrogate pair or no string at all stands for it. -/
inductive Value where
  | null
  | bool (b : Bool)
  | number (l : Literal)
  | string (s : Option Text)
  | array (items : List Value)
  | object (members : List (Option Text × Value))
  | broken

abbrev Member := Option Text × Value

namespace Value

def ofText (t : Text) : Value := .string (some t)

def ofNat (n : Nat) : Value := .number (.ofNat n)

def ofMembers (ms : List (Text × Value)) : Value := .object (ms.map fun (k, v) => (some k, v))

mutual

/-- The value was read to its end. Its text need not consist of characters. -/
def intact : Value → Bool
  | .array items => intactItems items
  | .object members => intactMembers members
  | .broken => false
  | _ => true

def intactItems : List Value → Bool
  | [] => true
  | v :: rest => v.intact && intactItems rest

def intactMembers : List Member → Bool
  | [] => true
  | (_, v) :: rest => v.intact && intactMembers rest

end

mutual

/-- The value can be kept as data: its text has characters only, its numbers are within double
precision, and it is nested no deeper than given. -/
def storable (levels : Nat) : Value → Bool
  | .null => true
  | .bool _ => true
  | .number l => l.isWord || l.double?.isSome
  | .string s => s.isSome
  | .array items => 0 < levels && storableItems (levels - 1) items
  | .object members => 0 < levels && storableMembers (levels - 1) members
  | .broken => false

def storableItems (levels : Nat) : List Value → Bool
  | [] => true
  | v :: rest => v.storable levels && storableItems levels rest

def storableMembers (levels : Nat) : List Member → Bool
  | [] => true
  | (k, v) :: rest => k.isSome && v.storable levels && storableMembers levels rest

end

end Value

end ReceiptPrinter.Json
