import ReceiptPrinter.Json.Reader

namespace ReceiptPrinter.Json

/-- Why data cannot be read: the text is not JSON, or it is JSON of another shape. -/
inductive Fault where
  | malformed
  | unsuitable
deriving DecidableEq

namespace Value

/-- The fault of a value that stands where one of another kind was due. It is read for its kind
only, so the parts of an array or object do not count. -/
def fault : Value → Fault
  | .number l => if l.isWord || l.double?.isSome then .unsuitable else .malformed
  | .string none => .malformed
  | .broken => .malformed
  | _ => .unsuitable

def readText : Value → Except Fault Text
  | .string (some t) => .ok t
  | v => .error v.fault

def isNull : Value → Bool
  | .null => true
  | _ => false

def isVoid : Value → Bool
  | .null => true
  | .object [] => true
  | _ => false

/-- One of a set of names: the name itself, or an object whose one member has it for a key and
nothing for a value, with what counts as nothing given. -/
def readName (nothing : Value → Bool) (named : Text → Option α) : Value → Except Fault α
  | .string (some t) => ((named t).map .ok).getD (.error .unsuitable)
  | .object ((some k, v) :: rest) =>
    match named k with
    | none => .error .unsuitable
    | some a => if !nothing v then .error v.fault else if rest.isEmpty then .ok a else .error .malformed
  -- a key that is no string is against the syntax, whatever it is instead
  | _ => .error .malformed

def readMembers (read : σ → Text → Value → Except Fault σ) (s : σ) : List Member → Except Fault σ
  | [] => .ok s
  | (none, _) :: _ => .error .malformed
  | (some k, v) :: rest => (read s k v).bind fun s => readMembers read s rest

def bool? : Value → Option Bool
  | .bool b => some b
  | _ => none

def text? : Value → Option Text
  | .string s => s
  | _ => none

def name? (nothing : Value → Bool) (named : Text → Option α) (v : Value) : Option α :=
  (readName nothing named v).toOption

def keyed (ms : List Member) : Bool := ms.all (·.1.isSome)

def withKey (key : Text) (ms : List Member) : List Value :=
  ms.filterMap fun (k, v) => if k = some key then some v else none

def whole? (t : Text) : Option Value :=
  match read t with
  | (v, []) => if v.intact then some v else none
  | _ => none

def only (key : Text) (ms : List Member) : Option Value :=
  match withKey key ms with
  | [v] => some v
  | _ => none

end Value

end ReceiptPrinter.Json
