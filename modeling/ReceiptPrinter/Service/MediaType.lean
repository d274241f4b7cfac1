import ReceiptPrinter.Text.Basic

namespace ReceiptPrinter.MediaType

def isToken (c : Char) : Bool :=
  c.isAlphanum || "!#$%&'*+-.^_".toList.contains c || c == '\x60' || c == '|' || c == '~'

/-- A character inside quotes. A backslash is one like any other. -/
def isQuotable (c : Char) : Bool := ' ' ≤ c && c ≤ '~'

/-- Places in a list of parameters. Quotes hold at least one character, which may be a quote. -/
inductive Place where
  | gap
  | name
  | equals
  | value
  | opened
  | quoted
  | closed
deriving DecidableEq

def Place.next (p : Place) (c : Char) : Option Place :=
  match p with
  | .gap => if c == ' ' then some .gap else if isToken c then some .name else none
  | .name => if c == '=' then some .equals else if isToken c then some .name else none
  | .equals => if c == '"' then some .opened else if isToken c then some .value else none
  | .value => if c == ';' then some .gap else if isToken c then some .value else none
  | .opened => if isQuotable c then some .quoted else none
  | .quoted => if c == '"' then some .closed else if isQuotable c then some .quoted else none
  | .closed => if c == ';' then some .gap else if c == ' ' then some .closed else none

def Place.mayEnd : Place → Bool
  | .name => false
  | .opened => false
  | .quoted => false
  | _ => true

def isParameters (t : Text) : Bool := (t.foldlM Place.next .gap).any Place.mayEnd

def json : Text := "json".toList

/-- A subtype is divided at its last plus sign, unless that comes first. -/
def isJsonSubtype (t : Text) : Bool :=
  let suffix := (t.reverse.takeWhile (· != '+')).reverse
  let name := (t.reverse.drop (suffix.length + 1)).reverse
  if name.isEmpty then t == json else name == json || suffix == json

def endsWell : Text → Bool
  | [] => true
  | c :: rest => c == ';' && isParameters rest

def isJson (t : Text) : Bool :=
  let t := Text.lowerAscii t
  let subtype := (t.drop "application/".length).takeWhile isToken
  "application/".toList.isPrefixOf t && isJsonSubtype subtype &&
    endsWell (t.drop ("application/".length + subtype.length))

end ReceiptPrinter.MediaType
