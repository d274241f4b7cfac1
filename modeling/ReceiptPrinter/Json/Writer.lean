import ReceiptPrinter.Json.Value

namespace ReceiptPrinter.Json

def escape (c : Char) : Text :=
  if c = '"' then ['\\', '"']
  else if c = '\\' then ['\\', '\\']
  else if c = '\n' then ['\\', 'n']
  else if c = '\r' then ['\\', 'r']
  else if c = '\t' then ['\\', 't']
  else if c = '\x08' then ['\\', 'b']
  else if c = '\x0c' then ['\\', 'f']
  else if c < ' ' then
    ['\\', 'u', '0', '0', Nat.digitChar (c.toNat / 16), Nat.digitChar (c.toNat % 16)]
  else [c]

def quote (t : Text) : Text := '"' :: (t.flatMap escape ++ ['"'])

namespace Value

def atomText : Value → Text
  | .null => ['n', 'u', 'l', 'l']
  | .bool true => ['t', 'r', 'u', 'e']
  | .bool false => ['f', 'a', 'l', 's', 'e']
  | .number l => l.text
  | .string (some s) => quote s
  | _ => []

def bracketed (opening closing : Char) (parts : List Text) : Text :=
  opening :: (List.intercalate [','] parts ++ [closing])

def newLine (level : Nat) : Text := '\n' :: Text.spaces (2 * level)

/-- Each part on a line of its own, one level further in. Nothing stays between the brackets when
there are no parts. -/
def stacked (level : Nat) (opening closing : Char) (parts : List Text) : Text :=
  if parts.isEmpty then [opening, closing]
  else opening :: (List.intercalate [','] (parts.map (newLine (level + 1) ++ ·)) ++
    newLine level ++ [closing])

mutual

def compact : Value → Text
  | .array items => bracketed '[' ']' (compactItems items)
  | .object members => bracketed '\x7b' '\x7d' (compactMembers members)
  | v => v.atomText

def compactItems : List Value → List Text
  | [] => []
  | v :: rest => v.compact :: compactItems rest

def compactMembers : List Member → List Text
  | [] => []
  | (k, v) :: rest => (quote (k.getD []) ++ ':' :: v.compact) :: compactMembers rest

end

mutual

def indented (level : Nat) : Value → Text
  | .array items => stacked level '[' ']' (indentedItems (level + 1) items)
  | .object members => stacked level '\x7b' '\x7d' (indentedMembers (level + 1) members)
  | v => v.atomText

def indentedItems (level : Nat) : List Value → List Text
  | [] => []
  | v :: rest => v.indented level :: indentedItems level rest

def indentedMembers (level : Nat) : List Member → List Text
  | [] => []
  | (k, v) :: rest =>
    (quote (k.getD []) ++ ':' :: ' ' :: v.indented level) :: indentedMembers level rest

end

end Value

end ReceiptPrinter.Json
