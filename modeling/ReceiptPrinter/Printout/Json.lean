import ReceiptPrinter.Style.Json
import ReceiptPrinter.Printout.Basic

namespace ReceiptPrinter

open Json

namespace Notice

def named (t : Text) : Option Notice :=
  [initialized, drawerOpened, paperCut, qrGenerated].find? (·.message == t)

def toValue (n : Notice) : Value := .ofText n.message

end Notice

namespace Token

def kindKey : Text := "type".toList

def styleKey : Text := "style".toList

def textKind : Text := "text".toList

def qrKind : Text := "qr".toList

def members : Token → List (Text × Value)
  | .text c s => [(kindKey, .ofText textKind), ("content".toList, .ofText c), (styleKey, s.toValue)]
  | .qr n s => [(kindKey, .ofText qrKind), ("size".toList, .ofNat n.toNat), (styleKey, s.toValue)]

def toValue (t : Token) : Value := .ofMembers t.members

def size? : Value → Option UInt32
  | .number l =>
    if l.isWord && !l.negative && l.scaled.1 < UInt32.size then some (.ofNat l.scaled.1) else none
  | _ => none

/-- An empty object counts as nothing in the style of a token. -/
def ofParts? (kind body style : Value) : Option Token := do
  let kind ← kind.text?
  let style ← Style.ofValue? Value.isVoid style
  if kind = textKind then return .text (← body.text?) style
  else if kind = qrKind then return .qr (← size? body) style
  else none

def bodyKey (kind : Value) : Text :=
  if kind.text? = some qrKind then "size".toList else "content".toList

/-- The kind decides which other keys count, so it may stand anywhere. -/
def ofValue? : Value → Option Token
  | .object ms => do
    let kind ← Value.only kindKey ms
    ofParts? kind (← Value.only (bodyKey kind) ms) (← Value.only styleKey ms)
  | .array [kind, body, style] => ofParts? kind body style
  | _ => none

end Token

namespace Printout

def tokensKey : Text := "tokens".toList

def logKey : Text := "log".toList

def toValue (p : Printout) : Value :=
  .ofMembers [(tokensKey, .array (p.tokens.map Token.toValue)),
    (logKey, .array (p.log.map Notice.toValue))]

def json (p : Printout) : Text := p.toValue.compact

/-- Values are nested this deep at most, a value on its own being at level one. -/
def depthLimit : Nat := 127

def tokens? : Value → Option (List Token)
  | .array items =>
    items.mapM fun v => if v.storable (depthLimit - 2) then Token.ofValue? v else none
  | _ => none

def log? : Value → Option (List Notice)
  | .array items => items.mapM (Value.name? Value.isNull Notice.named)
  | _ => none

def ofValue? : Value → Option Printout
  | .object ms => do
    guard (Value.keyed ms)
    return ⟨← tokens? (← Value.only tokensKey ms), ← log? (← Value.only logKey ms)⟩
  | .array [tokens, log] => do return ⟨← tokens? tokens, ← log? log⟩
  | _ => none

end Printout

end ReceiptPrinter
