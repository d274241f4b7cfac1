import ReceiptPrinter.Paper
import ReceiptPrinter.Service.MediaType
import ReceiptPrinter.Service.Request

namespace ReceiptPrinter

open Json

inductive Rejection where
  | notJson
  | tooLarge
  | fault (f : Fault)
deriving DecidableEq

def Rejection.status : Rejection → Nat
  | .notJson => 415
  | .tooLarge => 413
  | .fault .malformed => 400
  | .fault .unsuitable => 422

namespace Body

def sizeLimit : Nat := 2097152

/-- What stands behind the value does not count. -/
def read (decode : Value → Except Fault α) (r : Request) : Except Rejection α :=
  if !r.contentType.any MediaType.isJson then .error .notJson
  else if sizeLimit < r.body.length then .error .tooLarge
  else (decode (Value.readBytes r.body).1).mapError .fault

def readOption (read : Value → Except Fault α) (v : Value) : Except Fault (Option α) :=
  if v.isNull then .ok none else (read v).map some

def once (field : Option α) (read : Except Fault α) : Except Fault (Option α) :=
  if field.isSome then .error .unsuitable else read.map some

def skip (s : α) (v : Value) : Except Fault α := if v.intact then .ok s else .error .malformed

end Body

structure ParseRequest where
  script : Option Text
  paper : Option Paper
deriving DecidableEq

namespace ParseRequest

structure Draft where
  script : Option (Option Text) := none
  paper : Option (Option Paper) := none

def readScript (v : Value) : Except Fault (Option Text) := Body.readOption Value.readText v

def readPaper (v : Value) : Except Fault (Option Paper) :=
  Body.readOption (Value.readName Value.isNull Paper.named) v

def readMember (d : Draft) (key : Text) (v : Value) : Except Fault Draft :=
  if key = "script".toList then
    (Body.once d.script (readScript v)).map fun script => { d with script }
  else if key = "paper".toList then
    (Body.once d.paper (readPaper v)).map fun paper => { d with paper }
  else Body.skip d v

/-- Reads an object, or an array of the fields in order. Either field may be left out. -/
def ofValue : Value → Except Fault ParseRequest
  | .object ms => (Value.readMembers readMember {} ms).map fun d => ⟨d.script.join, d.paper.join⟩
  | .array [] => .ok ⟨none, none⟩
  | .array [script] => (readScript script).map fun s => ⟨s, none⟩
  | .array (script :: paper :: rest) =>
    (readScript script).bind fun s => (readPaper paper).bind fun p =>
      if rest.isEmpty then .ok ⟨s, p⟩ else .error .malformed
  | v => .error v.fault

end ParseRequest

structure PaperRequest where
  name : Text
deriving DecidableEq

namespace PaperRequest

def readMember (d : Option Text) (key : Text) (v : Value) : Except Fault (Option Text) :=
  if key = "name".toList then Body.once d v.readText else Body.skip d v

def ofValue : Value → Except Fault PaperRequest
  | .object ms =>
    (Value.readMembers readMember none ms).bind fun
      | some name => .ok ⟨name⟩
      | none => .error .unsuitable
  | .array [] => .error .unsuitable
  | .array (name :: rest) =>
    name.readText.bind fun name => if rest.isEmpty then .ok ⟨name⟩ else .error .malformed
  | v => .error v.fault

end PaperRequest

end ReceiptPrinter
