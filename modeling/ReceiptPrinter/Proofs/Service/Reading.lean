import ReceiptPrinter.Proofs.Printout.RoundTrip
import ReceiptPrinter.Service.Basic

namespace ReceiptPrinter

open Json

def Json.Value.member? (key : Text) : Value → Option Value
  | .object ms => Value.only key ms
  | _ => none

def Json.Value.css? : Value → Option (List Text)
  | .array items => items.mapM fun v => (v.member? "css".toList).bind Value.text?
  | _ => none

namespace Response

def value? (a : Response) : Option Value := a.body.bind Value.whole?

def member? (key : Text) (a : Response) : Option Value := a.value?.bind (Value.member? key)

def printout? (a : Response) : Option Printout := a.body.bind Printout.read?

def css? (a : Response) : Option (List Text) := (a.member? Printout.tokensKey).bind Value.css?

def paper? (key : Text) (a : Response) : Option Paper :=
  (a.member? key).bind (Value.name? Value.isNull Paper.named)

def preview? (a : Response) : Option Text := (a.member? "preview".toList).bind Value.text?

end Response

theorem Paper.named_name (p : Paper) : named p.name = some p := by
  cases p <;> decide

theorem Paper.name?_toValue (p : Paper) : p.toValue.name? Value.isNull named = some p :=
  Value.name?_ofText Value.isNull p.named_name

theorem Paper.isWritten_info (p : Paper) : p.info.IsWritten := by
  apply Value.IsWritten.object
  simp only [List.forall_mem_cons]
  exact ⟨.text _, .number Literal.isWritten_ofNat, .number Literal.isWritten_ofNat,
    .number Literal.isWritten_ofNat, by simp⟩

namespace Service

theorem value?_found {v : Value} (h : v.IsWritten) : (found v).value? = some v :=
  h.whole?_of_read h.read_compact

theorem member?_found {v : Value} (h : v.IsWritten) (key : Text) :
    (found v).member? key = v.member? key := by
  rw [Response.member?, value?_found h, Option.bind_some]

theorem printout?_found {v : Value} (h : v.IsWritten) :
    (found v).printout? = Printout.ofValue? v :=
  Printout.read?_of_read h h.read_compact

theorem paper?_info (p : Paper) : (found p.info).paper? "name".toList = some p := by
  rw [Response.paper?, member?_found p.isWritten_info]
  exact p.name?_toValue

section Token

variable (t : Token)

theorem isWritten_tokenValue : (tokenValue t).IsWritten := by
  apply Value.IsWritten.object
  rw [List.forall_mem_append]
  exact ⟨t.isWritten_members, List.forall_mem_singleton.mpr (.text _)⟩

theorem storable_tokenValue (levels : Nat) : (tokenValue t).storable (levels + 2) = true := by
  apply Value.storable_ofMembers
  rw [List.forall_mem_append]
  exact ⟨t.storable_members levels, List.forall_mem_singleton.mpr rfl⟩

theorem ofValue?_tokenValue : Token.ofValue? (tokenValue t) = some t.settled := by
  cases t with
  | text c s => exact Token.ofParts?_text c s
  | qr n s => exact Token.ofParts?_qr n s

end Token

theorem css?_tokenValue (t : Token) :
    ((tokenValue t).member? "css".toList).bind Value.text? = some t.style.css := by
  cases t <;> rfl

theorem css?_map (ts : List Token) :
    Value.css? (.array (ts.map tokenValue)) = some (ts.map fun t => t.style.css) :=
  mapM_map_eq fun t _ => css?_tokenValue t

section Parse

variable {p : Printout} (paper : Paper)

theorem isWritten_parseValue : (parseValue paper p).IsWritten := by
  apply Value.IsWritten.object
  simp only [List.forall_mem_cons]
  refine ⟨.text _, .array ?_, .array ?_, .text _, by simp⟩
  · rw [List.forall_mem_map]
    exact fun t _ => isWritten_tokenValue t
  · rw [List.forall_mem_map]
    exact fun n _ => .text n.message

theorem printout?_parseValue (h : p.IsFinite) : (found (parseValue paper p)).printout? = some p := by
  have ht : Printout.tokens? (.array (p.tokens.map tokenValue)) = some (p.tokens.map Token.settled) :=
    Printout.tokens?_map (storable_tokenValue · 123) ofValue?_tokenValue p.tokens
  have hp : Printout.ofValue? (parseValue paper p) = do
      return ⟨← Printout.tokens? (.array (p.tokens.map tokenValue)),
        ← Printout.log? (.array (p.log.map Notice.toValue))⟩ := rfl
  rw [printout?_found (isWritten_parseValue paper), hp, ht, Printout.log?_map]
  exact congrArg some (Printout.settled_eq_self_iff.mpr h)

theorem css?_parseValue :
    (found (parseValue paper p)).css? = some (p.tokens.map fun t => t.style.css) := by
  rw [Response.css?, member?_found (isWritten_parseValue paper)]
  exact css?_map p.tokens

theorem paper?_parseValue : (found (parseValue paper p)).paper? "paper".toList = some paper := by
  rw [Response.paper?, member?_found (isWritten_parseValue paper)]
  exact paper.name?_toValue

theorem preview?_parseValue : (found (parseValue paper p)).preview? = some (p.preview paper) := by
  rw [Response.preview?, member?_found (isWritten_parseValue paper)]
  rfl

end Parse

end Service

end ReceiptPrinter
