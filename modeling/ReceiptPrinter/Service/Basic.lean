import ReceiptPrinter.Preview
import ReceiptPrinter.Printout.Json
import ReceiptPrinter.Script.Basic
import ReceiptPrinter.Script.Sample
import ReceiptPrinter.Service.Body

namespace ReceiptPrinter.Service

open Json

def found (v : Value) : Response := ⟨200, some v.compact⟩

def rejected (r : Rejection) : Response := ⟨r.status, none⟩

def tokenValue (t : Token) : Value :=
  .ofMembers (t.members ++ [("css".toList, .ofText t.style.css)])

def parseValue (paper : Paper) (p : Printout) : Value :=
  .ofMembers [("paper".toList, paper.toValue), (Printout.tokensKey, .array (p.tokens.map tokenValue)),
    (Printout.logKey, .array (p.log.map Notice.toValue)), ("preview".toList, .ofText (p.preview paper))]

def parse (active : Paper) (r : Request) : Response :=
  match Body.read ParseRequest.ofValue r with
  | .error e => rejected e
  | .ok q => found (parseValue (q.paper.getD active) (Script.print (q.script.getD Sample.standard.script)))

def samples : Response := found (.array (Sample.all.map fun s => .ofText s.name))

def sampleValue (name : Text) (s : Sample) : Value :=
  .ofMembers [("name".toList, .ofText name), ("script".toList, .ofText s.script)]

def sample (segment : Text) : Response :=
  match Percent.decode? segment with
  | none => ⟨400, none⟩
  | some name =>
    match Sample.named name with
    | some s => found (sampleValue name s)
    | none => ⟨404, some (Sample.unknownText name)⟩

def papers : Response := found (.array (Paper.all.map Paper.info))

def activePaper (active : Paper) : Response := found active.info

def choosePaper (active : Paper) (r : Request) : Response × Paper :=
  match Body.read PaperRequest.ofValue r with
  | .error e => (rejected e, active)
  | .ok q =>
    match Paper.parse? q.name with
    | some p => (found p.info, p)
    | none => (⟨400, some (Paper.unknownText q.name)⟩, active)

/-- The answer to a request for the head alone: the text is empty, and a failure has none. -/
def headOf (r : Response) : Response :=
  if r.status = 200 then ⟨200, some []⟩ else ⟨r.status, none⟩

def get (active : Paper) : Resource → Option Response
  | .parse => none
  | .samples => some samples
  | .sample segment => some (sample segment)
  | .papers => some papers
  | .paper => some (activePaper active)

def notFound : Response := ⟨404, none⟩

def notAllowed : Response := ⟨405, none⟩

def answer (active : Paper) (r : Request) : Response × Paper :=
  match Resource.ofPath r.path with
  | none => (notFound, active)
  | some resource =>
    match r.method, resource with
    | .get, _ => (((get active resource).getD notAllowed), active)
    | .head, _ => (((get active resource).map headOf).getD notAllowed, active)
    | .post, .parse => (parse active r, active)
    | .put, .paper => choosePaper active r
    | _, _ => (notAllowed, active)

def serve (active : Paper) : List Request → List Response
  | [] => []
  | r :: rest => (answer active r).1 :: serve (answer active r).2 rest

end ReceiptPrinter.Service
