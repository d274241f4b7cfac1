import ReceiptPrinter.Text.Percent

namespace ReceiptPrinter

inductive Method where
  | get
  | head
  | post
  | put
  | other
deriving DecidableEq

def Method.ofName (t : Text) : Method :=
  if t = "GET".toList then .get else if t = "HEAD".toList then .head
  else if t = "POST".toList then .post else if t = "PUT".toList then .put else .other

structure Request where
  method : Method
  path : Text
  contentType : Option Text := none
  body : List UInt8 := []
deriving DecidableEq

/-- A status, and the text of the answer unless that is left open. -/
structure Response where
  status : Nat
  body : Option Text := none
deriving DecidableEq

/-- What the service can be asked for. A sample is named by an undecoded segment of the path. -/
inductive Resource where
  | parse
  | samples
  | sample (segment : Text)
  | papers
  | paper
deriving DecidableEq

namespace Resource

def ofSegments : List Text → Option Resource
  | [[], api, a] =>
    if api ≠ "api".toList then none
    else if a = "parse".toList then some .parse
    else if a = "samples".toList then some .samples
    else if a = "paper-sizes".toList then some .papers
    else if a = "paper".toList then some .paper
    else none
  | [[], api, a, b] =>
    if api = "api".toList ∧ a = "samples".toList ∧ b ≠ [] then some (.sample b) else none
  | _ => none

/-- A query does not count, nor does what follows a number sign. -/
def ofPath (path : Text) : Option Resource :=
  ofSegments (Text.splitOn (· == '/') (path.takeWhile fun c => c != '?' && c != '#'))

end Resource

end ReceiptPrinter
