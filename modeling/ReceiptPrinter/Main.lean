import ReceiptPrinter.CommandLine.Basic

open ReceiptPrinter ReceiptPrinter.CommandLine

namespace ReceiptPrinter.Main

def fault : IO.Error → ReadFault
  | .noFileOrDirectory _ code text => told text code
  | .inappropriateType _ code text => told text code
  | .permissionDenied _ code text => told text code
  | .invalidArgument _ code text => told text code
  | e => ⟨e.toString.toList⟩
where
  told (text : String) (code : UInt32) : ReadFault :=
    ⟨text.toList ++ " (os error ".toList ++ Text.numeral code.toNat ++ [')']⟩

def reading (action : IO ByteArray) : IO Reading := do
  try return .ok (← action).toList
  catch e => return .error (fault e)

def read : Source → IO Reading
  | .input => do reading (← IO.getStdin).readBinToEnd
  | .file path => reading (IO.FS.readBinFile (String.ofList path))
  | .sample _ => return .ok []

/-- What the arguments ask to be read, and nothing else, stands for all that can be read, which makes no
difference to a run (`run_congr`). -/
def surroundings (args : List Text) : IO Surroundings := do
  match readArguments args with
  | .ok (.print o) =>
    let r ← read o.source
    return ⟨r, fun _ => r⟩
  | _ => return ⟨.ok [], fun _ => .ok []⟩

end ReceiptPrinter.Main

def main (args : List String) : IO UInt32 := do
  let args := args.map String.toList
  let r := run args (← ReceiptPrinter.Main.surroundings args)
  IO.print (String.ofList r.stdout)
  IO.eprint (String.ofList (r.stderr.getD []))
  return .ofNat r.code
