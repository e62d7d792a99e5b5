import CommandGrammar.Demo.Session

set_option autoImplicit false

namespace CommandGrammar.Demo

def errorNumber (code : UInt32) : Nat :=
  if code.toNat < Nat.pow 2 31 then code.toNat else Nat.pow 2 32 - code.toNat

def readFailure : IO.Error → Settings.ReadFailure
  | .noFileOrDirectory .. => .missing
  | .permissionDenied .. => .denied
  | .inappropriateType _ code _ => if errorNumber code == 20 then .notDirectory else .directory
  | .invalidArgument _ _ "name too long" => .nameTooLong
  | e => .other (toString e)

def readSettings (path : String) : IO (Except Settings.ReadFailure String) := do
  match ← (IO.FS.readBinFile path).toBaseIO with
  | .error e => return .error (readFailure e)
  | .ok bytes =>
    match String.fromUTF8? bytes with
    | some text => return .ok text
    | none => return .error .notText

def serve (request : Request) : IO UInt32 := do
  let contents : Except Settings.ReadFailure String ← match request with
    | .perform { config := some path, .. } _ _ _ => readSettings path
    | _ => pure (.ok "")
  let stdin ← match request with
    | .perform _ .repl _ _ => (← IO.getStdin).readToEnd
    | _ => pure ""
  let outcome := respond request (fun _ => contents) stdin
  IO.print outcome.stdout
  IO.eprint outcome.stderr
  return UInt32.ofNat outcome.code

end CommandGrammar.Demo

def main (arguments : List String) : IO UInt32 :=
  CommandGrammar.Demo.serve (.ofArguments arguments)
