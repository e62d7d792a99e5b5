/-!
Settings of a console, and what keeps them from being loaded. How a text is read as settings is not laid
down here.
-/

set_option autoImplicit false

namespace CommandGrammar

structure Settings where
  -- How long a single branch may take to answer for completions. Without it every answer is waited
  -- for.
  suggestionTimeoutMs : Option Nat := none
  -- Completions beyond this many are cut off.
  maxSuggestions : Option Nat := none
  deriving DecidableEq, Repr

namespace Settings

def suggestionTimeout (s : Settings) : Option (Nat × Nat) :=
  s.suggestionTimeoutMs.map fun ms => (ms / 1000, ms % 1000 * 1000000)

inductive ReadFailure where
  | missing
  | denied
  | notDirectory
  | directory
  | nameTooLong
  | zeroInName
  | notText
  | other (text : String)
  deriving DecidableEq, Repr

def ReadFailure.message : ReadFailure → String
  | .missing => "No such file or directory (os error 2)"
  | .denied => "Permission denied (os error 13)"
  | .notDirectory => "Not a directory (os error 20)"
  | .directory => "Is a directory (os error 21)"
  | .nameTooLong => "File name too long (os error 36)"
  | .zeroInName => "file name contained an unexpected NUL byte"
  | .notText => "stream did not contain valid UTF-8"
  | .other text => text

inductive LoadError where
  | unreadable (path : String) (failure : ReadFailure)
  | malformed {reason : String}
  deriving DecidableEq, Repr

def LoadError.message : LoadError → String
  | .unreadable path failure => "could not read '" ++ path ++ "': " ++ failure.message
  | @malformed reason => "could not parse config: " ++ reason

def loadText (read : String → Except String Settings) (text : String) : Except LoadError Settings :=
  match read text with
  | .ok s => .ok s
  | .error reason => .error (@LoadError.malformed reason)

def loadFile (read : String → Except String Settings) (path : String)
    (contents : Except ReadFailure String) : Except LoadError Settings :=
  match contents with
  | .ok text => loadText read text
  | .error failure => .error (.unreadable path failure)

end Settings

end CommandGrammar
