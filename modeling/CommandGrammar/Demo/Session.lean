import CommandGrammar.Demo.Console
import CommandGrammar.Json.Writing
import CommandGrammar.Settings.Document

/-!
The program as a function. Its arguments are options, a subcommand with options of its own, and the words of
a command line; options that every subcommand takes may stand on either side of its name.
-/

set_option autoImplicit false

namespace CommandGrammar.Demo

inductive Setting where
  | output
  | logLevel
  | config
  | suggestTimeout
  | user
  | cursor
  deriving DecidableEq, Repr

inductive Switch where
  | quiet
  | operator
  deriving DecidableEq, Repr

structure Given where
  output : Option Format := none
  logLevel : Option String := none
  config : Option String := none
  suggestTimeoutMs : Option Nat := none
  user : Option String := none
  cursor : Option Nat := none
  quiet : Bool := false
  operator : Bool := false
  deriving DecidableEq, Repr

inductive Request where
  | perform (options : Options) (subcommand : Subcommand) (cursor : Option Nat) (words : List String)
  | showVersion
  | showHelp
  | refuse
  deriving DecidableEq, Repr

def unsigned? (s : String) : Option Nat :=
  let digits := match s.toList with
    | '+' :: rest => rest
    | cs => cs
  if digits.isEmpty || !digits.all Char.isDigit then none
  else
    let n := digits.foldl (fun n c => 10 * n + (c.toNat - '0'.toNat)) 0
    if n < Nat.pow 2 64 then some n else none

def Format.ofName? : String → Option Format
  | "text" => some .text
  | "json" => some .json
  | _ => none

def Subcommand.ofName? : String → Option Subcommand
  | "run" => some .run
  | "suggest" => some .suggest
  | "usage" => some .usage
  | "ranges" => some .ranges
  | "repl" => some .repl
  | _ => none

namespace Subcommand

def takesWords : Subcommand → Bool
  | .repl => false
  | _ => true

def needsWords : Subcommand → Bool
  | .run => true
  | .ranges => true
  | _ => false

end Subcommand

namespace Given

-- Gives a value to an option. An option can be given once at a level, and not every value will do.
def set? (g : Given) (setting : Setting) (value : String) : Option Given :=
  match setting with
  | .output =>
    if g.output.isSome then none
    else (Format.ofName? value).map fun format => { g with output := some format }
  | .logLevel => if g.logLevel.isSome then none else some { g with logLevel := some value }
  | .config =>
    if g.config.isSome || value.isEmpty then none else some { g with config := some value }
  | .suggestTimeout =>
    if g.suggestTimeoutMs.isSome then none
    else (unsigned? value).map fun n => { g with suggestTimeoutMs := some n }
  | .user => if g.user.isSome then none else some { g with user := some value }
  | .cursor =>
    if g.cursor.isSome then none
    else (unsigned? value).map fun n => { g with cursor := some n }

def turnOn? (g : Given) : Switch → Option Given
  | .quiet => if g.quiet then none else some { g with quiet := true }
  | .operator => if g.operator then none else some { g with operator := true }

def combine (front behind : Given) : Options :=
  { output := (behind.output.or front.output).getD .text
    quiet := behind.quiet || front.quiet
    config := behind.config.or front.config
    suggestTimeoutMs := behind.suggestTimeoutMs.or front.suggestTimeoutMs
    user := (behind.user.or front.user).getD "console"
    operator := behind.operator || front.operator }

end Given

inductive Token where
  | endOfOptions
  | switch (s : Switch)
  | setting (s : Setting) (attached : Option String)
  | version
  | help
  -- Begins with a hyphen but is no option known here.
  | unknown
  | word
  deriving DecidableEq, Repr

def settingNamed? (name : String) : Option Setting :=
  match name with
  | "output" => some .output
  | "log-level" => some .logLevel
  | "config" => some .config
  | "suggest-timeout-ms" => some .suggestTimeout
  | "as" => some .user
  | _ => none

def switchNamed? (name : String) : Option Switch :=
  match name with
  | "quiet" => some .quiet
  | "operator" => some .operator
  | _ => none

def Token.ofLong (subcommand : Option Subcommand) (name : String) (value : Option String) :
    Option Token :=
  if subcommand == some .suggest && name == "cursor" then some (.setting .cursor value)
  else match settingNamed? name with
    | some s => some (.setting s value)
    | none =>
      match switchNamed? name, value with
      | some s, none => some (.switch s)
      | some _, some _ => none
      | none, none =>
        if name == "help" then some .help
        else if name == "version" && subcommand.isNone then some .version
        else some .unknown
      | none, some _ =>
        if name == "help" || (name == "version" && subcommand.isNone) then none else some .unknown

def Token.ofShort (subcommand : Option Subcommand) (letters : List Char) : Token :=
  let isKnown (c : Char) := c == 'h' || (c == 'V' && subcommand.isNone)
  match letters with
  | [] => .word
  | c :: rest =>
    if !isKnown c then .unknown
    else if (subcommand.any Subcommand.takesWords) && !rest.all isKnown then .unknown
    else if c == 'h' then .help
    else .version

def Token.ofArgument (subcommand : Option Subcommand) (argument : String) : Option Token :=
  match argument.toList with
  | ['-', '-'] => some .endOfOptions
  | '-' :: '-' :: rest =>
    let name := rest.takeWhile (· != '=')
    let value := match rest.dropWhile (· != '=') with
      | [] => none
      | _ :: value => some (String.ofList value)
    Token.ofLong subcommand (String.ofList name) value
  | '-' :: letters => some (Token.ofShort subcommand letters)
  | _ => some .word

-- Whether an argument can be the value of the option right before it.
def canBeValue (subcommand : Option Subcommand) (argument : String) : Bool :=
  match Token.ofArgument subcommand argument with
  | some .word => true
  | some .unknown => subcommand.any Subcommand.takesWords
  | _ => false

def readBehind (front : Given) (subcommand : Subcommand) : Given → List String → Request
  | given, [] =>
    if subcommand.needsWords then .refuse
    else .perform (front.combine given) subcommand given.cursor []
  | given, argument :: rest =>
    let finish (words : List String) : Request :=
      if (if words.isEmpty then subcommand.needsWords else !subcommand.takesWords) then .refuse
      else .perform (front.combine given) subcommand given.cursor words
    match Token.ofArgument (some subcommand) argument with
    | none => .refuse
    | some .endOfOptions => finish rest
    | some (.switch s) =>
      match given.turnOn? s with
      | some given => readBehind front subcommand given rest
      | none => .refuse
    | some (.setting s (some value)) =>
      match given.set? s value with
      | some given => readBehind front subcommand given rest
      | none => .refuse
    | some (.setting s none) =>
      match rest with
      | [] => .refuse
      | value :: rest =>
        if canBeValue (some subcommand) value then
          match given.set? s value with
          | some given => readBehind front subcommand given rest
          | none => .refuse
        else .refuse
    | some .version => .showVersion
    | some .help => .showHelp
    -- What only looks like an option begins the words.
    | some .unknown => if subcommand.takesWords then finish (argument :: rest) else .refuse
    | some .word => finish (argument :: rest)

def readTopics : List String → Request
  | [] => .showHelp
  | [topic] =>
    if topic == "help" || (Subcommand.ofName? topic).isSome then .showHelp else .refuse
  | _ => .refuse

def readFront : Given → List String → Request
  | _, [] => .refuse
  | given, argument :: rest =>
    match Token.ofArgument none argument with
    | none => .refuse
    | some .endOfOptions => .refuse
    | some (.switch s) =>
      match given.turnOn? s with
      | some given => readFront given rest
      | none => .refuse
    | some (.setting s (some value)) =>
      match given.set? s value with
      | some given => readFront given rest
      | none => .refuse
    | some (.setting s none) =>
      match rest with
      | [] => .refuse
      | value :: rest =>
        if canBeValue none value then
          match given.set? s value with
          | some given => readFront given rest
          | none => .refuse
        else .refuse
    | some .version => .showVersion
    | some .help => .showHelp
    | some .unknown => .refuse
    | some .word =>
      match Subcommand.ofName? argument with
      | some subcommand => readBehind given subcommand {} rest
      | none => if argument == "help" then readTopics rest else .refuse

def Request.ofArguments (arguments : List String) : Request := readFront {} arguments

def Outcome.refused : Outcome := ⟨2, "", ""⟩

def synopsis : String :=
  "Usage: cmdtree [OPTIONS] <run|suggest|usage|ranges|repl> [LINE]...\n"

def respond (request : Request) (readFile : String → Except Settings.ReadFailure String)
    (stdin : String) : Outcome :=
  match request with
  | .refuse => .refused
  | .showVersion => ⟨0, "cmdtree 0.1.0\n", ""⟩
  | .showHelp => ⟨0, synopsis, ""⟩
  | .perform options subcommand cursor words =>
    answer Json.pretty (fun path => Settings.ofFile path (readFile path)) options subcommand cursor words
      stdin

end CommandGrammar.Demo
