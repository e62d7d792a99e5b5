import CommandGrammar.Demo.Commands
import CommandGrammar.Json.Report
import CommandGrammar.Settings.Basic

/-!
What is written for a subcommand and how it ends, given the options, the words of a command line and the
standard input. How JSON values are written and settings are loaded is left open.
-/

set_option autoImplicit false

namespace CommandGrammar.Demo

inductive Format where
  | text
  | json
  deriving DecidableEq, Repr

structure Options where
  output : Format
  quiet : Bool
  config : Option String
  suggestTimeoutMs : Option Nat
  user : String
  operator : Bool
  deriving DecidableEq, Repr

inductive Subcommand where
  | run
  | suggest
  | usage
  | ranges
  | repl
  deriving DecidableEq, Repr

structure Outcome where
  code : Nat
  stdout : String
  stderr : String
  deriving DecidableEq, Repr

def escapeQuote (c : Char) : List Char := if c == '\x22' then ['\\', '\x22'] else [c]

def reportError (format : Format) (quiet : Bool) (message : String) : String :=
  if quiet then ""
  else match format with
    | .text => message ++ "\n"
    | .json =>
      "\x7b\"error\": \"" ++ String.ofList (message.toList.flatMap escapeQuote) ++ "\"\x7d\n"

variable (write : Json → String)

-- The fault of a command line. As JSON it is written even if the program is to be quiet.
def reportFault (format : Format) (quiet : Bool) (f : Fault) : String :=
  match format with
  | .json => write f.toJson ++ "\n"
  | .text =>
    if quiet then ""
    else Text.joinLines (("error: " ++ f.message) :: f.caret?.toList)

/-- Whom a line runs as, and what the actions have printed that is not yet written. There is one such
buffer: whoever a redirection runs the line as prints to the same. -/
structure Console where
  user : User
  printed : List String

namespace Console

def new (user : User) : Console := ⟨user, []⟩

def print (c : Console) (text : String) : Console := { c with printed := c.printed ++ [text] }

def takeOutput (c : Console) : List String × Console := (c.printed, { c with printed := [] })

def execute (c : Console) (settings : Settings) (line : String) : Except Fault Nat × Console :=
  let run := (shell settings).run c.user (.ofText line)
  (run.result, run.events.foldl print c)

end Console

-- Runs a line and writes what is printed. The output of a line that failed is written as text only.
def executeLine (settings : Settings) (options : Options) (console : Console) (line : String) :
    Outcome × Console :=
  let (result, executed) := console.execute settings line
  let (printed, drained) := executed.takeOutput
  let outcome : Outcome := match result, options.output with
    | .ok _, .text => ⟨0, Text.joinLines printed, ""⟩
    | .ok count, .json =>
      let report := Json.object [("executed", .ofNat count), ("output", .array (printed.map .string))]
      ⟨0, Text.joinLines [write report], ""⟩
    | .error f, .text => ⟨1, Text.joinLines printed, reportFault write .text options.quiet f⟩
    | .error f, .json => ⟨1, "", reportFault write .json options.quiet f⟩
  (outcome, drained)

def runLine (settings : Settings) (options : Options) (line : String) : Outcome :=
  (executeLine write settings options (.new ⟨options.user, options.operator⟩) line).1

structure Session where
  console : Console
  failures : Nat
  stdout : String
  stderr : String

namespace Session

def start (options : Options) : Session := ⟨.new ⟨options.user, options.operator⟩, 0, "", ""⟩

def enter (settings : Settings) (options : Options) (session : Session) (line : String) : Session :=
  if Text.isAllBlank line then session
  else
    let (outcome, console) := executeLine write settings options session.console line
    { console
      failures := session.failures + if outcome.code = 0 then 0 else 1
      stdout := session.stdout ++ outcome.stdout
      stderr := session.stderr ++ outcome.stderr }

def finish (session : Session) : Outcome :=
  ⟨if 0 < session.failures then 1 else 0, session.stdout, session.stderr⟩

end Session

def runLines (settings : Settings) (options : Options) (lines : List String) : Outcome :=
  (lines.foldl (Session.enter write settings options) (.start options)).finish

def linesOf (stdin : String) : List String := (Text.splitLines stdin.toList).map String.ofList

def parseLine (settings : Settings) (options : Options) (line : String) : Parse User Deed :=
  (shell settings).parse ⟨options.user, options.operator⟩ (.ofText line)

def suggest (settings : Settings) (options : Options) (cursor : Option Nat) (line : String) :
    Outcome :=
  let length := line.length
  let position := cursor.getD length
  if length < position then
    ⟨1, "", reportError options.output options.quiet
      ("cursor " ++ toString position ++ " is past the end of the line (" ++ toString length ++
        " characters)")⟩
  else
    let found := ((shell settings).suggest (parseLine settings options line) position).getD .empty
    match options.output with
    | .json => ⟨0, Text.joinLines [write found.toJson], ""⟩
    | .text =>
      ⟨0, Text.joinLines (found.list.map fun c => c.text ++ (c.tooltip.map ("\t" ++ ·)).getD ""), ""⟩

def usage (settings : Settings) (options : Options) (line : String) : Outcome :=
  let text := (parseLine settings options line).usage grammar
  match options.output with
  | .text => ⟨0, Text.joinLines [text], ""⟩
  | .json => ⟨0, Text.joinLines [write (.object [("usage", .string text)])], ""⟩

def ranges (settings : Settings) (options : Options) (line : String) : Outcome :=
  let parse := parseLine settings options line
  let spans := parse.matchedSpans grammar
  match options.output with
  | .text =>
    ⟨0, Text.joinLines (spans.map fun m =>
      toString m.span.start ++ ".." ++ toString m.span.stop ++ "\t" ++ m.name), ""⟩
  | .json =>
    ⟨0, Text.joinLines [write (.object [("complete", .bool parse.isComplete),
      ("ranges", .array (spans.map MatchedSpan.toJson))])], ""⟩

def perform (settings : Settings) (options : Options) (subcommand : Subcommand)
    (cursor : Option Nat) (words : List String) (stdin : String) : Outcome :=
  let line := " ".intercalate words
  match subcommand with
  | .run => runLine write settings options line
  | .suggest => suggest write settings options cursor line
  | .usage => usage write settings options line
  | .ranges => ranges write settings options line
  | .repl => runLines write settings options (linesOf stdin)

def settingsFor (options : Options) (load : String → Except Settings.LoadError Settings) :
    Except Settings.LoadError Settings := do
  let settings ← match options.config with
    | some path => load path
    | none => .ok {}
  return { settings with
    suggestionTimeoutMs := options.suggestTimeoutMs.or settings.suggestionTimeoutMs }

def answer (load : String → Except Settings.LoadError Settings)
    (options : Options) (subcommand : Subcommand) (cursor : Option Nat) (words : List String)
    (stdin : String) : Outcome :=
  match settingsFor options load with
  | .error e => ⟨1, "", reportError options.output options.quiet e.message⟩
  | .ok settings => perform write settings options subcommand cursor words stdin

end CommandGrammar.Demo
