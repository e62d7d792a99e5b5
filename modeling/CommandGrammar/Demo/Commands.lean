import CommandGrammar.Argument.Quoted
import CommandGrammar.Shell

set_option autoImplicit false

namespace CommandGrammar.Demo

structure User where
  name : String
  isOperator : Bool
  deriving DecidableEq, Repr

def User.actingAs (name : String) : User := ⟨name, false⟩

def users : List String := ["alice", "bob"]

inductive Deed where
  | echo
  | greetSelf
  | greet
  | move
  | whoami
  | shutdown
  deriving DecidableEq, Repr

def speeds : List (String × Value) :=
  [("slow", .foreign "speed" "slow"), ("fast", .foreign "speed" "fast")]

def speed? : Value → Option String
  | .foreign "speed" label => some label
  | _ => none

def doing (deed : Deed) (description : Option String) : Attributes User Deed :=
  { choose := some fun _ => .ok (.custom deed), description }

def describedAs (text : String) : Attributes User Deed := { description := some text }

def asSomeone (c : Context User Deed) : Except Fault (List User) :=
  match c.argument? Value.string? "who" with
  | some who => .ok [.actingAs who]
  | none => .error (.failed "no user given" none)

def commands : List (Blueprint User Deed) :=
  [ .literal "echo" (describedAs "Print the rest of the line")
      [.argument "text" .rest (doing .echo none) []],
    .literal "greet" (doing .greetSelf (some "Say hello"))
      [.argument "name" .string (doing .greet none) []],
    .literal "move" (describedAs "Move between two places")
      [.composed
        [.argument "from" .string (describedAs "Where to start") [],
          .argument "to" .string (describedAs "Where to go") [],
          .argument "speed" (.choice speeds) (describedAs "How fast") []]
        (doing .move none) []],
    .literal "whoami" (doing .whoami none) [],
    .literal "as" (describedAs "Run a command as someone else")
      [.argument "who" .string { redirect := some .root, modifier := some asSomeone } []],
    .literal "everyone"
      { description := some "Run a command as every known user"
        redirect := some .root
        forked := true
        modifier := some fun _ => .ok (users.map .actingAs) }
      [],
    .literal "shutdown"
      { doing .shutdown (some "Stop the server") with requirement := some User.isOperator } [],
    .help ]

def grammar : Grammar User Deed :=
  commands.foldl (fun g command => (g.register .root command).1) .empty

def printed (line : String) : Run String Unit := ⟨[line], .ok ()⟩

def act (c : Context User Deed) : Deed → Run String Unit
  | .echo => printed ((c.argument? Value.string? "text").getD "")
  | .greetSelf => printed ("Hello, " ++ c.source.name ++ "!")
  | .greet => printed ("Hello, " ++ (c.argument? Value.string? "name").getD "" ++ "!")
  | .move =>
    match c.argument? Value.string? "from", c.argument? Value.string? "to" with
    | some start, some goal =>
      let speed := (c.argument? speed? "speed").getD "slow"
      printed ("Moving from " ++ start ++ " to " ++ goal ++ " (" ++ speed ++ ")")
    | _, _ => .fail (.failed "move needs both --from and --to" none)
  | .whoami => printed c.source.name
  | .shutdown => printed "Shutting down"

def shell (settings : Settings) : Shell User Deed String :=
  { grammar, settings, act, showHelp := fun _ text => [text] }

end CommandGrammar.Demo
