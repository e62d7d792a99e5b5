import CommandGrammar.Completion.Query
import CommandGrammar.Execution
import CommandGrammar.Grammar.Registration
import CommandGrammar.Usage

set_option autoImplicit false

namespace CommandGrammar

structure Shell (S A E : Type) where
  grammar : Grammar S A
  settings : Settings
  act : Context S A → A → Run E Unit
  -- What showing a help text to a source comes to.
  showHelp : S → String → List E

-- The help command. The rest of the line is read as a command, which is not run: its usage is shown
-- instead. It belongs right below the root.
def Blueprint.help {S A : Type} : Blueprint S A :=
  .literal "help"
    { description := some "Show help for a command"
      redirect := some .root
      executesChild := false
      choose := some fun _ => .ok .help }
    []

namespace Shell

variable {S A E : Type}

def helpText (s : Shell S A E) (c : Context S A) : String :=
  match c.child?, c.input with
  | some child, some i => s.grammar.usageAt child i c.source
  | _, _ => s.grammar.usage .root c.source

def perform (s : Shell S A E) (c : Context S A) : Action A → Run E Unit
  | .custom a => s.act c a
  | .help => ⟨s.showHelp c.source (s.helpText c), .ok ()⟩

def parse (s : Shell S A E) (source : S) (i : Input) : Parse S A := s.grammar.parse source i

def execute (s : Shell S A E) (p : Parse S A) : Run E Nat := p.execute s.grammar s.perform

def run (s : Shell S A E) (source : S) (i : Input) : Run E Nat := s.execute (s.parse source i)

def suggest (s : Shell S A E) (p : Parse S A) (position : Nat) : Option Completions :=
  p.suggest s.grammar s.settings position

end Shell

end CommandGrammar
