import CommandGrammar.Demo.Session
import Mathlib.Data.List.Induction

set_option autoImplicit false

namespace CommandGrammar.Demo

variable {write : Json → String} {settings : Settings} {options : Options} {line : String} {lines : List String}
  {session : Session}

def LineFails (settings : Settings) (options : Options) (line : String) : Prop :=
  ∃ f, ((shell settings).run ⟨options.user, options.operator⟩ (.ofText line)).result = .error f

def entered (lines : List String) : List String := lines.filter fun line => !Text.isAllBlank line

namespace Console

theorem foldl_print (c : Console) (texts : List String) :
    texts.foldl print c = { c with printed := c.printed ++ texts } := by
  induction texts generalizing c with
  | nil => simp
  | cons text rest ih => rw [List.foldl_cons, ih]; simp [print]

end Console

theorem console_executeLine (write : Json → String) (settings : Settings) (options : Options) (c : Console)
    (line : String) :
    (executeLine write settings options c line).2 = .new c.user := by
  simp [executeLine, Console.execute, Console.takeOutput, Console.foldl_print, Console.new]

theorem code_runLine_cases (write : Json → String) (settings : Settings) (options : Options) (line : String) :
    (runLine write settings options line).code = 0 ∧ ¬ LineFails settings options line ∨
      (runLine write settings options line).code = 1 ∧ LineFails settings options line := by
  unfold LineFails runLine executeLine Console.execute Console.new
  cases result : ((shell settings).run ⟨options.user, options.operator⟩ (.ofText line)).result with
  | ok count => cases options.output <;> simp [result]
  | error f => cases options.output <;> simp [result]

namespace Session

structure Apart (write : Json → String) (settings : Settings) (options : Options) (lines : List String)
    (session : Session) : Prop where
  console : session.console = .new ⟨options.user, options.operator⟩
  failures : 0 < session.failures ↔ ∃ line ∈ lines, LineFails settings options line
  stdout : session.stdout = String.join (lines.map fun line => (runLine write settings options line).stdout)
  stderr : session.stderr = String.join (lines.map fun line => (runLine write settings options line).stderr)

theorem Apart.start : Apart write settings options [] (.start options) where
  console := rfl
  failures := by simp [Session.start]
  stdout := rfl
  stderr := rfl

theorem Apart.enter (apart : Apart write settings options lines session)
    (typed : Text.isAllBlank line = false) :
    Apart write settings options (lines ++ [line]) (session.enter write settings options line) := by
  have outcome : (executeLine write settings options session.console line).1 =
      runLine write settings options line := by
    rw [apart.console]; rfl
  simp only [Session.enter, typed, Bool.false_eq_true, if_false, outcome]
  constructor
  · rw [console_executeLine, apart.console]; rfl
  · -- A failure before this line is one of the lines before it, and any other is this line's own.
    simp only [List.mem_append, List.mem_singleton, or_and_right, exists_or, exists_eq_left,
      ← apart.failures]
    rcases code_runLine_cases write settings options line with ⟨code, passes⟩ | ⟨code, fails⟩
    · simp [code, passes]
    · simp [code, fails]
  · simp [apart.stdout]
  · simp [apart.stderr]

theorem apart_foldl (write : Json → String) (settings : Settings) (options : Options) (lines : List String) :
    Apart write settings options (entered lines)
      (lines.foldl (Session.enter write settings options) (.start options)) := by
  induction lines using List.reverseRecOn with
  | nil => exact .start
  | append_singleton lines line ih =>
    rw [List.foldl_append, List.foldl_cons, List.foldl_nil]
    cases typed : Text.isAllBlank line with
    | true => simpa [entered, Session.enter, typed] using ih
    | false => simpa [entered, typed] using ih.enter typed

end Session

/-- The lines of an input are run apart from each other. What is written is what they write when run alone,
blank lines left out, and the program fails if one of them does. The same holds after any number of lines,
when nothing that they printed is left on the console to be written with a later one. -/
theorem perform_repl_apart (write : Json → String) (settings : Settings) (options : Options) (cursor : Option Nat)
    (words : List String) (stdin : String) :
    let alone (line : String) := perform write settings options .run none [line] ""
    let whole := perform write settings options .repl cursor words stdin
    whole.stdout = String.join ((entered (linesOf stdin)).map fun line => (alone line).stdout) ∧
      whole.stderr = String.join ((entered (linesOf stdin)).map fun line => (alone line).stderr) ∧
      (whole.code = 1 ↔ ∃ line ∈ entered (linesOf stdin), LineFails settings options line) ∧
      (whole.code = 0 ∨ whole.code = 1) ∧
      ∀ n : Nat,
        let first := (linesOf stdin).take n
        let session := first.foldl (Session.enter write settings options) (.start options)
        session.console.printed = [] ∧
          session.stdout = String.join ((entered first).map fun line => (alone line).stdout) ∧
          session.stderr = String.join ((entered first).map fun line => (alone line).stderr) := by
  intro alone whole
  have alone_eq (line : String) : alone line = runLine write settings options line := rfl
  simp only [alone_eq]
  have apart := Session.apart_foldl write settings options (linesOf stdin)
  refine ⟨apart.stdout, apart.stderr, ?_, ?_, fun n => ?_⟩
  · rw [← apart.failures]
    simp [whole, perform, runLines, Session.finish, Nat.pos_iff_ne_zero]
  · simp only [whole, perform, runLines, Session.finish]
    split
    · exact .inr rfl
    · exact .inl rfl
  · have first := Session.apart_foldl write settings options ((linesOf stdin).take n)
    exact ⟨by rw [first.console]; rfl, first.stdout, first.stderr⟩

-- A line that is not known fails the program and is complained about; the lines around it print as ever.
theorem perform_repl_unknown :
    let options : Options :=
      { output := .text, quiet := false, config := none, suggestTimeoutMs := none, user := "console",
        operator := true }
    let whole := perform Json.pretty {} options .repl none [] "echo one\n\nnonsense\nwhoami\n"
    whole.stdout = "one\nconsole\n" ∧
      whole.stderr = "error: Unknown command: nonsense\nnonsense\n^\n" ∧ whole.code = 1 := by
  intro options whole
  obtain ⟨stdout, stderr, fails, -, -⟩ :=
    perform_repl_apart Json.pretty {} options none [] "echo one\n\nnonsense\nwhoami\n"
  have unknown : LineFails {} options "nonsense" :=
    ⟨.unknownCommand (.ofText "nonsense"), by decide +kernel⟩
  exact ⟨stdout.trans (by decide +kernel), stderr.trans (by decide +kernel),
    fails.mpr ⟨"nonsense", by decide +kernel, unknown⟩⟩

end CommandGrammar.Demo
