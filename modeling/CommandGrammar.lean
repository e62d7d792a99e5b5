import CommandGrammar.Grammar.Merge
import CommandGrammar.Main
import CommandGrammar.Proofs.Composed.Flags
import CommandGrammar.Proofs.Composed.Reading
import CommandGrammar.Proofs.Execution.Leading
import CommandGrammar.Proofs.Execution.Levels
import CommandGrammar.Proofs.Grammar.Reachable
import CommandGrammar.Proofs.Grammar.Soundness
import CommandGrammar.Proofs.Input.Text
import CommandGrammar.Proofs.Input.Tiling
import CommandGrammar.Proofs.Input.Twin
import CommandGrammar.Proofs.Parsing.Branching
import CommandGrammar.Proofs.Parsing.Descent
import CommandGrammar.Proofs.Parsing.Growth
import CommandGrammar.Proofs.Parsing.Leading
import CommandGrammar.Proofs.Parsing.Shift
import CommandGrammar.Proofs.Grammar.Forest
import CommandGrammar.Proofs.Input.Agreement
import CommandGrammar.Proofs.Completion.Walk
import CommandGrammar.Proofs.Parsing.Agreement
import CommandGrammar.Proofs.Completion.Cursor
import CommandGrammar.Proofs.Completion.Acceptance
import CommandGrammar.Proofs.Input.Spelling
import CommandGrammar.Proofs.Input.Seams
import CommandGrammar.Proofs.Grammar.Merging
import CommandGrammar.Proofs.Parsing.Renumber
import CommandGrammar.Proofs.Parsing.Merged
import CommandGrammar.Proofs.Execution.Mirror
import CommandGrammar.Proofs.Execution.Merged
import CommandGrammar.Proofs.Execution.Help
import CommandGrammar.Proofs.Parsing.Findings
import CommandGrammar.Proofs.Parsing.Calls
import CommandGrammar.Proofs.Execution.Requirements
import CommandGrammar.Proofs.Parsing.Sourceless
import CommandGrammar.Proofs.Completion.Silence
import CommandGrammar.Proofs.Input.Words
import CommandGrammar.Proofs.Parsing.Route
import CommandGrammar.Proofs.Parsing.Literals
import CommandGrammar.Proofs.Parsing.Settling
import CommandGrammar.Proofs.Composed.Places
import CommandGrammar.Proofs.Spans
import CommandGrammar.Proofs.Input.Shown
import CommandGrammar.Proofs.Parsing.WordStarts
import CommandGrammar.Proofs.Completion.Hull
import CommandGrammar.Proofs.Completion.Flags
import CommandGrammar.Proofs.Completion.Replacing
import CommandGrammar.Proofs.Completion.WordStarts
import CommandGrammar.Proofs.Sorting
import CommandGrammar.Proofs.Completion.Canonical
import CommandGrammar.Proofs.Completion.Collecting
import CommandGrammar.Proofs.Input.Columns
import CommandGrammar.Proofs.Argument.Quoting
import CommandGrammar.Proofs.Completion.Distinct
import CommandGrammar.Proofs.Input.Characters
import CommandGrammar.Proofs.Parsing.Complaints
import CommandGrammar.Proofs.Grammar.Registering
import CommandGrammar.Proofs.Parsing.Furthest
import CommandGrammar.Proofs.Usage.Listing
import CommandGrammar.Proofs.Composed.Requirements
import CommandGrammar.Proofs.Demo.Session
import CommandGrammar.Proofs.Demo.Reports
import CommandGrammar.Proofs.Composed.Ensures
import CommandGrammar.Proofs.Parsing.Unbroken
import CommandGrammar.Proofs.Input.Checked
import CommandGrammar.Proofs.Input.Bounds
