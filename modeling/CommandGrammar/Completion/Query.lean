import CommandGrammar.Parsing.Parse
import CommandGrammar.Settings.Basic

/-!
Completing a line at a position. The parse tells what the position belongs to; the candidates of every
branch found there go into one list, and a branch that fails or takes too long adds nothing to it.
-/

set_option autoImplicit false

namespace CommandGrammar

structure Query where
  parent : Matched
  start : Nat
  deriving DecidableEq, Repr

namespace Step

def asQuery (s : Step) : Query :=
  match s.matched with
  | .flagValue _ _ => ⟨s.matched, s.span.stop⟩
  | _ => ⟨s.matched, s.span.start⟩

end Step

namespace Query

def within (fallback position : Nat) : Matched → List Step → Query
  | previous, [] => ⟨previous, fallback⟩
  | previous, step :: rest =>
    if step.span.contains position then
      if step.matched.isPlace then step.asQuery else ⟨previous, step.span.start⟩
    else within fallback position step.matched rest

def behind (v : View) (root : NodeId) : Query :=
  match v.steps.getLast? with
  | none => ⟨.node root, v.span.start⟩
  | some step => if step.matched.isPlace then step.asQuery else ⟨step.matched, step.span.stop + 1⟩

variable {S A : Type}

def upTo? (position : Nat) (f : Frame S A) : Option Query :=
  if position < f.span.start then some ⟨.node f.root, f.span.start⟩
  else if position ≤ f.span.stop then
    some (within f.span.start position (.node f.root) f.steps)
  else none

def atFrame (position : Nat) : Frame S A → List (Frame S A) → Query
  | f, [] => (upTo? position f).getD (behind f.toView f.root)
  | f, next :: below =>
    match upTo? position f with
    | some query => query
    | none => atFrame position next below

end Query

variable {S A : Type}

def Context.queryAt (c : Context S A) (position : Nat) : Query :=
  Query.atFrame position c.toFrame c.redirected

namespace Grammar

def complete (g : Grammar S A) (id : NodeId) (c : Context S A) (draft : Draft) : Reply :=
  match (g.node id).role with
  | .literal name =>
    .offered (if Text.completes name draft.typed then draft.offer name (g.node id).description
      else draft).build
  | .argument _ type => type.complete c draft
  | _ => .offered .empty

def flag (g : Grammar S A) (id : NodeId) : String := "--" ++ (g.node id).name

-- What a place inside a composed argument offers. Flags are offered as long as the typed text may
-- become one; a next member that fails takes nothing from them.
def completePlace (g : Grammar S A) (place : Matched) (c : Context S A) (draft : Draft) : Reply :=
  match place with
  | .node _ => .offered .empty
  | .flagValue _ none => .offered .empty
  | .flagValue _ (some member) => g.complete member c draft
  | .afterValue _ pending next =>
    let values (d : Draft) := match next with
      | some member => g.complete member c d
      | none => .offered .empty
    -- Typed text that cannot become a flag can only be a value.
    if !(Text.startsWith "--" draft.typed || Text.startsWith draft.typed "--") then values draft
    else
      let flags := ((pending.filter fun id => Text.startsWith (g.flag id) draft.typed).foldl
        (fun d id => d.offer (g.flag id) (g.node id).description) draft).build
      match next with
      | none => .offered flags
      | some _ =>
        match values draft.cleared with
        | .offered more => .offered (.merge [flags, more])
        | .failed _ => .offered (.merge [flags, .empty])
        | .never => .never

def branches (g : Grammar S A) (c : Context S A) (parent : Matched) (draft : Draft) : List Reply :=
  match parent with
  | .node id =>
    ((g.node id).children.filter fun child => (g.node child).usableBy c.source).map fun child =>
      g.complete child c draft.cleared
  | place => [g.completePlace place c draft]

end Grammar

def Reply.completions? (hasLimit : Bool) : Reply → Option Completions
  | .offered c => some c
  | .failed _ => some .empty
  | .never => if hasLimit then some .empty else none

def Completions.collect (typed : String) (limit : Option Nat) (all : List Completions) :
    Completions :=
  let merged := (Completions.merge all).retain fun c => c.text != typed
  match limit with
  | some n => merged.truncate n
  | none => merged

def Parse.suggest (g : Grammar S A) (settings : Settings) (p : Parse S A) (position : Nat) :
    Option Completions :=
  let query := p.context.queryAt position
  let start := min query.start position
  let typed := p.rest.textBetween start position
  let replies := g.branches p.context query.parent (.blank typed start)
  (replies.mapM (Reply.completions? settings.suggestionTimeoutMs.isSome)).map
    (Completions.collect typed settings.maxSuggestions)

end CommandGrammar
