import CommandGrammar.Proofs.Parsing.Trail
import CommandGrammar.Proofs.Parsing.Shift

set_option autoImplicit false

namespace CommandGrammar

variable {S A : Type} {g : Grammar S A} {r : NodeId} {name : String} {source : S}

def View.ofLiteral (r : NodeId) (name : String) : View :=
  (View.empty 0 []).record (.node r) ⟨0, name.length⟩

structure Grammar.Forwards (g : Grammar S A) (r : NodeId) (name : String) (source : S) : Prop where
  child : r ∈ (g.node .root).children
  role : (g.node r).role = .literal name
  present : name ≠ ""
  solid : ∀ ch ∈ name.toList, Text.isBlank ch = false
  usable : (g.node r).usableBy source = true
  settles : ∀ choose, (g.node r).choose = some choose →
    ∃ action, choose (View.ofLiteral r name) = .ok action
  redirect : (g.node r).redirect = some .root

structure Grammar.LeadsBack (g : Grammar S A) (r : NodeId) (name : String) (source : S) : Prop extends
    Forwards g r name source where
  executesChild : (g.node r).executesChild = true
  modifier : (g.node r).modifier = none

structure Grammar.Opens (g : Grammar S A) (r : NodeId) (name : String) (source : S)
    (c : Context S A) : Prop where
  view : c.toView = View.ofLiteral r name
  source : c.source = source
  root : c.root = .root
  executesChild : c.executesChild = (g.node r).executesChild
  action : ∀ choose action, (g.node r).choose = some choose →
    choose (View.ofLiteral r name) = .ok action → c.action = some action

namespace Grammar.Forwards

theorem matchChild_eq (leads : g.Forwards r name source) {i : Input} {left : List Char}
    (shows : i.Shows (name.toList ++ ' ' :: left)) (start : i.position = 0) :
    ∃ c j, (g.node r).matchChild r (.start source .root 0) i = .succeed c j ∧ j.Shows (' ' :: left) ∧
      j.position = name.length ∧ g.Opens r name source c := by
  have blank : ∀ ch ∈ (' ' :: left).head?, Text.isBlank ch = true := by simp
  have behind : ({ i with position := name.length } : Input).Shows (' ' :: left) := by
    have within : name.length ≤ (name.toList ++ ' ' :: left).length := by
      rw [List.length_append, String.length_toList]
      exact Nat.le_add_right _ _
    have moved := shows.advance within
    rwa [start, Nat.zero_add, List.drop_left' String.length_toList] at moved
  have matched := matchLiteral_of_shows shows leads.present leads.solid blank r
    (Context.start (A := A) source .root 0)
  rw [start, Nat.zero_add] at matched
  have matched : (g.node r).matchWord r (.start source .root 0) i =
      .succeed ((Context.start source .root 0).record (.node r) ⟨0, name.length⟩)
        { i with position := name.length } := by
    simp only [Node.matchWord, leads.role]
    exact matched
  have ended (c : Context S A) : Node.endWord c { i with position := name.length } =
      .succeed c { i with position := name.length } := by
    simp [Node.endWord, behind.peek_eq]
  obtain ⟨c, settled, view, same, root, executes, action⟩ :=
    Node.settle_of_ok (c := (Context.start source .root 0).record (.node r) ⟨0, name.length⟩)
      leads.settles { i with position := name.length }
  refine ⟨c, _, ?_, behind, rfl, view, same, root, executes, action⟩
  rw [Node.matchChild, matched, Attempt.andThen_succeed, ended, Attempt.andThen_succeed, settled]
  rfl

theorem candidates_eq (leads : g.Forwards r name source) (sound : g.Sound) {i : Input}
    {left : List Char} (shows : i.Shows (name.toList ++ ' ' :: left)) :
    g.candidates .root source i = [r] := by
  have present : name.toList ≠ [] := by simpa using leads.present
  have word : i.peekWord = some (.text name) := by
    rw [← Input.fst_readWord, shows.readWord_eq,
      Input.firstWord_append present leads.solid (by simp), String.ofList_toList]
  have known : (g.node .root).literals.find? name = some r :=
    ((sound.indexed_node _).literals name r).mpr ⟨leads.child, leads.role⟩
  simp [candidates, relevant_of_literal word known, leads.usable]

theorem parse_eq (leads : g.Forwards r name source) (sound : g.Sound) {i j : Input}
    {left : List Char} (shows : i.Shows (name.toList ++ ' ' :: left)) (start : i.position = 0)
    {c : Context S A} (matched : (g.node r).matchChild r (.start source .root 0) i = .succeed c j)
    (more : j.hasMore = true) :
    g.parse source i =
      { g.parseBelow .root (c.freshChild .root j.readChar.2.position) j.readChar.2 with
        context := c.redirectTo
          (g.parseBelow .root (c.freshChild .root j.readChar.2.position) j.readChar.2).context } := by
  have plain : (g.node r).composed? = none := by simp [Node.composed?, leads.role]
  have only : g.candidates .root (Context.start (A := A) source .root 0).source i = [r] :=
    leads.candidates_eq sound shows
  have trial : g.tryChild g.parseBelow (.start source .root 0) i r =
      .decided { g.parseBelow .root (c.freshChild .root j.readChar.2.position) j.readChar.2 with
        context := c.redirectTo
          (g.parseBelow .root (c.freshChild .root j.readChar.2.position) j.readChar.2).context } := by
    simp only [tryChild, plain, matched, Attempt.succeed, more, leads.redirect, Bool.not_true,
      Bool.false_eq_true, if_false]
  rw [parse, parseBelow_eq g shows.laid, start, only, tryChildren, trial]

end Grammar.Forwards

structure Parse.Follows (r : NodeId) (name : String) (source : S) (q p : Parse S A) : Prop where
  view : q.context.toView = View.ofLiteral r name
  source : q.context.source = source
  root : q.context.root = .root
  executesChild : q.context.executesChild = true
  child : q.context.child? = some (p.context.shift (name.length + 1))
  rest : p.rest.Twin (name.length + 1) q.rest
  faults : q.faults.map Prod.fst = p.faults.map Prod.fst

theorem Parse.Follows.isComplete {p q : Parse S A} (h : q.Follows r name source p) :
    q.isComplete = p.isComplete := by
  rw [Parse.isComplete, Parse.isComplete, h.rest.hasMore, isEmpty_faults_congr h.faults]

namespace Grammar

theorem Sound.parse_forwards (sound : g.Sound) (free : g.ReadsPlaceFree)
    (leads : g.Forwards r name source) (line : String) :
    ∃ c q, g.Opens r name source c ∧
      (g.parse source (.ofText line)).Twin (name.length + 1) q ∧
      g.parse source (.ofText (name ++ " " ++ line)) =
        { q with context := c.redirectTo q.context } := by
  have alone := Input.shows_ofText line
  have shows : (Input.ofText (name ++ " " ++ line)).Shows (name.toList ++ ' ' :: line.toList) := by
    have whole := Input.shows_ofText (name ++ " " ++ line)
    rw [String.toList_append, String.toList_append, List.append_assoc] at whole
    exact whole
  obtain ⟨c, j, matched, behind, position, opens⟩ := leads.matchChild_eq shows rfl
  have more : j.hasMore = true := by simp [behind.hasMore_eq]
  have twin : (Input.ofText line).Twin (name.length + 1) j.readChar.2 := by
    have next : j.readChar.2 = { j with position := j.position + 1 } := by simp [behind.readChar_eq]
    have separated := behind.advance (n := 1) (by simp)
    rw [next]
    exact ⟨by simp [position, Input.ofText, Input.ofValues], line.toList, alone, separated⟩
  have below := free.parseBelow_twin .root (.start source .root 0) twin
  have fresh : (Context.start source .root 0).shift (name.length + 1) =
      c.freshChild .root j.readChar.2.position := by
    rw [twin.position, Context.freshChild, opens.source, opens.view]
    simp [View.ofLiteral, View.empty, View.record]
    rfl
  rw [fresh] at below
  exact ⟨c, _, opens, below, leads.parse_eq sound shows rfl matched more⟩

theorem Sound.parse_follows (sound : g.Sound) (free : g.ReadsPlaceFree)
    (leads : g.LeadsBack r name source) (line : String) :
    (g.parse source (.ofText (name ++ " " ++ line))).Follows r name source
      (g.parse source (.ofText line)) := by
  obtain ⟨c, q, opens, twin, parsed⟩ := sound.parse_forwards free leads.toForwards line
  rw [parsed]
  refine ⟨opens.view, opens.source, opens.root, opens.executesChild.trans leads.executesChild, ?_,
    twin.rest, twin.faults⟩
  show (c.redirectTo q.context).child? = _
  rw [twin.context]
  rfl

end Grammar

end CommandGrammar
