import CommandGrammar.Proofs.Composed.Ensures
import CommandGrammar.Proofs.Composed.Turns
import CommandGrammar.Proofs.Grammar.Forest
import CommandGrammar.Proofs.Parsing.Route

set_option autoImplicit false

namespace CommandGrammar

namespace Text

def StartsWord (cs : List Char) (k : Nat) : Prop := k = 0 ∨ (cs[k - 1]?).any isBlank = true

instance (cs : List Char) (k : Nat) : Decidable (StartsWord cs k) := inferInstanceAs (Decidable (_ ∨ _))

def EndsWord (cs : List Char) (k : Nat) : Prop := (cs[k]?).all isBlank = true

theorem EndsWord.startsWord {cs : List Char} {k : Nat} (ends : EndsWord cs k) (inside : k < cs.length) :
    StartsWord cs (k + 1) := by
  have found : cs[k]? = some cs[k] := List.getElem?_eq_getElem inside
  rw [EndsWord, found] at ends
  exact .inr (by rw [Nat.add_sub_cancel, found]; exact ends)

end Text

variable {S A : Type}

-- How a step lies on a text behind other steps. A flag begins a word and reaches up to the word of its
-- value. A place between values has no width; it begins a word, or it is at the end of the text and
-- touches the value before it.
def Step.Placed (g : Grammar S A) (cs : List Char) (before : List Step) (s : Step) : Prop :=
  match s.matched with
  | .node id => Text.StartsWord cs s.span.start ∧ (Text.EndsWord cs s.span.stop ∨ g.IsMember id)
  | .afterValue _ _ _ => s.span.stop = s.span.start ∧ (Text.StartsWord cs s.span.start ∨
      s.span.start = cs.length ∧ ∃ t ∈ before, t.span.contains s.span.start = true)
  | .flagValue _ none => True
  | .flagValue _ (some _) => Text.StartsWord cs s.span.start ∧ Text.StartsWord cs s.span.stop

def Grammar.Places (g : Grammar S A) (cs : List Char) (steps : List Step) : Prop :=
  ∀ before s after, steps = before ++ s :: after → s.Placed g cs before

section Places

variable {g : Grammar S A} {cs : List Char} {steps : List Step} {c : Context S A} {i j : Input}

theorem Grammar.places_nil : g.Places cs [] := by
  intro before s after split
  simp at split

theorem Grammar.Places.concat (places : g.Places cs steps) {s : Step} (placed : s.Placed g cs steps) :
    g.Places cs (steps ++ [s]) := by
  intro before t after split
  rcases List.eq_nil_or_concat after with rfl | ⟨rest, last, rfl⟩
  · obtain ⟨rfl, same⟩ := List.append_inj' split rfl
    obtain rfl : s = t := List.singleton_inj.mp same
    exact placed
  · rw [List.concat_eq_append, ← List.cons_append, ← List.append_assoc] at split
    exact places before t rest (List.append_inj' split rfl).1

theorem Input.Holds.reaches (holds : i.Holds cs) (reached : i.Reaches j) : j.Holds cs :=
  ⟨reached.segments ▸ holds.spells, holds.length_eq ▸ reached.within⟩

theorem Input.Holds.peek_eq_getElem? (holds : i.Holds cs) : i.peek = cs[i.position]? := by
  rw [holds.peek_eq, List.head?_drop]

theorem Input.Holds.position_lt (holds : i.Holds cs) (more : i.hasMore = true) :
    i.position < cs.length := by
  rw [← holds.length_eq]
  simpa [Input.hasMore] using more

theorem Input.Holds.lt_of_peekWord (holds : i.Holds cs) {word : Word} (peeked : i.peekWord = some word) :
    i.position < cs.length := by
  by_contra ended
  have nothing : cs.drop i.position = [] := List.drop_eq_nil_of_le (Nat.le_of_not_lt ended)
  rw [← Input.fst_readWord, holds.readWord_eq, nothing] at peeked
  simp [Input.firstWord] at peeked

theorem Input.Holds.readChar_next (holds : i.Holds cs) (inside : i.position < cs.length) :
    i.readChar.2.Holds cs ∧ i.readChar.2.position = i.position + 1 := by
  have left : 1 ≤ (cs.drop i.position).length := by
    rw [List.length_drop]
    omega
  rw [holds.readChar_eq, Nat.min_eq_left left]
  exact ⟨holds.advance left, rfl⟩

def Input.Stands (cs : List Char) (i : Input) : Prop :=
  i.Holds cs ∧ (Text.StartsWord cs i.position ∨ i.position = cs.length)

theorem Input.Stands.startsWord (stands : i.Stands cs) (inside : i.position < cs.length) :
    Text.StartsWord cs i.position :=
  stands.2.resolve_right (Nat.ne_of_lt inside)

def Context.Touches (cs : List Char) (c : Context S A) (i : Input) : Prop :=
  i.Holds cs ∧ ∃ t ∈ c.steps, t.span.contains i.position = true

namespace Composed

variable {id owner m : NodeId} {members : Composed}

theorem takeSeparator_ensures (holds : i.Holds cs) (places : g.Places cs c.steps) :
    (takeSeparator c i).Ensures (fun d => g.Places cs d.steps) fun d j =>
      d = c ∧ j.Holds cs ∧ (Text.StartsWord cs j.position ∨ j = i ∧ i.position = cs.length) := by
  unfold takeSeparator
  rw [holds.peek_eq_getElem?]
  cases peeked : cs[i.position]? with
  | none =>
    have ended : i.position = cs.length :=
      Nat.le_antisymm holds.position_le (List.getElem?_eq_none_iff.mp peeked)
    exact .succeed places ⟨rfl, holds, .inr ⟨rfl, ended⟩⟩
  | some ch =>
    obtain ⟨inside, -⟩ := List.getElem?_eq_some_iff.mp peeked
    cases blank : Text.isBlank ch with
    | false =>
      simp only [blank, Bool.false_eq_true, if_false]
      exact .fail places _
    | true =>
      obtain ⟨next, position⟩ := holds.readChar_next inside
      simp only [blank, if_true]
      exact .succeed places ⟨rfl, next, .inl (.inr (by simp [position, peeked, blank]))⟩

theorem place_ensures (touches : c.Touches cs i) (places : g.Places cs c.steps) (pending : List NodeId)
    (next : Option NodeId) :
    ((takeSeparator c i).andThen (recordPlace id pending next)).Ensures
      (fun d => g.Places cs d.steps) fun _ j => j.Stands cs := by
  obtain ⟨holds, t, recorded, contains⟩ := touches
  refine (takeSeparator_ensures holds places).andThen fun d j places => ?_
  rintro ⟨rfl, holds, begins | ⟨rfl, ended⟩⟩
  · exact .succeed (places.concat ⟨rfl, .inl begins⟩) ⟨holds, .inl begins⟩
  · exact .succeed (places.concat ⟨rfl, .inr ⟨ended, t, recorded, contains⟩⟩) ⟨holds, .inr ended⟩

theorem member_ensures (sound : g.Sound) (role : (g.node owner).role = .composed members)
    (member : m ∈ members.sequence) (holds : i.Holds cs) (begins : Text.StartsWord cs i.position)
    (places : g.Places cs c.steps) :
    ((g.node m).matchWord m c i).Ensures (fun d => g.Places cs d.steps) (Context.Touches cs) := by
  obtain ⟨name, type, argument⟩ := (sound.declared_node role).arguments m member
  have reached := Reading.reaches_advance holds.laid (type.read i c)
  simp only [Node.matchWord, argument, matchArgument, recordArgument]
  cases (type.read i c).answer with
  | error e => cases e <;> exact .fail places _
  | ok value =>
    refine .succeed (places.concat ⟨begins, .inr ⟨owner, members, role, member⟩⟩)
      ⟨holds.reaches reached, _, List.mem_concat_self, ?_⟩
    exact (Span.contains_iff _ _).mpr ⟨reached.forward, Nat.le_refl _⟩

section Members

variable (sound : g.Sound) (role : (g.node owner).role = .composed members)
include sound role

theorem takeFlagged_ensures (member : m ∈ members.sequence) {start : Nat}
    (begins : Text.StartsWord cs start) (pending : List NodeId) (holds : i.Holds cs)
    (places : g.Places cs c.steps) :
    (takeFlagged g owner start m pending c i).Ensures (fun d => g.Places cs d.steps)
      fun _ j => j.Stands cs := by
  cases more : i.hasMore with
  | false =>
    simp only [takeFlagged, more, Bool.not_false, if_true]
    have flag : Step.Placed g cs c.steps ⟨.flagValue owner none, ⟨start, i.position⟩⟩ := trivial
    exact .fail (places.concat flag) _
  | true =>
    simp only [takeFlagged, more, Bool.not_true, Bool.false_eq_true, if_false]
    have atValue : ((takeSeparator c i).andThen fun c j =>
        .succeed (c.record (.flagValue owner (some m)) ⟨start, j.position⟩) j).Ensures
          (fun d => g.Places cs d.steps)
          fun _ j => j.Holds cs ∧ Text.StartsWord cs j.position := by
      refine (takeSeparator_ensures holds places).andThen fun d j places => ?_
      rintro ⟨rfl, onward, reached | ⟨rfl, ended⟩⟩
      · exact .succeed (places.concat ⟨begins, reached⟩) ⟨onward, reached⟩
      · exact absurd ended (Nat.ne_of_lt (holds.position_lt more))
    have value := atValue.andThen fun d j places faces =>
      member_ensures sound role member faces.1 faces.2 places
    refine value.andThen fun d j places touches => ?_
    cases left : j.hasMore with
    | true => exact place_ensures touches places _ _
    | false =>
      have ended : j.position = cs.length := by
        have within := touches.1.position_le
        have length := touches.1.length_eq
        simp only [Input.hasMore, decide_eq_false_iff_not] at left
        omega
      exact .succeed places ⟨touches.1, .inr ended⟩

theorem keeps_places : Keeps g owner members (fun d => g.Places cs d.steps) fun _ j => j.Stands cs where
  value m member pending next c i peeked places stands := by
    obtain ⟨word, peeked⟩ := Option.isSome_iff_exists.mp peeked
    have begins := stands.startsWord (stands.1.lt_of_peekWord peeked)
    rw [Attempt.andThen_assoc]
    exact (member_ensures sound role member stands.1 begins places).andThen
      fun d j places touches => place_ensures touches places pending next
  flag m member pending c i peeked places stands := by
    obtain ⟨word, peeked⟩ := Option.isSome_iff_exists.mp peeked
    have begins := stands.startsWord (stands.1.lt_of_peekWord peeked)
    exact takeFlagged_ensures sound role member begins pending
      (stands.1.reaches stands.1.laid.reaches_readWord) places
  note _ _ places := places

theorem places_read (holds : i.Holds cs) (begins : Text.StartsWord cs i.position)
    (places : g.Places cs c.steps) : g.Places cs (members.read g owner c i).context.steps :=
  (keeps_places sound role).read (places.concat ⟨rfl, .inl begins⟩) ⟨holds, .inl begins⟩

theorem places_matchComposed (n : Node S A) (holds : i.Holds cs)
    (begins : Text.StartsWord cs i.position) (places : g.Places cs c.steps) :
    g.Places cs (n.matchComposed g owner members c i).context.steps := by
  have read := places_read sound role holds begins places
  simp only [Node.matchComposed, Attempt.asMalformed, Attempt.andThen]
  split
  · rw [(n.adds_settle _ _).1.steps, List.append_nil]
    exact read
  · exact read

end Members

end Composed

end Places

structure View.Spaced (g : Grammar S A) (cs : List Char) (v : View) : Prop where
  begins : Text.StartsWord cs v.span.start
  covers : ∀ s ∈ v.steps, s.span.stop ≤ v.span.stop
  places : g.Places cs v.steps

structure Grammar.Linked (g : Grammar S A) (cs : List Char) (frames : List (Frame S A)) : Prop where
  spaced : ∀ f ∈ frames, f.toView.Spaced g cs
  chain : frames.IsChain fun f next => next.span.start ≤ f.span.stop + 1

structure Context.Onward (g : Grammar S A) (cs : List Char) (c : Context S A) (i : Input) : Prop
    extends c.toView.Spaced g cs where
  free : c.redirected = []
  holds : i.Holds cs
  faces : Text.StartsWord cs i.position
  forward : c.span.start ≤ i.position

section Frames

variable {g : Grammar S A} {cs : List Char} {id child : NodeId} {c : Context S A} {i : Input}
  {p : Parse S A}

theorem View.Spaced.adds {f f' : Frame S A} (spaced : f.toView.Spaced g cs) {new : List Step}
    (adds : f.Adds new f') (behind : ∀ s ∈ new, f.span.start ≤ s.span.start)
    (places : g.Places cs f'.steps) : f'.toView.Spaced g cs ∧ f'.span.start = f.span.start := by
  have start : f'.span.start = f.span.start := by
    apply adds.isHull.start_eq
    intro t member
    obtain ⟨s, inside, rfl⟩ := List.mem_map.mp member
    exact behind s inside
  exact ⟨⟨start ▸ spaced.begins, adds.covers spaced.covers, places⟩, start⟩

namespace Context.Onward

variable (onward : c.Onward g cs i)
include onward

theorem holds_matchChild : ((g.node child).matchChild child c i).input.Holds cs :=
  onward.holds.reaches ((g.node child).reaches_matchChild onward.holds.laid child c)

theorem endsWord (matched : ((g.node child).matchChild child c i).fault = none) :
    Text.EndsWord cs ((g.node child).matchChild child c i).input.position := by
  have holds : ((g.node child).matchChild child c i).input.Holds cs := onward.holds_matchChild
  obtain ⟨-, ended, -⟩ := Node.matchChild_fault_eq_none.mp matched
  rw [Node.input_matchChild] at holds ⊢
  have peeked := holds.peek_eq_getElem?
  rw [Text.EndsWord]
  cases found : cs[((g.node child).matchWord child c i).input.position]? with
  | none => rfl
  | some ch =>
    obtain ⟨inside, -⟩ := List.getElem?_eq_some_iff.mp found
    have more : ((g.node child).matchWord child c i).input.hasMore = true := by
      rw [Input.hasMore, holds.length_eq]
      simpa using inside
    cases blank : Text.isBlank ch with
    | true => exact blank
    | false => simp [Node.endWord, more, peeked, found, blank, Attempt.fail] at ended

theorem next (matched : ((g.node child).matchChild child c i).fault = none)
    (more : ((g.node child).matchChild child c i).input.hasMore = true) :
    let j := ((g.node child).matchChild child c i).input
    j.readChar.2.Holds cs ∧ j.readChar.2.position = j.position + 1 ∧
      Text.StartsWord cs j.readChar.2.position := by
  intro j
  have holds : j.Holds cs := onward.holds_matchChild
  have inside := holds.position_lt more
  obtain ⟨next, position⟩ := holds.readChar_next inside
  rw [position]
  exact ⟨next, rfl, (onward.endsWord matched).startsWord inside⟩

variable (sound : g.Sound)
include sound

theorem spaced_matchComposed {members : Composed} (role : (g.node child).role = .composed members) :
    let d := ((g.node child).matchComposed g child members c i).context
    d.toView.Spaced g cs ∧ d.span.start = c.span.start ∧ d.redirected = [] := by
  intro d
  have records := (g.node child).records_matchComposed g members child onward.holds.laid c
  obtain ⟨new, adds, -, ordered⟩ := records.added
  have places : g.Places cs d.steps :=
    Composed.places_matchComposed sound role _ onward.holds onward.faces onward.places
  have behind : ∀ s ∈ members.firstPlace child i :: new, c.span.start ≤ s.span.start := by
    intro s member
    rcases List.mem_cons.mp member with rfl | later
    · exact onward.forward
    · have bounds := ordered.bounds _ (List.mem_map_of_mem later)
      exact Nat.le_trans onward.forward bounds.1
  obtain ⟨spaced, start⟩ := onward.toSpaced.adds ((c.adds_record _ _).trans adds) behind places
  exact ⟨spaced, start, records.redirected.trans onward.free⟩

theorem spaced_matchChild (takes : g.Takes id c i child) :
    let a := (g.node child).matchChild child c i
    a.context.toView.Spaced g cs ∧ a.context.span.start = c.span.start ∧
      a.context.redirected = [] ∧ i.position ≤ a.input.position ∧
      a.input.position ≤ a.context.span.stop := by
  intro a
  have adds := takes.adds sound
  have placed : Step.Placed g cs c.steps ⟨.node child, ⟨i.position, a.input.position⟩⟩ :=
    ⟨onward.faces, .inl (onward.endsWord takes.matched)⟩
  have places : g.Places cs a.context.steps := by
    rw [adds.steps]
    exact onward.places.concat placed
  obtain ⟨spaced, start⟩ := onward.toSpaced.adds adds (by simpa using onward.forward) places
  refine ⟨spaced, start, (Node.redirected_matchChild takes.matched).trans onward.free, ?_, ?_⟩
  · exact ((g.node child).reaches_matchChild onward.holds.laid child c).forward
  · exact spaced.covers _ (by rw [adds.steps]; exact List.mem_concat_self)

end Context.Onward

theorem Grammar.linked_single {f : Frame S A} (spaced : f.toView.Spaced g cs) : g.Linked cs [f] :=
  ⟨by simpa using spaced, .singleton _⟩

theorem Context.onward_freshChild (c : Context S A) (target : NodeId) (holds : i.Holds cs)
    (begins : Text.StartsWord cs i.position) : (c.freshChild target i.position).Onward g cs i :=
  ⟨⟨begins, fun _ member => absurd member List.not_mem_nil, Grammar.places_nil⟩, rfl, holds, begins,
    Nat.le_refl _⟩

theorem Grammar.Route.linked (sound : g.Sound) (route : g.Route id c i p) (onward : c.Onward g cs i) :
    g.Linked cs p.context.frames ∧ p.context.span.start = c.span.start := by
  have alone {d : Context S A} (spaced : d.toView.Spaced g cs) (free : d.redirected = []) :
      g.Linked cs d.frames := by
    rw [Context.frames, free]
    exact linked_single spaced
  induction route with
  | stop faults => exact ⟨alone onward.toSpaced onward.free, rfl⟩
  | @composed id child c i members faults tried composed told =>
    obtain ⟨spaced, start, free⟩ :=
      onward.spaced_matchComposed sound (Node.role_of_composed? composed)
    exact ⟨alone spaced free, start⟩
  | ended takes last =>
    obtain ⟨spaced, start, free, -⟩ := onward.spaced_matchChild sound takes
    exact ⟨alone spaced free, start⟩
  | @deeper id child c i p takes more stays rest ih =>
    obtain ⟨spaced, start, free, reached, -⟩ := onward.spaced_matchChild sound takes
    obtain ⟨holds, position, begins⟩ := onward.next takes.matched more
    have forward := onward.forward
    obtain ⟨linked, same⟩ := ih ⟨spaced, free, holds, begins, by omega⟩
    exact ⟨linked, same.trans start⟩
  | @redirect id child target c i p takes more redirect rest ih =>
    obtain ⟨spaced, start, -, -, reached⟩ := onward.spaced_matchChild sound takes
    obtain ⟨holds, position, begins⟩ := onward.next takes.matched more
    obtain ⟨linked, same⟩ := ih (Context.onward_freshChild _ target holds begins)
    have behind : p.context.span.start ≤
        ((g.node child).matchChild child c i).context.span.stop + 1 := by
      rw [same]
      exact position ▸ Nat.succ_le_succ reached
    refine ⟨⟨?_, .cons_cons behind linked.chain⟩, start⟩
    exact List.forall_mem_cons.mpr ⟨spaced, linked.spaced⟩

theorem Grammar.Sound.linked_parse (sound : g.Sound) (source : S) (line : String) :
    g.Linked line.toList (g.parse source (.ofText line)).context.frames ∧
      (g.parse source (.ofText line)).context.span.start = 0 := by
  have onward : (Context.start source .root (Input.ofText line).position : Context S A).Onward g
      line.toList (.ofText line) :=
    ⟨⟨.inl rfl, fun _ member => absurd member List.not_mem_nil, places_nil⟩, rfl,
      Input.holds_ofText line, .inl rfl, Nat.le_refl _⟩
  exact (g.route_parse source (.ofText line)).linked sound onward

end Frames

end CommandGrammar
