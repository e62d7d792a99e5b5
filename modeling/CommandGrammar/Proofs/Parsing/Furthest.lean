import CommandGrammar.Proofs.Parsing.Calls
import CommandGrammar.Proofs.Parsing.Literals

/-!
How far the branches of a parse got, and where the complaint about several of them stands. It stands where
the branch stopped that was taken; a branch that was passed over may have got further.
-/

set_option autoImplicit false

namespace CommandGrammar

variable {S A : Type}

namespace Grammar

section Branches

variable (g : Grammar S A)

-- Of some children those that are tried in turn; none is tried behind one that decides.
def exploredOf (c : Context S A) (i : Input) : List NodeId → List NodeId
  | [] => []
  | child :: rest => child :: if g.decides c i child then [] else exploredOf c i rest

def explored (k : Call S A) : List NodeId :=
  g.exploredOf k.context k.input (g.candidates k.node k.context.source k.input)

def refuses (k : Call S A) (child : NodeId) : Prop :=
  g.decides k.context k.input child = false ∧ g.isMatch k.context k.input child = false

/-- Where the branches stop that a call explores: at the call if all children refuse, and for each child
where it left the line, unless a further call was made behind it. -/
inductive StopsAt (g : Grammar S A) : Call S A → Nat → Prop
  | here {k : Call S A} : (∀ child ∈ g.explored k, g.refuses k child) → g.StopsAt k k.input.position
  | child {k : Call S A} {child : NodeId} : child ∈ g.explored k →
    g.call? k.context k.input child = none →
    g.StopsAt k (g.attempt k.context k.input child).input.position
  | behind {k k' : Call S A} {child : NodeId} {p : Nat} : child ∈ g.explored k →
    g.call? k.context k.input child = some k' → g.StopsAt k' p → g.StopsAt k p

def Furthest (k : Call S A) (p : Nat) : Prop := g.StopsAt k p ∧ ∀ q, g.StopsAt k q → q ≤ p

def StopsBehind (k : Call S A) (child : NodeId) (p : Nat) : Prop :=
  match g.call? k.context k.input child with
  | none => p = (g.attempt k.context k.input child).input.position
  | some k' => g.StopsAt k' p

inductive Selects (g : Grammar S A) (k : Call S A) : NodeId → Prop
  | decided {child : NodeId} : child ∈ g.explored k → g.decides k.context k.input child = true →
    g.Selects k child
  | best {before after : List NodeId} {child : NodeId} :
    (∀ other ∈ g.explored k, g.decides k.context k.input other = false) →
    (g.explored k).filter (g.isMatch k.context k.input) = before ++ child :: after →
    (∀ other ∈ before, (g.follow k.context k.input child).rank < (g.follow k.context k.input other).rank) →
    (∀ other ∈ after, (g.follow k.context k.input child).rank ≤ (g.follow k.context k.input other).rank) →
    g.Selects k child

/-- Where the branches stop that were explored and not taken: those beside the child that was selected,
and all where none was; and so on behind the selected one. -/
inductive PassesOver (g : Grammar S A) : Call S A → Nat → Prop
  | refused {k : Call S A} {child : NodeId} {p : Nat} : (∀ child ∈ g.explored k, g.refuses k child) →
    child ∈ g.explored k → g.StopsBehind k child p → g.PassesOver k p
  | beside {k : Call S A} {selected child : NodeId} {p : Nat} : g.Selects k selected →
    child ∈ g.explored k → child ≠ selected → g.StopsBehind k child p → g.PassesOver k p
  | along {k k' : Call S A} {selected : NodeId} {p : Nat} : g.Selects k selected →
    g.call? k.context k.input selected = some k' → g.PassesOver k' p → g.PassesOver k p

end Branches

variable {g : Grammar S A} {k k' : Call S A} {child : NodeId} {c : Context S A} {i : Input} {p : Nat}

theorem StopsBehind.stopsAt (member : child ∈ g.explored k) (stops : g.StopsBehind k child p) :
    g.StopsAt k p := by
  unfold StopsBehind at stops
  split at stops
  · rename_i alone
    exact stops ▸ .child member alone
  · rename_i k' asked
    exact .behind member asked stops

theorem exploredOf_cases (tried : List NodeId) :
    (∀ child ∈ tried, g.decides c i child = false) ∧ g.exploredOf c i tried = tried ∨
    ∃ before child after, tried = before ++ child :: after ∧ (∀ b ∈ before, g.decides c i b = false) ∧
      g.decides c i child = true ∧ g.exploredOf c i tried = before ++ [child] := by
  induction tried with
  | nil => exact .inl ⟨by simp, rfl⟩
  | cons child rest ih =>
    rw [exploredOf]
    cases decides : g.decides c i child with
    | true => exact .inr ⟨[], child, rest, rfl, by simp, decides, rfl⟩
    | false =>
      rw [if_neg (by simp)]
      rcases ih with ⟨undecided, all⟩ | ⟨before, b, after, rfl, undecided, settles, some⟩
      · exact .inl ⟨by simpa [decides] using undecided, by rw [all]⟩
      · exact .inr ⟨child :: before, b, after, rfl, by simpa [decides] using undecided, settles,
          by rw [some]; rfl⟩

theorem explored_cases (g : Grammar S A) (k : Call S A) :
    (∀ child ∈ g.candidates k.node k.context.source k.input,
        g.decides k.context k.input child = false) ∧
      g.explored k = g.candidates k.node k.context.source k.input ∨
    ∃ before child after, g.candidates k.node k.context.source k.input = before ++ child :: after ∧
      (∀ b ∈ before, g.decides k.context k.input b = false) ∧
      g.decides k.context k.input child = true ∧ g.explored k = before ++ [child] :=
  exploredOf_cases _

theorem Selects.mem_explored (selects : g.Selects k child) : child ∈ g.explored k := by
  cases selects with
  | decided member decides => exact member
  | best undecided split less atMost =>
    have among : child ∈ (g.explored k).filter (g.isMatch k.context k.input) := by simp [split]
    exact (List.mem_filter.mp among).1

theorem Selects.proceeds (selects : g.Selects k child) :
    g.decides k.context k.input child = true ∨ g.isMatch k.context k.input child = true := by
  cases selects with
  | decided member decides => exact .inl decides
  | best undecided split less atMost =>
    have among : child ∈ (g.explored k).filter (g.isMatch k.context k.input) := by simp [split]
    exact .inr (List.mem_filter.mp among).2

theorem reaches_attempt (laid : i.Laid) (c : Context S A) (child : NodeId) :
    i.Reaches (g.attempt c i child).input := by
  unfold attempt
  split
  · exact ((g.node child).records_matchComposed g _ child laid c).reached
  · exact (g.node child).reaches_matchChild laid child c

theorem attempt_of_plain (plain : (g.node child).composed? = none) :
    g.attempt c i child = (g.node child).matchChild child c i := by
  simp only [attempt, plain]

theorem rest_follow_of_alone (alone : g.call? c i child = none)
    (proceeds : g.decides c i child = true ∨ g.isMatch c i child = true) :
    (g.follow c i child).rest = (g.attempt c i child).input := by
  cases composed : (g.node child).composed? with
  | some members => simp [follow, Node.isComposed, composed]
  | none =>
    have same : g.attempt c i child = (g.node child).matchChild child c i := attempt_of_plain composed
    have matched : g.isMatch c i child = true := by
      rcases proceeds with decides | matched
      · simp only [Grammar.decides, Node.isComposed, composed, Option.isSome_none, Bool.false_or,
          Bool.and_eq_true] at decides
        exact decides.1.1
      · exact matched
    cases more : (g.attempt c i child).input.hasMore with
    | false => simp [follow, more]
    | true =>
      have asked : g.call? c i child = some (g.callBehind (g.attempt c i child) child) :=
        call?_eq_some.mpr ⟨composed, by simpa [isMatch, same] using matched, same ▸ more, by rw [same]⟩
      rw [asked] at alone
      simp at alone

theorem follow_of_call? (asked : g.call? c i child = some k) :
    (g.follow c i child).rest = (g.parseBelow k.node k.context k.input).rest ∧
      (g.follow c i child).faults = (g.parseBelow k.node k.context k.input).faults := by
  obtain ⟨composed, -, more, rfl⟩ := call?_eq_some.mp asked
  rw [← attempt_of_plain composed] at more ⊢
  simp only [follow, Node.isComposed, composed, more, callBehind]
  cases (g.node child).redirect <;> exact ⟨rfl, rfl⟩

theorem isMatch_of_call? (asked : g.call? c i child = some k) : g.isMatch c i child = true := by
  obtain ⟨composed, fault, -, -⟩ := call?_eq_some.mp asked
  simp [isMatch, attempt_of_plain composed, fault]

theorem selects_cases (laid : k.input.Laid) :
    (∀ child ∈ g.explored k, g.refuses k child) ∧
      (g.parseBelow k.node k.context k.input).rest = k.input ∨
    ∃ child, g.Selects k child ∧
      (g.parseBelow k.node k.context k.input).rest = (g.follow k.context k.input child).rest := by
  rcases g.explored_cases k with
    ⟨undecided, all⟩ | ⟨before, child, after, tried, undecided, decides, some⟩
  · by_cases matched :
      (g.candidates k.node k.context.source k.input).filter (g.isMatch k.context k.input) = []
    · have rest := (g.parseBelow_of_not_isMatch laid k.node k.context undecided matched).2.1
      refine .inl ⟨fun child member => ?_, rest⟩
      rw [all] at member
      exact ⟨undecided child member, by simpa using List.filter_eq_nil_iff.mp matched child member⟩
    · obtain ⟨before, child, after, split, parse, less, atMost⟩ :=
        g.parseBelow_of_isMatch laid k.node k.context undecided matched
      rw [← all] at split undecided
      exact .inr ⟨child, .best undecided split less atMost, by rw [parse]⟩
  · have rest := (g.parseBelow_of_decides laid k.node k.context tried undecided decides).2
    exact .inr ⟨child, .decided (by simp [some]) decides, rest⟩

theorem Selects.position (selects : g.Selects k child)
    (rest : (g.parseBelow k.node k.context k.input).rest = (g.follow k.context k.input child).rest)
    (stops : g.StopsBehind k child p) :
    p = (g.parseBelow k.node k.context k.input).rest.position ∨
      ∃ k', g.call? k.context k.input child = some k' ∧
        (g.parseBelow k'.node k'.context k'.input).rest =
          (g.parseBelow k.node k.context k.input).rest := by
  unfold StopsBehind at stops
  split at stops
  · rename_i alone
    exact .inl (by rw [rest, rest_follow_of_alone alone selects.proceeds, stops])
  · rename_i k' asked
    exact .inr ⟨k', asked, by rw [rest, (follow_of_call? asked).1]⟩

theorem stopsAt_parseBelow (laid : k.input.Laid) :
    g.StopsAt k (g.parseBelow k.node k.context k.input).rest.position := by
  generalize left : k.input.length - k.input.position = n
  induction n using Nat.strongRecOn generalizing k with
  | ind n ih =>
    rcases selects_cases (g := g) laid with ⟨refused, rest⟩ | ⟨child, selects, rest⟩
    · rw [rest]
      exact .here refused
    · rw [rest]
      cases asked : g.call? k.context k.input child with
      | none =>
        rw [rest_follow_of_alone asked selects.proceeds]
        exact .child selects.mem_explored asked
      | some k' =>
        obtain ⟨reached, further⟩ := reaches_of_call? laid asked
        rw [(follow_of_call? asked).1]
        have length := reached.length
        have within := reached.within
        exact .behind selects.mem_explored asked (ih _ (by omega) (reached.laid laid) rfl)

theorem StopsAt.le_length (stops : g.StopsAt k p) (laid : k.input.Laid) : p ≤ k.input.length := by
  induction stops with
  | here refused => exact laid.position_le
  | child member alone => exact (reaches_attempt laid _ _).within
  | behind member asked stops ih =>
    have reached := (reaches_of_call? laid asked).1
    exact reached.length ▸ ih (reached.laid laid)

theorem PassesOver.stopsAt (passes : g.PassesOver k p) (laid : k.input.Laid) : g.StopsAt k p := by
  induction passes with
  | refused all member stops => exact stops.stopsAt member
  | beside selects member other stops => exact stops.stopsAt member
  | @along k k' selected p selects asked passes ih =>
    have reached := (reaches_of_call? laid asked).1
    exact .behind selects.mem_explored asked (ih (reached.laid laid))

theorem StopsAt.cases_parseBelow (stops : g.StopsAt k p) (laid : k.input.Laid) :
    p = (g.parseBelow k.node k.context k.input).rest.position ∨ g.PassesOver k p := by
  -- A child that was selected is followed further down, and any other was passed over.
  have passed {k : Call S A} {child : NodeId} {p : Nat} (laid : k.input.Laid)
      (member : child ∈ g.explored k) (stops : g.StopsBehind k child p)
      (onward : ∀ k', g.call? k.context k.input child = some k' →
        p = (g.parseBelow k'.node k'.context k'.input).rest.position ∨ g.PassesOver k' p) :
      p = (g.parseBelow k.node k.context k.input).rest.position ∨ g.PassesOver k p := by
    rcases selects_cases (g := g) laid with ⟨refused, -⟩ | ⟨selected, selects, rest⟩
    · exact .inr (.refused refused member stops)
    · by_cases same : child = selected
      · subst same
        rcases selects.position rest stops with here | ⟨k', asked, onto⟩
        · exact .inl here
        · rcases onward k' asked with here | passes
          · exact .inl (onto ▸ here)
          · exact .inr (.along selects asked passes)
      · exact .inr (.beside selects member same stops)
  induction stops with
  | @here k refused =>
    rcases selects_cases (g := g) laid with ⟨-, rest⟩ | ⟨child, selects, -⟩
    · exact .inl (by rw [rest])
    · obtain ⟨undecided, unmatched⟩ := refused child selects.mem_explored
      simpa [undecided, unmatched] using selects.proceeds
  | @child k child member alone =>
    exact passed laid member (by simp [StopsBehind, alone]) fun k' asked => by simp [alone] at asked
  | @behind k k' child p member asked stops ih =>
    have reached := (reaches_of_call? laid asked).1
    refine passed laid member (by simpa [StopsBehind, asked] using stops) fun k'' again => ?_
    obtain rfl : k' = k'' := Option.some.inj (asked.symm.trans again)
    exact ih (reached.laid laid)

theorem furthest_iff (laid : k.input.Laid) :
    g.Furthest k (g.parseBelow k.node k.context k.input).rest.position ↔
      ∀ p, g.PassesOver k p → p ≤ (g.parseBelow k.node k.context k.input).rest.position := by
  constructor
  · rintro ⟨-, most⟩ p passes
    exact most p (passes.stopsAt laid)
  · intro most
    refine ⟨stopsAt_parseBelow laid, fun p stops => ?_⟩
    rcases stops.cases_parseBelow laid with here | passes
    · exact Nat.le_of_eq here
    · exact most p passes

theorem furthest_of_not_hasMore (laid : k.input.Laid)
    (ended : (g.parseBelow k.node k.context k.input).rest.hasMore = false) :
    g.Furthest k (g.parseBelow k.node k.context k.input).rest.position := by
  refine ⟨stopsAt_parseBelow laid, fun p stops => ?_⟩
  have most := stops.le_length laid
  have length := ((g.route_parseBelow k.node k.context k.input).reaches laid).length
  simp only [Input.hasMore, decide_eq_false_iff_not] at ended
  omega

section SingleArguments

def SingleArgument (g : Grammar S A) : Prop :=
  ∀ id, ((g.node id).children.filter fun child => (g.node child).isArgument).length ≤ 1

theorem mem_candidates_of_mem_explored (member : child ∈ g.explored k) :
    child ∈ g.candidates k.node k.context.source k.input := by
  rcases g.explored_cases k with ⟨-, all⟩ | ⟨before, last, after, tried, -, -, some⟩
  · exact all ▸ member
  · rw [tried]
    rw [some, List.mem_append, List.mem_singleton] at member
    rcases member with early | rfl
    · exact List.mem_append_left _ early
    · simp

theorem rest_of_decides (laid : k.input.Laid) (member : child ∈ g.explored k)
    (decides : g.decides k.context k.input child = true) :
    (g.parseBelow k.node k.context k.input).rest = (g.follow k.context k.input child).rest := by
  rcases g.explored_cases k with
    ⟨undecided, all⟩ | ⟨before, last, after, tried, undecided, settles, some⟩
  · rw [all] at member
    simp [undecided child member] at decides
  · rw [some, List.mem_append, List.mem_singleton] at member
    rcases member with early | rfl
    · simp [undecided child early] at decides
    · exact (g.parseBelow_of_decides laid k.node k.context tried undecided settles).2

theorem parseBelow_of_single (laid : k.input.Laid)
    (only : g.candidates k.node k.context.source k.input = [child]) :
    (g.parseBelow k.node k.context k.input).faults.length = 1 ∨
      (g.decides k.context k.input child = true ∨ g.isMatch k.context k.input child = true) ∧
      (g.parseBelow k.node k.context k.input).rest = (g.follow k.context k.input child).rest ∧
      (g.parseBelow k.node k.context k.input).faults = (g.follow k.context k.input child).faults := by
  rw [g.parseBelow_eq laid, only]
  simp only [tryChildren]
  cases composed : (g.node child).composed? with
  | some members =>
    rw [tryChild_composed composed]
    cases fault : ((g.node child).matchComposed g child members k.context k.input).fault with
    | some f => exact .inl rfl
    | none =>
      refine .inr ⟨.inl ?_, ?_, ?_⟩
      · simp [Grammar.decides, Node.isComposed, composed]
      · simp [follow, attempt, Node.isComposed, composed]
      · simp [follow, attempt, Node.isComposed, composed, fault]
  | none =>
    have same : g.attempt k.context k.input child = (g.node child).matchChild child k.context k.input :=
      attempt_of_plain composed
    cases fault : ((g.node child).matchChild child k.context k.input).fault with
    | some f =>
      rw [tryChild_rejected composed fault]
      exact .inl rfl
    | none =>
      refine .inr ⟨.inr (by simp [isMatch, same, fault]), ?_⟩
      cases more : ((g.node child).matchChild child k.context k.input).input.hasMore with
      | false =>
        rw [tryChild_ended composed fault more]
        simp [Parse.best, follow, same, more, fault]
      | true =>
        cases redirect : (g.node child).redirect with
        | none =>
          rw [tryChild_below composed fault more redirect]
          simp [Parse.best, follow, Node.isComposed, composed, same, more, redirect]
        | some target =>
          rw [tryChild_redirect composed fault more redirect]
          simp [follow, Node.isComposed, composed, same, more, redirect]

theorem refuses_of_literal {name : String} (role : (g.node child).role = .literal name)
    (unnamed : i.peekWord.map Word.asText ≠ some name) :
    g.isMatch c i child = false ∧ (g.attempt c i child).input = i := by
  have composed : (g.node child).composed? = none := by simp [Node.composed?, role]
  have refused : (g.node child).matchWord child c i =
      .fail c i (.here i (.keywordExpected name ((i.peekWord.map Word.asText).getD "")) none) := by
    cases next : i.peekWord with
    | none => simp [Node.matchWord, role, matchLiteral, next]
    | some w =>
      have other : w.asText ≠ name := by simpa [next] using unnamed
      simp [Node.matchWord, role, matchLiteral, next, other]
  constructor
  · rw [isMatch, attempt_of_plain composed, Option.isNone_eq_false_iff, Option.isSome_iff_ne_none]
    intro fault
    simpa [refused, Attempt.fail] using (Node.matchChild_fault_eq_none.mp fault).1
  · rw [attempt_of_plain composed, Node.input_matchChild, refused, Attempt.fail]

theorem Sound.candidates_cases (sound : g.Sound) (single : g.SingleArgument) (id : NodeId)
    (c : Context S A) (i : Input) :
    (∀ child ∈ g.candidates id c.source i, g.candidates id c.source i = [child]) ∨
      ∀ child ∈ g.candidates id c.source i, (g.node child).isComposed = true ∨
        g.isMatch c i child = false ∧ (g.attempt c i child).input = i := by
  have alone {tried : List NodeId} (few : tried.length ≤ 1)
      (child : NodeId) (member : child ∈ tried.filter fun child => (g.node child).usableBy c.source) :
      (tried.filter fun child => (g.node child).usableBy c.source) = [child] := by
    have one := Nat.le_antisymm (Nat.le_trans (List.length_filter_le ..) few)
      (List.length_pos_of_mem member)
    obtain ⟨other, all⟩ := List.length_eq_one_iff.mp one
    rw [all, List.mem_singleton] at member
    rw [all, member]
  unfold candidates relevant
  split
  · exact .inl (alone (Nat.le_refl 1))
  · rename_i unnamed
    split
    · rename_i plain
      refine .inr fun child member => ?_
      have inside := (List.mem_filter.mp member).1
      have proper := sound.isRoot_of_mem_children inside
      cases role : (g.node child).role with
      | root => simp [Node.isRoot, role] at proper
      | composed members => exact .inl (by simp [Node.isComposed, Node.composed?, role])
      | argument name type =>
        have refused := List.filter_eq_nil_iff.mp plain child inside
        simp [Node.isArgument, role] at refused
      | literal name =>
        refine .inr (refuses_of_literal role fun named => ?_)
        obtain ⟨w, next, rfl⟩ := Option.map_eq_some_iff.mp named
        have known := ((sound.indexed_node id).literals w.asText child).mpr ⟨inside, role⟩
        rw [next, Option.bind_some, known] at unnamed
        simp at unnamed
    · exact .inl (alone (single id))

theorem StopsAt.le_of_single (sound : g.Sound) (single : g.SingleArgument) (stops : g.StopsAt k p)
    (laid : k.input.Laid) (several : (g.parseBelow k.node k.context k.input).faults.length ≠ 1) :
    p ≤ (g.parseBelow k.node k.context k.input).rest.position := by
  have onward (k : Call S A) (laid : k.input.Laid) :
      k.input.position ≤ (g.parseBelow k.node k.context k.input).rest.position :=
    ((g.route_parseBelow k.node k.context k.input).reaches laid).forward
  induction stops with
  | @here k refused => exact onward k laid
  | @child k child member alone =>
    rcases sound.candidates_cases single k.node k.context k.input with only | refused
    · rcases parseBelow_of_single laid
        (only child (mem_candidates_of_mem_explored member)) with one | ⟨proceeds, rest, -⟩
      · exact absurd one several
      · rw [rest, rest_follow_of_alone alone proceeds]
    · rcases refused child (mem_candidates_of_mem_explored member) with composed | ⟨-, same⟩
      · have decides : g.decides k.context k.input child = true := by simp [Grammar.decides, composed]
        rw [rest_of_decides laid member decides, rest_follow_of_alone alone (.inl decides)]
      · rw [same]
        exact onward k laid
  | @behind k k' child p member asked stops ih =>
    have reached := (reaches_of_call? laid asked).1
    have matched := isMatch_of_call? asked
    rcases sound.candidates_cases single k.node k.context k.input with only | refused
    · rcases parseBelow_of_single laid
        (only child (mem_candidates_of_mem_explored member)) with one | ⟨-, rest, faults⟩
      · exact absurd one several
      · obtain ⟨same, same'⟩ := follow_of_call? asked
        rw [rest, same]
        rw [faults, same'] at several
        exact ih (reached.laid laid) several
    · rcases refused child (mem_candidates_of_mem_explored member) with composed | ⟨unmatched, -⟩
      · simp [call?, composed] at asked
      · simp [unmatched] at matched

end SingleArguments

def entry (source : S) (i : Input) : Call S A := ⟨.root, .start source .root i.position, i⟩

end Grammar

theorem Parse.check_of_several {p : Parse S A} (incomplete : p.isComplete = false)
    (several : p.faults.length ≠ 1) :
    p.check = .error (if p.context.span.isEmpty then .unknownCommand p.rest else .incorrect p.rest none) := by
  unfold Parse.check
  rw [if_neg (by simp [incomplete])]
  split
  · rename_i only faults
    simp [faults] at several
  · split <;> rfl

namespace Grammar

/-- The complaint about several branches stands where the one stopped that was taken, which is the
furthest position just if no branch that was passed over got further; so it is at the end of the line, and
in a grammar where no two arguments compete. -/
theorem parse_check_position (g : Grammar S A) (source : S) (r : Rendering) (values : List Value)
    (n : Nat) :
    let i := (Input.ofValues r values).seek n
    let p := g.parse source i
    let k : Call S A := entry source i
    p.isComplete = false → p.faults.length ≠ 1 →
      (∃ f, p.check = .error f ∧ (f = .unknownCommand p.rest ∨ f = .incorrect p.rest none) ∧
        f.position? = some p.rest.position) ∧
      g.StopsAt k p.rest.position ∧
      (g.Furthest k p.rest.position ↔ ∀ q, g.PassesOver k q → q ≤ p.rest.position) ∧
      (p.rest.hasMore = false → g.Furthest k p.rest.position) ∧
      (g.Reachable → g.SingleArgument → g.Furthest k p.rest.position) := by
  intro i p k incomplete several
  have laid : k.input.Laid := Input.laid_ofValues r values n
  have same : g.parseBelow k.node k.context k.input = p := rfl
  have stops := stopsAt_parseBelow (g := g) laid
  have exactly := furthest_iff (g := g) laid
  have ended := furthest_of_not_hasMore (g := g) laid
  rw [same] at stops exactly ended
  refine ⟨⟨_, Parse.check_of_several incomplete several, ?_, ?_⟩, stops, exactly, ended, ?_⟩
  · split
    · exact .inl rfl
    · exact .inr rfl
  · split <;> rfl
  · intro reachable single
    refine ⟨stops, fun q further => ?_⟩
    have most := further.le_of_single reachable.sound single laid
    rw [same] at most
    exact most several

end Grammar

namespace Demo

theorem singleArgument_grammar : grammar.SingleArgument := by
  intro id
  by_cases known : id < grammar.nodeCount
  · have all : ∀ id < grammar.nodeCount,
        ((grammar.node id).children.filter fun child => (grammar.node child).isArgument).length ≤ 1 := by
      decide +kernel
    exact all id known
  · have beyond : grammar.node? id = none := List.getElem?_eq_none (Nat.le_of_not_lt known)
    simp [Grammar.node, beyond, Node.blankRoot, Node.ofRole]

def moveNow : Input := (Input.ofValues .standard [.ofString "move home away fast now"]).seek 0

theorem move_now_furthest :
    (grammar.parse ⟨"console", true⟩ moveNow).isComplete = false ∧
      (grammar.parse ⟨"console", true⟩ moveNow).faults.length ≠ 1 ∧
      (grammar.parse ⟨"console", true⟩ moveNow).rest.position = 20 ∧
      grammar.Furthest (Grammar.entry ⟨"console", true⟩ moveNow)
        (grammar.parse ⟨"console", true⟩ moveNow).rest.position := by
  have incomplete : (grammar.parse ⟨"console", true⟩ moveNow).isComplete = false := by decide +kernel
  have several : (grammar.parse ⟨"console", true⟩ moveNow).faults.length ≠ 1 := by decide +kernel
  obtain ⟨-, -, -, -, furthest⟩ := grammar.parse_check_position ⟨"console", true⟩ .standard
    [.ofString "move home away fast now"] 0 incomplete several
  exact ⟨incomplete, several, by decide +kernel, furthest reachable_grammar singleArgument_grammar⟩

def along (k : Call User Deed) (child : NodeId) : Call User Deed :=
  twoWays.callBehind ((twoWays.node child).matchChild child k.context k.input) child

theorem call?_along {k : Call User Deed} {child : NodeId}
    (asked : (twoWays.call? k.context k.input child).isSome = true) :
    twoWays.call? k.context k.input child = some (along k child) := by
  obtain ⟨k', found⟩ := Option.isSome_iff_exists.mp asked
  rw [found, ← (Grammar.call?_eq_some.mp found).2.2.2, along]

theorem twoWays_passesOver :
    let i := (Input.ofValues .standard [.ofString "one c d"]).seek 0
    let p := twoWays.parse ⟨"console", true⟩ i
    let k : Call User Deed := Grammar.entry ⟨"console", true⟩ i
    p.isComplete = false ∧ p.faults.length ≠ 1 ∧ p.check = .error (.incorrect p.rest none) ∧
      p.rest.position = 4 ∧ twoWays.StopsAt k 6 ∧ ¬ twoWays.Furthest k p.rest.position := by
  intro i p k
  have position : p.rest.position = 4 := by decide +kernel
  have further : twoWays.StopsAt k 6 := by
    have here : (along (along k 4) 5).input.position = 6 := by decide +kernel
    have refused : ∀ child ∈ twoWays.explored (along (along k 4) 5),
        twoWays.refuses (along (along k 4) 5) child := by
      unfold Grammar.refuses
      decide +kernel
    have last : twoWays.StopsAt (along (along k 4) 5) 6 := here ▸ .here refused
    exact .behind (by decide +kernel) (call?_along (by decide +kernel))
      (.behind (by decide +kernel) (call?_along (by decide +kernel)) last)
  refine ⟨by decide +kernel, by decide +kernel, by decide +kernel, position, further, ?_⟩
  rintro ⟨-, most⟩
  have bound := most 6 further
  omega

end Demo

end CommandGrammar
