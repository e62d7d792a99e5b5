import CommandGrammar.Proofs.Completion.Cursor
import CommandGrammar.Proofs.Completion.Replacing
import CommandGrammar.Proofs.Parsing.WordStarts

set_option autoImplicit false

namespace CommandGrammar

variable {S A : Type}

namespace Query

variable {cs : List Char} {g : Grammar S A}

theorem within_cases (fallback position : Nat) (previous : Matched) (steps : List Step) :
    (within fallback position previous steps).start = fallback ∨
      ∃ before s after, steps = before ++ s :: after ∧ s.span.contains position = true ∧
        (∀ t ∈ before, t.span.contains position = false) ∧
        (within fallback position previous steps).start = s.asQuery.start ∧
        (s.matched.isPlace = true → within fallback position previous steps = s.asQuery) := by
  induction steps generalizing previous with
  | nil => exact .inl rfl
  | cons s rest ih =>
    rw [within]
    cases inside : s.span.contains position with
    | true =>
      refine .inr ⟨[], s, rest, rfl, inside, by simp, ?_⟩
      obtain ⟨matched, span⟩ := s
      cases matched <;> simp [Matched.isPlace, Step.asQuery]
    | false =>
      simp only [Bool.false_eq_true, if_false]
      rcases ih s.matched with outside | ⟨before, t, after, split, contains, passed, query⟩
      · exact .inl outside
      · refine .inr ⟨s :: before, t, after, by rw [split]; rfl, contains, ?_, query⟩
        exact List.forall_mem_cons.mpr ⟨inside, passed⟩

/-- Where the query at a position leads: to the beginning of a word, to a flag that nothing follows,
into a flag, or behind the value of a member with which the line was given up. -/
inductive Lands (g : Grammar S A) (cs : List Char) (frames : List (Frame S A)) (position : Nat) :
    Query → Prop
  | word {q : Query} : Text.StartsWord cs (min q.start position) → Lands g cs frames position q
  | silent {owner : NodeId} {start : Nat} :
    Lands g cs frames position ⟨.flagValue owner none, start⟩
  | flag {f : Frame S A} {s : Step} {owner m : NodeId} {q : Query} : f ∈ frames → s ∈ f.steps →
    s.matched = .flagValue owner (some m) → s.span.start < position → position < s.span.stop →
    position ≤ q.start → Lands g cs frames position q
  | member {f : Frame S A} {s : Step} {m : NodeId} : frames.getLast? = some f →
    f.steps.getLast? = some s → s.matched = .node m → g.IsMember m → s.span.stop < position →
    Lands g cs frames position ⟨.node m, s.span.stop + 1⟩

section Lands

variable {f : Frame S A} {frames : List (Frame S A)} {position : Nat} {q : Query}

theorem Lands.cons (lands : Lands g cs frames position q) (f : Frame S A) :
    Lands g cs (f :: frames) position q := by
  cases lands with
  | word begins => exact .word begins
  | silent => exact .silent
  | flag among => exact .flag (List.mem_cons_of_mem _ among) ‹_› ‹_› ‹_› ‹_› ‹_›
  | member last =>
    refine .member ?_ ‹_› ‹_› ‹_› ‹_›
    rw [List.getLast?_cons, last]
    rfl

variable (spaced : f.toView.Spaced g cs) (begun : f.span.start ≤ position)
  (bound : position ≤ cs.length)
include spaced begun bound

theorem lands_within (among : f ∈ frames) :
    Lands g cs frames position (within f.span.start position (.node f.root) f.steps) := by
  have cases := within_cases f.span.start position (.node f.root) f.steps
  generalize within f.span.start position (.node f.root) f.steps = q at cases ⊢
  rcases cases with fallback | ⟨before, s, after, split, contains, passed, start, place⟩
  · apply Lands.word
    rw [fallback, Nat.min_eq_left begun]
    exact spaced.begins
  · obtain ⟨behind, upTo⟩ := (Span.contains_iff _ _).mp contains
    have recorded : s ∈ f.steps := by simp [split]
    have placed := spaced.places before s after split
    obtain ⟨matched, span⟩ := s
    dsimp only at behind upTo
    cases matched with
    | node id =>
      have start : q.start = span.start := start
      apply Lands.word
      rw [start, Nat.min_eq_left behind]
      exact placed.1
    | afterValue owner pending next =>
      have start : q.start = span.start := start
      apply Lands.word
      rw [start, Nat.min_eq_left behind]
      rcases placed.2 with begins | ⟨ended, t, early, touches⟩
      · exact begins
      · -- At the end of the line the position belongs to the value already.
        have ended : span.start = cs.length := ended
        have here : span.start = position := by omega
        rw [here, passed t early] at touches
        contradiction
    | flagValue owner member =>
      obtain rfl : q = ⟨.flagValue owner member, span.stop⟩ := place rfl
      cases member with
      | none => exact .silent
      | some m =>
        obtain ⟨begins, ends⟩ := placed
        by_cases inside : span.start < position ∧ position < span.stop
        · exact .flag among recorded rfl inside.1 inside.2 upTo
        · have edge : position = span.start ∨ position = span.stop := by omega
          apply Lands.word
          rw [Nat.min_eq_right upTo]
          rcases edge with rfl | rfl
          · exact begins
          · exact ends

theorem lands_behind (passed : f.span.stop < position) (last : frames.getLast? = some f) :
    Lands g cs frames position (behind f.toView f.root) := by
  rw [behind]
  cases ended : f.steps.getLast? with
  | none =>
    apply Lands.word
    rw [Nat.min_eq_left begun]
    exact spaced.begins
  | some s =>
    obtain ⟨before, split⟩ := List.getLast?_eq_some_iff.mp ended
    have placed := spaced.places before s [] split
    have covers := spaced.covers
    rw [split] at covers
    have ahead : s.span.stop < position := Nat.lt_of_le_of_lt (covers s List.mem_concat_self) passed
    obtain ⟨matched, span⟩ := s
    dsimp only at ahead
    cases matched with
    | node id =>
      rcases placed.2 with ends | member
      · apply Lands.word
        show Text.StartsWord cs (min (span.stop + 1) position)
        rw [Nat.min_eq_left ahead]
        exact ends.startsWord (Nat.lt_of_lt_of_le ahead bound)
      · exact .member last ended rfl member ahead
    | afterValue owner pending next =>
      apply Lands.word
      show Text.StartsWord cs (min span.start position)
      obtain ⟨point, begins | ⟨full, t, early, touches⟩⟩ := placed
      · have point : span.stop = span.start := point
        rw [Nat.min_eq_left (by omega)]
        exact begins
      · -- The line ends before the position.
        have reached := ((Span.contains_iff _ _).mp touches).2
        have full : span.start = cs.length := full
        have early := covers t (List.mem_append_left _ early)
        dsimp only at reached
        omega
    | flagValue owner member =>
      cases member with
      | none => exact .silent
      | some m =>
        apply Lands.word
        show Text.StartsWord cs (min span.stop position)
        rw [Nat.min_eq_left (Nat.le_of_lt ahead)]
        exact placed.2

end Lands

theorem lands_atFrame {position : Nat} {f : Frame S A} {below : List (Frame S A)}
    (linked : g.Linked cs (f :: below)) (begun : f.span.start ≤ position)
    (bound : position ≤ cs.length) : Lands g cs (f :: below) position (atFrame position f below) := by
  induction below generalizing f with
  | nil =>
    have spaced := linked.spaced f List.mem_cons_self
    rw [atFrame]
    by_cases inside : position ≤ f.span.stop
    · rw [upTo?_eq_some begun inside]
      exact lands_within spaced begun bound List.mem_cons_self
    · rw [upTo?_eq_none begun (Nat.lt_of_not_le inside)]
      exact lands_behind spaced begun bound (Nat.lt_of_not_le inside) rfl
  | cons next below ih =>
    have spaced := linked.spaced f List.mem_cons_self
    obtain ⟨chained, chain⟩ := List.isChain_cons_cons.mp linked.chain
    rw [atFrame]
    by_cases inside : position ≤ f.span.stop
    · rw [upTo?_eq_some begun inside]
      exact lands_within spaced begun bound List.mem_cons_self
    · rw [upTo?_eq_none begun (Nat.lt_of_not_le inside)]
      have later : g.Linked cs (next :: below) :=
        ⟨fun f member => linked.spaced f (List.mem_cons_of_mem _ member), chain⟩
      exact (ih later (by omega)).cons f

theorem lands_queryAt (sound : g.Sound) (source : S) (line : String) {position : Nat}
    (bound : position ≤ line.length) :
    let p := g.parse source (.ofText line)
    Lands g line.toList p.context.frames position (p.context.queryAt position) := by
  intro p
  obtain ⟨linked, start⟩ := sound.linked_parse source line
  exact lands_atFrame linked (start ▸ Nat.zero_le _) (by rwa [String.length_toList])

end Query

theorem Parse.suggest_eq_empty {g : Grammar S A} {settings : Settings} {p : Parse S A} {position : Nat}
    {q : Query} (query : p.context.queryAt position = q)
    (nothing : ∀ draft, ∀ r ∈ g.branches p.context q.parent draft, r = .offered .empty) :
    p.suggest g settings position = some .empty := by
  rw [p.suggest_eq_collect g, query]
  generalize replied : g.branches p.context q.parent _ = replies
  have nothing : ∀ r ∈ replies, r = .offered .empty := replied ▸ nothing _
  have answered : .never ∉ replies := fun among => by simpa using nothing _ among
  have merged : Completions.merge (replies.map Reply.inTime) = .empty := by
    have none : (replies.map Reply.inTime).filter (!·.isEmpty) = [] := by
      apply List.filter_eq_nil_iff.mpr
      intro b among
      obtain ⟨r, replied, rfl⟩ := List.mem_map.mp among
      rw [nothing r replied]
      simp [Reply.inTime, Completions.isEmpty, Completions.empty]
    rw [Completions.merge, none]
  have same : Completions.merge (replies.map Reply.inTime) = .merge [.empty] := merged
  rw [if_pos (.inr answered), Completions.collect_congr same, Completions.collect_empty]

namespace Parse

def InsideFlag (p : Parse S A) (position : Nat) : Prop :=
  ∃ f ∈ p.context.frames, ∃ s ∈ f.steps, (∃ owner m, s.matched = .flagValue owner (some m)) ∧
    s.span.start < position ∧ position < s.span.stop

def EndsWithMember (p : Parse S A) (g : Grammar S A) (stop : Nat) : Prop :=
  ∃ f, p.context.frames.getLast? = some f ∧ ∃ s, f.steps.getLast? = some s ∧ s.span.stop = stop ∧
    ∃ m, s.matched = .node m ∧ g.IsMember m ∧ (g.node m).children ≠ []

end Parse

namespace Grammar

variable {g : Grammar S A}

/-- Completions of a text replace it from the beginning of a word on. There are two exceptions: inside a
flag with a value behind it they are put in at the position itself, and behind the value of a member with
children one position further on. -/
theorem Reachable.suggest_startsWord (reachable : g.Reachable)
    (builtin : ∀ id name type, (g.node id).role = .argument name type → type.IsBuiltin)
    (settings : Settings) (source : S) (line : String) {position : Nat}
    (bound : position ≤ line.length) :
    let p := g.parse source (.ofText line)
    ∃ all, p.suggest g settings position = some all ∧ ∀ c ∈ all.list,
      Text.StartsWord line.toList c.span.start ∨
      (p.InsideFlag position ∧ c.span.start = position) ∨
      ∃ stop, p.EndsWithMember g stop ∧ stop < position ∧ c.span.start = stop + 1 := by
  intro p
  obtain ⟨all, suggested, -, each⟩ := suggest_covers builtin settings p position
  refine ⟨all, suggested, fun c member => ?_⟩
  have start : c.span.start = min (p.context.queryAt position).start position := by
    rw [(each c member).1]
  have lands : Query.Lands g line.toList p.context.frames position (p.context.queryAt position) :=
    Query.lands_queryAt reachable.sound source line bound
  obtain ⟨q, query⟩ : ∃ q, p.context.queryAt position = q := ⟨_, rfl⟩
  rw [query] at start lands
  have offered : ¬ ∀ draft, ∀ r ∈ g.branches p.context q.parent draft, r = .offered .empty := by
    intro nothing
    have none : p.suggest g settings position = some .empty := Parse.suggest_eq_empty query nothing
    obtain rfl : all = .empty := Option.some.inj (suggested.symm.trans none)
    exact absurd member List.not_mem_nil
  cases lands with
  | word begins => exact .inl (start ▸ begins)
  | silent => exact absurd (fun draft r among => List.mem_singleton.mp among) offered
  | flag among recorded matched behind before reached =>
    refine .inr (.inl ⟨⟨_, among, _, recorded, ⟨_, _, matched⟩, behind, before⟩, ?_⟩)
    rw [start, Nat.min_eq_right reached]
  | @member f s m last ended matched inside ahead =>
    refine .inr (.inr ⟨s.span.stop, ⟨f, last, s, ended, rfl, m, matched, inside, ?_⟩, ahead, ?_⟩)
    · intro childless
      apply offered
      intro draft r among
      simp [branches, childless] at among
    · rw [start]
      exact Nat.min_eq_left ahead

end Grammar

example :
    let command : Blueprint Demo.User Demo.Deed :=
      .literal "cmd" {} [.composed [.argument "first" .string {} []] {} []]
    let g := ((Grammar.empty.register .root command).1.register 2 (.literal "more" {} [])).1
    let line := "cmd \"a\"b"
    (g.parse ⟨"console", true⟩ (.ofText line)).suggest g {} 8 =
        some ⟨⟨8, 8⟩, [⟨⟨8, 8⟩, "more", none⟩]⟩ ∧
      ¬ Text.StartsWord line.toList 8 := by
  decide +kernel

namespace Demo

theorem suggest_speed_startsWord :
    let line := "move home --speed f"
    let all : Completions := ⟨⟨18, 19⟩, [⟨⟨18, 19⟩, "fast", none⟩]⟩
    19 ≤ line.length ∧
      (grammar.parse ⟨"console", true⟩ (.ofText line)).suggest grammar {} 19 = some all ∧
      ∀ c ∈ all.list, Text.StartsWord line.toList c.span.start := by
  intro line all
  have suggested : (grammar.parse ⟨"console", true⟩ (.ofText line)).suggest grammar {} 19 = some all := by
    decide +kernel
  have bound : 19 ≤ line.length := by decide
  obtain ⟨found, same, starts⟩ := reachable_grammar.suggest_startsWord readsPlaceFree_grammar.builtin {}
    ⟨"console", true⟩ line bound
  obtain rfl : all = found := Option.some.inj (suggested.symm.trans same)
  refine ⟨bound, suggested, fun c member => ?_⟩
  obtain rfl := List.mem_singleton.mp member
  rcases starts _ member with begins | ⟨-, here⟩ | ⟨stop, ⟨f, last, s, ended, -, m, matched, -⟩, -⟩
  · exact begins
  · simp at here
  · -- The last thing found is the flag, as its value is not one of the choices.
    have flag : ((grammar.parse ⟨"console", true⟩ (.ofText line)).context.frames.getLast?.bind
        fun f => f.steps.getLast?.map Step.matched) = some (.flagValue 9 (some 8)) := by decide +kernel
    rw [last, Option.bind_some, ended, Option.map_some, matched] at flag
    simp at flag

theorem suggest_midFlag :
    let line := "move home --speed fast"
    let all : Completions := ⟨⟨14, 14⟩, [⟨⟨14, 14⟩, "fast", none⟩, ⟨⟨14, 14⟩, "slow", none⟩]⟩
    grammar.Reachable ∧
      (∀ id name type, (grammar.node id).role = .argument name type → type.IsBuiltin) ∧
      14 ≤ line.length ∧
      (grammar.parse ⟨"console", true⟩ (.ofText line)).suggest grammar {} 14 = some all ∧
      ∀ c ∈ all.list, ¬ Text.StartsWord line.toList c.span.start :=
  ⟨reachable_grammar, readsPlaceFree_grammar.builtin, by decide, by decide +kernel, by decide⟩

end Demo

end CommandGrammar
