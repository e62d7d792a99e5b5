import CommandGrammar.Demo.Commands
import CommandGrammar.Proofs.Completion.Offers

set_option autoImplicit false

namespace CommandGrammar

inductive Reply.Silenced : Reply → Reply → Prop
  | same (r : Reply) : Silenced r r
  | failed (f : Fault) : Silenced (.failed f) (.offered .empty)
  | never : Silenced .never (.offered .empty)

section Silenced

variable {S A : Type}

inductive Role.Silenced : Role S A → Role S A → Prop
  | same (role : Role S A) : Silenced role role
  | argument (name : String) (type : ArgumentType S A) (complete : Context S A → Draft → Reply) :
    (∀ c draft, (type.complete c draft).Silenced (complete c draft)) →
    Silenced (.argument name type) (.argument name { type with complete })

def Node.Silenced (n n' : Node S A) : Prop :=
  ∃ role, n.role.Silenced role ∧ n' = { n with role }

-- The same grammar, where some of the questions that fail or are never answered are answered
-- with an empty list.
def Grammar.Silenced (g g' : Grammar S A) : Prop := ∀ id, (g.node id).Silenced (g'.node id)

end Silenced

def Reply.withFlags (flags : Completions) : Reply → Reply
  | .offered more => .offered (.merge [flags, more])
  | .failed _ => .offered (.merge [flags, .empty])
  | .never => .never

def Reply.inTime : Reply → Completions
  | .offered c => c
  | _ => .empty

namespace Reply

theorem Silenced.inTime_eq {r r' : Reply} (silenced : r.Silenced r') : r'.inTime = r.inTime := by
  cases silenced <;> rfl

theorem Silenced.withFlags {r r' : Reply} (silenced : r.Silenced r') {flags : Completions}
    (lossless : r = .never → flags = .empty) :
    (r.withFlags flags).Silenced (r'.withFlags flags) := by
  cases silenced with
  | same => exact .same _
  | failed => exact .same _
  | never =>
    rw [lossless rfl]
    exact .never

theorem mapM_completions? (hasLimit : Bool) (replies : List Reply) :
    replies.mapM (completions? hasLimit) =
      if hasLimit = true ∨ .never ∉ replies then some (replies.map inTime) else none := by
  induction replies with
  | nil => simp
  | cons r rest ih =>
    rw [List.mapM_cons, ih]
    cases r with
    | never => cases hasLimit <;> simp [completions?, inTime]
    | offered | failed =>
      by_cases answered : hasLimit = true ∨ .never ∉ rest <;> simp [answered, completions?, inTime]

end Reply

namespace Completions

variable {c : Candidate}

theorem key_mem_ofCandidates {candidates : List Candidate} (member : c ∈ candidates) :
    c.key ∈ (ofCandidates candidates).list.map Candidate.key :=
  (mem_map_key_ofCandidates c.key candidates).mpr (List.mem_map_of_mem member)

theorem key_mem_merge {branches : List Completions} {b : Completions} (among : b ∈ branches)
    {key : String × Option String} (offered : key ∈ b.list.map Candidate.key) :
    key ∈ (merge branches).list.map Candidate.key := by
  obtain ⟨c, member, rfl⟩ := List.mem_map.mp offered
  have kept : b ∈ branches.filter (!·.isEmpty) := by
    apply List.mem_filter.mpr
    refine ⟨among, ?_⟩
    cases list : b.list with
    | nil => simp [list] at member
    | cons d rest => simp [isEmpty, list]
  unfold merge
  split
  case h_1 none => simp [none] at kept
  case h_2 only alone =>
    rw [alone, List.mem_singleton] at kept
    rwa [kept] at offered
  case h_3 =>
    apply key_mem_ofCandidates
    exact List.mem_flatMap.mpr ⟨b, kept, member⟩

theorem list_retain (b : Completions) (keep : Candidate → Bool) :
    (b.retain keep).list = b.list.filter keep := by
  unfold retain
  split
  · rename_i none
    rw [none]
    rfl
  · rfl

theorem key_mem_collect {typed : String} {all : List Completions} {b : Completions} (among : b ∈ all)
    {key : String × Option String} (offered : key ∈ b.list.map Candidate.key) (other : key.1 ≠ typed) :
    key ∈ (collect typed none all).list.map Candidate.key := by
  obtain ⟨c, merged, rfl⟩ := List.mem_map.mp (key_mem_merge among offered)
  apply List.mem_map_of_mem
  rw [collect, list_retain]
  exact List.mem_filter.mpr ⟨merged, by simpa [Candidate.key] using other⟩

theorem collect_congr {all others : List Completions} (same : merge all = merge others)
    (typed : String) (limit : Option Nat) : collect typed limit all = collect typed limit others := by
  simp only [collect, same]

theorem collect_empty (typed : String) (limit : Option Nat) : collect typed limit [.empty] = .empty := by
  cases limit <;> rfl

end Completions

namespace Draft

@[simp] theorem typed_blank (typed : String) (start : Nat) : (blank typed start).typed = typed := rfl

theorem entries_offerAll (d : Draft) (items : List (String × Option String)) :
    (d.offerAll items).entries =
      d.entries ++ (items.filter (·.1 != d.typed)).map fun item => ⟨d.span, item.1, item.2⟩ := by
  induction items generalizing d with
  | nil => simp [offerAll]
  | cons item rest ih =>
    have next : d.offerAll (item :: rest) = (d.offer item.1 item.2).offerAll rest := rfl
    rw [next, ih]
    by_cases typed : item.1 = d.typed <;> simp [offer, typed, span]

end Draft

theorem Reply.withFlags_offers {r : Reply} (answers : r ≠ .never) (flags : Completions) :
    ∃ b, r.withFlags flags = .offered b ∧
      (∀ key ∈ flags.list.map Candidate.key, key ∈ b.list.map Candidate.key) ∧
      ∀ more, r = .offered more →
        ∀ key ∈ more.list.map Candidate.key, key ∈ b.list.map Candidate.key := by
  cases r with
  | never => exact absurd rfl answers
  | failed f =>
    refine ⟨_, rfl, ?_, by simp⟩
    intro key offered
    exact Completions.key_mem_merge (by simp) offered
  | offered answer =>
    refine ⟨_, rfl, ?_, ?_⟩
    · intro key offered
      exact Completions.key_mem_merge (by simp) offered
    · rintro _ ⟨⟩ key offered
      exact Completions.key_mem_merge (by simp) offered

namespace Grammar

variable {S A : Type} (g : Grammar S A)

def flagItems (pending : List NodeId) (typed : String) : List (String × Option String) :=
  (pending.filter fun id => Text.startsWith (g.flag id) typed).map fun id =>
    (g.flag id, (g.node id).description)

def flags (pending : List NodeId) (typed : String) (start : Nat) : Completions :=
  ((Draft.blank typed start).offerAll (g.flagItems pending typed)).build

inductive Asks (c : Context S A) : Matched → NodeId → Prop
  | child {parent id : NodeId} : id ∈ (g.node parent).children →
    (g.node id).usableBy c.source = true → Asks c (.node parent) id
  | next {owner id : NodeId} {pending : List NodeId} : Asks c (.afterValue owner pending (some id)) id
  | behindFlag {owner id : NodeId} : Asks c (.flagValue owner (some id)) id

inductive Offers (c : Context S A) (draft : Draft) : Matched → String × Option String → Prop
  | answer {parent : Matched} {id : NodeId} {answer : Completions} {candidate : Candidate} :
    g.Asks c parent id → g.complete id c draft = .offered answer → candidate ∈ answer.list →
    Offers c draft parent candidate.key
  | flag {owner m : NodeId} {pending : List NodeId} {next : Option NodeId} : m ∈ pending →
    Text.startsWith (g.flag m) draft.typed = true →
    Offers c draft (.afterValue owner pending next) (g.flag m, (g.node m).description)

-- Flags are to be offered, and the next member that is asked along with them never answers.
def Stalls (c : Context S A) (parent : Matched) (draft : Draft) : Prop :=
  ∃ owner pending next m, parent = .afterValue owner pending (some next) ∧
    g.complete next c draft = .never ∧ m ∈ pending ∧
    Text.startsWith (g.flag m) draft.typed = true ∧ g.flag m ≠ draft.typed

end Grammar

theorem Text.startsWith_dashes {name typed : String}
    (begins : Text.startsWith ("--" ++ name) typed = true) :
    (Text.startsWith "--" typed || Text.startsWith typed "--") = true := by
  have flag : typed.toList <+: "--".toList ++ name.toList := by
    simpa [Text.startsWith, String.toList_append] using begins
  have dashes : "--".toList <+: "--".toList ++ name.toList := List.prefix_append _ _
  rw [Bool.or_eq_true, Text.startsWith, Text.startsWith, List.isPrefixOf_iff_prefix,
    List.isPrefixOf_iff_prefix]
  exact List.prefix_or_prefix_of_prefix flag dashes

namespace Grammar

variable {S A : Type} {g g' : Grammar S A} {c : Context S A} {typed : String} {start : Nat}

section Places

variable {owner : NodeId} {pending : List NodeId} {next : Option NodeId}

theorem flag_mem_flags {m : NodeId} (member : m ∈ pending)
    (begins : Text.startsWith (g.flag m) typed = true) (more : g.flag m ≠ typed) :
    (g.flag m, (g.node m).description) ∈ (g.flags pending typed start).list.map Candidate.key := by
  have item : (g.flag m, (g.node m).description) ∈ g.flagItems pending typed :=
    List.mem_map.mpr ⟨m, List.mem_filter.mpr ⟨member, begins⟩, rfl⟩
  have entry : ⟨(Draft.blank typed start).span, g.flag m, (g.node m).description⟩ ∈
      ((Draft.blank typed start).offerAll (g.flagItems pending typed)).entries := by
    rw [Draft.entries_offerAll]
    apply List.mem_append_right
    exact List.mem_map.mpr ⟨_, List.mem_filter.mpr ⟨item, by simpa using more⟩, rfl⟩
  exact Completions.key_mem_ofCandidates entry

theorem flags_eq_empty
    (none : ∀ m ∈ pending, Text.startsWith (g.flag m) typed = true → g.flag m = typed) :
    g.flags pending typed start = .empty := by
  have same : (g.flagItems pending typed).filter (·.1 != typed) = [] := by
    apply List.filter_eq_nil_iff.mpr
    intro item member
    obtain ⟨m, pends, rfl⟩ := List.mem_map.mp member
    obtain ⟨inside, begins⟩ := List.mem_filter.mp pends
    simp [none m inside begins]
  simp [flags, Draft.build, Draft.entries_offerAll, Draft.blank, same]

theorem foldl_offer_flags :
    ((pending.filter fun id => Text.startsWith (g.flag id) typed).foldl
      (fun d id => d.offer (g.flag id) (g.node id).description) (Draft.blank typed start)).build =
        g.flags pending typed start := by
  rw [flags, flagItems, Draft.offerAll, List.foldl_map]

theorem completePlace_next (m : NodeId)
    (dashes : (Text.startsWith "--" typed || Text.startsWith typed "--") = true) :
    g.completePlace (.afterValue owner pending (some m)) c (.blank typed start) =
      (g.complete m c (.blank typed start)).withFlags (g.flags pending typed start) := by
  simp only [completePlace, Draft.typed_blank, dashes, Bool.not_true, Bool.false_eq_true, if_false,
    foldl_offer_flags]
  rfl

theorem completePlace_last
    (dashes : (Text.startsWith "--" typed || Text.startsWith typed "--") = true) :
    g.completePlace (.afterValue owner pending none) c (.blank typed start) =
      .offered (g.flags pending typed start) := by
  simp only [completePlace, Draft.typed_blank, dashes, Bool.not_true, Bool.false_eq_true, if_false,
    foldl_offer_flags]

theorem completePlace_value
    (value : (Text.startsWith "--" typed || Text.startsWith typed "--") = false) :
    g.completePlace (.afterValue owner pending next) c (.blank typed start) =
      (next.map fun m => g.complete m c (.blank typed start)).getD (.offered .empty) := by
  simp only [completePlace, Draft.typed_blank, value, Bool.not_false, if_true]
  cases next <;> rfl

end Places

inductive Branch (g : Grammar S A) (c : Context S A) (typed : String) (start : Nat) : Reply → Prop
  | nothing : Branch g c typed start (.offered .empty)
  | node (id : NodeId) : Branch g c typed start (g.complete id c (.blank typed start))
  | flags (pending : List NodeId) : Branch g c typed start (.offered (g.flags pending typed start))
  | both (pending : List NodeId) (id : NodeId) : Branch g c typed start
    ((g.complete id c (.blank typed start)).withFlags (g.flags pending typed start))

theorem branch_completePlace (place : Matched) :
    g.Branch c typed start (g.completePlace place c (.blank typed start)) := by
  cases place with
  | node => exact .nothing
  | flagValue owner member =>
    cases member with
    | none => exact .nothing
    | some m => exact .node m
  | afterValue owner pending next =>
    cases dashes : Text.startsWith "--" typed || Text.startsWith typed "--" with
    | false =>
      rw [completePlace_value dashes]
      cases next with
      | none => exact .nothing
      | some m => exact .node m
    | true =>
      cases next with
      | none =>
        rw [completePlace_last dashes]
        exact .flags pending
      | some m =>
        rw [completePlace_next m dashes]
        exact .both pending m

theorem branch_of_mem {parent : Matched} {r : Reply}
    (among : r ∈ g.branches c parent (.blank typed start)) : g.Branch c typed start r := by
  cases parent with
  | node id =>
    obtain ⟨child, -, rfl⟩ := List.mem_map.mp among
    exact .node child
  | afterValue | flagValue =>
    rw [List.mem_singleton.mp among]
    exact branch_completePlace _

namespace Silenced

variable (silenced : g.Silenced g')
include silenced

theorem complete (id : NodeId) (c : Context S A) (draft : Draft) :
    (g.complete id c draft).Silenced (g'.complete id c draft) := by
  obtain ⟨role', role, node⟩ := silenced id
  simp only [Grammar.complete, node]
  generalize (g.node id).role = r at role
  cases role with
  | same => exact .same _
  | argument name type complete replies => exact replies c draft

theorem flagItems_eq (pending : List NodeId) (typed : String) :
    g'.flagItems pending typed = g.flagItems pending typed := by
  have flag (id : NodeId) : g'.flag id = g.flag id := by
    obtain ⟨role', role, node⟩ := silenced id
    rw [Grammar.flag, Grammar.flag, Node.name, Node.name, node]
    generalize (g.node id).role = r at role
    cases role <;> rfl
  have description (id : NodeId) : (g'.node id).description = (g.node id).description := by
    obtain ⟨role', role, node⟩ := silenced id
    rw [node]
  simp only [flagItems, flag, description]

theorem completePlace (place : Matched) (c : Context S A)
    (answers : ¬ g.Stalls c place (.blank typed start)) :
    (g.completePlace place c (.blank typed start)).Silenced
      (g'.completePlace place c (.blank typed start)) := by
  cases place with
  | node => exact .same _
  | flagValue owner member =>
    cases member with
    | none => exact .same _
    | some m => exact silenced.complete m c _
  | afterValue owner pending next =>
    cases dashes : Text.startsWith "--" typed || Text.startsWith typed "--" with
    | false =>
      rw [completePlace_value dashes, completePlace_value dashes]
      cases next with
      | none => exact .same _
      | some m => exact silenced.complete m c _
    | true =>
      have flags : g'.flags pending typed start = g.flags pending typed start := by
        rw [Grammar.flags, Grammar.flags, silenced.flagItems_eq]
      cases next with
      | none =>
        rw [completePlace_last dashes, completePlace_last dashes, flags]
        exact .same _
      | some m =>
        rw [completePlace_next m dashes, completePlace_next m dashes, flags]
        apply (silenced.complete m c (.blank typed start)).withFlags
        intro never
        -- As the place does not stall, there are no flags to be lost.
        apply flags_eq_empty
        intro id pends begins
        by_contra more
        exact answers ⟨owner, pending, m, id, rfl, never, pends, begins, more⟩

theorem branches (parent : Matched) (c : Context S A)
    (answers : ¬ g.Stalls c parent (.blank typed start)) :
    (g'.branches c parent (.blank typed start)).map Reply.inTime =
      (g.branches c parent (.blank typed start)).map Reply.inTime := by
  cases parent with
  | node id =>
    have children : (g'.node id).children = (g.node id).children := by
      obtain ⟨role', role, node⟩ := silenced id
      rw [node]
    have usable (child : NodeId) : (g'.node child).usableBy c.source =
        (g.node child).usableBy c.source := by
      obtain ⟨role', role, node⟩ := silenced child
      rw [node]
      rfl
    simp only [Grammar.branches, children, usable, List.map_map]
    apply List.map_congr_left
    intro child _
    exact (silenced.complete child c _).inTime_eq
  | afterValue owner pending next =>
    exact congrArg (fun b => [b]) (silenced.completePlace _ c answers).inTime_eq
  | flagValue owner member =>
    exact congrArg (fun b => [b]) (silenced.completePlace _ c answers).inTime_eq

end Silenced

theorem Stalls.branches {parent : Matched}
    (stalls : g.Stalls c parent (.blank typed start)) :
    g.branches c parent (.blank typed start) = [.never] := by
  obtain ⟨owner, pending, next, m, rfl, never, -, begins, -⟩ := stalls
  have dashes : (Text.startsWith "--" typed || Text.startsWith typed "--") = true :=
    Text.startsWith_dashes begins
  rw [Grammar.branches, completePlace_next next dashes, never, Reply.withFlags]
  simp

theorem Offers.branch {parent : Matched} {offer : String × Option String}
    (offers : g.Offers c (.blank typed start) parent offer) (other : offer.1 ≠ typed)
    (answers : ¬ g.Stalls c parent (.blank typed start)) :
    ∃ b, .offered b ∈ g.branches c parent (.blank typed start) ∧ offer ∈ b.list.map Candidate.key := by
  cases offers with
  | @answer _ id b candidate asks complete member =>
    have listed : candidate.key ∈ b.list.map Candidate.key := List.mem_map_of_mem member
    cases asks with
    | child inside usable =>
      refine ⟨b, ?_, listed⟩
      rw [← complete]
      exact List.mem_map.mpr ⟨id, List.mem_filter.mpr ⟨inside, usable⟩, rfl⟩
    | behindFlag => exact ⟨b, List.mem_singleton.mpr complete.symm, listed⟩
    | @next owner _ pending =>
      cases dashes : Text.startsWith "--" typed || Text.startsWith typed "--" with
      | false =>
        have place : g.completePlace (.afterValue owner pending (some id)) c (.blank typed start) =
            .offered b := (completePlace_value dashes).trans complete
        exact ⟨b, List.mem_singleton.mpr place.symm, listed⟩
      | true =>
        have answers : g.complete id c (.blank typed start) ≠ .never := by simp [complete]
        obtain ⟨all, answer, -, more⟩ :=
          Reply.withFlags_offers answers (g.flags pending typed start)
        have place : g.completePlace (.afterValue owner pending (some id)) c (.blank typed start) =
            .offered all := (completePlace_next id dashes).trans answer
        exact ⟨all, List.mem_singleton.mpr place.symm, more b complete _ listed⟩
  | @flag owner m pending next member begins =>
    have dashes : (Text.startsWith "--" typed || Text.startsWith typed "--") = true :=
      Text.startsWith_dashes begins
    have listed : (g.flag m, (g.node m).description) ∈
        (g.flags pending typed start).list.map Candidate.key := flag_mem_flags member begins other
    cases next with
    | none => exact ⟨_, List.mem_singleton.mpr (completePlace_last dashes).symm, listed⟩
    | some id =>
      have answers : g.complete id c (.blank typed start) ≠ .never := fun never =>
        answers ⟨owner, pending, id, m, rfl, never, member, begins, other⟩
      obtain ⟨all, answer, flags, -⟩ := Reply.withFlags_offers answers (g.flags pending typed start)
      have place : g.completePlace (.afterValue owner pending (some id)) c (.blank typed start) =
          .offered all := (completePlace_next id dashes).trans answer
      exact ⟨all, List.mem_singleton.mpr place.symm, flags _ listed⟩

end Grammar

variable {S A : Type}

theorem Parse.suggest_eq_collect (g : Grammar S A) (settings : Settings) (p : Parse S A)
    (position : Nat) :
    let query := p.context.queryAt position
    let start := min query.start position
    let typed := p.rest.textBetween start position
    let replies := g.branches p.context query.parent (.blank typed start)
    p.suggest g settings position =
      if settings.suggestionTimeoutMs.isSome = true ∨ .never ∉ replies then
        some (.collect typed settings.maxSuggestions (replies.map Reply.inTime))
      else none := by
  intro query start typed replies
  rw [suggest, Reply.mapM_completions?]
  split <;> rfl

theorem Parse.suggest_of_limit (g : Grammar S A) {settings : Settings}
    (limited : settings.suggestionTimeoutMs.isSome = true) (p : Parse S A) (position : Nat) :
    let query := p.context.queryAt position
    let start := min query.start position
    let typed := p.rest.textBetween start position
    p.suggest g settings position = some (.collect typed settings.maxSuggestions
      ((g.branches p.context query.parent (.blank typed start)).map Reply.inTime)) := by
  rw [p.suggest_eq_collect g, if_pos (.inl limited)]

/-- Within a time limit there are completions in any case. Questions that fail or are never answered change
them no more than empty lists would, and unless their number is limited, they hold all that others have to
offer. Only where a place stalls they are none at all, whatever flags were there to be offered. -/
theorem Parse.suggest_silenced {g g' : Grammar S A} (silenced : g.Silenced g') (settings : Settings)
    (limited : settings.suggestionTimeoutMs.isSome = true) (p : Parse S A) (position : Nat) :
    let query := p.context.queryAt position
    let start := min query.start position
    let typed := p.rest.textBetween start position
    ∃ all, p.suggest g settings position = some all ∧
      (g.Stalls p.context query.parent (.blank typed start) → all = .empty) ∧
      (¬ g.Stalls p.context query.parent (.blank typed start) →
        p.suggest g' settings position = some all ∧
        (settings.maxSuggestions = none → ∀ offer, offer.1 ≠ typed →
          g.Offers p.context (.blank typed start) query.parent offer →
          offer ∈ all.list.map Candidate.key)) := by
  intro query start typed
  refine ⟨_, p.suggest_of_limit g limited position, ?_, ?_⟩
  · intro stalls
    rw [stalls.branches]
    exact Completions.collect_empty typed settings.maxSuggestions
  · intro answers
    constructor
    · rw [p.suggest_of_limit g' limited position, silenced.branches query.parent p.context answers]
    · intro unlimited offer other offers
      obtain ⟨b, among, listed⟩ := offers.branch other answers
      rw [unlimited]
      exact Completions.key_mem_collect (List.mem_map_of_mem among) listed other

namespace Demo

def asking (reply : Reply) : Grammar User Deed :=
  (Grammar.empty.register .root
    (.literal "cmd" {}
      [.composed
        [.argument "first" { ArgumentType.word with complete := fun _ _ => reply } {} [],
          .argument "second" .word {} []]
        {} []])).1

theorem asking_silenced {r r' : Reply} (silenced : r.Silenced r') :
    (asking r).Silenced (asking r') := by
  intro id
  match id with
  | 2 => exact ⟨_, .argument "first" _ (fun _ _ => r') fun _ _ => silenced, rfl⟩
  | 0 | 1 | 3 | 4 => exact ⟨_, .same _, rfl⟩
  | _ + 5 => exact ⟨_, .same _, rfl⟩

theorem suggest_asking_failed :
    let broken := asking (.failed (.failed "no answer" none))
    let settings : Settings := { suggestionTimeoutMs := some 20 }
    let p := broken.parse ⟨"console", true⟩ (.ofText "cmd ")
    broken.Silenced (asking (.offered .empty)) ∧ settings.suggestionTimeoutMs.isSome = true ∧
      ∃ all, p.suggest broken settings 4 = some all ∧
        p.suggest (asking (.offered .empty)) settings 4 = some all ∧
        ("--first", none) ∈ all.list.map Candidate.key := by
  intro broken settings p
  have silenced : broken.Silenced (asking (.offered .empty)) := asking_silenced (.failed _)
  have query : p.context.queryAt 4 = ⟨.afterValue 4 [2, 3] (some 2), 4⟩ := by decide +kernel
  have typed : p.rest.textBetween 4 4 = "" := by decide +kernel
  obtain ⟨all, suggested, -, kept⟩ := p.suggest_silenced silenced settings rfl 4
  simp only [query, Nat.min_self, typed] at kept
  have answers : ¬ broken.Stalls p.context (.afterValue 4 [2, 3] (some 2)) (.blank "" 4) := by
    rintro ⟨_, _, _, _, ⟨⟩, ⟨⟩, _⟩
  obtain ⟨same, offered⟩ := kept answers
  refine ⟨silenced, rfl, all, suggested, same, ?_⟩
  exact offered rfl ("--first", none) (by simp) (.flag (m := 2) (by simp) (by decide))

-- The flags are lost with the answer that never comes, and with no other.
theorem suggest_asking_never :
    let waiting := asking .never
    let settings : Settings := { suggestionTimeoutMs := some 20 }
    let p := waiting.parse ⟨"console", true⟩ (.ofText "cmd ")
    waiting.Silenced (asking (.offered .empty)) ∧
      p.suggest waiting settings 4 = some .empty ∧
      p.suggest (asking (.offered .empty)) settings 4 =
        some ⟨⟨4, 4⟩, [⟨⟨4, 4⟩, "--first", none⟩, ⟨⟨4, 4⟩, "--second", none⟩]⟩ :=
  ⟨asking_silenced .never, by decide +kernel, by decide +kernel⟩

end Demo

end CommandGrammar
