import Mathlib.Tactic.Choose
import CommandGrammar.Completion.Query
import CommandGrammar.Proofs.Completion.Distinct
import CommandGrammar.Proofs.Input.Twin

set_option autoImplicit false

namespace CommandGrammar

variable {S A : Type}

namespace Completions

variable {c : Candidate}

theorem mem_of_mem_ofCandidates {candidates : List Candidate}
    (member : c ∈ (ofCandidates candidates).list) : c ∈ candidates :=
  (Candidate.distinctFrom_sublist [] candidates).subset ((Order.mem_sort _ _ _).mp member)

theorem exists_of_mem_merge {branches : List Completions} (member : c ∈ (merge branches).list) :
    ∃ b ∈ branches, c ∈ b.list := by
  unfold merge at member
  split at member
  case h_1 => simp [empty] at member
  case h_2 only kept =>
    have among : only ∈ branches.filter (!·.isEmpty) := by simp [kept]
    exact ⟨only, (List.mem_filter.mp among).1, member⟩
  case h_3 =>
    obtain ⟨b, inside, listed⟩ := List.mem_flatMap.mp (mem_of_mem_ofCandidates member)
    exact ⟨b, (List.mem_filter.mp inside).1, listed⟩

theorem mem_of_mem_retain {b : Completions} {keep : Candidate → Bool}
    (member : c ∈ (b.retain keep).list) : c ∈ b.list := by
  unfold retain at member
  split at member
  · simp [empty] at member
  · exact (List.mem_filter.mp member).1

theorem exists_of_mem_collect {typed : String} {limit : Option Nat} {all : List Completions}
    (member : c ∈ (collect typed limit all).list) : ∃ b ∈ all, c ∈ b.list := by
  simp only [collect] at member
  split at member
  · rename_i n
    unfold truncate at member
    split at member
    · exact exists_of_mem_merge (mem_of_mem_retain member)
    · exact exists_of_mem_merge (mem_of_mem_retain (List.mem_of_mem_take (mem_of_mem_ofCandidates member)))
  · exact exists_of_mem_merge (mem_of_mem_retain member)

end Completions

namespace Draft

def Covers (d : Draft) : Prop := ∀ c ∈ d.entries, c.span = d.span

theorem covers_cleared (d : Draft) : d.cleared.Covers :=
  fun _ member => absurd member List.not_mem_nil

theorem span_offer (d : Draft) (text : String) (tooltip : Option String) :
    (d.offer text tooltip).span = d.span := by
  unfold offer
  split <;> rfl

theorem Covers.offer {d : Draft} (covers : d.Covers) (text : String) (tooltip : Option String) :
    (d.offer text tooltip).Covers := by
  intro c member
  rw [span_offer]
  unfold Draft.offer at member
  split at member
  · exact covers c member
  · rcases List.mem_append.mp member with old | new
    · exact covers c old
    · rw [List.mem_singleton.mp new]

theorem Covers.offerAll {d : Draft} (covers : d.Covers) (items : List (String × Option String)) :
    (d.offerAll items).Covers ∧ (d.offerAll items).span = d.span := by
  induction items generalizing d with
  | nil => exact ⟨covers, rfl⟩
  | cons item rest ih =>
    obtain ⟨covers', span⟩ := ih (covers.offer item.1 item.2)
    exact ⟨covers', span.trans (d.span_offer _ _)⟩

theorem Covers.build {d : Draft} (covers : d.Covers) : ∀ c ∈ d.build.list, c.span = d.span :=
  fun c member => covers c (Completions.mem_of_mem_ofCandidates member)

end Draft

def Draft.Answers (draft : Draft) (reply : Context S A → Reply) : Prop :=
  ∃ offers : Completions, (∀ c ∈ offers.list, c.span = draft.span) ∧ ∀ c, reply c = .offered offers

theorem Draft.answers_empty (draft : Draft) :
    draft.Answers fun _ : Context S A => .offered .empty :=
  ⟨_, fun _ member => absurd member (by simp [Completions.empty]), fun _ => rfl⟩

theorem ArgumentType.IsBuiltin.answers {type : ArgumentType S A} (builtin : type.IsBuiltin)
    {draft : Draft} (covers : draft.Covers) : draft.Answers fun c => type.complete c draft := by
  cases builtin with
  | word | rest | string => exact draft.answers_empty
  | choice choices =>
    obtain ⟨covers', span⟩ := covers.offerAll
      ((((choices.map Prod.fst).filter (Text.completes · draft.typed)).map (·, none)))
    exact ⟨_, fun c member => (covers'.build c member).trans span, fun _ => rfl⟩

namespace Grammar

variable {g : Grammar S A}

theorem answers_complete
    (builtin : ∀ id name type, (g.node id).role = .argument name type → type.IsBuiltin) (id : NodeId)
    {draft : Draft} (covers : draft.Covers) : draft.Answers fun c => g.complete id c draft := by
  unfold complete
  cases role : (g.node id).role with
  | root | composed => exact draft.answers_empty
  | argument name type => exact (builtin id name type role).answers covers
  | literal name =>
    refine ⟨_, fun c member => ?_, fun _ => rfl⟩
    split at member
    · exact ((covers.offer _ _).build c member).trans (draft.span_offer _ _)
    · exact covers.build c member

end Grammar

theorem Reply.mapM_offered (hasLimit : Bool) (offers : List Completions) :
    (offers.map Reply.offered).mapM (Reply.completions? hasLimit) = some offers := by
  induction offers with
  | nil => rfl
  | cons b rest ih => simp [List.mapM_cons, ih, completions?]

theorem Grammar.suggest_eq {g : Grammar S A}
    (builtin : ∀ id name type, (g.node id).role = .argument name type → type.IsBuiltin)
    (settings : Settings) (source : S) (id : NodeId) (start cursor : Nat) (typed : String) :
    ∃ completions : Completions, (∀ c ∈ completions.list, c.span =
        ⟨min start cursor, min start cursor + typed.length⟩) ∧
      ∀ p : Parse S A, p.context.source = source → p.context.queryAt cursor = ⟨.node id, start⟩ →
        p.rest.textBetween (min start cursor) cursor = typed →
        p.suggest g settings cursor = some completions := by
  have covers := (Draft.blank typed (min start cursor)).covers_cleared
  have each := fun child => g.answers_complete builtin child covers
  choose offers covering same using each
  refine ⟨.collect typed settings.maxSuggestions
    (((g.node id).children.filter fun child => (g.node child).usableBy source).map offers), ?_, ?_⟩
  · intro c member
    obtain ⟨b, among, listed⟩ := Completions.exists_of_mem_collect member
    obtain ⟨child, -, rfl⟩ := List.mem_map.mp among
    exact covering child c listed
  · rintro p rfl query typed_
    have replies : g.branches p.context (.node id) (.blank typed (min start cursor)) =
        (((g.node id).children.filter fun child => (g.node child).usableBy p.context.source).map
          offers).map .offered := by
      rw [branches, List.map_map]
      exact List.map_congr_left fun child _ => same child p.context
    simp only [Parse.suggest, query, typed_, replies, Reply.mapM_offered, Option.map_some]

end CommandGrammar
