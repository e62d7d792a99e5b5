import CommandGrammar.Proofs.Completion.Hull
import CommandGrammar.Proofs.Input.Shown
import CommandGrammar.Proofs.Parsing.Shift
import CommandGrammar.Proofs.Parsing.Trail

set_option autoImplicit false

namespace CommandGrammar

variable {S A : Type}

theorem Candidate.apply_append {c : Candidate} {before typed after : String}
    (span : c.span = ⟨before.length, before.length + typed.length⟩) :
    c.apply (before ++ typed ++ after) = before ++ c.text ++ after := by
  apply String.toList_injective
  have first : before.length ≤ before.length + (typed.length + after.length) := Nat.le_add_right _ _
  have last : before.length + typed.length ≤ before.length + (typed.length + after.length) := by omega
  have front : (before.toList ++ (typed.toList ++ after.toList)).take before.length =
      before.toList := by simp [← String.length_toList]
  have back : (before.toList ++ (typed.toList ++ after.toList)).drop (before.length + typed.length) =
      after.toList := by simp [← String.length_toList]
  simp only [apply, span, String.toList_append, String.toList_ofList, List.append_assoc,
    List.length_append, String.length_toList, Nat.min_eq_left first, Nat.min_eq_left last,
    Nat.max_eq_right (Nat.le_add_right _ _), front, back]

namespace Completions

theorem text_ne_of_mem_collect {typed : String} {limit : Option Nat} {all : List Completions}
    {c : Candidate} (member : c ∈ (collect typed limit all).list) : c.text ≠ typed := by
  have kept : c ∈ ((merge all).retain (·.text != typed)).list := by
    simp only [collect] at member
    split at member
    · unfold truncate at member
      split at member
      · exact member
      · exact List.mem_of_mem_take (mem_of_mem_ofCandidates member)
    · exact member
  rw [list_retain] at kept
  simpa using (List.mem_filter.mp kept).2

theorem fits_collect_of_same {typed : String} {limit : Option Nat} {all : List Completions}
    {s : Span} (fits : ∀ b ∈ all, b.Fits) (same : ∀ b ∈ all, ∀ d ∈ b.list, d.span = s) :
    (collect typed limit all).Fits := by
  apply (fits_collect_iff fits typed limit).mpr
  refine .inr (Classical.or_iff_not_imp_left.mpr fun some d member _ u around => ?_)
  obtain ⟨e, kept⟩ := List.exists_mem_of_ne_nil _ some
  obtain ⟨b, among, listed⟩ := exists_of_mem_collect kept
  obtain ⟨b', among', listed'⟩ := exists_of_mem_merge member
  rw [same b' among' d listed', ← same b among e listed]
  exact around _ (List.mem_map_of_mem kept)

structure Replace (all : Completions) (i : Input) (start stop : Nat) : Prop where
  ordered : start ≤ stop
  line : i.line = i.textBetween 0 start ++ i.textBetween start stop ++ i.textBetween stop i.length
  before : (i.textBetween 0 start).length = start
  typed : (i.textBetween start stop).length = stop - start
  span : all.list ≠ [] → all.span = ⟨start, stop⟩
  spans : ∀ c ∈ all.list, c.span = ⟨start, stop⟩
  others : ∀ c ∈ all.list, c.text ≠ i.textBetween start stop
  apply : ∀ c ∈ all.list,
    c.apply i.line = i.textBetween 0 start ++ c.text ++ i.textBetween stop i.length

end Completions

theorem ArgumentType.IsBuiltin.built {type : ArgumentType S A} (builtin : type.IsBuiltin)
    {c : Context S A} {draft : Draft} {all : Completions} (offered : type.complete c draft = .offered all) :
    all.Built := by
  cases builtin with
  | word | rest | string =>
    obtain rfl := Reply.offered.inj offered
    exact Completions.built_empty
  | choice choices =>
    obtain rfl := Reply.offered.inj offered
    exact .draft _

def Reply.Covers (typed : String) (start : Nat) (r : Reply) : Prop :=
  ∃ b, r = .offered b ∧ ∀ d ∈ b.list, d.span = ⟨start, start + typed.length⟩

namespace Grammar

variable {g : Grammar S A} {c : Context S A} {typed : String} {start : Nat}

theorem covers_flags (pending : List NodeId) :
    ∀ d ∈ (g.flags pending typed start).list, d.span = ⟨start, start + typed.length⟩ := by
  obtain ⟨covers, span⟩ :=
    (Draft.blank typed start).covers_cleared.offerAll (g.flagItems pending typed)
  intro d member
  rw [covers.build d member, span]
  rfl

section Builtin

variable (builtin : ∀ id name type, (g.node id).role = .argument name type → type.IsBuiltin)
include builtin

theorem offersBuilt_of_builtin : g.OffersBuilt :=
  fun id name type role _ _ _ offered => (builtin id name type role).built offered

theorem covers_complete (id : NodeId) :
    (g.complete id c (.blank typed start)).Covers typed start := by
  obtain ⟨b, covers, offered⟩ :=
    g.answers_complete builtin id (Draft.blank typed start).covers_cleared
  exact ⟨b, offered c, covers⟩

theorem covers_branches {parent : Matched} {r : Reply}
    (among : r ∈ g.branches c parent (.blank typed start)) : r.Covers typed start := by
  cases branch_of_mem among with
  | nothing => exact ⟨_, rfl, fun _ member => absurd member List.not_mem_nil⟩
  | node id => exact covers_complete builtin id
  | flags pending => exact ⟨_, rfl, covers_flags pending⟩
  | both pending id =>
    obtain ⟨values, offered, covers⟩ : (g.complete id c (.blank typed start)).Covers typed start :=
      covers_complete builtin id
    rw [offered]
    refine ⟨_, rfl, fun d member => ?_⟩
    obtain ⟨b, among, listed⟩ := Completions.exists_of_mem_merge member
    rcases List.mem_pair.mp among with rfl | rfl
    · exact covers_flags pending d listed
    · exact covers d listed

theorem suggest_covers (settings : Settings) (p : Parse S A) (position : Nat) :
    let start := min (p.context.queryAt position).start position
    let typed := p.rest.textBetween start position
    ∃ all, p.suggest g settings position = some all ∧ all.Fits ∧
      ∀ c ∈ all.list, c.span = ⟨start, start + typed.length⟩ ∧ c.text ≠ typed := by
  intro start typed
  let replies := g.branches p.context (p.context.queryAt position).parent (.blank typed start)
  have answered : .never ∉ replies := by
    intro among
    obtain ⟨b, offered, -⟩ := covers_branches builtin among
    contradiction
  have same : ∀ b ∈ replies.map Reply.inTime, ∀ d ∈ b.list,
      d.span = ⟨start, start + typed.length⟩ := by
    intro b among
    obtain ⟨r, replied, rfl⟩ := List.mem_map.mp among
    obtain ⟨b, rfl, covers⟩ := covers_branches builtin replied
    exact covers
  refine ⟨.collect typed settings.maxSuggestions (replies.map Reply.inTime), ?_, ?_, ?_⟩
  · rw [p.suggest_eq_collect g, if_pos (.inr answered)]
  · refine Completions.fits_collect_of_same (fun b among => ?_) same
    exact ((offersBuilt_of_builtin builtin).inTime among).fits
  · intro c member
    obtain ⟨b, among, listed⟩ := Completions.exists_of_mem_collect member
    exact ⟨same b among c listed, Completions.text_ne_of_mem_collect member⟩

/-- Completing a line at any of its positions replaces the text from some position to that one: all
completions cover it and differ from it, and what stands before and behind it remains. -/
theorem Reachable.suggest_replace (reachable : g.Reachable) (settings : Settings) (source : S)
    (r : Rendering) (values : List Value) (n : Nat) {position : Nat}
    (within : position ≤ (Input.ofValues r values).length) :
    let i := (Input.ofValues r values).seek n
    ∃ all start, (g.parse source i).suggest g settings position = some all ∧
      all.Replace i start position := by
  intro i
  have laid : i.Laid := Input.laid_ofValues r values n
  have reached := (reachable.sound.traces_parse source laid).reached
  let start := min ((g.parse source i).context.queryAt position).start position
  have ordered : start ≤ position := Nat.min_le_right _ _
  have typed : (g.parse source i).rest.textBetween start position = i.textBetween start position :=
    Input.textBetween_congr reached.segments _ _
  obtain ⟨all, suggested, fits, each⟩ := suggest_covers builtin settings (g.parse source i) position
  have before : (i.textBetween 0 start).length = start := by
    rw [laid.length_textBetween (Nat.le_trans ordered within), Nat.sub_zero]
  have width : (i.textBetween start position).length = position - start :=
    laid.length_textBetween within
  have spans : ∀ c ∈ all.list, c.span = ⟨start, position⟩ := by
    intro c member
    obtain ⟨span, -⟩ := each c member
    rw [span, typed, width, Nat.add_sub_cancel' ordered]
  have line := laid.line_split ordered
  refine ⟨all, start, suggested, ordered, line, before, width, fits.span_eq spans, spans, ?_, ?_⟩
  · intro c member
    rw [← typed]
    exact (each c member).2
  · intro c member
    rw [line]
    apply Candidate.apply_append
    rw [before, width, Nat.add_sub_cancel' ordered, spans c member]

end Builtin

end Grammar

theorem Demo.suggest_speed :
    let i := (Input.ofValues .standard [.ofString "move home", .ofString "--speed f"]).seek 0
    let fast : Candidate := ⟨⟨18, 19⟩, "fast", none⟩
    19 ≤ i.length ∧
      (grammar.parse ⟨"console", true⟩ i).suggest grammar {} 19 = some ⟨⟨18, 19⟩, [fast]⟩ ∧
      fast.apply i.line = "move home --speed " ++ "fast" := by
  intro i fast
  have suggested : (grammar.parse ⟨"console", true⟩ i).suggest grammar {} 19 =
      some ⟨⟨18, 19⟩, [fast]⟩ := by decide +kernel
  have within : 19 ≤ i.length := by decide +kernel
  obtain ⟨all, start, same, replace⟩ := reachable_grammar.suggest_replace
    readsPlaceFree_grammar.builtin {} ⟨"console", true⟩ .standard
      [.ofString "move home", .ofString "--speed f"] 0 within
  obtain rfl : ⟨⟨18, 19⟩, [fast]⟩ = all := Option.some.inj (suggested.symm.trans same)
  obtain rfl : 18 = start := congrArg Span.start (replace.span (by simp))
  have before : i.textBetween 0 18 = "move home --speed " := by decide +kernel
  have after : i.textBetween 19 i.length = "" := by decide +kernel
  have applied := replace.apply fast (by simp)
  rw [before, after, String.append_empty] at applied
  exact ⟨within, suggested, applied⟩

end CommandGrammar
