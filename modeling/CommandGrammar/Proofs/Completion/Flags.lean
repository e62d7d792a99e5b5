import CommandGrammar.Proofs.Completion.Hull

set_option autoImplicit false

namespace CommandGrammar

namespace Completions

theorem merge_congr {all others : List Completions}
    (same : all.filter (!·.isEmpty) = others.filter (!·.isEmpty)) : merge all = merge others := by
  rw [merge, merge, same]

theorem isEmpty_empty : isEmpty .empty = true := rfl

theorem merge_empty_left (b : Completions) : merge [.empty, b] = merge [b] :=
  merge_congr (by simp [isEmpty_empty])

theorem merge_empty_right (b : Completions) : merge [b, .empty] = merge [b] :=
  merge_congr (by simp [List.filter_cons, isEmpty_empty])

theorem merge_eq_empty {branches : List Completions} (none : (merge branches).list = []) :
    merge branches = .empty := by
  unfold merge at none ⊢
  split at none
  case h_1 => rfl
  case h_2 only alone =>
    have among : only ∈ branches.filter (!·.isEmpty) := by simp [alone]
    simp [isEmpty, none] at among
  case h_3 =>
    have nothing : branches.filter (!·.isEmpty) = [] := by
      apply List.eq_nil_iff_forall_not_mem.mpr
      intro b among
      obtain ⟨c, member⟩ := List.exists_mem_of_ne_nil b.list (by simpa [isEmpty] using
        (List.mem_filter.mp among).2)
      have offered := key_mem_ofCandidates (List.mem_flatMap.mpr ⟨b, among, member⟩)
      rw [none] at offered
      simp at offered
    contradiction

theorem merge_merge (branches : List Completions) : merge [merge branches] = merge branches := by
  by_cases none : (merge branches).list = []
  · rw [merge_eq_empty none]
    rfl
  · have some : (merge branches).isEmpty = false := by simpa [isEmpty] using none
    rw [merge.eq_def [merge branches]]
    simp [some]

end Completions

theorem Reply.merge_withFlags (flags : Completions) {r : Reply} (answers : r ≠ .never) :
    Completions.merge [(r.withFlags flags).inTime] = .merge [flags, r.inTime] := by
  cases r with
  | never => exact absurd rfl answers
  | offered more => exact Completions.merge_merge [flags, more]
  | failed => exact Completions.merge_merge [flags, .empty]

namespace Grammar

variable {S A : Type} (g : Grammar S A)

def flagCandidates (pending : List NodeId) (typed : String) (start : Nat) : List Candidate :=
  (pending.filter fun id => Text.startsWith (g.flag id) typed && g.flag id != typed).map fun id =>
    ⟨⟨start, start + typed.length⟩, g.flag id, (g.node id).description⟩

def nextValues (next : Option NodeId) (c : Context S A) (typed : String) (start : Nat) : Completions :=
  (next.map fun m => (g.complete m c (.blank typed start)).inTime).getD .empty

def flagsAndValues (pending : List NodeId) (next : Option NodeId) (c : Context S A) (typed : String)
    (start : Nat) : Reply :=
  match next with
  | none => .offered (g.flags pending typed start)
  | some m => (g.complete m c (.blank typed start)).withFlags (g.flags pending typed start)

variable {g} {c : Context S A} {typed : String} {start : Nat} {pending : List NodeId}
  {next : Option NodeId}

theorem flags_eq (pending : List NodeId) (typed : String) (start : Nat) :
    g.flags pending typed start = .ofCandidates (g.flagCandidates pending typed start) := by
  have entries : ((Draft.blank typed start).offerAll (g.flagItems pending typed)).entries =
      g.flagCandidates pending typed start := by
    rw [Draft.entries_offerAll, flagItems, List.filter_map, List.filter_filter, List.map_map,
      flagCandidates]
    simp only [Function.comp_def, Bool.and_comm]
    rfl
  rw [flags, Draft.build, entries]

theorem merge_flagsAndValues
    (answers : ∀ m ∈ next, g.complete m c (.blank typed start) ≠ .never) :
    Completions.merge [(g.flagsAndValues pending next c typed start).inTime] =
      .merge [.ofCandidates (g.flagCandidates pending typed start), g.nextValues next c typed start] := by
  rw [← flags_eq]
  cases next with
  | none => exact (Completions.merge_empty_right _).symm
  | some m => exact Reply.merge_withFlags _ (answers m rfl)

theorem flagCandidates_eq_nil
    (value : (Text.startsWith "--" typed || Text.startsWith typed "--") = false) :
    g.flagCandidates pending typed start = [] := by
  have none : pending.filter (fun id => Text.startsWith (g.flag id) typed && g.flag id != typed) = [] := by
    apply List.filter_eq_nil_iff.mpr
    intro id _ begins
    rw [Bool.and_eq_true] at begins
    have dashes := Text.startsWith_dashes begins.1
    rw [value] at dashes
    contradiction
  rw [flagCandidates, none]
  rfl

theorem merge_completePlace (owner : NodeId)
    (answers : ∀ m ∈ next, g.complete m c (.blank typed start) ≠ .never) :
    Completions.merge [(g.completePlace (.afterValue owner pending next) c (.blank typed start)).inTime] =
      .merge [.ofCandidates (g.flagCandidates pending typed start), g.nextValues next c typed start] := by
  cases dashes : Text.startsWith "--" typed || Text.startsWith typed "--" with
  | true =>
    rw [← merge_flagsAndValues answers]
    cases next with
    | none => rw [completePlace_last dashes, flagsAndValues]
    | some m => rw [completePlace_next m dashes, flagsAndValues]
  | false =>
    rw [completePlace_value dashes, flagCandidates_eq_nil dashes, Completions.ofCandidates_nil,
      Completions.merge_empty_left]
    cases next <;> rfl

theorem completePlace_answers {owner : NodeId}
    (answers : ∀ m ∈ next, g.complete m c (.blank typed start) ≠ .never) :
    g.completePlace (.afterValue owner pending next) c (.blank typed start) ≠ .never := by
  cases dashes : Text.startsWith "--" typed || Text.startsWith typed "--" with
  | true =>
    cases next with
    | none => simp [completePlace_last dashes]
    | some m =>
      rw [completePlace_next m dashes]
      obtain ⟨all, offered, -⟩ := Reply.withFlags_offers (answers m rfl) (g.flags pending typed start)
      simp [offered]
  | false =>
    rw [completePlace_value dashes]
    cases next with
    | none => simp
    | some m => exact answers m rfl

/-- What a place behind a value adds to the completions is the merge of the flags that may still be typed
with the values of the next member. Text that cannot become a flag is no exception: looking for flags all
the same would change nothing. -/
theorem completePlace_eq_merge (owner : NodeId) (pending : List NodeId) (next : Option NodeId)
    (c : Context S A) (typed : String) (start : Nat)
    (answers : ∀ m ∈ next, g.complete m c (.blank typed start) ≠ .never) :
    let place := Matched.afterValue owner pending next
    let flags := Completions.ofCandidates (g.flagCandidates pending typed start)
    let values := g.nextValues next c typed start
    Completions.merge [(g.completePlace place c (.blank typed start)).inTime] = .merge [flags, values] ∧
      Completions.merge [(g.flagsAndValues pending next c typed start).inTime] = .merge [flags, values] ∧
      ∀ (p : Parse S A) (settings : Settings) (position : Nat), p.context = c →
        (p.context.queryAt position).parent = place →
        min (p.context.queryAt position).start position = start →
        p.rest.textBetween start position = typed →
        p.suggest g settings position =
          some (.collect typed settings.maxSuggestions [flags, values]) := by
  intro place flags values
  have merged : Completions.merge [(g.completePlace place c (.blank typed start)).inTime] =
      .merge [flags, values] := merge_completePlace owner answers
  refine ⟨merged, merge_flagsAndValues answers, ?_⟩
  rintro p settings position rfl parent rfl rfl
  rw [p.suggest_eq_collect g, parent, branches, if_pos, List.map_singleton]
  · exact congrArg some (Completions.collect_congr merged _ _)
  · simpa using .inr (completePlace_answers answers).symm
  · simp [place]

end Grammar

namespace Demo

theorem suggest_asking_offered :
    let g := asking (.offered (.ofCandidates [⟨⟨4, 7⟩, "--fast", none⟩]))
    let p := g.parse ⟨"console", true⟩ (.ofText "cmd --f")
    (∀ m ∈ some 2, g.complete m p.context (.blank "--f" 4) ≠ .never) ∧
      p.suggest g {} 7 =
        some ⟨⟨4, 7⟩, [⟨⟨4, 7⟩, "--fast", none⟩, ⟨⟨4, 7⟩, "--first", none⟩]⟩ := by
  intro g p
  have answers : ∀ m ∈ some 2, g.complete m p.context (.blank "--f" 4) ≠ .never := by decide +kernel
  refine ⟨answers, ?_⟩
  obtain ⟨-, -, suggested⟩ := Grammar.completePlace_eq_merge 4 [2, 3] (some 2) p.context "--f" 4 answers
  rw [suggested p {} 7 rfl (by decide +kernel) (by decide +kernel) (by decide +kernel)]
  decide +kernel

end Demo

end CommandGrammar
