import CommandGrammar.Proofs.Completion.Silence
import CommandGrammar.Proofs.Spans

set_option autoImplicit false

namespace CommandGrammar

namespace Completions

variable {c : Completions}

structure Fits (c : Completions) : Prop where
  point : c.list = [] → c.span = .point 0
  hull : c.list ≠ [] → c.span.IsHull (c.list.map Candidate.span)

inductive Built : Completions → Prop
  | candidates (candidates : List Candidate) : Built (.ofCandidates candidates)
  | draft (d : Draft) : Built d.build
  | merged (branches : List Completions) : (∀ b ∈ branches, Built b) → Built (.merge branches)

theorem built_empty : Built .empty := .merged [] (by simp)

theorem fits_empty : Fits .empty := ⟨fun _ => rfl, fun some => absurd rfl some⟩

theorem fits_ofCandidates (candidates : List Candidate) : (ofCandidates candidates).Fits := by
  have listed (d : Candidate) : d ∈ (ofCandidates candidates).list ↔
      d ∈ Candidate.distinctFrom [] candidates := Order.mem_sort _ d _
  by_cases none : Candidate.distinctFrom [] candidates = []
  · simp only [ofCandidates, none]
    exact fits_empty
  · have present : (ofCandidates candidates).list ≠ [] := by
      obtain ⟨d, member⟩ := List.exists_mem_of_ne_nil _ none
      exact List.ne_nil_of_mem ((listed d).mpr member)
    refine ⟨fun empty => absurd empty present, fun _ => ?_⟩
    have hull : (ofCandidates candidates).span.IsHull
        ((Candidate.distinctFrom [] candidates).map Candidate.span) :=
      Span.isHull_coverAll (by simpa using none)
    apply hull.congr
    simp only [List.mem_map, listed, implies_true]

theorem fits_merge {branches : List Completions} (fits : ∀ b ∈ branches, b.Fits) :
    (merge branches).Fits := by
  unfold merge
  split
  case h_1 => exact fits_empty
  case h_2 only alone =>
    have among : only ∈ branches.filter (!·.isEmpty) := by simp [alone]
    exact fits only (List.mem_filter.mp among).1
  case h_3 => exact fits_ofCandidates _

theorem Built.fits (built : c.Built) : c.Fits := by
  induction built with
  | candidates candidates => exact fits_ofCandidates candidates
  | draft d => exact fits_ofCandidates d.entries
  | merged branches _ ih => exact fits_merge ih

theorem Fits.span_eq (fits : c.Fits) {s : Span} (same : ∀ d ∈ c.list, d.span = s)
    (some : c.list ≠ []) : c.span = s := by
  refine (fits.hull some).eq_of_same (by simpa using some) ?_
  intro t member
  obtain ⟨d, listed, rfl⟩ := List.mem_map.mp member
  exact same d listed

theorem span_retain {keep : Candidate → Bool} (some : (c.retain keep).list ≠ []) :
    (c.retain keep).span = c.span := by
  unfold retain at some ⊢
  split
  · rename_i none
    simp [none, empty] at some
  · rfl

theorem Fits.retain_iff (fits : c.Fits) (keep : Candidate → Bool) :
    (c.retain keep).Fits ↔ (c.retain keep).list = [] ∨
      ∀ d ∈ c.list, keep d = false → d.span.InHull ((c.retain keep).list.map Candidate.span) := by
  by_cases none : (c.retain keep).list = []
  · simp only [none, true_or, iff_true]
    have empty : c.list.filter keep = [] := by rw [← list_retain, none]
    rw [Completions.retain, empty]
    exact fits_empty
  · have listed (d : Candidate) : d ∈ (c.retain keep).list ↔ d ∈ c.list ∧ keep d = true := by
      rw [list_retain, List.mem_filter]
    have some : c.list ≠ [] := by
      obtain ⟨d, member⟩ := List.exists_mem_of_ne_nil _ none
      exact List.ne_nil_of_mem ((listed d).mp member).1
    have hull := fits.hull some
    rw [← span_retain none] at hull
    have among : ∀ t ∈ (c.retain keep).list.map Candidate.span, t ∈ c.list.map Candidate.span := by
      intro t member
      obtain ⟨d, kept, rfl⟩ := List.mem_map.mp member
      exact List.mem_map_of_mem ((listed d).mp kept).1
    simp only [none, false_or]
    constructor
    · intro fitting d member _
      exact (hull.iff_inHull among).mp (fitting.hull none) _ (List.mem_map_of_mem member)
    · intro inside
      refine ⟨fun empty => absurd empty none, fun _ => (hull.iff_inHull among).mpr ?_⟩
      intro t member u around
      obtain ⟨d, listed', rfl⟩ := List.mem_map.mp member
      cases kept : keep d with
      | true => exact around _ (List.mem_map_of_mem ((listed d).mpr ⟨listed', kept⟩))
      | false => exact inside d listed' kept u around

def Exceeds (c : Completions) (limit : Option Nat) : Prop := ∃ n ∈ limit, n < c.list.length

theorem collect_of_not_exceeds {typed : String} {limit : Option Nat} {all : List Completions}
    (within : ¬ ((merge all).retain (·.text != typed)).Exceeds limit) :
    collect typed limit all = (merge all).retain (·.text != typed) := by
  cases limit with
  | none => rfl
  | some n =>
    have few : ((merge all).retain (·.text != typed)).list.length ≤ n :=
      Nat.le_of_not_lt fun many => within ⟨n, rfl, many⟩
    simp only [collect, truncate, few, if_true]

theorem fits_collect_of_exceeds {typed : String} {limit : Option Nat} {all : List Completions}
    (exceeds : ((merge all).retain (·.text != typed)).Exceeds limit) :
    (collect typed limit all).Fits := by
  obtain ⟨n, rfl, many⟩ := exceeds
  simp only [collect, truncate, Nat.not_le_of_lt many, if_false]
  exact fits_ofCandidates _

theorem fits_collect_iff {all : List Completions} (fits : ∀ b ∈ all, b.Fits) (typed : String)
    (limit : Option Nat) :
    (collect typed limit all).Fits ↔ ((merge all).retain (·.text != typed)).Exceeds limit ∨
      (collect typed limit all).list = [] ∨ ∀ d ∈ (merge all).list, d.text = typed →
        d.span.InHull ((collect typed limit all).list.map Candidate.span) := by
  by_cases cut : ((merge all).retain (·.text != typed)).Exceeds limit
  · simp only [cut, fits_collect_of_exceeds cut, true_or]
  · rw [collect_of_not_exceeds cut, (fits_merge fits).retain_iff]
    simp only [cut, false_or, bne_eq_false_iff_eq]

end Completions

section Suggest

variable {S A : Type} {g : Grammar S A} {c : Context S A} {typed : String} {start : Nat}

def Grammar.OffersBuilt (g : Grammar S A) : Prop :=
  ∀ id name type, (g.node id).role = .argument name type → ∀ c draft all,
    type.complete c draft = .offered all → all.Built

theorem Reply.built_withFlags {flags all : Completions} {r : Reply} (builtFlags : flags.Built)
    (built : ∀ more, r = .offered more → more.Built) (offered : r.withFlags flags = .offered all) :
    all.Built := by
  cases r with
  | never => simp [withFlags] at offered
  | failed f =>
    obtain rfl := Reply.offered.inj offered
    exact .merged _ (by simp [builtFlags, Completions.built_empty])
  | offered more =>
    obtain rfl := Reply.offered.inj offered
    exact .merged _ (by simp [builtFlags, built more rfl])

namespace Grammar.OffersBuilt

variable (builds : g.OffersBuilt)
include builds

theorem complete {id : NodeId} {draft : Draft} {all : Completions}
    (offered : g.complete id c draft = .offered all) : all.Built := by
  unfold Grammar.complete at offered
  split at offered
  case h_1 name role =>
    obtain rfl := Reply.offered.inj offered
    exact .draft _
  case h_2 name type role => exact builds id name type role c draft all offered
  case h_3 =>
    obtain rfl := Reply.offered.inj offered
    exact Completions.built_empty

theorem branches {parent : Matched} {all : Completions}
    (among : .offered all ∈ g.branches c parent (.blank typed start)) : all.Built := by
  generalize replied : Reply.offered all = r at among
  cases branch_of_mem among with
  | nothing =>
    obtain rfl := Reply.offered.inj replied
    exact Completions.built_empty
  | node id => exact builds.complete replied.symm
  | flags pending =>
    obtain rfl := Reply.offered.inj replied
    exact .draft _
  | both pending id => exact Reply.built_withFlags (.draft _) (fun _ => builds.complete) replied.symm

theorem inTime {parent : Matched} {b : Completions}
    (among : b ∈ (g.branches c parent (.blank typed start)).map Reply.inTime) : b.Built := by
  obtain ⟨r, replied, rfl⟩ := List.mem_map.mp among
  cases r with
  | offered all => exact builds.branches replied
  | failed | never => exact Completions.built_empty

end Grammar.OffersBuilt

/-- Before the typed text is left out, the span of the completions fits. Afterwards it does if the list was
cut short, if nothing remains, or if the candidates for the typed text reached no further than the others,
and in no other case. -/
theorem Parse.fits_suggest_iff (builds : g.OffersBuilt) (settings : Settings) (p : Parse S A)
    (position : Nat) {r : Completions} (suggested : p.suggest g settings position = some r) :
    let query := p.context.queryAt position
    let start := min query.start position
    let typed := p.rest.textBetween start position
    let merged := Completions.merge
      ((g.branches p.context query.parent (.blank typed start)).map Reply.inTime)
    let exceeds := (merged.retain (·.text != typed)).Exceeds settings.maxSuggestions
    merged.Fits ∧ (¬ exceeds → r.list ≠ [] → r.span = merged.span) ∧
      (r.Fits ↔ exceeds ∨ r.list = [] ∨
        ∀ d ∈ merged.list, d.text = typed → d.span.InHull (r.list.map Candidate.span)) := by
  intro query start typed merged exceeds
  let all := (g.branches p.context query.parent (.blank typed start)).map Reply.inTime
  have fits : ∀ b ∈ all, b.Fits := fun b among => (builds.inTime among).fits
  have collected : r = .collect typed settings.maxSuggestions all := by
    rw [p.suggest_eq_collect g] at suggested
    split at suggested
    · exact (Option.some.inj suggested).symm
    · contradiction
  refine ⟨Completions.fits_merge fits, ?_, collected ▸ Completions.fits_collect_iff fits _ _⟩
  intro uncut some
  have kept : r = merged.retain (·.text != typed) :=
    collected.trans (Completions.collect_of_not_exceeds uncut)
  rw [kept] at some ⊢
  exact Completions.span_retain some

end Suggest

namespace Demo

def overlapping : Grammar User Deed :=
  (Grammar.empty.register .root
    (.argument "x"
      { ArgumentType.word with
        complete := fun _ _ =>
          .offered (.ofCandidates [⟨⟨0, 2⟩, "ab", none⟩, ⟨⟨1, 2⟩, "bc", none⟩]) }
      {} [])).1

theorem offersBuilt_overlapping : overlapping.OffersBuilt := by
  intro id name type role c draft all offered
  match id with
  | 1 =>
    obtain ⟨rfl, rfl⟩ : "x" = name ∧ _ = type := by simpa using Role.argument.inj role
    obtain rfl := Reply.offered.inj offered
    exact .candidates _
  | 0 | _ + 2 => cases role

theorem suggest_overlapping_fits :
    let p := overlapping.parse ⟨"console", true⟩ (.ofText "a")
    let r : Completions := ⟨⟨0, 2⟩, [⟨⟨0, 2⟩, "ab", none⟩, ⟨⟨1, 2⟩, "bc", none⟩]⟩
    overlapping.OffersBuilt ∧ p.suggest overlapping {} 1 = some r ∧ r.Fits := by
  intro p r
  have suggested : p.suggest overlapping {} 1 = some r := by decide +kernel
  refine ⟨offersBuilt_overlapping, suggested, ?_⟩
  have query : p.context.queryAt 1 = ⟨.node 0, 0⟩ := by decide +kernel
  have typed : p.rest.textBetween 0 1 = "a" := by decide +kernel
  obtain ⟨-, -, fits⟩ := p.fits_suggest_iff offersBuilt_overlapping {} 1 suggested
  simp only [query, typed, Nat.zero_le, Nat.min_eq_left] at fits
  have other : ∀ d ∈ (Completions.merge ((overlapping.branches p.context (.node 0)
      (.blank "a" 0)).map Reply.inTime)).list, d.text ≠ "a" := by decide +kernel
  exact fits.mpr (.inr (.inr fun d member same => absurd same (other d member)))

theorem suggest_overlapping_not_fits :
    let p := overlapping.parse ⟨"console", true⟩ (.ofText "ab")
    ∃ r, overlapping.OffersBuilt ∧ p.suggest overlapping {} 2 = some r ∧
      r = ⟨⟨0, 2⟩, [⟨⟨1, 2⟩, "bc", none⟩]⟩ ∧ ¬ r.Fits := by
  intro p
  refine ⟨⟨⟨0, 2⟩, [⟨⟨1, 2⟩, "bc", none⟩]⟩, offersBuilt_overlapping, by decide +kernel, rfl, ?_⟩
  intro fits
  have narrow := (fits.hull (by simp)).least ⟨1, 2⟩ (by simp [Span.Encloses])
  exact absurd narrow.1 (by decide)

end Demo

end CommandGrammar
