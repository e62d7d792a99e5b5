import Mathlib.Data.Bool.Basic
import Mathlib.Data.List.Forall2
import Mathlib.Order.BoundedOrder.Basic
import Mathlib.Data.Prod.Lex
import CommandGrammar.Demo.Commands
import CommandGrammar.Proofs.Parsing.Descent

set_option autoImplicit false

namespace CommandGrammar

variable {S A : Type}

namespace Parse

def rank (p : Parse S A) : Bool ×ₗ Bool := toLex (p.rest.hasMore, !p.faults.isEmpty)

theorem betterThan_iff (p q : Parse S A) : p.betterThan q = true ↔ p.rank < q.rank := by
  simp only [betterThan, rank, Prod.Lex.toLex_lt_toLex]
  cases p.rest.hasMore <;> cases q.rest.hasMore <;> cases p.faults.isEmpty <;>
    cases q.faults.isEmpty <;> decide

theorem isComplete_iff (p : Parse S A) : p.isComplete = true ↔ p.rank = toLex (false, false) := by
  simp only [isComplete, rank]
  cases p.rest.hasMore <;> cases p.faults.isEmpty <;> decide

theorem best_eq_none {found : List (Parse S A)} : best found = none ↔ found = [] := by
  cases found with
  | nil => simp [best]
  | cons p rest =>
    rw [best]
    cases best rest <;> simp

theorem best_map {f : Parse S A → Parse S A} (alike : ∀ p q, (f p).betterThan (f q) = p.betterThan q)
    (found : List (Parse S A)) : best (found.map f) = (best found).map f := by
  induction found with
  | nil => rfl
  | cons p rest ih =>
    rw [List.map_cons, best, best, ih]
    cases best rest with
    | none => rfl
    | some q =>
      simp only [Option.map_some, alike]
      split <;> rfl

theorem best_eq_some {found : List (Parse S A)} {p : Parse S A} (h : best found = some p) :
    ∃ before after, found = before ++ p :: after ∧ (∀ q ∈ before, p.rank < q.rank) ∧
      ∀ q ∈ after, p.rank ≤ q.rank := by
  induction found generalizing p with
  | nil => simp [best] at h
  | cons first rest ih =>
    rw [best] at h
    cases least : best rest with
    | none =>
      obtain rfl : first = p := by simpa [least] using h
      exact ⟨[], rest, rfl, by simp, by simp [best_eq_none.mp least]⟩
    | some q =>
      obtain ⟨before, after, split, less, atMost⟩ := ih least
      by_cases better : q.betterThan first = true
      · obtain rfl : q = p := by simpa [least, better] using h
        refine ⟨first :: before, after, by simp [split], ?_, atMost⟩
        intro other member
        rcases List.mem_cons.mp member with rfl | member
        · exact (betterThan_iff q other).mp better
        · exact less other member
      · obtain rfl : first = p := by simpa [least, better] using h
        have le : first.rank ≤ q.rank := not_lt.mp fun lt => better ((betterThan_iff q first).mpr lt)
        refine ⟨[], rest, rfl, by simp, ?_⟩
        intro other member
        rw [split, List.mem_append, List.mem_cons] at member
        rcases member with member | rfl | member
        · exact le.trans (less other member).le
        · exact le
        · exact le.trans (atMost other member)

end Parse

namespace Trial

def matched? : Trial S A → Option (Parse S A)
  | .matched p => some p
  | _ => none

def rejected? : Trial S A → Option Fault
  | .rejected f => some f
  | _ => none

def settled? : Trial S A → Option (Context S A × Input)
  | .decided p => some (p.context, p.rest)
  | .stuck c i _ => some (c, i)
  | _ => none

@[simp] theorem matched?_matched (p : Parse S A) : (matched p).matched? = some p := rfl

@[simp] theorem matched?_rejected (f : Fault) : (rejected f : Trial S A).matched? = none := rfl

@[simp] theorem rejected?_matched (p : Parse S A) : (matched p).rejected? = none := rfl

@[simp] theorem rejected?_rejected (f : Fault) : (rejected f : Trial S A).rejected? = some f := rfl

end Trial

namespace Grammar

variable {i : Input}

theorem tryChildren_settled {trial : NodeId → Trial S A} {c d : Context S A} {j : Input}
    {before after : List NodeId} {child : NodeId}
    (undecided : ∀ b ∈ before, (trial b).settled? = none)
    (settled : (trial child).settled? = some (d, j)) (faults : List (NodeId × Fault))
    (found : List (Parse S A)) :
    (tryChildren trial c i (before ++ child :: after) faults found).context = d ∧
      (tryChildren trial c i (before ++ child :: after) faults found).rest = j := by
  induction before generalizing faults found with
  | nil =>
    rw [List.nil_append, tryChildren]
    cases h : trial child <;> simp_all [Trial.settled?]
  | cons b rest ih =>
    have later := ih fun b member => undecided b (List.mem_cons_of_mem _ member)
    have first := undecided b (by simp)
    rw [List.cons_append, tryChildren]
    cases h : trial b with
    | decided p => simp [h, Trial.settled?] at first
    | stuck c i f => simp [h, Trial.settled?] at first
    | matched p => exact later faults (found ++ [p])
    | rejected f => exact later (faults ++ [(b, f)]) found

theorem tryChildren_undecided {trial : NodeId → Trial S A} {c : Context S A} {tried : List NodeId}
    (undecided : ∀ child ∈ tried, (trial child).settled? = none) (faults : List (NodeId × Fault))
    (found : List (Parse S A)) :
    tryChildren trial c i tried faults found =
      (Parse.best (found ++ tried.filterMap fun child => (trial child).matched?)).getD
        ⟨c, i, faults ++ tried.filterMap fun child => (trial child).rejected?.map (child, ·)⟩ := by
  induction tried generalizing faults found with
  | nil => simp [tryChildren]
  | cons child rest ih =>
    have later := ih fun b member => undecided b (List.mem_cons_of_mem _ member)
    have first := undecided child (by simp)
    rw [tryChildren]
    cases h : trial child with
    | decided p => simp [h, Trial.settled?] at first
    | stuck c i f => simp [h, Trial.settled?] at first
    | matched p => simp [h, later]
    | rejected f => simp [h, later]

def attempt (g : Grammar S A) (c : Context S A) (i : Input) (child : NodeId) : Attempt S A :=
  match (g.node child).composed? with
  | some members => (g.node child).matchComposed g child members c i
  | none => (g.node child).matchChild child c i

def isMatch (g : Grammar S A) (c : Context S A) (i : Input) (child : NodeId) : Bool :=
  (g.attempt c i child).fault.isNone

def decides (g : Grammar S A) (c : Context S A) (i : Input) (child : NodeId) : Bool :=
  (g.node child).isComposed ||
    (g.isMatch c i child && (g.attempt c i child).input.hasMore && (g.node child).redirect.isSome)

def follow (g : Grammar S A) (c : Context S A) (i : Input) (child : NodeId) : Parse S A :=
  let a := g.attempt c i child
  if (g.node child).isComposed || !a.input.hasMore then
    ⟨a.context, a.input, a.fault.toList.map (child, ·)⟩
  else
    let next := a.input.readChar.2
    match (g.node child).redirect with
    | none => g.parseBelow child a.context next
    | some target =>
      let p := g.parseBelow target (a.context.freshChild target next.position) next
      { p with context := a.context.redirectTo p.context }

section Trials

variable {g : Grammar S A} {c : Context S A} {child : NodeId}

theorem settled?_of_decides (h : g.decides c i child = true) :
    (g.tryChild g.parseBelow c i child).settled? =
      some ((g.follow c i child).context, (g.follow c i child).rest) := by
  cases composed : (g.node child).composed? with
  | some members =>
    rw [tryChild_composed composed]
    simp only [follow, attempt, Node.isComposed, composed, Option.isSome_some, Bool.true_or, if_true]
    split <;> rfl
  | none =>
    simp only [decides, isMatch, attempt, Node.isComposed, composed, Option.isSome_none,
      Bool.false_or, Bool.and_eq_true, Option.isNone_iff_eq_none, Option.isSome_iff_exists] at h
    obtain ⟨⟨matched, more⟩, target, redirect⟩ := h
    rw [tryChild_redirect composed matched more redirect]
    simp [follow, attempt, Node.isComposed, composed, more, redirect, Trial.settled?]

theorem tryChild_of_isMatch (undecided : g.decides c i child = false)
    (matched : g.isMatch c i child = true) :
    g.tryChild g.parseBelow c i child = .matched (g.follow c i child) := by
  cases composed : (g.node child).composed? with
  | some members => simp [decides, Node.isComposed, composed] at undecided
  | none =>
    have plain : (g.node child).isComposed = false := by simp [Node.isComposed, composed]
    have fault : ((g.node child).matchChild child c i).fault = none := by
      simpa [isMatch, attempt, composed] using matched
    cases more : ((g.node child).matchChild child c i).input.hasMore with
    | false => simp [tryChild_ended composed fault more, follow, attempt, composed, plain, more, fault]
    | true =>
      have stays : (g.node child).redirect = none := by
        simpa [decides, isMatch, attempt, composed, plain, fault, more] using undecided
      simp [tryChild_below composed fault more stays, follow, attempt, composed, plain, more, stays]

theorem tryChild_of_not_isMatch (undecided : g.decides c i child = false)
    (unmatched : g.isMatch c i child = false) :
    ∃ f, (g.attempt c i child).fault = some f ∧
      g.tryChild g.parseBelow c i child = .rejected f := by
  cases composed : (g.node child).composed? with
  | some members => simp [decides, Node.isComposed, composed] at undecided
  | none =>
    cases fault : ((g.node child).matchChild child c i).fault with
    | none => simp [isMatch, attempt, composed, fault] at unmatched
    | some f => exact ⟨f, by simp [attempt, composed, fault], tryChild_rejected composed fault⟩

theorem settled?_of_not_decides (undecided : g.decides c i child = false) :
    (g.tryChild g.parseBelow c i child).settled? = none := by
  cases matched : g.isMatch c i child with
  | true => simp [tryChild_of_isMatch undecided matched, Trial.settled?]
  | false =>
    obtain ⟨f, -, rejected⟩ := tryChild_of_not_isMatch undecided matched
    simp [rejected, Trial.settled?]

theorem filterMap_matched (tried : List NodeId)
    (undecided : ∀ child ∈ tried, g.decides c i child = false) :
    (tried.filterMap fun child => (g.tryChild g.parseBelow c i child).matched?) =
      (tried.filter (g.isMatch c i)).map (g.follow c i) := by
  induction tried with
  | nil => rfl
  | cons child rest ih =>
    have others := ih fun b member => undecided b (List.mem_cons_of_mem _ member)
    have first := undecided child (by simp)
    cases matched : g.isMatch c i child with
    | true => simp [others, tryChild_of_isMatch first matched, matched]
    | false =>
      obtain ⟨f, -, rejected⟩ := tryChild_of_not_isMatch first matched
      simp [others, rejected, matched]

theorem filterMap_rejected (tried : List NodeId)
    (undecided : ∀ child ∈ tried, g.decides c i child = false)
    (unmatched : ∀ child ∈ tried, g.isMatch c i child = false) :
    List.Forall₂ (fun child (e : NodeId × Fault) =>
        e.1 = child ∧ (g.attempt c i child).fault = some e.2) tried
      (tried.filterMap fun child =>
        (g.tryChild g.parseBelow c i child).rejected?.map (child, ·)) := by
  induction tried with
  | nil => exact .nil
  | cons child rest ih =>
    have others := ih (fun b member => undecided b (List.mem_cons_of_mem _ member))
      fun b member => unmatched b (List.mem_cons_of_mem _ member)
    obtain ⟨f, fault, rejected⟩ :=
      tryChild_of_not_isMatch (undecided child (by simp)) (unmatched child (by simp))
    simp only [List.filterMap_cons, rejected, Trial.rejected?_rejected, Option.map_some]
    exact .cons ⟨rfl, fault⟩ others

theorem isComplete_follow (undecided : g.decides c i child = false)
    (matched : g.isMatch c i child = true) :
    (g.follow c i child).isComplete = true ↔
      (g.attempt c i child).input.hasMore = false ∨
      (g.parseBelow child (g.attempt c i child).context
        (g.attempt c i child).input.readChar.2).isComplete = true := by
  simp only [decides, Bool.or_eq_false_iff, matched, Bool.true_and] at undecided
  obtain ⟨plain, stays⟩ := undecided
  have fault : (g.attempt c i child).fault = none := by simpa [isMatch] using matched
  cases more : (g.attempt c i child).input.hasMore with
  | false => simp [follow, plain, more, Parse.isComplete, fault]
  | true =>
    have stays : (g.node child).redirect = none := by simpa [more] using stays
    simp [follow, plain, more, stays]

end Trials

variable (g : Grammar S A) (laid : i.Laid) (id : NodeId) (c : Context S A)
include laid

theorem parseBelow_of_decides {before after : List NodeId} {child : NodeId}
    (tried : g.candidates id c.source i = before ++ child :: after)
    (undecided : ∀ b ∈ before, g.decides c i b = false) (decides : g.decides c i child = true) :
    (g.parseBelow id c i).context = (g.follow c i child).context ∧
      (g.parseBelow id c i).rest = (g.follow c i child).rest := by
  rw [g.parseBelow_eq laid, tried]
  exact tryChildren_settled (fun b member => settled?_of_not_decides (undecided b member))
    (settled?_of_decides decides) [] []

theorem parseBelow_of_undecided (undecided : ∀ child ∈ g.candidates id c.source i,
    g.decides c i child = false) :
    g.parseBelow id c i =
      (Parse.best (((g.candidates id c.source i).filter (g.isMatch c i)).map (g.follow c i))).getD
        ⟨c, i, (g.candidates id c.source i).filterMap fun child =>
          (g.tryChild g.parseBelow c i child).rejected?.map (child, ·)⟩ := by
  rw [g.parseBelow_eq laid, tryChildren_undecided
    (fun child member => settled?_of_not_decides (undecided child member)),
    List.nil_append, List.nil_append, filterMap_matched _ undecided]

theorem parseBelow_of_isMatch (undecided : ∀ child ∈ g.candidates id c.source i,
    g.decides c i child = false)
    (matched : (g.candidates id c.source i).filter (g.isMatch c i) ≠ []) :
    ∃ before child after,
      (g.candidates id c.source i).filter (g.isMatch c i) = before ++ child :: after ∧
      g.parseBelow id c i = g.follow c i child ∧
      (∀ b ∈ before, (g.follow c i child).rank < (g.follow c i b).rank) ∧
      ∀ b ∈ after, (g.follow c i child).rank ≤ (g.follow c i b).rank := by
  have parse := g.parseBelow_of_undecided laid id c undecided
  cases least : Parse.best
      (((g.candidates id c.source i).filter (g.isMatch c i)).map (g.follow c i)) with
  | none => exact absurd (List.map_eq_nil_iff.mp (Parse.best_eq_none.mp least)) matched
  | some p =>
    rw [least, Option.getD_some] at parse
    obtain ⟨before, after, parses, less, atMost⟩ := Parse.best_eq_some least
    obtain ⟨first, others, children, rfl, remaining⟩ := List.map_eq_append_iff.mp parses
    obtain ⟨child, last, rfl, rfl, rfl⟩ := List.map_eq_cons_iff.mp remaining
    refine ⟨first, child, last, children, parse, ?_, ?_⟩
    · intro b member
      exact less _ (List.mem_map_of_mem member)
    · intro b member
      exact atMost _ (List.mem_map_of_mem member)

theorem parseBelow_of_not_isMatch (undecided : ∀ child ∈ g.candidates id c.source i,
    g.decides c i child = false)
    (unmatched : (g.candidates id c.source i).filter (g.isMatch c i) = []) :
    (g.parseBelow id c i).context = c ∧ (g.parseBelow id c i).rest = i ∧
      List.Forall₂ (fun child (e : NodeId × Fault) =>
          e.1 = child ∧ (g.attempt c i child).fault = some e.2)
        (g.candidates id c.source i) (g.parseBelow id c i).faults := by
  have parse := g.parseBelow_of_undecided laid id c undecided
  rw [unmatched, List.map_nil, Parse.best, Option.getD_none] at parse
  rw [parse]
  refine ⟨rfl, rfl, filterMap_rejected _ undecided ?_⟩
  intro child member
  simpa using List.filter_eq_nil_iff.mp unmatched child member

theorem isComplete_parseBelow_iff (undecided : ∀ child ∈ g.candidates id c.source i,
    g.decides c i child = false) :
    (g.parseBelow id c i).isComplete = true ↔
      (∃ child ∈ g.candidates id c.source i, g.isMatch c i child = true ∧
        (g.follow c i child).isComplete = true) ∨
      (g.candidates id c.source i = [] ∧ i.hasMore = false) := by
  by_cases matched : (g.candidates id c.source i).filter (g.isMatch c i) = []
  · obtain ⟨-, rest, faults⟩ := g.parseBelow_of_not_isMatch laid id c undecided matched
    have none : ∀ child ∈ g.candidates id c.source i, ¬ g.isMatch c i child = true :=
      List.filter_eq_nil_iff.mp matched
    simp only [Parse.isComplete, rest, Bool.and_eq_true, Bool.not_eq_true', List.isEmpty_iff]
    constructor
    · rintro ⟨ended, empty⟩
      rw [empty] at faults
      exact .inr ⟨List.forall₂_nil_right_iff.mp faults, ended⟩
    · rintro (⟨child, member, isMatch, -⟩ | ⟨empty, ended⟩)
      · exact absurd isMatch (none child member)
      · rw [empty] at faults
        exact ⟨ended, List.forall₂_nil_left_iff.mp faults⟩
  · obtain ⟨before, child, after, split, parse, less, atMost⟩ :=
      g.parseBelow_of_isMatch laid id c undecided matched
    have member (b : NodeId) : b ∈ before ++ child :: after ↔
        b ∈ g.candidates id c.source i ∧ g.isMatch c i b = true := by
      rw [← split, List.mem_filter]
    rw [parse]
    constructor
    · intro complete
      obtain ⟨among, isMatch⟩ := (member child).mp (by simp)
      exact .inl ⟨child, among, isMatch, complete⟩
    · -- No branch ranks above a complete one, so the one that was chosen is complete too.
      rintro (⟨b, among, isMatch, complete⟩ | ⟨empty, -⟩)
      · rw [Parse.isComplete_iff] at complete ⊢
        have atMost : (g.follow c i child).rank ≤ (g.follow c i b).rank := by
          have cases := (member b).mpr ⟨among, isMatch⟩
          rw [List.mem_append, List.mem_cons] at cases
          rcases cases with earlier | rfl | later
          · exact (less b earlier).le
          · exact le_refl _
          · exact atMost b later
        rw [complete] at atMost
        exact le_antisymm atMost bot_le
      · simp [empty] at split

omit laid in
theorem parseBelow_branches (r : Rendering) (values : List Value) (n : Nat) :
    let i := (Input.ofValues r values).seek n
    let tried := g.candidates id c.source i
    let p := g.parseBelow id c i
    (∀ before child after, tried = before ++ child :: after →
      (∀ b ∈ before, g.decides c i b = false) → g.decides c i child = true →
      p.context = (g.follow c i child).context ∧ p.rest = (g.follow c i child).rest) ∧
    ((∀ child ∈ tried, g.decides c i child = false) →
      (p.isComplete = true ↔
        (∃ child ∈ tried, g.isMatch c i child = true ∧
          ((g.attempt c i child).input.hasMore = false ∨
          (g.parseBelow child (g.attempt c i child).context
            (g.attempt c i child).input.readChar.2).isComplete = true)) ∨
        (tried = [] ∧ i.hasMore = false)) ∧
      (tried.filter (g.isMatch c i) ≠ [] →
        ∃ before child after, tried.filter (g.isMatch c i) = before ++ child :: after ∧
          p = g.follow c i child ∧
          (∀ b ∈ before, (g.follow c i child).rank < (g.follow c i b).rank) ∧
          ∀ b ∈ after, (g.follow c i child).rank ≤ (g.follow c i b).rank) ∧
      (tried.filter (g.isMatch c i) = [] →
        p.context = c ∧ p.rest = i ∧
          List.Forall₂ (fun child (e : NodeId × Fault) =>
            e.1 = child ∧ (g.attempt c i child).fault = some e.2) tried p.faults)) := by
  intro i tried p
  have laid : i.Laid := Input.laid_ofValues r values n
  refine ⟨fun before child after split undecided decides =>
    g.parseBelow_of_decides laid id c split undecided decides, ?_⟩
  intro undecided
  refine ⟨?_, g.parseBelow_of_isMatch laid id c undecided,
    g.parseBelow_of_not_isMatch laid id c undecided⟩
  rw [g.isComplete_parseBelow_iff laid id c undecided]
  refine or_congr_left (exists_congr fun child => and_congr_right fun member => ?_)
  exact and_congr_right fun matched => isComplete_follow (undecided child member) matched

end Grammar

namespace Demo

def twoWays : Grammar User Deed :=
  [ .argument "a" .string {} [.literal "x" {} [], .literal "y" {} []],
    .argument "b" .string {}
      [.literal "c" {} [.literal "p" {} [], .literal "q" {} []]] ].foldl
    (fun g way => (g.register .root way).1) .empty

end Demo

theorem Demo.twoWays_branches :
    let i := (Input.ofValues .standard [.ofString "one c"]).seek 0
    let c : Context User Deed := .start ⟨"console", true⟩ .root 0
    let p := twoWays.parseBelow .root c i
    twoWays.candidates .root c.source i = [1, 4] ∧ p = twoWays.follow c i 4 ∧ p.isComplete = true := by
  intro i c p
  have tried : twoWays.candidates .root c.source i = [1, 4] := by decide
  obtain ⟨-, rest⟩ := twoWays.parseBelow_branches .root c .standard [.ofString "one c"] 0
  obtain ⟨complete, best, -⟩ := rest (by decide)
  have matched : (twoWays.candidates .root c.source i).filter (twoWays.isMatch c i) = [1, 4] := by decide
  obtain ⟨before, child, after, split, same, -, atMost⟩ :=
    best (fun none => absurd (matched.symm.trans none) (by simp))
  have second : child = 4 := by
    rcases List.cons_eq_append_iff.mp (matched.symm.trans split) with ⟨rfl, here⟩ | ⟨_, rfl, there⟩
    · obtain ⟨rfl, rfl⟩ := List.cons.inj here
      exact absurd (atMost 4 (by simp)) (by decide)
    · rcases List.cons_eq_append_iff.mp there with ⟨rfl, here⟩ | ⟨_, rfl, more⟩
      · exact (List.cons.inj here).1
      · simp at more
  exact ⟨tried, second ▸ same, complete.mpr (.inl ⟨4, by decide, by decide, .inr (by decide)⟩)⟩

end CommandGrammar
