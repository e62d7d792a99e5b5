import CommandGrammar.Proofs.Completion.Canonical

set_option autoImplicit false

namespace CommandGrammar

namespace Completions

variable {c : Completions} {all others : List Completions} {xs ys : List Candidate}

theorem Built.ofCandidates_eq (built : c.Built) : ofCandidates c.list = c := by
  induction built with
  | candidates candidates => exact ofCandidates_list candidates
  | draft d => exact ofCandidates_list d.entries
  | merged branches _ ih => rw [merge_eq_ofCandidates ih, ofCandidates_list]

theorem merge_of_built (built : ∀ b ∈ all, b.Built) : merge all = ofCandidates (all.flatMap list) :=
  merge_eq_ofCandidates fun b among => (built b among).ofCandidates_eq

theorem texts_ofCandidates_congr (same : ∀ k, k ∈ xs.map Candidate.key ↔ k ∈ ys.map Candidate.key) :
    (ofCandidates xs).list.map Candidate.text = (ofCandidates ys).list.map Candidate.text := by
  have keys : ((ofCandidates xs).list.map Candidate.key).Perm
      ((ofCandidates ys).list.map Candidate.key) := by
    refine (List.perm_ext_iff_of_nodup (nodup_ofCandidates xs) (nodup_ofCandidates ys)).mpr fun k => ?_
    rw [mem_map_key_ofCandidates, mem_map_key_ofCandidates, same]
  have texts := keys.map Prod.fst
  rw [List.map_map, List.map_map] at texts
  exact texts.eq_of_pairwise (fun x y _ _ => Text.Alphabetical.antisymm) (alphabetical_ofCandidates xs)
    (alphabetical_ofCandidates ys)

theorem list_ofCandidates_of_sublist (picked : xs.Sublist (ofCandidates ys).list) :
    (ofCandidates xs).list = xs := by
  have nodup : (xs.map Candidate.key).Nodup := (picked.map Candidate.key).nodup (nodup_ofCandidates ys)
  have sorted := (Candidate.pairwise_sort _).sublist picked
  have distinct : Candidate.distinctFrom [] xs = xs := Candidate.distinctFrom_eq_self nodup (by simp)
  simp only [ofCandidates, distinct]
  exact Order.sort_eq_self sorted

theorem list_truncate (picked : c.list.Sublist (ofCandidates ys).list) (n : Nat) :
    (c.truncate n).list = c.list.take n := by
  unfold truncate
  split
  case isTrue few => exact (List.take_of_length_le few).symm
  case isFalse => exact list_ofCandidates_of_sublist ((List.take_sublist n _).trans picked)

theorem list_collect_none (typed : String) (all : List Completions) :
    (collect typed none all).list = (merge all).list.filter (·.text != typed) :=
  list_retain _ _

theorem list_collect_some (built : ∀ b ∈ all, b.Built) (typed : String) (n : Nat) :
    (collect typed (some n) all).list = (collect typed none all).list.take n := by
  apply list_truncate
  rw [← merge_of_built built, list_retain]
  exact List.filter_sublist

theorem texts_collect_none (built : ∀ b ∈ all, b.Built) (typed : String) :
    (collect typed none all).list.map Candidate.text =
      ((ofCandidates (all.flatMap list)).list.map Candidate.text).filter (· != typed) := by
  rw [list_collect_none, merge_of_built built, List.filter_map]
  rfl

theorem mem_map_key_collect (built : ∀ b ∈ all, b.Built) (typed : String) (k : String × Option String) :
    k ∈ (collect typed none all).list.map Candidate.key ↔
      k.1 ≠ typed ∧ ∃ b ∈ all, k ∈ b.list.map Candidate.key := by
  have offered : k ∈ (merge all).list.map Candidate.key ↔ ∃ b ∈ all, k ∈ b.list.map Candidate.key := by
    rw [merge_of_built built, mem_map_key_ofCandidates, List.map_flatMap, List.mem_flatMap]
  have other : (fun c : Candidate => c.text != typed) = (fun k => k.1 != typed) ∘ Candidate.key := rfl
  rw [list_collect_none, other, ← List.filter_map, List.mem_filter, offered, bne_iff_ne, and_comm]

/-- In whatever order the branches stand, the same texts come one after the other. Without a limit they are
those of all candidates that are not typed already, and with a limit the candidates are the first of these. -/
theorem texts_collect_perm (perm : others.Perm all) (built : ∀ b ∈ all, b.Built) (typed : String)
    (limit : Option Nat) :
    (collect typed limit others).list.map Candidate.text =
        (collect typed limit all).list.map Candidate.text ∧
      (∀ n, (collect typed (some n) all).list = (collect typed none all).list.take n) ∧
      ∀ k, k ∈ (collect typed none all).list.map Candidate.key ↔
        k.1 ≠ typed ∧ ∃ b ∈ all, k ∈ b.list.map Candidate.key := by
  have built' : ∀ b ∈ others, b.Built := fun b among => built b (perm.mem_iff.mp among)
  refine ⟨?_, list_collect_some built typed, mem_map_key_collect built typed⟩
  have keys : ∀ k, k ∈ (others.flatMap list).map Candidate.key ↔ k ∈ (all.flatMap list).map Candidate.key :=
    fun k => ((perm.flatMap_right list).map Candidate.key).mem_iff
  have unlimited : (collect typed none others).list.map Candidate.text =
      (collect typed none all).list.map Candidate.text := by
    rw [texts_collect_none built', texts_collect_none built, texts_ofCandidates_congr keys]
  cases limit with
  | none => exact unlimited
  | some n =>
    rw [list_collect_some built', list_collect_some built, List.map_take, List.map_take, unlimited]

-- Candidates for the same text change places with their branches, and the limit cuts off another one.
theorem texts_collect_perm_bees :
    let first := ofCandidates [⟨⟨0, 1⟩, "bee", some "insect"⟩, ⟨⟨0, 1⟩, "Ant", none⟩]
    let second := ofCandidates [⟨⟨0, 1⟩, "b", none⟩, ⟨⟨0, 1⟩, "bee", none⟩]
    [second, first].Perm [first, second] ∧ (∀ b ∈ [first, second], b.Built) ∧
      (collect "b" (some 2) [second, first]).list.map Candidate.text = ["Ant", "bee"] ∧
      (collect "b" (some 2) [second, first]).list ≠ (collect "b" (some 2) [first, second]).list := by
  intro first second
  have perm : [second, first].Perm [first, second] := .swap first second []
  have built : ∀ b ∈ [first, second], b.Built := by
    simpa using And.intro (Built.candidates _) (Built.candidates _)
  refine ⟨perm, built, ?_, by decide +kernel⟩
  rw [(texts_collect_perm perm built "b" (some 2)).1]
  decide +kernel

end Completions

end CommandGrammar
