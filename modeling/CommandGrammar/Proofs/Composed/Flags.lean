import CommandGrammar.Proofs.Grammar.Soundness

set_option autoImplicit false

namespace CommandGrammar

theorem NameIndex.find?_ofList {entries : List (String × NodeId)}
    (distinct : (entries.map Prod.fst).Nodup) (name : String) (id : NodeId) :
    (NameIndex.ofList entries).find? name = some id ↔ (name, id) ∈ entries := by
  have onto (start : NameIndex) :
      (entries.foldl (fun index e => index.insert e.1 e.2) start).find? name = some id ↔
        (name, id) ∈ entries ∨ name ∉ entries.map Prod.fst ∧ start.find? name = some id := by
    induction entries generalizing start with
    | nil => simp
    | cons e rest ih =>
      obtain ⟨absent, distinct⟩ := List.nodup_cons.mp distinct
      rw [List.foldl_cons, ih distinct, find?_insert]
      by_cases same : name = e.1
      · subst same
        have unnamed : (e.1, id) ∉ rest := fun member =>
          absent (List.mem_map.mpr ⟨_, member, rfl⟩)
        rw [if_pos rfl]
        simp [absent, unnamed, Prod.ext_iff, eq_comm]
      · have other : (name, id) ≠ e := fun same' => same (congrArg Prod.fst same')
        simp [same, other]
  exact (onto .empty).trans (by simp)

variable {S A : Type} {g : Grammar S A} {members : Composed}

namespace Composed

structure Proper (g : Grammar S A) (members : Composed) : Prop where
  nodup : members.sequence.Nodup
  arguments : ∀ m ∈ members.sequence, ∃ type, (g.node m).role = .argument (g.node m).name type
  byName : ∀ name m, members.byName.find? name = some m ↔
    m ∈ members.sequence ∧ (g.node m).name = name

theorem Declared.named {entries : List (String × NodeId)}
    (arguments : ∀ e ∈ entries, ∃ type, ∃ n, g.node? e.2 = some n ∧ n.role = .argument e.1 type) :
    ∀ e ∈ entries, (g.node e.2).name = e.1 ∧ ∃ type, (g.node e.2).role = .argument e.1 type := by
  intro e member
  obtain ⟨type, n, found, role⟩ := arguments e member
  rw [Grammar.node_of_node? found]
  exact ⟨by simp [Node.name, role], type, role⟩

theorem Declared.arguments (declared : members.Declared g) :
    ∀ m ∈ members.sequence, ∃ name type, (g.node m).role = .argument name type := by
  obtain ⟨entries, rfl, -, arguments⟩ := declared
  intro m member
  obtain ⟨e, inside, rfl⟩ := List.mem_map.mp member
  exact ⟨e.1, (named arguments e inside).2⟩

theorem Declared.proper (declared : members.Declared g)
    (distinct : (members.sequence.map fun m => (g.node m).name).Nodup) : members.Proper g := by
  obtain ⟨entries, rfl, nodup, arguments⟩ := declared
  have named := Declared.named arguments
  have names : (ofMembers entries).sequence.map (fun m => (g.node m).name) =
      entries.map Prod.fst := by
    simp only [ofMembers, List.map_map]
    exact List.map_congr_left fun e member => (named e member).1
  rw [names] at distinct
  refine ⟨nodup, ?_, ?_⟩
  · intro m member
    obtain ⟨e, inside, rfl⟩ := List.mem_map.mp member
    obtain ⟨name, type, role⟩ := named e inside
    exact ⟨type, name ▸ role⟩
  · intro name m
    simp only [ofMembers, NameIndex.find?_ofList distinct, List.mem_map]
    constructor
    · intro inside
      exact ⟨⟨(name, m), inside, rfl⟩, (named _ inside).1⟩
    · rintro ⟨⟨e, inside, rfl⟩, rfl⟩
      rw [(named e inside).1]
      exact inside

theorem Proper.pendingFlag_eq_some (proper : members.Proper g) {word : String}
    {pending : List NodeId} {m : NodeId} :
    members.pendingFlag word pending = some m ↔
      m ∈ pending ∧ m ∈ members.sequence ∧ word = "--" ++ (g.node m).name := by
  have flag (name : String) : word = "--" ++ name ↔ word.toList = '-' :: '-' :: name.toList := by
    rw [← String.toList_inj, String.toList_append]
    rfl
  rw [flag]
  unfold pendingFlag
  split
  case h_1 letters same =>
    rw [same, Option.filter_eq_some_iff, proper.byName, decide_eq_true_iff]
    simp only [List.cons.injEq, true_and]
    rw [← String.toList_inj, String.toList_ofList, eq_comm (a := letters)]
    tauto
  case h_2 other =>
    refine ⟨fun none => by simp at none, fun ⟨_, _, same⟩ => absurd same (other _)⟩

end Composed

end CommandGrammar
