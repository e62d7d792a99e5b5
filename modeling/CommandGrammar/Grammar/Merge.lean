import CommandGrammar.Grammar.Registration

set_option autoImplicit false

namespace CommandGrammar

namespace NameIndex

def map (f : NodeId → NodeId) (index : NameIndex) : NameIndex := fun n => (index n).map f

@[simp] theorem find?_map (f : NodeId → NodeId) (index : NameIndex) (name : String) :
    (index.map f).find? name = (index.find? name).map f := rfl

end NameIndex

def Composed.map (f : NodeId → NodeId) (c : Composed) : Composed :=
  ⟨c.sequence.map f, c.byName.map f⟩

namespace Node

variable {S A : Type}

def renumber (f : NodeId → NodeId) (n : Node S A) : Node S A :=
  { n with
    redirect := n.redirect.map f
    role := match n.role with
      | .composed members => .composed (members.map f)
      | role => role
    children := n.children.map f
    byName := n.byName.map f
    literals := n.literals.map f }

end Node

namespace Grammar

variable {S A : Type}

def moved (offset : Nat) (id : NodeId) : NodeId := if id = .root then .root else id + offset

def merge (first second : Grammar S A) : Grammar S A :=
  let offset := first.nodeCount - 1
  let both : Grammar S A :=
    ⟨first.nodes ++ (second.nodes.drop 1).map (·.renumber (moved offset))⟩
  (second.node .root).children.foldl (fun g child => g.attach .root (moved offset child)) both

@[simp] theorem moved_root (offset : Nat) : moved offset .root = .root := rfl

variable {first second : Grammar S A}

def union (first second : Grammar S A) : Grammar S A :=
  ⟨first.nodes ++ (second.nodes.drop 1).map (·.renumber (moved (first.nodeCount - 1)))⟩

theorem merge_eq (first second : Grammar S A) :
    first.merge second = (second.node .root).children.foldl
      (fun g child => g.attach .root (moved (first.nodeCount - 1) child)) (first.union second) := rfl

theorem moved_injective (offset : Nat) : Function.Injective (moved offset) := by
  intro a b same
  unfold moved at same
  split at same
  case isTrue ha =>
    split at same
    case isTrue hb => exact ha.trans hb.symm
    case isFalse hb => exact absurd (Nat.add_eq_zero_iff.mp same.symm).1 hb
  case isFalse ha =>
    split at same
    case isTrue hb => exact absurd (Nat.add_eq_zero_iff.mp same).1 ha
    case isFalse hb => exact Nat.add_right_cancel same

theorem moved_of_ne {id : NodeId} (h : id ≠ .root) (offset : Nat) : moved offset id = id + offset :=
  if_neg h

theorem node_union_of_lt {id : NodeId} (known : id < first.nodeCount) :
    (first.union second).node id = first.node id :=
  congrArg (·.getD .blankRoot) (List.getElem?_append_left known)

theorem node?_union_moved (present : 0 < first.nodeCount) {id : NodeId} (h : id ≠ .root) :
    (first.union second).node? (moved (first.nodeCount - 1) id) =
      (second.node? id).map (·.renumber (moved (first.nodeCount - 1))) := by
  obtain ⟨k, rfl⟩ := Nat.exists_eq_succ_of_ne_zero h
  have position : k + 1 + (first.nodeCount - 1) = first.nodeCount + k := by omega
  rw [moved_of_ne h, Nat.succ_eq_add_one, position, node?, union, nodeCount,
    List.getElem?_append_right (Nat.le_add_right _ _), Nat.add_sub_cancel_left, List.getElem?_map,
    List.getElem?_drop, Nat.add_comm 1 k]
  rfl

theorem node?_union {id : NodeId} {n : Node S A} (present : 0 < first.nodeCount)
    (found : (first.union second).node? id = some n) :
    first.node? id = some n ∨ ∃ id' m, id' ≠ .root ∧ moved (first.nodeCount - 1) id' = id ∧
      second.node? id' = some m ∧ m.renumber (moved (first.nodeCount - 1)) = n := by
  by_cases lt : id < first.nodeCount
  · exact .inl ((List.getElem?_append_left lt).symm.trans found)
  · have beyond : first.nodeCount - 1 < id :=
      Nat.lt_of_lt_of_le (Nat.sub_lt present Nat.one_pos) (Nat.le_of_not_lt lt)
    have proper : id - (first.nodeCount - 1) ≠ NodeId.root := Nat.sub_ne_zero_of_lt beyond
    have back : moved (first.nodeCount - 1) (id - (first.nodeCount - 1)) = id :=
      (moved_of_ne proper _).trans (Nat.sub_add_cancel (Nat.le_of_lt beyond))
    rw [← back, node?_union_moved present proper] at found
    obtain ⟨m, found, renumbered⟩ := Option.map_eq_some_iff.mp found
    exact .inr ⟨_, m, proper, back, found, renumbered⟩

theorem isRoot_renumber (n : Node S A) (f : NodeId → NodeId) : (n.renumber f).isRoot = n.isRoot := by
  cases role : n.role <;> simp [Node.renumber, Node.isRoot, role]

theorem name_renumber (n : Node S A) (f : NodeId → NodeId) : (n.renumber f).name = n.name := by
  cases role : n.role <;> simp [Node.renumber, Node.name, role]

theorem role_renumber_eq_literal (n : Node S A) (f : NodeId → NodeId) (name : String) :
    (n.renumber f).role = .literal name ↔ n.role = .literal name := by
  cases role : n.role <;> simp [Node.renumber, role]

end Grammar

end CommandGrammar
