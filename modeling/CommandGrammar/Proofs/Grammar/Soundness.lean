import Mathlib.Data.List.Nodup
import CommandGrammar.Grammar.Registration

set_option autoImplicit false

namespace CommandGrammar

variable {S A : Type}

namespace Grammar

def Extends (g h : Grammar S A) : Prop :=
  ∀ id n, g.node? id = some n → ∃ m, h.node? id = some m ∧ m.role = n.role

theorem Extends.refl (g : Grammar S A) : g.Extends g := fun _ n found => ⟨n, found, rfl⟩

theorem Extends.trans {g h k : Grammar S A} (first : g.Extends h) (second : h.Extends k) :
    g.Extends k := by
  intro id n found
  obtain ⟨m, found, role⟩ := first id n found
  obtain ⟨m', found, role'⟩ := second id m found
  exact ⟨m', found, role'.trans role⟩

def HasCommand (g : Grammar S A) (id : NodeId) : Prop :=
  ∃ n, g.node? id = some n ∧ n.isRoot = false

theorem isRoot_congr {m n : Node S A} (role : m.role = n.role) : m.isRoot = n.isRoot := by
  simp only [Node.isRoot, role]

theorem name_congr {m n : Node S A} (role : m.role = n.role) : m.name = n.name := by
  simp only [Node.name, role]

theorem HasCommand.extend {g h : Grammar S A} {id : NodeId} (command : g.HasCommand id)
    (extends_ : g.Extends h) : h.HasCommand id := by
  obtain ⟨n, found, proper⟩ := command
  obtain ⟨m, found, role⟩ := extends_ id n found
  exact ⟨m, found, (isRoot_congr role).trans proper⟩

theorem HasCommand.role_eq {g h : Grammar S A} {id : NodeId} (command : g.HasCommand id)
    (extends_ : g.Extends h) : (h.node id).role = (g.node id).role := by
  obtain ⟨n, found, -⟩ := command
  obtain ⟨m, found', role⟩ := extends_ id n found
  rw [node_of_node? found, node_of_node? found', role]

end Grammar

structure Node.Indexed (g : Grammar S A) (n : Node S A) : Prop where
  nodup : n.children.Nodup
  commands : ∀ child ∈ n.children, g.HasCommand child
  byName : ∀ name child, n.byName.find? name = some child ↔
    child ∈ n.children ∧ (g.node child).name = name
  literals : ∀ name child, n.literals.find? name = some child ↔
    child ∈ n.children ∧ (g.node child).role = .literal name

def Composed.Declared (g : Grammar S A) (members : Composed) : Prop :=
  ∃ entries, members = .ofMembers entries ∧ (entries.map Prod.snd).Nodup ∧
    ∀ e ∈ entries, ∃ type, ∃ n, g.node? e.2 = some n ∧ n.role = .argument e.1 type

structure Grammar.Sound (g : Grammar S A) : Prop where
  root : ∃ n, g.node? .root = some n ∧ n.isRoot = true
  indexed : ∀ id n, g.node? id = some n → n.Indexed g
  declared : ∀ id n members, g.node? id = some n → n.role = .composed members → members.Declared g

namespace Node

variable {g h : Grammar S A} {n : Node S A}

theorem Indexed.extend (indexed : n.Indexed g) (extends_ : g.Extends h) : n.Indexed h := by
  refine ⟨indexed.nodup, fun child member => (indexed.commands child member).extend extends_, ?_, ?_⟩
  · intro name child
    rw [indexed.byName]
    refine and_congr_right fun member => ?_
    rw [Grammar.name_congr ((indexed.commands child member).role_eq extends_)]
  · intro name child
    rw [indexed.literals]
    refine and_congr_right fun member => ?_
    rw [(indexed.commands child member).role_eq extends_]

theorem indexed_ofRole (g : Grammar S A) (role : Role S A) (attributes : Attributes S A) :
    (ofRole role attributes).Indexed g :=
  ⟨.nil, by simp [ofRole], by simp [ofRole], by simp [ofRole]⟩

theorem role_of_composed? {n : Node S A} {members : Composed}
    (composed : n.composed? = some members) : n.role = .composed members := by
  cases role : n.role <;> simp_all [composed?]

@[simp] theorem role_adopt (parent child : Node S A) (id : NodeId) :
    (parent.adopt child id).role = parent.role := by
  unfold adopt
  cases parent.byName.find? child.name <;> rfl

@[simp] theorem toAttributes_adopt (parent child : Node S A) (id : NodeId) :
    (parent.adopt child id).toAttributes = parent.toAttributes := by
  unfold adopt
  cases parent.byName.find? child.name <;> rfl

theorem replace_split {xs : List NodeId} (nodup : xs.Nodup) {a : NodeId} (member : a ∈ xs)
    (b : NodeId) : ∃ before after, xs = before ++ a :: after ∧ xs.replace a b = before ++ b :: after := by
  obtain ⟨before, after, rfl⟩ := List.append_of_mem member
  have absent : a ∉ before := fun earlier =>
    (List.nodup_append.mp nodup).2.2 a earlier a (by simp) rfl
  exact ⟨before, after, rfl, by rw [List.replace_append_right absent, List.replace_cons_self]⟩

theorem literal_iff (m : Node S A) (name : String) :
    m.role = .literal name ↔ m.isLiteral = true ∧ m.name = name := by
  cases role : m.role <;> simp [isLiteral, Node.name, role]

namespace Indexed

variable {id : NodeId}

theorem eq_of_name (indexed : n.Indexed g) {x y : NodeId} (hx : x ∈ n.children)
    (hy : y ∈ n.children) (same : (g.node x).name = (g.node y).name) : x = y := by
  have left := (indexed.byName _ x).mpr ⟨hx, same⟩
  have right := (indexed.byName _ y).mpr ⟨hy, rfl⟩
  exact Option.some.inj (left.symm.trans right)

theorem mem_children_adopt (indexed : n.Indexed g) (x : NodeId) :
    x ∈ (n.adopt (g.node id) id).children ↔
      x = id ∨ x ∈ n.children ∧ (g.node x).name ≠ (g.node id).name := by
  cases found : n.byName.find? (g.node id).name with
  | none =>
    have unnamed (member : x ∈ n.children) : (g.node x).name ≠ (g.node id).name := by
      intro same
      simp [(indexed.byName _ x).mpr ⟨member, same⟩] at found
    simp only [adopt, found, List.mem_append, List.mem_singleton]
    constructor
    · rintro (member | same)
      · exact .inr ⟨member, unnamed member⟩
      · exact .inl same
    · rintro (same | ⟨member, -⟩)
      · exact .inr same
      · exact .inl member
  | some previous =>
    obtain ⟨member, named⟩ := (indexed.byName _ previous).mp found
    obtain ⟨before, after, split, replaced⟩ := replace_split indexed.nodup member id
    have apart : previous ∉ before ++ after := by
      have nodup := indexed.nodup
      rw [split, List.nodup_middle] at nodup
      exact (List.nodup_cons.mp nodup).1
    have others : x ∈ before ++ after ↔
        x ∈ n.children ∧ (g.node x).name ≠ (g.node id).name := by
      constructor
      · intro inside
        have child : x ∈ n.children := by
          rw [split]
          simp only [List.mem_append, List.mem_cons] at inside ⊢
          tauto
        refine ⟨child, fun same => ?_⟩
        rw [indexed.eq_of_name child member (same.trans named.symm)] at inside
        exact apart inside
      · rintro ⟨child, other⟩
        rw [split, List.mem_append, List.mem_cons] at child
        rcases child with early | rfl | late
        · exact List.mem_append_left _ early
        · exact absurd named other
        · exact List.mem_append_right _ late
    simp only [adopt, found, replaced, List.mem_append, List.mem_cons]
    rw [← others, List.mem_append]
    tauto

theorem nodup_adopt (indexed : n.Indexed g) (fresh : id ∉ n.children) :
    (n.adopt (g.node id) id).children.Nodup := by
  cases found : n.byName.find? (g.node id).name with
  | none =>
    simp only [adopt, found]
    exact indexed.nodup.append (List.nodup_singleton id) (by simpa using fresh)
  | some previous =>
    obtain ⟨member, named⟩ := (indexed.byName _ previous).mp found
    obtain ⟨before, after, split, replaced⟩ := replace_split indexed.nodup member id
    have nodup := indexed.nodup
    rw [split, List.nodup_middle, List.nodup_cons] at nodup
    simp only [adopt, found, replaced]
    rw [List.nodup_middle, List.nodup_cons]
    refine ⟨fun inside => fresh ?_, nodup.2⟩
    rw [split]
    simp only [List.mem_append, List.mem_cons] at inside ⊢
    tauto

theorem find?_byName_adopt (n child : Node S A) (id : NodeId) (name : String) :
    (n.adopt child id).byName.find? name =
      if name = child.name then some id else n.byName.find? name := by
  unfold adopt
  cases n.byName.find? child.name <;> rfl

theorem find?_literals_remaining (indexed : n.Indexed g) (name taken : String) :
    (match n.byName.find? taken with
      | some previous => n.literals.dropNode previous
      | none => n.literals).find? name =
        if name = taken then none else n.literals.find? name := by
  cases literal : n.literals.find? name with
  | none => cases n.byName.find? taken <;> simp [literal]
  | some x =>
    obtain ⟨child, role⟩ := (indexed.literals _ x).mp literal
    have named := (((g.node x).literal_iff _).mp role).2
    have entry := (indexed.byName _ x).mpr ⟨child, named⟩
    by_cases same : name = taken
    · rw [if_pos same, ← same, entry]
      simp [literal]
    · rw [if_neg same]
      cases found : n.byName.find? taken with
      | none => exact literal
      | some previous =>
        have other : x ≠ previous := by
          rintro rfl
          exact same (named.symm.trans ((indexed.byName _ x).mp found).2)
        simp [literal, other]

theorem find?_literals_adopt (indexed : n.Indexed g) (child : Node S A) (name : String) :
    (n.adopt child id).literals.find? name =
      if name = child.name then if child.isLiteral then some id else none
      else n.literals.find? name := by
  have remaining := indexed.find?_literals_remaining name child.name
  unfold adopt
  cases child.isLiteral with
  | false =>
    cases found : n.byName.find? child.name <;> simpa [found] using remaining
  | true =>
    by_cases same : name = child.name
    · cases n.byName.find? child.name <;> simp [same]
    · cases found : n.byName.find? child.name with
      | none => simp [same]
      | some previous => simpa [found, same] using remaining

theorem adopt (indexed : n.Indexed g) (command : g.HasCommand id) (fresh : id ∉ n.children) :
    (n.adopt (g.node id) id).Indexed g := by
  refine ⟨indexed.nodup_adopt fresh, ?_, ?_, ?_⟩
  · intro child member
    rcases (indexed.mem_children_adopt child).mp member with rfl | ⟨member, -⟩
    · exact command
    · exact indexed.commands child member
  · intro name child
    rw [find?_byName_adopt, indexed.mem_children_adopt]
    by_cases same : name = (g.node id).name
    · subst same
      simp only [if_true, Option.some.injEq]
      constructor
      · rintro rfl
        exact ⟨.inl rfl, rfl⟩
      · rintro ⟨rfl | ⟨-, other⟩, named⟩
        · rfl
        · exact absurd named other
    · rw [if_neg same, indexed.byName]
      constructor
      · rintro ⟨member, rfl⟩
        exact ⟨.inr ⟨member, same⟩, rfl⟩
      · rintro ⟨rfl | ⟨member, -⟩, named⟩
        · exact absurd named.symm same
        · exact ⟨member, named⟩
  · intro name child
    rw [indexed.find?_literals_adopt, indexed.mem_children_adopt]
    by_cases same : name = (g.node id).name
    · subst same
      simp only [if_true, literal_iff]
      constructor
      · intro found
        split at found
        · rename_i literal
          obtain rfl := Option.some.inj found
          exact ⟨.inl rfl, literal, rfl⟩
        · simp at found
      · rintro ⟨rfl | ⟨-, other⟩, literal, named⟩
        · simp [literal]
        · exact absurd named other
    · rw [if_neg same, indexed.literals]
      constructor
      · rintro ⟨member, role⟩
        refine ⟨.inr ⟨member, fun named => ?_⟩, role⟩
        exact same ((((g.node child).literal_iff name).mp role).2.symm.trans named)
      · rintro ⟨rfl | ⟨member, -⟩, role⟩
        · exact absurd (((g.node child).literal_iff name).mp role).2.symm same
        · exact ⟨member, role⟩

end Indexed

end Node

namespace Composed

theorem Declared.extend {g h : Grammar S A} {members : Composed} (declared : members.Declared g)
    (extends_ : g.Extends h) : members.Declared h := by
  obtain ⟨entries, rfl, nodup, arguments⟩ := declared
  refine ⟨entries, rfl, nodup, fun e member => ?_⟩
  obtain ⟨type, n, found, role⟩ := arguments e member
  obtain ⟨m, found, role'⟩ := extends_ _ n found
  exact ⟨type, m, found, role'.trans role⟩

end Composed

namespace Grammar

variable {g : Grammar S A} {n : Node S A} {id parent : NodeId}

theorem node?_lt (found : g.node? id = some n) : id < g.nodeCount :=
  (List.getElem?_eq_some_iff.mp found).1

theorem node?_push_of_lt (m : Node S A) (h : id < g.nodeCount) : (g.push m).1.node? id = g.node? id :=
  List.getElem?_append_left h

@[simp] theorem node?_push_self (g : Grammar S A) (m : Node S A) :
    (g.push m).1.node? g.nodeCount = some m :=
  List.getElem?_concat_length

theorem extends_push (g : Grammar S A) (m : Node S A) : g.Extends (g.push m).1 :=
  fun _ n found => ⟨n, (node?_push_of_lt m (node?_lt found)).trans found, rfl⟩

theorem node?_push {m : Node S A} (found : (g.push m).1.node? id = some n) :
    g.node? id = some n ∨ id = g.nodeCount ∧ n = m := by
  have bound := node?_lt found
  rw [nodeCount_push] at bound
  rcases Nat.lt_or_eq_of_le (Nat.le_of_lt_succ bound) with lt | rfl
  · exact .inl ((node?_push_of_lt m lt).symm.trans found)
  · exact .inr ⟨rfl, Option.some.inj (found.symm.trans (node?_push_self g m))⟩

theorem node?_attach (g : Grammar S A) (parent child id : NodeId) :
    (g.attach parent child).node? id =
      (g.node? id).map fun n => if parent = id then n.adopt (g.node child) child else n :=
  List.getElem?_modify _ _ _ _

theorem extends_attach (g : Grammar S A) (parent child : NodeId) :
    g.Extends (g.attach parent child) := by
  intro id n found
  refine ⟨_, by rw [node?_attach, found]; rfl, ?_⟩
  split
  · exact n.role_adopt _ _
  · rfl

theorem Sound.indexed_node (sound : g.Sound) (id : NodeId) : (g.node id).Indexed g := by
  cases found : g.node? id with
  | some n => exact node_of_node? found ▸ sound.indexed id n found
  | none =>
    rw [node, found]
    exact Node.indexed_ofRole _ _ _

theorem Sound.isRoot_of_mem_children (sound : g.Sound) {child : NodeId}
    (member : child ∈ (g.node id).children) : (g.node child).isRoot = false := by
  obtain ⟨n, found, proper⟩ := (sound.indexed_node id).commands child member
  rwa [node_of_node? found]

theorem Sound.mem_children_of_mem_relevant (sound : g.Sound) {i : Input} {child : NodeId}
    (member : child ∈ g.relevant id i) : child ∈ (g.node id).children := by
  unfold relevant at member
  split at member
  · rename_i literal found
    obtain ⟨word, -, known⟩ := Option.bind_eq_some_iff.mp found
    rw [List.mem_singleton.mp member]
    exact (((sound.indexed_node id).literals _ literal).mp known).1
  · split at member
    · exact member
    · exact (List.mem_filter.mp member).1

theorem Sound.declared_node (sound : g.Sound) {members : Composed}
    (composed : (g.node id).role = .composed members) : members.Declared g := by
  cases found : g.node? id with
  | some n => exact sound.declared id n members found (node_of_node? found ▸ composed)
  | none => simp [node, found, Node.blankRoot, Node.ofRole] at composed

theorem Sound.empty : (Grammar.empty : Grammar S A).Sound := by
  have only {id : NodeId} {n : Node S A} (found : (Grammar.empty : Grammar S A).node? id = some n) :
      n = .blankRoot := by
    cases id with
    | zero => exact (Option.some.inj found).symm
    | succ id => simp [Grammar.empty, node?] at found
  refine ⟨⟨.blankRoot, rfl, rfl⟩, ?_, ?_⟩
  · intro id n found
    rw [only found]
    exact Node.indexed_ofRole _ _ _
  · intro id n members found role
    rw [only found] at role
    simp [Node.blankRoot, Node.ofRole] at role

theorem Sound.push (sound : g.Sound) {role : Role S A}
    (declared : ∀ members, role = .composed members → members.Declared g)
    (attributes : Attributes S A) : (g.push (.ofRole role attributes)).1.Sound := by
  have extended := g.extends_push (.ofRole role attributes)
  refine ⟨?_, ?_, ?_⟩
  · obtain ⟨n, found, root⟩ := sound.root
    exact ⟨n, (node?_push_of_lt _ (node?_lt found)).trans found, root⟩
  · intro id n found
    rcases node?_push found with old | ⟨-, rfl⟩
    · exact (sound.indexed id n old).extend extended
    · exact Node.indexed_ofRole _ _ _
  · intro id n members found composed
    rcases node?_push found with old | ⟨-, rfl⟩
    · exact (sound.declared id n members old composed).extend extended
    · exact (declared members composed).extend extended

theorem Sound.attach (sound : g.Sound) {child : NodeId} (command : g.HasCommand child)
    (fresh : ∀ n, g.node? parent = some n → child ∉ n.children) : (g.attach parent child).Sound := by
  have extended := g.extends_attach parent child
  refine ⟨?_, ?_, ?_⟩
  · obtain ⟨n, found, root⟩ := sound.root
    obtain ⟨m, found, role⟩ := extended _ n found
    exact ⟨m, found, (isRoot_congr role).trans root⟩
  · intro id m found
    rw [node?_attach, Option.map_eq_some_iff] at found
    obtain ⟨n, found, rfl⟩ := found
    have indexed := sound.indexed id n found
    split
    · rename_i here
      exact (indexed.adopt command (fresh n (here ▸ found))).extend extended
    · exact indexed.extend extended
  · intro id m members found composed
    rw [node?_attach, Option.map_eq_some_iff] at found
    obtain ⟨n, found, rfl⟩ := found
    have role : n.role = .composed members := by
      split at composed
      · rwa [Node.role_adopt] at composed
      · exact composed
    exact (sound.declared id n members found role).extend extended

end Grammar

end CommandGrammar
