import Mathlib.Logic.Relation
import CommandGrammar.Proofs.Grammar.Reachable

set_option autoImplicit false

namespace CommandGrammar

variable {S A : Type}

theorem NameIndex.mem_of_find?_foldl {entries : List (String × NodeId)} {start : NameIndex}
    {name : String} {m : NodeId}
    (found : (entries.foldl (fun index e => index.insert e.1 e.2) start).find? name = some m) :
    m ∈ entries.map Prod.snd ∨ start.find? name = some m := by
  induction entries generalizing start with
  | nil => exact .inr found
  | cons e rest ih =>
    rcases ih found with later | first
    · exact .inl (List.mem_cons_of_mem _ later)
    · rw [find?_insert] at first
      split at first
      · exact .inl (List.mem_cons.mpr (.inl (Option.some.inj first).symm))
      · exact .inr first

theorem NameIndex.mem_of_find?_ofList {entries : List (String × NodeId)} {name : String} {m : NodeId}
    (found : (NameIndex.ofList entries).find? name = some m) : m ∈ entries.map Prod.snd :=
  (mem_of_find?_foldl found).resolve_right (by simp)

namespace Grammar

structure Forest (g : Grammar S A) : Prop where
  later : ∀ parent, ∀ child ∈ (g.node parent).children, parent < child
  single : ∀ parent other child, child ∈ (g.node parent).children →
    child ∈ (g.node other).children → parent = other
  barren : ∀ id members, (g.node id).role = .composed members → (g.node id).children = []
  apart : ∀ id members, (g.node id).role = .composed members →
    ∀ m ∈ members.sequence, ∀ parent, m ∉ (g.node parent).children
  redirect : ∀ id target, (g.node id).redirect = some target → target < g.nodeCount

def IsMember (g : Grammar S A) (m : NodeId) : Prop :=
  ∃ owner members, (g.node owner).role = .composed members ∧ m ∈ members.sequence

variable {g h : Grammar S A} {id parent child : NodeId} {members : Composed}

theorem Forest.not_isMember (forest : g.Forest) (member : child ∈ (g.node id).children) :
    ¬ g.IsMember child := by
  rintro ⟨owner, members, composed, inside⟩
  exact forest.apart owner members composed child inside id member

theorem Forest.empty : (Grammar.empty : Grammar S A).Forest := by
  have blank (id : NodeId) : (Grammar.empty : Grammar S A).node id = .blankRoot := by
    cases id with
    | zero => rfl
    | succ id => rfl
  refine ⟨?_, ?_, ?_, ?_, ?_⟩ <;> intros <;> simp_all [Node.blankRoot, Node.ofRole]

structure Unheld (g : Grammar S A) (id : NodeId) : Prop where
  child : ∀ parent, id ∉ (g.node parent).children
  member : ∀ other members, (g.node other).role = .composed members → id ∉ members.sequence

section Registration

theorem node_push (g : Grammar S A) (m : Node S A) (id : NodeId) :
    (g.push m).1.node id = if id = g.nodeCount then m else g.node id := by
  by_cases known : id < g.nodeCount
  · rw [if_neg (Nat.ne_of_lt known), node, node?_push_of_lt m known, node]
  · by_cases new : id = g.nodeCount
    · rw [if_pos new, new, node_of_node? (node?_push_self g m)]
    · have beyond : g.nodeCount + 1 ≤ id := Nat.lt_of_le_of_ne (Nat.le_of_not_lt known) (Ne.symm new)
      have none' : (g.push m).1.node? id = none :=
        List.getElem?_eq_none (by simpa [push, nodeCount] using beyond)
      have none : g.node? id = none := List.getElem?_eq_none (Nat.le_of_not_lt known)
      rw [if_neg new, node, node, none', none]

theorem children_push (g : Grammar S A) (role : Role S A) (attributes : Attributes S A) (id : NodeId) :
    ((g.push (.ofRole role attributes)).1.node id).children = (g.node id).children := by
  rw [node_push]
  split
  · rename_i new
    have none : g.node? id = none := List.getElem?_eq_none (Nat.le_of_eq new.symm)
    simp [node, none, Node.ofRole, Node.blankRoot]
  · rfl

theorem node_attach (g : Grammar S A) (parent child id : NodeId) :
    (g.attach parent child).node id = g.node id ∨
      id = parent ∧ (g.attach parent child).node id = (g.node id).adopt (g.node child) child := by
  rw [node, node?_attach]
  cases found : g.node? id with
  | none => exact .inl (by rw [Option.map_none, node, found])
  | some n =>
    rw [Option.map_some, Option.getD_some, node_of_node? found]
    split
    · rename_i here
      exact .inr ⟨here.symm, rfl⟩
    · exact .inl rfl

theorem role_attach (g : Grammar S A) (parent child id : NodeId) :
    ((g.attach parent child).node id).role = (g.node id).role := by
  rcases g.node_attach parent child id with same | ⟨-, adopted⟩
  · rw [same]
  · rw [adopted, Node.role_adopt]

theorem toAttributes_attach (g : Grammar S A) (parent child id : NodeId) :
    ((g.attach parent child).node id).toAttributes = (g.node id).toAttributes := by
  rcases g.node_attach parent child id with same | ⟨-, adopted⟩
  · rw [same]
  · rw [adopted, Node.toAttributes_adopt]

theorem redirect_attach (g : Grammar S A) (parent child id : NodeId) :
    ((g.attach parent child).node id).redirect = (g.node id).redirect :=
  congrArg Attributes.redirect (g.toAttributes_attach parent child id)

theorem Sound.mem_children_attach (sound : g.Sound) {other : NodeId}
    (member : other ∈ ((g.attach parent child).node id).children) :
    other ∈ (g.node id).children ∨ id = parent ∧ other = child := by
  rcases g.node_attach parent child id with same | ⟨here, adopted⟩
  · exact .inl (same ▸ member)
  · rw [adopted, (sound.indexed_node id).mem_children_adopt] at member
    rcases member with new | ⟨old, -⟩
    · exact .inr ⟨here, new⟩
    · exact .inl old

theorem Forest.push (forest : g.Forest) {role : Role S A} {attributes : Attributes S A}
    (redirect : ∀ target, attributes.redirect = some target → target < g.nodeCount)
    (apart : ∀ members, role = .composed members →
      ∀ m ∈ members.sequence, ∀ parent, m ∉ (g.node parent).children) :
    (g.push (.ofRole role attributes)).1.Forest := by
  refine ⟨?_, ?_, ?_, ?_, ?_⟩
  · intro parent child member
    rw [children_push] at member
    exact forest.later parent child member
  · intro parent other child member member'
    rw [children_push] at member member'
    exact forest.single parent other child member member'
  · intro id members composed
    rw [node_push] at composed ⊢
    split
    · rfl
    · rename_i old
      rw [if_neg old] at composed
      exact forest.barren id members composed
  · intro id members composed m member parent
    rw [children_push]
    rw [node_push] at composed
    split at composed
    · exact apart members composed m member parent
    · exact forest.apart id members composed m member parent
  · intro id target redirects
    rw [node_push] at redirects
    rw [nodeCount_push]
    split at redirects
    · exact Nat.lt_succ_of_lt (redirect target redirects)
    · exact Nat.lt_succ_of_lt (forest.redirect id target redirects)

theorem Forest.attach (forest : g.Forest) (sound : g.Sound) (later : parent < child)
    (plain : ∀ members, (g.node parent).role ≠ .composed members) (unheld : g.Unheld child) :
    (g.attach parent child).Forest := by
  refine ⟨?_, ?_, ?_, ?_, ?_⟩
  · intro id other member
    rcases sound.mem_children_attach member with old | ⟨rfl, rfl⟩
    · exact forest.later id other old
    · exact later
  · intro id id' other member member'
    rcases sound.mem_children_attach member with old | ⟨here, new⟩ <;>
      rcases sound.mem_children_attach member' with old' | ⟨here', new'⟩
    · exact forest.single id id' other old old'
    · exact absurd (new' ▸ old) (unheld.child id)
    · exact absurd (new ▸ old') (unheld.child id')
    · exact here.trans here'.symm
  · intro id members composed
    rw [role_attach] at composed
    rcases g.node_attach parent child id with same | ⟨here, -⟩
    · rw [same]
      exact forest.barren id members composed
    · exact absurd (here ▸ composed) (plain members)
  · intro id members composed m member other inside
    rw [role_attach] at composed
    rcases sound.mem_children_attach inside with old | ⟨-, new⟩
    · exact forest.apart id members composed m member other old
    · exact unheld.member id members composed (new ▸ member)
  · intro id target redirects
    rw [redirect_attach] at redirects
    rw [nodeCount_attach]
    exact forest.redirect id target redirects

theorem children_addMembers (g : Grammar S A) (bs : List (Blueprint S A)) (id : NodeId) :
    ((g.addMembers bs).1.node id).children = (g.node id).children := by
  induction bs generalizing g with
  | nil => rfl
  | cons b rest ih =>
    rcases addMember_cases g b with ⟨error, refused⟩ | ⟨name, type, attributes, -, -, added⟩
    · rw [addMembers, refused]
      rfl
    · rw [addMembers, added]
      have below := ih (g.push (.ofRole (.argument name type) attributes)).1
      rw [children_push] at below
      exact Registered.fst_andThen (P := fun h => (h.node id).children = (g.node id).children)
        (g.children_push _ _ id) fun entry _ =>
          Registered.fst_andThen (P := fun h => (h.node id).children = (g.node id).children) below
            fun _ _ => below

theorem Forest.addMembers (forest : g.Forest) (bs : List (Blueprint S A)) :
    (g.addMembers bs).1.Forest := by
  induction bs generalizing g with
  | nil => exact forest
  | cons b rest ih =>
    rcases addMember_cases g b with ⟨error, refused⟩ | ⟨name, type, attributes, -, redirect, added⟩
    · rw [Grammar.addMembers, refused]
      exact forest
    · rw [Grammar.addMembers, added]
      have pushed : (g.push (.ofRole (.argument name type) attributes)).1.Forest :=
        forest.push redirect (by simp)
      exact Registered.fst_andThen (P := Forest) pushed fun entry _ =>
        Registered.fst_andThen (P := Forest) (ih pushed) fun _ _ => ih pushed

theorem fst_addComposed (g : Grammar S A) (bs : List (Blueprint S A)) :
    (g.addComposed bs).1 = (g.addMembers bs).1 :=
  Registered.fst_andThen (P := fun h => h = (g.addMembers bs).1) rfl fun _ _ => rfl

theorem node?_of_prefix_nodes (first : g.nodes <+: h.nodes) (known : id < g.nodeCount) :
    h.node? id = g.node? id := by
  obtain ⟨more, nodes⟩ := first
  rw [node?, ← nodes, List.getElem?_append_left known, node?]

theorem node_of_prefix_nodes (first : g.nodes <+: h.nodes) (known : id < g.nodeCount) :
    h.node id = g.node id :=
  congrArg (·.getD .blankRoot) (node?_of_prefix_nodes first known)

theorem prefix_push (g : Grammar S A) (n : Node S A) : g.nodes <+: (g.push n).1.nodes :=
  List.prefix_append ..

theorem prefix_addMembers (g : Grammar S A) (bs : List (Blueprint S A)) :
    g.nodes <+: (g.addMembers bs).1.nodes := by
  induction bs generalizing g with
  | nil => exact List.prefix_rfl
  | cons b rest ih =>
    rcases addMember_cases g b with ⟨error, refused⟩ | ⟨name, type, attributes, -, -, added⟩
    · rw [Grammar.addMembers, refused]
      exact List.prefix_rfl
    · rw [Grammar.addMembers, added]
      have pushed := g.prefix_push (.ofRole (.argument name type) attributes)
      exact Registered.fst_andThen (P := fun h => g.nodes <+: h.nodes) pushed fun entry _ =>
        Registered.fst_andThen (P := fun h => g.nodes <+: h.nodes) (pushed.trans (ih _))
          fun _ _ => pushed.trans (ih _)

theorem prefix_settle (g : Grammar S A) (b : Blueprint S A) : g.nodes <+: (g.settle b).1.nodes := by
  cases b with
  | literal name attributes children => exact List.prefix_rfl
  | argument name type attributes children => exact List.prefix_rfl
  | composed members attributes children =>
    rw [settle, fst_addComposed]
    exact g.prefix_addMembers members

theorem Forest.settle (forest : g.Forest) (b : Blueprint S A) : (g.settle b).1.Forest := by
  cases b with
  | literal name attributes children => exact forest
  | argument name type attributes children => exact forest
  | composed members attributes children =>
    rw [Grammar.settle, fst_addComposed]
    exact forest.addMembers members

theorem Sound.child_lt (sound : g.Sound) (member : child ∈ (g.node id).children) :
    child < g.nodeCount := by
  obtain ⟨n, found, -⟩ := (sound.indexed_node id).commands child member
  exact node?_lt found

theorem Sound.member_lt (sound : g.Sound) (composed : (g.node id).role = .composed members) {m : NodeId}
    (member : m ∈ members.sequence) : m < g.nodeCount := by
  obtain ⟨entries, rfl, -, arguments⟩ := sound.declared_node composed
  obtain ⟨e, inside, rfl⟩ := List.mem_map.mp member
  obtain ⟨-, n, found, -⟩ := arguments e inside
  exact node?_lt found

theorem Sound.apart_addComposed (sound : g.Sound) {bs : List (Blueprint S A)}
    (composed : (g.addComposed bs).2 = .ok (.composed members)) :
    ∀ m ∈ members.sequence, ∀ parent, m ∉ ((g.addComposed bs).1.node parent).children := by
  obtain ⟨-, -, entries⟩ := addMembers_entries sound bs
  intro m member parent inside
  rw [fst_addComposed, children_addMembers] at inside
  have known := sound.child_lt inside
  cases answer : (g.addMembers bs).2 with
  | error e =>
    rw [addComposed, Registered.andThen_of_error answer] at composed
    exact absurd composed (by simp)
  | ok found =>
    rw [addComposed, Registered.andThen_of_ok answer] at composed
    obtain rfl : Composed.ofMembers found = members := Role.composed.inj (Except.ok.inj composed)
    obtain ⟨e, entry, rfl⟩ := List.mem_map.mp member
    exact absurd ((entries found answer).fresh e entry) (Nat.not_le_of_lt known)

theorem Extends.lt (extended : g.Extends h) (known : id < g.nodeCount) : id < h.nodeCount := by
  obtain ⟨m, found, -⟩ := extended id _ (List.getElem?_eq_getElem known)
  exact node?_lt found

theorem Extends.role_eq (extended : g.Extends h) (known : id < g.nodeCount) :
    (h.node id).role = (g.node id).role := by
  have found : g.node? id = some g.nodes[id] := List.getElem?_eq_getElem known
  obtain ⟨m, found', role⟩ := extended id _ found
  rw [node_of_node? found, node_of_node? found', role]

theorem Sound.unheld_push (sound : g.Sound) {role : Role S A} (attributes : Attributes S A)
    (declared : ∀ members, role = .composed members → members.Declared g) :
    (g.push (.ofRole role attributes)).1.Unheld g.nodeCount := by
  refine ⟨fun parent inside => ?_, fun other members composed inside => ?_⟩
  · rw [children_push] at inside
    exact Nat.lt_irrefl _ (sound.child_lt inside)
  · rw [node_push] at composed
    split at composed
    · obtain ⟨entries, rfl, -, arguments⟩ := declared members composed
      obtain ⟨e, member, same⟩ := List.mem_map.mp inside
      obtain ⟨-, n, found, -⟩ := arguments e member
      exact Nat.lt_irrefl _ (same ▸ node?_lt found)
    · exact Nat.lt_irrefl _ (sound.member_lt composed inside)

theorem Forest.place (forest : g.Forest) {attributes : Attributes S A}
    {role : Grammar S A → Registered S A (Role S A)} (settles : Settles g (role g))
    (grown : (role g).1.Forest)
    (apart : ∀ members, (role g).2 = .ok (.composed members) →
      ∀ m ∈ members.sequence, ∀ parent, m ∉ ((role g).1.node parent).children) :
    (g.place parent attributes role).1.Forest := by
  rcases place_cases g parent attributes role with
    ⟨error, refused⟩ | ⟨error, -, refused⟩ | ⟨r, answer, known, plain, redirect, -, placed⟩
  · rw [refused]
    exact forest
  · rw [refused]
    exact grown
  · rw [placed]
    have declared (members : Composed) (composed : r = .composed members) :
        members.Declared (role g).1 := settles.declared members (composed ▸ answer)
    have pushed : ((role g).1.push (.ofRole r attributes)).1.Forest :=
      grown.push (fun target redirects => settles.extended.lt (redirect target redirects))
        fun members composed => apart members (composed ▸ answer)
    refine pushed.attach (settles.sound.push declared attributes) (settles.extended.lt known) ?_
      (settles.sound.unheld_push attributes declared)
    intro members composed
    rw [node_push, if_neg (Nat.ne_of_lt (settles.extended.lt known)), settles.extended.role_eq known]
      at composed
    simp [Node.isComposed, Node.composed?, composed] at plain

theorem Sound.apart_settle (sound : g.Sound) {b : Blueprint S A}
    (composed : (g.settle b).2 = .ok (.composed members)) :
    ∀ m ∈ members.sequence, ∀ parent, m ∉ ((g.settle b).1.node parent).children := by
  cases b with
  | literal name attributes children => simp [settle] at composed
  | argument name type attributes children => simp [settle] at composed
  | composed bs attributes children => exact sound.apart_addComposed composed

theorem Forest.place_settle (forest : g.Forest) (sound : g.Sound) (parent : NodeId)
    (b : Blueprint S A) : (g.place parent b.attributes (·.settle b)).1.Forest :=
  forest.place (.settle sound b) (forest.settle b) fun _ => sound.apart_settle

theorem Forest.register (forest : g.Forest) (sound : g.Sound) (parent : NodeId) (b : Blueprint S A) :
    (g.register parent b).1.Forest := by
  refine (register_keeps (P := fun g => g.Sound ∧ g.Forest) ?_ ⟨sound, forest⟩ parent b).2
  rintro g parent b ⟨sound, forest⟩
  exact ⟨sound.place_settle parent b, forest.place_settle sound parent b⟩

end Registration

section Merging

variable {first second : Grammar S A}

theorem moved_lt_moved {offset : Nat} {a b : NodeId} (proper : a ≠ .root) (lt : a < b) :
    moved offset a < moved offset b := by
  have proper' : b ≠ .root := Nat.ne_of_gt (Nat.lt_of_le_of_lt (Nat.zero_le a) lt)
  rw [moved_of_ne proper, moved_of_ne proper']
  exact Nat.add_lt_add_right lt offset

theorem nodeCount_union (first second : Grammar S A) :
    (first.union second).nodeCount = first.nodeCount + (second.nodeCount - 1) := by
  simp [union, nodeCount]

theorem Sound.node_union (hf : first.Sound) (id : NodeId) :
    (first.union second).node id = first.node id ∨
      ∃ id', id' ≠ .root ∧ moved (first.nodeCount - 1) id' = id ∧
        (first.union second).node id = (second.node id').renumber (moved (first.nodeCount - 1)) := by
  cases found : (first.union second).node? id with
  | some n =>
    rcases node?_union hf.nodeCount_pos found with old | ⟨id', m, proper, back, there, rfl⟩
    · exact .inl (by rw [node_of_node? found, node_of_node? old])
    · exact .inr ⟨id', proper, back, by rw [node_of_node? found, node_of_node? there]⟩
  | none =>
    have beyond := List.getElem?_eq_none_iff.mp found
    have none : first.node? id = none := by
      refine List.getElem?_eq_none (Nat.le_trans ?_ beyond)
      rw [Grammar.union, List.length_append]
      exact Nat.le_add_right _ _
    exact .inl (by rw [node, node, found, none])

theorem Sound.mem_children_union (hf : first.Sound)
    (member : child ∈ ((first.union second).node id).children) :
    child ∈ (first.node id).children ∨ ∃ id' child', child' ∈ (second.node id').children ∧
      id' ≠ .root ∧ moved (first.nodeCount - 1) id' = id ∧
      moved (first.nodeCount - 1) child' = child := by
  rcases hf.node_union id with same | ⟨id', proper, back, same⟩
  · exact .inl (same ▸ member)
  · rw [same] at member
    obtain ⟨child', inside, rfl⟩ := List.mem_map.mp member
    exact .inr ⟨id', child', inside, proper, back, rfl⟩

theorem composed_renumber {n : Node S A} {f : NodeId → NodeId}
    (composed : (n.renumber f).role = .composed members) :
    ∃ members', n.role = .composed members' ∧ members = members'.map f := by
  cases role : n.role with
  | composed members' => exact ⟨members', rfl, by simpa [Node.renumber, role, eq_comm] using composed⟩
  | root => simp [Node.renumber, role] at composed
  | literal name => simp [Node.renumber, role] at composed
  | argument name type => simp [Node.renumber, role] at composed

theorem Sound.child_ne_root (sound : g.Sound) (member : child ∈ (g.node id).children) :
    child ≠ .root :=
  sound.ne_root ((sound.indexed_node id).commands child member)

theorem Sound.member_ne_root (sound : g.Sound) (composed : (g.node id).role = .composed members)
    {m : NodeId} (member : m ∈ members.sequence) : m ≠ .root := by
  obtain ⟨entries, rfl, -, arguments⟩ := sound.declared_node composed
  obtain ⟨e, inside, rfl⟩ := List.mem_map.mp member
  obtain ⟨type, n, found, role⟩ := arguments e inside
  exact sound.ne_root ⟨n, found, by simp [Node.isRoot, role]⟩

theorem Forest.union (ff : first.Forest) (hf : first.Sound) (fs : second.Forest) (hs : second.Sound) :
    (first.union second).Forest := by
  -- Moved numbers begin behind the first grammar, so no child has a parent on each side.
  have apart {a b : NodeId} (known : a < first.nodeCount) (proper : b ≠ .root)
      (same : moved (first.nodeCount - 1) b = a) : False :=
    absurd (hf.le_moved proper) (Nat.not_le_of_lt (same ▸ known))
  refine ⟨?_, ?_, ?_, ?_, ?_⟩
  · intro parent child member
    rcases hf.mem_children_union member with old | ⟨parent', child', inside, proper, rfl, rfl⟩
    · exact ff.later parent child old
    · exact moved_lt_moved proper (fs.later parent' child' inside)
  · intro parent other child member member'
    rcases hf.mem_children_union member with old | ⟨parent', child', inside, -, rfl, rfl⟩ <;>
      rcases hf.mem_children_union member' with old' | ⟨other', child'', inside', -, rfl, same⟩
    · exact ff.single parent other child old old'
    · exact (apart (hf.child_lt old) (hs.child_ne_root inside') same).elim
    · exact (apart (hf.child_lt old') (hs.child_ne_root inside) rfl).elim
    · obtain rfl := moved_injective _ same
      rw [fs.single parent' other' child'' inside inside']
  · intro id members composed
    rcases hf.node_union id with same | ⟨id', -, -, same⟩
    · rw [same] at composed ⊢
      exact ff.barren id members composed
    · rw [same] at composed ⊢
      obtain ⟨members', composed, -⟩ := composed_renumber composed
      simp [Node.renumber, fs.barren id' members' composed]
  · intro id members composed m member parent inside
    rcases hf.node_union id with same | ⟨id', -, -, same⟩ <;> rw [same] at composed
    · rcases hf.mem_children_union inside with old | ⟨parent', child', inside, -, -, back⟩
      · exact ff.apart id members composed m member parent old
      · exact apart (hf.member_lt composed member) (hs.child_ne_root inside) back
    · obtain ⟨members', composed', rfl⟩ := composed_renumber composed
      obtain ⟨m', member', rfl⟩ := List.mem_map.mp member
      rcases hf.mem_children_union inside with old | ⟨parent', child', inside', -, -, back⟩
      · exact apart (hf.child_lt old) (hs.member_ne_root composed' member') rfl
      · obtain rfl := moved_injective _ back
        exact fs.apart id' members' composed' child' member' parent' inside'
  · intro id target redirects
    rw [nodeCount_union]
    rcases hf.node_union id with same | ⟨id', -, -, same⟩ <;> rw [same] at redirects
    · exact Nat.lt_of_lt_of_le (ff.redirect id target redirects) (Nat.le_add_right _ _)
    · obtain ⟨target', there, rfl⟩ := Option.map_eq_some_iff.mp redirects
      have known := fs.redirect id' target' there
      have present := hf.nodeCount_pos
      unfold moved
      split
      · exact Nat.lt_of_lt_of_le present (Nat.le_add_right _ _)
      · rw [Nat.add_comm first.nodeCount]
        exact Nat.add_lt_add_of_le_of_lt (Nat.le_sub_one_of_lt known) (Nat.sub_lt present Nat.one_pos)

theorem Forest.foldl_attach (forest : g.Forest) (sound : g.Sound) (children : List NodeId)
    (nodup : children.Nodup) (commands : ∀ child ∈ children, g.HasCommand child)
    (unheld : ∀ child ∈ children, g.Unheld child) :
    (children.foldl (fun g child => g.attach .root child) g).Forest := by
  induction children generalizing g with
  | nil => exact forest
  | cons child rest ih =>
    obtain ⟨absent, nodup⟩ := List.nodup_cons.mp nodup
    have command := commands child (by simp)
    have free := unheld child (by simp)
    have fresh (n : Node S A) (found : g.node? .root = some n) : child ∉ n.children :=
      node_of_node? found ▸ free.child .root
    have plain (members : Composed) : (g.node .root).role ≠ .composed members := by
      obtain ⟨n, found, root⟩ := sound.root
      intro composed
      rw [node_of_node? found] at composed
      simp [Node.isRoot, composed] at root
    have attached := sound.attach command fresh
    refine ih (forest.attach sound (Nat.pos_of_ne_zero (sound.ne_root command)) plain free) attached
      nodup ?_ ?_
    · intro other member
      exact (commands other (List.mem_cons_of_mem _ member)).extend (g.extends_attach _ _)
    · intro other member
      have free := unheld other (List.mem_cons_of_mem _ member)
      refine ⟨fun parent inside => ?_, fun id members composed => ?_⟩
      · rcases sound.mem_children_attach inside with old | ⟨-, rfl⟩
        · exact free.child parent old
        · exact absent member
      · rw [role_attach] at composed
        exact free.member id members composed

-- The commands of the second root are left without a parent, until the shared root takes them in.
theorem Forest.unheld_moved (hf : first.Sound) (fs : second.Forest) (hs : second.Sound)
    (member : child ∈ (second.node .root).children) :
    (first.union second).Unheld (moved (first.nodeCount - 1) child) := by
  have beyond := hf.le_moved (hs.child_ne_root member)
  refine ⟨fun parent inside => ?_, fun other members composed inside => ?_⟩
  · rcases hf.mem_children_union inside with old | ⟨parent', child', inside', proper, -, back⟩
    · exact absurd (hf.child_lt old) (Nat.not_lt_of_le beyond)
    · obtain rfl := moved_injective _ back
      exact proper (fs.single parent' .root child' inside' member)
  · rcases hf.node_union other with same | ⟨other', -, -, same⟩ <;> rw [same] at composed
    · exact absurd (hf.member_lt composed inside) (Nat.not_lt_of_le beyond)
    · obtain ⟨members', composed', rfl⟩ := composed_renumber composed
      obtain ⟨m, inside', back⟩ := List.mem_map.mp inside
      obtain rfl := moved_injective _ back
      exact fs.apart other' members' composed' m inside' .root member

theorem Forest.merge (ff : first.Forest) (hf : first.Sound) (fs : second.Forest) (hs : second.Sound) :
    (first.merge second).Forest := by
  have indexed := hs.indexed_node .root
  rw [merge_eq, ← List.foldl_map (f := moved (first.nodeCount - 1))]
  refine (ff.union hf fs hs).foldl_attach (hf.union hs) _ (indexed.nodup.map (moved_injective _)) ?_ ?_
  · intro child member
    obtain ⟨source, inside, rfl⟩ := List.mem_map.mp member
    exact (hf.hasCommand_moved hs (indexed.commands source inside)).1
  · intro child member
    obtain ⟨source, inside, rfl⟩ := List.mem_map.mp member
    exact fs.unheld_moved hf hs inside

end Merging

theorem Reachable.forest (h : g.Reachable) : g.Forest := by
  induction h with
  | empty => exact .empty
  | register parent b reachable ih => exact ih.register reachable.sound parent b
  | merge reachable reachable' first second =>
    exact first.merge reachable.sound second reachable'.sound

theorem Forest.lt_of_descends (forest : g.Forest)
    (below : Relation.TransGen (fun parent child => child ∈ (g.node parent).children) id child) :
    id < child := by
  induction below with
  | single member => exact forest.later _ _ member
  | tail _ member ih => exact Nat.lt_trans ih (forest.later _ _ member)

/-- All that the nodes of a grammar say of one another is true: the nodes they refer to are there, the
two indexes tell the children by their names, the children make a forest, and composed arguments keep
their members to themselves. -/
structure WellFormed (g : Grammar S A) : Prop where
  child_known : ∀ id, ∀ child ∈ (g.node id).children, child < g.nodeCount
  byName_known : ∀ id name child, (g.node id).byName.find? name = some child → child < g.nodeCount
  literals_known : ∀ id name child, (g.node id).literals.find? name = some child → child < g.nodeCount
  redirect_known : ∀ id target, (g.node id).redirect = some target → target < g.nodeCount
  member_known : ∀ id members, (g.node id).role = .composed members →
    (∀ m ∈ members.sequence, m < g.nodeCount) ∧
      ∀ name m, members.byName.find? name = some m → m < g.nodeCount
  nodup : ∀ id, (g.node id).children.Nodup
  byName : ∀ id name child, (g.node id).byName.find? name = some child ↔
    child ∈ (g.node id).children ∧ (g.node child).name = name
  literals : ∀ id name child, (g.node id).literals.find? name = some child ↔
    (g.node id).byName.find? name = some child ∧ (g.node child).isLiteral = true
  later : ∀ parent, ∀ child ∈ (g.node parent).children, parent < child
  single : ∀ parent other child, child ∈ (g.node parent).children →
    child ∈ (g.node other).children → parent = other
  acyclic : ∀ id, ¬ Relation.TransGen (fun parent child => child ∈ (g.node parent).children) id id
  barren : ∀ id members, (g.node id).role = .composed members → (g.node id).children = []
  members : ∀ id members, (g.node id).role = .composed members → ∀ m ∈ members.sequence,
    (g.node m).isArgument = true ∧ ∀ parent, m ∉ (g.node parent).children

theorem Reachable.wellFormed (h : g.Reachable) : g.WellFormed := by
  have sound := h.sound
  have forest := h.forest
  have byName (id : NodeId) := (sound.indexed_node id).byName
  have literals (id : NodeId) := (sound.indexed_node id).literals
  refine ⟨fun id child => sound.child_lt, ?_, ?_, forest.redirect, ?_,
    fun id => (sound.indexed_node id).nodup, byName, ?_, forest.later, forest.single,
    fun id cycle => Nat.lt_irrefl id (forest.lt_of_descends cycle), forest.barren, ?_⟩
  · intro id name child found
    exact sound.child_lt ((byName id name child).mp found).1
  · intro id name child found
    exact sound.child_lt ((literals id name child).mp found).1
  · intro id members composed
    refine ⟨fun m => sound.member_lt composed, fun name m found => ?_⟩
    obtain ⟨entries, rfl, -, -⟩ := sound.declared_node composed
    exact sound.member_lt composed (NameIndex.mem_of_find?_ofList found)
  · intro id name child
    rw [literals, byName, Node.literal_iff]
    tauto
  · intro id members composed m member
    refine ⟨?_, forest.apart id members composed m member⟩
    obtain ⟨entries, rfl, -, arguments⟩ := sound.declared_node composed
    obtain ⟨e, inside, rfl⟩ := List.mem_map.mp member
    obtain ⟨type, n, found, role⟩ := arguments e inside
    simp [node_of_node? found, Node.isArgument, role]

end Grammar

namespace Demo

def rebuilt : Grammar User Deed :=
  let replaced := (grammar.register .root (.argument "echo" .rest {} [])).1
  (replaced.register 9 (.literal "late" {} [])).1.merge grammar

theorem rebuilt_wellFormed : rebuilt.Reachable ∧ rebuilt.WellFormed ∧ rebuilt.nodeCount = 32 := by
  have reachable : rebuilt.Reachable :=
    .merge (.register _ _ (.register _ _ reachable_grammar)) reachable_grammar
  exact ⟨reachable, reachable.wellFormed, by decide⟩

end Demo

end CommandGrammar
