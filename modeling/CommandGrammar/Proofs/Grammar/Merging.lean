import Mathlib.Data.List.Induction
import CommandGrammar.Proofs.Grammar.Forest

set_option autoImplicit false

namespace CommandGrammar

variable {S A : Type}

section Overlay

def lookup? (entries : List (String × NodeId)) (name : String) : Option (String × NodeId) :=
  entries.find? (·.1 == name)

-- Later entries stand in the places of earlier ones with the same name, the others behind them.
def overlay (earlier later : List (String × NodeId)) : List (String × NodeId) :=
  earlier.map (fun e => (lookup? later e.1).getD e) ++
    later.filter fun e => (lookup? earlier e.1).isNone

variable {xs ys zs : List (String × NodeId)} {e : String × NodeId} {name : String}

theorem name_of_lookup? (found : lookup? xs name = some e) : e.1 = name := by
  simpa using List.find?_some found

theorem name_getD_lookup? (xs : List (String × NodeId)) (e : String × NodeId) :
    ((lookup? xs e.1).getD e).1 = e.1 := by
  cases found : lookup? xs e.1 with
  | none => rfl
  | some e' => exact name_of_lookup? found

theorem lookup?_eq_none : lookup? xs name = none ↔ ∀ e ∈ xs, e.1 ≠ name := by
  simp [lookup?]

theorem lookup?_overlay (xs ys : List (String × NodeId)) (name : String) :
    lookup? (overlay xs ys) name = (lookup? ys name).or (lookup? xs name) := by
  have early : lookup? (xs.map fun e => (lookup? ys e.1).getD e) name =
      (lookup? xs name).map fun e => (lookup? ys e.1).getD e := by
    rw [lookup?, List.find?_map]
    simp only [Function.comp_def, name_getD_lookup?]
    rfl
  rw [overlay, lookup?, List.find?_append, ← lookup?, early]
  cases found : lookup? xs name with
  | some e =>
    rw [Option.map_some, Option.some_or, name_of_lookup? found]
    cases lookup? ys name <;> rfl
  | none =>
    rw [Option.map_none, Option.none_or, Option.or_none, List.find?_filter, lookup?]
    congr 1
    funext e
    by_cases same : e.1 = name
    · simp [same, found]
    · simp [same]

@[simp] theorem overlay_nil (xs : List (String × NodeId)) : overlay xs [] = xs := by
  simp [overlay, lookup?]

@[simp] theorem nil_overlay (xs : List (String × NodeId)) : overlay [] xs = xs := by
  simp [overlay, lookup?]

theorem overlay_assoc (xs ys zs : List (String × NodeId)) :
    overlay (overlay xs ys) zs = overlay xs (overlay ys zs) := by
  have places (e : String × NodeId) :
      (lookup? zs ((lookup? ys e.1).getD e).1).getD ((lookup? ys e.1).getD e) =
        (lookup? (overlay ys zs) e.1).getD e := by
    rw [name_getD_lookup?, lookup?_overlay]
    cases lookup? zs e.1 <;> rfl
  have fresh (e : String × NodeId) : (lookup? (overlay xs ys) e.1).isNone =
      ((lookup? xs e.1).isNone && (lookup? ys e.1).isNone) := by
    rw [lookup?_overlay]
    cases lookup? ys e.1 <;> cases lookup? xs e.1 <;> rfl
  rw [overlay.eq_def (overlay xs ys), overlay.eq_def xs (overlay ys zs)]
  simp only [fresh, ← places]
  rw [overlay.eq_def xs ys, overlay.eq_def ys zs, List.map_append, List.map_map, List.append_assoc,
    List.filter_append, List.filter_map, List.filter_filter]
  simp only [Function.comp_def, name_getD_lookup?]

theorem lookup?_map (f : NodeId → NodeId) (xs : List (String × NodeId)) (name : String) :
    lookup? (xs.map fun e => (e.1, f e.2)) name = (lookup? xs name).map fun e => (e.1, f e.2) := by
  rw [lookup?, List.find?_map]
  rfl

theorem overlay_map (f : NodeId → NodeId) (xs ys : List (String × NodeId)) :
    overlay (xs.map fun e => (e.1, f e.2)) (ys.map fun e => (e.1, f e.2)) =
      (overlay xs ys).map fun e => (e.1, f e.2) := by
  have places (e : String × NodeId) : ((lookup? ys e.1).map fun e => (e.1, f e.2)).getD (e.1, f e.2) =
      (((lookup? ys e.1).getD e).1, f ((lookup? ys e.1).getD e).2) := by
    cases lookup? ys e.1 <;> rfl
  simp [overlay, lookup?_map, places, List.filter_map, Function.comp_def]

theorem map_overlaid {part : List (String × NodeId)} (other : lookup? part e.1 = none) :
    part.map (fun e' => (lookup? [e] e'.1).getD e') = part := by
  refine (List.map_congr_left fun e' member => ?_).trans (List.map_id part)
  have none : lookup? [e] e'.1 = none :=
    lookup?_eq_none.mpr (by simpa using (lookup?_eq_none.mp other e' member).symm)
  simp only [none, Option.getD_none, id_eq]

theorem overlay_fresh (fresh : lookup? xs e.1 = none) : overlay xs [e] = xs ++ [e] := by
  rw [overlay, map_overlaid fresh]
  simp [fresh]

theorem overlay_middle {e' : String × NodeId} (name : e'.1 = e.1) (early : lookup? xs e.1 = none)
    (late : lookup? ys e.1 = none) : overlay (xs ++ e' :: ys) [e] = xs ++ e :: ys := by
  rw [overlay, List.map_append, List.map_cons, map_overlaid early, map_overlaid late]
  simp [lookup?, name]

theorem overlay_concat (xs : List (String × NodeId)) (last : lookup? ys e.1 = none) :
    overlay xs (ys ++ [e]) = overlay (overlay xs ys) [e] := by
  rw [overlay_assoc, overlay_fresh last]

end Overlay

namespace Grammar

variable {g h : Grammar S A}

def named (g : Grammar S A) (ids : List NodeId) : List (String × NodeId) :=
  ids.map fun id => ((g.node id).name, id)

def commands (g : Grammar S A) : List (String × NodeId) := g.named (g.node .root).children

@[simp] theorem map_snd_named (g : Grammar S A) (ids : List NodeId) :
    (g.named ids).map Prod.snd = ids := by
  simp [named, Function.comp_def]

theorem named_congr {ids : List NodeId}
    (same : ∀ id ∈ ids, (h.node id).name = (g.node id).name) : h.named ids = g.named ids :=
  List.map_congr_left fun id member => by rw [same id member]

theorem Extends.named_eq (extended : g.Extends h) {ids : List NodeId}
    (commands : ∀ id ∈ ids, g.HasCommand id) : h.named ids = g.named ids :=
  named_congr fun id member => name_congr ((commands id member).role_eq extended)

end Grammar

namespace Node

variable {g h : Grammar S A} {n m : Node S A} {id : NodeId}

theorem Indexed.lookup?_named (indexed : n.Indexed g) {part : List NodeId}
    (inside : ∀ child ∈ part, child ∈ n.children) {name : String}
    (free : ∀ child ∈ part, n.byName.find? name ≠ some child) :
    lookup? (g.named part) name = none := by
  refine lookup?_eq_none.mpr fun e member same => ?_
  obtain ⟨child, there, rfl⟩ := List.mem_map.mp member
  exact free child there ((indexed.byName _ child).mpr ⟨inside child there, same⟩)

theorem Indexed.named_adopt (indexed : n.Indexed g) (id : NodeId) :
    g.named (n.adopt (g.node id) id).children =
      overlay (g.named n.children) [((g.node id).name, id)] := by
  cases found : n.byName.find? (g.node id).name with
  | none =>
    have fresh : lookup? (g.named n.children) (g.node id).name = none :=
      indexed.lookup?_named (fun _ member => member) (fun child _ => by simp [found])
    rw [overlay_fresh fresh]
    simp [Node.adopt, found, Grammar.named]
  | some previous =>
    obtain ⟨member, name⟩ := (indexed.byName _ previous).mp found
    obtain ⟨before, after, split, replaced⟩ := replace_split indexed.nodup member id
    have nodup := indexed.nodup
    rw [split, List.nodup_middle, List.nodup_cons, List.mem_append, not_or] at nodup
    obtain ⟨⟨notBefore, notAfter⟩, -⟩ := nodup
    have other (part : List NodeId) (inside : ∀ child ∈ part, child ∈ n.children)
        (absent : previous ∉ part) : lookup? (g.named part) (g.node id).name = none := by
      refine indexed.lookup?_named inside fun child there same => absent ?_
      rwa [Option.some.inj (found.symm.trans same)]
    have early := other before (fun child there => by simp [split, there]) notBefore
    have late := other after (fun child there => by simp [split, there]) notAfter
    have middle : overlay
        (g.named before ++ ((g.node previous).name, previous) :: g.named after)
          [((g.node id).name, id)] = g.named before ++ ((g.node id).name, id) :: g.named after :=
      overlay_middle name early late
    simp only [Node.adopt, found, replaced]
    rw [split]
    simpa only [Grammar.named, List.map_append, List.map_cons] using middle.symm

theorem Indexed.eq_of_children (hn : n.Indexed g) (hm : m.Indexed h)
    (children : n.children = m.children)
    (roles : ∀ child ∈ n.children, (g.node child).role = (h.node child).role) :
    n.byName = m.byName ∧ n.literals = m.literals := by
  constructor
  · ext name child
    rw [hn.byName, hm.byName, ← children]
    exact and_congr_right fun member => by rw [Grammar.name_congr (roles child member)]
  · ext name child
    rw [hn.literals, hm.literals, ← children]
    exact and_congr_right fun member => by rw [roles child member]

theorem renumber_renumber (n : Node S A) (f k : NodeId → NodeId) :
    (n.renumber f).renumber k = n.renumber (k ∘ f) := by
  have index (index : NameIndex) : (index.map f).map k = index.map (k ∘ f) := by
    ext1 name
    simp
  cases role : n.role <;> simp [renumber, role, index, Composed.map, Function.comp_def]

end Node

namespace Grammar

variable {g h first second third : Grammar S A} {id : NodeId}

theorem extends_foldl_attach (g : Grammar S A) (parent : NodeId) (children : List NodeId) :
    g.Extends (children.foldl (fun g child => g.attach parent child) g) := by
  induction children generalizing g with
  | nil => exact .refl g
  | cons child rest ih => exact (g.extends_attach parent child).trans (ih _)

theorem Sound.commands_attach (sound : g.Sound) (command : g.HasCommand id) :
    (g.attach .root id).commands = overlay g.commands [((g.node id).name, id)] := by
  obtain ⟨n, found, -⟩ := sound.root
  have here : (g.attach .root id).node .root = (g.node .root).adopt (g.node id) id := by
    rw [node, node?_attach, found, node_of_node? found]
    rfl
  have indexed := sound.indexed_node .root
  rw [commands, here, commands, ← indexed.named_adopt id]
  refine (g.extends_attach .root id).named_eq fun child member => ?_
  rcases (indexed.mem_children_adopt child).mp member with rfl | ⟨old, -⟩
  · exact command
  · exact indexed.commands child old

theorem Sound.commands_foldl_attach (sound : g.Sound) (children : List NodeId)
    (names : (children.map fun child => (g.node child).name).Nodup)
    (commands : ∀ child ∈ children, g.HasCommand child)
    (fresh : ∀ n, g.node? .root = some n → ∀ child ∈ children, child ∉ n.children) :
    (children.foldl (fun g child => g.attach .root child) g).commands =
      overlay g.commands (g.named children) := by
  -- From the end, so that what is attached before the last child is sound.
  induction children using List.reverseRecOn with
  | nil => exact (overlay_nil _).symm
  | append_singleton before last ih =>
    have command := commands last (by simp)
    have commands' := fun child member => commands child (List.mem_append_left _ member)
    have fresh' := fun n found child member => fresh n found child (List.mem_append_left _ member)
    rw [List.map_append, List.nodup_append] at names
    obtain ⟨distinct, -, other⟩ := names
    have unnamed : lookup? (g.named before) (g.node last).name = none := by
      refine lookup?_eq_none.mpr fun e member => ?_
      obtain ⟨child, there, rfl⟩ := List.mem_map.mp member
      exact other _ (List.mem_map_of_mem there) _ (by simp)
    have extended := g.extends_foldl_attach .root before
    have sound' := sound.foldl_attach before distinct.of_map commands' fresh'
    rw [List.foldl_append, List.foldl_cons, List.foldl_nil,
      sound'.commands_attach (command.extend extended), ih distinct commands' fresh',
      name_congr (command.role_eq extended), ← overlay_concat _ unnamed, named, named, List.map_append]
    rfl

theorem Sound.commands_merge (hf : first.Sound) (hs : second.Sound) :
    (first.merge second).commands = overlay first.commands
      (second.commands.map fun e => (e.1, moved (first.nodeCount - 1) e.2)) := by
  have indexed := hs.indexed_node .root
  have there (child : NodeId) (member : child ∈ (second.node .root).children) :=
    hf.hasCommand_moved hs (indexed.commands child member)
  have name (child : NodeId) (member : child ∈ (second.node .root).children) :
      ((first.union second).node (moved (first.nodeCount - 1) child)).name =
        (second.node child).name := by
    rw [(there child member).2, name_renumber]
  have early : (first.union second).commands = first.commands := by
    have root : (first.union second).node .root = first.node .root := node_union_of_lt hf.nodeCount_pos
    rw [commands, root]
    exact (extends_union first second).named_eq (hf.indexed_node .root).commands
  have late : (first.union second).named
      ((second.node .root).children.map (moved (first.nodeCount - 1))) =
        second.commands.map fun e => (e.1, moved (first.nodeCount - 1) e.2) := by
    simp only [named, commands, List.map_map]
    exact List.map_congr_left fun child member => by simp [name child member]
  rw [merge_eq, ← List.foldl_map, (hf.union hs).commands_foldl_attach, early, late]
  · rw [List.map_map]
    have names := List.map_congr_left name
    simp only [Function.comp_def, names]
    exact indexed.nodup.map_on fun a ha b hb same => indexed.eq_of_name ha hb same
  · intro child member
    obtain ⟨source, inside, rfl⟩ := List.mem_map.mp member
    exact (there source inside).1
  · intro n here child member inside
    obtain ⟨source, inside', rfl⟩ := List.mem_map.mp member
    exact hf.fresh_moved here (hs.child_ne_root inside') inside

theorem tail_attach_root (g : Grammar S A) (child : NodeId) :
    (g.attach .root child).nodes.tail = g.nodes.tail := by
  obtain ⟨nodes⟩ := g
  cases nodes <;> rfl

theorem foldl_attach_root (g : Grammar S A) (children : List NodeId) :
    (children.foldl (fun g child => g.attach .root child) g).nodes.tail = g.nodes.tail ∧
      ((children.foldl (fun g child => g.attach .root child) g).node .root).toAttributes =
        (g.node .root).toAttributes := by
  induction children generalizing g with
  | nil => exact ⟨rfl, rfl⟩
  | cons child rest ih =>
    obtain ⟨tail, attributes⟩ := ih (g.attach .root child)
    exact ⟨tail.trans (g.tail_attach_root child), attributes.trans (g.toAttributes_attach _ _ _)⟩

theorem Sound.nodes_eq (sound : g.Sound) : g.nodes = g.node .root :: g.nodes.tail := by
  obtain ⟨n, found, -⟩ := sound.root
  obtain ⟨nodes⟩ := g
  cases nodes with
  | nil => simp [node?] at found
  | cons root rest => rfl

theorem Sound.tail_merge (hf : first.Sound) (second : Grammar S A) :
    (first.merge second).nodes.tail = first.nodes.tail ++
      second.nodes.tail.map (·.renumber (moved (first.nodeCount - 1))) := by
  rw [merge_eq, ← List.foldl_map, (foldl_attach_root _ _).1, Grammar.union, hf.nodes_eq,
    List.drop_one]
  rfl

theorem Sound.attributes_merge (hf : first.Sound) (second : Grammar S A) :
    ((first.merge second).node .root).toAttributes = (first.node .root).toAttributes := by
  have root : (first.union second).node .root = first.node .root := node_union_of_lt hf.nodeCount_pos
  rw [merge_eq, ← List.foldl_map, (foldl_attach_root _ _).2, root]

theorem Sound.nodeCount_merge (hf : first.Sound) (second : Grammar S A) :
    (first.merge second).nodeCount - 1 = (first.nodeCount - 1) + (second.nodeCount - 1) := by
  have count {g : Grammar S A} : g.nodeCount - 1 = g.nodes.tail.length := List.length_tail.symm
  rw [count, hf.tail_merge, List.length_append, List.length_map, ← count, ← count]

theorem moved_moved (m n : Nat) : moved m ∘ moved n = moved (m + n) := by
  funext id
  by_cases root : id = .root
  · simp [root]
  · have behind : id + n ≠ .root := fun same => root (Nat.add_eq_zero_iff.mp same).1
    rw [Function.comp_apply, moved_of_ne root, moved_of_ne behind, moved_of_ne root]
    exact (Nat.add_assoc id n m).trans (congrArg (id + ·) (Nat.add_comm n m))

theorem node?_eq_of_tail (tail : g.nodes.tail = h.nodes.tail) (proper : id ≠ .root) :
    g.node? id = h.node? id := by
  obtain ⟨k, rfl⟩ := Nat.exists_eq_succ_of_ne_zero proper
  have there (g : Grammar S A) : g.node? (k + 1) = g.nodes.tail[k]? := List.getElem?_tail.symm
  rw [Nat.succ_eq_add_one, there, there, tail]

theorem node_eq_of_tail (tail : g.nodes.tail = h.nodes.tail) (proper : id ≠ .root) :
    g.node id = h.node id :=
  congrArg (·.getD .blankRoot) (node?_eq_of_tail tail proper)

theorem Sound.role_root (sound : g.Sound) : (g.node .root).role = .root := by
  obtain ⟨n, found, root⟩ := sound.root
  rw [node_of_node? found]
  cases role : n.role <;> simp_all [Node.isRoot]

theorem Sound.ext (hg : g.Sound) (hh : h.Sound) (tail : g.nodes.tail = h.nodes.tail)
    (attributes : (g.node .root).toAttributes = (h.node .root).toAttributes)
    (commands : g.commands = h.commands) : g = h := by
  have children : (g.node .root).children = (h.node .root).children := by
    rw [← g.map_snd_named (g.node .root).children, ← h.map_snd_named (h.node .root).children]
    exact congrArg (List.map Prod.snd) commands
  obtain ⟨byName, literals⟩ := (hg.indexed_node .root).eq_of_children (hh.indexed_node .root) children
    fun child member => by rw [node_eq_of_tail tail (hg.child_ne_root member)]
  have role : (g.node .root).role = (h.node .root).role := hg.role_root.trans hh.role_root.symm
  have root : g.node .root = h.node .root := by
    cases hg : g.node .root
    cases hh : h.node .root
    simp_all
  have nodes : g.nodes = h.nodes := by rw [hg.nodes_eq, hh.nodes_eq, root, tail]
  cases g
  cases h
  exact congrArg Grammar.mk nodes

section Lookup

theorem node?_merge (first second : Grammar S A) (proper : id ≠ .root) :
    (first.merge second).node? id = (first.union second).node? id := by
  refine node?_eq_of_tail ?_ proper
  rw [merge_eq, ← List.foldl_map, (foldl_attach_root _ _).1]

theorem Sound.node?_merge_moved (hf : first.Sound) (second : Grammar S A) (proper : id ≠ .root) :
    (first.merge second).node? (moved (first.nodeCount - 1) id) =
      (second.node? id).map (·.renumber (moved (first.nodeCount - 1))) := by
  have proper' : moved (first.nodeCount - 1) id ≠ .root := fun same =>
    proper (moved_injective _ same)
  rw [node?_merge first second proper', node?_union_moved hf.nodeCount_pos proper]

theorem node?_merge_of_lt (second : Grammar S A) (proper : id ≠ .root)
    (known : id < first.nodeCount) : (first.merge second).node? id = first.node? id :=
  (node?_merge first second proper).trans (List.getElem?_append_left known)

theorem Sound.lookup?_commands (sound : g.Sound) (name : String) :
    lookup? g.commands name = ((g.node .root).byName.find? name).map fun child => (name, child) := by
  have indexed := sound.indexed_node .root
  cases found : (g.node .root).byName.find? name with
  | none => exact indexed.lookup?_named (fun _ member => member) (fun child _ => by simp [found])
  | some child =>
    obtain ⟨member, named⟩ := (indexed.byName name child).mp found
    cases entry : lookup? g.commands name with
    | none => exact absurd named (lookup?_eq_none.mp entry _ (List.mem_map_of_mem member))
    | some e =>
      obtain ⟨other, inside, rfl⟩ := List.mem_map.mp (List.mem_of_find?_eq_some entry)
      have named' : (g.node other).name = name := name_of_lookup? entry
      rw [indexed.eq_of_name inside member (named'.trans named.symm), named]
      rfl

theorem Sound.byName_merge (hf : first.Sound) (hs : second.Sound) (name : String) :
    ((first.merge second).node .root).byName.find? name =
      (((second.node .root).byName.find? name).map (moved (first.nodeCount - 1))).or
        ((first.node .root).byName.find? name) := by
  have known := (hf.merge hs).lookup?_commands name
  have moved' : lookup? (second.commands.map fun e => (e.1, moved (first.nodeCount - 1) e.2)) name =
      (lookup? second.commands name).map fun e => (e.1, moved (first.nodeCount - 1) e.2) :=
    lookup?_map _ _ _
  rw [hf.commands_merge hs, lookup?_overlay, moved', hs.lookup?_commands, hf.lookup?_commands] at known
  have ids := congrArg (Option.map Prod.snd) known
  cases second' : (second.node .root).byName.find? name <;>
    cases first' : (first.node .root).byName.find? name <;>
    simpa [second', first', Option.map_map, Function.comp_def] using ids.symm

end Lookup

section Neutral

def Bare (g : Grammar S A) : Prop := (g.node .root).toAttributes = {}

theorem Bare.place (bare : g.Bare) {parent : NodeId} {attributes : Attributes S A}
    {role : Grammar S A → Registered S A (Role S A)} (grown : (role g).1.Sound)
    (kept : (role g).1.Bare) : (g.place parent attributes role).1.Bare := by
  rcases place_cases g parent attributes role with
    ⟨error, refused⟩ | ⟨error, -, refused⟩ | ⟨r, -, -, -, -, -, placed⟩
  · rw [refused]
    exact bare
  · rw [refused]
    exact kept
  · have old : NodeId.root ≠ (role g).1.nodeCount := Nat.ne_of_lt grown.nodeCount_pos
    rw [placed, Bare, toAttributes_attach, node_push, if_neg old]
    exact kept

theorem Bare.register (bare : g.Bare) (sound : g.Sound) (parent : NodeId) (b : Blueprint S A) :
    (g.register parent b).1.Bare := by
  refine (register_keeps (P := fun g => g.Sound ∧ g.Bare) ?_ ⟨sound, bare⟩ parent b).2
  rintro g parent b ⟨sound, bare⟩
  have root : (g.settle b).1.node .root = g.node .root :=
    node_of_prefix_nodes (g.prefix_settle b) sound.nodeCount_pos
  have kept : (g.settle b).1.Bare := (congrArg Node.toAttributes root).trans bare
  exact ⟨sound.place_settle parent b, bare.place (Settles.settle sound b).sound kept⟩

theorem Reachable.bare (reachable : g.Reachable) : g.Bare := by
  induction reachable with
  | empty => rfl
  | register parent b reachable ih => exact ih.register reachable.sound parent b
  | merge reachable _ first _ => exact (reachable.sound.attributes_merge _).trans first

end Neutral

theorem moved_zero : moved 0 = fun id => id := by
  funext id
  by_cases root : id = .root
  · rw [root, moved_root]
  · exact moved_of_ne root 0

theorem renumber_same (n : Node S A) : n.renumber (fun id => id) = n := by
  have index (index : NameIndex) : (index.map fun id => id) = index := by
    ext1 name
    simp
  obtain ⟨attributes, role, children, byName, literals⟩ := n
  cases role <;> simp [Node.renumber, index, Composed.map]

theorem merge_empty (g : Grammar S A) : g.merge .empty = g := by
  have none : ((Grammar.empty : Grammar S A).node .root).children = [] := rfl
  have alone : g.union .empty = g := by simp [union, empty]
  rw [merge_eq, none, List.foldl_nil, alone]

theorem Reachable.empty_merge (reachable : g.Reachable) : Grammar.empty.merge g = g := by
  have sound := reachable.sound
  have alone : (Grammar.empty : Grammar S A).nodes.tail = [] := rfl
  have none : (Grammar.empty : Grammar S A).commands = [] := rfl
  refine (Sound.empty.merge sound).ext sound ?_ ?_ ?_
  · rw [Sound.empty.tail_merge, nodeCount_empty, alone]
    simp [moved_zero, renumber_same]
  · rw [Sound.empty.attributes_merge]
    exact reachable.bare.symm
  · rw [Sound.empty.commands_merge sound, nodeCount_empty, none, nil_overlay]
    simp [moved_zero]

theorem Reachable.merge_assoc (hf : first.Reachable) (hs : second.Reachable)
    (ht : third.Reachable) : (first.merge second).merge third = first.merge (second.merge third) := by
  have ff := hf.sound
  have fs := hs.sound
  have ft := ht.sound
  have offsets : moved ((first.merge second).nodeCount - 1) =
      moved (first.nodeCount - 1) ∘ moved (second.nodeCount - 1) := by
    rw [moved_moved, ff.nodeCount_merge]
  refine ((ff.merge fs).merge ft).ext (ff.merge (fs.merge ft)) ?_ ?_ ?_
  · rw [(ff.merge fs).tail_merge, ff.tail_merge, ff.tail_merge, fs.tail_merge, offsets,
      List.append_assoc, List.map_append, List.map_map]
    simp only [Function.comp_def, Node.renumber_renumber]
  · rw [(ff.merge fs).attributes_merge, ff.attributes_merge, ff.attributes_merge]
  · rw [(ff.merge fs).commands_merge ft, ff.commands_merge fs, ff.commands_merge (fs.merge ft),
      fs.commands_merge ft, offsets, overlay_assoc, ← overlay_map, List.map_map]
    rfl

theorem Reachable.merge_monoid (hf : first.Reachable) (hs : second.Reachable) (ht : third.Reachable) :
    (first.merge second).merge third = first.merge (second.merge third) ∧
      Grammar.empty.merge first = first ∧ first.merge .empty = first :=
  ⟨hf.merge_assoc hs ht, hf.empty_merge, first.merge_empty⟩

end Grammar

namespace Demo

def echoing : Grammar User Deed :=
  (grammar.register .root (.argument "echo" .rest {} [])).1

def greeting : Grammar User Deed :=
  (Grammar.empty.register .root (.literal "greet" (doing .greetSelf none) [])).1

theorem merge_monoid_echoing :
    ((grammar.merge echoing).merge greeting = grammar.merge (echoing.merge greeting) ∧
      Grammar.empty.merge grammar = grammar ∧ grammar.merge .empty = grammar) ∧
    (grammar.merge (echoing.merge greeting)).commands =
      [("echo", 31), ("greet", 32), ("move", 20), ("whoami", 25), ("as", 26), ("everyone", 28),
        ("shutdown", 29), ("help", 30)] := by
  have echoes : echoing.Reachable := .register _ _ reachable_grammar
  have greets : greeting.Reachable := .register _ _ .empty
  exact ⟨reachable_grammar.merge_monoid echoes greets, by decide⟩

end Demo

end CommandGrammar
