import CommandGrammar.Proofs.Grammar.Merging
import CommandGrammar.Proofs.Parsing.Renumber

set_option autoImplicit false

namespace CommandGrammar

variable {S A : Type}

section Same

theorem Step.renumber_same (s : Step) : s.renumber (fun id => id) = s := by
  obtain ⟨matched, span⟩ := s
  cases matched <;> simp [renumber, Matched.renumber]

theorem View.renumber_same (v : View) : v.renumber (fun id => id) = v := by
  simp [renumber, Step.renumber_same]

theorem Frame.renumber_same (frame : Frame S A) : frame.renumber (fun id => id) = frame := by
  simp [renumber, View.renumber_same]

theorem Context.renumber_same (c : Context S A) : c.renumber (fun id => id) = c := by
  simp [renumber, Frame.renumber_same]

theorem Parse.renumber_same (p : Parse S A) : p.renumber (fun id => id) = p := by
  simp [renumber, Context.renumber_same]

end Same

namespace Grammar

structure Oblivious (g : Grammar S A) : Prop where
  read : ∀ id name type, (g.node id).role = .argument name type →
    ∀ f i c, type.read i (c.renumber f) = type.read i c
  choose : ∀ id choose, (g.node id).choose = some choose → ∀ f v, choose (v.renumber f) = choose v

def HasLiteral (g : Grammar S A) (name : String) : Prop :=
  ∃ child ∈ (g.node .root).children, (g.node child).role = .literal name

variable {g first second : Grammar S A} {id child : NodeId} {name : String}

theorem embeds_second (hf : first.Sound) (hs : second.Sound)
    (away : ∀ id, (second.node id).redirect ≠ some .root) (oblivious : second.Oblivious) :
    second.Embeds (first.merge second) (moved (first.nodeCount - 1)) (· ≠ .root) where
  injective := moved_injective _
  node? _ proper := hf.node?_merge_moved second proper
  children _ _ _ member := hs.child_ne_root member
  members _ _ _ role _ member := hs.member_ne_root role member
  redirect id _ _ redirects root := away id (root ▸ redirects)
  read id name type _ role := oblivious.read id name type role _
  choose id choose _ chosen := oblivious.choose id choose chosen _

theorem embeds_first (second : Grammar S A) (hf : first.Sound) (ff : first.Forest)
    (away : ∀ id, (first.node id).redirect ≠ some .root) :
    first.Embeds (first.merge second) (fun id => id) fun id => id ≠ .root ∧ id < first.nodeCount where
  injective _ _ same := same
  node? id known := by
    have same : (fun n : Node S A => n.renumber fun id => id) = fun n => n := funext renumber_same
    rw [node?_merge_of_lt second known.1 known.2, same, Option.map_id']
  children _ _ _ member := ⟨hf.child_ne_root member, hf.child_lt member⟩
  members _ _ _ role _ member := ⟨hf.member_ne_root role member, hf.member_lt role member⟩
  redirect id target _ redirects :=
    ⟨fun root => away id (root ▸ redirects), ff.redirect id target redirects⟩
  read _ _ type _ _ i c := congrArg (type.read i) c.renumber_same
  choose _ choose _ _ v := congrArg choose v.renumber_same

section FirstWord

variable {i : Input} {word : Word}

theorem Sound.find?_literals (sound : g.Sound) :
    (g.node id).literals.find? name = some child ↔
      (g.node id).byName.find? name = some child ∧ (g.node child).isLiteral = true := by
  have indexed := sound.indexed_node id
  rw [indexed.literals, indexed.byName, Node.literal_iff]
  tauto

theorem Sound.exists_find?_literals (sound : g.Sound) (literal : g.HasLiteral name) :
    ∃ child, (g.node .root).literals.find? name = some child := by
  obtain ⟨child, member, role⟩ := literal
  exact ⟨child, ((sound.indexed_node .root).literals name child).mpr ⟨member, role⟩⟩

theorem isLiteral_renumber (n : Node S A) (f : NodeId → NodeId) :
    (n.renumber f).isLiteral = n.isLiteral := by
  cases role : n.role <;> simp [Node.renumber, Node.isLiteral, role]

theorem Sound.find?_literals_second (hf : first.Sound) (hs : second.Sound)
    (found : (second.node .root).literals.find? name = some child) :
    ((first.merge second).node .root).literals.find? name =
      some (moved (first.nodeCount - 1) child) := by
  obtain ⟨named, literal⟩ := hs.find?_literals.mp found
  have proper := hs.child_ne_root (((hs.indexed_node .root).byName name child).mp named).1
  have node : (first.merge second).node (moved (first.nodeCount - 1) child) =
      (second.node child).renumber (moved (first.nodeCount - 1)) := by
    rw [Grammar.node, hf.node?_merge_moved second proper, Grammar.node]
    cases second.node? child <;> rfl
  refine (hf.merge hs).find?_literals.mpr ⟨?_, ?_⟩
  · rw [hf.byName_merge hs, named]
    rfl
  · rw [node, isLiteral_renumber, literal]

theorem Sound.find?_literals_first (hf : first.Sound) (hs : second.Sound)
    (found : (first.node .root).literals.find? name = some child)
    (free : ∀ other ∈ (second.node .root).children, (second.node other).name ≠ name) :
    ((first.merge second).node .root).literals.find? name = some child := by
  obtain ⟨named, literal⟩ := hf.find?_literals.mp found
  have member := (((hf.indexed_node .root).byName name child).mp named).1
  have unnamed : (second.node .root).byName.find? name = none := by
    refine Option.eq_none_iff_forall_ne_some.mpr fun other known => ?_
    obtain ⟨inside, same⟩ := ((hs.indexed_node .root).byName name other).mp known
    exact free other inside same
  have node : (first.merge second).node child = first.node child :=
    congrArg (·.getD .blankRoot)
      (node?_merge_of_lt second (hf.child_ne_root member) (hf.child_lt member))
  refine (hf.merge hs).find?_literals.mpr ⟨?_, ?_⟩
  · rw [hf.byName_merge hs, unnamed]
    exact named
  · rw [node, literal]

theorem Sound.parse_merge_second (hf : first.Sound) (hs : second.Sound)
    (away : ∀ id, (second.node id).redirect ≠ some .root) (oblivious : second.Oblivious) (source : S)
    (next : i.peekWord = some word) (literal : second.HasLiteral word.asText) :
    (first.merge second).parse source i =
      (second.parse source i).renumber (moved (first.nodeCount - 1)) := by
  obtain ⟨child, found⟩ := hs.exists_find?_literals literal
  have alone := relevant_of_literal next found
  have merged := relevant_of_literal next (hf.find?_literals_second hs found)
  refine (embeds_second hf hs away oblivious).parse_eq hs (moved_root _) ?_ ?_
  · rw [merged, alone]
    rfl
  · intro other member
    exact hs.child_ne_root (hs.mem_children_of_mem_relevant member)

theorem Sound.parse_merge_first (hf : first.Sound) (ff : first.Forest) (hs : second.Sound)
    (away : ∀ id, (first.node id).redirect ≠ some .root) (source : S) (next : i.peekWord = some word)
    (literal : first.HasLiteral word.asText)
    (free : ∀ other ∈ (second.node .root).children, (second.node other).name ≠ word.asText) :
    (first.merge second).parse source i = first.parse source i := by
  obtain ⟨child, found⟩ := hf.exists_find?_literals literal
  have alone := relevant_of_literal next found
  have merged := relevant_of_literal next (hf.find?_literals_first hs found free)
  rw [(embeds_first second hf ff away).parse_eq hf rfl, Parse.renumber_same]
  · rw [merged, alone]
    rfl
  · intro other member
    have child := hf.mem_children_of_mem_relevant member
    exact ⟨hf.child_ne_root child, hf.child_lt child⟩

end FirstWord

end Grammar

end CommandGrammar
