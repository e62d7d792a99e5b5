import CommandGrammar.Demo.Commands
import CommandGrammar.Grammar.Merge
import CommandGrammar.Proofs.Grammar.Soundness

set_option autoImplicit false

namespace CommandGrammar

variable {S A : Type}

def Blueprint.children : Blueprint S A → List (Blueprint S A)
  | literal _ _ children => children
  | argument _ _ _ children => children
  | composed _ _ children => children

namespace Grammar

inductive Reachable : Grammar S A → Prop
  | empty : Reachable .empty
  | register {g : Grammar S A} (parent : NodeId) (b : Blueprint S A) :
    Reachable g → Reachable (g.register parent b).1
  | merge {g h : Grammar S A} : Reachable g → Reachable h → Reachable (g.merge h)

section Registration

variable {g : Grammar S A}

theorem Registered.fst_andThen {α β : Type} {r : Registered S A α}
    {next : Grammar S A → α → Registered S A β} {P : Grammar S A → Prop} (first : P r.1)
    (onward : ∀ a, r.2 = .ok a → P (next r.1 a).1) : P (r.andThen next).1 := by
  obtain ⟨g, answer⟩ := r
  cases answer with
  | error e => exact first
  | ok a => exact onward a rfl

theorem Registered.andThen_of_ok {α β : Type} {r : Registered S A α} {a : α} (ok : r.2 = .ok a)
    (next : Grammar S A → α → Registered S A β) : r.andThen next = next r.1 a := by
  obtain ⟨g, answer⟩ := r
  obtain rfl : answer = .ok a := ok
  rfl

theorem Registered.andThen_of_error {α β : Type} {r : Registered S A α} {e : RegistrationError}
    (error : r.2 = .error e) (next : Grammar S A → α → Registered S A β) :
    r.andThen next = (r.1, .error e) := by
  obtain ⟨g, answer⟩ := r
  obtain rfl : answer = .error e := error
  rfl

structure Entries (g h : Grammar S A) (entries : List (String × NodeId)) : Prop where
  nodup : (entries.map Prod.snd).Nodup
  fresh : ∀ e ∈ entries, g.nodeCount ≤ e.2
  arguments : ∀ e ∈ entries, ∃ type, ∃ n, h.node? e.2 = some n ∧ n.role = .argument e.1 type

theorem Entries.declared {h : Grammar S A} {entries : List (String × NodeId)}
    (added : Entries g h entries) : (Composed.ofMembers entries).Declared h :=
  ⟨entries, rfl, added.nodup, added.arguments⟩

theorem checkRedirect_ok {attributes : Attributes S A} (ok : g.checkRedirect attributes = .ok ()) :
    ∀ target, attributes.redirect = some target → target < g.nodeCount := by
  intro target redirects
  rw [checkRedirect, redirects] at ok
  cases found : g.node? target with
  | some n => exact node?_lt found
  | none => simp [found] at ok

theorem checkParent_ok {parent : NodeId} (ok : g.checkParent parent = .ok ()) :
    parent < g.nodeCount ∧ (g.node parent).isComposed = false := by
  unfold checkParent at ok
  cases found : g.node? parent with
  | none => simp [found] at ok
  | some n => exact ⟨node?_lt found, by simpa [found, node_of_node? found] using ok⟩

theorem addMember_cases (g : Grammar S A) (b : Blueprint S A) :
    (∃ error, g.addMember b = (g, .error error)) ∨
    ∃ name type attributes, b = .argument name type attributes [] ∧
      (∀ target, attributes.redirect = some target → target < g.nodeCount) ∧
      g.addMember b =
        ((g.push (.ofRole (.argument name type) attributes)).1, .ok (name, g.nodeCount)) := by
  unfold addMember
  split
  · split
    · exact .inl ⟨_, rfl⟩
    · rename_i checked
      exact .inr ⟨_, _, _, rfl, checkRedirect_ok checked, rfl⟩
  · exact .inl ⟨_, rfl⟩

theorem addMembers_entries (sound : g.Sound) (bs : List (Blueprint S A)) :
    (g.addMembers bs).1.Sound ∧ g.Extends (g.addMembers bs).1 ∧
      ∀ entries, (g.addMembers bs).2 = .ok entries → Entries g (g.addMembers bs).1 entries := by
  induction bs generalizing g with
  | nil =>
    refine ⟨sound, .refl g, fun entries answer => ?_⟩
    obtain rfl : [] = entries := Except.ok.inj answer
    exact ⟨.nil, by simp, by simp⟩
  | cons b rest ih =>
    rcases addMember_cases g b with ⟨error, refused⟩ | ⟨name, type, attributes, -, -, added⟩
    · rw [addMembers, refused]
      exact ⟨sound, .refl g, fun entries answer => by simp [Registered.andThen] at answer⟩
    · have extended := g.extends_push (.ofRole (.argument name type) attributes)
      have count := g.nodeCount_push (.ofRole (.argument name type) attributes)
      have found := g.node?_push_self (.ofRole (.argument name type) attributes)
      have grown : (g.push (.ofRole (.argument name type) attributes)).1.Sound :=
        sound.push (fun members role => by simp at role) attributes
      rw [addMembers, added]
      simp only [Registered.andThen]
      generalize (g.push (.ofRole (.argument name type) attributes)).1 = h at extended count found grown
      obtain ⟨grown', extended', others⟩ := ih grown
      generalize h.addMembers rest = more at grown' extended' others
      obtain ⟨k, answer⟩ := more
      cases answer with
      | error error => exact ⟨grown', extended.trans extended', fun entries answer => by simp at answer⟩
      | ok entries =>
        refine ⟨grown', extended.trans extended', fun all answer => ?_⟩
        obtain rfl : (name, g.nodeCount) :: entries = all := Except.ok.inj answer
        have later := others entries rfl
        refine ⟨?_, ?_, ?_⟩
        · refine List.nodup_cons.mpr ⟨fun again => ?_, later.nodup⟩
          obtain ⟨e, member, same⟩ := List.mem_map.mp again
          have fresh := later.fresh e member
          rw [show e.2 = g.nodeCount from same, count] at fresh
          exact Nat.not_succ_le_self _ fresh
        · intro e member
          rcases List.mem_cons.mp member with rfl | member
          · exact Nat.le_refl _
          · have := later.fresh e member
            omega
        · intro e member
          rcases List.mem_cons.mp member with rfl | member
          · obtain ⟨m, found, role⟩ := extended' _ _ found
            exact ⟨type, m, found, role⟩
          · exact later.arguments e member

structure Settles (g : Grammar S A) (settled : Registered S A (Role S A)) : Prop where
  extended : g.Extends settled.1
  sound : settled.1.Sound
  proper : settled.2 ≠ .ok .root
  declared : ∀ members, settled.2 = .ok (.composed members) → members.Declared settled.1

theorem Settles.word (sound : g.Sound) {role : Role S A} (proper : role ≠ .root)
    (plain : ∀ members, role ≠ .composed members) : Settles g (g, .ok role) := by
  refine ⟨.refl g, sound, fun root => proper (Except.ok.inj root), fun members composed => ?_⟩
  exact absurd (Except.ok.inj composed) (plain members)

def addComposed (g : Grammar S A) (bs : List (Blueprint S A)) : Registered S A (Role S A) :=
  (g.addMembers bs).andThen fun g entries => (g, .ok (.composed (.ofMembers entries)))

theorem Settles.composed (sound : g.Sound) (bs : List (Blueprint S A)) :
    Settles g (g.addComposed bs) := by
  obtain ⟨grown, extended, entries⟩ := addMembers_entries sound bs
  unfold addComposed
  generalize g.addMembers bs = added at grown extended entries
  obtain ⟨h, answer⟩ := added
  cases answer with
  | error error => exact ⟨extended, grown, by simp [Registered.andThen], by simp [Registered.andThen]⟩
  | ok found =>
    refine ⟨extended, grown, by simp [Registered.andThen], fun members composed => ?_⟩
    obtain rfl : Composed.ofMembers found = members := Role.composed.inj (Except.ok.inj composed)
    exact (entries found rfl).declared

theorem place_cases (g : Grammar S A) (parent : NodeId) (attributes : Attributes S A)
    (role : Grammar S A → Registered S A (Role S A)) :
    (∃ error, g.place parent attributes role = (g, .error error)) ∨
    (∃ error, parent < g.nodeCount ∧ g.place parent attributes role = ((role g).1, .error error)) ∨
    ∃ r, (role g).2 = .ok r ∧ parent < g.nodeCount ∧ (g.node parent).isComposed = false ∧
      (∀ target, attributes.redirect = some target → target < g.nodeCount) ∧
      (g.place parent attributes role).2 = .ok (role g).1.nodeCount ∧
      (g.place parent attributes role).1 =
        ((role g).1.push (.ofRole r attributes)).1.attach parent (role g).1.nodeCount := by
  unfold place
  split
  · exact .inl ⟨_, rfl⟩
  · rename_i known
    obtain ⟨there, plain⟩ := checkParent_ok known
    split
    · exact .inl ⟨_, rfl⟩
    · rename_i checked
      cases answer : (role g).2 with
      | error error => exact .inr (.inl ⟨error, there, Registered.andThen_of_error answer _⟩)
      | ok r =>
        rw [Registered.andThen_of_ok answer]
        exact .inr (.inr ⟨r, rfl, there, plain, checkRedirect_ok checked, rfl, rfl⟩)

theorem Sound.place (sound : g.Sound) {parent : NodeId} {attributes : Attributes S A}
    {role : Grammar S A → Registered S A (Role S A)} (settles : Settles g (role g)) :
    (g.place parent attributes role).1.Sound := by
  rcases place_cases g parent attributes role with
    ⟨error, refused⟩ | ⟨error, -, refused⟩ | ⟨r, answer, -, -, -, -, placed⟩
  · rw [refused]
    exact sound
  · rw [refused]
    exact settles.sound
  · rw [placed]
    have grown := settles.sound
    have proper : r ≠ .root := fun root => settles.proper (root ▸ answer)
    have declared (members : Composed) (composed : r = .composed members) :
        members.Declared (role g).1 := settles.declared members (composed ▸ answer)
    generalize (role g).1 = h at grown declared
    have added : (h.push (.ofRole r attributes)).1.HasCommand h.nodeCount := by
      refine ⟨_, node?_push_self h _, ?_⟩
      cases r <;> simp_all [Node.isRoot, Node.ofRole]
    refine (grown.push declared attributes).attach added fun n found member => ?_
    -- The new node is nobody's child yet: children are known, and it was not.
    rcases node?_push found with old | ⟨-, rfl⟩
    · obtain ⟨m, known, -⟩ := (grown.indexed _ n old).commands _ member
      exact absurd (node?_lt known) (Nat.lt_irrefl _)
    · simp [Node.ofRole] at member

def settle (g : Grammar S A) : Blueprint S A → Registered S A (Role S A)
  | .literal name _ _ => (g, .ok (.literal name))
  | .argument name type _ _ => (g, .ok (.argument name type))
  | .composed members _ _ => g.addComposed members

theorem register_eq (g : Grammar S A) (parent : NodeId) (b : Blueprint S A) :
    g.register parent b = (g.place parent b.attributes (·.settle b)).andThen
      fun g id => g.registerBelow id b.children := by
  cases b <;> rw [register] <;> rfl

theorem Settles.settle (sound : g.Sound) (b : Blueprint S A) : Settles g (g.settle b) := by
  cases b with
  | literal name attributes children => exact .word sound (by simp) (by simp)
  | argument name type attributes children => exact .word sound (by simp) (by simp)
  | composed members attributes children => exact .composed sound members

theorem Sound.place_settle (sound : g.Sound) (parent : NodeId) (b : Blueprint S A) :
    (g.place parent b.attributes (·.settle b)).1.Sound :=
  sound.place (.settle sound b)

theorem register_keeps {P : Grammar S A → Prop}
    (place : ∀ g parent b, P g → P (g.place parent b.attributes (·.settle b)).1) (kept : P g)
    (parent : NodeId) (b : Blueprint S A) : P (g.register parent b).1 := by
  have single {g : Grammar S A} {parent : NodeId} {b : Blueprint S A}
      (below : ∀ h id, P h → P (h.registerBelow id b.children).1) (kept : P g) :
      P (g.register parent b).1 := by
    rw [register_eq]
    have placed := place g parent b kept
    exact Registered.fst_andThen placed fun id _ => below _ id placed
  refine (register.mutual_induct (fun g parent b => P g → P (g.register parent b).1)
    (fun g parent bs => P g → P (g.registerBelow parent bs).1)
    ?literal ?argument ?composed ?nil ?cons).1 g parent b kept
  case literal =>
    intro g parent name attributes children below
    exact single below
  case argument =>
    intro g parent name type attributes children below
    exact single below
  case composed =>
    intro g parent members attributes children below
    exact single below
  case nil =>
    intro g parent kept
    exact kept
  case cons =>
    intro g parent b rest first others kept
    rw [registerBelow]
    exact Registered.fst_andThen (first kept) fun id _ => others _ (first kept)

theorem Sound.register (sound : g.Sound) (parent : NodeId) (b : Blueprint S A) :
    (g.register parent b).1.Sound :=
  register_keeps (fun _ parent b sound => sound.place_settle parent b) sound parent b

end Registration

section Merging

variable {first second : Grammar S A}

theorem extends_union (first second : Grammar S A) : first.Extends (first.union second) :=
  fun _ n found => ⟨n, (List.getElem?_append_left (node?_lt found)).trans found, rfl⟩

theorem Sound.nodeCount_pos (sound : first.Sound) : 0 < first.nodeCount := by
  obtain ⟨n, found, -⟩ := sound.root
  exact node?_lt found

theorem Sound.ne_root (sound : first.Sound) {id : NodeId} (command : first.HasCommand id) :
    id ≠ .root := by
  rintro rfl
  obtain ⟨n, found, proper⟩ := command
  obtain ⟨m, found', root⟩ := sound.root
  obtain rfl := Option.some.inj (found.symm.trans found')
  simp [root] at proper

theorem Sound.le_moved (hf : first.Sound) {id : NodeId} (proper : id ≠ .root) :
    first.nodeCount ≤ moved (first.nodeCount - 1) id := by
  rw [moved_of_ne proper, ← Nat.sub_add_cancel hf.nodeCount_pos]
  exact Nat.add_comm id _ ▸ Nat.add_le_add_left (Nat.pos_of_ne_zero proper) _

theorem Sound.hasCommand_moved (hf : first.Sound) (hs : second.Sound) {id : NodeId}
    (command : second.HasCommand id) :
    (first.union second).HasCommand (moved (first.nodeCount - 1) id) ∧
      (first.union second).node (moved (first.nodeCount - 1) id) =
        (second.node id).renumber (moved (first.nodeCount - 1)) := by
  obtain ⟨n, found, proper⟩ := command
  have there : (first.union second).node? (moved (first.nodeCount - 1) id) =
      (second.node? id).map (·.renumber (moved (first.nodeCount - 1))) :=
    node?_union_moved hf.nodeCount_pos (hs.ne_root ⟨n, found, proper⟩)
  rw [found, Option.map_some] at there
  exact ⟨⟨_, there, (isRoot_renumber n _).trans proper⟩, by
    rw [node_of_node? there, node_of_node? found]⟩

theorem Sound.indexed_renumber (hf : first.Sound) (hs : second.Sound) {n : Node S A}
    (indexed : n.Indexed second) :
    (n.renumber (moved (first.nodeCount - 1))).Indexed (first.union second) := by
  have there (child : NodeId) (member : child ∈ n.children) :=
    hf.hasCommand_moved hs (indexed.commands child member)
  refine ⟨indexed.nodup.map (moved_injective _), ?_, ?_, ?_⟩
  · intro child member
    obtain ⟨source, inside, rfl⟩ := List.mem_map.mp member
    exact (there source inside).1
  · intro name child
    simp only [Node.renumber, NameIndex.find?_map, Option.map_eq_some_iff, List.mem_map,
      indexed.byName]
    constructor
    · rintro ⟨child, ⟨member, named⟩, rfl⟩
      exact ⟨⟨child, member, rfl⟩, by rw [(there child member).2, name_renumber, named]⟩
    · rintro ⟨⟨child, member, rfl⟩, named⟩
      rw [(there child member).2, name_renumber] at named
      exact ⟨child, ⟨member, named⟩, rfl⟩
  · intro name child
    simp only [Node.renumber, NameIndex.find?_map, Option.map_eq_some_iff, List.mem_map,
      indexed.literals]
    constructor
    · rintro ⟨child, ⟨member, role⟩, rfl⟩
      refine ⟨⟨child, member, rfl⟩, ?_⟩
      rw [(there child member).2, role_renumber_eq_literal, role]
    · rintro ⟨⟨child, member, rfl⟩, role⟩
      rw [(there child member).2, role_renumber_eq_literal] at role
      exact ⟨child, ⟨member, role⟩, rfl⟩

theorem map_ofMembers (f : NodeId → NodeId) (entries : List (String × NodeId)) :
    (Composed.ofMembers entries).map f = .ofMembers (entries.map fun e => (e.1, f e.2)) := by
  have index (start : NameIndex) :
      (entries.foldl (fun index e => index.insert e.1 e.2) start).map f =
        (entries.map fun e => (e.1, f e.2)).foldl (fun index e => index.insert e.1 e.2)
          (start.map f) := by
    induction entries generalizing start with
    | nil => rfl
    | cons e rest ih =>
      rw [List.foldl_cons, ih, List.map_cons, List.foldl_cons]
      congr 1
      ext1 name
      by_cases same : name = e.1 <;> simp [same]
  simp only [Composed.map, Composed.ofMembers, NameIndex.ofList, index, List.map_map]
  rfl

theorem Sound.declared_renumber (hf : first.Sound) (hs : second.Sound) {members : Composed}
    (declared : members.Declared second) :
    (members.map (moved (first.nodeCount - 1))).Declared (first.union second) := by
  obtain ⟨entries, rfl, nodup, arguments⟩ := declared
  refine ⟨_, map_ofMembers _ entries, ?_, ?_⟩
  · have ids : (entries.map fun e => (e.1, moved (first.nodeCount - 1) e.2)).map Prod.snd =
        (entries.map Prod.snd).map (moved (first.nodeCount - 1)) := by simp
    rw [ids]
    exact nodup.map (moved_injective _)
  · intro e member
    obtain ⟨source, inside, rfl⟩ := List.mem_map.mp member
    obtain ⟨type, n, found, role⟩ := arguments source inside
    have proper := hs.ne_root ⟨n, found, by simp [Node.isRoot, role]⟩
    refine ⟨type, n.renumber (moved (first.nodeCount - 1)), ?_, ?_⟩
    · rw [node?_union_moved hf.nodeCount_pos proper, found, Option.map_some]
    · simp [Node.renumber, role]

theorem Sound.union (hf : first.Sound) (hs : second.Sound) : (first.union second).Sound := by
  have extended := extends_union first second
  refine ⟨?_, ?_, ?_⟩
  · obtain ⟨n, found, root⟩ := hf.root
    obtain ⟨m, found, role⟩ := extended _ n found
    exact ⟨m, found, (isRoot_congr role).trans root⟩
  · intro id n found
    rcases node?_union hf.nodeCount_pos found with old | ⟨source, m, -, rfl, there, rfl⟩
    · exact (hf.indexed id n old).extend extended
    · exact hf.indexed_renumber hs (hs.indexed source m there)
  · intro id n members found composed
    rcases node?_union hf.nodeCount_pos found with old | ⟨source, m, -, rfl, there, rfl⟩
    · exact (hf.declared id n members old composed).extend extended
    · cases role : m.role with
      | composed members' =>
        obtain rfl : members'.map (moved (first.nodeCount - 1)) = members := by
          simpa [Node.renumber, role] using composed
        exact hf.declared_renumber hs (hs.declared source m members' there role)
      | root => simp [Node.renumber, role] at composed
      | literal name => simp [Node.renumber, role] at composed
      | argument name type => simp [Node.renumber, role] at composed

theorem Sound.foldl_attach {g : Grammar S A} (sound : g.Sound) (children : List NodeId)
    (nodup : children.Nodup) (commands : ∀ child ∈ children, g.HasCommand child)
    (fresh : ∀ n, g.node? .root = some n → ∀ child ∈ children, child ∉ n.children) :
    (children.foldl (fun g child => g.attach .root child) g).Sound := by
  induction children generalizing g with
  | nil => exact sound
  | cons child rest ih =>
    obtain ⟨absent, nodup⟩ := List.nodup_cons.mp nodup
    have attached := sound.attach (commands child (by simp)) fun n found => fresh n found child (by simp)
    refine ih attached nodup ?_ ?_
    · intro other member
      exact (commands other (List.mem_cons_of_mem _ member)).extend (g.extends_attach _ _)
    · intro m found other member inside
      rw [node?_attach, Option.map_eq_some_iff] at found
      obtain ⟨n, found, rfl⟩ := found
      rw [if_pos rfl, (sound.indexed _ n found).mem_children_adopt] at inside
      rcases inside with rfl | ⟨inside, -⟩
      · exact absent member
      · exact fresh n found other (List.mem_cons_of_mem _ member) inside

theorem Sound.fresh_moved (hf : first.Sound) {n : Node S A}
    (here : (first.union second).node? .root = some n) {child : NodeId} (proper : child ≠ .root) :
    moved (first.nodeCount - 1) child ∉ n.children := by
  intro inside
  have here : first.node? .root = some n :=
    (List.getElem?_append_left hf.nodeCount_pos).symm.trans here
  obtain ⟨m, known, -⟩ := (hf.indexed _ n here).commands _ inside
  exact absurd (node?_lt known) (Nat.not_lt_of_le (hf.le_moved proper))

theorem Sound.merge (hf : first.Sound) (hs : second.Sound) : (first.merge second).Sound := by
  obtain ⟨root, found, isRoot⟩ := hs.root
  have indexed := hs.indexed _ root found
  have fold : first.merge second =
      (root.children.map (moved (first.nodeCount - 1))).foldl (fun g child => g.attach .root child)
        (first.union second) := by
    rw [merge_eq, node_of_node? found, List.foldl_map]
  rw [fold]
  refine (hf.union hs).foldl_attach _ (indexed.nodup.map (moved_injective _)) ?_ ?_
  · intro child member
    obtain ⟨source, inside, rfl⟩ := List.mem_map.mp member
    exact (hf.hasCommand_moved hs (indexed.commands source inside)).1
  · intro n here child member inside
    obtain ⟨source, there, rfl⟩ := List.mem_map.mp member
    exact hf.fresh_moved here (hs.ne_root (indexed.commands source there)) inside

end Merging

theorem Reachable.sound {g : Grammar S A} (h : g.Reachable) : g.Sound := by
  induction h with
  | empty => exact .empty
  | register parent b _ ih => exact ih.register parent b
  | merge _ _ first second => exact first.merge second

theorem Reachable.declared {g : Grammar S A} (h : g.Reachable) {id : NodeId} {members : Composed}
    (role : (g.node id).role = .composed members) : members.Declared g :=
  h.sound.declared_node role

theorem Reachable.foldl_register {g : Grammar S A} (h : g.Reachable) (parent : NodeId)
    (bs : List (Blueprint S A)) : (bs.foldl (fun g b => (g.register parent b).1) g).Reachable := by
  induction bs generalizing g with
  | nil => exact h
  | cons b rest ih => exact ih (.register parent b h)

end Grammar

theorem Demo.reachable_grammar : grammar.Reachable :=
  Grammar.Reachable.empty.foldl_register .root commands

end CommandGrammar
