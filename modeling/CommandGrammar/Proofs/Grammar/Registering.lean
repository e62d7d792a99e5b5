import CommandGrammar.Proofs.Grammar.Forest

set_option autoImplicit false

namespace CommandGrammar

variable {S A : Type}

namespace Blueprint

def isLiteral : Blueprint S A → Bool
  | literal _ _ _ => true
  | _ => false

mutual

def size : Blueprint S A → Nat
  | literal _ _ children => 1 + sizes children
  | argument _ _ _ children => 1 + sizes children
  | composed members _ children => sizes members + 1 + sizes children

def sizes : List (Blueprint S A) → Nat
  | [] => 0
  | b :: rest => b.size + sizes rest

end

def lastNamed (bs : List (Blueprint S A)) (name : String) : Option (Blueprint S A) :=
  bs.reverse.find? (·.name == name)

def at? (b : Blueprint S A) (path : List String) : Option (Blueprint S A) :=
  path.foldlM (fun b name => lastNamed b.children name) b

structure MakesMember (g : Grammar S A) (b : Blueprint S A) (entry : String × NodeId) : Prop where
  known : entry.2 < g.nodeCount
  attributes : (g.node entry.2).toAttributes = b.attributes
  made : ∃ type, b = .argument entry.1 type b.attributes [] ∧
    (g.node entry.2).role = .argument entry.1 type

def MakesRole (g : Grammar S A) (role : Role S A) : Blueprint S A → Prop
  | literal name _ _ => role = .literal name
  | argument name type _ _ => role = .argument name type
  | composed members _ _ =>
    ∃ entries, role = .composed (.ofMembers entries) ∧ List.Forall₂ (MakesMember g) members entries

structure Makes (g : Grammar S A) (b : Blueprint S A) (id : NodeId) : Prop where
  known : id < g.nodeCount
  attributes : (g.node id).toAttributes = b.attributes
  role : b.MakesRole g (g.node id).role

end Blueprint

namespace Grammar

def below (g : Grammar S A) (id : NodeId) (path : List String) : Option NodeId :=
  path.foldlM (fun id name => (g.node id).byName.find? name) id

theorem below_cons (g : Grammar S A) (id : NodeId) (name : String) (path : List String) :
    g.below id (name :: path) = ((g.node id).byName.find? name).bind (g.below · path) := rfl

theorem find?_append (g : Grammar S A) (front path : List String) :
    g.find? (front ++ path) = (g.find? front).bind (g.below · path) := by
  simp only [find?, below, List.foldlM_append]
  rfl

end Grammar

/-- A blueprint stands at a node: exactly the paths of names in it lead on from there, each to a node
made from what it leads to in the blueprint. -/
structure Blueprint.StandsAt (g : Grammar S A) (b : Blueprint S A) (id : NodeId) : Prop where
  found : ∀ path b', b.at? path = some b' → ∃ n, g.below id path = some n ∧ b'.Makes g n
  absent : ∀ path, b.at? path = none → g.below id path = none

namespace Grammar

variable {g h k : Grammar S A} {parent id : NodeId} {b : Blueprint S A}

structure Around (parent : NodeId) (g h : Grammar S A) : Prop where
  count : g.nodeCount ≤ h.nodeCount
  others : ∀ id < g.nodeCount, id ≠ parent → h.node? id = g.node? id
  role : (h.node parent).role = (g.node parent).role
  attributes : (h.node parent).toAttributes = (g.node parent).toAttributes

namespace Around

theorem refl (parent : NodeId) (g : Grammar S A) : Around parent g g :=
  ⟨Nat.le_refl _, fun _ _ _ => rfl, rfl, rfl⟩

theorem trans (first : Around parent g h) (second : Around parent h k) : Around parent g k where
  count := Nat.le_trans first.count second.count
  others id known other :=
    (second.others id (Nat.lt_of_lt_of_le known first.count) other).trans (first.others id known other)
  role := second.role.trans first.role
  attributes := second.attributes.trans first.attributes

theorem node_eq (around : Around parent g h) (known : id < g.nodeCount) (other : id ≠ parent) :
    h.node id = g.node id := by
  rw [node, node, around.others id known other]

theorem role_eq (around : Around parent g h) (known : id < g.nodeCount) :
    (h.node id).role = (g.node id).role := by
  by_cases here : id = parent
  · exact here ▸ around.role
  · rw [around.node_eq known here]

theorem attributes_eq (around : Around parent g h) (known : id < g.nodeCount) :
    (h.node id).toAttributes = (g.node id).toAttributes := by
  by_cases here : id = parent
  · exact here ▸ around.attributes
  · rw [around.node_eq known here]

theorem makesMember (around : Around parent g h) {entry : String × NodeId}
    (makes : b.MakesMember g entry) : b.MakesMember h entry where
  known := Nat.lt_of_lt_of_le makes.known around.count
  attributes := (around.attributes_eq makes.known).trans makes.attributes
  made := by
    obtain ⟨type, plain, role⟩ := makes.made
    exact ⟨type, plain, (around.role_eq makes.known).trans role⟩

theorem makesRole (around : Around parent g h) {role : Role S A} (makes : b.MakesRole g role) :
    b.MakesRole h role := by
  cases b with
  | literal name attributes children => exact makes
  | argument name type attributes children => exact makes
  | composed members attributes children =>
    obtain ⟨entries, role, made⟩ := makes
    exact ⟨entries, role, made.imp fun _ _ => around.makesMember⟩

theorem makes (around : Around parent g h) (makes : b.Makes g id) : b.Makes h id where
  known := Nat.lt_of_lt_of_le makes.known around.count
  attributes := (around.attributes_eq makes.known).trans makes.attributes
  role := by
    rw [around.role_eq makes.known]
    exact around.makesRole makes.role

theorem below_eq (around : Around parent g h) (sound : g.Sound) (forest : g.Forest)
    (later : parent < id) (known : id < g.nodeCount) (path : List String) :
    h.below id path = g.below id path := by
  induction path generalizing id with
  | nil => rfl
  | cons name rest ih =>
    rw [below_cons, below_cons, around.node_eq known (Nat.ne_of_gt later)]
    cases found : (g.node id).byName.find? name with
    | none => rfl
    | some n =>
      have child := (((sound.indexed_node id).byName name n).mp found).1
      exact ih (Nat.lt_trans later (forest.later id n child)) (sound.child_lt child)

theorem standsAt (around : Around parent g h) (sound : g.Sound) (forest : g.Forest)
    (later : parent < id) (known : id < g.nodeCount) (stands : b.StandsAt g id) : b.StandsAt h id where
  found path b' leads := by
    obtain ⟨n, found, makes⟩ := stands.found path b' leads
    exact ⟨n, (around.below_eq sound forest later known path).trans found, around.makes makes⟩
  absent path leads := (around.below_eq sound forest later known path).trans (stands.absent path leads)

end Around

theorem Forest.le_of_below (forest : g.Forest) (sound : g.Sound) {path : List String} {n : NodeId}
    (found : g.below id path = some n) : id ≤ n := by
  induction path generalizing id with
  | nil => exact Nat.le_of_eq (Option.some.inj found)
  | cons name rest ih =>
    rw [below_cons] at found
    obtain ⟨child, named, further⟩ := Option.bind_eq_some_iff.mp found
    have member := (((sound.indexed_node id).byName name child).mp named).1
    exact Nat.le_trans (Nat.le_of_lt (forest.later id child member)) (ih further)

theorem Sound.lt_of_below (sound : g.Sound) {path : List String} {n : NodeId} (known : id < g.nodeCount)
    (found : g.below id path = some n) : n < g.nodeCount := by
  induction path generalizing id with
  | nil => exact Option.some.inj found ▸ known
  | cons name rest ih =>
    rw [below_cons] at found
    obtain ⟨child, named, further⟩ := Option.bind_eq_some_iff.mp found
    exact ih (sound.child_lt (((sound.indexed_node id).byName name child).mp named).1) further

-- The way to the changed node passes only nodes before it.
theorem Around.below_parent (around : Around parent g h) (sound : g.Sound) (forest : g.Forest)
    (known : parent < g.nodeCount) {path : List String} (found : g.below id path = some parent) :
    h.below id path = some parent := by
  induction path generalizing id with
  | nil => exact found
  | cons name rest ih =>
    rw [below_cons] at found ⊢
    obtain ⟨child, named, further⟩ := Option.bind_eq_some_iff.mp found
    have member := (((sound.indexed_node id).byName name child).mp named).1
    have before : id < parent :=
      Nat.lt_of_lt_of_le (forest.later id child member) (forest.le_of_below sound further)
    rw [around.node_eq (Nat.lt_trans before known) (Nat.ne_of_lt before), named]
    exact ih further

end Grammar

theorem Blueprint.StandsAt.of_children {g : Grammar S A} {b : Blueprint S A} {id : NodeId}
    (makes : b.Makes g id)
    (named : ∀ name b', lastNamed b.children name = some b' →
      ∃ n, (g.node id).byName.find? name = some n ∧ b'.StandsAt g n)
    (unnamed : ∀ name, lastNamed b.children name = none → (g.node id).byName.find? name = none) :
    b.StandsAt g id where
  found path b' leads := by
    cases path with
    | nil =>
      obtain rfl : b = b' := Option.some.inj leads
      exact ⟨id, rfl, makes⟩
    | cons name rest =>
      obtain ⟨child, last, further⟩ := Option.bind_eq_some_iff.mp leads
      obtain ⟨n, found, stands⟩ := named name child last
      rw [Grammar.below_cons, found]
      exact stands.found rest b' further
  absent path leads := by
    cases path with
    | nil => simp [at?] at leads
    | cons name rest =>
      rw [Grammar.below_cons]
      cases last : lastNamed b.children name with
      | none => rw [unnamed name last, Option.bind_none]
      | some child =>
        obtain ⟨n, found, stands⟩ := named name child last
        rw [found]
        refine stands.absent rest ?_
        simpa [at?, last] using leads

namespace Grammar

variable {g h : Grammar S A} {parent id : NodeId} {b : Blueprint S A}

section Placing

theorem Registered.of_andThen_ok {α β : Type} {r : Registered S A α}
    {next : Grammar S A → α → Registered S A β} {b : β} (ok : (r.andThen next).2 = .ok b) :
    ∃ a, r.2 = .ok a ∧ r.andThen next = next r.1 a := by
  cases answer : r.2 with
  | error e => simp [Registered.andThen_of_error answer] at ok
  | ok a => exact ⟨a, rfl, Registered.andThen_of_ok answer next⟩

theorem around_of_prefix_nodes (first : g.nodes <+: h.nodes) (known : parent < g.nodeCount) :
    Around parent g h := by
  have same : h.node parent = g.node parent := node_of_prefix_nodes first known
  exact ⟨first.length_le, fun id known _ => node?_of_prefix_nodes first known, by rw [same],
    by rw [same]⟩

theorem addMembers_makes {bs : List (Blueprint S A)} {entries : List (String × NodeId)}
    (ok : (g.addMembers bs).2 = .ok entries) :
    (g.addMembers bs).1.nodeCount = g.nodeCount + Blueprint.sizes bs ∧
      List.Forall₂ (Blueprint.MakesMember (g.addMembers bs).1) bs entries := by
  induction bs generalizing g entries with
  | nil =>
    obtain rfl : [] = entries := Except.ok.inj ok
    exact ⟨rfl, .nil⟩
  | cons b rest ih =>
    rw [addMembers] at ok ⊢
    obtain ⟨entry, first, step⟩ := Registered.of_andThen_ok ok
    rw [step] at ok ⊢
    obtain ⟨others, later, step⟩ := Registered.of_andThen_ok ok
    rw [step] at ok ⊢
    obtain rfl : entry :: others = entries := Except.ok.inj ok
    obtain ⟨sum, made⟩ := ih later
    rcases addMember_cases g b with ⟨error, refused⟩ | ⟨name, type, attributes, rfl, -, added⟩
    · simp [refused] at first
    · rw [added] at first sum made ⊢
      obtain rfl : (name, g.nodeCount) = entry := Except.ok.inj first
      have new := g.node?_push_self (.ofRole (.argument name type) attributes)
      have count := g.nodeCount_push (.ofRole (.argument name type) attributes)
      generalize (g.push (.ofRole (.argument name type) attributes)).1 = pushed at new count sum made ⊢
      have onward := pushed.prefix_addMembers rest
      have known : g.nodeCount < pushed.nodeCount := count ▸ Nat.lt_succ_self _
      have same : (pushed.addMembers rest).1.node g.nodeCount =
          .ofRole (.argument name type) attributes := by
        rw [node_of_prefix_nodes onward known, node_of_node? new]
      refine ⟨?_, .cons ⟨Nat.lt_of_lt_of_le known onward.length_le, ?_, type, rfl, ?_⟩ made⟩
      · rw [sum, count, Blueprint.sizes, Blueprint.size, Blueprint.sizes, Nat.add_assoc]
      · rw [same]
        rfl
      · rw [same]
        rfl

theorem settle_makes {role : Role S A} (ok : (g.settle b).2 = .ok role) :
    (g.settle b).1.nodeCount + 1 + Blueprint.sizes b.children = g.nodeCount + b.size ∧
      b.MakesRole (g.settle b).1 role := by
  cases b with
  | literal name attributes children =>
    exact ⟨Nat.add_assoc .., (Except.ok.inj ok).symm⟩
  | argument name type attributes children =>
    exact ⟨Nat.add_assoc .., (Except.ok.inj ok).symm⟩
  | composed members attributes children =>
    simp only [settle, Blueprint.children, Blueprint.size] at ok ⊢
    cases answer : (g.addMembers members).2 with
    | error error => simp [addComposed, Registered.andThen_of_error answer] at ok
    | ok entries =>
      obtain ⟨count, made⟩ := addMembers_makes answer
      rw [addComposed, Registered.andThen_of_ok answer] at ok ⊢
      exact ⟨by rw [count]; omega, entries, (Except.ok.inj ok).symm, made⟩

theorem node?_attach_of_ne {child : NodeId} (other : id ≠ parent) :
    (g.attach parent child).node? id = g.node? id := by
  rw [node?_attach]
  simp [Ne.symm other]

theorem node_attach_self (child : NodeId) (known : parent < g.nodeCount) :
    (g.attach parent child).node parent = (g.node parent).adopt (g.node child) child := by
  have found : g.node? parent = some g.nodes[parent] := List.getElem?_eq_getElem known
  rw [node_of_node? found, node, node?_attach, found]
  simp

theorem around_attach_push {k : Grammar S A} (first : g.nodes <+: k.nodes) (known : parent < g.nodeCount)
    (n : Node S A) :
    Around parent g ((k.push n).1.attach parent k.nodeCount) ∧
      ((k.push n).1.attach parent k.nodeCount).node parent = (g.node parent).adopt n k.nodeCount ∧
      ((k.push n).1.attach parent k.nodeCount).node k.nodeCount = n := by
  have onward : g.nodes <+: (k.push n).1.nodes := first.trans (k.prefix_push n)
  have new : (k.push n).1.node k.nodeCount = n := node_of_node? (node?_push_self k n)
  have apart : k.nodeCount ≠ parent := Nat.ne_of_gt (Nat.lt_of_lt_of_le known first.length_le)
  have around := around_of_prefix_nodes onward known
  have adopted : ((k.push n).1.attach parent k.nodeCount).node parent =
      ((k.push n).1.node parent).adopt n k.nodeCount := by
    rw [node_attach_self _ (Nat.lt_of_lt_of_le known onward.length_le), new]
  have same : (k.push n).1.node parent = g.node parent := node_of_prefix_nodes onward known
  refine ⟨⟨?_, ?_, ?_, ?_⟩, same ▸ adopted, ?_⟩
  · rw [nodeCount_attach]
    exact around.count
  · intro id known other
    rw [node?_attach_of_ne other]
    exact around.others id known other
  · rw [role_attach, same]
  · rw [toAttributes_attach, same]
  · rw [node, node?_attach_of_ne apart, ← node, new]

end Placing

section Registration

def Adopts (g h : Grammar S A) (parent : NodeId) (b : Blueprint S A) (id : NodeId) : Prop :=
  ∃ child : Node S A, child.name = b.name ∧ child.isLiteral = b.isLiteral ∧
    h.node parent = (g.node parent).adopt child id

structure Grows (g h : Grammar S A) (parent : NodeId) (b : Blueprint S A) (id : NodeId) : Prop where
  fresh : g.nodeCount ≤ id
  count : h.nodeCount = g.nodeCount + b.size
  adopts : Adopts g h parent b id
  stands : b.StandsAt h id

structure GrowsBelow (g h : Grammar S A) (parent : NodeId) (bs : List (Blueprint S A)) : Prop where
  count : h.nodeCount = g.nodeCount + Blueprint.sizes bs
  named : ∀ name b, Blueprint.lastNamed bs name = some b →
    ∃ n, (h.node parent).byName.find? name = some n ∧ b.StandsAt h n
  unnamed : ∀ name, Blueprint.lastNamed bs name = none →
    (h.node parent).byName.find? name = (g.node parent).byName.find? name

structure Placed (g h : Grammar S A) (parent : NodeId) (b : Blueprint S A) (id : NodeId) : Prop where
  known : parent < g.nodeCount
  fresh : g.nodeCount ≤ id
  count : h.nodeCount + Blueprint.sizes b.children = g.nodeCount + b.size
  around : Around parent g h
  adopts : Adopts g h parent b id
  makes : b.Makes h id
  empty : (h.node id).byName = .empty

structure Registers (g : Grammar S A) (parent : NodeId) (b : Blueprint S A)
    (r : Registered S A NodeId) : Prop where
  around : Around parent g r.1
  adopts : r.1.node parent = g.node parent ∨ ∃ id, Adopts g r.1 parent b id
  ok : ∀ id, r.2 = .ok id → Grows g r.1 parent b id

structure RegistersBelow (g : Grammar S A) (parent : NodeId) (bs : List (Blueprint S A))
    (r : Registered S A NodeId) : Prop where
  around : Around parent g r.1
  ok : ∀ id, r.2 = .ok id → id = parent ∧ GrowsBelow g r.1 parent bs

theorem Adopts.held (adopts : Adopts g h parent b id) :
    (h.node parent).byName.find? b.name = some id := by
  obtain ⟨child, name, -, adopted⟩ := adopts
  rw [adopted, Node.Indexed.find?_byName_adopt, if_pos name.symm]

theorem Adopts.byName_eq (adopts : Adopts g h parent b id) {other : String} (different : other ≠ b.name) :
    (h.node parent).byName.find? other = (g.node parent).byName.find? other := by
  obtain ⟨child, name, -, adopted⟩ := adopts
  rw [adopted, Node.Indexed.find?_byName_adopt, if_neg (name ▸ different)]

theorem lastNamed_cons (b : Blueprint S A) (rest : List (Blueprint S A)) (name : String) :
    Blueprint.lastNamed (b :: rest) name =
      (Blueprint.lastNamed rest name).or (if b.name = name then some b else none) := by
  rw [Blueprint.lastNamed, List.reverse_cons, List.find?_append, ← Blueprint.lastNamed]
  congr 1
  by_cases same : b.name = name <;> simp [same]

theorem Grows.below {k : Grammar S A} {bs : List (Blueprint S A)} (first : Grows g h parent b id)
    (sound : h.Sound) (forest : h.Forest) (around : Around parent h k) (later : GrowsBelow h k parent bs) :
    GrowsBelow g k parent (b :: bs) where
  count := by rw [later.count, first.count, Blueprint.sizes, Nat.add_assoc]
  named name b' last := by
    rw [lastNamed_cons] at last
    cases again : Blueprint.lastNamed bs name with
    | some c =>
      obtain rfl : c = b' := by simpa [again] using last
      exact later.named name c again
    | none =>
      obtain ⟨rfl, rfl⟩ : b.name = name ∧ b = b' := by simpa [again] using last
      have held := first.adopts.held
      have child := (((sound.indexed_node parent).byName _ id).mp held).1
      exact ⟨id, (later.unnamed _ again).trans held,
        around.standsAt sound forest (forest.later parent id child) (sound.child_lt child) first.stands⟩
  unnamed name absent := by
    rw [lastNamed_cons, Option.or_eq_none_iff] at absent
    have different : b.name ≠ name := by simpa using absent.2
    exact (later.unnamed name absent.1).trans (first.adopts.byName_eq (Ne.symm different))

theorem named_of_makesRole {role : Role S A} (makes : b.MakesRole g role) (attributes : Attributes S A) :
    (Node.ofRole role attributes).name = b.name ∧
      (Node.ofRole role attributes).isLiteral = b.isLiteral := by
  cases b with
  | literal name _ _ =>
    obtain rfl : role = .literal name := makes
    exact ⟨rfl, rfl⟩
  | argument name type _ _ =>
    obtain rfl : role = .argument name type := makes
    exact ⟨rfl, rfl⟩
  | composed members _ _ =>
    obtain ⟨entries, rfl, -⟩ := makes
    exact ⟨rfl, rfl⟩

theorem Around.onward {k : Grammar S A} (first : Around parent g h) (second : Around id h k)
    (fresh : g.nodeCount ≤ id) (known : parent < g.nodeCount) :
    Around parent g k ∧ k.node parent = h.node parent := by
  have kept {other : NodeId} (known : other < g.nodeCount) : k.node? other = h.node? other :=
    second.others other (Nat.lt_of_lt_of_le known first.count)
      (Nat.ne_of_lt (Nat.lt_of_lt_of_le known fresh))
  have same : k.node parent = h.node parent := by rw [node, node, kept known]
  refine ⟨⟨Nat.le_trans first.count second.count, ?_, ?_, ?_⟩, same⟩
  · intro other known apart
    exact (kept known).trans (first.others other known apart)
  · rw [same, first.role]
  · rw [same, first.attributes]

theorem place_settle_cases (g : Grammar S A) (parent : NodeId) (b : Blueprint S A) :
    (∃ error, (g.place parent b.attributes (·.settle b)).2 = .error error ∧
      Around parent g (g.place parent b.attributes (·.settle b)).1 ∧
      (g.place parent b.attributes (·.settle b)).1.node parent = g.node parent) ∨
    ∃ id, (g.place parent b.attributes (·.settle b)).2 = .ok id ∧
      Placed g (g.place parent b.attributes (·.settle b)).1 parent b id := by
  have first := g.prefix_settle b
  rcases place_cases g parent b.attributes (·.settle b) with
    ⟨error, refused⟩ | ⟨error, known, refused⟩ | ⟨role, answer, known, -, -, answered, placed⟩
  · rw [refused]
    exact .inl ⟨error, rfl, .refl parent g, rfl⟩
  · rw [refused]
    exact .inl ⟨error, rfl, around_of_prefix_nodes first known, node_of_prefix_nodes first known⟩
  · obtain ⟨count, makes⟩ := settle_makes answer
    refine .inr ⟨_, answered, ?_⟩
    rw [placed]
    generalize (g.settle b).1 = k at first count makes
    obtain ⟨around, adopted, new⟩ := around_attach_push first known (.ofRole role b.attributes)
    have known' : parent < k.nodeCount := Nat.lt_of_lt_of_le known first.length_le
    have beside := (around_attach_push List.prefix_rfl known' (.ofRole role b.attributes)).1
    have taken : ((k.push (.ofRole role b.attributes)).1.attach parent k.nodeCount).nodeCount =
        k.nodeCount + 1 := by
      rw [nodeCount_attach, nodeCount_push]
    obtain ⟨name, literal⟩ := named_of_makesRole makes b.attributes
    refine ⟨known, first.length_le, by rw [taken, count], around, ⟨_, name, literal, adopted⟩, ?_, ?_⟩
    · exact ⟨taken ▸ Nat.lt_succ_self _, by rw [new]; rfl, by rw [new]; exact beside.makesRole makes⟩
    · rw [new]
      rfl

theorem Placed.grows {k : Grammar S A} (placed : Placed g h parent b id) (inside : Around id h k)
    (below : GrowsBelow h k id b.children) : Grows g k parent b id where
  fresh := placed.fresh
  count := by rw [below.count, placed.count]
  adopts := by
    obtain ⟨child, name, literal, adopted⟩ := placed.adopts
    exact ⟨child, name, literal,
      (placed.around.onward inside placed.fresh placed.known).2.trans adopted⟩
  stands := by
    refine .of_children (inside.makes placed.makes) below.named fun name absent => ?_
    rw [below.unnamed name absent, placed.empty, NameIndex.find?_empty]

theorem registers_of_below (sound : g.Sound) (forest : g.Forest)
    (below : ∀ (h : Grammar S A) id, h.Sound → h.Forest →
      RegistersBelow h id b.children (h.registerBelow id b.children)) :
    Registers g parent b (g.register parent b) := by
  have sound' := sound.place_settle parent b
  have forest' := forest.place_settle sound parent b
  rw [register_eq]
  rcases place_settle_cases g parent b with ⟨error, refused, around, same⟩ | ⟨id, answered, placed⟩
  · rw [Registered.andThen_of_error refused]
    exact ⟨around, .inl same, by simp⟩
  · rw [Registered.andThen_of_ok answered]
    generalize (g.place parent b.attributes (·.settle b)).1 = h at sound' forest' placed
    obtain ⟨inside, grown⟩ := below h id sound' forest'
    obtain ⟨outside, same⟩ := placed.around.onward inside placed.fresh placed.known
    obtain ⟨child, name, literal, adopted⟩ := placed.adopts
    refine ⟨outside, .inr ⟨id, child, name, literal, same.trans adopted⟩, fun id' ok => ?_⟩
    obtain ⟨rfl, grown⟩ := grown id' ok
    exact placed.grows inside grown

theorem registers (sound : g.Sound) (forest : g.Forest) (parent : NodeId) (b : Blueprint S A) :
    Registers g parent b (g.register parent b) := by
  refine (register.mutual_induct
    (fun g parent b => g.Sound → g.Forest → Registers g parent b (g.register parent b))
    (fun g parent bs => g.Sound → g.Forest → RegistersBelow g parent bs (g.registerBelow parent bs))
    ?literal ?argument ?composed ?nil ?cons).1 g parent b sound forest
  case literal =>
    intro g parent name attributes children below sound forest
    exact registers_of_below sound forest below
  case argument =>
    intro g parent name type attributes children below sound forest
    exact registers_of_below sound forest below
  case composed =>
    intro g parent members attributes children below sound forest
    exact registers_of_below sound forest below
  case nil =>
    intro g parent sound forest
    refine ⟨.refl parent g, fun id ok => ⟨(Except.ok.inj ok).symm, rfl, ?_, fun name absent => rfl⟩⟩
    simp [Blueprint.lastNamed]
  case cons =>
    intro g parent b rest first others sound forest
    have step := first sound forest
    have later := others (g.register parent b).1 (sound.register parent b)
      (forest.register sound parent b)
    rw [registerBelow]
    refine ⟨?_, fun id ok => ?_⟩
    · exact Registered.fst_andThen (P := Around parent g) step.around
        fun _ _ => step.around.trans later.around
    · obtain ⟨n, done, onward⟩ := Registered.of_andThen_ok ok
      rw [onward] at ok ⊢
      obtain ⟨rfl, below⟩ := later.ok id ok
      exact ⟨rfl, (step.ok n done).below (sound.register _ b) (forest.register sound _ b)
        later.around below⟩

end Registration

section Outcome

/-- What registering something below a parent leaves as it was, whether or not it goes through: all
other nodes, and of the parent everything but the child of that name. -/
structure Spares (parent : NodeId) (name : String) (g h : Grammar S A) : Prop
    extends Around parent g h where
  byName : ∀ other, other ≠ name →
    (h.node parent).byName.find? other = (g.node parent).byName.find? other
  literals : ∀ other, other ≠ name →
    (h.node parent).literals.find? other = (g.node parent).literals.find? other
  places : ∀ (k : Nat) child, (g.node parent).children[k]? = some child → (g.node child).name ≠ name →
    (h.node parent).children[k]? = some child

structure Plants (g h : Grammar S A) (parent : NodeId) (b : Blueprint S A) (id : NodeId) : Prop where
  count : h.nodeCount = g.nodeCount + b.size
  fresh : g.nodeCount ≤ id
  held : (h.node parent).byName.find? b.name = some id
  literal : (h.node parent).literals.find? b.name = if b.isLiteral then some id else none
  inPlace : ∀ previous, (g.node parent).byName.find? b.name = some previous →
    ∃ before after, (g.node parent).children = before ++ previous :: after ∧
      (h.node parent).children = before ++ id :: after
  last : (g.node parent).byName.find? b.name = none →
    (h.node parent).children = (g.node parent).children ++ [id]
  stands : b.StandsAt h id
  find : ∀ front, g.find? front = some parent →
    ∀ path, h.find? (front ++ b.name :: path) = h.below id path

theorem Adopts.places (adopts : Adopts g h parent b id) (sound : g.Sound) {k : Nat} {child : NodeId}
    (here : (g.node parent).children[k]? = some child) (different : (g.node child).name ≠ b.name) :
    (h.node parent).children[k]? = some child := by
  obtain ⟨new, name, -, adopted⟩ := adopts
  cases found : (g.node parent).byName.find? new.name with
  | none =>
    have inside := (List.getElem?_eq_some_iff.mp here).1
    simp only [adopted, Node.adopt, found, List.getElem?_append_left inside, here]
  | some previous =>
    have named := (((sound.indexed_node parent).byName _ previous).mp found).2
    have other : child ≠ previous := by
      rintro rfl
      exact different (named.trans name)
    simp [adopted, Node.adopt, found, List.getElem?_replace, here, other]

theorem Adopts.literals_eq (adopts : Adopts g h parent b id) (sound : g.Sound) (name : String) :
    (h.node parent).literals.find? name = if name = b.name then if b.isLiteral then some id else none
      else (g.node parent).literals.find? name := by
  obtain ⟨child, named, literal, adopted⟩ := adopts
  rw [adopted, (sound.indexed_node parent).find?_literals_adopt, named, literal]

theorem Adopts.inPlace (adopts : Adopts g h parent b id) (sound : g.Sound) {previous : NodeId}
    (found : (g.node parent).byName.find? b.name = some previous) :
    ∃ before after, (g.node parent).children = before ++ previous :: after ∧
      (h.node parent).children = before ++ id :: after := by
  obtain ⟨child, named, -, adopted⟩ := adopts
  have indexed := sound.indexed_node parent
  obtain ⟨before, after, split, replaced⟩ :=
    Node.replace_split indexed.nodup ((indexed.byName _ previous).mp found).1 id
  refine ⟨before, after, split, ?_⟩
  simp only [adopted, Node.adopt, named, found, replaced]

theorem Adopts.last (adopts : Adopts g h parent b id)
    (absent : (g.node parent).byName.find? b.name = none) :
    (h.node parent).children = (g.node parent).children ++ [id] := by
  obtain ⟨child, named, -, adopted⟩ := adopts
  simp only [adopted, Node.adopt, named, absent]

/-- Registering changes none of the nodes that are there but the parent, and of the parent only the child
of the blueprint's name, whether or not it goes through. If it does, the new nodes are those of the
blueprint, and the paths in it lead to them, the last of several children with one name winning. -/
theorem Reachable.register_plants (reachable : g.Reachable) (parent : NodeId) (b : Blueprint S A) :
    Spares parent b.name g (g.register parent b).1 ∧
      ∀ id, (g.register parent b).2 = .ok id → Plants g (g.register parent b).1 parent b id := by
  have sound := reachable.sound
  have forest := reachable.forest
  obtain ⟨around, changed, ok⟩ := registers sound forest parent b
  refine ⟨⟨around, ?_, ?_, ?_⟩, fun id done => ?_⟩
  · intro other different
    rcases changed with same | ⟨id, adopts⟩
    · rw [same]
    · exact adopts.byName_eq different
  · intro other different
    rcases changed with same | ⟨id, adopts⟩
    · rw [same]
    · rw [adopts.literals_eq sound, if_neg different]
  · intro k child here different
    rcases changed with same | ⟨id, adopts⟩
    · rw [same, here]
    · exact adopts.places sound here different
  · obtain ⟨fresh, count, adopts, stands⟩ := ok id done
    refine ⟨count, fresh, adopts.held, ?_, fun previous => adopts.inPlace sound, adopts.last, stands, ?_⟩
    · rw [adopts.literals_eq sound, if_pos rfl]
    · intro front found path
      have reached : (g.register parent b).1.find? front = some parent :=
        around.below_parent sound forest (sound.lt_of_below sound.nodeCount_pos found) found
      rw [find?_append, reached, Option.bind_some, below_cons, adopts.held, Option.bind_some]

end Outcome

end Grammar

namespace Demo

def echoes : Blueprint User Deed :=
  .literal "echo" {}
    [.literal "twice" {} [.literal "now" {} []], .literal "twice" {} [.literal "later" {} []]]

theorem register_echoes :
    Grammar.Plants grammar (grammar.register .root echoes).1 .root echoes 16 ∧
      (grammar.register .root echoes).1.find? ["echo", "twice", "later"] = some 20 ∧
      (grammar.register .root echoes).1.find? ["echo", "twice", "now"] = none :=
  ⟨(reachable_grammar.register_plants .root echoes).2 16 rfl, by decide, by decide⟩

end Demo

end CommandGrammar
