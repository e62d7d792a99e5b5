import CommandGrammar.Completion.Query
import CommandGrammar.Demo.Commands
import CommandGrammar.Execution
import CommandGrammar.Proofs.Grammar.Forest
import CommandGrammar.Usage

set_option autoImplicit false

namespace CommandGrammar

variable {S A E : Type}

theorem Node.matchWord_congr {m n : Node S A} (role : m.role = n.role) (id : NodeId) (c : Context S A)
    (i : Input) : m.matchWord id c i = n.matchWord id c i := by
  simp only [matchWord, role]

theorem Node.composed?_congr {m n : Node S A} (role : m.role = n.role) : m.composed? = n.composed? := by
  simp only [composed?, role]

theorem Grammar.readers_congr {g h : Grammar S A} (roles : ∀ id, (h.node id).role = (g.node id).role) :
    h.readers = g.readers := by
  refine Readers.ext (funext fun m => Grammar.name_congr (roles m)) ?_
  funext m c i
  exact Node.matchWord_congr (roles m) m c i

namespace Grammar

structure SameButMembers (g h : Grammar S A) : Prop where
  count : h.nodeCount = g.nodeCount
  node : ∀ id, h.node id = { g.node id with requirement := (h.node id).requirement }
  requirement : ∀ id, ¬ g.IsMember id → (h.node id).requirement = (g.node id).requirement

namespace SameButMembers

variable {g h : Grammar S A} (same : g.SameButMembers h)
include same

theorem role_eq (id : NodeId) : (h.node id).role = (g.node id).role := by
  rw [same.node id]

theorem name_eq (id : NodeId) : (h.node id).name = (g.node id).name := name_congr (same.role_eq id)

theorem children_eq (id : NodeId) : (h.node id).children = (g.node id).children := by
  rw [same.node id]

theorem description_eq (id : NodeId) : (h.node id).description = (g.node id).description := by
  rw [same.node id]

theorem usableBy_eq {id : NodeId} (free : ¬ g.IsMember id) (source : S) :
    (h.node id).usableBy source = (g.node id).usableBy source := by
  rw [Node.usableBy, Node.usableBy, same.requirement id free]

theorem relevant_eq (id : NodeId) (i : Input) : h.relevant id i = g.relevant id i := by
  have literals : (h.node id).literals = (g.node id).literals := by rw [same.node id]
  simp only [relevant, literals, same.children_eq, Node.isArgument, same.role_eq]

theorem filter_usableBy {ids : List NodeId} (forest : g.Forest) {id : NodeId}
    (children : ∀ child ∈ ids, child ∈ (g.node id).children) (source : S) :
    (ids.filter fun child => (h.node child).usableBy source) =
      ids.filter fun child => (g.node child).usableBy source :=
  List.filter_congr fun child among => same.usableBy_eq (forest.not_isMember (children child among)) source

theorem tryChild_eq (below : NodeId → Context S A → Input → Parse S A) (c : Context S A) (i : Input)
    (id : NodeId) : h.tryChild below c i id = g.tryChild below c i id := by
  have settle : (h.node id).settle = (g.node id).settle := by
    rw [same.node id]
    rfl
  have redirect : (h.node id).redirect = (g.node id).redirect := by rw [same.node id]
  have composed (members : Composed) : (h.node id).matchComposed h id members c i =
      (g.node id).matchComposed g id members c i := by
    simp only [Node.matchComposed, Grammar.readers_congr same.role_eq, settle]
  have child : (h.node id).matchChild id c i = (g.node id).matchChild id c i := by
    simp only [Node.matchChild, Node.matchWord_congr (same.role_eq id), settle]
  simp only [tryChild, Node.composed?_congr (same.role_eq id), composed, child, redirect]

theorem parseWithin_eq (sound : g.Sound) (forest : g.Forest) (depth : Nat) (id : NodeId)
    (c : Context S A) (i : Input) : h.parseWithin depth id c i = g.parseWithin depth id c i := by
  induction depth generalizing id c i with
  | zero => rfl
  | succ depth ih =>
    have below : h.parseWithin depth = g.parseWithin depth := by
      funext id c i
      exact ih id c i
    have tried : h.tryChild (h.parseWithin depth) c i = g.tryChild (g.parseWithin depth) c i := by
      funext child
      rw [below, same.tryChild_eq]
    have candidates : h.candidates id c.source i = g.candidates id c.source i := by
      rw [Grammar.candidates, Grammar.candidates, same.relevant_eq]
      exact same.filter_usableBy forest (fun child => sound.mem_children_of_mem_relevant) c.source
    rw [parseWithin, parseWithin, tried, candidates]

theorem complete_eq (id : NodeId) (c : Context S A) (draft : Draft) :
    h.complete id c draft = g.complete id c draft := by
  simp only [complete, same.role_eq, same.description_eq]

theorem branches_eq (forest : g.Forest) (c : Context S A) (parent : Matched) (draft : Draft) :
    h.branches c parent draft = g.branches c parent draft := by
  have flag (id : NodeId) : h.flag id = g.flag id := by rw [Grammar.flag, Grammar.flag, same.name_eq]
  cases parent with
  | node id =>
    simp only [branches, same.children_eq, same.complete_eq]
    rw [same.filter_usableBy forest (fun _ member => member)]
  | afterValue | flagValue =>
    simp only [branches, completePlace, same.complete_eq, flag, same.description_eq]

theorem node?_eq (id : NodeId) :
    h.node? id = (g.node? id).map fun n => { n with requirement := (h.node id).requirement } := by
  cases found : g.node? id with
  | some n =>
    have known : id < h.nodeCount := same.count ▸ node?_lt found
    have there : h.node? id = some h.nodes[id] := List.getElem?_eq_getElem known
    rw [there, ← node_of_node? there, Option.map_some, same.node id, node_of_node? found]
  | none =>
    have beyond : h.nodeCount ≤ id := same.count ▸ List.getElem?_eq_none_iff.mp found
    exact List.getElem?_eq_none beyond

theorem redirectedSources_eq (c : Context S A) : c.redirectedSources h = c.redirectedSources g := by
  have last : c.lastNode? h = (c.lastNode? g).map fun n =>
      { n with requirement := (h.node (c.toView.lastNode?.getD .root)).requirement } := by
    rw [Context.lastNode?, Context.lastNode?]
    cases c.toView.lastNode? with
    | none => rfl
    | some id => exact same.node?_eq id
  have modifier : c.modifier? h = c.modifier? g := by
    rw [Context.modifier?, Context.modifier?, last]
    cases c.lastNode? g <;> rfl
  have forked : c.isForked h = c.isForked g := by
    rw [Context.isForked, Context.isForked, last]
    cases c.lastNode? g <;> rfl
  simp only [Context.redirectedSources, modifier, forked]

theorem runWaves_eq (i : Input) (perform : Context S A → Action A → Run E Unit) (n : Nat)
    (wave : List (Context S A)) :
    Execution.runWaves h i perform n wave = Execution.runWaves g i perform n wave := by
  have context (c : Context S A) :
      Execution.runContext h i perform c = Execution.runContext g i perform c := by
    simp only [Execution.runContext, same.redirectedSources_eq]
  have single (wave : List (Context S A)) :
      Execution.runWave h i perform wave = Execution.runWave g i perform wave := by
    induction wave with
    | nil => rfl
    | cons c rest ih => simp only [Execution.runWave, context, ih]
  induction n generalizing wave with
  | zero => rfl
  | succ n ih =>
    cases wave with
    | nil => rfl
    | cons c rest => simp only [Execution.runWaves, single, ih]

theorem listedChildren_eq (id : NodeId) : h.listedChildren id = g.listedChildren id := by
  have before : h.listedBefore = g.listedBefore := by
    have literal (id : NodeId) : (h.node id).isLiteral = (g.node id).isLiteral := by
      rw [same.node id]
      rfl
    funext a b
    simp only [listedBefore, same.name_eq, literal]
  rw [listedChildren, listedChildren, before, same.children_eq]

theorem composedLines_eq (path : String) (description : Option String) (ids : List NodeId) :
    Usage.composedLines path description (ids.map h.node) =
      Usage.composedLines path description (ids.map g.node) := by
  simp only [Usage.composedLines, List.map_map, Function.comp_def, same.name_eq, same.description_eq]

theorem brief_eq {id : NodeId} (free : ¬ g.IsMember id) (source : S) (path : String) :
    Usage.brief h source path id = Usage.brief g source path id := by
  have line (path : String) : Usage.briefLine path (h.node id) = Usage.briefLine path (g.node id) := by
    rw [same.node id]
    rfl
  simp only [Usage.brief, same.usableBy_eq free, Node.composed?_congr (same.role_eq id),
    same.description_eq, same.composedLines_eq, Usage.label, same.role_eq, same.name_eq, line]

theorem ownLines_eq (path : String) (id : NodeId) :
    Usage.ownLines path (h.node id) = Usage.ownLines path (g.node id) := by
  rw [same.node id]
  rfl

theorem fullWithin_eq (forest : g.Forest) (source : S) (depth : Nat) (path : String) {id : NodeId}
    (free : ¬ g.IsMember id) :
    Usage.fullWithin h source depth path id = Usage.fullWithin g source depth path id := by
  induction depth generalizing path id with
  | zero => rfl
  | succ depth ih =>
    have below : (g.listedChildren id).flatMap (Usage.fullWithin h source depth
          (path ++ Usage.label (g.node id) ++ " ")) =
        (g.listedChildren id).flatMap (Usage.fullWithin g source depth
          (path ++ Usage.label (g.node id) ++ " ")) :=
      List.flatMap_congr fun child listed => ih _ (forest.not_isMember ((Order.mem_sort _ _ _).mp listed))
    have label : Usage.label (h.node id) = Usage.label (g.node id) := by
      simp only [Usage.label, same.role_eq, same.name_eq]
    simp only [Usage.fullWithin, same.usableBy_eq free, Node.composed?_congr (same.role_eq id),
      same.description_eq, same.composedLines_eq, same.ownLines_eq, same.listedChildren_eq, label, below]

theorem render_eq (forest : g.Forest) (source : S) (path : String) {id : NodeId}
    (free : ¬ g.IsMember id) : Usage.render h source path id = Usage.render g source path id := by
  have children : (g.listedChildren id).flatMap (Usage.brief h source path) =
      (g.listedChildren id).flatMap (Usage.brief g source path) :=
    List.flatMap_congr fun child listed =>
      same.brief_eq (forest.not_isMember ((Order.mem_sort _ _ _).mp listed)) source path
  have root : (h.node id).isRoot = (g.node id).isRoot := isRoot_congr (same.role_eq id)
  simp only [Usage.render, Usage.lines, root, same.usableBy_eq free, same.ownLines_eq,
    same.listedChildren_eq, children, Usage.full, same.count, same.fullWithin_eq forest source _ _ free]

end SameButMembers

/-- Requirements of members make no difference to a parse, a completion, a run or a listing: whatever a
source may not use as a member, it is read, offered and shown like any other. -/
theorem Reachable.members_unasked {g h : Grammar S A} (reachable : g.Reachable)
    (same : g.SameButMembers h) :
    (∀ source i, h.parse source i = g.parse source i) ∧
      (∀ p settings position, Parse.suggest h settings p position = p.suggest g settings position) ∧
      (∀ (perform : Context S A → Action A → Run E Unit) p,
        Parse.execute h perform p = p.execute g perform) ∧
      ∀ source path id, ¬ g.IsMember id →
        Usage.render h source path id = Usage.render g source path id := by
  have forest := reachable.forest
  refine ⟨?_, ?_, ?_, ?_⟩
  · intro source i
    exact same.parseWithin_eq reachable.sound forest _ _ _ _
  · intro p settings position
    simp only [Parse.suggest, same.branches_eq forest]
  · intro perform p
    simp only [Parse.execute, same.runWaves_eq]
  · intro source path id free
    exact same.render_eq forest source path free

end Grammar

namespace Demo

def vault (requirement : Option (User → Bool)) : Grammar User Deed :=
  (Grammar.empty.register .root
    (.literal "vault" {}
      [.composed [.argument "door" .word {} [], .argument "code" .word { requirement } []] {} []])).1

theorem vault_same (r r' : Option (User → Bool)) : (vault r).SameButMembers (vault r') where
  count := rfl
  node
    | 0 | 1 | 2 | 3 | 4 | _ + 5 => rfl
  requirement
    | 0 | 1 | 2 | 4 | _ + 5 => fun _ => rfl
    | 3 => fun free => absurd ⟨4, _, rfl, by decide⟩ free

theorem vault_unasked :
    let guarded := vault (some User.isOperator)
    let guest : User := ⟨"guest", false⟩
    guarded.Reachable ∧ guarded.SameButMembers (vault none) ∧
      (vault none).parse guest (.ofText "vault a b") = guarded.parse guest (.ofText "vault a b") ∧
      (vault none).usage 1 guest = guarded.usage 1 guest := by
  intro guarded guest
  have reachable : guarded.Reachable := .register _ _ .empty
  have same : guarded.SameButMembers (vault none) := vault_same _ _
  obtain ⟨parse, -, -, usage⟩ := reachable.members_unasked (E := String) same
  have child : 1 ∈ (guarded.node 0).children := by decide
  exact ⟨reachable, same, parse guest _, usage guest "" 1 (reachable.forest.not_isMember child)⟩

theorem vault_open :
    let guarded := vault (some User.isOperator)
    let guest : User := ⟨"guest", false⟩
    (guarded.node 3).usableBy guest = false ∧
      (guarded.parse guest (.ofText "vault a b")).context.value? "code" = some (.ofString "b") ∧
      (guarded.parse guest (.ofText "vault --code b")).context.value? "code" = some (.ofString "b") ∧
      (guarded.parse guest (.ofText "vault ")).suggest guarded {} 6 =
        some ⟨⟨6, 6⟩, [⟨⟨6, 6⟩, "--code", none⟩, ⟨⟨6, 6⟩, "--door", none⟩]⟩ ∧
      guarded.usage 1 guest =
        "vault <door> <code>\n      --door <door>\n      --code <code>" := by
  refine ⟨by decide, ?_, ?_, ?_, ?_⟩ <;> decide +kernel

end Demo

end CommandGrammar
