import CommandGrammar.Demo.Commands
import CommandGrammar.Proofs.Grammar.Forest
import CommandGrammar.Proofs.Sorting
import CommandGrammar.Usage

set_option autoImplicit false

namespace CommandGrammar

variable {S A : Type}

namespace Text

def IsLine (line : String) : Prop := line ≠ "" ∧ '\n' ∉ line.toList

structure Consists (text : String) (lines : List String) : Prop where
  joined : text = "\n".intercalate lines
  solid : ∀ line ∈ lines, IsLine line

end Text

namespace Node

structure Plain (n : Node S A) : Prop where
  single : n.isComposed = false
  named : n.name ≠ ""
  name : '\n' ∉ n.name.toList
  description : ∀ text ∈ n.description, '\n' ∉ text.toList

def described (n : Node S A) (text : String) : String :=
  text ++ match n.description with
    | some description => "  -  " ++ description
    | none => ""

def goesOn (n : Node S A) : Bool :=
  if n.hasAction then n.redirect.isSome else n.description.isSome || n.redirect.isSome

def shown (n : Node S A) (path : String) : List String :=
  (if n.hasAction then [n.described path] else []) ++
    (if n.goesOn then [n.described (path ++ " ...")] else [])

variable {n : Node S A} {path line : String}

theorem ownLines_eq (n : Node S A) (path : String) :
    Usage.ownLines path n = (n.shown path).map (· ++ "\n") := by
  cases action : n.hasAction <;> cases redirect : n.redirect <;>
    cases description : n.description <;>
    simp [Usage.ownLines, Usage.line, shown, described, goesOn, action, redirect, description]

theorem described_injective (n : Node S A) {text text' : String}
    (same : n.described text = n.described text') : text = text' := by
  have letters := congrArg String.toList same
  simp only [described, String.toList_append] at letters
  exact String.toList_inj.mp (List.append_cancel_right letters)

theorem nodup_shown (n : Node S A) (path : String) : (n.shown path).Nodup := by
  have apart : n.described path ≠ n.described (path ++ " ...") := by
    intro same
    have letters := congrArg String.length (n.described_injective same)
    simp at letters
  unfold shown
  cases n.hasAction <;> cases n.goesOn <;> simp [apart]

theorem described_mem_shown (action : n.hasAction = true) : n.described path ∈ n.shown path := by
  simp [shown, action]

theorem exists_of_mem_shown (among : line ∈ n.shown path) :
    ∃ mark ∈ ["", " ..."], line = n.described (path ++ mark) := by
  simp only [shown, List.mem_append] at among
  rcases among with among | among <;> split at among <;> simp_all

end Node

namespace Grammar

inductive Way (g : Grammar S A) : NodeId → List NodeId → Prop
  | here (id : NodeId) : Way g id [id]
  | onward {id child : NodeId} {way : List NodeId} (member : child ∈ (g.node id).children)
    (rest : Way g child way) : Way g id (id :: way)

def AtOrBelow (g : Grammar S A) (start id : NodeId) : Prop :=
  Relation.ReflTransGen (fun parent child => child ∈ (g.node parent).children) start id

def opens (g : Grammar S A) (source : S) (way : List NodeId) : Bool :=
  way.all fun id => (g.node id).usableBy source

def ListedFirst (g : Grammar S A) (siblings : List NodeId) (a b : NodeId) : Prop :=
  let m := g.node a
  let n := g.node b
  m.isLiteral = true ∧ n.isLiteral = false ∨
    m.isLiteral = n.isLiteral ∧ (Text.lowercase m.name < Text.lowercase n.name ∨
      Text.lowercase m.name = Text.lowercase n.name ∧ siblings.idxOf a < siblings.idxOf b)

/-- Depth first: a way comes before those that go on from its end, and where two ways part, the one
comes first whose next node is listed first. -/
inductive Precedes (g : Grammar S A) : List NodeId → List NodeId → Prop
  | above (id child : NodeId) (way : List NodeId) : Precedes g [id] (id :: child :: way)
  | beside {id a b : NodeId} (way way' : List NodeId)
    (first : g.ListedFirst (g.node id).children a b) : Precedes g (id :: a :: way) (id :: b :: way')
  | within {way way' : List NodeId} (id : NodeId) (first : Precedes g way way') :
    Precedes g (id :: way) (id :: way')

def pathText (g : Grammar S A) (way : List NodeId) : String :=
  " ".intercalate (way.map fun id => Usage.label (g.node id))

def shownAt (g : Grammar S A) (way : List NodeId) : List String :=
  (way.getLast?.map fun id => (g.node id).shown (g.pathText way)).getD []

def listing (g : Grammar S A) (ways : List (List NodeId)) : List (List NodeId × String) :=
  ways.flatMap fun way => (g.shownAt way).map (way, ·)

variable {g : Grammar S A} {source : S} {id start child : NodeId} {way way' : List NodeId}

section Ways

theorem Way.exists_cons (down : g.Way id way) : ∃ rest, way = id :: rest := by
  cases down with
  | here => exact ⟨[], rfl⟩
  | onward => exact ⟨_, rfl⟩

theorem Way.atOrBelow (down : g.Way start way) (inside : id ∈ way) : g.AtOrBelow start id := by
  induction down with
  | here => rw [List.mem_singleton.mp inside]; exact .refl
  | onward member _ ih =>
    rcases List.mem_cons.mp inside with rfl | inside
    · exact .refl
    · exact .head member (ih inside)

theorem Way.concat (down : g.Way start way) (last : way.getLast? = some id)
    (member : child ∈ (g.node id).children) : g.Way start (way ++ [child]) := by
  induction down with
  | here =>
    cases last
    exact .onward member (.here child)
  | onward next rest ih =>
    obtain ⟨tail, rfl⟩ := rest.exists_cons
    exact .onward next (ih (by simpa using last))

theorem Way.exists_concat (down : g.Way start way) (last : way.getLast? = some id) :
    way = [id] ∧ id = start ∨
      ∃ front parent, way = front ++ [id] ∧ g.Way start front ∧ front.getLast? = some parent ∧
        id ∈ (g.node parent).children := by
  induction down with
  | here =>
    cases last
    exact .inl ⟨rfl, rfl⟩
  | @onward start child way member rest ih =>
    obtain ⟨tail, rfl⟩ := rest.exists_cons
    rcases ih (by simpa using last) with ⟨whole, rfl⟩ | ⟨front, parent, whole, before, ends, above⟩
    · exact .inr ⟨[start], start, by rw [whole]; rfl, .here start, rfl, member⟩
    · obtain ⟨front, rfl⟩ := before.exists_cons
      exact .inr ⟨start :: child :: front, parent, by rw [whole]; rfl, .onward member before,
        by simpa using ends, above⟩

theorem Forest.le_of_atOrBelow (forest : g.Forest) (below : g.AtOrBelow start id) : start ≤ id := by
  rcases Relation.reflTransGen_iff_eq_or_transGen.mp below with rfl | below
  · exact Nat.le_refl _
  · exact Nat.le_of_lt (forest.lt_of_descends below)

theorem Forest.way_unique (forest : g.Forest) (down : g.Way start way) (down' : g.Way start way')
    (last : way.getLast? = some id) (last' : way'.getLast? = some id) : way = way' := by
  -- No way comes back to where it begins.
  have onward {front : List NodeId} {parent : NodeId} (before : g.Way start front)
      (ends : front.getLast? = some parent) (above : start ∈ (g.node parent).children) : False :=
    Nat.lt_irrefl _ (Nat.lt_of_le_of_lt
      (forest.le_of_atOrBelow (before.atOrBelow (List.mem_of_getLast? ends)))
      (forest.later _ _ above))
  induction id using Nat.strongRecOn generalizing way way' with
  | ind id ih =>
    rcases down.exists_concat last with ⟨rfl, rfl⟩ | ⟨front, parent, rfl, before, ends, above⟩
    · rcases down'.exists_concat last' with ⟨rfl, -⟩ | ⟨front', parent', -, before', ends', above'⟩
      · rfl
      · exact (onward before' ends' above').elim
    · rcases down'.exists_concat last' with ⟨-, rfl⟩ | ⟨front', parent', rfl, before', ends', above'⟩
      · exact (onward before ends above).elim
      · obtain rfl := forest.single _ _ _ above above'
        rw [ih parent (forest.later _ _ above) before before' ends ends']

theorem Forest.existsUnique_way (forest : g.Forest) (below : g.AtOrBelow start id) :
    ∃! way, g.Way start way ∧ way.getLast? = some id := by
  have some_way : ∃ way, g.Way start way ∧ way.getLast? = some id := by
    induction below with
    | refl => exact ⟨[start], .here start, rfl⟩
    | tail _ member ih =>
      obtain ⟨way, down, last⟩ := ih
      exact ⟨_, down.concat last member, List.getLast?_concat⟩
  obtain ⟨way, down, last⟩ := some_way
  exact ⟨way, ⟨down, last⟩, fun other both => forest.way_unique both.1 down both.2 last⟩

theorem Sound.command_of_atOrBelow (sound : g.Sound) (command : g.HasCommand start)
    (below : g.AtOrBelow start id) : g.HasCommand id := by
  induction below with
  | refl => exact command
  | tail _ member _ => exact (sound.indexed_node _).commands _ member

theorem hasCommand_of_proper (proper : (g.node id).isRoot = false) : g.HasCommand id := by
  cases found : g.node? id with
  | some n => exact ⟨n, found, node_of_node? found ▸ proper⟩
  | none => simp [node, found, Node.blankRoot, Node.ofRole, Node.isRoot] at proper

theorem listedBefore_iff (a b : NodeId) : g.listedBefore a b = true ↔
    (g.node a).isLiteral = true ∧ (g.node b).isLiteral = false ∨
      (g.node a).isLiteral = (g.node b).isLiteral ∧
        Text.lowercase (g.node a).name ≤ Text.lowercase (g.node b).name := by
  cases ha : (g.node a).isLiteral <;> cases hb : (g.node b).isLiteral <;> simp [listedBefore, ha, hb]

theorem listedBefore_total (a b : NodeId) : g.listedBefore a b = true ∨ g.listedBefore b a = true := by
  rw [listedBefore_iff, listedBefore_iff]
  have names := String.le_total (Text.lowercase (g.node a).name) (Text.lowercase (g.node b).name)
  cases (g.node a).isLiteral <;> cases (g.node b).isLiteral <;> simp [names]

theorem listedBefore_trans (a b c : NodeId) (first : g.listedBefore a b = true)
    (second : g.listedBefore b c = true) : g.listedBefore a c = true := by
  rw [listedBefore_iff] at first second ⊢
  rcases first with ⟨ha, hb⟩ | ⟨kind, first⟩
  · rcases second with ⟨hb', -⟩ | ⟨kind', -⟩
    · rw [hb] at hb'; contradiction
    · exact .inl ⟨ha, kind' ▸ hb⟩
  · rcases second with ⟨hb, hc⟩ | ⟨kind', second⟩
    · exact .inl ⟨kind.trans hb, hc⟩
    · exact .inr ⟨kind.trans kind', String.le_trans first second⟩

theorem listedFirst_of_listedBefore {siblings : List NodeId} {a b : NodeId}
    (first : g.listedBefore a b = true)
    (tied : g.listedBefore b a = true → siblings.idxOf a < siblings.idxOf b) :
    g.ListedFirst siblings a b := by
  rcases (listedBefore_iff a b).mp first with kinds | ⟨kind, names⟩
  · exact .inl kinds
  · by_cases less : Text.lowercase (g.node a).name < Text.lowercase (g.node b).name
    · exact .inr ⟨kind, .inl less⟩
    · have same := String.le_antisymm names less
      have back := (listedBefore_iff b a).mpr (.inr ⟨kind.symm, same ▸ String.le_refl _⟩)
      exact .inr ⟨kind, .inr ⟨same, tied back⟩⟩

theorem pairwise_listedChildren (nodup : (g.node id).children.Nodup) :
    (g.listedChildren id).Pairwise (g.ListedFirst (g.node id).children) :=
  (Order.sort_pairwise_idxOf listedBefore_total listedBefore_trans nodup).imp fun both =>
    listedFirst_of_listedBefore both.1 both.2

theorem Precedes.irrefl (way : List NodeId) : ¬ g.Precedes way way := by
  induction way with
  | nil => intro first; cases first
  | cons id way ih =>
    intro first
    cases first with
    | beside way way' first =>
      rcases first with ⟨literal, other⟩ | ⟨-, less | ⟨-, less⟩⟩
      · simp [literal] at other
      · exact absurd less (String.lt_irrefl _)
      · exact Nat.lt_irrefl _ less
    | within id first => exact ih first

end Ways

def waysWithin (g : Grammar S A) (source : S) : Nat → NodeId → List (List NodeId)
  | 0, _ => []
  | depth + 1, id =>
    if (g.node id).usableBy source then
      [id] :: ((g.listedChildren id).flatMap (g.waysWithin source depth)).map (id :: ·)
    else []

section Listed

variable {depth : Nat}

theorem exists_cons_of_mem_waysWithin (among : way ∈ g.waysWithin source depth id) :
    ∃ rest, way = id :: rest := by
  cases depth with
  | zero => simp [waysWithin] at among
  | succ depth =>
    rw [waysWithin] at among
    split at among
    · rcases List.mem_cons.mp among with rfl | among
      · exact ⟨[], rfl⟩
      · obtain ⟨rest, -, rfl⟩ := List.mem_map.mp among
        exact ⟨rest, rfl⟩
    · simp at among

theorem mem_waysWithin (sound : g.Sound) (forest : g.Forest) (known : id < g.nodeCount)
    (deep : g.nodeCount ≤ id + depth) :
    way ∈ g.waysWithin source depth id ↔ g.Way id way ∧ g.opens source way = true := by
  -- The depth bounds the numbers above the node, and children have greater numbers.
  induction depth generalizing id way with
  | zero => exact absurd known (Nat.not_lt.mpr deep)
  | succ depth ih =>
    have onward {child : NodeId} (member : child ∈ (g.node id).children) (way : List NodeId) :
        way ∈ g.waysWithin source depth child ↔ g.Way child way ∧ g.opens source way = true := by
      refine ih (sound.child_lt member) (Nat.le_trans deep ?_)
      rw [Nat.add_comm depth, ← Nat.add_assoc]
      exact Nat.add_le_add_right (forest.later id child member) depth
    cases usable : (g.node id).usableBy source with
    | false =>
      simp only [waysWithin, usable, Bool.false_eq_true, if_false, List.not_mem_nil, false_iff]
      rintro ⟨down, opened⟩
      obtain ⟨rest, rfl⟩ := down.exists_cons
      simp [opens, usable] at opened
    | true =>
      simp only [waysWithin, usable, if_true, List.mem_cons, List.mem_map, List.mem_flatMap,
        listedChildren, Order.mem_sort]
      constructor
      · rintro (rfl | ⟨rest, ⟨child, member, among⟩, rfl⟩)
        · exact ⟨.here id, by simp [opens, usable]⟩
        · obtain ⟨down, opened⟩ := (onward member rest).mp among
          exact ⟨.onward member down, by simpa [opens, usable] using opened⟩
      · rintro ⟨down, opened⟩
        cases down with
        | here => exact .inl rfl
        | @onward _ child rest member down =>
          have rest_open : g.opens source rest = true := by simpa [opens, usable] using opened
          exact .inr ⟨rest, ⟨child, member, (onward member rest).mpr ⟨down, rest_open⟩⟩, rfl⟩

theorem pairwise_waysWithin (sound : g.Sound) (source : S) (depth : Nat) (id : NodeId) :
    (g.waysWithin source depth id).Pairwise g.Precedes := by
  induction depth generalizing id with
  | zero => exact .nil
  | succ depth ih =>
    rw [waysWithin]
    split
    case isFalse => exact .nil
    rw [List.pairwise_cons, List.pairwise_map, List.pairwise_flatMap]
    refine ⟨?_, ?_, ?_⟩
    · intro way among
      obtain ⟨rest, inside, rfl⟩ := List.mem_map.mp among
      obtain ⟨child, -, inside⟩ := List.mem_flatMap.mp inside
      obtain ⟨rest, rfl⟩ := exists_cons_of_mem_waysWithin inside
      exact .above id child rest
    · intro child _
      exact (ih child).imp (.within id)
    · refine (pairwise_listedChildren (sound.indexed_node id).nodup).imp fun first => ?_
      intro way among way' among'
      obtain ⟨rest, rfl⟩ := exists_cons_of_mem_waysWithin among
      obtain ⟨rest', rfl⟩ := exists_cons_of_mem_waysWithin among'
      exact .beside rest rest' first

def shownBehind (g : Grammar S A) (path : String) (way : List NodeId) : List String :=
  (way.getLast?.map fun id => (g.node id).shown (path ++ g.pathText way)).getD []

theorem pathText_cons_cons (g : Grammar S A) (id child : NodeId) (rest : List NodeId) :
    g.pathText (id :: child :: rest) =
      Usage.label (g.node id) ++ " " ++ g.pathText (child :: rest) := by
  simp [pathText]

theorem shownBehind_cons (g : Grammar S A) (path : String) (id child : NodeId) (rest : List NodeId) :
    g.shownBehind path (id :: child :: rest) =
      g.shownBehind (path ++ Usage.label (g.node id) ++ " ") (child :: rest) := by
  simp only [shownBehind, pathText_cons_cons, List.getLast?_cons_cons, String.append_assoc]

theorem fullWithin_eq (depth : Nat) (path : String) (id : NodeId)
    (single : ∀ below, g.AtOrBelow id below → (g.node below).isComposed = false) :
    Usage.fullWithin g source depth path id =
      (g.waysWithin source depth id).flatMap fun way =>
        (g.shownBehind path way).map (· ++ "\n") := by
  induction depth generalizing id path with
  | zero => rfl
  | succ depth ih =>
    have alone : (g.node id).composed? = none := by simpa [Node.isComposed] using single id .refl
    cases usable : (g.node id).usableBy source with
    | false => simp [Usage.fullWithin, waysWithin, usable]
    | true =>
      simp only [Usage.fullWithin, waysWithin, usable, alone, Bool.not_true, Bool.false_eq_true,
        if_false, if_true, List.flatMap_cons, List.flatMap_map, List.flatMap_assoc]
      congr 1
      · simp [Node.ownLines_eq, shownBehind, pathText]
      · refine List.flatMap_congr fun child listed => ?_
        have member : child ∈ (g.node id).children := (Order.mem_sort _ _ _).mp listed
        rw [ih _ child fun below under => single below (.head member under)]
        refine List.flatMap_congr fun way among => ?_
        obtain ⟨rest, rfl⟩ := exists_cons_of_mem_waysWithin among
        rw [shownBehind_cons]

end Listed

section Joined

variable {lines : List String}

theorem join_lines (lines : List String) (some : lines ≠ []) :
    String.join (lines.map (· ++ "\n")) = "\n".intercalate lines ++ "\n" := by
  induction lines with
  | nil => exact absurd rfl some
  | cons line rest ih =>
    cases rest with
    | nil => simp
    | cons next rest =>
      rw [List.map_cons, String.join_cons, ih (by simp)]
      simp [String.append_assoc]

theorem ends_intercalate (some : lines ≠ [])
    (solid : ∀ line ∈ lines, Text.IsLine line) :
    ∃ front c, ("\n".intercalate lines).toList = front ++ [c] ∧ c ≠ '\n' := by
  induction lines with
  | nil => exact absurd rfl some
  | cons line rest ih =>
    cases rest with
    | nil =>
      obtain ⟨full, plain⟩ := solid line (by simp)
      have letters : line.toList ≠ [] := by simpa using full
      refine ⟨line.toList.dropLast, line.toList.getLast letters, ?_, ?_⟩
      · simp [List.dropLast_concat_getLast letters]
      · intro feed
        exact plain (feed ▸ List.getLast_mem letters)
    | cons next rest =>
      obtain ⟨front, c, ends, other⟩ := ih (by simp) fun line among => solid line (by simp [among])
      exact ⟨line.toList ++ '\n' :: front, c, by simp [← ends], other⟩

theorem consists_trimNewlines (solid : ∀ line ∈ lines, Text.IsLine line) :
    Text.Consists (Usage.trimNewlines (String.join (lines.map (· ++ "\n")))) lines := by
  refine ⟨?_, solid⟩
  cases lines with
  | nil => rfl
  | cons line rest =>
    obtain ⟨front, c, ends, other⟩ := ends_intercalate (List.cons_ne_nil line rest) solid
    rw [join_lines _ (List.cons_ne_nil line rest), Usage.trimNewlines, ← String.toList_inj,
      String.toList_ofList, String.toList_append, ends]
    simp [other]

end Joined

section Lines

theorem isLine_label {n : Node S A} (plain : n.Plain) : Text.IsLine (Usage.label n) := by
  have named := plain.named
  have name := plain.name
  cases role : n.role <;> simp_all [Text.IsLine, Usage.label, Node.name]

theorem isLine_pathText (some : way ≠ []) (plain : ∀ id ∈ way, (g.node id).Plain) :
    Text.IsLine (g.pathText way) := by
  induction way with
  | nil => exact absurd rfl some
  | cons id rest ih =>
    have label := isLine_label (plain id (by simp))
    cases rest with
    | nil => simpa [pathText] using label
    | cons child rest =>
      obtain ⟨-, behind⟩ := ih (by simp) fun id inside => plain id (by simp [inside])
      rw [pathText_cons_cons]
      simp [Text.IsLine, label.1, label.2, behind]

theorem isLine_of_mem_shownAt (plain : ∀ id ∈ way, (g.node id).Plain) {line : String}
    (among : line ∈ g.shownAt way) : Text.IsLine line := by
  cases last : way.getLast? with
  | none => simp [shownAt, last] at among
  | some id =>
    have inside : id ∈ way := List.mem_of_getLast? last
    have path := isLine_pathText (List.ne_nil_of_mem inside) plain
    have among : line ∈ (g.node id).shown (g.pathText way) := by simpa [shownAt, last] using among
    obtain ⟨mark, known, rfl⟩ := Node.exists_of_mem_shown among
    have silent : '\n' ∉ mark.toList := by
      rcases List.mem_cons.mp known with rfl | known
      · simp
      · rw [List.mem_singleton.mp known]
        decide
    cases description : (g.node id).description with
    | none => simp [Text.IsLine, Node.described, description, path.1, path.2, silent]
    | some text =>
      have told := (plain id inside).description text description
      simp [Text.IsLine, Node.described, description, path.1, path.2, silent, told]

theorem mem_listing {ways : List (List NodeId)} {line : String} :
    (way, line) ∈ g.listing ways ↔ way ∈ ways ∧ line ∈ g.shownAt way := by
  simp only [listing, List.mem_flatMap, List.mem_map, Prod.mk.injEq]
  constructor
  · rintro ⟨way, inside, line, shown, rfl, rfl⟩
    exact ⟨inside, shown⟩
  · rintro ⟨inside, shown⟩
    exact ⟨way, inside, line, shown, rfl, rfl⟩

theorem nodup_listing {ways : List (List NodeId)} (nodup : ways.Nodup) : (g.listing ways).Nodup := by
  rw [listing, List.nodup_iff_pairwise_ne, List.pairwise_flatMap]
  constructor
  · intro way _
    rw [List.pairwise_map]
    have lines : (g.shownAt way).Nodup := by
      cases last : way.getLast? with
      | none => simp [shownAt, last]
      | some id => simpa [shownAt, last] using Node.nodup_shown _ _
    exact lines.imp fun other same => other (Prod.mk.inj same).2
  · refine nodup.imp fun other => ?_
    intro entry among entry' among' same
    obtain ⟨line, -, rfl⟩ := List.mem_map.mp among
    obtain ⟨line', -, rfl⟩ := List.mem_map.mp among'
    exact other (Prod.mk.inj same).1

end Lines

/-- Usage goes along the ways down from a node that are open to the source, depth first, each with the
lines of the node it ends at. The way to a node with an action has a line of its own just if nothing
on it is hidden. -/
theorem Reachable.usage_consists (reachable : g.Reachable) (proper : (g.node start).isRoot = false)
    (source : S) (plain : ∀ id, g.AtOrBelow start id → (g.node id).Plain) :
    ∃ ways : List (List NodeId),
      (∀ way, way ∈ ways ↔ g.Way start way ∧ g.opens source way = true) ∧
      (∀ id, g.AtOrBelow start id → ∃! way, g.Way start way ∧ way.getLast? = some id) ∧
      ways.Pairwise g.Precedes ∧
      Text.Consists (g.usage start source) ((g.listing ways).map Prod.snd) ∧
      ∀ way id, g.Way start way → way.getLast? = some id → (g.node id).hasAction = true →
        (g.listing ways).count (way, (g.node id).described (g.pathText way)) =
          if g.opens source way then 1 else 0 := by
  have sound := reachable.sound
  obtain ⟨n, found, -⟩ := hasCommand_of_proper proper
  have known : start < g.nodeCount := node?_lt found
  have listed (way : List NodeId) : way ∈ g.waysWithin source g.nodeCount start ↔
      g.Way start way ∧ g.opens source way = true :=
    mem_waysWithin sound reachable.forest known (Nat.le_add_left _ _)
  have ordered := pairwise_waysWithin sound source g.nodeCount start
  refine ⟨g.waysWithin source g.nodeCount start, listed,
    fun id below => reachable.forest.existsUnique_way below, ordered, ?_, ?_⟩
  · have lines : ((g.listing (g.waysWithin source g.nodeCount start)).map Prod.snd) =
        (g.waysWithin source g.nodeCount start).flatMap g.shownAt := by
      simp [listing, List.map_flatMap, Function.comp_def]
    have text : g.usage start source = Usage.trimNewlines (String.join
        (((g.waysWithin source g.nodeCount start).flatMap g.shownAt).map (· ++ "\n"))) := by
      rw [Grammar.usage, Usage.render, Usage.lines, if_neg (by simp [proper]), Usage.full,
        fullWithin_eq _ _ _ fun id below => (plain id below).single, List.map_flatMap]
      simp only [shownBehind, shownAt, String.empty_append]
    rw [lines, text]
    refine consists_trimNewlines fun line among => ?_
    obtain ⟨way, inside, shown⟩ := List.mem_flatMap.mp among
    have down := ((listed way).mp inside).1
    exact isLine_of_mem_shownAt (fun id on => plain id (down.atOrBelow on)) shown
  · intro way id down last action
    have nodup : (g.waysWithin source g.nodeCount start).Nodup := by
      refine ordered.imp ?_
      rintro way _ first rfl
      exact Precedes.irrefl way first
    have shown : (g.node id).described (g.pathText way) ∈ g.shownAt way := by
      simpa [shownAt, last] using Node.described_mem_shown action
    rw [(nodup_listing nodup).count]
    refine if_congr ?_ rfl rfl
    rw [mem_listing, listed way]
    exact ⟨fun among => among.1.2, fun opened => ⟨⟨down, opened⟩, shown⟩⟩

end Grammar

namespace Demo

def teams : Grammar User Deed :=
  (Grammar.empty.register .root
    (.literal "team" (describedAs "Teams")
      [.argument "who" .string { doing .greet none with redirect := some .root } [],
        .literal "list" (doing .whoami none) [],
        .literal "Add" (doing .echo (some "Add one")) [.argument "name" .string (doing .greet none) []],
        .literal "admin" { requirement := some User.isOperator } [.literal "reset" (doing .echo none) []]])).1

theorem teams_plain (id : NodeId) (below : teams.AtOrBelow 1 id) : (teams.node id).Plain := by
  have reachable : teams.Reachable := .register _ _ .empty
  have proper : (teams.node 1).isRoot = false := by decide
  have command := reachable.sound.command_of_atOrBelow (Grammar.hasCommand_of_proper proper) below
  obtain ⟨n, found, notRoot⟩ := command
  rw [Grammar.node_of_node? found]
  match id with
  | 0 => cases found; cases notRoot
  | 1 | 2 | 3 | 4 | 5 | 6 | 7 => cases found; exact ⟨rfl, by decide, by decide, by decide⟩
  | _ + 8 => cases found

theorem teams_consists :
    teams.Reachable ∧ (teams.node 1).isRoot = false ∧
      (∀ id, teams.AtOrBelow 1 id → (teams.node id).Plain) ∧
      ∃ ways : List (List NodeId),
        Text.Consists (teams.usage 1 ⟨"console", false⟩) ((teams.listing ways).map Prod.snd) ∧
        (teams.listing ways).count ([1, 4, 5], "team Add <name>") = 1 ∧
        (teams.listing ways).count ([1, 6, 7], "team admin reset") = 0 ∧
        teams.usage 1 ⟨"console", false⟩ = "\n".intercalate
          ["team ...  -  Teams", "team Add  -  Add one", "team Add <name>", "team list", "team <who>",
            "team <who> ..."] := by
  have reachable : teams.Reachable := .register _ _ .empty
  have proper : (teams.node 1).isRoot = false := by decide
  obtain ⟨ways, -, -, -, consists, counted⟩ :=
    Grammar.Reachable.usage_consists reachable proper ⟨"console", false⟩ teams_plain
  have way (a b : NodeId) (first : a ∈ (teams.node 1).children) (second : b ∈ (teams.node a).children) :
      teams.Way 1 [1, a, b] := .onward first (.onward second (.here b))
  refine ⟨reachable, proper, teams_plain, ways, consists, ?_, ?_, by decide +kernel⟩
  · exact counted [1, 4, 5] 5 (way 4 5 (by decide) (by decide)) rfl (by decide)
  · exact counted [1, 6, 7] 7 (way 6 7 (by decide) (by decide)) rfl (by decide)

end Demo

end CommandGrammar
