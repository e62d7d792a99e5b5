import Mathlib.Data.List.Chain
import CommandGrammar.Proofs.Composed.Flags
import CommandGrammar.Proofs.Grammar.Reachable
import CommandGrammar.Proofs.Parsing.Descent

set_option autoImplicit false

namespace CommandGrammar

variable {S A : Type} {g : Grammar S A} {id : NodeId} {members : Composed} {c c₀ : Context S A}
  {i i₀ j k : Input}

namespace Input

def Along (i j : Input) : Prop := i.seek j.position = j

theorem Reaches.along (h : i.Reaches j) : i.Along j := h.seek_eq

theorem Along.trans (h : i.Along j) (h' : j.Along k) : i.Along k := by
  calc i.seek k.position = (i.seek j.position).seek k.position := rfl
    _ = k := by rw [h, h']

theorem Along.laid (h : i.Along j) (laid : i.Laid) : j.Laid := by
  rw [← h]
  exact ⟨laid.tiles, Nat.min_le_right _ _⟩

end Input

/-- What a type makes of the line: an answer, and the position at which it leaves the line. A `Reading`
never leads back, a scan may. -/
structure Scan where
  stop : Nat
  answer : Except Rejection Value

abbrev Scanner (S A : Type) := Input → Context S A → Scan

def Scanner.Forward (scan : Scanner S A) : Prop := ∀ i c, i.position ≤ (scan i c).stop

def ArgumentType.scan (type : ArgumentType S A) : Scanner S A := fun i c =>
  ⟨i.position + (type.read i c).taken, (type.read i c).answer⟩

namespace Grammar

def scanning (g : Grammar S A) (scan : NodeId → Scanner S A) : Readers S A where
  name m := (g.node m).name
  take m c i :=
    match (g.node m).role with
    | .argument name _ => recordArgument m name c i (i.seek (scan m i c).stop) (scan m i c).answer
    | _ => (g.node m).matchWord m c i

@[simp] theorem name_scanning (g : Grammar S A) (scan : NodeId → Scanner S A) :
    (g.scanning scan).name = fun m => (g.node m).name := rfl

def scan (g : Grammar S A) (m : NodeId) : Scanner S A :=
  match (g.node m).role with
  | .argument _ type => type.scan
  | _ => fun i _ => ⟨i.position, .error (.reason "")⟩

end Grammar

structure Take where
  member : NodeId
  start : Nat
  binding : Binding

def Grammar.FlagAt (g : Grammar S A) (i : Input) (member : NodeId) : Prop :=
  i.peekWord.map Word.asText = some ("--" ++ (g.node member).name)

variable {scan : NodeId → Scanner S A}

def Take.ReadFrom (g : Grammar S A) (scan : NodeId → Scanner S A) (c : Context S A) (i : Input)
    (before : List Take) (t : Take) : Prop :=
  t.binding.name = (g.node t.member).name ∧
    ∃ j d, i.Along j ∧ j.position = t.binding.span.start ∧
      d.source = c.source ∧ d.arguments = c.arguments ++ before.map Take.binding ∧
      (scan t.member j d).answer = .ok t.binding.value ∧
      (j.seek (scan t.member j d).stop).position = t.binding.span.stop

theorem Take.ReadFrom.grows {before : List Take} {t : Take} (read : t.ReadFrom g scan c i before)
    (laid : i.Laid) (forward : (scan t.member).Forward) :
    t.binding.span.start ≤ t.binding.span.stop := by
  obtain ⟨-, j, d, along, start, -, -, -, stop⟩ := read
  rw [← start, ← stop]
  exact Nat.le_min.mpr ⟨forward j d, (along.laid laid).position_le⟩

def Take.Before (t u : Take) : Prop := t.binding.span.stop ≤ u.start

namespace Composed

def unset (members : Composed) (takes : List Take) : List NodeId :=
  members.sequence.filter (· ∉ takes.map Take.member)

/-- Values in turn for the first members, and values behind flags after those. -/
structure Takes (g : Grammar S A) (scan : NodeId → Scanner S A) (members : Composed) (c : Context S A)
    (i : Input) (inTurn flagged : List Take) : Prop where
  inSequence : inTurn.map Take.member = members.sequence.take inTurn.length
  declared : ∀ t ∈ flagged, t.member ∈ members.sequence
  different : ((inTurn ++ flagged).map Take.member).Nodup
  onward : (inTurn ++ flagged).IsChain Take.Before
  read : ∀ before t, before ++ [t] <+: inTurn ++ flagged → t.ReadFrom g scan c i before
  plain : ∀ before t, before ++ [t] <+: inTurn → t.start = t.binding.span.start ∧
    ∀ m ∈ members.unset before, ¬ g.FlagAt (i.seek t.start) m
  behindFlag : ∀ t ∈ flagged, g.FlagAt (i.seek t.start) t.member ∧
    t.start ≤ (i.seek t.start).readWord.2.position ∧
    (i.seek t.start).readWord.2.position ≤ t.binding.span.start

section Loops

variable {inTurn flagged : List Take}

theorem Takes.nil : members.Takes g scan c i [] [] :=
  ⟨by simp, by simp, .nil, .nil, by simp, by simp, by simp⟩

theorem unset_append (before after : List Take) :
    members.unset (before ++ after) =
      (members.unset before).filter (· ∉ after.map Take.member) := by
  rw [unset, unset, List.filter_filter]
  refine List.filter_congr fun m _ => ?_
  rw [List.map_append, Bool.eq_iff_iff]
  simp [and_comm]

structure Stands (g : Grammar S A) (scan : NodeId → Scanner S A) (members : Composed)
    (c₀ : Context S A) (i₀ : Input) (inTurn flagged : List Take) (c : Context S A) (i : Input) : Prop where
  takes : members.Takes g scan c₀ i₀ inTurn flagged
  along : i₀.Along i
  source : c.source = c₀.source
  notes : c.notes = c₀.notes
  arguments : c.arguments = c₀.arguments ++ (inTurn ++ flagged).map Take.binding
  behind : ∀ t ∈ (inTurn ++ flagged).getLast?, t.binding.span.stop ≤ i.position

theorem Stands.start (laid : i.Laid) (matched : Matched) (span : Span) :
    members.Stands g scan c i [] [] (c.record matched span) i :=
  ⟨.nil, laid.refl.along, rfl, rfl, by simp [Context.record, Context.updateView, View.record], by simp⟩

theorem length_without_lt {m : NodeId} {pending : List NodeId} (member : m ∈ pending) :
    (without m pending).length < pending.length :=
  List.length_filter_lt_length_iff_exists.mpr ⟨m, member, by simp⟩

end Loops

section Unset

variable {inTurn flagged : List Take}

theorem filter_not_mem_take {xs : List NodeId} (nodup : xs.Nodup) (k : Nat) :
    xs.filter (· ∉ xs.take k) = xs.drop k := by
  have split := List.take_append_drop k xs
  have apart := nodup
  rw [← split, List.nodup_append] at apart
  have first : (xs.take k).filter (· ∉ xs.take k) = [] :=
    List.filter_eq_nil_iff.mpr fun m member => by simpa using member
  have second : (xs.drop k).filter (· ∉ xs.take k) = xs.drop k :=
    List.filter_eq_self.mpr fun m member => by
      simpa using fun earlier => apart.2.2 m earlier m member rfl
  calc xs.filter (· ∉ xs.take k)
      = (xs.take k ++ xs.drop k).filter (· ∉ xs.take k) := by rw [split]
    _ = xs.drop k := by rw [List.filter_append, first, second, List.nil_append]

theorem Takes.unset_inTurn (takes : members.Takes g scan c i inTurn flagged)
    (nodup : members.sequence.Nodup) : members.unset inTurn = members.sequence.drop inTurn.length := by
  rw [unset, takes.inSequence, filter_not_mem_take nodup]

theorem Takes.length_unset_lt (takes : members.Takes g scan c i inTurn flagged)
    (nodup : members.sequence.Nodup) (some : flagged ≠ []) :
    (members.unset (inTurn ++ flagged)).length < (members.sequence.drop inTurn.length).length := by
  obtain ⟨t, rest, rfl⟩ := List.exists_cons_of_ne_nil some
  have different := takes.different
  rw [List.map_append, List.nodup_append] at different
  have fresh : t.member ∈ members.unset inTurn := by
    refine List.mem_filter.mpr ⟨takes.declared t (by simp), ?_⟩
    simpa using fun u member same =>
      different.2.2 u.member (List.mem_map_of_mem member) t.member (by simp) same
  rw [← takes.unset_inTurn nodup, unset_append]
  exact List.length_filter_lt_length_iff_exists.mpr ⟨t.member, fresh, by simp⟩

def unsetNotes (g : Grammar S A) (members : Composed) (inTurn flagged : List Take) : List Note :=
  if members.unset (inTurn ++ flagged) = [] then []
  else
    [⟨none, .unset
      { continues := flagged.isEmpty
        pending := (members.unset (inTurn ++ flagged)).map fun m => (g.node m).name
        sequence := (members.sequence.drop inTurn.length).map fun m => (g.node m).name }⟩]

theorem Takes.notes_unset? (takes : members.Takes g scan c i inTurn flagged)
    (nodup : members.sequence.Nodup) :
    ((unset? (g.scanning scan) (members.unset (inTurn ++ flagged)) (members.sequence.drop inTurn.length)).map
      fun u => (⟨none, .unset u⟩ : Note)).toList = unsetNotes g members inTurn flagged := by
  unfold unset? unsetNotes
  by_cases none : members.unset (inTurn ++ flagged) = []
  · simp [none]
  · rw [if_neg (by simpa using none), if_neg none]
    cases flagged with
    | nil =>
      rw [List.append_nil, takes.unset_inTurn nodup] at none ⊢
      simp [none]
    | cons t rest =>
      have fewer := Nat.ne_of_lt (takes.length_unset_lt nodup (by simp))
      simp only [beq_eq_false_iff_ne.mpr fewer, Bool.false_and, Option.map_some, Option.toList_some,
        List.isEmpty_cons, Grammar.name_scanning]

theorem Stands.noted {a b : Attempt S A}
    (stands : members.Stands g scan c i inTurn flagged b.context b.input) (proper : members.Proper g)
    (ok : b.fault = none)
    (added : a = b.andThen
      (noteUnset (g.scanning scan) (members.unset (inTurn ++ flagged)) (members.sequence.drop inTurn.length))) :
    a.input = b.input ∧ a.context.arguments = b.context.arguments ∧
      a.context.notes = c.notes ++ unsetNotes g members inTurn flagged := by
  have notes := stands.takes.notes_unset? proper.nodup
  simp only [Attempt.andThen, ok, noteUnset] at added
  subst added
  rw [← notes, ← stands.notes]
  cases unset? (g.scanning scan) (members.unset (inTurn ++ flagged)) (members.sequence.drop inTurn.length) with
  | none => exact ⟨rfl, rfl, (List.append_nil _).symm⟩
  | some u => exact ⟨rfl, rfl, rfl⟩

end Unset

end Composed

theorem Node.role_of_isComposed {n : Node S A} (composed : n.isComposed = true) (other : Composed) :
    n.role = .composed (n.composed?.getD other) := by
  cases role : n.role <;> simp_all [isComposed, composed?]

def Demo.moveMembers : Composed := ((grammar.node 9).composed?).getD ⟨[], .empty⟩

namespace Demo

end Demo

end CommandGrammar
