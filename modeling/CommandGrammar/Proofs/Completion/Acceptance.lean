import CommandGrammar.Proofs.Completion.Cursor

set_option autoImplicit false

namespace CommandGrammar

variable {S A : Type} {g : Grammar S A}

namespace Stand

variable {s t : Stand S A} {child : NodeId} {k : Nat}

section Plain

variable (sound : g.Sound) (plain : g.Plain) (ready : s.Ready) (within : k ≤ s.input.length)
include sound plain ready within

theorem Walk.narrow (walk : Walk g k s t) : Walk g t.input.position s t := by
  induction walk with
  | here s => exact .here s
  | @step s t child takes before walk ih =>
    have more := ready.hasMore within before
    have next := ready.next sound plain takes more
    have within' := (ready.reaches_next g child).length ▸ within
    have onward := (walk.reaches sound plain next within').2.1.forward
    rw [ready.position_next more] at onward
    exact .step takes onward (ih next within')

end Plain

end Stand

/-- A completion that puts in the name of a literal, one that the node at the cursor has for a child and
that the source may use. -/
structure Parse.Offers (g : Grammar S A) (settings : Settings) (p : Parse S A) (cursor : Nat)
    (literal : NodeId) (c : Candidate) : Prop where
  listed : ∃ completions, p.suggest g settings cursor = some completions ∧ c ∈ completions.list
  child : ∃ id, (p.context.queryAt cursor).parent = .node id ∧ literal ∈ (g.node id).children
  usable : (g.node literal).usableBy p.context.source = true
  role : (g.node literal).role = .literal c.text

theorem Stand.Walk.onward {source : S} {cs : List Char} {t : Stand S A} {k : Nat} (sound : g.Sound)
    (plain : g.Plain) (walk : Stand.Walk g k (.start source (.ofText (String.ofList cs))) t)
    (within : k ≤ cs.length) (bound : t.input.position ≤ cs.length) (word : List Char) :
    let line := String.ofList (cs.take t.input.position ++ word)
    ∃ t', Stand.Walk g t.input.position (.start source (.ofText line)) t' ∧ t'.Ready ∧
      t'.node = t.node ∧ t'.context = t.context ∧ t'.input.Shows word := by
  intro line
  have ready := ready_start (A := A) source (String.ofList cs)
  have ready' := ready_start (A := A) source line
  have long : k ≤ (Input.ofText (String.ofList cs)).length := by
    rwa [Input.length_ofText, String.length_ofList]
  have front : (cs.take t.input.position).length = t.input.position := by
    rw [List.length_take, Nat.min_eq_left bound]
  have lines : (Input.ofText (String.ofList cs)).Agree t.input.position (.ofText line) :=
    Input.agree_ofText (List.take_left' front) bound
  obtain ⟨t', walk', stands⟩ := (walk.narrow sound plain ready long).agree sound plain ready
    (agree_start (A := A) source lines)
  obtain ⟨stood, reached, -, -⟩ := walk'.reaches sound plain ready' lines.symm.le_length
  refine ⟨t', walk', stood, stands.node, stands.context, ?_⟩
  have shows := (Input.shows_ofText line).reaches reached
  have begun : t'.input.position - (Input.ofText line).position = t.input.position :=
    stands.input.position
  rwa [begun, String.toList_ofList, List.drop_left' front] at shows

end CommandGrammar
