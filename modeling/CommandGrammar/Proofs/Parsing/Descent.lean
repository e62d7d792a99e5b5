import CommandGrammar.Parsing.Parse
import CommandGrammar.Proofs.Input.Tiling

set_option autoImplicit false

namespace CommandGrammar

variable {S A : Type} {i : Input}

theorem Attempt.reaches_andThen {a : Attempt S A} {next : Context S A → Input → Attempt S A}
    (first : i.Reaches a.input)
    (onward : ∀ c j, i.Reaches j → i.Reaches (next c j).input) :
    i.Reaches (a.andThen next).input := by
  unfold andThen
  split
  · exact onward _ _ first
  · exact first

theorem reaches_matchLiteral (laid : i.Laid) (id : NodeId) (name : String) (c : Context S A) :
    i.Reaches (matchLiteral id name c i).input := by
  simp only [matchLiteral]
  split
  · exact laid.reaches_readWord
  · exact laid.refl

theorem Reading.reaches_advance (laid : i.Laid) (r : Reading) : i.Reaches (r.advance i) :=
  laid.reaches_seek (Nat.le_add_right _ _)

theorem reaches_matchArgument (laid : i.Laid) (id : NodeId) (name : String) (type : ArgumentType S A)
    (c : Context S A) : i.Reaches (matchArgument id name type c i).input := by
  simp only [matchArgument, recordArgument]
  split
  · exact Reading.reaches_advance laid _
  · exact laid.refl
  · exact laid.refl

namespace Node

theorem reaches_matchWord (laid : i.Laid) (n : Node S A) (id : NodeId) (c : Context S A) :
    i.Reaches (n.matchWord id c i).input := by
  unfold matchWord
  split
  · exact reaches_matchLiteral laid id _ c
  · exact reaches_matchArgument laid id _ _ c
  · exact laid.refl

theorem input_endWord (c : Context S A) (i : Input) : (endWord c i).input = i := by
  unfold endWord
  split <;> rfl

theorem input_settle (n : Node S A) (c : Context S A) (i : Input) : (n.settle c i).input = i := by
  simp only [settle]
  split
  · split <;> rfl
  · rfl

theorem reaches_matchChild (laid : i.Laid) (n : Node S A) (id : NodeId) (c : Context S A) :
    i.Reaches (n.matchChild id c i).input := by
  have word := n.reaches_matchWord laid id c
  have ended : i.Reaches ((n.matchWord id c i).andThen endWord).input :=
    Attempt.reaches_andThen word fun c j reached => by rwa [input_endWord]
  exact Attempt.reaches_andThen ended fun c j reached => by rwa [input_settle]

end Node

namespace Composed

theorem context_takeSeparator (c : Context S A) (i : Input) : (takeSeparator c i).context = c := by
  unfold takeSeparator
  split
  · rfl
  · split <;> rfl

theorem reaches_takeSeparator (laid : i.Laid) (c : Context S A) :
    i.Reaches (takeSeparator c i).input := by
  unfold takeSeparator
  split
  · exact laid.refl
  · split
    · exact laid.reaches_readChar
    · exact laid.refl

end Composed

namespace Grammar

theorem relevant_congr (g : Grammar S A) (id : NodeId) {j : Input} (same : j.peekWord = i.peekWord) :
    g.relevant id j = g.relevant id i := by
  rw [relevant, relevant, same]

theorem relevant_of_literal {g : Grammar S A} {id child : NodeId} {word : Word}
    (next : i.peekWord = some word) (known : (g.node id).literals.find? word.asText = some child) :
    g.relevant id i = [child] := by
  simp [relevant, next, known]

section Trials

variable {g : Grammar S A} {below : NodeId → Context S A → Input → Parse S A} {c : Context S A}
  {id : NodeId}

theorem tryChild_composed {members : Composed} (composed : (g.node id).composed? = some members) :
    g.tryChild below c i id =
      match ((g.node id).matchComposed g id members c i).fault with
      | none => .decided ⟨((g.node id).matchComposed g id members c i).context,
          ((g.node id).matchComposed g id members c i).input, []⟩
      | some f => .stuck ((g.node id).matchComposed g id members c i).context
          ((g.node id).matchComposed g id members c i).input f := by
  cases fault : ((g.node id).matchComposed g id members c i).fault <;>
    simp only [tryChild, composed, fault]

theorem tryChild_rejected (plain : (g.node id).composed? = none) {f : Fault}
    (fault : ((g.node id).matchChild id c i).fault = some f) :
    g.tryChild below c i id = .rejected f := by
  simp only [tryChild, plain, fault]

theorem tryChild_ended (plain : (g.node id).composed? = none)
    (matched : ((g.node id).matchChild id c i).fault = none)
    (ended : ((g.node id).matchChild id c i).input.hasMore = false) :
    g.tryChild below c i id =
      .matched ⟨((g.node id).matchChild id c i).context, ((g.node id).matchChild id c i).input, []⟩ := by
  simp only [tryChild, plain, matched, ended, Bool.not_false, if_true]

theorem tryChild_below (plain : (g.node id).composed? = none)
    (matched : ((g.node id).matchChild id c i).fault = none)
    (more : ((g.node id).matchChild id c i).input.hasMore = true)
    (stays : (g.node id).redirect = none) :
    g.tryChild below c i id =
      .matched (below id ((g.node id).matchChild id c i).context
        ((g.node id).matchChild id c i).input.readChar.2) := by
  simp only [tryChild, plain, matched, more, stays, Bool.not_true, Bool.false_eq_true, if_false]

theorem tryChild_redirect (plain : (g.node id).composed? = none)
    (matched : ((g.node id).matchChild id c i).fault = none)
    (more : ((g.node id).matchChild id c i).input.hasMore = true) {target : NodeId}
    (redirect : (g.node id).redirect = some target) :
    g.tryChild below c i id =
      let context := ((g.node id).matchChild id c i).context
      let next := ((g.node id).matchChild id c i).input.readChar.2
      let p := below target (context.freshChild target next.position) next
      .decided { p with context := context.redirectTo p.context } := by
  simp only [tryChild, plain, matched, more, redirect, Bool.not_true, Bool.false_eq_true, if_false]

end Trials

theorem tryChild_congr (g : Grammar S A) (laid : i.Laid)
    {below below' : NodeId → Context S A → Input → Parse S A}
    (same : ∀ id c j, i.Reaches j → i.position < j.position → below id c j = below' id c j)
    (c : Context S A) (id : NodeId) : g.tryChild below c i id = g.tryChild below' c i id := by
  cases composed : (g.node id).composed? with
  | some members => rw [tryChild_composed composed, tryChild_composed composed]
  | none =>
    cases fault : ((g.node id).matchChild id c i).fault with
    | some f => rw [tryChild_rejected composed fault, tryChild_rejected composed fault]
    | none =>
      cases more : ((g.node id).matchChild id c i).input.hasMore with
      | false => rw [tryChild_ended composed fault more, tryChild_ended composed fault more]
      | true =>
        have reached := (g.node id).reaches_matchChild laid id c
        have next := reached.trans (reached.laid laid).reaches_readChar
        have further : i.position < ((g.node id).matchChild id c i).input.readChar.2.position :=
          Nat.lt_of_le_of_lt reached.forward ((reached.laid laid).readChar_lt more)
        cases redirect : (g.node id).redirect with
        | none =>
          rw [tryChild_below composed fault more redirect, tryChild_below composed fault more redirect,
            same _ _ _ next further]
        | some target =>
          simp only [tryChild_redirect composed fault more redirect, same _ _ _ next further]

theorem parseWithin_congr (g : Grammar S A) {depth depth' : Nat} (laid : i.Laid)
    (enough : i.length - i.position < depth) (enough' : i.length - i.position < depth')
    (id : NodeId) (c : Context S A) :
    g.parseWithin depth id c i = g.parseWithin depth' id c i := by
  -- Calls stand further on in the line, so both depths stay above what is left of it.
  induction depth generalizing depth' i id c with
  | zero => omega
  | succ depth ih =>
    obtain ⟨depth', rfl⟩ : ∃ d, depth' = d + 1 := ⟨depth' - 1, by omega⟩
    have same : g.tryChild (g.parseWithin depth) c i = g.tryChild (g.parseWithin depth') c i := by
      funext child
      apply g.tryChild_congr laid
      intro id c j reached further
      have length := reached.length
      have within := reached.within
      exact ih (reached.laid laid) (by omega) (by omega) id c
    rw [parseWithin, parseWithin, same]

theorem parseBelow_eq (g : Grammar S A) (laid : i.Laid) (id : NodeId) (c : Context S A) :
    g.parseBelow id c i =
      tryChildren (g.tryChild g.parseBelow c i) c i (g.candidates id c.source i) [] [] := by
  have same : g.tryChild (g.parseWithin (i.length - i.position)) c i =
      g.tryChild g.parseBelow c i := by
    funext child
    apply g.tryChild_congr laid
    intro id c j reached further
    have length := reached.length
    have within := reached.within
    exact g.parseWithin_congr (reached.laid laid) (by omega) (by omega) id c
  rw [parseBelow, parseWithin, same]

end Grammar

end CommandGrammar
