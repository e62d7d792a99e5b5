import CommandGrammar.Proofs.Input.Checked

set_option autoImplicit false

namespace CommandGrammar.Input

def Body.width : Body → Nat
  | .content c => c.width
  | .separator => 1
  | .tail => 0

structure Covered (r : Rendering) (values : List Value) (i : Input) : Prop where
  bodies : i.segments.map Segment.body =
    (values.map fun v => Body.content (.ofValue r v)).intersperse .separator ++ [.tail]
  width : ∀ s ∈ i.segments, s.stop = s.start + s.body.width
  begins : i.segments.head?.map Segment.start = some 0
  meets : i.segments.IsChain fun s t => t.start = s.stop
  ends : i.segments.getLast? = some ⟨i.length, i.length, .tail⟩

def Segment.Includes (s : Segment) (position : Nat) : Prop :=
  s.start ≤ position ∧ (position < s.stop ∨ s.body = .tail ∧ position = s.stop)

structure Located (i : Input) (k : Nat) (s : Segment) : Prop where
  found : i.locate? = .ok k
  here : i.segments[k]? = some s
  includes : s.Includes i.position
  only : ∀ n t, i.segments[n]? = some t → t.Includes i.position → n = k
  tail : s.body = .tail ↔ i.position = i.length

theorem bodies_layoutFrom (r : Rendering) (p : Nat) (values : List Value) :
    (layoutFrom r p values).map Segment.body =
      (values.map fun v => Body.content (.ofValue r v)).intersperse .separator ++ [.tail] := by
  fun_induction layoutFrom r p values with
  | case1 p => rfl
  | case2 p v c => rfl
  | case3 p v w rest c stop ih => simpa [c] using ih

namespace Tiles

variable {p e position : Nat} {segments : List Segment}

theorem stop_eq (h : Tiles p e segments) : ∀ s ∈ segments, s.stop = s.start + s.body.width := by
  induction h with
  | tail p => simp [Body.width]
  | content c rest ih | separator rest ih =>
    simpa only [List.forall_mem_cons, Body.width, true_and] using ih

theorem head?_start (h : Tiles p e segments) : segments.head?.map Segment.start = some p := by
  cases h <;> rfl

theorem isChain (h : Tiles p e segments) : segments.IsChain fun s t => t.start = s.stop := by
  induction h using row_induction with
  | tail => exact .singleton _
  | step p w body rest row tiles positive solid ih =>
    refine List.isChain_cons.mpr ⟨fun t first => ?_, ih⟩
    have next := tiles.head?_start
    rw [Option.mem_def.mp first] at next
    exact Option.some.inj next

theorem eq_tail (h : Tiles p e segments) : ∀ s ∈ segments, s.body = .tail → s = ⟨e, e, .tail⟩ := by
  induction h using row_induction with
  | tail => simp
  | step p w body rest row tiles positive solid ih => simpa [solid] using ih

theorem includes_iff (h : Tiles p e segments) (above : p ≤ position) (below : position ≤ e) {k : Nat}
    {s : Segment} (here : segments[k]? = some s) :
    s.Includes position ↔ k = (segments.takeWhile (·.isBefore position)).length := by
  induction h using row_induction generalizing k with
  | tail =>
    have first : k = 0 ∧ s = ⟨e, e, .tail⟩ := by
      cases k <;> simp_all
    simp [first, Segment.Includes, Segment.isBefore, Segment.isTail, Nat.le_antisymm below above]
  | step p w body rest row tiles positive solid ih =>
    rw [List.takeWhile_cons, Segment.isBefore_of_ne_tail solid]
    by_cases before : p + w ≤ position
    · simp only [before, decide_true, if_true, List.length_cons]
      cases k with
      | zero =>
        have first : s = ⟨p, p + w, body⟩ := by simpa using here.symm
        simp [first, Segment.Includes, solid, before]
      | succ k => simpa using ih before (by simpa using here)
    · simp only [before, decide_false, Bool.false_eq_true, if_false, List.length_nil]
      cases k with
      | zero =>
        have first : s = ⟨p, p + w, body⟩ := by simpa using here.symm
        simp [first, Segment.Includes, above, Nat.lt_of_not_le before]
      | succ k =>
        have behind := (tiles.bounds s (List.mem_of_getElem? (by simpa using here))).1
        simp only [Segment.Includes, Nat.add_one_ne_zero, iff_false, not_and]
        omega

theorem passed_lt (h : Tiles p e segments) (position : Nat) :
    (segments.takeWhile (·.isBefore position)).length < segments.length := by
  have some := List.length_pos_iff.mpr h.ne_nil
  have passed := h.min_passed position
  omega

end Tiles

namespace Laid

variable {i : Input}

theorem located (h : i.Laid) : ∃ k s, i.Located k s := by
  have inside := h.tiles.passed_lt i.position
  have here := List.getElem?_eq_getElem inside
  have one {n : Nat} {t : Segment} (there : i.segments[n]? = some t) :=
    h.tiles.includes_iff (Nat.zero_le _) h.position_le there
  have includes := (one here).mpr rfl
  refine ⟨_, _, h.locate?_eq, here, includes, fun n t there => (one there).mp, ?_⟩
  have member := List.mem_of_getElem? here
  constructor
  · intro tail
    have last := h.tiles.eq_tail _ member tail
    rw [last] at includes
    exact Nat.le_antisymm h.position_le includes.1
  · intro ended
    have within := (h.tiles.bounds _ member).2.2
    exact (includes.2.resolve_left (by omega)).1

end Laid

theorem covered_ofValues (r : Rendering) (values : List Value) : (ofValues r values).Covered r values := by
  have tiles := (laid_ofValues r values 0).tiles
  exact ⟨bodies_layoutFrom r 0 values, tiles.stop_eq, tiles.head?_start, tiles.isChain, tiles.getLast?_eq⟩

/-- Whatever is asked of a line of values, one request after the other: no access goes out of bounds, the
answers are those that reading by lists gives, the segments stay, and the position ends in the one segment that
is found for it. -/
theorem bounds_ofValues (r : Rendering) (values : List Value) (requests : List Request) :
    let i := ofValues r values
    i.Covered r values ∧ ∃ j, i.run? requests = .ok (i.transcript requests, j) ∧
      j.segments = i.segments ∧ j.position ≤ i.length ∧ ∃ k s, j.Located k s := by
  have laid : (ofValues r values).Laid := laid_ofValues r values 0
  obtain ⟨j, run, same, onward⟩ := laid.run?_eq requests
  have length : j.length = (ofValues r values).length := by rw [Input.length, same, ← Input.length]
  exact ⟨covered_ofValues r values, j, run, same, length ▸ onward.position_le, onward.located⟩

example : [0, 1, 2, 9].map (fun position =>
      ((ofValues .standard [.ofString "a", .ofString ""]).seek position).locate?) =
    [.ok 0, .ok 1, .ok 2, .ok 3] := by decide +kernel

end CommandGrammar.Input
