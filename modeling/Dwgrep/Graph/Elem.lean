import Dwgrep.Graph.Refine

/-!
# `elem` and `relem` on a sequence

`elem` and `relem` are yielding overloads: on a stack whose top is a sequence they pop
it and yield the rest once for each element, with the element pushed, in order or in
reverse, positioned `0, 1, …` (`seq_elem_producer`, `seq_relem_producer`).

* `Den.elem` — the list semantics of the operator, from the spec (§4.7): a stack whose
  top is a sequence gives `SeqProducer.values` pushed onto the rest, any other stack
  is dropped;
* `next_elem_pull`, `next_elem_some`, … — one transition each;
* `elem_refines` — over any upstream of non-empty stacks, the operator yields the
  concatenation of `Den.elem`.
-/

namespace Dwgrep

/-- `elem` (`forward`) or `relem` as the spec describes a yielding overload (§4.7): a
stack whose top is a sequence is popped, and the rest is yielded once for each value
the producer yields, with the value pushed; a stack whose top is of another type
matches no overload of the operator and is dropped. -/
def Den.elem (rt : Runtime) (forward : Bool) (s : Stack) : List Stack :=
  match s.pop rt with
  | .ok (.seq vs _, s') => (SeqProducer.values forward vs).map (s'.push rt)
  | _ => []

variable {rt : Runtime} {env : Env}

section Steps

variable {n : Nat} {c c₁ : Ctx} {u u₁ : Op} {fwd : Bool} {s s' : Stack} {p : SeqProducer}

theorem next_elem_null (hu : next rt env n c u = pure (none, u₁, c₁)) :
    next rt env (n + 1) c (.elem u fwd none) = pure (none, .elem u₁ fwd none, c₁) := by
  rw [next]; simp only [hu, pure_bind]

theorem next_elem_pull {vs : List Value} {q : Nat} (hu : next rt env n c u = pure (some s, u₁, c₁))
    (hp : s.pop rt = .ok (.seq vs q, s')) :
    next rt env (n + 1) c (.elem u fwd none) =
      next rt env n c₁ (.elem u₁ fwd (some (s', ⟨vs, 0⟩))) := by
  rw [next]; simp only [hu, hp, pure_bind, Res.lift]; rfl

theorem next_elem_drop {v : Value} (hu : next rt env n c u = pure (some s, u₁, c₁))
    (hp : s.pop rt = .ok (v, s')) (hv : v.vtype ≠ .seq) :
    next rt env (n + 1) c (.elem u fwd none) = next rt env n c₁ (.elem u₁ fwd none) := by
  rw [next]; simp only [hu, hp, pure_bind, Res.lift]
  cases v <;> first | rfl | exact absurd rfl hv

theorem next_elem_some {v : Value} {p' : SeqProducer} (h : p.next fwd = some (v, p')) :
    next rt env (n + 1) c (.elem u fwd (some (s, p))) =
      pure (some (s.push rt v), .elem u fwd (some (s, p')), c) := by
  rw [next]; simp only [h]

theorem next_elem_end (h : p.next fwd = none) :
    next rt env (n + 1) c (.elem u fwd (some (s, p))) = next rt env n c (.elem u fwd none) := by
  rw [next]; simp only [h]

end Steps

/-- The stacks `elem` yields from its producer over one sequence, from index `i` on,
before it goes back to its upstream. -/
theorem elem_segment {R : Op → List Stack → Prop} {c : Ctx} (hR : Resumes rt env R R c c) {u : Op}
    {fwd : Bool} {s : Stack} {vs : List Value} {l : List Stack} (hl : R (.elem u fwd none) l) :
    ∀ (L : List Value) (i : Nat), (SeqProducer.values fwd vs).drop i = L →
      R (.elem u fwd (some (s, ⟨vs, i⟩))) (L.map (s.push rt) ++ l)
  | [], i, h => hR.of_step (N := 0) (fun _ _ => next_elem_end (by
      rw [SeqProducer.next_eq, List.getElem?_eq_none (List.drop_eq_nil_iff.1 h)]; rfl)) hl
  | v :: L, i, h => hR.cons ⟨1, next_elem_some (by
      rw [SeqProducer.next_eq, ← List.head?_drop, h]; rfl)⟩
      (elem_segment hR hl L (i + 1) (by rw [← List.tail_drop, h]; rfl))

/-- `elem` (`forward`) or `relem` turns each upstream stack that holds a value into
`Den.elem`. -/
theorem segmentLaw_elem (fwd : Bool) :
    SegmentLaw rt env (fun u (_ : Unit) => .elem u fwd none) (fun _ => True)
      (fun s => s.values ≠ []) (Den.elem rt fwd) := by
  refine ⟨fun _ ⟨n, h⟩ => ⟨(), trivial, n + 1, next_elem_null h⟩, ?_⟩
  rintro c u - s u₁ c₁ - hs hus
  obtain ⟨N, hN⟩ := hus.ev
  obtain ⟨v, vs, hv⟩ := List.exists_cons_of_ne_nil hs
  obtain ⟨s', hp, -⟩ := Stack.pop_of_values rt hv
  refine ⟨(), trivial, fun _ _ hR hR₁ l hl => ?_⟩
  by_cases hseq : v.vtype = .seq
  · obtain ⟨xs, q, rfl⟩ := Value.eq_seq_of_vtype hseq
    rw [Den.elem, hp]
    exact hR.of_step (fun n hn => next_elem_pull (hN n hn) hp) (elem_segment hR₁ hl _ 0 rfl)
  · have hdrop : Den.elem rt fwd s = [] := by
      rw [Den.elem, hp]
      cases v <;> first | rfl | exact absurd rfl hseq
    rw [hdrop]
    exact hR.of_step (fun n hn => next_elem_drop (hN n hn) hp hseq) hl

/-- **`elem` refines its list semantics.** Over an upstream that yields non-empty stacks
`s₁ … sₙ` and null, `elem` (`forward`) or `relem` yields
`Den.elem s₁ ++ … ++ Den.elem sₙ` and null. -/
theorem elem_refines {c : Ctx} {u : Op} {ss : List Stack} (fwd : Bool)
    (hne : ∀ s ∈ ss, s.values ≠ []) (hu : Yields rt env c u ss) :
    Yields rt env c (.elem u fwd none) (ss.flatMap (Den.elem rt fwd)) :=
  (segmentLaw_elem fwd).yields hu hne () trivial

end Dwgrep
