import Dwgrep.Graph.Query

/-!
# The lazy operators over sub-expressions with several results

`Refine.lean`, `Branch.lean`, `Format.lean` and `Elem.lean` follow the lazy operators one
by one, each over sub-expressions that obey the reset law, and `Query.lean` shows that
every query of the fragment obeys it. This module puts the operators' results together,
and instantiates them with a query that has two results on every stack, so that the
operators' handling of several results is what the instances exercise.

* `lazy_operators_refine` — **the lazy operators refine their list semantics** over any
  upstream run, with sub-expressions that obey the reset law;
* `capture_elem_yields_copies` — **`[X] elem` on `s` yields `s` with a copy of the top of
  each result of `X` pushed, of the same type as that top and comparing equal to it;
  `[X] relem` yields the same copies in reverse order**;
* `pairElem` — `[1, 2] elem`, two results on every stack, and `emptyElem` — `[] elem`,
  none.
-/

namespace Dwgrep

variable {rt : Runtime} {env : Env}

/-! ## Two queries -/

/-- `[1, 2] elem`: on every stack, the stack with `1` pushed at position 0 and the stack
with `2` pushed at position 1. -/
def pairElem : Query := .cat (.const (.seq [.cst ⟨1, 0⟩ 0, .cst ⟨2, 0⟩ 0] 0)) (.elem true)

/-- `[] elem`: no result on any stack. -/
def emptyElem : Query := .cat (.const (.seq [] 0)) (.elem true)

/-- `elem` after a constant never pops an empty stack. -/
theorem const_elem_ok (v : Value) (fwd : Bool) :
    (Query.cat (.const v) (.elem fwd)).Ok rt fun s => [s] := by
  simp [Query.Ok, Query.den, Den.const, Stack.push]

/-! ## All lazy operators -/

/-- **The lazy operators refine their list semantics.** Over an upstream that yields
`s₁ … sₙ` and null, each of `Nop`, `Const`, `Assert`, `Or`, `IfElse`, `SubX`, `Capture` and
`Format`, built over sub-expressions that obey the reset law, yields the concatenation of
its denotation on `s₁ … sₙ`, and null. `SubX` needs `keep` values on each result, and
`Capture` and the chain of `Format` a top on each, as `stack::pop` does. -/
theorem lazy_operators_refine {c : Ctx} {u : Op} {ss : List Stack} (hu : Yields rt env c u ss) :
    Yields rt env c (.nop u) ss ∧
    (∀ v, Yields rt env c (.const u v) (ss.flatMap (Den.const rt v))) ∧
    (∀ p P, PredLaw rt env p P → Yields rt env c (.assert u p) (ss.flatMap (Den.assert P))) ∧
    (∀ bs dens, List.Forall₂ (fun b d => ResetLaw rt env b.2 d) bs dens →
      Yields rt env c (.or u bs none) (ss.flatMap (Den.or dens))) ∧
    (∀ oc ot oe Xc Xt Xe dc dt de, ResetLaw rt env Xc dc → ResetLaw rt env Xt dt →
      ResetLaw rt env Xe de →
      Yields rt env c (.ifelse u (oc, Xc) (ot, Xt) (oe, Xe) none) (ss.flatMap (Den.ifelse dc dt de))) ∧
    (∀ so X den keep, ResetLaw rt env X den → (∀ s ∈ ss, ∀ r ∈ den s, keep ≤ r.values.length) →
      Yields rt env c (.subx u so X keep none) (ss.flatMap (Den.subx rt keep den))) ∧
    (∀ so X den, ResetLaw rt env X den → (∀ s ∈ ss, ∀ r ∈ den s, r.values ≠ []) →
      Yields rt env c (.capture u so X) (ss.flatMap (Den.capture rt den))) ∧
    (∀ so st ch, Fits rt env ch st → so.stk = none → (∀ s ∈ ss, ch.Tops rt s) →
      Yields rt env c (.format u so st 0) (ss.flatMap (Den.format rt (ch.pairs rt)))) :=
  ⟨nop_refines hu, fun v => const_refines v hu, fun _ _ hp => assert_refines hp hu,
    fun _ _ hlaw => or_refines hlaw hu,
    fun oc ot oe _ _ _ _ _ _ hc ht he => ifelse_refines hc ht he oc ot oe hu,
    fun so _ _ keep hX hkeep => subx_refines hX keep so hkeep hu,
    fun so _ _ hX htop => capture_refines hX so htop hu,
    fun _ _ _ hst hso htops => format_refines hst hso 0 htops hu⟩

/-- Every operator over the two stacks that `[1, 2] elem` yields on the empty stack, with
`[1, 2] elem` as its sub-expression: `IfElse` drops its condition after the first of two
results, `Or` skips its first branch `[] elem`, takes both results of the second and skips
the third, `SubX` copies each stack once for each of two results, and `Format` numbers
the two pairs of each stack from 0 again. -/
theorem lazy_operators_refine_over_two_stacks :
    let u := pairElem.build .leaf
    let ss := pairElem.den Runtime.demo .empty
    let X := pairElem.build .leaf
    let dX := pairElem.den Runtime.demo
    let K (t : String) : Op := .const .leaf (.str t 0)
    let dK (t : String) := Den.const Runtime.demo (.str t 0)
    Yields Runtime.demo Env.demo (.origin (.primed .empty)) u ss ∧
    Yields Runtime.demo Env.demo (.origin (.primed .empty)) (.nop u) ss ∧
    Yields Runtime.demo Env.demo (.origin (.primed .empty)) (.const u (.str "a" 0))
      (ss.flatMap (dK "a")) ∧
    Yields Runtime.demo Env.demo (.origin (.primed .empty)) (.assert u (.subxAny .init X))
      (ss.flatMap (Den.assert fun s => if dX s ≠ [] then .yes else .no)) ∧
    Yields Runtime.demo Env.demo (.origin (.primed .empty))
      (.or u [(.init, emptyElem.build .leaf), (.init, X), (.init, K "c")] none)
      (ss.flatMap (Den.or [emptyElem.den Runtime.demo, dX, dK "c"])) ∧
    Yields Runtime.demo Env.demo (.origin (.primed .empty))
      (.ifelse u (.init, X) (.init, K "t") (.init, K "e") none)
      (ss.flatMap (Den.ifelse dX (dK "t") (dK "e"))) ∧
    Yields Runtime.demo Env.demo (.origin (.primed .empty)) (.subx u .init X 1 none)
      (ss.flatMap (Den.subx Runtime.demo 1 dX)) ∧
    Yields Runtime.demo Env.demo (.origin (.primed .empty)) (.capture u .init X)
      (ss.flatMap (Den.capture Runtime.demo dX)) ∧
    Yields Runtime.demo Env.demo (.origin (.primed .empty)) (.format u .init (.op .origin .init X false "") 0)
      (ss.flatMap (Den.format Runtime.demo ((Chain.op .origin dX).pairs Runtime.demo))) := by
  intro u ss X dX K dK
  have hok : pairElem.Ok Runtime.demo fun s => [s] := const_elem_ok _ _
  have hX : ResetLaw Runtime.demo Env.demo X dX := pairElem.resetLaw hok
  have hK : ∀ t, ResetLaw Runtime.demo Env.demo (K t) (dK t) := fun t => (Query.const _).resetLaw trivial
  have hleaf : Yields Runtime.demo Env.demo (.origin (.primed .empty)) .leaf [.empty] :=
    .cons ⟨2, rfl⟩ (.nil ⟨2, rfl⟩)
  have hu : Yields Runtime.demo Env.demo (.origin (.primed .empty)) u ss := by
    simpa only [List.flatMap_singleton] using pairElem.yields hok .empty hleaf
  have hne : ∀ s ∈ ss, ∀ r ∈ dX s, r.values ≠ [] := by decide
  have h := lazy_operators_refine hu
  exact ⟨hu, h.1, h.2.1 _, h.2.2.1 _ _ (subxAny_law hX .init),
    h.2.2.2.1 _ _ (.cons (emptyElem.resetLaw (const_elem_ok _ _)) (.cons hX (.cons (hK "c") .nil))),
    h.2.2.2.2.1 _ _ _ _ _ _ _ _ _ hX (hK "t") (hK "e"),
    h.2.2.2.2.2.1 _ _ _ _ hX fun s hs r hr => List.length_pos.2 (hne s hs r hr),
    h.2.2.2.2.2.2.1 _ _ _ hX hne,
    h.2.2.2.2.2.2.2 _ _ _ (.op .origin hX .base) rfl fun s hs => ⟨trivial, by simpa [Chain.pairs] using hne s hs⟩⟩

/-! ## `Capture` then `elem` -/

/-- `Capture X` then `elem` on a well-formed stack: the sequence `Capture` pushes is
popped again, and the values of its producer are pushed onto `s`. -/
theorem capture_elem {s : Stack} (hs : s.ProfileOk rt) (fwd : Bool) (den : Stack → List Stack) :
    (Den.capture rt den s).flatMap (Den.elem rt fwd) =
      (SeqProducer.values fwd ((den s).filterMap fun r => r.values.head?)).map (s.push rt) := by
  rw [Den.capture, List.flatMap_singleton, Den.elem, Stack.pop_push hs]

/-- The tops of stacks that each hold one, positioned from `k` on: each is of the type of
its stack's top and compares equal to it. -/
theorem tops_copies (h : rt.CopiesEqual) :
    ∀ (rs : List Stack) (k : Nat), (∀ r ∈ rs, r.values ≠ []) →
      List.Forall₂ (fun v r => ∃ t, r.values.head? = some t ∧ v.vtype = t.vtype ∧
          v.cmp rt t = .equal)
        (((rs.filterMap fun r => r.values.head?).enumFrom k).map fun (i, v) => v.setPos i) rs
  | [], _, _ => .nil
  | r :: rs, k, hne => by
    obtain ⟨t, ts, ht⟩ := List.exists_cons_of_ne_nil (hne r (List.mem_cons_self _ _))
    simp only [List.filterMap_cons, ht, List.head?_cons, List.enumFrom_cons, List.map_cons]
    exact .cons ⟨t, by rw [ht]; rfl, Value.vtype_setPos t k, cmp_setPos h t k⟩
      (tops_copies h rs (k + 1) fun r hr => hne r (List.mem_cons_of_mem _ hr))

/-- **`[X] elem` and `[X] relem` yield copies of the tops of `X`'s results.** Take a
runtime whose comparison finds a value equal to its copies, any sub-expression `X`
obeying the reset law with denotation `den`, and any well-formed stack `s` on which
every result of `X` has a value. Run over an origin primed with `s`, `[X] elem` yields
`s` with `v'₁`, …, `v'ₙ` pushed, one stack each, and null; each `v'ᵢ` is of the type of
the top of the `i`-th result of `X` on `s` and compares equal to it. `[X] relem` yields
the same with the results taken in reverse order. -/
theorem capture_elem_yields_copies (hcopy : rt.CopiesEqual) {X : Op} {den : Stack → List Stack}
    (hX : ResetLaw rt env X den) (so : Origin) (s : Stack) (hs : s.ProfileOk rt)
    (htop : ∀ r ∈ den s, r.values ≠ []) (fwd : Bool) :
    Yields rt env (.origin (.primed s)) (.elem (.capture .leaf so X) fwd none)
      ((SeqProducer.values fwd ((den s).filterMap fun r => r.values.head?)).map (s.push rt)) ∧
    List.Forall₂ (fun v r => ∃ t, r.values.head? = some t ∧ v.vtype = t.vtype ∧
        v.cmp rt t = .equal)
      (SeqProducer.values fwd ((den s).filterMap fun r => r.values.head?))
      (if fwd then den s else (den s).reverse) := by
  have hleaf : Yields rt env (.origin (.primed s)) .leaf [s] := .cons ⟨2, rfl⟩ (.nil ⟨2, rfl⟩)
  have hcap := capture_refines hX so (by simpa using htop) hleaf
  refine ⟨?_, ?_⟩
  · have h := elem_refines fwd (by simp [Den.capture, Stack.push]) hcap
    rwa [List.flatMap_singleton, capture_elem hs] at h
  · cases fwd
    · rw [SeqProducer.values, if_neg Bool.false_ne_true, ← List.filterMap_reverse]
      exact tops_copies hcopy _ 0 fun r hr => htop r (List.mem_reverse.1 hr)
    · exact tops_copies hcopy _ 0 htop

/-- `[[1, 2] elem] relem` on the empty stack: the two results of `[1, 2] elem` are
captured in their order, and `relem` pushes copies of their tops in reverse order,
numbered from 0. -/
theorem capture_relem_on_pairElem :
    Yields Runtime.demo Env.demo (.origin (.primed .empty))
        (.elem (.capture .leaf .init (pairElem.build .leaf)) false none)
        [Stack.empty.push Runtime.demo (.cst ⟨2, 0⟩ 0), Stack.empty.push Runtime.demo (.cst ⟨1, 0⟩ 1)] ∧
      List.Forall₂ (fun (v : Value) (r : Stack) => ∃ t, r.values.head? = some t ∧
          v.vtype = t.vtype ∧ v.cmp Runtime.demo t = .equal)
        [.cst ⟨2, 0⟩ 0, .cst ⟨1, 0⟩ 1] (pairElem.den Runtime.demo .empty).reverse :=
  capture_elem_yields_copies (fun _ _ _ => rfl) (pairElem.resetLaw (const_elem_ok _ _)) .init .empty
    Stack.profileOk_empty (by decide) false

end Dwgrep
