import Dwgrep.Graph.Format
import Dwgrep.Graph.Scope
import Dwgrep.Graph.Elem

/-!
# Queries of the lazy operators obey the reset law

The results on single operators (`capture_refines`, `subx_refines`, `or_refines`, …)
assume that each sub-expression obeys the reset law. This module closes the loop: every
query built from those operators obeys it, so the assumption holds of every query of the
fragment, however deeply its sub-expressions nest, and every such query computes its
list semantics.

* `Query`, `QPred`, `QChain` — the syntax of the fragment: `Nop`, `Const`, `Capture`,
  `SubX`, `Or`, `IfElse`, `elem`/`relem`, `Assert` over `!`, `&&`, `||` and `?( X )`,
  `LexClosure`, `Format` over a chain of literals and sub-expressions, and pipelines;
  `Query.build` assembles the operator graph over an upstream, each sub-expression over an
  origin of its own, and `Query.den` is the list semantics;
* `Query.Ok` — the side conditions under which no operator underflows: the stacks `elem`
  pops from, and the results whose tops `Capture`, `SubX` and the chain of `Format` take,
  hold enough values;
* `Closed Q` — a set of states that calls against an origin and resets do not leave;
  `Wraps P K G` — the states of one operator over upstream states in `P`;
* `LawOn Q den` — the reset law from every state in `Q`; `LawOn.wraps` lifts it through
  one operator, given the operator's reset and its refinement theorem;
* `Query.lawOn` — **every query of the fragment obeys the reset law over any upstream that
  does**; `query_refines` — **the graph of every query whose side conditions hold obeys
  the reset law with its list semantics, and run over an origin primed with `s` yields
  exactly `den s`**.

`TrClosure` is left out: after a reset it replays results of the previous run. So is
`Merge`, whose Tines lose results when nested; neither obeys the law. `Scope` and `Apply`
are left out as well.
-/

namespace Dwgrep

/-! ## Queries -/

mutual

/-- Queries of the lazy operators. A sub-expression is a query of its own, driven by its
operator over an origin of its own. -/
inductive Query where
  /-- `Nop`. -/
  | nop
  /-- The pipeline `a b`: `b` over the results of `a`. -/
  | cat (a b : Query)
  /-- `Const v`. -/
  | const (v : Value)
  /-- `Capture X`, written `[X]`. -/
  | capture (x : Query)
  /-- `SubX X keep`. -/
  | subx (x : Query) (keep : Nat)
  /-- `Or [a, b]`, written `a || b`. -/
  | alt (a b : Query)
  /-- `IfElse c t e`, written `if c then t else e`. -/
  | ifelse (c t e : Query)
  /-- `elem` (`forward`) or `relem`. -/
  | elem (forward : Bool)
  /-- `Assert p`. -/
  | assert (p : QPred)
  /-- `LexClosure body`. -/
  | lexClosure (body : Nat)
  /-- `Format` over a chain of stringers: an interpolated string literal. -/
  | format (ch : QChain)

/-- The predicates of queries. -/
inductive QPred where
  /-- `!p`. -/
  | not (a : QPred)
  /-- `p && q`. -/
  | and (a b : QPred)
  /-- `p || q`. -/
  | or (a b : QPred)
  /-- `?( X )`: `X` has a result. -/
  | subxAny (x : Query)

/-- The stringer chains of `Format`. -/
inductive QChain where
  /-- `stringer_origin`. -/
  | origin
  /-- `stringer_lit`: a literal fragment. -/
  | lit (up : QChain) (str : String)
  /-- `stringer_op`: an interpolated sub-expression, `%( X %)`. -/
  | op (up : QChain) (x : Query)

end

mutual

/-- The operator graph of a query over the upstream `u`. Each sub-expression is built
over a fresh origin of its own. -/
def Query.build : Query → Op → Op
  | .nop, u => .nop u
  | .cat a b, u => b.build (a.build u)
  | .const v, u => .const u v
  | .capture x, u => .capture u .init (x.build .leaf)
  | .subx x keep, u => .subx u .init (x.build .leaf) keep none
  | .alt a b, u => .or u [(.init, a.build .leaf), (.init, b.build .leaf)] none
  | .ifelse c t e, u =>
    .ifelse u (.init, c.build .leaf) (.init, t.build .leaf) (.init, e.build .leaf) none
  | .elem fwd, u => .elem u fwd none
  | .assert p, u => .assert u p.build
  | .lexClosure body, u => .lexClosure u body
  | .format ch, u => .format u .init ch.build 0

/-- The predicate of a query predicate. -/
def QPred.build : QPred → Pred
  | .not a => .not a.build
  | .and a b => .and a.build b.build
  | .or a b => .or a.build b.build
  | .subxAny x => .subxAny .init (x.build .leaf)

/-- The stringers of a chain, each sub-expression over a fresh origin of its own and no
stack held. -/
def QChain.build : QChain → Stringer
  | .origin => .origin
  | .lit up str => .lit up.build str
  | .op up x => .op up.build .init (x.build .leaf) false ""

end

mutual

/-- The list semantics of a query: the stacks it yields on one input stack. -/
def Query.den (rt : Runtime) : Query → Stack → List Stack
  | .nop => fun s => [s]
  | .cat a b => fun s => (a.den rt s).flatMap (b.den rt)
  | .const v => Den.const rt v
  | .capture x => Den.capture rt (x.den rt)
  | .subx x keep => Den.subx rt keep (x.den rt)
  | .alt a b => Den.or [a.den rt, b.den rt]
  | .ifelse c t e => Den.ifelse (c.den rt) (t.den rt) (e.den rt)
  | .elem fwd => Den.elem rt fwd
  | .assert p => Den.assert (p.den rt)
  | .lexClosure body => Den.lexClosure rt body
  | .format ch => Den.format rt ((ch.den rt).pairs rt)

/-- The semantics of a query predicate. -/
def QPred.den (rt : Runtime) : QPred → Stack → PredResult
  | .not a => fun s => (a.den rt s).not
  | .and a b => fun s => (a.den rt s).and (b.den rt s)
  | .or a b => fun s => (a.den rt s).or (b.den rt s)
  | .subxAny x => fun s => if x.den rt s ≠ [] then .yes else .no

/-- The spec's view of a chain: its literals, and the semantics of its sub-expressions. -/
def QChain.den (rt : Runtime) : QChain → Chain
  | .origin => .origin
  | .lit up str => .lit (up.den rt) str
  | .op up x => .op (up.den rt) (x.den rt)

end

mutual

/-- The side conditions of a query over an upstream whose stacks on an input `s` are
`d s`: the stacks `elem` pops from are not empty, every result whose top `Capture` takes
has one, and every result `SubX` extends from holds `keep` values. Sub-expressions run
on one stack each. -/
def Query.Ok (rt : Runtime) : Query → (Stack → List Stack) → Prop
  | .nop, _ => True
  | .cat a b, d => a.Ok rt d ∧ b.Ok rt fun s => (d s).flatMap (a.den rt)
  | .const _, _ => True
  | .capture x, d =>
    x.Ok rt (fun s => [s]) ∧ ∀ s, ∀ t ∈ d s, ∀ r ∈ x.den rt t, r.values ≠ []
  | .subx x keep, d =>
    x.Ok rt (fun s => [s]) ∧ ∀ s, ∀ t ∈ d s, ∀ r ∈ x.den rt t, keep ≤ r.values.length
  | .alt a b, _ => a.Ok rt (fun s => [s]) ∧ b.Ok rt fun s => [s]
  | .ifelse c t e, _ => c.Ok rt (fun s => [s]) ∧ t.Ok rt (fun s => [s]) ∧ e.Ok rt fun s => [s]
  | .elem _, d => ∀ s, ∀ t ∈ d s, t.values ≠ []
  | .assert p, _ => p.Ok rt
  | .lexClosure _, _ => True
  | .format ch, d => ch.Ok rt ∧ ∀ s, ∀ t ∈ d s, (ch.den rt).Tops rt t

/-- The side conditions of a query predicate: those of its sub-expressions. -/
def QPred.Ok (rt : Runtime) : QPred → Prop
  | .not a => a.Ok rt
  | .and a b => a.Ok rt ∧ b.Ok rt
  | .or a b => a.Ok rt ∧ b.Ok rt
  | .subxAny x => x.Ok rt fun s => [s]

/-- The side conditions of a chain: those of its sub-expressions. -/
def QChain.Ok (rt : Runtime) : QChain → Prop
  | .origin => True
  | .lit up _ => up.Ok rt
  | .op up x => up.Ok rt ∧ x.Ok rt fun s => [s]

end

variable {rt : Runtime} {env : Env}

/-! ## Reading the origin back -/

section Origins

variable {α : Type} {a : α} {so o : Origin} {x : Op} {s : Stack}

theorem eq_pure_of_subRun {r : Res (α × Op × Ctx)} (h : subRun r = pure (a, so, x)) :
    r = pure (a, x, .origin so) := by
  obtain ⟨⟨a', x', c⟩, hr, h⟩ := Res.bind_eq_pure h
  cases c with
  | origin o => cases Res.pure_inj h; exact hr
  | group => exact nomatch h

theorem eq_pure_of_subReset {r : Res (Op × Ctx)} (h : subReset r = pure (so, x)) :
    r = pure (x, .origin so) := by
  obtain ⟨⟨x', c⟩, hr, h⟩ := Res.bind_eq_pure h
  cases c with
  | origin o => cases Res.pure_inj h; exact hr
  | group => exact nomatch h

theorem eq_pure_of_prime {r : Res (Op × Ctx)} (h : prime r s = pure (so, x)) :
    ∃ o, r = pure (x, .origin o) ∧ o.setNext s = .ok so := by
  obtain ⟨⟨o, x'⟩, hr, h⟩ := Res.bind_eq_pure h
  obtain ⟨o', ho, h⟩ := Res.bind_eq_pure h
  cases Res.pure_inj h
  refine ⟨o, eq_pure_of_subReset hr, ?_⟩
  cases hs : o.setNext s with
  | error e => rw [Res.lift, hs] at ho; exact nomatch ho
  | ok o'' => rw [Res.lift, hs] at ho; cases Res.pure_inj ho; rfl

theorem prime_pure (h : o.setNext s = .ok so) : prime (pure (x, .origin o)) s = pure (so, x) := by
  simp only [prime, subReset, pure_bind, h, Res.lift_ok_bind]

end Origins

/-! ## Reachable states -/

section Reach

variable {X x y : Op}

theorem Reach.trans (hx : Reach rt env X x) (hy : Reach rt env x y) : Reach rt env X y := by
  induction hy with
  | base => exact hx
  | next _ ha ih => exact ih.next ha
  | reset _ hr ih => exact ih.reset hr

theorem ResetLaw.of_reach {den : Stack → List Stack} (h : ResetLaw rt env X den)
    (hx : Reach rt env X x) : ResetLaw rt env x den :=
  fun y hy => h y (hx.trans hy)

theorem PredReach.trans {p₀ p q : Pred} (hp : PredReach rt env p₀ p) (hq : PredReach rt env p q) :
    PredReach rt env p₀ q := by
  induction hq with
  | base => exact hp
  | step _ ha ih => exact ih.step ha

theorem PredLaw.of_reach {p₀ p : Pred} {P : Stack → PredResult} (h : PredLaw rt env p₀ P)
    (hp : PredReach rt env p₀ p) : PredLaw rt env p P :=
  fun q hq => h q (hp.trans hq)

end Reach

/-! ## Closed sets of states -/

/-- `Q` is closed under what an operator does to its sub-expression: a call of `next`
against an origin answers with a state in `Q` over an origin, and a reset against an
origin leaves a state in `Q`. -/
structure Closed (rt : Runtime) (env : Env) (Q : Op → Prop) : Prop where
  next : ∀ {n so o r o' c'}, Q o → next rt env n (.origin so) o = pure (r, o', c') →
    Q o' ∧ ∃ so', c' = .origin so'
  reset : ∀ {n so o o' c'}, Q o → reset rt env n (.origin so) o = pure (o', c') → Q o'

/-- The reset law from every state in `Q`. `ResetLaw X` is the law on the states `X`
reaches. -/
def LawOn (rt : Runtime) (env : Env) (Q : Op → Prop) (den : Stack → List Stack) : Prop :=
  ∀ x, Q x → ∀ so s, ∃ so' x' so'' x'',
    PrimeAnswers rt env so x s (so', x') ∧ SubRun rt env so' x' (den s) so'' x''

section Closed

variable {Q : Op → Prop} {X x : Op} {so : Origin} {l : List Stack}

/-- A closed set holds every state its members reach. -/
theorem Closed.reach (hQ : Closed rt env Q) (hX : Q X) (h : Reach rt env X x) : Q x := by
  induction h with
  | base => exact hX
  | next _ ha ih => obtain ⟨n, hn⟩ := ha; exact (hQ.next ih (eq_pure_of_subRun hn)).1
  | reset _ hr ih => exact hQ.reset ih (eq_pure_of_subReset hr)

theorem LawOn.resetLaw {den : Stack → List Stack} (h : LawOn rt env Q den) (hQ : Closed rt env Q)
    (hX : Q X) : ResetLaw rt env X den :=
  fun x hx => h x (hQ.reach hX hx)

theorem SubRun.yields {so' : Origin} {x' : Op} (h : SubRun rt env so x l so' x') :
    Yields rt env (.origin so) x l := by
  induction h with
  | last ha => obtain ⟨n, hn⟩ := ha; exact .nil ⟨n, eq_pure_of_subRun hn⟩
  | cons ha _ ih => obtain ⟨n, hn⟩ := ha; exact .cons ⟨n, eq_pure_of_subRun hn⟩ ih

/-- Run against an origin, a state of a closed set yields what a run of the
sub-expression yields. -/
theorem Yields.subRun (hQ : Closed rt env Q) (hx : Q x) (h : Yields rt env (.origin so) x l) :
    ∃ so' x', SubRun rt env so x l so' x' := by
  obtain ⟨c', x', hs, n, ⟨x'', c''⟩, hn⟩ := h
  generalize hc : Ctx.origin so = c at hs
  induction hs generalizing so with
  | nil =>
    subst hc
    obtain ⟨-, so', rfl⟩ := hQ.next hx hn
    exact ⟨so', x'', .last ⟨n, by rw [hn]; rfl⟩⟩
  | cons k hk _ ih =>
    subst hc
    obtain ⟨hx₁, so₁, rfl⟩ := hQ.next hx hk
    obtain ⟨so', x', h⟩ := ih hx₁ hn rfl
    exact ⟨so', x', .cons ⟨k, by rw [hk]; rfl⟩ h⟩

/-- The states of a bare origin. -/
theorem closed_leaf : Closed rt env (· = .leaf) := by
  refine ⟨fun {n so o r o' c'} ho h => ?_, fun {n so o o' c'} ho h => ?_⟩
  · subst ho
    obtain _ | _ | n := n
    · exact nomatch h
    · exact nomatch h
    · cases Res.pure_inj h; exact ⟨rfl, _, rfl⟩
  · subst ho
    obtain _ | _ | n := n
    · exact nomatch h
    · exact nomatch h
    · cases Res.pure_inj h; rfl

theorem lawOn_leaf : LawOn rt env (· = .leaf) fun s => [s] :=
  fun _ hx => leaf_law _ (hx ▸ .base)

end Closed

/-! ## The law through one operator -/

section Wraps

variable {σ : Type} {P : Op → Prop} {K : Op → σ → Op} {G : σ → Prop}

/-- **The reset law through one operator.** Let every state `K u b` of the operator over an
upstream state `u` reset to `K u' b'` when the upstream resets to `u'`, for a `b'` from
which the operator refines `d` over any upstream. Then the operator obeys the law with
`d` after the upstream's semantics, from every state. -/
theorem LawOn.wraps {dU d : Stack → List Stack} (hP : Closed rt env P) (hU : LawOn rt env P dU)
    (hQ : Closed rt env (Wraps P K G))
    (hK : ∀ b, G b → ∃ b', G b' ∧
      (∃ N, ∀ n, N ≤ n → ∀ c u, reset rt env (n + 1) c (K u b) = do
        let (u', c') ← reset rt env n c u
        pure (K u' b', c')) ∧
      ∀ c u s, Yields rt env c u (dU s) → Yields rt env c (K u b') ((dU s).flatMap d)) :
    LawOn rt env (Wraps P K G) fun s => (dU s).flatMap d := by
  rintro _ ⟨u, b, rfl, hu, hb⟩ so s
  obtain ⟨b', hb', ⟨N, hN⟩, hy⟩ := hK b hb
  obtain ⟨so', u', _, _, hp, hrun⟩ := hU u hu so s
  obtain ⟨M, hM⟩ := hp.ev
  obtain ⟨o, hr, hset⟩ := eq_pure_of_prime (hM (N + M) (by omega))
  obtain ⟨so₃, x₃, hsub⟩ := (hy _ _ s hrun.yields).subRun hQ ⟨u', b', rfl, hP.reset hu hr, hb'⟩
  refine ⟨so', K u' b', so₃, x₃, ⟨N + M + 1, ?_⟩, hsub⟩
  rw [hN _ (by omega), hr, pure_bind]
  exact prime_pure hset

end Wraps

/-- The graphs `F u` over the upstream states `u` in `P` lie in a closed set of states
that obeys the reset law with `den`. -/
def LawfulOn (rt : Runtime) (env : Env) (P : Op → Prop) (F : Op → Op) (den : Stack → List Stack) :
    Prop :=
  ∃ Q, Closed rt env Q ∧ (∀ u, P u → Q (F u)) ∧ LawOn rt env Q den

/-! ## Operators -/

section Operators

variable {P : Op → Prop} {dU : Stack → List Stack}

/-- The reset of an operator that resets its upstream and moves its own state from `b` to
`f b`. -/
theorem Closed.wraps_reset {σ : Type} {K : Op → σ → Op} {G : σ → Prop} (hP : Closed rt env P)
    {f : σ → σ} (hK : ∀ n c u b, Dwgrep.reset rt env (n + 1) c (K u b) = do
      let (u', c') ← Dwgrep.reset rt env n c u
      pure (K u' (f b), c'))
    (hG : ∀ b, G b → G (f b)) {n : Nat} {so : Origin} {o o' : Op} {c' : Ctx}
    (ho : Wraps P K G o) (h : Dwgrep.reset rt env n (.origin so) o = pure (o', c')) :
    Wraps P K G o' := by
  obtain ⟨u, b, rfl, hu, hb⟩ := ho
  obtain _ | n := n
  · exact nomatch h
  rw [hK] at h
  obtain ⟨⟨u', c₁⟩, h₁, h⟩ := Res.bind_eq_pure h
  cases Res.pure_inj h
  exact ⟨u', f b, rfl, hP.reset hu h₁, hG b hb⟩

/-- **An operator that passes each answer of its upstream on**, changed by `f`
(`Nop`, `Const`, `LexClosure`): with the law over its upstream, and its refinement
theorem, it obeys the law. -/
theorem lawfulOn_map {K : Op → Op} {d : Stack → List Stack} (hP : Closed rt env P)
    (hU : LawOn rt env P dU) (f : Option Stack → Option Stack)
    (hnext : ∀ n c u, next rt env (n + 1) c (K u) = do
      let (r, u', c') ← next rt env n c u
      pure (f r, K u', c'))
    (hreset : ∀ n c u, reset rt env (n + 1) c (K u) = do
      let (u', c') ← reset rt env n c u
      pure (K u', c'))
    (hrefines : ∀ c u ss, Yields rt env c u ss → Yields rt env c (K u) (ss.flatMap d)) :
    LawfulOn rt env P K fun s => (dU s).flatMap d := by
  have hQ : Closed rt env (Wraps P (fun u (_ : Unit) => K u) fun _ => True) := by
    refine ⟨?_, hP.wraps_reset (f := id) (fun n c u _ => hreset n c u) fun _ _ => trivial⟩
    rintro (_ | n) so _ r o' c' ⟨u, _, rfl, hu, -⟩ h
    · exact nomatch h
    rw [hnext] at h
    obtain ⟨⟨r₁, u₁, c₁⟩, h₁, h⟩ := Res.bind_eq_pure h
    cases Res.pure_inj h
    obtain ⟨hu₁, so₁, rfl⟩ := hP.next hu h₁
    exact ⟨⟨u₁, (), rfl, hu₁, trivial⟩, so₁, rfl⟩
  exact ⟨_, hQ, fun u hu => ⟨u, (), rfl, hu, trivial⟩, hU.wraps hP hQ fun _ _ =>
    ⟨(), trivial, ⟨0, fun n _ c u => hreset n c u⟩, fun c u _ h => hrefines c u _ h⟩⟩

theorem lawfulOn_nop (hP : Closed rt env P) (hU : LawOn rt env P dU) :
    LawfulOn rt env P .nop fun s => (dU s).flatMap fun s => [s] :=
  lawfulOn_map hP hU id (fun _ _ _ => by rw [next]; rfl) (fun _ _ _ => by rw [reset])
    fun _ _ _ h => by rw [List.flatMap_singleton']; exact nop_refines h

theorem lawfulOn_const (hP : Closed rt env P) (hU : LawOn rt env P dU) (v : Value) :
    LawfulOn rt env P (.const · v) fun s => (dU s).flatMap (Den.const rt v) :=
  lawfulOn_map hP hU (Option.map (·.push rt v.clone)) (fun _ _ _ => by rw [next])
    (fun _ _ _ => by rw [reset]) fun _ _ _ h => const_refines v h

theorem lawfulOn_lexClosure (hP : Closed rt env P) (hU : LawOn rt env P dU) (body : Nat) :
    LawfulOn rt env P (.lexClosure · body) fun s => (dU s).flatMap (Den.lexClosure rt body) :=
  lawfulOn_map hP hU (Option.map fun s => s.push rt (.closure body s.frame 0))
    (fun _ _ _ => by rw [next]) (fun _ _ _ => by rw [reset]) fun _ _ _ h => lexClosure_refines body h

/-- `elem` and `relem` over upstream states in `P`, on upstream stacks that are not empty. -/
theorem lawfulOn_elem (hP : Closed rt env P) (hU : LawOn rt env P dU) (fwd : Bool)
    (hne : ∀ s, ∀ t ∈ dU s, t.values ≠ []) :
    LawfulOn rt env P (.elem · fwd none) fun s => (dU s).flatMap (Den.elem rt fwd) := by
  have hQ : Closed rt env (Wraps P (fun u cur => .elem u fwd cur) fun _ => True) := by
    refine ⟨?_, hP.wraps_reset (f := fun _ => none) (fun n c u _ => by rw [reset]) fun _ _ => trivial⟩
    intro n
    induction n with
    | zero => intro _ _ _ _ _ _ h; exact nomatch h
    | succ n ih =>
      rintro so _ r o' c' ⟨u, _ | ⟨s, p⟩, rfl, hu, -⟩ h
      · rw [next] at h
        obtain ⟨⟨_ | s, u₁, c₁⟩, h₁, h⟩ := Res.bind_eq_pure h <;>
          obtain ⟨hu₁, so₁, rfl⟩ := hP.next hu h₁
        · cases Res.pure_inj h; exact ⟨⟨u₁, none, rfl, hu₁, trivial⟩, so₁, rfl⟩
        · obtain ⟨⟨v, s'⟩, -, h⟩ := Res.bind_eq_pure h
          obtain ⟨cur, h⟩ : ∃ cur, next rt env n (.origin so₁) (.elem u₁ fwd cur) = pure (r, o', c') := by
            cases v <;> exact ⟨_, h⟩
          exact ih ⟨u₁, cur, rfl, hu₁, trivial⟩ h
      · cases hp : p.next fwd with
        | none => rw [next_elem_end hp] at h; exact ih ⟨u, none, rfl, hu, trivial⟩ h
        | some vp =>
          rw [next_elem_some hp] at h
          cases Res.pure_inj h
          exact ⟨⟨u, _, rfl, hu, trivial⟩, so, rfl⟩
  exact ⟨_, hQ, fun u hu => ⟨u, none, rfl, hu, trivial⟩, hU.wraps hP hQ fun _ _ =>
    ⟨none, trivial, ⟨0, fun n _ c u => by rw [reset]⟩, fun c u s h => elem_refines fwd (hne s) h⟩⟩

/-- `Assert` over upstream states in `P`, with a predicate that obeys its law. -/
theorem lawfulOn_assert (hP : Closed rt env P) (hU : LawOn rt env P dU) {p₀ : Pred}
    {Pd : Stack → PredResult} (hp : PredLaw rt env p₀ Pd) :
    LawfulOn rt env P (.assert · p₀) fun s => (dU s).flatMap (Den.assert Pd) := by
  have hQ : Closed rt env (Wraps P .assert (PredReach rt env p₀)) := by
    refine ⟨?_, hP.wraps_reset (f := id) (fun n c u _ => by rw [reset]; rfl) fun _ h => h⟩
    intro n
    induction n with
    | zero => intro _ _ _ _ _ _ h; exact nomatch h
    | succ n ih =>
      rintro so _ r o' c' ⟨u, q, rfl, hu, hq⟩ h
      rw [next] at h
      obtain ⟨⟨_ | s, u₁, c₁⟩, h₁, h⟩ := Res.bind_eq_pure h <;>
        obtain ⟨hu₁, so₁, rfl⟩ := hP.next hu h₁
      · cases Res.pure_inj h; exact ⟨⟨u₁, q, rfl, hu₁, hq⟩, so₁, rfl⟩
      · obtain ⟨⟨pr, q₁⟩, h₂, h⟩ := Res.bind_eq_pure h
        have hq₁ := hq.step ⟨n, h₂⟩
        dsimp only at h
        split at h
        · cases Res.pure_inj h; exact ⟨⟨u₁, q₁, rfl, hu₁, hq₁⟩, so₁, rfl⟩
        · exact ih ⟨u₁, q₁, rfl, hu₁, hq₁⟩ h
  exact ⟨_, hQ, fun u hu => ⟨u, p₀, rfl, hu, .base⟩, hU.wraps hP hQ fun q hq =>
    ⟨q, hq, ⟨0, fun n _ c u => by rw [reset]⟩, fun c u _ h => assert_refines (hp.of_reach hq) h⟩⟩

/-- `SubX X keep` over upstream states in `P`, with `X` obeying the law and every result
it extends from holding `keep` values. -/
theorem lawfulOn_subx (hP : Closed rt env P) (hU : LawOn rt env P dU) {X : Op}
    {d : Stack → List Stack} (hX : ResetLaw rt env X d) (so : Origin) (keep : Nat)
    (hkeep : ∀ s, ∀ t ∈ dU s, ∀ r ∈ d t, keep ≤ r.values.length) :
    LawfulOn rt env P (.subx · so X keep none) fun s => (dU s).flatMap (Den.subx rt keep d) := by
  have hQ : Closed rt env (Wraps P (fun u (b : Origin × Op × Option Stack) =>
      .subx u b.1 b.2.1 keep b.2.2) fun b => Reach rt env X b.2.1) := by
    refine ⟨?_, hP.wraps_reset (f := fun b => (b.1, b.2.1, none)) (fun n c u _ => by rw [reset])
      fun _ h => h⟩
    intro n
    induction n with
    | zero => intro _ _ _ _ _ _ h; exact nomatch h
    | succ n ih =>
      rintro so _ r o' c' ⟨u, ⟨so₀, x, _ | m⟩, rfl, hu, hx⟩ h <;> rw [next] at h
      · obtain ⟨⟨_ | s, u₁, c₁⟩, h₁, h⟩ := Res.bind_eq_pure h <;>
          obtain ⟨hu₁, so₁, rfl⟩ := hP.next hu h₁
        · cases Res.pure_inj h; exact ⟨⟨u₁, _, rfl, hu₁, hx⟩, so₁, rfl⟩
        · obtain ⟨⟨so₂, x₂⟩, h₂, h⟩ := Res.bind_eq_pure h
          exact ih ⟨u₁, (so₂, x₂, some s), rfl, hu₁, hx.prime ⟨n, h₂⟩⟩ h
      · obtain ⟨⟨_ | t, so₁, x₁⟩, h₁, h⟩ := Res.bind_eq_pure h
        · exact ih ⟨u, (so₁, x₁, none), rfl, hu, hx.next ⟨n, h₁⟩⟩ h
        · obtain ⟨_, -, h⟩ := Res.bind_eq_pure h
          cases Res.pure_inj h
          exact ⟨⟨u, (so₁, x₁, some m), rfl, hu, hx.next ⟨n, h₁⟩⟩, so, rfl⟩
  exact ⟨_, hQ, fun u hu => ⟨u, (so, X, none), rfl, hu, .base⟩, hU.wraps hP hQ fun b hb =>
    ⟨(b.1, b.2.1, none), hb, ⟨0, fun n _ c u => by rw [reset]⟩,
      fun c u s h => subx_refines (hX.of_reach hb) keep b.1 (hkeep s) h⟩⟩

/-- `collect` drains a sub-expression into a state it reaches. -/
theorem collect_reach {X : Op} : ∀ {n so x vs so' x'}, Reach rt env X x →
    collect rt env n so x = pure (vs, so', x') → Reach rt env X x'
  | 0, _, _, _, _, _, _, h => nomatch h
  | n + 1, so, x, vs, so', x', hx, h => by
    rw [collect] at h
    obtain ⟨⟨_ | t, so₁, x₁⟩, h₁, h⟩ := Res.bind_eq_pure h
    · cases Res.pure_inj h; exact hx.next ⟨n, h₁⟩
    · obtain ⟨_, -, h⟩ := Res.bind_eq_pure h
      obtain ⟨⟨vs', so₂, x₂⟩, h₂, h⟩ := Res.bind_eq_pure h
      cases Res.pure_inj h
      exact collect_reach (hx.next ⟨n, h₁⟩) h₂

/-- `Capture X` over upstream states in `P`, with `X` obeying the law and every result
of it holding a value. -/
theorem lawfulOn_capture (hP : Closed rt env P) (hU : LawOn rt env P dU) {X : Op}
    {d : Stack → List Stack} (hX : ResetLaw rt env X d) (so : Origin)
    (htop : ∀ s, ∀ t ∈ dU s, ∀ r ∈ d t, r.values ≠ []) :
    LawfulOn rt env P (.capture · so X) fun s => (dU s).flatMap (Den.capture rt d) := by
  have hQ : Closed rt env (Wraps P (fun u (b : Origin × Op) => .capture u b.1 b.2)
      fun b => Reach rt env X b.2) := by
    refine ⟨?_, ?_⟩
    · rintro (_ | n) so _ r o' c' ⟨u, ⟨so₀, x⟩, rfl, hu, hx⟩ h
      · exact nomatch h
      rw [next] at h
      obtain ⟨⟨_ | s, u₁, c₁⟩, h₁, h⟩ := Res.bind_eq_pure h <;>
        obtain ⟨hu₁, so₁, rfl⟩ := hP.next hu h₁
      · cases Res.pure_inj h; exact ⟨⟨u₁, _, rfl, hu₁, hx⟩, so₁, rfl⟩
      · obtain ⟨⟨so₂, x₂⟩, h₂, h⟩ := Res.bind_eq_pure h
        obtain ⟨⟨vs, so₃, x₃⟩, h₃, h⟩ := Res.bind_eq_pure h
        cases Res.pure_inj h
        exact ⟨⟨u₁, (so₃, x₃), rfl, hu₁, collect_reach (hx.prime ⟨n, h₂⟩) h₃⟩, so₁, rfl⟩
    · rintro (_ | n) so _ o' c' ⟨u, ⟨so₀, x⟩, rfl, hu, hx⟩ h
      · exact nomatch h
      rw [reset] at h
      obtain ⟨⟨so₁, x₁⟩, h₁, h⟩ := Res.bind_eq_pure h
      obtain ⟨⟨u₁, c₁⟩, h₂, h⟩ := Res.bind_eq_pure h
      cases Res.pure_inj h
      exact ⟨u₁, (so₁, x₁), rfl, hP.reset hu h₂, hx.reset h₁⟩
  refine ⟨_, hQ, fun u hu => ⟨u, (so, X), rfl, hu, .base⟩, hU.wraps hP hQ fun b hb => ?_⟩
  obtain ⟨b', hb', N, hN⟩ := subReset_of_law hX hb b.1
  exact ⟨b', hb', ⟨N, fun n hn c u => by rw [reset]; simp only [hN n hn, pure_bind]⟩,
    fun c u s h => capture_refines (hX.of_reach hb') b'.1 (htop s) h⟩

/-- `IfElse c t e` over upstream states in `P`, with its three sub-expressions obeying the
law. -/
theorem lawfulOn_ifelse (hP : Closed rt env P) (hU : LawOn rt env P dU) {C T E : Op}
    {dc dt de : Stack → List Stack} (hC : ResetLaw rt env C dc) (hT : ResetLaw rt env T dt)
    (hE : ResetLaw rt env E de) (oc ot oe : Origin) :
    LawfulOn rt env P (.ifelse · (oc, C) (ot, T) (oe, E) none)
      fun s => (dU s).flatMap (Den.ifelse dc dt de) := by
  have hQ : Closed rt env (Wraps P
      (fun u (b : (Origin × Op) × (Origin × Op) × (Origin × Op) × Option Bool) =>
        .ifelse u b.1 b.2.1 b.2.2.1 b.2.2.2)
      fun b => Reach rt env C b.1.2 ∧ Reach rt env T b.2.1.2 ∧ Reach rt env E b.2.2.1.2) := by
    refine ⟨?_, hP.wraps_reset (f := fun b => (b.1, b.2.1, b.2.2.1, none))
      (fun n c u _ => by rw [reset]) fun _ h => h⟩
    intro n
    induction n with
    | zero => intro _ _ _ _ _ _ h; exact nomatch h
    | succ n ih =>
      rintro so _ r o' c' ⟨u, ⟨⟨oc, xc⟩, ⟨ot, xt⟩, ⟨oe, xe⟩, _ | sel⟩, rfl, hu, hc, ht, he⟩ h <;>
        rw [next] at h
      · obtain ⟨⟨_ | s, u₁, c₁⟩, h₁, h⟩ := Res.bind_eq_pure h <;>
          obtain ⟨hu₁, so₁, rfl⟩ := hP.next hu h₁
        · cases Res.pure_inj h
          exact ⟨⟨u₁, ((oc, xc), (ot, xt), (oe, xe), none), rfl, hu₁, hc, ht, he⟩, so₁, rfl⟩
        · obtain ⟨⟨oc₁, xc₁⟩, h₂, h⟩ := Res.bind_eq_pure h
          obtain ⟨⟨cr, oc₂, xc₂⟩, h₃, h⟩ := Res.bind_eq_pure h
          have hc' := (hc.prime ⟨n, h₂⟩).next ⟨n, h₃⟩
          obtain ⟨⟨ob, xb⟩, h₄, h⟩ := Res.bind_eq_pure h
          cases cr
          · exact ih ⟨u₁, ((oc₂, xc₂), (ot, xt), (ob, xb), some false), rfl, hu₁, hc', ht,
              he.prime ⟨n, h₄⟩⟩ h
          · exact ih ⟨u₁, ((oc₂, xc₂), (ob, xb), (oe, xe), some true), rfl, hu₁, hc',
              ht.prime ⟨n, h₄⟩, he⟩ h
      · obtain ⟨⟨_ | t, ob, xb⟩, h₁, h⟩ := Res.bind_eq_pure h <;> cases sel
        · exact ih ⟨u, ((oc, xc), (ot, xt), (ob, xb), none), rfl, hu, hc, ht, he.next ⟨n, h₁⟩⟩ h
        · exact ih ⟨u, ((oc, xc), (ob, xb), (oe, xe), none), rfl, hu, hc, ht.next ⟨n, h₁⟩, he⟩ h
        · cases Res.pure_inj h
          exact ⟨⟨u, ((oc, xc), (ot, xt), (ob, xb), some false), rfl, hu, hc, ht,
            he.next ⟨n, h₁⟩⟩, so, rfl⟩
        · cases Res.pure_inj h
          exact ⟨⟨u, ((oc, xc), (ob, xb), (oe, xe), some true), rfl, hu, hc, ht.next ⟨n, h₁⟩,
            he⟩, so, rfl⟩
  exact ⟨_, hQ, fun u hu => ⟨u, ((oc, C), (ot, T), (oe, E), none), rfl, hu, .base, .base, .base⟩,
    hU.wraps hP hQ fun b hb => ⟨(b.1, b.2.1, b.2.2.1, none), hb, ⟨0, fun n _ c u => by rw [reset]⟩,
      fun c u _ h => ifelse_refines (hC.of_reach hb.1) (hT.of_reach hb.2.1) (hE.of_reach hb.2.2)
        b.1.1 b.2.1.1 b.2.2.1.1 h⟩⟩

section Or

variable {α β : Type} {R : α → β → Prop} {a a' : α}

theorem forall₂_append_cons (h : ∀ b, R a b → R a' b) :
    ∀ {l₁ l₂ : List α} {ys : List β}, List.Forall₂ R (l₁ ++ a :: l₂) ys →
      List.Forall₂ R (l₁ ++ a' :: l₂) ys
  | [], _, _, .cons hb hl => .cons (h _ hb) hl
  | _ :: _, _, _, .cons hb hl => .cons hb (forall₂_append_cons h hl)

theorem forall₂_set (h : ∀ b, R a b → R a' b) :
    ∀ {l : List α} {ys : List β} {k : Nat}, List.Forall₂ R l ys → l[k]? = some a →
      List.Forall₂ R (l.set k a') ys
  | _ :: _, _, 0, .cons hb hl, hk => by
    rw [List.getElem?_cons_zero, Option.some.injEq] at hk
    subst hk
    exact .cons (h _ hb) hl
  | _ :: _, _, _ + 1, .cons hb hl, hk =>
    .cons hb (forall₂_set h hl (by rwa [List.getElem?_cons_succ] at hk))

/-- `op_or::reset_me` leaves branches that obey the law obeying it. -/
theorem Obeys.resetAll {dens : List (Stack → List Stack)} {bs : List (Origin × Op)}
    (h : Obeys rt env dens bs) : ∀ {n bs'}, resetAll rt env n bs = pure bs' → Obeys rt env dens bs' := by
  induction h with
  | nil =>
    rintro (_ | n) bs' hr
    · exact nomatch hr
    · cases Res.pure_inj hr; exact .nil
  | @cons b d bs dens hb _ ih =>
    rintro (_ | n) bs' hr
    · exact nomatch hr
    obtain ⟨o, x⟩ := b
    obtain ⟨X, hX, hx⟩ := hb
    rw [Dwgrep.resetAll] at hr
    obtain ⟨b', h₁, hr⟩ := Res.bind_eq_pure hr
    obtain ⟨bs'', h₂, hr⟩ := Res.bind_eq_pure hr
    cases Res.pure_inj hr
    exact .cons ⟨X, hX, hx.reset h₁⟩ (ih h₂)

/-- The states of `Or` over upstream states in `P`, with branches that obey the law with
`dens`: the loop over the branches and the run of the chosen one keep the branches
obeying it. -/
theorem closed_or (hP : Closed rt env P) (dens : List (Stack → List Stack)) :
    Closed rt env (Wraps P (fun u (b : List (Origin × Op) × Option Nat) => .or u b.1 b.2)
      fun b => Obeys rt env dens b.1) := by
  let Q := Wraps P (fun u (b : List (Origin × Op) × Option Nat) => Op.or u b.1 b.2)
    fun b => Obeys rt env dens b.1
  have key : ∀ n, (∀ {so u bs it r o' c'}, P u → Obeys rt env dens bs →
      next rt env n (.origin so) (.or u bs it) = pure (r, o', c') → Q o' ∧ ∃ so', c' = .origin so') ∧
    (∀ {so u s tried rest r o' c'}, P u → Obeys rt env dens (tried ++ rest) →
      tryBranches rt env n (.origin so) u s tried rest = pure (r, o', c') →
        Q o' ∧ ∃ so', c' = .origin so') := by
    intro n
    induction n with
    | zero => exact ⟨fun _ _ h => (nomatch h), fun _ _ h => (nomatch h)⟩
    | succ n ih =>
      refine ⟨fun {so u bs it r o' c'} hu hbs h => ?_, fun {so u s tried rest r o' c'} hu hbs h => ?_⟩
      · cases it with
        | none =>
          rw [next] at h
          obtain ⟨⟨_ | s, u₁, c₁⟩, h₁, h⟩ := Res.bind_eq_pure h <;>
            obtain ⟨hu₁, so₁, rfl⟩ := hP.next hu h₁
          · cases Res.pure_inj h; exact ⟨⟨u₁, (bs, none), rfl, hu₁, hbs⟩, so₁, rfl⟩
          · exact ih.2 hu₁ (show Obeys rt env dens ([] ++ bs) from hbs) h
        | some k =>
          rw [next] at h
          cases hk : bs[k]? with
          | none => rw [hk] at h; exact nomatch h
          | some b =>
            obtain ⟨o, x⟩ := b
            rw [hk] at h
            obtain ⟨⟨r₁, o₁, x₁⟩, h₁, h⟩ := Res.bind_eq_pure h
            have hbs' : Obeys rt env dens (bs.set k (o₁, x₁)) :=
              forall₂_set (fun _ ⟨X, hX, hx⟩ => ⟨X, hX, hx.next ⟨n, h₁⟩⟩) hbs hk
            cases r₁ with
            | some t =>
              cases Res.pure_inj h
              exact ⟨⟨u, (bs.set k (o₁, x₁), some k), rfl, hu, hbs'⟩, so, rfl⟩
            | none =>
              obtain ⟨bs'', h₂, h⟩ := Res.bind_eq_pure h
              exact ih.1 hu (hbs'.resetAll h₂) h
      · cases rest with
        | nil =>
          rw [tryBranches] at h
          exact ih.1 hu (by simpa using hbs) h
        | cons b rest =>
          obtain ⟨o, x⟩ := b
          rw [tryBranches] at h
          obtain ⟨⟨o₁, x₁⟩, h₁, h⟩ := Res.bind_eq_pure h
          obtain ⟨⟨r₂, o₂, x₂⟩, h₂, h⟩ := Res.bind_eq_pure h
          have hbs' : Obeys rt env dens (tried ++ (o₂, x₂) :: rest) := forall₂_append_cons
            (fun _ ⟨X, hX, hx⟩ => ⟨X, hX, (hx.prime ⟨n, h₁⟩).next ⟨n, h₂⟩⟩) hbs
          cases r₂ with
          | some t =>
            cases Res.pure_inj h
            exact ⟨⟨u, (tried ++ (o₂, x₂) :: rest, some tried.length), rfl, hu, hbs'⟩, so, rfl⟩
          | none => exact ih.2 hu (by simpa using hbs') h
  refine ⟨fun {n so o r o' c'} ho h => ?_, fun {n so o o' c'} ho h => ?_⟩
  · obtain ⟨u, ⟨bs, it⟩, rfl, hu, hbs⟩ := ho
    exact (key n).1 hu hbs h
  · obtain ⟨u, ⟨bs, it⟩, rfl, hu, hbs⟩ := ho
    obtain _ | n := n
    · exact nomatch h
    rw [reset] at h
    obtain ⟨bs', h₁, h⟩ := Res.bind_eq_pure h
    obtain ⟨⟨u', c₁⟩, h₂, h⟩ := Res.bind_eq_pure h
    cases Res.pure_inj h
    exact ⟨u', (bs', none), rfl, hP.reset hu h₂, hbs.resetAll h₁⟩

/-- `Or` over upstream states in `P`, with branches that obey the law. -/
theorem lawfulOn_or (hP : Closed rt env P) (hU : LawOn rt env P dU) {bs : List (Origin × Op)}
    {dens : List (Stack → List Stack)}
    (hlaw : List.Forall₂ (fun b d => ResetLaw rt env b.2 d) bs dens) :
    LawfulOn rt env P (.or · bs none) fun s => (dU s).flatMap (Den.or dens) := by
  have hQ := closed_or hP dens
  refine ⟨_, hQ, fun u hu => ⟨u, (bs, none), rfl, hu, hlaw.imp fun b _ h => ⟨b.2, h, .base⟩⟩,
    hU.wraps hP hQ fun b hb => ?_⟩
  obtain ⟨bs', hbs', N, hN⟩ := resetAll_of_obeys hb
  exact ⟨(bs', none), hbs', ⟨N, fun n hn c u => by rw [reset]; simp only [hN n hn, pure_bind]⟩,
    fun c u _ h => or_refines (hbs'.imp fun _ _ ⟨_, hX, hx⟩ => hX.of_reach hx) h⟩

end Or

section Format

variable {ch : Chain}

/-- A call of a stringer leaves it a state of its chain. -/
theorem ChainState.snext : ∀ {n : Nat} {st : Stringer} {so : Origin} {r st' so'},
    ChainState rt env ch st → snext rt env n so st = pure (r, st', so') → ChainState rt env ch st' := by
  intro n
  induction n generalizing ch with
  | zero => intro _ _ _ _ _ _ h; exact nomatch h
  | succ n ih =>
    intro st so r st' so' hst h
    cases hst with
    | origin => rw [snext] at h; cases Res.pure_inj h; exact .origin
    | lit x hst =>
      rw [snext] at h
      obtain ⟨⟨r₁, up₁, so₁⟩, h₁, h⟩ := Res.bind_eq_pure h
      cases Res.pure_inj h
      exact .lit x (ih hst h₁)
    | @op _ _ _ _ _ _ held _ hst hX hx =>
      cases held <;> rw [snext] at h
      · obtain ⟨⟨_ | ⟨s, t⟩, up₁, so₁⟩, h₁, h⟩ := Res.bind_eq_pure h
        · cases Res.pure_inj h; exact .op (ih hst h₁) hX hx
        · obtain ⟨⟨xo₁, x₁⟩, h₂, h⟩ := Res.bind_eq_pure h
          exact ih (.op (ih hst h₁) hX (hx.prime ⟨n, h₂⟩)) h
      · obtain ⟨⟨_ | t, xo₁, x₁⟩, h₁, h⟩ := Res.bind_eq_pure h
        · exact ih (.op hst hX (hx.next ⟨n, h₁⟩)) h
        · obtain ⟨_, -, h⟩ := Res.bind_eq_pure h
          cases Res.pure_inj h
          exact .op hst hX (hx.next ⟨n, h₁⟩)

/-- A reset of a stringer leaves it a state of its chain. -/
theorem ChainState.sreset : ∀ {n : Nat} {st : Stringer} {so : Origin} {st' so'},
    ChainState rt env ch st → sreset rt env n so st = pure (st', so') → ChainState rt env ch st' := by
  intro n
  induction n generalizing ch with
  | zero => intro _ _ _ _ _ h; exact nomatch h
  | succ n ih =>
    intro st so st' so' hst h
    cases hst with
    | origin => rw [sreset] at h; cases Res.pure_inj h; exact .origin
    | lit x hst =>
      rw [sreset] at h
      obtain ⟨⟨up₁, so₁⟩, h₁, h⟩ := Res.bind_eq_pure h
      cases Res.pure_inj h
      exact .lit x (ih hst h₁)
    | op hst hX hx =>
      rw [sreset] at h
      obtain ⟨⟨xo₁, x₁⟩, h₁, h⟩ := Res.bind_eq_pure h
      obtain ⟨⟨up₁, so₁⟩, h₂, h⟩ := Res.bind_eq_pure h
      cases Res.pure_inj h
      exact .op (ih hst h₂) hX (hx.reset h₁)

/-- `Format` over upstream states in `P`, with an idle state of a chain whose
sub-expressions obey the law, and a top on every result they have on the upstream's
stacks. -/
theorem lawfulOn_format (hP : Closed rt env P) (hU : LawOn rt env P dU) {st : Stringer}
    (hst : Fits rt env ch st) (so : Origin) (pos : Nat) (htops : ∀ s, ∀ t ∈ dU s, ch.Tops rt t) :
    LawfulOn rt env P (.format · so st pos) fun s => (dU s).flatMap (Den.format rt (ch.pairs rt)) := by
  have hQ : Closed rt env (Wraps P (fun u (b : Origin × Stringer × Nat) => .format u b.1 b.2.1 b.2.2)
      fun b => ChainState rt env ch b.2.1) := by
    refine ⟨?_, ?_⟩
    · intro n
      induction n with
      | zero => intro _ _ _ _ _ _ h; exact nomatch h
      | succ n ih =>
        rintro so _ r o' c' ⟨u, ⟨so₀, st₀, pos₀⟩, rfl, hu, hst₀⟩ h
        rw [next] at h
        obtain ⟨⟨r₁, st₁, so₁⟩, h₁, h⟩ := Res.bind_eq_pure h
        have hst₁ := hst₀.snext h₁
        cases r₁ with
        | some p =>
          cases Res.pure_inj h
          exact ⟨⟨u, (so₁, st₁, pos₀ + 1), rfl, hu, hst₁⟩, so, rfl⟩
        | none =>
          obtain ⟨⟨_ | s, u₁, c₁⟩, h₂, h⟩ := Res.bind_eq_pure h <;>
            obtain ⟨hu₁, so₂, rfl⟩ := hP.next hu h₂
          · cases Res.pure_inj h; exact ⟨⟨u₁, (so₁, st₁, pos₀), rfl, hu₁, hst₁⟩, so₂, rfl⟩
          · obtain ⟨⟨st₂, so₃⟩, h₃, h⟩ := Res.bind_eq_pure h
            obtain ⟨so₄, -, h⟩ := Res.bind_eq_pure h
            exact ih ⟨u₁, (so₄, st₂, 0), rfl, hu₁, hst₁.sreset h₃⟩ h
    · rintro (_ | n) so _ o' c' ⟨u, ⟨so₀, st₀, pos₀⟩, rfl, hu, hst₀⟩ h
      · exact nomatch h
      rw [reset] at h
      obtain ⟨⟨st₁, so₁⟩, h₁, h⟩ := Res.bind_eq_pure h
      obtain ⟨⟨u₁, c₁⟩, h₂, h⟩ := Res.bind_eq_pure h
      cases Res.pure_inj h
      exact ⟨u₁, (so₁, st₁, 0), rfl, hP.reset hu h₂, hst₀.sreset h₁⟩
  refine ⟨_, hQ, fun u hu => ⟨u, (so, st, pos), rfl, hu, hst.chainState⟩,
    hU.wraps hP hQ fun b hb => ?_⟩
  obtain ⟨st', hst', N, hN⟩ := hb.sreset_fits b.1
  exact ⟨(b.1.reset, st', 0), hst'.chainState,
    ⟨N, fun n hn c u => by rw [reset]; simp only [hN n hn, pure_bind]⟩,
    fun c u s h => format_refines hst' rfl 0 (htops s) h⟩

end Format

end Operators

/-! ## Queries -/

section Queries

/-- A sub-expression built over a bare origin obeys the reset law. -/
theorem LawfulOn.resetLaw {F : Op → Op} {den : Stack → List Stack}
    (h : LawfulOn rt env (· = .leaf) F fun s => [s].flatMap den) : ResetLaw rt env (F .leaf) den := by
  obtain ⟨Q, hQ, hF, hlaw⟩ := h
  simp only [List.flatMap_singleton] at hlaw
  exact hlaw.resetLaw hQ (hF _ rfl)

mutual

/-- **Every query of the fragment obeys the reset law over any upstream that does.** Over
upstream states `P` that the driver's calls do not leave and that obey the law with `dU`,
the graph of a query whose side conditions hold over `dU` lies in such a set of states,
obeying the law with `dU` followed by the query's semantics. -/
theorem Query.lawOn : ∀ (q : Query) {P : Op → Prop} {dU : Stack → List Stack},
    Closed rt env P → LawOn rt env P dU → q.Ok rt dU →
      LawfulOn rt env P q.build fun s => (dU s).flatMap (q.den rt)
  | .nop, _, _, hP, hU, _ => lawfulOn_nop hP hU
  | .cat a b, _, _, hP, hU, ⟨ha, hb⟩ => by
    obtain ⟨Qa, hQa, hFa, hla⟩ := a.lawOn hP hU ha
    obtain ⟨Qb, hQb, hFb, hlb⟩ := b.lawOn hQa hla hb
    refine ⟨Qb, hQb, fun u hu => hFb _ (hFa u hu), ?_⟩
    simpa only [List.flatMap_assoc] using hlb
  | .const v, _, _, hP, hU, _ => lawfulOn_const hP hU v
  | .capture x, _, _, hP, hU, ⟨hx, htop⟩ =>
    lawfulOn_capture hP hU (x.lawOn closed_leaf lawOn_leaf hx).resetLaw .init htop
  | .subx x keep, _, _, hP, hU, ⟨hx, hkeep⟩ =>
    lawfulOn_subx hP hU (x.lawOn closed_leaf lawOn_leaf hx).resetLaw .init keep hkeep
  | .alt a b, _, _, hP, hU, ⟨ha, hb⟩ =>
    lawfulOn_or hP hU (.cons (a.lawOn closed_leaf lawOn_leaf ha).resetLaw
      (.cons (b.lawOn closed_leaf lawOn_leaf hb).resetLaw .nil))
  | .ifelse c t e, _, _, hP, hU, ⟨hc, ht, he⟩ =>
    lawfulOn_ifelse hP hU (c.lawOn closed_leaf lawOn_leaf hc).resetLaw
      (t.lawOn closed_leaf lawOn_leaf ht).resetLaw (e.lawOn closed_leaf lawOn_leaf he).resetLaw
      .init .init .init
  | .elem fwd, _, _, hP, hU, hne => lawfulOn_elem hP hU fwd hne
  | .assert p, _, _, hP, hU, hp => lawfulOn_assert hP hU (p.predLaw hp)
  | .lexClosure body, _, _, hP, hU, _ => lawfulOn_lexClosure hP hU body
  | .format ch, _, _, hP, hU, ⟨hch, htops⟩ => lawfulOn_format hP hU (ch.fits hch) .init 0 htops

/-- Every query predicate whose sub-expressions meet their side conditions obeys the
predicate law with its semantics. -/
theorem QPred.predLaw : ∀ (p : QPred), p.Ok rt → PredLaw rt env p.build (p.den rt)
  | .not a, ha => not_law (a.predLaw ha)
  | .and a b, ⟨ha, hb⟩ => connective_law (connective_and rt env) (a.predLaw ha) (b.predLaw hb)
  | .or a b, ⟨ha, hb⟩ => connective_law (connective_or rt env) (a.predLaw ha) (b.predLaw hb)
  | .subxAny x, hx => subxAny_law (x.lawOn closed_leaf lawOn_leaf hx).resetLaw .init

/-- The stringers of a chain whose sub-expressions meet their side conditions are an idle
state of the chain's semantics. -/
theorem QChain.fits : ∀ (ch : QChain), ch.Ok rt → Fits rt env (ch.den rt) ch.build
  | .origin, _ => .origin
  | .lit up str, h => .lit str (up.fits h)
  | .op up x, ⟨hup, hx⟩ => .op (up.fits hup) (x.lawOn closed_leaf lawOn_leaf hx).resetLaw .base

end

/-- The graph of a query over a bare origin obeys the reset law with its semantics. -/
theorem Query.resetLaw (q : Query) (h : q.Ok rt fun s => [s]) :
    ResetLaw rt env (q.build .leaf) (q.den rt) :=
  (q.lawOn closed_leaf lawOn_leaf h).resetLaw

/-- A query's graph over an upstream that yields `dU s` yields the query's semantics of
each of those stacks, in order. -/
theorem Query.yields : ∀ (q : Query) {dU : Stack → List Stack}, q.Ok rt dU →
    ∀ {c : Ctx} {u : Op} (s : Stack), Yields rt env c u (dU s) →
      Yields rt env c (q.build u) ((dU s).flatMap (q.den rt))
  | .nop, _, _, _, _, _, h => by rw [Query.den, List.flatMap_singleton']; exact nop_refines h
  | .cat a b, _, ⟨ha, hb⟩, _, _, s, h => by
    rw [Query.den, ← List.flatMap_assoc]
    exact b.yields hb s (a.yields ha s h)
  | .const v, _, _, _, _, _, h => const_refines v h
  | .capture x, _, ⟨hx, htop⟩, _, _, s, h => capture_refines (x.resetLaw hx) .init (htop s) h
  | .subx x keep, _, ⟨hx, hkeep⟩, _, _, s, h => subx_refines (x.resetLaw hx) keep .init (hkeep s) h
  | .alt a b, _, ⟨ha, hb⟩, _, _, _, h => or_refines (.cons (a.resetLaw ha) (.cons (b.resetLaw hb) .nil)) h
  | .ifelse c t e, _, ⟨hc, ht, he⟩, _, _, _, h =>
    ifelse_refines (c.resetLaw hc) (t.resetLaw ht) (e.resetLaw he) .init .init .init h
  | .elem fwd, _, hne, _, _, s, h => elem_refines fwd (hne s) h
  | .assert p, _, hp, _, _, _, h => assert_refines (p.predLaw hp) h
  | .lexClosure body, _, _, _, _, _, h => lexClosure_refines body h
  | .format ch, _, ⟨hch, htops⟩, _, _, s, h => format_refines (ch.fits hch) rfl 0 (htops s) h

/-- **Queries of the lazy operators compute their list semantics.** For every query of
the fragment whose side conditions hold on single stacks, the operator graph built over a
bare origin obeys the reset law with the query's semantics, so it can serve as the
sub-expression of any operator; and run over an origin primed with any stack `s`, it
yields exactly the stacks `den s`, in order, and then null. -/
theorem query_refines (q : Query) (h : q.Ok rt fun s => [s]) :
    ResetLaw rt env (q.build .leaf) (q.den rt) ∧
      ∀ s, Yields rt env (.origin (.primed s)) (q.build .leaf) (q.den rt s) := by
  refine ⟨q.resetLaw h, fun s => ?_⟩
  have hleaf : Yields rt env (.origin (.primed s)) .leaf [s] := .cons ⟨2, rfl⟩ (.nil ⟨2, rfl⟩)
  simpa only [List.flatMap_singleton] using q.yields h s hleaf

/-- `[1 || 2] relem`: the capture of an alternation, taken apart again. -/
theorem query_refines_on_capture_relem :
    let q := Query.cat (.capture (.alt (.const (.cst ⟨1, 0⟩ 0)) (.const (.cst ⟨2, 0⟩ 0))))
      (.elem false)
    q.Ok Runtime.demo (fun s => [s]) ∧ ResetLaw Runtime.demo Env.demo (q.build .leaf) (q.den Runtime.demo) ∧
      ∀ s, Yields Runtime.demo Env.demo (.origin (.primed s)) (q.build .leaf) (q.den Runtime.demo s) :=
  have h : Query.Ok Runtime.demo (.cat (.capture (.alt (.const (.cst ⟨1, 0⟩ 0))
      (.const (.cst ⟨2, 0⟩ 0)))) (.elem false)) fun s => [s] := by
    simp [Query.Ok, Query.den, Den.capture, Den.or, Den.const, Stack.push]
  ⟨h, query_refines _ h⟩

end Queries

end Dwgrep
