import Dwgrep.Graph.Branch

/-!
# Format strings refine their list semantics

`Format` drives a chain of stringers rooted at its `stringer_origin` (`op.cc`,
`stringer_origin`, `stringer_lit`, `stringer_op`, `op_format`). The spec's view of such a
chain is a `Chain`: literal fragments, and sub-expressions with their denotations.
`Chain.pairs` gives the pairs `(stack, string)` that a chain emits on one stack.

* `Fits ch st`: the stringer state `st` is an idle state of the chain `ch`; `ChainState ch st`:
  any state of it, idle or holding a stack, which `stringer::reset` brings back to an idle
  one (`ChainState.sreset_fits`);
* `chain_run`: an idle chain whose origin holds `s` emits `ch.pairs s` and null, and
  comes back idle. A `stringer_op` is followed by induction on its upstream's run
  (`SRun.op`), and the results of its sub-expression by induction on their run
  (`op_segment`);
* `format_refines`: over an upstream that yields `s₁ … sₙ`, `Format` yields the pairs of
  each `ch.pairs sᵢ` with their strings pushed, positions counting from 0 for each `sᵢ`.
-/

namespace Dwgrep

/-! ## The spec's chains -/

/-- The spec's view of a stringer chain: its literal fragments, and the denotations of
its sub-expressions. -/
inductive Chain where
  | origin
  | lit (up : Chain) (str : String)
  | op (up : Chain) (den : Stack → List Stack)

namespace Chain

variable (rt : Runtime)

/-- A result `r` of a sub-expression, with its top popped and rendered before the
string `t`. -/
def rendered (t : String) (r : Stack) : Option (Stack × String) :=
  match r.pop rt with
  | .ok (v, r') => some (r', v.render rt ++ t)
  | .error _ => none

/-- The pairs a chain emits on `s`. The origin emits `s` with the empty string, a literal
puts its text before each string, and a sub-expression replaces each pair by its results
on the pair's stack, each with its top rendered before the pair's string. -/
def pairs : Chain → Stack → List (Stack × String)
  | origin, s => [(s, "")]
  | lit up x, s => (up.pairs s).map fun (r, t) => (r, x ++ t)
  | op up den, s => (up.pairs s).flatMap fun (r, t) => (den r).filterMap (rendered rt t)

/-- Every result of every sub-expression of the chain on `s` has a top to render. -/
def Tops : Chain → Stack → Prop
  | origin, _ => True
  | lit up _, s => up.Tops s
  | op up den, s => up.Tops s ∧ ∀ p ∈ up.pairs rt s, ∀ r ∈ den p.1, r.values ≠ []

theorem rendered_of_pop {t : String} {r r' : Stack} {v : Value} (h : r.pop rt = .ok (v, r')) :
    rendered rt t r = some (r', v.render rt ++ t) := by
  rw [rendered, h]

end Chain

/-- `Format`: the pairs of the chain on `s`, each stack with its string pushed, at the
pair's position in the list. -/
def Den.format (rt : Runtime) (pairs : Stack → List (Stack × String)) (s : Stack) :
    List Stack :=
  (pairs s).enum.map fun (j, r, t) => r.push rt (.str t j)

section Chains

variable (rt : Runtime) (env : Env)

/-- `Fits ch st`: the stringer state `st` is an idle state of the chain `ch`. It has
`ch`'s shape and texts, no `stringer_op` holds a stack (`m_have` is false), and each
sub-expression is in a state reached from one that obeys the reset law with `ch`'s
denotation. -/
inductive Fits : Chain → Stringer → Prop
  | origin : Fits .origin .origin
  | lit {ch st} (x : String) : Fits ch st → Fits (.lit ch x) (.lit st x)
  | op {ch st den X xo x str} : Fits ch st → ResetLaw rt env X den → Reach rt env X x →
      Fits (.op ch den) (.op st xo x false str)

/-- `ChainState ch st`: the stringer state `st` is a state of the chain `ch`, idle or not:
as in `Fits`, but a `stringer_op` may hold a stack (`m_have`). -/
inductive ChainState : Chain → Stringer → Prop
  | origin : ChainState .origin .origin
  | lit {ch st} (x : String) : ChainState ch st → ChainState (.lit ch x) (.lit st x)
  | op {ch st den X xo x held str} : ChainState ch st → ResetLaw rt env X den →
      Reach rt env X x → ChainState (.op ch den) (.op st xo x held str)

/-- A call of the stringer `st` over the origin `so` returns `a`, given enough fuel. -/
def SAnswers (so : Origin) (st : Stringer) (a : Option (Stack × String) × Stringer × Origin) :
    Prop :=
  ∃ n, snext rt env n so st = pure a

/-- `SRun so st ps so' st'`: from `st` over `so`, the chain emits the pairs `ps` and then
null, and ends in `st'` over `so'`. -/
inductive SRun : Origin → Stringer → List (Stack × String) → Origin → Stringer → Prop
  | last {so st so' st'} : SAnswers rt env so st (none, st', so') → SRun so st [] so' st'
  | cons {so st p so₁ st₁ ps so' st'} : SAnswers rt env so st (some p, st₁, so₁) →
      SRun so₁ st₁ ps so' st' → SRun so st (p :: ps) so' st'

end Chains

variable {rt : Runtime} {env : Env}

/-! ## Transitions of the stringers and of `Format` -/

section Steps

variable {n : Nat} {so so₁ so₂ : Origin} {up up₁ st st₁ st₂ : Stringer} {xo xo₁ : Origin}
  {x x₁ : Op} {str t : String} {s r r' : Stack} {c c₁ : Ctx} {u u₁ : Op} {pos : Nat}

theorem snext_origin :
    snext rt env (n + 1) so .origin = pure (so.next.1.map (·, ""), .origin, so.next.2) := by
  rw [snext]

theorem snext_lit {p : Option (Stack × String)} (h : snext rt env n so up = pure (p, up₁, so₁)) :
    snext rt env (n + 1) so (.lit up str) =
      pure (p.map fun (s, t) => (s, str ++ t), .lit up₁ str, so₁) := by
  rw [snext]; simp only [h, pure_bind]

theorem snext_op_null (h : snext rt env n so up = pure (none, up₁, so₁)) :
    snext rt env (n + 1) so (.op up xo x false str) = pure (none, .op up₁ xo x false str, so₁) := by
  rw [snext]; simp only [h, pure_bind]

/-- A `stringer_op` that holds no stack pulls one and primes its sub-expression with it. -/
theorem snext_op_pull (h : snext rt env n so up = pure (some (s, t), up₁, so₁))
    (hp : prime (reset rt env n (.origin xo) x) s = pure (xo₁, x₁)) :
    snext rt env (n + 1) so (.op up xo x false str) = snext rt env n so₁ (.op up₁ xo₁ x₁ true t) := by
  rw [snext]; simp only [h, hp, pure_bind]

theorem snext_op_some {v : Value} (hx : subRun (next rt env n (.origin xo) x) = pure (some r, xo₁, x₁))
    (hr : r.pop rt = .ok (v, r')) :
    snext rt env (n + 1) so (.op up xo x true str) =
      pure (some (r', v.render rt ++ str), .op up xo₁ x₁ true str, so) := by
  rw [snext]; simp only [hx, hr, pure_bind, Res.lift]; rfl

theorem snext_op_end (hx : subRun (next rt env n (.origin xo) x) = pure (none, xo₁, x₁)) :
    snext rt env (n + 1) so (.op up xo x true str) = snext rt env n so (.op up xo₁ x₁ false str) := by
  rw [snext]; simp only [hx, pure_bind]

theorem next_format_some (h : snext rt env n so st = pure (some (r, t), st₁, so₁)) :
    next rt env (n + 1) c (.format u so st pos) =
      pure (some (r.push rt (.str t pos)), .format u so₁ st₁ (pos + 1), c) := by
  rw [next]; simp only [h, pure_bind]

theorem next_format_null (h : snext rt env n so st = pure (none, st₁, so₁))
    (hu : next rt env n c u = pure (none, u₁, c₁)) :
    next rt env (n + 1) c (.format u so st pos) = pure (none, .format u₁ so₁ st₁ pos, c₁) := by
  rw [next]; simp only [h, hu, pure_bind]

/-- Once the chain is drained, `Format` pulls an upstream stack, resets the chain and
primes its origin, and starts again at position 0. -/
theorem next_format_pull {so' so'' : Origin} {st' : Stringer}
    (h : snext rt env n so st = pure (none, st₁, so₁)) (hu : next rt env n c u = pure (some s, u₁, c₁))
    (hr : sreset rt env n so₁ st₁ = pure (st', so')) (hs : so'.setNext s = .ok so'') :
    next rt env (n + 1) c (.format u so st pos) = next rt env n c₁ (.format u₁ so'' st' 0) := by
  rw [next]; simp only [h, hu, hr, hs, pure_bind, Res.lift]; rfl

/-- Two states of `Format` whose chains answer null alike answer alike. -/
theorem next_format_congr (h₁ : snext rt env n so st = pure (none, st₁, so₁))
    (h₂ : snext rt env n so₂ st₂ = pure (none, st₁, so₁)) :
    next rt env (n + 1) c (.format u so st pos) = next rt env (n + 1) c (.format u so₂ st₂ pos) := by
  rw [next, next]; simp only [h₁, h₂, pure_bind]

end Steps

/-! ## Runs of a chain -/

section Runs

variable {so so' : Origin} {st st' : Stringer} {ps : List (Stack × String)}

theorem SAnswers.ev {a : Option (Stack × String) × Stringer × Origin} (h : SAnswers rt env so st a) :
    ∃ N, ∀ n, N ≤ n → snext rt env n so st = pure a :=
  let ⟨N, hN⟩ := h
  ⟨N, fun _ hn => (snext_mono hn so st).eq_pure hN⟩

/-- A state whose calls answer as another's runs as the other does. -/
theorem SRun.of_answers {so₁ : Origin} {st₁ : Stringer}
    (h : ∀ a, SAnswers rt env so₁ st₁ a → SAnswers rt env so st a)
    (hr : SRun rt env so₁ st₁ ps so' st') : SRun rt env so st ps so' st' := by
  cases hr with
  | last ha => exact .last (h _ ha)
  | cons ha hr => exact .cons (h _ ha) hr

/-- A state that steps, from some fuel on, to another runs as the other does. -/
theorem SRun.of_step {so₁ : Origin} {st₁ : Stringer} {N : Nat}
    (h : ∀ n, N ≤ n → snext rt env (n + 1) so st = snext rt env n so₁ st₁)
    (hr : SRun rt env so₁ st₁ ps so' st') : SRun rt env so st ps so' st' :=
  hr.of_answers fun _ ⟨k, hk⟩ =>
    ⟨N + k + 1, by rw [h _ (by omega)]; exact (snext_mono (by omega) _ _).eq_pure hk⟩

/-- A literal puts its text before each string of its upstream's run. -/
theorem SRun.lit (x : String) (h : SRun rt env so st ps so' st') :
    SRun rt env so (.lit st x) (ps.map fun (s, t) => (s, x ++ t)) so' (.lit st' x) := by
  induction h with
  | last ha =>
    obtain ⟨n, hn⟩ := ha
    exact .last ⟨n + 1, snext_lit hn⟩
  | cons ha _ ih =>
    obtain ⟨n, hn⟩ := ha
    exact .cons ⟨n + 1, snext_lit hn⟩ ih

/-- The pairs a `stringer_op` emits while it holds a stack: its sub-expression's results,
by induction on their run. -/
theorem op_segment {so₁ : Origin} {up : Stringer} {xo'' : Origin} {x'' : Op} {t : String}
    {K : List (Stack × String)} (hK : SRun rt env so₁ (.op up xo'' x'' false t) K so' st') :
    ∀ {xo x ts}, SubRun rt env xo x ts xo'' x'' → (∀ r ∈ ts, r.values ≠ []) →
      SRun rt env so₁ (.op up xo x true t) (ts.filterMap (Chain.rendered rt t) ++ K) so' st' := by
  intro xo x ts h hts
  induction h with
  | last ha =>
    obtain ⟨N, hN⟩ := ha.ev
    exact hK.of_step fun n hn => snext_op_end (hN n hn)
  | @cons _ _ r _ _ _ _ _ ha _ ih =>
    obtain ⟨v, vs, hv⟩ : ∃ v vs, r.values = v :: vs :=
      List.exists_cons_of_ne_nil (hts r (List.mem_cons_self _ _))
    obtain ⟨r', hp, -⟩ := Stack.pop_of_values rt hv
    obtain ⟨N, hN⟩ := ha.ev
    rw [List.filterMap_cons, Chain.rendered_of_pop rt hp, List.cons_append]
    exact .cons ⟨N + 1, snext_op_some (hN N (Nat.le_refl _)) hp⟩
      (ih hK fun r hr => hts r (List.mem_cons_of_mem _ hr))

/-- **A `stringer_op` over its upstream's run.** For each pair of the upstream, it
primes its sub-expression with the pair's stack and emits the results. -/
theorem SRun.op {X : Op} {den : Stack → List Stack} (hX : ResetLaw rt env X den)
    (h : SRun rt env so st ps so' st') :
    ∀ {xo x str}, Reach rt env X x → (∀ p ∈ ps, ∀ r ∈ den p.1, r.values ≠ []) →
      ∃ xo' x' str', Reach rt env X x' ∧
        SRun rt env so (.op st xo x false str)
          (ps.flatMap fun (r, t) => (den r).filterMap (Chain.rendered rt t)) so'
          (.op st' xo' x' false str') := by
  induction h with
  | last ha =>
    intro xo x str hx _
    obtain ⟨n, hn⟩ := ha
    exact ⟨xo, x, str, hx, .last ⟨n + 1, snext_op_null hn⟩⟩
  | @cons _ _ p _ _ _ _ _ ha _ ih =>
    intro xo x str hx hps
    obtain ⟨r, t⟩ := p
    obtain ⟨xo₁, x₁, xo'', x'', hp, hrun, hx''⟩ := hX.run hx xo r
    obtain ⟨xo', x', str', hx', hrest⟩ :=
      @ih xo'' x'' t hx'' fun p hp => hps p (List.mem_cons_of_mem _ hp)
    refine ⟨xo', x', str', hx', ?_⟩
    rw [List.flatMap_cons]
    obtain ⟨N, hN⟩ := ha.ev
    obtain ⟨M, hM⟩ := hp.ev
    exact (op_segment hrest hrun (hps _ (List.mem_cons_self _ _))).of_step (N := N + M)
      fun n hn => snext_op_pull (hN n (by omega)) (hM n (by omega))

/-- **The run of a chain.** An idle chain whose origin holds `s` emits `ch.pairs s` and
null, empties its origin, and comes back idle. -/
theorem chain_run {ch : Chain} (h : Fits rt env ch st) {s : Stack} (hs : ch.Tops rt s) (b : Bool) :
    ∃ st', Fits rt env ch st' ∧ SRun rt env ⟨some s, b⟩ st (ch.pairs rt s) ⟨none, b⟩ st' := by
  induction h with
  | origin => exact ⟨.origin, .origin, .cons ⟨1, snext_origin⟩ (.last ⟨1, snext_origin⟩)⟩
  | lit x _ ih =>
    obtain ⟨st', hst', hr⟩ := ih hs
    exact ⟨_, .lit x hst', hr.lit x⟩
  | op _ hX _ ih =>
    obtain ⟨st', hst', hr⟩ := ih hs.1
    obtain ⟨xo', x', str', hx', hr'⟩ := hr.op hX ‹_› hs.2
    exact ⟨_, .op hst' hX hx', hr'⟩

/-- An idle chain over an empty origin answers null and stays as it is. -/
theorem snext_idle {ch : Chain} (h : Fits rt env ch st) {so : Origin} (hso : so.stk = none) :
    SAnswers rt env so st (none, st, so) := by
  induction h with
  | origin =>
    obtain ⟨stk, b⟩ := so
    cases hso
    exact ⟨1, snext_origin⟩
  | lit _ _ ih =>
    obtain ⟨n, hn⟩ := ih
    exact ⟨n + 1, snext_lit hn⟩
  | op _ _ _ ih =>
    obtain ⟨n, hn⟩ := ih
    exact ⟨n + 1, snext_op_null hn⟩

theorem Fits.chainState {ch : Chain} (h : Fits rt env ch st) : ChainState rt env ch st := by
  induction h with
  | origin => exact .origin
  | lit x _ ih => exact .lit x ih
  | op _ hX hx ih => exact .op ih hX hx

/-- `stringer::reset` returns on every state of a chain, leaves it idle and resets its
origin. -/
theorem ChainState.sreset_fits {ch : Chain} (h : ChainState rt env ch st) (so : Origin) :
    ∃ st', Fits rt env ch st' ∧ ∃ N, ∀ n, N ≤ n → sreset rt env n so st = pure (st', so.reset) := by
  induction h with
  | origin => exact ⟨.origin, .origin, 1, fun n hn => by
      obtain ⟨k, rfl⟩ : ∃ k, n = k + 1 := ⟨n - 1, by omega⟩
      rw [sreset]⟩
  | lit x _ ih =>
    obtain ⟨st', hst', N, hN⟩ := ih
    refine ⟨_, .lit x hst', N + 1, fun n hn => ?_⟩
    obtain ⟨k, rfl⟩ : ∃ k, n = k + 1 := ⟨n - 1, by omega⟩
    rw [sreset]; simp only [hN k (by omega), pure_bind]
  | @op _ _ _ _ xo _ _ str _ hX hx ih =>
    obtain ⟨b, hb, M, hM⟩ := subReset_of_law hX hx xo
    obtain ⟨st', hst', N, hN⟩ := ih
    refine ⟨.op st' b.1 b.2 false str, .op hst' hX hb, N + M + 1, fun n hn => ?_⟩
    obtain ⟨k, rfl⟩ : ∃ k, n = k + 1 := ⟨n - 1, by omega⟩
    rw [sreset]; simp only [hM k (by omega), hN k (by omega), pure_bind]

/-- `stringer::reset` returns on an idle chain, leaves it idle and resets its origin. -/
theorem sreset_fits {ch : Chain} (h : Fits rt env ch st) (so : Origin) :
    ∃ st', Fits rt env ch st' ∧ ∃ N, ∀ n, N ≤ n → sreset rt env n so st = pure (st', so.reset) :=
  h.chainState.sreset_fits so

end Runs

/-! ## Format -/

/-- The stacks `Format` yields over a run of its chain, positions counting from `pos`. -/
theorem format_segment {R : Op → List Stack → Prop} {c : Ctx} (hR : Resumes rt env R R c c)
    {so' : Origin} {st'' : Stringer} (hidle : SAnswers rt env so' st'' (none, st'', so')) {u : Op}
    {l : List Stack} :
    ∀ {so st ps}, SRun rt env so st ps so' st'' → ∀ pos,
      R (.format u so' st'' (pos + ps.length)) l →
      R (.format u so st pos) ((ps.enumFrom pos).map (fun (j, r, t) => r.push rt (.str t j)) ++ l) := by
  intro so st ps h
  induction h with
  | last ha =>
    intro pos hl
    refine hR.of_answers (fun a ⟨k, hk⟩ => ?_) hl
    obtain ⟨N, hN⟩ := ha.ev
    obtain ⟨M, hM⟩ := hidle.ev
    exact ⟨N + M + k + 1, by
      rw [next_format_congr (hN _ (by omega)) (hM _ (by omega))]
      exact (next_mono (by omega) _ _).eq_pure hk⟩
  | @cons _ _ p _ _ ps _ _ ha _ ih =>
    intro pos hl
    obtain ⟨r, t⟩ := p
    obtain ⟨N, hN⟩ := ha
    rw [List.enumFrom_cons, List.map_cons, List.cons_append]
    exact hR.cons ⟨N + 1, next_format_some hN⟩
      (ih hidle (pos + 1) (by rwa [List.length_cons, ← Nat.add_assoc, Nat.add_right_comm] at hl))

/-- `Format` turns each upstream stack `s` into the pairs its chain emits on `s`, from
every idle state of its chain. -/
theorem segmentLaw_format (ch : Chain) :
    SegmentLaw rt env (fun u (b : Origin × Stringer × Nat) => .format u b.1 b.2.1 b.2.2)
      (fun b => b.1.stk = none ∧ Fits rt env ch b.2.1) (fun s => ch.Tops rt s)
      (Den.format rt (ch.pairs rt)) := by
  refine ⟨?_, ?_⟩
  · rintro c u ⟨so, st, pos⟩ u' c' ⟨hso, hst⟩ ⟨n, hn⟩
    obtain ⟨N, hN⟩ := (snext_idle hst hso).ev
    exact ⟨(so, st, pos), ⟨hso, hst⟩, N + n + 1,
      next_format_null (hN _ (by omega)) ((next_mono (by omega) _ _).eq_pure hn)⟩
  · rintro c u ⟨so, st, pos⟩ s u₁ c₁ ⟨hso, hst⟩ hs hu
    obtain ⟨st', hst', M, hM⟩ := sreset_fits hst so
    obtain ⟨st'', hst'', hrun⟩ := chain_run hst' hs false
    refine ⟨(⟨none, false⟩, st'', 0 + (ch.pairs rt s).length), ⟨rfl, hst''⟩,
      fun _ _ hR hR₁ l hl => ?_⟩
    obtain ⟨N, hN⟩ := (snext_idle hst hso).ev
    obtain ⟨K, hK⟩ := hu.ev
    exact hR.of_step (N := N + K + M) (fun n hn =>
      next_format_pull (hN n (by omega)) (hK n (by omega)) (hM n (by omega)) rfl)
      (format_segment hR₁ (snext_idle hst'' rfl) hrun 0 hl)

/-- **`Format`** yields, for each upstream stack `s`, the pairs its chain emits on `s`,
each stack with its string pushed at the pair's position; positions start again from 0
for each upstream stack. -/
theorem format_refines {ch : Chain} {so : Origin} {st : Stringer} (hst : Fits rt env ch st)
    (hso : so.stk = none) (pos : Nat) {c : Ctx} {u : Op} {ss : List Stack}
    (htops : ∀ s ∈ ss, ch.Tops rt s) (hu : Yields rt env c u ss) :
    Yields rt env c (.format u so st pos) (ss.flatMap (Den.format rt (ch.pairs rt))) :=
  (segmentLaw_format ch).yields hu htops (so, st, pos) ⟨hso, hst⟩

end Dwgrep
