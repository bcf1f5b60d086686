import Dwgrep.Graph.Fuel

/-!
# Sub-expressions that obey the reset law

An operator drives each of its sub-expressions through `reset`, `set_next` and `next`,
against the sub-expression's own origin. The results about operators assume what the
spec calls the *reset law* of a sub-expression: from any state, after `reset ()` and
`set_next (s)`, it yields a list `den s` of stacks and then null. This module states
that law over the interpreter and gives the lemmas that runs are built from.

* `Answers`, `SubAnswers`, `PrimeAnswers`, `PredAnswers` — a call returns a given
  answer with some fuel; by fuel monotonicity it then returns it with any more fuel;
* `SubRun` — a sub-expression driven against its origin yields a list, then null;
* `Reach X` — the states a sub-expression reaches from `X` through calls and resets;
* `ResetLaw X den`, `PredLaw p P` — the laws, from every reachable state;
* `Yields.of_answers`, `Yields.of_step`, `Yields.cons` — a run is determined by the
  answers of its calls; `Resumes` names these two closure properties of a predicate on
  runs, so that what an operator yields between two calls of its upstream is stated
  once, for `Yields` and for the turns of a Tine group's peers alike;
* `Yields.of_segments` — **the upstream induction**, once for every operator: an
  operator that turns each upstream stack `s` into `den s` and passes on the upstream's
  null yields the concatenation over the whole upstream run; `SegmentLaw` is that
  behaviour of one operator, and `SegmentLaw.yields` the induction from it;
* `leaf_law` — a bare origin obeys the law, with `den s = [s]`.
-/

namespace Dwgrep

section Answers

variable (rt : Runtime) (env : Env)

/-- A call of `o` from `c` returns `a`, given enough fuel. -/
def Answers (c : Ctx) (o : Op) (a : Option Stack × Op × Ctx) : Prop :=
  ∃ n, next rt env n c o = pure a

/-- A call of the sub-expression `x` against its origin `so` returns `a`, given enough
fuel. -/
def SubAnswers (so : Origin) (x : Op) (a : Option Stack × Origin × Op) : Prop :=
  ∃ n, subRun (next rt env n (.origin so) x) = pure a

/-- Resetting the sub-expression `x` and priming its origin with `s` returns `a`, given
enough fuel. -/
def PrimeAnswers (so : Origin) (x : Op) (s : Stack) (a : Origin × Op) : Prop :=
  ∃ n, prime (reset rt env n (.origin so) x) s = pure a

/-- The predicate `p` answers `a` on `s`, given enough fuel. -/
def PredAnswers (p : Pred) (s : Stack) (a : PredResult × Pred) : Prop :=
  ∃ n, result rt env n p s = pure a

/-- `SubRun so x l so' x'`: driven against its origin `so`, the sub-expression `x`
yields the stacks `l` and then null, and ends in state `x'` over origin `so'`. -/
inductive SubRun : Origin → Op → List Stack → Origin → Op → Prop
  | last {so x so' x'} : SubAnswers rt env so x (none, so', x') → SubRun so x [] so' x'
  | cons {so x s so₁ x₁ l so' x'} : SubAnswers rt env so x (some s, so₁, x₁) →
      SubRun so₁ x₁ l so' x' → SubRun so x (s :: l) so' x'

/-- The states a sub-expression reaches from `X`: by calls against its origin, and by
resets. -/
inductive Reach (X : Op) : Op → Prop
  | base : Reach X X
  | next {x so r so' x'} : Reach X x → SubAnswers rt env so x (r, so', x') → Reach X x'
  | reset {x so n so' x'} : Reach X x → subReset (reset rt env n (.origin so) x) = pure (so', x') →
      Reach X x'

/-- **The reset law** of a sub-expression `X` that denotes `den`: from every state it
reaches, it can be reset and primed with any `s`, and it then yields `den s` and null. -/
def ResetLaw (X : Op) (den : Stack → List Stack) : Prop :=
  ∀ x, Reach rt env X x → ∀ so s, ∃ so' x' so'' x'',
    PrimeAnswers rt env so x s (so', x') ∧ SubRun rt env so' x' (den s) so'' x''

/-- The states a predicate reaches from `p₀` through `result` calls. -/
inductive PredReach (p₀ : Pred) : Pred → Prop
  | base : PredReach p₀ p₀
  | step {p s r p'} : PredReach p₀ p → PredAnswers rt env p s (r, p') → PredReach p₀ p'

/-- The law of a predicate that denotes `P`: from every state it reaches, `result`
returns `P s` on every `s`. -/
def PredLaw (p₀ : Pred) (P : Stack → PredResult) : Prop :=
  ∀ p, PredReach rt env p₀ p → ∀ s, ∃ p', PredAnswers rt env p s (P s, p')

/-- Two predicates on runs, `R₀` of runs from the context `c` and `R₁` of runs from `c₁`,
that calls in `c` extend: a state whose calls answer as those of `o₁` in `c₁` begins a run
of `o₁`, and a call that answers a stack and leaves the context `c₁` puts the stack in
front of a run from `c₁`. `Yields` is such a pair for any two contexts; the turns of a
peer of a Tine group are another. -/
structure Resumes (R₀ R₁ : Op → List Stack → Prop) (c c₁ : Ctx) : Prop where
  of_answers : ∀ {o o₁ : Op} {l : List Stack},
    (∀ a, Answers rt env c₁ o₁ a → Answers rt env c o a) → R₁ o₁ l → R₀ o l
  cons : ∀ {o o₁ : Op} {s : Stack} {l : List Stack},
    Answers rt env c o (some s, o₁, c₁) → R₁ o₁ l → R₀ o (s :: l)

/-- The states `K u b` of one operator over upstream states `u` in `P`, with its own state
`b` in `G`. -/
def Wraps {σ : Type} (P : Op → Prop) (K : Op → σ → Op) (G : σ → Prop) (o : Op) : Prop :=
  ∃ u b, o = K u b ∧ P u ∧ G b

/-- **The law of an operator over its upstream.** The operator waits in states `W u st`
over its upstream `u`, with an internal state `st` kept `Good`. When the upstream answers
null, it answers null and waits over the upstream's new state; when the upstream answers
a stack `s` satisfying `P`, it answers the stacks `D s` and waits again, and this holds of
every pair of run predicates that its calls resume. -/
structure SegmentLaw {σ : Type} (W : Op → σ → Op) (Good : σ → Prop) (P : Stack → Prop)
    (D : Stack → List Stack) : Prop where
  null : ∀ {c u st u' c'}, Good st → Answers rt env c u (none, u', c') →
    ∃ st', Good st' ∧ Answers rt env c (W u st) (none, W u' st', c')
  seg : ∀ {c u st s u₁ c₁}, Good st → P s → Answers rt env c u (some s, u₁, c₁) →
    ∃ st', Good st' ∧ ∀ R₀ R₁ : Op → List Stack → Prop, Resumes rt env R₀ R₁ c c₁ →
      Resumes rt env R₁ R₁ c₁ c₁ → ∀ l, R₁ (W u₁ st') l → R₀ (W u st) (D s ++ l)

end Answers

variable {rt : Runtime} {env : Env}

/-! ## More fuel -/

section Eventually

variable {c : Ctx} {o x : Op} {so : Origin} {s : Stack}

theorem Answers.ev {a : Option Stack × Op × Ctx} (h : Answers rt env c o a) :
    ∃ N, ∀ n, N ≤ n → next rt env n c o = pure a :=
  let ⟨N, hN⟩ := h
  ⟨N, fun _ hn => (next_mono hn c o).eq_pure hN⟩

theorem SubAnswers.ev {a : Option Stack × Origin × Op} (h : SubAnswers rt env so x a) :
    ∃ N, ∀ n, N ≤ n → subRun (next rt env n (.origin so) x) = pure a :=
  let ⟨N, hN⟩ := h
  ⟨N, fun _ hn => (subRun_le (next_mono hn _ x)).eq_pure hN⟩

theorem PrimeAnswers.ev {a : Origin × Op} (h : PrimeAnswers rt env so x s a) :
    ∃ N, ∀ n, N ≤ n → prime (reset rt env n (.origin so) x) s = pure a :=
  let ⟨N, hN⟩ := h
  ⟨N, fun _ hn => (prime_le (reset_mono hn _ x) s).eq_pure hN⟩

theorem PredAnswers.ev {p : Pred} {a : PredResult × Pred} (h : PredAnswers rt env p s a) :
    ∃ N, ∀ n, N ≤ n → result rt env n p s = pure a :=
  let ⟨N, hN⟩ := h
  ⟨N, fun _ hn => (result_mono hn p s).eq_pure hN⟩

theorem SubAnswers.det {a b : Option Stack × Origin × Op} (ha : SubAnswers rt env so x a)
    (hb : SubAnswers rt env so x b) : a = b := by
  obtain ⟨N, hN⟩ := ha.ev
  obtain ⟨M, hM⟩ := hb.ev
  exact Res.pure_inj ((hN _ (Nat.le_max_left N M)).symm.trans (hM _ (Nat.le_max_right N M)))

theorem PrimeAnswers.det {a b : Origin × Op} (ha : PrimeAnswers rt env so x s a)
    (hb : PrimeAnswers rt env so x s b) : a = b := by
  obtain ⟨N, hN⟩ := ha.ev
  obtain ⟨M, hM⟩ := hb.ev
  exact Res.pure_inj ((hN _ (Nat.le_max_left N M)).symm.trans (hM _ (Nat.le_max_right N M)))

theorem PredAnswers.det {p : Pred} {a b : PredResult × Pred} (ha : PredAnswers rt env p s a)
    (hb : PredAnswers rt env p s b) : a = b := by
  obtain ⟨N, hN⟩ := ha.ev
  obtain ⟨M, hM⟩ := hb.ev
  exact Res.pure_inj ((hN _ (Nat.le_max_left N M)).symm.trans (hM _ (Nat.le_max_right N M)))

end Eventually

/-! ## Reachable states -/

section Reach

variable {X x x' : Op} {so so' : Origin}

theorem Reach.prime {s : Stack} (hx : Reach rt env X x) (h : PrimeAnswers rt env so x s (so', x')) :
    Reach rt env X x' := by
  obtain ⟨n, hn⟩ := h
  obtain ⟨⟨o, y⟩, hr, hp⟩ := Res.bind_eq_pure hn
  obtain ⟨o', -, hp⟩ := Res.bind_eq_pure hp
  cases Res.pure_inj hp
  exact hx.reset hr

theorem SubRun.reach {l : List Stack} (hx : Reach rt env X x) (h : SubRun rt env so x l so' x') :
    Reach rt env X x' := by
  induction h with
  | last ha => exact hx.next ha
  | cons ha _ ih => exact ih (hx.next ha)

/-- A run of the reset law, packaged with the reachability of the state it ends in. -/
theorem ResetLaw.run {den : Stack → List Stack} (h : ResetLaw rt env X den) (hx : Reach rt env X x)
    (so : Origin) (s : Stack) :
    ∃ so' x' so'' x'', PrimeAnswers rt env so x s (so', x') ∧
      SubRun rt env so' x' (den s) so'' x'' ∧ Reach rt env X x'' :=
  let ⟨so', x', so'', x'', hp, hr⟩ := h x hx so s
  ⟨so', x', so'', x'', hp, hr, hr.reach (hx.prime hp)⟩

end Reach

/-! ## Runs from answers -/

section Runs

variable {c c₁ : Ctx} {o o₁ : Op} {l : List Stack}

/-- A state whose calls answer as another's yields what the other yields. -/
theorem Yields.of_answers (h : ∀ a, Answers rt env c₁ o₁ a → Answers rt env c o a)
    (hy : Yields rt env c₁ o₁ l) : Yields rt env c o l := by
  obtain ⟨c', o', hs, n, r, hn⟩ := hy
  cases hs with
  | nil =>
    obtain ⟨m, hm⟩ := h _ ⟨n, hn⟩
    exact ⟨c, o, .nil _ _, m, r, hm⟩
  | cons k hk hs =>
    obtain ⟨m, hm⟩ := h _ ⟨k, hk⟩
    exact ⟨c', o', .cons m hm hs, n, r, hn⟩

theorem Yields.cons {s : Stack} (h : Answers rt env c o (some s, o₁, c₁))
    (hy : Yields rt env c₁ o₁ l) : Yields rt env c o (s :: l) :=
  let ⟨c', o', hs, hn⟩ := hy
  let ⟨m, hm⟩ := h
  ⟨c', o', .cons m hm hs, hn⟩

theorem Yields.nil {r : Op × Ctx} (h : Answers rt env c o (none, r)) : Yields rt env c o [] :=
  let ⟨m, hm⟩ := h
  ⟨c, o, .nil _ _, m, r, hm⟩

theorem Yields.resumes (c c₁ : Ctx) : Resumes rt env (Yields rt env c) (Yields rt env c₁) c c₁ :=
  ⟨Yields.of_answers, Yields.cons⟩

/-- A state whose calls, from some fuel on, go on as the calls of another begins the run
the other begins. -/
theorem Resumes.of_step {R₀ R₁ : Op → List Stack → Prop} (hR : Resumes rt env R₀ R₁ c c₁) {N : Nat}
    (h : ∀ n, N ≤ n → next rt env (n + 1) c o = next rt env n c₁ o₁) (hy : R₁ o₁ l) : R₀ o l :=
  hR.of_answers (fun _ ⟨k, hk⟩ =>
    ⟨N + k + 1, by rw [h _ (by omega)]; exact (next_mono (by omega) _ _).eq_pure hk⟩) hy

/-- A state whose calls, from some fuel on, go on as the calls of another yields what the
other yields. -/
theorem Yields.of_step {N : Nat} (h : ∀ n, N ≤ n → next rt env (n + 1) c o = next rt env n c₁ o₁)
    (hy : Yields rt env c₁ o₁ l) : Yields rt env c o l :=
  (Yields.resumes c c₁).of_step h hy

/-- **The upstream induction.** Take an operator with waiting states `W u st` over its
upstream `u` and an internal state `st` kept `Good`. If from a waiting state it answers
the upstream's null with null, and turns each upstream stack `s` satisfying `Q` into a
list related to `s` by `D` before waiting again, then over an upstream that yields `ss`
it yields lists related by `D` to the stacks of `ss`, one after the other, and null. -/
theorem Yields.of_segments_rel {σ : Type} (W : Op → σ → Op) (Good : σ → Prop)
    (D : Stack → List Stack → Prop) (Q : Stack → Prop)
    (hnull : ∀ c u st u' c', Good st → Answers rt env c u (none, u', c') →
      ∃ r, Answers rt env c (W u st) (none, r))
    (hseg : ∀ c u st s u₁ c₁, Good st → Q s → Answers rt env c u (some s, u₁, c₁) →
      ∃ L st', D s L ∧ Good st' ∧
        ∀ l, Yields rt env c₁ (W u₁ st') l → Yields rt env c (W u st) (L ++ l))
    {c : Ctx} {u : Op} {ss : List Stack} (hu : Yields rt env c u ss) (hQ : ∀ s ∈ ss, Q s)
    (st : σ) (hst : Good st) :
    ∃ Ls, List.Forall₂ D ss Ls ∧ Yields rt env c (W u st) Ls.flatten := by
  obtain ⟨c', u', hs, n, ⟨u'', c''⟩, hn⟩ := hu
  induction hs generalizing st with
  | nil =>
    obtain ⟨r, hr⟩ := hnull _ _ _ _ _ hst ⟨n, hn⟩
    exact ⟨[], .nil, .nil hr⟩
  | cons k hk _ ih =>
    obtain ⟨L, st', hL, hst', hl⟩ := hseg _ _ _ _ _ _ hst (hQ _ (List.mem_cons_self _ _)) ⟨k, hk⟩
    obtain ⟨Ls, hLs, hy⟩ := ih (fun s hs => hQ s (List.mem_cons_of_mem _ hs)) st' hst' hn
    exact ⟨L :: Ls, .cons hL hLs, hl _ hy⟩

/-- The upstream induction for an operator that turns each upstream stack `s` into the
list `den s`. -/
theorem Yields.of_segments {σ : Type} (W : Op → σ → Op) (Good : σ → Prop)
    (den : Stack → List Stack) (Q : Stack → Prop)
    (hnull : ∀ c u st u' c', Good st → Answers rt env c u (none, u', c') →
      ∃ r, Answers rt env c (W u st) (none, r))
    (hseg : ∀ c u st s u₁ c₁, Good st → Q s → Answers rt env c u (some s, u₁, c₁) →
      ∃ st', Good st' ∧ ∀ l, Yields rt env c₁ (W u₁ st') l → Yields rt env c (W u st) (den s ++ l))
    {c : Ctx} {u : Op} {ss : List Stack} (hu : Yields rt env c u ss) (hQ : ∀ s ∈ ss, Q s)
    (st : σ) (hst : Good st) : Yields rt env c (W u st) (ss.flatMap den) := by
  obtain ⟨Ls, hLs, hy⟩ := Yields.of_segments_rel W Good (fun s L => L = den s) Q hnull
    (fun c u st s u₁ c₁ hst hs hu =>
      let ⟨st', hst', hl⟩ := hseg c u st s u₁ c₁ hst hs hu
      ⟨_, st', rfl, hst', hl⟩) hu hQ st hst
  have hmap : Ls = ss.map den := by
    clear hy hu hQ
    induction hLs with
    | nil => rfl
    | cons h _ ih => rw [h, ih, List.map_cons]
  rwa [hmap, ← List.flatMap_def] at hy

/-- An operator that obeys its law yields, over an upstream run `ss` of stacks satisfying
`P`, the concatenation of `D` over `ss`. -/
theorem SegmentLaw.yields {σ : Type} {W : Op → σ → Op} {Good : σ → Prop} {P : Stack → Prop}
    {D : Stack → List Stack} (h : SegmentLaw rt env W Good P D) {c : Ctx} {u : Op}
    {ss : List Stack} (hu : Yields rt env c u ss) (hP : ∀ s ∈ ss, P s) (st : σ) (hst : Good st) :
    Yields rt env c (W u st) (ss.flatMap D) :=
  Yields.of_segments W Good D P (fun _ _ _ _ _ hst hu => let ⟨_, _, h⟩ := h.null hst hu; ⟨_, h⟩)
    (fun c _ _ _ _ c₁ hst hs hu => let ⟨st', hst', hl⟩ := h.seg hst hs hu
      ⟨st', hst', hl _ _ (Yields.resumes c c₁) (Yields.resumes c₁ c₁)⟩) hu hP st hst

end Runs

/-! ## An origin obeys the law -/

section Leaf

variable {n : Nat} {so : Origin}

theorem subRun_next_leaf :
    subRun (next rt env (n + 2) (.origin so) .leaf) = pure (so.next.1, so.next.2, .leaf) := rfl

theorem subReset_reset_leaf : subReset (reset rt env (n + 2) (.origin so) .leaf) = pure (so.reset, .leaf) :=
  rfl

/-- A bare origin stays a bare origin through every call and reset. -/
theorem reach_leaf {x : Op} (h : Reach rt env .leaf x) : x = .leaf := by
  induction h with
  | base => rfl
  | next _ ha ih =>
    subst ih
    obtain ⟨n, hn⟩ := ha
    rcases n with _ | _ | n
    · exact nomatch hn
    · exact nomatch hn
    · exact congrArg (·.2.2) (Res.pure_inj (subRun_next_leaf.symm.trans hn)).symm
  | @reset _ _ n _ _ _ hr ih =>
    subst ih
    rcases n with _ | _ | n
    · exact nomatch hr
    · exact nomatch hr
    · exact congrArg (·.2) (Res.pure_inj (subReset_reset_leaf.symm.trans hr)).symm

/-- **A bare origin obeys the reset law**, with the stack it is primed with as its one
result. -/
theorem leaf_law : ResetLaw rt env .leaf fun s => [s] := by
  intro x hx so s
  cases reach_leaf hx
  exact ⟨.primed s, .leaf, ⟨none, false⟩, .leaf, ⟨2, rfl⟩, .cons ⟨2, rfl⟩ (.last ⟨2, rfl⟩)⟩

end Leaf

end Dwgrep
