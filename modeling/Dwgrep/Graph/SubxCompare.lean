import Dwgrep.Graph.Format

/-!
# Comparing two sub-expressions over one origin

`pred_subx_compare::result` (`op.cc`) drives two sub-expressions `op1` and `op2` rooted at
one shared origin. It resets `op1` and primes the origin with the stack, and for each
result of `op1` it resets `op2` and primes the origin again, so that `op1` goes on from
the origin as `op2` left it. This is harmless when each sub-expression takes the stack
from the origin at its first call and leaves it spent (`ConsumeLaw`): between the calls
of `op1` the origin is then spent whoever drove it last. A bare origin is such a
sub-expression (`leaf_consumeLaw`).

* `compare_states`: every answer of the two loops of `result` is a state of the
  predicate whose parts the sub-expressions and the inner predicate reach;
* `inner_loop`, `outer_loop`: the two loops, by induction on the runs of `op2` and
  `op1`;
* `subxCompare_law`: `pred_subx_compare` holds on `s` if and only if some result of
  `op1` with the top of some result of `op2` pushed satisfies the inner predicate.
-/

namespace Dwgrep

/-- The origin once its stack is taken: `set_next` cleared the reset flag, `next` the
slot. -/
def Origin.spent : Origin := ⟨none, false⟩

section Laws

variable (rt : Runtime) (env : Env)

/-- `ConsumeRun so x l x'`: driven against its origin from `so`, the sub-expression `x`
yields `l` and then null, and leaves the origin spent at every call. -/
inductive ConsumeRun : Origin → Op → List Stack → Op → Prop
  | last {so x x'} : SubAnswers rt env so x (none, .spent, x') → ConsumeRun so x [] x'
  | cons {so x t x₁ l x'} : SubAnswers rt env so x (some t, .spent, x₁) →
      ConsumeRun .spent x₁ l x' → ConsumeRun so x (t :: l) x'

/-- **The reset law of a sub-expression that takes its input at once**: from every state
it reaches, reset and primed with `s`, it yields `den s` and null, and from its first
call on its origin is spent. -/
def ConsumeLaw (X : Op) (den : Stack → List Stack) : Prop :=
  ∀ x, Reach rt env X x → ∀ so s, ∃ x' x'', PrimeAnswers rt env so x s (.primed s, x') ∧
    ConsumeRun rt env (.primed s) x' (den s) x''

/-- The states of `pred_subx_compare` over `X`, `Y` and the inner predicate `q₀`: their
parts are states that `X`, `Y` and `q₀` reach. -/
def CompareState (X Y : Op) (q₀ p : Pred) : Prop :=
  ∃ so x y q, p = .subxCompare so x y q ∧ Reach rt env X x ∧ Reach rt env Y y ∧ PredReach rt env q₀ q

end Laws

/-- Whether `r₁` with the top of some stack of `L` pushed satisfies `P`. -/
def Den.matchesTop (rt : Runtime) (L : List Stack) (P : Stack → PredResult) (r₁ : Stack) : Bool :=
  L.any fun r₂ => r₂.values.head?.any fun v => decide (P (r₁.push rt v) = .yes)

/-- `SubXCompare X Y q`: whether some result of `X` with the top of some result of `Y`
pushed satisfies `q`. -/
def Den.subxCompare (rt : Runtime) (dX dY : Stack → List Stack) (P : Stack → PredResult)
    (s : Stack) : PredResult :=
  .ofBool ((dX s).any (Den.matchesTop rt (dY s) P))

variable {rt : Runtime} {env : Env}

theorem ConsumeRun.subRun {so : Origin} {x x' : Op} {l : List Stack} (h : ConsumeRun rt env so x l x') :
    SubRun rt env so x l .spent x' := by
  induction h with
  | last ha => exact .last ha
  | cons ha _ ih => exact .cons ha ih

theorem ConsumeLaw.resetLaw {X : Op} {den : Stack → List Stack} (h : ConsumeLaw rt env X den) :
    ResetLaw rt env X den := fun x hx so s =>
  let ⟨x', x'', hp, hr⟩ := h x hx so s
  ⟨_, x', _, x'', hp, hr.subRun⟩

/-- **A bare origin takes its input at once.** -/
theorem leaf_consumeLaw : ConsumeLaw rt env .leaf fun s => [s] := by
  intro x hx so s
  cases reach_leaf hx
  exact ⟨.leaf, .leaf, ⟨2, rfl⟩, .cons ⟨2, rfl⟩ (.last ⟨2, rfl⟩)⟩

/-! ## Transitions of `pred_subx_compare` -/

section Steps

variable {n : Nat} {s t t₂ t₂' : Stack} {so so₁ so₂ : Origin} {x x₁ y y₁ : Op} {q q' : Pred}
  {v : Value}

theorem result_subxCompare (hp : prime (reset rt env n (.origin so) x) s = pure (so₁, x₁)) :
    result rt env (n + 1) (.subxCompare so x y q) s = compareOuter rt env n s so₁ x₁ y q := by
  rw [result]; simp only [hp, pure_bind]

theorem compareOuter_none (hx : subRun (next rt env n (.origin so) x) = pure (none, so₁, x₁)) :
    compareOuter rt env (n + 1) s so x y q = pure (.no, .subxCompare so₁ x₁ y q) := by
  rw [compareOuter]; simp only [hx, pure_bind]

/-- For each result of `op1`, `op2` is reset and the shared origin primed again. -/
theorem compareOuter_some (hx : subRun (next rt env n (.origin so) x) = pure (some t, so₁, x₁))
    (hp : prime (reset rt env n (.origin so₁) y) s = pure (so₂, y₁)) :
    compareOuter rt env (n + 1) s so x y q = compareInner rt env n s so₂ x₁ y₁ q t := by
  rw [compareOuter]; simp only [hx, hp, pure_bind]

theorem compareInner_none (hy : subRun (next rt env n (.origin so) y) = pure (none, so₁, y₁)) :
    compareInner rt env (n + 1) s so x y q t = compareOuter rt env n s so₁ x y₁ q := by
  rw [compareInner]; simp only [hy, pure_bind]

theorem compareInner_yes (hy : subRun (next rt env n (.origin so) y) = pure (some t₂, so₁, y₁))
    (hv : t₂.pop rt = .ok (v, t₂')) (hq : result rt env n q (t.push rt v) = pure (.yes, q')) :
    compareInner rt env (n + 1) s so x y q t = pure (.yes, .subxCompare so₁ x y₁ q') := by
  rw [compareInner]; simp only [hy, hv, hq, pure_bind, Res.lift_ok_bind, if_true]

/-- A failed match pops the pushed top again, which on a stack with the right profile
gives the stack back. -/
theorem compareInner_no {pr : PredResult} (hy : subRun (next rt env n (.origin so) y) = pure (some t₂, so₁, y₁))
    (hv : t₂.pop rt = .ok (v, t₂')) (ht : t.ProfileOk rt) (hq : result rt env n q (t.push rt v) = pure (pr, q'))
    (hpr : pr ≠ .yes) :
    compareInner rt env (n + 1) s so x y q t = compareInner rt env n s so₁ x y₁ q' t := by
  rw [compareInner]
  simp only [hy, hv, hq, hpr, Stack.pop_push ht, pure_bind, Res.lift_ok_bind, if_false]

end Steps

/-! ## The states of the predicate -/

section States

variable {X Y : Op} {q₀ : Pred}

theorem Res.lift_bind_eq_pure {α β : Type} {e : Except Fault α} {f : α → Res β} {b : β}
    (h : Res.lift e >>= f = pure b) : ∃ a, f a = pure b :=
  let ⟨a, _, h⟩ := Res.bind_eq_pure h
  ⟨a, h⟩

/-- **The loops answer with states of the predicate.** Whatever `compareOuter` and
`compareInner` answer from states that `X`, `Y` and `q₀` reach holds states they reach. -/
theorem compare_states : ∀ n,
    (∀ s so x y q a, Reach rt env X x → Reach rt env Y y → PredReach rt env q₀ q →
      compareOuter rt env n s so x y q = pure a → CompareState rt env X Y q₀ a.2) ∧
    (∀ s so x y q t a, Reach rt env X x → Reach rt env Y y → PredReach rt env q₀ q →
      compareInner rt env n s so x y q t = pure a → CompareState rt env X Y q₀ a.2)
  | 0 => ⟨(fun _ _ _ _ _ _ _ _ _ h => nomatch h), (fun _ _ _ _ _ _ _ _ _ _ h => nomatch h)⟩
  | n + 1 => by
    obtain ⟨ihOuter, ihInner⟩ := compare_states n
    constructor
    · intro s so x y q a hx hy hq h
      rw [compareOuter] at h
      obtain ⟨⟨r, so₁, x₁⟩, hr, h⟩ := Res.bind_eq_pure h
      have hx₁ : Reach rt env X x₁ := hx.next ⟨n, hr⟩
      cases r with
      | none => cases Res.pure_inj h; exact ⟨so₁, x₁, y, q, rfl, hx₁, hy, hq⟩
      | some t =>
        obtain ⟨⟨so₂, y₁⟩, hp, h⟩ := Res.bind_eq_pure h
        exact ihInner _ _ _ _ _ _ _ hx₁ (hy.prime ⟨n, hp⟩) hq h
    · intro s so x y q t a hx hy hq h
      rw [compareInner] at h
      obtain ⟨⟨r, so₁, y₁⟩, hr, h⟩ := Res.bind_eq_pure h
      have hy₁ : Reach rt env Y y₁ := hy.next ⟨n, hr⟩
      cases r with
      | none => exact ihOuter _ _ _ _ _ _ hx hy₁ hq h
      | some t₂ =>
        obtain ⟨⟨v, _⟩, h⟩ := Res.lift_bind_eq_pure h
        obtain ⟨⟨pr, q'⟩, hres, h⟩ := Res.bind_eq_pure h
        have hq' : PredReach rt env q₀ q' := hq.step ⟨n, hres⟩
        dsimp only at h
        by_cases hpr : pr = .yes
        · rw [if_pos hpr] at h
          cases Res.pure_inj h; exact ⟨so₁, x, y₁, q', rfl, hx, hy₁, hq'⟩
        · rw [if_neg hpr] at h
          obtain ⟨⟨_, t'⟩, h⟩ := Res.lift_bind_eq_pure h
          exact ihInner _ _ _ _ _ _ _ hx hy₁ hq' h

/-- **Every state the predicate reaches** from a fresh one is a state of its loops. -/
theorem PredReach.compareState {so : Origin} {p : Pred}
    (h : PredReach rt env (.subxCompare so X Y q₀) p) : CompareState rt env X Y q₀ p := by
  induction h with
  | base => exact ⟨so, X, Y, q₀, rfl, .base, .base, .base⟩
  | step _ ha ih =>
    obtain ⟨so, x, y, q, rfl, hx, hy, hq'⟩ := ih
    obtain ⟨_ | n, hn⟩ := ha
    · exact nomatch hn
    rw [result] at hn
    obtain ⟨⟨so₁, x₁⟩, hp, hn⟩ := Res.bind_eq_pure hn
    exact (compare_states n).1 _ _ _ _ _ _ (hx.prime ⟨n, hp⟩) hy hq' hn

end States

/-! ## The two loops -/

section Loops

variable {X Y : Op} {q₀ : Pred} {P : Stack → PredResult}

/-- **The inner loop**, over the results `L` of `op2`, by induction on their run. If
one of them matches `t` it answers yes; otherwise it hands over to the outer loop with
`op2` drained. -/
theorem inner_loop (hq : PredLaw rt env q₀ P) {s t : Stack} (ht : t.ProfileOk rt) {x : Op}
    (hx : Reach rt env X x) :
    ∀ {so y L y''}, ConsumeRun rt env so y L y'' → Reach rt env Y y → (∀ r ∈ L, r.values ≠ []) →
    ∀ {q}, PredReach rt env q₀ q →
      (Den.matchesTop rt L P t = true →
        ∃ p, CompareState rt env X Y q₀ p ∧ ∃ n, compareInner rt env n s so x y q t = pure (.yes, p)) ∧
      (Den.matchesTop rt L P t = false → ∃ q', PredReach rt env q₀ q' ∧
        ∀ a, (∃ n, compareOuter rt env n s .spent x y'' q' = pure a) →
          ∃ n, compareInner rt env n s so x y q t = pure a) := by
  intro _ _ _ _ h
  induction h with
  | @last so y _ ha =>
    intro _ _ q hq'
    refine ⟨nofun, fun _ => ⟨q, hq', fun a ⟨k, hk⟩ => ?_⟩⟩
    obtain ⟨N, hN⟩ := ha.ev
    exact ⟨N + k + 1, by
      rw [compareInner_none (hN _ (by omega))]; exact (compareOuter_mono (by omega) _ _ _ _ _).eq_pure hk⟩
  | @cons so y r y₁ l _ ha _ ih =>
    intro hy htops q hq'
    obtain ⟨v, vs, hv⟩ := List.exists_cons_of_ne_nil (htops r (List.mem_cons_self _ _))
    obtain ⟨r', hpop, -⟩ := Stack.pop_of_values rt hv
    obtain ⟨q₁, hres⟩ := hq q hq' (t.push rt v)
    obtain ⟨N, hN⟩ := ha.ev
    obtain ⟨M, hM⟩ := hres.ev
    have hmatch : Den.matchesTop rt (r :: l) P t =
        (decide (P (t.push rt v) = .yes) || Den.matchesTop rt l P t) := by
      simp only [Den.matchesTop, List.any_cons, hv, List.head?_cons, Option.any_some]
    by_cases hyes : P (t.push rt v) = .yes
    · refine ⟨fun _ => ⟨_, ⟨.spent, x, y₁, q₁, rfl, hx, hy.next ha, hq'.step hres⟩, N + M + 1, ?_⟩,
        fun h => by simp [hmatch, hyes] at h⟩
      exact compareInner_yes (hN (N + M) (by omega)) hpop (by rw [← hyes]; exact hM (N + M) (by omega))
    · obtain ⟨ih₁, ih₂⟩ := ih (hy.next ha) (fun r hr => htops r (List.mem_cons_of_mem _ hr))
        (hq'.step hres)
      have hstep : ∀ a k, compareInner rt env k s .spent x y₁ q₁ t = pure a →
          ∃ n, compareInner rt env n s so x y q t = pure a := fun a k hk =>
        ⟨N + M + k + 1, by
          rw [compareInner_no (hN _ (by omega)) hpop ht (hM _ (by omega)) hyes]
          exact (compareInner_mono (by omega) _ _ _ _ _ _).eq_pure hk⟩
      refine ⟨fun h => ?_, fun h => ?_⟩
      · obtain ⟨p, hp, k, hk⟩ := ih₁ (by simpa [hmatch, hyes] using h)
        exact ⟨p, hp, hstep _ k hk⟩
      · obtain ⟨q', hq'', hl⟩ := ih₂ (by simpa [hmatch, hyes] using h)
        exact ⟨q', hq'', fun a ha => let ⟨k, hk⟩ := hl a ha; hstep a k hk⟩

/-- **The outer loop**, over the results `L` of `op1`, by induction on their run: it
answers whether one of them matches some result of `op2` on `s`. -/
theorem outer_loop {dY : Stack → List Stack} (hY : ConsumeLaw rt env Y dY) (hq : PredLaw rt env q₀ P)
    {s : Stack} (htops : ∀ r ∈ dY s, r.values ≠ []) :
    ∀ {so x L x''}, ConsumeRun rt env so x L x'' → Reach rt env X x → (∀ r ∈ L, r.ProfileOk rt) →
    ∀ {y q}, Reach rt env Y y → PredReach rt env q₀ q →
      ∃ p, CompareState rt env X Y q₀ p ∧
        ∃ n, compareOuter rt env n s so x y q = pure (.ofBool (L.any (Den.matchesTop rt (dY s) P)), p) := by
  intro _ _ _ _ h
  induction h with
  | last ha =>
    intro hx _ y q hy hq'
    obtain ⟨N, hN⟩ := ha.ev
    exact ⟨_, ⟨_, _, y, q, rfl, hx.next ha, hy, hq'⟩, N + 1, compareOuter_none (hN N (Nat.le_refl _))⟩
  | @cons so x t x₁ _ _ ha _ ih =>
    intro hx hok y q hy hq'
    obtain ⟨y₁, y'', hp, hrun⟩ := hY y hy .spent s
    obtain ⟨N, hN⟩ := ha.ev
    obtain ⟨M, hM⟩ := hp.ev
    have hx₁ := hx.next ha
    have hstep : ∀ a k, compareInner rt env k s (.primed s) x₁ y₁ q t = pure a →
        ∃ n, compareOuter rt env n s so x y q = pure a := fun a k hk =>
      ⟨N + M + k + 1, by
        rw [compareOuter_some (hN _ (by omega)) (hM _ (by omega))]
        exact (compareInner_mono (by omega) _ _ _ _ _ _).eq_pure hk⟩
    obtain ⟨hfound, hmiss⟩ := inner_loop (s := s) hq (hok t (List.mem_cons_self _ _)) hx₁ hrun
      (hy.prime hp) htops hq'
    rw [List.any_cons]
    cases hm : Den.matchesTop rt (dY s) P t with
    | true =>
      obtain ⟨p, hgood, k, hk⟩ := hfound hm
      exact ⟨p, hgood, hstep _ k hk⟩
    | false =>
      obtain ⟨q', hq'', hl⟩ := hmiss hm
      obtain ⟨p, hgood, k, hk⟩ := ih hx₁ (fun r hr => hok r (List.mem_cons_of_mem _ hr))
        (hrun.subRun.reach (hy.prime hp)) hq''
      obtain ⟨k', hk'⟩ := hl _ ⟨k, hk⟩
      exact ⟨p, hgood, hstep _ k' hk'⟩

end Loops

/-- **`pred_subx_compare` compares the results of its two sub-expressions.** Let `op1`
and `op2` take their input at once and denote `dX` and `dY`, and let the inner
predicate denote `P`. From every state the predicate reaches, on a stack `s` whose
`op1` results have the right profile and whose `op2` results have a top, `result`
answers yes if and only if some result of `op1` with the top of some result of `op2`
pushed satisfies `P`, and no otherwise. -/
theorem subxCompare_law {X Y : Op} {dX dY : Stack → List Stack} {q₀ : Pred}
    {P : Stack → PredResult} (hX : ConsumeLaw rt env X dX) (hY : ConsumeLaw rt env Y dY)
    (hq : PredLaw rt env q₀ P) (so : Origin) :
    ∀ p, PredReach rt env (.subxCompare so X Y q₀) p → ∀ s, (∀ r ∈ dX s, r.ProfileOk rt) →
      (∀ r ∈ dY s, r.values ≠ []) → ∃ p', PredAnswers rt env p s (Den.subxCompare rt dX dY P s, p') := by
  intro p hp s hok htops
  obtain ⟨so, x, y, q, rfl, hx, hy, hq'⟩ := hp.compareState
  obtain ⟨x', x'', hpr, hrun⟩ := hX x hx so s
  obtain ⟨p', -, k, hk⟩ := outer_loop hY hq htops hrun (hx.prime hpr) hok hy hq'
  obtain ⟨M, hM⟩ := hpr.ev
  exact ⟨p', M + k + 1, by
    rw [result_subxCompare (hM _ (by omega))]
    exact (compareOuter_mono (by omega) _ _ _ _ _).eq_pure hk⟩

/-- Two bare origins compared by the predicate that a bare origin has a result, on
`demoStack`. -/
theorem subxCompare_law_on_origins :
    ∃ p', PredAnswers Runtime.demo Env.demo (.subxCompare .init .leaf .leaf (.subxAny .init .leaf))
      demoStack (Den.subxCompare Runtime.demo (fun s => [s]) (fun s => [s])
        (fun s => if [s] ≠ [] then .yes else .no) demoStack, p') :=
  subxCompare_law leaf_consumeLaw leaf_consumeLaw (subxAny_law leaf_law .init) .init _ .base demoStack
    (fun r hr => by rw [List.mem_singleton.1 hr]; rfl) (fun r hr => by rw [List.mem_singleton.1 hr]; simp [demoStack])

end Dwgrep
