import Mathlib.Data.List.Forall2
import Dwgrep.Graph.Law

/-!
# The lazy operators refine their list semantics

Each operator of `op.cc` that passes its upstream's stacks through sub-expressions is
compared with a denotation written from the spec (`Den`): over an upstream that yields
`s₁ … sₙ`, a freshly built operator whose sub-expressions obey the reset law yields
`den s₁ ++ … ++ den sₙ` and null.

Every operator is handled the same way. Its calls are first stated one transition at a
time (`next_subx_pull`, `next_subx_some`, …: each unfolds `next` once). Then the stacks
a sub-expression yields for one upstream stack are followed by induction on its
`SubRun`; that is the operator's `SegmentLaw` (`segmentLaw_subx`, …), stated for every
pair of run predicates its calls resume, and `SegmentLaw.yields` does the induction over
the upstream. The results hold from every state the sub-expressions reach, so a freshly
built operator is one instance.
-/

namespace Dwgrep

/-! ## Denotations -/

namespace Den

variable (rt : Runtime)

/-- `Assert p`: `s` if `p` holds on it. -/
def assert (P : Stack → PredResult) (s : Stack) : List Stack := if P s = .yes then [s] else []

/-- `Const v`: `s` with `v` pushed. -/
def const (v : Value) (s : Stack) : List Stack := [s.push rt v]

/-- `Or`: the results of the first branch that has any. -/
def or (dens : List (Stack → List Stack)) (s : Stack) : List Stack :=
  ((dens.map (· s)).find? (· ≠ [])).getD []

/-- `IfElse`: the then branch if the condition has a result, else the else branch. -/
def ifelse (dc dt de : Stack → List Stack) (s : Stack) : List Stack :=
  if dc s ≠ [] then dt s else de s

/-- `s` extended by the top `keep` values of `r`, in their order. -/
def extend (keep : Nat) (r s : Stack) : Stack :=
  (r.values.take keep).foldr (fun v m => m.push rt v) s

/-- `SubX X keep`: `s` extended by the top `keep` values of each result of `X`. -/
def subx (keep : Nat) (den : Stack → List Stack) (s : Stack) : List Stack :=
  (den s).map fun r => extend rt keep r s

/-- `Capture X`: `s` with the sequence of the tops of the results of `X` pushed. -/
def capture (den : Stack → List Stack) (s : Stack) : List Stack :=
  [s.push rt (.seq ((den s).filterMap fun r => r.values.head?) 0)]

end Den

variable {rt : Runtime} {env : Env}

/-! ## Stack helpers -/

theorem Stack.pop_of_values (rt : Runtime) {r : Stack} {v : Value} {vs : List Value}
    (h : r.values = v :: vs) :
    ∃ r', r.pop rt = .ok (v, r') ∧ r'.values = vs := by
  unfold Stack.pop; rw [h]; exact ⟨_, rfl, rfl⟩

theorem Stack.popN_eq_take : ∀ (k : Nat) (r : Stack), k ≤ r.values.length →
    Stack.popN rt k r = .ok (r.values.take k)
  | 0, _, _ => rfl
  | k + 1, r, h => by
    obtain ⟨v, vs, hr⟩ : ∃ v vs, r.values = v :: vs := by
      cases hv : r.values with
      | nil => rw [hv] at h; exact absurd h (by simp)
      | cons v vs => exact ⟨v, vs, rfl⟩
    obtain ⟨r', hp, hr'⟩ := Stack.pop_of_values rt hr
    rw [hr] at h ⊢
    rw [Stack.popN, hp]
    show (do let vs ← Stack.popN rt k r'; pure (v :: vs)) = _
    rw [Stack.popN_eq_take k r' (by rw [hr']; simp at h; omega), hr']
    rfl

theorem Stack.keepTop_eq {keep : Nat} {r : Stack} (h : keep ≤ r.values.length) (m : Stack) :
    Stack.keepTop rt keep r m = .ok (Den.extend rt keep r m) := by
  rw [Stack.keepTop, Stack.popN_eq_take keep r h]
  rfl

section Steps

variable {n : Nat} {c c₁ : Ctx} {u u₁ x x₁ x' : Op} {so so₁ so' : Origin} {s t : Stack}
  {r : Option Stack}

/-! ## Nop, Const and Assert -/

theorem next_nop (h : next rt env n c u = pure (r, u₁, c₁)) :
    next rt env (n + 1) c (.nop u) = pure (r, .nop u₁, c₁) := by
  rw [next]; simp only [h, pure_bind]

theorem next_const {v : Value} (h : next rt env n c u = pure (r, u₁, c₁)) :
    next rt env (n + 1) c (.const u v) = pure (r.map (·.push rt v), .const u₁ v, c₁) := by
  rw [next]; simp only [h, pure_bind, Value.clone_eq]

theorem next_assert_null {p : Pred} (h : next rt env n c u = pure (none, u₁, c₁)) :
    next rt env (n + 1) c (.assert u p) = pure (none, .assert u₁ p, c₁) := by
  rw [next]; simp only [h, pure_bind]

theorem next_assert_some {p p' : Pred} {pr : PredResult}
    (h : next rt env n c u = pure (some s, u₁, c₁)) (hp : result rt env n p s = pure (pr, p')) :
    next rt env (n + 1) c (.assert u p) =
      if pr = .yes then pure (some s, .assert u₁ p', c₁) else next rt env n c₁ (.assert u₁ p') := by
  rw [next]; simp only [h, hp, pure_bind]

/-! ## SubX -/

theorem next_subx_null {keep : Nat} (hu : next rt env n c u = pure (none, u₁, c₁)) :
    next rt env (n + 1) c (.subx u so x keep none) = pure (none, .subx u₁ so x keep none, c₁) := by
  rw [next]; simp only [hu, pure_bind]

theorem next_subx_pull {keep : Nat} (hu : next rt env n c u = pure (some s, u₁, c₁))
    (hp : prime (reset rt env n (.origin so) x) s = pure (so', x')) :
    next rt env (n + 1) c (.subx u so x keep none) =
      next rt env n c₁ (.subx u₁ so' x' keep (some s)) := by
  rw [next]; simp only [hu, hp, pure_bind]

theorem next_subx_some {keep : Nat} {t' : Stack}
    (hx : subRun (next rt env n (.origin so) x) = pure (some t, so₁, x₁))
    (hk : Stack.keepTop rt keep t s = .ok t') :
    next rt env (n + 1) c (.subx u so x keep (some s)) =
      pure (some t', .subx u so₁ x₁ keep (some s), c) := by
  rw [next]; simp only [hx, hk, pure_bind, Res.lift]; rfl

theorem next_subx_end {keep : Nat} (hx : subRun (next rt env n (.origin so) x) = pure (none, so₁, x₁)) :
    next rt env (n + 1) c (.subx u so x keep (some s)) = next rt env n c (.subx u so₁ x₁ keep none) := by
  rw [next]; simp only [hx, pure_bind]

/-! ## Capture -/

theorem next_capture_null (hu : next rt env n c u = pure (none, u₁, c₁)) :
    next rt env (n + 1) c (.capture u so x) = pure (none, .capture u₁ so x, c₁) := by
  rw [next]; simp only [hu, pure_bind]

theorem next_capture_some {vs : List Value} (hu : next rt env n c u = pure (some s, u₁, c₁))
    (hp : prime (reset rt env n (.origin so) x) s = pure (so', x'))
    (hc : collect rt env n so' x' = pure (vs, so₁, x₁)) :
    next rt env (n + 1) c (.capture u so x) =
      pure (some (s.push rt (.seq vs 0)), .capture u₁ so₁ x₁, c₁) := by
  rw [next]; simp only [hu, hp, hc, pure_bind]

theorem collect_last (hx : subRun (next rt env n (.origin so) x) = pure (none, so₁, x₁)) :
    collect rt env (n + 1) so x = pure ([], so₁, x₁) := by
  rw [collect]; simp only [hx, pure_bind]

theorem collect_cons {v : Value} {vs : List Value} {so₂ : Origin} {x₂ : Op} {t' : Stack}
    (hx : subRun (next rt env n (.origin so) x) = pure (some t, so₁, x₁)) (ht : t.pop rt = .ok (v, t'))
    (hc : collect rt env n so₁ x₁ = pure (vs, so₂, x₂)) :
    collect rt env (n + 1) so x = pure (v :: vs, so₂, x₂) := by
  rw [collect]; simp only [hx, ht, hc, pure_bind, Res.lift]; rfl

theorem result_subxAny {pr : Option Stack} {so₂ : Origin} {x₂ : Op}
    (hp : prime (reset rt env n (.origin so) x) s = pure (so₁, x₁))
    (hr : subRun (next rt env n (.origin so₁) x₁) = pure (pr, so₂, x₂)) :
    result rt env (n + 1) (.subxAny so x) s = pure (if pr.isSome then .yes else .no, .subxAny so₂ x₂) := by
  rw [result]; simp only [hp, hr, pure_bind]

theorem result_not {a a' : Pred} {r : PredResult} (h : result rt env n a s = pure (r, a')) :
    result rt env (n + 1) (.not a) s = pure (r.not, .not a') := by
  rw [result]; simp only [h, pure_bind]

end Steps

/-! ## Answers of the transitions -/

section Transitions

variable {c c₁ : Ctx} {u u₁ x x' : Op} {so so' : Origin} {s : Stack}

theorem collect_of_subRun {ts : List Stack} {so'' : Origin} {x'' : Op}
    (h : SubRun rt env so x ts so'' x'') (hts : ∀ t ∈ ts, t.values ≠ []) :
    ∃ N, ∀ n, N ≤ n →
      collect rt env n so x = pure (ts.filterMap (fun t => t.values.head?), so'', x'') := by
  induction h with
  | last ha =>
    obtain ⟨N, hN⟩ := ha.ev
    exact ⟨N + 1, fun n hn => by
      obtain ⟨k, rfl⟩ : ∃ k, n = k + 1 := ⟨n - 1, by omega⟩
      exact collect_last (hN k (by omega))⟩
  | @cons _ _ t _ _ _ _ _ ha _ ih =>
    obtain ⟨v, vs, hv⟩ : ∃ v vs, t.values = v :: vs := by
      cases h : t.values with
      | nil => exact absurd h (hts t (List.mem_cons_self _ _))
      | cons v vs => exact ⟨v, vs, rfl⟩
    obtain ⟨t', hp, -⟩ := Stack.pop_of_values rt hv
    obtain ⟨N, hN⟩ := ha.ev
    obtain ⟨M, hM⟩ := ih fun t ht => hts t (List.mem_cons_of_mem _ ht)
    refine ⟨N + M + 1, fun n hn => ?_⟩
    obtain ⟨k, rfl⟩ : ∃ k, n = k + 1 := ⟨n - 1, by omega⟩
    rw [collect_cons (hN k (by omega)) hp (hM k (by omega)), List.filterMap_cons, hv]
    rfl

end Transitions

/-! ## The refinements -/

section Refinements

variable {c : Ctx} {u : Op} {ss : List Stack}

/-- `Nop` passes each upstream stack on. -/
theorem segmentLaw_nop :
    SegmentLaw rt env (fun u (_ : Unit) => .nop u) (fun _ => True) (fun _ => True) fun s => [s] :=
  ⟨fun _ ⟨n, h⟩ => ⟨(), trivial, n + 1, next_nop h⟩,
    fun _ _ ⟨n, h⟩ => ⟨(), trivial, fun _ _ hR _ _ hl => hR.cons ⟨n + 1, next_nop h⟩ hl⟩⟩

/-- `Nop` passes its upstream through. -/
theorem nop_refines (hu : Yields rt env c u ss) : Yields rt env c (.nop u) ss := by
  rw [← List.flatMap_singleton' ss]
  exact segmentLaw_nop.yields hu (fun _ _ => trivial) () trivial

/-- `Const v` pushes `v` onto each upstream stack. -/
theorem segmentLaw_const (v : Value) :
    SegmentLaw rt env (fun u (_ : Unit) => .const u v) (fun _ => True) (fun _ => True)
      (Den.const rt v) :=
  ⟨fun _ ⟨n, h⟩ => ⟨(), trivial, n + 1, next_const h⟩,
    fun _ _ ⟨n, h⟩ => ⟨(), trivial, fun _ _ hR _ _ hl => hR.cons ⟨n + 1, next_const h⟩ hl⟩⟩

/-- `Const v` pushes `v` onto each upstream stack. -/
theorem const_refines (v : Value) (hu : Yields rt env c u ss) :
    Yields rt env c (.const u v) (ss.flatMap (Den.const rt v)) :=
  (segmentLaw_const v).yields hu (fun _ _ => trivial) () trivial

/-- `Assert p` passes on the upstream stacks on which `p` holds, from every state `p`
reaches. -/
theorem segmentLaw_assert {p₀ : Pred} {P : Stack → PredResult} (hp : PredLaw rt env p₀ P) :
    SegmentLaw rt env .assert (PredReach rt env p₀) (fun _ => True) (Den.assert P) := by
  refine ⟨fun {_ _ p _ _} hpr ⟨n, h⟩ => ⟨p, hpr, n + 1, next_assert_null h⟩, ?_⟩
  intro c u p s u₁ c₁ hpr _ hs
  obtain ⟨p', hres⟩ := hp p hpr s
  refine ⟨p', hpr.step hres, fun _ _ hR _ l hl => ?_⟩
  obtain ⟨N, hN⟩ := hs.ev
  obtain ⟨M, hM⟩ := hres.ev
  have step : ∀ n, N + M ≤ n → next rt env (n + 1) c (.assert u p) =
      if P s = .yes then pure (some s, .assert u₁ p', c₁) else next rt env n c₁ (.assert u₁ p') :=
    fun n hn => next_assert_some (hN n (by omega)) (hM n (by omega))
  unfold Den.assert
  split
  · rename_i hy
    exact hR.cons ⟨N + M + 1, by rw [step _ (Nat.le_refl _), if_pos hy]⟩ hl
  · rename_i hy
    exact hR.of_step (fun n hn => by rw [step n hn, if_neg hy]) hl

/-- `Assert p` keeps the upstream stacks on which `p` holds. -/
theorem assert_refines {p₀ : Pred} {P : Stack → PredResult} (hp : PredLaw rt env p₀ P)
    (hu : Yields rt env c u ss) : Yields rt env c (.assert u p₀) (ss.flatMap (Den.assert P)) :=
  (segmentLaw_assert hp).yields hu (fun _ _ => trivial) p₀ .base

/-- The states of `pred_subx_any` over `X`: each holds a state that `X` reaches. -/
theorem PredReach.subxAny {X : Op} {so₀ : Origin} {p : Pred} (h : PredReach rt env (.subxAny so₀ X) p) :
    ∃ so x, p = .subxAny so x ∧ Reach rt env X x := by
  induction h with
  | base => exact ⟨so₀, X, rfl, .base⟩
  | step _ ha ih =>
    obtain ⟨so, x, rfl, hx⟩ := ih
    obtain ⟨_ | n, hn⟩ := ha
    · exact nomatch hn
    obtain ⟨⟨so₁, x₁⟩, hp, hn⟩ := Res.bind_eq_pure hn
    obtain ⟨⟨_, so₂, x₂⟩, hr, hn⟩ := Res.bind_eq_pure hn
    cases Res.pure_inj hn
    exact ⟨so₂, x₂, rfl, (hx.prime ⟨n, hp⟩).next ⟨n, hr⟩⟩

/-- **`pred_subx_any`** holds on `s` if and only if its sub-expression has a result on
`s`. -/
theorem subxAny_law {X : Op} {den : Stack → List Stack} (hX : ResetLaw rt env X den) (so : Origin) :
    PredLaw rt env (.subxAny so X) fun s => if den s ≠ [] then .yes else .no := by
  intro p hp s
  obtain ⟨so, x, rfl, hx⟩ := hp.subxAny
  obtain ⟨so₁, x₁, _, _, hpr, hrun, -⟩ := hX.run hx so s
  obtain ⟨N, hN⟩ := hpr.ev
  beta_reduce
  generalize den s = L at hrun ⊢
  cases hrun with
  | last ha =>
    obtain ⟨M, hM⟩ := ha.ev
    exact ⟨_, N + M + 1, result_subxAny (hN _ (by omega)) (hM _ (by omega))⟩
  | cons ha _ =>
    obtain ⟨M, hM⟩ := ha.ev
    exact ⟨_, N + M + 1, result_subxAny (hN _ (by omega)) (hM _ (by omega))⟩

/-! ## Predicate connectives -/

/-- `pred_not` over a predicate that obeys the law obeys it, with the answers flipped. -/
theorem not_law {a₀ : Pred} {P : Stack → PredResult} (ha : PredLaw rt env a₀ P) :
    PredLaw rt env (.not a₀) fun s => (P s).not := by
  have reach : ∀ {p}, PredReach rt env (.not a₀) p → ∃ a, p = .not a ∧ PredReach rt env a₀ a := by
    intro p h
    induction h with
    | base => exact ⟨a₀, rfl, .base⟩
    | step _ hs ih =>
      obtain ⟨a, rfl, hr⟩ := ih
      obtain ⟨_ | n, hn⟩ := hs
      · exact nomatch hn
      obtain ⟨⟨_, a₁⟩, h₁, hn⟩ := Res.bind_eq_pure hn
      cases Res.pure_inj hn
      exact ⟨a₁, rfl, hr.step ⟨n, h₁⟩⟩
  intro p hp s
  obtain ⟨a, rfl, hr⟩ := reach hp
  obtain ⟨a', n, hn⟩ := ha a hr s
  exact ⟨_, n + 1, result_not hn⟩

section Connectives

variable {K : Pred → Pred → Pred} {op : PredResult → PredResult → PredResult}

/-- `K` is a binary connective with operation `op`: `result` asks both operands on the
same stack, the first one first, and combines their answers with `op`. This is
`pred_and` with `&&` and `pred_or` with `||`. -/
def Connective (rt : Runtime) (env : Env) (K : Pred → Pred → Pred)
    (op : PredResult → PredResult → PredResult) : Prop :=
  ∀ n a b s, result rt env (n + 1) (K a b) s = do
    let (ra, a) ← result rt env n a s
    let (rb, b) ← result rt env n b s
    pure (op ra rb, K a b)

theorem connective_and (rt : Runtime) (env : Env) : Connective rt env .and PredResult.and := fun _ _ _ _ => by rw [result]

theorem connective_or (rt : Runtime) (env : Env) : Connective rt env .or PredResult.or := fun _ _ _ _ => by rw [result]

/-- The states of a connective: each pairs states its operands reach. -/
theorem PredReach.connective (hK : Connective rt env K op) {a₀ b₀ p : Pred}
    (h : PredReach rt env (K a₀ b₀) p) :
    ∃ a b, p = K a b ∧ PredReach rt env a₀ a ∧ PredReach rt env b₀ b := by
  induction h with
  | base => exact ⟨a₀, b₀, rfl, .base, .base⟩
  | step _ hs ih =>
    obtain ⟨a, b, rfl, ha, hb⟩ := ih
    obtain ⟨_ | n, hn⟩ := hs
    · exact nomatch hn
    rw [hK] at hn
    obtain ⟨⟨_, a₁⟩, h₁, hn⟩ := Res.bind_eq_pure hn
    obtain ⟨⟨_, b₁⟩, h₂, hn⟩ := Res.bind_eq_pure hn
    cases Res.pure_inj hn
    exact ⟨a₁, b₁, rfl, ha.step ⟨n, h₁⟩, hb.step ⟨n, h₂⟩⟩

/-- A connective over two predicates that obey the law obeys it, with the answers
combined. -/
theorem connective_law (hK : Connective rt env K op) {a₀ b₀ : Pred} {P Q : Stack → PredResult}
    (ha : PredLaw rt env a₀ P) (hb : PredLaw rt env b₀ Q) :
    PredLaw rt env (K a₀ b₀) fun s => op (P s) (Q s) := by
  intro p hp s
  obtain ⟨a, b, rfl, hra, hrb⟩ := hp.connective hK
  obtain ⟨a', ha'⟩ := ha a hra s
  obtain ⟨b', hb'⟩ := hb b hrb s
  obtain ⟨N, hN⟩ := ha'.ev
  obtain ⟨M, hM⟩ := hb'.ev
  refine ⟨K a' b', N + M + 1, ?_⟩
  rw [hK]; simp only [hN _ (by omega : N ≤ N + M), hM _ (by omega : M ≤ N + M), pure_bind]

end Connectives

/-- **The connectives obey the predicate law.** Over predicates that answer `P` and
`Q` from every state they reach, `!`, `&&` and `||` answer `P s` flipped, and `P s`
and `Q s` combined, from every state they reach. -/
theorem connectives_law {p q : Pred} {P Q : Stack → PredResult} (hp : PredLaw rt env p P)
    (hq : PredLaw rt env q Q) :
    PredLaw rt env (.not p) (fun s => (P s).not) ∧
      PredLaw rt env (.and p q) (fun s => (P s).and (Q s)) ∧
      PredLaw rt env (.or p q) (fun s => (P s).or (Q s)) :=
  ⟨not_law hp, connective_law (connective_and rt env) hp hq, connective_law (connective_or rt env) hp hq⟩

/-- The connectives over the predicate that a bare origin has a result. -/
theorem connectives_law_on_subxAny :
    let P : Stack → PredResult := fun s => if [s] ≠ [] then .yes else .no
    PredLaw Runtime.demo Env.demo (.subxAny .init .leaf) P ∧
      PredLaw Runtime.demo Env.demo (.not (.subxAny .init .leaf)) (fun s => (P s).not) ∧
      PredLaw Runtime.demo Env.demo (.and (.subxAny .init .leaf) (.subxAny .init .leaf))
        (fun s => (P s).and (P s)) ∧
      PredLaw Runtime.demo Env.demo (.or (.subxAny .init .leaf) (.subxAny .init .leaf))
        (fun s => (P s).or (P s)) :=
  have hp : PredLaw Runtime.demo Env.demo (.subxAny .init .leaf)
      fun s => if [s] ≠ [] then .yes else .no := subxAny_law leaf_law .init
  ⟨hp, connectives_law hp hp⟩

/-- The stacks `SubX` yields for one upstream stack `s`, by induction on the run of its
sub-expression. -/
theorem subx_segment {R : Op → List Stack → Prop} {c : Ctx} (hR : Resumes rt env R R c c) {u : Op}
    {keep : Nat} {s : Stack} {so'' : Origin} {x'' : Op} {l : List Stack}
    (hl : R (.subx u so'' x'' keep none) l) :
    ∀ {so x ts}, SubRun rt env so x ts so'' x'' → (∀ r ∈ ts, keep ≤ r.values.length) →
      R (.subx u so x keep (some s)) (ts.map (Den.extend rt keep · s) ++ l) := by
  intro so x ts h hts
  induction h with
  | last ha =>
    obtain ⟨N, hN⟩ := ha.ev
    exact hR.of_step (fun n hn => next_subx_end (hN n hn)) hl
  | cons ha _ ih =>
    obtain ⟨N, hN⟩ := ha.ev
    exact hR.cons ⟨N + 1, next_subx_some (hN N (Nat.le_refl _))
      (Stack.keepTop_eq (hts _ (List.mem_cons_self _ _)) s)⟩
      (ih hl fun r hr => hts r (List.mem_cons_of_mem _ hr))

/-- `SubX X keep` extends each upstream stack by the top `keep` values of each result of
`X`, from every state `X` reaches. -/
theorem segmentLaw_subx {X : Op} {den : Stack → List Stack} (hX : ResetLaw rt env X den)
    (keep : Nat) :
    SegmentLaw rt env (fun u (b : Origin × Op) => .subx u b.1 b.2 keep none)
      (fun b => Reach rt env X b.2) (fun s => ∀ r ∈ den s, keep ≤ r.values.length)
      (Den.subx rt keep den) := by
  refine ⟨fun {_ _ b _ _} hx ⟨n, h⟩ => ⟨b, hx, n + 1, next_subx_null h⟩, ?_⟩
  rintro c u ⟨so, x⟩ s u₁ c₁ hx hks hs
  obtain ⟨so', x', so'', x'', hp, hrun, hx''⟩ := hX.run hx so s
  obtain ⟨N, hN⟩ := hs.ev
  obtain ⟨M, hM⟩ := hp.ev
  exact ⟨(so'', x''), hx'', fun _ _ hR hR₁ l hl => hR.of_step (N := N + M)
    (fun n hn => next_subx_pull (hN n (by omega)) (hM n (by omega))) (subx_segment hR₁ hl hrun hks)⟩

/-- `SubX X keep` extends each upstream stack by the top `keep` values of each result
of `X`. -/
theorem subx_refines {X : Op} {den : Stack → List Stack} (hX : ResetLaw rt env X den)
    (keep : Nat) (so : Origin) (hkeep : ∀ s ∈ ss, ∀ r ∈ den s, keep ≤ r.values.length)
    (hu : Yields rt env c u ss) :
    Yields rt env c (.subx u so X keep none) (ss.flatMap (Den.subx rt keep den)) :=
  (segmentLaw_subx hX keep).yields hu hkeep (so, X) .base

/-- `Capture X` pushes onto each upstream stack the sequence of the tops of the results of
`X`, from every state `X` reaches. -/
theorem segmentLaw_capture {X : Op} {den : Stack → List Stack} (hX : ResetLaw rt env X den) :
    SegmentLaw rt env (fun u (b : Origin × Op) => .capture u b.1 b.2) (fun b => Reach rt env X b.2)
      (fun s => ∀ r ∈ den s, r.values ≠ []) (Den.capture rt den) := by
  refine ⟨fun {_ _ b _ _} hx ⟨n, h⟩ => ⟨b, hx, n + 1, next_capture_null h⟩, ?_⟩
  rintro c u ⟨so, x⟩ s u₁ c₁ hx hts hs
  obtain ⟨so', x', so'', x'', hp, hrun, hx''⟩ := hX.run hx so s
  obtain ⟨N, hN⟩ := hs.ev
  obtain ⟨M, hM⟩ := hp.ev
  obtain ⟨K, hK⟩ := collect_of_subRun hrun hts
  exact ⟨(so'', x''), hx'', fun _ _ hR _ _ hl => hR.cons ⟨N + M + K + 1,
    next_capture_some (hN _ (by omega)) (hM _ (by omega)) (hK _ (by omega))⟩ hl⟩

/-- `Capture X` pushes onto each upstream stack the sequence of the tops of the results
of `X`. -/
theorem capture_refines {X : Op} {den : Stack → List Stack} (hX : ResetLaw rt env X den)
    (so : Origin) (htop : ∀ s ∈ ss, ∀ r ∈ den s, r.values ≠ [])
    (hu : Yields rt env c u ss) :
    Yields rt env c (.capture u so X) (ss.flatMap (Den.capture rt den)) :=
  (segmentLaw_capture hX).yields hu htop (so, X) .base

end Refinements

end Dwgrep
