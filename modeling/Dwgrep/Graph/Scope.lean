import Dwgrep.Graph.Refine

/-!
# Scopes and closures

`op_scope` (`op.cc`) runs its sub-expression on each upstream stack inside a fresh
frame and takes the frame off each result again. `op_lex_closure` pushes a closure over
the current frame, and `op_apply` (`builtin-closure.cc`) pops a closure and runs its
body, built afresh over an origin that holds the rest of the stack in the closure's
frame, restoring the caller's frame on each result.

* `scope_refines` — **`Scope`** refines its list semantics as the operators of
  `Refine` do, with the frame calls of `Env` around its sub-expression's denotation;
* `BodyLaw` — the bodies that `Env.build` compiles yield, from a primed origin, what a
  denotation `B` says; `apply_refines` is then `Apply`'s list semantics;
* `apply_lexClosure` — **a closure applied where it is built runs its body on the
  same stack**, each result back in the caller's frame.
-/

namespace Dwgrep

/-! ## Denotations -/

namespace Den

variable (rt : Runtime)

/-- `Scope X nv`: the results of `X` on `s` in a fresh frame of `nv` variables, each
with the frame left again. -/
def scope (env : Env) (nv : Nat) (den : Stack → List Stack) (s : Stack) : List Stack :=
  (den (env.enter nv s)).map env.leave

/-- `LexClosure body`: `s` with a closure over its frame pushed. -/
def lexClosure (body : Nat) (s : Stack) : List Stack := [s.push rt (.closure body s.frame 0)]

/-- `Apply`: pop the top of `s`. A closure runs its body on the rest of `s` in the
closure's frame, each result back in the frame of `s`; any other value passes `s` on
when non-closures are skipped, and nothing otherwise. -/
def apply (skip : Bool) (B : Nat → Stack → List Stack) (s : Stack) : List Stack :=
  match s.pop rt with
  | .ok (.closure body frame _, s') =>
    (B body { s' with frame := frame }).map fun t => { t with frame := s'.frame }
  | .ok _ => if skip then [s] else []
  | .error _ => []

end Den

variable {rt : Runtime} {env : Env}

/-- The law of the closure bodies, with denotation `B`: the body `body`, built afresh
over an origin primed with `t`, yields `B body t` and null. `op_apply` never resets a
body; it builds a new one for each closure. -/
def BodyLaw (rt : Runtime) (env : Env) (B : Nat → Stack → List Stack) : Prop :=
  ∀ body t, ∃ o x, SubRun rt env (.primed t) (env.build body) (B body t) o x

/-- A stack that pops has its popped value on top. -/
theorem Stack.values_of_pop {s t : Stack} {v : Value} (hp : s.pop rt = .ok (v, t)) :
    ∃ vs, s.values = v :: vs := by
  unfold Stack.pop at hp
  split at hp
  · cases hp
  · cases hp; exact ⟨_, ‹_›⟩

/-! ## Transitions -/

section Steps

variable {n : Nat} {c c₁ : Ctx} {u u₁ x x₁ x' : Op} {so so₁ so' : Origin} {s t : Stack}
  {nv body : Nat} {skip : Bool}

theorem next_scope_null (hu : next rt env n c u = pure (none, u₁, c₁)) :
    next rt env (n + 1) c (.scope u so x nv false) = pure (none, .scope u₁ so x nv false, c₁) := by
  rw [next]; simp only [hu, pure_bind]

theorem next_scope_pull (hu : next rt env n c u = pure (some s, u₁, c₁))
    (hp : prime (reset rt env n (.origin so) x) (env.enter nv s) = pure (so', x')) :
    next rt env (n + 1) c (.scope u so x nv false) = next rt env n c₁ (.scope u₁ so' x' nv true) := by
  rw [next]; simp only [hu, hp, pure_bind]

theorem next_scope_some (hx : subRun (next rt env n (.origin so) x) = pure (some t, so₁, x₁)) :
    next rt env (n + 1) c (.scope u so x nv true) =
      pure (some (env.leave t), .scope u so₁ x₁ nv true, c) := by
  rw [next]; simp only [hx, pure_bind]

theorem next_scope_end (hx : subRun (next rt env n (.origin so) x) = pure (none, so₁, x₁)) :
    next rt env (n + 1) c (.scope u so x nv true) = next rt env n c (.scope u so₁ x₁ nv false) := by
  rw [next]; simp only [hx, pure_bind]

theorem next_lexClosure {r : Option Stack} (hu : next rt env n c u = pure (r, u₁, c₁)) :
    next rt env (n + 1) c (.lexClosure u body) =
      pure (r.map fun s => s.push rt (.closure body s.frame 0), .lexClosure u₁ body, c₁) := by
  rw [next]; simp only [hu, pure_bind]

theorem next_apply_null (hu : next rt env n c u = pure (none, u₁, c₁)) :
    next rt env (n + 1) c (.apply u skip none) = pure (none, .apply u₁ skip none, c₁) := by
  rw [next]; simp only [hu, pure_bind]

theorem next_apply_closure {frame : Option Nat} {p : Nat}
    (hu : next rt env n c u = pure (some s, u₁, c₁))
    (hp : s.pop rt = .ok (.closure body frame p, t)) :
    next rt env (n + 1) c (.apply u skip none) =
      next rt env n c₁ (.apply u₁ skip (some (.primed { t with frame := frame }, env.build body,
        t.frame))) := by
  obtain ⟨vs, hv⟩ := Stack.values_of_pop hp
  rw [next]; simp only [hu, hv, hp, pure_bind, Res.lift_ok_bind]

theorem next_apply_other {v : Value} (hu : next rt env n c u = pure (some s, u₁, c₁))
    (hp : s.pop rt = .ok (v, t)) (hv : ∀ body frame p, v ≠ .closure body frame p) :
    next rt env (n + 1) c (.apply u skip none) =
      if skip then pure (some s, .apply u₁ skip none, c₁) else next rt env n c₁ (.apply u₁ skip none) := by
  obtain ⟨vs, hs⟩ := Stack.values_of_pop hp
  rw [next]; simp only [hu, hs, pure_bind]

theorem next_apply_some {old : Option Nat}
    (hx : subRun (next rt env n (.origin so) x) = pure (some t, so₁, x₁)) :
    next rt env (n + 1) c (.apply u skip (some (so, x, old))) =
      pure (some { t with frame := old }, .apply u skip (some (so₁, x₁, old)), c) := by
  rw [next]; simp only [hx, pure_bind]

theorem next_apply_end {old : Option Nat}
    (hx : subRun (next rt env n (.origin so) x) = pure (none, so₁, x₁)) :
    next rt env (n + 1) c (.apply u skip (some (so, x, old))) = next rt env n c (.apply u skip none) := by
  rw [next]; simp only [hx, pure_bind]

end Steps

/-! ## The refinements -/

section Refinements

variable {c : Ctx} {u : Op} {ss : List Stack}

/-- The stacks `Scope` yields for one upstream stack, by induction on the run of its
sub-expression. -/
theorem scope_segment {nv : Nat} {so'' : Origin} {x'' : Op} {l : List Stack}
    (hl : Yields rt env c (.scope u so'' x'' nv false) l) :
    ∀ {so x ts}, SubRun rt env so x ts so'' x'' →
      Yields rt env c (.scope u so x nv true) (ts.map env.leave ++ l) := by
  intro so x ts h
  induction h with
  | last ha =>
    obtain ⟨N, hN⟩ := ha.ev
    exact hl.of_step fun n hn => next_scope_end (hN n hn)
  | cons ha _ ih =>
    obtain ⟨N, hN⟩ := ha.ev
    exact .cons ⟨N + 1, next_scope_some (hN N (Nat.le_refl _))⟩ (ih hl)

/-- **`Scope X nv`** yields, for each upstream stack `s`, the results of `X` on `s` in a
fresh frame of `nv` variables, each with that frame left again. -/
theorem scope_refines {X : Op} {den : Stack → List Stack} (hX : ResetLaw rt env X den)
    (nv : Nat) (so : Origin) (hu : Yields rt env c u ss) :
    Yields rt env c (.scope u so X nv false) (ss.flatMap (Den.scope env nv den)) := by
  refine Yields.of_segments (fun u (b : Origin × Op) => .scope u b.1 b.2 nv false)
    (fun b => Reach rt env X b.2) _ (fun _ => True)
    (fun _ _ _ _ _ _ ⟨n, h⟩ => ⟨_, n + 1, next_scope_null h⟩) ?_ hu (fun _ _ => trivial)
    (so, X) .base
  rintro c u ⟨so, x⟩ s u₁ c₁ hx - hs
  obtain ⟨so', x', so'', x'', hp, hrun, hx''⟩ := hX.run hx so (env.enter nv s)
  obtain ⟨N, hN⟩ := hs.ev
  obtain ⟨M, hM⟩ := hp.ev
  exact ⟨(so'', x''), hx'', fun l hl => (scope_segment hl hrun).of_step (N := N + M)
    fun n hn => next_scope_pull (hN n (by omega)) (hM n (by omega))⟩

/-- `Scope` over a bare origin, in the demo environment, from the empty stack. -/
theorem scope_refines_over_origin :
    Yields Runtime.demo Env.demo (.origin (.primed Stack.empty)) .leaf [Stack.empty] ∧
    Yields Runtime.demo Env.demo (.origin (.primed Stack.empty)) (.scope .leaf .init .leaf 2 false)
      ([Stack.empty].flatMap (Den.scope Env.demo 2 fun s => [s])) :=
  have hu : Yields Runtime.demo Env.demo (.origin (.primed Stack.empty)) .leaf [Stack.empty] :=
    .cons ⟨2, rfl⟩ (.nil ⟨2, rfl⟩)
  ⟨hu, scope_refines leaf_law 2 .init hu⟩

/-- `LexClosure body` pushes onto each upstream stack a closure over its frame. -/
theorem segmentLaw_lexClosure (body : Nat) :
    SegmentLaw rt env (fun u (_ : Unit) => .lexClosure u body) (fun _ => True) (fun _ => True)
      (Den.lexClosure rt body) :=
  ⟨fun _ ⟨n, h⟩ => ⟨(), trivial, n + 1, next_lexClosure h⟩,
    fun _ _ ⟨n, h⟩ => ⟨(), trivial, fun _ _ hR _ _ hl => hR.cons ⟨n + 1, next_lexClosure h⟩ hl⟩⟩

/-- `LexClosure body` pushes onto each upstream stack a closure over its frame. -/
theorem lexClosure_refines (body : Nat) (hu : Yields rt env c u ss) :
    Yields rt env c (.lexClosure u body) (ss.flatMap (Den.lexClosure rt body)) :=
  (segmentLaw_lexClosure body).yields hu (fun _ _ => trivial) () trivial

/-- The stacks `Apply` yields while a closure body runs, each put back in the frame
`old`. -/
theorem apply_segment {skip : Bool} {old : Option Nat} {o'' : Origin} {x'' : Op}
    {l : List Stack} (hl : Yields rt env c (.apply u skip none) l) :
    ∀ {o x ts}, SubRun rt env o x ts o'' x'' →
      Yields rt env c (.apply u skip (some (o, x, old)))
        (ts.map (fun t => { t with frame := old }) ++ l) := by
  intro o x ts h
  induction h with
  | last ha =>
    obtain ⟨N, hN⟩ := ha.ev
    exact hl.of_step fun n hn => next_apply_end (hN n hn)
  | cons ha _ ih =>
    obtain ⟨N, hN⟩ := ha.ev
    exact .cons ⟨N + 1, next_apply_some (hN N (Nat.le_refl _))⟩ ih

/-- `Den.apply` of a stack whose top is not a closure. -/
theorem Den.apply_other {skip : Bool} {B : Nat → Stack → List Stack} {s t : Stack} {v : Value}
    (hp : s.pop rt = .ok (v, t)) (hv : ∀ body frame p, v ≠ .closure body frame p) :
    Den.apply rt skip B s = if skip then [s] else [] := by
  unfold Den.apply
  rw [hp]
  cases v <;> first | rfl | exact absurd rfl (hv _ _ _)

/-- **`Apply`** yields, for each upstream stack, what `Den.apply` says: the results of
the closure body on top, run on the rest of the stack in the closure's frame and put
back in the caller's frame, or the stack itself for a value that is not a closure when
those are skipped. -/
theorem apply_refines {B : Nat → Stack → List Stack} (hB : BodyLaw rt env B) (skip : Bool)
    (hne : ∀ s ∈ ss, s.values ≠ []) (hu : Yields rt env c u ss) :
    Yields rt env c (.apply u skip none) (ss.flatMap (Den.apply rt skip B)) := by
  refine Yields.of_segments (fun u (_ : Unit) => .apply u skip none) (fun _ => True) _
    (fun s => s.values ≠ []) (fun _ _ _ _ _ _ ⟨n, h⟩ => ⟨_, n + 1, next_apply_null h⟩) ?_ hu hne
    () trivial
  rintro c u - s u₁ c₁ - hs ⟨n, hn⟩
  refine ⟨(), trivial, fun l hl => ?_⟩
  obtain ⟨v, vs, hv⟩ := List.exists_cons_of_ne_nil hs
  obtain ⟨t, hp, -⟩ := Stack.pop_of_values rt hv
  by_cases hc : ∃ body frame p, v = .closure body frame p
  · obtain ⟨body, frame, p, rfl⟩ := hc
    obtain ⟨o, x, hrun⟩ := hB body { t with frame := frame }
    have hden : Den.apply rt skip B s =
        (B body { t with frame := frame }).map fun r => { r with frame := t.frame } := by
      unfold Den.apply; rw [hp]
    rw [hden]
    exact (apply_segment hl hrun).of_step fun m hm =>
      next_apply_closure ((next_mono hm _ _).eq_pure hn) hp
  · have hv' : ∀ body frame p, v ≠ .closure body frame p := fun body frame p h =>
      hc ⟨body, frame, p, h⟩
    rw [Den.apply_other hp hv']
    cases skip with
    | true => exact .cons ⟨n + 1, by rw [next_apply_other hn hp hv', if_pos rfl]⟩ hl
    | false =>
      exact hl.of_step fun m hm => by rw [next_apply_other ((next_mono hm _ _).eq_pure hn) hp hv']; rfl

/-- **A closure applied where it is built runs its body on the same stack.** Over an
upstream that yields stacks of a right profile, `LexClosure body` followed by `Apply`
yields, for each stack `s`, the results of the body on `s`, each back in the frame of
`s`. -/
theorem apply_lexClosure {B : Nat → Stack → List Stack} (hB : BodyLaw rt env B) (body : Nat)
    (skip : Bool) (hok : ∀ s ∈ ss, s.ProfileOk rt) (hu : Yields rt env c u ss) :
    Yields rt env c (.apply (.lexClosure u body) skip none)
      (ss.flatMap fun s => (B body s).map fun t => { t with frame := s.frame }) := by
  have hbeta : ∀ s ∈ ss, (Den.lexClosure rt body s).flatMap (Den.apply rt skip B) =
      (B body s).map fun t => { t with frame := s.frame } := fun s hs => by
    simp only [Den.lexClosure, List.flatMap_cons, List.flatMap_nil, List.append_nil, Den.apply,
      Stack.pop_push (hok s hs)]
  have hne : ∀ s ∈ ss.flatMap (Den.lexClosure rt body), s.values ≠ [] := by
    simp only [List.mem_flatMap, Den.lexClosure, List.mem_singleton]
    rintro _ ⟨s, -, rfl⟩
    exact List.cons_ne_nil _ _
  have h := apply_refines hB skip hne (lexClosure_refines body hu)
  rwa [List.flatMap_assoc, List.flatMap_congr hbeta] at h

/-- A closure whose body is a bare origin, built and applied over the empty stack. -/
theorem apply_lexClosure_on_origin :
    BodyLaw Runtime.demo Env.demo (fun _ t => [t]) ∧ Stack.empty.ProfileOk Runtime.demo ∧
    Yields Runtime.demo Env.demo (.origin (.primed Stack.empty)) .leaf [Stack.empty] ∧
    Yields Runtime.demo Env.demo (.origin (.primed Stack.empty)) (.apply (.lexClosure .leaf 0) false none)
      ([Stack.empty].flatMap fun s => [s].map fun t => { t with frame := s.frame }) :=
  have hB : BodyLaw Runtime.demo Env.demo (fun _ t => [t]) := fun _ _ =>
    ⟨_, _, .cons ⟨2, rfl⟩ (.last ⟨2, rfl⟩)⟩
  have hu : Yields Runtime.demo Env.demo (.origin (.primed Stack.empty)) .leaf [Stack.empty] :=
    .cons ⟨2, rfl⟩ (.nil ⟨2, rfl⟩)
  ⟨hB, Stack.profileOk_empty, hu, apply_lexClosure hB 0 false
    (fun _ hs => (List.mem_singleton.1 hs) ▸ Stack.profileOk_empty) hu⟩

end Refinements

end Dwgrep
