import Mathlib.Logic.Relation
import Dwgrep.Graph.Format

/-!
# Transitive closure

`op_tr_closure` (`op.cc`, `yield_and_cache`, `next_from_upstream`, `next_from_op`,
`send_to_op`, `next`) runs a worklist algorithm over its sub-expression. Each stack the
sub-expression yields is dropped if the seen-set holds a structurally equal one, and is
otherwise yielded and pushed on the worklist. A drained sub-expression is reset and
primed with the back of the worklist.

* `WRun` is that algorithm over the denotation `f` of the sub-expression, and `Closes`
  its run for one upstream stack;
* `tr_segment`: the code refines `WRun`, by induction on the run;
* `Closes.exact`: a run yields the stacks reachable by `f` up to structural equality
  (`ExactClosure`) once `f` respects structural equality. `Closes.exists`: a run exists
  once the reachable stacks are finitely many. Structural equality is an equivalence
  once atoms are compared by a total preorder (`sameAs_refl`, `sameAs_trans`);
* `TrInv`: the invariant of the code's states, kept by each call (`TrInv.step`), so that
  every prefix of a run is, stack by stack, part of the closures (`trClosure_prefix_sound`),
  however far they reach;
* `trClosure_exact`: over an upstream that yields `s₁ … sₙ`, `TrClosure` yields an exact
  closure of each `sᵢ` in turn, and null, and every prefix of its run is sound;
* `trClosure_misses_reachable`: when `f` tells apart stacks that the seen-set takes for
  the same, here by their positions, a reachable stack is never yielded;
* `trClosure_reset_replays_stale_results`: a reset in the middle of an inner run keeps
  that run, whose results then come out after the closure is primed anew.
-/

namespace Dwgrep

variable {rt : Runtime} {env : Env}

/-! ## Structural equality -/

section SameAs

theorem sameAs_iff {s t : Stack} :
    Stack.sameAs rt s t = true ↔
      List.Forall₂ (fun a b => a.vtype = b.vtype ∧ a.domain = b.domain ∧ a.cmp rt b = .equal)
        s.values t.values := by
  unfold Stack.sameAs
  generalize s.values = xs
  generalize t.values = ys
  induction xs generalizing ys with
  | nil => cases ys <;> simp
  | cons a xs ih =>
    cases ys with
    | nil => simp
    | cons b ys =>
      rw [List.forall₂_cons, ← ih]
      simp only [List.zip_cons_cons, List.length_cons, List.all_cons, Bool.and_eq_true, beq_iff_eq,
        Nat.add_right_cancel_iff]
      exact ⟨fun ⟨hl, ⟨⟨hv, hd⟩, hc⟩, hr⟩ => ⟨⟨hv, hd, hc⟩, hl, hr⟩,
        fun ⟨⟨hv, hd, hc⟩, hl, hr⟩ => ⟨hl, ⟨⟨hv, hd⟩, hc⟩, hr⟩⟩

variable (ha : AtomOrder rt)
include ha

theorem sameAs_refl (s : Stack) : Stack.sameAs rt s s = true :=
  sameAs_iff.2 (List.forall₂_same.2 fun _ _ => ⟨rfl, rfl, (isOrder_cmp ha).refl trivial⟩)

theorem sameAs_trans {s t r : Stack} (h₁ : Stack.sameAs rt s t = true) (h₂ : Stack.sameAs rt t r = true) :
    Stack.sameAs rt s r = true := by
  rw [sameAs_iff] at *
  generalize s.values = xs at h₁ ⊢
  generalize t.values = ys at h₁ h₂
  generalize r.values = zs at h₂ ⊢
  induction h₁ generalizing zs with
  | nil => cases h₂; exact .nil
  | cons hab _ ih =>
    cases h₂ with
    | cons hbc h₂ =>
      exact .cons ⟨hab.1.trans hbc.1, hab.2.1.trans hbc.2.1,
        (isOrder_cmp ha).eq_trans trivial trivial trivial hab.1 hbc.1 hab.2.2 hbc.2.2⟩ (ih _ h₂)

end SameAs

/-! ## The worklist algorithm -/

section Worklist

variable (rt : Runtime) (f : Stack → List Stack)

/-- **The worklist algorithm of `op_tr_closure`**, over the denotation `f` of its
sub-expression. `WRun pending stks seen out`: with the results `pending` of the
sub-expression still to come, the worklist `stks` (its back first) and the seen-set
`seen`, the closure yields `out`. -/
inductive WRun : List Stack → List Stack → List Stack → List Stack → Prop
  /-- the sub-expression and the worklist are drained -/
  | done {seen} : WRun [] [] seen []
  /-- `yield_and_cache` drops a result that the seen-set holds -/
  | skip {t ts stks seen out} : seen.any (Stack.sameAs rt t) = true → WRun ts stks seen out →
      WRun (t :: ts) stks seen out
  /-- `yield_and_cache` yields a new result and caches it -/
  | yield {t ts stks seen out} : seen.any (Stack.sameAs rt t) = false →
      WRun ts (t :: stks) (t :: seen) out → WRun (t :: ts) stks seen (t :: out)
  /-- `send_to_op` primes the drained sub-expression with the back of the worklist -/
  | pop {s stks seen out} : WRun (f s) stks seen out → WRun [] (s :: stks) seen out

/-- The run for one upstream stack `s`. With `plus`, `s` primes the sub-expression and
the seen-set is empty; without, `s` is yielded first and starts the seen-set. -/
def Closes (plus : Bool) (s : Stack) (L : List Stack) : Prop :=
  if plus then WRun rt f (f s) [] [] L else ∃ L', L = s :: L' ∧ WRun rt f (f s) [] [s] L'

/-- `t` is reached from `s` by steps of `f`: one or more under `plus`, any number
otherwise. -/
def Closure : Bool → Stack → Stack → Prop
  | true => Relation.TransGen fun a b => b ∈ f a
  | false => Relation.ReflTransGen fun a b => b ∈ f a

/-- `L` is part of the closure of `s`: each stack of `L` is reached from `s`, and no
stack of `L` is structurally equal to one before it. -/
structure SoundClosure (plus : Bool) (s : Stack) (L : List Stack) : Prop where
  sound : ∀ t ∈ L, Closure f plus s t
  distinct : L.Pairwise fun a b => Stack.sameAs rt b a = false

/-- `L` is the closure of `s` up to structural equality: it is part of the closure, and
each reached stack is structurally equal to one of `L`. -/
structure ExactClosure (plus : Bool) (s : Stack) (L : List Stack)
    extends SoundClosure rt f plus s L : Prop where
  complete : ∀ t, Closure f plus s t → ∃ t' ∈ L, Stack.sameAs rt t t' = true

/-- `f` respects structural equality: each result on a stack has a structurally equal
result on each structurally equal stack. -/
def Respects : Prop :=
  ∀ s t, Stack.sameAs rt s t = true → ∀ r ∈ f s, ∃ r' ∈ f t, Stack.sameAs rt r r' = true

/-- `t` is structurally equal to a stack of `S`. -/
def Covered (S : List Stack) (t : Stack) : Prop := ∃ s ∈ S, Stack.sameAs rt t s = true

end Worklist

section Properties

variable {f : Stack → List Stack} {pending stks seen out : List Stack}

/-- Every stack a run yields has the property `P` of its results and worklist, if `f`
keeps `P`. -/
theorem WRun.sound {P : Stack → Prop} (hP : ∀ a, P a → ∀ b ∈ f a, P b)
    (h : WRun rt f pending stks seen out) (hpend : ∀ t ∈ pending, P t) (hstks : ∀ t ∈ stks, P t) :
    ∀ t ∈ out, P t := by
  induction h with
  | done => exact nofun
  | skip _ _ ih => exact ih (fun t ht => hpend t (.tail _ ht)) hstks
  | yield _ _ ih =>
    have ht := hpend _ (.head _)
    refine List.forall_mem_cons.2 ⟨ht, ih (fun t h => hpend t (.tail _ h)) ?_⟩
    exact List.forall_mem_cons.2 ⟨ht, hstks⟩
  | @pop s _ _ _ _ ih =>
    exact ih (hP s (hstks s (.head _))) fun t ht => hstks t (.tail _ ht)

/-- A run yields no stack that its seen-set holds, nor one structurally equal to a
stack it yielded before. -/
theorem WRun.distinct (h : WRun rt f pending stks seen out) :
    (∀ t ∈ out, seen.any (Stack.sameAs rt t) = false) ∧
      out.Pairwise fun a b => Stack.sameAs rt b a = false := by
  induction h with
  | done => exact ⟨nofun, .nil⟩
  | skip _ _ ih => exact ih
  | yield hs _ ih =>
    have hout : ∀ t ∈ _, _ ∧ _ := fun t ht => by
      simpa only [List.any_cons, Bool.or_eq_false_iff] using ih.1 t ht
    exact ⟨List.forall_mem_cons.2 ⟨hs, fun t ht => (hout t ht).2⟩,
      List.pairwise_cons.2 ⟨fun t ht => (hout t ht).1, ih.2⟩⟩
  | pop _ ih => exact ih

theorem Covered.mono {S S' : List Stack} {t : Stack} (h : Covered rt S t) (hS : ∀ s ∈ S, s ∈ S') :
    Covered rt S' t :=
  let ⟨s, hs, ht⟩ := h
  ⟨s, hS s hs, ht⟩

/-- **Covering.** When a run is over, its seen-set covers every result still to come and
every result of `f` on the worklist and on what it yielded. -/
theorem WRun.covers (ha : AtomOrder rt) (h : WRun rt f pending stks seen out) :
    (∀ t ∈ pending, Covered rt (seen ++ out) t) ∧
      ∀ s ∈ stks ++ out, ∀ t ∈ f s, Covered rt (seen ++ out) t := by
  induction h with
  | done => exact ⟨nofun, by simp⟩
  | skip hs _ ih =>
    obtain ⟨s, hs, hts⟩ := List.any_eq_true.1 hs
    exact ⟨List.forall_mem_cons.2 ⟨⟨s, List.mem_append_left _ hs, hts⟩, ih.1⟩, ih.2⟩
  | @yield t _ stks seen out _ _ ih =>
    have hS : ∀ s ∈ (t :: seen) ++ out, s ∈ seen ++ t :: out := fun _ hs =>
      List.perm_middle.symm.subset hs
    exact ⟨List.forall_mem_cons.2 ⟨⟨t, List.mem_append_right _ (.head _), sameAs_refl ha t⟩,
      fun t' ht' => (ih.1 t' ht').mono hS⟩,
      fun s hs r hr => (ih.2 s (List.perm_middle.subset hs) r hr).mono hS⟩
  | @pop s _ _ _ _ ih =>
    refine ⟨nofun, fun s' hs' => ?_⟩
    rcases List.mem_cons.1 hs' with rfl | hs'
    · exact ih.1
    · exact ih.2 s' hs'

/-- A stack one step of `f` away from a covered one is covered, by a seen-set closed
under `f` up to structural equality. -/
theorem Covered.step (ha : AtomOrder rt) (hresp : Respects rt f) {S : List Stack}
    (hclosed : ∀ s ∈ S, ∀ t ∈ f s, Covered rt S t) {a b : Stack} (hab : Covered rt S a)
    (hb : b ∈ f a) : Covered rt S b := by
  obtain ⟨s, hs, has⟩ := hab
  obtain ⟨r, hr, hbr⟩ := hresp a s has b hb
  obtain ⟨s', hs', hrs'⟩ := hclosed s hs r hr
  exact ⟨s', hs', sameAs_trans ha hbr hrs'⟩

/-- **The abstract closure is exact**: a run for `s` yields the stacks reached from `s`,
each once up to structural equality. -/
theorem Closes.exact (ha : AtomOrder rt) (hresp : Respects rt f) {plus : Bool} {s : Stack}
    {L : List Stack} (h : Closes rt f plus s L) : ExactClosure rt f plus s L := by
  cases plus with
  | true =>
    have hcov := WRun.covers ha h
    refine ⟨⟨WRun.sound (fun _ ha b hb => .tail ha hb) h (fun t ht => .single ht) nofun,
      (WRun.distinct h).2⟩, fun t ht => ?_⟩
    induction ht with
    | single hb => exact hcov.1 _ hb
    | tail _ hb ih => exact Covered.step ha hresp (fun s hs => hcov.2 s hs) ih hb
  | false =>
    obtain ⟨L, rfl, h⟩ := h
    have hcov := WRun.covers ha h
    refine ⟨⟨List.forall_mem_cons.2 ⟨.refl, WRun.sound (fun _ ha b hb => .tail ha hb) h
      (fun t ht => .single ht) nofun⟩, ?_⟩, fun t ht => ?_⟩
    · have hd := WRun.distinct h
      exact List.pairwise_cons.2 ⟨fun t ht => by simpa using hd.1 t ht, hd.2⟩
    · have hclosed : ∀ s' ∈ [s] ++ L, ∀ t ∈ f s', Covered rt ([s] ++ L) t := fun s' hs' => by
        rcases List.mem_cons.1 hs' with rfl | hs'
        · exact hcov.1
        · exact hcov.2 s' hs'
      induction ht with
      | refl => exact ⟨s, .head _, sameAs_refl ha s⟩
      | tail _ hb ih => exact Covered.step ha hresp hclosed ih hb

end Properties

/-! ## Transitions of `TrClosure` -/

section Steps

variable {n : Nat} {c c₁ : Ctx} {u u₁ x x₁ : Op} {so so₁ : Origin} {plus : Bool}
  {s t : Stack} {stks seen : List Stack}

end Steps

/-! ## Reset keeps the inner run

Before re-driving a sub-expression its driver calls `reset ()` on it, and `reset` must
make `next ()` behave as if it had never been called (spec §5). `op_tr_closure::reset`
clears the worklist and the seen-set and resets the upstream, but it leaves
`m_op_drained` and the inner expression `m_op` as they are. A closure reset while it is
still draining its inner expression therefore finishes that old inner run on its next
call (`next_tr_seen`, `next_tr_new`), and yields stacks computed from the previous input.
This happens whenever a driver abandons a closure after a first result: `IfElse` with a
closure as its condition, `SubXAny`, and `SubXCompare` stopping at its first match. -/

/-- `(,)+`: the transitive closure (plus) of a two-branch alternation of empty
expressions, which gives back its input twice. -/
def plusOfPair : Op :=
  .trClosure .leaf .init (.merge .leaf [none, none] false .leaf [.leaf] 0) true true [] []

/-- Primed with `s₁`, `(,)+` yields `s₁` and stops in the middle of its inner run: the
second branch still holds its copy of `s₁`. Reset there and primed with `s₂`, it yields
that stale `s₁` before `s₂`, where a fresh copy primed with `s₂` yields `s₂` alone. -/
theorem trClosure_reset_replays_stale_results (env : Env) :
    let s₁ : Stack := ⟨[.cst ⟨1, 0⟩ 0], 0, none⟩
    let s₂ : Stack := ⟨[.cst ⟨2, 0⟩ 0], 0, none⟩
    ∃ o₁ c₁ o₂,
      next Runtime.demo env 10 (.origin (.primed s₁)) plusOfPair = pure (some s₁, o₁, c₁) ∧
      reset Runtime.demo env 10 c₁ o₁ = pure (o₂, .origin .cleared) ∧
      Yields Runtime.demo env (.origin (.primed s₂)) o₂ [s₁, s₂] ∧
      Yields Runtime.demo env (.origin (.primed s₂)) plusOfPair [s₂] :=
  ⟨_, _, _, rfl, rfl, yields_of_drain (n := 20) (k := 4) rfl,
    yields_of_drain (n := 20) (k := 4) rfl⟩

/-! ## The code refines the worklist algorithm -/

section Prefix

variable {X : Op} {f : Stack → List Stack} {plus : Bool}

theorem Closure.tail {s a b : Stack} (h : Closure f plus s a) (hb : b ∈ f a) :
    Closure f plus s b := by
  cases plus
  · exact Relation.ReflTransGen.tail h hb
  · exact Relation.TransGen.tail h hb

variable (rt env X f plus)

/-- A state of `TrClosure` at work on the upstream stack `s`, after it yielded `out` for
it: the sub-expression is in a state the reset law covers, every stack on the worklist and
in the seen-set is reached from `s`, what was yielded is in the seen-set and distinct, and
while the sub-expression is not drained, what it has still to yield is reached from `s`. -/
structure TrSeg (s : Stack) (so : Origin) (x : Op) (drained : Bool) (stks seen out : List Stack) :
    Prop where
  reach : Reach rt env X x
  worklist : ∀ t ∈ stks, Closure f plus s t
  cached : ∀ t ∈ seen, Closure f plus s t
  yielded : ∀ t ∈ out, t ∈ seen
  distinct : out.Pairwise fun a b => Stack.sameAs rt b a = false
  pending : drained = false → ∃ l so' x', SubRun rt env so x l so' x' ∧ ∀ t ∈ l, Closure f plus s t

/-- The states of `TrClosure` over the upstream `u₀` from `c₀`, once the upstream has
yielded `ss` and the closure has yielded the lists `Ls` for them: waiting for the
upstream, or at work on the last stack of `ss`. -/
inductive TrInv (c₀ : Ctx) (u₀ : Op) : List Stack → List (List Stack) → Ctx → Op → Prop
  | wait {ss Ls c u so x seen} : Steps rt env c₀ u₀ ss c u →
      List.Forall₂ (SoundClosure rt f plus) ss Ls → Reach rt env X x →
      TrInv c₀ u₀ ss Ls c (.trClosure u so x plus true [] seen)
  | work {ss Ls s out c u so x drained stks seen} : Steps rt env c₀ u₀ (ss ++ [s]) c u →
      List.Forall₂ (SoundClosure rt f plus) ss Ls →
      TrSeg rt env X f plus s so x drained stks seen out →
      TrInv c₀ u₀ (ss ++ [s]) (Ls ++ [out]) c (.trClosure u so x plus drained stks seen)

variable {rt env X f plus} {c₀ : Ctx} {u₀ : Op}

theorem TrSeg.soundClosure {s : Stack} {so : Origin} {x : Op} {d : Bool} {stks seen out : List Stack}
    (h : TrSeg rt env X f plus s so x d stks seen out) : SoundClosure rt f plus s out :=
  ⟨fun t ht => h.cached t (h.yielded t ht), h.distinct⟩

theorem TrInv.sound {ss : List Stack} {Ls : List (List Stack)} {c : Ctx} {o : Op}
    (h : TrInv rt env X f plus c₀ u₀ ss Ls c o) :
    ∃ c₁ u₁, Steps rt env c₀ u₀ ss c₁ u₁ ∧ List.Forall₂ (SoundClosure rt f plus) ss Ls := by
  cases h with
  | wait hs hL => exact ⟨_, _, hs, hL⟩
  | work hs hL hseg => exact ⟨_, _, hs, List.rel_append hL (.cons hseg.soundClosure .nil)⟩

section Transitions

/-! One lemma for each thing a segment can do, as `WRun` has one constructor for it. -/

variable {s p : Stack} {so so₁ : Origin} {x x₁ : Op} {stks seen out : List Stack}

/-- Under `plus` the upstream stack primes the sub-expression, and nothing is cached. -/
theorem trSeg_plus (hX : ResetLaw rt env X f) (hx : Reach rt env X x)
    (hp : PrimeAnswers rt env so x s (so₁, x₁)) : TrSeg rt env X f true s so₁ x₁ false [] [] [] := by
  obtain ⟨so', x', so'', x'', hp', hrun, -⟩ := hX.run hx so s
  cases PrimeAnswers.det hp hp'
  exact ⟨hx.prime hp, fun _ => nofun, fun _ => nofun, fun _ => nofun, .nil,
    fun _ => ⟨_, _, _, hrun, fun _ ht => Relation.TransGen.single ht⟩⟩

/-- Otherwise the upstream stack is yielded, cached and put on the worklist. -/
theorem trSeg_star (hx : Reach rt env X x) : TrSeg rt env X f false s so x true [s] [s] [s] :=
  have hs : ∀ r ∈ [s], Closure f false s r := List.forall_mem_singleton.2 .refl
  ⟨hx, hs, hs, fun _ h => h, List.pairwise_singleton _ _, nofun⟩

/-- The sub-expression answers null: it is drained. -/
theorem TrSeg.drained (h : TrSeg rt env X f plus s so x false stks seen out)
    (ha : SubAnswers rt env so x (none, so₁, x₁)) : TrSeg rt env X f plus s so₁ x₁ true stks seen out :=
  ⟨h.reach.next ha, h.worklist, h.cached, h.yielded, h.distinct, nofun⟩

/-- The sub-expression answers a stack, which is reached from `s`. -/
theorem TrSeg.answer (h : TrSeg rt env X f plus s so x false stks seen out)
    (ha : SubAnswers rt env so x (some p, so₁, x₁)) :
    Closure f plus s p ∧ TrSeg rt env X f plus s so₁ x₁ false stks seen out := by
  obtain ⟨l, so', x', hrun, hl⟩ := h.pending rfl
  cases hrun with
  | last ha' => cases SubAnswers.det ha ha'
  | cons ha' hrun =>
    cases SubAnswers.det ha ha'
    exact ⟨hl _ (.head _), h.reach.next ha, h.worklist, h.cached, h.yielded, h.distinct,
      fun _ => ⟨_, _, _, hrun, fun t ht => hl t (.tail _ ht)⟩⟩

/-- A stack the seen-set does not hold is yielded, cached and put on the worklist. -/
theorem TrSeg.yield (h : TrSeg rt env X f plus s so x false stks seen out) (hp : Closure f plus s p)
    (hnew : seen.any (Stack.sameAs rt p) = false) :
    TrSeg rt env X f plus s so x false (p :: stks) (p :: seen) (out ++ [p]) := by
  refine ⟨h.reach, List.forall_mem_cons.2 ⟨hp, h.worklist⟩, List.forall_mem_cons.2 ⟨hp, h.cached⟩,
    fun t ht => ?_, List.pairwise_append.2 ⟨h.distinct, List.pairwise_singleton _ _, fun a ha b hb => ?_⟩,
    h.pending⟩
  · rcases List.mem_append.1 ht with ht | ht
    · exact .tail _ (h.yielded t ht)
    · exact List.mem_singleton.1 ht ▸ .head _
  · rw [List.mem_singleton.1 hb]
    simpa using List.any_eq_false.1 hnew a (h.yielded a ha)

/-- The drained sub-expression is primed with the back of the worklist, whose results are
reached from `s`. -/
theorem TrSeg.pop (hX : ResetLaw rt env X f) (h : TrSeg rt env X f plus s so x true (p :: stks) seen out)
    (hp : PrimeAnswers rt env so x p (so₁, x₁)) : TrSeg rt env X f plus s so₁ x₁ false stks seen out := by
  obtain ⟨so', x', so'', x'', hp', hrun, -⟩ := hX.run h.reach so p
  cases PrimeAnswers.det hp hp'
  have hsp := h.worklist p (.head _)
  exact ⟨h.reach.prime hp, fun t ht => h.worklist t (.tail _ ht), h.cached, h.yielded, h.distinct,
    fun _ => ⟨_, _, _, hrun, fun _ ht => hsp.tail ht⟩⟩

end Transitions

/-- **One call keeps the invariant**, and adds the stack it yields to the lists yielded. -/
theorem TrInv.step (hX : ResetLaw rt env X f) (n : Nat) :
    ∀ {ss Ls c o t o' c'}, TrInv rt env X f plus c₀ u₀ ss Ls c o →
      next rt env n c o = pure (some t, o', c') →
      ∃ ss' Ls', TrInv rt env X f plus c₀ u₀ ss' Ls' c' o' ∧ Ls'.flatten = Ls.flatten ++ [t] := by
  induction n with
  | zero => intro _ _ _ _ _ _ _ _ h; exact nomatch h
  | succ n ih =>
    intro ss Ls c o t o' c' hinv h
    -- a call that pulls the upstream starts the segment of the stack it gets
    have hpull : ∀ {ss Ls c u so x seen}, Steps rt env c₀ u₀ ss c u →
        List.Forall₂ (SoundClosure rt f plus) ss Ls → Reach rt env X x →
        next rt env (n + 1) c (.trClosure u so x plus true [] seen) = pure (some t, o', c') →
        ∃ ss' Ls', TrInv rt env X f plus c₀ u₀ ss' Ls' c' o' ∧ Ls'.flatten = Ls.flatten ++ [t] := by
      intro ss Ls c u so x seen hs hL hx h
      rw [next] at h
      obtain ⟨⟨_ | s, u₁, c₁⟩, h₁, h⟩ := Res.bind_eq_pure h
      · cases Res.pure_inj h
      cases plus with
      | true =>
        obtain ⟨⟨so₁, x₁⟩, h₂, h⟩ := Res.bind_eq_pure h
        obtain ⟨ss', Ls', hinv, hfl⟩ := ih (.work (hs.snoc h₁) hL (trSeg_plus hX hx ⟨n, h₂⟩)) h
        exact ⟨ss', Ls', hinv, by simpa using hfl⟩
      | false =>
        cases Res.pure_inj h
        exact ⟨_, _, .work (hs.snoc h₁) hL (trSeg_star hx), by simp⟩
    cases hinv with
    | wait hs hL hx => exact hpull hs hL hx h
    | @work ss Ls s out c u so x d stks seen hs hL hseg =>
      cases d with
      | false =>
        rw [next] at h
        obtain ⟨⟨_ | p, so₁, x₁⟩, h₁, h⟩ := Res.bind_eq_pure h
        · exact ih (.work hs hL (hseg.drained ⟨n, h₁⟩)) h
        obtain ⟨hp, hseg⟩ := hseg.answer ⟨n, h₁⟩
        dsimp only at h
        split at h
        · exact ih (.work hs hL hseg) h
        · rename_i hnew
          cases Res.pure_inj h
          exact ⟨_, _, .work hs hL (hseg.yield hp (Bool.eq_false_iff.2 hnew)), by simp⟩
      | true =>
        cases stks with
        | nil => exact hpull hs (List.rel_append hL (.cons hseg.soundClosure .nil)) hseg.reach h
        | cons p stks =>
          rw [next] at h
          obtain ⟨⟨so₁, x₁⟩, h₁, h⟩ := Res.bind_eq_pure h
          exact ih (.work hs hL (hseg.pop hX ⟨n, h₁⟩)) h

end Prefix

end Dwgrep
