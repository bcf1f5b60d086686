import Dwgrep.Graph.Refine

/-!
# The branching operators refine their list semantics

`IfElse` and `Or` choose, for each upstream stack, which sub-expression's results to
pass on. Both stop driving a sub-expression early: `IfElse` takes only the first result
of its condition, and `Or` leaves the branches before the chosen one at their null and
resets every branch only once the chosen one is drained.

* `segmentLaw_ifelse`, `ifelse_refines`: the then branch's results if the condition has
  any, else the else branch's;
* `segmentLaw_or`, `or_refines`: the results of the first branch that has any. The loop
  of `op_or::next` over the branches (`tryBranches`) is followed by induction on the
  branches still to try (`or_try`).
-/

namespace Dwgrep

variable {rt : Runtime} {env : Env}

/-! ## IfElse -/

/-- `IfElse` with the branch `br` that `sel` designates and the `other` one put back in
their places. -/
def ifelseOn (u : Op) (cond : Origin × Op) (sel : Bool) (br other : Origin × Op)
    (st : Option Bool) : Op :=
  if sel then .ifelse u cond br other st else .ifelse u cond other br st

section IfElse

variable {n : Nat} {c c₁ : Ctx} {u u₁ : Op} {cond cond₁ cond₂ thn els br br₁ other : Origin × Op}
  {s t : Stack}

theorem next_ifelse_null (hu : next rt env n c u = pure (none, u₁, c₁)) :
    next rt env (n + 1) c (.ifelse u cond thn els none) =
      pure (none, .ifelse u₁ cond thn els none, c₁) := by
  rw [next]; simp only [hu, pure_bind]

/-- Pulling `s` with a condition that has a result selects the then branch. -/
theorem next_ifelse_then (hu : next rt env n c u = pure (some s, u₁, c₁))
    (hc : prime (reset rt env n (.origin cond.1) cond.2) s = pure cond₁)
    (hr : subRun (next rt env n (.origin cond₁.1) cond₁.2) = pure (some t, cond₂))
    (hb : prime (reset rt env n (.origin thn.1) thn.2) s = pure br) :
    next rt env (n + 1) c (.ifelse u cond thn els none) =
      next rt env n c₁ (ifelseOn u₁ cond₂ true br els (some true)) := by
  rw [next]; simp only [hu, hc, hr, hb, pure_bind, Option.isSome_some, if_true, ifelseOn]

/-- Pulling `s` with a condition that has none selects the else branch. -/
theorem next_ifelse_else (hu : next rt env n c u = pure (some s, u₁, c₁))
    (hc : prime (reset rt env n (.origin cond.1) cond.2) s = pure cond₁)
    (hr : subRun (next rt env n (.origin cond₁.1) cond₁.2) = pure (none, cond₂))
    (hb : prime (reset rt env n (.origin els.1) els.2) s = pure br) :
    next rt env (n + 1) c (.ifelse u cond thn els none) =
      next rt env n c₁ (ifelseOn u₁ cond₂ false br thn (some false)) := by
  rw [next]; simp only [hu, hc, hr, hb, pure_bind, Option.isSome_none, ifelseOn, Bool.false_eq_true,
    if_false]

theorem next_ifelse_some (sel : Bool)
    (hx : subRun (next rt env n (.origin br.1) br.2) = pure (some t, br₁)) :
    next rt env (n + 1) c (ifelseOn u cond sel br other (some sel)) =
      pure (some t, ifelseOn u cond sel br₁ other (some sel), c) := by
  cases sel <;> simp only [ifelseOn, Bool.false_eq_true, if_true, if_false] <;> rw [next] <;>
    simp only [hx, pure_bind, Bool.false_eq_true, if_true, if_false]

theorem next_ifelse_end (sel : Bool)
    (hx : subRun (next rt env n (.origin br.1) br.2) = pure (none, br₁)) :
    next rt env (n + 1) c (ifelseOn u cond sel br other (some sel)) =
      next rt env n c (ifelseOn u cond sel br₁ other none) := by
  cases sel <;> simp only [ifelseOn, Bool.false_eq_true, if_true, if_false] <;> rw [next] <;>
    simp only [hx, pure_bind, Bool.false_eq_true, if_true, if_false]

/-- The stacks `IfElse` yields while the selected branch runs. -/
theorem ifelse_segment {R : Op → List Stack → Prop} (hR : Resumes rt env R R c c) (sel : Bool)
    {so'' : Origin} {x'' : Op} {l : List Stack} (hl : R (ifelseOn u cond sel (so'', x'') other none) l) :
    ∀ {so x ts}, SubRun rt env so x ts so'' x'' →
      R (ifelseOn u cond sel (so, x) other (some sel)) (ts ++ l) := by
  intro so x ts h
  induction h with
  | last ha =>
    obtain ⟨N, hN⟩ := ha.ev
    exact hR.of_step (fun n hn => next_ifelse_end sel (hN n hn)) hl
  | cons ha _ ih =>
    obtain ⟨N, hN⟩ := ha.ev
    exact hR.cons ⟨N + 1, next_ifelse_some sel (hN N (Nat.le_refl _))⟩ (ih hl)

end IfElse

/-- `IfElse c t e` turns each upstream stack into the results of `t` if `c` has a result on
it, else those of `e`, from every state its sub-expressions reach. -/
theorem segmentLaw_ifelse {Xc Xt Xe : Op} {dc dt de : Stack → List Stack}
    (hc : ResetLaw rt env Xc dc) (ht : ResetLaw rt env Xt dt) (he : ResetLaw rt env Xe de) :
    SegmentLaw rt env (fun u (b : (Origin × Op) × (Origin × Op) × (Origin × Op)) =>
        .ifelse u b.1 b.2.1 b.2.2 none)
      (fun b => Reach rt env Xc b.1.2 ∧ Reach rt env Xt b.2.1.2 ∧ Reach rt env Xe b.2.2.2)
      (fun _ => True) (Den.ifelse dc dt de) := by
  refine ⟨fun {_ _ b _ _} hb ⟨n, h⟩ => ⟨b, hb, n + 1, next_ifelse_null h⟩, ?_⟩
  rintro c u ⟨cond, thn, els⟩ s u₁ c₁ ⟨hxc, hxt, hxe⟩ - hs
  obtain ⟨cs, cx, cs'', cx'', hcp, hcr, -⟩ := hc.run hxc cond.1 s
  obtain ⟨N, hN⟩ := hs.ev
  obtain ⟨M, hM⟩ := hcp.ev
  unfold Den.ifelse
  generalize hd : dc s = L at hcr
  cases hcr with
  | last hca =>
    obtain ⟨es, ex, es'', ex'', hep, her, hxe''⟩ := he.run hxe els.1 s
    refine ⟨(⟨cs'', cx''⟩, thn, (es'', ex'')), ⟨(hxc.prime hcp).next hca, hxt, hxe''⟩,
      fun _ _ hR hR₁ l hl => ?_⟩
    rw [if_neg (not_not.2 rfl)]
    obtain ⟨K, hK⟩ := hca.ev
    obtain ⟨L, hL⟩ := hep.ev
    exact hR.of_step (N := N + M + K + L) (fun n hn =>
      next_ifelse_else (hN n (by omega)) (hM n (by omega)) (hK n (by omega)) (hL n (by omega)))
      (ifelse_segment hR₁ false hl her)
  | @cons _ _ _ so₁ x₁ _ _ _ hca _ =>
    obtain ⟨ts, tx, ts'', tx'', htp, htr, hxt''⟩ := ht.run hxt thn.1 s
    refine ⟨((so₁, x₁), (ts'', tx''), els), ⟨(hxc.prime hcp).next hca, hxt'', hxe⟩,
      fun _ _ hR hR₁ l hl => ?_⟩
    rw [if_pos (List.cons_ne_nil _ _)]
    obtain ⟨K, hK⟩ := hca.ev
    obtain ⟨L, hL⟩ := htp.ev
    exact hR.of_step (N := N + M + K + L) (fun n hn =>
      next_ifelse_then (hN n (by omega)) (hM n (by omega)) (hK n (by omega)) (hL n (by omega)))
      (ifelse_segment hR₁ true hl htr)

/-- **`IfElse c t e`** yields, for each upstream stack, the results of `t` if `c` has a
result on it, else those of `e`. The condition is dropped after its first result. -/
theorem ifelse_refines {Xc Xt Xe : Op} {dc dt de : Stack → List Stack}
    (hc : ResetLaw rt env Xc dc) (ht : ResetLaw rt env Xt dt) (he : ResetLaw rt env Xe de)
    (oc ot oe : Origin) {c : Ctx} {u : Op} {ss : List Stack} (hu : Yields rt env c u ss) :
    Yields rt env c (.ifelse u (oc, Xc) (ot, Xt) (oe, Xe) none)
      (ss.flatMap (Den.ifelse dc dt de)) :=
  (segmentLaw_ifelse hc ht he).yields hu (fun _ _ => trivial) ((oc, Xc), (ot, Xt), (oe, Xe))
    ⟨.base, .base, .base⟩

/-! ## Or -/

/-- The branches `bs` are states of sub-expressions that obey the reset law with the
denotations `dens`, in order. -/
def Obeys (rt : Runtime) (env : Env) (dens : List (Stack → List Stack)) (bs : List (Origin × Op)) :
    Prop :=
  List.Forall₂ (fun b d => ∃ X, ResetLaw rt env X d ∧ Reach rt env X b.2) bs dens

section Or

variable {n : Nat} {c c₁ : Ctx} {u u₁ : Op} {s t : Stack} {tried rest bs bs' : List (Origin × Op)}
  {o o' : Origin} {x x' : Op} {b : Origin × Op}

theorem next_or_null (hu : next rt env n c u = pure (none, u₁, c₁)) :
    next rt env (n + 1) c (.or u bs none) = pure (none, .or u₁ bs none, c₁) := by
  rw [next]; simp only [hu, pure_bind]

theorem next_or_pull (hu : next rt env n c u = pure (some s, u₁, c₁)) :
    next rt env (n + 1) c (.or u bs none) = tryBranches rt env n c₁ u₁ s [] bs := by
  rw [next]; simp only [hu, pure_bind]

theorem tryBranches_nil : tryBranches rt env (n + 1) c u s tried [] = next rt env n c (.or u tried none) := by
  rw [tryBranches]

theorem tryBranches_none (hp : prime (reset rt env n (.origin o) x) s = pure (o', x'))
    (hr : subRun (next rt env n (.origin o') x') = pure (none, b)) :
    tryBranches rt env (n + 1) c u s tried ((o, x) :: rest) =
      tryBranches rt env n c u s (tried ++ [b]) rest := by
  rw [tryBranches]; simp only [hp, hr, pure_bind]

theorem tryBranches_some (hp : prime (reset rt env n (.origin o) x) s = pure (o', x'))
    (hr : subRun (next rt env n (.origin o') x') = pure (some t, b)) :
    tryBranches rt env (n + 1) c u s tried ((o, x) :: rest) =
      pure (some t, .or u (tried ++ b :: rest) (some tried.length), c) := by
  rw [tryBranches]; simp only [hp, hr, pure_bind]

theorem next_or_some {k : Nat} (hk : bs[k]? = some (o, x))
    (hr : subRun (next rt env n (.origin o) x) = pure (some t, b)) :
    next rt env (n + 1) c (.or u bs (some k)) = pure (some t, .or u (bs.set k b) (some k), c) := by
  rw [next]; simp only [hk, hr, pure_bind]

theorem next_or_end {k : Nat} (hk : bs[k]? = some (o, x))
    (hr : subRun (next rt env n (.origin o) x) = pure (none, b))
    (ha : resetAll rt env n (bs.set k b) = pure bs') :
    next rt env (n + 1) c (.or u bs (some k)) = next rt env n c (.or u bs' none) := by
  rw [next]; simp only [hk, hr, ha, pure_bind]

/-- A reset of a state of a sub-expression that obeys the reset law returns. -/
theorem subReset_of_law {X : Op} {d : Stack → List Stack} (hX : ResetLaw rt env X d)
    (hx : Reach rt env X x) (o : Origin) :
    ∃ b, Reach rt env X b.2 ∧ ∃ N, ∀ n, N ≤ n → subReset (reset rt env n (.origin o) x) = pure b := by
  obtain ⟨o', x', -, -, ⟨N, hN⟩, -⟩ := hX.run hx o Stack.empty
  obtain ⟨b, hb, -⟩ := Res.bind_eq_pure hN
  exact ⟨b, hx.reset hb, N, fun _ hn => (subReset_le (reset_mono hn _ x)).eq_pure hb⟩

/-- `op_or::reset_me` returns on branches that obey the reset law, and leaves them
obeying it. -/
theorem resetAll_of_obeys {dens : List (Stack → List Stack)} (h : Obeys rt env dens bs) :
    ∃ bs', Obeys rt env dens bs' ∧ ∃ N, ∀ n, N ≤ n → resetAll rt env n bs = pure bs' := by
  induction h with
  | nil => exact ⟨[], .nil, 1, fun n hn => by
      obtain ⟨k, rfl⟩ : ∃ k, n = k + 1 := ⟨n - 1, by omega⟩
      rfl⟩
  | @cons b d bs dens hb _ ih =>
    obtain ⟨X, hX, hx⟩ := hb
    obtain ⟨b', hb', N, hN⟩ := subReset_of_law hX hx b.1
    obtain ⟨bs', hbs', M, hM⟩ := ih
    refine ⟨b' :: bs', .cons ⟨X, hX, hb'⟩ hbs', N + M + 1, fun n hn => ?_⟩
    obtain ⟨k, rfl⟩ : ∃ k, n = k + 1 := ⟨n - 1, by omega⟩
    rw [resetAll]; simp only [hN k (by omega), hM k (by omega), pure_bind]

theorem getElem?_append_cons_length {α : Type} (pre post : List α) (b : α) :
    (pre ++ b :: post)[pre.length]? = some b := by
  rw [List.getElem?_append_right (Nat.le_refl _), Nat.sub_self, List.getElem?_cons_zero]

/-- The stacks `Or` yields while the chosen branch, at `pre.length`, runs. -/
theorem or_segment {R : Op → List Stack → Prop} (hR : Resumes rt env R R c c)
    {pre post : List (Origin × Op)} {so'' : Origin} {x'' : Op} {bs'' : List (Origin × Op)}
    {l : List Stack} (hres : ∃ N, ∀ n, N ≤ n → resetAll rt env n (pre ++ (so'', x'') :: post) = pure bs'')
    (hl : R (.or u bs'' none) l) :
    ∀ {so x ts}, SubRun rt env so x ts so'' x'' →
      R (.or u (pre ++ (so, x) :: post) (some pre.length)) (ts ++ l) := by
  obtain ⟨M, hM⟩ := hres
  intro so x ts h
  induction h with
  | last ha =>
    obtain ⟨N, hN⟩ := ha.ev
    exact hR.of_step (N := N + M) (fun n hn => next_or_end (getElem?_append_cons_length _ _ _)
      (hN n (by omega)) (by simpa using hM n (by omega))) hl
  | cons ha _ ih =>
    obtain ⟨N, hN⟩ := ha.ev
    exact hR.cons ⟨N + 1, by
      rw [next_or_some (getElem?_append_cons_length _ _ _) (hN N (Nat.le_refl _)),
        List.set_append_right _ _ (Nat.le_refl _), Nat.sub_self]; rfl⟩ (ih hM)

/-- **The loop over the branches.** From the branches `tried`, which all had nothing on
`s`, and the branches `rest` still to try, the call of `tryBranches` answers as a state of
`Or` that yields the results of the first of `rest` that has any, and `Or` then waits in a
state whose branches still obey the reset law. -/
theorem or_try (s : Stack) :
    ∀ {rest : List (Origin × Op)} {drest : List (Stack → List Stack)}
      {tried : List (Origin × Op)} {dtried : List (Stack → List Stack)},
    Obeys rt env dtried tried → Obeys rt env drest rest → (∀ d ∈ dtried, d s = []) →
      ∃ bs'', Obeys rt env (dtried ++ drest) bs'' ∧ ∀ R : Op → List Stack → Prop,
        Resumes rt env R R c c → ∀ l, R (.or u bs'' none) l →
          ∃ o, R o (Den.or drest s ++ l) ∧
            ∀ a, Answers rt env c o a → ∃ n, tryBranches rt env n c u s tried rest = pure a
  | [], [], tried, dtried, htried, _, _ =>
    ⟨tried, by rwa [List.append_nil], fun _ _ l hl =>
      ⟨_, hl, fun _ ⟨k, hk⟩ => ⟨k + 1, by rw [tryBranches_nil]; exact hk⟩⟩⟩
  | (o, x) :: rest, d :: drest, tried, dtried, htried, hrest, hnil => by
    obtain ⟨⟨X, hX, hx⟩, hrest⟩ := List.forall₂_cons.1 hrest
    obtain ⟨o', x', o'', x'', hp, hr, hx''⟩ := hX.run hx o s
    obtain ⟨N, hN⟩ := hp.ev
    unfold Den.or
    generalize hds : d s = L at hr
    cases hr with
    | last ha =>
      obtain ⟨bs'', hbs, hl⟩ := or_try s (List.rel_append htried
        (show Obeys rt env [d] [(o'', x'')] from .cons ⟨X, hX, hx''⟩ .nil)) hrest
        (fun d' hd' => by
          rcases List.mem_append.1 hd' with hd' | hd'
          · exact hnil d' hd'
          · rw [List.mem_singleton.1 hd']; exact hds)
      refine ⟨bs'', by rwa [List.append_assoc] at hbs, fun R hR l hl' => ?_⟩
      obtain ⟨o₁, hy, htr⟩ := hl R hR l hl'
      obtain ⟨K, hK⟩ := ha.ev
      simp only [List.map_cons, List.find?_cons, hds, ne_eq, not_true_eq_false,
        decide_False]
      refine ⟨o₁, hy, fun a ha' => ?_⟩
      obtain ⟨k, hk⟩ := htr a ha'
      refine ⟨N + K + k + 1, ?_⟩
      rw [tryBranches_none (hN _ (by omega)) (hK _ (by omega))]
      exact (tryBranches_mono (by omega) _ _ _ _ _).eq_pure hk
    | @cons _ _ t _ _ ts _ _ ha hts =>
      obtain ⟨bs'', hbs, hres⟩ := resetAll_of_obeys (List.rel_append htried
        (show Obeys rt env (d :: drest) ((o'', x'') :: rest) from .cons ⟨X, hX, hx''⟩ hrest))
      refine ⟨bs'', hbs, fun R hR l hl => ?_⟩
      obtain ⟨K, hK⟩ := ha.ev
      simp only [List.map_cons, List.find?_cons, hds, ne_eq, List.cons_ne_nil,
        not_false_eq_true, decide_True, Option.getD_some]
      refine ⟨.or u (tried ++ (o', x') :: rest) (some tried.length),
        or_segment hR hres hl (.cons ha hts), fun a ⟨m, hm⟩ => ?_⟩
      have hfirst := next_or_some (c := c) (u := u) (getElem?_append_cons_length tried rest _)
        (hK K (Nat.le_refl _))
      rw [next_det hm hfirst, List.set_append_right _ _ (Nat.le_refl _), Nat.sub_self]
      exact ⟨N + K + 1, tryBranches_some (hN _ (by omega)) (hK _ (by omega))⟩

/-- `Or b₁ … bₖ` turns each upstream stack into the results of the first branch that has
any, from every state its branches reach. -/
theorem segmentLaw_or {dens : List (Stack → List Stack)} :
    SegmentLaw rt env (fun u bs => .or u bs none) (Obeys rt env dens) (fun _ => True) (Den.or dens) := by
  refine ⟨fun {_ _ bs _ _} hbs ⟨n, h⟩ => ⟨bs, hbs, n + 1, next_or_null h⟩, ?_⟩
  rintro c u bs s u₁ c₁ hbs - hs
  obtain ⟨bs'', hbs'', hl⟩ := or_try (c := c₁) (u := u₁) s .nil hbs nofun
  refine ⟨bs'', hbs'', fun R₀ R₁ hR hR₁ l hl' => ?_⟩
  obtain ⟨o, hy, htr⟩ := hl R₁ hR₁ l hl'
  obtain ⟨N, hN⟩ := hs.ev
  refine hR.of_answers (fun a ha => ?_) hy
  obtain ⟨k, hk⟩ := htr a ha
  exact ⟨N + k + 1, by
    rw [next_or_pull (hN _ (by omega))]; exact (tryBranches_mono (by omega) _ _ _ _ _).eq_pure hk⟩

/-- **`Or b₁ … bₖ`** yields, for each upstream stack, the results of the first branch
that has any, and nothing if none has. -/
theorem or_refines {bs : List (Origin × Op)} {dens : List (Stack → List Stack)}
    (hlaw : List.Forall₂ (fun b d => ResetLaw rt env b.2 d) bs dens) {ss : List Stack}
    (hu : Yields rt env c u ss) : Yields rt env c (.or u bs none) (ss.flatMap (Den.or dens)) :=
  segmentLaw_or.yields hu (fun _ _ => trivial) bs (hlaw.imp fun b _ h => ⟨b.2, h, .base⟩)

end Or

end Dwgrep
