import Dwgrep.Graph.Next

/-!
# Fuel

More fuel never changes an answer: a call that returns with fuel `n` returns the same
with any fuel `m ≥ n` (`next_mono` and its companions). The proof is one induction on
the fuel over the whole block, and each case only compares a body with the same body
one fuel higher, through `Res.bind_le`.
-/

namespace Dwgrep

section Helpers

variable {α : Type} {a b : Res (α × Op × Ctx)} {r r' : Res (Op × Ctx)}

theorem subRun_le (h : a.Le b) : (subRun a).Le (subRun b) :=
  Res.bind_le h fun _ => Res.Le.refl _

theorem subReset_le (h : r.Le r') : (subReset r).Le (subReset r') :=
  Res.bind_le h fun _ => Res.Le.refl _

theorem prime_le (h : r.Le r') (s : Stack) : (prime r s).Le (prime r' s) :=
  Res.bind_le (subReset_le h) fun _ => Res.Le.refl _

end Helpers

variable (rt : Runtime) (env : Env)

/-- Every function of the interpreter gives, with fuel `n + 1`, every answer it gives with
fuel `n`. -/
def FuelStep (n : Nat) : Prop :=
  (∀ c o, (next rt env n c o).Le (next rt env (n + 1) c o)) ∧
  (∀ c, (pull rt env n c).Le (pull rt env (n + 1) c)) ∧
  (∀ c o, (reset rt env n c o).Le (reset rt env (n + 1) c o)) ∧
  (∀ c, (resetCtx rt env n c).Le (resetCtx rt env (n + 1) c)) ∧
  (∀ c u file k xs, (resetBranches rt env n c u file k xs).Le
    (resetBranches rt env (n + 1) c u file k xs)) ∧
  (∀ bs, (resetAll rt env n bs).Le (resetAll rt env (n + 1) bs)) ∧
  (∀ c u s tried bs, (tryBranches rt env n c u s tried bs).Le
    (tryBranches rt env (n + 1) c u s tried bs)) ∧
  (∀ so x, (collect rt env n so x).Le (collect rt env (n + 1) so x)) ∧
  (∀ p s, (result rt env n p s).Le (result rt env (n + 1) p s)) ∧
  (∀ s so x y q, (compareOuter rt env n s so x y q).Le (compareOuter rt env (n + 1) s so x y q)) ∧
  (∀ s so x y q t, (compareInner rt env n s so x y q t).Le
    (compareInner rt env (n + 1) s so x y q t)) ∧
  (∀ p, (resetPred rt env n p).Le (resetPred rt env (n + 1) p)) ∧
  (∀ so st, (snext rt env n so st).Le (snext rt env (n + 1) so st)) ∧
  (∀ so st, (sreset rt env n so st).Le (sreset rt env (n + 1) so st))

theorem fuelStep : ∀ n, FuelStep rt env n := by
  intro n
  induction n with
  | zero =>
    refine ⟨?_, ?_, ?_, ?_, ?_, ?_, ?_, ?_, ?_, ?_, ?_, ?_, ?_, ?_⟩ <;>
      intros <;> exact Res.stop_le _
  | succ n ih =>
    obtain ⟨hnext, hpull, hreset, hctx, hbr, hall, htry, hcol, hres, hout, hin, hpred, hsn,
      hsr⟩ := ih
    refine ⟨fun c o => ?_, fun c => ?_, fun c o => ?_, fun c => ?_, fun c u file k xs => ?_,
      fun bs => ?_, fun c u s tried bs => ?_, fun so x => ?_, fun p s => ?_,
      fun s so x y q => ?_, fun s so x y q t => ?_, fun p => ?_, fun so st => ?_,
      fun so st => ?_⟩
    case' refine_1 =>
      cases o
      case' or u bs it => cases it
      case' trClosure u so x plus d stks seen => cases d <;> cases stks
      case' subx u so x keep stk => cases stk
      case' scope u so x nv p => cases p
      case' apply u skip op => cases op
      case' ifelse u cond thn els sel => cases sel
      case' elem u fwd cur => rcases cur with _ | ⟨s, p⟩
      all_goals rw [next, next]
    case' refine_2 => cases c <;> rw [pull, pull]
    case' refine_3 => cases o <;> rw [reset, reset]
    case' refine_4 => cases c <;> rw [resetCtx, resetCtx]
    case' refine_5 => cases xs <;> rw [resetBranches, resetBranches]
    case' refine_6 => cases bs <;> rw [resetAll, resetAll]
    case' refine_7 => cases bs <;> rw [tryBranches, tryBranches]
    case' refine_8 => rw [collect, collect]
    case' refine_9 => cases p <;> rw [result, result]
    case' refine_10 => rw [compareOuter, compareOuter]
    case' refine_11 => rw [compareInner, compareInner]
    case' refine_12 => cases p <;> rw [resetPred, resetPred]
    case' refine_13 =>
      cases st
      case' op up xo x h str => cases h
      all_goals rw [snext, snext]
    case' refine_14 => cases st <;> rw [sreset, sreset]
    all_goals
      try dsimp only
      repeat' first
        | with_reducible exact Res.Le.refl _
        | with_reducible exact hnext _ _
        | with_reducible exact hpull _
        | with_reducible exact hreset _ _
        | with_reducible exact hctx _
        | with_reducible exact hbr _ _ _ _ _
        | with_reducible exact hall _
        | with_reducible exact htry _ _ _ _ _
        | with_reducible exact hcol _ _
        | with_reducible exact hres _ _
        | with_reducible exact hout _ _ _ _ _
        | with_reducible exact hin _ _ _ _ _ _
        | with_reducible exact hpred _
        | with_reducible exact hsn _ _
        | with_reducible exact hsr _ _
        | refine Res.bind_le ?_ fun _ => ?_
        | apply subRun_le
        | apply subReset_le
        | apply prime_le
        | split

/-! ## Monotonicity and determinism -/

section Mono

variable {rt env}

/-- **Fuel monotonicity** of `next`. -/
theorem next_mono {n m : Nat} (hnm : n ≤ m) (c : Ctx) (o : Op) :
    (next rt env n c o).Le (next rt env m c o) :=
  Res.le_of_step (fun k => (fuelStep rt env k).1 c o) hnm

theorem reset_mono {n m : Nat} (hnm : n ≤ m) (c : Ctx) (o : Op) :
    (reset rt env n c o).Le (reset rt env m c o) :=
  Res.le_of_step (fun k => (fuelStep rt env k).2.2.1 c o) hnm

theorem result_mono {n m : Nat} (hnm : n ≤ m) (p : Pred) (s : Stack) :
    (result rt env n p s).Le (result rt env m p s) :=
  Res.le_of_step (fun k => (fuelStep rt env k).2.2.2.2.2.2.2.2.1 p s) hnm

theorem tryBranches_mono {n m : Nat} (hnm : n ≤ m) (c : Ctx) (u : Op) (s : Stack)
    (tried bs : List (Origin × Op)) :
    (tryBranches rt env n c u s tried bs).Le (tryBranches rt env m c u s tried bs) :=
  Res.le_of_step (fun k => (fuelStep rt env k).2.2.2.2.2.2.1 c u s tried bs) hnm

theorem compareOuter_mono {n m : Nat} (hnm : n ≤ m) (s : Stack) (so : Origin) (x y : Op) (q : Pred) :
    (compareOuter rt env n s so x y q).Le (compareOuter rt env m s so x y q) :=
  Res.le_of_step (fun k => (fuelStep rt env k).2.2.2.2.2.2.2.2.2.1 s so x y q) hnm

theorem compareInner_mono {n m : Nat} (hnm : n ≤ m) (s : Stack) (so : Origin) (x y : Op) (q : Pred)
    (t : Stack) :
    (compareInner rt env n s so x y q t).Le (compareInner rt env m s so x y q t) :=
  Res.le_of_step (fun k => (fuelStep rt env k).2.2.2.2.2.2.2.2.2.2.1 s so x y q t) hnm

theorem snext_mono {n m : Nat} (hnm : n ≤ m) (so : Origin) (st : Stringer) :
    (snext rt env n so st).Le (snext rt env m so st) :=
  Res.le_of_step (fun k => (fuelStep rt env k).2.2.2.2.2.2.2.2.2.2.2.2.1 so st) hnm

theorem sreset_mono {n m : Nat} (hnm : n ≤ m) (so : Origin) (st : Stringer) :
    (sreset rt env n so st).Le (sreset rt env m so st) :=
  Res.le_of_step (fun k => (fuelStep rt env k).2.2.2.2.2.2.2.2.2.2.2.2.2 so st) hnm

/-- Two calls that both answer give the same answer, whatever their fuel. -/
theorem next_det {n m : Nat} {c : Ctx} {o : Op} {a b : Option Stack × Op × Ctx}
    (ha : next rt env n c o = pure a) (hb : next rt env m c o = pure b) : a = b := by
  have h₁ := (next_mono (Nat.le_max_left n m) c o).eq_pure ha
  rw [(next_mono (Nat.le_max_right n m) c o).eq_pure hb] at h₁
  exact (Res.pure_inj h₁).symm

end Mono

/-! ## Runs -/

/-- `Steps c o l c' o'`: from context `c`, successive `next` calls on `o` return the
stacks `l`, leaving the operator in state `o'` over context `c'`. Each call may take its
own fuel. -/
inductive Steps : Ctx → Op → List Stack → Ctx → Op → Prop
  | nil (c : Ctx) (o : Op) : Steps c o [] c o
  | cons {c o s c₁ o₁ l c' o'} (n : Nat) :
      next rt env n c o = pure (some s, o₁, c₁) → Steps c₁ o₁ l c' o' → Steps c o (s :: l) c' o'

/-- From context `c`, `o` yields exactly the stacks `l` and then null. -/
def Yields (c : Ctx) (o : Op) (l : List Stack) : Prop :=
  ∃ c' o', Steps rt env c o l c' o' ∧ ∃ n r, next rt env n c' o' = pure (none, r)

/-- `k` successive `next` calls with fuel `n` each, collecting the stacks up to the
first null. -/
def drain (n : Nat) : Nat → Ctx → Op → Res (List Stack)
  | 0, _, _ => Res.stop
  | k + 1, c, o => do
    let (r, o, c) ← next rt env n c o
    match r with
    | none => pure []
    | some s => do
      let l ← drain n k c o
      pure (s :: l)

variable {rt env}

theorem yields_of_drain {n k : Nat} {c : Ctx} {o : Op} {l : List Stack}
    (h : drain rt env n k c o = pure l) : Yields rt env c o l := by
  induction k generalizing c o l with
  | zero => exact nomatch h
  | succ k ih =>
    rw [drain] at h
    obtain ⟨⟨r, o₁, c₁⟩, hn, h⟩ := Res.bind_eq_pure h
    cases r with
    | none =>
      rw [← Res.pure_inj h]
      exact ⟨c, o, .nil c o, n, _, hn⟩
    | some s =>
      obtain ⟨l', hd, h⟩ := Res.bind_eq_pure h
      obtain ⟨c', o', hs, hend⟩ := ih hd
      rw [← Res.pure_inj h]
      exact ⟨c', o', .cons n hn hs, hend⟩

/-- A stack of one constant, the input of runs on fixed inputs. -/
def demoStack : Stack := ⟨[.cst ⟨1, 0⟩ 0], 0, none⟩

/-- A call that yields a stack and one that returns null cannot both happen. -/
theorem next_some_ne_none {n m : Nat} {c : Ctx} {o : Op} {s : Stack} {a b : Op × Ctx}
    (ha : next rt env n c o = pure (some s, a)) (hb : next rt env m c o = pure (none, b)) :
    False :=
  nomatch congrArg Prod.fst (next_det ha hb)

/-- A run yields one list only. -/
theorem Yields.det {c : Ctx} {o : Op} {l l' : List Stack} (h : Yields rt env c o l)
    (h' : Yields rt env c o l') : l = l' := by
  obtain ⟨c₁, o₁, hs, n, r, hn⟩ := h
  obtain ⟨c₂, o₂, hs', m, r', hm⟩ := h'
  induction hs generalizing l' with
  | nil =>
    cases hs' with
    | nil => rfl
    | cons k hk _ => exact (next_some_ne_none hk hn).elim
  | cons k hk _ ih =>
    cases hs' with
    | nil => exact (next_some_ne_none hk hm).elim
    | cons j hj hs' =>
      have e := next_det hk hj
      simp only [Prod.mk.injEq, Option.some.injEq] at e
      obtain ⟨rfl, rfl, rfl⟩ := e
      rw [ih hn hs']

/-- A run extended by one more call that yields a stack. -/
theorem Steps.snoc {c c₁ c₂ : Ctx} {o o₁ o₂ : Op} {l : List Stack} {s : Stack} {n : Nat}
    (h : Steps rt env c o l c₁ o₁) (hn : next rt env n c₁ o₁ = pure (some s, o₂, c₂)) :
    Steps rt env c o (l ++ [s]) c₂ o₂ := by
  induction h with
  | nil => exact .cons n hn (.nil _ _)
  | cons m hm _ ih => exact .cons m hm (ih hn)

end Dwgrep
