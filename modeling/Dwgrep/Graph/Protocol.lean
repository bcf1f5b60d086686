import Dwgrep.Graph.Fuel

/-!
# The origin protocol

`op_origin::set_next` and `stringer_origin::set_next` assert that the origin is empty
and has been reset since it was last primed. Every operator that re-drives a
sub-expression calls `reset ()` on it right before `set_next`, and every `reset ()`
reaches the origin at the bottom of the chain it is called on: through `inner_op::reset`,
through each branch of a `Merge` down to its Tine and from there to the shared upstream,
and down the stringer chain of a format. So the assertions never fail
(`origin_protocol`).

The proof states, with `Res.Post`, what a call's answer satisfies when there is one,
and with `Res.Avoids`, that a call never aborts with a given fault; both compose along
`>>=`, so each case of the interpreter is checked by following its body.
-/

namespace Dwgrep

variable (rt : Runtime) (env : Env)

/-! ## Every reset reaches the origin -/

/-- What the resets do to the origin below them, at fuel `n`. -/
def ResetReaches (n : Nat) : Prop :=
  (∀ c o, Res.Post (fun r : Op × Ctx => r.2.base = .cleared) (reset rt env n c o)) ∧
  (∀ c, Res.Post (fun c' : Ctx => c'.base = .cleared) (resetCtx rt env n c)) ∧
  (∀ c u file k xs, c.base = .cleared →
    Res.Post (fun r : List Op × List (Option Stack) × Op × Ctx => r.2.2.2.base = .cleared)
      (resetBranches rt env n c u file k xs)) ∧
  (∀ so st, Res.Post (fun r : Stringer × Origin => r.2 = .cleared) (sreset rt env n so st))

theorem resetReaches : ∀ n, ResetReaches rt env n := by
  intro n
  induction n with
  | zero => exact ⟨fun _ _ => Res.post_stop, fun _ => Res.post_stop,
      fun _ _ _ _ _ _ => Res.post_stop, fun _ _ => Res.post_stop⟩
  | succ n ih =>
    obtain ⟨hreset, hctx, hbr, hsr⟩ := ih
    refine ⟨fun c o => ?_, fun c => ?_, fun c u file k xs hc => ?_, fun so st => ?_⟩
    · cases o <;> rw [reset]
      case' merge =>
        refine Res.post_bind (hreset _ _) fun ⟨_, c'⟩ h => ?_
        cases c' with
        | group _ _ _ _ c' =>
          exact Res.post_bind (hbr _ _ _ _ _ h) fun _ h => Res.post_pure h
        | origin _ => exact Res.post_stop
      all_goals
        repeat' first
          | exact Res.post_bind (hreset _ _) fun _ h => Res.post_pure h
          | exact Res.post_bind (hctx _) fun _ h => Res.post_pure h
          | refine Res.post_bind (Res.post_true _) fun _ _ => ?_
    · cases c <;> rw [resetCtx]
      · exact Res.post_pure rfl
      · exact Res.post_bind (hreset _ _) fun _ h => Res.post_pure h
    · cases xs <;> rw [resetBranches]
      · exact Res.post_pure hc
      · refine Res.post_bind (hreset _ _) fun ⟨_, c'⟩ h => ?_
        cases c' with
        | group _ _ _ _ c' => exact Res.post_bind (hbr _ _ _ _ _ h) fun _ h => Res.post_pure h
        | origin _ => exact Res.post_stop
    · cases st <;> rw [sreset]
      · exact Res.post_pure rfl
      · exact Res.post_bind (hsr _ _) fun _ h => Res.post_pure h
      · exact Res.post_bind (Res.post_true _) fun _ _ =>
          Res.post_bind (hsr _ _) fun _ h => Res.post_pure h

/-- `reset ()` on an operator resets the origin at the bottom of its context. -/
theorem reset_base (n : Nat) (c : Ctx) (o : Op) :
    Res.Post (fun r : Op × Ctx => r.2.base = .cleared) (reset rt env n c o) :=
  (resetReaches rt env n).1 c o

/-! ## No assertion fails -/

section Faults

variable {α : Type}

/-- A step of the source whose only fault is `stack::need`'s. -/
theorem avoids_lift {x : Except Fault α} (h : ∀ e, x = .error e → e = .underflow) :
    Res.Avoids .assertion (Res.lift x) := by
  intro hx
  cases h .assertion (Option.some.inj hx)

theorem pop_error {s : Stack} {e : Fault} (h : s.pop rt = .error e) : e = .underflow := by
  unfold Stack.pop at h
  split at h
  · cases h; rfl
  · cases h

theorem except_bind_eq_error {β : Type} {x : Except Fault α} {f : α → Except Fault β}
    {e : Fault} (h : x >>= f = .error e) : x = .error e ∨ ∃ a, x = .ok a ∧ f a = .error e := by
  cases x with
  | error e' => cases h; exact .inl rfl
  | ok a => exact .inr ⟨a, rfl, h⟩

theorem popN_error {k : Nat} {s : Stack} {e : Fault} (h : Stack.popN rt k s = .error e) :
    e = .underflow := by
  induction k generalizing s with
  | zero => cases h
  | succ k ih =>
    rcases except_bind_eq_error h with h | ⟨⟨_, s⟩, _, h⟩
    · exact pop_error rt h
    · rcases except_bind_eq_error h with h | ⟨_, _, h⟩
      · exact ih h
      · cases h

theorem keepTop_error {keep : Nat} {t m : Stack} {e : Fault}
    (h : Stack.keepTop rt keep t m = .error e) : e = .underflow := by
  rcases except_bind_eq_error h with h | ⟨_, _, h⟩
  · exact popN_error rt h
  · cases h

theorem comparisonResult_error {s : Stack} {want : CmpResult} {e : Fault}
    (h : comparisonResult rt s want = .error e) : e = .underflow := by
  unfold comparisonResult at h
  split at h
  · simp only at h
    split_ifs at h
    split at h <;> cases h
  · cases h; rfl

end Faults

variable {rt env}

/-- Resetting a sub-expression reaches its origin, so priming it cannot fail. -/
theorem avoids_prime {r : Res (Op × Ctx)} (hr : Res.Avoids .assertion r)
    (hp : Res.Post (fun r : Op × Ctx => r.2.base = .cleared) r) (s : Stack) :
    Res.Avoids .assertion (prime r s) := by
  refine Res.avoids_bind (Res.avoids_bind hr fun ⟨_, c⟩ _ => ?_) fun ⟨o, x⟩ h => ?_
  · cases c <;> first | exact Res.avoids_pure _ | exact Res.avoids_stop
  · obtain ⟨⟨x', c⟩, hx, h⟩ := Res.bind_eq_pure h
    cases c with
    | origin o' =>
      have ho : o' = o := congrArg Prod.fst (Res.pure_inj h)
      have hc : o' = .cleared := hp _ hx
      subst ho hc
      exact Res.avoids_bind (fun h => nomatch h) fun _ _ => Res.avoids_pure _
    | group => exact nomatch h

/-- A format's stringer chain is reset right before its origin is primed. -/
theorem avoids_setNext_of_sreset {n : Nat} {so so' : Origin} {st st' : Stringer}
    (h : sreset rt env n so st = pure (st', so')) (s : Stack) :
    Res.Avoids .assertion (Res.lift (so'.setNext s)) := by
  rw [show so' = .cleared from (resetReaches rt env n).2.2.2 so st _ h]
  exact fun h => nomatch h

variable (rt env)

/-- No call of the interpreter at fuel `n` fails an assertion. -/
def NoAssertion (n : Nat) : Prop :=
  (∀ c o, Res.Avoids .assertion (next rt env n c o)) ∧
  (∀ c, Res.Avoids .assertion (pull rt env n c)) ∧
  (∀ c o, Res.Avoids .assertion (reset rt env n c o)) ∧
  (∀ c, Res.Avoids .assertion (resetCtx rt env n c)) ∧
  (∀ c u file k xs, Res.Avoids .assertion (resetBranches rt env n c u file k xs)) ∧
  (∀ bs, Res.Avoids .assertion (resetAll rt env n bs)) ∧
  (∀ c u s tried bs, Res.Avoids .assertion (tryBranches rt env n c u s tried bs)) ∧
  (∀ so x, Res.Avoids .assertion (collect rt env n so x)) ∧
  (∀ p s, Res.Avoids .assertion (result rt env n p s)) ∧
  (∀ s so x y q, Res.Avoids .assertion (compareOuter rt env n s so x y q)) ∧
  (∀ s so x y q t, Res.Avoids .assertion (compareInner rt env n s so x y q t)) ∧
  (∀ p, Res.Avoids .assertion (resetPred rt env n p)) ∧
  (∀ so st, Res.Avoids .assertion (snext rt env n so st)) ∧
  (∀ so st, Res.Avoids .assertion (sreset rt env n so st))

theorem noAssertion : ∀ n, NoAssertion rt env n := by
  intro n
  induction n with
  | zero =>
    refine ⟨?_, ?_, ?_, ?_, ?_, ?_, ?_, ?_, ?_, ?_, ?_, ?_, ?_, ?_⟩ <;>
      intros <;> exact Res.avoids_stop
  | succ n ih =>
    obtain ⟨hnext, hpull, hreset, hctx, hbr, hall, htry, hcol, hres, hout, hin, hpred, hsn,
      hsr⟩ := ih
    refine ⟨fun c o => ?_, fun c => ?_, fun c o => ?_, fun c => ?_, fun c u file k xs => ?_,
      fun bs => ?_, fun c u s tried bs => ?_, fun so x => ?_, fun p s => ?_,
      fun s so x y q => ?_, fun s so x y q t => ?_, fun p => ?_, fun so st => ?_,
      fun so st => ?_⟩
    case' refine_1 =>
      cases o
      case' or u bs it => cases it
      case' trClosure u so x plus d stks seen => cases d <;> cases stks
      case' subx u so x keep stk => cases stk
      case' scope u so x nv p => cases p
      case' apply u skip op => cases op
      case' ifelse u cond thn els sel => cases sel
      case' elem u fwd cur => rcases cur with _ | ⟨s, p⟩
      all_goals rw [next]
    case' refine_2 => cases c <;> rw [pull]
    case' refine_3 => cases o <;> rw [reset]
    case' refine_4 => cases c <;> rw [resetCtx]
    case' refine_5 => cases xs <;> rw [resetBranches]
    case' refine_6 => cases bs <;> rw [resetAll]
    case' refine_7 => cases bs <;> rw [tryBranches]
    case' refine_8 => rw [collect]
    case' refine_9 => cases p <;> rw [result]
    case' refine_10 => rw [compareOuter]
    case' refine_11 => rw [compareInner]
    case' refine_12 => cases p <;> rw [resetPred]
    case' refine_13 =>
      cases st
      case' op up xo x h str => cases h
      all_goals rw [snext]
    case' refine_14 => cases st <;> rw [sreset]
    all_goals
      try dsimp only
      repeat' first
        | with_reducible exact Res.avoids_pure _
        | with_reducible exact Res.avoids_stop
        | with_reducible exact Res.avoids_throw (by decide)
        | with_reducible exact hnext _ _
        | with_reducible exact hpull _
        | with_reducible exact hreset _ _
        | with_reducible exact hctx _
        | with_reducible exact hbr _ _ _ _ _
        | with_reducible exact hall _
        | with_reducible exact htry _ _ _ _ _
        | with_reducible exact hcol _ _
        | with_reducible exact hres _ _
        | with_reducible exact hout _ _ _ _ _
        | with_reducible exact hin _ _ _ _ _ _
        | with_reducible exact hpred _
        | with_reducible exact hsn _ _
        | with_reducible exact hsr _ _
        | with_reducible exact avoids_prime (hreset _ _) (reset_base rt env n _ _) _
        | with_reducible exact avoids_lift fun _ h => pop_error rt h
        | with_reducible exact avoids_lift fun _ h => keepTop_error rt h
        | with_reducible exact avoids_lift fun _ h => comparisonResult_error rt h
        | with_reducible exact avoids_setNext_of_sreset ‹_› _
        | refine Res.avoids_bind ?_ fun _ _ => ?_
        | split

/-- **The origin protocol.** For every operator graph, in every state and context, and
with any fuel: `reset ()` leaves the origin at the bottom of the operator's context empty
and marked reset, and no call of `next ()` or of a predicate's `result ()` fails an
assertion, those of `op_origin::set_next` and `stringer_origin::set_next` included. -/
theorem origin_protocol (n : Nat) :
    (∀ c o o' c', reset rt env n c o = pure (o', c') → c'.base = .cleared) ∧
    (∀ c o, (next rt env n c o).run ≠ some (.error .assertion)) ∧
    (∀ p s, (result rt env n p s).run ≠ some (.error .assertion)) :=
  ⟨fun c o o' c' h => reset_base rt env n c o (o', c') h, (noAssertion rt env n).1,
    (noAssertion rt env n).2.2.2.2.2.2.2.2.1⟩

end Dwgrep
