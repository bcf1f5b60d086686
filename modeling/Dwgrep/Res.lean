import Mathlib.Logic.Basic
import Dwgrep.Stack

/-!
# Computations with fuel

`Res` is the monad the interpreter and the producers run in: a computation either runs
out of fuel (`none`), or gives a value, or aborts with a `Fault`. On top of it:

* `Res.Le a b`: `b` gives every answer `a` gives, the order in which more fuel never
  changes an answer;
* `Res.Post P a`: every answer of `a` satisfies `P`;
* `Res.Avoids e a`: `a` never aborts with the fault `e`.

Each is compatible with `>>=` (`bind_le`, `post_bind`, `avoids_bind`), which is how the
facts about a loop body are put together.
-/

namespace Dwgrep

/-- A computation with fuel: `none` once the fuel runs out, otherwise a value or the
fault that aborts the query. -/
abbrev Res := ExceptT Fault Option

namespace Res

/-- No result: the fuel ran out. -/
def stop {α : Type} : Res α := ExceptT.mk none

/-- A fallible step of the source, as a computation. -/
def lift {α : Type} (e : Except Fault α) : Res α := ExceptT.mk (some e)

variable {α β : Type}

@[simp] theorem lift_ok_bind (a : α) (f : α → Res β) : lift (.ok a) >>= f = f a := rfl

theorem pure_inj {a b : α} (h : (pure a : Res α) = pure b) : a = b := by
  have h' : (some (.ok a) : Option (Except Fault α)) = some (.ok b) := h
  cases h'; rfl

/-- A sequence that answers had its first step answer. -/
theorem bind_eq_pure {x : Res α} {f : α → Res β} {b : β} (h : x >>= f = pure b) :
    ∃ a, x = pure a ∧ f a = pure b := by
  have h' : (x >>= f).run = some (.ok b) := congrArg ExceptT.run h
  rw [ExceptT.run_bind] at h'
  rcases hx : x.run with _ | _ | a
  · rw [hx] at h'; exact nomatch h'
  · rw [hx] at h'; exact nomatch h'
  · rw [hx] at h'; exact ⟨a, hx, h'⟩

/-- A sequence returns if its first step does and so does every continuation of it. -/
theorem returns_bind {x : Res α} {f : α → Res β} (hx : x.run ≠ none)
    (hf : ∀ a, x = pure a → (f a).run ≠ none) : (x >>= f).run ≠ none := by
  rw [ExceptT.run_bind]
  rcases h : x.run with _ | _ | a
  · exact absurd h hx
  · exact nofun
  · exact hf a h

/-! ## More fuel -/

/-- `a ⊑ b`: `b` gives every answer `a` gives; `a` may instead have run out of fuel. -/
def Le (a b : Res α) : Prop := ∀ x, a.run = some x → b.run = some x

theorem Le.refl (a : Res α) : a.Le a := fun _ h => h

theorem Le.trans {a b d : Res α} (h₁ : a.Le b) (h₂ : b.Le d) : a.Le d :=
  fun x h => h₂ x (h₁ x h)

theorem stop_le (b : Res α) : (stop : Res α).Le b := fun _ h => nomatch h

theorem bind_le {a a' : Res α} {f f' : α → Res β} (ha : a.Le a') (hf : ∀ x, (f x).Le (f' x)) :
    (a >>= f).Le (a' >>= f') := by
  intro y hy
  rw [ExceptT.run_bind] at hy ⊢
  cases h : a.run with
  | none => rw [h] at hy; exact nomatch hy
  | some e =>
    rw [ha e h]
    rw [h] at hy
    cases e with
    | ok x => exact hf x y hy
    | error e => exact hy

theorem le_of_step {f : Nat → Res α} (h : ∀ k, (f k).Le (f (k + 1))) {n m : Nat}
    (hnm : n ≤ m) : (f n).Le (f m) := by
  induction m, hnm using Nat.le_induction with
  | base => exact Res.Le.refl _
  | succ m _ ih => exact ih.trans (h m)

/-- A successful answer survives more fuel. -/
theorem Le.eq_pure {a b : Res α} {x : α} (h : a.Le b) (ha : a = pure x) :
    b = pure x :=
  h (.ok x) (by rw [ha]; rfl)

/-! ## Answers and faults -/

/-- Every answer of `a` satisfies `P`. -/
def Post (P : α → Prop) (a : Res α) : Prop := ∀ x, a = pure x → P x

/-- `a` never aborts with the fault `e`. -/
def Avoids (e : Fault) (a : Res α) : Prop := a.run ≠ some (.error e)

variable {P : α → Prop} {Q : β → Prop} {e : Fault} {a : Res α} {f : α → Res β}

theorem post_pure {x : α} (h : P x) : Post P (pure x) := fun _ hx => pure_inj hx ▸ h

theorem post_stop : Post P stop := fun _ h => nomatch h

theorem post_true (a : Res α) : Post (fun _ => True) a := fun _ _ => trivial

theorem post_bind {R : α → Prop} (ha : Post R a) (hf : ∀ x, R x → Post Q (f x)) :
    Post Q (a >>= f) := fun y hy =>
  let ⟨x, hx, hy⟩ := bind_eq_pure hy
  hf x (ha x hx) y hy

theorem avoids_pure (x : α) : Avoids e (pure x) := fun h => nomatch h

theorem avoids_stop : Avoids e (stop : Res α) := fun h => nomatch h

theorem avoids_throw {e' : Fault} (h : e' ≠ e) : Avoids e (throw e' : Res α) :=
  fun h' => h (by cases h'; rfl)

theorem avoids_bind (ha : Avoids e a) (hf : ∀ x, a = pure x → Avoids e (f x)) :
    Avoids e (a >>= f) := by
  intro h
  rw [ExceptT.run_bind] at h
  rcases hx : a.run with _ | _ | x
  · rw [hx] at h; exact nomatch h
  · rw [hx] at h; exact ha (hx.trans (by simpa using h))
  · rw [hx] at h; exact hf x hx h

end Res

end Dwgrep
