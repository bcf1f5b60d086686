import Dwgrep.Value
import Mathlib.Algebra.BigOperators.Group.Finset
import Mathlib.Tactic.Ring

/-!
# Stacks and their selector

`stack.hh`: a stack owns its values and caches a *profile*, the selector that
overload dispatch matches against: the type codes of the top `W` values, top of stack
in the lowest byte, held in a `sel_t` of `8 W` bits. `push`, `pop` and `drop` each
update it their own way:

* `push` shifts the profile up a byte and ors in the new code;
* `pop` shifts it down a byte and, while the stack still holds `W` values, refills the
  top byte from the value now at depth `W - 1`;
* `drop` recomputes it from scratch.

The model keeps the top of stack at the head of the list. The main result,
`profile_of_execAll`, is that from the empty stack every sequence of these operations
leaves the profile equal to `selectorOf`, the selector the top `W` values denote.
-/

namespace Dwgrep

/-- Runtime errors that abort a query. -/
inductive Fault where
  /-- `stack::need`: an operator asked for more values than the stack holds -/
  | underflow
  /-- a failed `assert` -/
  | assertion
  /-- `Read` of an unbound variable -/
  | unbound
  /-- an error reported by libdw -/
  | libdw
  deriving DecidableEq, Repr

/-- `stack`: the values, top of stack first; the cached profile; the current frame. -/
structure Stack where
  values : List Value
  profile : Nat
  frame : Option Nat
  deriving DecidableEq, Repr

variable (rt : Runtime)

/-- `2 ^ (8 W)`: arithmetic on `sel_t` is modulo this. -/
def selMod : Nat := 2 ^ (8 * rt.W)

/-- The selector of a list of values, read `k` codes deep:
`Σ_{d < min k |vs|} code(vs[d]) · 2^(8 d)`. -/
def selectorOf : Nat → List Value → Nat
  | 0, _ => 0
  | _, [] => 0
  | k + 1, v :: vs => v.code rt + 2 ^ 8 * selectorOf k vs

namespace Stack

/-- `stack ()`. -/
def empty : Stack := ⟨[], 0, none⟩

/-- `stack::push`. -/
def push (s : Stack) (v : Value) : Stack :=
  { s with values := v :: s.values, profile := (s.profile <<< 8) % selMod rt ||| v.code rt }

/-- `stack::pop`: `need (1)`; the profile shifts one code out and, when the stack
still holds `W` values, takes the code at depth `W - 1` into its top byte. -/
def pop (s : Stack) : Except Fault (Value × Stack) :=
  match s.values with
  | [] => .error .underflow
  | v :: vs =>
    let p := s.profile >>> 8
    let p := if h : rt.W ≤ vs.length then
        p ||| ((vs.get ⟨rt.W - 1, by have := rt.W_pos; omega⟩).code rt <<< (8 * (rt.W - 1)))
          % selMod rt
      else p
    .ok (v, { s with values := vs, profile := p })

/-- The loop of `stack::drop` that ors in the code at depth `d`, for `d < W` and `d`
below the size. -/
def dropLoop (d : Nat) : List Value → Nat → Nat
  | v :: vs, p =>
    if d < rt.W then dropLoop (d + 1) vs (p ||| (v.code rt <<< (d * 8)) % selMod rt) else p
  | [], p => p

/-- `stack::drop`: `need (n)`, erase the top `n` values, recompute the profile. -/
def drop (s : Stack) (n : Nat) : Except Fault Stack :=
  if s.values.length < n then .error .underflow
  else .ok { s with values := s.values.drop n, profile := dropLoop rt 0 (s.values.drop n) 0 }

end Stack

/-- The three updates of the profile, as a sequence of operations to run. -/
inductive StackOp where
  | push (v : Value)
  | pop
  | drop (n : Nat)

namespace Stack

/-- One operation; `pop` and `drop` fail when the stack is too shallow. -/
def exec (s : Stack) : StackOp → Except Fault Stack
  | .push v => .ok (s.push rt v)
  | .pop => (s.pop rt).map Prod.snd
  | .drop n => s.drop rt n

/-- A sequence of operations, stopping at the first failure. -/
def execAll (s : Stack) : List StackOp → Except Fault Stack
  | [] => .ok s
  | o :: os => match s.exec rt o with
    | .ok s' => s'.execAll os
    | .error e => .error e

end Stack

/-! ## The selector as a number -/

section Selector

variable {rt}

@[simp] theorem selectorOf_zero (vs : List Value) : selectorOf rt 0 vs = 0 := by cases vs <;> rfl

@[simp] theorem selectorOf_nil (k : Nat) : selectorOf rt k [] = 0 := by cases k <;> rfl

theorem selectorOf_lt : ∀ (k : Nat) (vs : List Value), selectorOf rt k vs < 2 ^ (8 * k)
  | 0, _ => by simp [selectorOf]
  | k + 1, [] => by simp [selectorOf]
  | k + 1, v :: vs => by
    have hv := v.code_lt rt
    have ih := selectorOf_lt k vs
    have hpow : 2 ^ (8 * (k + 1)) = 2 ^ 8 * 2 ^ (8 * k) := by ring
    rw [selectorOf, hpow]
    omega

/-- One code deeper adds the code at depth `k` in the `k`-th byte. -/
theorem selectorOf_succ : ∀ (k : Nat) (vs : List Value),
    selectorOf rt (k + 1) vs = selectorOf rt k vs + 2 ^ (8 * k) * ((vs[k]?.map (·.code rt)).getD 0)
  | _, [] => by simp [selectorOf]
  | 0, v :: vs => by simp [selectorOf]
  | k + 1, v :: vs => by
    rw [selectorOf, selectorOf_succ k vs, selectorOf]
    simp only [List.getElem?_cons_succ]
    ring

theorem selectorOf_succ_mod (k : Nat) (vs : List Value) :
    selectorOf rt (k + 1) vs % 2 ^ (8 * k) = selectorOf rt k vs := by
  rw [selectorOf_succ, Nat.add_mul_mod_self_left, Nat.mod_eq_of_lt (selectorOf_lt k vs)]

/-- Or-ing a value below `2 ^ i` into a multiple of `2 ^ i` adds it. -/
theorem or_eq_add {a b i : Nat} (hb : b < 2 ^ i) : 2 ^ i * a ||| b = 2 ^ i * a + b :=
  (Nat.mul_add_lt_is_or hb a).symm

/-- The same, with the multiple on the right. -/
theorem lor_mul_eq_add {p c i : Nat} (hp : p < 2 ^ i) : p ||| c * 2 ^ i = p + 2 ^ i * c := by
  rw [Nat.or_comm, Nat.mul_comm, or_eq_add hp, Nat.add_comm]

/-- A code shifted to a depth below `W` fits in `sel_t`. -/
theorem code_mul_lt (v : Value) {d : Nat} (hd : d < rt.W) :
    v.code rt * 2 ^ (8 * d) < selMod rt :=
  calc v.code rt * 2 ^ (8 * d) < 2 ^ 8 * 2 ^ (8 * d) :=
        Nat.mul_lt_mul_of_pos_right (v.code_lt rt) (Nat.two_pow_pos _)
    _ = 2 ^ (8 * (d + 1)) := by ring
    _ ≤ selMod rt := Nat.pow_le_pow_right (by norm_num) (by omega)

/-- `selectorOf` is the sum the selector denotes. -/
theorem selectorOf_eq_sum (k : Nat) (vs : List Value) :
    selectorOf rt k vs =
      ∑ d ∈ Finset.range k, 2 ^ (8 * d) * ((vs[d]?.map (·.code rt)).getD 0) := by
  induction k with
  | zero => simp [selectorOf]
  | succ k ih => rw [selectorOf_succ, ih, Finset.sum_range_succ]

end Selector

/-! ## Each update keeps the profile -/

/-- The profile a stack's values call for. -/
def Stack.ProfileOk (s : Stack) : Prop := s.profile = selectorOf rt rt.W s.values

namespace Stack

variable {rt}

theorem profileOk_empty : empty.ProfileOk rt := by
  cases h : rt.W <;> simp [ProfileOk, empty, selectorOf, h]

theorem push_profileOk {s : Stack} (hs : s.ProfileOk rt) (v : Value) :
    (s.push rt v).ProfileOk rt := by
  obtain ⟨k, hk⟩ : ∃ k, rt.W = k + 1 := ⟨rt.W - 1, by have := rt.W_pos; omega⟩
  have hmod : selMod rt = 2 ^ 8 * 2 ^ (8 * k) := by rw [selMod, hk]; ring
  have hv := v.code_lt rt
  simp only [ProfileOk, push] at hs ⊢
  rw [hs, hk, selectorOf, Nat.shiftLeft_eq, hmod, Nat.mul_comm _ (2 ^ 8),
    Nat.mul_mod_mul_left, selectorOf_succ_mod, or_eq_add (by norm_num; omega), Nat.add_comm]

theorem pop_profileOk {s : Stack} (hs : s.ProfileOk rt) {v : Value} {s' : Stack}
    (h : s.pop rt = .ok (v, s')) : s'.ProfileOk rt := by
  obtain ⟨k, hk⟩ : ∃ k, rt.W = k + 1 := ⟨rt.W - 1, by have := rt.W_pos; omega⟩
  obtain ⟨vals, profile, frame⟩ := s
  cases vals with
  | nil => cases h
  | cons w vs =>
    simp only [pop, Except.ok.injEq, Prod.mk.injEq] at h
    obtain ⟨rfl, rfl⟩ := h
    simp only [ProfileOk] at hs ⊢
    have hshift : profile >>> 8 = selectorOf rt k vs := by
      rw [hs, hk, selectorOf, Nat.shiftRight_eq_div_pow]
      have := w.code_lt rt
      omega
    simp only [hshift, hk, Nat.add_sub_cancel]
    split
    · rename_i hlen
      rw [Nat.shiftLeft_eq, Nat.mod_eq_of_lt (code_mul_lt _ (by omega)),
        lor_mul_eq_add (selectorOf_lt k vs), selectorOf_succ, List.getElem?_eq_getElem (by omega)]
      simp
    · rw [selectorOf_succ, List.getElem?_eq_none (by omega)]
      simp

/-- `pop` undoes `push` on a stack whose profile is right. -/
theorem pop_push {s : Stack} (hs : s.ProfileOk rt) (v : Value) : (s.push rt v).pop rt = .ok (v, s) := by
  obtain ⟨s', hp, hv, hf⟩ : ∃ s', (s.push rt v).pop rt = .ok (v, s') ∧ s'.values = s.values ∧
      s'.frame = s.frame := ⟨_, rfl, rfl, rfl⟩
  have hok := pop_profileOk (push_profileOk hs v) hp
  rw [hp]
  obtain ⟨vals, profile, frame⟩ := s
  obtain ⟨vals', profile', frame'⟩ := s'
  simp only [ProfileOk] at hs hok hv hf
  subst hv hf
  rw [hok, hs]

/-- The drop loop from depth `d`, with the codes above already or-ed in, finishes
the selector. -/
theorem dropLoop_eq (d : Nat) (vs : List Value) (p : Nat) (hp : p < 2 ^ (8 * d)) :
    dropLoop rt d vs p = p + 2 ^ (8 * d) * selectorOf rt (rt.W - d) vs := by
  induction vs generalizing d p with
  | nil => simp [dropLoop]
  | cons v vs ih =>
    rw [dropLoop]
    split
    · rename_i hd
      obtain ⟨j, hj⟩ : ∃ j, rt.W - d = j + 1 := ⟨rt.W - d - 1, by omega⟩
      have hc := v.code_lt rt
      have hsplit : 2 ^ (8 * (d + 1)) = 2 ^ (8 * d) * 2 ^ 8 := by ring
      rw [Nat.shiftLeft_eq, Nat.mul_comm d 8, Nat.mod_eq_of_lt (code_mul_lt v hd),
        lor_mul_eq_add hp, ih (d + 1) _ (by
          rw [hsplit]
          calc p + 2 ^ (8 * d) * v.code rt < 2 ^ (8 * d) * (v.code rt + 1) := by
                rw [Nat.mul_succ]; omega
            _ ≤ 2 ^ (8 * d) * 2 ^ 8 := Nat.mul_le_mul_left _ (by norm_num; omega)),
        hj, selectorOf, show rt.W - (d + 1) = j by omega, hsplit]
      ring
    · simp [show rt.W - d = 0 by omega]

theorem drop_profileOk {s s' : Stack} {n : Nat} (h : s.drop rt n = .ok s') :
    s'.ProfileOk rt := by
  simp only [drop] at h
  split at h
  · cases h
  · cases h
    simp [ProfileOk, dropLoop_eq 0 _ 0 (Nat.two_pow_pos _)]

theorem exec_profileOk {s s' : Stack} (hs : s.ProfileOk rt) {o : StackOp}
    (h : s.exec rt o = .ok s') : s'.ProfileOk rt := by
  cases o with
  | push v => cases h; exact push_profileOk hs v
  | pop =>
    simp only [exec] at h
    rcases hp : s.pop rt with e | ⟨v, t⟩ <;> rw [hp] at h <;> cases h
    exact pop_profileOk hs hp
  | drop n => exact drop_profileOk h

theorem execAll_profileOk {s s' : Stack} (hs : s.ProfileOk rt) {os : List StackOp}
    (h : s.execAll rt os = .ok s') : s'.ProfileOk rt := by
  induction os generalizing s with
  | nil => cases h; exact hs
  | cons o os ih =>
    simp only [execAll] at h
    split at h
    · exact ih (exec_profileOk hs ‹_›) h
    · cases h

/-- **The selector invariant.** From the empty stack, after any sequence of `push`,
`pop` and `drop` that never asks for more values than the stack holds, the profile is
`Σ_{d < min W size} code(get d) · 2^(8 d)`. -/
theorem profile_of_execAll (os : List StackOp) (s : Stack)
    (h : empty.execAll rt os = .ok s) :
    s.profile = ∑ d ∈ Finset.range rt.W, 2 ^ (8 * d) * ((s.values[d]?.map (·.code rt)).getD 0) :=
  (execAll_profileOk profileOk_empty h).trans (selectorOf_eq_sum _ _)

/-- Five pushes, a `pop` that refills the top byte, and a `drop`. -/
theorem profile_of_execAll_demo :
    empty.execAll Runtime.demo [.push (.str "a" 0), .push (.seq [] 0), .push (.str "b" 0),
        .push (.seq [] 0), .push (.cst ⟨1, 0⟩ 0), .pop, .drop 1] =
      .ok ⟨[.str "b" 0, .seq [] 0, .str "a" 0], 66049, none⟩ ∧
    (66049 : Nat) = ∑ d ∈ Finset.range Runtime.demo.W,
      2 ^ (8 * d) * (([Value.str "b" 0, .seq [] 0, .str "a" 0][d]?.map (·.code Runtime.demo)).getD 0) :=
  ⟨rfl, @profile_of_execAll Runtime.demo [.push (.str "a" 0), .push (.seq [] 0), .push (.str "b" 0),
    .push (.seq [] 0), .push (.cst ⟨1, 0⟩ 0), .pop, .drop 1] _ rfl⟩

end Stack

end Dwgrep
