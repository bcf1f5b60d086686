import Dwgrep.Compare
import Dwgrep.Producer

/-!
# The operator graph

`op.cc` builds a query as a graph of pull-based operators. Each operator has an
upstream; `next ()` pulls the next result stack (or null once the current priming is
exhausted) and `reset ()` prepares it to be re-driven. Sub-expressions (the branches of
`Or`, the inner expression of `SubX`, `Capture`, `TrClosure`, ...) are rooted at an
`Origin` owned by the operator that drives them, which primes it with `set_next`.

The model keeps every operator's state in its node:

* `Op` has one constructor per operator class of `op.cc` and `builtin-closure.cc`, with
  the fields of the class; a node's upstream is its `up` field.
* A chain ends in `Op.leaf`, which pulls from its *context* `Ctx`: the origin of its
  (sub)expression, or its peer slot in a Tine group. The context records the slot file,
  the done flag and the upstream the peers of a group share, so the sharing that
  `op_tine` implements with `shared_ptr`s is explicit.
* `Merge` has at least one branch by construction (the builder never makes an empty
  alternation), and `Apply` keeps the built body and the saved frame together, so the
  states that `op_apply` never reaches cannot be written down.
* `Op.elem` is the one yielding overload the graph holds: `elem` and `relem` on a
  sequence, driven as the spec describes an overloaded operator (§4.7), since the
  overload machinery is not among the sources.
* `Pred` and `Stringer` are the predicate and format-string hierarchies.

The parts of the engine the sources do not contain are an `Env`: the frames of
`Scope` and the compiled bodies that `Apply` runs.
-/

namespace Dwgrep

/-- `op_origin` and `stringer_origin`: the slot `m_stk` and the flag `m_reset`. -/
structure Origin where
  stk : Option Stack
  isReset : Bool
  deriving DecidableEq, Repr

namespace Origin

/-- `op_origin::next`: hand out the slot, leaving it empty. -/
def next (o : Origin) : Option Stack × Origin := (o.stk, { o with stk := none })

/-- `op_origin::set_next`: `assert (m_stk == nullptr)`, `assert (m_reset)`, then fill
the slot and clear the flag. -/
def setNext (o : Origin) (s : Stack) : Except Fault Origin :=
  if o.stk.isNone && o.isReset then .ok ⟨some s, false⟩ else .error .assertion

/-- The origin right after `reset ()`: empty, ready for `set_next`. -/
def cleared : Origin := ⟨none, true⟩

/-- `op_origin::reset`. -/
def reset (_ : Origin) : Origin := cleared

/-- A newly built origin, with an empty slot. Modelled from the spec: the constructor
is in a header the sources do not include. -/
def init : Origin := ⟨none, false⟩

/-- An origin built around a stack, as `op_apply` builds one and as the driver primes
the root of a query. -/
def primed (s : Stack) : Origin := ⟨some s, false⟩

@[simp] theorem reset_eq (o : Origin) : o.reset = cleared := rfl

@[simp] theorem setNext_cleared (s : Stack) : cleared.setNext s = .ok (primed s) := rfl

end Origin

mutual

/-- The operators, each with its state. -/
inductive Op where
  /-- the bottom of a chain: `op_origin`, or `op_tine` inside a Tine group -/
  | leaf
  /-- `op_nop` -/
  | nop (up : Op)
  /-- `op_assert` -/
  | assert (up : Op) (pred : Pred)
  /-- `op_const` -/
  | const (up : Op) (value : Value)
  /-- `op_format`: the stringer chain, its origin, and the position counter `m_pos` -/
  | format (up : Op) (origin : Origin) (stringer : Stringer) (pos : Nat)
  /-- `op_merge` over its branches `op :: ops` (`m_ops`), with the iterator `m_it`; the
  Tines at the bottom of the branches share `up`, the slot `file` and `done` -/
  | merge (up : Op) (file : List (Option Stack)) (done : Bool) (op : Op) (ops : List Op)
      (it : Nat)
  /-- `op_or`: the branches with their origins; `it` is `m_branch_it`, `none` at `end ()` -/
  | or (up : Op) (branches : List (Origin × Op)) (it : Option Nat)
  /-- `op_capture` -/
  | capture (up : Op) (origin : Origin) (op : Op)
  /-- `op_tr_closure`: `m_is_plus`, `m_op_drained`, the worklist `m_stks` (its back
  first) and the seen-set `m_seen` -/
  | trClosure (up : Op) (origin : Origin) (op : Op) (isPlus : Bool) (opDrained : Bool)
      (stks : List Stack) (seen : List Stack)
  /-- `op_subx`: `m_keep` and the saved upstream stack `m_stk` -/
  | subx (up : Op) (origin : Origin) (op : Op) (keep : Nat) (stk : Option Stack)
  /-- `op_scope`: `m_num_vars` and `m_primed` -/
  | scope (up : Op) (origin : Origin) (op : Op) (numVars : Nat) (primed : Bool)
  /-- `op_lex_closure` over the body `m_t` -/
  | lexClosure (up : Op) (body : Nat)
  /-- `op_apply`: while a closure runs, its body over its own origin together with the
  caller's frame `m_old_frame`; `none` when `m_op` is null -/
  | apply (up : Op) (skipNonClosures : Bool) (op : Option (Origin × Op × Option Nat))
  /-- `op_ifelse`: condition, then and else branches with their origins; `sel` is
  `some true` while the then branch is selected, `none` while `m_sel_op` is null -/
  | ifelse (up : Op) (cond thn els : Origin × Op) (sel : Option Bool)
  /-- the overloaded `elem` (`forward`) or `relem` on a sequence (`op_elem_seq`,
  `op_relem_seq`): the stack the sequence was popped from and the producer over it,
  `none` between upstream stacks -/
  | elem (up : Op) (forward : Bool) (cur : Option (Stack × SeqProducer))

/-- The predicates. -/
inductive Pred where
  /-- `pred_not` -/
  | not (a : Pred)
  /-- `pred_and` -/
  | and (a b : Pred)
  /-- `pred_or` -/
  | or (a b : Pred)
  /-- `pred_subx_any` -/
  | subxAny (origin : Origin) (op : Op)
  /-- `pred_subx_compare`: two sub-expressions rooted at one shared origin -/
  | subxCompare (origin : Origin) (op1 op2 : Op) (pred : Pred)
  /-- `pred_pos` -/
  | pos (pos : Nat)
  /-- `pred_eq`, `pred_lt`, `pred_gt` -/
  | cmp (want : CmpResult)

/-- The stringer chain of a format string, rooted at the format's `stringer_origin`. -/
inductive Stringer where
  /-- `stringer_origin` -/
  | origin
  /-- `stringer_lit` -/
  | lit (up : Stringer) (str : String)
  /-- `stringer_op`: the sub-expression with its origin, `m_have` and `m_str` -/
  | op (up : Stringer) (origin : Origin) (op : Op) (holding : Bool) (str : String)

end

/-- What a chain's `leaf` pulls from. -/
inductive Ctx where
  /-- the origin of a (sub)expression -/
  | origin (o : Origin)
  /-- peer `branch` of a Tine group: the slot file and done flag the peers share, the
  group's upstream, and the context that upstream runs in -/
  | group (branch : Nat) (file : List (Option Stack)) (done : Bool) (up : Op) (outer : Ctx)

/-- The origin at the bottom of a context. -/
def Ctx.base : Ctx → Origin
  | .origin o => o
  | .group _ _ _ _ c => c.base

/-- The parts of the engine that the operators call and the sources do not contain.
Modelled from the spec (§4.5): a scope installs a fresh frame whose parent is the
incoming frame and restores the parent on each emitted stack; a closure's body is
compiled (`tree::build_exec`) over a fresh origin. -/
structure Env where
  /-- the compiled body of a closure, a fresh operator graph over `Op.leaf` -/
  build : Nat → Op
  /-- `set_frame (std::make_shared <frame> (nth_frame (0), n))` -/
  enter : Nat → Stack → Stack
  /-- `set_frame (nth_frame (1))` -/
  leave : Stack → Stack

/-- An environment for concrete runs: every closure body is a bare origin, and scopes
leave the stacks as they are. -/
def Env.demo : Env where
  build _ := .leaf
  enter _ s := s
  leave s := s

/-! ## Predicate results -/

namespace PredResult

/-- `!`: flips `yes` and `no`, leaves `fail`. Modelled from the spec (§4.9). -/
def not : PredResult → PredResult
  | yes => no
  | no => yes
  | fail => fail

/-- `&&`: a result other than `yes` decides. Modelled from the spec (§4.9). -/
def and (a b : PredResult) : PredResult := if a = yes then b else a

/-- `||`: a result other than `no` decides. Modelled from the spec (§4.9). -/
def or (a b : PredResult) : PredResult := if a = no then b else a

end PredResult

/-! ## Stack helpers of the operators -/

variable (rt : Runtime)

namespace Stack

/-- Structural equality of stacks, the key of `op_tr_closure`'s seen-set. The seen-set's
`stack::operator<` is defined outside the sources, so this is modelled from the spec
(§4.4): same depth, and pairwise values of one variant, of one domain if they are
constants, that `cmp` finds equal. -/
def sameAs (s t : Stack) : Bool :=
  s.values.length == t.values.length &&
    (s.values.zip t.values).all fun (a, b) =>
      a.vtype == b.vtype && a.domain == b.domain && a.cmp rt b == .equal

/-- `k` successive `pop`s, top of stack first. -/
def popN : Nat → Stack → Except Fault (List Value)
  | 0, _ => .ok []
  | k + 1, s => do
    let (v, s) ← s.pop rt
    let vs ← popN k s
    pure (v :: vs)

/-- The result of `op_subx::next`: the saved stack `m` with the top `keep` values of
the inner result `t` pushed onto it in their order. -/
def keepTop (keep : Nat) (t m : Stack) : Except Fault Stack := do
  let kept ← popN rt keep t
  pure (kept.foldr (fun v s => s.push rt v) m)

end Stack

end Dwgrep
