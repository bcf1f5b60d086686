import Dwgrep.Graph.Syntax
import Dwgrep.Res

/-!
# The interpreter

`next`, `reset`, `result` and the stringer functions of `op.cc`, as one fuel-indexed
interpreter. Every function of the block takes the fuel first and passes one less to
every call it makes, so the block is structurally recursive; `none` means the fuel ran
out. Each `while (true)` loop of the source is a call of the function on the node it
has just updated: the loops keep all their state in the node, so this is the same
iteration. The `for` loops over branches, and the loops that drain a sub-expression
inside one call, are functions of their own (`tryBranches`, `resetAll`, `collect`,
`compareOuter` and `compareInner`).

A sub-expression runs against its own origin (`Ctx.origin`); `subRun`, `subReset` and
`prime` read that origin back from the context a call returns. The one case they reject,
a sub-expression returning a Tine context, never happens: calls give back a context of
the shape they were given.
-/

namespace Dwgrep

section Helpers

variable {α : Type}

/-- A call of a sub-expression, with the origin read back from its context. -/
def subRun (r : Res (α × Op × Ctx)) : Res (α × Origin × Op) := do
  let (a, x, c) ← r
  match c with
  | .origin o => pure (a, o, x)
  | .group .. => Res.stop

/-- A reset of a sub-expression, with the origin read back from its context. -/
def subReset (r : Res (Op × Ctx)) : Res (Origin × Op) := do
  let (x, c) ← r
  match c with
  | .origin o => pure (o, x)
  | .group .. => Res.stop

/-- `m_op->reset (); m_origin->set_next (s)`: reset a sub-expression, which resets its
origin, and prime that origin with `s`. -/
def prime (r : Res (Op × Ctx)) (s : Stack) : Res (Origin × Op) := do
  let (o, x) ← subReset r
  let o ← Res.lift (o.setNext s)
  pure (o, x)

end Helpers

/-- The branch at `k` of a merge's `op :: ops`. -/
def branchAt (op : Op) (ops : List Op) : Nat → Option Op
  | 0 => some op
  | k + 1 => ops[k]?

/-- Replace the branch at `k` of a merge's `op :: ops`. -/
def setBranch (op : Op) (ops : List Op) : Nat → Op → Op × List Op
  | 0, x => (x, ops)
  | k + 1, x => (op, ops.set k x)

variable (rt : Runtime) (env : Env)

mutual

/-- `op::next`. -/
def next : Nat → Ctx → Op → Res (Option Stack × Op × Ctx)
  | 0, _, _ => Res.stop
  | n + 1, c, o => match o with
    | .leaf => do
      let (r, c) ← pull n c
      pure (r, .leaf, c)
    | .nop u => do
      let (r, u, c) ← next n c u
      pure (r, .nop u, c)
    | .assert u p => do
      let (r, u, c) ← next n c u
      match r with
      | none => pure (none, .assert u p, c)
      | some s => do
        let (pr, p) ← result n p s
        if pr = .yes then pure (some s, .assert u p, c) else next n c (.assert u p)
    | .const u v => do
      let (r, u, c) ← next n c u
      pure (r.map (·.push rt v.clone), .const u v, c)
    | .format u so st pos => do
      let (r, st, so) ← snext n so st
      match r with
      | some (s, str) => pure (some (s.push rt (.str str pos)), .format u so st (pos + 1), c)
      | none => do
        let (r, u, c) ← next n c u
        match r with
        | none => pure (none, .format u so st pos, c)
        | some s => do
          let (st, so) ← sreset n so st
          let so ← Res.lift (so.setNext s)
          next n c (.format u so st 0)
    | .merge u file done b bs it =>
      if done then pure (none, .merge u file done b bs it, c) else
      match branchAt b bs it with
      | none => Res.stop
      | some x => do
        let (r, x, c') ← next n (.group it file done u c) x
        match c' with
        | .group _ file done u c =>
          let (b, bs) := setBranch b bs it x
          match r with
          | some s => pure (some s, .merge u file done b bs it, c)
          | none => next n c (.merge u file done b bs ((it + 1) % (bs.length + 1)))
        | .origin _ => Res.stop
    | .or u bs none => do
      let (r, u, c) ← next n c u
      match r with
      | none => pure (none, .or u bs none, c)
      | some s => tryBranches n c u s [] bs
    | .or u bs (some k) =>
      match bs[k]? with
      | none => Res.stop
      | some (o, x) => do
        let (r, o, x) ← subRun (next n (.origin o) x)
        let bs := bs.set k (o, x)
        match r with
        | some s => pure (some s, .or u bs (some k), c)
        | none => do
          let bs ← resetAll n bs
          next n c (.or u bs none)
    | .capture u so x => do
      let (r, u, c) ← next n c u
      match r with
      | none => pure (none, .capture u so x, c)
      | some s => do
        let (so, x) ← prime (reset n (.origin so) x) s
        let (vs, so, x) ← collect n so x
        pure (some (s.push rt (.seq vs 0)), .capture u so x, c)
    | .trClosure u so x plus false stks seen => do
      let (r, so, x) ← subRun (next n (.origin so) x)
      match r with
      | some s =>
        if seen.any (Stack.sameAs rt s) then next n c (.trClosure u so x plus false stks seen)
        else pure (some s, .trClosure u so x plus false (s :: stks) (s :: seen), c)
      | none => next n c (.trClosure u so x plus true stks seen)
    | .trClosure u so x plus true (s :: stks) seen => do
      let (so, x) ← prime (reset n (.origin so) x) s
      next n c (.trClosure u so x plus false stks seen)
    | .trClosure u so x plus true [] _ => do
      let (r, u, c) ← next n c u
      match r with
      | none => pure (none, .trClosure u so x plus true [] [], c)
      | some s =>
        if plus then do
          let (so, x) ← prime (reset n (.origin so) x) s
          next n c (.trClosure u so x plus false [] [])
        else pure (some s, .trClosure u so x plus true [s] [s], c)
    | .subx u so x keep none => do
      let (r, u, c) ← next n c u
      match r with
      | none => pure (none, .subx u so x keep none, c)
      | some s => do
        let (so, x) ← prime (reset n (.origin so) x) s
        next n c (.subx u so x keep (some s))
    | .subx u so x keep (some m) => do
      let (r, so, x) ← subRun (next n (.origin so) x)
      match r with
      | some t => do
        let s ← Res.lift (Stack.keepTop rt keep t m)
        pure (some s, .subx u so x keep (some m), c)
      | none => next n c (.subx u so x keep none)
    | .scope u so x nv false => do
      let (r, u, c) ← next n c u
      match r with
      | none => pure (none, .scope u so x nv false, c)
      | some s => do
        let (so, x) ← prime (reset n (.origin so) x) (env.enter nv s)
        next n c (.scope u so x nv true)
    | .scope u so x nv true => do
      let (r, so, x) ← subRun (next n (.origin so) x)
      match r with
      | some t => pure (some (env.leave t), .scope u so x nv true, c)
      | none => next n c (.scope u so x nv false)
    | .lexClosure u body => do
      let (r, u, c) ← next n c u
      pure (r.map fun s => s.push rt (.closure body s.frame 0), .lexClosure u body, c)
    | .apply u skip none => do
      let (r, u, c) ← next n c u
      match r with
      | none => pure (none, .apply u skip none, c)
      | some s =>
        match s.values with
        | [] => throw .underflow
        | .closure body frame _ :: _ => do
          let (_, s') ← Res.lift (s.pop rt)
          next n c (.apply u skip (some (.primed { s' with frame := frame }, env.build body,
            s'.frame)))
        | _ :: _ =>
          if skip then pure (some s, .apply u skip none, c) else next n c (.apply u skip none)
    | .apply u skip (some (o, x, old)) => do
      let (r, o, x) ← subRun (next n (.origin o) x)
      match r with
      | some t => pure (some { t with frame := old }, .apply u skip (some (o, x, old)), c)
      | none => next n c (.apply u skip none)
    | .ifelse u cond thn els none => do
      let (r, u, c) ← next n c u
      match r with
      | none => pure (none, .ifelse u cond thn els none, c)
      | some s => do
        let cond ← prime (reset n (.origin cond.1) cond.2) s
        let (cr, cond) ← subRun (next n (.origin cond.1) cond.2)
        let sel := cr.isSome
        let br ← prime (reset n (.origin (if sel then thn else els).1)
          (if sel then thn else els).2) s
        let (thn, els) := if sel then (br, els) else (thn, br)
        next n c (.ifelse u cond thn els (some sel))
    | .ifelse u cond thn els (some sel) => do
      let br := if sel then thn else els
      let (r, br) ← subRun (next n (.origin br.1) br.2)
      let (thn, els) := if sel then (br, els) else (thn, br)
      match r with
      | some t => pure (some t, .ifelse u cond thn els (some sel), c)
      | none => next n c (.ifelse u cond thn els none)
    | .elem u fwd none => do
      let (r, u, c) ← next n c u
      match r with
      | none => pure (none, .elem u fwd none, c)
      | some s => do
        let (v, s) ← Res.lift (s.pop rt)
        match v with
        | .seq vs _ => next n c (.elem u fwd (some (s, ⟨vs, 0⟩)))
        | _ => next n c (.elem u fwd none)
    | .elem u fwd (some (s, p)) =>
      match p.next fwd with
      | some (v, p) => pure (some (s.push rt v), .elem u fwd (some (s, p)), c)
      | none => next n c (.elem u fwd none)

/-- What a `leaf` pulls: `op_origin::next`, or `op_tine::next` for peer `k`, which
refills the file from the shared upstream once every peer has taken its copy. -/
def pull : Nat → Ctx → Res (Option Stack × Ctx)
  | 0, _ => Res.stop
  | _ + 1, .origin o => pure (o.next.1, .origin o.next.2)
  | n + 1, .group k file done up outer =>
    if done then pure (none, .group k file done up outer)
    else if file.all Option.isNone then do
      let (r, up, outer) ← next n outer up
      match r with
      | some s =>
        let file := file.map fun _ => some s
        pure (file[k]?.join, .group k (file.set k none) done up outer)
      | none => pure (none, .group k file true up outer)
    else pure (file[k]?.join, .group k (file.set k none) done up outer)

/-- `op::reset`. -/
def reset : Nat → Ctx → Op → Res (Op × Ctx)
  | 0, _, _ => Res.stop
  | n + 1, c, o => match o with
    | .leaf => do
      let c ← resetCtx n c
      pure (.leaf, c)
    | .nop u => do
      let (u, c) ← reset n c u
      pure (.nop u, c)
    | .assert u p => do
      let (u, c) ← reset n c u
      pure (.assert u p, c)
    | .const u v => do
      let (u, c) ← reset n c u
      pure (.const u v, c)
    | .format u so st _ => do
      let (st, so) ← sreset n so st
      let (u, c) ← reset n c u
      pure (.format u so st 0, c)
    | .merge u file _ b bs _ => do
      let (x, c') ← reset n (.group 0 file false u c) b
      match c' with
      | .group _ file _ u c => do
        let (bs, file, u, c) ← resetBranches n c u file 1 bs
        pure (.merge u file false x bs 0, c)
      | .origin _ => Res.stop
    | .or u bs _ => do
      let bs ← resetAll n bs
      let (u, c) ← reset n c u
      pure (.or u bs none, c)
    | .capture u so x => do
      let (so, x) ← subReset (reset n (.origin so) x)
      let (u, c) ← reset n c u
      pure (.capture u so x, c)
    | .trClosure u so x plus drained _ _ => do
      let (u, c) ← reset n c u
      pure (.trClosure u so x plus drained [] [], c)
    | .subx u so x keep _ => do
      let (u, c) ← reset n c u
      pure (.subx u so x keep none, c)
    | .scope u so x nv _ => do
      let (u, c) ← reset n c u
      pure (.scope u so x nv false, c)
    | .lexClosure u body => do
      let (u, c) ← reset n c u
      pure (.lexClosure u body, c)
    | .apply u skip _ => do
      let (u, c) ← reset n c u
      pure (.apply u skip none, c)
    | .ifelse u cond thn els _ => do
      let (u, c) ← reset n c u
      pure (.ifelse u cond thn els none, c)
    | .elem u fwd _ => do
      let (u, c) ← reset n c u
      pure (.elem u fwd none, c)

/-- What a `leaf` does on `reset`: `op_origin::reset`, or `op_tine::reset`, which
empties the whole file and resets the shared upstream. -/
def resetCtx : Nat → Ctx → Res Ctx
  | 0, _ => Res.stop
  | _ + 1, .origin o => pure (.origin o.reset)
  | n + 1, .group k file done up outer => do
    let (up, outer) ← reset n outer up
    pure (.group k (file.map fun _ => none) done up outer)

/-- The loop of `op_merge::reset` over the branches after the first, from branch `k`. -/
def resetBranches : Nat → Ctx → Op → List (Option Stack) → Nat → List Op →
    Res (List Op × List (Option Stack) × Op × Ctx)
  | 0, _, _, _, _, _ => Res.stop
  | _ + 1, c, u, file, _, [] => pure ([], file, u, c)
  | n + 1, c, u, file, k, x :: xs => do
    let (x, c') ← reset n (.group k file false u c) x
    match c' with
    | .group _ file _ u c => do
      let (xs, file, u, c) ← resetBranches n c u file (k + 1) xs
      pure (x :: xs, file, u, c)
    | .origin _ => Res.stop

/-- `op_or::reset_me`: reset every branch. -/
def resetAll : Nat → List (Origin × Op) → Res (List (Origin × Op))
  | 0, _ => Res.stop
  | _ + 1, [] => pure []
  | n + 1, (o, x) :: bs => do
    let b ← subReset (reset n (.origin o) x)
    let bs ← resetAll n bs
    pure (b :: bs)

/-- The `for` loop of `op_or::next` over the branches, for the upstream stack `s`: each
branch is reset and primed with a copy of `s` until one yields; `tried` are the
branches before the current one. When none yields, the loop is back at `end ()` and
pulls the next upstream stack. -/
def tryBranches : Nat → Ctx → Op → Stack → List (Origin × Op) → List (Origin × Op) →
    Res (Option Stack × Op × Ctx)
  | 0, _, _, _, _, _ => Res.stop
  | n + 1, c, u, _, tried, [] => next n c (.or u tried none)
  | n + 1, c, u, s, tried, (o, x) :: rest => do
    let (o, x) ← prime (reset n (.origin o) x) s
    let (r, o, x) ← subRun (next n (.origin o) x)
    match r with
    | some t => pure (some t, .or u (tried ++ (o, x) :: rest) (some tried.length), c)
    | none => tryBranches n c u s (tried ++ [(o, x)]) rest

/-- The loop of `op_capture::next`: drain the sub-expression, keeping the top of each
result. -/
def collect : Nat → Origin → Op → Res (List Value × Origin × Op)
  | 0, _, _ => Res.stop
  | n + 1, so, x => do
    let (r, so, x) ← subRun (next n (.origin so) x)
    match r with
    | none => pure ([], so, x)
    | some t => do
      let (v, _) ← Res.lift (t.pop rt)
      let (vs, so, x) ← collect n so x
      pure (v :: vs, so, x)

/-- `pred::result`. -/
def result : Nat → Pred → Stack → Res (PredResult × Pred)
  | 0, _, _ => Res.stop
  | n + 1, p, s => match p with
    | .not a => do
      let (r, a) ← result n a s
      pure (r.not, .not a)
    | .and a b => do
      let (ra, a) ← result n a s
      let (rb, b) ← result n b s
      pure (ra.and rb, .and a b)
    | .or a b => do
      let (ra, a) ← result n a s
      let (rb, b) ← result n b s
      pure (ra.or rb, .or a b)
    | .subxAny so x => do
      let (so, x) ← prime (reset n (.origin so) x) s
      let (r, so, x) ← subRun (next n (.origin so) x)
      pure (if r.isSome then .yes else .no, .subxAny so x)
    | .subxCompare so x y q => do
      let (so, x) ← prime (reset n (.origin so) x) s
      compareOuter n s so x y q
    | .pos k =>
      match s.values with
      | [] => throw .underflow
      | v :: _ => pure (.ofBool (v.pos == k), .pos k)
    | .cmp want => do
      let r ← Res.lift (comparisonResult rt s want)
      pure (r, .cmp want)

/-- The outer loop of `pred_subx_compare::result`, over the results of `op1`; for each
one, `op2` is reset and the shared origin primed again with `s`. -/
def compareOuter : Nat → Stack → Origin → Op → Op → Pred → Res (PredResult × Pred)
  | 0, _, _, _, _, _ => Res.stop
  | n + 1, s, so, x, y, q => do
    let (r, so, x) ← subRun (next n (.origin so) x)
    match r with
    | none => pure (.no, .subxCompare so x y q)
    | some t => do
      let (so, y) ← prime (reset n (.origin so) y) s
      compareInner n s so x y q t

/-- The inner loop of `pred_subx_compare::result`, over the results of `op2` for the
result `t` of `op1`: push the top of each onto `t`, try the predicate, pop it again. -/
def compareInner : Nat → Stack → Origin → Op → Op → Pred → Stack → Res (PredResult × Pred)
  | 0, _, _, _, _, _, _ => Res.stop
  | n + 1, s, so, x, y, q, t => do
    let (r, so, y) ← subRun (next n (.origin so) y)
    match r with
    | none => compareOuter n s so x y q
    | some t2 => do
      let (v, _) ← Res.lift (t2.pop rt)
      let (pr, q) ← result n q (t.push rt v)
      if pr = .yes then pure (.yes, .subxCompare so x y q)
      else do
        let (_, t) ← Res.lift ((t.push rt v).pop rt)
        compareInner n s so x y q t

/-- `pred::reset`: the sub-expression predicates reset their sub-expressions (for
`not`, `and` and `or`, modelled from the spec: `reset` propagates). -/
def resetPred : Nat → Pred → Res Pred
  | 0, _ => Res.stop
  | n + 1, p => match p with
    | .not a => do
      let a ← resetPred n a
      pure (.not a)
    | .and a b => do
      let a ← resetPred n a
      let b ← resetPred n b
      pure (.and a b)
    | .or a b => do
      let a ← resetPred n a
      let b ← resetPred n b
      pure (.or a b)
    | .subxAny so x => do
      let (so, x) ← subReset (reset n (.origin so) x)
      pure (.subxAny so x)
    | .subxCompare so x y q => do
      let (so, x) ← subReset (reset n (.origin so) x)
      let (so, y) ← subReset (reset n (.origin so) y)
      let q ← resetPred n q
      pure (.subxCompare so x y q)
    | .pos k => pure (.pos k)
    | .cmp want => pure (.cmp want)

/-- `stringer::next`, against the format's `stringer_origin`. -/
def snext : Nat → Origin → Stringer → Res (Option (Stack × String) × Stringer × Origin)
  | 0, _, _ => Res.stop
  | n + 1, so, st => match st with
    | .origin => pure (so.next.1.map (·, ""), .origin, so.next.2)
    | .lit up str => do
      let (r, up, so) ← snext n so up
      pure (r.map fun (s, t) => (s, str ++ t), .lit up str, so)
    | .op up xo x false str => do
      let (r, up, so) ← snext n so up
      match r with
      | none => pure (none, .op up xo x false str, so)
      | some (s, t) => do
        let (xo, x) ← prime (reset n (.origin xo) x) s
        snext n so (.op up xo x true t)
    | .op up xo x true str => do
      let (r, xo, x) ← subRun (next n (.origin xo) x)
      match r with
      | some t => do
        let (v, t) ← Res.lift (t.pop rt)
        pure (some (t, v.render rt ++ str), .op up xo x true str, so)
      | none => snext n so (.op up xo x false str)

/-- `stringer::reset`. -/
def sreset : Nat → Origin → Stringer → Res (Stringer × Origin)
  | 0, _, _ => Res.stop
  | n + 1, so, st => match st with
    | .origin => pure (.origin, so.reset)
    | .lit up str => do
      let (up, so) ← sreset n so up
      pure (.lit up str, so)
    | .op up xo x _ str => do
      let (xo, x) ← subReset (reset n (.origin xo) x)
      let (up, so) ← sreset n so up
      pure (.op up xo x false str, so)

end

end Dwgrep
