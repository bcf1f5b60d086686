import Dwgrep.Graph.Group
import Dwgrep.Graph.Refine

/-!
# A flat `Merge` yields every result of every branch, in the order of its schedule

`Merge` (`op_merge::next`) asks its branches in turn: it returns each result of the
current branch, and when that branch answers null it moves on to the next one,
cyclically, until the Tine group under its branches is done. The branches pull from
their slots of that group (`op_tine::next`), so under the merge's schedule the full slots
are always those of the branches from the current turn on, and the branch that takes the
last copy of a stack refills the file at once with the next one.

Take branches that each transform the stream their leaf receives: from a state of a set
`S k`, over a turn in which its leaf receives stacks `l` satisfying `Q`, branch `k`
answers `d k` of each stack of `l` and then null, and is again in a state of `S k`
(`BranchLaw`). A bare leaf obeys such a law, and so does any operator that obeys its
`SegmentLaw` over a branch that obeys one (`SegmentLaw.branchLaw`). Over an upstream that
yields `L`, all satisfying `Q`, and then null, the merge then yields exactly what its
schedule `mergeOrder` gives and then null (`merge_yields_order`): all of a branch's
answers over its turn, not one result from each branch in turn. On a single stack that
is each branch's answers in branch order (`mergeOrder_singleton`). The schedule is a
shuffle of the `K` lists `L.flatMap (d k)` (`mergeRounds_shuffle`): every branch sees
every upstream stack once and in order, and nothing a branch answers is lost or repeated
(`merge_interleaves`).

* `GSteps`, `GRun`, `BranchLaw` — the answers of a branch called as a peer of the group,
  and the law of a stream-transforming branch; `GRun.resumes` makes the turns of a peer
  an instance of `Resumes`, so that every operator's segment law applies to them;
* `mergeRounds`, `mergeOrder` — the schedule's order, round by round;
* `Cyclic`, `MergeInv` — the layout of the slot file under the merge's schedule and the
  invariant of a merge state, kept by every turn (`MergeInv.turn`), which also advances
  the schedule by exactly the turn's answers;
* `merge_turn`, `merge_run` — the merge answers what its current branch answers in a
  turn and goes on with the next branch, and so follows the schedule over a whole run;
* `Shuffle` — interleavings of `K` lists, each kept in its own order.
-/

namespace Dwgrep

/-- Peer `k` has taken the stack in its slot. -/
def Shared.take (g : Shared) (k : Nat) : Shared := { g with file := g.file.set k none }

/-- Peer `k` has filled every slot with copies of `s` from the upstream, now `up` over
`outer`, and taken its own. -/
def Shared.refill (g : Shared) (k : Nat) (s : Stack) (up : Op) (outer : Ctx) : Shared :=
  ⟨(g.file.map fun _ => some s).set k none, false, up, outer⟩

/-- The upstream, now `up` over `outer`, has answered null: the group is done. -/
def Shared.close (g : Shared) (up : Op) (outer : Ctx) : Shared := ⟨g.file, true, up, outer⟩

/-- The merge over the branches `b :: bs` at turn `it`, whose group state is `g`. -/
def Shared.merge (g : Shared) (b : Op) (bs : List Op) (it : Nat) : Op :=
  .merge g.up g.file g.done b bs it

/-- Whether branch `k` of `K` holds a copy when the `f` slots from turn `it` on are full,
cyclically. -/
def holds (K it f k : Nat) : Bool := decide (it ≤ k ∧ k < it + f ∨ k + K < it + f)

/-- Under `Merge`'s schedule the slot file of a group of `K` holds copies of one stack `t`
in the `f` slots from turn `it` on, cyclically, and nothing in the others. -/
def Cyclic (K : Nat) (g : Shared) (it f : Nat) (t : Stack) : Prop :=
  ∀ k < K, g.slot k = if holds K it f k then some t else none

/-- What `Merge` over `K` branches yields from turn `it` on, when the `f` slots from `it` on
hold copies of `t` and the upstream has `R` still to yield, if branch `k` answers `d k s`
on a stack `s`: each holder in turn answers on its copy of `t`; the last one (or branch
`it` itself when no slot is full) finds every slot empty, fetches the next stack, answers
on it as well, and the `K - 1` other branches hold the next round. -/
def mergeRounds (K : Nat) (d : Nat → Stack → List Stack) (it f : Nat) (t : Stack) :
    List Stack → List Stack
  | [] => (List.range f).flatMap fun j => d ((it + j) % K) t
  | t' :: R => (List.range f).flatMap (fun j => d ((it + j) % K) t) ++
      d ((it + (f - 1)) % K) t' ++ mergeRounds K d ((it + (f - 1) + 1) % K) (K - 1) t' R

/-- The order of a fresh `Merge`'s results over an upstream run `L`: the first branch
fetches the first stack, and the rounds follow. -/
def mergeOrder (K : Nat) (d : Nat → Stack → List Stack) : List Stack → List Stack
  | [] => []
  | t :: R => d 0 t ++ mergeRounds K d 1 (K - 1) t R

/-- `Shuffle K ls out`: `out` interleaves the lists `ls 0`, …, `ls (K - 1)`, each in its
own order. -/
inductive Shuffle {α : Type} (K : Nat) : (Nat → List α) → List α → Prop
  | nil {ls : Nat → List α} : (∀ k < K, ls k = []) → Shuffle K ls []
  | cons {ls : Nat → List α} {k : Nat} {a : α} {l out : List α} : k < K → ls k = a :: l →
      Shuffle K (fun j => if j = k then l else ls j) out → Shuffle K ls (a :: out)

section Runs

variable (rt : Runtime) (env : Env)

/-- `GSteps k g x l g' x'`: branch `x`, called as peer `k` of a group in state `g`,
answers the stacks `l`, after none of which the group is done, and leaves the group in
`g'` and itself in `x'`. -/
inductive GSteps (k : Nat) : Shared → Op → List Stack → Shared → Op → Prop
  | nil (g : Shared) (x : Op) : GSteps k g x [] g x
  | cons {g x s g₁ x₁ l g' x'} (n : Nat) :
      next rt env n (g.ctx k) x = pure (some s, x₁, g₁.ctx k) → g₁.done = false →
      GSteps k g₁ x₁ l g' x' → GSteps k g x (s :: l) g' x'

/-- A turn of branch `x` as peer `k`: it answers `l` and then null, and leaves the group in
`g'` and itself in `x'`. -/
def GRun (k : Nat) (g : Shared) (x : Op) (l : List Stack) (g' : Shared) (x' : Op) : Prop :=
  ∃ g₁ x₁, GSteps rt env k g x l g₁ x₁ ∧
    ∃ n, next rt env n (g₁.ctx k) x₁ = pure (none, x', g'.ctx k)

/-- The law of a branch that transforms the stream its leaf receives: from any state in
`S`, over any turn in which its leaf receives stacks `l` that satisfy `Q`, the branch
answers `d` of each stack of `l` and then null, and ends in a state of `S`. -/
def BranchLaw (k : Nat) (Q : Stack → Prop) (S : Op → Prop) (d : Stack → List Stack) : Prop :=
  ∀ x, S x → ∀ g l g', (∀ s ∈ l, Q s) → GRun rt env k g .leaf l g' .leaf →
    ∃ x', S x' ∧ GRun rt env k g x (l.flatMap d) g' x'

/-- A merge state of `K` branches at turn `it`, over an upstream whose run is `L` and of
which the group has fetched `m` stacks, with `f` slots holding copies of `t`. -/
structure MergeInv (K : Nat) (L : List Stack) (m : Nat) (g : Shared) (it f : Nat) (t : Stack) :
    Prop where
  /-- One slot per branch. -/
  length : g.file.length = K
  /-- Until the group is done, the upstream yields the rest of its run. -/
  rest : g.done = false → Yields rt env g.outer g.up (L.drop m)
  /-- The group is done only once it has fetched the whole run. -/
  complete : g.done = true → L.length ≤ m
  index : it < K
  full : f < K
  cyclic : Cyclic K g it f t
  /-- A done group has no stack waiting. -/
  closed : g.done = true → f = 0
  /-- A stack waiting in the slots is one the upstream yielded. -/
  fetched : 0 < f → t ∈ L

end Runs

variable {rt : Runtime} {env : Env}

/-! ## The group state -/

section Shared

variable {g : Shared} {j k : Nat} {s : Stack} {up : Op} {outer : Ctx}

@[simp] theorem Shared.take_done : (g.take k).done = g.done := rfl
@[simp] theorem Shared.take_length : (g.take k).file.length = g.file.length := List.length_set _ _ _

theorem Shared.take_take : (g.take k).take k = g.take k := by
  simp only [Shared.take, List.set_set]

theorem Shared.slot_take_self : (g.take k).slot k = none := Dwgrep.slot_take_self

theorem Shared.slot_take (h : j ≠ k) : (g.take k).slot j = g.slot j := Dwgrep.slot_take h

theorem Shared.refill_take : (g.refill k s up outer).take k = g.refill k s up outer := by
  simp only [Shared.refill, Shared.take, List.set_set]

theorem Shared.slot_refill :
    (g.refill k s up outer).slot j = if j = k then none else if j < g.file.length then some s else none :=
  Dwgrep.slot_refill k

theorem all_none_of_slots (h : ∀ j < g.file.length, g.slot j = none) :
    g.file.all Option.isNone = true :=
  List.all_eq_true.2 fun x hx => by
    obtain ⟨j, hj, rfl⟩ := List.getElem_of_mem hx
    simpa [Shared.slot, List.getElem?_eq_getElem hj] using h j hj

theorem not_all_none (h : g.slot j = some s) : g.file.all Option.isNone = false :=
  Bool.eq_false_iff.2 fun hall => Option.noConfusion (h.symm.trans (slot_of_all_none hall j))

end Shared

/-! ## The schedule's layout -/

section Cyclic

variable {K it f k r : Nat} {g : Shared} {t s : Stack} {up : Op} {outer : Ctx}

theorem succ_mod_of_lt (hit : it < K) : (it + 1) % K = if it + 1 < K then it + 1 else 0 := by
  split_ifs with h
  · exact Nat.mod_eq_of_lt h
  · rw [show it + 1 = K by omega, Nat.mod_self]

theorem add_mod_of_lt (hit : it < K) (hf : f < K) :
    (it + f) % K = if it + f < K then it + f else it + f - K := by
  split_ifs with h
  · exact Nat.mod_eq_of_lt h
  · rw [Nat.mod_eq_sub_mod (by omega), Nat.mod_eq_of_lt (by omega)]

theorem holds_zero (hit : it < K) (k : Nat) : holds K it 0 k = false := by
  simp only [holds, decide_eq_false_iff_not]; omega

/-- The slot after the last holder is the next one to fill. -/
theorem holds_succ (hit : it < K) (hf : f < K) (hk : k < K) :
    holds K it (f + 1) k = (holds K it f k || decide (k = (it + f) % K)) := by
  rw [add_mod_of_lt hit hf]
  simp only [holds, ← Bool.decide_or, decide_eq_decide]
  split_ifs <;> omega

/-- The holders of the round that branch `r` starts are all the other branches. -/
theorem holds_round (hr : r < K) (hk : k < K) :
    holds K ((r + 1) % K) (K - 1) k = decide (k ≠ r) := by
  rw [succ_mod_of_lt hr]
  simp only [holds, decide_eq_decide]
  split_ifs <;> omega

theorem Cyclic.slot_none (h : Cyclic K g it 0 t) (hit : it < K) : ∀ k < K, g.slot k = none :=
  fun k hk => by rw [h k hk, holds_zero hit]; rfl

theorem Cyclic.slot_turn (h : Cyclic K g it f t) (hit : it < K) (hf : 0 < f) :
    g.slot it = some t := by
  rw [h it hit, if_pos (by simp only [holds, decide_eq_true_eq]; omega)]

/-- After the turn's peer takes its copy, the holders are those from the next turn on. -/
theorem Cyclic.take (h : Cyclic K g it f t) (hit : it < K) (hf : f ≤ K) :
    Cyclic K (g.take it) ((it + 1) % K) (f - 1) t := by
  intro k hk
  by_cases hki : k = it
  · subst hki
    rw [Shared.slot_take_self, if_neg]
    simp only [holds, decide_eq_true_eq, succ_mod_of_lt hit]
    split_ifs <;> omega
  · rw [Shared.slot_take hki, h k hk, show holds K ((it + 1) % K) (f - 1) k = holds K it f k by
      simp only [holds, succ_mod_of_lt hit, decide_eq_decide]; split_ifs <;> omega]

/-- After the turn's peer refills the file, every other branch holds a copy. -/
theorem Cyclic.refill (hlen : g.file.length = K) (hit : it < K) :
    Cyclic K (g.refill it s up outer) ((it + 1) % K) (K - 1) s := by
  intro k hk
  rw [Shared.slot_refill, hlen, if_pos hk, holds_round hit hk]
  by_cases hki : k = it <;> simp [hki]

end Cyclic

/-! ## The schedule -/

section Rounds

variable {K : Nat} {d : Nat → Stack → List Stack} {it f : Nat} {t t' : Stack} {X R : List Stack}

theorem mergeRounds_mod (it : Nat) : mergeRounds K d (it % K) f t X = mergeRounds K d it f t X := by
  cases X <;> simp only [mergeRounds, Nat.mod_add_mod, Nat.add_assoc]

theorem mergeRounds_zero_cons :
    mergeRounds K d it 0 t (t' :: R) =
      d (it % K) t' ++ mergeRounds K d ((it + 1) % K) (K - 1) t' R := by
  simp [mergeRounds]

/-- The holders' answers on `t` come first, then the refill by the last holder. -/
theorem mergeRounds_split (it : Nat) :
    mergeRounds K d it f t X =
      (List.range f).flatMap (fun j => d ((it + j) % K) t) ++ mergeRounds K d (it + (f - 1)) 0 t X := by
  cases X <;> simp [mergeRounds]

theorem mergeRounds_one : mergeRounds K d it 1 t X = d (it % K) t ++ mergeRounds K d it 0 t X := by
  rw [mergeRounds_split]; simp [List.range_succ]

theorem mergeRounds_succ (hf : 0 < f) :
    mergeRounds K d it (f + 1) t X = d (it % K) t ++ mergeRounds K d (it + 1) f t X := by
  rw [mergeRounds_split, mergeRounds_split (it + 1), List.range_succ_eq_map, List.flatMap_cons,
    List.flatMap_map, List.append_assoc, show it + (f + 1 - 1) = it + 1 + (f - 1) by omega]
  simp only [Nat.add_zero, Nat.succ_eq_add_one, Nat.add_assoc, Nat.add_comm 1]

theorem mergeOrder_eq (hK : 2 ≤ K) (t : Stack) (L : List Stack) :
    mergeOrder K d L = mergeRounds K d 0 0 t L := by
  cases L with
  | nil => rfl
  | cons t' R => rw [mergeOrder, mergeRounds_zero_cons, Nat.zero_mod, Nat.mod_eq_of_lt (by omega)]

/-- On a single stack, the branches answer one after the other, each with all its
answers. -/
theorem mergeOrder_singleton (hK : 1 ≤ K) (s : Stack) :
    mergeOrder K d [s] = (List.range K).flatMap fun k => d k s := by
  obtain ⟨K, rfl⟩ : ∃ K', K = K' + 1 := ⟨K - 1, by omega⟩
  rw [mergeOrder, mergeRounds, List.range_succ_eq_map, List.flatMap_cons, List.flatMap_map,
    Nat.add_sub_cancel]
  exact congrArg _ (List.flatMap_congr fun j hj => by
    rw [Nat.add_comm, Nat.mod_eq_of_lt (by simp at hj; omega)])

/-- Over two stacks, `(A, B)` zig-zags: `B` takes the last copy of the first stack and goes on
at once with the second. -/
example (d : Nat → Stack → List Stack) (s₁ s₂ : Stack) :
    mergeOrder 2 d [s₁, s₂] = d 0 s₁ ++ d 1 s₁ ++ d 1 s₂ ++ d 0 s₂ := by
  simp [mergeOrder, mergeRounds, List.range_succ]

end Rounds

/-! ## The leaf's turn -/

section Leaf

variable {n k : Nat} {g g₁ g' : Shared} {s : Stack} {up : Op} {outer : Ctx} {x x₁ x' : Op}
  {l : List Stack}

theorem pull_take (hd : g.done = false) (hall : g.file.all Option.isNone = false) :
    pull rt env (n + 1) (g.ctx k) = pure (g.slot k, (g.take k).ctx k) := by
  rw [Shared.ctx, pull]; simp only [hd, hall, Bool.false_eq_true, if_false]
  simp only [Shared.slot, Shared.take, Shared.ctx, hd]

theorem pull_refill (hd : g.done = false) (hall : g.file.all Option.isNone = true)
    (hu : next rt env n g.outer g.up = pure (some s, up, outer)) (hk : k < g.file.length) :
    pull rt env (n + 1) (g.ctx k) = pure (some s, (g.refill k s up outer).ctx k) := by
  rw [Shared.ctx, pull]
  simp only [hd, hall, hu, Bool.false_eq_true, if_false, if_true, pure_bind,
    slot_refill_self hk]
  rfl

theorem pull_close (hd : g.done = false) (hall : g.file.all Option.isNone = true)
    (hu : next rt env n g.outer g.up = pure (none, up, outer)) :
    pull rt env (n + 1) (g.ctx k) = pure (none, (g.close up outer).ctx k) := by
  rw [Shared.ctx, pull]
  simp only [hd, hall, hu, Bool.false_eq_true, if_false, if_true, pure_bind]
  rfl

theorem next_leaf_of_pull {c c' : Ctx} {r : Option Stack} (h : pull rt env n c = pure (r, c')) :
    next rt env (n + 1) c .leaf = pure (r, .leaf, c') := by
  rw [next, h]; rfl

theorem GRun.cons (h : next rt env n (g.ctx k) x = pure (some s, x₁, g₁.ctx k))
    (hd : g₁.done = false) (hr : GRun rt env k g₁ x₁ l g' x') : GRun rt env k g x (s :: l) g' x' :=
  let ⟨g₂, x₂, hs, hend⟩ := hr
  ⟨g₂, x₂, .cons n h hd hs, hend⟩

/-- The leaf of peer `k` takes the stack in its slot. -/
theorem next_leaf_take (hd : g.done = false) (hs : g.slot k = some s) :
    next rt env 2 (g.ctx k) .leaf = pure (some s, .leaf, (g.take k).ctx k) := by
  rw [next_leaf_of_pull (pull_take hd (not_all_none hs)), hs]

/-- The leaf of peer `k`, whose slot is empty while another is full, answers null. -/
theorem next_leaf_stop (hd : g.done = false) (hs : g.slot k = none) (hj : g.slot j = some s)
    (htake : g.take k = g) : next rt env 2 (g.ctx k) .leaf = pure (none, .leaf, g.ctx k) := by
  rw [next_leaf_of_pull (pull_take hd (not_all_none hj)), hs, htake]

end Leaf

/-! ## Turns keep the invariant -/

section Turn

variable {K : Nat} {L : List Stack} {m it f : Nat} {g : Shared} {t : Stack}

/-- A turn of peer `it` that finds every slot empty: it pulls the upstream, and over a
non-empty rest receives the next stack and leaves its copies in the other slots; over an
empty rest it closes the group. -/
theorem refill_turn (hK : 2 ≤ K) (hlen : g.file.length = K) (hit : it < K) (hd : g.done = false)
    (hempty : ∀ k < K, g.slot k = none) (hrest : Yields rt env g.outer g.up (L.drop m)) :
    ∃ l g' m' f' t', GRun rt env it g .leaf l g' .leaf ∧ (∀ s ∈ l, s ∈ L) ∧
      MergeInv rt env K L m' g' ((it + 1) % K) f' t' ∧
      (∀ d t, mergeRounds K d it 0 t (L.drop m) =
        l.flatMap (d it) ++ mergeRounds K d ((it + 1) % K) f' t' (L.drop m')) ∧
      (g'.done = false → (L.length - m') * K + f' + 1 ≤ (L.length - m) * K) := by
  have hall := all_none_of_slots (hlen ▸ hempty)
  have hit' : (it + 1) % K < K := Nat.mod_lt _ (by omega)
  obtain ⟨c₂, o₂, hs, hend⟩ := hrest
  cases hL : L.drop m with
  | nil =>
    rw [hL] at hs
    cases hs
    obtain ⟨n, ⟨up', outer'⟩, hn⟩ := hend
    refine ⟨[], g.close up' outer', m, 0, .empty, ⟨g, .leaf, .nil _ _, n + 2,
      next_leaf_of_pull (pull_close hd hall hn)⟩, nofun, ⟨hlen, nofun,
      fun _ => List.drop_eq_nil_iff.1 hL, hit', by omega, fun k hk => ?_, fun _ => rfl, nofun⟩,
      fun _ _ => by rw [hL]; rfl, nofun⟩
    rw [show (g.close up' outer').slot k = none from hempty k hk, holds_zero hit']; rfl
  | cons t R =>
    rw [hL] at hs
    obtain _ | ⟨n, hn, hs'⟩ := hs
    rename_i outer' up'
    have hk' : (g.refill it t up' outer').slot ((it + 1) % K) = some t := by
      rw [Shared.slot_refill, hlen, if_neg (by rw [succ_mod_of_lt hit]; split_ifs <;> omega),
        if_pos hit']
    have hR : L.drop (m + 1) = R := by rw [← List.tail_drop, hL]; rfl
    have ht : t ∈ L := List.mem_of_mem_drop (hL ▸ List.mem_cons_self t R)
    refine ⟨[t], _, m + 1, K - 1, t, GRun.cons (n := n + 2)
      (next_leaf_of_pull (pull_refill hd hall hn (hlen ▸ hit))) rfl ⟨_, _, .nil _ _, 2,
        next_leaf_stop rfl (by rw [Shared.slot_refill, if_pos rfl]) hk' Shared.refill_take⟩,
      by simpa using ht, ⟨by simp [Shared.refill, hlen], fun _ => hR ▸ ⟨_, _, hs', hend⟩, nofun,
        hit', by omega, Cyclic.refill hlen hit, nofun, fun _ => ht⟩, fun d _ => ?_, fun _ => ?_⟩
    · rw [hR, mergeRounds_zero_cons, Nat.mod_eq_of_lt hit, List.flatMap_singleton]
    · have hlen' : L.length - m = R.length + 1 := by rw [← List.length_drop, hL]; rfl
      have : L.length - (m + 1) = R.length := by omega
      rw [hlen', this, Nat.succ_mul]
      omega

/-- **One turn of the merge's current branch keeps the invariant.** Its leaf takes its copy;
when that leaves every slot empty, or when every slot was empty, it refills the file from
the upstream. The schedule's remaining order advances by exactly the stacks the leaf
receives, and the measure drops unless the group is now done. -/
theorem MergeInv.turn (h : MergeInv rt env K L m g it f t) (hK : 2 ≤ K) (hd : g.done = false) :
    ∃ l g' m' f' t', GRun rt env it g .leaf l g' .leaf ∧ (∀ s ∈ l, s ∈ L) ∧
      MergeInv rt env K L m' g' ((it + 1) % K) f' t' ∧
      (∀ d, mergeRounds K d it f t (L.drop m) =
        l.flatMap (d it) ++ mergeRounds K d ((it + 1) % K) f' t' (L.drop m')) ∧
      (g'.done = false → (L.length - m') * K + f' < (L.length - m) * K + f) := by
  rcases Nat.lt_trichotomy f 1 with hf | rfl | hf
  · -- every slot is empty
    obtain rfl : f = 0 := by omega
    obtain ⟨l, g', m', f', t', hrun, hl, h', hrel, hμ⟩ :=
      refill_turn hK h.length h.index hd (h.cyclic.slot_none h.index) (h.rest hd)
    exact ⟨l, g', m', f', t', hrun, hl, h', fun d => hrel d t, fun hd' => by have := hμ hd'; omega⟩
  · -- the turn's slot holds the last copy
    obtain ⟨l, g', m', f', t', hrun, hl, h', hrel, hμ⟩ :=
      refill_turn (g := g.take it) hK (by simpa using h.length) h.index hd
        ((h.cyclic.take h.index h.full.le).slot_none (Nat.mod_lt _ (by omega))) (h.rest hd)
    refine ⟨t :: l, g', m', f', t', GRun.cons (next_leaf_take hd (h.cyclic.slot_turn h.index
      one_pos)) hd hrun, List.forall_mem_cons.2 ⟨h.fetched one_pos, hl⟩, h', fun d => ?_,
      fun hd' => by have := hμ hd'; omega⟩
    rw [mergeRounds_one, hrel d t, Nat.mod_eq_of_lt h.index, List.flatMap_cons, List.append_assoc]
  · -- another slot keeps its copy after the turn's peer takes its own
    have hcyc := h.cyclic.take h.index h.full.le
    have hit' : (it + 1) % K < K := Nat.mod_lt _ (by omega)
    have ht : (g.take it).slot ((it + 1) % K) = some t := by
      rw [hcyc _ hit', if_pos (by simp only [holds, decide_eq_true_eq]; omega)]
    refine ⟨[t], g.take it, m, f - 1, t, GRun.cons (next_leaf_take hd (h.cyclic.slot_turn
      h.index (by omega))) hd ⟨_, _, .nil _ _, 2, next_leaf_stop hd Shared.slot_take_self ht
      Shared.take_take⟩, by simpa using h.fetched (by omega), ⟨by simpa using h.length, h.rest,
      h.complete, hit', by have := h.full; omega, hcyc, fun hd' => by simp [hd] at hd',
      fun _ => h.fetched (by omega)⟩, fun d => ?_, fun _ => by omega⟩
    obtain ⟨f, rfl⟩ : ∃ f', f = f' + 1 := ⟨f - 1, by omega⟩
    rw [mergeRounds_succ (by omega), ← mergeRounds_mod (it + 1), Nat.mod_eq_of_lt h.index,
      Nat.add_sub_cancel, List.flatMap_singleton]

/-- A done merge has nothing left to yield. -/
theorem MergeInv.rounds_of_done (h : MergeInv rt env K L m g it f t) (hd : g.done = true)
    (d : Nat → Stack → List Stack) : mergeRounds K d it f t (L.drop m) = [] := by
  rw [h.closed hd, List.drop_eq_nil_iff.2 (h.complete hd)]; rfl

end Turn

/-! ## Interleavings -/

section Shuffle

variable {α : Type} {K : Nat} {ls ls' : Nat → List α} {out : List α}

theorem Shuffle.congr (h : Shuffle K ls out) (he : ∀ k < K, ls k = ls' k) : Shuffle K ls' out := by
  induction h generalizing ls' with
  | nil hnil => exact .nil fun k hk => he k hk ▸ hnil k hk
  | cons hk hl _ ih =>
    refine .cons hk (he _ hk ▸ hl) (ih fun j hj => ?_)
    dsimp only
    split_ifs
    · rfl
    · exact he j hj

/-- Stacks put in front of one list are put in front of the interleaving. -/
theorem Shuffle.append {k : Nat} (h : Shuffle K ls out) (hk : k < K) :
    ∀ p : List α, Shuffle K (fun j => if j = k then p ++ ls j else ls j) (p ++ out)
  | [] => h.congr fun j _ => by split_ifs with hj <;> simp [hj]
  | a :: p => .cons hk (if_pos rfl) ((Shuffle.append h hk p).congr fun j _ => by
      split_ifs with hj <;> simp [hj])

end Shuffle

/-! ## The schedule interleaves the branches' answers -/

section RoundsShuffle

variable {K : Nat} {d : Nat → Stack → List Stack} {it : Nat} {t : Stack}

/-- Putting the holders' answers on `t` in front, in turn order, keeps an interleaving. -/
theorem Shuffle.holders {ls : Nat → List Stack} {out : List Stack} (h : Shuffle K ls out)
    (hit : it < K) : ∀ f, f ≤ K →
      Shuffle K (fun k => (if holds K it f k then d k t else []) ++ ls k)
        ((List.range f).flatMap (fun j => d ((it + j) % K) t) ++ out)
  | 0, _ => h.congr fun k _ => by rw [holds_zero hit]; rfl
  | f + 1, hf => by
    have hi : (it + f) % K < K := Nat.mod_lt _ (by omega)
    rw [List.range_succ, List.flatMap_append, List.flatMap_singleton, List.append_assoc]
    refine (Shuffle.holders (h.append hi (d ((it + f) % K) t)) hit f (by omega)).congr
      fun k hk => ?_
    rw [holds_succ hit (by omega) hk]
    by_cases hki : k = (it + f) % K
    · subst hki
      have hnot : holds K it f ((it + f) % K) = false := by
        rw [add_mod_of_lt hit (by omega)]
        simp only [holds, decide_eq_false_iff_not]
        split_ifs <;> omega
      simp only [hnot, if_true, decide_True, Bool.or_true, Bool.false_eq_true, if_false,
        List.nil_append]
    · simp only [hki, if_false, decide_False, Bool.or_false]

/-- From turn `it`, with the `f` slots from `it` on holding `t` and `X` still to fetch, the
schedule interleaves, for each branch, its answers on its copy of `t`, if it holds one,
and then on every stack of `X`, in order. -/
theorem mergeRounds_shuffle (hK : 2 ≤ K) (X : List Stack) :
    ∀ {it f : Nat} (t : Stack), it < K → f < K →
      Shuffle K (fun k => (if holds K it f k then d k t else []) ++ X.flatMap (d k))
        (mergeRounds K d it f t X) := by
  induction X with
  | nil =>
    intro it f t hit hf
    rw [mergeRounds_split]
    exact Shuffle.holders (.nil fun _ _ => rfl) hit f hf.le
  | cons t' R ih =>
    intro it f t hit hf
    have hr : (it + (f - 1)) % K < K := Nat.mod_lt _ (by omega)
    rw [mergeRounds_split, mergeRounds_zero_cons,
      show (it + (f - 1) + 1) % K = ((it + (f - 1)) % K + 1) % K from (Nat.mod_add_mod _ _ _).symm]
    refine Shuffle.holders (((ih t' (Nat.mod_lt _ (by omega)) (show K - 1 < K by omega)).append
      hr (d ((it + (f - 1)) % K) t')).congr fun k hk => ?_) hit f hf.le
    rw [holds_round hr hk, List.flatMap_cons]
    by_cases hkr : k = (it + (f - 1)) % K
    · simp only [hkr, if_true, ne_eq, not_true_eq_false, decide_False, List.nil_append]
      rfl
    · simp only [hkr, if_false, ne_eq, not_false_eq_true, decide_True, if_true]

end RoundsShuffle

/-! ## The merge's runs -/

section Merge

variable {n : Nat} {g g' : Shared} {b x x' : Op} {bs : List Op} {it : Nat} {s : Stack}

theorem setBranch_length (b : Op) (bs : List Op) (k : Nat) (x : Op) :
    (setBranch b bs k x).2.length = bs.length := by
  cases k <;> simp [setBranch]

theorem setBranch_setBranch (b : Op) (bs : List Op) (k : Nat) (x y : Op) :
    setBranch (setBranch b bs k x).1 (setBranch b bs k x).2 k y = setBranch b bs k y := by
  cases k <;> simp [setBranch]

theorem branchAt_setBranch_self (hb : branchAt b bs k = some x) (y : Op) :
    branchAt (setBranch b bs k y).1 (setBranch b bs k y).2 k = some y := by
  cases k with
  | zero => rfl
  | succ k =>
    simp only [branchAt, setBranch] at hb ⊢
    rw [List.getElem?_set_self (List.getElem?_eq_some_iff.1 hb).1]

theorem branchAt_setBranch_ne {j k : Nat} (h : j ≠ k) (y : Op) :
    branchAt (setBranch b bs k y).1 (setBranch b bs k y).2 j = branchAt b bs j := by
  cases k <;> cases j
  · exact absurd rfl h
  all_goals simp only [branchAt, setBranch]
  exact List.getElem?_set_ne (by omega)

theorem next_merge_done (hd : g.done = true) :
    next rt env (n + 1) g.outer (g.merge b bs it) = pure (none, g.merge b bs it, g.outer) := by
  rw [Shared.merge, next, hd]; rfl

theorem next_merge_some (hd : g.done = false) (hb : branchAt b bs it = some x)
    (h : next rt env n (g.ctx it) x = pure (some s, x', g'.ctx it)) :
    next rt env (n + 1) g.outer (g.merge b bs it) =
      pure (some s, g'.merge (setBranch b bs it x').1 (setBranch b bs it x').2 it, g'.outer) := by
  rw [Shared.merge, next, hd]
  simp only [Bool.false_eq_true, if_false, hb]
  rw [show Shared.ctx g it = .group it g.file false g.up g.outer by rw [← hd]; rfl] at h
  simp only [h, pure_bind]; rfl

theorem next_merge_none (hd : g.done = false) (hb : branchAt b bs it = some x)
    (h : next rt env n (g.ctx it) x = pure (none, x', g'.ctx it)) :
    next rt env (n + 1) g.outer (g.merge b bs it) =
      next rt env n g'.outer
        (g'.merge (setBranch b bs it x').1 (setBranch b bs it x').2 ((it + 1) % (bs.length + 1))) := by
  rw [Shared.merge, next, hd]
  simp only [Bool.false_eq_true, if_false, hb]
  rw [show Shared.ctx g it = .group it g.file false g.up g.outer by rw [← hd]; rfl] at h
  simp only [h, pure_bind, setBranch_length]; rfl

/-- **One turn of the merge.** The merge answers what its current branch answers in a
turn, and when the branch answers null it goes on with the next branch. -/
theorem merge_turn (hd : g.done = false) (hb : branchAt b bs it = some x) {L l : List Stack}
    (hrun : GRun rt env it g x L g' x')
    (hl : Yields rt env g'.outer
      (g'.merge (setBranch b bs it x').1 (setBranch b bs it x').2 ((it + 1) % (bs.length + 1))) l) :
    Yields rt env g.outer (g.merge b bs it) (L ++ l) := by
  obtain ⟨g₁, x₁, hs, n, hn⟩ := hrun
  induction hs generalizing b bs with
  | nil => exact hl.of_step (N := n) fun m hm => next_merge_none hd hb ((next_mono hm _ _).eq_pure hn)
  | cons k hk hd₁ _ ih =>
    refine .cons ⟨k + 1, next_merge_some hd hb hk⟩ (ih hd₁ (branchAt_setBranch_self hb _) ?_ hn)
    rwa [setBranch_setBranch, setBranch_length]

end Merge

/-! ## Branch laws -/

section Laws

variable {k n : Nat} {g g₁ g' : Shared} {x x₁ x' y y' : Op} {l : List Stack}

/-- A branch whose calls answer as another's, in another group state, goes on as the
other's turn. -/
theorem GRun.of_answers (h : ∀ a, Answers rt env (g₁.ctx k) x₁ a → Answers rt env (g.ctx k) x a)
    (hr : GRun rt env k g₁ x₁ l g' x') : GRun rt env k g x l g' x' := by
  obtain ⟨g₂, x₂, hs, n, hn⟩ := hr
  cases hs with
  | nil =>
    obtain ⟨m, hm⟩ := h _ ⟨n, hn⟩
    exact ⟨g, x, .nil _ _, m, hm⟩
  | cons j hj hd hs =>
    obtain ⟨m, hm⟩ := h _ ⟨j, hj⟩
    exact ⟨g₂, x₂, .cons m hm hd hs, n, hn⟩

/-- The turns of peer `k` that end in `g'` and `x'` are resumed by calls from `g`, into a
group state `g₁` that is not done. -/
theorem GRun.resumes (hd : g₁.done = false) :
    Resumes rt env (fun o l => GRun rt env k g o l g' x') (fun o l => GRun rt env k g₁ o l g' x')
      (g.ctx k) (g₁.ctx k) :=
  ⟨GRun.of_answers, fun ⟨_, h⟩ hr => GRun.cons h hd hr⟩

/-- A bare leaf answers what it receives. -/
theorem branchLaw_leaf {Q : Stack → Prop} {d : Stack → List Stack} (hd : ∀ s, Q s → d s = [s])
    (k : Nat) : BranchLaw rt env k Q (· = .leaf) d := by
  rintro x rfl g l g' hQ hrun
  refine ⟨.leaf, rfl, ?_⟩
  rwa [List.flatMap_congr fun s hs => hd s (hQ s hs), List.flatMap_singleton']

/-- A branch answers, from each state of a branch law, what the law gives. -/
theorem BranchLaw.lawful {Q : Stack → Prop} {d : Stack → List Stack} :
    BranchLaw rt env k Q (fun x => ∃ S, S x ∧ BranchLaw rt env k Q S d) d := by
  rintro x ⟨S, hx, hS⟩ g l g' hQ hleaf
  obtain ⟨x', hx', hrun⟩ := hS x hx g l g' hQ hleaf
  exact ⟨x', ⟨S, hx', hS⟩, hrun⟩

section Wrap

variable {σ : Type} {W : Op → σ → Op} {Good : σ → Prop} {P : Stack → Prop}
  {D : Stack → List Stack}

/-- An operator that obeys its law, over the answers of a branch as a peer of the group,
answers `D` of each of them in the same turn, by induction on the branch's answers. -/
theorem SegmentLaw.grun (h : SegmentLaw rt env W Good P D) {ls : List Stack}
    (hs : GSteps rt env k g y ls g₁ y₁) (hn : next rt env n (g₁.ctx k) y₁ = pure (none, y', g'.ctx k)) :
    (∀ t ∈ ls, P t) → ∀ st, Good st →
      ∃ st', Good st' ∧ GRun rt env k g (W y st) (ls.flatMap D) g' (W y' st') := by
  induction hs with
  | nil =>
    intro _ st hst
    obtain ⟨st', hst', m, hm⟩ := h.null hst ⟨n, hn⟩
    exact ⟨st', hst', _, _, .nil _ _, m, hm⟩
  | cons m hm hd _ ih =>
    intro hP st hst
    obtain ⟨st₂, hst₂, hseg⟩ := h.seg hst (hP _ (List.mem_cons_self _ _)) ⟨m, hm⟩
    obtain ⟨st', hst', hrun⟩ := ih hn (fun t ht => hP t (List.mem_cons_of_mem _ ht)) st₂ hst₂
    exact ⟨st', hst', hseg _ _ (GRun.resumes hd) (GRun.resumes hd) _ hrun⟩

/-- **An operator over a branch that obeys a branch law obeys one.** The operator's
answers on each stack the branch answers follow in the same turn, so over a turn in which
the leaf receives `l`, it answers `D` of each of `d` of each stack of `l`. -/
theorem SegmentLaw.branchLaw (h : SegmentLaw rt env W Good P D) {Q : Stack → Prop}
    {S : Op → Prop} {d : Stack → List Stack} (hb : BranchLaw rt env k Q S d)
    (hP : ∀ s, Q s → ∀ t ∈ d s, P t) :
    BranchLaw rt env k Q (Wraps S W Good) fun s => (d s).flatMap D := by
  rintro _ ⟨y, st, rfl, hy, hst⟩ g l g' hQ hleaf
  obtain ⟨y', hy', g₁, y₁, hs, n, hn⟩ := hb y hy g l g' hQ hleaf
  obtain ⟨st', hst', hrun⟩ := h.grun hs hn (fun t ht => by
    obtain ⟨s, hs, ht⟩ := List.mem_flatMap.1 ht
    exact hP s (hQ s hs) t ht) st hst
  exact ⟨W y' st', ⟨y', st', rfl, hy', hst'⟩, by rwa [← List.flatMap_assoc]⟩

end Wrap

end Laws

/-! ## Whole runs -/

section Run

variable {K : Nat} {L : List Stack} {Q : Stack → Prop} {S : Nat → Op → Prop}
  {d : Nat → Stack → List Stack} {m it f : Nat} {g : Shared} {t : Stack}

/-- A done merge answers null at once. -/
theorem MergeInv.done_yields (h : MergeInv rt env K L m g it f t) (hd : g.done = true) (b : Op)
    (bs : List Op) : Yields rt env g.outer (g.merge b bs it) (mergeRounds K d it f t (L.drop m)) := by
  rw [h.rounds_of_done hd]; exact .nil ⟨1, next_merge_done hd⟩

/-- **The merge follows its schedule.** From every merge state whose branches obey their
laws, the merge yields what the schedule gives and then null; by induction on the measure
its turns lower. -/
theorem merge_run (hK : 2 ≤ K) (hlaw : ∀ k < K, BranchLaw rt env k Q (S k) (d k))
    (hQ : ∀ s ∈ L, Q s) :
    ∀ N m g it f t (b : Op) (bs : List Op), (L.length - m) * K + f < N →
      MergeInv rt env K L m g it f t → bs.length + 1 = K →
      (∀ k < K, ∃ x, branchAt b bs k = some x ∧ S k x) →
      Yields rt env g.outer (g.merge b bs it) (mergeRounds K d it f t (L.drop m))
  | 0, _, _, _, _, _, _, _, hN, _, _, _ => absurd hN (Nat.not_lt_zero _)
  | N + 1, m, g, it, f, t, b, bs, hN, h, hlen, hS => by
    cases hd : g.done with
    | true => exact h.done_yields hd b bs
    | false =>
      obtain ⟨l, g', m', f', t', hleaf, hl, h', hrel, hμ⟩ := h.turn hK hd
      obtain ⟨x, hx, hSx⟩ := hS it h.index
      obtain ⟨x', hSx', hrun⟩ := hlaw it h.index x hSx g l g' (fun s hs => hQ s (hl s hs)) hleaf
      have hS' : ∀ k < K, ∃ y, branchAt (setBranch b bs it x').1 (setBranch b bs it x').2 k =
          some y ∧ S k y := fun k hk => by
        by_cases hki : k = it
        · subst hki; exact ⟨x', branchAt_setBranch_self hx x', hSx'⟩
        · rw [branchAt_setBranch_ne hki]; exact hS k hk
      have hy : Yields rt env g'.outer
          (g'.merge (setBranch b bs it x').1 (setBranch b bs it x').2 ((it + 1) % K))
          (mergeRounds K d ((it + 1) % K) f' t' (L.drop m')) := by
        cases hd' : g'.done with
        | true => exact h'.done_yields hd' _ _
        | false =>
          exact merge_run hK hlaw hQ N m' g' _ f' t' _ _ (by have := hμ hd'; omega) h'
            (by rw [setBranch_length, hlen]) hS'
      rw [hrel d]
      exact merge_turn hd hx hrun (by rwa [hlen])

/-- A fresh merge over an upstream that yields `L`: nothing fetched, no slot full. -/
theorem mergeInv_init (hK : 2 ≤ K) {c : Ctx} {u : Op} (hu : Yields rt env c u L) (t : Stack) :
    MergeInv rt env K L 0 ⟨List.replicate K none, false, u, c⟩ 0 0 t :=
  ⟨List.length_replicate _ _, fun _ => hu, nofun, by omega, by omega, fun k hk => by
    rw [holds_zero (by omega)]
    simp only [Shared.slot, List.getElem?_replicate, if_pos hk]
    rfl, nofun, nofun⟩

end Run

/-- **A flat `Merge` yields every result of every branch.** Take a merge over `K ≥ 2`
branches, fresh (empty slots, not done, at its first branch), whose branches each obey a
branch law on the stacks that satisfy `Q`, over an upstream that yields `L`, all of whose
stacks satisfy `Q`, and then null. The merge yields a shuffle of
the `K` lists `L.flatMap (d k)` and then null: each branch receives every stack of `L`
once and in order, and the merge passes on each of its answers, in the branch's order,
none lost and none repeated. -/
theorem merge_interleaves {b : Op} {bs : List Op} (hbs : bs ≠ []) {Q : Stack → Prop}
    {S : Nat → Op → Prop} {d : Nat → Stack → List Stack}
    (hlaw : ∀ k < bs.length + 1, BranchLaw rt env k Q (S k) (d k))
    (hS : ∀ k < bs.length + 1, ∃ x, branchAt b bs k = some x ∧ S k x)
    {c : Ctx} {u : Op} {L : List Stack} (hu : Yields rt env c u L) (hQ : ∀ s ∈ L, Q s) :
    ∃ out, Yields rt env c (.merge u (List.replicate (bs.length + 1) none) false b bs 0) out ∧
      Shuffle (bs.length + 1) (fun k => L.flatMap (d k)) out := by
  have hK : 2 ≤ bs.length + 1 := by have := List.length_pos.2 hbs; omega
  refine ⟨_, merge_run hK hlaw hQ _ 0 _ 0 0 .empty b bs (Nat.lt_succ_self _)
    (mergeInv_init hK hu .empty) rfl hS, ?_⟩
  exact (mergeRounds_shuffle hK L .empty (by omega) (by omega)).congr fun k _ => by
    rw [holds_zero (by omega)]; rfl

/-- **A fresh `Merge` yields its branches' answers in the order of its schedule.** Take a
merge over `K ≥ 2` branches, fresh, whose branches each obey a branch law on the stacks
that satisfy `Q`, over an upstream that yields `L`, all of whose stacks satisfy `Q`, and
then null. It yields exactly `mergeOrder K d L` and then
null. It does not take one result from each branch in turn: it passes on all of a
branch's answers over that branch's turn. On a single upstream stack this gives every
branch's answers in branch order (`mergeOrder_singleton`); over several stacks the turns
zig-zag, the branch that takes the last copy of a stack going on at once with the next
stack. -/
theorem merge_yields_order {b : Op} {bs : List Op} (hbs : bs ≠ []) {Q : Stack → Prop}
    {S : Nat → Op → Prop} {d : Nat → Stack → List Stack}
    (hlaw : ∀ k < bs.length + 1, BranchLaw rt env k Q (S k) (d k))
    (hS : ∀ k < bs.length + 1, ∃ x, branchAt b bs k = some x ∧ S k x)
    {c : Ctx} {u : Op} {L : List Stack} (hu : Yields rt env c u L) (hQ : ∀ s ∈ L, Q s) :
    Yields rt env c (.merge u (List.replicate (bs.length + 1) none) false b bs 0)
      (mergeOrder (bs.length + 1) d L) := by
  have hK : 2 ≤ bs.length + 1 := by have := List.length_pos.2 hbs; omega
  rw [mergeOrder_eq hK .empty]
  exact merge_run hK hlaw hQ _ 0 _ 0 0 .empty b bs (Nat.lt_succ_self _)
    (mergeInv_init hK hu .empty) rfl hS

/-- `(1, 2, 3)`: three stacks for each upstream stack, from a flat group. -/
def oneTwoThree : Op :=
  .merge .leaf [none, none, none] false (.const .leaf (.cst ⟨1, 0⟩ 0))
    [.const .leaf (.cst ⟨2, 0⟩ 0), .const .leaf (.cst ⟨3, 0⟩ 0)] 0

/-- `(1, 2, 3)` over the empty stack yields the stacks holding `1`, `2` and `3`, in this
order. -/
theorem merge_yields_order_oneTwoThree :
    Yields Runtime.demo Env.demo (.origin (.primed .empty)) oneTwoThree
      [Stack.empty.push Runtime.demo (.cst ⟨1, 0⟩ 0), Stack.empty.push Runtime.demo (.cst ⟨2, 0⟩ 0),
        Stack.empty.push Runtime.demo (.cst ⟨3, 0⟩ 0)] := by
  have hu : Yields Runtime.demo Env.demo (.origin (.primed .empty)) .leaf [.empty] :=
    .cons ⟨2, rfl⟩ (.nil ⟨2, rfl⟩)
  have h := @merge_yields_order Runtime.demo Env.demo (.const .leaf (.cst ⟨1, 0⟩ 0))
    [.const .leaf (.cst ⟨2, 0⟩ 0), .const .leaf (.cst ⟨3, 0⟩ 0)] (List.cons_ne_nil _ _)
    (fun _ => True) (fun k => Wraps (· = .leaf) (fun u (_ : Unit) => .const u (.cst ⟨k + 1, 0⟩ 0))
      fun _ => True) _
    (fun k _ => (segmentLaw_const _).branchLaw (branchLaw_leaf (d := fun s => [s]) (fun _ _ => rfl) k)
      fun _ _ _ _ => trivial) (by
      intro k hk
      rcases k with _ | _ | _ | k
      all_goals first | exact ⟨_, rfl, .leaf, (), rfl, rfl, trivial⟩ | simp at hk; omega)
    _ _ _ hu fun _ _ => trivial
  exact h

/-- `(1, 2, 3)` over the empty stack: its branches push `1`, `2` and `3`, and the merge
yields the three stacks in an interleaving, then null. -/
theorem merge_interleaves_oneTwoThree :
    ∃ out, Yields Runtime.demo Env.demo (.origin (.primed .empty)) oneTwoThree out ∧
      Shuffle 3 (fun k => [Stack.empty].flatMap fun s =>
        [s].flatMap (Den.const Runtime.demo (.cst ⟨k + 1, 0⟩ 0))) out :=
  have hu : Yields Runtime.demo Env.demo (.origin (.primed .empty)) .leaf [.empty] :=
    .cons ⟨2, rfl⟩ (.nil ⟨2, rfl⟩)
  @merge_interleaves Runtime.demo Env.demo (.const .leaf (.cst ⟨1, 0⟩ 0))
    [.const .leaf (.cst ⟨2, 0⟩ 0), .const .leaf (.cst ⟨3, 0⟩ 0)] (List.cons_ne_nil _ _)
    (fun _ => True) (fun k => Wraps (· = .leaf) (fun u (_ : Unit) => .const u (.cst ⟨k + 1, 0⟩ 0))
      fun _ => True) _
    (fun k _ => (segmentLaw_const _).branchLaw (branchLaw_leaf (d := fun s => [s]) (fun _ _ => rfl) k)
      fun _ _ _ _ => trivial) (by
      intro k hk
      rcases k with _ | _ | _ | k
      all_goals first | exact ⟨_, rfl, .leaf, (), rfl, rfl, trivial⟩ | simp at hk; omega)
    _ _ _ hu fun _ _ => trivial

end Dwgrep
