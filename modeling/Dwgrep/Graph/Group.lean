import Dwgrep.Graph.Law

/-!
# A flat Tine group hands every stack to every peer once

The peers of a Tine group share a slot file, a done flag and their upstream
(`op_tine::next`). A peer takes its own slot; when every slot is empty, the peer that
asks first pulls the next stack from the upstream and fills all the slots with copies of
it, and when the upstream answers null it sets the done flag for good.

`Merge` asks its branches in one order, but nothing here depends on that order: under
any interleaving of the peers' calls, each peer receives the upstream's stacks in order,
none twice and none lost. Everything the group has fetched either has reached the peer
or waits in its slot, and once the group is done every peer has all of the upstream's
run (`tine_group_delivers`). The group reads the upstream's first null as its end; a
nested group, whose upstream is itself a Tine that answers null while a sibling's slot is
full, loses what comes after (`nested_tines_lose_results_and_hang`).

* `Shared`, `Pulls` — the state the peers share, and a run of calls by any schedule of
  peers with what each peer receives;
* `GroupInv` — the invariant of the slot file, with `groupInv_init` and the step lemma
  `GroupInv.pull`, lifted to every run by `GroupInv.pulls`;
* `nestedGroups` — `(1, 2, 3) ("a", ("b", "c"))`, run to the state `nestedGroupsStuck`
  in which the outer `Merge` calls its branches round and round.
-/

namespace Dwgrep

/-- What the peers of a Tine group share: the slot file, the done flag, and the shared
upstream with its context. -/
structure Shared where
  file : List (Option Stack)
  done : Bool
  up : Op
  outer : Ctx

/-- The context of peer `k`. -/
def Shared.ctx (g : Shared) (k : Nat) : Ctx := .group k g.file g.done g.up g.outer

/-- The stack in peer `j`'s slot, if any. -/
def Shared.slot (g : Shared) (j : Nat) : Option Stack := g.file[j]?.join

section Runs

variable (rt : Runtime) (env : Env)

/-- Peer `k` pulls from the shared state `g`, receives `r`, and leaves `g'`, given enough
fuel. -/
def PullAnswers (g : Shared) (k : Nat) (r : Option Stack) (g' : Shared) : Prop :=
  ∃ n, pull rt env n (g.ctx k) = pure (r, g'.ctx k)

/-- `Pulls g ks got g'`: from `g`, the peers `ks` pull one after the other; peer `j`
receives the stacks `got j`, and the group ends in `g'`. -/
inductive Pulls : Shared → List Nat → (Nat → List Stack) → Shared → Prop
  | nil (g : Shared) : Pulls g [] (fun _ => []) g
  | cons {g k r g₁ ks got g'} : PullAnswers rt env g k r g₁ → Pulls g₁ ks got g' →
      Pulls g (k :: ks) (fun j => (if j = k then r.toList else []) ++ got j) g'

/-- The invariant of a group over an upstream whose run is `L`, after it has fetched
`fetched` and peer `j` has received `got j`. -/
structure GroupInv (K : Nat) (L fetched : List Stack) (got : Nat → List Stack) (g : Shared) :
    Prop where
  /-- One slot per peer. -/
  length : g.file.length = K
  /-- The group fetches the upstream's run in order. -/
  ordered : fetched <+: L
  /-- Until it is done, the upstream yields the rest of its run. -/
  rest : g.done = false → Yields rt env g.outer g.up (L.drop fetched.length)
  /-- The group is done only once it has fetched the whole run. -/
  complete : g.done = true → fetched = L
  /-- Each peer has received what the group fetched, but for what waits in its slot. -/
  delivered : ∀ j < K, got j ++ (g.slot j).toList = fetched

end Runs

variable {rt : Runtime} {env : Env}

/-! ## The upstream's answers -/

section Answers

variable {n : Nat} {c c' : Ctx} {o o' : Op} {r : Option Stack} {s : Stack} {l : List Stack}

theorem Yields.answer_cons (h : Yields rt env c o (s :: l)) (hn : next rt env n c o = pure (r, o', c')) :
    r = some s ∧ Yields rt env c' o' l := by
  obtain ⟨c₂, o₂, hs, hend⟩ := h
  cases hs with
  | cons m hm hs =>
    cases next_det hm hn
    exact ⟨rfl, _, _, hs, hend⟩

theorem Yields.answer_nil (h : Yields rt env c o []) (hn : next rt env n c o = pure (r, o', c')) :
    r = none := by
  obtain ⟨c₂, o₂, hs, m, a, hm⟩ := h
  cases hs
  exact (congrArg Prod.fst (next_det hm hn)).symm

end Answers

/-! ## The slot file -/

section File

variable {file : List (Option Stack)} {j k : Nat} {s : Stack}

theorem slot_of_all_none (h : file.all Option.isNone = true) (j : Nat) : file[j]?.join = none := by
  cases hj : file[j]? with
  | none => rfl
  | some x =>
    have := List.all_eq_true.1 h x (List.getElem?_mem hj)
    simpa using this

theorem slot_refill (k : Nat) :
    ((file.map fun _ => some s).set k none)[j]?.join =
      if j = k then none else if j < file.length then some s else none := by
  rw [List.getElem?_set, List.getElem?_map]
  split_ifs <;> simp_all [List.getElem?_eq_none]

theorem slot_refill_self (hk : k < file.length) : (file.map fun _ => some s)[k]?.join = some s := by
  rw [List.getElem?_map, List.getElem?_eq_getElem hk]; rfl

theorem slot_take (h : j ≠ k) : (file.set k none)[j]?.join = file[j]?.join := by
  rw [List.getElem?_set_ne (Ne.symm h)]

theorem slot_take_self : (file.set k none)[k]?.join = none := by
  rw [List.getElem?_set, if_pos rfl]; split_ifs <;> rfl

end File

/-! ## The invariant -/

section Invariant

variable {K : Nat} {L fetched : List Stack} {got : Nat → List Stack} {g g₁ : Shared}

theorem groupInv_init {up : Op} {outer : Ctx} (hL : Yields rt env outer up L) :
    GroupInv rt env K L [] (fun _ => []) ⟨List.replicate K none, false, up, outer⟩ where
  length := List.length_replicate _ _
  ordered := List.nil_prefix
  rest := fun _ => hL
  complete := nofun
  delivered := fun j hj => by simp only [Shared.slot, List.getElem?_replicate, if_pos hj]; rfl

/-- **One call of a peer keeps the invariant.** Peer `k` receives what its slot held, or,
when every slot is empty, the next stack of the upstream's run, whose copies then wait in
the other peers' slots. -/
theorem GroupInv.pull {k : Nat} {r : Option Stack} (h : GroupInv rt env K L fetched got g)
    (hk : k < K) (hp : PullAnswers rt env g k r g₁) :
    ∃ fetched₁, GroupInv rt env K L fetched₁ (fun j => got j ++ if j = k then r.toList else []) g₁ := by
  obtain ⟨file, done, up, outer⟩ := g
  obtain ⟨file₁, done₁, up₁, outer₁⟩ := g₁
  obtain ⟨_ | n, hp⟩ := hp
  · exact nomatch hp
  simp only [Shared.ctx] at hp
  rw [Dwgrep.pull] at hp
  cases done with
  | true =>
    cases Res.pure_inj hp
    exact ⟨fetched, h.length, h.ordered, nofun, h.complete, fun j hj => by simpa using h.delivered j hj⟩
  | false =>
    simp only [Bool.false_eq_true, if_false] at hp
    split_ifs at hp with hall
    · have hempty : ∀ j < K, got j = fetched := fun j hj => by
        simpa only [Shared.slot, slot_of_all_none hall, Option.toList_none, List.append_nil]
          using h.delivered j hj
      obtain ⟨⟨r₁, up₁, outer₁⟩, hn, hp⟩ := Res.bind_eq_pure hp
      obtain ⟨L', hL'⟩ := h.ordered
      have hrest := h.rest rfl
      rw [← hL', List.drop_left] at hrest
      cases L' with
      | nil =>
        cases hrest.answer_nil hn
        cases Res.pure_inj hp
        refine ⟨fetched, h.length, h.ordered, nofun, fun _ => by simpa using hL',
          fun j hj => ?_⟩
        simpa only [Shared.slot, slot_of_all_none hall, Option.toList_none, List.append_nil,
          ite_self] using hempty j hj
      | cons s L' =>
        obtain ⟨rfl, hrest'⟩ := hrest.answer_cons hn
        cases Res.pure_inj hp
        refine ⟨fetched ++ [s], by simpa using h.length, ⟨L', by simpa using hL'⟩,
          fun _ => ?_, nofun, fun j hj => ?_⟩
        · rw [← hL', List.length_append, List.length_singleton, ← List.drop_drop,
            List.drop_left, List.drop_one]
          exact hrest'
        · have hslot : ((file.map fun _ => some s).set k none)[j]?.join =
              if j = k then none else some s := by
            rw [slot_refill, h.length, if_pos hj]
          simp only [Shared.slot, hslot, hempty j hj]
          by_cases hjk : j = k
          · subst hjk
            simp only [if_true, slot_refill_self (h.length ▸ hj), Option.toList_some,
              Option.toList_none, List.append_nil]
          · simp only [hjk, if_false, Option.toList_some, List.append_nil]
    · cases Res.pure_inj hp
      refine ⟨fetched, by simpa using h.length, h.ordered, fun _ => h.rest rfl, nofun, fun j hj => ?_⟩
      have hd := h.delivered j hj
      simp only [Shared.slot] at hd ⊢
      by_cases hjk : j = k
      · subst hjk
        simpa only [if_true, slot_take_self, Option.toList_none, List.append_nil] using hd
      · simpa only [hjk, if_false, slot_take hjk, List.append_nil] using hd

/-- The invariant holds along every run of the peers, whatever their order. -/
theorem GroupInv.pulls {ks : List Nat} {got' : Nat → List Stack} {g' : Shared}
    (h : GroupInv rt env K L fetched got g) (hks : ∀ k ∈ ks, k < K)
    (hr : Pulls rt env g ks got' g') :
    ∃ fetched', GroupInv rt env K L fetched' (fun j => got j ++ got' j) g' := by
  induction hr generalizing fetched got with
  | nil => exact ⟨fetched, by simpa using h⟩
  | cons hp _ ih =>
    obtain ⟨fetched₁, h₁⟩ := h.pull (hks _ (List.mem_cons_self _ _)) hp
    obtain ⟨fetched', h'⟩ := ih h₁ fun k hk => hks k (List.mem_cons_of_mem _ hk)
    exact ⟨fetched', by simpa only [List.append_assoc] using h'⟩

end Invariant

/-- **A flat Tine group delivers every stack to every peer once.** Take a group of `K`
peers over an upstream that yields `L` and then null, starting with empty slots, and let
the peers call in any order. Then the group has fetched a prefix of `L`, all of `L` once
it is done, and each peer has received exactly what was fetched, but for the last stack
when that still waits in its slot: in order, none twice, none lost. -/
theorem tine_group_delivers {K : Nat} {L : List Stack} {up : Op} {outer : Ctx}
    (hL : Yields rt env outer up L) {ks : List Nat} (hks : ∀ k ∈ ks, k < K)
    {got : Nat → List Stack} {g : Shared}
    (h : Pulls rt env ⟨List.replicate K none, false, up, outer⟩ ks got g) :
    ∃ fetched, fetched <+: L ∧ (g.done = true → fetched = L) ∧
      ∀ j < K, got j ++ (g.slot j).toList = fetched := by
  obtain ⟨fetched, hinv⟩ := (groupInv_init (K := K) hL).pulls hks h
  exact ⟨fetched, hinv.ordered, hinv.complete, fun j hj => by simpa using hinv.delivered j hj⟩

/-- Two peers over a bare origin primed with the empty stack: the first peer fetches the
stack and receives it, the second receives its copy, and the second's next call finds
the origin spent and closes the group. -/
theorem tine_group_delivers_two_peers :
    ∃ got g, Yields Runtime.demo Env.demo (.origin (.primed .empty)) .leaf [.empty] ∧
      (∀ k ∈ [0, 1, 1], k < 2) ∧
      Pulls Runtime.demo Env.demo ⟨List.replicate 2 none, false, .leaf, .origin (.primed .empty)⟩
        [0, 1, 1] got g ∧
      ∃ fetched, fetched <+: [Stack.empty] ∧ (g.done = true → fetched = [.empty]) ∧
        ∀ j < 2, got j ++ (g.slot j).toList = fetched :=
  have hL : Yields Runtime.demo Env.demo (.origin (.primed .empty)) .leaf [.empty] :=
    .cons ⟨2, rfl⟩ (.nil ⟨2, rfl⟩)
  have hks : ∀ k ∈ [0, 1, 1], k < 2 := by decide
  have hp : Pulls Runtime.demo Env.demo ⟨List.replicate 2 none, false, .leaf, .origin (.primed .empty)⟩
      [0, 1, 1] _ ⟨[none, none], true, .leaf, .origin ⟨none, false⟩⟩ :=
    .cons (show PullAnswers Runtime.demo Env.demo _ 0 (some .empty)
        ⟨[none, some .empty], false, .leaf, .origin ⟨none, false⟩⟩ from ⟨3, rfl⟩)
      (.cons (show PullAnswers Runtime.demo Env.demo _ 1 (some .empty)
          ⟨[none, none], false, .leaf, .origin ⟨none, false⟩⟩ from ⟨1, rfl⟩)
        (.cons (show PullAnswers Runtime.demo Env.demo _ 1 none
            ⟨[none, none], true, .leaf, .origin ⟨none, false⟩⟩ from ⟨3, rfl⟩) (.nil _)))
  ⟨_, _, hL, hks, hp, tine_group_delivers hL hks hp⟩

/-! ## Nested groups

A peer whose slot is empty while another peer's slot is still full gets null
(`op_tine::next` returns `std::move ((*m_file)[m_branch_id])`). In a flat group that null
only hands the turn to the next branch of the `Merge`. When the group is nested in a
branch of another one, the inner Tines pull from an outer Tine, and the null an outer
Tine returns because its sibling has not taken its copy yet reaches an inner Tine as if
its upstream were exhausted: it sets the inner done flag for good. The outer slot of that
branch is then never taken, the outer file never empties, and the outer `Merge` cycles
through branches that all return null. -/

section Nested

variable (rt : Runtime) (env : Env)

/-- `(1, 2, 3) ("a", ("b", "c"))`: a group nested in the second branch of another. -/
def nestedGroups : Op :=
  .merge (.merge .leaf [none, none, none] false (.const .leaf (.cst ⟨1, 0⟩ 0))
      [.const .leaf (.cst ⟨2, 0⟩ 0), .const .leaf (.cst ⟨3, 0⟩ 0)] 0)
    [none, none] false (.const .leaf (.str "a" 0))
    [.merge .leaf [none, none] false (.const .leaf (.str "b" 0)) [.const .leaf (.str "c" 0)] 0] 0

/-- The state `nestedGroups` is in after its seventh result: the inner group is done,
and the outer file still holds the copy of the third upstream stack that its second
branch never takes. -/
def nestedGroupsStuck : Op :=
  .merge (.merge .leaf [none, none, none] false (.const .leaf (.cst ⟨1, 0⟩ 0))
      [.const .leaf (.cst ⟨2, 0⟩ 0), .const .leaf (.cst ⟨3, 0⟩ 0)] 2)
    [none, some (Stack.empty.push rt (.cst ⟨3, 0⟩ 0))] false (.const .leaf (.str "a" 0))
    [.merge .leaf [none, none] true (.const .leaf (.str "b" 0)) [.const .leaf (.str "c" 0)] 1] 0

/-- One round of the outer `Merge` in the stuck state: its first branch gets null from
its empty slot, the done inner group returns null, and the state comes back. -/
theorem next_nestedGroupsStuck_cycle (m : Nat) :
    next rt env (m + 4) (.origin ⟨none, false⟩) (nestedGroupsStuck rt) =
      next rt env (m + 2) (.origin ⟨none, false⟩) (nestedGroupsStuck rt) :=
  rfl

/-- In the stuck state `next ()` never returns, whatever the fuel. -/
theorem next_nestedGroupsStuck : ∀ n,
    next rt env n (.origin ⟨none, false⟩) (nestedGroupsStuck rt) = Res.stop
  | 0 | 1 | 2 | 3 => rfl
  | m + 4 => (next_nestedGroupsStuck_cycle rt env m).trans (next_nestedGroupsStuck (m + 2))

/-- The stack `nestedGroups` yields for the upstream stack `[k]` in the branch that
pushes `t`. -/
def nestedResult (k : Int) (t : String) : Stack :=
  (Stack.empty.push Runtime.demo (.cst ⟨k, 0⟩ 0)).push Runtime.demo (.str t 0)

/-- Over the three upstream stacks of `(1, 2, 3)`, `("a", ("b", "c"))` yields seven of
its nine results, `b` and `c` never receive the third stack, and the eighth call of
`next ()` never returns. -/
theorem nested_tines_lose_results_and_hang :
    ∃ c o, Steps Runtime.demo env (.origin (.primed .empty)) nestedGroups
        [nestedResult 1 "a", nestedResult 1 "b", nestedResult 1 "c", nestedResult 2 "c",
          nestedResult 2 "b", nestedResult 2 "a", nestedResult 3 "a"] c o ∧
      ∀ n, next Runtime.demo env n c o = Res.stop :=
  ⟨_, nestedGroupsStuck Runtime.demo, .cons 40 rfl (.cons 40 rfl (.cons 40 rfl (.cons 40 rfl
    (.cons 40 rfl (.cons 40 rfl (.cons 40 rfl (.nil _ _))))))),
    next_nestedGroupsStuck Runtime.demo env⟩

end Nested

end Dwgrep
