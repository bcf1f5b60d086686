import Dwgrep.Graph.Merge
import Dwgrep.Graph.Query
import Mathlib.Data.List.GetD

/-!
# A `Merge` of queries yields their list semantics in the order of its schedule

`Merge.lean` follows a merge whose branches each obey a branch law. Every query of the
lazy fragment, built over the leaf of a peer of a Tine group, obeys one: each of its
operators answers, in the same turn, what it makes of each stack its upstream answers, so
over a turn in which the leaf receives `l` the query answers its semantics on each stack
of `l`. The side conditions of the query (`Query.Ok`) need to hold only on the stacks
that satisfy `Q`, the ones the merge's upstream yields.

* `Query.branchLaw` — **every query of the fragment obeys a branch law** with its list
  semantics, over any upstream that obeys one;
* `merge_queries_yield_order` — **a fresh `Merge` of queries over an upstream that yields
  `L` yields `mergeOrder` of the queries' semantics over `L`**, and then null.

Proof shape: each operator's `SegmentLaw` is stated once for every pair of run
predicates it resumes, and `SegmentLaw.branchLaw` instantiates it with the turns of a
peer; `Query.branchLaw` is then an induction on the query that composes those laws, as
`Query.lawOn` composes the reset laws.
-/

namespace Dwgrep

variable {rt : Runtime} {env : Env} {k : Nat} {Q : Stack → Prop}

/-- **Every query of the fragment obeys a branch law.** Over upstream states `S` of peer
`k` that obey a branch law with `d` on the stacks `Q`, the graph of a query whose side
conditions hold over `d'`, which agrees with `d` on `Q`, lies in a set of states that
obeys a branch law with `d` followed by the query's semantics. -/
theorem Query.branchLaw : ∀ (q : Query) {S : Op → Prop} {d d' : Stack → List Stack},
    q.Ok rt d' → (∀ s, Q s → d s = d' s) → BranchLaw rt env k Q S d →
      ∃ S' : Op → Prop, (∀ u, S u → S' (q.build u)) ∧
        BranchLaw rt env k Q S' fun s => (d s).flatMap (q.den rt)
  | .nop, _, _, _, _, _, hb => ⟨_, fun u hu => ⟨u, (), rfl, hu, trivial⟩,
    segmentLaw_nop.branchLaw hb fun _ _ _ _ => trivial⟩
  | .cat a b, _, _, _, ⟨ha, hb'⟩, hdd, hb => by
    obtain ⟨Sa, hSa, hla⟩ := a.branchLaw ha hdd hb
    obtain ⟨Sb, hSb, hlb⟩ := b.branchLaw hb' (fun s hs => by rw [hdd s hs]) hla
    refine ⟨Sb, fun u hu => hSb _ (hSa u hu), ?_⟩
    simpa only [Query.den, List.flatMap_assoc] using hlb
  | .const v, _, _, _, _, _, hb => ⟨_, fun u hu => ⟨u, (), rfl, hu, trivial⟩,
    (segmentLaw_const v).branchLaw hb fun _ _ _ _ => trivial⟩
  | .capture x, _, _, _, ⟨hx, htop⟩, hdd, hb => ⟨_, fun u hu => ⟨u, (.init, _), rfl, hu, .base⟩,
    (segmentLaw_capture (x.resetLaw hx)).branchLaw hb fun s hs t ht => htop s t (hdd s hs ▸ ht)⟩
  | .subx x keep, _, _, _, ⟨hx, hkeep⟩, hdd, hb => ⟨_, fun u hu => ⟨u, (.init, _), rfl, hu, .base⟩,
    (segmentLaw_subx (x.resetLaw hx) keep).branchLaw hb fun s hs t ht => hkeep s t (hdd s hs ▸ ht)⟩
  | .alt a b, _, _, _, ⟨ha, hb'⟩, _, hb => ⟨_, fun u hu => ⟨u, _, rfl, hu,
      .cons ⟨_, a.resetLaw ha, .base⟩ (.cons ⟨_, b.resetLaw hb', .base⟩ .nil)⟩,
    segmentLaw_or.branchLaw hb fun _ _ _ _ => trivial⟩
  | .ifelse c t e, _, _, _, ⟨hc, ht, he⟩, _, hb => ⟨_, fun u hu =>
      ⟨u, ((.init, c.build .leaf), (.init, t.build .leaf), (.init, e.build .leaf)), rfl, hu, .base,
        .base, .base⟩,
    (segmentLaw_ifelse (c.resetLaw hc) (t.resetLaw ht) (e.resetLaw he)).branchLaw hb
      fun _ _ _ _ => trivial⟩
  | .elem fwd, _, _, _, hne, hdd, hb => ⟨_, fun u hu => ⟨u, (), rfl, hu, trivial⟩,
    (segmentLaw_elem fwd).branchLaw hb fun s hs t ht => hne s t (hdd s hs ▸ ht)⟩
  | .assert p, _, _, _, hp, _, hb => ⟨_, fun u hu => ⟨u, _, rfl, hu, .base⟩,
    (segmentLaw_assert (p.predLaw hp)).branchLaw hb fun _ _ _ _ => trivial⟩
  | .lexClosure body, _, _, _, _, _, hb => ⟨_, fun u hu => ⟨u, (), rfl, hu, trivial⟩,
    (segmentLaw_lexClosure body).branchLaw hb fun _ _ _ _ => trivial⟩
  | .format ch, _, _, _, ⟨hch, htops⟩, hdd, hb => ⟨_, fun u hu => ⟨u, (.init, _, 0), rfl, hu, rfl,
      ch.fits hch⟩,
    (segmentLaw_format (ch.den rt)).branchLaw hb fun s hs t ht => htops s t (hdd s hs ▸ ht)⟩

/-- The branches of a merge of the queries `q :: qs`, each built over a leaf. -/
theorem branchAt_queries (q : Query) (qs : List Query) {k : Nat} (hk : k < qs.length + 1) :
    branchAt (q.build .leaf) (qs.map (Query.build · .leaf)) k =
      some (((q :: qs).getD k .nop).build .leaf) := by
  cases k with
  | zero => rfl
  | succ k =>
    rw [branchAt, List.getElem?_map, List.getElem?_eq_getElem (by omega), List.getD_cons_succ,
      List.getD_eq_getElem _ _ (by omega)]
    rfl

/-- **A `Merge` of queries yields their semantics in the order of its schedule.** Take a
fresh merge whose `K ≥ 2` branches are the graphs of queries `q :: qs` of the fragment,
each built over the leaf of its peer, whose side conditions hold on the stacks that
satisfy `Q`. Over an upstream that yields `L`, all of whose stacks satisfy `Q`, and then
null, the merge yields `mergeOrder K` of the queries' semantics over `L`, and then null. -/
theorem merge_queries_yield_order [DecidablePred Q] {q : Query} {qs : List Query} (hqs : qs ≠ [])
    (hok : ∀ p ∈ q :: qs, p.Ok rt fun s => if Q s then [s] else [])
    {c : Ctx} {u : Op} {L : List Stack} (hu : Yields rt env c u L) (hQ : ∀ s ∈ L, Q s) :
    Yields rt env c (.merge u (List.replicate (qs.length + 1) none) false (q.build .leaf)
        (qs.map (Query.build · .leaf)) 0)
      (mergeOrder (qs.length + 1) (fun k => ((q :: qs).getD k .nop).den rt) L) := by
  have hK : 2 ≤ qs.length + 1 := by have := List.length_pos.2 hqs; omega
  have hS : ∀ k < qs.length + 1, ∃ x, branchAt (q.build .leaf) (qs.map (Query.build · .leaf)) k =
      some x ∧ ∃ S, S x ∧ BranchLaw rt env k Q S (((q :: qs).getD k .nop).den rt) := by
    intro k hk
    have hk' : k < (q :: qs).length := hk
    obtain ⟨S, hS, hlaw⟩ := ((q :: qs).getD k .nop).branchLaw
      (hok _ (List.getD_eq_getElem _ _ hk' ▸ List.getElem_mem hk')) (fun s hs => (if_pos hs).symm)
      (branchLaw_leaf (fun _ _ => rfl) k)
    exact ⟨_, branchAt_queries q qs hk, S, hS _ rfl, by simpa only [List.flatMap_singleton] using hlaw⟩
  rw [mergeOrder_eq hK .empty]
  exact merge_run hK (fun k _ => BranchLaw.lawful) hQ _ 0 _ 0 0 .empty _ _ (Nat.lt_succ_self _)
    (mergeInv_init hK hu .empty) (by rw [List.length_map]) hS

/-- A stack holding the sequence `[1, 2]`. -/
def pairStack : Stack :=
  Stack.empty.push Runtime.demo (.seq [.cst ⟨1, 0⟩ 0, .cst ⟨2, 0⟩ 0] 0)

/-- `(elem, relem)` on a stack holding a sequence: the first branch's answers, then the
second's. -/
theorem merge_queries_yield_order_elem_relem :
    Yields Runtime.demo Env.demo (.origin (.primed pairStack))
      (.merge .leaf [none, none] false (.elem .leaf true none) [.elem .leaf false none] 0)
      (Den.elem Runtime.demo true pairStack ++ Den.elem Runtime.demo false pairStack) := by
  have hu : Yields Runtime.demo Env.demo (.origin (.primed pairStack)) .leaf [pairStack] :=
    .cons ⟨2, rfl⟩ (.nil ⟨2, rfl⟩)
  have hok : ∀ fwd, (Query.elem fwd).Ok Runtime.demo
      fun s => if s.values ≠ [] then [s] else [] := fun _ s t ht => by
    dsimp only at ht
    split at ht <;> simp_all
  have h := @merge_queries_yield_order Runtime.demo Env.demo (fun s => s.values ≠ []) _ (.elem true)
    [.elem false] (List.cons_ne_nil _ _) (fun p hp => by
      simp only [List.mem_cons, List.mem_singleton, List.not_mem_nil, or_false] at hp
      rcases hp with rfl | rfl <;> exact hok _) _ _ _ hu
    (by simp [pairStack, Stack.push])
  simpa [mergeOrder_singleton, List.range_succ, Query.den] using h

end Dwgrep
