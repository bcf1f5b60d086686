import Dwgrep.Dwarf.Termination

/-!
# What `entry` and `child` yield

`die_it_producer` inlines partial units with an explicit stack of iterator ranges and a
separate chain of imported-unit DIEs, one shorter than the stack. This module states
what that machinery computes, as the recursive inlining it simulates, and proves that
the producer yields exactly that.

* `Expands` — the cooked walk of a range, recursively: a DIE is kept with the chain
  of imports it was reached through, and an imported-unit DIE whose import resolves is
  replaced by the walk of the range it opens, one import deeper;
* `walk_expands` — the simulation: a walk of the specification is one stretch of the
  loop, from a range on top of the stack to that range's end; `walk_raw` is the raw
  loop, which never enters an import;
* `expands_exists` — with acyclic imports every range has its walk;
* `die_walk_inlines_imports` — **the cooked producer behind `entry` and `child`
  yields exactly the walk of its first range, and the raw one the plain range with
  empty chains**.
-/

namespace Dwgrep

section Spec

variable (dw : Dwarf) (it : DieIt)

/-- The cooked walk of a range from an import chain: the DIEs it yields, each with the
chain of imported-unit DIEs it was reached through, innermost first. An imported-unit
DIE whose import resolves is not yielded: the range it opens (for `entry` the imported
unit without its root, for `child` the root's children) is walked in its place. -/
inductive Expands : List Nat → List Die → List (List Nat × Die) → Prop where
  | nil (chain : List Nat) : Expands chain [] []
  | keep {chain : List Nat} {d : Die} {ds : List Die} {out : List (List Nat × Die)} :
      importTarget dw d = none → Expands chain ds out →
      Expands chain (d :: ds) ((chain, d) :: out)
  | enter {chain : List Nat} {d t : Die} {ds : List Die} {out₁ out₂ : List (List Nat × Die)} :
      importTarget dw d = some t → Expands (d.off :: chain) (getItRange dw it t true) out₁ →
      Expands chain ds out₂ → Expands chain (d :: ds) (out₁ ++ out₂)

end Spec

/-- The values `die_it_producer` yields for a walk: each DIE with its chain and the
doneness, positioned from `i` on. -/
def dieValues (cooked : Bool) (i : Nat) (out : List (List Nat × Die)) : List Value :=
  (out.enumFrom i).map fun (k, chain, d) => .dw (.die chain d.off cooked) k

theorem dieValues_append (cooked : Bool) (i : Nat) (a b : List (List Nat × Die)) :
    dieValues cooked i (a ++ b) = dieValues cooked i a ++ dieValues cooked (i + a.length) b := by
  rw [dieValues, List.enumFrom_append, List.map_append, dieValues, dieValues]

namespace DieItProducer

variable {dw : Dwarf} {it : DieIt}

/-- **The simulation.** A walk of a range is one stretch of the cooked loop: from the
range on top of the stack, with its chain, to the end of the range. -/
theorem walk_expands {chain : List Nat} {l : List Die} {out : List (List Nat × Die)}
    (h : Expands dw it chain l out) (rest : List (List Die)) (i : Nat) :
    Walk (body dw it) ⟨l :: rest, chain, i, true⟩ (dieValues true i out)
      ⟨[] :: rest, chain, i + out.length, true⟩ := by
  induction h generalizing rest i with
  | nil => exact .refl _
  | keep hn _ ih =>
    rw [List.length_cons, ← Nat.add_assoc, Nat.add_right_comm]
    exact .yield (by simp only [body, hn]) (ih rest (i + 1))
  | enter ht _ _ ih₁ ih₂ =>
    rw [dieValues_append, List.length_append, ← Nat.add_assoc]
    exact .again (by simp only [body, ht]) ((ih₁ _ i).trans (.again rfl (ih₂ rest _)))

/-- The raw loop yields its range as it is, every DIE with the chain it started with. -/
theorem walk_raw (chain : List Nat) (rest : List (List Die)) :
    ∀ (l : List Die) (i : Nat), Walk (body dw it) ⟨l :: rest, chain, i, false⟩
      (dieValues false i (l.map (chain, ·))) ⟨[] :: rest, chain, i + l.length, false⟩
  | [], _ => .refl _
  | d :: ds, i => by
    rw [List.length_cons, ← Nat.add_assoc, Nat.add_right_comm]
    exact .yield rfl (walk_raw chain rest ds (i + 1))

/-- From the start, a walk of the first range is the whole run: the producer then drops
the finished range and returns `nullptr`. -/
theorem emits_of_walk {die : Die} {cooked : Bool} {out : List Value} {k : Nat}
    (h : Walk (body dw it) (init dw it die cooked) out ⟨[[]], [], k, cooked⟩) :
    ∃ s, Emits (Yield.ofRes (next dw it)) (init dw it die cooked) out s ∧
      ∃ n, next dw it n s = pure none := by
  have h := h.trans (.again rfl (.refl _))
  rw [List.append_nil] at h
  exact h.emits rfl

end DieItProducer

/-- With acyclic imports, every range of DIEs of the file has its walk. -/
theorem expands_exists {dw : Dwarf} {it : DieIt} {rank : Die → Nat}
    (hacyc : ImportsAcyclic dw it rank) :
    ∀ (n : Nat) (l : List Die) (chain : List Nat), (∀ d ∈ l, d ∈ dw.dies ∧ rank d < n) →
      ∃ out, Expands dw it chain l out
  | _, [], chain, _ => ⟨[], .nil chain⟩
  | 0, d :: _, _, h => absurd (h d (List.mem_cons_self _ _)).2 (Nat.not_lt_zero _)
  | n + 1, d :: ds, chain, h => by
    obtain ⟨out₂, h₂⟩ :=
      expands_exists hacyc (n + 1) ds chain fun x hx => h x (List.mem_cons_of_mem _ hx)
    obtain ⟨hd, hr⟩ := h d (List.mem_cons_self _ _)
    cases ht : importTarget dw d with
    | none => exact ⟨_, .keep ht h₂⟩
    | some t =>
      obtain ⟨out₁, h₁⟩ := expands_exists hacyc n (getItRange dw it t true) (d.off :: chain)
        fun x hx => ⟨getItRange_mem (importTarget_mem ht) hx,
          by have := hacyc d hd t ht x hx; omega⟩
      exact ⟨_, .enter ht h₁ h₂⟩

/-- Started at a DIE of a file with acyclic imports, the producer's first range has a
walk. -/
theorem expands_range {dw : Dwarf} {it : DieIt} {rank : Die → Nat}
    (hacyc : ImportsAcyclic dw it rank) {die : Die} (hdie : die ∈ dw.dies) :
    ∃ out, Expands dw it [] (getItRange dw it die false) out :=
  expands_exists hacyc (((getItRange dw it die false).map rank).sum + 1) _ []
    fun _ hd => ⟨getItRange_mem hdie hd, Nat.lt_succ_of_le
      (List.single_le_sum (fun _ _ => Nat.zero_le _) _ (List.mem_map_of_mem rank hd))⟩

/-- Every value a cooked run yields is a DIE of the walk, with its chain. -/
theorem mem_walk_of_emits {dw : Dwarf} {it : DieIt} {rank : Die → Nat}
    (hacyc : ImportsAcyclic dw it rank) {die : Die} (hdie : die ∈ dw.dies) {l : List Value}
    {s : DieItProducer}
    (h : Emits (Yield.ofRes (DieItProducer.next dw it)) (.init dw it die true) l s) :
    ∃ out, Expands dw it [] (getItRange dw it die false) out ∧
      ∀ v ∈ l, ∃ y ∈ out, ∃ k, v = .dw (.die y.1 y.2.off true) k := by
  obtain ⟨out, hout⟩ := expands_range hacyc hdie
  obtain ⟨_, hL, hend⟩ := DieItProducer.emits_of_walk (DieItProducer.walk_expands hout [] 0)
  refine ⟨out, hout, fun v hv => ?_⟩
  have hv := (h.prefix_of_end hL hend).subset hv
  simp only [dieValues, List.mem_map] at hv
  obtain ⟨⟨k, ch, d⟩, hmem, rfl⟩ := hv
  exact ⟨(ch, d), List.snd_mem_of_mem_enumFrom hmem, k, rfl⟩

/-- **`entry` and `child` inline imported units.** On a file whose imports are acyclic,
started at a DIE of the file, the range the producer starts with has a walk; the cooked
producer yields exactly the DIEs of that walk, each with the chain of imported-unit
DIEs it was reached through, at positions `0, 1, …`, and then returns `nullptr`. The raw
producer yields the range itself, every DIE with the empty chain. -/
theorem die_walk_inlines_imports (dw : Dwarf) (it : DieIt) (rank : Die → Nat)
    (hacyc : ImportsAcyclic dw it rank) (die : Die) (hdie : die ∈ dw.dies) :
    (∃ out, Expands dw it [] (getItRange dw it die false) out) ∧
    (∀ out, Expands dw it [] (getItRange dw it die false) out →
      ∃ s, Emits (Yield.ofRes (DieItProducer.next dw it)) (.init dw it die true)
        (dieValues true 0 out) s ∧ ∃ n, DieItProducer.next dw it n s = pure none) ∧
    (∃ s, Emits (Yield.ofRes (DieItProducer.next dw it)) (.init dw it die false)
        (dieValues false 0 ((getItRange dw it die false).map ([], ·))) s ∧
      ∃ n, DieItProducer.next dw it n s = pure none) :=
  ⟨expands_range hacyc hdie,
    fun _ h => DieItProducer.emits_of_walk (DieItProducer.walk_expands h [] 0),
    DieItProducer.emits_of_walk (DieItProducer.walk_raw [] [] _ 0)⟩

/-- The compile unit of `acyclicDemo`. -/
def acyclicDemoCu : Die :=
  .mk 0 DW.tagCompileUnit [] [importOfTen 1, specOf 2 3, .mk 3 DW.tagSubprogram [] []]

/-- `entry` on the compile unit of `acyclicDemo` yields the unit DIE, then the
subprogram of the imported partial unit with chain `[1]` in place of the imported-unit
DIE, then the unit's other two DIEs. -/
theorem die_walk_inlines_imports_on_acyclicDemo :
    ImportsAcyclic acyclicDemo .allDies (100 - ·.off) ∧ acyclicDemoCu ∈ acyclicDemo.dies ∧
      ∃ s, Emits (Yield.ofRes (DieItProducer.next acyclicDemo .allDies))
        (.init acyclicDemo .allDies acyclicDemoCu true)
        [.dw (.die [] 0 true) 0, .dw (.die [1] 11 true) 1, .dw (.die [] 2 true) 2,
          .dw (.die [] 3 true) 3] s ∧
        ∃ n, DieItProducer.next acyclicDemo .allDies n s = pure none :=
  have hi : ImportsAcyclic acyclicDemo .allDies (100 - ·.off) := by
    unfold ImportsAcyclic; decide
  have hd : acyclicDemoCu ∈ acyclicDemo.dies := by decide
  have ht : importTarget acyclicDemo (importOfTen 1) =
      some (.mk 10 DW.tagPartialUnit [] [.mk 11 DW.tagSubprogram [] []]) := by decide
  have hx : Expands acyclicDemo .allDies [] (getItRange acyclicDemo .allDies acyclicDemoCu false)
      [([], acyclicDemoCu), ([1], .mk 11 DW.tagSubprogram [] []), ([], specOf 2 3),
        ([], .mk 3 DW.tagSubprogram [] [])] :=
    have h₁ : Expands acyclicDemo .allDies [1] (getItRange acyclicDemo .allDies
        (.mk 10 DW.tagPartialUnit [] [.mk 11 DW.tagSubprogram [] []]) true)
        [([1], .mk 11 DW.tagSubprogram [] [])] := .keep (by decide) (.nil _)
    .keep (by decide) (.enter ht h₁ (.keep (by decide) (.keep (by decide) (.nil _))))
  ⟨hi, hd, (die_walk_inlines_imports acyclicDemo .allDies _ hi _ hd).2.1 _ hx⟩

end Dwgrep
