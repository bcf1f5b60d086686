import Mathlib.Algebra.Order.BigOperators.Group.List
import Dwgrep.Dwarf.Die

/-!
# Termination of the cooked walks

Cooked iteration follows references: `die_it_producer` enters the partial unit an
imported-unit DIE imports, and `attribute_producer` and `find_attribute` go on to the
DIE that `DW_AT_specification` or `DW_AT_abstract_origin` points to. None of them
remembers where it has been, so they terminate only when the references they follow
are acyclic.

* **Cycles.** A partial unit that imports itself makes the second call of `entry`'s
  producer run forever; two DIEs that are each other's specification make `attribute`
  yield without end and make `find_attribute` recurse without end
  (`cooked_walks_loop_on_cyclic_references`).
* **Acyclic references.** Acyclicity is a rank on DIEs that every followed reference
  lowers (`ImportsAcyclic`, `RefsAcyclic`). Under it each loop iteration lowers a
  measure, a sum of powers of a base above every fan-out, so every call returns and the
  producers yield finitely many values; `find_attribute` returns with fuel one above the
  rank (`cooked_walks_terminate_on_acyclic_references`).
-/

namespace Dwgrep

/-! ## Cyclic references -/

/-- An imported-unit DIE that imports the partial unit at offset `10`. -/
def importOfTen (off : Nat) : Die := .mk off DW.tagImportedUnit [⟨DW.atImport, DW.formRef4, .ref 10⟩] []

/-- A compile unit importing the partial unit at `10`, which imports itself. -/
def selfImport : Dwarf :=
  ⟨[.mk 0 DW.tagCompileUnit [] [importOfTen 1], .mk 10 DW.tagPartialUnit [] [importOfTen 11]]⟩

/-- With the self-import on top of the stack, the loop only ever enters the partial unit
again. -/
theorem next_selfImport_stuck : ∀ (n : Nat) (rest : List (List Die)) (imps : List Nat) (i : Nat),
    DieItProducer.next selfImport .allDies n ⟨[importOfTen 11] :: rest, imps, i, true⟩ = Res.stop
  | 0, _, _, _ => rfl
  | n + 1, rest, imps, i => next_selfImport_stuck n ([] :: rest) (11 :: imps) i

/-- A DIE whose specification is the DIE at `target`. -/
def specOf (off target : Nat) : Die :=
  .mk off DW.tagSubprogram [⟨DW.atSpecification, DW.formRef4, .ref target⟩] []

/-- Two subprograms, each the specification of the other. -/
def specCycle : Dwarf := ⟨[.mk 0 DW.tagCompileUnit [] [specOf 1 2, specOf 2 1]]⟩

/-- The cooked attribute producer on `specCycle` having just yielded the specification
of one DIE, the other scheduled. -/
def specCycleAt (b sec : Bool) (seen : List Nat) (i : Nat) : AttrProducer :=
  ⟨cond b (specOf 1 2) (specOf 2 1), [], i, true, sec, seen, [cond b (specOf 2 1) (specOf 1 2)]⟩

theorem next_specCycleAt (b sec : Bool) (seen : List Nat) (i : Nat) :
    AttrProducer.next specCycle 2 (specCycleAt b sec seen i) =
      pure (some (.dw (.attr ⟨DW.atSpecification, DW.formRef4, .ref (cond b 1 2)⟩ (cond b 2 1) true) i,
        specCycleAt (!b) true (DW.atSpecification :: seen) (i + 1))) := by
  cases b <;> rfl

theorem specCycleAt_emits :
    ∀ (k : Nat) (b sec : Bool) (seen : List Nat) (i : Nat),
      ∃ l s, Emits (Yield.ofRes (AttrProducer.next specCycle)) (specCycleAt b sec seen i) l s ∧
        l.length = k
  | 0, b, sec, seen, i => ⟨[], _, .nil _, rfl⟩
  | k + 1, b, sec, seen, i =>
    let ⟨l, s, h, hl⟩ := specCycleAt_emits k (!b) true _ (i + 1)
    ⟨_ :: l, s, .cons ⟨2, next_specCycleAt b sec seen i⟩ h, by rw [List.length_cons, hl]⟩

/-- A lookup that does not find the name on a DIE and runs out of fuel at the DIE its
specification points to runs out of fuel. -/
theorem findAttribute_spec_stop {dw : Dwarf} {atname : Nat} {n : Nat} {a d : Die} {s : Attr}
    (hn : a.attr? atname = none) (hi : attrShouldBeIntegrated atname = true)
    (hs : a.attr? DW.atSpecification = some s) (hd : dw.formrefDie s = some d)
    (hstop : findAttribute dw atname true n d = Res.stop) :
    findAttribute dw atname true (n + 1) a = Res.stop := by
  simp only [findAttribute, hn, hi, hs, hd, hstop, Bool.true_and, if_true]
  rfl

theorem findAttribute_specCycle :
    ∀ n, findAttribute specCycle DW.atName true n (specOf 1 2) = Res.stop ∧
      findAttribute specCycle DW.atName true n (specOf 2 1) = Res.stop
  | 0 => ⟨rfl, rfl⟩
  | n + 1 =>
    ⟨findAttribute_spec_stop rfl rfl rfl rfl (findAttribute_specCycle n).2,
      findAttribute_spec_stop rfl rfl rfl rfl (findAttribute_specCycle n).1⟩

/-- **Cyclic references make the cooked walks diverge.** On a file whose partial unit
imports itself, the first call of `entry`'s cooked producer yields the unit DIE and the
second never returns. On a file with two DIEs that are each other's
`DW_AT_specification`, `attribute` yields as many values as one asks for, and `@AT_name`
never returns. -/
theorem cooked_walks_loop_on_cyclic_references :
    (∃ v s, DieItProducer.next selfImport .allDies 1
          (.init selfImport .allDies (.mk 0 DW.tagCompileUnit [] [importOfTen 1]) true) =
        pure (some (v, s)) ∧
      ∀ n, DieItProducer.next selfImport .allDies n s = Res.stop) ∧
    (∀ k, ∃ l s, Emits (Yield.ofRes (AttrProducer.next specCycle)) (.init (specOf 1 2) true) l s ∧
      l.length = k) ∧
    (∀ n, findAttribute specCycle DW.atName true n (specOf 1 2) = Res.stop) :=
  ⟨⟨_, _, rfl, fun
      | 0 => rfl
      | n + 1 => next_selfImport_stuck n [[]] [1] 1⟩,
    fun
      | 0 => ⟨[], _, .nil _, rfl⟩
      | k + 1 =>
        let ⟨l, s, h, hl⟩ := specCycleAt_emits k true false [DW.atSpecification] 1
        ⟨_ :: l, s, .cons ⟨1, rfl⟩ h, by rw [List.length_cons, hl]⟩,
    fun n => (findAttribute_specCycle n).1⟩

/-! ## Acyclic references -/

/-- Imports are acyclic: a rank on DIEs that every import lowers, from the imported-unit
DIE to each DIE of the range it opens. -/
def ImportsAcyclic (dw : Dwarf) (it : DieIt) (rank : Die → Nat) : Prop :=
  ∀ d ∈ dw.dies, ∀ t ∈ importTarget dw d, ∀ d' ∈ getItRange dw it t true, rank d' < rank d

/-- Specifications and abstract origins are acyclic: a rank on DIEs that every such
reference lowers. -/
def RefsAcyclic (dw : Dwarf) (rank : Die → Nat) : Prop :=
  ∀ d ∈ dw.dies, ∀ a ∈ d.attrs, isIndirection a.code = true →
    ∀ t ∈ dw.formrefDie a, rank t < rank d

/-- A sum of powers, each at most `B ^ e`, of at most `B - 2` terms stays below
`B ^ (e + 1)` with one to spare. -/
theorem sum_pow_lt {l : List Nat} {B e : Nat} (hB : 2 ≤ B) (hl : l.length + 2 ≤ B)
    (he : ∀ x ∈ l, x ≤ B ^ e) : 1 + l.sum < B ^ (e + 1) := by
  have hsum : l.sum ≤ l.length * B ^ e := by
    simpa using List.sum_le_card_nsmul l _ he
  have hX : 1 ≤ B ^ e := Nat.one_le_pow _ _ (by omega)
  have hmul : l.length * B ^ e + 2 * B ^ e ≤ B * B ^ e := by
    rw [← Nat.add_mul]; exact Nat.mul_le_mul_right _ hl
  rw [Nat.pow_succ, Nat.mul_comm _ B]
  omega

namespace DieItProducer

variable (dw : Dwarf) (it : DieIt) (rank : Die → Nat)

/-- Two above the length of every range an import can open. -/
def base : Nat := (dw.dies.map fun t => (getItRange dw it t true).length).sum + 2

/-- The weight of a range: one for the range, and `base ^ (rank d + 1)` for each DIE. -/
def rangeWeight (r : List Die) : Nat := 1 + (r.map fun d => base dw it ^ (rank d + 1)).sum

/-- The measure of the producer: the weights of its ranges. -/
def weight (p : DieItProducer) : Nat := (p.stack.map (rangeWeight dw it rank)).sum

/-- Every DIE on the stack is a DIE of the file. -/
def Inv (p : DieItProducer) : Prop := ∀ r ∈ p.stack, ∀ d ∈ r, d ∈ dw.dies

variable {dw it rank}

/-- Entering an import weighs less than the imported-unit DIE it replaces. -/
theorem rangeWeight_import_lt (hacyc : ImportsAcyclic dw it rank) {d t : Die}
    (hd : d ∈ dw.dies) (ht : importTarget dw d = some t) :
    rangeWeight dw it rank (getItRange dw it t true) < base dw it ^ (rank d + 1) := by
  have hlen : (getItRange dw it t true).length + 2 ≤ base dw it := by
    have : (getItRange dw it t true).length ≤
        (dw.dies.map fun t => (getItRange dw it t true).length).sum :=
      List.single_le_sum (fun _ _ => Nat.zero_le _) _ (List.mem_map_of_mem _ (importTarget_mem ht))
    unfold base; omega
  apply sum_pow_lt (by unfold base; omega) (by rwa [List.length_map])
  simp only [List.mem_map]
  rintro _ ⟨d', hd', rfl⟩
  exact Nat.pow_le_pow_right (by unfold base; omega) (hacyc d hd t ht d' hd')

/-- **Each iteration of `die_it_producer::next` lowers the measure** when imports are
acyclic. -/
theorem body_decreasing (hacyc : ImportsAcyclic dw it rank) :
    Decreasing (body dw it) (Inv dw) (weight dw it rank) := by
  intro s hs s' h
  obtain ⟨stack, imports, i, cooked⟩ := s
  rcases stack with _ | ⟨_ | ⟨d, ds⟩, rest⟩
  · simp only [body] at h
    rcases h with h | ⟨_, h⟩ <;> cases h
  · simp only [body] at h
    rcases h with h | ⟨_, h⟩ <;> cases h
    refine ⟨fun r hr => hs r (List.mem_cons_of_mem _ hr), ?_⟩
    simp only [weight, rangeWeight, List.map_cons, List.sum_cons, List.map_nil, List.sum_nil]
    omega
  · have hd : d ∈ dw.dies := hs _ (List.mem_cons_self _ _) d (List.mem_cons_self _ _)
    have hds : ∀ x ∈ ds, x ∈ dw.dies :=
      fun x hx => hs _ (List.mem_cons_self _ _) x (List.mem_cons_of_mem _ hx)
    have hrest : ∀ r ∈ rest, ∀ x ∈ r, x ∈ dw.dies := fun r hr => hs r (List.mem_cons_of_mem _ hr)
    simp only [body] at h
    split at h
    · rename_i t _ ht
      rcases h with h | ⟨_, h⟩ <;> cases h
      refine ⟨?_, ?_⟩
      · intro r hr
        rcases List.mem_cons.1 hr with rfl | hr
        · exact fun x hx => getItRange_mem (importTarget_mem ht) hx
        rcases List.mem_cons.1 hr with rfl | hr
        · exact hds
        · exact hrest r hr
      · have := rangeWeight_import_lt hacyc hd ht
        simp only [weight, rangeWeight, List.map_cons, List.sum_cons] at this ⊢
        omega
    · rcases h with h | ⟨_, h⟩ <;> cases h
      refine ⟨?_, ?_⟩
      · intro r hr
        rcases List.mem_cons.1 hr with rfl | hr
        · exact hds
        · exact hrest r hr
      · have : 0 < base dw it ^ (rank d + 1) := Nat.pos_pow_of_pos _ (by unfold base; omega)
        simp only [weight, rangeWeight, List.map_cons, List.sum_cons]
        omega

end DieItProducer

namespace AttrProducer

variable (dw : Dwarf) (rank : Die → Nat)

/-- Two above the number of attributes of every DIE. -/
def base : Nat := (dw.dies.map fun d => d.attrs.length).sum + 2

/-- The measure of the producer: `base ^ (2 * rank)` for each attribute left of the
current DIE, and `base ^ (2 * rank + 1)` for each scheduled DIE. -/
def weight (p : AttrProducer) : Nat :=
  p.it.length * base dw ^ (2 * rank p.die) + (p.pending.map fun t => base dw ^ (2 * rank t + 1)).sum

/-- The current DIE and the scheduled ones are DIEs of the file, and the attributes left
are the current DIE's. -/
def Inv (p : AttrProducer) : Prop :=
  p.die ∈ dw.dies ∧ (∀ a ∈ p.it, a ∈ p.die.attrs) ∧ ∀ t ∈ p.pending, t ∈ dw.dies

variable {dw rank}

theorem two_le_base : 2 ≤ base dw := by unfold base; omega

/-- Moving to a scheduled DIE weighs less than the DIE did. -/
theorem attrs_weight_lt {t : Die} (ht : t ∈ dw.dies) :
    t.attrs.length * base dw ^ (2 * rank t) < base dw ^ (2 * rank t + 1) := by
  have hlen : t.attrs.length + 2 ≤ base dw := by
    have : t.attrs.length ≤ (dw.dies.map fun d => d.attrs.length).sum :=
      List.single_le_sum (fun _ _ => Nat.zero_le _) _ (List.mem_map_of_mem _ ht)
    unfold base; omega
  have hX : 1 ≤ base dw ^ (2 * rank t) := Nat.one_le_pow _ _ (by have := @two_le_base dw; omega)
  rw [Nat.pow_succ, Nat.mul_comm (base dw ^ _)]
  exact Nat.mul_lt_mul_of_pos_right (by omega) hX

/-- **Each iteration of `attribute_producer::next` lowers the measure** when
specifications and abstract origins are acyclic. -/
theorem body_decreasing (hacyc : RefsAcyclic dw rank) :
    Decreasing (body dw) (Inv dw) (weight dw rank) := by
  intro s hs s' h
  obtain ⟨die, it, i, cooked, secondary, seen, pending⟩ := s
  obtain ⟨hdie, hit, hpend⟩ := hs
  rcases it with _ | ⟨a, rest⟩
  · rcases cooked with _ | _ <;> rcases pending with _ | ⟨t, ts⟩ <;> simp only [body] at h <;>
      rcases h with h | ⟨_, h⟩ <;> cases h
    refine ⟨⟨hpend t (List.mem_cons_self _ _), fun _ ha => ha,
      fun x hx => hpend x (List.mem_cons_of_mem _ hx)⟩, ?_⟩
    have := @attrs_weight_lt dw rank t (hpend t (List.mem_cons_self _ _))
    simp only [weight, List.map_cons, List.sum_cons, List.length_nil, Nat.zero_mul] at this ⊢
    omega
  · have ha : a ∈ die.attrs := hit a (List.mem_cons_self _ _)
    have hrest : ∀ x ∈ rest, x ∈ die.attrs := fun x hx => hit x (List.mem_cons_of_mem _ hx)
    have hX : 0 < base dw ^ (2 * rank die) :=
      Nat.pos_pow_of_pos _ (by have := @two_le_base dw; omega)
    have hdrop : (a :: rest).length * base dw ^ (2 * rank die) =
        rest.length * base dw ^ (2 * rank die) + base dw ^ (2 * rank die) := by
      rw [List.length_cons, Nat.succ_mul]
    simp only [body] at h
    split_ifs at h with hind
    · split at h
      · rcases h with h | ⟨_, h⟩ <;> cases h
      · rename_i t ht
        rcases h with h | ⟨_, h⟩ <;> cases h
        refine ⟨⟨hdie, hrest, ?_⟩, ?_⟩
        · intro x hx
          rcases List.mem_cons.1 hx with rfl | hx
          · exact Dwarf.formrefDie_mem ht
          · exact hpend x hx
        · have hlt : rank t < rank die :=
            hacyc die hdie a ha (by simp only [Bool.and_eq_true] at hind; exact hind.2) t ht
          have : base dw ^ (2 * rank t + 1) < base dw ^ (2 * rank die) :=
            Nat.pow_lt_pow_right (by have := @two_le_base dw; omega) (by omega)
          simp only [weight, List.map_cons, List.sum_cons] at hdrop ⊢
          omega
    all_goals
      rcases h with h | ⟨_, h⟩ <;> cases h
      exact ⟨⟨hdie, hrest, hpend⟩, by simp only [weight] at hdrop ⊢; omega⟩

end AttrProducer

/-- With acyclic references, a lookup with more fuel than the rank of the DIE returns. -/
theorem findAttribute_returns {dw : Dwarf} {rank : Die → Nat} (hacyc : RefsAcyclic dw rank)
    (atname : Nat) (cooked : Bool) :
    ∀ n d, d ∈ dw.dies → rank d < n → (findAttribute dw atname cooked n d).run ≠ none
  | 0, _, _, h => absurd h (Nat.not_lt_zero _)
  | n + 1, d, hd, hn => by
    have via : ∀ code, isIndirection code = true →
        (match d.attr? code with
          | some at_ =>
            match dw.formrefDie at_ with
            | some d' => findAttribute dw atname cooked n d'
            | none => throw .libdw
          | none => pure none : Res (Option Attr)).run ≠ none := by
      intro code hcode
      split
      · rename_i at_ hat
        split
        · rename_i d' hd'
          have ⟨hmem, hc⟩ := Die.attr?_mem hat
          exact findAttribute_returns hacyc atname cooked n d' (Dwarf.formrefDie_mem hd')
            (by have := hacyc d hd at_ hmem (hc ▸ hcode) d' hd'; omega)
        · exact nofun
      · exact nofun
    rw [findAttribute]
    split
    · exact nofun
    · split
      · refine Res.returns_bind (via _ rfl) fun r _ => ?_
        split
        · exact nofun
        · exact via _ rfl
      · exact nofun

/-- **Acyclic references make the cooked walks terminate.** If a rank on DIEs lowers
along every import, the producer behind `entry` or `child`, started at any DIE of the
file, returns from every call and yields finitely many values. If a rank lowers along
every `DW_AT_specification` and `DW_AT_abstract_origin`, so does `attribute`'s producer,
and `find_attribute` returns with fuel one above the DIE's rank. -/
theorem cooked_walks_terminate_on_acyclic_references (dw : Dwarf) :
    (∀ it rank, ImportsAcyclic dw it rank → ∀ d ∈ dw.dies, ∀ cooked,
      ∃ l, Drains (DieItProducer.next dw it) (.init dw it d cooked) l) ∧
    (∀ rank, RefsAcyclic dw rank → ∀ d ∈ dw.dies, ∀ cooked,
      ∃ l, Drains (AttrProducer.next dw) (.init d cooked) l) ∧
    (∀ rank, RefsAcyclic dw rank → ∀ d ∈ dw.dies, ∀ atname cooked,
      (findAttribute dw atname cooked (rank d + 1) d).run ≠ none) :=
  ⟨fun _ _ hacyc d hd _ => drains_of_decreasing (DieItProducer.body_decreasing hacyc) _
      fun r hr x hx => by
        rcases List.mem_singleton.1 hr with rfl
        exact getItRange_mem hd hx,
    fun _ hacyc d hd _ => drains_of_decreasing (AttrProducer.body_decreasing hacyc) _
      ⟨hd, fun _ ha => ha, nofun⟩,
    fun _ hacyc d hd atname cooked =>
      findAttribute_returns hacyc atname cooked _ d hd (Nat.lt_succ_self _)⟩

/-- A file with an import and a specification, both going to higher offsets. -/
def acyclicDemo : Dwarf :=
  ⟨[.mk 0 DW.tagCompileUnit [] [importOfTen 1, specOf 2 3, .mk 3 DW.tagSubprogram [] []],
    .mk 10 DW.tagPartialUnit [] [.mk 11 DW.tagSubprogram [] []]]⟩

/-- The three walks terminate on `acyclicDemo`, ranked by distance below offset `100`. -/
theorem cooked_walks_terminate_on_acyclicDemo :
    ImportsAcyclic acyclicDemo .allDies (100 - ·.off) ∧
      RefsAcyclic acyclicDemo (100 - ·.off) ∧
      (∃ l, Drains (DieItProducer.next acyclicDemo .allDies)
        (.init acyclicDemo .allDies (.mk 0 DW.tagCompileUnit [] [importOfTen 1, specOf 2 3,
          .mk 3 DW.tagSubprogram [] []]) true) l) ∧
      (∃ l, Drains (AttrProducer.next acyclicDemo) (.init (specOf 2 3) true) l) ∧
      (findAttribute acyclicDemo DW.atName true (100 - 2 + 1) (specOf 2 3)).run ≠ none :=
  have hi : ImportsAcyclic acyclicDemo .allDies (100 - ·.off) := by unfold ImportsAcyclic; decide
  have hr : RefsAcyclic acyclicDemo (100 - ·.off) := by unfold RefsAcyclic; decide
  ⟨hi, hr,
    (cooked_walks_terminate_on_acyclic_references acyclicDemo).1 _ _ hi _ (by decide) true,
    (cooked_walks_terminate_on_acyclic_references acyclicDemo).2.1 _ hr _ (by decide) true,
    (cooked_walks_terminate_on_acyclic_references acyclicDemo).2.2 _ hr (specOf 2 3) (by decide)
      DW.atName true⟩

end Dwgrep
