import Dwgrep.Compare
import Dwgrep.Dwarf.Die

/-!
# `attribute` against `@AT_*` and `?AT_*`

Cooked, `attribute` and `@AT_*` both look for attributes through
`DW_AT_specification` and `DW_AT_abstract_origin`, but they walk the references in
different orders. `attribute_producer` schedules every reference on a stack and visits
the DIE scheduled last first; `find_attribute` goes depth first and tries the
specification before the abstract origin. The seen-list makes `attribute` yield an
attribute name at most once, so the two agree on whether a name is there, but not on
which DIE's attribute they take.

* `attrLabel`, `atnamePred` — the label of an attribute value, and `?AT_*`;
* `body_again`, `body_yield`, `runLoop_seen` — what one round and one call of
  `attribute_producer::next` do to the seen-list;
* `attribute_label_once_vs_atval` — **cooked, `attribute` yields every name other than
  the two references at most once**, and the counterexample `twoOrigins` where it
  yields a different attribute than the one `@AT_name` yields the values of.
-/

namespace Dwgrep

/-- The label of a value of the attribute producer: its attribute's name. -/
def attrLabel : Value → Option Nat
  | .dw (.attr a _ _) _ => some a.code
  | _ => none

/-- `pred_atname_die::result`: `?AT_*` holds when `find_attribute` finds the name. -/
def atnamePred (dw : Dwarf) (atname : Nat) (cooked : Bool) (n : Nat) (d : Die) :
    Res PredResult :=
  (findAttribute dw atname cooked n d).map fun r => .ofBool r.isSome

namespace AttrProducer

variable {dw : Dwarf}

/-- A round that goes on keeps the seen-list and the doneness. -/
theorem body_again {s s' : AttrProducer} (h : body dw s = .ok (.again s')) :
    s'.seen = s.seen ∧ s'.cooked = s.cooked := by
  unfold body at h
  split at h
  · split at h <;> cases h
    exact ⟨rfl, rfl⟩
  · simp only at h
    split_ifs at h
    · split at h <;> cases h
    all_goals cases h
    all_goals exact ⟨rfl, rfl⟩

/-- A round that yields adds the attribute's name to the seen-list. Cooked, a name other
than the two references is yielded only if it was not seen before. -/
theorem body_yield {s s' : AttrProducer} {v : Value} (h : body dw s = .ok (.yield v s')) :
    ∃ code, attrLabel v = some code ∧ s'.seen = code :: s.seen ∧ s'.cooked = s.cooked ∧
      (s.cooked = true → isIndirection code = false → code ∉ s.seen) := by
  unfold body at h
  split at h
  · split at h <;> cases h
  · rename_i a rest _
    simp only at h
    split_ifs at h with h₁ h₂ h₃
    · split at h
      · cases h
      · cases h
        refine ⟨a.code, rfl, rfl, rfl, fun hc hi => ?_⟩
        simp only [hc, hi, Bool.true_and, Bool.false_eq_true] at h₁
    · cases h
    · cases h
    · cases h
      refine ⟨a.code, rfl, rfl, rfl, fun hc _ hs => h₃ ?_⟩
      simp [hc, hs]

/-- **One call.** A call keeps every name already seen and the doneness; cooked, the
value it yields is labelled with a name other than the two references only if that name
was not seen before, and the name is seen after it. -/
theorem runLoop_seen {X : Nat} (hX : isIndirection X = false) :
    ∀ (n : Nat) (s s' : AttrProducer) (v : Value),
      runLoop (body dw) n s = pure (some (v, s')) →
      (∀ x ∈ s.seen, x ∈ s'.seen) ∧ s'.cooked = s.cooked ∧
        (s.cooked = true → attrLabel v = some X → X ∉ s.seen ∧ X ∈ s'.seen)
  | 0, _, _, _, h => nomatch h
  | n + 1, s, s', v, h => by
    rw [runLoop] at h
    split at h
    · exact nomatch h
    · rename_i v' s₁ hb
      obtain ⟨rfl, rfl⟩ := Prod.mk.inj (Option.some.inj (Res.pure_inj h))
      obtain ⟨code, hl, hs, hc, hnew⟩ := body_yield hb
      refine ⟨fun x hx => hs ▸ List.mem_cons_of_mem _ hx, hc, fun hck hv => ?_⟩
      obtain rfl : code = X := Option.some.inj (hl.symm.trans hv)
      exact ⟨hnew hck hX, hs ▸ List.mem_cons_self _ _⟩
    · exact nomatch Res.pure_inj h
    · rename_i s₁ hb
      obtain ⟨hs, hc⟩ := body_again hb
      obtain ⟨h₁, h₂, h₃⟩ := runLoop_seen hX n s₁ s' v h
      exact ⟨fun x hx => h₁ x (hs ▸ hx), h₂.trans hc, fun hck => hs ▸ h₃ (hc ▸ hck)⟩

/-- **A whole run.** Cooked, a name other than the two references that is already seen
labels no later value, and labels at most one value of any run. -/
theorem emits_label_once {X : Nat} (hX : isIndirection X = false) {s s' : AttrProducer}
    {l : List Value} (h : Emits (Yield.ofRes (next dw)) s l s') (hc : s.cooked = true) :
    (X ∈ s.seen → ∀ v ∈ l, attrLabel v ≠ some X) ∧
      l.countP (fun v => attrLabel v == some X) ≤ 1 := by
  induction h with
  | nil => exact ⟨fun _ _ hv => (nomatch hv), Nat.zero_le _⟩
  | @cons s s₁ s' v l hv _ ih =>
    obtain ⟨n, hn⟩ := hv
    obtain ⟨hgrow, hck, hlab⟩ := runLoop_seen hX n _ _ v hn
    obtain ⟨hlater, hcount⟩ := ih (hck.trans hc)
    refine ⟨fun hs w hw => ?_, ?_⟩
    · rcases List.mem_cons.1 hw with rfl | hw
      · exact fun hv => (hlab hc hv).1 hs
      · exact hlater (hgrow X hs) w hw
    · rw [List.countP_cons]
      by_cases hv : attrLabel v = some X
      · have hnone : l.countP (fun v => attrLabel v == some X) = 0 :=
          List.countP_eq_zero.2 fun w hw hw' => hlater (hlab hc hv).2 w hw (by simpa using hw')
        simp only [hnone, hv, beq_self_eq_true, if_true, Nat.zero_add, le_refl]
      · simp only [hv, beq_iff_eq, if_false, Nat.add_zero]
        exact hcount

end AttrProducer

/-- **`attribute` against `@AT_*`.** Cooked, from any DIE of any file, every run of
`attribute` yields at most one attribute labelled with a given name other than
`DW_AT_specification` and `DW_AT_abstract_origin`. -/
theorem attribute_label_once_vs_atval (dw : Dwarf) (d : Die) (X : Nat)
    (hX : isIndirection X = false) (l : List Value) (s : AttrProducer)
    (h : Emits (Yield.ofRes (AttrProducer.next dw)) (.init d true) l s) :
    l.countP (fun v => attrLabel v == some X) ≤ 1 :=
  (AttrProducer.emits_label_once hX h rfl).2

/-- The name `n` of a DIE, as a string attribute. -/
def nameAttr (n : Nat) : Attr := ⟨DW.atName, 0x08, .other n⟩

/-- A DIE `1` whose specification is the DIE `2` and whose abstract origin is the DIE
`3`, each of which has a name of its own. -/
def twoOriginsDie : Die :=
  .mk 1 DW.tagSubprogram
    [⟨DW.atSpecification, DW.formRef4, .ref 2⟩, ⟨DW.atAbstractOrigin, DW.formRef4, .ref 3⟩] []

/-- A unit holding `twoOriginsDie` and the two DIEs it refers to. -/
def twoOrigins : Dwarf :=
  ⟨[.mk 0 DW.tagCompileUnit []
    [twoOriginsDie, .mk 2 DW.tagSubprogram [nameAttr 2] [], .mk 3 DW.tagSubprogram [nameAttr 3] []]]⟩

/-- On `twoOriginsDie`, `attribute` yields the two references and then the name of the
abstract origin, visited first because it was scheduled last; `?AT_name` holds; but
`@AT_name` takes the name of the specification, a different attribute. -/
theorem attribute_vs_atval_on_twoOrigins :
    ∃ s, Emits (Yield.ofRes (AttrProducer.next twoOrigins)) (.init twoOriginsDie true)
        [.dw (.attr ⟨DW.atSpecification, DW.formRef4, .ref 2⟩ 1 true) 0,
          .dw (.attr ⟨DW.atAbstractOrigin, DW.formRef4, .ref 3⟩ 1 true) 1,
          .dw (.attr (nameAttr 3) 3 true) 2] s ∧
      AttrProducer.next twoOrigins 4 s = pure none ∧
      [Value.dw (.attr ⟨DW.atSpecification, DW.formRef4, .ref 2⟩ 1 true) 0,
          .dw (.attr ⟨DW.atAbstractOrigin, DW.formRef4, .ref 3⟩ 1 true) 1,
          .dw (.attr (nameAttr 3) 3 true) 2].countP (fun v => attrLabel v == some DW.atName) ≤ 1 ∧
      atnamePred twoOrigins DW.atName true 3 twoOriginsDie = pure PredResult.yes ∧
      findAttribute twoOrigins DW.atName true 3 twoOriginsDie = pure (some (nameAttr 2)) ∧
      nameAttr 2 ≠ nameAttr 3 :=
  have h : Emits (Yield.ofRes (AttrProducer.next twoOrigins)) (.init twoOriginsDie true)
      [.dw (.attr ⟨DW.atSpecification, DW.formRef4, .ref 2⟩ 1 true) 0,
        .dw (.attr ⟨DW.atAbstractOrigin, DW.formRef4, .ref 3⟩ 1 true) 1,
        .dw (.attr (nameAttr 3) 3 true) 2]
      ⟨.mk 3 DW.tagSubprogram [nameAttr 3] [], [], 3, true, true,
        [DW.atName, DW.atAbstractOrigin, DW.atSpecification],
        [.mk 2 DW.tagSubprogram [nameAttr 2] []]⟩ :=
    .cons ⟨1, rfl⟩ (.cons ⟨1, rfl⟩ (.cons ⟨2, rfl⟩ (.nil _)))
  ⟨_, h, rfl, attribute_label_once_vs_atval twoOrigins twoOriginsDie DW.atName rfl _ _ h, rfl,
    rfl, by decide⟩

end Dwgrep
