import Dwgrep.Dwarf.Import

/-!
# `parent`, `root` and the import context

A cooked DIE reached inside an imported partial unit carries the chain of imported-unit
DIEs it was reached through. `root` follows that chain out to the unit the DIE was
explored from, and `parent` walks across a partial-unit root to the imported-unit DIE
before it. But `op_parent_die` builds the parent without a chain, and
`make_die_child_producer` starts the children without one, so the context is lost one
step up or one step down.

* `Dwarf.parentOf`, `Dwarf.Forest` — the parent in the DIE tree, and the well-formedness
  of a DIE forest (an offset names one DIE, lies in one unit and has one parent);
* `parentDie`, `rootDie`, `opChildDie` — `op_parent_die`, `op_root_die` and
  `op_child_die`;
* `root_of_expands`, `parentDie_of_expands` — what `root` and `parent` give on the DIEs
  of a cooked walk;
* `entry_parent_root_leaves_context` — **on every DIE `entry` yields, `root` is the
  unit the walk started at, but `parent` drops the chain, so the parent's `root` is
  the root of whatever unit holds the parent**;
* `child_parent_forgets_import_chain` — **the children `child` yields have the DIE as
  their `parent`, with the empty chain, whatever chain the DIE had**.
-/

namespace Dwgrep

namespace DW

def tagMember : Nat := 0x0d
def tagStructureType : Nat := 0x13

end DW

namespace Dwarf

/-- `dwfl_context::find_parent` with `dwarf_offdie`: the DIE whose children include the
DIE at an offset; nothing for a root. -/
def parentOf (dw : Dwarf) (off : Nat) : Option Die :=
  dw.dies.find? fun p => p.children.any (·.off == off)

/-- A DIE forest: an offset names one DIE, and the DIEs at one offset lie in one unit
and have one parent. -/
structure Forest (dw : Dwarf) : Prop where
  off_unique : ∀ x ∈ dw.dies, ∀ y ∈ dw.dies, x.off = y.off → x = y
  unit_unique : ∀ u ∈ dw.units, ∀ v ∈ dw.units, ∀ x ∈ u.preorder, ∀ y ∈ v.preorder,
    x.off = y.off → u = v
  parent_unique : ∀ p ∈ dw.dies, ∀ q ∈ dw.dies, ∀ x ∈ p.children, ∀ y ∈ q.children,
    x.off = y.off → p = q

variable {dw : Dwarf}

/-- In a forest, the unit of a DIE is the unit whose pre-order holds it. -/
theorem Forest.unitOf_of_mem (hf : dw.Forest) {u x : Die} (hu : u ∈ dw.units)
    (hx : x ∈ u.preorder) : dw.unitOf x.off = some u := by
  cases h : dw.units.find? fun v => v.preorder.any (·.off == x.off) with
  | none =>
    exact absurd (List.find?_eq_none.1 h u hu) (by simpa using ⟨x, hx, rfl⟩)
  | some v =>
    obtain ⟨y, hy, hyx⟩ := by simpa using List.find?_some h
    rw [unitOf, h, hf.unit_unique v (List.mem_of_find?_eq_some h) u hu y hy x hx hyx]

/-- In a forest, the parent of a child is the DIE that owns it. -/
theorem Forest.parentOf_child (hf : dw.Forest) {t x : Die} (ht : t ∈ dw.dies)
    (hx : x ∈ t.children) : dw.parentOf x.off = some t := by
  cases h : dw.dies.find? fun p => p.children.any (·.off == x.off) with
  | none =>
    exact absurd (List.find?_eq_none.1 h t ht) (by simpa using ⟨x, hx, rfl⟩)
  | some p =>
    obtain ⟨y, hy, hyx⟩ := by simpa using List.find?_some h
    rw [parentOf, h, hf.parent_unique p (List.mem_of_find?_eq_some h) t ht y hy x hx hyx]

/-- In a forest, the DIE at the offset of a DIE of the file is that DIE. -/
theorem Forest.find_of_mem (hf : dw.Forest) {x : Die} (hx : x ∈ dw.dies) :
    dw.find x.off = some x := by
  cases h : dw.dies.find? (·.off == x.off) with
  | none => exact absurd (List.find?_eq_none.1 h x hx) (by simp)
  | some y =>
    rw [find, h, hf.off_unique y (List.mem_of_find?_eq_some h) x hx
      (by simpa using List.find?_some h)]

end Dwarf

/-! ## The operators -/

/-- `op_parent_die::do_operate` on the DIE at `off` with import chain `chain`: its
parent; for a cooked DIE whose parent is a partial-unit root, the parent of the
imported-unit DIE the chain names first (`pop_import`), and so on. The parent is built
without an import chain, at position 0. -/
def parentDie (dw : Dwarf) (cooked : Bool) : List Nat → Nat → Option Value
  | [], off => (dw.parentOf off).map fun par => .dw (.die [] par.off cooked) 0
  | imp :: chain, off =>
    match dw.parentOf off with
    | none => none
    | some par =>
      if cooked && par.tag == DW.tagPartialUnit then parentDie dw cooked chain imp
      else some (.dw (.die [] par.off cooked) 0)

/-- `op_root_die::do_operate`: for a cooked DIE, the outermost DIE of its import chain;
then the root of the unit that holds it (`dwpp_cudie`), without an import chain, at
position 0. -/
def rootDie (dw : Dwarf) (cooked : Bool) (chain : List Nat) (off : Nat) : Option Value :=
  let top := if cooked then chain.getLast?.getD off else off
  (dw.unitOf top).map fun u => .dw (.die [] u.off cooked) 0

/-- `op_child_die::operate`: the producer of the children of the DIE at `off`, made from
the DIE and its doneness alone (`make_die_child_producer`). -/
def opChildDie (dw : Dwarf) (cooked : Bool) (_chain : List Nat) (off : Nat) :
    Option DieItProducer :=
  (dw.find off).map fun die => DieItProducer.init dw .child die cooked

/-- In a forest, the cooked `root` of a DIE with the empty chain is the root of a unit
`cu` exactly when the DIE lies in `cu`. -/
theorem Dwarf.Forest.rootDie_nil_iff {dw : Dwarf} (hf : dw.Forest) {cu : Die}
    (hcu : cu ∈ dw.units) (q : Nat) :
    rootDie dw true [] q = some (.dw (.die [] cu.off true) 0) ↔ dw.unitOf q = some cu := by
  simp only [rootDie, if_true, List.getLast?_nil, Option.getD_none]
  refine ⟨fun e => ?_, fun e => by rw [e, Option.map_some']⟩
  obtain ⟨u, hu, hue⟩ := Option.map_eq_some'.1 e
  simp only [Value.dw.injEq, DwHandle.die.injEq, true_and, and_true] at hue
  rw [hu, hf.unit_unique u (Dwarf.unitOf_mem hu) cu hcu u (Die.self_mem_preorder u) cu
    (Die.self_mem_preorder cu) hue]

/-- `parent` always yields a DIE with the empty import chain. -/
theorem parentDie_chain_nil (dw : Dwarf) (cooked : Bool) :
    ∀ (chain : List Nat) (off : Nat) (p : Value), parentDie dw cooked chain off = some p →
      ∃ q, p = .dw (.die [] q cooked) 0
  | [], off, p, h => by
    obtain ⟨par, -, rfl⟩ := Option.map_eq_some'.1 h
    exact ⟨_, rfl⟩
  | imp :: chain, off, p, h => by
    simp only [parentDie] at h
    split at h
    · exact nomatch h
    · split at h
      · exact parentDie_chain_nil dw cooked chain imp p h
      · exact ⟨_, (Option.some.inj h).symm⟩

/-! ## On the DIEs of a walk -/

/-- The DIE a cooked `root` starts from: the outermost of the chain, or the DIE itself. -/
theorem root_of_expands {dw : Dwarf} {cu : Die} {chain : List Nat} {l : List Die}
    {out : List (List Nat × Die)} (h : Expands dw .allDies chain l out)
    (hl : ∀ x ∈ l, dw.unitOf (chain.getLast?.getD x.off) = some cu) :
    ∀ y ∈ out, dw.unitOf (y.1.getLast?.getD y.2.off) = some cu := by
  induction h with
  | nil => exact nofun
  | keep _ _ ih =>
    intro y hy
    rcases List.mem_cons.1 hy with rfl | hy
    · exact hl _ (List.mem_cons_self _ _)
    · exact ih (fun x hx => hl x (List.mem_cons_of_mem _ hx)) y hy
  | @enter chain d t ds _ _ _ _ _ ih₁ ih₂ =>
    intro y hy
    rcases List.mem_append.1 hy with hy | hy
    · refine ih₁ (fun x _ => ?_) y hy
      rw [List.getLast?_cons, Option.getD_some]
      exact hl d (List.mem_cons_self _ _)
    · exact ih₂ (fun x hx => hl x (List.mem_cons_of_mem _ hx)) y hy

section Walk

variable {dw : Dwarf} (hf : dw.Forest)
include hf

/-- With imports that open partial units, `parent` on a DIE of a walk of children
crosses every partial-unit root back to the DIEs the walk started under. -/
theorem parentDie_of_expands
    (hpu : ∀ d ∈ dw.dies, ∀ t ∈ importTarget dw d, t.tag = DW.tagPartialUnit) {R : Value}
    {chain : List Nat} {l : List Die} {out : List (List Nat × Die)}
    (h : Expands dw .child chain l out)
    (hl : ∀ x ∈ l, x ∈ dw.dies ∧ parentDie dw true chain x.off = some R) :
    ∀ y ∈ out, parentDie dw true y.1 y.2.off = some R := by
  induction h with
  | nil => exact nofun
  | keep _ _ ih =>
    intro y hy
    rcases List.mem_cons.1 hy with rfl | hy
    · exact (hl _ (List.mem_cons_self _ _)).2
    · exact ih (fun x hx => hl x (List.mem_cons_of_mem _ hx)) y hy
  | @enter chain d t ds _ _ ht _ _ ih₁ ih₂ =>
    intro y hy
    obtain ⟨hd, hpar⟩ := hl d (List.mem_cons_self _ _)
    have htd := importTarget_mem ht
    rcases List.mem_append.1 hy with hy | hy
    · refine ih₁ (fun x hx => ⟨Dwarf.child_mem_dies htd hx, ?_⟩) y hy
      simp only [parentDie, hf.parentOf_child htd hx, hpu d hd t ht, beq_self_eq_true,
        Bool.and_self, if_true]
      exact hpar
    · exact ih₂ (fun x hx => hl x (List.mem_cons_of_mem _ hx)) y hy

end Walk

/-! ## `parent` and `root` after `entry` -/

/-- **`entry`, `parent` and `root`.** In a forest with acyclic imports, take any value
`entry` yields, cooked, on a unit: a DIE with its import chain. Its `root` is the unit's
root. Its `parent`, if any, is a DIE with the empty chain, and the parent's `root` is
that same unit's root exactly when the parent DIE lies in the unit: for a DIE nested
below the root of an imported partial unit it does not. -/
theorem entry_parent_root_leaves_context (dw : Dwarf) (hf : dw.Forest) (rank : Die → Nat)
    (hacyc : ImportsAcyclic dw .allDies rank) (cu : Die) (hcu : cu ∈ dw.units)
    (l : List Value) (s : DieItProducer)
    (h : Emits (Yield.ofRes (DieItProducer.next dw .allDies)) (.init dw .allDies cu true) l s) :
    ∀ v ∈ l, ∃ chain off k, v = .dw (.die chain off true) k ∧
      rootDie dw true chain off = some (.dw (.die [] cu.off true) 0) ∧
      ∀ p ∈ parentDie dw true chain off, ∃ q, p = .dw (.die [] q true) 0 ∧
        (rootDie dw true [] q = rootDie dw true chain off ↔ dw.unitOf q = some cu) := by
  have hcu' : cu ∈ dw.dies := Dwarf.mem_dies.2 ⟨cu, hcu, Die.self_mem_preorder cu⟩
  have hunit := hf.unitOf_of_mem hcu (Die.self_mem_preorder cu)
  obtain ⟨out, hout, hl⟩ := mem_walk_of_emits hacyc hcu' h
  have hroot := root_of_expands hout fun x hx => by
    simp only [getItRange, hunit, Option.elim, if_false] at hx
    exact hf.unitOf_of_mem hcu hx
  intro v hv
  obtain ⟨⟨chain, d⟩, hy, k, rfl⟩ := hl v hv
  have hr : rootDie dw true chain d.off = some (.dw (.die [] cu.off true) 0) := by
    simp only [rootDie, if_true, hroot _ hy, Option.map_some']
  refine ⟨chain, d.off, k, rfl, hr, fun p hp => ?_⟩
  obtain ⟨q, rfl⟩ := parentDie_chain_nil dw true chain d.off p hp
  exact ⟨q, rfl, hr ▸ hf.rootDie_nil_iff hcu q⟩

/-- A structure `11` with a member `12`. -/
def nestedStruct : Die := .mk 11 DW.tagStructureType [] [.mk 12 DW.tagMember [] []]

/-- A compile unit `0` whose imported-unit DIE `1` imports the partial unit `10`, which
holds the structure `11`. -/
def nestedImport : Dwarf :=
  ⟨[.mk 0 DW.tagCompileUnit [] [importOfTen 1], .mk 10 DW.tagPartialUnit [] [nestedStruct]]⟩

/-- The compile unit of `nestedImport`. -/
def nestedUnit : Die := .mk 0 DW.tagCompileUnit [] [importOfTen 1]

theorem nestedImport_forest : nestedImport.Forest :=
  ⟨by decide, by decide, by decide⟩

/-- `entry` on the unit of `nestedImport` yields the member `12` with chain `[1]`. Its
`root` is the compile unit `0`, but its `parent` is the structure `11` with the empty
chain, whose `root` is the partial unit `10`. -/
theorem entry_parent_root_on_nestedImport :
    ∃ s, Emits (Yield.ofRes (DieItProducer.next nestedImport .allDies))
        (.init nestedImport .allDies nestedUnit true)
        [.dw (.die [] 0 true) 0, .dw (.die [1] 11 true) 1, .dw (.die [1] 12 true) 2] s ∧
      rootDie nestedImport true [1] 12 = some (.dw (.die [] 0 true) 0) ∧
      parentDie nestedImport true [1] 12 = some (.dw (.die [] 11 true) 0) ∧
      rootDie nestedImport true [] 11 = some (.dw (.die [] 10 true) 0) ∧
      (rootDie nestedImport true [] 11 = rootDie nestedImport true [1] 12 ↔
        nestedImport.unitOf 11 = some nestedUnit) := by
  have hacyc : ImportsAcyclic nestedImport .allDies (100 - ·.off) := by
    unfold ImportsAcyclic; decide
  obtain ⟨s, he⟩ : ∃ s, Emits (Yield.ofRes (DieItProducer.next nestedImport .allDies))
      (.init nestedImport .allDies nestedUnit true)
      [.dw (.die [] 0 true) 0, .dw (.die [1] 11 true) 1, .dw (.die [1] 12 true) 2] s :=
    ⟨_, .cons ⟨1, rfl⟩ (.cons ⟨2, rfl⟩ (.cons ⟨1, rfl⟩ (.nil _)))⟩
  obtain ⟨chain, off, k, hv, -, hp⟩ := entry_parent_root_leaves_context nestedImport
    nestedImport_forest _ hacyc nestedUnit (by decide) _ _ he (.dw (.die [1] 12 true) 2)
    (by simp)
  simp only [Value.dw.injEq, DwHandle.die.injEq, and_true] at hv
  obtain ⟨⟨rfl, rfl⟩, rfl⟩ := hv
  obtain ⟨q, hq, hiff⟩ := hp (.dw (.die [] 11 true) 0) rfl
  cases hq
  exact ⟨s, he, rfl, rfl, rfl, hiff⟩

/-! ## `parent` after `child` -/

/-- **`child` and `parent`.** In a forest with acyclic imports in which every import
opens a partial unit, take any DIE with any import chain: every value `child` yields on
it is a DIE whose `parent` is that DIE with the empty chain. So `c parent` gives back
the DIE `d` that `c` came from only when `d`'s chain is empty. -/
theorem child_parent_forgets_import_chain (dw : Dwarf) (hf : dw.Forest) (rank : Die → Nat)
    (hacyc : ImportsAcyclic dw .child rank)
    (hpu : ∀ d ∈ dw.dies, ∀ t ∈ importTarget dw d, t.tag = DW.tagPartialUnit)
    (chain : List Nat) (die : Die) (hdie : die ∈ dw.dies) :
    ∃ p, opChildDie dw true chain die.off = some p ∧
      ∀ l s, Emits (Yield.ofRes (DieItProducer.next dw .child)) p l s →
        ∀ v ∈ l, ∃ cchain coff k, v = .dw (.die cchain coff true) k ∧
          parentDie dw true cchain coff = some (.dw (.die [] die.off true) 0) := by
  refine ⟨_, by rw [opChildDie, hf.find_of_mem hdie]; rfl, fun l s h v hv => ?_⟩
  obtain ⟨out, hout, hl⟩ := mem_walk_of_emits hacyc hdie h
  obtain ⟨⟨cchain, c⟩, hy, k, rfl⟩ := hl v hv
  refine ⟨cchain, c.off, k, rfl, parentDie_of_expands hf hpu hout (fun x hx => ?_) _ hy⟩
  refine ⟨Dwarf.child_mem_dies hdie hx, ?_⟩
  simp only [parentDie, hf.parentOf_child hdie hx, Option.map_some']

/-- On `nestedImport`, `entry` yields the structure `11` with chain `[1]`; `child` on it
yields the member `12`, whose `parent` is the structure with the empty chain. -/
theorem child_parent_on_nestedImport :
    opChildDie nestedImport true [1] 11 = some (.init nestedImport .child nestedStruct true) ∧
      Emits (Yield.ofRes (DieItProducer.next nestedImport .child))
        (.init nestedImport .child nestedStruct true) [.dw (.die [] 12 true) 0]
        ⟨[[]], [], 1, true⟩ ∧
      parentDie nestedImport true [] 12 = some (.dw (.die [] 11 true) 0) ∧
      (.dw (.die [] 11 true) 0 : Value) ≠ .dw (.die [1] 11 true) 0 := by
  have hacyc : ImportsAcyclic nestedImport .child (100 - ·.off) := by
    unfold ImportsAcyclic; decide
  have hpu : ∀ d ∈ nestedImport.dies, ∀ t ∈ importTarget nestedImport d,
      t.tag = DW.tagPartialUnit := by decide
  have hS : opChildDie nestedImport true [1] 11 =
      some (.init nestedImport .child nestedStruct true) := rfl
  have he : Emits (Yield.ofRes (DieItProducer.next nestedImport .child))
      (.init nestedImport .child nestedStruct true) [.dw (.die [] 12 true) 0]
      ⟨[[]], [], 1, true⟩ := .cons ⟨1, rfl⟩ (.nil _)
  obtain ⟨p, hp, hpar⟩ := child_parent_forgets_import_chain nestedImport nestedImport_forest
    _ hacyc hpu [1] nestedStruct (by decide)
  obtain rfl := Option.some.inj (hS.symm.trans hp)
  obtain ⟨cchain, coff, k, hv, hq⟩ := hpar _ _ he _ (List.mem_singleton_self _)
  simp only [Value.dw.injEq, DwHandle.die.injEq, and_true] at hv
  obtain ⟨⟨rfl, rfl⟩, rfl⟩ := hv
  exact ⟨hS, he, hq, by decide⟩

end Dwgrep
