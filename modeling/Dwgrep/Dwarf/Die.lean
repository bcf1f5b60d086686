import Dwgrep.Producer

/-!
# DIEs and the producers that walk them

The debug information as libdw presents it to `builtin-dw.cc`, and the producers
behind `unit`, `entry`, `child`, `attribute`, `@AT_*` and `?AT_*`. libdw is not among
the sources: the model keeps what the producers ask of it, a DIE's tag
(`dwarf_tag`), its attributes in order (`attr_iterator`, `dwarf_attr`), the DIE a
reference points to (`dwarf_formref_die`), a unit's DIEs in pre-order
(`all_dies_iterator`) and a DIE's children (`child_iterator`).

* `Die`, `Dwarf` — a DIE with its offset, tag, attributes and children; a file is its
  units in order;
* `UnitProducer` — `dwarf_unit_producer`;
* `DieItProducer` — `die_it_producer`, with `get_it_range`, `import_partial_units`
  and `drop_finished_imports`;
* `AttrProducer` — `attribute_producer`, which in cooked mode also visits the DIEs
  that `DW_AT_specification` and `DW_AT_abstract_origin` point to;
* `findAttribute` — `find_attribute`.

The producers that loop are written as their loop bodies (`Iter`) run by `runLoop`;
each numbers its values by its counter `m_i` (`UnitProducer.next_numbers`, …).
-/

namespace Dwgrep

/-! The `dwarf.h` constants the producers test. -/

namespace DW

def tagCompileUnit : Nat := 0x11
def tagPartialUnit : Nat := 0x3c
def tagImportedUnit : Nat := 0x3d
def tagSubprogram : Nat := 0x2e
def atSibling : Nat := 0x01
def atName : Nat := 0x03
def atImport : Nat := 0x18
def atAbstractOrigin : Nat := 0x31
def atDeclaration : Nat := 0x3c
def atSpecification : Nat := 0x47
def formRef4 : Nat := 0x13

end DW

/-- A DIE as libdw reads it: its offset, its tag, its attributes in the order its
abbreviation lists them, and the DIEs it owns, in sibling order. -/
inductive Die where
  | mk (off tag : Nat) (attrs : List Attr) (children : List Die)
  deriving Repr

mutual
/-- Decidable equality of DIEs, by recursion through the children. -/
def Die.decEq : (a b : Die) → Decidable (a = b)
  | .mk o t a cs, .mk o' t' a' cs' =>
    if h : o = o' ∧ t = t' ∧ a = a' then
      match Die.decEqList cs cs' with
      | isTrue hc => isTrue (by rw [h.1, h.2.1, h.2.2, hc])
      | isFalse hc => isFalse fun e => by cases e; exact hc rfl
    else isFalse fun e => by cases e; exact h ⟨rfl, rfl, rfl⟩
/-- Decidable equality of lists of DIEs. -/
def Die.decEqList : (a b : List Die) → Decidable (a = b)
  | [], [] => isTrue rfl
  | d :: ds, e :: es =>
    match Die.decEq d e, Die.decEqList ds es with
    | isTrue h, isTrue h' => isTrue (by rw [h, h'])
    | isFalse h, _ => isFalse fun e => by cases e; exact h rfl
    | _, isFalse h => isFalse fun e => by cases e; exact h rfl
  | [], _ :: _ | _ :: _, [] => isFalse fun e => by cases e
end

instance : DecidableEq Die := Die.decEq

namespace Die

def off : Die → Nat | mk o .. => o
def tag : Die → Nat | mk _ t .. => t
def attrs : Die → List Attr | mk _ _ a _ => a
def children : Die → List Die | mk _ _ _ cs => cs

mutual
/-- The DIE and the DIEs below it in pre-order, the order of `all_dies_iterator`. -/
def preorder : Die → List Die
  | d@(mk _ _ _ cs) => d :: preorderList cs
/-- The pre-order of a list of sibling DIEs. -/
def preorderList : List Die → List Die
  | [] => []
  | c :: cs => c.preorder ++ preorderList cs
end

/-- `dwarf_attr`: the first attribute named `code`; `dwarf_hasattr` asks whether there
is one. -/
def attr? (d : Die) (code : Nat) : Option Attr := d.attrs.find? (·.code == code)

theorem self_mem_preorder (d : Die) : d ∈ d.preorder := by
  cases d; exact List.mem_cons_self _ _

theorem attr?_mem {d : Die} {code : Nat} {a : Attr} (h : d.attr? code = some a) :
    a ∈ d.attrs ∧ a.code = code :=
  ⟨List.mem_of_find?_eq_some h, by simpa using List.find?_some h⟩

mutual
/-- Pre-order is closed downwards: the DIEs below a DIE of a pre-order are in it. -/
theorem preorder_trans : ∀ (u : Die) {d x : Die}, d ∈ u.preorder → x ∈ d.preorder →
    x ∈ u.preorder
  | mk o t a cs, d, x, hd, hx => by
    rw [preorder] at hd ⊢
    rcases List.mem_cons.1 hd with rfl | hd
    · rwa [preorder] at hx
    · exact List.mem_cons_of_mem _ (preorderList_trans cs hd hx)
theorem preorderList_trans : ∀ (cs : List Die) {d x : Die}, d ∈ preorderList cs →
    x ∈ d.preorder → x ∈ preorderList cs
  | [], _, _, hd, _ => by rw [preorderList] at hd; exact nomatch hd
  | c :: cs, d, x, hd, hx => by
    rw [preorderList] at hd ⊢
    rcases List.mem_append.1 hd with hd | hd
    · exact List.mem_append_left _ (preorder_trans c hd hx)
    · exact List.mem_append_right _ (preorderList_trans cs hd hx)
end

theorem child_mem_preorder {d c : Die} (h : c ∈ d.children) : c ∈ d.preorder := by
  obtain ⟨o, t, a, cs⟩ := d
  rw [preorder]
  refine List.mem_cons_of_mem _ ?_
  induction cs with
  | nil => exact nomatch h
  | cons c' cs ih =>
    rw [preorderList]
    rcases List.mem_cons.1 h with rfl | h
    · exact List.mem_append_left _ (self_mem_preorder _)
    · exact List.mem_append_right _ (ih h)

end Die

/-- A file's debug information: its units in order, each given by its unit DIE. -/
structure Dwarf where
  units : List Die

namespace Dwarf

/-- Every DIE of the file, unit by unit, each unit in pre-order. -/
def dies (dw : Dwarf) : List Die := dw.units.flatMap Die.preorder

/-- The DIE at an offset. -/
def find (dw : Dwarf) (off : Nat) : Option Die := dw.dies.find? (·.off == off)

/-- `cu_iterator {dw, cudie}`: the unit that holds the DIE at an offset. -/
def unitOf (dw : Dwarf) (off : Nat) : Option Die :=
  dw.units.find? fun u => u.preorder.any (·.off == off)

/-- `dwarf_formref_die`: the DIE a reference attribute points to. -/
def formrefDie (dw : Dwarf) (a : Attr) : Option Die :=
  match a.val with
  | .ref o => dw.find o
  | .other _ => none

variable {dw : Dwarf}

theorem mem_dies {d : Die} : d ∈ dw.dies ↔ ∃ u ∈ dw.units, d ∈ u.preorder := by
  simp [dies]

theorem formrefDie_mem {a : Attr} {t : Die} (h : dw.formrefDie a = some t) : t ∈ dw.dies := by
  unfold formrefDie at h
  split at h
  · exact List.mem_of_find?_eq_some h
  · exact nomatch h

theorem unitOf_mem {o : Nat} {u : Die} (h : dw.unitOf o = some u) : u ∈ dw.units :=
  List.mem_of_find?_eq_some h

theorem child_mem_dies {d c : Die} (hd : d ∈ dw.dies) (hc : c ∈ d.children) : c ∈ dw.dies := by
  obtain ⟨u, hu, hd⟩ := mem_dies.1 hd
  exact mem_dies.2 ⟨u, hu, Die.preorder_trans u hd (Die.child_mem_preorder hc)⟩

end Dwarf

/-! ## `unit` -/

/-- `dwarf_unit_producer`: the units still to visit across the file's Dwarfs
(`m_it` and `m_cuit`), the counter `m_i` and the doneness. -/
structure UnitProducer where
  units : List Die
  i : Nat
  cooked : Bool

namespace UnitProducer

/-- One round of the loop of `dwarf_unit_producer::next`: in cooked mode
`next_acceptable_unit` passes over partial units. -/
def body (p : UnitProducer) : Except Fault (Iter UnitProducer) :=
  .ok <| match p.units with
    | [] => .done
    | u :: us =>
      if p.cooked && u.tag == DW.tagPartialUnit then .again { p with units := us }
      else .yield (.dw (.cu u.off p.cooked) p.i) { p with units := us, i := p.i + 1 }

/-- `dwarf_unit_producer::next`. -/
def next : Nat → UnitProducer → Res (Option (Value × UnitProducer)) := runLoop body

theorem next_numbers : Numbers (Yield.ofRes next) i := by
  refine runLoop_numbers _ _ (fun s s' h => ?_) (fun s v s' h => ?_) <;>
  · simp only [body] at h
    repeat' split at h
    all_goals cases h
    all_goals first | rfl | exact ⟨rfl, rfl⟩

end UnitProducer

/-! ## `entry` and `child` -/

/-- The iterators `die_it_producer` is instantiated with. -/
inductive DieIt where
  /-- `all_dies_iterator`, behind `entry` -/
  | allDies
  /-- `child_iterator`, behind `child` -/
  | child
  deriving DecidableEq, Repr

/-- `get_it_range`: for `all_dies_iterator` the pre-order of the unit that holds
`cudie`, without its first DIE if `skip`; for `child_iterator` the children of
`cudie`. -/
def getItRange (dw : Dwarf) : DieIt → Die → Bool → List Die
  | .allDies, cudie, skip =>
    let r := (dw.unitOf cudie.off).elim [] Die.preorder
    if skip then r.drop 1 else r
  | .child, cudie, _ => cudie.children

/-- The test of `import_partial_units`: a `DW_TAG_imported_unit` DIE whose
`DW_AT_import` resolves, and the DIE it resolves to. -/
def importTarget (dw : Dwarf) (d : Die) : Option Die :=
  if d.tag = DW.tagImportedUnit then (d.attr? DW.atImport).bind dw.formrefDie else none

theorem getItRange_mem {dw : Dwarf} {it : DieIt} {cudie d : Die} {skip : Bool}
    (hc : cudie ∈ dw.dies) (hd : d ∈ getItRange dw it cudie skip) : d ∈ dw.dies := by
  cases it with
  | child => exact dw.child_mem_dies hc hd
  | allDies =>
    simp only [getItRange] at hd
    rcases hu : dw.unitOf cudie.off with _ | u
    · rw [hu] at hd; cases skip <;> exact nomatch hd
    · rw [hu] at hd
      have hd : d ∈ u.preorder := by
        cases skip
        · exact hd
        · exact List.mem_of_mem_drop hd
      exact Dwarf.mem_dies.2 ⟨u, Dwarf.unitOf_mem hu, hd⟩

theorem importTarget_mem {dw : Dwarf} {d t : Die} (h : importTarget dw d = some t) :
    t ∈ dw.dies := by
  unfold importTarget at h
  split at h
  · obtain ⟨a, -, ha⟩ := Option.bind_eq_some.1 h
    exact Dwarf.formrefDie_mem ha
  · exact nomatch h

/-- `die_it_producer`: the stack of iterator ranges `m_stack`, innermost first, the
chain `m_import` of imported-unit DIEs the innermost range was reached through,
innermost first, the counter `m_i` and the doneness. -/
structure DieItProducer where
  stack : List (List Die)
  imports : List Nat
  i : Nat
  cooked : Bool

namespace DieItProducer

/-- The constructor: one range, of the unit's DIEs or of the DIE's children. -/
def init (dw : Dwarf) (it : DieIt) (die : Die) (cooked : Bool) : DieItProducer :=
  ⟨[getItRange dw it die false], [], 0, cooked⟩

/-- One round of the loop of `die_it_producer::next`: stop on an empty stack, drop a
finished range (`drop_finished_imports`), in cooked mode enter the unit an imported-unit
DIE imports (`import_partial_units`), or yield the next DIE with the import chain. -/
def body (dw : Dwarf) (it : DieIt) (p : DieItProducer) : Except Fault (Iter DieItProducer) :=
  .ok <| match p.stack with
    | [] => .done
    | [] :: rest => .again { p with stack := rest, imports := p.imports.tail }
    | (d :: ds) :: rest =>
      match p.cooked, importTarget dw d with
      | true, some cudie =>
        .again { p with stack := getItRange dw it cudie true :: ds :: rest,
                        imports := d.off :: p.imports }
      | _, _ =>
        .yield (.dw (.die p.imports d.off p.cooked) p.i) { p with stack := ds :: rest, i := p.i + 1 }

/-- `die_it_producer::next`. -/
def next (dw : Dwarf) (it : DieIt) : Nat → DieItProducer → Res (Option (Value × DieItProducer)) :=
  runLoop (body dw it)

theorem next_numbers (dw : Dwarf) (it : DieIt) : Numbers (Yield.ofRes (next dw it)) i := by
  refine runLoop_numbers _ _ (fun s s' h => ?_) (fun s v s' h => ?_) <;>
  · simp only [body] at h
    repeat' split at h
    all_goals cases h
    all_goals first | rfl | exact ⟨rfl, rfl⟩

end DieItProducer

/-! ## `attribute` -/

/-- `attr_should_be_integrated`: whether an attribute is brought down through
`DW_AT_specification` and `DW_AT_abstract_origin`. -/
def attrShouldBeIntegrated (code : Nat) : Bool :=
  !(code == DW.atSibling || code == DW.atDeclaration)

/-- The attributes cooked iteration follows: `DW_AT_specification` and
`DW_AT_abstract_origin`. -/
def isIndirection (code : Nat) : Bool :=
  code == DW.atSpecification || code == DW.atAbstractOrigin

/-- `attribute_producer`: the DIE `m_die`, the attributes `m_it` has still to visit,
the counter `m_i`, the doneness, whether `m_die` was reached through an indirection
(`m_secondary`), the names already yielded (`m_seen`, latest first) and the DIEs
scheduled for a visit (`m_next`, latest first). -/
structure AttrProducer where
  die : Die
  it : List Attr
  i : Nat
  cooked : Bool
  secondary : Bool
  seen : List Nat
  pending : List Die

namespace AttrProducer

/-- The constructor: `m_next` holds the DIE, and `next_die` makes it current. -/
def init (d : Die) (cooked : Bool) : AttrProducer := ⟨d, d.attrs, 0, cooked, false, [], []⟩

/-- One round of the loop of `attribute_producer::next`. With `m_it` at its end, cooked
iteration moves to the next scheduled DIE (`next_die`). Otherwise the next attribute is
taken: in cooked mode an indirection is scheduled (`schedule`, which throws if it does
not resolve) and yielded without the seen-check; an attribute of a DIE reached through
an indirection that should not be integrated is passed over; in cooked mode a name
already yielded is passed over. -/
def body (dw : Dwarf) (p : AttrProducer) : Except Fault (Iter AttrProducer) :=
  match p.it with
  | [] =>
    match p.cooked, p.pending with
    | true, d :: ds =>
      .ok (.again { p with die := d, it := d.attrs, pending := ds, secondary := true })
    | _, _ => .ok .done
  | a :: rest =>
    let p := { p with it := rest }
    let v := Value.dw (.attr a p.die.off p.cooked) p.i
    if p.cooked && isIndirection a.code then
      match dw.formrefDie a with
      | none => .error .libdw
      | some d =>
        .ok (.yield v { p with pending := d :: p.pending, seen := a.code :: p.seen, i := p.i + 1 })
    else if p.secondary && !attrShouldBeIntegrated a.code then .ok (.again p)
    else if p.cooked && p.seen.contains a.code then .ok (.again p)
    else .ok (.yield v { p with seen := a.code :: p.seen, i := p.i + 1 })

/-- `attribute_producer::next`. -/
def next (dw : Dwarf) : Nat → AttrProducer → Res (Option (Value × AttrProducer)) :=
  runLoop (body dw)

theorem next_numbers (dw : Dwarf) : Numbers (Yield.ofRes (next dw)) i := by
  refine runLoop_numbers _ _ (fun s s' h => ?_) (fun s v s' h => ?_) <;>
  · simp only [body] at h
    repeat' split at h
    all_goals cases h
    all_goals first | rfl | exact ⟨rfl, rfl⟩

end AttrProducer

/-! ## `@AT_*` and `?AT_*` -/

/-- `find_attribute`: the DIE's own attribute named `atname`; failing that, in cooked
mode and for a name that is integrated, the attribute found from the DIE that
`DW_AT_specification` points to, and failing that from the one `DW_AT_abstract_origin`
points to. `dwpp_formref_die` throws on a reference that does not resolve. The fuel
bounds the depth of the recursion. -/
def findAttribute (dw : Dwarf) (atname : Nat) (cooked : Bool) : Nat → Die → Res (Option Attr)
  | 0, _ => Res.stop
  | n + 1, a =>
    match a.attr? atname with
    | some at_ => pure (some at_)
    | none =>
      if cooked && attrShouldBeIntegrated atname then
        let recursivelyFindAt (atname2 : Nat) : Res (Option Attr) :=
          match a.attr? atname2 with
          | some at_ =>
            match dw.formrefDie at_ with
            | some d => findAttribute dw atname cooked n d
            | none => throw .libdw
          | none => pure none
        do
          match ← recursivelyFindAt DW.atSpecification with
          | some at_ => pure (some at_)
          | none => recursivelyFindAt DW.atAbstractOrigin
      else pure none

/-! ## Positions -/

/-- A producer numbered by a counter that starts at `0` positions its `k`-th value at
`k`. -/
theorem Numbers.from_zero {σ : Type} {y : Yield σ} {cnt : σ → Nat} (hy : Numbers y cnt)
    {s s' : σ} (hs : cnt s = 0) {l : List Value} (h : Emits y s l s') :
    l.map Value.pos = List.range l.length := by
  rw [h.positions hy, hs, List.range_eq_range']

/-- **Every producer but `relem` on a location expression numbers its stream.** From a
fresh state, the `k`-th value yielded by `elem` and `relem` on a sequence or an address
set, `elem` on a location expression, `range`, `unit`, `entry`, `child` and `attribute`
has position `k`. -/
theorem fresh_producers_number_from_zero :
    (∀ forward seq l s, Emits (Yield.ofFn (SeqProducer.next forward)) ⟨seq, 0⟩ l s →
      l.map Value.pos = List.range l.length) ∧
    (∀ cov forward l s, Emits (Yield.ofExcept AsetProducer.next) (.init cov forward) l s →
      l.map Value.pos = List.range l.length) ∧
    (∀ a e l s, Emits (Yield.ofFn LoclistProducer.next) (.init a e true) l s →
      l.map Value.pos = List.range l.length) ∧
    (∀ cov l s, Emits (Yield.ofFn RangeProducer.next) ⟨cov, 0⟩ l s →
      l.map Value.pos = List.range l.length) ∧
    (∀ units cooked l s, Emits (Yield.ofRes UnitProducer.next) ⟨units, 0, cooked⟩ l s →
      l.map Value.pos = List.range l.length) ∧
    (∀ dw it d cooked l s, Emits (Yield.ofRes (DieItProducer.next dw it)) (.init dw it d cooked) l s →
      l.map Value.pos = List.range l.length) ∧
    (∀ dw d cooked l s, Emits (Yield.ofRes (AttrProducer.next dw)) (.init d cooked) l s →
      l.map Value.pos = List.range l.length) :=
  ⟨fun forward _ _ _ h => (SeqProducer.next_numbers forward).from_zero rfl h,
    fun _ _ _ _ h => AsetProducer.next_numbers.from_zero rfl h,
    fun _ _ _ _ h =>
      (LoclistProducer.emits_positions h).trans ((List.map_id _).trans (List.range_eq_range' _).symm),
    fun _ _ _ h => RangeProducer.next_numbers.from_zero rfl h,
    fun _ _ _ _ h => UnitProducer.next_numbers.from_zero rfl h,
    fun dw it _ _ _ _ h => (DieItProducer.next_numbers dw it).from_zero rfl h,
    fun dw _ _ _ _ h => (AttrProducer.next_numbers dw).from_zero rfl h⟩

/-- `elem` on `["a", "b"]` yields the two strings at positions `0` and `1`. -/
theorem fresh_producers_number_from_zero_seq :
    Emits (Yield.ofFn (SeqProducer.next true)) ⟨[.str "a" 5, .str "b" 7], 0⟩
        [.str "a" 0, .str "b" 1] ⟨[.str "a" 5, .str "b" 7], 2⟩ ∧
      [Value.str "a" 0, .str "b" 1].map Value.pos = List.range 2 :=
  have h : Emits (Yield.ofFn (SeqProducer.next true)) ⟨[.str "a" 5, .str "b" 7], 0⟩
      [.str "a" 0, .str "b" 1] ⟨[.str "a" 5, .str "b" 7], 2⟩ := .cons rfl (.cons rfl (.nil _))
  ⟨h, fresh_producers_number_from_zero.1 true _ _ _ h⟩

end Dwgrep
