import Mathlib.Logic.Function.Basic

/-!
# Values

The value universe of libzwerg (`value.hh`, `value-seq.cc`). Every value carries a
*position*, its index in the stream that produced it. Sequences are modelled as
`value_seq` has them; the classes of the other variants (`value-cst.cc`,
`value-str.cc`, `value-closure.cc`, `value-dw.cc`, `coverage.hh`) are not among the
sources, so their comparison and rendering are fields of a `Runtime`.

* `CmpResult` — `cmp_result`;
* `Value` — the variants, each with its position;
* `Value.cmp` — `value_seq::cmp`: lengths, then element types, then elements;
* `Value.clone` — `value_seq`'s copy constructor through `clone_seq`.
-/

namespace Dwgrep

/-- `cmp_result`: the outcome of `value::cmp`. -/
inductive CmpResult where
  | less
  | equal
  | greater
  /-- the two values cannot be compared -/
  | fail
  deriving DecidableEq, Repr

namespace CmpResult

/-- The outcome with the two arguments exchanged. -/
def swap : CmpResult → CmpResult
  | less => greater
  | greater => less
  | r => r

/-- Lexicographic combination, the early returns of `value_seq::cmp`: `r` decides
unless it is `equal`. -/
def «then» (r k : CmpResult) : CmpResult :=
  match r with
  | equal => k
  | r => r

@[simp] theorem swap_swap (r : CmpResult) : r.swap.swap = r := by cases r <;> rfl

@[simp] theorem equal_then (k : CmpResult) : equal.then k = k := rfl

end CmpResult

/-- `compare` on naturals, as `value_seq::cmp` applies it to lengths and type codes. -/
def cmpNat (a b : Nat) : CmpResult :=
  if a < b then .less else if b < a then .greater else .equal

/-- `compare_sequences`: `std::mismatch` under `c`. The first pair that does not compare
`equal` decides; sequences that agree pairwise compare `equal`. -/
def compareSequences {α : Type} (c : α → α → CmpResult) : List α → List α → CmpResult
  | a :: as, b :: bs => (c a b).then (compareSequences c as bs)
  | _, _ => .equal

/-- `constant`: an integer and the domain that renders it (`constant.hh`). -/
structure Constant where
  value : Int
  dom : Nat
  deriving DecidableEq, Repr

/-- One range `[start, start + length)` of a coverage (`coverage.hh`). -/
structure Range where
  start : Nat
  length : Nat
  deriving DecidableEq, Repr

/-- How libdw decodes an attribute's value: a reference to the DIE at an offset, or
anything else. -/
inductive AttrVal where
  | ref (off : Nat)
  | other (n : Nat)
  deriving DecidableEq, Repr

/-- `Dwarf_Attribute`: the attribute name `DW_AT_*`, its form and its value. -/
structure Attr where
  code : Nat
  form : Nat
  val : AttrVal
  deriving DecidableEq, Repr

/-- `Dwarf_Op`: one operator of a location expression. -/
structure LocOp where
  atom : Nat
  number : Nat
  number2 : Nat
  offset : Nat
  deriving DecidableEq, Repr

/-- The payloads of the debug-info variants (`value-dw.hh`): handles into the file,
with the doneness (`raw` or `cooked`) they were produced in. A DIE carries the chain
of `DW_TAG_imported_unit` DIEs through which it was reached, innermost first. -/
inductive DwHandle where
  | dwarf (file : Nat) (cooked : Bool)
  | cu (off : Nat) (cooked : Bool)
  | die (imports : List Nat) (off : Nat) (cooked : Bool)
  | attr (a : Attr) (die : Nat) (cooked : Bool)
  | loclistElem (a : Attr) (low high : Nat) (expr : List LocOp)
  | loclistOp (a : Attr) (op : LocOp)
  deriving DecidableEq, Repr

/-- The value types registered with `value_type::alloc`. -/
inductive VType where
  | cst | str | seq | closure | aset | dwarf | cu | die | attr | loclistElem | loclistOp
  deriving DecidableEq, Repr

/-- A dwgrep value; the last field of each variant is its position. -/
inductive Value where
  /-- `value_cst` -/
  | cst (c : Constant) (pos : Nat)
  /-- `value_str` -/
  | str (s : String) (pos : Nat)
  /-- `value_seq`: an ordered, heterogeneous sequence -/
  | seq (vs : List Value) (pos : Nat)
  /-- `value_closure`: a compiled body and the frame captured at construction -/
  | closure (body : Nat) (frame : Option Nat) (pos : Nat)
  /-- `value_aset`: a coverage -/
  | aset (cov : List Range) (pos : Nat)
  /-- the debug-info variants -/
  | dw (h : DwHandle) (pos : Nat)
  deriving Repr

mutual
/-- Decidable equality of values, by recursion through sequences. -/
def Value.decEq : (a b : Value) → Decidable (a = b)
  | .cst c p, .cst c' p' =>
    if h : c = c' ∧ p = p' then isTrue (by rw [h.1, h.2])
    else isFalse fun e => by cases e; exact h ⟨rfl, rfl⟩
  | .str s p, .str s' p' =>
    if h : s = s' ∧ p = p' then isTrue (by rw [h.1, h.2])
    else isFalse fun e => by cases e; exact h ⟨rfl, rfl⟩
  | .seq vs p, .seq vs' p' =>
    match Value.decEqList vs vs' with
    | isTrue h =>
      if hp : p = p' then isTrue (by rw [h, hp]) else isFalse fun e => by cases e; exact hp rfl
    | isFalse h => isFalse fun e => by cases e; exact h rfl
  | .closure b f p, .closure b' f' p' =>
    if h : b = b' ∧ f = f' ∧ p = p' then isTrue (by rw [h.1, h.2.1, h.2.2])
    else isFalse fun e => by cases e; exact h ⟨rfl, rfl, rfl⟩
  | .aset c p, .aset c' p' =>
    if h : c = c' ∧ p = p' then isTrue (by rw [h.1, h.2])
    else isFalse fun e => by cases e; exact h ⟨rfl, rfl⟩
  | .dw d p, .dw d' p' =>
    if h : d = d' ∧ p = p' then isTrue (by rw [h.1, h.2])
    else isFalse fun e => by cases e; exact h ⟨rfl, rfl⟩
  | .cst .., .str .. | .cst .., .seq .. | .cst .., .closure .. | .cst .., .aset ..
  | .cst .., .dw .. | .str .., .cst .. | .str .., .seq .. | .str .., .closure ..
  | .str .., .aset .. | .str .., .dw .. | .seq .., .cst .. | .seq .., .str ..
  | .seq .., .closure .. | .seq .., .aset .. | .seq .., .dw .. | .closure .., .cst ..
  | .closure .., .str .. | .closure .., .seq .. | .closure .., .aset ..
  | .closure .., .dw .. | .aset .., .cst .. | .aset .., .str .. | .aset .., .seq ..
  | .aset .., .closure .. | .aset .., .dw .. | .dw .., .cst .. | .dw .., .str ..
  | .dw .., .seq .. | .dw .., .closure .. | .dw .., .aset .. => isFalse fun e => by cases e
/-- Decidable equality of lists of values. -/
def Value.decEqList : (a b : List Value) → Decidable (a = b)
  | [], [] => isTrue rfl
  | v :: vs, w :: ws =>
    match Value.decEq v w, Value.decEqList vs ws with
    | isTrue h, isTrue h' => isTrue (by rw [h, h'])
    | isFalse h, _ => isFalse fun e => by cases e; exact h rfl
    | _, isFalse h => isFalse fun e => by cases e; exact h rfl
  | [], _ :: _ | _ :: _, [] => isFalse fun e => by cases e
end

instance : DecidableEq Value := Value.decEq

namespace Value

/-- `value::get_pos`. -/
def pos : Value → Nat
  | cst _ p | str _ p | seq _ p | closure _ _ p | aset _ p | dw _ p => p

/-- `value::set_pos`. -/
def setPos : Value → Nat → Value
  | cst c _, p => cst c p
  | str s _, p => str s p
  | seq vs _, p => seq vs p
  | closure b f _, p => closure b f p
  | aset c _, p => aset c p
  | dw h _, p => dw h p

@[simp] theorem pos_setPos (v : Value) (p : Nat) : (v.setPos p).pos = p := by
  cases v <;> rfl

@[simp] theorem setPos_pos (v : Value) : v.setPos v.pos = v := by
  cases v <;> rfl

/-- `value::get_type`. -/
def vtype : Value → VType
  | cst .. => .cst
  | str .. => .str
  | seq .. => .seq
  | closure .. => .closure
  | aset .. => .aset
  | dw (.dwarf ..) _ => .dwarf
  | dw (.cu ..) _ => .cu
  | dw (.die ..) _ => .die
  | dw (.attr ..) _ => .attr
  | dw (.loclistElem ..) _ => .loclistElem
  | dw (.loclistOp ..) _ => .loclistOp

@[simp] theorem vtype_setPos (v : Value) (p : Nat) : (v.setPos p).vtype = v.vtype := by
  cases v with
  | dw h _ => cases h <;> rfl
  | _ => rfl

/-- The domain of a constant (`constant::dom`), which structural equality compares
besides `cmp`; the other variants have none. -/
def domain : Value → Option Nat
  | cst c _ => some c.dom
  | _ => none

mutual
/-- `value::clone`: a sequence is copied through `clone_seq`, element by element;
the other variants are copied whole, position included. -/
def clone : Value → Value
  | seq vs p => seq (cloneSeq vs) p
  | v => v
/-- `clone_seq`. -/
def cloneSeq : List Value → List Value
  | [] => []
  | v :: vs => clone v :: cloneSeq vs
end

mutual
theorem clone_eq : ∀ v : Value, clone v = v
  | seq vs p => by rw [clone, cloneSeq_eq vs]
  | cst .. | str .. | closure .. | aset .. | dw .. => rfl
theorem cloneSeq_eq : ∀ vs : List Value, cloneSeq vs = vs
  | [] => rfl
  | v :: vs => by rw [cloneSeq, clone_eq v, cloneSeq_eq vs]
end

end Value

/-- What the classes outside `value-seq.cc` and `stack.hh` supply: the width `W` of a
selector (`selector.hh`), the type codes assigned at start-up (`value.hh`), and the
comparison and rendering of the variants other than sequences. -/
structure Runtime where
  /-- `selector::W`, the number of type codes a selector holds -/
  W : Nat
  W_pos : 0 < W
  /-- `value_type::code`, an 8-bit code per registered type -/
  code : VType → Fin 256
  /-- codes are unique -/
  code_inj : Function.Injective code
  /-- `cmp` of the variants other than `value_seq` -/
  atomCmp : Value → Value → CmpResult
  /-- `show` of the variants other than `value_seq` -/
  atomShow : Value → String

/-- Type codes in the order the types are declared. -/
def VType.ord : VType → Fin 256
  | .cst => 0 | .str => 1 | .seq => 2 | .closure => 3 | .aset => 4 | .dwarf => 5 | .cu => 6
  | .die => 7 | .attr => 8 | .loclistElem => 9 | .loclistOp => 10

theorem VType.ord_injective : Function.Injective VType.ord := by
  intro a b; cases a <;> cases b <;> decide

/-- A runtime for concrete runs: selectors four codes wide, codes in declaration order,
the variants other than sequences all comparing equal and rendering as their
position. -/
def Runtime.demo : Runtime where
  W := 4
  W_pos := by decide
  code := VType.ord
  code_inj := VType.ord_injective
  atomCmp _ _ := .equal
  atomShow v := toString v.pos

namespace Value

variable (rt : Runtime)

/-- The type code of a value. -/
def code (v : Value) : Nat := rt.code v.vtype

theorem code_lt (v : Value) : v.code rt < 256 := (rt.code v.vtype).isLt

/-- `compare_sequences` over element types. -/
def cmpTypes : List Value → List Value → CmpResult :=
  compareSequences fun a b => cmpNat (a.code rt) (b.code rt)

mutual
/-- `value_seq::cmp` for sequences: lengths, then element types, then elements. The
other variants compare through the runtime; a sequence compares with a non-sequence
as `fail`. -/
def cmp : Value → Value → CmpResult
  | seq a _, seq b _ =>
    (cmpNat a.length b.length).then ((cmpTypes rt a b).then (cmpElems a b))
  | seq _ _, _ => .fail
  | v, w => rt.atomCmp v w
/-- `compare_sequences` over the elements, with `value::cmp`. -/
def cmpElems : List Value → List Value → CmpResult
  | a :: as, b :: bs => (cmp a b).then (cmpElems as bs)
  | _, _ => .equal
end

theorem cmpElems_eq : ∀ a b : List Value, cmpElems rt a b = compareSequences (cmp rt) a b
  | a :: as, b :: bs => by rw [cmpElems, compareSequences, cmpElems_eq as bs]
  | [], _ => rfl
  | _ :: _, [] => rfl

mutual
/-- `value::show`: `value_seq::show` prints `[a, b, c]`. -/
def render : Value → String
  | seq vs _ => "[" ++ renderSeq vs ++ "]"
  | v => rt.atomShow v
/-- The elements of a sequence, separated by `", "`. -/
def renderSeq : List Value → String
  | [] => ""
  | [v] => render v
  | v :: vs => render v ++ ", " ++ renderSeq vs
end

end Value

end Dwgrep
