import Dwgrep.Stack

/-!
# Comparison

`value_seq::cmp` (`value-seq.cc`) orders sequences lexicographically in three stages:
by length, then by the types of the elements, then by the elements themselves. The
comparison words `?lt`, `?eq`, `?gt` (`builtin-cmp.cc`) first compare the types of the
two values and only compare same-typed values with `cmp`.

`IsOrder c k D` says that `c` is a total preorder on the elements satisfying `D`,
among those with the same key `k`. It is closed under the lexicographic combination
`CmpResult.then` (`IsOrder.then`) and under `compare_sequences` (`IsOrder.sequences`),
which gives, by induction on nesting depth, that `Value.cmp` is a total preorder on
each type as soon as the other variants' comparison is (`isOrder_cmp`), and that the
comparison words decide a strict total order (`comparison_words_strict_order`).

The two orders disagree across variants: the comparison words put the smaller type code
on top of the stack first, `value_seq::cmp` the smaller code of the elements, so a bare
pair and the pair of its singletons are ordered oppositely
(`comparison_words_order_variants_against_sequences`).
-/

namespace Dwgrep

namespace CmpResult

theorem then_ne_fail {a p : CmpResult} (ha : a ≠ fail) (hp : a = equal → p ≠ fail) :
    a.then p ≠ fail := by
  cases a <;> simp_all [CmpResult.then]

theorem swap_then (a p : CmpResult) : (a.then p).swap = a.swap.then p.swap := by
  cases a <;> rfl

@[simp] theorem then_equal (r : CmpResult) : r.then equal = r := by cases r <;> rfl

/-- Transitivity of `≤` for a lexicographic combination, from the facts about its
first stage that a total preorder provides. -/
theorem then_le_trans {a b d p q r : CmpResult}
    (hfa : a ≠ fail) (hfb : b ≠ fail)
    (hlt₁ : a = less → b ≠ greater → d = less) (hlt₂ : a ≠ greater → b = less → d = less)
    (heq : a = equal → b = equal → d = equal)
    (hrest : a = equal → b = equal → p ≠ greater → q ≠ greater → r ≠ greater)
    (h₁ : a.then p ≠ greater) (h₂ : b.then q ≠ greater) : d.then r ≠ greater := by
  cases a <;> cases b <;> simp_all [CmpResult.then]

end CmpResult

open CmpResult

/-! ## Total preorders given by a comparison -/

/-- `c` is a total preorder on the elements satisfying `D`, among those with the same
key `k`: it never fails, exchanging the arguments swaps the outcome, and `≤` is
transitive. -/
structure IsOrder {α β : Type} (c : α → α → CmpResult) (k : α → β) (D : α → Prop) : Prop where
  ne_fail : ∀ x y, D x → D y → k x = k y → c x y ≠ fail
  swap : ∀ x y, D x → D y → k x = k y → c y x = (c x y).swap
  le_trans : ∀ x y z, D x → D y → D z → k x = k y → k y = k z →
    c x y ≠ greater → c y z ≠ greater → c x z ≠ greater

namespace IsOrder

variable {α β γ : Type} {c c₁ c₂ : α → α → CmpResult} {k : α → β} {k₂ : α → γ}
  {D : α → Prop} {x y z : α}

theorem refl (h : IsOrder c k D) (hx : D x) : c x x = equal := by
  have hs := h.swap x x hx hx rfl
  have hf := h.ne_fail x x hx hx rfl
  revert hs hf
  cases c x x <;> simp [CmpResult.swap]

theorem lt_of_lt_of_le (h : IsOrder c k D) (hx : D x) (hy : D y) (hz : D z)
    (hxy : k x = k y) (hyz : k y = k z) (h₁ : c x y = less) (h₂ : c y z ≠ greater) :
    c x z = less := by
  have hle := h.le_trans x y z hx hy hz hxy hyz (by rw [h₁]; decide) h₂
  have hyx : c y x = greater := by rw [h.swap x y hx hy hxy, h₁]; rfl
  cases hxz : c x z with
  | less => rfl
  | equal =>
    have hzx : c z x ≠ greater := by rw [h.swap x z hx hz (hxy.trans hyz), hxz]; decide
    exact absurd hyx (h.le_trans y z x hy hz hx hyz (hxy.trans hyz).symm h₂ hzx)
  | greater => exact absurd hxz hle
  | fail => exact absurd hxz (h.ne_fail x z hx hz (hxy.trans hyz))

theorem lt_of_le_of_lt (h : IsOrder c k D) (hx : D x) (hy : D y) (hz : D z)
    (hxy : k x = k y) (hyz : k y = k z) (h₁ : c x y ≠ greater) (h₂ : c y z = less) :
    c x z = less := by
  have hle := h.le_trans x y z hx hy hz hxy hyz h₁ (by rw [h₂]; decide)
  have hzy : c z y = greater := by rw [h.swap y z hy hz hyz, h₂]; rfl
  cases hxz : c x z with
  | less => rfl
  | equal =>
    have hzx : c z x ≠ greater := by rw [h.swap x z hx hz (hxy.trans hyz), hxz]; decide
    exact absurd hzy (h.le_trans z x y hz hx hy (hxy.trans hyz).symm hxy hzx h₁)
  | greater => exact absurd hxz hle
  | fail => exact absurd hxz (h.ne_fail x z hx hz (hxy.trans hyz))

theorem eq_trans (h : IsOrder c k D) (hx : D x) (hy : D y) (hz : D z)
    (hxy : k x = k y) (hyz : k y = k z) (h₁ : c x y = equal) (h₂ : c y z = equal) :
    c x z = equal := by
  have hle := h.le_trans x y z hx hy hz hxy hyz (by rw [h₁]; decide) (by rw [h₂]; decide)
  have hzy : c z y ≠ greater := by rw [h.swap y z hy hz hyz, h₂]; decide
  cases hxz : c x z with
  | equal => rfl
  | less =>
    have := h.lt_of_lt_of_le hx hz hy (hxy.trans hyz) hyz.symm hxz hzy
    rw [h₁] at this; cases this
  | greater => exact absurd hxz hle
  | fail => exact absurd hxz (h.ne_fail x z hx hz (hxy.trans hyz))

/-- **Lexicographic combination.** If `c₁` is a total preorder, and `c₂` is one among
the pairs `c₁` finds equal — exactly the pairs with the same key `k₂` — then `c₁`
decided by `c₂` on ties is a total preorder. -/
theorem «then» (h₁ : IsOrder c₁ k D) (h₂ : IsOrder c₂ k₂ D)
    (hk : ∀ x y, D x → D y → k x = k y → (c₁ x y = equal ↔ k₂ x = k₂ y)) :
    IsOrder (fun x y => (c₁ x y).then (c₂ x y)) k D where
  ne_fail x y hx hy hxy := then_ne_fail (h₁.ne_fail x y hx hy hxy)
    fun e => h₂.ne_fail x y hx hy ((hk x y hx hy hxy).1 e)
  swap x y hx hy hxy := by
    rw [swap_then, h₁.swap x y hx hy hxy]
    cases e : c₁ x y <;> simp only [CmpResult.then, CmpResult.swap]
    exact h₂.swap x y hx hy ((hk x y hx hy hxy).1 e)
  le_trans x y z hx hy hz hxy hyz := then_le_trans (h₁.ne_fail x y hx hy hxy)
    (h₁.ne_fail y z hy hz hyz) (h₁.lt_of_lt_of_le hx hy hz hxy hyz)
    (h₁.lt_of_le_of_lt hx hy hz hxy hyz) (h₁.eq_trans hx hy hz hxy hyz)
    fun e₁ e₂ => h₂.le_trans x y z hx hy hz ((hk x y hx hy hxy).1 e₁) ((hk y z hy hz hyz).1 e₂)

/-- **`compare_sequences` keeps a total preorder**, on sequences whose elements have the
same keys pairwise. -/
theorem sequences (h : IsOrder c k D) :
    IsOrder (compareSequences c) (List.map k) (fun l => ∀ x ∈ l, D x) where
  ne_fail xs ys hxs hys e := by
    induction xs generalizing ys with
    | nil => cases ys <;> simp_all [compareSequences]
    | cons x xs ih =>
      cases ys with
      | nil => simp at e
      | cons y ys =>
        simp only [List.map_cons, List.cons.injEq, List.mem_cons, forall_eq_or_imp] at e hxs hys
        exact then_ne_fail (h.ne_fail x y hxs.1 hys.1 e.1) fun _ => ih ys hxs.2 hys.2 e.2
  swap xs ys hxs hys e := by
    induction xs generalizing ys with
    | nil => cases ys <;> simp_all [compareSequences, CmpResult.swap]
    | cons x xs ih =>
      cases ys with
      | nil => simp at e
      | cons y ys =>
        simp only [List.map_cons, List.cons.injEq, List.mem_cons, forall_eq_or_imp] at e hxs hys
        rw [compareSequences, compareSequences, swap_then, h.swap x y hxs.1 hys.1 e.1,
          ih ys hxs.2 hys.2 e.2]
  le_trans xs ys zs hxs hys hzs e₁ e₂ := by
    induction xs generalizing ys zs with
    | nil =>
      cases ys <;> cases zs <;> simp_all [compareSequences]
    | cons x xs ih =>
      cases ys with
      | nil => simp at e₁
      | cons y ys =>
        cases zs with
        | nil => simp at e₂
        | cons z zs =>
          simp only [List.map_cons, List.cons.injEq, List.mem_cons, forall_eq_or_imp]
            at e₁ e₂ hxs hys hzs
          simp only [compareSequences]
          exact then_le_trans (h.ne_fail x y hxs.1 hys.1 e₁.1) (h.ne_fail y z hys.1 hzs.1 e₂.1)
            (h.lt_of_lt_of_le hxs.1 hys.1 hzs.1 e₁.1 e₂.1)
            (h.lt_of_le_of_lt hxs.1 hys.1 hzs.1 e₁.1 e₂.1) (h.eq_trans hxs.1 hys.1 hzs.1 e₁.1 e₂.1)
            fun _ _ => ih ys zs hxs.2 hys.2 hzs.2 e₁.2 e₂.2

/-- `compare` on naturals is a total order. -/
theorem cmpNat (f : α → Nat) : IsOrder (fun x y => Dwgrep.cmpNat (f x) (f y)) (fun _ => ()) D where
  ne_fail x y _ _ _ := by unfold Dwgrep.cmpNat; split_ifs <;> decide
  swap x y _ _ _ := by unfold Dwgrep.cmpNat; split_ifs <;> first | rfl | omega
  le_trans x y z _ _ _ _ _ h₁ h₂ := by
    simp only [Dwgrep.cmpNat] at *
    split_ifs at h₁ h₂ ⊢ <;> simp_all <;> omega

/-- Exchanging the arguments of a total preorder gives one. -/
theorem flip (h : IsOrder c k D) : IsOrder (fun x y => c y x) k D where
  ne_fail x y hx hy e := h.ne_fail y x hy hx e.symm
  swap x y hx hy e := h.swap y x hy hx e.symm
  le_trans x y z hx hy hz e₁ e₂ h₁ h₂ := by
    have ge : ∀ {a b}, D a → D b → k a = k b → (c b a ≠ greater ↔ c a b ≠ less) :=
      fun ha hb e => by rw [h.swap _ _ ha hb e]; cases c _ _ <;> decide
    rw [ge hx hy e₁] at h₁; rw [ge hy hz e₂] at h₂; rw [ge hx hz (e₁.trans e₂)]
    intro hxz
    have hzy : c z y ≠ greater := by rw [h.swap y z hy hz e₂]; revert h₂; cases c y z <;> decide
    have := h.lt_of_lt_of_le hx hz hy (e₁.trans e₂) e₂.symm hxz hzy
    exact h₁ this

end IsOrder

/-! ## The order on values -/

namespace Value

mutual
/-- How deeply sequences nest in a value. -/
def depth : Value → Nat
  | seq vs _ => depthSeq vs + 1
  | _ => 0
/-- The deepest nesting among a list's elements. -/
def depthSeq : List Value → Nat
  | [] => 0
  | v :: vs => max v.depth (depthSeq vs)
end

theorem depth_lt_of_mem {v : Value} {vs : List Value} {p n : Nat} (h : v ∈ vs)
    (hd : (seq vs p).depth < n + 1) : v.depth < n := by
  induction vs with
  | nil => cases h
  | cons w ws ih =>
    simp only [depth, depthSeq] at hd
    rcases List.mem_cons.1 h with rfl | h
    · omega
    · exact ih h (by simp only [depth]; omega)

theorem eq_seq_of_vtype {v : Value} (h : v.vtype = .seq) : ∃ vs p, v = seq vs p := by
  cases v with
  | seq vs p => exact ⟨vs, p, rfl⟩
  | dw d p => cases d <;> cases h
  | _ => cases h

variable (rt : Runtime)

theorem cmp_of_ne_seq {v : Value} (h : v.vtype ≠ .seq) (w : Value) :
    cmp rt v w = rt.atomCmp v w := by
  cases v <;> first | rfl | exact absurd rfl h

/-- The comparison `value_seq::cmp` makes of two sequences' elements. -/
def seqCmp (a b : List Value) : CmpResult :=
  (cmpNat a.length b.length).then ((cmpTypes rt a b).then (compareSequences (cmp rt) a b))

theorem cmp_seq_seq (a b : List Value) (p q : Nat) :
    cmp rt (seq a p) (seq b q) = seqCmp rt a b := by
  rw [cmp, cmpElems_eq, seqCmp]

end Value

open Value

/-- The comparison of the variants other than sequences is a total preorder on each
variant. -/
def AtomOrder (rt : Runtime) : Prop :=
  IsOrder rt.atomCmp Value.vtype fun v => v.vtype ≠ .seq

section ValueOrder

variable {rt : Runtime}

theorem map_unit_eq_iff {a b : List Value} :
    a.map (fun _ => ()) = b.map (fun _ => ()) ↔ a.length = b.length := by
  induction a generalizing b with
  | nil => cases b <;> simp
  | cons x a ih => cases b <;> simp [ih]

theorem code_eq_iff {v w : Value} : v.code rt = w.code rt ↔ v.vtype = w.vtype :=
  ⟨fun h => rt.code_inj (Fin.ext h), fun h => by simp only [Value.code, h]⟩

theorem cmpNat_eq_equal {a b : Nat} : cmpNat a b = .equal ↔ a = b := by
  unfold cmpNat; split_ifs <;> simp <;> omega

theorem cmpNat_self (a : Nat) : cmpNat a a = .equal := cmpNat_eq_equal.2 rfl

theorem code_seq (vs : List Value) (p : Nat) : (Value.seq vs p).code rt = rt.code .seq := rfl

theorem cmpTypes_eq_equal {a b : List Value} (h : a.length = b.length) :
    cmpTypes rt a b = .equal ↔ a.map vtype = b.map vtype := by
  induction a generalizing b with
  | nil => cases b <;> simp_all [cmpTypes, compareSequences]
  | cons x a ih =>
    cases b with
    | nil => simp at h
    | cons y b =>
      simp only [cmpTypes, compareSequences, List.map_cons, List.cons.injEq,
        List.length_cons] at h ⊢
      rw [← @code_eq_iff rt, ← cmpNat_eq_equal, ← ih (by omega)]
      cases cmpNat (x.code rt) (y.code rt) <;> simp [CmpResult.then, cmpTypes]

/-- Sequences whose elements all satisfy `D`, compared as `value_seq::cmp` compares
them, form a total preorder once `cmp` is one on `D`. -/
theorem isOrder_seqCmp {D : Value → Prop} (h : IsOrder (cmp rt) vtype D) :
    IsOrder (seqCmp rt) (fun _ => ()) fun l => ∀ x ∈ l, D x := by
  have htypes : IsOrder (cmpTypes rt) (List.map fun _ => ()) fun l => ∀ x ∈ l, D x :=
    (IsOrder.cmpNat (D := D) fun v => v.code rt).sequences
  refine (IsOrder.cmpNat List.length).then (htypes.then h.sequences ?_) ?_
  · intro a b _ _ e
    exact cmpTypes_eq_equal (map_unit_eq_iff.1 e)
  · intro a b _ _ _
    rw [cmpNat_eq_equal, map_unit_eq_iff]

/-- `cmp` is a total preorder on each type, given the sequences' comparison on the
elements of the sequences in `D`. -/
theorem isOrder_cmp_of {D Dₑ : Value → Prop} (ha : AtomOrder rt)
    (hs : IsOrder (seqCmp rt) (fun _ => ()) fun l => ∀ x ∈ l, Dₑ x)
    (hD : ∀ a p, D (seq a p) → ∀ x ∈ a, Dₑ x) : IsOrder (cmp rt) vtype D where
  ne_fail x y hx hy e := by
    by_cases hs' : x.vtype = .seq
    · obtain ⟨a, p, rfl⟩ := eq_seq_of_vtype hs'
      obtain ⟨b, q, rfl⟩ := eq_seq_of_vtype (e ▸ hs')
      rw [cmp_seq_seq]
      exact hs.ne_fail a b (hD a p hx) (hD b q hy) rfl
    · rw [cmp_of_ne_seq rt hs']
      exact ha.ne_fail x y hs' (e ▸ hs') e
  swap x y hx hy e := by
    by_cases hs' : x.vtype = .seq
    · obtain ⟨a, p, rfl⟩ := eq_seq_of_vtype hs'
      obtain ⟨b, q, rfl⟩ := eq_seq_of_vtype (e ▸ hs')
      rw [cmp_seq_seq, cmp_seq_seq]
      exact hs.swap a b (hD a p hx) (hD b q hy) rfl
    · rw [cmp_of_ne_seq rt hs', cmp_of_ne_seq rt (e ▸ hs')]
      exact ha.swap x y hs' (e ▸ hs') e
  le_trans x y z hx hy hz e₁ e₂ := by
    by_cases hs' : x.vtype = .seq
    · obtain ⟨a, p, rfl⟩ := eq_seq_of_vtype hs'
      obtain ⟨b, q, rfl⟩ := eq_seq_of_vtype (e₁ ▸ hs')
      obtain ⟨d, r, rfl⟩ := eq_seq_of_vtype (e₂ ▸ e₁ ▸ hs')
      simp only [cmp_seq_seq]
      exact hs.le_trans a b d (hD a p hx) (hD b q hy) (hD d r hz) rfl rfl
    · simp only [cmp_of_ne_seq rt hs', cmp_of_ne_seq rt (e₁ ▸ hs')]
      exact ha.le_trans x y z hs' (e₁ ▸ hs') (e₂ ▸ e₁ ▸ hs') e₁ e₂

/-- **`cmp` is a total preorder on each type**, sequences nested to any depth included,
as soon as the other variants' comparison is one. -/
theorem isOrder_cmp (ha : AtomOrder rt) : IsOrder (cmp rt) vtype fun _ => True := by
  have hn : ∀ n, IsOrder (cmp rt) vtype fun v => v.depth < n := by
    intro n
    induction n with
    | zero => exact ⟨fun _ _ hx => absurd hx (Nat.not_lt_zero _),
        fun _ _ hx => absurd hx (Nat.not_lt_zero _), fun _ _ _ hx => absurd hx (Nat.not_lt_zero _)⟩
    | succ n ih =>
      exact isOrder_cmp_of ha (isOrder_seqCmp ih) fun a p h x hx => depth_lt_of_mem hx h
  refine ⟨fun x y _ _ e => ?_, fun x y _ _ e => ?_, fun x y z _ _ _ e₁ e₂ => ?_⟩
  · exact (hn (x.depth + y.depth + 1)).ne_fail x y (by omega) (by omega) e
  · exact (hn (x.depth + y.depth + 1)).swap x y (by omega) (by omega) e
  · exact (hn (x.depth + y.depth + z.depth + 1)).le_trans x y z (by omega) (by omega)
      (by omega) e₁ e₂

/-! ## Copies compare equal -/

/-- The comparison of the variants other than sequences finds a value equal to a copy
of it at any position: those `cmp`s read the payload, never `m_pos`. -/
def Runtime.CopiesEqual (rt : Runtime) : Prop :=
  ∀ v : Value, v.vtype ≠ .seq → ∀ p, rt.atomCmp (v.setPos p) v = .equal

theorem cmp_setPos_of_ne_seq (h : rt.CopiesEqual) {v : Value} (hv : v.vtype ≠ .seq) (p : Nat) :
    (v.setPos p).cmp rt v = .equal := by
  rw [cmp_of_ne_seq rt (by rwa [vtype_setPos]), h v hv p]

theorem cmp_self_of_ne_seq (h : rt.CopiesEqual) {v : Value} (hv : v.vtype ≠ .seq) :
    v.cmp rt v = .equal := by
  simpa using cmp_setPos_of_ne_seq h hv v.pos

mutual
/-- Every value compares equal to itself, sequences nested to any depth included. -/
theorem cmp_self (h : rt.CopiesEqual) : ∀ v : Value, v.cmp rt v = .equal
  | .seq vs _ => by
    rw [cmp_seq_seq, seqCmp, cmpNat_self, (cmpTypes_eq_equal rfl).2 rfl, ← cmpElems_eq,
      cmpElems_self h vs]
    rfl
  | .cst .. | .str .. | .closure .. | .aset .. => cmp_self_of_ne_seq h nofun
  | .dw d _ => cmp_self_of_ne_seq h (by cases d <;> nofun)
theorem cmpElems_self (h : rt.CopiesEqual) : ∀ vs : List Value, cmpElems rt vs vs = .equal
  | [] => rfl
  | v :: vs => by rw [cmpElems, cmp_self h v, cmpElems_self h vs]; rfl
end

/-- **A copy at another position compares equal** to the value it copies. -/
theorem cmp_setPos (h : rt.CopiesEqual) (v : Value) (p : Nat) : (v.setPos p).cmp rt v = .equal := by
  by_cases hv : v.vtype = .seq
  · obtain ⟨vs, q, rfl⟩ := eq_seq_of_vtype hv
    rw [setPos, cmp_seq_seq, ← cmp_seq_seq rt vs vs q q, cmp_self h]
  · exact cmp_setPos_of_ne_seq h hv p

end ValueOrder

/-! ## The comparison words -/

/-- `pred_result`: a predicate holds, does not hold, or cannot decide. -/
inductive PredResult where
  | yes
  | no
  | fail
  deriving DecidableEq, Repr

/-- `pred_result (bool)`. -/
def PredResult.ofBool : Bool → PredResult
  | true => .yes
  | false => .no

variable (rt : Runtime)

/-- `comparison_result`: `get (0)` is the top of stack and `get (1)` the value below it.
Values of different types compare by type code; values of one type by
`vb.cmp (va)`, a failed comparison making the predicate `fail`. -/
def comparisonResult (s : Stack) (want : CmpResult) : Except Fault PredResult :=
  match s.values with
  | va :: vb :: _ =>
    let ta := va.code rt
    let tb := vb.code rt
    if ta < tb then .ok (.ofBool (want == .less))
    else if tb < ta then .ok (.ofBool (want == .greater))
    else match vb.cmp rt va with
      | .fail => .ok .fail
      | r => .ok (.ofBool (r == want))
  | _ => .error .underflow

/-- The outcome the comparison words decide for `A` below `B`: the smaller type code
on top of the stack makes `less`; one type compares by `cmp`. -/
def wordCmp (A B : Value) : CmpResult := (cmpNat (B.code rt) (A.code rt)).then (A.cmp rt B)

/-- `A B ?lt`, `A B ?eq`, `A B ?gt`: the word comparing for `want` holds on the stack
that pushes `A`, then `B`. -/
def Holds (want : CmpResult) (A B : Value) : Prop :=
  comparisonResult rt ((Stack.empty.push rt A).push rt B) want = .ok .yes

theorem comparisonResult_push_push (A B : Value) (s : Stack) (want : CmpResult) :
    comparisonResult rt ((s.push rt A).push rt B) want =
      .ok (match wordCmp rt A B with
        | .fail => .fail
        | r => .ofBool (r == want)) := by
  unfold comparisonResult wordCmp cmpNat
  simp only [Stack.push]
  split_ifs <;> simp only [CmpResult.then]
  · cases want <;> rfl
  · cases want <;> rfl
  · cases Value.cmp rt A B <;> cases want <;> rfl

variable {rt}

theorem isOrder_wordCmp (ha : AtomOrder rt) :
    IsOrder (wordCmp rt) (fun _ => ()) fun _ => True := by
  have h₁ : IsOrder (fun x y : Value => cmpNat (y.code rt) (x.code rt)) (fun _ => ())
      fun _ => True := (IsOrder.cmpNat fun v : Value => v.code rt).flip
  exact h₁.then (isOrder_cmp ha) fun x y _ _ _ => by rw [cmpNat_eq_equal, eq_comm, code_eq_iff]

theorem holds_iff (ha : AtomOrder rt) {want : CmpResult} (hw : want ≠ .fail) (A B : Value) :
    Holds rt want A B ↔ wordCmp rt A B = want := by
  have hf := (isOrder_wordCmp ha).ne_fail A B trivial trivial rfl
  rw [Holds, comparisonResult_push_push]
  cases h : wordCmp rt A B <;> cases want <;>
    first | exact absurd h hf | exact absurd rfl hw | (constructor <;> intro e <;> first | rfl | cases e)

/-- **The comparison words decide a strict total order.** If each variant other than
sequences compares as a total preorder, then for all values, sequences nested to any
depth included: a clone compares equal to its original; exactly one of `A B ?lt`,
`A B ?eq`, `A B ?gt` holds; `A B ?lt` holds iff `B A ?gt` does; and `?lt` is
transitive. -/
theorem comparison_words_strict_order (ha : AtomOrder rt) (A B C : Value) :
    A.clone.cmp rt A = .equal ∧ Holds rt .equal A A.clone ∧
    (∃! want, want ∈ [CmpResult.less, .equal, .greater] ∧ Holds rt want A B) ∧
    (Holds rt .less A B ↔ Holds rt .greater B A) ∧
    (Holds rt .less A B → Holds rt .less B C → Holds rt .less A C) := by
  have hw := isOrder_wordCmp ha
  have hd : ∀ w ∈ [CmpResult.less, .equal, .greater], w ≠ .fail := by decide
  refine ⟨by rw [clone_eq]; exact (isOrder_cmp ha).refl trivial, ?_, ?_, ?_, ?_⟩
  · rw [holds_iff ha (by decide), clone_eq]; exact hw.refl trivial
  · refine ⟨wordCmp rt A B, ⟨?_, (holds_iff ha ?_ A B).2 rfl⟩, fun w ⟨hm, h⟩ => ?_⟩
    · have := hw.ne_fail A B trivial trivial rfl
      cases h : wordCmp rt A B <;> simp_all
    · exact hw.ne_fail A B trivial trivial rfl
    · exact ((holds_iff ha (hd w hm) A B).1 h).symm
  · rw [holds_iff ha (by decide), holds_iff ha (by decide), hw.swap A B trivial trivial rfl]
    cases wordCmp rt A B <;> decide
  · simp only [holds_iff ha (show CmpResult.less ≠ .fail by decide)]
    exact fun h₁ h₂ => hw.lt_of_lt_of_le trivial trivial trivial rfl rfl h₁ (by rw [h₂]; decide)



theorem atomOrder_demo : AtomOrder Runtime.demo :=
  ⟨fun _ _ _ _ _ => CmpResult.noConfusion, fun _ _ _ _ _ => rfl,
    fun _ _ _ _ _ _ _ _ _ _ => CmpResult.noConfusion⟩

/-- `[1] [[2]] ?lt`, with the demo runtime's order on atoms. -/
theorem comparison_words_strict_order_demo :
    AtomOrder Runtime.demo ∧
      let A := Value.seq [.cst ⟨1, 0⟩ 0] 0
      let B := Value.seq [.seq [.cst ⟨2, 0⟩ 0] 0] 0
      let C := Value.str "c" 0
      A.clone.cmp Runtime.demo A = .equal ∧ Holds Runtime.demo .equal A A.clone ∧
      (∃! want, want ∈ [CmpResult.less, .equal, .greater] ∧ Holds Runtime.demo want A B) ∧
      (Holds Runtime.demo .less A B ↔ Holds Runtime.demo .greater B A) ∧
      (Holds Runtime.demo .less A B → Holds Runtime.demo .less B C →
        Holds Runtime.demo .less A C) :=
  ⟨atomOrder_demo, comparison_words_strict_order atomOrder_demo _ _ _⟩

/-! ## Bare values against singletons -/

/-- The comparison words on two singletons compare the elements' type codes first, in
ascending order, and then the elements. -/
theorem wordCmp_singletons (A B : Value) (p q : Nat) :
    wordCmp rt (.seq [A] p) (.seq [B] q) = (cmpNat (A.code rt) (B.code rt)).then (A.cmp rt B) := by
  simp only [wordCmp, cmp_seq_seq, seqCmp, cmpTypes, compareSequences, List.length_singleton,
    code_seq, cmpNat_self, CmpResult.equal_then, CmpResult.then_equal]

/-- **Bare values and singletons order different variants oppositely.** On values of
one variant, `A B ?lt`, `?eq` and `?gt` hold iff they hold of `[A] [B]`. On values of
different variants `comparison_result` makes the smaller type code on top of the stack
`less`, while `value_seq::cmp` orders the singletons by ascending type code of their
elements: `A B ?lt` holds iff `[A] [B] ?gt` does, and exactly when `[A] [B] ?lt` does
not. -/
theorem comparison_words_order_variants_against_sequences (A B : Value) (p q : Nat) :
    (A.vtype = B.vtype → ∀ want, Holds rt want A B ↔ Holds rt want (.seq [A] p) (.seq [B] q)) ∧
    (A.vtype ≠ B.vtype →
      (Holds rt .less A B ↔ Holds rt .greater (.seq [A] p) (.seq [B] q)) ∧
      (Holds rt .greater A B ↔ Holds rt .less (.seq [A] p) (.seq [B] q)) ∧
      (Holds rt .less A B ↔ ¬ Holds rt .less (.seq [A] p) (.seq [B] q))) := by
  simp only [Holds, comparisonResult_push_push, wordCmp_singletons]
  unfold wordCmp
  constructor
  · intro h want
    rw [cmpNat_eq_equal.2 (code_eq_iff.2 h), cmpNat_eq_equal.2 (code_eq_iff.2 h.symm)]
  · intro h
    have hne : A.code rt ≠ B.code rt := fun e => h (code_eq_iff.1 e)
    unfold cmpNat
    rcases Nat.lt_or_gt_of_ne hne with hlt | hlt <;>
      simp only [hlt, Nat.lt_asymm hlt, if_true, if_false, CmpResult.then, Except.ok.injEq] <;>
      decide

/-- `1 "c" ?lt` fails while `[1] ["c"] ?lt` holds, with the demo runtime's type codes. -/
theorem comparison_words_order_one_c :
    Value.vtype (.cst ⟨1, 0⟩ 0) ≠ Value.vtype (.str "c" 0) ∧
      Holds Runtime.demo .less (.seq [.cst ⟨1, 0⟩ 0] 0) (.seq [.str "c" 0] 0) ∧
      ¬ Holds Runtime.demo .less (.cst ⟨1, 0⟩ 0) (.str "c" 0) :=
  have hne : Value.vtype (.cst ⟨1, 0⟩ 0) ≠ Value.vtype (.str "c" 0) := by decide
  have hseq : Holds Runtime.demo .less (.seq [.cst ⟨1, 0⟩ 0] 0) (.seq [.str "c" 0] 0) := rfl
  ⟨hne, hseq, fun h =>
    ((comparison_words_order_variants_against_sequences _ _ 0 0).2 hne).2.2.1 h hseq⟩

end Dwgrep
