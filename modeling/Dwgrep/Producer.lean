import Dwgrep.Res

/-!
# Value producers

A yielding operator (`op_yielding_overload`) draws its results from a
`value_producer`, whose `next` returns one value or `nullptr`. This module gives the
vocabulary for runs of a producer and models the producers that iterate over a value.

* `Yield`, `Emits` — a call of `next` that returns a value, and a run of such calls;
* `Numbers` — the position law: each value a call yields carries the producer's counter
  as its position, and the call bumps the counter. `Emits.positions` turns it into
  "the `k`-th value has position `k`";
* `Iter`, `runLoop` — a producer whose `next` is a loop (`die_it_producer`,
  `attribute_producer`) is written as one iteration of the loop and a fuelled driver;
  a measure that every iteration lowers bounds the fuel a call needs
  (`runLoop_returns`) and the number of values the producer yields
  (`drains_of_decreasing`);
* the producers over a value: `seq_elem_producer`, `seq_relem_producer`
  (`value-seq.cc`), `elem_loclist_producer`, `elem_aset_producer` and the producer of
  `op_range_aset` (`builtin-dw.cc`).
-/

namespace Dwgrep

/-! ## Runs of a producer -/

/-- One call of a producer's `next` that returns a value: from state `s` it yields `v`
and leaves the producer in state `s'`. -/
abbrev Yield (σ : Type) := σ → Value → σ → Prop

/-- The calls of a `next` that cannot fail. -/
def Yield.ofFn {σ : Type} (next : σ → Option (Value × σ)) : Yield σ :=
  fun s v s' => next s = some (v, s')

/-- The calls of a `next` that may throw. -/
def Yield.ofExcept {σ : Type} (next : σ → Except Fault (Option (Value × σ))) : Yield σ :=
  fun s v s' => next s = .ok (some (v, s'))

/-- The calls of a fuelled `next` that return a value given enough fuel. -/
def Yield.ofRes {σ : Type} (next : Nat → σ → Res (Option (Value × σ))) : Yield σ :=
  fun s v s' => ∃ n, next n s = pure (some (v, s'))

/-- `Emits y s l s'`: successive calls of `next` from state `s` yield the values `l`, in
order, and leave the producer in state `s'`. -/
inductive Emits {σ : Type} (y : Yield σ) : σ → List Value → σ → Prop where
  | nil (s : σ) : Emits y s [] s
  | cons {s s₁ s' : σ} {v : Value} {l : List Value} :
      y s v s₁ → Emits y s₁ l s' → Emits y s (v :: l) s'

/-- A run followed by a run from where it stopped is a run. -/
theorem Emits.append {σ : Type} {y : Yield σ} {s s₁ s' : σ} {l₁ l₂ : List Value}
    (h₁ : Emits y s l₁ s₁) (h₂ : Emits y s₁ l₂ s') : Emits y s (l₁ ++ l₂) s' := by
  induction h₁ with
  | nil => exact h₂
  | cons hv _ ih => exact .cons hv (ih h₂)

/-- The position law of a producer with value counter `cnt`: every value it yields
carries the counter as its position, and the call bumps the counter. -/
def Numbers {σ : Type} (y : Yield σ) (cnt : σ → Nat) : Prop :=
  ∀ s v s', y s v s' → v.pos = cnt s ∧ cnt s' = cnt s + 1

/-- **Stream positions.** A producer that numbers its values by its counter stamps a
run with consecutive positions from the counter it starts at: a fresh producer
(counter `0`) gives its `k`-th value position `k`. -/
theorem Emits.positions {σ : Type} {y : Yield σ} {cnt : σ → Nat} {s s' : σ}
    {l : List Value} (hy : Numbers y cnt) (h : Emits y s l s') :
    l.map Value.pos = List.range' (cnt s) l.length := by
  induction h with
  | nil => rfl
  | cons hv _ ih =>
    obtain ⟨hp, hc⟩ := hy _ _ _ hv
    rw [List.map_cons, ih, hc, hp, List.length_cons, List.range'_succ]

/-! ## Producers that loop

`die_it_producer::next` and `attribute_producer::next` loop until they find a value to
yield. Each is written as its loop body, which says what one iteration does, driven by
`runLoop`; the fuel counts iterations. -/

/-- What one iteration of a producer's loop does: yield a value, return `nullptr`, or
go round again. -/
inductive Iter (σ : Type) where
  | yield (v : Value) (s : σ)
  | done
  | again (s : σ)

/-- A producer's `next` as its loop body run on fuel, one unit per iteration; a body
that throws aborts the call. -/
def runLoop {σ : Type} (body : σ → Except Fault (Iter σ)) : Nat → σ → Res (Option (Value × σ))
  | 0, _ => Res.stop
  | n + 1, s =>
    match body s with
    | .error e => throw e
    | .ok (.yield v s') => pure (some (v, s'))
    | .ok .done => pure none
    | .ok (.again s') => runLoop body n s'

section Loop

variable {σ : Type} (body : σ → Except Fault (Iter σ))

theorem runLoop_le_succ : ∀ n s, (runLoop body n s).Le (runLoop body (n + 1) s)
  | 0, _ => Res.stop_le _
  | n + 1, s => by
    rw [runLoop, runLoop]
    split
    · exact Res.Le.refl _
    · exact Res.Le.refl _
    · exact Res.Le.refl _
    · exact runLoop_le_succ n _

/-- More fuel never changes what a call of a looping producer returns. -/
theorem runLoop_mono {n m : Nat} (hnm : n ≤ m) (s : σ) :
    (runLoop body n s).Le (runLoop body m s) :=
  Res.le_of_step (fun k => runLoop_le_succ body k s) hnm

/-- The position law of a looping producer follows from its body: an iteration that
goes round again keeps the counter, one that yields numbers its value by it. -/
theorem runLoop_numbers (cnt : σ → Nat)
    (hagain : ∀ s s', body s = .ok (.again s') → cnt s' = cnt s)
    (hyield : ∀ s v s', body s = .ok (.yield v s') → v.pos = cnt s ∧ cnt s' = cnt s + 1) :
    Numbers (Yield.ofRes (runLoop body)) cnt := by
  rintro s v s' ⟨n, h⟩
  induction n generalizing s with
  | zero => exact nomatch h
  | succ n ih =>
    rw [runLoop] at h
    split at h
    · exact nomatch h
    · obtain ⟨rfl, rfl⟩ := Prod.mk.inj (Option.some.inj (Res.pure_inj h))
      exact hyield _ _ _ ‹_›
    · exact nomatch Res.pure_inj h
    · rename_i hb
      rw [← hagain _ _ hb]
      exact ih _ h

/-- `Drains next s l`: from state `s` the calls of `next` return the values `l`, and
then a call returns `nullptr` or throws. Every call of the run returns. -/
inductive Drains (next : Nat → σ → Res (Option (Value × σ))) : σ → List Value → Prop where
  | stop {s : σ} (n : Nat) : (next n s = pure none ∨ ∃ e, next n s = throw e) → Drains next s []
  | cons {s s' : σ} {v : Value} {l : List Value} (n : Nat) :
      next n s = pure (some (v, s')) → Drains next s' l → Drains next s (v :: l)

variable (Inv : σ → Prop) (μ : σ → Nat)

/-- Every iteration from a state of the invariant that goes on, by yielding or going
round again, keeps the invariant and lowers the measure `μ`. -/
def Decreasing : Prop :=
  ∀ s, Inv s → ∀ s', (body s = .ok (.again s') ∨ ∃ v, body s = .ok (.yield v s')) →
    Inv s' ∧ μ s' < μ s

variable {body Inv μ}

/-- **Every call returns.** A call with more fuel than the measure returns. -/
theorem runLoop_returns (hd : Decreasing body Inv μ) :
    ∀ n s, Inv s → μ s < n → (runLoop body n s).run ≠ none
  | 0, _, _, h => absurd h (Nat.not_lt_zero _)
  | n + 1, s, hs, h => by
    rw [runLoop]
    split
    · exact nofun
    · exact nofun
    · exact nofun
    · rename_i s' hb
      have ⟨hs', hμ⟩ := hd s hs s' (.inl hb)
      exact runLoop_returns hd n s' hs' (by omega)

/-- A yield keeps the invariant and lowers the measure. -/
theorem runLoop_yield (hd : Decreasing body Inv μ) {v : Value} {s' : σ} :
    ∀ n s, Inv s → runLoop body n s = pure (some (v, s')) → Inv s' ∧ μ s' < μ s
  | 0, _, _, h => nomatch h
  | n + 1, s, hs, h => by
    rw [runLoop] at h
    split at h
    · exact nomatch h
    · obtain ⟨rfl, rfl⟩ := Prod.mk.inj (Option.some.inj (Res.pure_inj h))
      exact hd s hs _ (.inr ⟨_, ‹_›⟩)
    · exact nomatch Res.pure_inj h
    · rename_i s₁ hb
      have ⟨hs₁, hμ⟩ := hd s hs s₁ (.inl hb)
      have := runLoop_yield hd n s₁ hs₁ h
      exact ⟨this.1, by omega⟩

/-- **Finitely many values.** A looping producer whose iterations lower a measure
returns from every call and yields finitely many values. -/
theorem drains_of_decreasing (hd : Decreasing body Inv μ) (s : σ) (hs : Inv s) :
    ∃ l, Drains (runLoop body) s l := by
  generalize h : μ s = m
  induction m using Nat.strong_induction_on generalizing s with
  | _ m ih =>
    have hr := runLoop_returns hd (μ s + 1) s hs (Nat.lt_succ_self _)
    rcases hrun : runLoop body (μ s + 1) s with _ | _ | r
    · exact absurd hrun hr
    · exact ⟨[], .stop _ (.inr ⟨_, hrun⟩)⟩
    · rcases r with _ | ⟨v, s'⟩
      · exact ⟨[], .stop _ (.inl hrun)⟩
      · have ⟨hs', hμ⟩ := runLoop_yield hd _ s hs hrun
        obtain ⟨l, hl⟩ := ih _ (h ▸ hμ) s' hs' rfl
        exact ⟨v :: l, .cons _ hrun hl⟩

/-- A call of a looping producer has one answer, whatever fuel lets it return. -/
theorem runLoop_det {n m : Nat} {s : σ} {a b : Option (Value × σ)}
    (hn : runLoop body n s = pure a) (hm : runLoop body m s = pure b) : a = b :=
  Res.pure_inj (((runLoop_mono body (Nat.le_max_left n m) s).eq_pure hn).symm.trans
    ((runLoop_mono body (Nat.le_max_right n m) s).eq_pure hm))

/-- **Runs are prefixes of the complete run.** A run from the state a complete run
starts at, one that ends with `nullptr`, yields a prefix of what the complete run
yields. -/
theorem Emits.prefix_of_end {s t t' : σ} {l L : List Value}
    (h : Emits (Yield.ofRes (runLoop body)) s l t) (hL : Emits (Yield.ofRes (runLoop body)) s L t')
    (hend : ∃ n, runLoop body n t' = pure none) : l <+: L := by
  induction h generalizing L with
  | nil => exact List.nil_prefix
  | cons hv _ ih =>
    obtain ⟨n, hn⟩ := hv
    cases hL with
    | nil => obtain ⟨m, hm⟩ := hend; exact nomatch runLoop_det hn hm
    | cons hv' hL' =>
      obtain ⟨m, hm⟩ := hv'
      obtain ⟨rfl, rfl⟩ := Prod.mk.inj (Option.some.inj (runLoop_det hn hm))
      exact (List.prefix_cons_inj _).2 (ih hL')

end Loop

/-! ## Walks of a loop

What a looping producer yields over many calls, read off its loop body: a walk goes
through iterations that yield and iterations that go round again. A walk that ends
where the body is done is a run of the producer followed by `nullptr` (`Walk.emits`). -/

section Walk

variable {σ : Type}

/-- `Walk body s l s'`: iterations of the loop body from `s` yield the values `l` and
reach `s'`. -/
inductive Walk (body : σ → Except Fault (Iter σ)) : σ → List Value → σ → Prop where
  | refl (s : σ) : Walk body s [] s
  | again {s s₁ s' : σ} {l : List Value} :
      body s = .ok (.again s₁) → Walk body s₁ l s' → Walk body s l s'
  | yield {s s₁ s' : σ} {v : Value} {l : List Value} :
      body s = .ok (.yield v s₁) → Walk body s₁ l s' → Walk body s (v :: l) s'

variable {body : σ → Except Fault (Iter σ)}

theorem Walk.trans {s t u : σ} {l₁ l₂ : List Value} (h₁ : Walk body s l₁ t)
    (h₂ : Walk body t l₂ u) : Walk body s (l₁ ++ l₂) u := by
  induction h₁ with
  | refl => exact h₂
  | again hb _ ih => exact .again hb (ih h₂)
  | yield hb _ ih => exact .yield hb (ih h₂)

/-- A walk to a state where the body is done: the producer yields the walk's values and
then returns `nullptr`. -/
theorem Walk.emits {s t : σ} {l : List Value} (h : Walk body s l t) (hd : body t = .ok .done) :
    ∃ s', Emits (Yield.ofRes (runLoop body)) s l s' ∧ ∃ n, runLoop body n s' = pure none := by
  induction h with
  | refl s => exact ⟨s, .nil _, 1, by rw [runLoop, hd]⟩
  | @again s s₁ _ _ hb _ ih =>
    obtain ⟨s', he, n, hn⟩ := ih hd
    cases he with
    | nil => exact ⟨s, .nil _, n + 1, by rw [runLoop, hb]; exact hn⟩
    | cons hv hrest =>
      obtain ⟨m, hm⟩ := hv
      exact ⟨s', .cons ⟨m + 1, by rw [runLoop, hb]; exact hm⟩ hrest, n, hn⟩
  | yield hb _ ih =>
    obtain ⟨s', he, hn⟩ := ih hd
    exact ⟨s', .cons ⟨1, by rw [runLoop, hb]⟩ he, hn⟩

end Walk

/-! ## Producers over a value -/

/-- The index a producer reads at stream index `i` of `n` items: `i` going forwards,
`n - 1 - i` going backwards. -/
def mirror (forward : Bool) (n i : Nat) : Nat := if forward then i else n - 1 - i

theorem mirror_lt (forward : Bool) {n i : Nat} (h : i < n) : mirror forward n i < n := by
  unfold mirror; split <;> omega

@[simp] theorem mirror_true (n : Nat) : mirror true n = id := rfl

/-- `seq_elem_producer_base`: the sequence and the index `m_idx`. -/
structure SeqProducer where
  seq : List Value
  idx : Nat

namespace SeqProducer

/-- The `next` of the two sequence producers, which differ only in the element they
read: the element at `m_idx` (`forward`) or at `size - 1 - m_idx`, cloned and
positioned at `m_idx`. -/
def next (forward : Bool) (p : SeqProducer) : Option (Value × SeqProducer) :=
  if h : p.idx < p.seq.length then
    some ((p.seq.get ⟨mirror forward p.seq.length p.idx, mirror_lt forward h⟩).clone.setPos p.idx,
      { p with idx := p.idx + 1 })
  else none

/-- `seq_elem_producer::next`. -/
def elemNext : SeqProducer → Option (Value × SeqProducer) := next true

/-- `seq_relem_producer::next`. -/
def relemNext : SeqProducer → Option (Value × SeqProducer) := next false

/-- What the two producers are meant to yield on a sequence, from the spec: its
elements in order (`forward`) or in reverse, positioned `0, 1, …`. -/
def values (forward : Bool) (vs : List Value) : List Value :=
  (if forward then vs else vs.reverse).enum.map fun (i, v) => v.setPos i

/-- **One call.** From index `i`, a sequence producer yields the `i`-th of `values` and
moves on, or returns `nullptr` past the end. -/
theorem next_eq (forward : Bool) (vs : List Value) (i : Nat) :
    next forward ⟨vs, i⟩ = (values forward vs)[i]?.map fun v => (v, ⟨vs, i + 1⟩) := by
  unfold next values
  by_cases h : i < vs.length
  · cases forward <;> simp [h, mirror, Value.clone_eq, List.getElem_reverse]
  · have h' : vs.length ≤ i := Nat.le_of_not_lt h
    cases forward <;> simp [h, List.getElem?_eq_none h',
      List.getElem?_eq_none (by rwa [List.length_reverse] : vs.reverse.length ≤ i)]

/-- Both sequence producers number their values by `m_idx`. -/
theorem next_numbers (forward : Bool) : Numbers (Yield.ofFn (next forward)) idx := by
  intro s v s' h
  simp only [Yield.ofFn, next] at h
  split at h
  · obtain ⟨rfl, rfl⟩ := Prod.mk.inj (Option.some.inj h)
    exact ⟨Value.pos_setPos _ _, rfl⟩
  · exact nomatch h

end SeqProducer

/-- `elem_loclist_producer`: the location attribute and the expression of `m_value`,
the counter `m_i`, and the direction; `m_n` is the expression's length. -/
structure LoclistProducer where
  attr : Attr
  expr : List LocOp
  i : Nat
  forward : Bool

namespace LoclistProducer

/-- The producer `elem` (`forward`) or `relem` builds on a location expression. -/
def init (a : Attr) (expr : List LocOp) (forward : Bool) : LoclistProducer :=
  ⟨a, expr, 0, forward⟩

/-- `elem_loclist_producer::next`: `idx = m_i++`, mirrored going backwards; the operator
at `idx` is yielded with `idx` as its position. -/
def next (p : LoclistProducer) : Option (Value × LoclistProducer) :=
  if h : p.i < p.expr.length then
    let idx := mirror p.forward p.expr.length p.i
    some (.dw (.loclistOp p.attr (p.expr.get ⟨idx, mirror_lt p.forward h⟩)) idx,
      { p with i := p.i + 1 })
  else none

/-- From counter `m_i`, the producer yields one operator for each index left, each
positioned at its mirrored index, and ends with its counter at the length. -/
theorem emits_rest (p : LoclistProducer) (h : p.i ≤ p.expr.length) :
    ∃ l, Emits (Yield.ofFn next) p l { p with i := p.expr.length } ∧
      l.map Value.pos =
        (List.range' p.i (p.expr.length - p.i)).map (mirror p.forward p.expr.length) := by
  generalize hd : p.expr.length - p.i = d
  induction d generalizing p with
  | zero =>
    have : p.i = p.expr.length := by omega
    exact ⟨[], by rw [← this]; exact .nil _, rfl⟩
  | succ d ih =>
    have hi : p.i < p.expr.length := by omega
    obtain ⟨l, hl, hpos⟩ := ih { p with i := p.i + 1 } (by simp only; omega) (by simp only; omega)
    refine ⟨_ :: l, .cons (by simp only [Yield.ofFn, next, hi, dif_pos]; rfl) hl, ?_⟩
    rw [List.map_cons, hpos, List.range'_succ, List.map_cons]
    rfl

theorem next_rest (p : LoclistProducer) : next { p with i := p.expr.length } = none := by
  simp [next]

/-- Every run of the producer positions its `k`-th value at the mirrored index of
`m_i + k`. -/
theorem emits_positions {p s : LoclistProducer} {l : List Value}
    (h : Emits (Yield.ofFn next) p l s) :
    l.map Value.pos = (List.range' p.i l.length).map (mirror p.forward p.expr.length) := by
  induction h with
  | nil => rfl
  | cons hv _ ih =>
    simp only [Yield.ofFn, next] at hv
    split at hv
    · obtain ⟨rfl, rfl⟩ := Prod.mk.inj (Option.some.inj hv)
      rw [List.map_cons, ih, List.length_cons, List.range'_succ, List.map_cons]
      rfl
    · exact nomatch hv

end LoclistProducer

/-- **`relem` on a location expression positions its operators backwards.** On every
location expression of `n` operators the backward producer yields `n` operators with
positions `n - 1, …, 1, 0`: each value carries the index of the operator it reads, not
its index in the stream. -/
theorem relem_loclist_positions_reversed (a : Attr) (e : List LocOp) :
    ∃ l s, Emits (Yield.ofFn LoclistProducer.next) (LoclistProducer.init a e false) l s ∧
      LoclistProducer.next s = none ∧ l.map Value.pos = (List.range e.length).reverse := by
  obtain ⟨l, hl, hpos⟩ := LoclistProducer.emits_rest (.init a e false) (Nat.zero_le _)
  refine ⟨l, _, hl, LoclistProducer.next_rest _, ?_⟩
  simp [hpos, LoclistProducer.init, mirror, List.range_eq_range', List.reverse_range']

/-- `elem_aset_producer`: the coverage, the position `m_idx` among its ranges, the
offset `m_ai` in the current range, the counter `m_i` of values produced, and the
direction. -/
structure AsetProducer where
  cov : List Range
  idx : Nat
  ai : Nat
  i : Nat
  forward : Bool

/-- `dw_address_dom ()`: the domain addresses are rendered in. -/
def addressDom : Nat := 1

namespace AsetProducer

/-- The producer `elem` (`forward`) or `relem` builds on a coverage. -/
def init (cov : List Range) (forward : Bool) : AsetProducer := ⟨cov, 0, 0, 0, forward⟩

/-- `cov.at (idx ())`: the `m`-th range, counted from the end going backwards (read
only below `cov.size ()`). -/
def rangeAt (p : AsetProducer) (m : Nat) : Range :=
  p.cov.getD (mirror p.forward p.cov.length m) ⟨0, 0⟩

/-- The tail of `next` once the range is fixed: the address at offset `ai` of range
`idx` (from the range's end going backwards), wrapped to 64 bits and positioned at
`m_i`. -/
def emit (p : AsetProducer) (idx ai : Nat) : Value × AsetProducer :=
  let r := p.rangeAt idx
  (.cst ⟨((r.start + mirror p.forward r.length ai) % 2 ^ 64 : Nat), addressDom⟩ p.i,
    { p with idx := idx, ai := ai + 1, i := p.i + 1 })

/-- `elem_aset_producer::next`: past the current range, move to the next one, which
must not be empty. -/
def next (p : AsetProducer) : Except Fault (Option (Value × AsetProducer)) :=
  if p.cov.length ≤ p.idx then .ok none
  else if (p.rangeAt p.idx).length ≤ p.ai then
    if p.cov.length ≤ p.idx + 1 then .ok none
    else if (p.rangeAt (p.idx + 1)).length = 0 then .error .assertion
    else .ok (some (p.emit (p.idx + 1) 0))
  else .ok (some (p.emit p.idx p.ai))

/-- The address-set producer numbers its values by `m_i`, whichever range they come
from. -/
theorem next_numbers : Numbers (Yield.ofExcept next) i := by
  intro s v s' h
  simp only [Yield.ofExcept, next] at h
  split_ifs at h <;> cases h <;> exact ⟨rfl, rfl⟩

end AsetProducer

/-- The producer of `op_range_aset`: the coverage and the counter `m_i`. -/
structure RangeProducer where
  cov : List Range
  i : Nat

/-- `op_range_aset::producer::next`: the `m_i`-th range as a coverage of its own,
positioned at `m_i`. -/
def RangeProducer.next (p : RangeProducer) : Option (Value × RangeProducer) :=
  match p.cov.get? p.i with
  | none => none
  | some r => some (.aset [r] p.i, { p with i := p.i + 1 })

/-- `range` numbers the ranges it yields by `m_i`. -/
theorem RangeProducer.next_numbers : Numbers (Yield.ofFn next) RangeProducer.i := by
  intro s v s' h
  simp only [Yield.ofFn, next] at h
  split at h
  · exact nomatch h
  · obtain ⟨rfl, rfl⟩ := Prod.mk.inj (Option.some.inj h)
    exact ⟨rfl, rfl⟩

end Dwgrep
