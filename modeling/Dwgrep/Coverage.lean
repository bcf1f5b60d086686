import Dwgrep.Producer
import Mathlib.Data.List.Chain
import Mathlib.Data.List.GetD

/-!
# Address sets

A `value_aset` holds a coverage (`coverage.hh`): ranges `[start, start + length)` of
64-bit addresses, sorted, disjoint and never adjacent, since adding a range merges it
with its neighbours. This module states that invariant, says which addresses a
coverage covers, and checks the words over address sets against it.

* `CoverageOk`, `Coverage` — the representation invariant, and a coverage that carries
  it;
* `Coverage.addrs` — the covered addresses, range by range: strictly ascending
  (`addrs_sorted`), and exactly the addresses inside some range (`mem_addrs`);
* `AsetProducer.emits_all` — the run of `elem_aset_producer` from its start, proved
  range by range: `emits_range` walks one range, `emits_ranges` the ranges after it;
* `aset_elem_relem_enumerate` — **`elem` yields every covered address once, ascending,
  and `relem` every one once, descending**;
* `aset_length_low_high` — `length` counts the addresses `elem` yields and `low` is the
  first; `high` is the last plus one **wrapped to 64 bits**, so a coverage that reaches
  the top of the address space has `high` 0.
-/

namespace Dwgrep

/-! ## Coverages -/

/-- One past the last address of a range. -/
def Range.stop (r : Range) : Nat := r.start + r.length

/-- The addresses of a range, ascending. -/
def Range.addrs (r : Range) : List Nat := List.range' r.start r.length

/-- The representation invariant of a coverage: every range is non-empty, its length
fits its `uint64_t` field and it ends inside the 64-bit address space; each range ends
before the next one starts, with a gap, since adjacent ranges merge. -/
structure CoverageOk (cov : List Range) : Prop where
  range_ok : ∀ r ∈ cov, 0 < r.length ∧ r.length < 2 ^ 64 ∧ r.stop ≤ 2 ^ 64
  gaps : cov.Chain' fun r s => r.stop < s.start

/-- A coverage: its ranges, with the invariant. -/
structure Coverage where
  ranges : List Range
  ok : CoverageOk ranges

/-- The addresses a coverage covers, range by range. -/
def Coverage.addrs (C : Coverage) : List Nat := C.ranges.flatMap Range.addrs

theorem CoverageOk.tail {r : Range} {rs : List Range} (h : CoverageOk (r :: rs)) :
    CoverageOk rs :=
  ⟨fun s hs => h.range_ok s (List.mem_cons_of_mem r hs), h.gaps.tail⟩

theorem mem_addrs (C : Coverage) (a : Nat) :
    a ∈ C.addrs ↔ ∃ r ∈ C.ranges, r.start ≤ a ∧ a < r.stop := by
  simp only [Coverage.addrs, List.mem_flatMap, Range.addrs, List.mem_range'_1, Range.stop]

/-- The ranges are ordered: each ends before every later one starts. -/
theorem CoverageOk.before {cov : List Range} (h : CoverageOk cov) :
    cov.Pairwise fun r s => r.stop < s.start :=
  haveI : IsTrans Range fun r s => r.stop < s.start :=
    ⟨fun _ b _ h₁ h₂ => by unfold Range.stop at *; omega⟩
  List.chain'_iff_pairwise.1 h.gaps

theorem addrs_sorted (C : Coverage) : C.addrs.Sorted (· < ·) := by
  refine List.pairwise_flatMap.2 ⟨fun r _ => List.pairwise_lt_range' _ _, ?_⟩
  refine C.ok.before.imp fun {r s} h x hx y hy => ?_
  simp only [Range.addrs, List.mem_range'_1, Range.stop] at hx hy h
  omega

/-! ## The producer of `elem` and `relem` -/

/-- The values `elem` yields for a list of addresses: each in the address domain,
positioned by its place in the stream from `i` on. -/
def addrValues : Nat → List Nat → List Value
  | _, [] => []
  | i, a :: as => .cst ⟨a, addressDom⟩ i :: addrValues (i + 1) as

theorem addrValues_append (i : Nat) (l₁ l₂ : List Nat) :
    addrValues i (l₁ ++ l₂) = addrValues i l₁ ++ addrValues (i + l₁.length) l₂ := by
  induction l₁ generalizing i with
  | nil => rfl
  | cons a l₁ ih =>
    rw [List.cons_append, addrValues, addrValues, ih, List.length_cons, Nat.add_right_comm,
      Nat.add_assoc, List.cons_append]

namespace AsetProducer

/-- The producer's ranges are valid: each it visits is non-empty and ends inside the
64-bit address space. -/
def Fits (p : AsetProducer) : Prop :=
  ∀ m < p.cov.length, 0 < (p.rangeAt m).length ∧ (p.rangeAt m).stop ≤ 2 ^ 64

/-- The addresses of range `m` from offset `a` on, in the order the producer visits
them. -/
def rest (p : AsetProducer) (m a : Nat) : List Nat :=
  (List.range' a ((p.rangeAt m).length - a)).map fun b =>
    (p.rangeAt m).start + mirror p.forward (p.rangeAt m).length b

/-- Moving through the coverage leaves the ranges as they are. -/
@[simp] theorem rangeAt_update (p : AsetProducer) (m a i : Nat) :
    ({ p with idx := m, ai := a, i := i } : AsetProducer).rangeAt = p.rangeAt := rfl

theorem rangeAt_mem {p : AsetProducer} {m : Nat} (h : m < p.cov.length) :
    p.rangeAt m ∈ p.cov := by
  unfold rangeAt
  rw [List.getD_eq_getElem _ _ (mirror_lt _ h)]
  exact List.getElem_mem _

theorem fits_init {cov : List Range} (h : CoverageOk cov) (forward : Bool) :
    Fits (init cov forward) := fun _ hm =>
  have hr := h.range_ok _ (rangeAt_mem hm)
  ⟨hr.1, hr.2.2⟩

theorem rest_cons (p : AsetProducer) {m a : Nat} (h : a < (p.rangeAt m).length) :
    p.rest m a = ((p.rangeAt m).start + mirror p.forward (p.rangeAt m).length a) ::
      p.rest m (a + 1) := by
  unfold rest
  rw [show (p.rangeAt m).length - a = (p.rangeAt m).length - (a + 1) + 1 by omega,
    List.range'_succ, List.map_cons]

theorem length_rest (p : AsetProducer) (m a : Nat) :
    (p.rest m a).length = (p.rangeAt m).length - a := by
  simp only [rest, List.length_map, List.length_range']

/-- The address `emit` yields is the one `rest` lists: inside the address space it does
not wrap. -/
theorem emit_eq {p : AsetProducer} {m a : Nat} (hf : Fits p) (hm : m < p.cov.length)
    (ha : a < (p.rangeAt m).length) :
    p.emit m a = (.cst ⟨((p.rangeAt m).start + mirror p.forward (p.rangeAt m).length a : Nat),
      addressDom⟩ p.i, { p with idx := m, ai := a + 1, i := p.i + 1 }) := by
  have hlt := mirror_lt p.forward ha
  have hs := (hf m hm).2
  unfold Range.stop at hs
  rw [emit, Nat.mod_eq_of_lt (by omega)]

/-- **One range.** From offset `ai` of the current range, the producer yields the rest
of the range and stops at its end. -/
theorem emits_range : ∀ (d : Nat) (p : AsetProducer), Fits p → p.idx < p.cov.length →
    p.ai + d = (p.rangeAt p.idx).length →
    Emits (Yield.ofExcept next) p (addrValues p.i (p.rest p.idx p.ai))
      { p with ai := (p.rangeAt p.idx).length, i := p.i + d }
  | 0, p, _, _, had => by
    have hr : p.rest p.idx p.ai = [] := by
      rw [← List.length_eq_zero, length_rest]; omega
    rw [hr, ← had]
    exact .nil _
  | d + 1, p, hf, hm, had => by
    have ha : p.ai < (p.rangeAt p.idx).length := by omega
    have hstep : next p = .ok (some (p.emit p.idx p.ai)) := by
      simp only [next, if_neg (Nat.not_le.2 hm), if_neg (Nat.not_le.2 ha)]
    rw [rest_cons p ha, addrValues]
    refine .cons (by rw [Yield.ofExcept, hstep, emit_eq hf hm ha]) ?_
    have h := emits_range d { p with idx := p.idx, ai := p.ai + 1, i := p.i + 1 } hf hm
      (by simp only [rangeAt_update]; omega)
    rwa [show p.i + 1 + d = p.i + (d + 1) by omega] at h

/-- **The ranges after the current one.** At the end of range `idx`, with `k` ranges
after it, the producer yields their addresses, range after range, and then returns
`nullptr`. -/
theorem emits_ranges : ∀ (k : Nat) (p : AsetProducer), Fits p →
    p.idx + 1 + k = p.cov.length → p.ai = (p.rangeAt p.idx).length →
    ∃ s, Emits (Yield.ofExcept next) p
      (addrValues p.i ((List.range' (p.idx + 1) k).flatMap fun m => p.rest m 0)) s ∧
      next s = .ok none
  | 0, p, _, hk, ha => ⟨p, .nil _, by simp only [next]; split_ifs <;> first | rfl | omega⟩
  | k + 1, p, hf, hk, ha => by
    have hm : p.idx + 1 < p.cov.length := by omega
    have hpos := (hf _ hm).1
    have hstep : next p = .ok (some (p.emit (p.idx + 1) 0)) := by
      simp only [next, if_neg (show ¬ p.cov.length ≤ p.idx by omega), ha, le_refl, if_true,
        if_neg (Nat.not_le.2 hm), if_neg (Nat.pos_iff_ne_zero.1 hpos)]
    have h₁ := emits_range ((p.rangeAt (p.idx + 1)).length - 1)
      { p with idx := p.idx + 1, ai := 1, i := p.i + 1 } hf hm
      (by simp only [rangeAt_update]; omega)
    obtain ⟨s, h₂, hs⟩ := emits_ranges k
      { p with
        idx := p.idx + 1
        ai := (p.rangeAt (p.idx + 1)).length
        i := p.i + 1 + ((p.rangeAt (p.idx + 1)).length - 1) }
      hf (by simp only; omega) rfl
    refine ⟨s, ?_, hs⟩
    rw [List.range'_succ, List.flatMap_cons, rest_cons p hpos, List.cons_append, addrValues,
      addrValues_append, length_rest]
    exact .cons (by rw [Yield.ofExcept, hstep, emit_eq hf hm hpos]) (h₁.append h₂)

/-- **The whole run.** From its start the producer yields the addresses of its ranges
in the order it visits them, and then returns `nullptr`. -/
theorem emits_all (cov : List Range) (forward : Bool) (hf : Fits (init cov forward)) :
    ∃ s, Emits (Yield.ofExcept next) (init cov forward)
      (addrValues 0 ((List.range' 0 cov.length).flatMap fun m => (init cov forward).rest m 0)) s ∧
      next s = .ok none := by
  cases hK : cov.length with
  | zero => exact ⟨_, .nil _, by simp only [next, init, hK, le_refl, if_true]⟩
  | succ K =>
    have hm : 0 < (init cov forward).cov.length := by simp only [init]; omega
    have h₁ := emits_range _ (init cov forward) hf hm (Nat.zero_add _)
    obtain ⟨s, h₂, hs⟩ := emits_ranges K
      { init cov forward with
        ai := ((init cov forward).rangeAt 0).length
        i := 0 + ((init cov forward).rangeAt 0).length }
      hf (by simp only [init]; omega) rfl
    refine ⟨s, ?_, hs⟩
    rw [List.range'_succ, List.flatMap_cons, addrValues_append, length_rest]
    exact h₁.append h₂

end AsetProducer

/-! ## `elem` and `relem` -/

/-- Going forwards, the producer visits the ranges in order and each from its start. -/
theorem rest_forward (cov : List Range) (m : Nat) :
    (AsetProducer.init cov true).rest m 0 = (cov.getD m ⟨0, 0⟩).addrs := by
  simp only [AsetProducer.rest, AsetProducer.rangeAt, AsetProducer.init, mirror_true, id,
    Nat.sub_zero, Range.addrs]
  rw [List.map_add_range', Nat.add_zero]

/-- Going backwards, the producer visits the ranges from the last and each from its
end. -/
theorem rest_backward (cov : List Range) {m : Nat} (hm : m < cov.length) :
    (AsetProducer.init cov false).rest m 0 = (cov.reverse.getD m ⟨0, 0⟩).addrs.reverse := by
  have hr : (AsetProducer.init cov false).rangeAt m = cov.reverse.getD m ⟨0, 0⟩ := by
    simp only [AsetProducer.rangeAt, AsetProducer.init, mirror, Bool.false_eq_true, if_false,
      List.getD_eq_getElem?_getD, List.getElem?_reverse hm]
  unfold AsetProducer.rest
  rw [hr]
  generalize cov.reverse.getD m ⟨0, 0⟩ = r
  apply List.ext_getElem (by simp only [Range.addrs, List.length_map, List.length_range',
    List.length_reverse, Nat.sub_zero])
  intro i h₁ _
  simp only [List.length_map, List.length_range', Nat.sub_zero] at h₁
  simp only [List.getElem_map, List.getElem_range', List.getElem_reverse, Range.addrs,
    List.length_range', mirror, AsetProducer.init, Bool.false_eq_true, if_false]
  omega

theorem flatMap_range'_getD_append {α β : Type} (f : α → List β) (d : α) :
    ∀ (L pre : List α),
      (List.range' pre.length L.length).flatMap (fun m => f ((pre ++ L).getD m d)) =
        L.flatMap f
  | [], _ => rfl
  | x :: L, pre => by
    have hx : (pre ++ x :: L).getD pre.length d = x := by
      simp only [List.getD_eq_getElem?_getD, List.getElem?_append_right (le_refl _),
        Nat.sub_self, List.getElem?_cons_zero, Option.getD_some]
    have ih := flatMap_range'_getD_append f d L (pre ++ [x])
    rw [List.append_assoc, List.singleton_append, List.length_append, List.length_singleton]
      at ih
    rw [List.length_cons, List.range'_succ, List.flatMap_cons, hx, ih, List.flatMap_cons]

/-- Reading a list through its indices, in order. -/
theorem flatMap_range'_getD {α β : Type} (f : α → List β) (d : α) (L : List α) :
    (List.range' 0 L.length).flatMap (fun m => f (L.getD m d)) = L.flatMap f :=
  flatMap_range'_getD_append f d L []

/-- The producer of `elem` yields the addresses of the coverage, ascending. -/
theorem elem_emits_addrs (C : Coverage) :
    ∃ s, Emits (Yield.ofExcept AsetProducer.next) (.init C.ranges true)
      (addrValues 0 C.addrs) s ∧ AsetProducer.next s = .ok none := by
  have h := AsetProducer.emits_all C.ranges true (AsetProducer.fits_init C.ok true)
  simp only [rest_forward] at h
  rwa [flatMap_range'_getD Range.addrs _ C.ranges] at h

/-- The producer of `relem` yields the addresses of the coverage, descending. -/
theorem relem_emits_addrs (C : Coverage) :
    ∃ s, Emits (Yield.ofExcept AsetProducer.next) (.init C.ranges false)
      (addrValues 0 C.addrs.reverse) s ∧ AsetProducer.next s = .ok none := by
  have h := AsetProducer.emits_all C.ranges false (AsetProducer.fits_init C.ok false)
  rw [List.flatMap_congr fun m hm => rest_backward C.ranges (by simpa using hm),
    ← C.ranges.length_reverse,
    flatMap_range'_getD (fun r => r.addrs.reverse) _ C.ranges.reverse] at h
  rwa [Coverage.addrs, List.reverse_flatMap]

/-- **`elem` and `relem` on a coverage.** The addresses of a coverage are strictly
ascending, so each occurs once, and they are exactly the addresses inside its ranges.
From its start, the producer of `elem` yields them in that order and then returns
`nullptr`; the producer of `relem` yields them in the reverse order. Neither throws. -/
theorem aset_elem_relem_enumerate (C : Coverage) :
    C.addrs.Sorted (· < ·) ∧ (∀ a, a ∈ C.addrs ↔ ∃ r ∈ C.ranges, r.start ≤ a ∧ a < r.stop) ∧
    (∃ s, Emits (Yield.ofExcept AsetProducer.next) (.init C.ranges true)
      (addrValues 0 C.addrs) s ∧ AsetProducer.next s = .ok none) ∧
    (∃ s, Emits (Yield.ofExcept AsetProducer.next) (.init C.ranges false)
      (addrValues 0 C.addrs.reverse) s ∧ AsetProducer.next s = .ok none) :=
  ⟨addrs_sorted C, mem_addrs C, elem_emits_addrs C, relem_emits_addrs C⟩

/-! ## `low`, `high` and `length` -/

/-- `dec_constant_dom`: the domain plain numbers are rendered in. -/
def decConstantDom : Nat := 0

/-- `op_low_aset::operate`: the start of the first range, in the address domain at
position 0; nothing on an empty coverage. -/
def lowAset (cov : List Range) : Option Value :=
  cov.head?.map fun r => .cst ⟨r.start, addressDom⟩ 0

/-- `op_high_aset::operate`: `start + length` of the last range, a `uint64_t` sum. -/
def highAset (cov : List Range) : Option Value :=
  cov.getLast?.map fun r => .cst ⟨((r.start + r.length) % 2 ^ 64 : Nat), addressDom⟩ 0

/-- `op_length_aset::operate`: the lengths of the ranges summed in a `uint64_t`. -/
def lengthAset (cov : List Range) : Value :=
  .cst ⟨(cov.foldl (fun acc r => (acc + r.length) % 2 ^ 64) 0 : Nat), decConstantDom⟩ 0

/-- The `uint64_t` sum of the lengths is the number of addresses modulo `2^64`. -/
theorem foldl_length_mod (cov : List Range) {a : Nat} (ha : a < 2 ^ 64) :
    cov.foldl (fun acc r => (acc + r.length) % 2 ^ 64) a =
      (a + (cov.flatMap Range.addrs).length) % 2 ^ 64 := by
  induction cov generalizing a with
  | nil => exact (Nat.mod_eq_of_lt ha).symm
  | cons r rs ih =>
    rw [List.foldl_cons, ih (Nat.mod_lt _ (Nat.two_pow_pos 64)), Nat.mod_add_mod,
      List.flatMap_cons, List.length_append, Range.addrs, List.length_range', Nat.add_assoc]

/-- The ranges from `r` on cover fewer addresses than lie between `r`'s start and the
top of the address space, by one for each gap. -/
theorem CoverageOk.count_le : ∀ {r : Range} {rs : List Range}, CoverageOk (r :: rs) →
    ((r :: rs).flatMap Range.addrs).length + rs.length + r.start ≤ 2 ^ 64
  | r, [], h => by
    have hr := (h.range_ok r (List.mem_singleton_self r)).2.2
    simp only [Range.stop] at hr
    simp only [List.flatMap_cons, List.flatMap_nil, List.append_nil, Range.addrs,
      List.length_range', List.length_nil]
    omega
  | r, s :: rest, h => by
    have ih := h.tail.count_le
    have hgap : r.stop < s.start := (List.chain'_cons.1 h.gaps).1
    simp only [List.flatMap_cons, List.length_append, Range.addrs, List.length_range',
      List.length_cons, Range.stop] at ih hgap ⊢
    omega

/-- A coverage has fewer than `2^64` addresses: the `uint64_t` count never wraps. -/
theorem length_addrs_lt (C : Coverage) : C.addrs.length < 2 ^ 64 := by
  obtain ⟨_ | ⟨r, rs⟩, h⟩ := C
  · exact Nat.two_pow_pos 64
  · have hc := h.count_le
    have hr := (h.range_ok r (List.mem_cons_self r rs)).2.1
    simp only [Coverage.addrs, List.flatMap_cons, List.length_append, Range.addrs,
      List.length_range'] at hc ⊢
    cases rs with
    | nil => simpa only [List.flatMap_nil, List.length_nil, Nat.add_zero] using hr
    | cons s rest => simp only [List.length_cons] at hc; omega

theorem addrs_head? {C : Coverage} {r : Range} {rs : List Range} (hC : C.ranges = r :: rs) :
    C.addrs.head? = some r.start := by
  obtain ⟨n, hn⟩ := Nat.exists_eq_succ_of_ne_zero
    (C.ok.range_ok r (hC ▸ List.mem_cons_self r rs)).1.ne'
  simp only [Coverage.addrs, hC, List.flatMap_cons, Range.addrs, hn, List.range'_succ,
    List.head?_append, List.head?_cons]
  rfl

theorem addrs_getLast? {C : Coverage} {rs : List Range} {r : Range}
    (hC : C.ranges = rs ++ [r]) : C.addrs.getLast? = some (r.stop - 1) := by
  obtain ⟨n, hn⟩ := Nat.exists_eq_succ_of_ne_zero
    (C.ok.range_ok r (hC ▸ List.mem_append_right rs (List.mem_singleton_self r))).1.ne'
  simp only [Coverage.addrs, hC, List.flatMap_append, List.flatMap_singleton, Range.addrs, hn,
    List.range'_concat, ← List.append_assoc, List.getLast?_concat, Range.stop, Option.some.injEq]
  omega

/-- **`length`, `low` and `high` against `elem`.** On a non-empty coverage, `elem`
yields the addresses `C.addrs`; `length` is their number and `low` the first. `high` is
the last plus one taken modulo `2^64`, since `op_high_aset` adds the last range's start
and length as `uint64_t`: it is the exact last address plus one iff the last address is
not `2^64 - 1`. -/
theorem aset_length_low_high (C : Coverage) (hne : C.ranges ≠ []) :
    (∃ s, Emits (Yield.ofExcept AsetProducer.next) (.init C.ranges true)
      (addrValues 0 C.addrs) s ∧ AsetProducer.next s = .ok none) ∧
    lengthAset C.ranges = .cst ⟨C.addrs.length, decConstantDom⟩ 0 ∧
    lowAset C.ranges = C.addrs.head?.map (fun a => .cst ⟨a, addressDom⟩ 0) ∧
    highAset C.ranges =
      C.addrs.getLast?.map (fun a => .cst ⟨((a + 1) % 2 ^ 64 : Nat), addressDom⟩ 0) ∧
    (highAset C.ranges = C.addrs.getLast?.map (fun a => .cst ⟨((a + 1 : Nat) : Int), addressDom⟩ 0) ↔
      C.addrs.getLast? ≠ some (2 ^ 64 - 1)) := by
  have hlen : (C.ranges.flatMap Range.addrs).length < 2 ^ 64 := length_addrs_lt C
  obtain ⟨r₀, rs₀, hC₀⟩ := List.exists_cons_of_ne_nil hne
  obtain ⟨rs, r, hC⟩ := (List.eq_nil_or_concat C.ranges).resolve_left hne
  rw [List.concat_eq_append] at hC
  have hr := C.ok.range_ok r (hC ▸ List.mem_append_right rs (List.mem_singleton_self r))
  have hhigh : highAset C.ranges = some (.cst ⟨((r.start + r.length) % 2 ^ 64 : Nat), addressDom⟩ 0) := by
    rw [highAset, hC, List.getLast?_concat, Option.map_some']
  refine ⟨elem_emits_addrs C, ?_, ?_, ?_, ?_⟩
  · rw [lengthAset, foldl_length_mod _ (Nat.two_pow_pos 64), Nat.zero_add, Nat.mod_eq_of_lt hlen]
    rfl
  · rw [lowAset, hC₀, addrs_head? hC₀]
    rfl
  · rw [hhigh, addrs_getLast? hC, Option.map_some']
    simp only [Range.stop] at hr ⊢
    rw [Nat.sub_add_cancel (by omega)]
  · rw [hhigh, addrs_getLast? hC, Option.map_some']
    simp only [Option.some.injEq, Value.cst.injEq, Constant.mk.injEq, and_true, Ne, Range.stop] at hr ⊢
    omega

/-- The coverage `0 1 aset 0xffffffffffffffff add`: the first and the last address. -/
def edgeCoverage : Coverage := ⟨[⟨0, 1⟩, ⟨2 ^ 64 - 1, 1⟩], ⟨by decide, List.chain'_pair.2 (by decide)⟩⟩

/-- On a coverage that reaches the top of the address space `high` wraps: `elem` yields
`0` and `2^64 - 1`, but `high` is `0`, not `2^64`. -/
theorem aset_high_wraps_at_top :
    edgeCoverage.ranges ≠ [] ∧ edgeCoverage.addrs = [0, 2 ^ 64 - 1] ∧
      highAset edgeCoverage.ranges = some (.cst ⟨0, addressDom⟩ 0) ∧
      highAset edgeCoverage.ranges ≠ edgeCoverage.addrs.getLast?.map
        (fun a => .cst ⟨((a + 1 : Nat) : Int), addressDom⟩ 0) :=
  have hne : edgeCoverage.ranges ≠ [] := List.cons_ne_nil _ _
  have hlast : edgeCoverage.addrs.getLast? = some (2 ^ 64 - 1) := rfl
  ⟨hne, rfl, rfl, fun h => (aset_length_low_high edgeCoverage hne).2.2.2.2.1 h hlast⟩

end Dwgrep
