import Dwgrep.Compare

/-!
# The sequence predicates

`?find`, `?starts` and `?ends` on two sequences (`value-seq.cc`): the haystack `H`
below the top of the stack and the needle `N` on top, their elements matched by
`cmp = equal`. The source hands them to the standard algorithms: `?find` to
`std::search`, the other two to `std::equal` behind a length check.

* `equalRange`, `search` — `std::equal` and `std::search` under a predicate;
* `Matches` — the relation the predicates are meant to decide: `M` matches `N` element
  by element;
* `seq_predicates_decide_matches` — **`?starts` decides a matching prefix and `?ends` a
  matching suffix; `?find` decides a matching infix in every non-empty haystack**, and
  fails on the empty one even for the empty needle, because `std::search` returns the
  beginning of an empty haystack, which is its end.
-/

namespace Dwgrep

section Algorithms

variable {α : Type} (eq : α → α → Bool)

/-- `std::equal (first1, last1, first2, pred)`: `pred` holds of each element of the
first range and the element at the same place of the second. -/
def equalRange : List α → List α → Bool
  | [], _ => true
  | a :: as, b :: bs => eq a b && equalRange as bs
  | _ :: _, [] => false

/-- `std::search (first1, last1, first2, last2, pred)`: the index of the first place of
the haystack where the needle matches, or the haystack's length, its end, if there is
none. An empty haystack or an empty needle gives the beginning. -/
def search : List α → List α → Nat
  | [], _ => 0
  | _ :: _, [] => 0
  | h :: t, n :: ns =>
    if (n :: ns).length ≤ (h :: t).length &&
        equalRange eq ((h :: t).take (n :: ns).length) (n :: ns) then 0
    else search t (n :: ns) + 1

variable {eq}

theorem equalRange_iff : ∀ {as bs : List α}, as.length = bs.length →
    (equalRange eq as bs = true ↔ List.Forall₂ (fun a b => eq a b = true) as bs)
  | [], [], _ => by simp [equalRange]
  | a :: as, b :: bs, h => by
    simp only [equalRange, Bool.and_eq_true, List.forall₂_cons,
      equalRange_iff (Nat.succ.inj h)]

/-- The first places of `hay` match `need` iff `hay` starts with a list matching it. -/
theorem take_matches_iff {hay need : List α} :
    (need.length ≤ hay.length ∧ equalRange eq (hay.take need.length) need = true) ↔
      ∃ M S, hay = M ++ S ∧ List.Forall₂ (fun a b => eq a b = true) M need := by
  constructor
  · rintro ⟨hl, h⟩
    refine ⟨_, _, (List.take_append_drop need.length hay).symm, ?_⟩
    exact (equalRange_iff (by simp [hl])).1 h
  · rintro ⟨M, S, rfl, h⟩
    have hM := h.length_eq
    refine ⟨by simp [← hM], ?_⟩
    rw [← hM, List.take_left]
    exact (equalRange_iff hM).2 h

/-- `std::search` finds a place before the end iff the haystack is not empty and has a
stretch matching the needle. -/
theorem search_ne_length_iff {need : List α} : ∀ {hay : List α},
    search eq hay need ≠ hay.length ↔
      hay ≠ [] ∧ ∃ P M S, hay = P ++ M ++ S ∧ List.Forall₂ (fun a b => eq a b = true) M need
  | [] => by simp [search]
  | h :: t => by
    cases need with
    | nil => exact ⟨fun _ => ⟨List.cons_ne_nil _ _, [], [], _, rfl, .nil⟩, fun _ => by simp [search]⟩
    | cons n ns =>
      rw [search]
      split
      · rename_i hm
        simp only [Bool.and_eq_true, decide_eq_true_eq] at hm
        obtain ⟨M, S, he, hM⟩ := take_matches_iff.1 hm
        exact ⟨fun _ => ⟨List.cons_ne_nil _ _, [], M, S, he, hM⟩, fun _ => by simp⟩
      · rename_i hm
        simp only [Bool.and_eq_true, decide_eq_true_eq] at hm
        rw [List.length_cons, Ne, Nat.add_right_cancel_iff, ← Ne, search_ne_length_iff]
        constructor
        · rintro ⟨-, P, M, S, rfl, hM⟩
          exact ⟨List.cons_ne_nil _ _, h :: P, M, S, rfl, hM⟩
        · rintro ⟨-, P, M, S, he, hM⟩
          cases P with
          | nil => exact absurd (take_matches_iff.2 ⟨M, S, he, hM⟩) hm
          | cons p P =>
            obtain ⟨-, rfl⟩ := List.cons.inj he
            obtain ⟨m, M', rfl⟩ : ∃ m M', M = m :: M' := by
              cases hM with
              | cons _ _ => exact ⟨_, _, rfl⟩
            exact ⟨by simp, P, m :: M', S, rfl, hM⟩

end Algorithms

variable (rt : Runtime)

/-- The element predicate the three words pass to the algorithms: `a->cmp (*b) ==
cmp_result::equal`, with `a` from the haystack and `b` from the needle. -/
def cmpEqual (a b : Value) : Bool := a.cmp rt b == .equal

/-- `pred_find_seq::result`. -/
def findSeq (hay need : List Value) : PredResult :=
  .ofBool (search (cmpEqual rt) hay need != hay.length)

/-- `pred_starts_seq::result`. -/
def startsSeq (hay need : List Value) : PredResult :=
  .ofBool (need.length ≤ hay.length && equalRange (cmpEqual rt) (hay.take need.length) need)

/-- `pred_ends_seq::result`. -/
def endsSeq (hay need : List Value) : PredResult :=
  .ofBool (need.length ≤ hay.length &&
    equalRange (cmpEqual rt) (hay.drop (hay.length - need.length)) need)

/-- `M` matches `N` element by element: each element of `M` compares `equal` to the
element of `N` at its place. -/
def Matches (M N : List Value) : Prop := List.Forall₂ (fun a b => a.cmp rt b = .equal) M N

variable {rt}

theorem matches_iff {M N : List Value} :
    List.Forall₂ (fun a b => cmpEqual rt a b = true) M N ↔ Matches rt M N := by
  simp only [cmpEqual, beq_iff_eq, Matches]

theorem ofBool_eq_yes {b : Bool} : PredResult.ofBool b = .yes ↔ b = true := by
  cases b <;> decide

/-- **What the sequence predicates decide.** `H N ?starts` holds iff `H` starts with a
stretch matching `N`, and `H N ?ends` iff it ends with one. `H N ?find` holds iff `H`
has a stretch matching `N` and is not empty: on the empty haystack `std::search`
returns its beginning, which is its end, so `[] [] ?find` fails while `[] [] ?starts`
and `[] [] ?ends` hold. -/
theorem seq_predicates_decide_matches (H N : List Value) :
    (startsSeq rt H N = .yes ↔ ∃ M S, H = M ++ S ∧ Matches rt M N) ∧
    (endsSeq rt H N = .yes ↔ ∃ P M, H = P ++ M ∧ Matches rt M N) ∧
    (findSeq rt H N = .yes ↔ H ≠ [] ∧ ∃ P M S, H = P ++ M ++ S ∧ Matches rt M N) := by
  refine ⟨?_, ?_, ?_⟩
  · simp only [startsSeq, ofBool_eq_yes, Bool.and_eq_true, decide_eq_true_eq, take_matches_iff,
      matches_iff]
  · simp only [endsSeq, ofBool_eq_yes, Bool.and_eq_true, decide_eq_true_eq]
    constructor
    · rintro ⟨hl, h⟩
      refine ⟨H.take (H.length - N.length), _, (List.take_append_drop _ H).symm, ?_⟩
      exact matches_iff.1 ((equalRange_iff (by simp; omega)).1 h)
    · rintro ⟨P, M, rfl, h⟩
      have hM := h.length_eq
      refine ⟨by simp [← hM], ?_⟩
      rw [List.length_append, ← hM, Nat.add_sub_cancel, List.drop_left]
      exact (equalRange_iff hM).2 (matches_iff.2 h)
  · simp only [findSeq, ofBool_eq_yes, bne_iff_ne, search_ne_length_iff, matches_iff]

/-- The empty haystack and the empty needle: `?starts` and `?ends` hold, `?find` does
not. -/
theorem seq_predicates_empty :
    startsSeq rt [] [] = .yes ∧ endsSeq rt [] [] = .yes ∧ findSeq rt [] [] = .no ∧
      ∃ P M S : List Value, [] = P ++ M ++ S ∧ Matches rt M [] :=
  ⟨rfl, rfl, rfl, [], [], [], rfl, .nil⟩

end Dwgrep
