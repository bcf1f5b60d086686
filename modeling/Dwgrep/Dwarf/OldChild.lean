import Dwgrep.Dwarf.Die

/-!
# `child` in the old engine

The first dwgrep engine (`src/builtin-dw.cc`, `builtin_child`) walks a DIE's children
with libdw's cursor calls: `dwarf_haschildren` reads the has-children flag of the
DIE's abbreviation, `dwarf_child` moves to the first child and `dwarf_siblingof` to the
next sibling. The flag and the children need not agree: DWARF allows an abbreviation
that says "children" on a DIE whose child chain is terminated at once, and then
`dwarf_child` returns 1, no child, which the loop treats as an error.

* `ChildFlags` — the has-children flag of each DIE, set on every DIE that has children;
* `pull`, `next` — `child::next`: the `while (m_vf == nullptr)` loop over the upstream,
  and the step that yields the current child and moves to its next sibling;
* `next_children` — a DIE's children come out in sibling order, numbered from `m_pos`;
* `old_child_yields_children` — **on a stack carrying a DIE `d`, `child` yields `d`'s
  children at positions `0, 1, …` and goes on with the upstream; on a DIE whose flag
  is set but that has no children it throws a libdw error**;
* `run_children` — over a whole upstream of such stacks, the children of each in turn.
-/

namespace Dwgrep

/-- `dwarf_haschildren`: the has-children flag of each DIE's abbreviation. A DIE with
children has the flag set; the converse need not hold. -/
structure ChildFlags where
  flag : Die → Bool
  flag_of_children : ∀ d : Die, d.children ≠ [] → flag d = true

/-- A value of the old engine as `child` reads it. -/
inductive OldValue where
  /-- `value_die`: a DIE and its position -/
  | die (d : Die) (pos : Nat)
  /-- a value of any other type, which `child` does not look into -/
  | other (v : Value)

/-- A `valfile`: the old engine's stack, top first. -/
abbrev Valfile := List OldValue

/-- The state of the old `child` operator: what `m_upstream->next ()` returns from here
on; `m_vf` (the stack the DIE was popped from) together with `m_child` and the siblings
after it, or nothing; and `m_pos`. -/
structure ChildOp where
  upstream : List Valfile
  cur : Option (Valfile × Die × List Die)
  pos : Nat

namespace ChildOp

/-- A fresh operator over an upstream. -/
def start (ups : List Valfile) : ChildOp := ⟨ups, none, 0⟩

/-- The `while (m_vf == nullptr)` loop: pull stacks from upstream and pop their top
until a DIE with the flag set comes up, then take its first child with `dwarf_child`,
which fails when there is none. A value that is not a DIE is reported on `stderr` and
dropped, as is a DIE without the flag. -/
def pull (F : ChildFlags) :
    List Valfile → Except Fault (Option (Valfile × Die × List Die × List Valfile))
  | [] => .ok none
  | [] :: _ => .error .underflow
  | (.die d _ :: below) :: ups =>
    if F.flag d then
      match d.children with
      | [] => .error .libdw
      | c :: cs => .ok (some (below, c, cs, ups))
    else pull F ups
  | (.other _ :: _) :: ups => pull F ups

/-- The tail of `child::next`: push `m_child` at `m_pos++` onto a copy of `m_vf`, then
move to the next sibling; past the last one, `reset_me` clears `m_vf` and `m_pos`. -/
def yieldChild (below : Valfile) (c : Die) (sibs : List Die) (ups : List Valfile)
    (pos : Nat) : Valfile × ChildOp :=
  (.die c pos :: below, match sibs with
    | [] => ⟨ups, none, 0⟩
    | c' :: sibs' => ⟨ups, some (below, c', sibs'), pos + 1⟩)

/-- `child::next`. -/
def next (F : ChildFlags) (s : ChildOp) : Except Fault (Option (Valfile × ChildOp)) :=
  match s.cur with
  | some (below, c, sibs) => .ok (some (yieldChild below c sibs s.upstream s.pos))
  | none =>
    (pull F s.upstream).map (Option.map fun (below, c, sibs, ups) =>
      yieldChild below c sibs ups s.pos)

end ChildOp

/-- `Calls next s l s'`: successive calls of a fallible `next` from `s` return `l`, in
order, and leave the operator in `s'`. -/
inductive Calls {σ α : Type} (next : σ → Except Fault (Option (α × σ))) :
    σ → List α → σ → Prop where
  | nil (s : σ) : Calls next s [] s
  | cons {s s₁ s' : σ} {a : α} {l : List α} :
      next s = .ok (some (a, s₁)) → Calls next s₁ l s' → Calls next s (a :: l) s'

theorem Calls.append {σ α : Type} {next : σ → Except Fault (Option (α × σ))} {s s₁ s' : σ}
    {l₁ l₂ : List α} (h₁ : Calls next s l₁ s₁) (h₂ : Calls next s₁ l₂ s') :
    Calls next s (l₁ ++ l₂) s' := by
  induction h₁ with
  | nil => exact h₂
  | cons hv _ ih => exact .cons hv (ih h₂)

/-- `Finishes next s l`: from `s` the calls of `next` return `l`, in order, and then
`nullptr`. -/
def Finishes {σ α : Type} (next : σ → Except Fault (Option (α × σ))) (s : σ) (l : List α) :
    Prop :=
  ∃ s', Calls next s l s' ∧ next s' = .ok none

/-- Two states whose next call returns the same go on the same way. -/
theorem Finishes.of_next_eq {σ α : Type} {next : σ → Except Fault (Option (α × σ))}
    {s t : σ} {l : List α} (h : next s = next t) (ht : Finishes next t l) : Finishes next s l := by
  obtain ⟨t', hs, hn⟩ := ht
  cases hs with
  | nil => exact ⟨s, .nil _, h ▸ hn⟩
  | cons hv hs => exact ⟨t', .cons (h ▸ hv) hs, hn⟩

theorem Calls.finishes {σ α : Type} {next : σ → Except Fault (Option (α × σ))} {s t : σ}
    {l₁ l₂ : List α} (h : Calls next s l₁ t) (ht : Finishes next t l₂) :
    Finishes next s (l₁ ++ l₂) :=
  let ⟨t', ht, hn⟩ := ht
  ⟨t', h.append ht, hn⟩

/-- The stacks `child` yields for a list of children on top of `below`, numbered from
`pos`. -/
def childStacks (below : Valfile) (pos : Nat) (cs : List Die) : List Valfile :=
  (cs.enumFrom pos).map fun (k, c) => .die c k :: below

namespace ChildOp

variable (F : ChildFlags)

/-- **The children of one DIE.** Once `m_child` is `c`, followed by `sibs`, the operator
yields them in sibling order, numbered from `m_pos`, and returns to a fresh state. -/
theorem next_children (below : Valfile) (ups : List Valfile) :
    ∀ (sibs : List Die) (c : Die) (pos : Nat) (s : ChildOp),
      next F s = .ok (some (yieldChild below c sibs ups pos)) →
      Calls (next F) s (childStacks below pos (c :: sibs)) (start ups)
  | [], _, _, _, h => .cons h (.nil _)
  | c' :: sibs, _, pos, _, h => .cons h (next_children below ups sibs c' (pos + 1) _ rfl)

/-- A DIE whose flag is clear has no children. -/
theorem children_of_flag_false {d : Die} (h : F.flag d = false) : d.children = [] := by
  by_contra hc
  exact Bool.false_ne_true (h ▸ F.flag_of_children d hc)

/-- **One upstream stack.** On a stack carrying a DIE whose flag is clear or that has
children, the operator yields the stacks of its children and then goes on with the
rest of the upstream. -/
theorem finishes_stack {d : Die} (p : Nat) (below : Valfile) {ups l : List Valfile}
    (hd : F.flag d = false ∨ d.children ≠ []) (hl : Finishes (next F) (start ups) l) :
    Finishes (next F) (start ((.die d p :: below) :: ups))
      (childStacks below 0 d.children ++ l) := by
  rcases hd with hf | hc
  · rw [children_of_flag_false F hf]
    exact hl.of_next_eq (by simp only [next, start, pull, hf, Bool.false_eq_true, if_false])
  · obtain ⟨c, cs, hcs⟩ := List.exists_cons_of_ne_nil hc
    have hstep : next F (start ((.die d p :: below) :: ups)) =
        .ok (some (yieldChild below c cs ups 0)) := by
      simp only [next, start, pull, F.flag_of_children d hc, if_true, hcs]
      rfl
    rw [hcs]
    exact (next_children F below ups cs c 0 _ hstep).finishes hl

/-- The operator over an exhausted upstream returns `nullptr`. -/
theorem finishes_nil : Finishes (next F) (start []) [] := ⟨_, .nil _, rfl⟩

/-- **A whole upstream.** Over an upstream of stacks each carrying a DIE whose flag is
clear or that has children, `child` yields the children of each in turn, each run
numbered from 0, and then returns `nullptr`. -/
theorem run_children : ∀ ups : List (Die × Nat × Valfile),
    (∀ x ∈ ups, F.flag x.1 = false ∨ x.1.children ≠ []) →
    Finishes (next F) (start (ups.map fun (d, p, below) => .die d p :: below))
      (ups.flatMap fun (d, _, below) => childStacks below 0 d.children)
  | [], _ => finishes_nil F
  | (_, p, below) :: ups, h =>
    finishes_stack F p below (h _ (List.mem_cons_self _ _))
      (run_children ups fun x hx => h x (List.mem_cons_of_mem _ hx))

end ChildOp

/-- **`child` in the old engine.** On a stack carrying a DIE `d`, followed by the rest of
the upstream: if `d`'s flag is clear or `d` has children, `child` yields the stacks of
`d`'s children, in sibling order at positions `0, 1, …`, and then what it yields for
the rest. If the flag is set but `d` has no children, `dwarf_child` returns 1 and the
call throws a libdw error. -/
theorem old_child_yields_children (F : ChildFlags) (d : Die) (p : Nat) (below : Valfile)
    (ups l : List Valfile) :
    ((F.flag d = false ∨ d.children ≠ []) → Finishes (ChildOp.next F) (.start ups) l →
      Finishes (ChildOp.next F) (.start ((.die d p :: below) :: ups))
        (childStacks below 0 d.children ++ l)) ∧
    (F.flag d = true → d.children = [] →
      ChildOp.next F (.start ((.die d p :: below) :: ups)) = .error .libdw) := by
  refine ⟨ChildOp.finishes_stack F p below, fun hf hc => ?_⟩
  simp only [ChildOp.next, ChildOp.start, ChildOp.pull, hf, if_true, hc]
  rfl

/-- `dwarf_haschildren` when every abbreviation says "children". -/
def allFlagged : ChildFlags := ⟨fun _ => true, fun _ _ => rfl⟩

/-- The subprogram at `0x2d` of `tests/haschildren_childless`: its abbreviation says
"children", and its child chain ends at once. -/
def childlessSubprogram : Die := .mk 0x2d DW.tagSubprogram [] []

/-- On a unit DIE owning the childless subprogram, `child` yields the subprogram at
position 0; on the subprogram itself it throws. -/
theorem old_child_throws_on_childless :
    Finishes (ChildOp.next allFlagged)
        (.start [[.die (.mk 0x0b DW.tagCompileUnit [] [childlessSubprogram]) 0]])
        [[.die childlessSubprogram 0]] ∧
      ChildOp.next allFlagged (.start [[.die childlessSubprogram 0]]) = .error .libdw :=
  ⟨(old_child_yields_children allFlagged (.mk 0x0b DW.tagCompileUnit [] [childlessSubprogram])
      0 [] [] []).1 (.inr (List.cons_ne_nil _ _)) (ChildOp.finishes_nil allFlagged),
    (old_child_yields_children allFlagged childlessSubprogram 0 [] [] []).2 rfl rfl⟩

end Dwgrep
