import GoofyOs.ForMathlib.LinkedList

/-!
# Loops over pointer chains

`for (curr = head; curr; curr = curr->next) body` over an arbitrary state, with a body that may
write the state and may leave the loop. The loop follows pointers and is given fuel; on a chain
that ends, enough fuel makes it the same loop over the list of nodes.

## Main definitions

* `LinkedList.forEach` — the loop over the chain
* `LinkedList.forList` — the loop over a list

## Main results

* `LinkedList.forEach_eq_forList` — the two agree on a walk whose links the body does not write
* `LinkedList.forList_of_skip`, `LinkedList.forList_append_of_skip` — searching for the first node
  on which the body acts
-/

namespace GoofyOs

namespace LinkedList

variable {σ α β : Type*} {next : σ → α → Option α} {body : σ → α → σ × Option β} {s : σ}
  {h : Option α} {x : α} {xs ys : List α} {n m : ℕ}

/-- The loop over the chain that starts at `h`. `none` means that the fuel did not reach its
end. -/
def forEach (next : σ → α → Option α) (body : σ → α → σ × Option β) :
    ℕ → σ → Option α → Option (σ × Option β)
  | 0, _, _ => none
  | _ + 1, s, none => some (s, none)
  | n + 1, s, some x =>
    match body s x with
    | (s, some r) => some (s, some r)
    | (s, none) => forEach next body n s (next s x)

/-- The loop over the nodes `xs`. -/
def forList (body : σ → α → σ × Option β) : σ → List α → σ × Option β
  | s, [] => (s, none)
  | s, x :: xs =>
    match body s x with
    | (s, some r) => (s, some r)
    | (s, none) => forList body s xs

/-- **The loop over a chain** is the loop over its nodes, if the body writes no link on going
round and the fuel exceeds the length. -/
theorem forEach_eq_forList (hbody : ∀ s x, (body s x).2 = none → next (body s x).1 = next s)
    (hw : Walk (next s) h xs) (hn : xs.length < n) :
    forEach next body n s h = some (forList body s xs) := by
  induction xs generalizing s h n with
  | nil =>
    obtain ⟨n, rfl⟩ := Nat.exists_eq_succ_of_ne_zero (Nat.ne_of_gt hn)
    obtain rfl : h = none := hw
    rfl
  | cons x xs ih =>
    obtain ⟨n, rfl⟩ := Nat.exists_eq_succ_of_ne_zero (Nat.ne_of_gt (Nat.zero_lt_of_lt hn))
    obtain ⟨rfl, hw⟩ := hw
    have hstep := hbody s x
    rw [forEach, forList]
    match body s x, hstep with
    | (s', some r), _ => rfl
    | (s', none), hstep =>
      have hnext : next s' = next s := hstep rfl
      refine ih ?_ (Nat.lt_of_succ_lt_succ hn)
      rw [hnext]
      exact hw

/-- A body that skips every node leaves the state alone. -/
theorem forList_of_skip (hskip : ∀ y ∈ xs, body s y = (s, none)) :
    forList body s xs = (s, none) := by
  induction xs with
  | nil => rfl
  | cons x xs ih =>
    rw [forList, hskip x List.mem_cons_self]
    exact ih fun y hy => hskip y (List.mem_cons_of_mem _ hy)

/-- Skipping the nodes of a prefix. -/
theorem forList_append_of_skip (hskip : ∀ y ∈ xs, body s y = (s, none)) :
    forList body s (xs ++ ys) = forList body s ys := by
  induction xs with
  | nil => rfl
  | cons x xs ih =>
    rw [List.cons_append, forList, hskip x List.mem_cons_self]
    exact ih fun y hy => hskip y (List.mem_cons_of_mem _ hy)

/-- Leaving the loop at `x`. -/
theorem forList_cons_of_exit {r : β} {s' : σ} (hx : body s x = (s', some r)) :
    forList body s (x :: xs) = (s', some r) := by
  rw [forList, hx]

/-- A list has a first node that satisfies `p`, or none. -/
theorem exists_first (p : α → Prop) (xs : List α) :
    (∀ y ∈ xs, ¬ p y) ∨ ∃ as x bs, xs = as ++ x :: bs ∧ p x ∧ ∀ y ∈ as, ¬ p y := by
  induction xs with
  | nil => exact Or.inl (by simp)
  | cons x xs ih =>
    by_cases hx : p x
    · exact Or.inr ⟨[], x, xs, rfl, hx, by simp⟩
    · rcases ih with h | ⟨as, y, bs, rfl, hy, has⟩
      · exact Or.inl (List.forall_mem_cons.mpr ⟨hx, h⟩)
      · exact Or.inr ⟨x :: as, y, bs, rfl, hy, List.forall_mem_cons.mpr ⟨hx, has⟩⟩

end LinkedList

end GoofyOs
