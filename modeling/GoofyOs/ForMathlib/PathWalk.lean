import Mathlib.Data.List.Basic

/-!
# Walking down a tree along names

A tree is given by the partial map from a node and a name to the child of that name. Walking along
a list of names and adding a leaf is all that is done with it.

## Main definitions

* `PathWalk.walk` — the node at the end of a path
* `PathWalk.AddedLeaf` — a leaf was added under a node

## Main results

* `PathWalk.AddedLeaf.walk_of_walk` — what could be reached is still reached
* `PathWalk.AddedLeaf.walk_eq_some_iff` — what can be reached after adding a leaf
-/

namespace GoofyOs

namespace PathWalk

variable {ι α : Type*} {child child' : ι → α → Option ι} {i j n p : ι} {a b : α} {as bs : List α}

/-- The node at the end of a path. -/
def walk (child : ι → α → Option ι) : ι → List α → Option ι
  | i, [] => some i
  | i, a :: as => (child i a).bind fun j => walk child j as

@[simp] theorem walk_nil : walk child i [] = some i := rfl

theorem walk_cons : walk child i (a :: as) = (child i a).bind fun j => walk child j as := rfl

theorem walk_append : walk child i (as ++ bs) = (walk child i as).bind fun j => walk child j bs := by
  induction as generalizing i with
  | nil => rfl
  | cons a as ih =>
    rw [List.cons_append, walk_cons, walk_cons]
    cases child i a with
    | none => rfl
    | some j => exact ih

theorem walk_concat : walk child i (as ++ [a]) = (walk child i as).bind fun j => child j a := by
  rw [walk_append]
  refine congrArg _ (funext fun j => ?_)
  rw [walk_cons]
  cases child j a with
  | none => rfl
  | some j => rfl

/-- The leaf `n` was added under the node `p`, which had no child of the name `a`. -/
structure AddedLeaf (child child' : ι → α → Option ι) (p : ι) (a : α) (n : ι) : Prop where
  self : child' p a = some n
  other : ∀ i b, ¬ (i = p ∧ b = a) → child' i b = child i b
  absent : child p a = none
  leaf : ∀ b, child' n b = none
  fresh : ∀ i b, child i b ≠ some n

namespace AddedLeaf

/-- What could be reached is still reached. -/
theorem walk_of_walk (h : AddedLeaf child child' p a n) (hw : walk child i as = some j) :
    walk child' i as = some j := by
  induction as generalizing i with
  | nil => exact hw
  | cons b as ih =>
    rw [walk_cons] at hw ⊢
    obtain ⟨k, hk, hw⟩ := Option.bind_eq_some_iff.mp hw
    have hne : ¬ (i = p ∧ b = a) := by
      rintro ⟨rfl, rfl⟩
      rw [h.absent] at hk
      simp at hk
    rw [h.other i b hne, hk]
    exact ih hw

/-- **What can be reached** after adding a leaf: what could be reached before, and the leaf, by the
paths to its parent. -/
theorem walk_eq_some_iff (h : AddedLeaf child child' p a n) (hi : i ≠ n) :
    walk child' i as = some j ↔ walk child i as = some j ∨
      (j = n ∧ ∃ bs, as = bs ++ [a] ∧ walk child i bs = some p) := by
  constructor
  · intro hw
    induction as generalizing i with
    | nil => exact Or.inl hw
    | cons b as ih =>
      rw [walk_cons] at hw
      obtain ⟨k, hk, hw⟩ := Option.bind_eq_some_iff.mp hw
      by_cases hpa : i = p ∧ b = a
      · -- the walk enters the leaf, and ends there
        obtain ⟨rfl, rfl⟩ := hpa
        obtain rfl : n = k := Option.some.inj (h.self.symm.trans hk)
        cases as with
        | nil => exact Or.inr ⟨(Option.some.inj hw).symm, [], rfl, rfl⟩
        | cons b as =>
          rw [walk_cons, h.leaf] at hw
          simp at hw
      · rw [h.other i b hpa] at hk
        have hkn : k ≠ n := by
          rintro rfl
          exact h.fresh i b hk
        rcases ih hkn hw with hw | ⟨hj, bs, rfl, hbs⟩
        · exact Or.inl (by rw [walk_cons, hk]; exact hw)
        · exact Or.inr ⟨hj, b :: bs, rfl, by rw [walk_cons, hk]; exact hbs⟩
  · rintro (hw | ⟨rfl, bs, rfl, hbs⟩)
    · exact h.walk_of_walk hw
    · rw [walk_concat, h.walk_of_walk hbs]
      exact h.self

end AddedLeaf

end PathWalk

end GoofyOs
