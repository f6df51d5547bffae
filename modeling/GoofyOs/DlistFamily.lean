import GoofyOs.Dlist

/-!
# Several queues in one memory

An array of double ended queues has all its nodes in one memory. What is done to one of the queues
leaves the others alone, as long as no node is in two of them.

## Main definitions

* `Dlist.Family` — the nodes of each queue

## Main results

* `Dlist.Family.backPush`, `Dlist.Family.removed` — pushing to one queue, and removing from it
-/

namespace GoofyOs

namespace Dlist

variable {β ι : Type} {m m' : ℕ → Dnode β} {d : ι → Dlist} {xs : ι → List ℕ}

/-- The queues `d i` have the nodes `xs i`, and no node is in two of them. -/
structure Family (m : ℕ → Dnode β) (d : ι → Dlist) (xs : ι → List ℕ) : Prop where
  rep : ∀ i, Rep m (d i) (xs i)
  disj : ∀ {i j x}, x ∈ xs i → x ∈ xs j → i = j

variable [DecidableEq ι] {i : ι} {x new : ℕ} {as bs : List ℕ}

/-- **`dlist_back_push`** to one of the queues. -/
theorem Family.backPush (h : Family m d xs) (hnew : ∀ i, new ∉ xs i) (i : ι) (value : β) :
    Family (dlistBackPush m (d i) value new).1
      (Function.update d i (dlistBackPush m (d i) value new).2)
      (Function.update xs i (xs i ++ [new])) where
  rep j := by
    rcases eq_or_ne j i with rfl | hj
    · rw [Function.update_self, Function.update_self]
      exact (h.rep j).backPush (hnew j) value
    · rw [Function.update_of_ne hj, Function.update_of_ne hj]
      refine (h.rep j).congr fun y hy => ?_
      have hne : ¬ y = new := fun heq => hnew j (heq ▸ hy)
      have htail : ¬ (d i).tail = some y := by
        rw [(h.rep i).tail]
        exact fun hlast => hj (h.disj hy (List.mem_of_getLast? hlast))
      constructor
      · rw [next_backPush, if_neg htail, if_neg hne]
      · rw [prev_backPush, if_neg hne]
  disj {j k y} hj hk := by
    have hmem : ∀ {j}, y ∈ Function.update xs i (xs i ++ [new]) j →
        y ∈ xs j ∨ y = new ∧ j = i := by
      intro j hy
      rcases eq_or_ne j i with rfl | hj
      · rw [Function.update_self, List.mem_append, List.mem_singleton] at hy
        exact hy.imp_right fun hy => ⟨hy, rfl⟩
      · rw [Function.update_of_ne hj] at hy
        exact Or.inl hy
    rcases hmem hj with hyj | ⟨rfl, rfl⟩
    · rcases hmem hk with hyk | ⟨rfl, -⟩
      · exact h.disj hyj hyk
      · exact absurd hyj (hnew j)
    · rcases hmem hk with hyk | ⟨-, rfl⟩
      · exact absurd hyk (hnew k)
      · rfl

/-- **Removing a node** from one of the queues. -/
theorem Family.removed (h : Family m d xs) {d' : Dlist} (hxs : xs i = as ++ x :: bs)
    (hr : Removed m (d i) as x bs m' d') :
    Family m' (Function.update d i d') (Function.update xs i (as ++ bs)) where
  rep j := by
    have hi := h.rep i
    rw [hxs] at hi
    rcases eq_or_ne j i with rfl | hj
    · rw [Function.update_self, Function.update_self]
      exact hi.removed hr
    · rw [Function.update_of_ne hj, Function.update_of_ne hj]
      -- no node of another queue is `x` or next to it
      have hout : ∀ y ∈ xs j, y ∉ as ++ x :: bs := fun y hy hmem => hj (h.disj hy (hxs ▸ hmem))
      refine (h.rep j).congr fun y hy => ?_
      have hne : y ≠ x := fun heq => hout y hy (heq ▸ List.mem_append_right _ List.mem_cons_self)
      constructor
      · rw [hr.next y hne, if_neg]
        exact fun hlast => hout y hy (List.mem_append_left _ (List.mem_of_getLast? hlast))
      · rw [hr.prev y hne, if_neg]
        exact fun hfirst => hout y hy
          (List.mem_append_right _ (List.mem_cons_of_mem _ (List.mem_of_mem_head? hfirst)))
  disj {j k y} hj hk := by
    have hsub : ∀ {j}, y ∈ Function.update xs i (as ++ bs) j → y ∈ xs j := by
      intro j hy
      rcases eq_or_ne j i with rfl | hj
      · rw [Function.update_self] at hy
        rw [hxs]
        exact (List.Sublist.append_left (List.sublist_cons_self _ _) _).subset hy
      · rwa [Function.update_of_ne hj] at hy
    exact h.disj (hsub hj) (hsub hk)

end Dlist

end GoofyOs
