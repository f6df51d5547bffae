import Mathlib.Data.List.Perm.Basic

/-!
# Distributing a list over buckets

The elements of a list are put in buckets by a function. The buckets hold together what the list
holds, and a permutation of the list is a permutation of each bucket.

## Main results

* `Buckets.perm_flatMap_filter` — the buckets together
* `Buckets.perm_iff_forall_filter` — permutations, bucket by bucket
* `Buckets.find?_of_perm` — searching for what is there at most once
-/

namespace GoofyOs

namespace Buckets

variable {α : Type*} {as bs : List α} {n : ℕ}

/-- The buckets hold what the list holds. -/
theorem perm_flatMap_filter {f : α → ℕ} (h : ∀ a ∈ as, f a < n) :
    ((List.range n).flatMap fun i => as.filter (f · = i)).Perm as := by
  have hstep : ∀ n, ((List.range n).flatMap fun i => as.filter (f · = i)).Perm
      (as.filter (f · < n)) := by
    intro n
    induction n with
    | zero => simp
    | succ n ih =>
      rw [List.range_succ, List.flatMap_append, List.flatMap_singleton]
      have hsplit := List.filter_append_perm (f · < n) (as.filter (f · < n + 1))
      rw [List.filter_filter, List.filter_filter] at hsplit
      have hlt : as.filter (fun a => decide (f a < n) && decide (f a < n + 1)) =
          as.filter (f · < n) := List.filter_congr fun a _ => by
        rw [← Bool.decide_and]
        exact decide_eq_decide.mpr (by omega)
      have heq : as.filter (fun a => (!decide (f a < n)) && decide (f a < n + 1)) =
          as.filter (f · = n) := List.filter_congr fun a _ => by
        rw [← decide_not, ← Bool.decide_and]
        exact decide_eq_decide.mpr (by omega)
      rw [hlt, heq] at hsplit
      exact (ih.append_right _).trans hsplit
  refine (hstep n).trans (List.Perm.of_eq (List.filter_eq_self.mpr fun a ha => ?_))
  exact decide_eq_true (h a ha)

/-- A permutation is one of each bucket. -/
theorem perm_iff_forall_filter [DecidableEq α] {f : α → ℕ} :
    as.Perm bs ↔ ∀ j, (as.filter (f · = j)).Perm (bs.filter (f · = j)) := by
  constructor
  · exact fun h j => h.filter _
  · intro h
    rw [List.perm_iff_count]
    intro a
    have hcount := (h (f a)).count_eq a
    rwa [List.count_filter (by simp), List.count_filter (by simp)] at hcount

/-- Searching a permuted list for something that is there at most once. -/
theorem find?_of_perm {p : α → Bool} (h : as.Perm bs)
    (huniq : ∀ a ∈ as, ∀ b ∈ as, p a → p b → a = b) :
    as.find? p = bs.find? p := by
  cases hb : bs.find? p with
  | none =>
    rw [List.find?_eq_none] at hb ⊢
    exact fun a ha => hb a (h.mem_iff.mp ha)
  | some b =>
    have hmem := h.mem_iff.mpr (List.mem_of_find?_eq_some hb)
    have hp := List.find?_some hb
    cases ha : as.find? p with
    | none => exact absurd hp (List.find?_eq_none.mp ha b hmem)
    | some a =>
      rw [huniq a (List.mem_of_find?_eq_some ha) b hmem (List.find?_some ha) hp]

end Buckets

end GoofyOs
