import Mathlib.Data.List.Basic

/-!
# Splitting a list at a separator

`List.splitOn` cuts a list at every occurrence of a separator, and returns one piece more than
there are separators. Where a separator may also end the last piece, that piece is left out if it
is empty.

## Main definitions

* `Pieces.pieces` — the pieces, without the last one if it is empty

## Main results

* `Pieces.pieces_append_cons` — the pieces of two lists with a separator between them
* `Pieces.pieces_intercalate` — the pieces of a joined list
* `Pieces.length_pieces_le_one` — when there is one piece
-/

namespace GoofyOs

namespace Pieces

variable {α : Type*} [DecidableEq α] {a x : α} {xs ys : List α} {ls : List (List α)}

/-- The pieces of a list between consecutive separators, without the last one if it is empty. -/
def pieces (a : α) (xs : List α) : List (List α) :=
  if (xs.splitOn a).getLast? = some [] then (xs.splitOn a).dropLast else xs.splitOn a

theorem eq_of_splitOn_eq_singleton (h : xs.splitOn a = [ys]) : xs = ys := by
  have hjoin : [a].intercalate (xs.splitOn a) = xs := List.intercalate_splitOn a
  rw [h] at hjoin
  simpa using hjoin.symm

/-- What stands before the first separator is the start of the first piece. -/
theorem splitOn_append_of_notMem (h : a ∉ xs) :
    (xs ++ ys).splitOn a = (ys.splitOn a).modifyHead (xs ++ ·) := by
  induction xs with
  | nil => exact (congrFun List.modifyHead_id (ys.splitOn a)).symm
  | cons x xs ih =>
    obtain ⟨hx, hxs⟩ := not_or.mp (mt List.mem_cons.mpr h)
    rw [List.cons_append, List.splitOn_cons_eq_if_modifyHead, if_neg (by simpa using Ne.symm hx),
      ih hxs, List.modifyHead_modifyHead]
    rfl

/-- The last piece is empty just when the list is empty or ends in a separator. -/
theorem getLast?_splitOn : (xs.splitOn a).getLast? = some [] ↔ xs = [] ∨ xs.getLast? = some a := by
  induction xs with
  | nil => simp
  | cons x xs ih =>
    obtain ⟨h, t, hsplit⟩ := List.exists_cons_of_ne_nil (List.splitOn_ne_nil a xs)
    rw [List.splitOn_cons_eq_if_modifyHead]
    rw [hsplit] at ih ⊢
    by_cases hx : x = a
    · rw [if_pos (by simpa using hx), List.getLast?_cons_cons, ih, hx]
      cases xs with
      | nil => simp
      | cons y xs => simp
    · rw [if_neg (by simpa using hx), List.modifyHead_cons]
      cases t with
      | nil =>
        -- there is no separator in `xs`
        obtain rfl := eq_of_splitOn_eq_singleton hsplit
        cases xs with
        | nil => simpa using hx
        | cons y xs => simpa using ih
      | cons y t =>
        rw [List.getLast?_cons_cons] at ih ⊢
        cases xs with
        | nil => simp at hsplit
        | cons z xs =>
          rw [ih, List.getLast?_cons_cons]
          simp

@[simp] theorem pieces_nil : pieces a [] = [] := by
  simp [pieces]

theorem pieces_of_getLast? (hne : xs ≠ []) (h : xs.getLast? ≠ some a) :
    pieces a xs = xs.splitOn a := by
  rw [pieces, if_neg]
  rw [getLast?_splitOn]
  exact fun h' => h'.elim hne h

theorem pieces_of_notMem (hne : xs ≠ []) (h : a ∉ xs) : pieces a xs = [xs] := by
  rw [pieces_of_getLast? hne fun hlast => h (List.mem_of_getLast? hlast),
    List.splitOn_eq_singleton h]

/-- Nothing is left out before a separator. -/
theorem pieces_append_cons' : pieces a (xs ++ a :: ys) = xs.splitOn a ++ pieces a ys := by
  have hne := List.splitOn_ne_nil a ys
  have hlast : (xs.splitOn a ++ ys.splitOn a).getLast? = (ys.splitOn a).getLast? :=
    List.getLast?_append_of_ne_nil _ hne
  rw [pieces, pieces, List.splitOn_append_cons_self, hlast]
  split
  · rw [List.dropLast_append_of_ne_nil hne]
  · rfl

/-- **Two lists with a separator between them.** -/
theorem pieces_append_cons (hne : xs ≠ []) (h : xs.getLast? ≠ some a) :
    pieces a (xs ++ a :: ys) = pieces a xs ++ pieces a ys := by
  rw [pieces_append_cons', pieces_of_getLast? hne h]

theorem pieces_of_notMem_append_cons (h : a ∉ xs) :
    pieces a (xs ++ a :: ys) = xs :: pieces a ys := by
  rw [pieces_append_cons', List.splitOn_eq_singleton h, List.singleton_append]

/-- **A joined list**, with or without a separator at the end. -/
theorem pieces_intercalate (hls : ls ≠ []) (h : ∀ l ∈ ls, l ≠ [] ∧ a ∉ l) :
    pieces a ([a].intercalate ls) = ls ∧ pieces a ([a].intercalate ls ++ [a]) = ls := by
  have hsplit : ([a].intercalate ls).splitOn a = ls :=
    List.splitOn_intercalate a (fun l hl => (h l hl).2) hls
  constructor
  · rw [pieces, hsplit, if_neg]
    intro hlast
    exact (h [] (List.mem_of_getLast? hlast)).1 rfl
  · rw [pieces_append_cons', hsplit, pieces_nil, List.append_nil]

theorem pieces_eq_nil : pieces a xs = [] ↔ xs = [] := by
  constructor
  · intro h
    by_contra hne
    rw [pieces] at h
    split at h
    · next hlast =>
      -- what is left out is not all there is
      obtain ⟨l, hl⟩ : ∃ l, xs.splitOn a = [l] := by
        have hlen := congrArg List.length h
        rw [List.length_dropLast, List.length_nil] at hlen
        have hpos := List.length_pos_iff.mpr (List.splitOn_ne_nil a xs)
        exact List.length_eq_one_iff.mp (by omega)
      rw [hl] at hlast
      obtain rfl : l = [] := by simpa using hlast
      exact hne (eq_of_splitOn_eq_singleton hl)
    · exact List.splitOn_ne_nil a xs h
  · rintro rfl
    exact pieces_nil

/-- **One piece** at most: no separator but at the end. -/
theorem length_pieces_le_one : (pieces a xs).length ≤ 1 ↔ a ∉ xs.dropLast := by
  by_cases h : a ∈ xs
  · obtain ⟨pre, post, rfl, hpre⟩ := List.eq_append_cons_of_mem h
    rw [pieces_of_notMem_append_cons hpre, List.length_cons]
    cases post with
    | nil => simpa using hpre
    | cons y post =>
      -- the first separator is not at the end
      have hpos :=
        List.length_pos_iff.mpr (mt (pieces_eq_nil (a := a)).mp (List.cons_ne_nil y post))
      have hmem : a ∈ (pre ++ a :: y :: post).dropLast := by simp
      exact ⟨fun hle => absurd hle (by omega), fun hmem' => absurd hmem hmem'⟩
  · rcases eq_or_ne xs [] with rfl | hne
    · simp
    · rw [pieces_of_notMem hne h]
      exact ⟨fun _ hmem => h (List.dropLast_subset xs hmem), fun _ => Nat.le_refl 1⟩

end Pieces

end GoofyOs
