import Mathlib.Data.List.Chain
import Mathlib.Data.List.Nodup

/-!
# Pointer chains

A linked list in memory is a map `next : α → Option α` together with a head pointer. This module
relates such a chain to the list of nodes it visits, over an arbitrary type `α` of node addresses
and with `none` for the null pointer.

## Main definitions

* `LinkedList.Seg` — following `next` from one pointer visits exactly `xs` and arrives at another
* `LinkedList.Walk` — the same, ending at the null pointer
* `LinkedList.Back` — the `prev` fields of a list, all but the first, name the node before

## Main results

* `LinkedList.Walk.unique`, `LinkedList.Walk.nodup` — a chain visits one list, and no node twice
* `LinkedList.Walk.congr` — the frame rule: only the visited nodes matter
* `LinkedList.Walk.unlink` — short-circuiting one node removes exactly that node
-/

namespace GoofyOs

namespace LinkedList

variable {α : Type*} {next next' prev prev' : α → Option α} {h t : Option α} {x y : α}
  {xs ys : List α}

/-! ### Segments -/

/-- Following `next` from the pointer `h` visits exactly `xs`, in order, and arrives at `t`. -/
def Seg (next : α → Option α) : Option α → List α → Option α → Prop
  | h, [], t => h = t
  | h, x :: xs, t => h = some x ∧ Seg next (next x) xs t

@[simp] theorem seg_nil : Seg next h [] t ↔ h = t := Iff.rfl

@[simp] theorem seg_cons : Seg next h (x :: xs) t ↔ h = some x ∧ Seg next (next x) xs t := Iff.rfl

theorem seg_append : Seg next h (xs ++ ys) t ↔ ∃ m, Seg next h xs m ∧ Seg next m ys t := by
  induction xs generalizing h with
  | nil => simp
  | cons x xs ih => simp [ih, and_assoc]

/-- A segment depends only on the `next` fields of the nodes it visits. -/
theorem Seg.congr (hs : Seg next h xs t) (hn : ∀ y ∈ xs, next' y = next y) :
    Seg next' h xs t := by
  induction xs generalizing h with
  | nil => exact hs
  | cons x xs ih =>
    obtain ⟨hx, hs⟩ := hs
    refine ⟨hx, ?_⟩
    rw [hn x (List.mem_cons_self ..)]
    exact ih hs fun y hy => hn y (List.mem_cons_of_mem _ hy)

/-! ### Walks to the null pointer -/

/-- Following `next` from `h` visits exactly `xs` and then meets the null pointer. -/
def Walk (next : α → Option α) (h : Option α) (xs : List α) : Prop := Seg next h xs none

@[simp] theorem walk_nil : Walk next h [] ↔ h = none := Iff.rfl

@[simp] theorem walk_cons : Walk next h (x :: xs) ↔ h = some x ∧ Walk next (next x) xs := Iff.rfl

theorem walk_append : Walk next h (xs ++ ys) ↔ ∃ m, Seg next h xs m ∧ Walk next m ys :=
  seg_append

theorem Walk.head_eq (hw : Walk next h xs) : h = xs.head? := by
  cases xs with
  | nil => exact hw
  | cons x xs => exact hw.1

theorem Walk.congr (hw : Walk next h xs) (hn : ∀ y ∈ xs, next' y = next y) : Walk next' h xs :=
  Seg.congr hw hn

theorem Walk.unique (hx : Walk next h xs) (hy : Walk next h ys) : xs = ys := by
  induction xs generalizing h ys with
  | nil =>
    cases ys with
    | nil => rfl
    | cons y ys => simp_all
  | cons x xs ih =>
    obtain ⟨rfl, hx⟩ := hx
    cases ys with
    | nil => simp at hy
    | cons y ys =>
      obtain ⟨hxy, hy⟩ := hy
      obtain rfl := Option.some.inj hxy
      rw [ih hx hy]

/-- The rest of a walk from one of its nodes is again a walk. -/
theorem Walk.of_append_cons (hw : Walk next h (xs ++ x :: ys)) :
    Seg next h xs (some x) ∧ Walk next (next x) ys := by
  obtain ⟨m, hs, rfl, hw⟩ := walk_append.mp hw
  exact ⟨hs, hw⟩

/-- A walk that ends meets no node twice: a repeated node would have two different rests. -/
theorem Walk.nodup (hw : Walk next h xs) : xs.Nodup := by
  induction xs generalizing h with
  | nil => exact List.nodup_nil
  | cons x xs ih =>
    refine List.nodup_cons.mpr ⟨fun hx => ?_, ih hw.2⟩
    obtain ⟨as, bs, rfl⟩ := List.append_of_mem hx
    have hwx : Walk next (next x) (as ++ x :: bs) := hw.2
    have hrest : as ++ x :: bs = bs := hwx.unique hwx.of_append_cons.2
    have := congrArg List.length hrest
    simp at this
    omega

/-- The node after `x` is what its `next` field says. -/
theorem Walk.next_eq (hw : Walk next h (xs ++ x :: ys)) : next x = ys.head? :=
  (Walk.of_append_cons hw).2.head_eq

/-- **Unlinking.** If `next'` sends the node before `x` past `x` and is `next` on the other nodes,
then the walk under `next'` is the old one without `x`. -/
theorem Walk.unlink (hw : Walk next h (xs ++ x :: ys))
    (hlast : ∀ y, xs.getLast? = some y → next' y = next x)
    (hn : ∀ y ∈ xs ++ ys, xs.getLast? ≠ some y → next' y = next y) :
    Walk next' (if xs = [] then next x else h) (xs ++ ys) := by
  have hnd := hw.nodup
  obtain ⟨hs, hrest⟩ := hw.of_append_cons
  rcases xs.eq_nil_or_concat' with rfl | ⟨as, a, rfl⟩
  · simpa using hrest.congr fun y hy => hn y (by simpa using hy) (by simp)
  · rw [if_neg (by simp)]
    obtain ⟨m, has, ha⟩ := seg_append.mp hs
    obtain ⟨rfl, ha⟩ := ha
    have hne : ∀ y ∈ as ++ ys, (as ++ [a]).getLast? ≠ some y := by
      intro y hy hya
      obtain rfl : a = y := by simpa using hya
      rw [List.append_assoc, List.nodup_append] at hnd
      rcases List.mem_append.mp hy with h' | h'
      · exact hnd.2.2 a h' a (by simp) rfl
      · simp [h'] at hnd
    have has' : Seg next' h as (some a) := has.congr fun y hy =>
      hn y (by simp [hy]) (hne y (by simp [hy]))
    have hys : Walk next' (next x) ys := hrest.congr fun y hy =>
      hn y (by simp [hy]) (hne y (by simp [hy]))
    rw [List.append_assoc]
    refine walk_append.mpr ⟨some a, has', rfl, ?_⟩
    rw [hlast a (by simp)]
    exact hys

/-! ### Back pointers -/

/-- Every node of `xs` but the first has the node before it in its `prev` field. Nothing is said
of the first one. -/
def Back (prev : α → Option α) (xs : List α) : Prop := xs.IsChain fun a b => prev b = some a

theorem Back.tail (hb : Back prev (x :: xs)) : Back prev xs := List.IsChain.tail hb

theorem Back.congr (hb : Back prev xs) (hp : ∀ y ∈ xs.tail, prev' y = prev y) :
    Back prev' xs := by
  induction xs with
  | nil => exact List.isChain_nil
  | cons x xs ih =>
    cases xs with
    | nil => exact List.isChain_singleton _
    | cons y ys =>
      obtain ⟨hxy, hb⟩ := List.isChain_cons_cons.mp hb
      refine List.isChain_cons_cons.mpr ⟨?_, ih hb fun z hz => hp z (by simp_all)⟩
      rw [hp y (by simp)]
      exact hxy

/-- The back pointer of an inner node is the node before it. -/
theorem Back.prev_eq (hb : Back prev (xs ++ x :: ys)) (hy : xs.getLast? = some y) :
    prev x = some y :=
  (List.isChain_append.mp hb).2.2 y hy x rfl

/-- Following the back pointers from the last node, when the first one has none, visits the list in
reverse. -/
theorem Back.walk_reverse (hb : Back prev xs) (hfirst : ∀ x, xs.head? = some x → prev x = none) :
    Walk prev xs.getLast? xs.reverse := by
  induction xs using List.reverseRecOn with
  | nil => rfl
  | append_singleton as a ih =>
    rw [List.getLast?_concat, List.reverse_concat]
    refine ⟨rfl, ?_⟩
    rcases as.eq_nil_or_concat' with rfl | ⟨bs, b, rfl⟩
    · exact hfirst a rfl
    · rw [hb.prev_eq List.getLast?_concat, ← List.getLast?_concat (l := bs)]
      refine ih (List.isChain_append.mp hb).1 fun x hx => hfirst x ?_
      rw [List.head?_append, hx]
      rfl

/-- Unlinking, for the back pointers: the node after `x` takes over the node before it. -/
theorem Back.unlink (hb : Back prev (xs ++ x :: ys)) (hnd : (xs ++ x :: ys).Nodup)
    (hhead : ∀ y, ys.head? = some y → prev' y = prev x)
    (hp : ∀ y ∈ xs ++ ys, ys.head? ≠ some y → prev' y = prev y) : Back prev' (xs ++ ys) := by
  obtain ⟨hxs, hys, -⟩ := List.isChain_append.mp hb
  have hdisj : ∀ y ∈ xs, ys.head? ≠ some y := by
    intro y hy hy'
    have hy' := List.mem_of_mem_head? hy'
    simp_all [List.nodup_append]
    exact hnd.2.2 y hy |>.2 y hy' rfl
  refine List.isChain_append.mpr ⟨?_, ?_, ?_⟩
  · exact Back.congr hxs fun y hy =>
      hp y (by simp [List.mem_of_mem_tail hy]) (hdisj y (List.mem_of_mem_tail hy))
  · refine Back.congr (List.IsChain.tail hys) fun y hy => hp y ?_ fun hy' => ?_
    · simp [List.mem_of_mem_tail hy]
    · cases ys with
      | nil => simp at hy'
      | cons z zs => simp_all [List.nodup_append]
  · intro a ha b hb'
    rw [hhead b hb']
    exact Back.prev_eq hb ha

end LinkedList

end GoofyOs
