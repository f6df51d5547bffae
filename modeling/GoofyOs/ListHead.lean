import GoofyOs.ForMathlib.LinkedList
import Mathlib.Data.List.Basic

/-!
# The intrusive lists of `dsa/list.c`

`struct list_head` is embedded in the objects it links, so a node is named by the object that
contains it and `container_of` is the identity. The link fields of all objects together are one
`Links` record, and the list functions are written over it in the order the source writes memory.

Two habits of the source matter for everything built on top. `list_pop_front` does not clear the
`prev` field of the new front node, and `list_push_front` does not clear that of the node it
inserts. The `prev` field of a front node is therefore stale in general, and `list_remove_node`
writes through it. `CleanUnlink` says when that write is harmless, and `Rep.remove` is the only
place where it is needed.

## Main definitions

* `listPopFront`, `listPushFront`, `listRemoveNode` — the list functions
* `slistPopFront`, `slistPushFront` — the same for the singly linked `struct single_list_head`
* `ListHead.Rep` — a family of lists over shared link fields, and the nodes each of them visits
* `ListHead.CleanUnlink` — removing a front node does not write into a listed node
* `ListHead.FrontsNull` — the `prev` fields of front nodes are null, and nothing is stale

## Main results

* `ListHead.Rep.pop`, `ListHead.Rep.push`, `ListHead.Rep.remove` — the list functions keep a
  family of lists, and change one of them the way their names say
-/

namespace GoofyOs

open LinkedList

variable {α ι : Type*}

/-- The `next` and `prev` fields of every `struct list_head`, by the object it sits in. -/
structure Links (α : Type*) where
  next : α → Option α
  prev : α → Option α

/-- `list_pop_front`: the popped node and the new head. `none` is the fault of reading through a
null head. -/
def listPopFront (l : Links α) (head : Option α) : Option (α × Option α) :=
  head.map fun ret => (ret, l.next ret)

/-- `slist_pop_front`, over the `next` fields of the `struct single_list_head`s. -/
def slistPopFront (next : α → Option α) (head : Option α) : Option (α × Option α) :=
  head.map fun ret => (ret, next ret)

section Writes

variable [DecidableEq α]

/-- `slist_push_front`: the `next` fields and the new head. -/
def slistPushFront (next : α → Option α) (head : Option α) (needle : α) :
    (α → Option α) × Option α :=
  (Function.update next needle head, some needle)

/-- `list_push_front`: the link fields and the new head. -/
def listPushFront (l : Links α) (head : Option α) (needle : α) : Links α × Option α :=
  let prev := match head with
    | some h => Function.update l.prev h (some needle)
    | none => l.prev
  ({ next := Function.update l.next needle head, prev := prev }, some needle)

/-- `list_remove_node`: the link fields and the new head. The writes follow the source: first the
head, then `needle->next->prev`, then `needle->prev->next`, then the fields of `needle`. -/
def listRemoveNode (l : Links α) (head : Option α) (needle : α) : Links α × Option α :=
  let head := if head = some needle then l.next needle else head
  let l := match l.next needle with
    | some n => { l with prev := Function.update l.prev n (l.prev needle) }
    | none => l
  let l := match l.prev needle with
    | some p => { l with next := Function.update l.next p (l.next needle) }
    | none => l
  ({ next := Function.update l.next needle none, prev := Function.update l.prev needle none },
    head)

namespace ListHead

/-! ### What each function writes -/

@[simp] theorem listPushFront_head (l : Links α) (head : Option α) (x : α) :
    (listPushFront l head x).2 = some x := rfl

theorem listPushFront_next (l : Links α) (head : Option α) (x y : α) :
    (listPushFront l head x).1.next y = if y = x then head else l.next y := by
  simp [listPushFront, Function.update_apply]

theorem listPushFront_prev (l : Links α) (head : Option α) (x y : α) :
    (listPushFront l head x).1.prev y = if head = some y then some x else l.prev y := by
  cases head with
  | none => rfl
  | some h => simp [listPushFront, Function.update_apply, eq_comm]

theorem listRemoveNode_head (l : Links α) (head : Option α) (x : α) :
    (listRemoveNode l head x).2 = if head = some x then l.next x else head := rfl

/-- The write of `needle->next->prev` leaves the `prev` field of `needle` as it was, so the source
reads the same pointer before and after it. -/
theorem update_prev_self (f : α → Option α) (n x : α) : Function.update f n (f x) x = f x := by
  rcases eq_or_ne x n with rfl | h
  · rw [Function.update_self]
  · rw [Function.update_of_ne h]

theorem listRemoveNode_eq (l : Links α) (head : Option α) (x : α) :
    (listRemoveNode l head x).1 =
      { next := Function.update (match l.prev x with
          | some p => Function.update l.next p (l.next x)
          | none => l.next) x none
        prev := Function.update (match l.next x with
          | some n => Function.update l.prev n (l.prev x)
          | none => l.prev) x none } := by
  cases hn : l.next x with
  | none => cases hp : l.prev x <;> simp [listRemoveNode, hn, hp]
  | some n =>
    have hself := update_prev_self l.prev n x
    cases hp : l.prev x <;> rw [hp] at hself <;> simp [listRemoveNode, hn, hp, hself]

theorem listRemoveNode_next (l : Links α) (head : Option α) (x y : α) :
    (listRemoveNode l head x).1.next y =
      if y = x then none else if l.prev x = some y then l.next x else l.next y := by
  rw [listRemoveNode_eq]
  cases l.prev x <;> simp [Function.update_apply, eq_comm]

theorem listRemoveNode_prev (l : Links α) (head : Option α) (x y : α) :
    (listRemoveNode l head x).1.prev y =
      if y = x then none else if l.next x = some y then l.prev x else l.prev y := by
  rw [listRemoveNode_eq]
  cases l.next x <;> simp [Function.update_apply, eq_comm]

end ListHead

end Writes

namespace ListHead

/-! ### A family of lists over shared link fields -/

/-- The lists with heads `head i` visit exactly the nodes `L i`, their inner back pointers are
right, and no node is on two of them. -/
structure Rep (l : Links α) (head : ι → Option α) (L : ι → List α) : Prop where
  walk : ∀ i, Walk l.next (head i) (L i)
  back : ∀ i, Back l.prev (L i)
  disj : ∀ {i j x}, x ∈ L i → x ∈ L j → i = j

/-- The node `x` is on one of the lists. -/
def OnList (l : Links α) (head : ι → Option α) (x : α) : Prop :=
  ∃ i xs, Walk l.next (head i) xs ∧ x ∈ xs

/-- Removing `x` from list `i` writes into no listed node by a stale back pointer: if `x` is at the
front of the list, then the node its `prev` field names is on no list, or already has the `next`
field that would be written. -/
def CleanUnlink (l : Links α) (head : ι → Option α) (i : ι) (x : α) : Prop :=
  head i = some x → ∀ y, l.prev x = some y → OnList l head y → l.next y = l.next x

/-- No front node has a node before it. -/
def FrontsNull (l : Links α) (head : ι → Option α) : Prop :=
  ∀ i x, head i = some x → l.prev x = none

variable {l : Links α} {head : ι → Option α} {L : ι → List α} {i : ι} {x y : α}

theorem Rep.onList_iff (hr : Rep l head L) : OnList l head x ↔ ∃ i, x ∈ L i := by
  constructor
  · rintro ⟨i, xs, hw, hx⟩
    exact ⟨i, (hr.walk i).unique hw ▸ hx⟩
  · rintro ⟨i, hx⟩
    exact ⟨i, L i, hr.walk i, hx⟩

theorem FrontsNull.cleanUnlink (hf : FrontsNull l head) : CleanUnlink l head i x := by
  intro hhead y hy
  rw [hf i x hhead] at hy
  exact absurd hy (by simp)

/-- A family of lists visits only one family of nodes. -/
theorem Rep.unique {L' : ι → List α} (hr : Rep l head L) (hr' : Rep l head L') : L = L' :=
  funext fun i => (hr.walk i).unique (hr'.walk i)

theorem Rep.empty (l : Links α) : Rep l (fun _ : ι => none) fun _ => [] where
  walk _ := rfl
  back _ := List.isChain_nil
  disj h := by simp at h

/-- The frame rule: only the link fields of listed nodes matter. -/
theorem Rep.congr {l' : Links α} (hr : Rep l head L) (hn : ∀ i, ∀ y ∈ L i, l'.next y = l.next y)
    (hp : ∀ i, ∀ y ∈ L i, l'.prev y = l.prev y) : Rep l' head L where
  walk i := (hr.walk i).congr (hn i)
  back i := (hr.back i).congr fun y hy => hp i y (List.mem_of_mem_tail hy)
  disj := hr.disj

theorem Rep.nodup (hr : Rep l head L) (i : ι) : (L i).Nodup := (hr.walk i).nodup

section Frame

variable [DecidableEq α]

/-- Removing `x` writes no `next` field of a listed node other than the one before `x`. This is
where a stale back pointer of a front node would do damage. -/
theorem Rep.next_remove {as bs : List α} {j : ι} (hr : Rep l head L) (hL : L i = as ++ x :: bs)
    (hc : CleanUnlink l head i x) (hy : y ∈ L j) (hyx : y ≠ x) (hlast : as.getLast? ≠ some y) :
    (listRemoveNode l (head i) x).1.next y = l.next y := by
  rw [listRemoveNode_next, if_neg hyx]
  split
  · next hp =>
    rcases as.eq_nil_or_concat' with rfl | ⟨as, a, rfl⟩
    · have hhead : head i = some x := by rw [(hr.walk i).head_eq, hL]; rfl
      exact (hc hhead y hp (hr.onList_iff.mpr ⟨j, hy⟩)).symm
    · have hback : Back l.prev ((as ++ [a]) ++ x :: bs) := hL ▸ hr.back i
      have ha := hback.prev_eq (List.getLast?_concat ..)
      rw [hp] at ha
      exact absurd (by simpa using ha.symm) hlast
  · rfl

/-- Removing `x` writes no `prev` field of a listed node other than the one after `x`. -/
theorem Rep.prev_remove {as bs : List α} (hr : Rep l head L) (hL : L i = as ++ x :: bs)
    (hyx : y ≠ x) (hfirst : bs.head? ≠ some y) :
    (listRemoveNode l (head i) x).1.prev y = l.prev y := by
  have hwalk : Walk l.next (head i) (as ++ x :: bs) := hL ▸ hr.walk i
  rw [listRemoveNode_prev, if_neg hyx, hwalk.next_eq, if_neg hfirst]

end Frame

section Operations

variable [DecidableEq ι]

/-- **Popping** the front node. No link field is written. -/
theorem Rep.pop (hr : Rep l head L) (hx : head i = some x) :
    ∃ xs, L i = x :: xs ∧
      Rep l (Function.update head i (l.next x)) (Function.update L i xs) := by
  have hw := hr.walk i
  cases hL : L i with
  | nil =>
    rw [hL, walk_nil, hx] at hw
    simp at hw
  | cons y xs =>
    rw [hL, walk_cons, hx] at hw
    obtain ⟨hxy, hw⟩ := hw
    obtain rfl := Option.some.inj hxy
    have hmem : ∀ {j z}, z ∈ Function.update L i xs j → z ∈ L j := by
      intro j z hz
      rcases eq_or_ne j i with rfl | hj
      · rw [hL]
        exact List.mem_cons_of_mem _ (by simpa using hz)
      · simpa [hj] using hz
    refine ⟨xs, rfl, fun j => ?_, fun j => ?_, fun ha hb => hr.disj (hmem ha) (hmem hb)⟩
    · rcases eq_or_ne j i with rfl | hj
      · simpa using hw
      · simpa [hj] using hr.walk j
    · rcases eq_or_ne j i with rfl | hj
      · simpa using (hL ▸ hr.back j).tail
      · simpa [hj] using hr.back j

variable [DecidableEq α]

/-- **Pushing** a node that is on no list. -/
theorem Rep.push (hr : Rep l head L) (hx : ∀ j, x ∉ L j) (i : ι) :
    Rep (listPushFront l (head i) x).1 (Function.update head i (some x))
      (Function.update L i (x :: L i)) := by
  have hne : ∀ {j y}, y ∈ L j → y ≠ x := fun hy h => hx _ (h ▸ hy)
  have hwalk : ∀ j, Walk (listPushFront l (head i) x).1.next (head j) (L j) := fun j =>
    (hr.walk j).congr fun y hy => by rw [listPushFront_next, if_neg (hne hy)]
  -- only the front node of list `i` has its back pointer written
  have hback : ∀ j y, y ∈ (L j).tail → (listPushFront l (head i) x).1.prev y = l.prev y := by
    intro j y hy
    rw [listPushFront_prev, if_neg fun h => ?_]
    rw [(hr.walk i).head_eq] at h
    obtain rfl := hr.disj (List.mem_of_mem_tail hy) (List.mem_of_mem_head? h)
    have hnd := hr.nodup j
    cases hL : L j with
    | nil => simp [hL] at h
    | cons z zs => simp_all
  refine ⟨fun j => ?_, fun j => ?_, fun {j k y} hj hk => ?_⟩
  · rcases eq_or_ne j i with rfl | hj
    · rw [Function.update_self, Function.update_self, walk_cons, listPushFront_next, if_pos rfl]
      exact ⟨rfl, hwalk j⟩
    · simpa [hj] using hwalk j
  · rcases eq_or_ne j i with rfl | hj
    · rw [Function.update_self]
      refine List.IsChain.cons ((hr.back j).congr (hback j)) fun y hy => ?_
      rw [listPushFront_prev, if_pos ((hr.walk j).head_eq.trans hy)]
    · simpa [hj] using (hr.back j).congr (hback j)
  · rcases eq_or_ne j i with rfl | hji <;> rcases eq_or_ne k j with rfl | hki
    · rfl
    · rcases eq_or_ne y x with rfl | hyx
      · exact absurd (by simpa [hki] using hk) (hx k)
      · exact hr.disj (by simpa [hyx] using hj) (by simpa [hki] using hk)
    · rfl
    · rcases eq_or_ne k i with rfl | hk'
      · rcases eq_or_ne y x with rfl | hyx
        · exact absurd (by simpa [hji] using hj) (hx j)
        · exact hr.disj (by simpa [hji] using hj) (by simpa [hyx] using hk)
      · exact hr.disj (by simpa [hji] using hj) (by simpa [hk'] using hk)

/-- **Removing** a node from the list it is on. -/
theorem Rep.remove (hr : Rep l head L) (hx : x ∈ L i) (hc : CleanUnlink l head i x) :
    Rep (listRemoveNode l (head i) x).1
      (Function.update head i (listRemoveNode l (head i) x).2)
      (Function.update L i ((L i).erase x)) := by
  obtain ⟨as, bs, hL⟩ := List.append_of_mem hx
  have hnd : (as ++ x :: bs).Nodup := hL ▸ hr.nodup i
  have hxas : x ∉ as := fun h => (List.nodup_append.mp hnd).2.2 x h x (by simp) rfl
  have hxbs : x ∉ bs := (List.nodup_cons.mp (List.nodup_append.mp hnd).2.1).1
  have hxne : ∀ y ∈ as ++ bs, y ≠ x := by
    rintro y hy rfl
    exact (List.mem_append.mp hy).elim hxas hxbs
  have herase : (L i).erase x = as ++ bs := by
    rw [hL, List.erase_append_right _ hxas, List.erase_cons_head]
  have hsub : ∀ y ∈ as ++ bs, y ∈ L i := by
    intro y hy
    rw [hL]
    rcases List.mem_append.mp hy with h | h <;> simp [h]
  have hwalk : Walk l.next (head i) (as ++ x :: bs) := hL ▸ hr.walk i
  have hback : Back l.prev (as ++ x :: bs) := hL ▸ hr.back i
  -- a list other than `i` keeps all its nodes, and `x` and its neighbours are not among them
  have hother : ∀ {j y}, j ≠ i → y ∈ L j → y ∉ as ++ x :: bs := fun hj hy hmem =>
    hj (hr.disj hy (hL ▸ hmem))
  rw [herase]
  refine ⟨fun j => ?_, fun j => ?_, fun {j k y} hj hk => ?_⟩
  · rcases eq_or_ne j i with rfl | hj
    · rw [Function.update_self, Function.update_self, listRemoveNode_head]
      have hcond : head j = some x ↔ as = [] := by
        rw [hwalk.head_eq]
        cases as with
        | nil => simp
        | cons a as => simpa using fun h => absurd h.symm (by simpa using hxas : ¬ x = a ∧ x ∉ as).1
      have hu := hwalk.unlink 
        (fun y hy => by
          rw [listRemoveNode_next, if_neg (hxne y (by simp [List.mem_of_mem_getLast? hy])),
            if_pos (hback.prev_eq hy)])
        (fun y hy hlast => hr.next_remove hL hc (hsub y hy) (hxne y hy) hlast)
      simpa [hcond] using hu
    · rw [Function.update_of_ne hj, Function.update_of_ne hj]
      refine (hr.walk j).congr fun y hy => hr.next_remove hL hc hy ?_ ?_
      · rintro rfl
        exact hother hj hy (by simp)
      · intro hlast
        exact hother hj hy (by simp [List.mem_of_mem_getLast? hlast])
  · rcases eq_or_ne j i with rfl | hj
    · rw [Function.update_self]
      refine hback.unlink hnd (fun y hy => ?_) fun y hy hfirst =>
        hr.prev_remove hL (hxne y hy) hfirst
      rw [listRemoveNode_prev, if_neg (hxne y (by simp [List.mem_of_mem_head? hy])),
        if_pos (hwalk.next_eq.trans hy)]
    · rw [Function.update_of_ne hj]
      refine (hr.back j).congr fun y hy => hr.prev_remove hL ?_ ?_
      · rintro rfl
        exact hother hj (List.mem_of_mem_tail hy) (by simp)
      · intro hfirst
        exact hother hj (List.mem_of_mem_tail hy) (by simp [List.mem_of_mem_head? hfirst])
  · have hmem : ∀ {j}, y ∈ Function.update L i (as ++ bs) j → y ∈ L j := by
      intro j hj
      rcases eq_or_ne j i with rfl | hji
      · exact hsub y (by simpa using hj)
      · simpa [hji] using hj
    exact hr.disj (hmem hj) (hmem hk)

/-- A node that comes to the front because the one before it is removed takes over its `prev`
field. -/
theorem FrontsNull.remove (hf : FrontsNull l head) (hr : Rep l head L) (hx : x ∈ L i) :
    FrontsNull (listRemoveNode l (head i) x).1
      (Function.update head i (listRemoveNode l (head i) x).2) := by
  obtain ⟨as, bs, hL⟩ := List.append_of_mem hx
  have hnd : (as ++ x :: bs).Nodup := hL ▸ hr.nodup i
  have hwalk : Walk l.next (head i) (as ++ x :: bs) := hL ▸ hr.walk i
  intro j y hy
  rw [listRemoveNode_prev]
  split_ifs with hyx hnext
  · rfl
  · have hybs : y ∈ bs := List.mem_of_mem_head? (hwalk.next_eq.symm.trans hnext)
    rcases eq_or_ne j i with rfl | hj
    · rw [Function.update_self, listRemoveNode_head] at hy
      split at hy
      · next hhead => exact hf j x hhead
      · -- two places in one list
        have hyas : y ∈ as := by
          rw [hwalk.head_eq] at hy
          cases as with
          | nil => exact absurd (Option.some.inj hy).symm hyx
          | cons a as => exact List.mem_of_mem_head? hy
        exact absurd rfl ((List.nodup_append.mp hnd).2.2 y hyas y (by simp [hybs]))
    · rw [Function.update_of_ne hj, (hr.walk j).head_eq] at hy
      exact absurd (hr.disj (List.mem_of_mem_head? hy) (hL ▸ by simp [hybs])) hj
  · rcases eq_or_ne j i with rfl | hj
    · rw [Function.update_self, listRemoveNode_head] at hy
      split at hy
      · exact absurd hy hnext
      · exact hf j y hy
    · rw [Function.update_of_ne hj] at hy
      exact hf j y hy

end Operations

end ListHead

end GoofyOs
