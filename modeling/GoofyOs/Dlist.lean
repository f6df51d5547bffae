import GoofyOs.ForMathlib.LinkedList
import Mathlib.Logic.Function.Basic

/-!
# The double ended queues of `dsa/list.c`

A `struct dlist` has a head, a tail and a count, and its nodes point to each other in both
directions. Nodes are named by their address. `kzalloc` enters as the address it returns, and a null
pointer that is followed is a fault.

## Main definitions

* `Dnode`, `Dlist` — the data
* `dlistFrontPush`, `dlistBackPush`, `dlistFrontPop`, `dlistBackPop`, `dlistRemoveItem` — the functions
  of the source
* `Dlist.Rep` — the nodes of a queue

## Main results

* `Dlist.Rep.frontPush`, `Dlist.Rep.backPush` — pushing at either end
* `Dlist.Rep.frontPop`, `Dlist.Rep.backPop`, `Dlist.Rep.exists_removed`, `Dlist.Rep.removed` — removing
  a node from either end, or from anywhere
-/

namespace GoofyOs

open LinkedList

/-- `struct dnode`. -/
structure Dnode (β : Type) where
  value : β
  next : Option ℕ
  prev : Option ℕ

/-- `struct dlist`. -/
structure Dlist where
  count : ℕ
  head : Option ℕ
  tail : Option ℕ

section Source

variable {β : Type}

/-- `p->next = v`. -/
def setNext (m : ℕ → Dnode β) (p : ℕ) (v : Option ℕ) : ℕ → Dnode β :=
  Function.update m p { m p with next := v }

/-- `p->prev = v`. -/
def setPrev (m : ℕ → Dnode β) (p : ℕ) (v : Option ℕ) : ℕ → Dnode β :=
  Function.update m p { m p with prev := v }

/-- `if (p) p->next = v`. -/
def setNextIf (m : ℕ → Dnode β) (p : Option ℕ) (v : Option ℕ) : ℕ → Dnode β :=
  match p with
  | none => m
  | some p => setNext m p v

/-- `if (p) p->prev = v`. -/
def setPrevIf (m : ℕ → Dnode β) (p : Option ℕ) (v : Option ℕ) : ℕ → Dnode β :=
  match p with
  | none => m
  | some p => setPrev m p v

/-- `dlist_back_push`, when `kzalloc` returns `new`. -/
def dlistBackPush (m : ℕ → Dnode β) (queue : Dlist) (value : β) (new : ℕ) :
    (ℕ → Dnode β) × Dlist :=
  let m := Function.update m new ⟨value, none, queue.tail⟩
  let m := setNextIf m queue.tail (some new)
  (m, ⟨queue.count + 1, if queue.head.isNone then some new else queue.head, some new⟩)

/-- `dlist_front_push`, when `kzalloc` returns `new`. -/
def dlistFrontPush (m : ℕ → Dnode β) (stack : Dlist) (value : β) (new : ℕ) :
    (ℕ → Dnode β) × Dlist :=
  let m := Function.update m new ⟨value, stack.head, none⟩
  let m := setPrevIf m stack.head (some new)
  (m, ⟨stack.count + 1, some new, if stack.tail.isNone then some new else stack.tail⟩)

/-- `dlist_front_pop`, with the value it returns. -/
def dlistFrontPop (m : ℕ → Dnode β) (stack : Dlist) : (ℕ → Dnode β) × Dlist × Option β :=
  match stack.head with
  | none => (m, stack, none)
  | some ret =>
    let m := setPrevIf m (m ret).next none
    let head := (m ret).next
    let m' := setNext m ret none
    (m', ⟨stack.count - 1, head, if head.isNone then none else stack.tail⟩, some (m ret).value)

/-- `dlist_back_pop`, with the value it returns. -/
def dlistBackPop (m : ℕ → Dnode β) (queue : Dlist) : Option ((ℕ → Dnode β) × Dlist × β) :=
  queue.tail.map fun ret =>
    let m := setNextIf m (m ret).prev none
    let tail := (m ret).prev
    let m' := setPrev m ret none
    (m', ⟨queue.count - 1, if tail.isNone then none else queue.head, tail⟩, (m ret).value)

/-- `dlist_remove_item`. -/
def dlistRemoveItem (m : ℕ → Dnode β) (dlist : Dlist) (item : ℕ) : Option ((ℕ → Dnode β) × Dlist) :=
  if dlist.head = some item then
    let (m, dlist, _) := dlistFrontPop m dlist
    some (m, dlist)
  else if dlist.tail = some item then
    (dlistBackPop m dlist).map fun r => (r.1, r.2.1)
  else do
    let next ← (m item).next
    let m := setPrev m next (m item).prev
    let prev ← (m item).prev
    let m := setNext m prev (m item).next
    some (m, { dlist with count := dlist.count - 1 })

end Source

variable {β : Type} {m m' : ℕ → Dnode β} {d : Dlist} {p q : Option ℕ} {x y new : ℕ} {v : Option ℕ}
  {xs as bs : List ℕ} {value : β}

/-! ### Writing a field -/

theorem next_setNext : (setNext m x v y).next = if y = x then v else (m y).next := by
  by_cases h : y = x
  · rw [if_pos h, h, setNext, Function.update_self]
  · rw [if_neg h, setNext, Function.update_of_ne h]

theorem next_setPrev : (setPrev m x v y).next = (m y).next := by
  by_cases h : y = x
  · rw [h, setPrev, Function.update_self]
  · rw [setPrev, Function.update_of_ne h]

theorem prev_setPrev : (setPrev m x v y).prev = if y = x then v else (m y).prev := by
  by_cases h : y = x
  · rw [if_pos h, h, setPrev, Function.update_self]
  · rw [if_neg h, setPrev, Function.update_of_ne h]

theorem prev_setNext : (setNext m x v y).prev = (m y).prev := by
  by_cases h : y = x
  · rw [h, setNext, Function.update_self]
  · rw [setNext, Function.update_of_ne h]

theorem value_setNext : (setNext m x v y).value = (m y).value := by
  by_cases h : y = x
  · rw [h, setNext, Function.update_self]
  · rw [setNext, Function.update_of_ne h]

theorem value_setPrev : (setPrev m x v y).value = (m y).value := by
  by_cases h : y = x
  · rw [h, setPrev, Function.update_self]
  · rw [setPrev, Function.update_of_ne h]

theorem next_setNextIf : (setNextIf m p v y).next = if p = some y then v else (m y).next := by
  cases p with
  | none => rfl
  | some p =>
    rw [setNextIf, next_setNext]
    simp only [Option.some.injEq, eq_comm]

theorem prev_setNextIf : (setNextIf m p v y).prev = (m y).prev := by
  cases p with
  | none => rfl
  | some p => exact prev_setNext

theorem value_setNextIf : (setNextIf m p v y).value = (m y).value := by
  cases p with
  | none => rfl
  | some p => exact value_setNext

theorem prev_setPrevIf : (setPrevIf m p v y).prev = if p = some y then v else (m y).prev := by
  cases p with
  | none => rfl
  | some p =>
    rw [setPrevIf, prev_setPrev]
    simp only [Option.some.injEq, eq_comm]

theorem next_setPrevIf : (setPrevIf m p v y).next = (m y).next := by
  cases p with
  | none => rfl
  | some p => exact next_setPrev

theorem value_setPrevIf : (setPrevIf m p v y).value = (m y).value := by
  cases p with
  | none => rfl
  | some p => exact value_setPrev

namespace Dlist

/-! ### The nodes of a queue -/

/-- The queue `d` has the nodes `xs`, in order. -/
structure Rep (m : ℕ → Dnode β) (d : Dlist) (xs : List ℕ) : Prop where
  walk : Walk (fun x => (m x).next) d.head xs
  back : Back (fun x => (m x).prev) xs
  first : ∀ x, xs.head? = some x → (m x).prev = none
  tail : d.tail = xs.getLast?
  count : d.count = xs.length

theorem Rep.nodup (h : Rep m d xs) : xs.Nodup := h.walk.nodup

theorem rep_empty (m : ℕ → Dnode β) : Rep m ⟨0, none, none⟩ [] :=
  ⟨rfl, List.isChain_nil, fun _ hx => by simp at hx, rfl, rfl⟩

/-- The frame rule. -/
theorem Rep.congr (h : Rep m d xs) (hm : ∀ y ∈ xs, (m' y).next = (m y).next ∧
    (m' y).prev = (m y).prev) : Rep m' d xs where
  walk := h.walk.congr fun y hy => (hm y hy).1
  back := h.back.congr fun y hy => (hm y (List.mem_of_mem_tail hy)).2
  first x hx := by
    rw [(hm x (List.mem_of_mem_head? hx)).2]
    exact h.first x hx
  tail := h.tail
  count := h.count

/-! ### Pushing -/

theorem next_backPush : ((dlistBackPush m d value new).1 y).next =
    if d.tail = some y then some new else if y = new then none else (m y).next := by
  rw [dlistBackPush, next_setNextIf, Function.update_apply]
  split
  · rfl
  · split
    · rfl
    · rfl

theorem prev_backPush : ((dlistBackPush m d value new).1 y).prev =
    if y = new then d.tail else (m y).prev := by
  rw [dlistBackPush, prev_setNextIf, Function.update_apply]
  split
  · rfl
  · rfl

theorem value_backPush : ((dlistBackPush m d value new).1 y).value =
    if y = new then value else (m y).value := by
  rw [dlistBackPush, value_setNextIf, Function.update_apply]
  split
  · rfl
  · rfl

theorem next_frontPush : ((dlistFrontPush m d value new).1 y).next =
    if y = new then d.head else (m y).next := by
  rw [dlistFrontPush, next_setPrevIf, Function.update_apply]
  split
  · rfl
  · rfl

theorem prev_frontPush : ((dlistFrontPush m d value new).1 y).prev =
    if d.head = some y then some new else if y = new then none else (m y).prev := by
  rw [dlistFrontPush, prev_setPrevIf, Function.update_apply]
  split
  · rfl
  · split
    · rfl
    · rfl

theorem value_frontPush : ((dlistFrontPush m d value new).1 y).value =
    if y = new then value else (m y).value := by
  rw [dlistFrontPush, value_setPrevIf, Function.update_apply]
  split
  · rfl
  · rfl

/-- **`dlist_front_push`** of a node that is not there. -/
theorem Rep.frontPush (h : Rep m d xs) (hnew : new ∉ xs) (value : β) :
    Rep (dlistFrontPush m d value new).1 (dlistFrontPush m d value new).2 (new :: xs) := by
  have hhead : d.head = xs.head? := h.walk.head_eq
  have hnot : d.head ≠ some new := by
    rw [hhead]
    exact fun hfirst => hnew (List.mem_of_mem_head? hfirst)
  have hne : ∀ y ∈ xs, ¬ y = new := by
    rintro y hy rfl
    exact hnew hy
  refine ⟨⟨rfl, ?_⟩, ?_, fun x hx => ?_, ?_, ?_⟩
  · show Walk _ ((dlistFrontPush m d value new).1 new).next xs
    rw [next_frontPush, if_pos rfl]
    refine h.walk.congr fun y hy => ?_
    show ((dlistFrontPush m d value new).1 y).next = _
    rw [next_frontPush, if_neg (hne y hy)]
  · refine List.IsChain.cons (h.back.congr fun y hy => ?_) fun y hy => ?_
    · -- only the first node gets a new `prev` field
      have hfirst : ¬ d.head = some y := by
        cases xs with
        | nil => simp at hy
        | cons x xs =>
          rw [hhead]
          intro heq
          exact (List.nodup_cons.mp h.nodup).1 (Option.some.inj heq ▸ hy)
      show ((dlistFrontPush m d value new).1 y).prev = _
      rw [prev_frontPush, if_neg hfirst, if_neg (hne y (List.mem_of_mem_tail hy))]
    · show ((dlistFrontPush m d value new).1 y).prev = some new
      rw [prev_frontPush, if_pos (hhead.trans hy)]
  · obtain rfl : x = new := (Option.some.inj hx).symm
    rw [prev_frontPush, if_neg hnot, if_pos rfl]
  · show (if d.tail.isNone then some new else d.tail) = _
    rw [h.tail]
    cases xs with
    | nil => rfl
    | cons x xs =>
      rw [List.getLast?_cons_cons, if_neg]
      simp
  · rw [List.length_cons, ← h.count]
    rfl

/-- **`dlist_back_push`** of a node that is not there. -/
theorem Rep.backPush (h : Rep m d xs) (hnew : new ∉ xs) (value : β) :
    Rep (dlistBackPush m d value new).1 (dlistBackPush m d value new).2 (xs ++ [new]) := by
  have htail : d.tail ≠ some new := by
    rw [h.tail]
    exact fun hlast => hnew (List.mem_of_getLast? hlast)
  have hnext : ((dlistBackPush m d value new).1 new).next = none := by
    rw [next_backPush, if_neg htail, if_pos rfl]
  have hprev : ((dlistBackPush m d value new).1 new).prev = d.tail := by
    rw [prev_backPush, if_pos rfl]
  have hback : Back (fun x => ((dlistBackPush m d value new).1 x).prev) xs := by
    refine h.back.congr fun y hy => ?_
    have hne : ¬ y = new := fun heq => hnew (heq ▸ List.mem_of_mem_tail hy)
    show ((dlistBackPush m d value new).1 y).prev = _
    rw [prev_backPush, if_neg hne]
  refine ⟨?_, ?_, fun x hx => ?_, ?_, ?_⟩
  · rcases xs.eq_nil_or_concat' with rfl | ⟨as, a, rfl⟩
    · have hhead : d.head = none := h.walk
      show Walk _ (if d.head.isNone then some new else d.head) [new]
      rw [hhead]
      exact ⟨rfl, hnext⟩
    · have hnd := h.nodup
      obtain ⟨b, has, rfl, -⟩ := walk_append.mp h.walk
      have hlast : d.tail = some a := h.tail.trans List.getLast?_concat
      have hhead : (dlistBackPush m d value new).2.head = d.head := by
        show (if d.head.isNone then some new else d.head) = _
        have hne : d.head ≠ none := by
          rw [h.walk.head_eq]
          simp
        rw [if_neg (by simpa using hne)]
      rw [hhead]
      refine walk_append.mpr ⟨some new, seg_append.mpr ⟨some a, has.congr fun y hy => ?_, rfl, ?_⟩, rfl, hnext⟩
      · have hya : ¬ d.tail = some y := by
          rw [hlast]
          intro heq
          obtain rfl := Option.some.inj heq
          exact (List.nodup_append.mp hnd).2.2 a hy a (List.mem_singleton_self a) rfl
        have hyn : ¬ y = new := fun heq => hnew (heq ▸ List.mem_append_left _ hy)
        show ((dlistBackPush m d value new).1 y).next = _
        rw [next_backPush, if_neg hya, if_neg hyn]
      · show ((dlistBackPush m d value new).1 a).next = _
        rw [next_backPush, if_pos hlast]
  · refine List.isChain_append.mpr ⟨hback, List.isChain_singleton _, fun a ha b hb => ?_⟩
    obtain rfl : b = new := (Option.some.inj hb).symm
    exact (hprev.trans h.tail).trans ha
  · cases xs with
    | nil =>
      obtain rfl : x = new := (Option.some.inj hx).symm
      rw [hprev, h.tail]
      rfl
    | cons a as =>
      obtain rfl : x = a := (Option.some.inj hx).symm
      have hne : ¬ x = new := fun heq => hnew (heq ▸ List.mem_cons_self)
      rw [prev_backPush, if_neg hne]
      exact h.first x rfl
  · rw [List.getLast?_concat]
    rfl
  · rw [List.length_append, ← h.count]
    rfl

/-! ### Removing -/

/-- What removing the node `x` between `as` and `bs` does, on whichever path. -/
structure Removed (m : ℕ → Dnode β) (d : Dlist) (as : List ℕ) (x : ℕ) (bs : List ℕ)
    (m' : ℕ → Dnode β) (d' : Dlist) : Prop where
  next : ∀ y ≠ x, (m' y).next = if as.getLast? = some y then (m x).next else (m y).next
  prev : ∀ y ≠ x, (m' y).prev = if bs.head? = some y then (m x).prev else (m y).prev
  value : ∀ y, (m' y).value = (m y).value
  head : d'.head = if as = [] then (m x).next else d.head
  tail : d'.tail = (as ++ bs).getLast?
  count : d'.count = d.count - 1

theorem Rep.next_eq (h : Rep m d (as ++ x :: bs)) : (m x).next = bs.head? := h.walk.next_eq

theorem Rep.prev_eq (h : Rep m d (as ++ x :: bs)) : (m x).prev = as.getLast? := by
  cases hlast : as.getLast? with
  | none =>
    obtain rfl := List.getLast?_eq_none_iff.mp hlast
    exact h.first x rfl
  | some a => exact h.back.prev_eq hlast

/-- **`dlist_front_pop`** of a queue that is not empty. -/
theorem Rep.frontPop (h : Rep m d (x :: bs)) :
    Removed m d [] x bs (dlistFrontPop m d).1 (dlistFrontPop m d).2.1 ∧
      (dlistFrontPop m d).2.2 = some (m x).value := by
  have hrep : Rep m d ([] ++ x :: bs) := h
  have hnext : (m x).next = bs.head? := hrep.next_eq
  have hprev : (m x).prev = none := h.first x rfl
  have hhead : d.head = some x := h.walk.head_eq
  rw [dlistFrontPop, hhead]
  refine ⟨⟨fun y hy => ?_, fun y hy => ?_, fun y => ?_, ?_, ?_, rfl⟩, ?_⟩
  · rw [next_setNext, if_neg hy, next_setPrevIf]
    rfl
  · rw [prev_setNext, prev_setPrevIf, hprev, hnext]
  · rw [value_setNext, value_setPrevIf]
  · show (setPrevIf m (m x).next none x).next = _
    rw [next_setPrevIf, if_pos rfl]
  · show (if _ then none else d.tail) = _
    rw [next_setPrevIf, hnext, h.tail, List.nil_append]
    cases bs with
    | nil => rfl
    | cons b bs => rw [List.getLast?_cons_cons]; rfl
  · show some (setPrevIf m (m x).next none x).value = _
    rw [value_setPrevIf]

/-- **`dlist_back_pop`**. -/
theorem Rep.backPop (h : Rep m d (as ++ [x])) :
    ∃ m' d', dlistBackPop m d = some (m', d', (m x).value) ∧ Removed m d as x [] m' d' := by
  have hnext : (m x).next = none := h.next_eq
  have hprev := h.prev_eq
  have htail : d.tail = some x := h.tail.trans List.getLast?_concat
  have hpop : dlistBackPop m d = some (setPrev (setNextIf m (m x).prev none) x none,
      ⟨d.count - 1, if (setNextIf m (m x).prev none x).prev.isNone then none else d.head,
        (setNextIf m (m x).prev none x).prev⟩, (m x).value) := by
    have hvalue : (setNextIf m (m x).prev none x).value = (m x).value := value_setNextIf
    rw [dlistBackPop, htail, ← hvalue]
    rfl
  refine ⟨_, _, hpop, fun y hy => ?_, fun y hy => ?_, fun y => ?_, ?_, ?_, rfl⟩
  · rw [next_setPrev, next_setNextIf, hprev, hnext]
  · rw [prev_setPrev, if_neg hy, prev_setNextIf]
    rfl
  · rw [value_setPrev, value_setNextIf]
  · show (if _ then none else d.head) = _
    rw [prev_setNextIf, hprev, hnext]
    simp only [Option.isNone_iff_eq_none, List.getLast?_eq_none_iff]
  · show (setNextIf m (m x).prev none x).prev = _
    rw [prev_setNextIf, hprev, List.append_nil]

/-- **`dlist_remove_item`** of a node that is there. -/
theorem Rep.exists_removed (h : Rep m d (as ++ x :: bs)) :
    ∃ m' d', dlistRemoveItem m d x = some (m', d') ∧ Removed m d as x bs m' d' := by
  have hnd := h.nodup
  have hnext := h.next_eq
  have hprev := h.prev_eq
  by_cases has : as = []
  · subst has
    have hhead : d.head = some x := h.walk.head_eq
    rw [dlistRemoveItem, if_pos hhead]
    exact ⟨_, _, rfl, Rep.frontPop h |>.1⟩
  · obtain ⟨hx, hxbs⟩ : x ∉ as ∧ x ∉ bs := by
      rw [List.nodup_append, List.nodup_cons] at hnd
      exact ⟨fun hmem => hnd.2.2 x hmem x List.mem_cons_self rfl, hnd.2.1.1⟩
    have hhead : ¬ d.head = some x := by
      obtain ⟨a, as, rfl⟩ := List.exists_cons_of_ne_nil has
      rw [h.walk.head_eq]
      intro heq
      exact hx (Option.some.inj heq ▸ List.mem_cons_self)
    obtain ⟨a, hlast⟩ : ∃ a, as.getLast? = some a := ⟨_, List.getLast?_eq_some_getLast has⟩
    rw [dlistRemoveItem, if_neg hhead]
    cases bs with
    | nil =>
      have htail : d.tail = some x := h.tail.trans List.getLast?_concat
      obtain ⟨m', d', hpop, hr⟩ := h.backPop
      rw [if_pos htail, hpop]
      exact ⟨m', d', rfl, hr⟩
    | cons b bs =>
      have htail : ¬ d.tail = some x := by
        rw [h.tail, List.getLast?_append_of_ne_nil _ (List.cons_ne_nil _ _), List.getLast?_cons_cons]
        intro heq
        exact hxbs (List.mem_of_getLast? heq)
      have hxb : ¬ x = b := fun heq => hxbs (heq ▸ List.mem_cons_self)
      have hnext' : (setPrev m b (m x).prev x).next = some b := next_setPrev.trans hnext
      have hprev' : (setPrev m b (m x).prev x).prev = some a := by
        rw [prev_setPrev, if_neg hxb, hprev, hlast]
      rw [if_neg htail, hnext]
      show ∃ m' d', ((setPrev m b (m x).prev x).prev.bind fun prev => _) = _ ∧ _
      rw [hprev', hnext']
      refine ⟨_, _, rfl, fun y hy => ?_, fun y hy => ?_, fun y => ?_, ?_, ?_, rfl⟩
      · rw [next_setNext, next_setPrev, hlast, hnext]
        simp only [Option.some.injEq, eq_comm, List.head?_cons]
      · rw [prev_setNext, prev_setPrev]
        simp only [Option.some.injEq, eq_comm, List.head?_cons]
      · rw [value_setNext, value_setPrev]
      · rw [if_neg has]
      · show d.tail = _
        rw [h.tail, List.getLast?_append_of_ne_nil _ (List.cons_ne_nil _ _),
          List.getLast?_append_of_ne_nil _ (List.cons_ne_nil _ _), List.getLast?_cons_cons]

/-- The queue without the node. -/
theorem Rep.removed {d' : Dlist} (h : Rep m d (as ++ x :: bs)) (hr : Removed m d as x bs m' d') :
    Rep m' d' (as ++ bs) := by
  have hnd := h.nodup
  have hne : ∀ y ∈ as ++ bs, y ≠ x := by
    rintro y hy rfl
    rw [List.nodup_append, List.nodup_cons] at hnd
    rcases List.mem_append.mp hy with hy | hy
    · exact hnd.2.2 y hy y List.mem_cons_self rfl
    · exact hnd.2.1.1 hy
  refine ⟨?_, ?_, fun y hy => ?_, hr.tail, ?_⟩
  · rw [hr.head]
    refine h.walk.unlink (fun y hy => ?_) fun y hy hlast => ?_
    · show (m' y).next = _
      rw [hr.next y (hne y (List.mem_append_left _ (List.mem_of_getLast? hy))), if_pos hy]
    · show (m' y).next = _
      rw [hr.next y (hne y hy), if_neg hlast]
  · refine h.back.unlink hnd (fun y hy => ?_) fun y hy hfirst => ?_
    · show (m' y).prev = _
      rw [hr.prev y (hne y (List.mem_append_right _ (List.mem_of_mem_head? hy))), if_pos hy]
    · show (m' y).prev = _
      rw [hr.prev y (hne y hy), if_neg hfirst]
  · rw [hr.prev y (hne y (List.mem_of_mem_head? hy))]
    split
    · next hbs =>
      rw [h.prev_eq]
      cases as with
      | nil => rfl
      | cons a as =>
        -- the first node is not the one after `x`
        obtain rfl : y = a := (Option.some.inj hy).symm
        have hmem := List.mem_cons_of_mem x (List.mem_of_mem_head? hbs)
        exact absurd rfl ((List.nodup_append.mp hnd).2.2 y List.mem_cons_self y hmem)
    · next hbs =>
      cases as with
      | nil => exact absurd hy hbs
      | cons a as => exact h.first y hy
  · rw [hr.count, h.count]
    simp only [List.length_append, List.length_cons]
    omega

end Dlist

end GoofyOs
