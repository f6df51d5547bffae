import GoofyOs.ForMathlib.Run
import GoofyOs.ListHead

/-!
# Whole runs of an intrusive list

Any sequence of pushes, pops and removals on one list. Nodes come back to the list with the link
fields that earlier calls left in them, and neither `list_pop_front` nor `list_push_front` clears the
`prev` field of the node that is then at the front. `list_remove_node` of a front node writes to the
node that the field names, which may be anywhere in the list, or in no list at all.

## Main definitions

* `ListCall`, `listCall`, `listWrites` — the calls, what they do, and the nodes they write to
* `ListSys.Correct` — a call does what it would do to a sequence, and writes to no other node
* `ListSys.FrontClear` — a front node that is removed has no node before it

## Main results

* `listCall_frame` — a call changes only the nodes it writes to
* `list_run_correct` — whole runs of calls that are `FrontClear`, and why the others are not correct
* `not_list_run` — a list that has become a cycle
-/

namespace GoofyOs

open LinkedList ListHead

/-- A call. -/
inductive ListCall (α : Type*)
  | pushFront (needle : α)
  | popFront
  | removeNode (needle : α)
  deriving DecidableEq

section Calls

variable {α : Type*} [DecidableEq α]

/-- The link fields and the head after a call. -/
def listCall (l : Links α) (head : Option α) : ListCall α → Option (Links α × Option α)
  | .pushFront needle => some (listPushFront l head needle)
  | .popFront => (listPopFront l head).map fun r => (l, r.2)
  | .removeNode needle => some (listRemoveNode l head needle)

/-- The calls on a sequence of nodes. -/
def listSeq (xs : List α) : ListCall α → List α
  | .pushFront needle => needle :: xs
  | .popFront => xs.tail
  | .removeNode needle => xs.erase needle

/-- The nodes that a call writes to. -/
def listWrites (l : Links α) (head : Option α) : ListCall α → Set α
  | .pushFront needle => {y | y = needle ∨ head = some y}
  | .popFront => ∅
  | .removeNode needle => {y | y = needle ∨ l.next needle = some y ∨ l.prev needle = some y}

/-- A node that is pushed is not in the list, a list that is popped is not empty, and a node that is
removed is in the list. -/
def ListCall.Ok (xs : List α) : ListCall α → Prop
  | pushFront needle => needle ∉ xs
  | popFront => xs ≠ []
  | removeNode needle => needle ∈ xs

/-- The node that a call is given. -/
def ListCall.argument : ListCall α → Option α
  | pushFront needle | removeNode needle => some needle
  | popFront => none

/-- The link fields and the head, with the sequence that the list should be. -/
structure ListSys (α : Type*) where
  links : Links α
  head : Option α
  seq : List α

namespace ListSys

/-- An empty list, and nodes that are zeroed. -/
def init (α : Type*) : ListSys α := ⟨⟨fun _ => none, fun _ => none⟩, none, []⟩

/-- One call. -/
def exec (s : ListSys α) (c : ListCall α) : Option (ListSys α) :=
  (listCall s.links s.head c).map fun r => ⟨r.1, r.2, listSeq s.seq c⟩

/-- The call does what it would do to the sequence, and writes only to nodes of the list and to its
argument. -/
def Correct (s : ListSys α) (c : ListCall α) : Prop :=
  ∃ s', s.exec c = some s' ∧ Walk s'.links.next s'.head s'.seq ∧
    ∀ y ∈ listWrites s.links s.head c, y ∈ s.seq ∨ c.argument = some y

/-- The `prev` field of a front node that is removed names no other node. -/
def FrontClear (s : ListSys α) : ListCall α → Prop
  | .removeNode needle =>
    s.head = some needle → s.links.prev needle = none ∨ s.links.prev needle = some needle
  | _ => True

end ListSys

end Calls

section Run

variable {α : Type*} [DecidableEq α] {l l' : Links α} {head head' : Option α} {xs as bs : List α}
  {x y : α} {c : ListCall α} {s s' : ListSys α}

/-- **The frame of a call**: the nodes that it does not write to. -/
theorem listCall_frame (hc : listCall l head c = some (l', head')) (hy : y ∉ listWrites l head c) :
    l'.next y = l.next y ∧ l'.prev y = l.prev y := by
  cases c with
  | pushFront needle =>
    have hl : (listPushFront l head needle).1 = l' := congrArg Prod.fst (Option.some.inj hc)
    have hne : y ≠ needle ∧ head ≠ some y := not_or.mp hy
    rw [← hl, listPushFront_next, if_neg hne.1, listPushFront_prev, if_neg hne.2]
    exact ⟨rfl, rfl⟩
  | popFront =>
    obtain ⟨r, -, hr⟩ := Option.map_eq_some_iff.mp hc
    obtain ⟨rfl, -⟩ := Prod.mk.inj hr
    exact ⟨rfl, rfl⟩
  | removeNode needle =>
    have hl : (listRemoveNode l head needle).1 = l' := congrArg Prod.fst (Option.some.inj hc)
    have hne : y ≠ needle ∧ ¬ (l.next needle = some y ∨ l.prev needle = some y) := not_or.mp hy
    obtain ⟨hnext, hprev⟩ := not_or.mp hne.2
    rw [← hl, listRemoveNode_next, if_neg hne.1, if_neg hprev, listRemoveNode_prev, if_neg hne.1,
      if_neg hnext]
    exact ⟨rfl, rfl⟩

/-- The list visits `xs`, and its inner back pointers are right. -/
def OneList (l : Links α) (head : Option α) (xs : List α) : Prop :=
  Rep l (fun _ : Unit => head) fun _ => xs

omit [DecidableEq α] in
theorem update_unit {β : Type*} (a b : β) : Function.update (fun _ : Unit => a) () b = fun _ => b :=
  Function.update_eq_const_of_subsingleton () b _

namespace OneList

theorem push (h : OneList l head xs) (hx : x ∉ xs) :
    OneList (listPushFront l head x).1 (listPushFront l head x).2 (x :: xs) := by
  have hrep := Rep.push h (fun _ => hx) ()
  rw [update_unit, update_unit] at hrep
  exact hrep

omit [DecidableEq α] in
theorem pop (h : OneList l (some x) xs) : OneList l (l.next x) xs.tail := by
  obtain ⟨ys, hys, hrep⟩ := Rep.pop (i := ()) h rfl
  have hxs : xs = x :: ys := hys
  rw [update_unit, update_unit] at hrep
  rw [hxs]
  exact hrep

theorem remove (h : OneList l head xs) (hx : x ∈ xs)
    (hc : head = some x → l.prev x = none ∨ l.prev x = some x) :
    OneList (listRemoveNode l head x).1 (listRemoveNode l head x).2 (xs.erase x) := by
  have hclean : CleanUnlink l (fun _ : Unit => head) () x := by
    intro hhead y hy _
    rcases hc hhead with hnone | hself
    · simp [hnone] at hy
    · obtain rfl := Option.some.inj (hself.symm.trans hy)
      rfl
  have hrep := Rep.remove (i := ()) h hx hclean
  rw [update_unit, update_unit] at hrep
  exact hrep

omit [DecidableEq α] in
/-- The nodes next to a node of the list are in the list, unless it is at the front. -/
theorem mem_of_link (h : OneList l head xs) (hx : x ∈ xs)
    (hy : l.next x = some y ∨ l.prev x = some y ∧ head ≠ some x) : y ∈ xs := by
  obtain ⟨as, bs, rfl⟩ := List.append_of_mem hx
  have hw : Walk l.next head (as ++ x :: bs) := h.walk ()
  rcases hy with hnext | ⟨hprev, hhead⟩
  · rw [hw.next_eq] at hnext
    exact List.mem_append_right _ (List.mem_cons_of_mem _ (List.mem_of_mem_head? hnext))
  · rcases as.eq_nil_or_concat' with rfl | ⟨as, a, rfl⟩
    · exact absurd hw.head_eq hhead
    · have hback : Back l.prev (as ++ [a] ++ x :: bs) := h.back ()
      have ha : l.prev x = some a := hback.prev_eq List.getLast?_concat
      obtain rfl := Option.some.inj (ha.symm.trans hprev)
      simp

/-- Removing a front node through a `prev` field that names another node of the list breaks the
walk. -/
theorem not_walk_remove (h : OneList l (some x) xs) (hprev : l.prev x = some y) (hne : y ≠ x)
    (hy : y ∈ xs) :
    ¬ Walk (listRemoveNode l (some x) x).1.next (listRemoveNode l (some x) x).2 (xs.erase x) := by
  intro hw
  have hwalk : Walk l.next (some x) xs := h.walk ()
  cases xs with
  | nil => simp at hy
  | cons z zs =>
    obtain rfl := Option.some.inj hwalk.1
    have hyzs : y ∈ zs := (List.mem_cons.mp hy).resolve_left hne
    obtain ⟨as, bs, rfl⟩ := List.append_of_mem hyzs
    rw [List.erase_cons_head] at hw
    have hrest : Walk l.next (l.next x) (as ++ y :: bs) := hwalk.2
    have hnext := hw.next_eq
    rw [listRemoveNode_next, if_neg hne, if_pos hprev, hrest.head_eq] at hnext
    -- the node after `y` would be the first one again
    have hnd := hw.nodup
    cases as with
    | nil =>
      have hmem : y ∈ bs := List.mem_of_mem_head? hnext.symm
      exact (List.nodup_cons.mp hnd).1 hmem
    | cons a as =>
      have hmem : a ∈ bs := List.mem_of_mem_head? hnext.symm
      exact (List.nodup_cons.mp hnd).1 (by simp [hmem])

end OneList

namespace ListSys

/-- **One call** is correct if and only if it is `FrontClear`, and keeps the list then. -/
theorem correct_iff (h : OneList s.links s.head s.seq) (hok : c.Ok s.seq) :
    (s.Correct c ↔ s.FrontClear c) ∧
      ∀ s', s.FrontClear c → s.exec c = some s' → OneList s'.links s'.head s'.seq := by
  cases c with
  | pushFront needle =>
    have h' := h.push hok
    refine ⟨iff_of_true ⟨_, rfl, h'.walk (), fun y hy => ?_⟩ trivial, fun s' _ hs => ?_⟩
    · rcases hy with rfl | hhead
      · exact Or.inr rfl
      · have hw : Walk s.links.next s.head s.seq := h.walk ()
        exact Or.inl (List.mem_of_mem_head? (hw.head_eq.symm.trans hhead))
    · obtain rfl := Option.some.inj hs
      exact h'
  | popFront =>
    have hw : Walk s.links.next s.head s.seq := h.walk ()
    obtain ⟨x, xs, hseq⟩ := List.exists_cons_of_ne_nil hok
    have hhead : s.head = some x := by
      rw [hw.head_eq, hseq]
      rfl
    have hexec : s.exec .popFront = some ⟨s.links, s.links.next x, s.seq.tail⟩ := by
      rw [exec, listCall, listPopFront, hhead]
      rfl
    have h' : OneList s.links (s.links.next x) s.seq.tail := (hhead ▸ h).pop
    refine ⟨iff_of_true ⟨_, hexec, h'.walk (), fun y hy => hy.elim⟩ trivial, fun s' _ hs => ?_⟩
    obtain rfl := Option.some.inj (hexec.symm.trans hs)
    exact h'
  | removeNode needle =>
    have hkeep : s.FrontClear (.removeNode needle) → OneList
        (listRemoveNode s.links s.head needle).1 (listRemoveNode s.links s.head needle).2
        (s.seq.erase needle) := h.remove hok
    refine ⟨⟨fun hc hhead => ?_, fun hc => ⟨_, rfl, (hkeep hc).walk (), fun y hy => ?_⟩⟩,
      fun s' hc hs => ?_⟩
    · obtain ⟨s', hs, hwalk, hwrites⟩ := hc
      obtain rfl := Option.some.inj hs
      cases hprev : s.links.prev needle with
      | none => exact Or.inl rfl
      | some y =>
        by_cases hne : y = needle
        · exact Or.inr (congrArg some hne)
        · have hy : y ∈ s.seq := by
            refine (hwrites y (Or.inr (Or.inr hprev))).resolve_right fun heq => ?_
            exact hne (Option.some.inj heq).symm
          have hwalk' : Walk (listRemoveNode s.links s.head needle).1.next
            (listRemoveNode s.links s.head needle).2 (s.seq.erase needle) := hwalk
          rw [hhead] at hwalk'
          exact absurd hwalk' ((hhead ▸ h).not_walk_remove hprev hne hy)
    · rcases hy with rfl | hnext | hprev
      · exact Or.inr rfl
      · exact Or.inl (h.mem_of_link hok (Or.inl hnext))
      · by_cases hhead : s.head = some needle
        · rcases hc hhead with hnone | hself
          · simp [hnone] at hprev
          · exact Or.inr (hself.symm.trans hprev)
        · exact Or.inl (h.mem_of_link hok (Or.inr ⟨hprev, hhead⟩))
    · obtain rfl := Option.some.inj hs
      exact hkeep hc

end ListSys

end Run

open ListSys

/-- **Whole runs.** As long as no front node is removed whose `prev` field names another node, the list
is the sequence; and then the next call is correct if and only if it is not such a removal. -/
theorem list_run_correct {α : Type*} [DecidableEq α] {cs : List (ListCall α)} {s : ListSys α}
    (hr : Run ListSys.exec (fun s c => c.Ok s.seq ∧ s.FrontClear c) (.init α) cs s) :
    Walk s.links.next s.head s.seq ∧ ∀ c, c.Ok s.seq → (s.Correct c ↔ s.FrontClear c) := by
  have hinit : OneList (init α).links (init α).head (init α).seq := Rep.empty _
  have h : OneList s.links s.head s.seq :=
    hr.invariant (P := fun s => OneList s.links s.head s.seq)
      (fun s c s' h hok hs => (correct_iff h hok.1).2 s' hok.2 hs) hinit
  exact ⟨h.walk (), fun c hok => (correct_iff h hok).1⟩

/-- Pushing two nodes and removing the second. -/
theorem list_run_correct_two : ∃ s : ListSys Bool,
    Run ListSys.exec (fun s c => c.Ok s.seq ∧ s.FrontClear c) (.init Bool)
      [.pushFront false, .pushFront true, .removeNode false] s ∧
    Walk s.links.next s.head s.seq ∧ s.seq = [true] := by
  have hrun : Run ListSys.exec (fun s c => c.Ok s.seq ∧ s.FrontClear c) (.init Bool)
      [.pushFront false, .pushFront true, .removeNode false] _ :=
    .cons ⟨by simp [ListCall.Ok, init], trivial⟩ rfl
      (.cons ⟨by simp [ListCall.Ok, listSeq, init], trivial⟩ rfl
        (.cons ⟨by simp [ListCall.Ok, listSeq, init], by intro h; cases h⟩ rfl (.nil _)))
  exact ⟨_, hrun, (list_run_correct hrun).1, rfl⟩

/-- The nodes `false` and `true` are pushed, popped, and pushed the other way round. Removing `false`,
which is at the front and whose `prev` field still names `true`, links `true` to itself. -/
theorem not_list_run : ¬ ∀ (α : Type) [DecidableEq α] (cs : List (ListCall α)) (s : ListSys α),
    Run ListSys.exec (fun s c => c.Ok s.seq) (.init α) cs s → Walk s.links.next s.head s.seq := by
  intro h
  have hrun : Run ListSys.exec (fun s c => c.Ok s.seq) (.init Bool)
      [.pushFront false, .pushFront true, .popFront, .popFront, .pushFront true, .pushFront false,
        .removeNode false] _ :=
    .cons (by simp [ListCall.Ok, init]) rfl (.cons (by simp [ListCall.Ok, listSeq, init]) rfl
      (.cons (by simp [ListCall.Ok, listSeq, init]) rfl
        (.cons (by simp [ListCall.Ok, listSeq, init]) rfl
          (.cons (by simp [ListCall.Ok, listSeq, init]) rfl
            (.cons (by simp [ListCall.Ok, listSeq, init]) rfl
              (.cons (by simp [ListCall.Ok, listSeq, init]) rfl (.nil _)))))))
  have hwalk := h Bool _ _ hrun
  have hnext : (some true : Option Bool) = none := hwalk.2
  exact Option.some_ne_none _ hnext

end GoofyOs
