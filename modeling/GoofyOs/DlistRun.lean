import GoofyOs.Dlist
import GoofyOs.ForMathlib.Run

/-!
# Whole runs of a double ended queue

Any sequence of pushes, pops and removals on a `struct dlist` that starts out zeroed does what it
would do to a sequence of values. The abstract sequence keeps the node of each value, since
`dlist_remove_item` takes a node.

## Main definitions

* `DlistCall`, `dlistCall` — the calls, and what they do to the queue
* `seqCall` — what they do to a sequence
* `Dlist.Represents` — the queue holds a sequence, in both directions

## Main results

* `Dlist.Holds.call` — one call
* `dlist_refines` — whole runs
-/

namespace GoofyOs

open LinkedList Dlist

/-- A call. A push comes with the node that `kzalloc` returns to it. -/
inductive DlistCall (β : Type)
  | frontPush (value : β) (new : ℕ)
  | backPush (value : β) (new : ℕ)
  | frontPop
  | backPop
  | removeItem (item : ℕ)
  deriving DecidableEq

section Calls

variable {β : Type}

/-- What a call returns, and the nodes and the queue after it. -/
def dlistCall (m : ℕ → Dnode β) (d : Dlist) : DlistCall β → Option (Option β × (ℕ → Dnode β) × Dlist)
  | .frontPush value new => some (none, dlistFrontPush m d value new)
  | .backPush value new => some (none, dlistBackPush m d value new)
  | .frontPop =>
    let (m, d, value) := dlistFrontPop m d
    some (value, m, d)
  | .backPop => (dlistBackPop m d).map fun r => (some r.2.2, r.1, r.2.1)
  | .removeItem item => (dlistRemoveItem m d item).map fun r => (none, r)

/-- The calls on a sequence of nodes with their values. -/
def seqCall (l : List (ℕ × β)) : DlistCall β → Option β × List (ℕ × β)
  | .frontPush value new => (none, (new, value) :: l)
  | .backPush value new => (none, l ++ [(new, value)])
  | .frontPop => (l.head?.map Prod.snd, l.tail)
  | .backPop => (l.getLast?.map Prod.snd, l.dropLast)
  | .removeItem item => (none, l.filter fun a => a.1 ≠ item)

/-- The new node of a push is not in the queue, a queue that is popped at the back is not empty, and a
node that is removed is in the queue. -/
def DlistCall.Ok (l : List (ℕ × β)) : DlistCall β → Prop
  | frontPush _ new | backPush _ new => new ∉ l.map Prod.fst
  | frontPop => True
  | backPop => l ≠ []
  | removeItem item => item ∈ l.map Prod.fst

/-- A queue and the nodes, with the sequence that it should hold. -/
structure DlistSys (β : Type) where
  node : ℕ → Dnode β
  queue : Dlist
  seq : List (ℕ × β)

/-- One call. -/
def DlistSys.exec (s : DlistSys β) (c : DlistCall β) : Option (DlistSys β) :=
  (dlistCall s.node s.queue c).map fun r => ⟨r.2.1, r.2.2, (seqCall s.seq c).2⟩

end Calls

namespace Dlist

variable {β : Type} {m m' : ℕ → Dnode β} {d d' : Dlist} {l l' : List (ℕ × β)} {c : DlistCall β}

/-- The queue holds the sequence `l`, from `head` along `next` and in reverse from `tail` along
`prev`. -/
structure Represents (m : ℕ → Dnode β) (d : Dlist) (l : List (ℕ × β)) : Prop where
  forward : Walk (fun x => (m x).next) d.head (l.map Prod.fst)
  backward : Walk (fun x => (m x).prev) d.tail (l.map Prod.fst).reverse
  values : (l.map Prod.fst).map (fun x => (m x).value) = l.map Prod.snd
  count : d.count = l.length
  ends : d.head = none ↔ d.tail = none

/-- The invariant. -/
structure Holds (m : ℕ → Dnode β) (d : Dlist) (l : List (ℕ × β)) : Prop where
  rep : Rep m d (l.map Prod.fst)
  value : ∀ a ∈ l, (m a.1).value = a.2

namespace Holds

theorem represents (h : Holds m d l) : Represents m d l where
  forward := h.rep.walk
  backward := by
    rw [h.rep.tail]
    exact h.rep.back.walk_reverse h.rep.first
  values := by
    rw [List.map_map]
    exact List.map_congr_left h.value
  count := h.rep.count.trans (List.length_map _)
  ends := by
    rw [h.rep.tail, h.rep.walk.head_eq, List.head?_eq_none_iff, List.getLast?_eq_none_iff]

/-- Removing the node `x`, on whichever path. -/
theorem removed (as bs : List (ℕ × β)) {x : ℕ} {v : β} (h : Holds m d (as ++ (x, v) :: bs))
    (hr : Removed m d (as.map Prod.fst) x (bs.map Prod.fst) m' d') : Holds m' d' (as ++ bs) where
  rep := by
    have hrep := h.rep
    rw [List.map_append, List.map_cons] at hrep
    rw [List.map_append]
    exact hrep.removed hr
  value a ha := by
    rw [hr.value]
    refine h.value a ?_
    rcases List.mem_append.mp ha with ha | ha
    · exact List.mem_append_left _ ha
    · exact List.mem_append_right _ (List.mem_cons_of_mem _ ha)

/-- Pushing a node that is not in the queue. -/
theorem pushed {new : ℕ} {value : β} (h : Holds m d l) (hnew : new ∉ l.map Prod.fst)
    (hrep : Rep m' d' (l'.map Prod.fst)) (hmem : ∀ a ∈ l', a = (new, value) ∨ a ∈ l)
    (hvalue : ∀ y, (m' y).value = if y = new then value else (m y).value) : Holds m' d' l' where
  rep := hrep
  value a ha := by
    rw [hvalue]
    rcases hmem a ha with rfl | ha
    · exact if_pos rfl
    · have hne : ¬ a.1 = new := fun heq => hnew (heq ▸ List.mem_map_of_mem ha)
      rw [if_neg hne]
      exact h.value a ha

/-- Where a node of the queue is. -/
theorem filter_eq {as bs : List (ℕ × β)} {x : ℕ} {v : β} (h : Holds m d (as ++ (x, v) :: bs)) :
    (as ++ (x, v) :: bs).filter (fun a => a.1 ≠ x) = as ++ bs := by
  have hnd := h.rep.nodup
  rw [List.map_append, List.map_cons, List.nodup_append, List.nodup_cons] at hnd
  have has : ∀ a ∈ as, a.1 ≠ x := fun a ha heq =>
    hnd.2.2 a.1 (List.mem_map_of_mem ha) x List.mem_cons_self heq
  have hbs : ∀ a ∈ bs, a.1 ≠ x := by
    intro a ha heq
    have hmem : a.1 ∈ bs.map Prod.fst := List.mem_map_of_mem ha
    exact hnd.2.1.1 (heq ▸ hmem)
  rw [List.filter_append, List.filter_cons_of_neg (by simp), List.filter_eq_self.mpr (by simpa using has),
    List.filter_eq_self.mpr (by simpa using hbs)]

/-- **One call** does to the queue what it does to the sequence, and returns the same. -/
theorem call (h : Holds m d l) (hok : c.Ok l) :
    ∃ m' d', dlistCall m d c = some ((seqCall l c).1, m', d') ∧ Holds m' d' (seqCall l c).2 := by
  cases c with
  | frontPush value new =>
    exact ⟨_, _, rfl, h.pushed hok (h.rep.frontPush hok value) (fun a ha => List.mem_cons.mp ha)
      fun _ => value_frontPush⟩
  | backPush value new =>
    have hrep := h.rep.backPush hok value
    have hmap : l.map Prod.fst ++ [new] = (l ++ [(new, value)]).map Prod.fst := by
      rw [List.map_append]
      rfl
    rw [hmap] at hrep
    exact ⟨_, _, rfl, h.pushed hok hrep
      (fun a ha => (List.mem_append.mp ha).symm.imp_left List.mem_singleton.mp)
      fun _ => value_backPush⟩
  | frontPop =>
    cases l with
    | nil =>
      have hhead : d.head = none := h.rep.walk
      refine ⟨m, d, ?_, h⟩
      rw [dlistCall, dlistFrontPop, hhead]
      rfl
    | cons a l =>
      obtain ⟨hr, hret⟩ := h.rep.frontPop
      have hvalue : (dlistFrontPop m d).2.2 = some a.2 :=
        hret.trans (congrArg some (h.value a List.mem_cons_self))
      have hcall : dlistCall m d .frontPop =
          some ((dlistFrontPop m d).2.2, (dlistFrontPop m d).1, (dlistFrontPop m d).2.1) := rfl
      rw [hvalue] at hcall
      exact ⟨_, _, hcall, h.removed [] l hr⟩
  | backPop =>
    obtain ⟨as, a, rfl⟩ := l.eq_nil_or_concat'.resolve_left hok
    have hrep := h.rep
    rw [List.map_append] at hrep
    obtain ⟨m', d', hpop, hr⟩ := hrep.backPop
    refine ⟨m', d', ?_, ?_⟩
    · rw [dlistCall, hpop, seqCall, List.getLast?_concat, h.value a (by simp)]
      rfl
    · rw [seqCall, List.dropLast_concat]
      have hrest := h.removed as [] hr
      rwa [List.append_nil] at hrest
  | removeItem item =>
    obtain ⟨⟨x, v⟩, ha, rfl⟩ := List.mem_map.mp hok
    obtain ⟨as, bs, rfl⟩ := List.append_of_mem ha
    have hrep := h.rep
    rw [List.map_append, List.map_cons] at hrep
    obtain ⟨m', d', hremove, hr⟩ := hrep.exists_removed
    refine ⟨m', d', ?_, ?_⟩
    · rw [dlistCall, hremove]
      rfl
    · rw [seqCall, h.filter_eq]
      exact h.removed as bs hr

end Holds

end Dlist

/-- **A double ended queue.** After any run of calls on a queue that was zeroed, the queue holds the
sequence that the calls make, and the next call returns, with the value that it takes from the
sequence. -/
theorem dlist_refines {β : Type} {m : ℕ → Dnode β} {cs : List (DlistCall β)} {s : DlistSys β}
    (hr : Run DlistSys.exec (fun s c => c.Ok s.seq) ⟨m, ⟨0, none, none⟩, []⟩ cs s) :
    Represents s.node s.queue s.seq ∧
      ∀ c : DlistCall β, c.Ok s.seq → ∃ m' d',
        dlistCall s.node s.queue c = some ((seqCall s.seq c).1, m', d') ∧
        Represents m' d' (seqCall s.seq c).2 := by
  have h : Holds s.node s.queue s.seq := by
    refine hr.invariant (P := fun s => Holds s.node s.queue s.seq) (fun s c s' h hok hs => ?_)
      ⟨rep_empty m, fun a ha => by simp at ha⟩
    obtain ⟨m', d', hcall, h'⟩ := h.call hok
    rw [DlistSys.exec, hcall] at hs
    obtain rfl := Option.some.inj hs
    exact h'
  refine ⟨h.represents, fun c hok => ?_⟩
  obtain ⟨m', d', hcall, h'⟩ := h.call hok
  exact ⟨m', d', hcall, h'.represents⟩

/-- Three pushes and the removal of the node in the middle. -/
theorem dlist_refines_middle : ∃ s : DlistSys Char,
    Run DlistSys.exec (fun s c => c.Ok s.seq) ⟨fun _ => ⟨'x', none, none⟩, ⟨0, none, none⟩, []⟩
      [.frontPush 'a' 1, .backPush 'b' 2, .backPush 'c' 3, .removeItem 2] s ∧
    s.seq = [(1, 'a'), (3, 'c')] ∧ Represents s.node s.queue s.seq := by
  have hrun : Run DlistSys.exec (fun s c => c.Ok s.seq)
      ⟨fun _ => ⟨'x', none, none⟩, ⟨0, none, none⟩, []⟩
      [.frontPush 'a' 1, .backPush 'b' 2, .backPush 'c' 3, .removeItem 2] _ :=
    .cons (by simp [DlistCall.Ok]) rfl (.cons (by simp [DlistCall.Ok, seqCall]) rfl
      (.cons (by simp [DlistCall.Ok, seqCall]) rfl
        (.cons (by simp [DlistCall.Ok, seqCall]) rfl (.nil _))))
  exact ⟨_, hrun, rfl, (dlist_refines hrun).1⟩

end GoofyOs
