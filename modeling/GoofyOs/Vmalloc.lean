import GoofyOs.Buddy
import GoofyOs.ForMathlib.LinkedListLoop
import GoofyOs.ForMathlib.Run
import GoofyOs.ForMathlib.Tiling

/-!
# The address ranges of `mm/vmalloc.c`

The arena between `VMALLOC_START` and `VMALLOC_END` is a linked list of `struct vmalloc_struct`,
which are named by their address. `kzalloc` enters as the address it returns. The loops over the
list follow the `next` pointers and are given fuel; `none` means that it ran out.

## Main definitions

* `VmallocState` — the list
* `vmallocMapRange`, `vmallocUnmapRange`, `vmallocInit` — the functions of the source
* `VmallocState.Ranges` — the ranges that the list stands for
* `VmallocCall`, `VmallocState.exec` — one call

## Main results

* `VmallocState.Ranges.mapRange_find`, `VmallocState.Ranges.unmapRange` — the pointer loops carve a
  range out of the first free one with room, and give a range back
* `vmalloc_run_arena` — whole runs: the ranges tile the arena and what is mapped was free
-/

namespace GoofyOs

open LinkedList Tiling

def vmallocStart : ℕ := 0xffffd00000000000
def vmallocEnd : ℕ := 0xffffe00000000000

/-- `VM_INUSE`. -/
def vmInuse : BitVec 64 := 1

/-- `struct vmalloc_struct`. -/
structure VmallocStruct where
  flags : BitVec 64
  size : ℕ
  addr : ℕ
  next : Option ℕ

/-- The variable `root` and the nodes. -/
structure VmallocState where
  root : Option ℕ
  node : ℕ → VmallocStruct

namespace VmallocState

variable (s : VmallocState)

/-- `curr->next`. -/
def next (curr : ℕ) : Option ℕ := (s.node curr).next

/-- Writing a node. -/
def setNode (curr : ℕ) (v : VmallocStruct) : VmallocState :=
  { s with node := Function.update s.node curr v }

/-- The body of the loop of `vmalloc_map_range`, when `kzalloc` returns `new`. -/
def mapRangeBody (size new : ℕ) (s : VmallocState) (curr : ℕ) : VmallocState × Option ℕ :=
  let c := s.node curr
  if c.flags &&& vmInuse ≠ 0 then (s, none)
  else if c.size = size then
    (s.setNode curr { c with flags := c.flags ||| vmInuse }, some c.addr)
  else if c.size > size then
    let addr := c.addr + c.size - size
    let s := s.setNode new ⟨0 ||| vmInuse, size, addr, c.next⟩
    let s := s.setNode curr { s.node curr with
      next := some new
      size := (s.node curr).size - size }
    (s, some addr)
  else (s, none)

/-- `vmalloc_map_range`. -/
def vmallocMapRange (fuel size new : ℕ) : Option (VmallocState × Option ℕ) :=
  if size = 0 ∨ size % pageSize ≠ 0 then some (s, none)
  else forEach next (mapRangeBody size new) fuel s s.root

/-- The body of the loop of `vmalloc_unmap_range`, which visits every node. -/
def unmapRangeBody (range : ℕ) (s : VmallocState) (curr : ℕ) : VmallocState × Option Unit :=
  let c := s.node curr
  if c.addr = range then (s.setNode curr { c with flags := c.flags &&& ~~~vmInuse }, none)
  else (s, none)

/-- `vmalloc_unmap_range`. -/
def vmallocUnmapRange (fuel range : ℕ) : Option VmallocState :=
  (forEach next (unmapRangeBody range) fuel s s.root).map Prod.fst

/-- `vmalloc_init`, when `kzalloc` returns `new`. -/
def vmallocInit (new : ℕ) : VmallocState :=
  { root := some new
    node := Function.update s.node new ⟨0, vmallocEnd - vmallocStart, vmallocStart, none⟩ }

/-! ### What the list stands for -/

variable {s : VmallocState} {s' : VmallocState} {xs as bs : List ℕ} {rs rs' : List Range}
  {x y a size new fuel range : ℕ}

/-- The range that a node describes. -/
def rangeOf (s : VmallocState) (x : ℕ) : Range where
  addr := (s.node x).addr
  size := (s.node x).size
  inUse := (s.node x).flags &&& vmInuse ≠ 0

/-- Following `next` from `root` visits nodes that describe the ranges `rs`. -/
def Ranges (s : VmallocState) (rs : List Range) : Prop :=
  ∃ xs, Walk s.next s.root xs ∧ rs = xs.map s.rangeOf

theorem Ranges.unique (h : s.Ranges rs) (h' : s.Ranges rs') : rs = rs' := by
  obtain ⟨xs, hw, rfl⟩ := h
  obtain ⟨ys, hw', rfl⟩ := h'
  rw [hw.unique hw']

/-- The node at `x` is not on the list. -/
def Fresh (s : VmallocState) (x : ℕ) : Prop := ∀ xs, Walk s.next s.root xs → x ∉ xs

theorem node_setNode_of_ne (v : VmallocStruct) (h : y ≠ x) : (s.setNode x v).node y = s.node y :=
  Function.update_of_ne h _ _

@[simp] theorem node_setNode (v : VmallocStruct) : (s.setNode x v).node x = v :=
  Function.update_self ..

theorem rangeOf_congr (h : s'.node y = s.node y) : s'.rangeOf y = s.rangeOf y := by
  rw [rangeOf, h]
  rfl

theorem next_congr (h : s'.node y = s.node y) : s'.next y = s.next y := by
  rw [next, h]
  rfl

theorem inUse_or (f : BitVec 64) : ¬ (f ||| vmInuse) &&& vmInuse = 0#64 := by
  intro h
  have := congrArg (fun v => v.getLsbD 0) h
  simp [vmInuse] at this

theorem not_inUse_and (f : BitVec 64) : f &&& ~~~vmInuse &&& vmInuse = 0 := by
  rw [BitVec.and_assoc, BitVec.not_and_self]
  exact BitVec.and_zero

/-- A walk split at a node of it. -/
theorem walk_split (hw : Walk s.next s.root (as ++ x :: bs)) :
    x ∉ as ∧ x ∉ bs ∧ Seg s.next s.root as (some x) ∧ Walk s.next (s.next x) bs := by
  have hnd := hw.nodup
  rw [List.nodup_append, List.nodup_cons] at hnd
  refine ⟨fun h => hnd.2.2 x h x (by simp) rfl, hnd.2.1.1, ?_⟩
  exact hw.of_append_cons

/-! ### Mapping -/

/-- The loop acts on a free node with room for `size`, and skips the others. -/
theorem mapRangeBody_of_skip (h : ¬ ((s.rangeOf x).inUse = false ∧ size ≤ (s.rangeOf x).size)) :
    mapRangeBody size new s x = (s, none) := by
  rw [mapRangeBody]
  by_cases hu : (s.node x).flags &&& vmInuse ≠ 0
  · rw [if_pos hu]
  · have hlt : (s.node x).size < size := by
      by_contra hle
      exact h ⟨by simpa [rangeOf] using hu, Nat.le_of_not_lt hle⟩
    rw [if_neg hu, if_neg (by omega), if_neg (by omega)]

/-- **The loop of `vmalloc_map_range`**, at the first free node with room: it carves the range out
of the back of that node. -/
theorem mapRangeBody_carves (hw : Walk s.next s.root (as ++ x :: bs))
    (hnew : new ∉ as ++ x :: bs) (hfree : (s.rangeOf x).inUse = false)
    (hle : size ≤ (s.rangeOf x).size) :
    ∃ s', mapRangeBody size new s x = (s', some ((s.rangeOf x).addr + (s.rangeOf x).size - size)) ∧
      s'.Ranges (as.map s.rangeOf ++ ((s.rangeOf x).carve size ++ bs.map s.rangeOf)) := by
  obtain ⟨hxas, hxbs, hseg, hrest⟩ := walk_split hw
  have hnas : new ∉ as := fun h => hnew (by simp [h])
  have hnbs : new ∉ bs := fun h => hnew (by simp [h])
  have hnx : new ≠ x := fun h => hnew (by simp [h])
  have hu : ¬ (s.node x).flags &&& vmInuse ≠ 0 := by simpa [rangeOf] using hfree
  by_cases heq : (s.rangeOf x).size = size
  · -- the range fits exactly
    let s₁ := s.setNode x { s.node x with flags := (s.node x).flags ||| vmInuse }
    have hother : ∀ y, y ≠ x → s₁.node y = s.node y := fun y hy => node_setNode_of_ne _ hy
    have hnext : ∀ y, s₁.next y = s.next y := by
      intro y
      by_cases hy : y = x
      · subst hy
        simp [VmallocState.next, s₁]
      · exact next_congr (hother y hy)
    refine ⟨s₁, ?_, as ++ x :: bs, hw.congr fun y _ => hnext y, ?_⟩
    · rw [mapRangeBody, if_neg hu, if_pos (show (s.node x).size = size from heq), heq,
        Nat.add_sub_cancel]
      rfl
    · have hx : s₁.rangeOf x = { s.rangeOf x with inUse := true } := by
        simp [rangeOf, s₁, inUse_or]
      have has : as.map s₁.rangeOf = as.map s.rangeOf := List.map_congr_left fun y hy =>
        rangeOf_congr (hother y fun h => hxas (h ▸ hy))
      have hbs : bs.map s₁.rangeOf = bs.map s.rangeOf := List.map_congr_left fun y hy =>
        rangeOf_congr (hother y fun h => hxbs (h ▸ hy))
      rw [Range.carve, if_pos heq, List.map_append, List.map_cons, has, hbs, hx]
      rfl
  · -- a new node is split off at the back
    have hgt : (s.node x).size > size := lt_of_le_of_ne hle (Ne.symm heq)
    let s₁ := s.setNode new ⟨0 ||| vmInuse, size, (s.node x).addr + (s.node x).size - size,
      (s.node x).next⟩
    let s₂ := s₁.setNode x { s₁.node x with
      next := some new
      size := (s₁.node x).size - size }
    have hx₁ : s₁.node x = s.node x := node_setNode_of_ne _ hnx.symm
    have hother : ∀ y, y ≠ x → y ≠ new → s₂.node y = s.node y := fun y hy hy' =>
      (node_setNode_of_ne _ hy).trans (node_setNode_of_ne _ hy')
    have hnew₂ : s₂.node new = ⟨vmInuse, size, (s.node x).addr + (s.node x).size - size,
        (s.node x).next⟩ :=
      (node_setNode_of_ne _ hnx).trans (by simp [s₁])
    have hx₂ : s₂.node x = { s.node x with next := some new, size := (s.node x).size - size } := by
      simp only [s₂, node_setNode, hx₁]
    have has : ∀ y ∈ as, s₂.node y = s.node y := fun y hy =>
      hother y (fun h => hxas (h ▸ hy)) fun h => hnas (h ▸ hy)
    have hbs : ∀ y ∈ bs, s₂.node y = s.node y := fun y hy =>
      hother y (fun h => hxbs (h ▸ hy)) fun h => hnbs (h ▸ hy)
    refine ⟨s₂, ?_, as ++ x :: new :: bs, ?_, ?_⟩
    · rw [mapRangeBody, if_neg hu, if_neg (show ¬ (s.node x).size = size from heq),
        if_pos hgt]
      rfl
    · refine walk_append.mpr ⟨some x, hseg.congr fun y hy => next_congr (has y hy), rfl, ?_, ?_⟩
      · rw [VmallocState.next, hx₂]
      · rw [VmallocState.next, hnew₂]
        exact hrest.congr fun y hy => next_congr (hbs y hy)
    · have hxr : s₂.rangeOf x = { s.rangeOf x with size := (s.rangeOf x).size - size } := by
        simp only [rangeOf, hx₂]
      have hnr : s₂.rangeOf new = ⟨(s.rangeOf x).addr + (s.rangeOf x).size - size, size, true⟩ := by
        simp [rangeOf, hnew₂, vmInuse]
      rw [Range.carve, if_neg heq, List.map_append, List.map_cons, List.map_cons, hxr, hnr,
        List.map_congr_left fun y hy => rangeOf_congr (has y hy),
        List.map_congr_left fun y hy => rangeOf_congr (hbs y hy)]
      rfl

/-- On going round, the loop writes nothing. -/
theorem next_mapRangeBody (h : (mapRangeBody size new s x).2 = none) :
    VmallocState.next (mapRangeBody size new s x).1 = s.next := by
  rw [mapRangeBody] at h ⊢
  split_ifs at h ⊢ <;> simp_all

/-- A free range with room for `size`. -/
def hasRoom (size : ℕ) (r : Range) : Bool := !r.inUse && decide (size ≤ r.size)

theorem hasRoom_iff {r : Range} : hasRoom size r = true ↔ r.inUse = false ∧ size ≤ r.size := by
  simp [hasRoom]

/-- **`vmalloc_map_range`** with enough fuel: a page-multiple size is carved out of the back of the
first free range with room, or there is none. -/
theorem Ranges.mapRange_find (h : s.Ranges rs) (hnew : s.Fresh new) (hfuel : rs.length < fuel)
    (hsize : size ≠ 0 ∧ size % pageSize = 0) :
    (s.vmallocMapRange fuel size new = some (s, none) ∧ rs.find? (hasRoom size) = none) ∨
      ∃ r s' rs', rs.find? (hasRoom size) = some r ∧
        s.vmallocMapRange fuel size new = some (s', some (r.addr + r.size - size)) ∧
        Carved size rs (r.addr + r.size - size) rs' ∧ s'.Ranges rs' := by
  obtain ⟨xs, hw, rfl⟩ := h
  have hloop : s.vmallocMapRange fuel size new =
      some (forList (mapRangeBody size new) s xs) := by
    rw [vmallocMapRange, if_neg (by tauto)]
    exact forEach_eq_forList (fun _ _ => next_mapRangeBody) hw (by simpa using hfuel)
  have hskips {ys : List ℕ} (hys : ∀ y ∈ ys,
      ¬ ((s.rangeOf y).inUse = false ∧ size ≤ (s.rangeOf y).size)) :
      (ys.map s.rangeOf).find? (hasRoom size) = none := by
    rw [List.find?_eq_none, List.forall_mem_map]
    exact fun y hy hroom => hys y hy (hasRoom_iff.mp hroom)
  rcases exists_first (fun x => (s.rangeOf x).inUse = false ∧ size ≤ (s.rangeOf x).size) xs with
    hnone | ⟨as, x, bs, rfl, ⟨hfree, hle⟩, hskip⟩
  · refine Or.inl ⟨?_, hskips hnone⟩
    rw [hloop, forList_of_skip fun y hy => mapRangeBody_of_skip (hnone y hy)]
  · obtain ⟨s', hs', hranges⟩ := mapRangeBody_carves hw (hnew _ hw) hfree hle
    refine Or.inr ⟨s.rangeOf x, s', _, ?_, ?_,
      ⟨as.map s.rangeOf, s.rangeOf x, bs.map s.rangeOf, by simp, hfree, hle, rfl, rfl⟩, hranges⟩
    · rw [List.map_append, List.find?_append, hskips hskip, Option.none_or, List.map_cons,
        List.find?_cons_of_pos (hasRoom_iff.mpr ⟨hfree, hle⟩)]
    · rw [hloop, forList_append_of_skip fun y hy => mapRangeBody_of_skip (hskip y hy),
        forList_cons_of_exit hs']

theorem Ranges.mapRange (h : s.Ranges rs) (hnew : s.Fresh new) (hfuel : rs.length < fuel)
    (hsize : size ≠ 0 ∧ size % pageSize = 0) :
    (s.vmallocMapRange fuel size new = some (s, none) ∧
        ∀ r ∈ rs, ¬ (r.inUse = false ∧ size ≤ r.size)) ∨
      ∃ a s' rs', s.vmallocMapRange fuel size new = some (s', some a) ∧ Carved size rs a rs' ∧
        s'.Ranges rs' := by
  rcases h.mapRange_find hnew hfuel hsize with ⟨hret, hnone⟩ | ⟨r, s', rs', -, hret, hc, hrs'⟩
  · exact Or.inl ⟨hret, fun r hr hroom => List.find?_eq_none.mp hnone r hr (hasRoom_iff.mpr hroom)⟩
  · exact Or.inr ⟨_, s', rs', hret, hc, hrs'⟩

/-! ### Unmapping -/

theorem next_unmapRangeBody (s : VmallocState) (x : ℕ) :
    VmallocState.next (unmapRangeBody range s x).1 = s.next := by
  rw [unmapRangeBody]
  split_ifs
  · funext y
    by_cases hy : y = x
    · subst hy
      simp [VmallocState.next]
    · exact next_congr (node_setNode_of_ne _ hy)
  · rfl

theorem root_unmapRangeBody (s : VmallocState) (x : ℕ) :
    (unmapRangeBody range s x).1.root = s.root := by
  rw [unmapRangeBody]
  split_ifs <;> rfl

theorem rangeOf_unmapRangeBody (s : VmallocState) (x : ℕ) (hy : y ≠ x) :
    (unmapRangeBody range s x).1.rangeOf y = s.rangeOf y := by
  rw [unmapRangeBody]
  split_ifs
  · exact rangeOf_congr (node_setNode_of_ne _ hy)
  · rfl

theorem rangeOf_unmapRangeBody_self (s : VmallocState) (x : ℕ) :
    (unmapRangeBody range s x).1.rangeOf x =
      if (s.rangeOf x).addr = range then { s.rangeOf x with inUse := false } else s.rangeOf x := by
  by_cases h : (s.node x).addr = range
  · rw [unmapRangeBody, if_pos h, if_pos (show (s.rangeOf x).addr = range from h)]
    simp [rangeOf, not_inUse_and]
  · rw [unmapRangeBody, if_neg h, if_neg (show ¬ (s.rangeOf x).addr = range from h)]

/-- The loop clears the flag of the nodes at the address, and writes nothing else. -/
theorem forList_unmapRangeBody (range : ℕ) (s : VmallocState) (hnd : xs.Nodup) :
    ∃ s', forList (unmapRangeBody range) s xs = (s', none) ∧ s'.next = s.next ∧
      s'.root = s.root ∧ xs.map s'.rangeOf = release range (xs.map s.rangeOf) ∧
      ∀ y, y ∉ xs → s'.rangeOf y = s.rangeOf y := by
  induction xs generalizing s with
  | nil => exact ⟨s, rfl, rfl, rfl, rfl, fun _ _ => rfl⟩
  | cons x xs ih =>
    obtain ⟨hx, hnd⟩ := List.nodup_cons.mp hnd
    obtain ⟨s', hs', hnext, hroot, hmap, hother⟩ := ih (unmapRangeBody range s x).1 hnd
    have hnone : (unmapRangeBody range s x).2 = none := by
      rw [unmapRangeBody]
      split_ifs <;> rfl
    refine ⟨s', ?_, hnext.trans (next_unmapRangeBody s x), hroot.trans (root_unmapRangeBody s x),
      ?_, fun y hy => ?_⟩
    · rw [forList, show unmapRangeBody range s x = ((unmapRangeBody range s x).1, none) from
        Prod.ext rfl hnone]
      exact hs'
    · have hxs : xs.map (unmapRangeBody range s x).1.rangeOf = xs.map s.rangeOf :=
        List.map_congr_left fun y hy => rangeOf_unmapRangeBody s x fun h => hx (h ▸ hy)
      rw [List.map_cons, List.map_cons, release_cons, hother x hx, rangeOf_unmapRangeBody_self, hmap,
        hxs]
    · rw [List.mem_cons, not_or] at hy
      rw [hother y hy.2, rangeOf_unmapRangeBody s x hy.1]

/-- **`vmalloc_unmap_range`** with enough fuel gives back the range at the address. -/
theorem Ranges.unmapRange (h : s.Ranges rs) (hfuel : rs.length < fuel) (range : ℕ) :
    ∃ s', s.vmallocUnmapRange fuel range = some s' ∧ s'.Ranges (release range rs) := by
  obtain ⟨xs, hw, rfl⟩ := h
  obtain ⟨s', hs', hnext, hroot, hmap, -⟩ := forList_unmapRangeBody range s hw.nodup
  have hbody : ∀ s x, (unmapRangeBody range s x).2 = none →
      VmallocState.next (unmapRangeBody range s x).1 = s.next := fun s x _ =>
    next_unmapRangeBody s x
  have hloop := forEach_eq_forList hbody hw (by simpa using hfuel)
  refine ⟨s', ?_, xs, ?_, hmap.symm⟩
  · rw [vmallocUnmapRange, hloop, hs']
    rfl
  · rw [hnext, hroot]
    exact hw

/-! ### Whole runs -/

/-- The arena after `vmalloc_init`: one free range. -/
theorem ranges_vmallocInit (s : VmallocState) (new : ℕ) :
    (s.vmallocInit new).Ranges [⟨vmallocStart, vmallocEnd - vmallocStart, false⟩] := by
  refine ⟨[new], ⟨rfl, ?_⟩, ?_⟩
  · simp [VmallocState.next, vmallocInit]
  · simp [rangeOf, vmallocInit]

end VmallocState

/-- A call, with the address that `kzalloc` returns if a range has to be split. -/
inductive VmallocCall
  | mapRange (size new : ℕ)
  | unmapRange (range : ℕ)

namespace VmallocState

variable {s s' : VmallocState} {rs : List Range} {call : VmallocCall} {calls : List VmallocCall}
  {fuel : ℕ}

/-- One call. -/
def exec (fuel : ℕ) (s : VmallocState) : VmallocCall → Option VmallocState
  | .mapRange size new => (s.vmallocMapRange fuel size new).map Prod.fst
  | .unmapRange range => s.vmallocUnmapRange fuel range

/-- `kzalloc` returns a fresh node. -/
def Allowed (s : VmallocState) : VmallocCall → Prop
  | .mapRange _ new => s.Fresh new
  | .unmapRange _ => True

/-- The ranges tile the arena, in whole pages. -/
structure Arena (rs : List Range) : Prop where
  tiles : Tiles vmallocStart rs vmallocEnd
  pages : ∀ r ∈ rs, pageSize ∣ r.size

/-- What a successful `vmalloc_map_range` does to the ranges: the new one was in no range in use,
the ranges in use stay, and nothing else comes into use. -/
structure Mapped (rs : List Range) (size a : ℕ) (rs' : List Range) : Prop where
  mem : ⟨a, size, true⟩ ∈ rs'
  free : ∀ r ∈ rs, r.inUse = true → Disjoint (Set.Ico a (a + size)) r.block
  inUse : ∀ r ∈ rs, r.inUse = true → r ∈ rs'
  only : ∀ r ∈ rs', r.inUse = true → r = ⟨a, size, true⟩ ∨ r ∈ rs

theorem Arena.carved {size a : ℕ} {rs' : List Range} (h : Arena rs)
    (hsize : size ≠ 0 ∧ size % pageSize = 0) (hc : Carved size rs a rs') : Arena rs' where
  tiles := h.tiles.carved (Nat.pos_of_ne_zero hsize.1) hc
  pages := hc.dvd (Nat.dvd_of_mod_eq_zero hsize.2) h.pages

theorem Arena.release (h : Arena rs) (a : ℕ) : Arena (release a rs) where
  tiles := h.tiles.release a
  pages := dvd_release h.pages

theorem arena_init : Arena [⟨vmallocStart, vmallocEnd - vmallocStart, false⟩] where
  tiles := ⟨rfl, by decide, rfl⟩
  pages := by
    intro r hr
    obtain rfl := List.mem_singleton.mp hr
    decide

/-- **One call** returns, if the fuel exceeds the number of ranges. It keeps the arena, adds at most
one range to it, and maps only what was free. -/
theorem Ranges.exec (h : s.Ranges rs) (ha : Arena rs) (hok : s.Allowed call)
    (hfuel : rs.length < fuel) :
    ∃ s' rs', s.exec fuel call = some s' ∧ s'.Ranges rs' ∧ Arena rs' ∧
      rs'.length ≤ rs.length + 1 := by
  cases call with
  | mapRange size new =>
    by_cases hsize : size ≠ 0 ∧ size % pageSize = 0
    · rcases h.mapRange hok hfuel hsize with ⟨hret, -⟩ | ⟨a, s', rs', hret, hc, h'⟩
      · exact ⟨s, rs, by rw [VmallocState.exec, hret]; rfl, h, ha, Nat.le_succ _⟩
      · exact ⟨s', rs', by rw [VmallocState.exec, hret]; rfl, h', ha.carved hsize hc, hc.length_le⟩
    · refine ⟨s, rs, ?_, h, ha, Nat.le_succ _⟩
      rw [VmallocState.exec, vmallocMapRange, if_pos (by tauto)]
      rfl
  | unmapRange range =>
    obtain ⟨s', hret, h'⟩ := h.unmapRange hfuel range
    refine ⟨s', _, hret, h', ha.release range, ?_⟩
    rw [Tiling.release, List.length_map]
    exact Nat.le_succ _

/-- `vmalloc_map_range` succeeds only by carving. -/
theorem Ranges.mapped {size new a : ℕ} (h : s.Ranges rs) (ha : Arena rs) (hnew : s.Fresh new)
    (hfuel : rs.length < fuel) (hret : s.vmallocMapRange fuel size new = some (s', some a)) :
    ∃ rs', s'.Ranges rs' ∧ Mapped rs size a rs' := by
  have hsize : size ≠ 0 ∧ size % pageSize = 0 := by
    by_contra hsize
    rw [vmallocMapRange, if_pos (by tauto)] at hret
    simp at hret
  rcases h.mapRange hnew hfuel hsize with ⟨hret', -⟩ | ⟨a', s₁, rs', hret', hc, h'⟩
  · rw [hret] at hret'
    simp at hret'
  · rw [hret] at hret'
    obtain ⟨rfl, rfl⟩ : s' = s₁ ∧ a = a' := by simpa using hret'
    exact ⟨rs', h', hc.mem, fun r hr hu => hc.disjoint ha.tiles hr hu,
      fun r hr hu => hc.mem_of_inUse hr hu, fun r hr hu => hc.mem_inUse hr hu⟩

/-- What holds after a run of `n` calls. -/
theorem Ranges.run {n : ℕ} (h : s.Ranges rs) (ha : Arena rs) (hn : rs.length ≤ n)
    (hrun : Run (VmallocState.exec fuel) Allowed s calls s') (hfuel : n + calls.length < fuel) :
    ∃ rs', s'.Ranges rs' ∧ Arena rs' ∧ rs'.length ≤ n + calls.length := by
  induction hrun generalizing rs n with
  | nil => exact ⟨rs, h, ha, hn⟩
  | @cons s s₁ t call calls hok hstep hrun ih =>
    rw [List.length_cons] at hfuel ⊢
    have hlt : rs.length < fuel := by omega
    obtain ⟨s₂, rs₂, hs₂, h₂, ha₂, hlen⟩ := h.exec ha hok hlt
    rw [hstep] at hs₂
    obtain rfl := Option.some.inj hs₂
    obtain ⟨rs', h', ha', hlen'⟩ := ih h₂ ha₂ (n := n + 1) (by omega) (by omega)
    exact ⟨rs', h', ha', by omega⟩

end VmallocState

open VmallocState in
/-- **Whole runs** of `vmalloc_map_range` and `vmalloc_unmap_range` after `vmalloc_init`, with more
fuel than calls. The list stands for ranges that tile the arena, ranges in use are disjoint, the
next call returns, and if it maps a range then that range was free and is in use now. -/
theorem vmalloc_run_arena {s₀ s : VmallocState} {new₀ fuel : ℕ} {calls : List VmallocCall}
    (hfuel : calls.length + 1 < fuel)
    (hrun : Run (exec fuel) Allowed (s₀.vmallocInit new₀) calls s) :
    ∃ rs, s.Ranges rs ∧ Arena rs ∧
      (rs.Pairwise fun r r' => r.inUse = true → r'.inUse = true → Disjoint r.block r'.block) ∧
      (∀ call, s.Allowed call → (s.exec fuel call).isSome) ∧
      ∀ size new a s', s.Fresh new → s.vmallocMapRange fuel size new = some (s', some a) →
        ∃ rs', s'.Ranges rs' ∧ Mapped rs size a rs' := by
  obtain ⟨rs, h, ha, hlen⟩ := (ranges_vmallocInit s₀ new₀).run arena_init (n := 1) le_rfl hrun
    (by omega)
  have hlt : rs.length < fuel := by omega
  refine ⟨rs, h, ha, ?_, fun call hok => ?_, fun size new a s' hnew hret => ?_⟩
  · refine ha.tiles.pairwise.imp fun {r r'} hle _ _ => Set.disjoint_left.mpr fun q hq hq' => ?_
    have := hq.2
    have := hq'.1
    omega
  · obtain ⟨s', rs', hs', -⟩ := h.exec ha hok hlt
    rw [hs']
    rfl
  · exact h.mapped ha hnew hlt hret

open VmallocState in
/-- Mapping one page in a new arena. -/
theorem vmalloc_run_arena_page :
    ∃ s rs, Run (exec 3) Allowed ((VmallocState.mk none fun _ => ⟨0, 0, 0, none⟩).vmallocInit 0)
      [.mapRange pageSize 1] s ∧ s.Ranges rs ∧ Arena rs := by
  have hinit := ranges_vmallocInit (VmallocState.mk none fun _ => ⟨0, 0, 0, none⟩) 0
  have hfresh : Allowed ((VmallocState.mk none fun _ => ⟨0, 0, 0, none⟩).vmallocInit 0)
      (.mapRange pageSize 1) := by
    intro xs hw
    obtain rfl : xs = [0] := hw.unique ⟨rfl, rfl⟩
    decide
  obtain ⟨s, -, hs, -⟩ := hinit.exec arena_init hfresh (show 1 < 3 by decide)
  have hrun := Run.cons hfresh hs (.nil s)
  obtain ⟨rs, h, ha, -⟩ := vmalloc_run_arena (by decide) hrun
  exact ⟨s, rs, hrun, h, ha⟩

end GoofyOs
