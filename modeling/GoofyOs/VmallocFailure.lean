import GoofyOs.Exhaustion
import GoofyOs.MissingTables

/-!
# `vmalloc` without pages

`_vmalloc` looks neither at the range that it gets nor at the pages. When `pgalloc` has no page it
returns the address of a null pointer, and this is mapped as any page would be. When there is no
range, the pages from address 0 on are mapped.

In `VmallocPages` a failing page allocation stops the loop. Here the loop goes on, with the address
that `pgalloc` returns. An allocation that fails in `map_page` still stops it: `pgzalloc` then
clears memory at an address that the processor does not accept. From round `2 ^ 19` on the offset,
an `int`, has no defined value, and the call is taken not to return.

## Main definitions

* `VmState.vmallocRaw` — `vmalloc`, whatever `pgalloc` returns
* `VmState.AllOrNothing` — what is asked of it
* `VmState.Completes` — when it does that

## Main results

* `vmallocLoopRaw_entered` — what the loop does, when it returns
* `vmalloc_all_or_nothing_iff` — the two are equivalent
-/

namespace GoofyOs

open LinkedList Tiling MapperState VmallocState

/-- The physical address that `_vmalloc` computes from what `pgalloc` returns without a page. -/
def nullPage : BitVec 64 := 0x10000000000000

theorem pageToVirt_none_sub (hhdmOffset : BitVec 64) :
    pageToVirt hhdmOffset none - hhdmOffset = nullPage := by
  rw [pageToVirt_none]
  exact BitVec.add_sub_cancel _ _

namespace VmState

variable {P : PageSource} (s : VmState P)

/-- `(uint64_t)pgalloc() - hhdm_offset`, whatever `pgalloc` returns. -/
def pgallocPhys : BitVec 64 × VmState P :=
  match s.mapper.pgalloc with
  | some (pg, m) =>
    let phys := pg - m.hhdmOffset
    (phys, { s with mapper := m, obtained := s.obtained ++ [phys] })
  | none => (pageToVirt s.mapper.hhdmOffset none - s.mapper.hhdmOffset, s)

/-- The loop of `_vmalloc`, with `n` rounds to go. -/
def vmallocLoopRaw (addr : ℕ) (flags : BitVec 64) : ℕ → ℕ → VmState P → Option (VmState P)
  | 0, _, s => some s
  | n + 1, i, s => do
    let s ← s.pgallocPhys.2.mapPage s.pgallocPhys.1 (pageOf addr i) flags
    vmallocLoopRaw addr flags n (i + 1) s

/-- `vmalloc`. -/
def vmallocRaw (fuel size new : ℕ) : Option (Option ℕ × VmState P) :=
  if s.vmallocLock then none
  else if pageCount size > 2 ^ 19 then none
  else do
    let (ranges, addr) ← s.ranges.vmallocMapRange fuel (pageCount size * pageSize) new
    let s ← vmallocLoopRaw (addr.getD 0) (pgWrite ||| pgNx) (pageCount size) 0
      { s with ranges := ranges, vmallocLock := true }
    pure (addr, { s with vmallocLock := false })

/-- **What is asked of `vmalloc`**: a range in use with distinct pages that were not in use, or a
null pointer with everything as it was. -/
def AllOrNothing (size : ℕ) : Option (Option ℕ × VmState P) → Prop
  | none => False
  | some (some addr, s') =>
    (∃ ps : List (BitVec 64), ps.length = pageCount size ∧ ps.Nodup ∧
      (∀ p ∈ ps, p ∉ P.used s.mapper.pages ∧ p ∈ P.used s'.mapper.pages) ∧
      ∀ i p, ps[i]? = some p → s'.mapper.MapsTo s.kernel (pageOf addr i) p) ∧
    ∃ rs', s'.ranges.Ranges rs' ∧ ⟨addr, pageCount size * pageSize, true⟩ ∈ rs'
  | some (none, s') =>
    P.used s'.mapper.pages = P.used s.mapper.pages ∧
    (∀ v, s'.mapper.leafOf s.kernel v = s.mapper.leafOf s.kernel v) ∧
    ∀ rs, s.ranges.Ranges rs → s'.ranges.Ranges rs

/-- The number of pages fits, and either a free range has room, and there is a page for each page of
the range and for each table that is missing, or there is neither a range nor a page, and the pages
from address 0 on are mapped already to what `_vmalloc` maps them to. A request for no pages is
always refused. -/
def Completes (rs : List Range) (size : ℕ) : Prop :=
  pageCount size = 0 ∨ pageCount size ≤ 2 ^ 19 ∧
    match rs.find? (hasRoom (pageCount size * pageSize)) with
    | some r =>
      let addr := r.addr + r.size - pageCount size * pageSize
      P.supplies (pageCount size + s.mapper.missingTables s.kernel addr 0 (pageCount size))
        s.mapper.pages = true
    | none => P.alloc s.mapper.pages = none ∧ ∀ i < pageCount size,
      s.mapper.leafOf s.kernel (pageOf 0 i) = pageEntry (pgWrite ||| pgNx) nullPage

end VmState

variable {P : PageSource} {m m' m'' : MapperState P} {lo k l addr i n fuel size new : ℕ}
  {r t v x a b phys flags : BitVec 64} {T T' T'' : ℕ → Set (BitVec 64)} {rs rs' : List Range}

/-! ### Pages that come into use -/

/-- Pages that come into use are in the physical address space. -/
def GrowsLow (m m' : MapperState P) : Prop :=
  ∀ p ∈ P.used m'.pages, p ∈ P.used m.pages ∨ p.toNat < 2 ^ 52

theorem GrowsLow.refl (m : MapperState P) : GrowsLow m m := fun _ => Or.inl

theorem GrowsLow.trans (h : GrowsLow m m') (h' : GrowsLow m' m'') : GrowsLow m m'' := by
  intro p hp
  rcases h' p hp with hp | hlt
  · exact h p hp
  · exact Or.inr hlt

theorem GrowsLow.alloc (hlow : ∀ {st p st'}, P.alloc st = some (p, st') → p.toNat < 2 ^ 52)
    {p : BitVec 64} (halloc : P.alloc m.pages = some (p, m'.pages)) : GrowsLow m m' := by
  intro q hq
  rw [P.used_alloc halloc] at hq
  rcases hq with rfl | hq
  · exact Or.inr (hlow halloc)
  · exact Or.inl hq

theorem GrowsLow.mapWalk (hlow : ∀ {st p st'}, P.alloc st = some (p, st') → p.toNat < 2 ^ 52)
    (hwalk : m.mapWalk v k a = some (b, m')) : GrowsLow m m' := by
  induction k generalizing m a with
  | zero =>
    obtain ⟨-, rfl⟩ := Prod.mk.inj (Option.some.inj hwalk)
    exact .refl m
  | succ k ih =>
    rw [mapWalk_succ] at hwalk
    obtain ⟨⟨c, m₁⟩, hstep, hrest⟩ := Option.bind_eq_some_iff.mp hwalk
    refine GrowsLow.trans ?_ (ih hrest)
    rw [mapStep] at hstep
    split at hstep
    · obtain ⟨-, rfl⟩ := Prod.mk.inj (Option.some.inj hstep)
      exact .refl m
    · obtain ⟨⟨c', pages⟩, halloc, heq⟩ := Option.map_eq_some_iff.mp hstep
      obtain ⟨-, rfl⟩ := Prod.mk.inj heq
      exact .alloc hlow halloc

theorem GrowsLow.mapPage (hlow : ∀ {st p st'}, P.alloc st = some (p, st') → p.toNat < 2 ^ 52)
    {c : BitVec 64} (hmap : m.mapPageNolock c phys v flags = some m') : GrowsLow m m' := by
  rw [mapPageNolock] at hmap
  split at hmap
  · cases hmap
  · obtain ⟨⟨b, m₁⟩, hwalk, rfl⟩ := Option.map_eq_some_iff.mp hmap
    have hgrows : GrowsLow m m₁ := .mapWalk hlow hwalk
    exact hgrows

/-- Without pages, `map_page` does not change the allocator. -/
theorem MapperState.pages_mapPage {c : BitVec 64} (hnone : P.alloc m.pages = none)
    (hmap : m.mapPageNolock c phys v flags = some m') : m'.pages = m.pages := by
  have hwalk : ∀ k a m₁, m.mapWalk v k a = some m₁ → m₁.2 = m := by
    intro k
    induction k with
    | zero =>
      intro a m₁ hwalk
      rw [← Option.some.inj hwalk]
    | succ k ih =>
      intro a m₁ hwalk
      rw [mapWalk_succ, mapStep, hnone] at hwalk
      split at hwalk
      · exact ih _ _ hwalk
      · cases hwalk
  rw [mapPageNolock] at hmap
  split at hmap
  · cases hmap
  · obtain ⟨m₁, hm₁, rfl⟩ := Option.map_eq_some_iff.mp hmap
    show m₁.2.pages = m.pages
    rw [hwalk _ _ _ hm₁]

namespace VmState

variable {s s' : VmState P}

/-! ### The loop -/

theorem pgallocPhys_of_none (hnone : P.alloc s.mapper.pages = none) :
    s.pgallocPhys = (nullPage, s) := by
  rw [pgallocPhys, pgalloc, hnone, ← pageToVirt_none_sub s.mapper.hhdmOffset]
  rfl

theorem pgallocPhys_of_some {p : BitVec 64} {pages : P.State}
    (halloc : P.alloc s.mapper.pages = some (p, pages)) : s.pgallocPhys =
      (p, { s with
        mapper := { s.mapper with pages := pages }
        obtained := s.obtained ++ [p] }) := by
  have hphys : s.mapper.va p - s.mapper.hhdmOffset = p := BitVec.add_sub_cancel _ _
  rw [pgallocPhys, pgalloc, halloc]
  simp only [Option.map_some, hphys]

/-- Where the loop that stops returns, the other one returns the same. -/
theorem vmallocLoopRaw_of_loop (hloop : vmallocLoop addr flags n i s = some s') :
    vmallocLoopRaw addr flags n i s = some s' := by
  induction n generalizing s i with
  | zero => exact hloop
  | succ n ih =>
    rw [vmallocLoop] at hloop
    obtain ⟨⟨pg, m⟩, hpg, hloop⟩ := Option.bind_eq_some_iff.mp hloop
    obtain ⟨s₁, hmap, hloop⟩ := Option.bind_eq_some_iff.mp hloop
    rw [vmallocLoopRaw, pgallocPhys, hpg]
    exact Option.bind_eq_some_iff.mpr ⟨s₁, hmap, ih hloop⟩

/-- What the loop of `_vmalloc` does in the state `s` that maps the pages from page `i` on to `qs`.
-/
structure RawEntered (s : VmState P) (T : ℕ → Set (BitVec 64)) (lo addr i : ℕ) (flags : BitVec 64)
    (qs : List (BitVec 64)) (m' : MapperState P) (T' : ℕ → Set (BitVec 64)) : Prop where
  entered : PagesEntered lo s.kernel addr i (qs.map (pageEntry flags)) s.mapper T m' T'
  grows : GrowsLow s.mapper m'
  /-- where the other loop stops, there is a null page -/
  fails : vmallocLoop addr flags qs.length i s = none → nullPage ∈ qs
  null : P.alloc s.mapper.pages = none → ∀ q ∈ qs, q = nullPage
  takes : ∀ r, P.alloc s.mapper.pages = some r → 0 < qs.length → r.1 ∈ P.used m'.pages

/-- A round without a page. -/
theorem RawEntered.cons_null (hlow : ∀ {st p st'}, P.alloc st = some (p, st') → p.toNat < 2 ^ 52)
    {T₁ : ℕ → Set (BitVec 64)} {qs : List (BitVec 64)} {total : ℕ} (hspan : PageSpan lo addr total)
    (hn : i + (qs.length + 1) ≤ total) (halloc : P.alloc s.mapper.pages = none)
    (hmap : s.mapper.mapPageNolock (s.mapper.va s.kernel) nullPage (pageOf addr i) flags = some m)
    (hone : PagesEntered lo s.kernel addr i [pageEntry flags nullPage] s.mapper T m T₁)
    (hrest : RawEntered { s with mapper := m } T₁ lo addr (i + 1) flags qs m' T') :
    RawEntered s T lo addr i flags (nullPage :: qs) m' T' where
  entered := hone.append hspan (n := total) (by simp; omega) hrest.entered
  grows := (GrowsLow.mapPage hlow hmap).trans hrest.grows
  fails _ := List.mem_cons_self
  null _ := by
    refine List.forall_mem_cons.mpr ⟨rfl, hrest.null ?_⟩
    show P.alloc m.pages = none
    rw [pages_mapPage halloc hmap, halloc]
  takes r hr := by cases halloc.symm.trans hr

/-- A round with a page. -/
theorem RawEntered.cons_page (hlow : ∀ {st p st'}, P.alloc st = some (p, st') → p.toNat < 2 ^ 52)
    {T₁ : ℕ → Set (BitVec 64)} {qs : List (BitVec 64)} {total : ℕ} (hspan : PageSpan lo addr total)
    (hn : i + (qs.length + 1) ≤ total) (hlock : s.ptLock = false) {p : BitVec 64} {pages : P.State}
    (halloc : P.alloc s.mapper.pages = some (p, pages))
    (hmap : ({ s.mapper with pages := pages } : MapperState P).mapPageNolock (s.mapper.va s.kernel)
      p (pageOf addr i) flags = some m)
    (hone : PagesEntered lo s.kernel addr i [pageEntry flags p] s.mapper T m T₁)
    (hin : p ∈ P.used m.pages)
    (hrest : RawEntered { s with mapper := m, obtained := s.obtained ++ [p] } T₁ lo addr (i + 1)
      flags qs m' T') :
    RawEntered s T lo addr i flags (p :: qs) m' T' where
  entered := hone.append hspan (n := total) (by simp; omega) hrest.entered
  grows := (GrowsLow.alloc hlow halloc).trans ((GrowsLow.mapPage hlow hmap).trans hrest.grows)
  fails hnone := by
    have hphys : s.mapper.va p - s.mapper.hhdmOffset = p := BitVec.add_sub_cancel _ _
    rw [List.length_cons, vmallocLoop, pgalloc, halloc] at hnone
    simp only [Option.map_some, Option.bind_eq_bind, Option.bind_some, hphys] at hnone
    rw [mapPage, if_neg (by simp [hlock])] at hnone
    refine List.mem_cons_of_mem _ (hrest.fails ?_)
    exact (congrArg (fun o => (Option.map _ o).bind _) hmap).symm.trans hnone
  null hnone := by cases halloc.symm.trans hnone
  takes r hr _ := by
    obtain rfl := Option.some.inj (halloc.symm.trans hr)
    exact hrest.entered.used hin

/-- **The loop of `_vmalloc`**, when it returns. -/
theorem vmallocLoopRaw_entered (hlow : ∀ {st p st'}, P.alloc st = some (p, st') → p.toNat < 2 ^ 52)
    (h : TableTree s.mapper lo s.kernel T) {total : ℕ} (hspan : PageSpan lo addr total)
    (hn : i + n ≤ total) (hloop : vmallocLoopRaw addr flags n i s = some s') :
    ∃ m' obtained qs T', s' = { s with mapper := m', obtained := obtained } ∧
      List.length qs = n ∧ RawEntered s T lo addr i flags qs m' T' := by
  induction n generalizing s T i with
  | zero =>
    obtain rfl : s = s' := Option.some.inj hloop
    refine ⟨s.mapper, _, [], T, rfl, rfl, h.setPages addr i subset_rfl, .refl _, fun hnone => ?_,
      by simp, by simp⟩
    cases hnone
  | succ n ih =>
    rw [vmallocLoopRaw] at hloop
    obtain ⟨s₁, hmap, hloop⟩ := Option.bind_eq_some_iff.mp hloop
    cases halloc : P.alloc s.mapper.pages with
    | none =>
      rw [pgallocPhys_of_none halloc] at hmap
      obtain ⟨-, m₁, hm₁, rfl⟩ := mapPage_eq_some hmap
      obtain ⟨T₁, hone⟩ := h.mapPage (hspan.lo_le (by omega)) hm₁
      obtain ⟨m', obtained, qs, T', rfl, hlen, hrest⟩ :=
        ih (s := { s with mapper := m₁ }) hone.tree (i := i + 1) (by omega) hloop
      exact ⟨m', _, nullPage :: qs, T', rfl, congrArg Nat.succ hlen,
        RawEntered.cons_null (s := s) hlow hspan (by omega) halloc hm₁ hone hrest⟩
    | some r =>
      obtain ⟨p, pages⟩ := r
      rw [pgallocPhys_of_some halloc] at hmap
      obtain ⟨hlock, m₁, hm₁, rfl⟩ := mapPage_eq_some hmap
      have hused := P.used_alloc halloc
      have hset := h.setPages addr i (hused ▸ Set.subset_insert p (P.used s.mapper.pages))
      obtain ⟨T₁, hone⟩ := hset.tree.mapPage (hspan.lo_le (by omega)) hm₁
      obtain ⟨m', obtained, qs, T', rfl, hlen, hrest⟩ := ih
        (s := { s with mapper := m₁, obtained := s.obtained ++ [p] }) hone.tree (i := i + 1)
        (by omega) hloop
      have hfirst := hset.append hspan (n := total) (by simp; omega) hone
      exact ⟨m', _, p :: qs, T', rfl, congrArg Nat.succ hlen,
        RawEntered.cons_page (s := s) hlow hspan (by omega) hlock halloc hm₁ hfirst
          (hone.used (hused ▸ Set.mem_insert _ _)) hrest⟩

/-- Without pages, nothing changes where every page is mapped to the null page. -/
theorem vmallocLoopRaw_id (hlock : s.ptLock = false) (hflags : flags &&& ~~~pgFlagmask = 0)
    (hnone : P.alloc s.mapper.pages = none)
    (hleaf : ∀ j < n, s.mapper.leafOf s.kernel (pageOf addr (i + j)) = pageEntry flags nullPage) :
    vmallocLoopRaw addr flags n i s = some s := by
  induction n generalizing i with
  | zero => rfl
  | succ n ih =>
    have hentry := hleaf 0 (Nat.succ_pos n)
    obtain ⟨b, hb, hmap⟩ := mapPage_of_leafOf (v := pageOf addr (i + 0)) nullPage
      (hentry ▸ pageEntry_ne_zero _ _) hflags
    have hself : s.mapper.write b (nullPage ||| flags ||| pgPresent) = s.mapper := by
      have hmem : Function.update s.mapper.mem b (nullPage ||| flags ||| pgPresent) =
          s.mapper.mem :=
        Function.update_eq_self_iff.mpr (hb.trans hentry).symm
      rw [write, hmem]
    rw [Nat.add_zero, hself] at hmap
    rw [vmallocLoopRaw, pgallocPhys_of_none hnone, mapPage, if_neg (by simp [hlock]), hmap]
    refine ih fun j hj => ?_
    rw [Nat.add_right_comm]
    exact hleaf (j + 1) (by omega)

/-! ### The whole call -/

theorem vmallocRaw_eq {ranges : VmallocState} {range : Option ℕ} (hlock : s.vmallocLock = false)
    (hn : pageCount size ≤ 2 ^ 19)
    (hret : s.ranges.vmallocMapRange fuel (pageCount size * pageSize) new = some (ranges, range)) :
    s.vmallocRaw fuel size new =
      (vmallocLoopRaw (range.getD 0) (pgWrite ||| pgNx) (pageCount size) 0
        { s with ranges := ranges, vmallocLock := true }).map fun s' =>
          (range, { s' with vmallocLock := false }) := by
  rw [vmallocRaw, if_neg (by simp [hlock]), if_neg (Nat.not_lt.mpr hn)]
  simp only [hret, Option.bind_eq_bind, Option.bind_some]
  cases vmallocLoopRaw (range.getD 0) (pgWrite ||| pgNx) (pageCount size) 0
    { s with ranges := ranges, vmallocLock := true } <;> rfl

/-- Pages that are mapped are the ones that an entry holds. -/
theorem mapsTo_of_leafOf {p : BitVec 64} (hp : IsPage p) (hflags : flags &&& ~~~pgFlagmask = 0)
    (hleaf : m.leafOf r v = pageEntry flags p) : m.MapsTo r v p := by
  rw [MapsTo, hleaf]
  exact ⟨pageEntry_present p flags, pageEntry_and_addrMask hp hflags⟩

/-- **With a range**: the pages are what they should be if and only if no allocation fails. -/
theorem allOrNothing_range (hlow : ∀ {st p st'}, P.alloc st = some (p, st') → p.toNat < 2 ^ 52)
    {ranges : VmallocState} (htree : TableTree s.mapper 0 s.kernel T)
    (hspan : PageSpan 0 addr (pageCount size)) (hrs' : ranges.Ranges rs')
    (hmem : ⟨addr, pageCount size * pageSize, true⟩ ∈ rs') :
    s.AllOrNothing size ((vmallocLoopRaw addr (pgWrite ||| pgNx) (pageCount size) 0
        { s with ranges := ranges, vmallocLock := true }).map fun s' =>
          (some addr, { s' with vmallocLock := false })) ↔
      (vmallocLoop addr (pgWrite ||| pgNx) (pageCount size) 0
        { s with ranges := ranges, vmallocLock := true }).isSome = true := by
  constructor
  · intro h
    by_contra hfail
    rw [Option.not_isSome_iff_eq_none] at hfail
    cases hloop : vmallocLoopRaw addr (pgWrite ||| pgNx) (pageCount size) 0
        { s with ranges := ranges, vmallocLock := true } with
    | none =>
      rw [hloop] at h
      exact h
    | some s' =>
      rw [hloop] at h
      obtain ⟨⟨ps, hlen, -, hfresh, hmaps⟩, -⟩ := h
      obtain ⟨m', obtained, qs, T', rfl, hlenq, hraw⟩ :=
        vmallocLoopRaw_entered hlow (s := { s with ranges := ranges, vmallocLock := true }) htree
          hspan (Nat.zero_add _).le hloop
      obtain ⟨j, hj, hq⟩ := List.getElem_of_mem (hraw.fails (hlenq ▸ hfail))
      have hleaf := hraw.entered.self j (pageEntry (pgWrite ||| pgNx) nullPage)
        (by rw [List.getElem?_map, List.getElem?_eq_getElem hj, hq]; rfl)
      rw [Nat.zero_add] at hleaf
      have hjp : j < ps.length := by omega
      have hmap := hmaps j _ (List.getElem?_eq_getElem hjp)
      have hpage : ps[j] = nullPage := by
        have hnullmap := mapsTo_of_leafOf (show IsPage nullPage by decide) (by decide) hleaf
        exact hmap.2.symm.trans hnullmap.2
      obtain ⟨hnot, hin⟩ := hfresh _ (List.getElem_mem hjp)
      rcases hraw.grows _ hin with hold | hlt
      · exact hnot hold
      · rw [hpage] at hlt
        exact absurd hlt (by decide)
  · intro hsome
    obtain ⟨s', hloop⟩ := Option.isSome_iff_exists.mp hsome
    rw [vmallocLoopRaw_of_loop hloop]
    obtain ⟨m', ps, T', rfl, hlen, hentered, htaken⟩ := vmallocLoop_entered
      (s := { s with ranges := ranges, vmallocLock := true }) htree hspan (Nat.zero_add _).le hloop
    refine ⟨⟨ps, hlen, htaken.nodup, fun p hp => ⟨htaken.fresh p hp, htaken.inUse p hp⟩,
      fun i p hp => ?_⟩, rs', hrs', hmem⟩
    have hleaf := hentered.self i (pageEntry (pgWrite ||| pgNx) p) (by
      rw [List.getElem?_map, hp]
      rfl)
    rw [Nat.zero_add] at hleaf
    exact mapsTo_of_leafOf (htaken.isPage p (List.mem_of_getElem? hp)) (by decide) hleaf

/-- **Without a range**: nothing changes if and only if there is no page, and the pages at address
0 are mapped to the null page already. -/
theorem allOrNothing_none (hlow : ∀ {st p st'}, P.alloc st = some (p, st') → p.toNat < 2 ^ 52)
    (htree : TableTree s.mapper 0 s.kernel T) (hspan : PageSpan 0 0 (pageCount size))
    (hlock : s.ptLock = false) (hpos : 0 < pageCount size) :
    s.AllOrNothing size ((vmallocLoopRaw 0 (pgWrite ||| pgNx) (pageCount size) 0
        { s with vmallocLock := true }).map fun s' => (none, { s' with vmallocLock := false })) ↔
      P.alloc s.mapper.pages = none ∧ ∀ i < pageCount size,
        s.mapper.leafOf s.kernel (pageOf 0 i) = pageEntry (pgWrite ||| pgNx) nullPage := by
  constructor
  · intro h
    cases hloop : vmallocLoopRaw 0 (pgWrite ||| pgNx) (pageCount size) 0
        { s with vmallocLock := true } with
    | none =>
      rw [hloop] at h
      exact h.elim
    | some s' =>
      rw [hloop] at h
      obtain ⟨hused, hleaf, -⟩ := h
      obtain ⟨m', obtained, qs, T', rfl, hlen, hraw⟩ :=
        vmallocLoopRaw_entered hlow (s := { s with vmallocLock := true }) htree hspan
          (Nat.zero_add _).le hloop
      have hnone : P.alloc s.mapper.pages = none := by
        by_contra hsome
        obtain ⟨⟨p, pages⟩, halloc⟩ := Option.ne_none_iff_exists'.mp hsome
        have hin : p ∈ P.used m'.pages := hraw.takes _ halloc (hlen ▸ hpos)
        exact P.fresh halloc (hused ▸ hin)
      refine ⟨hnone, fun i hi => ?_⟩
      have hiq : i < qs.length := hlen ▸ hi
      have hself := hraw.entered.self i (pageEntry (pgWrite ||| pgNx) nullPage) (by
        rw [List.getElem?_map, List.getElem?_eq_getElem hiq,
          hraw.null hnone _ (List.getElem_mem hiq)]
        rfl)
      rw [Nat.zero_add] at hself
      exact (hleaf _).symm.trans hself
  · rintro ⟨hnone, hleaf⟩
    rw [vmallocLoopRaw_id (s := { s with vmallocLock := true }) hlock (by decide) hnone
      fun j hj => by rw [Nat.zero_add]; exact hleaf j hj]
    exact ⟨rfl, fun _ => rfl, fun _ hrs => hrs⟩

end VmState

/-- The pages from address 0 on. -/
theorem pageSpan_zero (hn : n ≤ 2 ^ 19) : PageSpan 0 0 n where
  lo_le _ := Nat.zero_le _
  inj {i j} hi hj heq := by
    have heq := congrArg BitVec.toNat heq
    rw [toNat_pageNumber, toNat_pageNumber, pageOf, pageOf, BitVec.toNat_ofNat, BitVec.toNat_ofNat,
      pageSize] at heq
    omega

open VmState in
/-- **`vmalloc` succeeds completely or not at all** if and only if it has the pages that it needs,
for every arena, every size and every supply of pages. -/
theorem vmalloc_all_or_nothing_iff {s : VmState P}
    (hlow : ∀ {st p st'}, P.alloc st = some (p, st') → p.toNat < 2 ^ 52)
    (hrs : s.ranges.Ranges rs) (harena : Arena rs) (hfuel : rs.length < fuel)
    (hnew : s.ranges.Fresh new) (htree : TableTree s.mapper 0 s.kernel T)
    (hlock : s.vmallocLock = false ∧ s.ptLock = false) :
    s.AllOrNothing size (s.vmallocRaw fuel size new) ↔ s.Completes rs size := by
  rcases Nat.eq_zero_or_pos (pageCount size) with hzero | hpos
  · have hret : s.ranges.vmallocMapRange fuel (pageCount size * pageSize) new =
        some (s.ranges, none) := by
      rw [hzero, vmallocMapRange, if_pos (.inl (Nat.zero_mul _))]
    rw [vmallocRaw_eq hlock.1 (by omega) hret, hzero]
    exact iff_of_true ⟨rfl, fun _ => rfl, fun _ h => h⟩ (.inl hzero)
  · by_cases hn : pageCount size ≤ 2 ^ 19
    · have hsize : pageCount size * pageSize ≠ 0 ∧ pageCount size * pageSize % pageSize = 0 :=
        ⟨Nat.mul_ne_zero hpos.ne' (by decide), Nat.mul_mod_left _ _⟩
      rw [Completes, or_iff_right hpos.ne', and_iff_right hn]
      rcases hrs.mapRange_find hnew hfuel hsize with
        ⟨hret, hfind⟩ | ⟨r, ranges, rs', hfind, hret, hc, hrs'⟩
      · rw [hfind, vmallocRaw_eq hlock.1 hn hret]
        exact allOrNothing_none hlow htree (pageSpan_zero hn) hlock.2 hpos
      · have hin : InArena (r.addr + r.size - pageCount size * pageSize) (pageCount size) :=
          VmSys.inArena (harena.carved hsize hc) hc.mem
        have hspan := hin.pageSpan (Nat.zero_le _)
        have hflags : (pgWrite ||| pgNx) &&& ~~~pgFlagmask = 0 := by decide
        have hsome := vmallocLoop_isSome (s := { s with ranges := ranges, vmallocLock := true })
          htree hspan (Nat.zero_add _).le hlock.2 hflags
        rw [hfind, vmallocRaw_eq hlock.1 hn hret]
        refine (allOrNothing_range hlow htree hspan hrs' hc.mem).trans ?_
        rw [hsome]
    · rw [vmallocRaw, if_neg (by simp [hlock.1]), if_pos (Nat.not_le.mp hn)]
      refine iff_of_false id ?_
      rintro (hzero | ⟨hn', -⟩)
      · exact hpos.ne' hzero
      · exact hn hn'

/-- A new arena has one free range. -/
theorem find?_arena (hsize : l ≤ vmallocEnd - vmallocStart) :
    [(⟨vmallocStart, vmallocEnd - vmallocStart, false⟩ : Range)].find? (hasRoom l) =
      some ⟨vmallocStart, vmallocEnd - vmallocStart, false⟩ :=
  List.find?_cons_of_pos (hasRoom_iff.mpr ⟨rfl, hsize⟩)

open VmState in
/-- 100 bytes from a new arena. -/
theorem vmalloc_all_or_nothing_emptyVm : emptyVm.AllOrNothing 100 (emptyVm.vmallocRaw 3 100 1) := by
  refine (vmalloc_all_or_nothing_iff (fun h => Nat.lt_trans (sevenPages_low h) (by decide))
    ranges_emptyVm arena_init (by decide) fresh_emptyVm tableTree_emptyVm ⟨rfl, rfl⟩).mpr
    (.inr ⟨by decide, ?_⟩)
  rw [find?_arena (by decide)]
  -- one page, and three tables
  show sevenPages.supplies
    (pageCount 100 + emptyVm.mapper.missingTables emptyVm.kernel _ 0 _) _ = true
  decide +kernel

open VmState in
/-- Four pages where there are three, and three for tables. The last one is mapped to the null
page. -/
theorem not_vmalloc_all_or_nothing :
    ¬ ∀ (P : PageSource) (s : VmState P) (rs : List Range) (T : ℕ → Set (BitVec 64))
      (fuel size new : ℕ), (∀ {st p st'}, P.alloc st = some (p, st') → p.toNat < 2 ^ 52) →
      s.ranges.Ranges rs → Arena rs → rs.length < fuel → s.ranges.Fresh new →
      TableTree s.mapper 0 s.kernel T → s.vmallocLock = false ∧ s.ptLock = false →
      s.AllOrNothing size (s.vmallocRaw fuel size new) := by
  intro hall
  have hlow : ∀ {st p st'}, sevenPages.alloc st = some (p, st') → p.toNat < 2 ^ 52 := fun h =>
    Nat.lt_trans (sevenPages_low h) (by decide)
  have h := hall sevenPages emptyVm _ _ 3 16384 1 hlow ranges_emptyVm arena_init (by decide)
    fresh_emptyVm tableTree_emptyVm ⟨rfl, rfl⟩
  have hsize : pageCount 16384 * pageSize ≠ 0 ∧ pageCount 16384 * pageSize % pageSize = 0 := by
    decide
  have harena := find?_arena (l := pageCount 16384 * pageSize) (by decide)
  rcases ranges_emptyVm.mapRange_find fresh_emptyVm (show _ < 3 by decide) hsize with
    ⟨-, hnone⟩ | ⟨r, ranges, rs', hfind, hret, hc, hrs'⟩
  · exact absurd (harena.symm.trans hnone) (Option.some_ne_none _)
  · obtain rfl := Option.some.inj (harena.symm.trans hfind)
    have hspan := (VmSys.inArena (arena_init.carved (by decide) hc) hc.mem).pageSpan
      (Nat.zero_le vmallocTop)
    rw [vmallocRaw_eq rfl (by decide) hret] at h
    have hsome := (allOrNothing_range hlow tableTree_emptyVm hspan hrs' hc.mem).mp h
    rw [vmallocLoop_isSome (s := { emptyVm with ranges := ranges, vmallocLock := true })
      tableTree_emptyVm hspan (Nat.zero_add _).le rfl (by decide)] at hsome
    have hfails : sevenPages.supplies (pageCount 16384 + emptyVm.mapper.missingTables emptyVm.kernel
        (vmallocStart + (vmallocEnd - vmallocStart) - pageCount 16384 * pageSize) 0
        (pageCount 16384)) emptyVm.mapper.pages = false := by decide +kernel
    exact Bool.noConfusion (hfails.symm.trans hsome)

end GoofyOs
