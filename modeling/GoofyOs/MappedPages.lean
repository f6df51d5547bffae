import GoofyOs.VmallocRun

/-!
# Mapping page after page

The loops of `_vmalloc` and `vmap_contiguous` call `map_page` for the pages of a range, one after
the other. Whatever they map the pages to, the entries of these pages are written and no other
address sees a change. Here this is proved once, for the tables from any top-level index `lo` on,
and for what the loop returns when it returns.

Memory outside of the tables is not touched either. So the walk of an address that is below `lo`,
where the tables may be of any kind, reads what it read before.

## Main definitions

* `TableTree` — the tables below a top-level table
* `PageSpan` — pages with entries of their own
* `Apart` — a word that is no entry and never becomes one
* `PagesEntered` — what the loops do

## Main results

* `PagesEntered.append` — one stretch of pages after another
* `TableTree.mapPage` — one call of `map_page`
* `VmState.vmallocLoop_entered` — the loop of `_vmalloc`, when it returns
-/

namespace GoofyOs

open MapperState

variable {P : PageSource} {m m' m'' : MapperState P} {lo k l addr i n : ℕ}
  {r t v x a b : BitVec 64} {T T' T'' : ℕ → Set (BitVec 64)} {es es' : List (BitVec 64)}

/-- The tables below the top-level table `r`, from the top-level index `lo` on. -/
structure TableTree (m : MapperState P) (lo : ℕ) (r : BitVec 64) (T : ℕ → Set (BitVec 64)) :
    Prop where
  tables : Tables m lo T
  unshared : Unshared m lo T
  root : r ∈ T 3

/-- The first `n` pages from `addr` on have entries of their own, from the index `lo` on. -/
structure PageSpan (lo addr n : ℕ) : Prop where
  lo_le : ∀ {i}, i < n → lo ≤ (getIndex 3 (pageOf addr i)).toNat
  inj : ∀ {i j}, i < n → j < n → pageNumber (pageOf addr i) = pageNumber (pageOf addr j) → i = j

theorem InArena.pageSpan (h : InArena addr n) (hlo : lo ≤ vmallocTop) : PageSpan lo addr n where
  lo_le hi := hlo.trans (h.top_le hi)
  inj := h.inj

/-! ### Words apart from the tables -/

/-- The word at `a` is no entry of the tables, and in no page that can become a table. -/
structure Apart (m : MapperState P) (lo : ℕ) (T : ℕ → Set (BitVec 64)) (a : BitVec 64) : Prop where
  entry : ∀ {k t i}, t ∈ T k → InRange lo k i → a ≠ slot (m.va t) i
  page : ∀ {p}, IsPage p → p ∉ P.used m.pages → ¬ (a - m.va p).toNat < 0x1000

/-- New tables are made of pages that were not in use. -/
theorem Apart.grow (h : Apart m lo T a) (hhdm : m'.hhdmOffset = m.hhdmOffset)
    (hpage : ∀ {k t}, t ∈ T' k → IsPage t)
    (hnew : ∀ {k t}, t ∈ T' k → t ∈ T k ∨ t ∉ P.used m.pages)
    (hused : P.used m.pages ⊆ P.used m'.pages) : Apart m' lo T' a := by
  have hva : ∀ t, m'.va t = m.va t := by
    intro t
    rw [MapperState.va, hhdm]
    rfl
  refine ⟨fun {k t i} ht hi => ?_, fun {p} hp hfree => ?_⟩
  · rw [hva]
    rcases hnew ht with hold | hfresh
    · exact h.entry hold hi
    · rintro rfl
      exact h.page (hpage ht) hfresh ((slot_sub_lt_iff (hpage ht) (hpage ht) hi.1).mpr rfl)
  · rw [hva]
    exact h.page hp fun hin => hfree (hused hin)

/-- One round of the loop of `map_page` writes to no word that is apart. -/
theorem Apart.mem_mapStep {c : BitVec 64} {j : BitVec 64} (h : Apart m lo T a) (ht : t ∈ T (k + 1))
    (hj : InRange lo (k + 1) j) (hstep : m.mapStep (slot (m.va t) j) = some (c, m')) :
    m'.mem a = m.mem a := by
  rw [mapStep] at hstep
  split at hstep
  · obtain ⟨-, rfl⟩ := Prod.mk.inj (Option.some.inj hstep)
    rfl
  · obtain ⟨⟨c', pages⟩, halloc, heq⟩ := Option.map_eq_some_iff.mp hstep
    obtain ⟨rfl, rfl⟩ := Prod.mk.inj heq
    have hclear : (m.clearPage (m.va c')).mem a = m.mem a :=
      if_neg (h.page (P.isPage halloc) (P.fresh halloc))
    exact (Function.update_of_ne (h.entry ht hj) _ _).trans hclear

theorem Apart.mem_mapWalk (h : Apart m lo T a) (htree : Tables m lo T) (ht : t ∈ T k) (hk : k ≤ 3)
    (hv : lo ≤ (getIndex 3 v).toNat)
    (hwalk : m.mapWalk v k (slot (m.va t) (getIndex k v)) = some (b, m')) : m'.mem a = m.mem a := by
  induction k generalizing m T t with
  | zero =>
    obtain ⟨-, rfl⟩ := Prod.mk.inj (Option.some.inj hwalk)
    rfl
  | succ k ih =>
    rw [mapWalk_succ] at hwalk
    obtain ⟨⟨c, m₁⟩, hstep, hrest⟩ := Option.bind_eq_some_iff.mp hwalk
    obtain ⟨T₁, hext, hc, -⟩ := htree.mapStep ht hk (inRange_getIndex hv _) hstep
    have h₁ : Apart m₁ lo T₁ a := h.grow hext.hhdmOffset hext.tables.isPage hext.new hext.used
    exact (ih h₁ hext.tables hc (by omega) hrest).trans
      (h.mem_mapStep ht (inRange_getIndex hv _) hstep)

theorem Apart.mem_mapPage {phys flags : BitVec 64} (h : Apart m lo T a) (htree : Tables m lo T)
    (hr : r ∈ T 3) (hv : lo ≤ (getIndex 3 v).toNat)
    (hmap : m.mapPageNolock (m.va r) phys v flags = some m') : m'.mem a = m.mem a := by
  rw [mapPageNolock] at hmap
  split at hmap
  · cases hmap
  · obtain ⟨⟨b, m₁⟩, hwalk, rfl⟩ := Option.map_eq_some_iff.mp hmap
    obtain ⟨T₁, t₀, hext, ht₀, rfl, -⟩ := htree.mapWalk hr le_rfl hv hwalk
    have h₁ : Apart m₁ lo T₁ a := h.grow hext.hhdmOffset hext.tables.isPage hext.new hext.used
    have hne := h₁.entry ht₀ (inRange_getIndex hv 0)
    exact (Function.update_of_ne hne _ _).trans (h.mem_mapWalk htree hr le_rfl hv hwalk)

/-! ### What the loops do -/

/-- From page `i` of the range on, the entries become `es`. No other address and no other word sees
a change. -/
structure PagesEntered (lo : ℕ) (r : BitVec 64) (addr i : ℕ) (es : List (BitVec 64))
    (m : MapperState P) (T : ℕ → Set (BitVec 64)) (m' : MapperState P) (T' : ℕ → Set (BitVec 64)) :
    Prop where
  tree : TableTree m' lo r T'
  hhdmOffset : m'.hhdmOffset = m.hhdmOffset
  new : ∀ {k t}, t ∈ T' k → t ∈ T k ∨ t ∉ P.used m.pages
  used : P.used m.pages ⊆ P.used m'.pages
  self : ∀ j e, es[j]? = some e → m'.leafOf r (pageOf addr (i + j)) = e
  other : ∀ v, lo ≤ (getIndex 3 v).toNat →
    (∀ j < es.length, pageNumber v ≠ pageNumber (pageOf addr (i + j))) →
    m'.leafOf r v = m.leafOf r v
  mem : ∀ a, Apart m lo T a → m'.mem a = m.mem a

/-- Only the page allocator changes. -/
theorem TableTree.setPages (h : TableTree m lo r T) (addr i : ℕ) {pages : P.State}
    (hused : P.used m.pages ⊆ P.used pages) :
    PagesEntered lo r addr i [] m T { m with pages := pages } T where
  tree := ⟨⟨h.tables.isPage, fun ht => hused (h.tables.used ht), h.tables.level, h.tables.child⟩,
    ⟨h.unshared.ps, h.unshared.inj⟩, h.root⟩
  hhdmOffset := rfl
  new := Or.inl
  used := hused
  self j e hj := by simp at hj
  other _ _ _ := rfl
  mem _ _ := rfl

/-- **One call of `map_page`.** -/
theorem TableTree.mapPage {phys flags : BitVec 64} (h : TableTree m lo r T)
    (hv : lo ≤ (getIndex 3 (pageOf addr i)).toNat)
    (hmap : m.mapPageNolock (m.va r) phys (pageOf addr i) flags = some m') :
    ∃ T', PagesEntered lo r addr i [phys ||| flags ||| pgPresent] m T m' T' := by
  obtain ⟨T', hw⟩ := h.tables.mapPageNolock h.root hv hmap
  refine ⟨T', ⟨⟨hw.tables, hw.unshared h.unshared, hw.sub h.root⟩, hw.hhdmOffset, hw.new, hw.used,
    fun j e hj => ?_, fun v hv' hne => ?_, fun a ha => ha.mem_mapPage h.tables h.root hv hmap⟩⟩
  · obtain ⟨hlt, rfl⟩ := List.getElem?_eq_some_iff.mp hj
    obtain rfl : j = 0 := by simpa using hlt
    exact hw.self rfl
  · exact hw.other h.unshared h.root hv' (hne 0 (by simp))

/-- **One stretch of pages after another.** -/
theorem PagesEntered.append (hspan : PageSpan lo addr n) (hn : i + (es.length + es'.length) ≤ n)
    (h : PagesEntered lo r addr i es m T m' T')
    (h' : PagesEntered lo r addr (i + es.length) es' m' T' m'' T'') :
    PagesEntered lo r addr i (es ++ es') m T m'' T'' where
  tree := h'.tree
  hhdmOffset := h'.hhdmOffset.trans h.hhdmOffset
  new ht := by
    rcases h'.new ht with ht | ht
    · exact h.new ht
    · exact Or.inr fun hu => ht (h.used hu)
  used := h.used.trans h'.used
  self j e hj := by
    rcases Nat.lt_or_ge j es.length with hlt | hge
    · rw [List.getElem?_append_left hlt] at hj
      refine (h'.other _ (hspan.lo_le (by omega)) fun l hl heq => ?_).trans (h.self j e hj)
      have := hspan.inj (by omega) (by omega) heq
      omega
    · rw [List.getElem?_append_right hge] at hj
      have hself := h'.self _ e hj
      rwa [show i + es.length + (j - es.length) = i + j by omega] at hself
  other v hv hne := by
    rw [List.length_append] at hne
    refine (h'.other v hv fun j hj => ?_).trans (h.other v hv fun j hj => hne j (by omega))
    rw [Nat.add_assoc]
    exact hne _ (by omega)
  mem a ha := by
    have ha' : Apart m' lo T' a := ha.grow h.hhdmOffset h.tree.tables.isPage h.new h.used
    exact (h'.mem a ha').trans (h.mem a ha)

/-! ### Pages that have their tables -/

/-- The walk of `map_page` allocates nothing where the tables are there. -/
theorem MapperState.mapWalk_of_unmapWalk (h : m.unmapWalk v k a = some b) :
    m.mapWalk v k a = some (b, m) := by
  induction k generalizing a with
  | zero =>
    cases h
    rfl
  | succ k ih =>
    rw [unmapWalk] at h
    split at h
    · next hp =>
      rw [mapWalk, if_pos hp]
      exact ih h
    · cases h

theorem MapperState.unmapWalk_of_leafOf (h : m.leafOf r v ≠ 0) :
    ∃ b, m.unmapWalk v 3 (slot (m.va r) (getIndex 3 v)) = some b ∧ m.mem b = m.leafOf r v := by
  rw [leafOf, leafEntry] at h ⊢
  cases hwalk : m.unmapWalk v 3 (slot (m.va r) (getIndex 3 v)) with
  | some b => exact ⟨b, rfl, rfl⟩
  | none =>
    rw [hwalk] at h
    exact absurd rfl h

/-- **`map_page` on a page that has an entry** writes that entry. -/
theorem MapperState.mapPage_of_leafOf {flags : BitVec 64} (phys : BitVec 64)
    (h : m.leafOf r v ≠ 0) (hflags : flags &&& ~~~pgFlagmask = 0) :
    ∃ b, m.mem b = m.leafOf r v ∧
      m.mapPageNolock (m.va r) phys v flags = some (m.write b (phys ||| flags ||| pgPresent)) := by
  obtain ⟨b, hwalk, hb⟩ := unmapWalk_of_leafOf h
  refine ⟨b, hb, ?_⟩
  rw [mapPageNolock, if_neg (not_not.mpr hflags), mapWalk_of_unmapWalk hwalk]
  rfl

/-- `is_mapped` says so of a page whose entry is present. -/
theorem MapperState.isMapped_of_leafOf (h : m.leafOf r v &&& pgPresent ≠ 0) :
    m.isMappedNolock (m.va r) v = true := by
  have hwalk : ∀ k a, m.leafEntry v k a &&& pgPresent ≠ 0 → m.isMappedWalk v k a = true := by
    intro k
    induction k with
    | zero =>
      intro a ha
      exact decide_eq_true ha
    | succ k ih =>
      intro a ha
      rw [isMappedWalk]
      by_cases hps : m.mem a &&& pgPs ≠ 0
      · rw [if_pos hps]
      · rw [leafEntry, unmapWalk] at ha
        rw [if_neg hps]
        split at ha
        · next hp =>
          rw [if_pos hp]
          exact ih _ ha
        · exact absurd BitVec.zero_and ha
  exact hwalk 3 _ h

/-! ### The loop of `_vmalloc` -/

/-- Pages that were not in use are. -/
structure PagesTaken (m : MapperState P) (ps : List (BitVec 64)) (m' : MapperState P) : Prop where
  isPage : ∀ p ∈ ps, IsPage p
  nodup : ps.Nodup
  fresh : ∀ p ∈ ps, p ∉ P.used m.pages
  inUse : ∀ p ∈ ps, p ∈ P.used m'.pages

theorem PagesTaken.nil : PagesTaken m [] m' where
  isPage _ hp := absurd hp List.not_mem_nil
  nodup := List.nodup_nil
  fresh _ hp := absurd hp List.not_mem_nil
  inUse _ hp := absurd hp List.not_mem_nil

/-- A page is taken, and then others. -/
theorem PagesTaken.cons {p : BitVec 64} {ps : List (BitVec 64)} {pages : P.State}
    (halloc : P.alloc m.pages = some (p, pages)) (hused : P.used pages ⊆ P.used m'.pages)
    (hused' : P.used m'.pages ⊆ P.used m''.pages) (h : PagesTaken m' ps m'') :
    PagesTaken m (p :: ps) m'' := by
  have hp : p ∈ P.used m'.pages := hused (P.used_alloc halloc ▸ Set.mem_insert _ _)
  have hsub : P.used m.pages ⊆ P.used m'.pages := fun q hq =>
    hused (P.used_alloc halloc ▸ Set.mem_insert_of_mem _ hq)
  exact ⟨List.forall_mem_cons.mpr ⟨P.isPage halloc, h.isPage⟩,
    List.nodup_cons.mpr ⟨fun hin => h.fresh p hin hp, h.nodup⟩,
    List.forall_mem_cons.mpr ⟨P.fresh halloc, fun q hq hu => h.fresh q hq (hsub hu)⟩,
    List.forall_mem_cons.mpr ⟨hused' hp, h.inUse⟩⟩

/-- The entry that `map_page` writes. -/
def pageEntry (flags phys : BitVec 64) : BitVec 64 := phys ||| flags ||| pgPresent

theorem pageEntry_ne_zero (flags phys : BitVec 64) : pageEntry flags phys ≠ 0 := by
  intro h
  exact pageEntry_present phys flags ((congrArg (· &&& pgPresent) h).trans BitVec.zero_and)

namespace VmState

variable {s s' : VmState P} {flags phys : BitVec 64}

theorem mapPage_eq_some (h : s.mapPage phys v flags = some s') :
    s.ptLock = false ∧ ∃ m', s.mapper.mapPageNolock (s.mapper.va s.kernel) phys v flags = some m' ∧
      s' = { s with mapper := m' } := by
  rw [mapPage] at h
  split at h
  · cases h
  · next hlock =>
    obtain ⟨m', hmap, rfl⟩ := Option.map_eq_some_iff.mp h
    exact ⟨by simpa using hlock, m', hmap, rfl⟩

/-- **The loop of `_vmalloc`**, when no page allocation fails. -/
theorem vmallocLoop_entered (h : TableTree s.mapper lo s.kernel T) {total : ℕ}
    (hspan : PageSpan lo addr total) (hn : i + n ≤ total)
    (hloop : vmallocLoop addr flags n i s = some s') :
    ∃ m' ps T', s' = { s with mapper := m', obtained := s.obtained ++ ps } ∧ ps.length = n ∧
      PagesEntered lo s.kernel addr i (ps.map (pageEntry flags)) s.mapper T m' T' ∧
      PagesTaken s.mapper ps m' := by
  induction n generalizing s T i with
  | zero =>
    obtain rfl : s = s' := Option.some.inj hloop
    exact ⟨s.mapper, [], T, by rw [List.append_nil], rfl, h.setPages addr i subset_rfl, .nil⟩
  | succ n ih =>
    rw [vmallocLoop] at hloop
    obtain ⟨⟨pg, m₀⟩, hpg, hloop⟩ := Option.bind_eq_some_iff.mp hloop
    obtain ⟨s₁, hmap, hloop⟩ := Option.bind_eq_some_iff.mp hloop
    obtain ⟨⟨p, pages⟩, halloc, heq⟩ := Option.map_eq_some_iff.mp hpg
    obtain ⟨rfl, rfl⟩ := Prod.mk.inj heq
    have hphys : s.mapper.va p - s.mapper.hhdmOffset = p := BitVec.add_sub_cancel _ _
    simp only [hphys] at hmap hloop
    obtain ⟨-, m₁, hm₁, rfl⟩ := mapPage_eq_some hmap
    have hsub : P.used s.mapper.pages ⊆ P.used pages := by
      rw [P.used_alloc halloc]
      exact Set.subset_insert _ _
    have hset := h.setPages addr i hsub
    obtain ⟨T₁, hone⟩ := hset.tree.mapPage (hspan.lo_le (by omega)) hm₁
    obtain ⟨m', ps, T', rfl, hlen, hrest, htaken⟩ := ih
      (s := { s with mapper := m₁, obtained := s.obtained ++ [p] }) hone.tree (i := i + 1)
      (by omega) hloop
    refine ⟨m', p :: ps, T', by rw [List.append_assoc]; rfl, congrArg Nat.succ hlen, ?_,
      htaken.cons halloc hone.used hrest.used⟩
    have hfirst := hset.append hspan (n := total) (by simp; omega) hone
    exact hfirst.append hspan (n := total) (by simp; omega) hrest

end VmState

/-- The tables of a machine that has mapped nothing yet. -/
theorem tableTree_emptyVm :
    TableTree emptyVm.mapper 0 emptyVm.kernel (rootOnly 0x1000) where
  tables := (tables_oneEntryTable (by decide)).1
  unshared := (tables_oneEntryTable (by decide)).2
  root := mem_rootOnly.mpr ⟨rfl, rfl⟩

end GoofyOs
