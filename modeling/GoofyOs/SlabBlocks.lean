import GoofyOs.SlabRun

/-!
# The slabs of damaged caches

`list_remove_node` writes through the stale back pointer of a front slab, and this can cut the lists
of a cache (`slab_run_not_good`). What a slab knows about itself does not suffer from it: whatever the
lists of a cache look like, they lead to slabs of this cache only, and a call that returns has moved
one chunk of one slab.

## Main definitions

* `SlabState.Linked` — every pointer on the lists of a cache leads to a slab of the cache

## Main results

* `SlabState.Linked.kmemCacheAlloc`, `SlabState.Linked.kmemCacheFree` — a call that returns keeps the
  slabs sound and the lists within the caches
-/

namespace GoofyOs

open LinkedList ListHead

namespace SlabState

variable {s s' : SlabState} {blocks : List SlabBlock} {b : SlabBlock} {F U : ℕ → List ℕ}
  {c d x y z : ℕ} {k : SlabList} {m : ℤ}

/-- Slab `x` belongs to cache `c`. -/
def OfCache (blocks : List SlabBlock) (c x : ℕ) : Prop := ∃ b ∈ blocks, b.slab = x ∧ b.cache = c

/-- The list heads of each cache, and the link fields of its slabs, lead to slabs of the cache. -/
structure Linked (s : SlabState) (blocks : List SlabBlock) : Prop where
  head : ∀ i x, s.heads i = some x → OfCache blocks i.1 x
  next : ∀ a ∈ blocks, ∀ x, s.slabList.next a.slab = some x → OfCache blocks a.cache x
  prev : ∀ a ∈ blocks, ∀ x, s.slabList.prev a.slab = some x → OfCache blocks a.cache x

/-- The cache of a slab is unique. -/
theorem SlabsOk.cache_eq (ho : s.SlabsOk blocks F U) (hb : b ∈ blocks)
    (hc : OfCache blocks c b.slab) : b.cache = c := by
  obtain ⟨a, ha, hab, rfl⟩ := hc
  rw [ho.slab_inj a ha b hb hab]

namespace Linked

theorem congr (h : s.Linked blocks) (hlist : s'.slabList = s.slabList) (hheads : s'.heads = s.heads) :
    s'.Linked blocks where
  head := by
    rw [hheads]
    exact h.head
  next := by
    rw [hlist]
    exact h.next
  prev := by
    rw [hlist]
    exact h.prev

/-- Counting a slab in and `list_push_front`. -/
theorem pushSlab (h : s.Linked blocks) (ho : s.SlabsOk blocks F U) (hb : b ∈ blocks)
    (k : SlabList) : (s.pushSlab b.cache k b.slab).Linked blocks where
  head i x hx := by
    rw [SlabState.pushSlab, heads_setList, Function.update_apply] at hx
    split at hx
    · next hi =>
      obtain rfl := Option.some.inj hx
      exact ⟨b, hb, rfl, by rw [hi]⟩
    · exact h.head i x hx
  next a ha x hx := by
    have hx : (listPushFront s.slabList _ b.slab).1.next a.slab = some x := hx
    rw [listPushFront_next] at hx
    split at hx
    · next hab =>
      rw [ho.slab_inj a ha b hb hab]
      exact h.head (b.cache, k) x hx
    · exact h.next a ha x hx
  prev a ha x hx := by
    have hx : (listPushFront s.slabList (s.heads (b.cache, k)) b.slab).1.prev a.slab = some x := hx
    rw [listPushFront_prev] at hx
    split at hx
    · next hhead =>
      obtain rfl := Option.some.inj hx
      exact ⟨b, hb, rfl, (ho.cache_eq ha (h.head _ _ hhead)).symm⟩
    · exact h.prev a ha x hx

/-- `list_remove_node` and counting the slab out. All values written are link fields of the slab. -/
theorem removeSlab (h : s.Linked blocks) (ho : s.SlabsOk blocks F U) (hb : b ∈ blocks)
    (k : SlabList) : (s.removeSlab b.cache k b.slab).Linked blocks where
  head i x hx := by
    rw [SlabState.removeSlab, heads_setList, Function.update_apply] at hx
    split at hx
    · next hi =>
      subst hi
      have hx : (if s.heads (b.cache, k) = some b.slab then s.slabList.next b.slab
        else s.heads (b.cache, k)) = some x := hx
      split at hx
      · exact h.next b hb x hx
      · exact h.head (b.cache, k) x hx
    · exact h.head i x hx
  next a ha x hx := by
    have hx : (listRemoveNode s.slabList (s.heads (b.cache, k)) b.slab).1.next a.slab = some x := hx
    rw [listRemoveNode_next] at hx
    split_ifs at hx with hab hprev
    · rw [ho.cache_eq ha (h.prev b hb _ hprev)]
      exact h.next b hb x hx
    · exact h.next a ha x hx
  prev a ha x hx := by
    have hx : (listRemoveNode s.slabList (s.heads (b.cache, k)) b.slab).1.prev a.slab = some x := hx
    rw [listRemoveNode_prev] at hx
    split_ifs at hx with hab hnext
    · rw [ho.cache_eq ha (h.next b hb _ hnext)]
      exact h.prev b hb x hx
    · exact h.prev a ha x hx

/-- `list_pop_front`. -/
theorem popSlab (h : s.Linked blocks) (hb : b ∈ blocks) :
    (s.setList b.cache k (s.slabList.next b.slab) m).Linked blocks where
  head i x hx := by
    rw [heads_setList, Function.update_apply] at hx
    split at hx
    · next hi =>
      subst hi
      exact h.next b hb x hx
    · exact h.head i x hx
  next := h.next
  prev := h.prev

/-- A new slab starts with null link fields. -/
theorem buildSlab (h : s.Linked blocks) (hslab : ∀ a ∈ blocks, a.slab ≠ b.slab) :
    (s.buildSlab b).Linked (b :: blocks) := by
  have hcons : ∀ {c x}, OfCache blocks c x → OfCache (b :: blocks) c x := by
    rintro c x ⟨a, ha, hax⟩
    exact ⟨a, .tail _ ha, hax⟩
  refine ⟨fun i x hx => hcons (h.head i x hx), fun a ha x hx => ?_, fun a ha x hx => ?_⟩
  · have hx : Function.update s.slabList.next b.slab none a.slab = some x := hx
    rcases List.mem_cons.mp ha with rfl | ha
    · simp at hx
    · rw [Function.update_of_ne (hslab a ha)] at hx
      exact hcons (h.next a ha x hx)
  · have hx : Function.update s.slabList.prev b.slab none a.slab = some x := hx
    rcases List.mem_cons.mp ha with rfl | ha
    · simp at hx
    · rw [Function.update_of_ne (hslab a ha)] at hx
      exact hcons (h.prev a ha x hx)

end Linked

/-! ### One call -/

/-- **Allocating from a list.** A call that returns has moved the first free chunk of a slab of the
cache into use, and has written no page. -/
theorem Linked.kmemCacheAllocFrom (h : s.Linked blocks) (ho : s.SlabsOk blocks F U)
    (hret : s.kmemCacheAllocFrom k c = some (y, s')) :
    s'.pageSlab = s.pageSlab ∧ s.SameLayout s' ∧ s'.Linked blocks ∧
      ∃ b ∈ blocks, b.cache = c ∧ ∃ G, F b.slab = y :: G ∧
        s'.SlabsOk blocks (Function.update F b.slab G)
          (Function.update U b.slab (y :: U b.slab)) := by
  cases hhead : (s.caches c).slabs k with
  | none => simp [SlabState.kmemCacheAllocFrom, listPopFront, hhead] at hret
  | some x =>
    obtain ⟨b, hb, rfl, rfl⟩ := h.head (c, k) x hhead
    have hok := ho.slabOk b hb
    cases hfree : (s.slab b.slab).freelist with
    | none =>
      have hget : (s.setList b.cache k (s.slabList.next b.slab)
          ((s.caches b.cache).count k - 1)).kmemGetChunkFromSlab b.slab = none := by
        rw [kmemGetChunkFromSlab, slistPopFront]
        change Option.map _ (Option.map _ (s.slab b.slab).freelist) = _
        rw [hfree]
        rfl
      simp [SlabState.kmemCacheAllocFrom, listPopFront, hhead, hget] at hret
    | some z =>
      rw [kmemCacheAllocFrom_eq hhead hok.cache hfree] at hret
      obtain ⟨rfl, rfl⟩ := Prod.mk.inj (Option.some.inj hret)
      obtain ⟨G, hF⟩ : ∃ G, F b.slab = z :: G := by
        have hwalk := hok.free
        rw [hfree] at hwalk
        cases hF : F b.slab with
        | nil => simp [hF] at hwalk
        | cons w G =>
          rw [hF, walk_cons] at hwalk
          exact ⟨G, by rw [Option.some.inj hwalk.1]⟩
      have hok' : s.SlabOk b (z :: G) (U b.slab) := hF ▸ hok
      have hlay : s.SameLayout (s.takeChunk b k z) := sameLayout_takeChunk
      have hmove := ho.move hb hlay (fun x hx => Function.update_of_ne hx _ _) rfl (fun _ _ => rfl)
        hok'.takeChunk
      have hlink : (s.takeChunk b k z).Linked blocks :=
        (h.popSlab (k := k) (m := (s.caches b.cache).count k - 1) hb).congr rfl rfl
      exact ⟨rfl, hlay.trans (sameLayout_pushSlab _ ((s.takeChunk b k z).listOf b) _),
        hlink.pushSlab hmove hb _, b, hb, rfl, G, hF, hmove.pushSlab _ _⟩

/-- **Freeing a chunk in use.** -/
theorem Linked.kmemCacheFree (h : s.Linked blocks) (ho : s.SlabsOk blocks F U) (hb : b ∈ blocks)
    (hy : y ∈ U b.slab) (hret : s.kmemCacheFree b.cache y = some s') :
    s'.pageSlab = s.pageSlab ∧ s.SameLayout s' ∧ s'.Linked blocks ∧
      s'.SlabsOk blocks (Function.update F b.slab (y :: F b.slab))
        (Function.update U b.slab ((U b.slab).erase y)) := by
  have hok := ho.slabOk b hb
  have hpages : s.hhdmToPage y ∈ s.pages b := hok.mem_pages (by simp [hy])
  rw [SlabState.kmemCacheFree, kmemCacheFreeNolock_eq (hok.pageSlab _ hpages) hok hy] at hret
  obtain rfl := Option.some.inj hret
  have hlay : s.SameLayout (s.giveChunk b y) := sameLayout_giveChunk
  have hmove := ho.move hb hlay (fun x hx => Function.update_of_ne hx _ _) rfl (fun z hz => by
    refine Function.update_of_ne ?_ _ _
    rintro rfl
    exact hz hpages) (hok.giveChunk hy)
  have hlink : (s.giveChunk b y).Linked blocks :=
    (h.removeSlab ho hb (s.listOf b).2).congr rfl rfl
  exact ⟨rfl, hlay.trans (sameLayout_pushSlab _ ((s.giveChunk b y).listOf b) _),
    hlink.pushSlab hmove hb _, hmove.pushSlab _ _⟩

/-- **`kmem_cache_alloc` without a new slab.** -/
theorem Linked.kmemCacheAlloc {newPage newSlab r : Option ℕ} (h : s.Linked blocks)
    (ho : s.SlabsOk blocks F U) (hneeds : ¬ s.NeedsSlab c)
    (hret : s.kmemCacheAlloc c newPage newSlab = some (r, s')) :
    s'.pageSlab = s.pageSlab ∧ s.SameLayout s' ∧ s'.Linked blocks ∧ ∃ y F' U', r = some y ∧
      s'.SlabsOk blocks F' U' ∧
        ∀ d z, Used blocks U' d z ↔ (d = c ∧ z = y) ∨ Used blocks U d z := by
  obtain ⟨k, y, hfrom, rfl⟩ : ∃ k y, s.kmemCacheAllocFrom k c = some (y, s') ∧ r = some y := by
    rw [SlabState.kmemCacheAlloc, kmemCacheAllocNolock] at hret
    split_ifs at hret with hpart hempty
    · obtain ⟨⟨y, st⟩, hst, hr⟩ := Option.map_eq_some_iff.mp hret
      obtain ⟨rfl, rfl⟩ := Prod.mk.inj hr
      exact ⟨.part, y, hst, rfl⟩
    · obtain ⟨⟨y, st⟩, hst, hr⟩ := Option.map_eq_some_iff.mp hret
      obtain ⟨rfl, rfl⟩ := Prod.mk.inj hr
      exact ⟨.empty, y, hst, rfl⟩
    · exact absurd ⟨not_not.mp hpart, not_not.mp hempty⟩ hneeds
  obtain ⟨hpage, hlay, hlink, b, hb, rfl, G, -, hok⟩ := h.kmemCacheAllocFrom ho hfrom
  exact ⟨hpage, hlay, hlink, y, _, _, rfl, hok, fun d z => ho.used_cons hb⟩

/-- Without a block of pages, `kmem_cache_new_empty` ends without a value. -/
theorem kmemCacheAlloc_none {newSlab : Option ℕ} (hneeds : s.NeedsSlab c) :
    s.kmemCacheAlloc c none newSlab = none := by
  rw [SlabState.kmemCacheAlloc, kmemCacheAllocNolock, if_neg (by simpa using hneeds.1),
    if_neg (by simpa using hneeds.2)]
  rfl

/-- **`kmem_cache_alloc` with a new slab**, from a fresh block of pages and a fresh `struct slab`. -/
theorem Linked.kmemCacheAlloc_new {r : Option ℕ} (h : s.Linked blocks)
    (ho : s.SlabsOk blocks F U) (hneeds : s.NeedsSlab b.cache)
    (hwf : (s.caches b.cache).WellFormed) (hslab : ∀ a ∈ blocks, a.slab ≠ b.slab)
    (hpages : ∀ a ∈ blocks, Disjoint (s.pages a) (s.pages b))
    (hret : s.kmemCacheAlloc b.cache (some b.page) (some b.slab) = some (r, s')) :
    s'.pageSlab = s.assignPages b.page b.slab (1 <<< (s.caches b.cache).order) ∧
      s.SameLayout s' ∧ s'.Linked (b :: blocks) ∧ ∃ y F' U', r = some y ∧
      s'.SlabsOk (b :: blocks) F' U' ∧
        ∀ d z, Used (b :: blocks) U' d z ↔ (d = b.cache ∧ z = y) ∨ Used blocks U d z := by
  have hbuild := (ho.buildSlab hwf hslab hpages).pushSlab (b.cache, .empty) b.slab
  have hlay := (sameLayout_buildSlab (s := s) (b := b)).trans
    (sameLayout_pushSlab _ (b.cache, .empty) b.slab)
  have hlink := (h.buildSlab hslab).pushSlab (ho.buildSlab hwf hslab hpages) (.head _) .empty
  rw [SlabState.kmemCacheAlloc, kmemCacheAllocNolock, if_neg (by simpa using hneeds.1),
    if_neg (by simpa using hneeds.2), kmemCacheNewEmpty_eq] at hret
  obtain ⟨⟨y, st⟩, hst, hr⟩ := Option.map_eq_some_iff.mp hret
  obtain ⟨rfl, rfl⟩ := Prod.mk.inj hr
  obtain ⟨hpage, hlay', hlink', a, ha, hac, G, -, hok⟩ := hlink.kmemCacheAllocFrom hbuild hst
  refine ⟨hpage, hlay.trans hlay', hlink', y, _, _, rfl, hok, fun d z => ?_⟩
  rw [hbuild.used_cons ha, used_build hslab, hac]

end SlabState

end GoofyOs
