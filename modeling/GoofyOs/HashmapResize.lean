import GoofyOs.ForMathlib.Buckets
import GoofyOs.HashmapHeap
import Mathlib.Data.Sum.Basic

/-!
# Resizing the hash map of `dsa/hashmap.c`

`hmap_resize` pops every entry from its bucket and pushes it to a bucket of a new array. But
`dlist_back_pop` returns the entry, and not the node that `hmap_resize` takes it for, so that what
is pushed is the first field of the entry, its hash, read as an address, and the bucket is that of
the hash found at this address. Memory has an entry at every address here, so the loop goes on.

## Main definitions

* `HmapState.hmapResizeMem` — the function, with the loops `drain` and `drainAll`
* `HmapState.storedEntries` — the entries in the buckets
* `HmapState.ResizedTo` — what a resize is to do

## Main results

* `HmapState.Rep.hmapResizeMem` — what the loops do
* `hmapResize_iff` — when a resize keeps the map
-/

namespace GoofyOs

open LinkedList Buckets

namespace HmapState

/-! ### The source -/

/-- The nodes, the old array and the new one. -/
structure ResizeState where
  node : ℕ → Dnode ℕ
  buf : ℕ → Dlist
  new : ℕ → Dlist

/-- The body of the inner loop of `hmap_resize`, when `kzalloc` returns `newNode`. -/
def resizeBody (ent : ℕ → HmapEntry) (size i newNode : ℕ) (r : ResizeState) :
    Option ResizeState := do
  let (node, curr, head) ← dlistBackPop r.node (r.buf i)
  -- `head->value` is the first field of what is really an entry
  let e := (ent head).hash.toNat
  let j := (ent e).hash.toNat % (size * 2)
  let (node, bucket) := dlistBackPush node (r.new j) e newNode
  some ⟨node, Function.update r.buf i curr, Function.update r.new j bucket⟩

/-- The inner loop of `hmap_resize`, with the addresses that `kzalloc` is going to return. Those
that are left are returned. -/
def drain (ent : ℕ → HmapEntry) (size i : ℕ) : List ℕ → ResizeState → Option (ResizeState × List ℕ)
  | [], r => if (r.buf i).count = 0 then some (r, []) else none
  | newNode :: news, r =>
    if (r.buf i).count = 0 then some (r, newNode :: news)
    else (resizeBody ent size i newNode r).bind fun r => drain ent size i news r

/-- The outer loop of `hmap_resize`. -/
def drainAll (ent : ℕ → HmapEntry) (size : ℕ) :
    List ℕ → List ℕ → ResizeState → Option (ResizeState × List ℕ)
  | [], news, r => some (r, news)
  | i :: is, news, r => (drain ent size i news r).bind fun p => drainAll ent size is p.2 p.1

/-- `hmap_resize`, reading entries from wherever it is led. -/
def hmapResizeMem (s : HmapState) (news : List ℕ) : Option HmapState :=
  (drainAll s.ent s.size (List.range s.size) news ⟨s.node, s.buf, fun _ => ⟨0, none, none⟩⟩).map
    fun p => { s with size := s.size * 2, buf := p.1.new, node := p.1.node }

/-! ### What the buckets hold -/

/-- The first `k` nodes from a pointer on. -/
def nodesFrom (next : ℕ → Option ℕ) : ℕ → Option ℕ → List ℕ
  | 0, _ => []
  | _, none => []
  | k + 1, some x => x :: nodesFrom next k (next x)

/-- The nodes of a bucket. -/
def bucketNodes (s : HmapState) (i : ℕ) : List ℕ := nodesFrom s.next (s.buf i).count (s.buf i).head

/-- The entries of a bucket. -/
def pointers (s : HmapState) (i : ℕ) : List ℕ := (s.bucketNodes i).map fun x => (s.node x).value

/-- The entries in the buckets. -/
def storedEntries (s : HmapState) : List ℕ := (List.range s.size).flatMap s.pointers

/-- The nodes in the order in which `hmap_resize` pops them. -/
def popOrder (s : HmapState) : List ℕ :=
  (List.range s.size).flatMap fun i => (s.bucketNodes i).reverse

/-- The addresses that `kzalloc` returns are those of no node in use. The nodes `olds` are going to
be popped, and freed, and the nodes `done` were pushed. -/
def FreshNews : List ℕ → List ℕ → List ℕ → Prop
  | [], _, _ => True
  | _ :: _, _, [] => False
  | _ :: olds, done, newNode :: news =>
    newNode ∉ olds ∧ newNode ∉ done ∧ FreshNews olds (newNode :: done) news

/-- **What a resize is to do**: the size is doubled, every entry is in the bucket of its hash and
nowhere else, and lookups return what they did. -/
structure ResizedTo (s s' : HmapState) : Prop where
  size : s'.size = s.size * 2
  placed : ∀ j, (s'.pointers j).Perm
    (s.storedEntries.filter fun e => (s.ent e).hash.toNat % (s.size * 2) = j)
  lookup : ∀ fuel key size, s.storedEntries.length < fuel → size < 2 ^ 31 →
    s'.hmapLookup fuel key size = s.hmapLookup fuel key size

variable {s s' : HmapState} {L N : ℕ → List ℕ} {h : Hashmap (List UInt8) (Option ℕ)}
  {r r' : ResizeState} {news olds done es rev is : List ℕ} {ent : ℕ → HmapEntry} {size i j n x : ℕ}
  {v : ℕ → ℕ}

theorem nodesFrom_of_walk {next : ℕ → Option ℕ} {p : Option ℕ} {xs : List ℕ} (h : Walk next p xs) :
    nodesFrom next xs.length p = xs := by
  induction xs generalizing p with
  | nil =>
    cases p with
    | none => rfl
    | some x => rfl
  | cons x xs ih =>
    obtain ⟨rfl, hw⟩ := h
    rw [List.length_cons, nodesFrom, ih hw]

theorem bucketNodes_of_rep {xs : List ℕ} (hr : Dlist.Rep s.node (s.buf i) xs) :
    s.bucketNodes i = xs := by
  rw [bucketNodes, hr.count]
  exact nodesFrom_of_walk hr.walk

theorem pointers_of_rep {xs : List ℕ} (hr : Dlist.Rep s.node (s.buf i) xs) :
    s.pointers i = xs.map fun x => (s.node x).value := by
  rw [pointers, bucketNodes_of_rep hr]

/-! ### The loops -/

/-- The entry to which the hash of an entry points. -/
def hashAddr (ent : ℕ → HmapEntry) (e : ℕ) : ℕ := (ent e).hash.toNat

/-- While `hmap_resize` runs: the old buckets have the nodes `L i` left, with their values, and the
new ones hold what was made of the entries `es`, in nodes of `done`. -/
structure Resizing (ent : ℕ → HmapEntry) (size : ℕ) (v : ℕ → ℕ) (r : ResizeState) (L N : ℕ → List ℕ)
    (es done : List ℕ) : Prop where
  family : Dlist.Family r.node (Sum.elim r.buf r.new) (Sum.elim L N)
  old : ∀ i, ∀ x ∈ L i, (r.node x).value = v x
  new : ∀ j, (N j).map (fun x => (r.node x).value) =
    (es.map (hashAddr ent)).filter fun e => hashAddr ent e % (size * 2) = j
  done : ∀ j, ∀ x ∈ N j, x ∈ done

/-- The nodes that are left after the last one of a bucket was popped. -/
theorem Resizing.mem_pop {xs : List ℕ} (hr : Resizing ent size v r L N es done)
    (hL : L i = xs ++ [x]) (k : ℕ) : ∀ y ∈ Function.update L i xs k, y ∈ L k ∧ y ≠ x := by
  intro y hy
  rcases eq_or_ne k i with rfl | hk
  · rw [Function.update_self] at hy
    have hrep : Dlist.Rep r.node (r.buf k) (xs ++ [x]) := hL ▸ hr.family.rep (Sum.inl k)
    refine ⟨hL ▸ List.mem_append_left _ hy, ?_⟩
    rintro rfl
    exact (List.nodup_append.mp hrep.nodup).2.2 y hy y (List.mem_singleton_self y) rfl
  · rw [Function.update_of_ne hk] at hy
    refine ⟨hy, ?_⟩
    rintro rfl
    have hx : y ∈ L i := by simp [hL]
    exact hk (Sum.inl.inj (hr.family.disj (i := Sum.inl k) (j := Sum.inl i) hy hx))

/-- Popping the last node of an old bucket. -/
theorem Resizing.pop {xs : List ℕ} {m : ℕ → Dnode ℕ} {d : Dlist}
    (hr : Resizing ent size v r L N es done) (hL : L i = xs ++ [x])
    (hremoved : Dlist.Removed r.node (r.buf i) xs x [] m d) :
    Resizing ent size v ⟨m, Function.update r.buf i d, r.new⟩ (Function.update L i xs) N es
      done where
  family := by
    have hL' : Sum.elim L N (Sum.inl i) = xs ++ x :: [] := hL
    have hfamily := hr.family.removed hL' hremoved
    rwa [List.append_nil, Sum.update_elim_inl, Sum.update_elim_inl] at hfamily
  old k y hy := (hremoved.value y).trans (hr.old k y (hr.mem_pop hL k y hy).1)
  new k := by
    simp only [hremoved.value]
    exact hr.new k
  done := hr.done

/-- Pushing a new node for an entry, with what its hash points to, to the new bucket of that. -/
theorem Resizing.push {a e : ℕ} (hr : Resizing ent size v r L N es done) (hold : ∀ k, n ∉ L k)
    (hdone : n ∉ done) (he : hashAddr ent a = e) (hj : hashAddr ent e % (size * 2) = j) :
    Resizing ent size v ⟨(dlistBackPush r.node (r.new j) e n).1, r.buf,
      Function.update r.new j (dlistBackPush r.node (r.new j) e n).2⟩ L
      (Function.update N j (N j ++ [n])) (es ++ [a]) (n :: done) where
  family := by
    have hfresh : ∀ k, n ∉ Sum.elim L N k := by
      rintro (k | k) hmem
      · exact hold k hmem
      · exact hdone (hr.done k n hmem)
    have hfamily := hr.family.backPush hfresh (Sum.inr j) e
    rwa [Sum.update_elim_inr, Sum.update_elim_inr] at hfamily
  old k y hy := by
    have hne : ¬ y = n := fun heq => hold k (heq ▸ hy)
    rw [Dlist.value_backPush, if_neg hne]
    exact hr.old k y hy
  new k := by
    have hkept : (N k).map (fun y => ((dlistBackPush r.node (r.new j) e n).1 y).value) =
        (N k).map fun y => (r.node y).value := by
      refine List.map_congr_left fun y hy => ?_
      have hne : ¬ y = n := fun heq => hdone (heq ▸ hr.done k y hy)
      rw [Dlist.value_backPush, if_neg hne]
    rw [List.map_append, List.filter_append, ← hr.new k, ← hkept, List.map_singleton, he]
    rcases eq_or_ne k j with rfl | hk
    · rw [Function.update_self, List.map_append, List.map_singleton, Dlist.value_backPush,
        if_pos rfl, List.filter_cons_of_pos (by simpa using hj)]
      rfl
    · have hother : ¬ hashAddr ent e % (size * 2) = k := fun heq => hk (heq.symm.trans hj)
      rw [Function.update_of_ne hk, List.filter_cons_of_neg (by simpa using hother),
        List.filter_nil, List.append_nil]
  done k y hy := by
    rcases eq_or_ne k j with rfl | hk
    · rw [Function.update_self] at hy
      rcases List.mem_append.mp hy with hy | hy
      · exact List.mem_cons_of_mem _ (hr.done _ y hy)
      · rw [List.mem_singleton.mp hy]
        exact List.mem_cons_self
    · rw [Function.update_of_ne hk] at hy
      exact List.mem_cons_of_mem _ (hr.done k y hy)

/-- One round of the inner loop. -/
theorem Resizing.body {xs : List ℕ} (hr : Resizing ent size v r L N es done) (hL : L i = xs ++ [x])
    (hold : ∀ k, ∀ y ∈ L k, y ≠ x → n ≠ y) (hdone : n ∉ done) :
    ∃ r' N', resizeBody ent size i n r = some r' ∧
      Resizing ent size v r' (Function.update L i xs) N' (es ++ [v x]) (n :: done) := by
  have hrep : Dlist.Rep r.node (r.buf i) (xs ++ [x]) := hL ▸ hr.family.rep (Sum.inl i)
  obtain ⟨m, d, hpop, hremoved⟩ := hrep.backPop
  rw [hr.old i x (by simp [hL])] at hpop
  have hfresh : ∀ k, n ∉ Function.update L i xs k := by
    intro k hmem
    obtain ⟨hy, hne⟩ := hr.mem_pop hL k n hmem
    exact hold k n hy hne rfl
  refine ⟨_, _, ?_, (hr.pop hL hremoved).push hfresh hdone rfl rfl⟩
  rw [resizeBody, hpop]
  rfl

/-- **The inner loop** empties a bucket. -/
theorem Resizing.drain (hr : Resizing ent size v r L N es done) (hL : L i = rev.reverse)
    (hnews : FreshNews (rev ++ olds) done news) (holds : ∀ k, ∀ y ∈ L k, y ∈ rev ++ olds) :
    ∃ r' N' news' done', HmapState.drain ent size i news r = some (r', news') ∧
      Resizing ent size v r' (Function.update L i []) N' (es ++ rev.map v) done' ∧
      FreshNews olds done' news' ∧ ∀ k, ∀ y ∈ Function.update L i [] k, y ∈ olds := by
  induction rev generalizing r L N es done news with
  | nil =>
    have hcount : (r.buf i).count = 0 := by
      have hrep : Dlist.Rep r.node (r.buf i) (L i) := hr.family.rep (Sum.inl i)
      rw [hrep.count, hL]
      rfl
    have hsame : Function.update L i [] = L := by
      rw [← List.reverse_nil, ← hL, Function.update_eq_self]
    refine ⟨r, N, news, done, ?_, ?_, hnews, ?_⟩
    · cases news with
      | nil => rw [HmapState.drain, if_pos hcount]
      | cons n news => rw [HmapState.drain, if_pos hcount]
    · rw [hsame, List.map_nil, List.append_nil]
      exact hr
    · rw [hsame]
      exact holds
  | cons x rev ih =>
    rw [List.reverse_cons] at hL
    cases news with
    | nil => exact absurd hnews (by simp [FreshNews])
    | cons n news =>
      obtain ⟨hn, hdone, hnews⟩ := hnews
      have hcount : (r.buf i).count ≠ 0 := by
        have hrep : Dlist.Rep r.node (r.buf i) (L i) := hr.family.rep (Sum.inl i)
        rw [hrep.count, hL]
        simp
      have hmem : ∀ k, ∀ y ∈ L k, y ≠ x → y ∈ rev ++ olds := by
        intro k y hy hne
        exact (List.mem_cons.mp (holds k y hy)).resolve_left hne
      obtain ⟨r₁, N₁, hbody, hr₁⟩ := hr.body hL
        (fun k y hy hne heq => hn (by rw [heq]; exact hmem k y hy hne)) hdone
      have holds₁ : ∀ k, ∀ y ∈ Function.update L i rev.reverse k, y ∈ rev ++ olds := by
        intro k y hy
        obtain ⟨hy, hne⟩ := hr.mem_pop hL k y hy
        exact hmem k y hy hne
      obtain ⟨r', N', news', done', hdrain, hr', hnews', holds'⟩ :=
        ih hr₁ (Function.update_self _ _ _) hnews holds₁
      rw [Function.update_idem] at hr' holds'
      refine ⟨r', N', news', done', ?_, ?_, hnews', holds'⟩
      · rw [HmapState.drain, if_neg hcount, hbody]
        exact hdrain
      · rw [List.append_assoc, List.singleton_append] at hr'
        exact hr'

/-- **The outer loop** empties the buckets in order. -/
theorem Resizing.drainAll (hr : Resizing ent size v r L N es done) (his : is.Nodup)
    (hnews : FreshNews (is.flatMap fun i => (L i).reverse) done news)
    (holds : ∀ k, ∀ y ∈ L k, y ∈ is.flatMap fun i => (L i).reverse) :
    ∃ r' L' N' news' done', HmapState.drainAll ent size is news r = some (r', news') ∧
      Resizing ent size v r' L' N' (es ++ (is.flatMap fun i => (L i).reverse).map v) done' := by
  induction is generalizing r L N es done news with
  | nil =>
    refine ⟨r, L, N, news, done, rfl, ?_⟩
    rwa [List.flatMap_nil, List.map_nil, List.append_nil]
  | cons i is ih =>
    obtain ⟨hi, his⟩ := List.nodup_cons.mp his
    rw [List.flatMap_cons] at hnews holds
    obtain ⟨r₁, N₁, news₁, done₁, hdrain, hr₁, hnews₁, holds₁⟩ :=
      hr.drain (List.reverse_reverse _).symm hnews holds
    -- the other buckets are as they were
    have hsame : (is.flatMap fun k => (Function.update L i [] k).reverse) =
        is.flatMap fun k => (L k).reverse := by
      refine List.flatMap_congr fun k hk => ?_
      rw [Function.update_of_ne]
      rintro rfl
      exact hi hk
    rw [← hsame] at hnews₁ holds₁
    obtain ⟨r', L', N', news', done', hall, hr'⟩ := ih hr₁ his hnews₁ holds₁
    refine ⟨r', L', N', news', done', ?_, ?_⟩
    · rw [HmapState.drainAll, hdrain]
      exact hall
    · rw [hsame, List.append_assoc, ← List.map_append] at hr'
      rw [List.flatMap_cons]
      exact hr'

/-- **What `hmap_resize` does**: the new buckets hold what the hashes of the entries point to, each
in the bucket of the hash found there. -/
theorem Rep.hmapResizeMem (hr : s.Rep L h) (hL : ∀ i, s.size ≤ i → L i = [])
    (hnews : FreshNews s.popOrder [] news) :
    ∃ s' N, s.hmapResizeMem news = some s' ∧ s'.size = s.size * 2 ∧ s'.count = s.count ∧
      s'.ent = s.ent ∧ s'.mem = s.mem ∧ Dlist.Family s'.node s'.buf N ∧
      ∀ j, s'.pointers j = ((s.popOrder.map fun x => (s.node x).value).map (hashAddr s.ent)).filter
        fun e => hashAddr s.ent e % (s.size * 2) = j := by
  have hpop : s.popOrder = (List.range s.size).flatMap fun i => (L i).reverse := by
    rw [popOrder]
    exact List.flatMap_congr fun i _ => by rw [bucketNodes_of_rep (hr.bucket i)]
  have hstart : Resizing s.ent s.size (fun x => (s.node x).value)
      ⟨s.node, s.buf, fun _ => ⟨0, none, none⟩⟩ L (fun _ => []) [] [] := by
    refine ⟨⟨?_, ?_⟩, fun _ _ _ => rfl, fun _ => rfl, fun _ x hx => absurd hx List.not_mem_nil⟩
    · rintro (i | j)
      · exact hr.bucket i
      · exact Dlist.rep_empty _
    · rintro (i | i) (j | j) x hi hj
      · rw [hr.disj hi hj]
      · exact absurd hj List.not_mem_nil
      · exact absurd hi List.not_mem_nil
      · exact absurd hi List.not_mem_nil
  rw [hpop] at hnews ⊢
  have holds : ∀ k, ∀ y ∈ L k, y ∈ (List.range s.size).flatMap fun i => (L i).reverse := by
    intro k y hy
    by_cases hk : k < s.size
    · exact List.mem_flatMap.mpr ⟨k, List.mem_range.mpr hk, List.mem_reverse.mpr hy⟩
    · rw [hL k (Nat.le_of_not_lt hk)] at hy
      exact absurd hy List.not_mem_nil
  obtain ⟨r', L', N, news', done', hall, hr'⟩ := hstart.drainAll List.nodup_range hnews holds
  have hfamily : Dlist.Family r'.node r'.new N :=
    ⟨fun j => hr'.family.rep (Sum.inr j),
      fun hi hj => Sum.inr.inj (hr'.family.disj (i := Sum.inr _) (j := Sum.inr _) hi hj)⟩
  refine ⟨{ s with size := s.size * 2, buf := r'.new, node := r'.node }, N, ?_, rfl, rfl, rfl, rfl,
    hfamily, fun j => ?_⟩
  · rw [HmapState.hmapResizeMem, hall]
    rfl
  · have hnew := hr'.new j
    rw [List.nil_append] at hnew
    exact (pointers_of_rep (hfamily.rep j)).trans hnew

/-! ### The entries -/

/-- The entry at an address, with the bytes of its key. -/
def entryOfPtr (s : HmapState) (e : ℕ) : HashmapEntry (List UInt8) (Option ℕ) :=
  ⟨(s.ent e).hash, keyBytes s.mem (s.ent e).key (s.ent e).keySize, (s.ent e).value⟩

variable {as : List (List UInt8 × Option ℕ)} {news : List ℕ}

theorem Rep.bucket_eq (hr : s.Rep L h) (i : ℕ) : h.buf i = (s.pointers i).map s.entryOfPtr := by
  rw [hr.entries, pointers_of_rep (hr.bucket i), List.map_map]
  rfl

theorem slot_lt (hf : h.Fixed) (key : List UInt8) : h.slot key < h.size := Nat.mod_lt _ hf.2

/-- Only the buckets of the table have nodes. -/
theorem Rep.eq_nil_of_size_le (hr : s.Rep L h) (href : h.Refines as) (hi : s.size ≤ i) :
    L i = [] := by
  have hbuf : h.buf i = [] := by
    rw [href.buf, List.map_eq_nil_iff, List.filter_eq_nil_iff]
    intro a _ hslot
    have hlt := slot_lt href.fixed a.1
    rw [hr.size] at hlt
    have := of_decide_eq_true hslot
    omega
  rw [hr.entries] at hbuf
  exact List.map_eq_nil_iff.mp hbuf

/-- **The buckets hold the entries of the association list.** -/
theorem Rep.stored_perm (hr : s.Rep L h) (href : h.Refines as) :
    (s.storedEntries.map s.entryOfPtr).Perm (as.map Hashmap.entryOf) := by
  have hflat : s.storedEntries.map s.entryOfPtr =
      ((List.range s.size).flatMap fun i => as.filter fun a => h.slot a.1 = i).map
        Hashmap.entryOf := by
    rw [storedEntries, List.map_flatMap, List.map_flatMap]
    exact List.flatMap_congr fun i _ => by rw [← hr.bucket_eq, href.buf]
  rw [hflat]
  refine (perm_flatMap_filter fun a _ => ?_).map _
  rw [← hr.size]
  exact slot_lt href.fixed a.1

theorem Rep.length_stored (hr : s.Rep L h) (href : h.Refines as) :
    s.storedEntries.length = as.length := by
  have hlen := (hr.stored_perm href).length_eq
  rwa [List.length_map, List.length_map] at hlen

/-! ### When a resize keeps the map -/

/-- The table that the nodes `N j` of the buckets stand for. -/
def tableOf (s : HmapState) (N : ℕ → List ℕ) : Hashmap (List UInt8) (Option ℕ) :=
  ⟨s.size, s.count, fun j => (N j).map s.entryAt⟩

theorem rep_tableOf (hfamily : Dlist.Family s.node s.buf N) : s.Rep N (s.tableOf N) :=
  ⟨rfl, rfl, hfamily.rep, hfamily.disj, fun _ => rfl⟩

theorem Rep.length_bucket (hr : s.Rep L h) (i : ℕ) : (L i).length = (h.buf i).length := by
  rw [hr.entries, List.length_map]

/-- The buckets of another size hold the entries of the association list. -/
theorem Rep.bucket_perm_of_placed (hr : s.Rep L h) (href : h.Refines as) (hent : s'.ent = s.ent)
    (hmem : s'.mem = s.mem) {h' : Hashmap (List UInt8) (Option ℕ)} (hr' : s'.Rep N h')
    (hplaced : (s'.pointers j).Perm
      (s.storedEntries.filter fun e => (s.ent e).hash.toNat % (s.size * 2) = j)) :
    (h'.buf j).Perm
      ((as.map Hashmap.entryOf).filter fun e => e.hash.toNat % (s.size * 2) = j) := by
  have hptr : s'.entryOfPtr = s.entryOfPtr := by
    funext e
    rw [entryOfPtr, entryOfPtr, hent, hmem]
  have hfilter : (s.storedEntries.filter fun e => (s.ent e).hash.toNat % (s.size * 2) = j).map
      s.entryOfPtr =
      (s.storedEntries.map s.entryOfPtr).filter fun e => e.hash.toNat % (s.size * 2) = j := by
    rw [List.filter_map]
    rfl
  rw [hr'.bucket_eq, hptr]
  refine (hplaced.map _).trans ?_
  rw [hfilter]
  exact (hr.stored_perm href).filter _

/-- There is one entry with a key at most. -/
theorem entryOf_inj (hkeys : (as.map Prod.fst).Nodup) {k : List UInt8}
    {a b : HashmapEntry (List UInt8) (Option ℕ)} (ha : a ∈ as.map Hashmap.entryOf)
    (hb : b ∈ as.map Hashmap.entryOf) (hak : a.key = k) (hbk : b.key = k) : a = b := by
  obtain ⟨a₀, ha₀, rfl⟩ := List.mem_map.mp ha
  obtain ⟨b₀, hb₀, rfl⟩ := List.mem_map.mp hb
  have hkey : a₀.1 = b₀.1 := hak.trans hbk.symm
  rw [List.inj_on_of_nodup_map hkeys ha₀ hb₀ hkey]

/-- Lookups in a table with the entries in the buckets of another size. -/
theorem Rep.lookup_of_placed (hr : s.Rep L h) (href : h.Refines as)
    (hkeys : (as.map Prod.fst).Nodup) (hsize : s'.size = s.size * 2) (hent : s'.ent = s.ent)
    (hmem : s'.mem = s.mem) (hfamily : Dlist.Family s'.node s'.buf N)
    (hplaced : ∀ j, (s'.pointers j).Perm
      (s.storedEntries.filter fun e => (s.ent e).hash.toNat % (s.size * 2) = j))
    {fuel key size : ℕ} (hfuel : s.storedEntries.length < fuel) (hlt : size < 2 ^ 31) :
    s'.hmapLookup fuel key size = s.hmapLookup fuel key size := by
  have hr' := rep_tableOf hfamily
  have hbucket := fun j => hr.bucket_perm_of_placed href hent hmem hr' (hplaced j)
  rw [hr.length_stored href] at hfuel
  have hfuel' : ∀ j, (N j).length < fuel := by
    intro j
    have hle := List.length_filter_le (fun e => decide (e.hash.toNat % (s.size * 2) = j))
      (as.map Hashmap.entryOf)
    rw [← (hbucket j).length_eq, ← hr'.length_bucket, List.length_map] at hle
    omega
  have hfuelL : ∀ j, (L j).length < fuel := by
    intro j
    have hle := List.length_filter_le (fun a => decide (h.slot a.1 = j)) as
    rw [hr.length_bucket, href.buf, List.length_map]
    omega
  rw [hr'.hmapLookup hlt (hfuel' _), hr.hmapLookup hlt (hfuelL _), hmem, href.hmapLookup]
  refine congrArg (fun o => some (Option.join o)) ?_
  generalize keyBytes s.mem key size = k
  rw [Hashmap.hmapLookup, ← find?_of_perm (hbucket _).symm fun a ha b hb hak hbk =>
      entryOf_inj hkeys (List.mem_of_mem_filter ha) (List.mem_of_mem_filter hb)
        (of_decide_eq_true hak) (of_decide_eq_true hbk),
    List.find?_filter, List.find?_map, Option.map_map, Hashmap.assocLookup]
  refine congrArg _ (List.find?_congr fun a _ => ?_)
  by_cases ha : a.1 = k
  · -- its hash is that of the key
    have hslot : (s'.tableOf N).slot k = (fnvaHash k).toNat % (s.size * 2) := by
      rw [← hsize]
      rfl
    simp [Hashmap.entryOf, ha, hslot, HashKey.bytes]
  · simp [Hashmap.entryOf, ha]

/-- The buckets are right just when the hashes of the entries are their addresses again. -/
theorem placed_iff (hpointers : ∀ j, s'.pointers j =
      ((s.popOrder.map fun x => (s.node x).value).map (hashAddr s.ent)).filter
        fun e => hashAddr s.ent e % (s.size * 2) = j) :
    (∀ j, (s'.pointers j).Perm
      (s.storedEntries.filter fun e => (s.ent e).hash.toNat % (s.size * 2) = j)) ↔
    (s.storedEntries.map (hashAddr s.ent)).Perm s.storedEntries := by
  have hpop : (s.popOrder.map fun x => (s.node x).value).Perm s.storedEntries := by
    rw [popOrder, storedEntries, List.map_flatMap]
    refine List.Perm.flatMap_left _ fun i _ => ?_
    rw [pointers, List.map_reverse]
    exact List.reverse_perm _
  simp only [hpointers]
  rw [← (hpop.map (hashAddr s.ent)).congr_left]
  exact (perm_iff_forall_filter (f := fun e => hashAddr s.ent e % (s.size * 2))).symm

/-- **A resize** doubles the size, and keeps the map just when the hashes of the entries are their
addresses again. -/
theorem Rep.resizedTo_iff (hr : s.Rep L h) (href : h.Refines as) (hkeys : (as.map Prod.fst).Nodup)
    (hnews : FreshNews s.popOrder [] news) :
    ∃ s', s.hmapResizeMem news = some s' ∧ s'.size = s.size * 2 ∧
      (ResizedTo s s' ↔ (s.storedEntries.map (hashAddr s.ent)).Perm s.storedEntries) := by
  obtain ⟨s', N, hresize, hsize, -, hent, hmem, hfamily, hpointers⟩ :=
    hr.hmapResizeMem (fun i hi => hr.eq_nil_of_size_le href hi) hnews
  refine ⟨s', hresize, hsize, ?_⟩
  rw [← placed_iff hpointers]
  constructor
  · exact fun hto => hto.placed
  · exact fun hplaced => ⟨hsize, hplaced, fun fuel key size hfuel hlt =>
      hr.lookup_of_placed href hkeys hsize hent hmem hfamily hplaced hfuel hlt⟩

/-- Without entries, it is the resize that stops at an entry. -/
theorem hmapResizeMem_of_empty (hempty : ∀ i < s.size, (s.buf i).count = 0) :
    s.hmapResizeMem news = s.hmapResize := by
  have hdrain : ∀ is : List ℕ, (∀ i ∈ is, (s.buf i).count = 0) →
      drainAll s.ent s.size is news ⟨s.node, s.buf, fun _ => ⟨0, none, none⟩⟩ =
        some (⟨s.node, s.buf, fun _ => ⟨0, none, none⟩⟩, news) := by
    intro is his
    induction is with
    | nil => rfl
    | cons i is ih =>
      obtain ⟨hi, his⟩ := List.forall_mem_cons.mp his
      have hone : drain s.ent s.size i news ⟨s.node, s.buf, fun _ => ⟨0, none, none⟩⟩ =
          some (⟨s.node, s.buf, fun _ => ⟨0, none, none⟩⟩, news) := by
        cases news with
        | nil => rw [drain, if_pos hi]
        | cons n news => rw [drain, if_pos hi]
      rw [drainAll, hone, Option.bind_some]
      exact ih his
  rw [hmapResizeMem, hdrain _ fun i hi => hempty i (List.mem_range.mp hi), hmapResize,
    if_pos hempty]
  rfl

end HmapState

/-! ### Whole runs -/

open HmapState

variable {s : HmapState} {fuel : ℕ} {calls : List HmapCall} {sys : HmapSys} {news : List ℕ}

/-- **Resizing** in every run of `hmap_add`, `hmap_lookup` and `hmap_remove` after `hmap_init`: the
function returns and doubles the size, and it keeps the map just when the hashes of the entries,
read as addresses, are the addresses of the entries, each of them once. -/
theorem hmapResize_iff (hfuel : calls.length + 1 < fuel)
    (hrun : Run (HmapSys.exec fuel) HmapSys.Allowed ⟨s.hmapInit, []⟩ calls sys)
    (hkeys : (sys.entries.map Prod.fst).Nodup) (hnews : FreshNews sys.st.popOrder [] news) :
    ∃ s', sys.st.hmapResizeMem news = some s' ∧ s'.size = sys.st.size * 2 ∧
      (ResizedTo sys.st s' ↔
        (sys.st.storedEntries.map fun e => (sys.st.ent e).hash.toNat).Perm
          sys.st.storedEntries) := by
  obtain ⟨L, h, hr, href, -⟩ := (HmapSys.holds_hmapInit s).run hrun (by omega)
  exact hr.resizedTo_iff href hkeys hnews

/-- The hash of the key in `equalKeys`, as an address. -/
def ownHash : ℕ := (fnvaHash [1]).toNat

/-- Adding one value, with the entry at the address that is its hash. -/
def ownHashAdded : HmapState := equalKeys.hmapInit.push 0 1 (some 7) ownHash 0

/-- The table with one entry, whose hash happens to be its address. -/
theorem hmapResize_iff_ownHash : ownHashAdded.storedEntries = [ownHash] ∧
    ∃ s', ownHashAdded.hmapResizeMem [1] = some s' ∧ s'.size = 340 ∧ ResizedTo ownHashAdded s' := by
  have hrun : Run (HmapSys.exec 4) HmapSys.Allowed ⟨equalKeys.hmapInit, []⟩
      [.add 0 1 (some 7) ownHash 0] ⟨ownHashAdded, [([1], some 7)]⟩ := by
    refine .cons ⟨by decide, fun x hx => ?_⟩ rfl (.nil _)
    obtain ⟨i, hx⟩ := (rep_hmapInit equalKeys).stored.mp hx
    exact absurd hx List.not_mem_nil
  have hpop : ownHashAdded.popOrder = [0] := by decide +kernel
  have hstored : ownHashAdded.storedEntries = [ownHash] := by decide +kernel
  have hhash : (ownHashAdded.ent ownHash).hash.toNat = ownHash := by decide +kernel
  have hfresh : FreshNews ownHashAdded.popOrder [] [1] := by
    rw [hpop]
    exact ⟨by decide, by decide, trivial⟩
  obtain ⟨s', hresize, hsize, hto⟩ :=
    hmapResize_iff (by decide) hrun (List.nodup_singleton _) hfresh
  refine ⟨hstored, s', hresize, hsize, hto.mpr ?_⟩
  show (ownHashAdded.storedEntries.map fun e => (ownHashAdded.ent e).hash.toNat).Perm
    ownHashAdded.storedEntries
  rw [hstored, List.map_singleton, hhash]

/-- Adding one value. -/
def oneKeyAdded : HmapState := equalKeys.hmapInit.push 0 1 (some 7) 0 0

/-- The table with one entry, which a resize takes for the address of another one. -/
theorem not_resizedTo_oneKey :
    Run (HmapSys.exec 4) HmapSys.Allowed ⟨equalKeys.hmapInit, []⟩ [.add 0 1 (some 7) 0 0]
      ⟨oneKeyAdded, [([1], some 7)]⟩ ∧
    FreshNews oneKeyAdded.popOrder [] [1] ∧
    ∃ s', oneKeyAdded.hmapResizeMem [1] = some s' ∧ ¬ ResizedTo oneKeyAdded s' := by
  have hrun : Run (HmapSys.exec 4) HmapSys.Allowed ⟨equalKeys.hmapInit, []⟩ [.add 0 1 (some 7) 0 0]
      ⟨oneKeyAdded, [([1], some 7)]⟩ := by
    refine .cons ⟨by decide, fun x hx => ?_⟩ rfl (.nil _)
    obtain ⟨i, hx⟩ := (rep_hmapInit equalKeys).stored.mp hx
    exact absurd hx List.not_mem_nil
  have hpop : oneKeyAdded.popOrder = [0] := by decide +kernel
  have hstored : oneKeyAdded.storedEntries = [0] := by decide +kernel
  have hfresh : FreshNews oneKeyAdded.popOrder [] [1] := by
    rw [hpop]
    exact ⟨by decide, by decide, trivial⟩
  obtain ⟨L, h, hr, href, -⟩ := (HmapSys.holds_hmapInit equalKeys).run hrun (by decide)
  obtain ⟨s', hresize, -, hto⟩ := hr.resizedTo_iff href (by decide) hfresh
  refine ⟨hrun, hfresh, s', hresize, fun hres => ?_⟩
  have hperm := hto.mp hres
  have haddr : hashAddr oneKeyAdded.ent 0 ≠ 0 := by decide +kernel
  rw [show (⟨oneKeyAdded, [([1], some 7)]⟩ : HmapSys).st = oneKeyAdded from rfl, hstored] at hperm
  exact haddr (by simpa using hperm)

end GoofyOs
