import GoofyOs.CInt
import GoofyOs.DlistFamily
import GoofyOs.ForMathlib.LinkedListLoop
import GoofyOs.ForMathlib.Run
import GoofyOs.Hashmap

/-!
# The hash map of `dsa/hashmap.c`, in memory

The buckets are double ended queues of pointers to entries, and an entry points to the bytes of its
key. `kzalloc` enters as the addresses it returns. The loops over a bucket follow the `next` pointers
and are given fuel.

## Main definitions

* `HmapState` — the table, the nodes of its buckets, the entries, and the bytes that keys point to
* `HmapState.hmapAdd`, `HmapState.hmapLookup`, `HmapState.hmapRemove` — the functions of the source
* `HmapState.Rep` — the table in memory stands for a `Hashmap`
* `HmapCall`, `HmapSys.exec` — one call, with the association list that is fed the same calls

## Main results

* `HmapState.Rep.hmapLookup`, `HmapState.Rep.hmapAdd`, `HmapState.Rep.hmapRemove` — the pointer loops
  do what the functions on `Hashmap` do
* `hmap_run_refines` — whole runs: the table answers as the association list does
-/

namespace GoofyOs

open LinkedList

/-- `struct hashmap_entry`, with the address of the key. -/
structure HmapEntry where
  hash : BitVec 64
  key : ℕ
  keySize : ℕ
  value : Option ℕ

/-- `struct hashmap` with the function `fnva_hash`, and the memory. -/
structure HmapState where
  size : ℕ
  count : ℕ
  buf : ℕ → Dlist
  node : ℕ → Dnode ℕ
  ent : ℕ → HmapEntry
  mem : ℕ → UInt8

/-- The bytes from an address on. -/
def keyBytes (mem : ℕ → UInt8) (key size : ℕ) : List UInt8 :=
  (List.range size).map fun i => mem (key + i)

/-- `memcmp`. -/
def memcmp (mem : ℕ → UInt8) : ℕ → ℕ → ℕ → ℤ
  | _, _, 0 => 0
  | str1, str2, n + 1 =>
    if charVal (mem str1) < charVal (mem str2) then -1
    else if charVal (mem str1) > charVal (mem str2) then 1
    else memcmp mem (str1 + 1) (str2 + 1) n

namespace HmapState

variable (s : HmapState)

/-- `curr->next`. -/
def next (curr : ℕ) : Option ℕ := (s.node curr).next

/-- `hmap_init`: one page of buckets, which `vzalloc` zeroes. -/
def hmapInit : HmapState :=
  { s with size := 0x1000 / 24, count := 0, buf := fun _ => ⟨0, none, none⟩ }

/-- `hmap_resize`. It takes the value that `dlist_back_pop` returns for a list node, so that an entry
to move makes it read the hash of the entry as a pointer. -/
def hmapResize : Option HmapState :=
  if ∀ i < s.size, (s.buf i).count = 0 then
    some { s with size := s.size * 2, buf := fun _ => ⟨0, none, none⟩ }
  else none

/-- The bucket of a key. -/
def slot (key size : ℕ) : ℕ := (fnvaHash (keyBytes s.mem key size)).toNat % s.size

/-- `hmap_add` after the resize, when `kzalloc` returns `newEnt` and `newNode`. -/
def push (key size : ℕ) (value : Option ℕ) (newEnt newNode : ℕ) : HmapState :=
  let hash := fnvaHash (keyBytes s.mem key size)
  let cur := s.slot key size
  let r := dlistBackPush s.node (s.buf cur) newEnt newNode
  { s with
    ent := Function.update s.ent newEnt ⟨hash, key, size, value⟩
    node := r.1
    buf := Function.update s.buf cur r.2 }

/-- `hmap_add`. -/
def hmapAdd (key size : ℕ) (value : Option ℕ) (newEnt newNode : ℕ) : Option HmapState :=
  if s.count ≥ s.size then (s.hmapResize).map fun s => s.push key size value newEnt newNode
  else some (s.push key size value newEnt newNode)

/-- The entry of a node has the key. `memcmp` takes an `int`. -/
def Matches (key size curr : ℕ) : Prop :=
  (s.ent (s.node curr).value).keySize = size ∧
    memcmp s.mem key (s.ent (s.node curr).value).key (asInt size).toNat = 0

instance (key size curr : ℕ) : Decidable (s.Matches key size curr) :=
  inferInstanceAs (Decidable (_ ∧ _))

/-- The body of the loop of `hmap_lookup`. -/
def lookupBody (key size : ℕ) (s : HmapState) (curr : ℕ) : HmapState × Option (Option ℕ) :=
  if s.Matches key size curr then (s, some (s.ent (s.node curr).value).value) else (s, none)

/-- `hmap_lookup`: the value, or the null pointer. -/
def hmapLookup (fuel key size : ℕ) : Option (Option ℕ) :=
  (forEach next (lookupBody key size) fuel s (s.buf (s.slot key size)).head).map fun r => r.2.join

/-- The body of the loop of `hmap_remove`. It leaves the loop with the state after the removal. -/
def removeBody (key size : ℕ) (s : HmapState) (curr : ℕ) : HmapState × Option (Option HmapState) :=
  if s.Matches key size curr then
    (s, some ((dlistRemoveItem s.node (s.buf (s.slot key size)) curr).map fun r =>
      { s with node := r.1, buf := Function.update s.buf (s.slot key size) r.2 }))
  else (s, none)

/-- `hmap_remove`. -/
def hmapRemove (fuel key size : ℕ) : Option HmapState := do
  let r ← forEach next (removeBody key size) fuel s (s.buf (s.slot key size)).head
  match r.2 with
  | some s => s
  | none => some r.1

/-! ### What the table stands for -/

variable {s}

/-- The entry of a node, with the bytes of its key. -/
def entryAt (s : HmapState) (x : ℕ) : HashmapEntry (List UInt8) (Option ℕ) :=
  ⟨(s.ent (s.node x).value).hash,
    keyBytes s.mem (s.ent (s.node x).value).key (s.ent (s.node x).value).keySize,
    (s.ent (s.node x).value).value⟩

instance : HashKey (List UInt8) := ⟨id⟩

/-- The buckets have the nodes `L i`, which hold the entries of the table `h`, and no node is in two
buckets. -/
structure Rep (s : HmapState) (L : ℕ → List ℕ) (h : Hashmap (List UInt8) (Option ℕ)) : Prop where
  size : h.size = s.size
  count : h.count = s.count
  bucket : ∀ i, Dlist.Rep s.node (s.buf i) (L i)
  disj : ∀ {i j x}, x ∈ L i → x ∈ L j → i = j
  entries : ∀ i, h.buf i = (L i).map s.entryAt

variable {L : ℕ → List ℕ} {h : Hashmap (List UInt8) (Option ℕ)} {fuel key size newEnt newNode : ℕ}
  {value : Option ℕ} {i x : ℕ}

theorem rep_hmapInit (s : HmapState) : s.hmapInit.Rep (fun _ => []) Hashmap.hmapInit where
  size := rfl
  count := rfl
  bucket _ := Dlist.rep_empty _
  disj hx := absurd hx List.not_mem_nil
  entries _ := rfl

theorem Rep.slot_eq (hr : s.Rep L h) (key size : ℕ) :
    h.slot (keyBytes s.mem key size) = s.slot key size := by
  rw [Hashmap.slot, hr.size]
  rfl

/-! ### Comparing keys -/

theorem keyBytes_succ (mem : ℕ → UInt8) (key n : ℕ) :
    keyBytes mem key (n + 1) = mem key :: keyBytes mem (key + 1) n := by
  rw [keyBytes, List.range_succ_eq_map, List.map_cons, List.map_map, keyBytes]
  refine congrArg _ (List.map_congr_left fun i _ => ?_)
  rw [Function.comp_apply, Nat.succ_eq_add_one, Nat.add_assoc, Nat.add_comm 1 i]

theorem length_keyBytes (mem : ℕ → UInt8) (key size : ℕ) : (keyBytes mem key size).length = size := by
  rw [keyBytes, List.length_map, List.length_range]

/-- **`memcmp`** returns zero on equal bytes only. -/
theorem memcmp_eq_zero {mem : ℕ → UInt8} {str1 str2 n : ℕ} :
    memcmp mem str1 str2 n = 0 ↔ keyBytes mem str1 n = keyBytes mem str2 n := by
  induction n generalizing str1 str2 with
  | zero => exact ⟨fun _ => rfl, fun _ => rfl⟩
  | succ n ih =>
    rw [keyBytes_succ, keyBytes_succ, List.cons.injEq, ← charVal_inj, memcmp]
    split
    · next hlt => exact ⟨fun h => absurd h (by decide), fun h => absurd h.1 (Int.ne_of_lt hlt)⟩
    · next hlt =>
      split
      · next hgt => exact ⟨fun h => absurd h (by decide), fun h => absurd h.1.symm (Int.ne_of_lt hgt)⟩
      · next hgt =>
        rw [ih, iff_and_self]
        exact fun _ => Int.le_antisymm (Int.not_lt.mp hgt) (Int.not_lt.mp hlt)

/-- The test of the loops, for a size that an `int` holds. -/
theorem matches_iff (hsize : size < 2 ^ 31) :
    s.Matches key size x ↔ (s.entryAt x).key = keyBytes s.mem key size := by
  have hint : asInt size = size := asInt_of_lt (by omega) (by omega)
  rw [Matches, hint, Int.toNat_natCast, memcmp_eq_zero]
  constructor
  · rintro ⟨hks, hkey⟩
    rw [hkey, ← hks]
    rfl
  · intro hkey
    have hks : (s.ent (s.node x).value).keySize = size := by
      have hlen := congrArg List.length hkey
      rwa [length_keyBytes, entryAt, length_keyBytes] at hlen
    refine ⟨hks, hkey.symm.trans ?_⟩
    rw [← hks]
    rfl

/-! ### Looking up -/

theorem forList_lookupBody (xs : List ℕ) : forList (lookupBody key size) s xs =
    (s, (xs.find? fun x => s.Matches key size x).map fun x => (s.ent (s.node x).value).value) := by
  induction xs with
  | nil => rfl
  | cons x xs ih =>
    rw [forList, lookupBody]
    by_cases hx : s.Matches key size x
    · rw [if_pos hx, List.find?_cons_of_pos (by simpa using hx)]
      rfl
    · rw [if_neg hx, List.find?_cons_of_neg (by simpa using hx)]
      exact ih

theorem next_lookupBody (s : HmapState) (x : ℕ) : (lookupBody key size s x).1.next = s.next := by
  rw [lookupBody]
  split
  · rfl
  · rfl

/-- **`hmap_lookup`** is the lookup in the table. -/
theorem Rep.hmapLookup (hr : s.Rep L h) (hsize : size < 2 ^ 31)
    (hfuel : (L (s.slot key size)).length < fuel) :
    s.hmapLookup fuel key size = some (h.hmapLookup (keyBytes s.mem key size)).join := by
  have hloop : forEach next (lookupBody key size) fuel s (s.buf (s.slot key size)).head =
      some (forList (lookupBody key size) s (L (s.slot key size))) :=
    forEach_eq_forList (fun s x _ => next_lookupBody s x) (hr.bucket (s.slot key size)).walk hfuel
  have hpred : (fun x => decide (s.Matches key size x)) =
      (fun ent : HashmapEntry (List UInt8) (Option ℕ) => decide (ent.key = keyBytes s.mem key size)) ∘
        s.entryAt := by
    funext x
    exact decide_eq_decide.mpr (matches_iff hsize)
  rw [HmapState.hmapLookup]
  show (forEach _ _ _ _ _).map _ = _
  rw [hloop, forList_lookupBody, Hashmap.hmapLookup, hr.slot_eq, hr.entries, List.find?_map,
    Option.map_map, hpred]
  rfl

/-! ### Adding -/

/-- The frame rule for entries. -/
theorem entryAt_congr {s' : HmapState} (hmem : s'.mem = s.mem)
    (hvalue : (s'.node x).value = (s.node x).value)
    (hent : s'.ent (s.node x).value = s.ent (s.node x).value) : s'.entryAt x = s.entryAt x := by
  rw [entryAt, entryAt, hmem, hvalue, hent]

theorem Rep.family (hr : s.Rep L h) : Dlist.Family s.node s.buf L := ⟨hr.bucket, hr.disj⟩

/-- **The insertion** of an entry, when the two allocations are fresh. -/
theorem Rep.push (hr : s.Rep L h) (key size : ℕ) (value : Option ℕ) (hnode : ∀ i, newNode ∉ L i)
    (hent : ∀ i, ∀ x ∈ L i, (s.node x).value ≠ newEnt) :
    (s.push key size value newEnt newNode).Rep
      (Function.update L (s.slot key size) (L (s.slot key size) ++ [newNode]))
      (h.push (keyBytes s.mem key size) value) := by
  have hold : ∀ i, ∀ x ∈ L i, (s.push key size value newEnt newNode).entryAt x = s.entryAt x := by
    intro i x hx
    have hne : ¬ x = newNode := fun heq => hnode i (heq ▸ hx)
    refine entryAt_congr rfl (Dlist.value_backPush.trans (if_neg hne)) ?_
    exact Function.update_of_ne (hent i x hx) _ _
  have hfamily := hr.family.backPush hnode (s.slot key size) newEnt
  refine ⟨hr.size, hr.count, hfamily.rep, hfamily.disj, fun i => ?_⟩
  · rw [Hashmap.buf_push, hr.slot_eq]
    by_cases hi : i = s.slot key size
    · subst hi
      rw [if_pos rfl, Function.update_self, List.map_append, hr.entries,
        List.map_congr_left (hold _)]
      refine congrArg _ (congrArg (fun e => [e]) ?_)
      have hvalue : ((s.push key size value newEnt newNode).node newNode).value = newEnt :=
        Dlist.value_backPush.trans (if_pos rfl)
      have hnew : (s.push key size value newEnt newNode).ent newEnt =
          ⟨fnvaHash (keyBytes s.mem key size), key, size, value⟩ := Function.update_self _ _ _
      rw [entryAt, hvalue, hnew]
      rfl
    · rw [if_neg hi, Function.update_of_ne hi, hr.entries]
      exact (List.map_congr_left (hold i)).symm

/-- **`hmap_add`** does not resize, and inserts. -/
theorem Rep.hmapAdd_eq (hr : s.Rep L h) (hf : h.Fixed) :
    s.hmapAdd key size value newEnt newNode = some (s.push key size value newEnt newNode) := by
  have hcount : ¬ s.count ≥ s.size := by
    rw [← hr.count, ← hr.size, hf.1]
    exact Nat.not_le.mpr hf.2
  rw [hmapAdd, if_neg hcount]

/-! ### Removing -/

theorem forList_removeBody_of_first {as bs : List ℕ} (hx : s.Matches key size x)
    (has : ∀ y ∈ as, ¬ s.Matches key size y) :
    forList (removeBody key size) s (as ++ x :: bs) =
      (s, some ((dlistRemoveItem s.node (s.buf (s.slot key size)) x).map fun r =>
        { s with node := r.1, buf := Function.update s.buf (s.slot key size) r.2 })) := by
  rw [forList_append_of_skip fun y hy => if_neg (has y hy)]
  exact forList_cons_of_exit (if_pos hx)

theorem next_removeBody (s : HmapState) (x : ℕ) : (removeBody key size s x).1.next = s.next := by
  rw [removeBody]
  split
  · rfl
  · rfl

/-- **`hmap_remove`** is the removal from the table. -/
theorem Rep.hmapRemove (hr : s.Rep L h) (key : ℕ) (hsize : size < 2 ^ 31)
    (hfuel : (L (s.slot key size)).length < fuel) :
    ∃ s' L', s.hmapRemove fuel key size = some s' ∧
      s'.Rep L' (h.hmapRemove (keyBytes s.mem key size)) ∧ s'.mem = s.mem ∧
      ∀ i, (L' i).length ≤ (L i).length := by
  have hloop : forEach next (removeBody key size) fuel s (s.buf (s.slot key size)).head =
      some (forList (removeBody key size) s (L (s.slot key size))) :=
    forEach_eq_forList (fun s x _ => next_removeBody s x) (hr.bucket (s.slot key size)).walk hfuel
  have hslot := hr.slot_eq key size
  have hentries := hr.entries (s.slot key size)
  rcases exists_first (s.Matches key size) (L (s.slot key size)) with hnone | ⟨as, x, bs, hL, hx, has⟩
  · -- no entry has the key
    refine ⟨s, L, ?_, ?_, rfl, fun _ => Nat.le_refl _⟩
    · rw [HmapState.hmapRemove]
      show (forEach _ _ _ _ _).bind _ = _
      rw [hloop, forList_of_skip fun y hy => if_neg (hnone y hy)]
      rfl
    · have hsame : h.hmapRemove (keyBytes s.mem key size) = h := by
        rw [Hashmap.hmapRemove, hslot, List.eraseP_of_forall_not, Function.update_eq_self]
        intro ent hmem
        rw [hentries] at hmem
        obtain ⟨y, hy, rfl⟩ := List.mem_map.mp hmem
        rw [decide_eq_true_iff, ← matches_iff hsize]
        exact hnone y hy
      rw [hsame]
      exact hr
  · have hb := hr.bucket (s.slot key size)
    rw [hL] at hb hloop hentries
    obtain ⟨m', d', hremove, hremoved⟩ := hb.exists_removed
    let s' : HmapState := { s with node := m', buf := Function.update s.buf (s.slot key size) d' }
    have hentry : ∀ y, s'.entryAt y = s.entryAt y := by
      intro y
      exact entryAt_congr rfl (hremoved.value y) rfl
    refine ⟨s', Function.update L (s.slot key size) (as ++ bs), ?_, ?_, rfl, fun i => ?_⟩
    · rw [HmapState.hmapRemove]
      show (forEach _ _ _ _ _).bind _ = _
      rw [hloop, forList_removeBody_of_first hx has, hremove]
      rfl
    · have hfamily := hr.family.removed hL hremoved
      refine ⟨hr.size, hr.count, hfamily.rep, hfamily.disj, fun i => ?_⟩
      · have hmap : (fun y => s'.entryAt y) = fun y => s.entryAt y := funext hentry
        show Function.update h.buf (h.slot _) _ i = List.map (fun y => s'.entryAt y) _
        rw [hmap, hslot, Function.update_apply, Function.update_apply]
        split
        · rw [hentries, List.map_append, List.map_cons, List.eraseP_append_right,
            List.eraseP_cons_of_pos, ← List.map_append]
          · rwa [decide_eq_true_iff, ← matches_iff hsize]
          · intro ent hmem
            obtain ⟨y, hy, rfl⟩ := List.mem_map.mp hmem
            rw [decide_eq_true_iff, ← matches_iff hsize]
            exact has y hy
        · exact hr.entries i
    · rcases eq_or_ne i (s.slot key size) with rfl | hi
      · rw [Function.update_self, hL]
        exact (List.Sublist.append_left (List.sublist_cons_self _ _) _).length_le
      · rw [Function.update_of_ne hi]

/-! ### Writing elsewhere -/

/-- The bucket `i` has the node `x`, for some `i`. -/
def Stored (s : HmapState) (x : ℕ) : Prop :=
  ∃ i xs, Walk s.next (s.buf i).head xs ∧ x ∈ xs

theorem Rep.stored (hr : s.Rep L h) : s.Stored x ↔ ∃ i, x ∈ L i := by
  constructor
  · rintro ⟨i, xs, hw, hx⟩
    exact ⟨i, hw.unique (hr.bucket i).walk ▸ hx⟩
  · rintro ⟨i, hx⟩
    exact ⟨i, L i, (hr.bucket i).walk, hx⟩

/-- Memory other than the bytes of the keys is free to change. -/
theorem Rep.write {mem : ℕ → UInt8} (hr : s.Rep L h)
    (hmem : ∀ x, s.Stored x → keyBytes mem (s.ent (s.node x).value).key
      (s.ent (s.node x).value).keySize = (s.entryAt x).key) :
    Rep { s with mem := mem } L h where
  size := hr.size
  count := hr.count
  bucket := hr.bucket
  disj := hr.disj
  entries i := by
    refine (hr.entries i).trans (List.map_congr_left fun x hx => ?_)
    show s.entryAt x = ⟨(s.ent (s.node x).value).hash, keyBytes mem _ _, _⟩
    rw [hmem x (hr.stored.mpr ⟨i, hx⟩)]
    rfl

end HmapState

/-! ### Whole runs -/

/-- One call, with the addresses that `kzalloc` returns, or a write to memory between calls. -/
inductive HmapCall
  | add (key size : ℕ) (value : Option ℕ) (newEnt newNode : ℕ)
  | lookup (key size : ℕ)
  | remove (key size : ℕ)
  | write (mem : ℕ → UInt8)

/-- The hash map, and the association list that is fed the same calls. -/
structure HmapSys where
  st : HmapState
  entries : List (List UInt8 × Option ℕ)

namespace HmapSys

open HmapState Hashmap

variable {sys sys' : HmapSys} {call : HmapCall} {calls : List HmapCall}
  {fuel n key size key' size' newEnt newNode : ℕ} {value : Option ℕ}

/-- One call. -/
def exec (fuel : ℕ) (sys : HmapSys) : HmapCall → Option HmapSys
  | .add key size value newEnt newNode =>
    (sys.st.hmapAdd key size value newEnt newNode).map fun s =>
      ⟨s, sys.entries ++ [(keyBytes sys.st.mem key size, value)]⟩
  | .lookup key size => (sys.st.hmapLookup fuel key size).map fun _ => sys
  | .remove key size =>
    (sys.st.hmapRemove fuel key size).map fun s =>
      ⟨s, assocRemove sys.entries (keyBytes sys.st.mem key size)⟩
  | .write mem => some { sys with st := { sys.st with mem := mem } }

/-- Sizes fit in an `int`, allocations are fresh, and the bytes of stored keys do not change. -/
def Allowed (sys : HmapSys) : HmapCall → Prop
  | .add _ size _ newEnt newNode =>
    size < 2 ^ 31 ∧ ∀ x, sys.st.Stored x → x ≠ newNode ∧ (sys.st.node x).value ≠ newEnt
  | .lookup _ size => size < 2 ^ 31
  | .remove _ size => size < 2 ^ 31
  | .write mem => ∀ x, sys.st.Stored x →
    keyBytes mem (sys.st.ent (sys.st.node x).value).key (sys.st.ent (sys.st.node x).value).keySize =
      (sys.st.entryAt x).key

/-- The buckets hold the entries of the list and no others, at most `n` each. -/
def Holds (sys : HmapSys) (n : ℕ) : Prop :=
  ∃ L h, sys.st.Rep L h ∧ h.Refines sys.entries ∧ ∀ i, (L i).length ≤ n

theorem holds_hmapInit (s : HmapState) : Holds ⟨s.hmapInit, []⟩ 0 :=
  ⟨_, _, rep_hmapInit s, refines_hmapInit, fun _ => Nat.le_refl 0⟩

/-- **`hmap_lookup`** answers as the association list. -/
theorem Holds.hmapLookup (hs : sys.Holds n) (key : ℕ) (hn : n < fuel) (hsize : size < 2 ^ 31) :
    sys.st.hmapLookup fuel key size =
      some (assocLookup sys.entries (keyBytes sys.st.mem key size)).join := by
  obtain ⟨L, h, hr, href, hlen⟩ := hs
  rw [hr.hmapLookup hsize (Nat.lt_of_le_of_lt (hlen _) hn), href.hmapLookup]

/-- **`hmap_add`** adds the entry at the end of the list. -/
theorem Holds.hmapAdd (hs : sys.Holds n) (key size : ℕ) (value : Option ℕ)
    (hfresh : ∀ x, sys.st.Stored x → x ≠ newNode ∧ (sys.st.node x).value ≠ newEnt) :
    ∃ s', sys.st.hmapAdd key size value newEnt newNode = some s' ∧ s'.mem = sys.st.mem ∧
      Holds ⟨s', sys.entries ++ [(keyBytes sys.st.mem key size, value)]⟩ (n + 1) := by
  obtain ⟨L, h, hr, href, hlen⟩ := hs
  refine ⟨_, hr.hmapAdd_eq href.fixed, rfl, _, _, hr.push _ _ value (fun i hi => ?_) fun i x hx => ?_,
    href.push _ _, fun i => ?_⟩
  · exact (hfresh newNode (hr.stored.mpr ⟨i, hi⟩)).1 rfl
  · exact (hfresh x (hr.stored.mpr ⟨i, hx⟩)).2
  · rcases eq_or_ne i (sys.st.slot key size) with rfl | hi
    · rw [Function.update_self, List.length_append]
      exact Nat.succ_le_succ (hlen _)
    · rw [Function.update_of_ne hi]
      exact Nat.le_succ_of_le (hlen i)

/-- **`hmap_remove`** removes the first entry of the key from the list. -/
theorem Holds.hmapRemove (hs : sys.Holds n) (key : ℕ) (hn : n < fuel) (hsize : size < 2 ^ 31) :
    ∃ s', sys.st.hmapRemove fuel key size = some s' ∧ s'.mem = sys.st.mem ∧
      Holds ⟨s', assocRemove sys.entries (keyBytes sys.st.mem key size)⟩ n := by
  obtain ⟨L, h, hr, href, hlen⟩ := hs
  obtain ⟨s', L', hexec, hr', hmem, hlen'⟩ :=
    hr.hmapRemove key hsize (Nat.lt_of_le_of_lt (hlen _) hn)
  exact ⟨s', hexec, hmem, L', _, hr', href.hmapRemove _, fun i => Nat.le_trans (hlen' i) (hlen i)⟩

/-- **One call** that is allowed returns, and adds at most one entry to a bucket. -/
theorem Holds.exec (hs : sys.Holds n) (hn : n < fuel) (hok : sys.Allowed call) :
    ∃ sys', sys.exec fuel call = some sys' ∧ sys'.Holds (n + 1) := by
  have hmono : ∀ {sys : HmapSys}, sys.Holds n → sys.Holds (n + 1) := by
    rintro sys ⟨L, h, hr, href, hlen⟩
    exact ⟨L, h, hr, href, fun i => Nat.le_succ_of_le (hlen i)⟩
  cases call with
  | add key size value newEnt newNode =>
    obtain ⟨s', hexec, -, hs'⟩ := hs.hmapAdd key size value hok.2
    exact ⟨_, congrArg (Option.map _) hexec, hs'⟩
  | lookup key size =>
    exact ⟨sys, congrArg (Option.map _) (hs.hmapLookup key hn hok), hmono hs⟩
  | remove key size =>
    obtain ⟨s', hexec, -, hs'⟩ := hs.hmapRemove key hn hok
    exact ⟨_, congrArg (Option.map _) hexec, hmono hs'⟩
  | write mem =>
    obtain ⟨L, h, hr, href, hlen⟩ := hs
    exact ⟨_, rfl, hmono ⟨L, h, hr.write hok, href, hlen⟩⟩

/-- What holds after a run. -/
theorem Holds.run (hs : sys.Holds n) (hrun : Run (HmapSys.exec fuel) Allowed sys calls sys')
    (hfuel : n + calls.length < fuel) : sys'.Holds (n + calls.length) := by
  induction hrun generalizing n with
  | nil => exact hs
  | cons hok hstep _ ih =>
    rw [List.length_cons] at hfuel ⊢
    have hn : n < fuel := by omega
    obtain ⟨sys₁, hexec, hs₁⟩ := hs.exec hn hok
    obtain rfl := Option.some.inj (hexec.symm.trans hstep)
    have hs' := ih hs₁ (by omega)
    rwa [Nat.add_right_comm n 1] at hs'

end HmapSys

open Hashmap in
/-- **The hash map refines an association list.** Over every run of `hmap_add`, `hmap_lookup` and
`hmap_remove` after `hmap_init`, with more fuel than calls: `hmap_lookup` returns the value that was
added first under the bytes of the key and is not removed yet; `hmap_remove` removes exactly that
entry, and the answer for other bytes stays; and `hmap_add` adds one entry, after the others. -/
theorem hmap_run_refines {s : HmapState} {fuel : ℕ} {calls : List HmapCall} {sys : HmapSys}
    (hfuel : calls.length + 1 < fuel)
    (hrun : Run (HmapSys.exec fuel) HmapSys.Allowed ⟨s.hmapInit, []⟩ calls sys) :
    (∀ key size, size < 2 ^ 31 → sys.st.hmapLookup fuel key size =
      some (assocLookup sys.entries (keyBytes sys.st.mem key size)).join) ∧
    (∀ key size, size < 2 ^ 31 → ∃ s', sys.st.hmapRemove fuel key size = some s' ∧
      HmapSys.Holds ⟨s', assocRemove sys.entries (keyBytes sys.st.mem key size)⟩ calls.length ∧
      ∀ key' size', size' < 2 ^ 31 → keyBytes sys.st.mem key' size' ≠ keyBytes sys.st.mem key size →
        s'.hmapLookup fuel key' size' = sys.st.hmapLookup fuel key' size') ∧
    ∀ key size value newEnt newNode, sys.Allowed (.add key size value newEnt newNode) →
      ∃ s', sys.st.hmapAdd key size value newEnt newNode = some s' ∧
        HmapSys.Holds ⟨s', sys.entries ++ [(keyBytes sys.st.mem key size, value)]⟩
          (calls.length + 1) ∧
        ∀ key' size', size' < 2 ^ 31 →
          keyBytes sys.st.mem key' size' ≠ keyBytes sys.st.mem key size →
          s'.hmapLookup fuel key' size' = sys.st.hmapLookup fuel key' size' := by
  have hs := (HmapSys.holds_hmapInit s).run hrun (by omega)
  rw [Nat.zero_add] at hs
  have hn : calls.length < fuel := by omega
  refine ⟨fun key size hsize => hs.hmapLookup key hn hsize, fun key size hsize => ?_,
    fun key size value newEnt newNode hok => ?_⟩
  · obtain ⟨s', hexec, hmem, hs'⟩ := hs.hmapRemove key hn hsize
    refine ⟨s', hexec, hs', fun key' size' hsize' hne => ?_⟩
    rw [hs.hmapLookup key' hn hsize', hs'.hmapLookup key' hn hsize', hmem, assocLookup_assocRemove hne]
  · obtain ⟨s', hexec, hmem, hs'⟩ := hs.hmapAdd key size value hok.2
    refine ⟨s', hexec, hs', fun key' size' hsize' hne => ?_⟩
    rw [hs.hmapLookup key' hn hsize', hs'.hmapLookup key' hfuel hsize', hmem, assocLookup_append_of_ne hne]

/-! ### A small run -/

/-- Two keys of one byte at the addresses 0 and 1, both of the byte 1. -/
def equalKeys : HmapState where
  size := 0
  count := 0
  buf _ := ⟨0, none, none⟩
  node _ := ⟨0, none, none⟩
  ent _ := ⟨0, 0, 0, none⟩
  mem _ := 1

/-- Adding two values under equal keys. -/
def equalKeysAdded : HmapState :=
  (equalKeys.hmapInit.push 0 1 (some 7) 0 0).push 1 1 (some 8) 1 1

theorem equalKeys_run : Run (HmapSys.exec 4) HmapSys.Allowed ⟨equalKeys.hmapInit, []⟩
    [.add 0 1 (some 7) 0 0, .add 1 1 (some 8) 1 1]
    ⟨equalKeysAdded, [([1], some 7), ([1], some 8)]⟩ := by
  have hr := HmapState.rep_hmapInit equalKeys
  have hr₁ : (equalKeys.hmapInit.push 0 1 (some 7) 0 0).Rep _ _ :=
    hr.push 0 1 (some 7) (fun _ => List.not_mem_nil) (fun _ _ hx => absurd hx List.not_mem_nil)
  refine .cons ⟨by decide, fun x hx => ?_⟩ rfl (.cons ⟨by decide, fun x hx => ?_⟩ rfl (.nil _))
  · obtain ⟨i, hx⟩ := hr.stored.mp hx
    exact absurd hx List.not_mem_nil
  · obtain ⟨i, hx⟩ := hr₁.stored.mp hx
    obtain rfl : x = 0 := by
      rw [Function.update_apply] at hx
      split at hx
      · exact List.mem_singleton.mp hx
      · exact absurd hx List.not_mem_nil
    exact ⟨by decide, by decide⟩

/-- The value added first answers for the second key too, until it is removed. -/
theorem hmap_run_refines_equalKeys :
    equalKeysAdded.hmapLookup 4 1 1 = some (some 7) ∧
      ∃ s', equalKeysAdded.hmapRemove 4 1 1 = some s' ∧
        HmapSys.Holds ⟨s', [([1], some 8)]⟩ 2 := by
  obtain ⟨hlookup, hremove, -⟩ := hmap_run_refines (by decide) equalKeys_run
  obtain ⟨s', hexec, hs', -⟩ := hremove 1 1 (by decide)
  exact ⟨hlookup 1 1 (by decide), s', hexec, hs'⟩

end GoofyOs
