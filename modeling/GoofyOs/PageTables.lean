import GoofyOs.Mapper
import Mathlib.Data.BitVec
import Mathlib.Data.Set.Basic
import Mathlib.Tactic.IntervalCases

/-!
# Four-level tables in flat memory

What the walks of `mm/mapper.c` need to know about memory. The tables are given by level, `T 3` for
the top-level ones and `T 0` for those that hold page frames; several top-level tables may share
their lower ones, as the address spaces of the kernel do, from the top-level index `lo` on.

`Tables` is what keeps a walk inside the tables of the right level. `Unshared` adds that different
pages are reached through different entries. Under it a write to one entry on level 0 changes the
translation of one page. Allocating a table on the way down changes none.

## Main definitions

* `Tables`, `Unshared`, `AbsentClear` — the conditions on the tables
* `MapperState.leafEntry` — the level 0 entry of an address, or 0
* `Extends` — what `map_page` does to the tables before it writes the last entry
* `AddsTable` — an entry that is not present, and a page for a table

## Main results

* `Tables.mapWalk` — the walk of `map_page` extends the tables and finds the level 0 entry
* `Unshared.leafEntry_write` — writing that entry changes the entry of one page
* `Unshared.isMappedWalk`, `Unshared.virtToPfnWalk` — the two readers see the level 0 entry
-/

namespace GoofyOs

variable {p q i j v v' x : BitVec 64}

/-! ### Words -/

theorem toNat_and_fff (x : BitVec 64) : (x &&& 0xfff).toNat = x.toNat % 4096 := by
  rw [BitVec.toNat_and]
  exact Nat.and_two_pow_sub_one_eq_mod x.toNat 12

/-- A mask of the bits from 12 up to `k`. -/
theorem toNat_and_mask (x mask : BitVec 64) (k : ℕ) (hk : k ≤ 64) (hdisj : mask &&& 0xfff = 0)
    (hor : mask ||| 0xfff = BitVec.ofNat 64 (2 ^ k - 1)) :
    (x &&& mask).toNat + x.toNat % 4096 = x.toNat % 2 ^ k := by
  have hand : (x &&& mask) &&& (x &&& 0xfff) = 0 := by
    rw [BitVec.and_assoc, ← BitVec.and_assoc mask, BitVec.and_comm mask x, BitVec.and_assoc x,
      hdisj]
    exact (congrArg (x &&& ·) BitVec.and_zero).trans BitVec.and_zero
  have hlt : 2 ^ k - 1 < 2 ^ 64 := Nat.lt_of_lt_of_le (Nat.sub_lt (Nat.two_pow_pos k) Nat.one_pos)
    (Nat.pow_le_pow_right (by decide) hk)
  have hadd := BitVec.toNat_add_of_and_eq_zero hand
  rw [BitVec.add_eq_or_of_and_eq_zero _ _ hand, ← BitVec.and_or_distrib_left, hor, BitVec.toNat_and,
    BitVec.toNat_ofNat, Nat.mod_eq_of_lt hlt, Nat.and_two_pow_sub_one_eq_mod, toNat_and_fff] at hadd
  exact hadd.symm

theorem toNat_and_addrMask (x : BitVec 64) :
    (x &&& addrMask).toNat + x.toNat % 4096 = x.toNat % 2 ^ 63 :=
  toNat_and_mask x addrMask 63 (by decide) (by decide) (by decide)

/-- A page-aligned address that an entry can hold. -/
theorem isPage_iff : IsPage p ↔ p.toNat % 4096 = 0 ∧ p.toNat < 2 ^ 63 := by
  have hmask := toNat_and_addrMask p
  have hlt := p.isLt
  constructor
  · intro hp
    rw [hp] at hmask
    omega
  · rintro ⟨hlow, hhigh⟩
    refine BitVec.eq_of_toNat_eq ?_
    omega

theorem IsPage.toNat (hp : IsPage p) : p.toNat % 4096 = 0 ∧ p.toNat < 2 ^ 63 := isPage_iff.mp hp

theorem isPage_and_addrMask (x : BitVec 64) : IsPage (x &&& addrMask) := by
  rw [IsPage, BitVec.and_assoc, BitVec.and_self]

/-- A page-aligned address below `2 ^ 43`. -/
theorem isPage_of_lt (hlow : p &&& 0xfff = 0) (hlt : p.toNat < 2 ^ 43) : IsPage p := by
  have hmod := toNat_and_fff p
  rw [hlow] at hmod
  exact isPage_iff.mpr ⟨hmod.symm, hlt.trans (by decide)⟩

/-- The offset in a page is dropped from the number of its frame. -/
theorem ushiftRight_pageEntry (e v : BitVec 64) :
    ((e &&& addrMask) + virtOffset 0 v) >>> 12 = (e &&& addrMask) >>> 12 := by
  have he := (isPage_and_addrMask e).toNat
  have hv : (virtOffset 0 v).toNat = v.toNat % 4096 := toNat_and_fff v
  apply BitVec.eq_of_toNat_eq
  rw [BitVec.toNat_ushiftRight, BitVec.toNat_ushiftRight, BitVec.toNat_add, hv,
    Nat.shiftRight_eq_div_pow, Nat.shiftRight_eq_div_pow]
  omega

theorem toNat_getIndex (level : ℕ) (v : BitVec 64) :
    (getIndex level v).toNat = v.toNat / 2 ^ (12 + 9 * level) % 512 := by
  rw [getIndex, BitVec.toNat_and, BitVec.toNat_ushiftRight, Nat.shiftRight_eq_div_pow]
  exact Nat.and_two_pow_sub_one_eq_mod _ 9

theorem getIndex_lt (level : ℕ) (v : BitVec 64) : (getIndex level v).toNat < 512 := by
  rw [toNat_getIndex]
  exact Nat.mod_lt _ (by decide)

/-- Bits 12 to 47 of an address. -/
def pageNumber (v : BitVec 64) : BitVec 36 := v.extractLsb' 12 36

theorem toNat_pageNumber (v : BitVec 64) : (pageNumber v).toNat = v.toNat / 2 ^ 12 % 2 ^ 36 := by
  rw [pageNumber, BitVec.extractLsb'_toNat, Nat.shiftRight_eq_div_pow]

/-- Two addresses are on the same page when all four indices agree. -/
theorem pageNumber_eq_iff :
    pageNumber v = pageNumber v' ↔ ∀ m ≤ 3, getIndex m v = getIndex m v' := by
  have hindex : ∀ m u, (getIndex m u).toNat = u.toNat / 2 ^ (12 + 9 * m) % 512 := toNat_getIndex
  constructor
  · intro h m hm
    have h := congrArg BitVec.toNat h
    rw [toNat_pageNumber, toNat_pageNumber] at h
    apply BitVec.eq_of_toNat_eq
    rw [hindex, hindex]
    interval_cases m <;> omega
  · intro h
    have h0 := congrArg BitVec.toNat (h 0 (by decide))
    have h1 := congrArg BitVec.toNat (h 1 (by decide))
    have h2 := congrArg BitVec.toNat (h 2 (by decide))
    have h3 := congrArg BitVec.toNat (h 3 (by decide))
    rw [hindex, hindex] at h0 h1 h2 h3
    apply BitVec.eq_of_toNat_eq
    rw [toNat_pageNumber, toNat_pageNumber]
    omega

/-- An entry that points to the table at `p`. -/
def tableEntry (p : BitVec 64) : BitVec 64 := p ||| pgPresent ||| pgWrite

theorem tableEntry_and_addrMask (hp : IsPage p) : tableEntry p &&& addrMask = p := by
  rw [tableEntry, BitVec.and_comm, BitVec.and_or_distrib_left, BitVec.and_or_distrib_left,
    show addrMask &&& pgPresent = 0 by decide, show addrMask &&& pgWrite = 0 by decide,
    BitVec.and_comm, hp]
  simp

theorem tableEntry_present (p : BitVec 64) : tableEntry p &&& pgPresent ≠ 0 := by
  rw [tableEntry, BitVec.and_comm, BitVec.and_or_distrib_left, BitVec.and_or_distrib_left]
  intro h
  have := congrArg (fun w => w.getLsbD 0) h
  simp [pgPresent, pgWrite] at this

theorem tableEntry_and_pgPs (hp : IsPage p) : tableEntry p &&& pgPs = 0 := by
  rw [tableEntry, ← hp, BitVec.and_comm, BitVec.and_or_distrib_left, BitVec.and_or_distrib_left,
    show pgPs &&& pgPresent = 0 by decide, show pgPs &&& pgWrite = 0 by decide,
    BitVec.and_comm p, ← BitVec.and_assoc, show pgPs &&& addrMask = 0 by decide]
  simp

/-! ### Entries and pages -/

namespace MapperState

variable {P : PageSource} {s s' : MapperState P} {c t t' a : BitVec 64}

/-- The entry `i` of the table at `t`. -/
def entry (s : MapperState P) (t i : BitVec 64) : BitVec 64 := s.mem (slot (s.va t) i)

theorem toNat_eight_mul (hi : i.toNat < 512) : (8 * i).toNat = 8 * i.toNat := by
  rw [BitVec.toNat_mul, show BitVec.toNat (8 : BitVec 64) = 8 from rfl]
  omega

/-- Entries of tables are at different addresses. -/
theorem slot_inj (hp : IsPage p) (hq : IsPage q) (hi : i.toNat < 512) (hj : j.toNat < 512) :
    slot (s.va p) i = slot (s.va q) j ↔ p = q ∧ i = j := by
  constructor
  · intro h
    have hp := hp.toNat
    have hq := hq.toNat
    have h' := congrArg BitVec.toNat h
    rw [slot, va, slot, va, BitVec.toNat_add, BitVec.toNat_add, BitVec.toNat_add, BitVec.toNat_add,
      toNat_eight_mul hi, toNat_eight_mul hj] at h'
    exact ⟨BitVec.eq_of_toNat_eq (by omega), BitVec.eq_of_toNat_eq (by omega)⟩
  · rintro ⟨rfl, rfl⟩
    rfl

/-- The entries of a table lie in its page, and in no other. -/
theorem slot_sub_lt_iff (hp : IsPage p) (hq : IsPage q) (hi : i.toNat < 512) :
    (slot (s.va p) i - s.va q).toNat < 0x1000 ↔ p = q := by
  have hp' := hp.toNat
  have hq' := hq.toNat
  have hsub : (slot (s.va p) i - s.va q).toNat =
      (2 ^ 64 - q.toNat + (p.toNat + 8 * i.toNat)) % 2 ^ 64 := by
    rw [slot, va, va, BitVec.toNat_sub, BitVec.toNat_add, BitVec.toNat_add, BitVec.toNat_add,
      toNat_eight_mul hi]
    omega
  rw [hsub]
  constructor
  · intro h
    exact BitVec.eq_of_toNat_eq (by omega)
  · rintro rfl
    omega

theorem entry_write (ht : IsPage t) (ht' : IsPage t') (hi : i.toNat < 512) (hj : j.toNat < 512) :
    (s.write (slot (s.va t) i) x).entry t' j = if t' = t ∧ j = i then x else s.entry t' j := by
  show Function.update s.mem (slot (s.va t) i) x (slot (s.va t') j) = _
  rw [Function.update_apply]
  exact if_congr (slot_inj ht' ht hj hi) rfl rfl

theorem entry_clearPage (hc : IsPage c) (ht : IsPage t) (hi : i.toNat < 512) :
    (s.clearPage (s.va c)).entry t i = if t = c then 0 else s.entry t i :=
  if_congr (slot_sub_lt_iff ht hc hi) rfl rfl

/-- A table at `c` is cleared and entered at the address `a`. -/
def addTable (s : MapperState P) (a c : BitVec 64) (pages : P.State) : MapperState P :=
  { (s.clearPage (s.va c)).write a (tableEntry c) with pages := pages }

theorem pages_addTable (pages : P.State) : (s.addTable a c pages).pages = pages := rfl

theorem entry_addTable (pages : P.State) (hc : IsPage c) (ht : IsPage t) (ht' : IsPage t')
    (hi : i.toNat < 512) (hj : j.toNat < 512) :
    (s.addTable (slot (s.va t) i) c pages).entry t' j =
      if t' = t ∧ j = i then tableEntry c else if t' = c then 0 else s.entry t' j := by
  rw [← entry_clearPage hc ht' hj]
  exact entry_write (s := s.clearPage (s.va c)) ht ht' hi hj

/-- The level 0 entry of an address, from the entry `a` on level `k` on: 0 if an entry on the way is
not present. -/
def leafEntry (s : MapperState P) (v : BitVec 64) (k : ℕ) (a : BitVec 64) : BitVec 64 :=
  ((s.unmapWalk v k a).map s.mem).getD 0

/-- One round of the loop of `map_page`: the table below the entry at `a`, allocated if need be. -/
def mapStep (s : MapperState P) (a : BitVec 64) : Option (BitVec 64 × MapperState P) :=
  if s.mem a &&& pgPresent ≠ 0 then some (s.mem a &&& addrMask, s)
  else (P.alloc s.pages).map fun r => (r.1, s.addTable a r.1 r.2)

theorem mapWalk_succ (k : ℕ) : s.mapWalk v (k + 1) a =
    (s.mapStep a).bind fun r => r.2.mapWalk v k (slot (r.2.va r.1) (getIndex k v)) := by
  rw [mapWalk, mapStep]
  split
  · rfl
  · simp only [zpgalloc, pgalloc]
    cases P.alloc s.pages with
    | none => rfl
    | some r =>
      have hva : s.va r.1 - s.hhdmOffset = r.1 := BitVec.add_sub_cancel _ _
      simp only [Option.map_some, Option.bind_eq_bind, Option.bind_some]
      show mapWalk v k (slot (s.va (s.va r.1 - s.hhdmOffset)) (getIndex k v))
        (write _ a ((s.va r.1 - s.hhdmOffset) ||| pgPresent ||| pgWrite)) = _
      rw [hva]
      rfl

end MapperState

/-! ### The conditions on the tables -/

open MapperState

/-- An index into a table on level `k`; on the top level, from `lo` on. -/
def InRange (lo k : ℕ) (i : BitVec 64) : Prop := i.toNat < 512 ∧ (k = 3 → lo ≤ i.toNat)

variable {P : PageSource} {s s' s'' : MapperState P} {lo k l m : ℕ} {c t t' a : BitVec 64}
  {T T' T'' : ℕ → Set (BitVec 64)}

theorem inRange_getIndex (hv : lo ≤ (getIndex 3 v).toNat) (k : ℕ) :
    InRange lo k (getIndex k v) := by
  refine ⟨getIndex_lt k v, ?_⟩
  rintro rfl
  exact hv

/-- Every table is a page in use, on one level only, and its present entries point to tables one
level below. -/
structure Tables (s : MapperState P) (lo : ℕ) (T : ℕ → Set (BitVec 64)) : Prop where
  isPage : ∀ {k t}, t ∈ T k → IsPage t
  used : ∀ {k t}, t ∈ T k → t ∈ P.used s.pages
  level : ∀ {j k t}, t ∈ T j → t ∈ T k → j = k
  child : ∀ {k t i}, t ∈ T (k + 1) → k < 3 → InRange lo (k + 1) i →
    s.entry t i &&& pgPresent ≠ 0 → s.entry t i &&& addrMask ∈ T k

/-- The present entries above level 0 have `PG_PS` clear, and each points to a table of its own.
Top-level tables may share what is below them, under the same index. -/
structure Unshared (s : MapperState P) (lo : ℕ) (T : ℕ → Set (BitVec 64)) : Prop where
  ps : ∀ {k t i}, t ∈ T (k + 1) → k < 3 → InRange lo (k + 1) i →
    s.entry t i &&& pgPresent ≠ 0 → s.entry t i &&& pgPs = 0
  inj : ∀ {k t t' i j}, t ∈ T (k + 1) → t' ∈ T (k + 1) → k < 3 → InRange lo (k + 1) i →
    InRange lo (k + 1) j → s.entry t i &&& pgPresent ≠ 0 → s.entry t' j &&& pgPresent ≠ 0 →
    s.entry t i &&& addrMask = s.entry t' j &&& addrMask → i = j ∧ (k = 2 ∨ t = t')

/-- The entries above level 0 that are not present have `PG_PS` clear too. -/
def AbsentClear (s : MapperState P) (lo : ℕ) (T : ℕ → Set (BitVec 64)) : Prop :=
  ∀ {k t i}, t ∈ T (k + 1) → k < 3 → InRange lo (k + 1) i →
    s.entry t i &&& pgPresent = 0 → s.entry t i &&& pgPs = 0

/-- What `map_page` does to the tables below level `l` before it writes the last entry: it adds
tables made of fresh pages, keeps the present entries, and changes the level 0 entry of no
address. -/
structure Extends (lo l : ℕ) (s : MapperState P) (T : ℕ → Set (BitVec 64)) (s' : MapperState P)
    (T' : ℕ → Set (BitVec 64)) : Prop where
  tables : Tables s' lo T'
  hhdmOffset : s'.hhdmOffset = s.hhdmOffset
  sub : ∀ {k t}, t ∈ T k → t ∈ T' k
  top : ∀ {k}, l ≤ k → T' k = T k
  new : ∀ {k t}, t ∈ T' k → t ∈ T k ∨ t ∉ P.used s.pages
  used : P.used s.pages ⊆ P.used s'.pages
  keep : ∀ {k t i}, t ∈ T (k + 1) → i.toNat < 512 → s.entry t i &&& pgPresent ≠ 0 →
    s'.entry t i = s.entry t i
  leaf : ∀ {k t v}, t ∈ T k → k ≤ 3 → lo ≤ (getIndex 3 v).toNat →
    s'.leafEntry v k (slot (s'.va t) (getIndex k v)) =
      s.leafEntry v k (slot (s.va t) (getIndex k v))
  unshared : Unshared s lo T → Unshared s' lo T'
  absentClear : AbsentClear s lo T → AbsentClear s' lo T'

namespace Extends

theorem va (h : Extends lo l s T s' T') (t : BitVec 64) : s'.va t = s.va t := by
  rw [MapperState.va, h.hhdmOffset]
  rfl

theorem refl (ht : Tables s lo T) : Extends lo l s T s T where
  tables := ht
  hhdmOffset := rfl
  sub h := h
  top _ := rfl
  new h := Or.inl h
  used := subset_rfl
  keep _ _ _ := rfl
  leaf _ _ _ := rfl
  unshared h := h
  absentClear h := h

theorem trans (h : Extends lo l s T s' T') (h' : Extends lo m s' T' s'' T'') (hm : m ≤ l) :
    Extends lo l s T s'' T'' where
  tables := h'.tables
  hhdmOffset := h'.hhdmOffset.trans h.hhdmOffset
  sub ht := h'.sub (h.sub ht)
  top hk := (h'.top (hm.trans hk)).trans (h.top hk)
  new ht := by
    rcases h'.new ht with ht | ht
    · exact h.new ht
    · exact Or.inr fun hu => ht (h.used hu)
  used := h.used.trans h'.used
  keep ht hi hp := by
    have heq := h.keep ht hi hp
    rw [h'.keep (h.sub ht) hi (by rwa [heq]), heq]
  leaf ht hk hv := (h'.leaf (h.sub ht) hk hv).trans (h.leaf ht hk hv)
  unshared hu := h'.unshared (h.unshared hu)
  absentClear ha := h'.absentClear (h.absentClear ha)

end Extends

/-! ### Walking down -/

theorem leafEntry_zero (s : MapperState P) (v t : BitVec 64) :
    s.leafEntry v 0 (slot (s.va t) i) = s.entry t i := rfl

theorem unmapWalk_succ (s : MapperState P) (v t : BitVec 64) (k : ℕ) :
    s.unmapWalk v (k + 1) (slot (s.va t) i) =
      if s.entry t i &&& pgPresent ≠ 0 then
        s.unmapWalk v k (slot (s.va (s.entry t i &&& addrMask)) (getIndex k v))
      else none := rfl

theorem leafEntry_succ (s : MapperState P) (v t : BitVec 64) (k : ℕ) :
    s.leafEntry v (k + 1) (slot (s.va t) i) =
      if s.entry t i &&& pgPresent ≠ 0 then
        s.leafEntry v k (slot (s.va (s.entry t i &&& addrMask)) (getIndex k v))
      else 0 := by
  rw [leafEntry, unmapWalk_succ]
  split
  · rfl
  · rfl

/-- Below a cleared table there is nothing. -/
theorem leafEntry_of_clear (h : ∀ i : BitVec 64, i.toNat < 512 → s.entry t i = 0) (v : BitVec 64)
    (k : ℕ) : s.leafEntry v k (slot (s.va t) (getIndex k v)) = 0 := by
  cases k with
  | zero => exact h _ (getIndex_lt 0 v)
  | succ k =>
    rw [leafEntry_succ, h _ (getIndex_lt (k + 1) v), if_neg]
    simp

/-- **Changing no table.** -/
theorem Tables.extends_of_entry (ht : Tables s lo T) (l : ℕ)
    (hhdm : s'.hhdmOffset = s.hhdmOffset) (hused : P.used s.pages ⊆ P.used s'.pages)
    (hentry : ∀ {k t i}, t ∈ T k → i.toNat < 512 → s'.entry t i = s.entry t i) :
    Extends lo l s T s' T where
  tables := {
    isPage := ht.isPage
    used := fun h => hused (ht.used h)
    level := ht.level
    child := fun h hk hi hp => by
      rw [hentry h hi.1] at hp ⊢
      exact ht.child h hk hi hp }
  hhdmOffset := hhdm
  sub h := h
  top _ := rfl
  new h := Or.inl h
  used := hused
  keep h hi _ := hentry h hi
  leaf {k t v} h hk hv := by
    induction k generalizing t with
    | zero =>
      rw [leafEntry_zero, leafEntry_zero]
      exact hentry h (getIndex_lt 0 v)
    | succ k ih =>
      have hin := inRange_getIndex hv (k + 1)
      rw [leafEntry_succ, leafEntry_succ, hentry h hin.1]
      by_cases hp : s.entry t (getIndex (k + 1) v) &&& pgPresent ≠ 0
      · rw [if_pos hp, if_pos hp]
        exact ih (ht.child h (by omega) hin hp) (by omega)
      · rw [if_neg hp, if_neg hp]
  unshared hu := {
    ps := fun h hk hi hp => by
      rw [hentry h hi.1] at hp ⊢
      exact hu.ps h hk hi hp
    inj := fun h h' hk hi hj hp hp' heq => by
      rw [hentry h hi.1] at hp heq
      rw [hentry h' hj.1] at hp' heq
      exact hu.inj h h' hk hi hj hp hp' heq }
  absentClear ha k t i h hk hi hp := by
    rw [hentry h hi.1] at hp ⊢
    exact ha h hk hi hp

/-- **`bump_zpage`** gets a page that is no table, and clears it. -/
theorem Tables.extends_zpgalloc (ht : Tables s lo T) (l : ℕ) (h : s.zpgalloc = some (a, s')) :
    Extends lo l s T s' T := by
  rw [zpgalloc, pgalloc, Option.map_map] at h
  obtain ⟨⟨c, pages⟩, halloc, heq⟩ := Option.map_eq_some_iff.mp h
  obtain ⟨rfl, rfl⟩ := Prod.mk.inj heq
  refine ht.extends_of_entry l rfl ?_ fun {k t i} htk hi => ?_
  · show P.used s.pages ⊆ P.used pages
    rw [P.used_alloc halloc]
    exact Set.subset_insert _ _
  · have hne : t ≠ c := fun hc => P.fresh halloc (hc ▸ ht.used htk)
    have hclear := entry_clearPage (s := s) (P.isPage halloc) (ht.isPage htk) hi
    rw [if_neg hne] at hclear
    exact hclear

/-- The entry `i` of the table `t` is not present, and the allocator hands out the page `c`. -/
structure AddsTable (lo k : ℕ) (s : MapperState P) (T : ℕ → Set (BitVec 64)) (t i c : BitVec 64)
    (pages : P.State) : Prop where
  tables : Tables s lo T
  mem : t ∈ T (k + 1)
  lt : k < 3
  inRange : InRange lo (k + 1) i
  absent : s.entry t i &&& pgPresent = 0
  alloc : P.alloc s.pages = some (c, pages)

namespace AddsTable

variable {pages : P.State}

theorem not_mem (h : AddsTable lo k s T t i c pages) : c ∉ T m :=
  fun hm => P.fresh h.alloc (h.tables.used hm)

theorem ne (h : AddsTable lo k s T t i c pages) : c ≠ t := by
  rintro rfl
  exact h.not_mem h.mem

/-- The entry that is written. -/
theorem entry_self (h : AddsTable lo k s T t i c pages) :
    (s.addTable (slot (s.va t) i) c pages).entry t i = tableEntry c := by
  have htp := h.tables.isPage h.mem
  rw [entry_addTable pages (P.isPage h.alloc) htp htp h.inRange.1 h.inRange.1, if_pos ⟨rfl, rfl⟩]

/-- The entries of the new table. -/
theorem entry_new (h : AddsTable lo k s T t i c pages) (hj : j.toNat < 512) :
    (s.addTable (slot (s.va t) i) c pages).entry c j = 0 := by
  have hc := P.isPage h.alloc
  rw [entry_addTable pages hc (h.tables.isPage h.mem) hc h.inRange.1 hj,
    if_neg fun heq => h.ne heq.1, if_pos rfl]

/-- The entries of the old tables, but for the one that is written. -/
theorem entry_old (h : AddsTable lo k s T t i c pages) (ht' : t' ∈ T m) (hj : j.toNat < 512)
    (hne : ¬ (t' = t ∧ j = i)) :
    (s.addTable (slot (s.va t) i) c pages).entry t' j = s.entry t' j := by
  have hc : t' ≠ c := by
    rintro rfl
    exact h.not_mem ht'
  rw [entry_addTable pages (P.isPage h.alloc) (h.tables.isPage h.mem) (h.tables.isPage ht')
    h.inRange.1 hj, if_neg hne, if_neg hc]

/-- The present entries are not written. -/
theorem entry_keep (h : AddsTable lo k s T t i c pages) (ht' : t' ∈ T m) (hj : j.toNat < 512)
    (hp : s.entry t' j &&& pgPresent ≠ 0) :
    (s.addTable (slot (s.va t) i) c pages).entry t' j = s.entry t' j := by
  refine h.entry_old ht' hj ?_
  rintro ⟨rfl, rfl⟩
  exact hp h.absent

theorem mem_iff {x : BitVec 64} : x ∈ Function.update T k (insert c (T k)) m ↔
    x ∈ T m ∨ (m = k ∧ x = c) := by
  by_cases hm : m = k
  · subst hm
    simp [or_comm]
  · simp [hm]

/-- An entry above level 0 that is present is the new one, or an old one. -/
theorem present (h : AddsTable lo k s T t i c pages)
    (ht' : t' ∈ Function.update T k (insert c (T k)) (m + 1)) (hj : j.toNat < 512)
    (hp : (s.addTable (slot (s.va t) i) c pages).entry t' j &&& pgPresent ≠ 0) :
    (m = k ∧ t' = t ∧ j = i) ∨ (t' ∈ T (m + 1) ∧ s.entry t' j &&& pgPresent ≠ 0 ∧
      (s.addTable (slot (s.va t) i) c pages).entry t' j = s.entry t' j) := by
  rcases mem_iff.mp ht' with ht' | ⟨-, rfl⟩
  · by_cases hat : t' = t ∧ j = i
    · obtain ⟨rfl, rfl⟩ := hat
      exact Or.inl ⟨Nat.succ.inj (h.tables.level ht' h.mem), rfl, rfl⟩
    · have heq := h.entry_old ht' hj hat
      exact Or.inr ⟨ht', by rwa [heq] at hp, heq⟩
  · rw [h.entry_new hj] at hp
    simp at hp

theorem pages_eq (h : AddsTable lo k s T t i c pages) :
    P.used (s.addTable (slot (s.va t) i) c pages).pages = insert c (P.used s.pages) := by
  rw [pages_addTable, P.used_alloc h.alloc]

theorem addTable (h : AddsTable lo k s T t i c pages) :
    Tables (s.addTable (slot (s.va t) i) c pages) lo (Function.update T k (insert c (T k))) where
  isPage hx := by
    rcases mem_iff.mp hx with hx | ⟨-, rfl⟩
    · exact h.tables.isPage hx
    · exact P.isPage h.alloc
  used hx := by
    rw [h.pages_eq]
    rcases mem_iff.mp hx with hx | ⟨-, rfl⟩
    · exact Or.inr (h.tables.used hx)
    · exact Or.inl rfl
  level hx hx' := by
    rcases mem_iff.mp hx with hold | ⟨rfl, rfl⟩
    · rcases mem_iff.mp hx' with hold' | ⟨-, rfl⟩
      · exact h.tables.level hold hold'
      · exact absurd hold h.not_mem
    · rcases mem_iff.mp hx' with hold' | ⟨rfl, -⟩
      · exact absurd hold' h.not_mem
      · rfl
  child hx hm hj hp := by
    rcases h.present hx hj.1 hp with ⟨rfl, rfl, rfl⟩ | ⟨hx, hp, heq⟩
    · rw [h.entry_self, tableEntry_and_addrMask (P.isPage h.alloc)]
      exact mem_iff.mpr (Or.inr ⟨rfl, rfl⟩)
    · rw [heq]
      exact mem_iff.mpr (Or.inl (h.tables.child hx hm hj hp))

/-- The level 0 entry of no address changes. -/
theorem leafEntry (h : AddsTable lo k s T t i c pages) (ht' : t' ∈ T m) (hm : m ≤ 3)
    (hv : lo ≤ (getIndex 3 v).toNat) :
    (s.addTable (slot (s.va t) i) c pages).leafEntry v m
        (slot ((s.addTable (slot (s.va t) i) c pages).va t') (getIndex m v)) =
      s.leafEntry v m (slot (s.va t') (getIndex m v)) := by
  induction m generalizing t' with
  | zero =>
    rw [leafEntry_zero, leafEntry_zero]
    refine h.entry_old ht' (getIndex_lt 0 v) ?_
    rintro ⟨rfl, -⟩
    exact absurd (h.tables.level ht' h.mem) (Nat.succ_ne_zero k).symm
  | succ m ih =>
    have hin := inRange_getIndex hv (m + 1)
    rw [leafEntry_succ, leafEntry_succ]
    by_cases hat : t' = t ∧ getIndex (m + 1) v = i
    · -- there was nothing, and there is an empty table
      obtain ⟨rfl, rfl⟩ := hat
      rw [h.entry_self, if_pos (tableEntry_present c), tableEntry_and_addrMask (P.isPage h.alloc),
        leafEntry_of_clear (fun _ hj => h.entry_new hj), if_neg (not_not.mpr h.absent)]
    · rw [h.entry_old ht' hin.1 hat]
      by_cases hp : s.entry t' (getIndex (m + 1) v) &&& pgPresent ≠ 0
      · rw [if_pos hp, if_pos hp]
        exact ih (h.tables.child ht' (by omega) hin hp) (by omega)
      · rw [if_neg hp, if_neg hp]

theorem unshared (h : AddsTable lo k s T t i c pages) (hu : Unshared s lo T) :
    Unshared (s.addTable (slot (s.va t) i) c pages) lo (Function.update T k (insert c (T k))) where
  ps hx hm hj hp := by
    rcases h.present hx hj.1 hp with ⟨rfl, rfl, rfl⟩ | ⟨hx, hp, heq⟩
    · rw [h.entry_self, tableEntry_and_pgPs (P.isPage h.alloc)]
    · rw [heq]
      exact hu.ps hx hm hj hp
  inj hx hx' hm hj hj' hp hp' heq := by
    have hmask := tableEntry_and_addrMask (P.isPage h.alloc)
    rcases h.present hx hj.1 hp with ⟨rfl, rfl, rfl⟩ | ⟨hold, hpold, he⟩
    · rcases h.present hx' hj'.1 hp' with ⟨-, rfl, rfl⟩ | ⟨hold', hpold', he'⟩
      · exact ⟨rfl, Or.inr rfl⟩
      · rw [h.entry_self, hmask, he'] at heq
        exact absurd (heq ▸ h.tables.child hold' hm hj' hpold') h.not_mem
    · rcases h.present hx' hj'.1 hp' with ⟨-, rfl, rfl⟩ | ⟨hold', hpold', he'⟩
      · rw [h.entry_self, hmask, he] at heq
        exact absurd (heq ▸ h.tables.child hold hm hj hpold) h.not_mem
      · rw [he, he'] at heq
        exact hu.inj hold hold' hm hj hj' hpold hpold' heq

theorem absentClear (h : AddsTable lo k s T t i c pages) (ha : AbsentClear s lo T) :
    AbsentClear (s.addTable (slot (s.va t) i) c pages) lo
      (Function.update T k (insert c (T k))) := by
  intro m x j hx hm hj hp
  rcases mem_iff.mp hx with hx | ⟨-, rfl⟩
  · by_cases hat : x = t ∧ j = i
    · obtain ⟨rfl, rfl⟩ := hat
      rw [h.entry_self] at hp
      exact absurd hp (tableEntry_present c)
    · rw [h.entry_old hx hj.1 hat] at hp ⊢
      exact ha hx hm hj hp
  · rw [h.entry_new hj.1]
    exact BitVec.zero_and

/-- **Allocating a table.** The entry `i` of `t` comes to point to a fresh cleared page. -/
theorem toExtends (h : AddsTable lo k s T t i c pages) :
    Extends lo (k + 1) s T (s.addTable (slot (s.va t) i) c pages)
      (Function.update T k (insert c (T k))) where
  tables := h.addTable
  hhdmOffset := rfl
  sub hx := mem_iff.mpr (Or.inl hx)
  top hj := Function.update_of_ne (by omega) _ _
  new hx := by
    rcases mem_iff.mp hx with hx | ⟨-, rfl⟩
    · exact Or.inl hx
    · exact Or.inr (P.fresh h.alloc)
  used := by
    rw [h.pages_eq]
    exact Set.subset_insert _ _
  keep hx hj hp := h.entry_keep hx hj hp
  leaf hx hm hv := h.leafEntry hx hm hv
  unshared := h.unshared
  absentClear := h.absentClear

end AddsTable

theorem mapStep_slot (s : MapperState P) (t i : BitVec 64) : s.mapStep (slot (s.va t) i) =
    if s.entry t i &&& pgPresent ≠ 0 then some (s.entry t i &&& addrMask, s)
    else (P.alloc s.pages).map fun r => (r.1, s.addTable (slot (s.va t) i) r.1 r.2) := rfl

/-- One round of the loop of `map_page` finds a table, or adds one. -/
theorem Tables.mapStep_cases (ht : Tables s lo T) (htk : t ∈ T (k + 1)) (hk : k < 3)
    (hi : InRange lo (k + 1) i) (hstep : s.mapStep (slot (s.va t) i) = some (c, s')) :
    (s.entry t i &&& pgPresent ≠ 0 ∧ c = s.entry t i &&& addrMask ∧ s' = s) ∨
      ∃ pages, AddsTable lo k s T t i c pages ∧ s' = s.addTable (slot (s.va t) i) c pages := by
  by_cases hp : s.entry t i &&& pgPresent ≠ 0
  · rw [mapStep_slot, if_pos hp] at hstep
    obtain ⟨rfl, rfl⟩ := Prod.mk.inj (Option.some.inj hstep)
    exact Or.inl ⟨hp, rfl, rfl⟩
  · rw [mapStep_slot, if_neg hp] at hstep
    obtain ⟨⟨c', pages⟩, halloc, heq⟩ := Option.map_eq_some_iff.mp hstep
    obtain ⟨rfl, rfl⟩ := Prod.mk.inj heq
    exact Or.inr ⟨pages, ⟨ht, htk, hk, hi, not_not.mp hp, halloc⟩, rfl⟩

/-- It writes no entry of the old tables but the one that it comes from. -/
theorem Tables.entry_mapStep (ht : Tables s lo T) (htk : t ∈ T (k + 1)) (hk : k < 3)
    (hi : InRange lo (k + 1) i) (hstep : s.mapStep (slot (s.va t) i) = some (c, s'))
    (ht' : t' ∈ T m) (hj : j.toNat < 512) (hne : ¬ (t' = t ∧ j = i)) :
    s'.entry t' j = s.entry t' j := by
  rcases ht.mapStep_cases htk hk hi hstep with ⟨-, -, rfl⟩ | ⟨pages, hadds, rfl⟩
  · rfl
  · exact hadds.entry_old ht' hj hne

/-- **One round of the loop of `map_page`** extends the tables. -/
theorem Tables.mapStep (ht : Tables s lo T) (htk : t ∈ T (k + 1)) (hk : k < 3)
    (hi : InRange lo (k + 1) i) (hstep : s.mapStep (slot (s.va t) i) = some (c, s')) :
    ∃ T', Extends lo (k + 1) s T s' T' ∧ c ∈ T' k ∧ s'.entry t i &&& pgPresent ≠ 0 ∧
      s'.entry t i &&& addrMask = c := by
  rcases ht.mapStep_cases htk hk hi hstep with ⟨hp, rfl, rfl⟩ | ⟨pages, hadds, rfl⟩
  · exact ⟨T, Extends.refl ht, ht.child htk hk hi hp, hp, rfl⟩
  · refine ⟨_, hadds.toExtends, ?_, ?_, ?_⟩
    · rw [Function.update_self]
      exact Set.mem_insert _ _
    · rw [hadds.entry_self]
      exact tableEntry_present c
    · rw [hadds.entry_self, tableEntry_and_addrMask (P.isPage hadds.alloc)]

/-- **The walk of `map_page`** extends the tables and ends at the level 0 entry that the other walks
find too. -/
theorem Tables.mapWalk (ht : Tables s lo T) (htk : t ∈ T k) (hk : k ≤ 3)
    (hv : lo ≤ (getIndex 3 v).toNat)
    (hwalk : s.mapWalk v k (slot (s.va t) (getIndex k v)) = some (a, s')) :
    ∃ T' t₀, Extends lo k s T s' T' ∧ t₀ ∈ T' 0 ∧ a = slot (s'.va t₀) (getIndex 0 v) ∧
      s'.unmapWalk v k (slot (s'.va t) (getIndex k v)) = some a := by
  induction k generalizing s T t with
  | zero =>
    obtain ⟨rfl, rfl⟩ := Prod.mk.inj (Option.some.inj hwalk)
    exact ⟨T, t, Extends.refl ht, htk, rfl, rfl⟩
  | succ k ih =>
    rw [mapWalk_succ] at hwalk
    obtain ⟨⟨c, s₁⟩, hstep, hrest⟩ := Option.bind_eq_some_iff.mp hwalk
    obtain ⟨T₁, hext, hc, hp, hmask⟩ := ht.mapStep htk hk (inRange_getIndex hv _) hstep
    obtain ⟨T', t₀, hext', ht₀, ha, hfound⟩ := ih hext.tables hc (by omega) hrest
    refine ⟨T', t₀, hext.trans hext' (Nat.le_succ k), ht₀, ha, ?_⟩
    have hkeep := hext'.keep (hext.sub htk) (getIndex_lt (k + 1) v) hp
    rw [unmapWalk_succ, hkeep, if_pos hp, hmask]
    exact hfound

/-! ### Writing an entry on level 0 -/

variable {t₀ : BitVec 64}

/-- The entries above level 0 are not written. -/
theorem Tables.entry_write_leaf (ht : Tables s lo T) (ht₀ : t₀ ∈ T 0) (hi : i.toNat < 512)
    (htk : t ∈ T (k + 1)) (hj : j.toNat < 512) :
    (s.write (slot (s.va t₀) i) x).entry t j = s.entry t j := by
  rw [entry_write (ht.isPage ht₀) (ht.isPage htk) hi hj, if_neg]
  rintro ⟨rfl, -⟩
  exact absurd (ht.level htk ht₀) (Nat.succ_ne_zero k)

theorem Tables.write_leaf (ht : Tables s lo T) (ht₀ : t₀ ∈ T 0) (hi : i.toNat < 512) :
    Tables (s.write (slot (s.va t₀) i) x) lo T where
  isPage := ht.isPage
  used := ht.used
  level := ht.level
  child htk hk hj hp := by
    rw [ht.entry_write_leaf ht₀ hi htk hj.1] at hp ⊢
    exact ht.child htk hk hj hp

theorem Unshared.write_leaf (hu : Unshared s lo T) (ht : Tables s lo T) (ht₀ : t₀ ∈ T 0)
    (hi : i.toNat < 512) : Unshared (s.write (slot (s.va t₀) i) x) lo T where
  ps htk hk hj hp := by
    rw [ht.entry_write_leaf ht₀ hi htk hj.1] at hp ⊢
    exact hu.ps htk hk hj hp
  inj htk htk' hk hj hj' hp hp' heq := by
    rw [ht.entry_write_leaf ht₀ hi htk hj.1] at hp heq
    rw [ht.entry_write_leaf ht₀ hi htk' hj'.1] at hp' heq
    exact hu.inj htk htk' hk hj hj' hp hp' heq

theorem AbsentClear.write_leaf (ha : AbsentClear s lo T) (ht : Tables s lo T) (ht₀ : t₀ ∈ T 0)
    (hi : i.toNat < 512) : AbsentClear (s.write (slot (s.va t₀) i) x) lo T := by
  intro k t j htk hk hj hp
  rw [ht.entry_write_leaf ht₀ hi htk hj.1] at hp ⊢
  exact ha htk hk hj hp

/-- The walks take the same way as before. -/
theorem Tables.unmapWalk_write (ht : Tables s lo T) (ht₀ : t₀ ∈ T 0) (hi : i.toNat < 512)
    (htk : t ∈ T k) (hk : k ≤ 3) (hv : lo ≤ (getIndex 3 v).toNat) :
    (s.write (slot (s.va t₀) i) x).unmapWalk v k (slot (s.va t) (getIndex k v)) =
      s.unmapWalk v k (slot (s.va t) (getIndex k v)) := by
  induction k generalizing t with
  | zero => rfl
  | succ k ih =>
    have hentry := ht.entry_write_leaf (x := x) ht₀ hi htk (getIndex_lt (k + 1) v)
    have hsucc := unmapWalk_succ (s.write (slot (s.va t₀) i) x) v t k (i := getIndex (k + 1) v)
    rw [hentry] at hsucc
    refine hsucc.trans ?_
    rw [unmapWalk_succ]
    by_cases hp : s.entry t (getIndex (k + 1) v) &&& pgPresent ≠ 0
    · rw [if_pos hp, if_pos hp]
      exact ih (ht.child htk hk (inRange_getIndex hv _) hp) (by omega)
    · rw [if_neg hp, if_neg hp]

/-- What an address sees of a write on level 0. -/
theorem Tables.leafEntry_write (ht : Tables s lo T) (ht₀ : t₀ ∈ T 0) (hi : i.toNat < 512)
    (htk : t ∈ T k) (hk : k ≤ 3) (hv : lo ≤ (getIndex 3 v).toNat) :
    (s.write (slot (s.va t₀) i) x).leafEntry v k (slot (s.va t) (getIndex k v)) =
      if s.unmapWalk v k (slot (s.va t) (getIndex k v)) = some (slot (s.va t₀) i) then x
      else s.leafEntry v k (slot (s.va t) (getIndex k v)) := by
  rw [leafEntry, ht.unmapWalk_write ht₀ hi htk hk hv, leafEntry]
  cases s.unmapWalk v k (slot (s.va t) (getIndex k v)) with
  | none => simp
  | some a =>
    show Function.update s.mem _ x a = _
    simp [Function.update_apply]

/-- **No sharing.** Two walks that end at the same entry took the same indices. -/
theorem Unshared.unmapWalk_inj (hu : Unshared s lo T) (ht : Tables s lo T) (htk : t ∈ T k)
    (htk' : t' ∈ T k) (hk : k ≤ 3) (hv : lo ≤ (getIndex 3 v).toNat)
    (hv' : lo ≤ (getIndex 3 v').toNat)
    (ha : s.unmapWalk v k (slot (s.va t) (getIndex k v)) = some a)
    (ha' : s.unmapWalk v' k (slot (s.va t') (getIndex k v')) = some a) :
    (∀ m ≤ k, getIndex m v = getIndex m v') ∧ (k = 3 ∨ t = t') := by
  induction k generalizing t t' with
  | zero =>
    have heq : slot (s.va t) (getIndex 0 v) = slot (s.va t') (getIndex 0 v') :=
      (Option.some.inj ha).trans (Option.some.inj ha').symm
    obtain ⟨rfl, hindex⟩ := (slot_inj (ht.isPage htk) (ht.isPage htk') (getIndex_lt 0 v)
      (getIndex_lt 0 v')).mp heq
    refine ⟨fun m hm => ?_, Or.inr rfl⟩
    obtain rfl := Nat.le_zero.mp hm
    exact hindex
  | succ k ih =>
    rw [unmapWalk_succ] at ha ha'
    split at ha
    · next hp =>
      split at ha'
      · next hp' =>
        have hin := inRange_getIndex hv (k + 1)
        have hin' := inRange_getIndex hv' (k + 1)
        obtain ⟨hlow, hor⟩ := ih (ht.child htk hk hin hp) (ht.child htk' hk hin' hp') (by omega)
          ha ha'
        obtain ⟨hindex, htop⟩ := hu.inj htk htk' hk hin hin' hp hp' (hor.resolve_left (by omega))
        refine ⟨fun m hm => ?_, htop.imp_left (by omega)⟩
        by_cases hmk : m = k + 1
        · rw [hmk, hindex]
        · exact hlow m (by omega)
      · simp at ha'
    · simp at ha

/-- The walk from a level down depends on the lower indices only. -/
theorem unmapWalk_congr (s : MapperState P) (h : ∀ m < k, getIndex m v = getIndex m v')
    (a : BitVec 64) : s.unmapWalk v k a = s.unmapWalk v' k a := by
  induction k generalizing a with
  | zero => rfl
  | succ k ih =>
    rw [unmapWalk, unmapWalk, h k (Nat.lt_succ_self k)]
    split
    · exact ih (fun m hm => h m (Nat.lt_succ_of_lt hm)) _
    · rfl

/-! ### The readers -/

/-- No entry above level 0 has `PG_PS`. -/
theorem Unshared.ps_clear (hu : Unshared s lo T) (ha : AbsentClear s lo T) (htk : t ∈ T (k + 1))
    (hk : k < 3) (hin : InRange lo (k + 1) i) : s.entry t i &&& pgPs = 0 := by
  by_cases hp : s.entry t i &&& pgPresent = 0
  · exact ha htk hk hin hp
  · exact hu.ps htk hk hin hp

/-- **`is_mapped`** reads the level 0 entry. -/
theorem Unshared.isMappedWalk (hu : Unshared s lo T) (ha : AbsentClear s lo T) (ht : Tables s lo T)
    (htk : t ∈ T k) (hk : k ≤ 3) (hv : lo ≤ (getIndex 3 v).toNat) :
    s.isMappedWalk v k (slot (s.va t) (getIndex k v)) =
      decide (s.leafEntry v k (slot (s.va t) (getIndex k v)) &&& pgPresent ≠ 0) := by
  induction k generalizing t with
  | zero => rfl
  | succ k ih =>
    have hin := inRange_getIndex hv (k + 1)
    have hps := hu.ps_clear ha htk hk hin
    rw [leafEntry_succ]
    change (if s.entry t (getIndex (k + 1) v) &&& pgPs ≠ 0 then true
      else if s.entry t (getIndex (k + 1) v) &&& pgPresent ≠ 0 then _ else false) = _
    rw [if_neg (not_not.mpr hps)]
    by_cases hp : s.entry t (getIndex (k + 1) v) &&& pgPresent ≠ 0
    · rw [if_pos hp, if_pos hp]
      exact ih (ht.child htk hk hin hp) (by omega)
    · rw [if_neg hp, if_neg hp]
      rfl

/-- **`virt_to_pfn`** reads the level 0 entry. -/
theorem Unshared.virtToPfnWalk (hu : Unshared s lo T) (ha : AbsentClear s lo T)
    (ht : Tables s lo T) (htk : t ∈ T k) (hk : k ≤ 3) (hv : lo ≤ (getIndex 3 v).toNat) :
    s.virtToPfnWalk v k (slot (s.va t) (getIndex k v)) =
      (s.leafEntry v k (slot (s.va t) (getIndex k v)) &&& addrMask) >>> 12 := by
  induction k generalizing t with
  | zero => exact ushiftRight_pageEntry _ v
  | succ k ih =>
    have hin := inRange_getIndex hv (k + 1)
    have hps := hu.ps_clear ha htk hk hin
    rw [leafEntry_succ]
    change (if s.entry t (getIndex (k + 1) v) &&& pgPs ≠ 0 then _
      else if s.entry t (getIndex (k + 1) v) &&& pgPresent ≠ 0 then _ else 0) = _
    rw [if_neg (not_not.mpr hps)]
    by_cases hp : s.entry t (getIndex (k + 1) v) &&& pgPresent ≠ 0
    · rw [if_pos hp, if_pos hp]
      exact ih (ht.child htk hk hin hp) (by omega)
    · rw [if_neg hp, if_neg hp]
      rfl

/-! ### Mapping and unmapping a page -/

/-- The level 0 entry of `v` in the address space with the top-level table `r`. -/
def MapperState.leafOf (s : MapperState P) (r v : BitVec 64) : BitVec 64 :=
  s.leafEntry v 3 (slot (s.va r) (getIndex 3 v))

variable {r r' : BitVec 64}

theorem leafOf_congr (s : MapperState P) (r : BitVec 64) (h : pageNumber v = pageNumber v') :
    s.leafOf r v = s.leafOf r v' := by
  have h := pageNumber_eq_iff.mp h
  rw [leafOf, leafOf, leafEntry, leafEntry, h 3 le_rfl,
    unmapWalk_congr s (fun m hm => h m (by omega))]

theorem lo_le_congr (h : pageNumber v = pageNumber v') (hv : lo ≤ (getIndex 3 v).toNat) :
    lo ≤ (getIndex 3 v').toNat := by
  rwa [← pageNumber_eq_iff.mp h 3 le_rfl]

/-- **What `map_page` and `unmap_page` do** to the tables, at the page of `v` in the address space
`r`: its entry becomes `x`. -/
structure PageWritten (lo : ℕ) (s : MapperState P) (T : ℕ → Set (BitVec 64)) (s' : MapperState P)
    (T' : ℕ → Set (BitVec 64)) (r v x : BitVec 64) : Prop where
  tables : Tables s' lo T'
  hhdmOffset : s'.hhdmOffset = s.hhdmOffset
  sub : ∀ {k t}, t ∈ T k → t ∈ T' k
  roots : T' 3 = T 3
  new : ∀ {k t}, t ∈ T' k → t ∈ T k ∨ t ∉ P.used s.pages
  used : P.used s.pages ⊆ P.used s'.pages
  keep : ∀ {t i}, t ∈ T 3 → i.toNat < 512 → s.entry t i &&& pgPresent ≠ 0 →
    s'.entry t i = s.entry t i
  unshared : Unshared s lo T → Unshared s' lo T'
  absentClear : AbsentClear s lo T → AbsentClear s' lo T'
  self : ∀ {v'}, pageNumber v' = pageNumber v → s'.leafOf r v' = x
  other : Unshared s lo T → ∀ {r' v'}, r' ∈ T 3 → lo ≤ (getIndex 3 v').toNat →
    pageNumber v' ≠ pageNumber v → s'.leafOf r' v' = s.leafOf r' v'

/-- Writing the level 0 entry that the walk for `v` ends at. -/
theorem Tables.pageWritten (ht : Tables s lo T) (hr : r ∈ T 3) (hv : lo ≤ (getIndex 3 v).toNat)
    (ht₀ : t₀ ∈ T 0)
    (hfound : s.unmapWalk v 3 (slot (s.va r) (getIndex 3 v)) =
      some (slot (s.va t₀) (getIndex 0 v))) :
    PageWritten lo s T (s.write (slot (s.va t₀) (getIndex 0 v)) x) T r v x where
  tables := ht.write_leaf ht₀ (getIndex_lt 0 v)
  hhdmOffset := rfl
  sub h := h
  roots := rfl
  new h := Or.inl h
  used := subset_rfl
  keep htk hi _ := ht.entry_write_leaf ht₀ (getIndex_lt 0 v) htk hi
  unshared hu := hu.write_leaf ht ht₀ (getIndex_lt 0 v)
  absentClear ha := ha.write_leaf ht ht₀ (getIndex_lt 0 v)
  self h := by
    rw [leafOf_congr _ r h]
    refine (ht.leafEntry_write ht₀ (getIndex_lt 0 v) hr le_rfl hv).trans ?_
    rw [if_pos hfound]
  other hu r' v' hr' hv' hne := by
    refine (ht.leafEntry_write ht₀ (getIndex_lt 0 v) hr' le_rfl hv').trans ?_
    rw [if_neg fun hfound' => hne ?_]
    · rfl
    · exact pageNumber_eq_iff.mpr (hu.unmapWalk_inj ht hr' hr le_rfl hv' hv hfound' hfound).1

/-- The address of the top-level table does not move. -/
theorem Extends.leafOf (h : Extends lo l s T s' T') (hr : r ∈ T 3)
    (hv : lo ≤ (getIndex 3 v).toNat) : s'.leafOf r v = s.leafOf r v :=
  h.leaf hr le_rfl hv

theorem Extends.pageWritten (h : Extends lo 3 s T s' T') (hw : PageWritten lo s' T' s'' T' r v x) :
    PageWritten lo s T s'' T' r v x where
  tables := hw.tables
  hhdmOffset := hw.hhdmOffset.trans h.hhdmOffset
  sub := h.sub
  roots := h.top le_rfl
  new := h.new
  used := h.used.trans hw.used
  keep htk hi hp := by
    have heq := h.keep htk hi hp
    rw [hw.keep (h.sub htk) hi (by rwa [heq]), heq]
  unshared hu := hw.unshared (h.unshared hu)
  absentClear ha := hw.absentClear (h.absentClear ha)
  self := hw.self
  other hu r' v' hr' hv' hne := by
    rw [hw.other (h.unshared hu) (h.sub hr') hv' hne, h.leafOf hr' hv']

/-- **`map_page`** in one of the address spaces. -/
theorem Tables.mapPageNolock {phys flags : BitVec 64} (ht : Tables s lo T) (hr : r ∈ T 3)
    (hv : lo ≤ (getIndex 3 v).toNat)
    (hmap : s.mapPageNolock (s.va r) phys v flags = some s') :
    ∃ T', PageWritten lo s T s' T' r v (phys ||| flags ||| pgPresent) := by
  rw [MapperState.mapPageNolock] at hmap
  split at hmap
  · simp at hmap
  · obtain ⟨⟨a, s₁⟩, hwalk, rfl⟩ := Option.map_eq_some_iff.mp hmap
    obtain ⟨T', t₀, hext, ht₀, rfl, hfound⟩ := ht.mapWalk hr le_rfl hv hwalk
    exact ⟨T', hext.pageWritten (hext.tables.pageWritten (hext.sub hr) hv ht₀ hfound)⟩

/-- Where the walk of `unmap_page` ends. -/
theorem Tables.exists_slot (ht : Tables s lo T) (htk : t ∈ T k) (hk : k ≤ 3)
    (hv : lo ≤ (getIndex 3 v).toNat)
    (ha : s.unmapWalk v k (slot (s.va t) (getIndex k v)) = some a) :
    ∃ t₀ ∈ T 0, a = slot (s.va t₀) (getIndex 0 v) := by
  induction k generalizing t with
  | zero => exact ⟨t, htk, (Option.some.inj ha).symm⟩
  | succ k ih =>
    rw [unmapWalk_succ] at ha
    split at ha
    · next hp => exact ih (ht.child htk hk (inRange_getIndex hv _) hp) (by omega) ha
    · simp at ha

/-- **`unmap_page`** in one of the address spaces. -/
theorem Tables.unmapPageNolock (ht : Tables s lo T) (hr : r ∈ T 3)
    (hv : lo ≤ (getIndex 3 v).toNat) :
    PageWritten lo s T (s.unmapPageNolock (s.va r) v) T r v 0 := by
  rw [MapperState.unmapPageNolock]
  split
  · next a hfound =>
    obtain ⟨t₀, ht₀, rfl⟩ := ht.exists_slot hr le_rfl hv hfound
    exact ht.pageWritten hr hv ht₀ hfound
  · next hnone =>
    refine ⟨ht, rfl, id, rfl, Or.inl, subset_rfl, fun _ _ _ => rfl, id, id, fun h => ?_,
      fun _ {_ _} _ _ _ => rfl⟩
    rw [leafOf_congr s r h, leafOf, leafEntry, hnone]
    rfl

/-! ### What the entry of a mapped page says -/

theorem pageEntry_present (p f : BitVec 64) : (p ||| f ||| pgPresent) &&& pgPresent ≠ 0 := by
  intro h
  have := congrArg (fun w => w.getLsbD 0) h
  simp [pgPresent] at this

theorem pageEntry_and_addrMask {f : BitVec 64} (hp : IsPage p) (hf : f &&& ~~~pgFlagmask = 0) :
    (p ||| f ||| pgPresent) &&& addrMask = p := by
  have hf' : f &&& addrMask = 0 := by
    have hmask : addrMask = ~~~pgFlagmask &&& addrMask := by decide
    rw [hmask, ← BitVec.and_assoc, hf]
    exact BitVec.zero_and
  rw [BitVec.and_comm, BitVec.and_or_distrib_left, BitVec.and_or_distrib_left,
    show addrMask &&& pgPresent = 0 by decide, BitVec.and_comm addrMask f, hf', BitVec.and_comm, hp]
  simp

/-- The frame number of a page below `2 ^ 43` fits an `int`. -/
theorem toInt_frame (hlt : p.toNat < 2 ^ 43) :
    ((p >>> 12).setWidth 32).toInt = (p.toNat / 4096 : ℕ) := by
  have hnat : ((p >>> 12).setWidth 32).toNat = p.toNat / 4096 := by
    rw [BitVec.toNat_setWidth, BitVec.toNat_ushiftRight, Nat.shiftRight_eq_div_pow]
    omega
  rw [BitVec.toInt_eq_toNat_of_lt (by omega), hnat]

end GoofyOs
