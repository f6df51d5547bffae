import GoofyOs.MappedPages
import Mathlib.Algebra.BigOperators.Group.Finset.Basic
import Mathlib.Data.Finset.Card
import Mathlib.Data.Finset.Image

/-!
# The pages that `_vmalloc` takes

The loop of `_vmalloc` takes a page for each page of the range, and `map_page` takes one for each
table that is not there. Tables that the pages share are allocated for the first of them. So the
loop returns if and only if the allocator has a page for each page of the range and for each table
that is missing, where every table counts once.

## Main definitions

* `MapperState.missing` — how many tables are missing on the way to a page
* `tableNumber`, `MapperState.missingTables` — the tables that are missing for a range

## Main results

* `Tables.missing_mapWalk` — what is missing after `map_page` was called for another page
* `Tables.supplies_mapWalk` — what `map_page` takes
* `VmState.vmallocLoop_isSome` — when the loop of `_vmalloc` returns
-/

namespace GoofyOs

open MapperState

variable {P : PageSource} {s s' m m' : MapperState P} {lo k l addr i j n : ℕ}
  {t t' u v a c r : BitVec 64} {T : ℕ → Set (BitVec 64)}

/-- From the entry at `table` on level `level` on, the number of tables that are not there on the
way to level 0. -/
def MapperState.missing (s : MapperState P) (virt : BitVec 64) : ℕ → BitVec 64 → ℕ
  | 0, _ => 0
  | level + 1, table =>
    if s.mem table &&& pgPresent ≠ 0 then
      missing s virt level (slot (s.va (s.mem table &&& addrMask)) (getIndex level virt))
    else level + 1

/-- A table on level `level` is for `512 ^ (level + 1)` pages. -/
def tableNumber (level : ℕ) (v : BitVec 64) : ℕ := (pageNumber v).toNat / 512 ^ (level + 1)

/-- How many tables are missing for an address. -/
def MapperState.missingAt (m : MapperState P) (r v : BitVec 64) : ℕ :=
  m.missing v 3 (slot (m.va r) (getIndex 3 v))

/-- The numbers of the tables on a level that are missing for `n` pages of a range, from page `i`
on. -/
def MapperState.missingOn (m : MapperState P) (r : BitVec 64) (addr i n level : ℕ) : Finset ℕ :=
  ((Finset.range n).filter fun j => level < m.missingAt r (pageOf addr (i + j))).image
    fun j => tableNumber level (pageOf addr (i + j))

/-- How many tables are missing for `n` pages of a range, from page `i` on. -/
def MapperState.missingTables (m : MapperState P) (r : BitVec 64) (addr i n : ℕ) : ℕ :=
  ∑ level ∈ Finset.range 3, (m.missingOn r addr i n level).card

/-! ### The same tables -/

/-- Two addresses have the same indices on the levels above `j`. -/
def SamePath (j k : ℕ) (u v : BitVec 64) : Prop :=
  ∀ l, j < l → l ≤ k → getIndex l u = getIndex l v

theorem SamePath.succ_iff (h : getIndex (k + 1) u = getIndex (k + 1) v) :
    SamePath j (k + 1) u v ↔ SamePath j k u v := by
  constructor
  · intro hsame l hl hlk
    exact hsame l hl (Nat.le_succ_of_le hlk)
  · intro hsame l hl hlk
    rcases Nat.lt_or_eq_of_le hlk with hlt | rfl
    · exact hsame l hl (Nat.le_of_lt_succ hlt)
    · exact h

/-- The number of a table tells the indices on the levels above it. -/
theorem samePath_iff (hj : j < 3) : SamePath j 3 u v ↔ tableNumber j u = tableNumber j v := by
  rw [tableNumber, tableNumber, toNat_pageNumber, toNat_pageNumber]
  have hindex : ∀ l w, (getIndex l w).toNat = w.toNat / 2 ^ (12 + 9 * l) % 512 := toNat_getIndex
  constructor
  · intro h
    have h1 : j < 1 → (getIndex 1 u).toNat = (getIndex 1 v).toNat := fun hlt =>
      congrArg BitVec.toNat (h 1 hlt (by decide))
    have h2 : j < 2 → (getIndex 2 u).toNat = (getIndex 2 v).toNat := fun hlt =>
      congrArg BitVec.toNat (h 2 hlt (by decide))
    have h3 : (getIndex 3 u).toNat = (getIndex 3 v).toNat :=
      congrArg BitVec.toNat (h 3 hj le_rfl)
    rw [hindex, hindex] at h1 h2 h3
    interval_cases j <;> omega
  · intro h l hl hlk
    apply BitVec.eq_of_toNat_eq
    rw [hindex, hindex]
    interval_cases j <;> interval_cases l <;> omega

/-! ### One address -/

theorem missing_succ (s : MapperState P) (v t i : BitVec 64) (k : ℕ) :
    s.missing v (k + 1) (slot (s.va t) i) =
      if s.entry t i &&& pgPresent ≠ 0 then
        s.missing v k (slot (s.va (s.entry t i &&& addrMask)) (getIndex k v))
      else k + 1 := rfl

theorem missing_le (s : MapperState P) (v a : BitVec 64) : s.missing v k a ≤ k := by
  induction k generalizing a with
  | zero => exact le_rfl
  | succ k ih =>
    rw [MapperState.missing]
    split
    · exact (ih _).trans (Nat.le_succ k)
    · exact le_rfl

/-- Below a cleared table everything is missing. -/
theorem missing_of_clear (h : ∀ i : BitVec 64, i.toNat < 512 → s.entry t i = 0) :
    s.missing v k (slot (s.va t) (getIndex k v)) = k := by
  cases k with
  | zero => rfl
  | succ k =>
    rw [missing_succ, h _ (getIndex_lt (k + 1) v), if_neg]
    simp

/-- Where two addresses have the same indices, they lack the same tables. -/
theorem lt_missing_congr (h : SamePath j k u v) :
    j < s.missing u k (slot (s.va t) (getIndex k u)) ↔
      j < s.missing v k (slot (s.va t) (getIndex k v)) := by
  induction k generalizing t with
  | zero => rfl
  | succ k ih =>
    by_cases hj : j < k + 1
    · have hidx := h (k + 1) hj le_rfl
      rw [missing_succ, missing_succ, hidx]
      split
      · exact ih ((SamePath.succ_iff hidx).mp h)
      · rfl
    · have hu := missing_le s u (k := k + 1) (slot (s.va t) (getIndex (k + 1) u))
      have hv := missing_le s v (k := k + 1) (slot (s.va t) (getIndex (k + 1) v))
      omega

/-- Only the entries above level 0 matter. -/
theorem Tables.missing_congr (ht : Tables s lo T)
    (hentry : ∀ {l t} {i : BitVec 64}, l < k → t ∈ T (l + 1) → i.toNat < 512 →
      s'.entry t i = s.entry t i)
    (htk : t ∈ T k) (hk : k ≤ 3) (hv : lo ≤ (getIndex 3 v).toNat) :
    s'.missing v k (slot (s'.va t) (getIndex k v)) =
      s.missing v k (slot (s.va t) (getIndex k v)) := by
  induction k generalizing t with
  | zero => rfl
  | succ k ih =>
    have hin := inRange_getIndex hv (k + 1)
    rw [missing_succ, missing_succ, hentry (Nat.lt_succ_self k) htk hin.1]
    by_cases hp : s.entry t (getIndex (k + 1) v) &&& pgPresent ≠ 0
    · rw [if_pos hp, if_pos hp]
      exact ih (fun hl => hentry (Nat.lt_succ_of_lt hl)) (ht.child htk (by omega) hin hp) (by omega)
    · rw [if_neg hp, if_neg hp]

/-! ### After `map_page` -/

/-- The walk of `map_page` writes to no table above those that it passes. -/
theorem Tables.entry_mapWalk {x : BitVec 64} {b : BitVec 64} (ht : Tables s lo T) (htk : t ∈ T k)
    (hk : k ≤ 3) (hv : lo ≤ (getIndex 3 v).toNat)
    (hwalk : s.mapWalk v k (slot (s.va t) (getIndex k v)) = some (a, s')) (hx : x ∈ T l)
    (hl : k < l) (hb : b.toNat < 512) : s'.entry x b = s.entry x b := by
  induction k generalizing s T t with
  | zero =>
    obtain ⟨-, rfl⟩ := Prod.mk.inj (Option.some.inj hwalk)
    rfl
  | succ k ih =>
    rw [mapWalk_succ] at hwalk
    obtain ⟨⟨c, s₁⟩, hstep, hrest⟩ := Option.bind_eq_some_iff.mp hwalk
    have hin := inRange_getIndex hv (k + 1)
    obtain ⟨T₁, hext, hc, -⟩ := ht.mapStep htk hk hin hstep
    have hne : ¬ (x = t ∧ b = getIndex (k + 1) v) := by
      rintro ⟨rfl, -⟩
      exact absurd (ht.level htk hx) (ne_of_lt hl)
    exact (ih hext.tables hc (by omega) hrest (hext.sub hx) (by omega)).trans
      (ht.entry_mapStep htk hk hin hstep hx hb hne)

/-- One round of its loop changes nothing below. -/
theorem Tables.missing_mapStep (ht : Tables s lo T) (htk : t ∈ T (k + 1)) (hk : k < 3)
    {b : BitVec 64} (hb : InRange lo (k + 1) b) (hstep : s.mapStep (slot (s.va t) b) = some (c, s'))
    (ht' : t' ∈ T k) (hu : lo ≤ (getIndex 3 u).toNat) :
    s'.missing u k (slot (s'.va t') (getIndex k u)) =
      s.missing u k (slot (s.va t') (getIndex k u)) := by
  refine ht.missing_congr (fun hl hx hj => ?_) ht' hk.le hu
  refine ht.entry_mapStep htk hk hb hstep hx hj ?_
  rintro ⟨rfl, -⟩
  exact absurd (ht.level hx htk) (by omega)

/-- The walk from one table changes nothing below another one. -/
theorem Tables.missing_mapWalk_of_ne (ht : Tables s lo T) (hsh : Unshared s lo T) (htk : t ∈ T k)
    (htk' : t' ∈ T k) (hk : k ≤ 2) (hne : t ≠ t') (hv : lo ≤ (getIndex 3 v).toNat)
    (hu : lo ≤ (getIndex 3 u).toNat)
    (hwalk : s.mapWalk v k (slot (s.va t) (getIndex k v)) = some (a, s')) :
    s'.missing u k (slot (s'.va t') (getIndex k u)) =
      s.missing u k (slot (s.va t') (getIndex k u)) := by
  induction k generalizing s T t t' with
  | zero => rfl
  | succ k ih =>
    rw [mapWalk_succ] at hwalk
    obtain ⟨⟨c, s₁⟩, hstep, hrest⟩ := Option.bind_eq_some_iff.mp hwalk
    have hin := inRange_getIndex hv (k + 1)
    have hin' := inRange_getIndex hu (k + 1)
    obtain ⟨T₁, hext, hc, hp, hmask⟩ := ht.mapStep htk (by omega) hin hstep
    have hentry₁ := ht.entry_mapStep htk (by omega) hin hstep htk' hin'.1 fun h => hne h.1.symm
    have hentry := hext.tables.entry_mapWalk hc (by omega) hv hrest (hext.sub htk')
      (Nat.lt_succ_self k) hin'.1
    rw [missing_succ, missing_succ, hentry, hentry₁]
    by_cases hp' : s.entry t' (getIndex (k + 1) u) &&& pgPresent ≠ 0
    · have hc' := ht.child htk' (by omega) hin' hp'
      have hcc : c ≠ s.entry t' (getIndex (k + 1) u) &&& addrMask := by
        rintro rfl
        rw [← hentry₁] at hp' hmask
        obtain ⟨-, hk2 | heq⟩ := (hext.unshared hsh).inj (hext.sub htk) (hext.sub htk') (by omega)
          hin hin' hp hp' hmask
        · omega
        · exact hne heq
      rw [if_pos hp', if_pos hp', ih hext.tables (hext.unshared hsh) hc (hext.sub hc') (by omega) hcc
        hrest]
      exact ht.missing_mapStep htk (by omega) hin hstep hc' hu
    · rw [if_neg hp', if_neg hp']

/-- **After `map_page`**, an address lacks the tables that it lacked, but for those that it shares
with the address that was mapped. -/
theorem Tables.missing_mapWalk (ht : Tables s lo T) (hsh : Unshared s lo T) (htk : t ∈ T k)
    (hk : k ≤ 3) (hv : lo ≤ (getIndex 3 v).toNat) (hu : lo ≤ (getIndex 3 u).toNat)
    (hwalk : s.mapWalk v k (slot (s.va t) (getIndex k v)) = some (a, s')) :
    j < s'.missing u k (slot (s'.va t) (getIndex k u)) ↔
      j < s.missing u k (slot (s.va t) (getIndex k u)) ∧ ¬ SamePath j k u v := by
  induction k generalizing s T t with
  | zero => exact iff_of_false (Nat.not_lt_zero j) fun h => Nat.not_lt_zero j h.1
  | succ k ih =>
    rw [mapWalk_succ] at hwalk
    obtain ⟨⟨c, s₁⟩, hstep, hrest⟩ := Option.bind_eq_some_iff.mp hwalk
    have hin := inRange_getIndex hv (k + 1)
    have hin' := inRange_getIndex hu (k + 1)
    obtain ⟨T₁, hext, hc, hp, hmask⟩ := ht.mapStep htk hk hin hstep
    have hentry := hext.tables.entry_mapWalk hc (by omega) hv hrest (hext.sub htk)
      (Nat.lt_succ_self k) hin'.1
    by_cases hidx : getIndex (k + 1) u = getIndex (k + 1) v
    · -- both go on to the table that the round has found
      rw [missing_succ s', hentry, hidx, if_pos hp, hmask,
        ih hext.tables (hext.unshared hsh) hc (by omega) hrest, missing_succ, SamePath.succ_iff hidx]
      refine and_congr_left fun hpath => ?_
      rcases ht.mapStep_cases htk hk hin hstep with ⟨hold, rfl, rfl⟩ | ⟨pages, hadds, rfl⟩
      · rw [if_pos hold]
      · rw [if_neg (not_not.mpr hadds.absent), missing_of_clear fun _ hb => hadds.entry_new hb]
        refine ⟨fun hlt => Nat.lt_succ_of_lt hlt, fun hlt => ?_⟩
        rcases Nat.lt_or_eq_of_le (Nat.le_of_lt_succ hlt) with hlt | rfl
        · exact hlt
        · exact absurd (fun l hl hlk => absurd hl (Nat.not_lt.mpr hlk)) hpath
    · -- the address goes another way
      have hpath (hj : j < k + 1) : ¬ SamePath j (k + 1) u v := fun h => hidx (h (k + 1) hj le_rfl)
      have hentry₁ := ht.entry_mapStep htk hk hin hstep htk hin'.1 fun h => hidx h.2
      have hsame : s'.missing u (k + 1) (slot (s'.va t) (getIndex (k + 1) u)) =
          s.missing u (k + 1) (slot (s.va t) (getIndex (k + 1) u)) := by
        rw [missing_succ, missing_succ, hentry, hentry₁]
        by_cases hp' : s.entry t (getIndex (k + 1) u) &&& pgPresent ≠ 0
        · have hc' := ht.child htk hk hin' hp'
          have hcc : c ≠ s.entry t (getIndex (k + 1) u) &&& addrMask := by
            rintro rfl
            rw [← hentry₁] at hp' hmask
            exact hidx ((hext.unshared hsh).inj (hext.sub htk) (hext.sub htk) hk hin hin' hp hp'
              hmask).1.symm
          rw [if_pos hp', if_pos hp', hext.tables.missing_mapWalk_of_ne (hext.unshared hsh) hc
            (hext.sub hc') (by omega) hcc hv hu hrest]
          exact ht.missing_mapStep htk hk hin hstep hc' hu
        · rw [if_neg hp', if_neg hp']
      rw [hsame]
      refine ⟨fun hlt => ⟨hlt, hpath (hlt.trans_le (missing_le s u _))⟩, fun h => h.1⟩

/-- **What the walk of `map_page` takes** from the page allocator. -/
theorem Tables.supplies_mapWalk (ht : Tables s lo T) (htk : t ∈ T k) (hk : k ≤ 3)
    (hv : lo ≤ (getIndex 3 v).toNat) (n : ℕ) :
    P.supplies (s.missing v k (slot (s.va t) (getIndex k v)) + n) s.pages =
      (s.mapWalk v k (slot (s.va t) (getIndex k v))).any fun r => P.supplies n r.2.pages := by
  induction k generalizing s T t with
  | zero =>
    rw [MapperState.missing, MapperState.mapWalk, Nat.zero_add]
    rfl
  | succ k ih =>
    have hin := inRange_getIndex hv (k + 1)
    rw [missing_succ, mapWalk_succ, mapStep_slot]
    by_cases hp : s.entry t (getIndex (k + 1) v) &&& pgPresent ≠ 0
    · rw [if_pos hp, if_pos hp]
      exact ih ht (ht.child htk hk hin hp) (by omega)
    · rw [if_neg hp, if_neg hp, Nat.add_right_comm, PageSource.supplies]
      cases halloc : P.alloc s.pages with
      | none => rfl
      | some r =>
        obtain ⟨c, pages⟩ := r
        have hadds : AddsTable lo k s T t (getIndex (k + 1) v) c pages :=
          ⟨ht, htk, hk, hin, not_not.mp hp, halloc⟩
        have hrest := ih hadds.addTable (AddsTable.mem_iff.mpr (Or.inr ⟨rfl, rfl⟩)) (by omega)
        rw [missing_of_clear fun _ hb => hadds.entry_new hb] at hrest
        exact hrest

/-! ### The pages of a range -/

theorem mem_missingOn {x level : ℕ} : x ∈ m.missingOn r addr i n level ↔
    ∃ j < n, level < m.missingAt r (pageOf addr (i + j)) ∧
      tableNumber level (pageOf addr (i + j)) = x := by
  simp only [MapperState.missingOn, Finset.mem_image, Finset.mem_filter, Finset.mem_range,
    and_assoc]

/-- Pages of one table lack it both or not at all. -/
theorem lt_missingAt_congr {level : ℕ} (hlevel : level < 3)
    (h : tableNumber level u = tableNumber level v) :
    level < m.missingAt r u ↔ level < m.missingAt r v :=
  lt_missing_congr ((samePath_iff hlevel).mpr h)

theorem mem_missingOn_succ {x level : ℕ} : x ∈ m.missingOn r addr i (n + 1) level ↔
    (level < m.missingAt r (pageOf addr i) ∧ tableNumber level (pageOf addr i) = x) ∨
      x ∈ m.missingOn r addr (i + 1) n level := by
  have hsucc (j : ℕ) : i + 1 + j = i + (j + 1) := by omega
  rw [mem_missingOn, mem_missingOn]
  constructor
  · rintro ⟨j, hj, hlt, heq⟩
    cases j with
    | zero => exact Or.inl ⟨hlt, heq⟩
    | succ j =>
      rw [← hsucc] at hlt heq
      exact Or.inr ⟨j, by omega, hlt, heq⟩
  · rintro (⟨hlt, heq⟩ | ⟨j, hj, hlt, heq⟩)
    · exact ⟨0, Nat.succ_pos n, hlt, heq⟩
    · rw [hsucc] at hlt heq
      exact ⟨j + 1, by omega, hlt, heq⟩

/-- The first page, and what the other ones lack apart from its tables. -/
theorem card_missingOn_succ (m : MapperState P) (r : BitVec 64) (addr i n : ℕ) {level : ℕ}
    (hlevel : level < 3) : (m.missingOn r addr i (n + 1) level).card =
      ((m.missingOn r addr (i + 1) n level).erase (tableNumber level (pageOf addr i))).card +
        if level < m.missingAt r (pageOf addr i) then 1 else 0 := by
  by_cases hlt : level < m.missingAt r (pageOf addr i)
  · have hinsert : m.missingOn r addr i (n + 1) level =
        insert (tableNumber level (pageOf addr i)) (m.missingOn r addr (i + 1) n level) := by
      ext x
      rw [mem_missingOn_succ, Finset.mem_insert, and_iff_right hlt, eq_comm]
    rw [if_pos hlt, ← Finset.erase_insert_eq_erase, hinsert,
      Finset.card_erase_add_one (Finset.mem_insert_self _ _)]
  · have hnot : tableNumber level (pageOf addr i) ∉ m.missingOn r addr (i + 1) n level := by
      rw [mem_missingOn]
      rintro ⟨j, -, hmissing, heq⟩
      exact hlt ((lt_missingAt_congr hlevel heq).mp hmissing)
    have hsame : m.missingOn r addr i (n + 1) level = m.missingOn r addr (i + 1) n level := by
      ext x
      rw [mem_missingOn_succ, or_iff_right fun h => hlt h.1]
    rw [if_neg hlt, Finset.erase_eq_of_notMem hnot, hsame]
    rfl

theorem missingTables_succ (m : MapperState P) (r : BitVec 64) (addr i n : ℕ) :
    m.missingTables r addr i (n + 1) = m.missingAt r (pageOf addr i) +
      ∑ level ∈ Finset.range 3,
        ((m.missingOn r addr (i + 1) n level).erase (tableNumber level (pageOf addr i))).card := by
  have hle : m.missingAt r (pageOf addr i) ≤ 3 := missing_le _ _ _
  have hfirst : ∑ level ∈ Finset.range 3, (if level < m.missingAt r (pageOf addr i) then 1 else 0) =
      m.missingAt r (pageOf addr i) := by
    rw [Finset.sum_range_succ, Finset.sum_range_succ, Finset.sum_range_succ, Finset.sum_range_zero]
    split_ifs <;> omega
  rw [MapperState.missingTables, Finset.sum_congr rfl fun level hlevel =>
    card_missingOn_succ m r addr i n (Finset.mem_range.mp hlevel), Finset.sum_add_distrib, hfirst,
    Nat.add_comm]

/-- **After the first page was mapped**, its tables are there. -/
theorem TableTree.missingOn_mapPage {phys flags : BitVec 64} (h : TableTree m lo r T)
    (hlo : ∀ j ≤ n, lo ≤ (getIndex 3 (pageOf addr (i + j))).toNat)
    (hmap : m.mapPageNolock (m.va r) phys (pageOf addr i) flags = some m') {level : ℕ}
    (hlevel : level < 3) : m'.missingOn r addr (i + 1) n level =
      (m.missingOn r addr (i + 1) n level).erase (tableNumber level (pageOf addr i)) := by
  have hv := hlo 0 (Nat.zero_le n)
  rw [Nat.add_zero] at hv
  rw [mapPageNolock] at hmap
  split at hmap
  · exact absurd hmap.symm (Option.some_ne_none _)
  · obtain ⟨⟨a, m₁⟩, hwalk, rfl⟩ := Option.map_eq_some_iff.mp hmap
    obtain ⟨T₁, t₀, hext, ht₀, rfl, -⟩ := h.tables.mapWalk h.root le_rfl hv hwalk
    have hmissing (j : ℕ) (hj : j < n) :
        level < (m₁.write (slot (m₁.va t₀) (getIndex 0 (pageOf addr i)))
            (phys ||| flags ||| pgPresent)).missingAt r (pageOf addr (i + 1 + j)) ↔
          level < m.missingAt r (pageOf addr (i + 1 + j)) ∧
            tableNumber level (pageOf addr (i + 1 + j)) ≠ tableNumber level (pageOf addr i) := by
      have hu : lo ≤ (getIndex 3 (pageOf addr (i + 1 + j))).toNat := by
        rw [Nat.add_assoc, Nat.add_comm 1 j]
        exact hlo (j + 1) hj
      have hwrite : (m₁.write (slot (m₁.va t₀) (getIndex 0 (pageOf addr i)))
            (phys ||| flags ||| pgPresent)).missingAt r (pageOf addr (i + 1 + j)) =
          m₁.missingAt r (pageOf addr (i + 1 + j)) :=
        hext.tables.missing_congr (fun _ htl hb =>
          hext.tables.entry_write_leaf ht₀ (getIndex_lt 0 _) htl hb) (hext.sub h.root) le_rfl hu
      rw [hwrite, ne_eq, ← samePath_iff hlevel]
      exact h.tables.missing_mapWalk h.unshared h.root le_rfl hv hu hwalk
    ext x
    rw [Finset.mem_erase, mem_missingOn, mem_missingOn]
    constructor
    · rintro ⟨j, hj, hlt, rfl⟩
      obtain ⟨hlt, hne⟩ := (hmissing j hj).mp hlt
      exact ⟨hne, j, hj, hlt, rfl⟩
    · rintro ⟨hne, j, hj, hlt, rfl⟩
      exact ⟨j, hj, (hmissing j hj).mpr ⟨hlt, hne⟩, rfl⟩

/-- **What `map_page` takes** from the page allocator. -/
theorem TableTree.supplies_mapPage {flags : BitVec 64} (h : TableTree m lo r T)
    (hv : lo ≤ (getIndex 3 v).toNat) (hflags : flags &&& ~~~pgFlagmask = 0) (phys : BitVec 64)
    (n : ℕ) : P.supplies (m.missingAt r v + n) m.pages =
      (m.mapPageNolock (m.va r) phys v flags).any fun m' => P.supplies n m'.pages := by
  have htakes := h.tables.supplies_mapWalk h.root le_rfl hv n
  rw [mapPageNolock, if_neg (not_not.mpr hflags)]
  refine htakes.trans ?_
  cases m.mapWalk v 3 (slot (m.va r) (getIndex 3 v)) with
  | none => rfl
  | some q => rfl

/-- The page allocator does not matter. -/
theorem missingAt_pages (m : MapperState P) (pages : P.State) (r v : BitVec 64) :
    ({ m with pages := pages } : MapperState P).missingAt r v = m.missingAt r v := by
  have hmissing (k : ℕ) (a : BitVec 64) :
      ({ m with pages := pages } : MapperState P).missing v k a = m.missing v k a := by
    induction k generalizing a with
    | zero => rfl
    | succ k ih =>
      rw [MapperState.missing, MapperState.missing]
      split
      · exact ih _
      · rfl
  exact hmissing 3 _

theorem missingOn_pages (m : MapperState P) (pages : P.State) (r : BitVec 64) (addr i n level : ℕ) :
    ({ m with pages := pages } : MapperState P).missingOn r addr i n level =
      m.missingOn r addr i n level := by
  simp only [MapperState.missingOn, missingAt_pages]

namespace VmState

variable {s s' : VmState P} {flags : BitVec 64}

/-- **The loop of `_vmalloc` returns** if and only if there is a page for each page of the range and
for each table that is missing. -/
theorem vmallocLoop_isSome (h : TableTree s.mapper lo s.kernel T) {total : ℕ}
    (hspan : PageSpan lo addr total) (hn : i + n ≤ total) (hlock : s.ptLock = false)
    (hflags : flags &&& ~~~pgFlagmask = 0) :
    (vmallocLoop addr flags n i s).isSome =
      P.supplies (n + s.mapper.missingTables s.kernel addr i n) s.mapper.pages := by
  induction n generalizing s T i with
  | zero =>
    rw [vmallocLoop, MapperState.missingTables]
    simp [MapperState.missingOn, PageSource.supplies]
  | succ n ih =>
    rw [vmallocLoop, pgalloc, missingTables_succ, Nat.add_right_comm n 1, PageSource.supplies]
    cases halloc : P.alloc s.mapper.pages with
    | none => rfl
    | some q =>
      obtain ⟨p, pages⟩ := q
      have hv := hspan.lo_le (show i < total by omega)
      have hphys : s.mapper.va p - s.mapper.hhdmOffset = p := BitVec.add_sub_cancel _ _
      have hset := h.setPages addr i (P.used_alloc halloc ▸ Set.subset_insert p _)
      let rest := ∑ level ∈ Finset.range 3, ((s.mapper.missingOn s.kernel addr (i + 1) n level).erase
        (tableNumber level (pageOf addr i))).card
      have htakes := hset.tree.supplies_mapPage hv hflags p (n + rest)
      rw [missingAt_pages, Nat.add_left_comm] at htakes
      refine Eq.trans ?_ htakes.symm
      simp only [Option.map_some, Option.bind_eq_bind, Option.bind_some, hphys]
      rw [mapPage, if_neg (by simp [hlock])]
      cases hmap : ({ s.mapper with pages := pages } : MapperState P).mapPageNolock
          (({ s.mapper with pages := pages } : MapperState P).va s.kernel) p (pageOf addr i)
          flags with
      | none => rfl
      | some m₁ =>
        obtain ⟨T₁, hone⟩ := hset.tree.mapPage hv hmap
        have hlo (j : ℕ) (hj : j ≤ n) : lo ≤ (getIndex 3 (pageOf addr (i + j))).toNat :=
          hspan.lo_le (by omega)
        have hrest : m₁.missingTables s.kernel addr (i + 1) n = rest := by
          refine Finset.sum_congr rfl fun level hlevel => ?_
          rw [hset.tree.missingOn_mapPage hlo hmap (Finset.mem_range.mp hlevel), missingOn_pages]
        have hround := ih (s := { s with mapper := m₁, obtained := s.obtained ++ [p] }) hone.tree
          (i := i + 1) (by omega) hlock
        rw [hrest] at hround
        exact hround

end VmState

end GoofyOs
