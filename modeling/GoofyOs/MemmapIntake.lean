import GoofyOs.BuddyInit

/-!
# Taking over the memory map

`setup_memmap_regions` copies the usable entries of the memory map into `mm_phys_regions`, and
`buddy_init` copies these regions into `buddy_zones`. Both tables have 32 elements. Neither loop
compares its index to that number: the boot loader decides how many there are.

An access past the end of a table is a fault that names the index, and so is the overflow of an
`int`. Nothing is said about what happens after a fault.

## Main definitions

* `setupMemmapRegions`, `fillZones` — the two loops
* `usableRegions` — the regions that a memory map gives
* `TakenOver` — what is asked of the loops

## Main results

* `MemmapState.Holds.fillZones` — the zones are those that `buddy_init` goes on with
* `setupMemmapRegions_fault` — where a map with too many usable entries goes wrong
* `memmap_takenOver_iff` — which maps are taken over
-/

namespace GoofyOs

/-- `MM_MAX_MEMORY_REGIONS`. -/
def mmMaxMemoryRegions : ℕ := 0x20

/-- `struct limine_memmap_entry`. -/
structure LimineMemmapEntry where
  base : ℕ
  length : ℕ
  type : ℕ

/-- `LIMINE_MEMMAP_USABLE`. -/
def limineMemmapUsable : ℕ := 0

/-- What ends a loop before its time: an access to an element that the table does not have, or an
`int` that overflows. -/
inductive TableFault
  | outOfBounds (i : ℕ)
  | overflow
  deriving DecidableEq

/-- `mm_phys_regions` and `mm_region_count`. -/
structure MemmapState where
  regions : List MemmapRegion
  regionCount : ℕ

/-- Reading an element of a table. -/
def getEntry {α : Type*} (table : List α) (i : ℕ) : Except TableFault α :=
  match table[i]? with
  | some x => .ok x
  | none => .error (.outOfBounds i)

/-- Writing an element of a table. -/
def setEntry {α : Type*} (table : List α) (i : ℕ) (x : α) : Except TableFault (List α) :=
  if i < table.length then .ok (table.set i x) else .error (.outOfBounds i)

/-- `n++` on an `int`. -/
def incInt (n : ℕ) : Except TableFault ℕ := if n + 1 < 2 ^ 31 then .ok (n + 1) else .error .overflow

/-- The body of the loop of `setup_memmap_regions`. -/
def takeEntry (entry : LimineMemmapEntry) (s : MemmapState) : Except TableFault MemmapState :=
  if entry.type = limineMemmapUsable then do
    let regions ← setEntry s.regions s.regionCount ⟨entry.base, entry.length⟩
    let regionCount ← incInt s.regionCount
    pure ⟨regions, regionCount⟩
  else pure s

/-- The loop of `setup_memmap_regions`, from entry `i` on. -/
def setupLoop : List LimineMemmapEntry → ℕ → MemmapState → Except TableFault MemmapState
  | [], _, s => .ok s
  | entry :: entries, i, s => do
    let s ← takeEntry entry s
    let i ← incInt i
    setupLoop entries i s

/-- `setup_memmap_regions`, on zeroed memory. -/
def setupMemmapRegions (entries : List LimineMemmapEntry) : Except TableFault MemmapState :=
  setupLoop entries 0 ⟨List.replicate mmMaxMemoryRegions ⟨0, 0⟩, 0⟩

/-- The loop of `buddy_init` that fills `buddy_zones`, with `n` rounds to go. -/
def fillZonesLoop (s : MemmapState) : ℕ → ℕ → List BuddyZone → Except TableFault (List BuddyZone)
  | 0, _, zones => .ok zones
  | n + 1, i, zones => do
    let r ← getEntry s.regions i
    let zones ← setEntry zones i ⟨r.base >>> 12, asUint (r.size >>> 12)⟩
    fillZonesLoop s n (i + 1) zones

/-- The first loop of `buddy_init`, on zeroed memory. -/
def fillZones (s : MemmapState) : Except TableFault (List BuddyZone) :=
  fillZonesLoop s s.regionCount 0 (List.replicate maxBuddyZones ⟨0, 0⟩)

/-- The usable entries of a memory map, in order. -/
def usableRegions (entries : List LimineMemmapEntry) : List MemmapRegion :=
  (entries.filter (·.type = limineMemmapUsable)).map fun entry => ⟨entry.base, entry.length⟩

/-- The usable entries are in `mm_phys_regions`, in order, and neither this table nor
`buddy_zones` is accessed past its end. -/
def TakenOver (entries : List LimineMemmapEntry) : Prop :=
  ∃ s zones, setupMemmapRegions entries = .ok s ∧
    s.regions.take s.regionCount = usableRegions entries ∧
    s.regionCount = (usableRegions entries).length ∧ fillZones s = .ok zones

variable {entries : List LimineMemmapEntry} {entry : LimineMemmapEntry} {s s' : MemmapState}
  {done : List MemmapRegion} {i n : ℕ} {f : TableFault} {zones : List BuddyZone}

/-- The table holds these regions. -/
structure MemmapState.Holds (s : MemmapState) (done : List MemmapRegion) : Prop where
  length : s.regions.length = mmMaxMemoryRegions
  regionCount : s.regionCount = done.length
  take : s.regions.take done.length = done

namespace MemmapState.Holds

theorem length_le (h : s.Holds done) : done.length ≤ 32 := by
  have hle := List.length_take_le' done.length s.regions
  rwa [h.take, h.length] at hle

theorem regions_eq (h : s.Holds done) : s.regions = done ++ s.regions.drop done.length := by
  conv_lhs => rw [← List.take_append_drop done.length s.regions, h.take]

/-- **One entry.** A usable one needs room in the table. -/
theorem takeEntry (h : s.Holds done) (entry : LimineMemmapEntry)
    (hroom : done.length + (usableRegions [entry]).length ≤ 32) :
    ∃ s', takeEntry entry s = .ok s' ∧ s'.Holds (done ++ usableRegions [entry]) := by
  by_cases husable : entry.type = limineMemmapUsable
  · have hone : usableRegions [entry] = [⟨entry.base, entry.length⟩] := by
      simp [usableRegions, husable]
    rw [hone, List.length_singleton] at hroom
    have hlt : s.regionCount < s.regions.length := by
      rw [h.length, h.regionCount]
      exact hroom
    have hcount : s.regionCount + 1 < 2 ^ 31 := by
      rw [h.regionCount]
      omega
    refine ⟨⟨s.regions.set s.regionCount ⟨entry.base, entry.length⟩, s.regionCount + 1⟩, ?_, ?_⟩
    · rw [GoofyOs.takeEntry, if_pos husable, setEntry, if_pos hlt, incInt, if_pos hcount]
      rfl
    · rw [hone]
      refine ⟨List.length_set.trans h.length, ?_, ?_⟩
      · rw [List.length_append, ← h.regionCount, List.length_singleton]
      · show (s.regions.set s.regionCount _).take _ = _
        rw [h.regionCount, List.length_append, List.length_singleton,
          List.set_eq_take_append_cons_drop, if_pos (h.regionCount ▸ hlt), h.take,
          List.append_cons, List.take_left' (by rw [List.length_append, List.length_singleton])]
  · have hnone : usableRegions [entry] = [] := by simp [usableRegions, husable]
    refine ⟨s, if_neg husable, ?_⟩
    rwa [hnone, List.append_nil]

/-- A usable entry without room is stored past the end. -/
theorem takeEntry_fault (h : s.Holds done)
    (hroom : 32 < done.length + (usableRegions [entry]).length) :
    GoofyOs.takeEntry entry s = .error (.outOfBounds 32) := by
  have hle := h.length_le
  have husable : entry.type = limineMemmapUsable := by
    by_contra husable
    have hnone : usableRegions [entry] = [] := by simp [usableRegions, husable]
    rw [hnone, List.length_nil] at hroom
    omega
  have hlen : (usableRegions [entry]).length ≤ 1 := by
    simp [usableRegions, husable]
  have hcount : s.regionCount = 32 := by
    rw [h.regionCount]
    omega
  have hfull : ¬ 32 < s.regions.length := Nat.not_lt.mpr h.length.le
  rw [GoofyOs.takeEntry, if_pos husable, setEntry, hcount, if_neg hfull]
  rfl

end MemmapState.Holds

theorem usableRegions_cons : usableRegions (entry :: entries) =
    usableRegions [entry] ++ usableRegions entries := by
  rw [usableRegions, usableRegions, usableRegions, ← List.map_append, ← List.filter_append]
  rfl

/-- **The loop** over entries that fit. -/
theorem MemmapState.Holds.setupLoop (h : s.Holds done) (entries : List LimineMemmapEntry)
    (hroom : done.length + (usableRegions entries).length ≤ 32) (hi : i + entries.length < 2 ^ 31) :
    ∃ s', setupLoop entries i s = .ok s' ∧ s'.Holds (done ++ usableRegions entries) := by
  induction entries generalizing done s i with
  | nil => exact ⟨s, rfl, by rwa [show usableRegions [] = [] from rfl, List.append_nil]⟩
  | cons entry entries ih =>
    rw [usableRegions_cons, List.length_append] at hroom
    rw [List.length_cons] at hi
    obtain ⟨s₁, htake, hholds⟩ := h.takeEntry entry (by omega)
    obtain ⟨s', hloop, hholds'⟩ := ih (i := i + 1) hholds
      (by rw [List.length_append]; omega) (by omega)
    refine ⟨s', ?_, ?_⟩
    · rw [GoofyOs.setupLoop, htake, incInt, if_pos (by omega)]
      exact hloop
    · rwa [usableRegions_cons, ← List.append_assoc]

/-- The loop over entries that do not fit. -/
theorem MemmapState.Holds.setupLoop_fault (h : s.Holds done)
    (entries : List LimineMemmapEntry) (hi : i < 2 ^ 31)
    (hmany : 32 < done.length + (usableRegions entries).length ∨ 2 ^ 31 ≤ i + entries.length) :
    ∃ f, GoofyOs.setupLoop entries i s = .error f ∧
      (i + entries.length < 2 ^ 31 → f = .outOfBounds 32) := by
  induction entries generalizing done s i with
  | nil =>
    have hle := h.length_le
    rw [show usableRegions [] = [] from rfl, List.length_nil, List.length_nil] at hmany
    omega
  | cons entry entries ih =>
    rw [usableRegions_cons, List.length_append, List.length_cons] at hmany
    by_cases hroom : done.length + (usableRegions [entry]).length ≤ 32
    · obtain ⟨s₁, htake, hholds⟩ := h.takeEntry entry hroom
      rw [GoofyOs.setupLoop, htake, List.length_cons]
      by_cases hnext : i + 1 < 2 ^ 31
      · obtain ⟨f, hloop, hf⟩ := ih (i := i + 1) hholds hnext
          (by rw [List.length_append]; omega)
        refine ⟨f, ?_, fun hlt => hf (by omega)⟩
        rw [incInt, if_pos hnext]
        exact hloop
      · refine ⟨.overflow, ?_, fun hlt => absurd hlt (by omega)⟩
        rw [incInt, if_neg hnext]
        rfl
    · refine ⟨.outOfBounds 32, ?_, fun _ => rfl⟩
      rw [GoofyOs.setupLoop, h.takeEntry_fault (by omega)]
      rfl

theorem holds_start : MemmapState.Holds ⟨List.replicate mmMaxMemoryRegions ⟨0, 0⟩, 0⟩ [] :=
  ⟨List.length_replicate, rfl, rfl⟩

/-- The loop of `buddy_init`, with the zones so far. -/
theorem MemmapState.Holds.fillZonesLoop (h : s.Holds done) (hi : i ≤ done.length)
    (hn : done.length = i + n) (hzones : zones = zonesOf (done.take i)) :
    fillZonesLoop s n i zones = .ok (zonesOf done) := by
  induction n generalizing i zones with
  | zero => rw [GoofyOs.fillZonesLoop, hzones, List.take_of_length_le (by omega)]
  | succ n ih =>
    have hle := h.length_le
    have hlt : i < done.length := by omega
    have hget : s.regions[i]? = some done[i] := by
      rw [h.regions_eq, List.getElem?_append_left hlt, List.getElem?_eq_getElem hlt]
    have hlen : (done.take i).length = i := List.length_take_of_le hlt.le
    have hset : zones.set i ⟨done[i].base >>> 12, asUint (done[i].size >>> 12)⟩ =
        zonesOf (done.take (i + 1)) := by
      have hrest : maxBuddyZones - i = maxBuddyZones - (i + 1) + 1 := by
        rw [show maxBuddyZones = 32 from rfl]
        omega
      rw [hzones, zonesOf, zonesOf, hlen, List.length_take_of_le hlt, hrest,
        List.set_append_right _ _ (by rw [List.length_map, hlen]), List.length_map, hlen,
        Nat.sub_self, List.replicate_succ, List.set_cons_zero, List.take_succ_eq_append_getElem hlt,
        List.map_append, List.append_assoc]
      rfl
    have hroom : i < zones.length := by
      rw [hzones, zonesOf, List.length_append, List.length_map, List.length_replicate, hlen,
        show maxBuddyZones = 32 from rfl]
      omega
    rw [GoofyOs.fillZonesLoop, getEntry, hget]
    show (setEntry zones i _ >>= _) = _
    rw [setEntry, if_pos hroom, hset]
    exact ih (by omega) (by omega) rfl

/-- **The zones** are those that `buddy_init` goes on with. -/
theorem MemmapState.Holds.fillZones (h : s.Holds done) : fillZones s = .ok (zonesOf done) := by
  rw [GoofyOs.fillZones, h.regionCount]
  exact h.fillZonesLoop (Nat.zero_le _) (Nat.zero_add _).symm rfl

/-- **Too many usable entries.** The first store past the end of the table is at its length. -/
theorem setupMemmapRegions_fault (hmany : 32 < (usableRegions entries).length)
    (hlen : entries.length < 2 ^ 31) : setupMemmapRegions entries = .error (.outOfBounds 32) := by
  obtain ⟨f, hloop, hf⟩ := holds_start.setupLoop_fault entries (i := 0) (by decide)
    (Or.inl (by rwa [List.length_nil, Nat.zero_add]))
  rw [setupMemmapRegions, hloop, hf (by rwa [Nat.zero_add])]

/-- **Taking over the memory map** goes well just when at most 32 of its entries are usable, and an
`int` can count its entries. -/
theorem memmap_takenOver_iff (entries : List LimineMemmapEntry) : TakenOver entries ↔
    (usableRegions entries).length ≤ 32 ∧ entries.length < 2 ^ 31 := by
  constructor
  · rintro ⟨s, zones, hsetup, -, -, -⟩
    by_contra hmany
    obtain ⟨f, hloop, -⟩ := holds_start.setupLoop_fault entries (i := 0) (by decide)
      (by rw [List.length_nil]; omega)
    rw [setupMemmapRegions, hloop] at hsetup
    cases hsetup
  · rintro ⟨hroom, hlen⟩
    obtain ⟨s, hloop, hholds⟩ := holds_start.setupLoop entries (i := 0)
      (by rwa [List.length_nil, Nat.zero_add]) (by rwa [Nat.zero_add])
    rw [List.nil_append] at hholds
    refine ⟨s, _, hloop, ?_, hholds.regionCount, hholds.fillZones⟩
    rw [hholds.regionCount, hholds.take]

/-- A memory map with 33 usable entries. -/
def longMemmap : List LimineMemmapEntry := List.replicate 33 ⟨0x1000, 0x1000, limineMemmapUsable⟩

/-- The last entry is stored past the end of the table. -/
theorem not_memmap_takenOver : ¬ ∀ entries, TakenOver entries := by
  intro h
  obtain ⟨s, zones, hsetup, -⟩ := h longMemmap
  rw [setupMemmapRegions_fault (by decide) (by decide)] at hsetup
  cases hsetup

end GoofyOs
