import GoofyOs.ForMathlib.Records
import Mathlib.Algebra.Group.Nat.Defs
import Mathlib.Data.List.Range

/-!
# The walk over the MADT

`parse_madt` goes through the entries of the MADT by the length that each of them gives. Nothing
checks these lengths, and an entry of length zero is visited for ever. The walk stops at
`hdr.length` bytes after the first entry, which is 44 bytes after the end of the table, so it takes
what follows the table for an entry. The id of an I/O APIC is an index into `ioapics`, unchecked.

Positions are offsets from the start of the table, and the memory goes on after the table. The
layout is the one of ACPI: the length of the table is at offset 4, the entries begin at offset 44,
and the first two bytes of an entry are its type and its length.

## Main definitions

* `acpiNext`, `madtBody`, `parseMadt` — the code
* `madtVisit`, `madtReads`, `ioapicIndex` — the entry that a round visits, and what it accesses
* `WellFormedMadt` — entries of non-zero length that fill the table

## Main results

* `madtBody_fst` — the code writes at the indices
* `parseMadtLoop_eq` — what the walk does over records that lead to its end
* `parseMadt_ends_iff` — when the walk ends
* `WellFormedMadt.visit` — where it goes in a well-formed table
* `not_staysInside` — it always leaves the table
-/

namespace GoofyOs

/-- `MAX_IOAPICS`. -/
def maxIoapics : ℕ := 8

/-- `ACPI_MADT_ENTRY_TYPE_LAPIC`. -/
def madtLapic : UInt8 := 0

/-- `ACPI_MADT_ENTRY_TYPE_IOAPIC`. -/
def madtIoapic : UInt8 := 1

/-- `ACPI_MADT_ENTRY_TYPE_LOCAL_X2APIC`. -/
def madtLocalX2apic : UInt8 := 9

/-- The offset of `entries` in `struct acpi_madt`. -/
def madtEntries : ℕ := 44

/-- A little-endian `uint32_t`. -/
def readU32 (mem : ℕ → UInt8) (o : ℕ) : ℕ :=
  (mem o).toNat + 2 ^ 8 * (mem (o + 1)).toNat + 2 ^ 16 * (mem (o + 2)).toNat +
    2 ^ 24 * (mem (o + 3)).toNat

/-- `madt->hdr.length`. -/
def madtLength (mem : ℕ → UInt8) : ℕ := readU32 mem 4

/-- The pointer `end`. -/
def madtEnd (mem : ℕ → UInt8) : ℕ := madtEntries + madtLength mem

/-- The `length` of an entry. -/
def entryLength (mem : ℕ → UInt8) (hdr : ℕ) : ℕ := (mem (hdr + 1)).toNat

/-- `acpi_next`. -/
def acpiNext (mem : ℕ → UInt8) (hdr : ℕ) : ℕ := hdr + entryLength mem hdr

section Code

variable {σ : Type*} (vmapContiguous : ℕ → ℕ → σ → ℕ × σ) (mem : ℕ → UInt8)

/-- The body of the loop of `parse_madt`, without its messages: the assignments to
`ioapics[id].base`, and the state of the memory manager. -/
def madtBody (r : List (ℕ × ℕ) × σ) (curr : ℕ) : List (ℕ × ℕ) × σ :=
  if mem curr = madtLocalX2apic ∨ mem curr = madtLapic then r
  else if mem curr = madtIoapic then
    let (base, s) := vmapContiguous (readU32 mem (curr + 4)) 0x1000 r.2
    (r.1 ++ [((mem (curr + 2)).toNat, base)], s)
  else r

/-- The loop of `parse_madt`. -/
def parseMadtLoop : ℕ → ℕ → List (ℕ × ℕ) × σ → Option (List (ℕ × ℕ) × σ)
  | 0, _, _ => none
  | fuel + 1, curr, r =>
    if curr < madtEnd mem then
      parseMadtLoop fuel (acpiNext mem curr) (madtBody vmapContiguous mem r curr)
    else some r

/-- `parse_madt`. -/
def parseMadt (fuel : ℕ) (s : σ) : Option (List (ℕ × ℕ) × σ) :=
  parseMadtLoop vmapContiguous mem fuel madtEntries ([], s)

end Code

/-! ### What a round accesses -/

/-- The entry that round `k` visits, if the loop goes round that often. -/
def madtVisit (mem : ℕ → UInt8) (k : ℕ) : Option ℕ :=
  (trail (recordWalk (entryLength mem) (madtEnd mem)) madtEntries k).filter (· < madtEnd mem)

/-- The offsets that a round reads: the type, the fields for its case, and the length. -/
def madtReads (mem : ℕ → UInt8) (curr : ℕ) : List ℕ :=
  curr ::
    (if mem curr = madtLocalX2apic ∨ mem curr = madtLapic then [curr + 2]
      else if mem curr = madtIoapic then (curr + 2) :: List.range' (curr + 4) 4
      else []) ++ [curr + 1]

/-- The index into `ioapics` that a round writes. -/
def ioapicIndex (mem : ℕ → UInt8) (curr : ℕ) : Option ℕ :=
  if mem curr = madtIoapic then some (mem (curr + 2)).toNat else none

/-- The table is well formed, with its entries at these offsets. -/
def WellFormedMadt (mem : ℕ → UInt8) (entries : List ℕ) : Prop :=
  Records (entryLength mem) madtEntries entries (madtLength mem)

/-- Exactly the entries are visited, in order, nothing is read at or after the end of the table,
and only elements of `ioapics` are written. -/
structure StaysInside (mem : ℕ → UInt8) (entries : List ℕ) : Prop where
  visits : ∀ k, madtVisit mem k = entries[k]?
  reads : ∀ k curr, madtVisit mem k = some curr → ∀ o ∈ madtReads mem curr, o < madtLength mem
  stores : ∀ k curr, madtVisit mem k = some curr → ∀ i ∈ ioapicIndex mem curr, i < maxIoapics

variable {σ : Type*} {vmapContiguous : ℕ → ℕ → σ → ℕ × σ} {mem : ℕ → UInt8} {entries : List ℕ}
  {r r' : List (ℕ × ℕ) × σ} {fuel curr stop k : ℕ}

/-! ### The loop -/

/-- The assignments are those to the indices. -/
theorem madtBody_fst : (madtBody vmapContiguous mem r curr).1.map Prod.fst =
    r.1.map Prod.fst ++ (ioapicIndex mem curr).toList := by
  rw [madtBody, ioapicIndex]
  split
  · next hlapic =>
    have hne : mem curr ≠ madtIoapic := by
      rcases hlapic with h | h <;> rw [h] <;> decide
    rw [if_neg hne, Option.toList_none, List.append_nil]
  · split
    · simp
    · simp

/-- The loop has a result just when the walk is at its end. -/
theorem parseMadtLoop_isSome_iff : (parseMadtLoop vmapContiguous mem fuel curr r).isSome ↔
    trail (recordWalk (entryLength mem) (madtEnd mem)) curr fuel = none := by
  induction fuel generalizing curr r with
  | zero => simp [parseMadtLoop]
  | succ fuel ih =>
    rw [parseMadtLoop, trail_succ', recordWalk]
    split
    · exact ih
    · simp

/-- **The walk** over records that lead to its end. -/
theorem parseMadtLoop_eq (h : Records (entryLength mem) curr entries stop)
    (hbelow : ∀ o ∈ entries, o < madtEnd mem) (hstop : madtEnd mem ≤ stop)
    (hfuel : entries.length < fuel) : parseMadtLoop vmapContiguous mem fuel curr r =
      some (entries.foldl (madtBody vmapContiguous mem) r) := by
  induction entries generalizing curr r fuel with
  | nil =>
    obtain rfl : curr = stop := h
    obtain ⟨fuel, rfl⟩ := Nat.exists_eq_succ_of_ne_zero (Nat.ne_of_gt hfuel)
    exact if_neg (Nat.not_lt.mpr hstop)
  | cons o entries ih =>
    obtain ⟨rfl, -, hrest⟩ := h
    obtain ⟨hlt, hbelow⟩ := List.forall_mem_cons.mp hbelow
    obtain ⟨fuel, rfl⟩ := Nat.exists_eq_succ_of_ne_zero (Nat.ne_of_gt (Nat.zero_lt_of_lt hfuel))
    rw [parseMadtLoop, if_pos hlt]
    exact ih hrest hbelow (Nat.lt_of_succ_lt_succ hfuel)

/-- **The end of the walk.** `parse_madt` returns just when the bytes from the first entry on are
entries of non-zero length that lead up to `end` or past it. -/
theorem parseMadt_ends_iff (vmapContiguous : ℕ → ℕ → σ → ℕ × σ) (mem : ℕ → UInt8) (s : σ) :
    (∃ fuel r, parseMadt vmapContiguous mem fuel s = some r) ↔
      ∃ entries stop, Records (entryLength mem) madtEntries entries stop ∧ madtEnd mem ≤ stop := by
  rw [← recordWalk_ends_iff]
  refine exists_congr fun fuel => ?_
  rw [← Option.isSome_iff_exists]
  exact parseMadtLoop_isSome_iff

/-- The bytes of a table, and zeros after it. -/
def tableMem (bytes : List UInt8) (o : ℕ) : UInt8 := bytes.getD o 0

/-- A table with one entry, which says that it is zero bytes long. -/
def zeroMadt : List UInt8 := List.replicate 4 0 ++ 46 :: List.replicate 39 0 ++ [0, 0]

/-- The entry is visited again and again. -/
theorem not_parseMadt_ends : ¬ ∀ mem : ℕ → UInt8, ∃ fuel r,
    parseMadt (fun _ _ (s : Unit) => (0, s)) mem fuel () = some r := by
  intro h
  obtain ⟨fuel, hfuel⟩ := h (tableMem zeroMadt)
  have hstuck : trail (recordWalk (entryLength (tableMem zeroMadt)) (madtEnd (tableMem zeroMadt)))
      madtEntries fuel = some madtEntries := trail_of_empty (by decide) (by decide)
  have hend := parseMadtLoop_isSome_iff.mp (Option.isSome_iff_exists.mpr hfuel)
  rw [hend] at hstuck
  cases hstuck

/-! ### The table -/

/-- **A well-formed table** is visited entry by entry, and then its end is. -/
theorem WellFormedMadt.visit (h : WellFormedMadt mem entries) (hk : k ≤ entries.length) :
    madtVisit mem k = (entries ++ [madtLength mem])[k]? := by
  have hend : madtEnd mem = madtEntries + madtLength mem := rfl
  have hentries : madtEntries = 44 := rfl
  have hlt : k < (entries ++ [madtLength mem]).length := by
    rw [List.length_append, List.length_singleton]
    omega
  have hbelow : (entries ++ [madtLength mem])[k] < madtEnd mem := by
    rcases List.mem_append.mp (List.getElem_mem hlt) with hmem | hmem
    · have hbounds := Records.bounds h hmem
      omega
    · have heq := List.mem_singleton.mp hmem
      omega
  rw [madtVisit, Records.trail h (by omega) hk, List.getElem?_eq_getElem hlt]
  exact Option.filter_some_pos (decide_eq_true hbelow)

/-- **Leaving the table.** In every well-formed table the walk goes on after the last entry: what
follows the table is visited and read. -/
theorem not_staysInside (mem : ℕ → UInt8) (entries : List ℕ) (h : WellFormedMadt mem entries) :
    ¬ StaysInside mem entries := by
  intro hinside
  have hvisit : madtVisit mem entries.length = some (madtLength mem) := by
    rw [h.visit le_rfl, List.getElem?_concat_length]
  exact Nat.lt_irrefl _ (hinside.reads _ _ hvisit _ List.mem_cons_self)

/-- A table with a local APIC and an I/O APIC. -/
def apicsMadt : List UInt8 :=
  List.replicate 4 0 ++ 64 :: List.replicate 39 0 ++
    [0, 8, 0, 0, 1, 0, 0, 0, 1, 12, 0, 0, 0, 0, 0xc0, 0xfe, 0, 0, 0, 0]

theorem not_staysInside_apics : ¬ StaysInside (tableMem apicsMadt) [44, 52] :=
  not_staysInside _ _ (by decide : Records _ _ _ _)

/-- A table with one I/O APIC. -/
def ioapicMadt : List UInt8 :=
  List.replicate 4 0 ++ 56 :: List.replicate 39 0 ++ [1, 12, 0, 0, 0, 0, 0xc0, 0xfe, 0, 0, 0, 0]

/-- The entry is visited, and then the bytes after the table are. -/
theorem not_staysInside_ioapic : ¬ ∀ (mem : ℕ → UInt8) (entries : List ℕ),
    WellFormedMadt mem entries → StaysInside mem entries := by
  intro h
  have hwf : WellFormedMadt (tableMem ioapicMadt) [44] :=
    (by decide : Records _ _ _ _)
  have hvisit : madtVisit (tableMem ioapicMadt) 1 = none := (h _ _ hwf).visits 1
  exact absurd hvisit (by decide)

end GoofyOs
