import GoofyOs.ForMathlib.Run
import GoofyOs.PageTables
import Mathlib.Data.Finset.Insert

/-!
# Page tables as finite maps

A four-level table stands for a map from page numbers (bits 12 to 47 of an address) to frames.
`map_page` and `unmap_page` update this map at one page number, and `virt_to_pfn` and `is_mapped`
read it, over whole runs of calls on one table.

The walks of `is_mapped` and `virt_to_pfn` test `PG_PS` before `PG_PRESENT`. An entry that is not
present but has the bit set therefore counts as mapped, and `unmap_page` does not change it.

## Main definitions

* `MapperState.FourLevel`, `MapperState.WellFormed` — a table whose lower tables are its own
* `MapperState.frames` — the map it stands for
* `PageTableCall` — `map_page` and `unmap_page` calls

## Main results

* `mapper_refines` — whole runs: the table refines the map
* `mapper_not_refines` — a table with a stray `PG_PS` bit does not
-/

namespace GoofyOs

open MapperState

/-- A call on a page table. -/
inductive PageTableCall
  | mapPage (phys virt flags : BitVec 64)
  | unmapPage (virt : BitVec 64)

namespace PageTableCall

/-- The page number that a call is about. -/
def page : PageTableCall → BitVec 36
  | mapPage _ virt _ => pageNumber virt
  | unmapPage virt => pageNumber virt

/-- What a call maps its page to. -/
def frame : PageTableCall → Option (BitVec 64)
  | mapPage phys _ _ => some (phys >>> 12)
  | unmapPage _ => none

/-- The level 0 entry that a call writes. -/
def leaf : PageTableCall → BitVec 64
  | mapPage phys _ flags => phys ||| flags ||| pgPresent
  | unmapPage _ => 0

/-- Only pages below `2 ^ 43` are mapped, with flags that `map_page` accepts. -/
def Ok : PageTableCall → Prop
  | mapPage phys _ flags => phys &&& 0xfff = 0 ∧ phys.toNat < 2 ^ 43 ∧ flags &&& ~~~pgFlagmask = 0
  | unmapPage _ => True

/-- The call on a map. -/
def update (call : PageTableCall) (M : BitVec 36 → Option (BitVec 64)) :
    BitVec 36 → Option (BitVec 64) :=
  Function.update M call.page call.frame

end PageTableCall

/-- The frame that a level 0 entry holds. -/
def frameOf (e : BitVec 64) : Option (BitVec 64) :=
  if e &&& pgPresent ≠ 0 then some ((e &&& addrMask) >>> 12) else none

/-- The first address of a page. -/
def pageAddress (n : BitVec 36) : BitVec 64 := n.setWidth 64 <<< 12

theorem pageNumber_pageAddress (n : BitVec 36) : pageNumber (pageAddress n) = n := by
  apply BitVec.eq_of_toNat_eq
  have := n.isLt
  rw [pageNumber, pageAddress, BitVec.extractLsb'_toNat, BitVec.toNat_shiftLeft,
    BitVec.toNat_setWidth, Nat.shiftRight_eq_div_pow, Nat.shiftLeft_eq]
  omega

theorem PageTableCall.frameOf_leaf {call : PageTableCall} (h : call.Ok) :
    frameOf call.leaf = call.frame := by
  cases call with
  | mapPage phys virt flags =>
    obtain ⟨hlow, hlt, hflags⟩ := h
    rw [leaf, frameOf, if_pos (pageEntry_present phys flags),
      pageEntry_and_addrMask (isPage_of_lt hlow hlt) hflags]
    rfl
  | unmapPage virt =>
    show frameOf 0 = none
    decide

namespace MapperState

variable {P : PageSource} {s s' s'' : MapperState P} {r v v' : BitVec 64}
  {T T' : ℕ → Set (BitVec 64)} {call : PageTableCall} {calls : List PageTableCall}

/-- A four-level table with its top at `r`: every present intermediate entry points to a table page
of its own and has `PG_PS` clear. -/
def FourLevel (s : MapperState P) (r : BitVec 64) : Prop :=
  ∃ T, T 3 = {r} ∧ Tables s 0 T ∧ Unshared s 0 T

/-- A four-level table with `PG_PS` clear in the intermediate entries that are not present. -/
def WellFormed (s : MapperState P) (r : BitVec 64) : Prop :=
  ∃ T, T 3 = {r} ∧ Tables s 0 T ∧ Unshared s 0 T ∧ AbsentClear s 0 T

/-- The map that a table stands for. -/
def frames (s : MapperState P) (r : BitVec 64) (n : BitVec 36) : Option (BitVec 64) :=
  frameOf (s.leafOf r (pageAddress n))

theorem frames_pageNumber (s : MapperState P) (r v : BitVec 64) :
    s.frames r (pageNumber v) = frameOf (s.leafOf r v) := by
  rw [frames, leafOf_congr s r (pageNumber_pageAddress (pageNumber v))]

/-- One call on the table at `r`. -/
def callTable (r : BitVec 64) (s : MapperState P) : PageTableCall → Option (MapperState P)
  | .mapPage phys virt flags => s.mapPageNolock (s.va r) phys virt flags
  | .unmapPage virt => some (s.unmapPageNolock (s.va r) virt)

/-! ### The readers -/

theorem WellFormed.isMapped (hw : s.WellFormed r) (v : BitVec 64) :
    s.isMappedNolock (s.va r) v = (s.frames r (pageNumber v)).isSome := by
  obtain ⟨T, hroot, ht, hu, ha⟩ := hw
  have hr : r ∈ T 3 := by rw [hroot]; rfl
  rw [isMappedNolock, hu.isMappedWalk ha ht hr le_rfl (Nat.zero_le _), frames_pageNumber, frameOf]
  change decide (s.leafOf r v &&& pgPresent ≠ 0) = _
  by_cases hp : s.leafOf r v &&& pgPresent ≠ 0
  · rw [if_pos hp, decide_eq_true hp]
    rfl
  · rw [if_neg hp, decide_eq_false hp]
    rfl

theorem WellFormed.virtToPfn_eq (hw : s.WellFormed r) (v : BitVec 64) :
    s.virtToPfn r v = (((s.leafOf r v &&& addrMask) >>> 12).setWidth 32).toInt := by
  obtain ⟨T, hroot, ht, hu, ha⟩ := hw
  have hr : r ∈ T 3 := by rw [hroot]; rfl
  rw [virtToPfn, hu.virtToPfnWalk ha ht hr le_rfl (Nat.zero_le _)]
  rfl

theorem WellFormed.virtToPfn_of_frames (hw : s.WellFormed r) {f : BitVec 64}
    (hf : s.frames r (pageNumber v) = some f) : s.virtToPfn r v = (f.setWidth 32).toInt := by
  rw [hw.virtToPfn_eq]
  rw [frames_pageNumber, frameOf] at hf
  split at hf
  · rw [Option.some.inj hf]
  · simp at hf

/-! ### One call -/

/-- **One call** writes one level 0 entry. -/
theorem callTable_spec (hroot : T 3 = {r}) (ht : Tables s 0 T)
    (hcall : s.callTable r call = some s') :
    ∃ T' v, PageWritten 0 s T s' T' r v call.leaf ∧ pageNumber v = call.page := by
  have hr : r ∈ T 3 := by rw [hroot]; rfl
  cases call with
  | mapPage phys virt flags =>
    obtain ⟨T', hw⟩ := ht.mapPageNolock hr (Nat.zero_le _) hcall
    exact ⟨T', virt, hw, rfl⟩
  | unmapPage virt =>
    obtain rfl := Option.some.inj hcall
    exact ⟨T, virt, ht.unmapPageNolock hr (Nat.zero_le _), rfl⟩

theorem WellFormed.callTable (hw : s.WellFormed r) (hcall : s.callTable r call = some s') :
    s'.WellFormed r ∧ (∀ v, pageNumber v = call.page → s'.leafOf r v = call.leaf) ∧
      ∀ v, pageNumber v ≠ call.page → s'.leafOf r v = s.leafOf r v := by
  obtain ⟨T, hroot, ht, hu, ha⟩ := hw
  have hr : r ∈ T 3 := by rw [hroot]; rfl
  obtain ⟨T', v, hwrite, hpage⟩ := callTable_spec hroot ht hcall
  refine ⟨⟨T', hwrite.roots.trans hroot, hwrite.tables, hwrite.unshared hu, hwrite.absentClear ha⟩,
    fun v' hv' => ?_, fun v' hv' => ?_⟩
  · exact hwrite.self (hv'.trans hpage.symm)
  · exact hwrite.other hu hr (Nat.zero_le _) (hpage ▸ hv')

/-- **Refinement, one call**: the map changes at the page of the call. -/
theorem WellFormed.frames_callTable (hw : s.WellFormed r) (hok : call.Ok)
    (hcall : s.callTable r call = some s') : s'.frames r = call.update (s.frames r) := by
  obtain ⟨-, hself, hother⟩ := hw.callTable hcall
  funext n
  rw [PageTableCall.update, Function.update_apply, frames]
  by_cases hn : n = call.page
  · rw [if_pos hn, hself _ (by rw [pageNumber_pageAddress, hn]), PageTableCall.frameOf_leaf hok]
  · rw [if_neg hn, hother _ (by rwa [pageNumber_pageAddress]), frames]

/-- What the readers say after a call: the page of the call translates to its frame or is not
mapped, and nothing changes for the others. -/
structure Updated (s : MapperState P) (r : BitVec 64) (call : PageTableCall)
    (s' : MapperState P) : Prop where
  mapped : ∀ {phys virt flags}, call = .mapPage phys virt flags → ∀ v, pageNumber v = call.page →
    s'.virtToPfn r v = (phys.toNat / 4096 : ℕ) ∧ s'.isMappedNolock (s'.va r) v = true
  unmapped : ∀ {virt}, call = .unmapPage virt → ∀ v, pageNumber v = call.page →
    s'.isMappedNolock (s'.va r) v = false
  other : ∀ v, pageNumber v ≠ call.page → s'.virtToPfn r v = s.virtToPfn r v ∧
    s'.isMappedNolock (s'.va r) v = s.isMappedNolock (s.va r) v

theorem WellFormed.updated (hw : s.WellFormed r) (hok : call.Ok)
    (hcall : s.callTable r call = some s') : s.Updated r call s' := by
  have hframes := hw.frames_callTable hok hcall
  obtain ⟨hw', hself, hother⟩ := hw.callTable hcall
  refine ⟨fun {phys virt flags} h v hv => ?_, fun {virt} h v hv => ?_, fun v hv => ?_⟩
  · have hf : s'.frames r (pageNumber v) = some (phys >>> 12) := by
      rw [hframes, hv, PageTableCall.update, Function.update_self, h]
      rfl
    subst h
    rw [hw'.virtToPfn_of_frames hf, toInt_frame hok.2.1, hw'.isMapped, hf]
    exact ⟨rfl, rfl⟩
  · subst h
    rw [hw'.isMapped, hframes, hv, PageTableCall.update, Function.update_self]
    rfl
  · rw [hw'.virtToPfn_eq, hw.virtToPfn_eq, hother v hv, hw'.isMapped, hw.isMapped,
      frames_pageNumber, frames_pageNumber, hother v hv]
    exact ⟨rfl, rfl⟩

end MapperState

open MapperState

/-- Pages that are not mapped translate to frame 0. -/
def AbsentZero {P : PageSource} (s : MapperState P) (r : BitVec 64) : Prop :=
  ∀ v, s.frames r (pageNumber v) = none → s.virtToPfn r v = 0

theorem AbsentZero.callTable {P : PageSource} {s s' : MapperState P} {r : BitVec 64}
    {call : PageTableCall} (h : AbsentZero s r) (hw : s.WellFormed r) (hok : call.Ok)
    (hcall : s.callTable r call = some s') : AbsentZero s' r := by
  intro v hv
  obtain ⟨hw', hself, hother⟩ := hw.callTable hcall
  by_cases hpage : pageNumber v = call.page
  · rw [frames_pageNumber, hself v hpage, PageTableCall.frameOf_leaf hok] at hv
    cases call with
    | mapPage phys virt flags => simp [PageTableCall.frame] at hv
    | unmapPage virt =>
      rw [hw'.virtToPfn_eq, hself v hpage]
      show ((((0 : BitVec 64) &&& addrMask) >>> 12).setWidth 32).toInt = 0
      decide
  · rw [hw'.virtToPfn_eq, hother v hpage, ← hw.virtToPfn_eq]
    rw [frames_pageNumber, hother v hpage, ← frames_pageNumber] at hv
    exact h v hv

/-- **The page table refines a finite map.** Over every run of calls on a well-formed table, the
table stays well formed and the map it stands for is updated call by call; `is_mapped` and
`virt_to_pfn` read this map; and each further call changes what they say at its page only. -/
theorem mapper_refines {P : PageSource} {s s' : MapperState P} {r : BitVec 64}
    {calls : List PageTableCall} (hw : s.WellFormed r)
    (hrun : Run (callTable r) (fun _ call => call.Ok) s calls s') :
    s'.WellFormed r ∧
      s'.frames r = calls.foldl (fun M call => call.update M) (s.frames r) ∧
      (∀ v, s'.isMappedNolock (s'.va r) v = (s'.frames r (pageNumber v)).isSome) ∧
      (∀ v f, s'.frames r (pageNumber v) = some f → s'.virtToPfn r v = (f.setWidth 32).toInt) ∧
      (AbsentZero s r → AbsentZero s' r) ∧
      ∀ call s'', call.Ok → s'.callTable r call = some s'' → s'.Updated r call s'' := by
  have hfold : s'.WellFormed r ∧
      s'.frames r = calls.foldl (fun M call => call.update M) (s.frames r) ∧
      (AbsentZero s r → AbsentZero s' r) := by
    induction hrun with
    | nil => exact ⟨hw, rfl, id⟩
    | cons hok hcall _ ih =>
      obtain ⟨hw', hframes, habsent⟩ := ih (hw.callTable hcall).1
      rw [hw.frames_callTable hok hcall] at hframes
      exact ⟨hw', hframes, fun h => habsent (h.callTable hw hok hcall)⟩
  obtain ⟨hw', hframes, habsent⟩ := hfold
  exact ⟨hw', hframes, hw'.isMapped, fun _ _ hf => hw'.virtToPfn_of_frames hf, habsent,
    fun _ _ hok hcall => hw'.updated hok hcall⟩

/-! ### Small tables -/

/-- An allocator that hands out the pages of a list. -/
def PageSource.ofList (pages : List (BitVec 64)) (h : ∀ p ∈ pages, IsPage p) : PageSource where
  State := Finset (BitVec 64)
  alloc used := (pages.find? (· ∉ used)).map fun p => (p, insert p used)
  free used p := used.erase p
  used used := used
  isPage halloc := by
    obtain ⟨q, hq, heq⟩ := Option.map_eq_some_iff.mp halloc
    obtain ⟨rfl, -⟩ := Prod.mk.inj heq
    exact h q (List.mem_of_find?_eq_some hq)
  fresh halloc := by
    obtain ⟨q, hq, heq⟩ := Option.map_eq_some_iff.mp halloc
    obtain ⟨rfl, -⟩ := Prod.mk.inj heq
    simpa using List.find?_some hq
  used_alloc halloc := by
    obtain ⟨q, -, heq⟩ := Option.map_eq_some_iff.mp halloc
    obtain ⟨rfl, rfl⟩ := Prod.mk.inj heq
    exact Finset.coe_insert _ _
  used_free used p := Finset.coe_erase _ _

/-- Seven pages. -/
def sevenPages : PageSource :=
  PageSource.ofList [0x1000, 0x2000, 0x3000, 0x4000, 0x5000, 0x6000, 0x7000] (by
    simp [IsPage, addrMask])

/-- The table at page `0x1000`, with one entry that is not empty. -/
def oneEntryTable (e : BitVec 64) : MapperState sevenPages where
  mem a := if a = 0x1000 then e else 0
  hhdmOffset := 0
  pages := show Finset (BitVec 64) from {0x1000}

/-- One table on the top level. -/
def rootOnly (r : BitVec 64) (k : ℕ) : Set (BitVec 64) := if k = 3 then {r} else ∅

theorem mem_rootOnly {r t : BitVec 64} {k : ℕ} : t ∈ rootOnly r k ↔ k = 3 ∧ t = r := by
  rw [rootOnly]
  split <;> simp_all

theorem entry_oneEntryTable {e i : BitVec 64} (he : e &&& pgPresent = 0) :
    (oneEntryTable e).entry 0x1000 i &&& pgPresent = 0 := by
  show (if _ then e else 0) &&& pgPresent = 0
  split
  · exact he
  · decide

theorem tables_oneEntryTable {e : BitVec 64} (he : e &&& pgPresent = 0) :
    Tables (oneEntryTable e) 0 (rootOnly 0x1000) ∧
      Unshared (oneEntryTable e) 0 (rootOnly 0x1000) := by
  refine ⟨⟨?_, ?_, ?_, ?_⟩, ?_, ?_⟩
  · intro k t ht
    obtain ⟨-, rfl⟩ := mem_rootOnly.mp ht
    decide
  · intro k t ht
    obtain ⟨-, rfl⟩ := mem_rootOnly.mp ht
    show _ ∈ ((({0x1000} : Finset (BitVec 64))) : Set (BitVec 64))
    simp
  · intro j k t ht ht'
    rw [(mem_rootOnly.mp ht).1, (mem_rootOnly.mp ht').1]
  · intro k t i ht _ _ hp
    obtain ⟨-, rfl⟩ := mem_rootOnly.mp ht
    exact absurd (entry_oneEntryTable he) hp
  · intro k t i ht _ _ hp
    obtain ⟨-, rfl⟩ := mem_rootOnly.mp ht
    exact absurd (entry_oneEntryTable he) hp
  · intro k t t' i j ht _ _ _ _ hp
    obtain ⟨-, rfl⟩ := mem_rootOnly.mp ht
    exact absurd (entry_oneEntryTable he) hp

theorem absentClear_oneEntryTable : AbsentClear (oneEntryTable 0) 0 (rootOnly 0x1000) := by
  intro k t i ht _ _ _
  obtain ⟨-, rfl⟩ := mem_rootOnly.mp ht
  show (if _ then (0 : BitVec 64) else 0) &&& pgPs = 0
  rw [ite_self]
  decide

/-- **A stray bit.** The top-level entry 0 is not present but has `PG_PS` set. After
`unmap_page(0)`, `is_mapped(0)` holds. -/
theorem mapper_not_refines :
    ¬ ∀ (P : PageSource) (s s' : MapperState P) (r virt : BitVec 64), s.FourLevel r →
      s.callTable r (.unmapPage virt) = some s' → s'.isMappedNolock (s'.va r) virt = false := by
  intro h
  obtain ⟨ht, hu⟩ := tables_oneEntryTable (e := pgPs) (by decide)
  have hmapped := h sevenPages (oneEntryTable pgPs) _ 0x1000 0 ⟨_, rfl, ht, hu⟩ rfl
  have htrue : ((oneEntryTable pgPs).unmapPageNolock 0x1000 0).isMappedNolock 0x1000 0 = true := by
    decide +kernel
  exact Bool.noConfusion (htrue.symm.trans hmapped)

/-- Mapping a page in an empty table. -/
theorem mapper_refines_one :
    ∃ s', Run (callTable 0x1000) (fun _ call => call.Ok) (oneEntryTable 0)
        [.mapPage 0x9000 0x5000 pgWrite] s' ∧
      s'.frames 0x1000 = (PageTableCall.mapPage 0x9000 0x5000 pgWrite).update
        ((oneEntryTable 0).frames 0x1000) := by
  obtain ⟨ht, hu⟩ := tables_oneEntryTable (e := 0) (by decide)
  have hsome : ((oneEntryTable 0).callTable 0x1000
      (.mapPage 0x9000 0x5000 pgWrite)).isSome = true := by decide +kernel
  obtain ⟨s', hs'⟩ := Option.isSome_iff_exists.mp hsome
  have hrun : Run (callTable 0x1000) (fun _ call => call.Ok) (oneEntryTable 0)
      [.mapPage 0x9000 0x5000 pgWrite] s' :=
    .cons ⟨by decide, by decide, by decide⟩ hs' (.nil s')
  exact ⟨s', hrun, (mapper_refines ⟨_, rfl, ht, hu, absentClear_oneEntryTable⟩ hrun).2.1⟩

end GoofyOs
