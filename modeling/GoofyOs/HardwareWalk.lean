import GoofyOs.PageWalk

/-!
# The processor's walk of tables that `map_page` built

`virt_to_pfn` and the processor read a table in different ways, and `PG_PS` is not the page-size bit.
In the tables that `map_page` builds this makes no difference: no entry that the kernel writes has
bit 7, and as long as the pages of the tables lie below `2 ^ 52` the two masks agree. So the processor
finds the frames of the map that the table stands for.

## Main definitions

* `PlainWord`, `MapperState.PlainTables` — words, and tables, that the processor reads as the kernel
  means them
* `MapperState.Hardware` — a table for the processor
* `MapperState.archFrame` — the frame that the processor finds

## Main results

* `MapperState.WritesPlain.callTable` — `map_page` and `unmap_page` write such words
* `MapperState.Hardware.archFrame_eq` — the processor reads the map
* `mapper_hardware` — after every run of calls
-/

namespace GoofyOs

open FourLevelPaging (addressMask presentBit sizeBit)

/-! ### Words -/

/-- The word is not a large page, and its address is the same for the processor. -/
def PlainWord (e : BitVec 64) : Prop := e &&& addrMask = e &&& addressMask ∧ e &&& sizeBit = 0

/-- A page below `2 ^ 52`. -/
def LowPage (p : BitVec 64) : Prop := IsPage p ∧ p.toNat < 2 ^ 52

instance (p : BitVec 64) : Decidable (LowPage p) := instDecidableAnd

section Words

variable {p f e : BitVec 64}

theorem LowPage.and_addressMask (h : LowPage p) : p &&& addressMask = p := by
  have hpage := h.1.toNat
  have hmask := MapperState.toNat_and_addressMask p
  have hlow := h.2
  refine BitVec.eq_of_toNat_eq ?_
  omega

theorem IsPage.and_sizeBit (h : IsPage p) : p &&& sizeBit = 0 := by
  rw [← h, BitVec.and_assoc, show addrMask &&& sizeBit = 0 by decide]
  exact BitVec.and_zero

theorem plainWord_zero : PlainWord 0 := ⟨by decide, by decide⟩

/-- A low page with flags that are neither the page-size bit nor in the address. -/
theorem plainWord_or (hp : LowPage p) (haddr : f &&& addrMask = 0) (hsize : f &&& sizeBit = 0) :
    PlainWord (p ||| f) := by
  have harch : f &&& addressMask = 0 := by
    rw [show addressMask = addrMask &&& addressMask by decide, ← BitVec.and_assoc, haddr]
    exact BitVec.zero_and
  constructor
  · rw [BitVec.and_or_distrib_right, BitVec.and_or_distrib_right, haddr, harch, hp.1,
      hp.and_addressMask]
  · rw [BitVec.and_or_distrib_right, hp.1.and_sizeBit, hsize]
    exact BitVec.or_zero

theorem plainWord_tableEntry (hp : LowPage p) : PlainWord (tableEntry p) := by
  rw [tableEntry, BitVec.or_assoc]
  exact plainWord_or hp (by decide) (by decide)

theorem PageTableCall.plainWord_leaf {call : PageTableCall} (h : call.Ok) : PlainWord call.leaf := by
  cases call with
  | mapPage phys virt flags =>
    obtain ⟨hlow, hlt, hflags⟩ := h
    have hmasked : ∀ mask, mask = ~~~pgFlagmask &&& mask → flags &&& mask = 0 := by
      intro mask hmask
      rw [hmask, ← BitVec.and_assoc, hflags]
      exact BitVec.zero_and
    rw [leaf, BitVec.or_assoc]
    refine plainWord_or ⟨isPage_of_lt hlow hlt, by omega⟩ ?_ ?_
    · rw [BitVec.and_or_distrib_right, hmasked addrMask (by decide)]
      decide
    · rw [BitVec.and_or_distrib_right, hmasked sizeBit (by decide)]
      decide
  | unmapPage virt => exact plainWord_zero

end Words

namespace MapperState

variable {P : PageSource} {s s' s'' : MapperState P} {T T' : ℕ → Set (BitVec 64)}
  {r t v a b : BitVec 64} {k : ℕ} {call : PageTableCall}

/-! ### What the calls write -/

/-- The allocator hands out pages below `2 ^ 52`. -/
def LowSource (P : PageSource) : Prop :=
  ∀ {st p st'}, P.alloc st = some (p, st') → p.toNat < 2 ^ 52

/-- All that was written is plain, and so is all that lies in the pages that were taken. -/
structure WritesPlain (s s' : MapperState P) : Prop where
  hhdmOffset : s'.hhdmOffset = s.hhdmOffset
  mem : ∀ a, s'.mem a = s.mem a ∨ PlainWord (s'.mem a)
  new : ∀ t ∈ P.used s'.pages, t ∉ P.used s.pages → ∀ i : BitVec 64, i.toNat < 512 →
    PlainWord (s'.entry t i)

namespace WritesPlain

theorem va (h : WritesPlain s s') (t : BitVec 64) : s'.va t = s.va t := by
  rw [MapperState.va, MapperState.va, h.hhdmOffset]

theorem refl (s : MapperState P) : WritesPlain s s :=
  ⟨rfl, fun _ => Or.inl rfl, fun _ ht hnot => absurd ht hnot⟩

theorem entry (h : WritesPlain s s') (t i : BitVec 64) :
    s'.entry t i = s.entry t i ∨ PlainWord (s'.entry t i) := by
  rw [MapperState.entry, MapperState.entry, h.va]
  exact h.mem _

theorem trans (h : WritesPlain s s') (h' : WritesPlain s' s'') : WritesPlain s s'' where
  hhdmOffset := h'.hhdmOffset.trans h.hhdmOffset
  mem a := by
    rcases h'.mem a with heq | hplain
    · rw [heq]
      exact h.mem a
    · exact Or.inr hplain
  new t ht hnot i hi := by
    by_cases hmid : t ∈ P.used s'.pages
    · rcases h'.entry t i with heq | hplain
      · rw [heq]
        exact h.new t hmid hnot i hi
      · exact hplain
    · exact h'.new t ht hmid i hi

theorem write {x : BitVec 64} (a : BitVec 64) (hx : PlainWord x) : WritesPlain s (s.write a x) where
  hhdmOffset := rfl
  mem b := by
    rcases eq_or_ne b a with rfl | hne
    · have hself : (s.write b x).mem b = x := Function.update_self _ _ _
      exact Or.inr (hself.symm ▸ hx)
    · exact Or.inl (Function.update_of_ne hne _ _)
  new _ ht hnot := absurd ht hnot

/-- Entering a new table. -/
theorem addTable {c : BitVec 64} {pages : P.State} (halloc : P.alloc s.pages = some (c, pages))
    (hc : c.toNat < 2 ^ 52) (a : BitVec 64) : WritesPlain s (s.addTable a c pages) := by
  have hpage := P.isPage halloc
  have hentry : PlainWord (tableEntry c) := plainWord_tableEntry ⟨hpage, hc⟩
  have hmem : ∀ b, (s.addTable a c pages).mem b = tableEntry c ∨
      (s.addTable a c pages).mem b = if (b - s.va c).toNat < 0x1000 then 0 else s.mem b := by
    intro b
    rcases eq_or_ne b a with rfl | hne
    · exact Or.inl (Function.update_self _ _ _)
    · exact Or.inr (Function.update_of_ne hne _ _)
  refine ⟨rfl, fun b => ?_, fun t ht hnot i hi => ?_⟩
  · rcases hmem b with heq | heq
    · exact Or.inr (heq ▸ hentry)
    · split at heq
      · exact Or.inr (heq ▸ plainWord_zero)
      · exact Or.inl heq
  · have hused : P.used (s.addTable a c pages).pages = insert c (P.used s.pages) :=
      P.used_alloc halloc
    obtain rfl : t = c := by
      rw [hused] at ht
      exact ht.resolve_right hnot
    show PlainWord ((s.addTable a t pages).mem (slot (s.va t) i))
    rcases hmem (slot (s.va t) i) with heq | heq
    · exact heq ▸ hentry
    · rw [if_pos ((slot_sub_lt_iff hpage hpage hi).mpr rfl)] at heq
      exact heq ▸ plainWord_zero

/-- **The walk of `map_page`.** -/
theorem mapWalk (hP : LowSource P) (h : s.mapWalk v k a = some (b, s')) : WritesPlain s s' := by
  induction k generalizing s a with
  | zero =>
    obtain ⟨-, rfl⟩ := Prod.mk.inj (Option.some.inj h)
    exact refl s
  | succ k ih =>
    rw [mapWalk_succ] at h
    obtain ⟨⟨c, s₁⟩, hstep, hrest⟩ := Option.bind_eq_some_iff.mp h
    refine trans ?_ (ih hrest)
    rw [mapStep] at hstep
    split at hstep
    · obtain ⟨-, rfl⟩ := Prod.mk.inj (Option.some.inj hstep)
      exact refl s
    · obtain ⟨⟨c', pages⟩, halloc, heq⟩ := Option.map_eq_some_iff.mp hstep
      obtain ⟨rfl, rfl⟩ := Prod.mk.inj heq
      exact addTable halloc (hP halloc) a

/-- **One call.** -/
theorem callTable (hP : LowSource P) (hok : call.Ok) (h : s.callTable r call = some s') :
    WritesPlain s s' := by
  cases call with
  | mapPage phys virt flags =>
    rw [MapperState.callTable, mapPageNolock, if_neg (not_not.mpr hok.2.2)] at h
    obtain ⟨⟨b, s₁⟩, hwalk, rfl⟩ := Option.map_eq_some_iff.mp h
    exact (mapWalk hP hwalk).trans (write b (PageTableCall.plainWord_leaf hok))
  | unmapPage virt =>
    obtain rfl := Option.some.inj h
    rw [unmapPageNolock]
    split
    · exact write _ plainWord_zero
    · exact refl s

end WritesPlain

/-! ### Tables for the processor -/

/-- Every present entry of the tables is one that the processor reads as the kernel means it. On
level 0 there is no page-size bit. -/
def PlainTables (s : MapperState P) (T : ℕ → Set (BitVec 64)) : Prop :=
  ∀ {k t i}, t ∈ T k → i.toNat < 512 → s.entry t i &&& pgPresent ≠ 0 →
    s.entry t i &&& addrMask = s.entry t i &&& addressMask ∧ (k ≠ 0 → s.entry t i &&& sizeBit = 0)

theorem PlainTables.of_writesPlain (h : PlainTables s T) (hw : WritesPlain s s')
    (hT : Tables s' 0 T') (hnew : ∀ {k t}, t ∈ T' k → t ∈ T k ∨ t ∉ P.used s.pages) :
    PlainTables s' T' := by
  intro k t i ht hi hp
  rcases hnew ht with hold | hfresh
  · rcases hw.entry t i with heq | hplain
    · rw [heq] at hp ⊢
      exact h hold hi hp
    · exact ⟨hplain.1, fun _ => hplain.2⟩
  · have hplain := hw.new t (hT.used ht) hfresh i hi
    exact ⟨hplain.1, fun _ => hplain.2⟩

/-- A well-formed table that the processor can walk. -/
def Hardware (s : MapperState P) (r : BitVec 64) : Prop :=
  LowPage r ∧ ∃ T, T 3 = {r} ∧ Tables s 0 T ∧ Unshared s 0 T ∧ AbsentClear s 0 T ∧ PlainTables s T

theorem Hardware.wellFormed (h : s.Hardware r) : s.WellFormed r := by
  obtain ⟨-, T, hroot, ht, hu, ha, -⟩ := h
  exact ⟨T, hroot, ht, hu, ha⟩

theorem Hardware.callTable (h : s.Hardware r) (hP : LowSource P) (hok : call.Ok)
    (hcall : s.callTable r call = some s') : s'.Hardware r := by
  obtain ⟨hr, T, hroot, ht, hu, ha, hplain⟩ := h
  obtain ⟨T', v, hw, -⟩ := callTable_spec hroot ht hcall
  have hwrites := WritesPlain.callTable hP hok hcall
  exact ⟨hr, T', hw.roots.trans hroot, hw.tables, hw.unshared hu, hw.absentClear ha,
    hplain.of_writesPlain hwrites hw.tables hw.new⟩

/-- The frame that the processor finds for an address. -/
def archFrame (s : MapperState P) (cr3 virt : BitVec 64) : Option (BitVec 64) :=
  (FourLevelPaging.translate s.physRead virt cr3).map fun p : BitVec 64 => p >>> 12

/-- **The processor's walk**, level by level. -/
theorem walk_eq_leafEntry (ht : Tables s 0 T) (hplain : PlainTables s T) (hk : k ≤ 3) (htk : t ∈ T k)
    (v : BitVec 64) :
    (FourLevelPaging.walk s.physRead v k t).map (fun p : BitVec 64 => p >>> 12) =
      frameOf (s.leafEntry v k (slot (s.va t) (getIndex k v))) := by
  induction k generalizing t with
  | zero =>
    rw [FourLevelPaging.walk_zero, entry_physRead, leafEntry_zero, frameOf]
    by_cases hp : s.entry t (getIndex 0 v) &&& pgPresent = 0
    · rw [if_pos (show _ &&& presentBit = 0 from hp), if_neg (not_not.mpr hp)]
      rfl
    · have hmask := (hplain htk (getIndex_lt 0 v) hp).1
      rw [if_neg (show ¬ _ &&& presentBit = 0 from hp), if_pos hp, hmask, Option.map_some]
      refine congrArg some (BitVec.eq_of_toNat_eq ?_)
      have hnat := toNat_and_addressMask (s.entry t (getIndex 0 v))
      have hoff : (FourLevelPaging.offset 0 v).toNat = v.toNat % 4096 := toNat_and_fff v
      rw [BitVec.toNat_ushiftRight, BitVec.toNat_ushiftRight, BitVec.toNat_add, hoff,
        Nat.shiftRight_eq_div_pow, Nat.shiftRight_eq_div_pow]
      omega
  | succ k ih =>
    rw [leafEntry_succ]
    by_cases hp : s.entry t (getIndex (k + 1) v) &&& pgPresent = 0
    · rw [if_neg (not_not.mpr hp), FourLevelPaging.walk_of_absent]
      · show none = frameOf 0
        decide
      · rw [entry_physRead]
        exact hp
    · obtain ⟨hmask, hsize⟩ := hplain htk (getIndex_lt (k + 1) v) hp
      have hchild := ht.child htk (by omega) (inRange_getIndex (Nat.zero_le _) _) hp
      rw [if_pos hp, FourLevelPaging.walk_of_table, entry_physRead, ← hmask]
      · exact ih (by omega) hchild
      · rw [entry_physRead]
        exact hp
      · rw [entry_physRead]
        exact hsize (Nat.succ_ne_zero k)

/-- **The processor reads the map.** -/
theorem Hardware.archFrame_eq (h : s.Hardware r) (v : BitVec 64) :
    s.archFrame r v = s.frames r (pageNumber v) := by
  obtain ⟨hr, T, hroot, ht, -, -, hplain⟩ := h
  have hmem : r ∈ T 3 := by rw [hroot]; rfl
  rw [frames_pageNumber, archFrame, FourLevelPaging.translate, hr.and_addressMask]
  exact walk_eq_leafEntry ht hplain le_rfl hmem v

end MapperState

open MapperState

/-- **The processor sees what the kernel mapped.** After every run of `map_page` and `unmap_page` on a
table that it can walk, with pages for the tables from below `2 ^ 52`, the processor finds for every
address the frame that the last call on its page mapped. -/
theorem mapper_hardware {P : PageSource} {s s' : MapperState P} {r : BitVec 64}
    {calls : List PageTableCall} (hP : LowSource P) (h : s.Hardware r)
    (hrun : Run (callTable r) (fun _ call => call.Ok) s calls s') :
    s'.Hardware r ∧ ∀ v, s'.archFrame r v =
      calls.foldl (fun M call => call.update M) (s.frames r) (pageNumber v) := by
  have hkeep : s'.Hardware r :=
    hrun.invariant (P := fun s => s.Hardware r)
      (fun s call s' hs hok hcall => hs.callTable hP hok hcall) h
  refine ⟨hkeep, fun v => ?_⟩
  rw [hkeep.archFrame_eq, (mapper_refines h.wellFormed hrun).2.1]

/-- The empty table. -/
theorem hardware_oneEntryTable : (oneEntryTable 0).Hardware 0x1000 := by
  obtain ⟨ht, hu⟩ := tables_oneEntryTable (e := 0) (by decide)
  refine ⟨by decide, rootOnly 0x1000, rfl, ht, hu, absentClear_oneEntryTable, ?_⟩
  intro k t i htk hi hp
  obtain ⟨-, rfl⟩ := mem_rootOnly.mp htk
  exact absurd (entry_oneEntryTable (by decide)) hp

theorem lowSource_sevenPages : LowSource sevenPages := by
  intro st p st' halloc
  obtain ⟨q, hq, heq⟩ := Option.map_eq_some_iff.mp halloc
  obtain ⟨rfl, -⟩ := Prod.mk.inj heq
  have hall : ∀ p ∈ ([0x1000, 0x2000, 0x3000, 0x4000, 0x5000, 0x6000, 0x7000] : List (BitVec 64)),
      p.toNat < 2 ^ 52 := by simp
  exact hall q (List.mem_of_find?_eq_some hq)

/-- Mapping a page, with all flags but one, and unmapping another one. -/
theorem mapper_hardware_two :
    ∃ s', Run (callTable 0x1000) (fun _ call => call.Ok) (oneEntryTable 0)
        [.mapPage 0x9000 0x5000 (pgWrite ||| pgNx ||| pgPs), .unmapPage 0x6000] s' ∧
      s'.Hardware 0x1000 ∧ ∀ v, s'.archFrame 0x1000 v =
        [PageTableCall.mapPage 0x9000 0x5000 (pgWrite ||| pgNx ||| pgPs), .unmapPage 0x6000].foldl
          (fun M call => call.update M) ((oneEntryTable 0).frames 0x1000) (pageNumber v) := by
  have hsome : ((oneEntryTable 0).callTable 0x1000
      (.mapPage 0x9000 0x5000 (pgWrite ||| pgNx ||| pgPs))).isSome = true := by decide +kernel
  obtain ⟨s', hs'⟩ := Option.isSome_iff_exists.mp hsome
  have hrun : Run (callTable 0x1000) (fun _ call => call.Ok) (oneEntryTable 0)
      [.mapPage 0x9000 0x5000 (pgWrite ||| pgNx ||| pgPs), .unmapPage 0x6000] _ :=
    .cons ⟨by decide, by decide, by decide⟩ hs' (.cons trivial rfl (.nil _))
  exact ⟨_, hrun, mapper_hardware lowSource_sevenPages hardware_oneEntryTable hrun⟩

end GoofyOs
