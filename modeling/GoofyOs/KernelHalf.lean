import GoofyOs.MapperRun

/-!
# The kernel half of the address spaces

`kernel_top_pgt_init` fills the upper half of the boot table and copies it to `kernel_virtual_pt`;
`new_page_table` copies that. No later call has to change an upper top-level entry, as they are all
present, so all the copies keep the same ones and translate upper addresses alike.

The boot tables must be a hierarchy for this. If a lower table is also a top-level one, as with a
table that maps itself, then `map_page` can write an upper entry of one copy only.

## Main definitions

* `MapperState.BootTables` — the upper half of the boot table
* `KernelSys`, `KernelCall` — all the tables, and calls on any of them
* `KernelSys.Shared` — the tables translate upper addresses alike

## Main results

* `kernel_half_shared` — whole runs after `kernel_top_pgt_init`
* `kernel_half_not_shared` — a boot table that maps itself
-/

namespace GoofyOs

open MapperState

variable {P : PageSource} {s s' : MapperState P} {lo k : ℕ} {b c r t t' v i : BitVec 64}
  {T T' : ℕ → Set (BitVec 64)}

/-! ### Copying a top-level table -/

theorem entry_copyPage (hc : IsPage c) (ht : IsPage t) (hi : i.toNat < 512) :
    (s.copyPage (s.va c) (s.va r)).entry t i = if t = c then s.entry r i else s.entry t i := by
  show (if (slot (s.va t) i - s.va c).toNat < 0x1000 then
    s.mem (s.va r + (slot (s.va t) i - s.va c)) else s.mem (slot (s.va t) i)) = _
  refine if_ctx_congr (slot_sub_lt_iff ht hc hi) (fun h => ?_) fun _ => rfl
  subst h
  rw [slot, BitVec.add_comm (s.va t), BitVec.add_sub_cancel]
  rfl

/-- **Copying a top-level table** to a fresh page adds a top-level table. -/
theorem Tables.addRoot (ht : Tables s lo T) (hr : r ∈ T 3)
    (halloc : P.alloc s.pages = some (c, s'.pages))
    (hentry : ∀ {t i}, IsPage t → i.toNat < 512 →
      s'.entry t i = if t = c then s.entry r i else s.entry t i) :
    Tables s' lo (Function.update T 3 (insert c (T 3))) := by
  have hc := P.isPage halloc
  have hfresh := P.fresh halloc
  have hnew : ∀ {j}, c ∉ T j := fun h => hfresh (ht.used h)
  have hmem : ∀ {j x}, x ∈ Function.update T 3 (insert c (T 3)) j ↔
      x ∈ T j ∨ (j = 3 ∧ x = c) := by
    intro j x
    by_cases hj : j = 3
    · subst hj
      simp [or_comm]
    · simp [hj]
  refine ⟨?_, ?_, ?_, ?_⟩
  · intro j x hx
    rcases hmem.mp hx with hx | ⟨-, rfl⟩
    · exact ht.isPage hx
    · exact hc
  · intro j x hx
    rw [P.used_alloc halloc]
    rcases hmem.mp hx with hx | ⟨-, rfl⟩
    · exact Or.inr (ht.used hx)
    · exact Or.inl rfl
  · intro j j' x hx hx'
    rcases hmem.mp hx with hold | ⟨rfl, rfl⟩
    · rcases hmem.mp hx' with hold' | ⟨-, rfl⟩
      · exact ht.level hold hold'
      · exact absurd hold hnew
    · rcases hmem.mp hx' with hold' | ⟨rfl, -⟩
      · exact absurd hold' hnew
      · rfl
  · intro j x i hx hj hi hp
    refine hmem.mpr (Or.inl ?_)
    rcases hmem.mp hx with hold | ⟨hj3, rfl⟩
    · rw [hentry (ht.isPage hold) hi.1, if_neg fun h => hnew (h ▸ hold)] at hp ⊢
      exact ht.child hold hj hi hp
    · obtain rfl : j = 2 := by omega
      rw [hentry hc hi.1, if_pos rfl] at hp ⊢
      exact ht.child hr hj hi hp

/-- A table that the copy has was there before, or is the copy, and its entries are those of an old
table of the same level. -/
theorem Tables.exists_old (ht : Tables s lo T) (hr : r ∈ T 3)
    (halloc : P.alloc s.pages = some (c, s'.pages))
    (hentry : ∀ {t i}, IsPage t → i.toNat < 512 →
      s'.entry t i = if t = c then s.entry r i else s.entry t i)
    (htk : t ∈ Function.update T 3 (insert c (T 3)) k) :
    ∃ t₀ ∈ T k, (k ≠ 3 → t₀ = t) ∧ ∀ i : BitVec 64, i.toNat < 512 →
      s'.entry t i = s.entry t₀ i := by
  have hold : t ∈ T k → ∃ t₀ ∈ T k, (k ≠ 3 → t₀ = t) ∧ ∀ i : BitVec 64, i.toNat < 512 →
      s'.entry t i = s.entry t₀ i := by
    intro h
    refine ⟨t, h, fun _ => rfl, fun i hi => ?_⟩
    rw [hentry (ht.isPage h) hi, if_neg]
    rintro rfl
    exact P.fresh halloc (ht.used h)
  by_cases hk : k = 3
  · subst hk
    rw [Function.update_self] at htk
    rcases htk with rfl | h
    · refine ⟨r, hr, fun h => absurd rfl h, fun i hi => ?_⟩
      rw [hentry (P.isPage halloc) hi, if_pos rfl]
    · exact hold h
  · rw [Function.update_of_ne hk] at htk
    exact hold htk

theorem Unshared.addRoot (hu : Unshared s lo T) (ht : Tables s lo T) (hr : r ∈ T 3)
    (halloc : P.alloc s.pages = some (c, s'.pages))
    (hentry : ∀ {t i}, IsPage t → i.toNat < 512 →
      s'.entry t i = if t = c then s.entry r i else s.entry t i) :
    Unshared s' lo (Function.update T 3 (insert c (T 3))) where
  ps htk hk hi hp := by
    obtain ⟨t₀, ht₀, -, heq⟩ := ht.exists_old hr halloc hentry htk
    rw [heq _ hi.1] at hp ⊢
    exact hu.ps ht₀ hk hi hp
  inj {k t t' i j} htk htk' hk hi hj hp hp' h := by
    obtain ⟨t₀, ht₀, heqt, heq⟩ := ht.exists_old hr halloc hentry htk
    obtain ⟨t₁, ht₁, heqt', heq'⟩ := ht.exists_old hr halloc hentry htk'
    rw [heq _ hi.1] at hp h
    rw [heq' _ hj.1] at hp' h
    obtain ⟨hij, htop⟩ := hu.inj ht₀ ht₁ hk hi hj hp hp' h
    refine ⟨hij, ?_⟩
    by_cases hk2 : k = 2
    · exact Or.inl hk2
    · rw [← heqt (by omega), ← heqt' (by omega)]
      exact htop

theorem AbsentClear.addRoot (ha : AbsentClear s lo T) (ht : Tables s lo T) (hr : r ∈ T 3)
    (halloc : P.alloc s.pages = some (c, s'.pages))
    (hentry : ∀ {t i}, IsPage t → i.toNat < 512 →
      s'.entry t i = if t = c then s.entry r i else s.entry t i) :
    AbsentClear s' lo (Function.update T 3 (insert c (T 3))) := by
  intro k t i htk hk hi hp
  obtain ⟨t₀, ht₀, -, heq⟩ := ht.exists_old hr halloc hentry htk
  rw [heq _ hi.1] at hp ⊢
  exact ha ht₀ hk hi hp

/-! ### Filling the boot table -/

/-- The upper half of the boot table at `b`: entries that are zero or present, and tables below
them that are pages in use, each on one level only. -/
def MapperState.BootTables (s : MapperState P) (b : BitVec 64) : Prop :=
  ∃ T, T 3 = {b} ∧ Tables s 256 T ∧
    ∀ i : BitVec 64, 256 ≤ i.toNat → i.toNat < 512 →
      s.entry b i = 0 ∨ s.entry b i &&& pgPresent ≠ 0

/-- The upper entries of the boot table at `b` are zero, or present and point to pages in use. -/
structure MapperState.BootEntries (s : MapperState P) (b : BitVec 64) : Prop where
  isPage : IsPage b
  used : b ∈ P.used s.pages
  entry : ∀ i : BitVec 64, 256 ≤ i.toNat → i.toNat < 512 → s.entry b i = 0 ∨
    (s.entry b i &&& pgPresent ≠ 0 ∧ s.entry b i &&& addrMask ∈ P.used s.pages)

/-- An upper top-level index. -/
theorem toNat_upper {n : ℕ} (hn : n ∈ List.range' 0x100 0x100) :
    ((n : ℕ) : BitVec 64).toNat = n ∧ 256 ≤ n ∧ n < 512 := by
  have hn := List.mem_range'_1.mp hn
  refine ⟨?_, hn.1, by omega⟩
  rw [BitVec.natCast_eq_ofNat, BitVec.toNat_ofNat]
  exact Nat.mod_eq_of_lt (by omega)

/-- One round of the loop of `kernel_top_pgt_init` on an entry that is zero. -/
theorem topPgtLoop_cons {cr3 : BitVec 64} {n : ℕ} {ns : List ℕ} (h0 : s.mem (slot cr3 n) = 0) :
    topPgtLoop cr3 (n :: ns) s = (P.alloc s.pages).bind fun r =>
      topPgtLoop cr3 ns (s.addTable (slot cr3 n) r.1 r.2) := by
  rw [topPgtLoop, if_neg (not_not.mpr h0)]
  simp only [zpgalloc, pgalloc]
  cases P.alloc s.pages with
  | none => rfl
  | some r =>
    have hva : s.va r.1 - s.hhdmOffset = r.1 := BitVec.add_sub_cancel _ _
    simp only [Option.map_some, Option.bind_eq_bind, Option.bind_some]
    show topPgtLoop cr3 ns
      (write _ (slot cr3 n) ((s.va r.1 - s.hhdmOffset) ||| pgPresent ||| pgWrite)) = _
    rw [hva]
    rfl

/-- **The loop of `kernel_top_pgt_init`** makes the entries it visits present. -/
theorem Tables.topPgtLoop {ns : List ℕ} (ht : Tables s 256 T) (hb : b ∈ T 3)
    (hns : ∀ n ∈ ns, n ∈ List.range' 0x100 0x100)
    (hzero : ∀ n ∈ ns, s.entry b n = 0 ∨ s.entry b n &&& pgPresent ≠ 0)
    (hloop : MapperState.topPgtLoop (s.va b) ns s = some s') :
    ∃ T', Extends 256 3 s T s' T' ∧ ∀ n ∈ ns, s'.entry b n &&& pgPresent ≠ 0 := by
  induction ns generalizing s T with
  | nil =>
    obtain rfl := Option.some.inj hloop
    exact ⟨T, Extends.refl ht, by simp⟩
  | cons n ns ih =>
    obtain ⟨hn, hlow, hhigh⟩ := toNat_upper (hns n List.mem_cons_self)
    have hlt : ((n : ℕ) : BitVec 64).toNat < 512 := by omega
    have hns' : ∀ m ∈ ns, m ∈ List.range' 0x100 0x100 := fun m hm =>
      hns m (List.mem_cons_of_mem _ hm)
    by_cases h0 : s.entry b n = 0
    · rw [topPgtLoop_cons h0] at hloop
      obtain ⟨⟨c, pages⟩, halloc, hrest⟩ := Option.bind_eq_some_iff.mp hloop
      have hin : InRange 256 (2 + 1) ((n : ℕ) : BitVec 64) := ⟨hlt, fun _ => by omega⟩
      have hadds : AddsTable 256 2 s T b n c pages :=
        ⟨ht, hb, by omega, hin, by rw [h0]; exact BitVec.zero_and, halloc⟩
      have hext := hadds.toExtends
      have hc := P.isPage halloc
      have hbp := ht.isPage hb
      have hentry : ∀ j : BitVec 64, j.toNat < 512 →
          (s.addTable (slot (s.va b) n) c pages).entry b j =
            if j = (n : ℕ) then tableEntry c else s.entry b j := by
        intro j hj
        rw [entry_addTable pages hc hbp hbp hlt hj, if_neg hadds.ne.symm]
        exact if_congr (and_iff_right rfl) rfl rfl
      obtain ⟨T', hext', hpresent⟩ := ih hext.tables (hext.sub hb) hns' (fun m hm => by
        obtain ⟨hm', -, hmhigh⟩ := toNat_upper (hns' m hm)
        rw [hentry _ (by omega)]
        split
        · exact Or.inr (tableEntry_present c)
        · exact hzero m (List.mem_cons_of_mem _ hm)) hrest
      refine ⟨T', hext.trans hext' le_rfl, List.forall_mem_cons.mpr ⟨?_, hpresent⟩⟩
      have hself : (s.addTable (slot (s.va b) n) c pages).entry b n = tableEntry c := by
        rw [hentry _ hlt, if_pos rfl]
      rw [hext'.keep (hext.sub hb) hlt (by rw [hself]; exact tableEntry_present c), hself]
      exact tableEntry_present c
    · have hp := (hzero n List.mem_cons_self).resolve_left h0
      have hskip : MapperState.topPgtLoop (s.va b) (n :: ns) s =
          MapperState.topPgtLoop (s.va b) ns s := by
        rw [MapperState.topPgtLoop]
        exact if_pos h0
      rw [hskip] at hloop
      obtain ⟨T', hext, hpresent⟩ := ih ht hb hns'
        (fun m hm => hzero m (List.mem_cons_of_mem _ hm)) hloop
      refine ⟨T', hext, List.forall_mem_cons.mpr ⟨?_, hpresent⟩⟩
      rw [hext.keep hb hlt hp]
      exact hp

/-! ### Whole runs -/

/-- `kernel_virtual_pt` and all the top-level tables there are. -/
structure KernelSys (P : PageSource) where
  st : MapperState P
  kernel : BitVec 64
  tables : List (BitVec 64)

/-- Creating a table, or a call on one. -/
inductive KernelCall
  | newPageTable
  | call (table : BitVec 64) (c : PageTableCall)

/-- The address that a call is about. -/
def PageTableCall.virt : PageTableCall → BitVec 64
  | mapPage _ virt _ => virt
  | unmapPage virt => virt

namespace KernelSys

/-- One call. -/
def exec (s : KernelSys P) : KernelCall → Option (KernelSys P)
  | .newPageTable => (s.st.newPageTable (s.st.va s.kernel)).map fun r =>
    { s with st := r.2, tables := (r.1 - s.st.hhdmOffset) :: s.tables }
  | .call table c => (s.st.callTable table c).map fun st => { s with st := st }

/-- Calls are on the tables there are, at upper addresses. -/
def Allowed (s : KernelSys P) : KernelCall → Prop
  | .newPageTable => True
  | .call table c => table ∈ s.tables ∧ 256 ≤ (getIndex 3 c.virt).toNat

instance (s : KernelSys P) : (call : KernelCall) → Decidable (s.Allowed call)
  | .newPageTable => instDecidableTrue
  | .call _ _ => instDecidableAnd

/-- All the tables translate the upper addresses alike. -/
def Shared (s : KernelSys P) : Prop :=
  ∀ t ∈ s.tables, ∀ t' ∈ s.tables, ∀ v, 256 ≤ (getIndex 3 v).toNat →
    s.st.virtToPfn t v = s.st.virtToPfn t' v ∧
      s.st.isMappedNolock (s.st.va t) v = s.st.isMappedNolock (s.st.va t') v

/-- The invariant: the upper top-level entries of all tables are present and the same. -/
structure Inv (s : KernelSys P) (T : ℕ → Set (BitVec 64)) : Prop where
  tables : Tables s.st 256 T
  mem : ∀ t ∈ s.tables, t ∈ T 3
  kernel : s.kernel ∈ s.tables
  present : ∀ i : BitVec 64, 256 ≤ i.toNat → i.toNat < 512 →
    s.st.entry s.kernel i &&& pgPresent ≠ 0
  same : ∀ t ∈ s.tables, ∀ i : BitVec 64, 256 ≤ i.toNat → i.toNat < 512 →
    s.st.entry t i = s.st.entry s.kernel i

variable {sys sys' : KernelSys P} {call : KernelCall} {calls : List KernelCall}

theorem virtToPfnWalk_congr {a a' : BitVec 64} (h : s.mem a = s.mem a') :
    s.virtToPfnWalk v (k + 1) a = s.virtToPfnWalk v (k + 1) a' := by
  rw [virtToPfnWalk, h]
  rfl

theorem isMappedWalk_congr {a a' : BitVec 64} (h : s.mem a = s.mem a') :
    s.isMappedWalk v (k + 1) a = s.isMappedWalk v (k + 1) a' := by
  rw [isMappedWalk, h]
  rfl

/-- Walks that start at equal entries see the same. -/
theorem Inv.shared (h : sys.Inv T) : sys.Shared := by
  intro t ht t' ht' v hv
  have heq : sys.st.entry t (getIndex 3 v) = sys.st.entry t' (getIndex 3 v) :=
    (h.same t ht _ hv (getIndex_lt 3 v)).trans (h.same t' ht' _ hv (getIndex_lt 3 v)).symm
  rw [entry, entry] at heq
  exact ⟨congrArg (fun w => (w.setWidth 32).toInt) (virtToPfnWalk_congr heq),
    isMappedWalk_congr heq⟩

/-- What `new_page_table` does to the entries of the tables. -/
theorem newPageTable_spec {kernelCr3 : BitVec 64} {pg : BitVec 64} (hk : r ∈ P.used s.pages)
    (hrp : IsPage r) (hcr3 : kernelCr3 = s.va r)
    (hnew : s.newPageTable kernelCr3 = some (pg, s')) :
    ∃ c, pg = s.va c ∧ P.alloc s.pages = some (c, s'.pages) ∧
      s'.hhdmOffset = s.hhdmOffset ∧ ∀ {t i}, IsPage t → i.toNat < 512 →
        s'.entry t i = if t = c then s.entry r i else s.entry t i := by
  subst hcr3
  rw [newPageTable, zpgalloc, pgalloc, Option.map_map] at hnew
  obtain ⟨⟨pg', s₁⟩, hz, heq⟩ := Option.bind_eq_some_iff.mp hnew
  obtain ⟨⟨c, pages⟩, halloc, hz⟩ := Option.map_eq_some_iff.mp hz
  obtain ⟨rfl, rfl⟩ := Prod.mk.inj hz
  obtain ⟨rfl, rfl⟩ := Prod.mk.inj (Option.some.inj heq)
  refine ⟨c, rfl, halloc, rfl, fun {t i} htp hi => ?_⟩
  have hc := P.isPage halloc
  have hrc : r ≠ c := fun h => P.fresh halloc (h ▸ hk)
  have hclear : ∀ {t}, IsPage t →
      (s.clearPage (s.va c)).entry t i = if t = c then 0 else s.entry t i := fun htp =>
    entry_clearPage hc htp hi
  have hcopy : ((s.clearPage (s.va c)).copyPage (s.va c) (s.va r)).entry t i = _ :=
    entry_copyPage (s := s.clearPage (s.va c)) hc htp hi
  refine hcopy.trans ?_
  rw [hclear hrp, if_neg hrc, hclear htp]
  split <;> rfl

/-- **One call** keeps the invariant. -/
theorem Inv.exec (h : sys.Inv T) (hok : sys.Allowed call) (hstep : sys.exec call = some sys') :
    ∃ T', sys'.Inv T' := by
  have hkT := h.mem _ h.kernel
  cases call with
  | newPageTable =>
    obtain ⟨⟨pg, st⟩, hnew, rfl⟩ := Option.map_eq_some_iff.mp hstep
    obtain ⟨c, rfl, halloc, -, hentry⟩ :=
      newPageTable_spec (h.tables.used hkT) (h.tables.isPage hkT) rfl hnew
    have hc := P.isPage halloc
    have hphys : sys.st.va c - sys.st.hhdmOffset = c := BitVec.add_sub_cancel _ _
    have hne : ∀ t ∈ sys.tables, t ≠ c := fun t ht hct =>
      P.fresh halloc (hct ▸ h.tables.used (h.mem t ht))
    have hold : ∀ t ∈ sys.tables, ∀ {i : BitVec 64}, i.toNat < 512 →
        st.entry t i = sys.st.entry t i := fun t ht i hi => by
      rw [hentry (h.tables.isPage (h.mem t ht)) hi, if_neg (hne t ht)]
    refine ⟨_, h.tables.addRoot hkT halloc hentry, fun t ht => ?_,
      List.mem_cons_of_mem _ h.kernel, fun i hi hi' => ?_, fun t ht i hi hi' => ?_⟩
    · rw [Function.update_self]
      rcases List.mem_cons.mp ht with rfl | ht
      · rw [hphys]
        exact Set.mem_insert _ _
      · exact Or.inr (h.mem t ht)
    · rw [hold _ h.kernel hi']
      exact h.present i hi hi'
    · rw [hold _ h.kernel hi']
      rcases List.mem_cons.mp ht with rfl | ht
      · rw [hphys, hentry hc hi', if_pos rfl]
      · rw [hold t ht hi']
        exact h.same t ht i hi hi'
  | call table c =>
    obtain ⟨st, hcall, rfl⟩ := Option.map_eq_some_iff.mp hstep
    obtain ⟨htable, hv⟩ := hok
    obtain ⟨T', x, hw⟩ : ∃ T' x, PageWritten 256 sys.st T st T' table c.virt x := by
      cases c with
      | mapPage phys virt flags =>
        obtain ⟨T', hw⟩ := h.tables.mapPageNolock (h.mem _ htable) hv hcall
        exact ⟨T', _, hw⟩
      | unmapPage virt =>
        obtain rfl := Option.some.inj hcall
        exact ⟨T, 0, h.tables.unmapPageNolock (h.mem _ htable) hv⟩
    have hkeep : ∀ t ∈ sys.tables, ∀ i : BitVec 64, 256 ≤ i.toNat → i.toNat < 512 →
        st.entry t i = sys.st.entry t i := fun t ht i hi hi' =>
      hw.keep (h.mem t ht) hi' (by
        rw [h.same t ht i hi hi']
        exact h.present i hi hi')
    refine ⟨T', hw.tables, fun t ht => hw.sub (h.mem t ht), h.kernel, fun i hi hi' => ?_,
      fun t ht i hi hi' => ?_⟩
    · rw [hkeep _ h.kernel i hi hi']
      exact h.present i hi hi'
    · rw [hkeep t ht i hi hi', hkeep _ h.kernel i hi hi']
      exact h.same t ht i hi hi'

/-- What `kernel_top_pgt_init` does after its loop. -/
theorem kernelTopPgtInit_spec {pg : BitVec 64}
    (hinit : s.kernelTopPgtInit b = some (pg, s')) :
    ∃ s₁ c, MapperState.topPgtLoop (s.va b) (List.range' 0x100 0x100) s = some s₁ ∧
      pg = s₁.va c ∧ P.alloc s₁.pages = some (c, s'.pages) ∧ s'.hhdmOffset = s₁.hhdmOffset ∧
      ∀ {t i}, IsPage t → i.toNat < 512 →
        s'.entry t i = if t = c then s₁.entry b i else s₁.entry t i := by
  obtain ⟨s₁, hloop, hrest⟩ := Option.bind_eq_some_iff.mp hinit
  obtain ⟨⟨pg', s₂⟩, hpg, heq⟩ := Option.bind_eq_some_iff.mp hrest
  obtain ⟨⟨c, pages⟩, halloc, hpg⟩ := Option.map_eq_some_iff.mp hpg
  obtain ⟨rfl, rfl⟩ := Prod.mk.inj hpg
  obtain ⟨rfl, rfl⟩ := Prod.mk.inj (Option.some.inj heq)
  exact ⟨s₁, c, hloop, rfl, halloc, rfl, fun htp hi =>
    entry_copyPage (s := { s₁ with pages := pages }) (P.isPage halloc) htp hi⟩

/-- `kernel_top_pgt_init` establishes the invariant. It keeps the conditions that `BootTables` does
not ask for. -/
theorem inv_init {pg : BitVec 64} (hb : b ∈ T 3) (ht : Tables s 256 T)
    (hzero : ∀ i : BitVec 64, 256 ≤ i.toNat → i.toNat < 512 →
      s.entry b i = 0 ∨ s.entry b i &&& pgPresent ≠ 0)
    (hinit : s.kernelTopPgtInit b = some (pg, s')) :
    ∃ T', (KernelSys.mk s' (pg - s'.hhdmOffset) [pg - s'.hhdmOffset, b]).Inv T' ∧
      (Unshared s 256 T → Unshared s' 256 T') ∧ (AbsentClear s 256 T → AbsentClear s' 256 T') := by
  obtain ⟨s₁, c, hloop, rfl, halloc, hhdm, hentry⟩ := kernelTopPgtInit_spec hinit
  obtain ⟨T₁, hext, hpresent⟩ := ht.topPgtLoop hb (fun n hn => hn) (fun n hn => by
    obtain ⟨hn, hlow, hhigh⟩ := toNat_upper hn
    exact hzero _ (by omega) (by omega)) hloop
  have hc := P.isPage halloc
  have hb₁ := hext.sub hb
  have hbc : b ≠ c := fun h => P.fresh halloc (h ▸ hext.tables.used hb₁)
  have hphys : s₁.va c - s'.hhdmOffset = c := by
    rw [hhdm]
    exact BitVec.add_sub_cancel _ _
  rw [hphys]
  have hself : ∀ i : BitVec 64, i.toNat < 512 → s'.entry c i = s₁.entry b i := fun i hi => by
    rw [hentry hc hi, if_pos rfl]
  have hold : ∀ i : BitVec 64, i.toNat < 512 → s'.entry b i = s₁.entry b i := fun i hi => by
    rw [hentry (hext.tables.isPage hb₁) hi, if_neg hbc]
  refine ⟨_, ⟨hext.tables.addRoot hb₁ halloc hentry, fun t ht => ?_, List.mem_cons_self,
    fun i hi hi' => ?_, fun t ht i hi hi' => ?_⟩,
    fun hu => (hext.unshared hu).addRoot hext.tables hb₁ halloc hentry,
    fun ha => AbsentClear.addRoot (hext.absentClear ha) hext.tables hb₁ halloc hentry⟩
  · rw [Function.update_self]
    rcases List.mem_cons.mp ht with rfl | ht
    · exact Set.mem_insert _ _
    · rw [List.mem_singleton.mp ht]
      exact Or.inr hb₁
  · show s'.entry c i &&& pgPresent ≠ 0
    have h := hpresent i.toNat (List.mem_range'_1.mpr ⟨hi, by omega⟩)
    rw [BitVec.natCast_eq_ofNat, BitVec.ofNat_toNat, BitVec.setWidth_eq] at h
    rwa [hself i hi']
  · show s'.entry t i = s'.entry c i
    rcases List.mem_cons.mp ht with rfl | ht
    · rfl
    · rw [List.mem_singleton.mp ht, hself i hi', hold i hi']

end KernelSys

/-- **Whole runs** after `kernel_top_pgt_init`: whatever tables are created and whatever calls are
made on them at upper addresses, all the tables translate the upper addresses alike, the boot table
and that of `kernel_virtual_pt` among them. -/
theorem kernel_half_shared {pg : BitVec 64} {calls : List KernelCall} {sys : KernelSys P}
    (hboot : s.BootTables b) (hinit : s.kernelTopPgtInit b = some (pg, s'))
    (hrun : Run KernelSys.exec KernelSys.Allowed
      ⟨s', pg - s'.hhdmOffset, [pg - s'.hhdmOffset, b]⟩ calls sys) :
    sys.Shared := by
  obtain ⟨T, hroot, ht, hzero⟩ := hboot
  have hb : b ∈ T 3 := by
    rw [hroot]
    rfl
  obtain ⟨T₁, hinv, -⟩ := KernelSys.inv_init hb ht hzero hinit
  obtain ⟨T', hinv'⟩ : ∃ T', sys.Inv T' :=
    hrun.invariant (P := fun sys => ∃ T, sys.Inv T)
      (fun _ _ _ ⟨_, h⟩ hok hstep => h.exec hok hstep) ⟨T₁, hinv⟩
  exact hinv'.shared

/-! ### Two boot tables -/

/-- A boot table at page `0x1000` with all its upper entries present. The last one is `e`, and the
others point to an empty table at page `0x2000`. -/
def filledBoot (e : BitVec 64) : MapperState sevenPages where
  mem a :=
    if a = 0x1ff8 then e else if 0x1800 ≤ a.toNat ∧ a.toNat < 0x2000 then tableEntry 0x2000 else 0
  hhdmOffset := 0
  pages := show Finset (BitVec 64) from {0x1000, 0x2000}

/-- The tables of `filledBoot` when all its entries point to the empty one. -/
def filledBootTables (k : ℕ) : Set (BitVec 64) :=
  if k = 3 then {0x1000} else if k = 2 then {0x2000} else ∅

theorem mem_filledBootTables :
    t ∈ filledBootTables k ↔ (k = 3 ∧ t = 0x1000) ∨ (k = 2 ∧ t = 0x2000) := by
  rw [filledBootTables]
  split_ifs <;> simp_all

theorem toNat_slot_zero {n : ℕ} (ht : t.toNat = n) (hn : n ≤ 0x2000) (hi : i.toNat < 512) :
    (slot ((filledBoot c).va t) i).toNat = n + 8 * i.toNat := by
  have hva : (filledBoot c).va t = t := BitVec.add_zero t
  rw [hva, slot, BitVec.toNat_add, toNat_eight_mul hi]
  omega

theorem entry_filledBoot (h : 256 ≤ i.toNat) (hi : i.toNat < 512) :
    (filledBoot c).entry 0x1000 i = if i.toNat = 511 then c else tableEntry 0x2000 := by
  have hslot := toNat_slot_zero (c := c) (show (0x1000 : BitVec 64).toNat = 0x1000 from rfl)
    (by omega) hi
  have hlast : slot ((filledBoot c).va 0x1000) i = 0x1ff8 ↔ i.toNat = 511 := by
    constructor
    · intro heq
      rw [heq] at hslot
      change 0x1ff8 = _ at hslot
      omega
    · intro heq
      apply BitVec.eq_of_toNat_eq
      rw [hslot, heq]
      rfl
  show (if slot ((filledBoot c).va 0x1000) i = 0x1ff8 then c else if _ then _ else _) = _
  refine if_congr hlast rfl (if_pos ?_)
  rw [hslot]
  omega

theorem entry_filledBoot_lower (hi : i.toNat < 512) : (filledBoot c).entry 0x2000 i = 0 := by
  have hslot := toNat_slot_zero (c := c) (show (0x2000 : BitVec 64).toNat = 0x2000 from rfl)
    le_rfl hi
  show (if slot ((filledBoot c).va 0x2000) i = 0x1ff8 then c else if _ then _ else _) = _
  rw [if_neg, if_neg]
  · rw [hslot]
    omega
  · intro heq
    rw [heq] at hslot
    change 0x1ff8 = _ at hslot
    omega

theorem bootTables_filledBoot : (filledBoot (tableEntry 0x2000)).BootTables 0x1000 := by
  have hupper : ∀ {i : BitVec 64}, 256 ≤ i.toNat → i.toNat < 512 →
      (filledBoot (tableEntry 0x2000)).entry 0x1000 i = tableEntry 0x2000 := fun h hi => by
    rw [entry_filledBoot h hi, ite_self]
  refine ⟨filledBootTables, rfl, ⟨?_, ?_, ?_, ?_⟩, fun i h hi => Or.inr ?_⟩
  · intro k t ht
    rcases mem_filledBootTables.mp ht with ⟨-, rfl⟩ | ⟨-, rfl⟩ <;> decide
  · intro k t ht
    show t ∈ (({0x1000, 0x2000} : Finset (BitVec 64)) : Set (BitVec 64))
    rcases mem_filledBootTables.mp ht with ⟨-, rfl⟩ | ⟨-, rfl⟩ <;> simp
  · intro j k t ht ht'
    rcases mem_filledBootTables.mp ht with ⟨rfl, rfl⟩ | ⟨rfl, rfl⟩ <;>
      rcases mem_filledBootTables.mp ht' with ⟨rfl, h⟩ | ⟨rfl, h⟩ <;> first
        | rfl
        | exact absurd h (by decide)
  · intro k t i ht hk hi hp
    rcases mem_filledBootTables.mp ht with ⟨hk, rfl⟩ | ⟨hk, rfl⟩
    · obtain rfl : k = 2 := by omega
      rw [hupper (hi.2 rfl) hi.1, tableEntry_and_addrMask (by decide)]
      exact mem_filledBootTables.mpr (Or.inr ⟨rfl, rfl⟩)
    · rw [entry_filledBoot_lower hi.1] at hp
      exact absurd BitVec.zero_and hp
  · rw [hupper h hi]
    exact tableEntry_present _

/-- The address with the four indices `i`, `j`, `k`, `l`, from the top. -/
def fromIndices (i j k l : BitVec 64) : BitVec 64 :=
  i <<< 39 ||| j <<< 30 ||| k <<< 21 ||| l <<< 12

/-- Writing entry 300 of the boot table through its own last entry. -/
def selfMapCall : PageTableCall := .mapPage 0x9000 (fromIndices 511 511 511 300) pgPs

theorem bootEntries_filledBoot : (filledBoot (tableEntry 0x1000)).BootEntries 0x1000 where
  isPage := by decide
  used := by
    show _ ∈ (({0x1000, 0x2000} : Finset (BitVec 64)) : Set (BitVec 64))
    simp
  entry i h hi := by
    refine Or.inr ?_
    show _ ∧ _ ∈ (({0x1000, 0x2000} : Finset (BitVec 64)) : Set (BitVec 64))
    rw [entry_filledBoot h hi]
    split
    · rw [tableEntry_and_addrMask (by decide)]
      exact ⟨tableEntry_present _, by simp⟩
    · rw [tableEntry_and_addrMask (by decide)]
      exact ⟨tableEntry_present _, by simp⟩

/-- **A boot table that maps itself.** A call on `kernel_virtual_pt` writes entry 300 of the boot
table, which `kernel_virtual_pt` does not see. -/
theorem kernel_half_not_shared :
    ¬ ∀ (P : PageSource) (s s' : MapperState P) (b pg : BitVec 64) (calls : List KernelCall)
      (sys : KernelSys P), s.BootEntries b → s.kernelTopPgtInit b = some (pg, s') →
      Run KernelSys.exec KernelSys.Allowed
        ⟨s', pg - s'.hhdmOffset, [pg - s'.hhdmOffset, b]⟩ calls sys → sys.Shared := by
  intro h
  have hrun : ((filledBoot (tableEntry 0x1000)).kernelTopPgtInit 0x1000).bind (fun r =>
      (Run.check KernelSys.exec KernelSys.Allowed
        ⟨r.2, r.1 - r.2.hhdmOffset, [r.1 - r.2.hhdmOffset, 0x1000]⟩
        [.call 0x3000 selfMapCall]).map fun sys =>
          (sys.tables, sys.st.virtToPfn 0x3000 (fromIndices 300 0 0 0),
            sys.st.virtToPfn 0x1000 (fromIndices 300 0 0 0))) =
      some ([0x3000, 0x1000], 0, 0x9000) := by
    decide +kernel
  obtain ⟨⟨pg, s'⟩, hinit, hrun⟩ := Option.bind_eq_some_iff.mp hrun
  obtain ⟨sys, hsys, heq⟩ := Option.map_eq_some_iff.mp hrun
  obtain ⟨htables, hkernel, hboot⟩ : sys.tables = [0x3000, 0x1000] ∧
      sys.st.virtToPfn 0x3000 (fromIndices 300 0 0 0) = 0 ∧
      sys.st.virtToPfn 0x1000 (fromIndices 300 0 0 0) = 0x9000 := by
    simpa only [Prod.mk.injEq] using heq
  have hshared := h _ _ _ _ _ _ _ bootEntries_filledBoot hinit (Run.of_check hsys)
  have hsame := (hshared 0x3000 (by rw [htables]; simp) 0x1000 (by rw [htables]; simp)
    (fromIndices 300 0 0 0) (by decide)).1
  rw [hkernel, hboot] at hsame
  exact absurd hsame (by decide)

/-- A run that creates a table, maps a page through it and unmaps it in `kernel_virtual_pt`. -/
theorem kernel_half_shared_three :
    ∃ s' sys, (filledBoot (tableEntry 0x2000)).kernelTopPgtInit 0x1000 = some (0x3000, s') ∧
      Run KernelSys.exec KernelSys.Allowed
        ⟨s', 0x3000 - s'.hhdmOffset, [0x3000 - s'.hhdmOffset, 0x1000]⟩
        [.newPageTable, .call 0x4000 (.mapPage 0x9000 (fromIndices 300 0 0 0) pgWrite),
          .call 0x3000 (.unmapPage (fromIndices 300 0 0 0))] sys ∧ sys.Shared := by
  have hrun : ((filledBoot (tableEntry 0x2000)).kernelTopPgtInit 0x1000).bind (fun r =>
      (Run.check KernelSys.exec KernelSys.Allowed
        ⟨r.2, 0x3000 - r.2.hhdmOffset, [0x3000 - r.2.hhdmOffset, 0x1000]⟩
        [.newPageTable, .call 0x4000 (.mapPage 0x9000 (fromIndices 300 0 0 0) pgWrite),
          .call 0x3000 (.unmapPage (fromIndices 300 0 0 0))]).map fun _ => r.1) =
      some 0x3000 := by
    decide +kernel
  obtain ⟨⟨pg, s'⟩, hinit, hrun⟩ := Option.bind_eq_some_iff.mp hrun
  obtain ⟨sys, hsys, rfl⟩ := Option.map_eq_some_iff.mp hrun
  have hrun := Run.of_check hsys
  exact ⟨s', sys, hinit, hrun, kernel_half_shared bootTables_filledBoot hinit hrun⟩

end GoofyOs
