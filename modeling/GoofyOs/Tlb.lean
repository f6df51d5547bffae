import GoofyOs.ForMathlib.CachedMap
import GoofyOs.ForMathlib.RunSim
import GoofyOs.HardwareWalk
import GoofyOs.KernelHalf

/-!
# Translations that processors remember

`map_page` and `unmap_page` end with `vm_invalidate`, an `invlpg` on the processor they run on. No
other processor is told. Every processor may remember the translation of a page that it finds mapped,
and may forget one, at any time; a switch to a task forgets all, as it writes CR3.

Between the write of an entry and `invlpg` interrupts are off, by the lock of the table, so the two are
one step here. `unmap_page` returns before both when a table is missing.

## Main definitions

* `TlbSys`, `TlbAct` — processors on one page table
* `TlbSys.translate` — what a processor takes an address for
* `TlbSys.Alone` — no other processor remembers what a call changes

## Main results

* `TlbSys.coherent_exec_iff` — one step
* `tlb_run_iff` — the processors see the map all along a run if and only if every call is alone
* `tlb_run_single` — a single processor always does
-/

namespace GoofyOs

open MapperState

/-- Processors on one page table, and the frames that each of them remembers. -/
structure TlbSys (P : PageSource) (ι : Type*) where
  mapper : MapperState P
  tlb : ι → BitVec 36 → Option (BitVec 64)

/-- What happens on a processor. -/
inductive TlbAct (ι : Type*)
  /-- `map_page` or `unmap_page` -/
  | call (cpu : ι) (call : PageTableCall)
  /-- the processor walks the table for an address and remembers what it finds -/
  | walk (cpu : ι) (virt : BitVec 64)
  /-- the processor drops a translation -/
  | drop (cpu : ι) (virt : BitVec 64)
  /-- `return_to_ctx` writes CR3 -/
  | writeCr3 (cpu : ι)

namespace TlbSys

variable {P : PageSource} {ι : Type*}

/-- What a processor takes an address for. -/
def translate (s : TlbSys P ι) (r : BitVec 64) (cpu : ι) (virt : BitVec 64) : Option (BitVec 64) :=
  (s.tlb cpu (pageNumber virt)).or (s.mapper.archFrame r virt)

/-- The map with what is remembered of it. -/
def cached (s : TlbSys P ι) (r : BitVec 64) : CachedMap ι (BitVec 36) (BitVec 64) :=
  ⟨s.mapper.frames r, s.tlb⟩

/-- The calls of `map_page` and `unmap_page`. -/
def calls : List (TlbAct ι) → List PageTableCall
  | [] => []
  | .call _ c :: acts => c :: calls acts
  | _ :: acts => calls acts

/-- Only acceptable calls are made. -/
def Ok : TlbAct ι → Prop
  | .call _ c => c.Ok
  | _ => True

/-- No other processor remembers a frame for the page of a call, other than the one it maps. -/
def Alone (s : TlbSys P ι) : TlbAct ι → Prop
  | .call cpu c => ∀ cpu' ≠ cpu, ∀ f, s.tlb cpu' c.page = some f → c.frame = some f
  | _ => True

/-- A processor that can walk the table reads the map, through what it remembers. -/
theorem translate_eq {s : TlbSys P ι} {r : BitVec 64} (h : s.mapper.Hardware r) (cpu : ι)
    (v : BitVec 64) :
    s.translate r cpu v = (s.cached r).read cpu (pageNumber v) := by
  rw [translate, h.archFrame_eq]
  rfl

variable [DecidableEq ι]

/-- Setting what a processor remembers of a page. -/
def setTlb (s : TlbSys P ι) (cpu : ι) (n : BitVec 36) (f : Option (BitVec 64)) : TlbSys P ι :=
  { s with tlb := Function.update s.tlb cpu (Function.update (s.tlb cpu) n f) }

/-- `vm_invalidate`. -/
def vmInvalidate (s : TlbSys P ι) (cpu : ι) (virt : BitVec 64) : TlbSys P ι :=
  s.setTlb cpu (pageNumber virt) none

/-- The call gets to `vm_invalidate`. -/
def Invalidates (m : MapperState P) (r : BitVec 64) : PageTableCall → Prop
  | .mapPage _ _ _ => True
  | .unmapPage virt => (m.unmapWalk virt 3 (slot (m.va r) (getIndex 3 virt))).isSome = true

instance (m : MapperState P) (r : BitVec 64) : (call : PageTableCall) →
    Decidable (Invalidates m r call)
  | .mapPage _ _ _ => instDecidableTrue
  | .unmapPage _ => inferInstanceAs (Decidable (_ = _))

/-- One step. -/
def exec (r : BitVec 64) (s : TlbSys P ι) : TlbAct ι → Option (TlbSys P ι)
  | .call cpu c => (s.mapper.callTable r c).map fun m =>
    if Invalidates s.mapper r c then vmInvalidate { s with mapper := m } cpu c.virt
    else { s with mapper := m }
  | .walk cpu virt => some (s.setTlb cpu (pageNumber virt) (s.mapper.archFrame r virt))
  | .drop cpu virt => some (s.setTlb cpu (pageNumber virt) none)
  | .writeCr3 cpu => some { s with tlb := Function.update s.tlb cpu fun _ => none }

variable {s s' : TlbSys P ι} {r : BitVec 64} {act : TlbAct ι} {acts : List (TlbAct ι)}

/-- **A call** writes the map, unless it returns early. -/
theorem cached_call (h : s.mapper.WellFormed r) {cpu : ι} {c : PageTableCall} (hok : c.Ok)
    (hstep : s.exec r (.call cpu c) = some s') :
    s'.cached r = (s.cached r).write cpu c.page c.frame ∨
      s'.cached r = s.cached r ∧ c.frame = none ∧ s.mapper.frames r c.page = none := by
  obtain ⟨m, hcall, rfl⟩ := Option.map_eq_some_iff.mp hstep
  have hframes := h.frames_callTable hok hcall
  by_cases hinv : Invalidates s.mapper r c
  · left
    have hvirt : pageNumber c.virt = c.page := by cases c <;> rfl
    rw [if_pos hinv, vmInvalidate, hvirt]
    show CachedMap.mk (m.frames r) _ = CachedMap.mk (Function.update (s.mapper.frames r) _ _) _
    rw [hframes]
    rfl
  · right
    rw [if_neg hinv]
    cases c with
    | mapPage phys virt flags => exact absurd trivial hinv
    | unmapPage virt =>
      have hnone : s.mapper.unmapWalk virt 3 (slot (s.mapper.va r) (getIndex 3 virt)) = none :=
        Option.not_isSome_iff_eq_none.mp hinv
      obtain rfl := Option.some.inj hcall
      have hsame : s.mapper.unmapPageNolock (s.mapper.va r) virt = s.mapper := by
        rw [unmapPageNolock, hnone]
      have hleaf : s.mapper.leafOf r virt = 0 := by
        rw [leafOf, leafEntry, hnone]
        rfl
      refine ⟨by rw [hsame], rfl, ?_⟩
      rw [show (PageTableCall.unmapPage virt).page = pageNumber virt from rfl, frames_pageNumber,
        hleaf]
      decide

/-- **One step** from a coherent state leads to one if and only if it is alone. -/
theorem coherent_exec_iff (h : s.mapper.Hardware r) (hc : (s.cached r).Coherent) (hok : Ok act)
    (hstep : s.exec r act = some s') : (s'.cached r).Coherent ↔ s.Alone act := by
  cases act with
  | call cpu c =>
    rcases cached_call h.wellFormed hok hstep with heq | ⟨heq, hframe, hnone⟩
    · rw [heq]
      exact CachedMap.coherent_write_iff hc c.frame
    · rw [heq]
      refine iff_of_true hc fun cpu' _ f hf => ?_
      exact hframe.trans (hnone.symm.trans (hc cpu' c.page f hf))
  | walk cpu virt =>
    obtain rfl := Option.some.inj hstep
    rw [h.archFrame_eq]
    exact iff_of_true (hc.load cpu (pageNumber virt)) trivial
  | drop cpu virt =>
    obtain rfl := Option.some.inj hstep
    exact iff_of_true (hc.evict cpu (pageNumber virt)) trivial
  | writeCr3 cpu =>
    obtain rfl := Option.some.inj hstep
    exact iff_of_true (hc.flush cpu) trivial

/-- A step keeps the table one for the processor. -/
theorem hardware_exec (hP : LowSource P) (h : s.mapper.Hardware r) (hok : Ok act)
    (hstep : s.exec r act = some s') : s'.mapper.Hardware r := by
  cases act with
  | call cpu c =>
    obtain ⟨m, hcall, rfl⟩ := Option.map_eq_some_iff.mp hstep
    have hm := h.callTable hP hok hcall
    split
    · exact hm
    · exact hm
  | walk cpu virt =>
    obtain rfl := Option.some.inj hstep
    exact h
  | drop cpu virt =>
    obtain rfl := Option.some.inj hstep
    exact h
  | writeCr3 cpu =>
    obtain rfl := Option.some.inj hstep
    exact h

/-- The tables go through the run of the calls. -/
theorem run_calls (hrun : Run (exec r) (fun _ act => Ok act) s acts s') :
    Run (MapperState.callTable r) (fun _ call => call.Ok) s.mapper (calls acts) s'.mapper := by
  induction hrun with
  | nil s => exact .nil s.mapper
  | @cons s s' t act acts hok hstep _ ih =>
    cases act with
    | call cpu c =>
      obtain ⟨m, hcall, rfl⟩ := Option.map_eq_some_iff.mp hstep
      refine .cons hok hcall ?_
      split at ih
      · exact ih
      · exact ih
    | walk cpu virt =>
      obtain rfl := Option.some.inj hstep
      exact ih
    | drop cpu virt =>
      obtain rfl := Option.some.inj hstep
      exact ih
    | writeCr3 cpu =>
      obtain rfl := Option.some.inj hstep
      exact ih

end TlbSys

open TlbSys

variable {P : PageSource} {ι : Type*} [DecidableEq ι]

/-- **The processors see the map** that the calls so far have made, for every address and in every
state of a run that starts with nothing remembered, if and only if no call changes a page of which
another processor remembers another frame. -/
theorem tlb_run_iff {m : MapperState P} {s : TlbSys P ι} {r : BitVec 64} {acts : List (TlbAct ι)}
    (hP : LowSource P) (h : m.Hardware r)
    (hrun : Run (exec r) (fun _ act => Ok act) ⟨m, fun _ _ => none⟩ acts s) :
    (∀ ds u, ds <+: acts → Run (exec r) (fun _ act => Ok act) ⟨m, fun _ _ => none⟩ ds u →
      ∀ cpu v, u.translate r cpu v =
        (calls ds).foldl (fun M call => call.update M) (m.frames r) (pageNumber v)) ↔
      Run (exec r) (fun s act => Ok act ∧ s.Alone act) ⟨m, fun _ _ => none⟩ acts s := by
  have hstart : (TlbSys.mk (ι := ι) m fun _ _ => none).mapper.Hardware r ∧
      ((TlbSys.mk (ι := ι) m fun _ _ => none).cached r).Coherent :=
    ⟨h, fun _ _ _ hx => absurd hx (by simp [cached])⟩
  rw [← hrun.always_iff (P := fun s => s.mapper.Hardware r ∧ (s.cached r).Coherent)
    (Q := fun s act => s.Alone act) hstart fun s act s' hs hok hstep => by
      rw [← coherent_exec_iff hs.1 hs.2 hok hstep,
        and_iff_right (hardware_exec hP hs.1 hok hstep)]]
  refine forall_congr' fun ds => forall_congr' fun u => imp_congr_right fun _ =>
    forall_congr' fun hds => ?_
  have hu : u.mapper.Hardware r :=
    hds.invariant (P := fun s => s.mapper.Hardware r)
      (fun s act s' hs hok hstep => hardware_exec hP hs hok hstep) h
  have hframes := (mapper_refines h.wellFormed (run_calls hds)).2.1
  rw [and_iff_right hu, CachedMap.coherent_iff, ← hframes]
  constructor
  · intro hall cpu n
    have heq := hall cpu (pageAddress n)
    rwa [translate_eq hu, pageNumber_pageAddress] at heq
  · intro hall cpu v
    rw [translate_eq hu]
    exact hall cpu (pageNumber v)

/-- The second processor remembers a page that the first one unmaps. -/
theorem tlb_run_two :
    ∃ s : TlbSys sevenPages Bool, Run (exec 0x1000) (fun _ act => Ok act)
        ⟨oneEntryTable 0, fun _ _ => none⟩
        [.call false (.mapPage 0x9000 0x5000 pgWrite), .walk true 0x5000,
          .call false (.unmapPage 0x5000)] s ∧
      ((∀ ds u, ds <+: [.call false (.mapPage 0x9000 0x5000 pgWrite), .walk true 0x5000,
          .call false (.unmapPage 0x5000)] →
        Run (exec 0x1000) (fun _ act => Ok act) ⟨oneEntryTable 0, fun _ _ => none⟩ ds u →
        ∀ cpu v, u.translate 0x1000 cpu v = (calls ds).foldl (fun M call => call.update M)
          ((oneEntryTable 0).frames 0x1000) (pageNumber v)) ↔
        Run (exec 0x1000) (fun s act => Ok act ∧ s.Alone act) ⟨oneEntryTable 0, fun _ _ => none⟩
          [.call false (.mapPage 0x9000 0x5000 pgWrite), .walk true 0x5000,
            .call false (.unmapPage 0x5000)] s) := by
  have hsome : ((TlbSys.mk (oneEntryTable 0) fun _ _ => none : TlbSys sevenPages Bool).exec 0x1000
      (.call false (.mapPage 0x9000 0x5000 pgWrite))).isSome = true := by decide +kernel
  obtain ⟨s, hs⟩ := Option.isSome_iff_exists.mp hsome
  have hrun : Run (exec 0x1000) (fun _ act => Ok act) ⟨oneEntryTable 0, fun _ _ => none⟩
      [.call false (.mapPage 0x9000 0x5000 pgWrite), .walk true 0x5000,
        .call false (.unmapPage 0x5000)] _ :=
    .cons ⟨by decide, by decide, by decide⟩ hs
      (.cons trivial rfl (.cons trivial rfl (.nil _)))
  exact ⟨_, hrun, tlb_run_iff lowSource_sevenPages hardware_oneEntryTable hrun⟩

/-- With a single processor every call is alone. -/
theorem tlb_run_single [Subsingleton ι] {s t : TlbSys P ι} {r : BitVec 64} {acts : List (TlbAct ι)}
    (hrun : Run (exec r) (fun _ act => Ok act) s acts t) :
    Run (exec r) (fun s act => Ok act ∧ s.Alone act) s acts t := by
  refine hrun.mono fun s act hok => ⟨hok, ?_⟩
  cases act with
  | call cpu c => exact fun cpu' hne => absurd (Subsingleton.elim cpu' cpu) hne
  | walk cpu virt => exact trivial
  | drop cpu virt => exact trivial
  | writeCr3 cpu => exact trivial

end GoofyOs
