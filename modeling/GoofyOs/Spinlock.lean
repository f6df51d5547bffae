import GoofyOs.ForMathlib.Run
import Mathlib.Algebra.Group.Nat.Defs
import Mathlib.Data.List.DropRight
import Mathlib.Logic.Function.Basic

/-!
# Locks and the interrupt flag

`acquire` and `release` of `arch/x86-64/spinlock.c` count their nesting in `cli_count`, and `popcli`
enables interrupts when the count is back at zero. Whether they were enabled before the outermost
`acquire` is not kept anywhere.

So the flag is restored only if the count was zero just when interrupts were enabled. An interrupt
handler runs with the flag cleared and `cli_count` at zero, and its first `release` enables
interrupts; a CPU that never leaves the `cli_count` of 1 that `limine_init` gave it loses them.

## Main definitions

* `LockCpu`, `LockEvent`, `LockCpu.step` — a CPU, and what may happen to it
* `Nested` — properly nested sequences of `acquire` and `release`
* `Reenables` — the last calls of a sequence bring `cli_count` to zero

## Main results

* `lock_nesting` — nested calls restore `cli_count`, and when they restore the flag
* `not_lock_nesting` — an interrupt handler
-/

namespace GoofyOs

/-- A call of `acquire` or `release`. -/
inductive LockCall (ι : Type*)
  | acquire (lock : ι)
  | release (lock : ι)
  deriving DecidableEq

/-- A CPU: its interrupt flag and `cli_count`, the flags saved by the interrupts that have not
returned, and the lock words, which it shares with the other CPUs. -/
structure LockCpu (ι : Type*) where
  interruptFlag : Bool
  cliCount : BitVec 64
  frames : List Bool
  locked : ι → Bool

/-- What may happen next. -/
inductive LockEvent (ι : Type*)
  | call (c : LockCall ι)
  /-- another CPU writes a lock word -/
  | otherCpu (lock : ι) (value : Bool)
  /-- `schedule_bsp`, on the first CPU -/
  | scheduleBsp
  /-- `go_to_task`, to registers that were saved with the flag -/
  | goToTask (flag : Bool)
  /-- the `sti` of `sched_idle` -/
  | schedIdle
  /-- the entry of an interrupt, up to the end of the `cli` in `isr_generic_handler` -/
  | interrupt
  /-- the `iretq` of the handler -/
  | iretq
  deriving DecidableEq

namespace LockCpu

variable {ι : Type*} [DecidableEq ι]

/-- `pushcli`. -/
def pushcli (s : LockCpu ι) : LockCpu ι :=
  { s with cliCount := s.cliCount + 1, interruptFlag := false }

/-- `popcli`. -/
def popcli (s : LockCpu ι) : LockCpu ι :=
  { s with
    cliCount := s.cliCount - 1
    interruptFlag := if s.cliCount - 1 = 0 then true else s.interruptFlag }

/-- `acquire`. It waits in `raw_acquire` until the lock word is zero. -/
def acquire (s : LockCpu ι) (lock : ι) : Option (LockCpu ι) :=
  if s.locked lock then none
  else some { s.pushcli with locked := Function.update s.locked lock true }

/-- `release`. -/
def release (s : LockCpu ι) (lock : ι) : LockCpu ι :=
  { s with locked := Function.update s.locked lock false }.popcli

/-- A CPU after `limine_init`. -/
def boot (ι : Type*) : LockCpu ι := ⟨false, 1, [], fun _ => false⟩

/-- One step, if it can be taken. -/
def step (s : LockCpu ι) : LockEvent ι → Option (LockCpu ι)
  | .call (.acquire lock) => s.acquire lock
  | .call (.release lock) => some (s.release lock)
  | .otherCpu lock value => some { s with locked := Function.update s.locked lock value }
  | .scheduleBsp =>
    -- the registers of the idle task are zeroed, so that interrupts are disabled
    some { s with cliCount := 0, interruptFlag := false, frames := [] }
  | .goToTask flag => some { s with interruptFlag := flag, frames := [] }
  | .schedIdle => some { s with interruptFlag := true }
  | .interrupt =>
    if s.interruptFlag then some { s with interruptFlag := false, frames := true :: s.frames }
    else none
  | .iretq =>
    match s.frames with
    | [] => none
    | flag :: frames => some { s with interruptFlag := flag, frames := frames }

/-- Calls of this CPU, and writes of other CPUs to the lock words. -/
def Calls (_ : LockCpu ι) : LockEvent ι → Prop
  | .call _ | .otherCpu _ _ => True
  | _ => False

instance (s : LockCpu ι) (e : LockEvent ι) : Decidable (s.Calls e) := by
  cases e <;> unfold Calls <;> infer_instance

end LockCpu

section Nesting

variable {ι : Type*}

/-- The calls among some events. -/
def callsOf (es : List (LockEvent ι)) : List (LockCall ι) :=
  es.filterMap fun
    | .call c => some c
    | _ => none

/-- Every `acquire` has its `release`, and the pairs do not cross. -/
inductive Nested : List (LockCall ι) → Prop
  | nil : Nested []
  | pair (lock : ι) {cs ds : List (LockCall ι)} (hcs : Nested cs) (hds : Nested ds) :
      Nested (.acquire lock :: (cs ++ .release lock :: ds))

def LockCall.isRelease : LockCall ι → Bool
  | release _ => true
  | acquire _ => false

/-- One of the `release` calls at the end brings `cli_count` to zero, if it is `count` afterwards. As
long as the nesting is not so deep that `cli_count` wraps, this says that `count` is zero: see
`reenables_iff`. -/
def Reenables (count : BitVec 64) (cs : List (LockCall ι)) : Prop :=
  ∃ i < (cs.rtakeWhile LockCall.isRelease).length, count + BitVec.ofNat 64 i = 0

/-! ### The flag and the count -/

/-- The flag and `cli_count` after a call that returns. -/
def track (p : Bool × BitVec 64) : LockCall ι → Bool × BitVec 64
  | .acquire _ => (false, p.2 + 1)
  | .release _ => (if p.2 - 1 = 0 then true else p.1, p.2 - 1)

variable {p : Bool × BitVec 64} {cs : List (LockCall ι)} {n : BitVec 64}

/-- Nested calls restore the count. -/
theorem Nested.count (h : Nested cs) (p : Bool × BitVec 64) : (cs.foldl track p).2 = p.2 := by
  induction h generalizing p with
  | nil => rfl
  | pair lock _ _ ihcs ihds =>
    rw [List.foldl_cons, List.foldl_append, List.foldl_cons, ihds]
    show (List.foldl track (track p (.acquire lock)) _).2 - 1 = p.2
    rw [ihcs]
    exact BitVec.add_sub_cancel p.2 1

/-- What a row of `release` calls takes off the count. -/
theorem count_releases (h : ∀ c ∈ cs, c.isRelease = true) :
    (cs.foldl track p).2 + BitVec.ofNat 64 cs.length = p.2 := by
  induction cs generalizing p with
  | nil => exact BitVec.add_zero p.2
  | cons c cs ih =>
    obtain ⟨hc, hcs⟩ := List.forall_mem_cons.mp h
    cases c with
    | acquire lock => exact Bool.noConfusion hc
    | release lock =>
      rw [List.foldl_cons, List.length_cons, BitVec.ofNat_add, ← BitVec.add_assoc, ih hcs]
      exact BitVec.sub_add_cancel p.2 1

/-- A row of `release` calls sets the flag if one of them brings the count to zero. -/
theorem flag_releases (h : ∀ c ∈ cs, c.isRelease = true) :
    (cs.foldl track p).1 = true ↔ p.1 = true ∨
      ∃ i < cs.length, (cs.foldl track p).2 + BitVec.ofNat 64 i = 0 := by
  induction cs generalizing p with
  | nil => simp
  | cons c cs ih =>
    obtain ⟨hc, hcs⟩ := List.forall_mem_cons.mp h
    cases c with
    | acquire lock => exact Bool.noConfusion hc
    | release lock =>
      -- the first of them is the one with the highest count
      have hfirst := count_releases (p := track p (.release lock)) hcs
      have hflag : (track p (.release lock)).1 = true ↔
          p.1 = true ∨ (track p (.release lock)).2 = 0 := by
        show (if p.2 - 1 = 0 then true else p.1) = true ↔ p.1 = true ∨ p.2 - 1 = 0
        split <;> simp_all
      rw [List.foldl_cons, ih hcs, hflag, List.length_cons, Nat.exists_lt_succ_right, hfirst,
        or_assoc]
      exact or_congr_right or_comm

/-- Nested calls end with an `acquire` and a row of `release` calls. -/
theorem Nested.split (h : Nested cs) (hne : cs ≠ []) :
    ∃ lock ds, cs = ds ++ .acquire lock :: cs.rtakeWhile LockCall.isRelease := by
  have hdrop : cs.rdropWhile LockCall.isRelease ≠ [] := by
    rw [Ne, List.rdropWhile_eq_nil_iff]
    intro hall
    cases h with
    | nil => exact hne rfl
    | pair lock _ _ => exact Bool.noConfusion (hall (.acquire lock) List.mem_cons_self)
  have hlast := List.rdropWhile_last_not LockCall.isRelease cs hdrop
  cases hc : (cs.rdropWhile LockCall.isRelease).getLast hdrop with
  | release lock =>
    rw [hc] at hlast
    exact absurd rfl hlast
  | acquire lock =>
    refine ⟨lock, (cs.rdropWhile LockCall.isRelease).dropLast, ?_⟩
    conv_lhs => rw [← List.rdropWhile_append_rtakeWhile (p := LockCall.isRelease) (l := cs),
      ← List.dropLast_append_getLast hdrop, hc, List.append_assoc]
    rfl

/-- **The flag after nested calls** does not depend on the flag before them. -/
theorem Nested.flag (h : Nested cs) (hne : cs ≠ []) (p : Bool × BitVec 64) :
    (cs.foldl track p).1 = true ↔ Reenables p.2 cs := by
  obtain ⟨lock, ds, hcs⟩ := h.split hne
  have hcount := h.count p
  have hrel : ∀ c ∈ cs.rtakeWhile LockCall.isRelease, c.isRelease = true := fun c hc =>
    List.mem_rtakeWhile_imp hc
  have hfold : cs.foldl track p = (cs.rtakeWhile LockCall.isRelease).foldl track
      (track (ds.foldl track p) (.acquire lock)) := by
    conv_lhs => rw [hcs, List.foldl_append, List.foldl_cons]
  rw [Reenables, ← hcount, hfold, flag_releases hrel]
  simp [track]

/-- Nested calls end with a `release`. -/
theorem Nested.exists_release (h : Nested cs) (hne : cs ≠ []) :
    ∃ ds lock, cs = ds ++ [.release lock] := by
  induction h with
  | nil => exact absurd rfl hne
  | @pair lock cs ds _ _ _ ihds =>
    by_cases hds : ds = []
    · subst hds
      exact ⟨.acquire lock :: cs, lock, rfl⟩
    · obtain ⟨ds', lock', hds'⟩ := ihds hds
      refine ⟨.acquire lock :: (cs ++ .release lock :: ds'), lock', ?_⟩
      rw [hds']
      simp

/-- As long as `cli_count` does not wrap, the flag is set if the count is zero. -/
theorem Nested.reenables_iff (h : Nested cs) (hne : cs ≠ [])
    (hdepth : n.toNat + cs.length ≤ 2 ^ 64) : Reenables n cs ↔ n = 0 := by
  have hlen : (cs.rtakeWhile LockCall.isRelease).length ≤ cs.length :=
    (List.rtakeWhile_suffix LockCall.isRelease cs).length_le
  constructor
  · rintro ⟨i, hi, hzero⟩
    have hzero := congrArg BitVec.toNat hzero
    rw [BitVec.toNat_add, BitVec.toNat_ofNat] at hzero
    apply BitVec.eq_of_toNat_eq
    show n.toNat = 0
    have hmod : (n.toNat + i % 2 ^ 64) % 2 ^ 64 = 0 := hzero
    omega
  · rintro rfl
    obtain ⟨ds, lock, rfl⟩ := h.exists_release hne
    refine ⟨0, ?_, rfl⟩
    rw [List.rtakeWhile_concat_pos _ _ _ rfl, List.length_append]
    exact Nat.succ_pos _

end Nesting

/-! ### Runs -/

namespace LockCpu

variable {ι : Type*} [DecidableEq ι] {s s' : LockCpu ι} {e : LockEvent ι} {es : List (LockEvent ι)}

/-- What one call does to the flag and the count. -/
theorem step_track {c : LockCall ι} (hs : s.step (.call c) = some s') :
    (s'.interruptFlag, s'.cliCount) = track (s.interruptFlag, s.cliCount) c := by
  cases c with
  | acquire lock =>
    simp only [step, acquire] at hs
    split at hs
    · cases hs
    · obtain rfl := Option.some.inj hs
      rfl
  | release lock =>
    obtain rfl := Option.some.inj hs
    rfl

/-- What a run of calls does to them, whatever the other CPUs do to the locks. -/
theorem run_track (hr : Run step Calls s es s') :
    (s'.interruptFlag, s'.cliCount) = (callsOf es).foldl track (s.interruptFlag, s.cliCount) := by
  induction hr with
  | nil => rfl
  | @cons s s₁ s' e es hok hs _ ih =>
    cases e with
    | call c =>
      show _ = (callsOf es).foldl track (track _ c)
      rw [ih, step_track hs]
    | otherCpu lock value =>
      obtain rfl := Option.some.inj hs
      exact ih
    | scheduleBsp | goToTask _ | schedIdle | interrupt | iretq => exact hok.elim

end LockCpu

open LockCpu

/-- **Nested calls** of `acquire` and `release` restore `cli_count`. They restore the interrupt flag if
and only if there are none, or the flag was set just when the calls bring `cli_count` to zero; as long
as the nesting is not too deep for `cli_count`, this is when it was zero before them. -/
theorem lock_nesting {ι : Type*} [DecidableEq ι] {s s' : LockCpu ι} {es : List (LockEvent ι)}
    (hn : Nested (callsOf es)) (hr : Run LockCpu.step Calls s es s') :
    s'.cliCount = s.cliCount ∧
      (s'.interruptFlag = s.interruptFlag ↔
        callsOf es = [] ∨ (s.interruptFlag = true ↔ Reenables s.cliCount (callsOf es))) ∧
      (callsOf es ≠ [] → s.cliCount.toNat + (callsOf es).length ≤ 2 ^ 64 →
        (Reenables s.cliCount (callsOf es) ↔ s.cliCount = 0)) := by
  have htrack := run_track hr
  have hcount : s'.cliCount = s.cliCount :=
    (congrArg Prod.snd htrack).trans (hn.count (s.interruptFlag, s.cliCount))
  refine ⟨hcount, ?_, hn.reenables_iff⟩
  by_cases hnil : callsOf es = []
  · rw [hnil] at htrack
    exact iff_of_true (congrArg Prod.fst htrack) (Or.inl hnil)
  · have hflag : s'.interruptFlag = true ↔ Reenables s.cliCount (callsOf es) := by
      rw [← hn.flag hnil (s.interruptFlag, s.cliCount), ← htrack]
    rw [or_iff_right hnil, ← hflag, Bool.eq_iff_iff]
    exact iff_comm

/-- On a CPU other than the first, `cli_count` is still 1 when the idle task runs, and a pair of calls
leaves interrupts disabled. -/
theorem lock_nesting_idle : ∃ s s' : LockCpu Unit,
    Run LockCpu.step (fun _ _ => True) (.boot Unit) [.goToTask false, .schedIdle] s ∧
      Run LockCpu.step Calls s [.call (.acquire ()), .call (.release ())] s' ∧
      s'.cliCount = s.cliCount ∧ s'.interruptFlag ≠ s.interruptFlag := by
  have hn : Nested (callsOf [.call (.acquire ()), .call (.release ())]) := .pair () .nil .nil
  have hidle : Run LockCpu.step (fun _ _ => True) (.boot Unit) [.goToTask false, .schedIdle]
      ⟨true, 1, [], fun _ => false⟩ := .cons trivial rfl (.cons trivial rfl (.nil _))
  obtain ⟨s', hs'⟩ : ∃ s', Run LockCpu.step Calls ⟨true, 1, [], fun _ => false⟩
      [.call (.acquire ()), .call (.release ())] s' :=
    ⟨_, .cons trivial rfl (.cons trivial rfl (.nil _))⟩
  obtain ⟨hcount, hflag, hwrap⟩ := lock_nesting hn hs'
  refine ⟨_, s', hidle, hs', hcount, ?_⟩
  rw [Ne, hflag, hwrap (by decide) (by decide)]
  decide

/-- The handler of an interrupt of the idle task on the first CPU. The flag is clear and `cli_count` is
0, and after one pair of calls the flag is set. -/
theorem not_lock_nesting : ¬ ∀ (ι : Type) [DecidableEq ι] (s s' : LockCpu ι)
    (es fs : List (LockEvent ι)), Run LockCpu.step (fun _ _ => True) (.boot ι) es s →
    Nested (callsOf fs) → Run LockCpu.step Calls s fs s' →
    s'.interruptFlag = s.interruptFlag ∧ s'.cliCount = s.cliCount := by
  intro h
  have hn : Nested (callsOf [.call (.acquire ()), .call (.release ())]) := .pair () .nil .nil
  have hentry : Run LockCpu.step (fun _ _ => True) (.boot Unit)
      [.scheduleBsp, .schedIdle, .interrupt] ⟨false, 0, [true], fun _ => false⟩ :=
    .cons trivial rfl (.cons trivial rfl (.cons trivial rfl (.nil _)))
  have hcalls : Run LockCpu.step Calls ⟨false, 0, [true], fun _ => false⟩
      [.call (.acquire ()), .call (.release ())] _ :=
    .cons trivial rfl (.cons trivial rfl (.nil _))
  have hflag := (h Unit _ _ _ _ hentry hn hcalls).1
  exact absurd hflag (by decide)

end GoofyOs
