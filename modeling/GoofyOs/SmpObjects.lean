import GoofyOs.BuddyRun
import GoofyOs.RawAcquire
import GoofyOs.Sched

/-!
# The allocator and the run queue on several CPUs

The critical sections of `alloc_pages`, `free_pages`, `sched_task` and `schedule`, cut into any atomic
steps, and called by any number of threads that are interleaved in any way. What is proved of one
caller after the other holds of them.

`alloc_pages` checks its flags before it takes `kmem.lock`, and zeroes the pages after it has released
it. `save_task` writes the registers of the task that is current, which are not in the queue.

## Main definitions

* `KmemCall`, `SchedSection` — the critical sections
* `heldBlocks` — the blocks that were returned and not freed

## Main results

* `kmem_smp` — no two blocks in use overlap, and every caller gets through
* `sched_smp` — when the targets of `schedule` are those of a FIFO
-/

namespace GoofyOs

/-! ### `kmem.lock` -/

/-- A critical section of `kmem.lock`. -/
inductive KmemCall
  | allocPages (order : ℕ)
  | freePages (page order : ℕ)

namespace KmemCall

/-- What a critical section does, and the page it returns. -/
def run : KmemCall → BuddyState → Option (Option ℕ × BuddyState)
  | allocPages order, s => s.allocPagesNolock order
  | freePages page order, s => some (none, s.freePagesNolock page order)

/-- The call of one caller that does the same. -/
def toBuddyCall : KmemCall → BuddyCall
  | allocPages order => .allocPages order 0
  | freePages page order => .freePages page order

/-- The order is one that there is a list for. -/
def OrderFits : KmemCall → Prop
  | allocPages order => order ≤ maxOrder
  | freePages _ _ => True

end KmemCall

section Kmem

variable {κ : Type*} {log : List (κ × KmemCall × Option ℕ)} {st m m' : BuddyState}
  {i : κ} {op : KmemCall} {r : Option ℕ}

/-- The blocks that a call adds and removes. -/
def holdBlocks (live : List (ℕ × ℕ)) : KmemCall → Option ℕ → List (ℕ × ℕ)
  | .allocPages order, r => r.toList.map (·, order) ++ live
  | .freePages page order, _ => live.erase (page, order)

/-- The blocks that were returned and not freed. -/
def heldBlocks (log : List (κ × KmemCall × Option ℕ)) : List (ℕ × ℕ) :=
  log.foldl (fun live e => holdBlocks live e.2.1 e.2.2) []

/-- A caller frees what was returned to some caller and is not freed since, with its order. It takes
no page in use for a free one and writes through no stale pointer. -/
def KmemOk (log : List (κ × KmemCall × Option ℕ)) (m : BuddyState) (op : KmemCall) : Prop :=
  op.OrderFits ∧ BuddySys.Allowed ⟨m, heldBlocks log⟩ op.toBuddyCall ∧
    BuddySys.Clean ⟨m, heldBlocks log⟩ op.toBuddyCall

theorem heldBlocks_concat :
    heldBlocks (log ++ [(i, op, r)]) = holdBlocks (heldBlocks log) op r := by
  rw [heldBlocks, List.foldl_concat]
  rfl

/-- One critical section is one call. -/
theorem KmemCall.exec_toBuddyCall {live : List (ℕ × ℕ)} (h : op.run m = some (r, m')) :
    BuddySys.exec ⟨m, live⟩ op.toBuddyCall = some ⟨m', holdBlocks live op r⟩ := by
  cases op with
  | allocPages order =>
    have hrun : m.allocPagesNolock order = some (r, m') := h
    show (m.allocPages order 0).map _ = _
    rw [BuddyState.allocPages_zero, hrun]
    rfl
  | freePages page order =>
    obtain ⟨rfl, rfl⟩ := Prod.mk.inj (Option.some.inj h)
    rfl

/-- **A sequential history** is a run of one caller after the other. -/
theorem Replays.buddyRun (h : Replays KmemCall.run KmemOk st log m) :
    Run BuddySys.exec (fun s c => s.Allowed c ∧ s.Clean c) ⟨st, []⟩
      (log.map fun e => e.2.1.toBuddyCall) ⟨m, heldBlocks log⟩ := by
  refine h.invariant (P := fun log m => Run BuddySys.exec (fun s c => s.Allowed c ∧ s.Clean c)
    ⟨st, []⟩ (log.map fun e => e.2.1.toBuddyCall) ⟨m, heldBlocks log⟩) (.nil _) ?_
  intro log m i op r m' hrun hok hop
  rw [List.map_append, heldBlocks_concat]
  exact hrun.append (.cons hok.2 (KmemCall.exec_toBuddyCall hop) (.nil _))

end Kmem

/-- **The page allocator on several CPUs.** Callers that free what is in use, and only that, where no
merge takes a page in use or writes through a stale pointer, never hold two blocks that overlap,
whatever their interleaving. A caller that is inside returns, and when none is the lists hold the
rest of the pages. -/
theorem kmem_smp {κ : Type*} [DecidableEq κ] {body : KmemCall → Code BuddyState (Option ℕ)}
    (hbody : ∀ op m, (body op).eval m = op.run m) {st : BuddyState} {L : ℕ → List ℕ}
    (hst : st.Consistent L) (hz : st.ZonesFit) {es : List (SpinEvent κ KmemCall)}
    {s : SpinObject κ KmemCall BuddyState (Option ℕ)}
    (hr : Run (SpinObject.step body) (SpinObject.Enters KmemOk) (.init st) es s) :
    (heldBlocks s.log).Pairwise (fun a b => Disjoint (Dyadic.block a.1 a.2) (Dyadic.block b.1 b.2)) ∧
      ((∀ i, (s.pc i).running body = none) → (BuddySys.mk s.mem (heldBlocks s.log)).Good) ∧
      ∀ i op code, (s.pc i).running body = some (op, code) → code.eval s.mem ≠ none := by
  obtain ⟨-, -, m, hlog, hfree, hinside⟩ := raw_acquire_replays hbody hr
  obtain ⟨hgood, halloc⟩ := buddy_run_good hst hz hlog.buddyRun
  refine ⟨hgood.live_disj, fun hnone => ?_, fun i op code hi => ?_⟩
  · rw [hfree hnone]
    exact hgood
  · obtain ⟨hok, heval⟩ := hinside i op code hi
    rw [heval]
    cases op with
    | allocPages order =>
      intro hnone
      refine halloc order hok.1 0 ?_
      show m.allocPages order 0 = none
      rw [BuddyState.allocPages_zero]
      exact hnone
    | freePages page order => exact Option.some_ne_none _

/-- A thread takes a page, another one gives it back, and the first one has swapped for the next. -/
theorem kmem_smp_two : ∃ s : SpinObject Bool KmemCall BuddyState (Option ℕ),
    s.log = [(true, .allocPages 0, some 2), (false, .freePages 2 0, none)] ∧ s.locked = 1 ∧
    (heldBlocks s.log).Pairwise (fun a b => Disjoint (Dyadic.block a.1 a.2) (Dyadic.block b.1 b.2)) ∧
      ((∀ i, (s.pc i).running (fun op => .atomic op.run none) = none) →
        (BuddySys.mk s.mem (heldBlocks s.log)).Good) ∧
      ∀ i op code, (s.pc i).running (fun op => .atomic op.run none) = some (op, code) →
        code.eval s.mem ≠ none := by
  obtain ⟨m, hm, hclean⟩ := exists_allocPagesNolock_buddyPair
  have halloc (log : List (Bool × KmemCall × Option ℕ)) (m : BuddyState) :
      KmemOk log m (.allocPages 0) := ⟨Nat.zero_le _, trivial, trivial⟩
  let taken : SpinObject Bool KmemCall BuddyState (Option ℕ) :=
    ⟨0, m, fun _ => .out, [(true, .allocPages 0, some 2)]⟩
  have hfree : KmemOk taken.log taken.mem (.freePages 2 0) := ⟨trivial, List.mem_cons_self, hclean⟩
  have hfirst := SpinObject.run_call (f := KmemCall.run) (d := none) (i := true)
    (s := .init buddyPair) rfl rfl (halloc [] buddyPair) hm
  have hsecond := SpinObject.run_call (f := KmemCall.run) (d := none) (i := false) (s := taken)
    rfl rfl hfree rfl
  obtain ⟨s, hlog, hlocked, hr⟩ : ∃ s : SpinObject Bool KmemCall BuddyState (Option ℕ),
      s.log = [(true, .allocPages 0, some 2), (false, .freePages 2 0, none)] ∧ s.locked = 1 ∧
      Run (SpinObject.step fun op => .atomic op.run none) (SpinObject.Enters KmemOk)
        (.init buddyPair) (((.call true (.allocPages 0) :: List.replicate 5 (.next true)) ++
          (.call false (.freePages 2 0) :: List.replicate 5 (.next false))) ++
            [.call true (.allocPages 0), .next true, .next true]) s := by
    refine ⟨_, ?_, ?_, (hfirst.append hsecond).append (.cons trivial rfl (.cons (fun _ _ h => ?_) rfl
      (.cons (fun op rax h _ => ?_) rfl (.nil _))))⟩
    · rfl
    · rfl
    · exact nomatch h
    · obtain ⟨rfl, -⟩ := SpinPc.xchg.inj h
      exact halloc _ _
  exact ⟨s, hlog, hlocked, kmem_smp (fun op m => Code.eval_atomic op.run none m)
    consistent_buddyPair zonesFit_buddyPair hr⟩

/-! ### `scheduler.lock` -/

/-- A critical section of `scheduler.lock`. -/
inductive SchedSection
  | schedTask (task : ℕ)
  | schedule (currentTask : Option ℕ)

namespace SchedSection

/-- What a critical section does, and the target it pops. -/
def run (idle : ℕ) : SchedSection → Scheduler → Option (Option ℕ × Scheduler)
  | schedTask task, s => some (none, s._schedTask idle (some task))
  | schedule currentTask, s =>
    some (some ((s._schedTask idle currentTask).popTask idle).1,
      ((s._schedTask idle currentTask).popTask idle).2)

/-- The task that is queued, if it is one. -/
def queued (idle : ℕ) : Option ℕ → List SchedCall
  | none => []
  | some task => if task = idle then [] else [.schedTask task]

/-- The calls on the queue. -/
def calls (idle : ℕ) : SchedSection → List SchedCall
  | schedTask task => queued idle (some task)
  | schedule currentTask => queued idle currentTask ++ [.popTask]

end SchedSection

section Sched

variable {κ : Type*} {idle : ℕ} {s s₀ : Scheduler} {cs ds : List SchedCall}

/-- The queue after some calls. -/
def schedAfter (idle : ℕ) (s : Scheduler) (cs : List SchedCall) : Scheduler :=
  cs.foldl (fun s c => match c with
    | .schedTask t => s._schedTask idle (some t)
    | .popTask => (s.popTask idle).2) s

theorem runSched_append :
    runSched idle s (cs ++ ds) = runSched idle s cs ++ runSched idle (schedAfter idle s cs) ds := by
  induction cs generalizing s with
  | nil => rfl
  | cons c cs ih =>
    cases c with
    | schedTask t => exact ih
    | popTask => exact congrArg ((s.popTask idle).1 :: ·) ih

theorem schedAfter_append : schedAfter idle s (cs ++ ds) =
    schedAfter idle (schedAfter idle s cs) ds := List.foldl_append

/-- `_sched_task` queues the task, if it is one. -/
theorem schedAfter_queued (idle : ℕ) (s : Scheduler) (task : Option ℕ) :
    schedAfter idle s (SchedSection.queued idle task) = s._schedTask idle task ∧
      runSched idle s (SchedSection.queued idle task) = [] := by
  cases task with
  | none => exact ⟨rfl, rfl⟩
  | some t =>
    by_cases ht : t = idle
    · rw [SchedSection.queued, if_pos ht]
      exact ⟨by rw [Scheduler._schedTask]; exact (if_pos ht).symm, rfl⟩
    · rw [SchedSection.queued, if_neg ht]
      exact ⟨rfl, rfl⟩

/-- One critical section is its calls. -/
theorem SchedSection.run_calls {op : SchedSection} {r : Option ℕ} {s' : Scheduler}
    (h : op.run idle s = some (r, s')) :
    runSched idle s (op.calls idle) = r.toList ∧ schedAfter idle s (op.calls idle) = s' := by
  cases op with
  | schedTask task =>
    obtain ⟨rfl, rfl⟩ := Prod.mk.inj (Option.some.inj h)
    obtain ⟨hafter, hrun⟩ := schedAfter_queued idle s (some task)
    exact ⟨hrun, hafter⟩
  | schedule currentTask =>
    obtain ⟨rfl, rfl⟩ := Prod.mk.inj (Option.some.inj h)
    obtain ⟨hafter, hrun⟩ := schedAfter_queued idle s currentTask
    rw [calls, runSched_append, schedAfter_append, hafter, hrun]
    exact ⟨rfl, rfl⟩

/-- **A sequential history** pops what its calls pop. -/
theorem Replays.runSched {ok : List (κ × SchedSection × Option ℕ) → Scheduler → SchedSection → Prop}
    {log : List (κ × SchedSection × Option ℕ)} (h : Replays (SchedSection.run idle) ok s₀ log s) :
    log.filterMap (fun e => e.2.2) =
      GoofyOs.runSched idle s₀ (log.flatMap fun e => e.2.1.calls idle) := by
  refine (h.invariant (P := fun log s => log.filterMap (fun e => e.2.2) =
    GoofyOs.runSched idle s₀ (log.flatMap fun e => e.2.1.calls idle) ∧
      schedAfter idle s₀ (log.flatMap fun e => e.2.1.calls idle) = s) ⟨rfl, rfl⟩ ?_).1
  rintro log s i op r s' ⟨hpop, rfl⟩ - hop
  obtain ⟨hrun, hafter⟩ := SchedSection.run_calls hop
  rw [List.flatMap_append, List.flatMap_singleton, runSched_append, schedAfter_append, hrun, hafter,
    ← hpop, List.filterMap_append]
  refine ⟨congrArg _ ?_, rfl⟩
  cases r with
  | none => rfl
  | some t => rfl

end Sched

/-- **The run queue on several CPUs.** Whatever the interleaving, and as long as no task is queued
while it waits, the targets that the CPUs get are those of a FIFO on which the calls are made one
after the other, if and only if no task is taken after one was queued on a drained scheduler. -/
theorem sched_smp {κ : Type*} [DecidableEq κ] {idle : ℕ}
    {body : SchedSection → Code Scheduler (Option ℕ)}
    (hbody : ∀ op s, (body op).eval s = op.run idle s) (links : Links ℕ)
    {es : List (SpinEvent κ SchedSection)} {s : SpinObject κ SchedSection Scheduler (Option ℕ)}
    (hr : Run (SpinObject.step body) (SpinObject.Enters fun _ _ _ => True) (.init (.init links)) es s)
    (hadm : Admissible idle [] (s.log.flatMap fun e => e.2.1.calls idle)) :
    s.log.filterMap (fun e => e.2.2) =
        runFifo idle [] (s.log.flatMap fun e => e.2.1.calls idle) ↔
      (Scheduler.init links).KeepsAll idle (s.log.flatMap fun e => e.2.1.calls idle) := by
  obtain ⟨-, -, m, hlog, -⟩ := raw_acquire_replays hbody hr
  rw [hlog.runSched]
  exact runSched_init_iff idle links _ hadm

/-- One CPU queues a task, and the other one takes it. -/
theorem sched_smp_two : ∃ s : SpinObject Bool SchedSection Scheduler (Option ℕ),
    s.log.filterMap (fun e => e.2.2) = [1] ∧
    (s.log.filterMap (fun e => e.2.2) =
        runFifo 0 [] (s.log.flatMap fun e => e.2.1.calls 0) ↔
      (Scheduler.init ⟨fun _ => none, fun _ => none⟩).KeepsAll 0
        (s.log.flatMap fun e => e.2.1.calls 0)) := by
  have hcheck : (Run.check (SpinObject.step fun op : SchedSection => Code.atomic (op.run 0) none)
      (fun _ _ => True) (.init (.init ⟨fun _ => none, fun _ => none⟩))
      [.call true (.schedTask 1), .next true, .next true, .next true, .next true, .next true,
        .call false (.schedule none), .next false, .next false, .next false, .next false,
        .next false]).map (fun s => (s.log.filterMap (fun e => e.2.2),
          s.log.flatMap fun e => e.2.1.calls 0)) = some ([1], [.schedTask 1, .popTask]) := rfl
  obtain ⟨s, hs, hlog⟩ := Option.map_eq_some_iff.mp hcheck
  obtain ⟨hpop, hcalls⟩ := Prod.mk.inj hlog
  refine ⟨s, hpop, sched_smp (fun op m => Code.eval_atomic (op.run 0) none m) _
    ((Run.of_check hs).mono fun s e _ => ?_) (hcalls ▸ by simp [Admissible])⟩
  cases e with
  | call i op => trivial
  | next i => exact fun _ _ _ _ => trivial

end GoofyOs
