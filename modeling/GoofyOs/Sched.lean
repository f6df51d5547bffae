import GoofyOs.ListHead

/-!
# The run queue of `smp/sched.c`

Tasks are queued at `scheduler.head` and taken from `scheduler.tail`, so the queue from its oldest
task on is what one meets from `tail` along the `prev` fields. `struct task` has its own `next` and
`prev` fields; the other fields play no part here, and neither does `scheduler.lock`.

`pop_task` does not reset `head` when it takes the last task. A task queued on such a drained
scheduler is linked behind the task that has left, `tail` stays null, and from then on every
`pop_task` returns the idle task. Until that happens the queue is a FIFO.

## Main definitions

* `Scheduler`, `Scheduler._schedTask`, `Scheduler.popTask` — the queue
* `runFifo` — what `pop_task` is for: an abstract first-in first-out queue
* `Scheduler.KeepsAll` — no task is taken after one was queued on a drained scheduler

## Main results

* `Scheduler.Queued.schedTask`, `Scheduler.Queued.popTask` — one call, on a queue in order
* `runSched_init_iff` — the calls return what the FIFO returns exactly under `KeepsAll`
-/

namespace GoofyOs

open LinkedList

/-- `struct scheduler` with the link fields of all tasks. -/
structure Scheduler where
  head : Option ℕ
  tail : Option ℕ
  links : Links ℕ

namespace Scheduler

/-- `_sched_task`. -/
def _schedTask (idle : ℕ) (s : Scheduler) (task : Option ℕ) : Scheduler :=
  match task with
  | none => s
  | some task =>
    if task = idle then s
    else
      let links : Links ℕ :=
        { next := Function.update s.links.next task s.head
          prev := Function.update s.links.prev task none }
      match s.head with
      | some next =>
        { s with
          head := some task
          links := { links with prev := Function.update links.prev next (some task) } }
      | none => { s with head := some task, tail := some task, links := links }

/-- `pop_task`. -/
def popTask (idle : ℕ) (s : Scheduler) : ℕ × Scheduler :=
  match s.tail with
  | none => (idle, s)
  | some ret =>
    let tail := s.links.prev ret
    let next := match tail with
      | some t => Function.update s.links.next t none
      | none => s.links.next
    (ret,
      { s with
        tail := tail
        links :=
          { next := Function.update next ret none
            prev := Function.update s.links.prev ret none } })

/-- The queue has been emptied by `pop_task`: there is no tail, but `head` still names the task that
left last. -/
def Drained (s : Scheduler) : Prop := s.tail = none ∧ s.head ≠ none

end Scheduler

/-- The two entry points of the run queue. -/
inductive SchedCall
  | schedTask (task : ℕ)
  | popTask
  deriving DecidableEq

/-- The tasks that the calls to `pop_task` return. -/
def runSched (idle : ℕ) : Scheduler → List SchedCall → List ℕ
  | _, [] => []
  | s, .schedTask t :: cs => runSched idle (s._schedTask idle (some t)) cs
  | s, .popTask :: cs => (s.popTask idle).1 :: runSched idle (s.popTask idle).2 cs

/-- The specification: a queue that is fed at the back and read at the front, with the idle task
standing in when it is empty. -/
def runFifo (idle : ℕ) : List ℕ → List SchedCall → List ℕ
  | _, [] => []
  | q, .schedTask t :: cs => runFifo idle (q ++ [t]) cs
  | [], .popTask :: cs => idle :: runFifo idle [] cs
  | t :: q, .popTask :: cs => t :: runFifo idle q cs

/-- Only tasks other than the idle task are queued, and no task that is already waiting. -/
def Admissible (idle : ℕ) : List ℕ → List SchedCall → Prop
  | _, [] => True
  | q, .schedTask t :: cs => t ≠ idle ∧ t ∉ q ∧ Admissible idle (q ++ [t]) cs
  | q, .popTask :: cs => Admissible idle q.tail cs

namespace Scheduler

variable {idle t : ℕ} {s : Scheduler} {q : List ℕ} {cs : List SchedCall}

/-- No `pop_task` follows a `_sched_task` issued on a drained scheduler. -/
def KeepsAll (idle : ℕ) : Scheduler → List SchedCall → Prop
  | _, [] => True
  | s, .schedTask t :: cs =>
    (s.Drained → .popTask ∉ cs) ∧ KeepsAll idle (s._schedTask idle (some t)) cs
  | s, .popTask :: cs => KeepsAll idle (s.popTask idle).2 cs

/-! ### A queue in order -/

/-- The scheduler holds the queue `q`, oldest task first. Nothing is said of the `next` fields,
which no function reads, nor of `head` when the queue is empty. -/
structure Queued (s : Scheduler) (q : List ℕ) : Prop where
  walk : Walk s.links.prev s.tail q
  head : q ≠ [] → s.head = q.getLast?

theorem Queued.popTask_nil (hq : s.Queued []) : s.popTask idle = (idle, s) := by
  have ht : s.tail = none := hq.walk
  simp [Scheduler.popTask, ht]

theorem Queued.popTask (hq : s.Queued (t :: q)) :
    (s.popTask idle).1 = t ∧ (s.popTask idle).2.Queued q := by
  have hnd := hq.walk.nodup
  obtain ⟨ht, hw⟩ := hq.walk
  simp only [Scheduler.popTask, ht, true_and]
  refine ⟨Walk.congr hw fun y hy => ?_, fun hne => ?_⟩
  · refine Function.update_of_ne ?_ _ _
    rintro rfl
    exact (List.nodup_cons.mp hnd).1 hy
  · rw [hq.head (by simp), List.getLast?_cons_of_ne_nil hne]

/-- Queueing on a scheduler that is not drained appends the task. -/
theorem Queued.schedTask (hq : s.Queued q) (hidle : t ≠ idle) (ht : t ∉ q) (hd : ¬ s.Drained) :
    (s._schedTask idle (some t)).Queued (q ++ [t]) := by
  rcases q.eq_nil_or_concat' with rfl | ⟨as, a, rfl⟩
  · have htail : s.tail = none := hq.walk
    have hhead : s.head = none := by
      by_contra h
      exact hd ⟨htail, h⟩
    simp only [_schedTask, if_neg hidle, hhead]
    exact ⟨by simp, by simp⟩
  · have hhead : s.head = some a := by simpa using hq.head (by simp)
    simp only [_schedTask, if_neg hidle, hhead]
    refine ⟨?_, by simp⟩
    obtain ⟨m, has, rfl, hnone⟩ := walk_append.mp hq.walk
    have hnd := hq.walk.nodup
    have hat : a ≠ t := by
      rintro rfl
      exact ht (by simp)
    rw [List.append_assoc]
    refine walk_append.mpr ⟨some a, has.congr fun y hy => ?_, rfl, ?_⟩
    · have hya : y ≠ a := by
        rintro rfl
        exact (List.nodup_append.mp hnd).2.2 y hy y (by simp) rfl
      have hyt : y ≠ t := by
        rintro rfl
        exact ht (by simp [hy])
      simp [hya, hyt]
    · simp [hat.symm]

/-! ### After a task was queued on a drained scheduler -/

theorem Drained.popTask (hd : s.Drained) : s.popTask idle = (idle, s) := by
  simp [Scheduler.popTask, hd.1]

/-- A drained scheduler stays drained: the new task is linked, but never becomes the tail. -/
theorem Drained.schedTask (hd : s.Drained) (hidle : t ≠ idle) :
    (s._schedTask idle (some t)).Drained := by
  obtain ⟨h, hh⟩ := Option.ne_none_iff_exists'.mp hd.2
  simp [_schedTask, hidle, hh, Drained, hd.1]

/-- From a drained scheduler with tasks waiting, the calls return what the FIFO returns only if
none of them takes a task. -/
theorem Drained.runSched_eq_iff (hd : s.Drained) (hq : q ≠ []) (hidle : idle ∉ q)
    (hadm : Admissible idle q cs) :
    runSched idle s cs = runFifo idle q cs ↔ .popTask ∉ cs := by
  induction cs generalizing s q with
  | nil => simp [runSched, runFifo]
  | cons c cs ih =>
    cases c with
    | schedTask t =>
      obtain ⟨ht, -, hadm⟩ := hadm
      rw [runSched, runFifo, ih (hd.schedTask ht) (by simp) (by simp [hidle, ht.symm]) hadm]
      simp
    | popTask =>
      obtain ⟨x, xs, rfl⟩ := List.exists_cons_of_ne_nil hq
      have hx : idle ≠ x := fun h => hidle (by simp [h])
      simp [runSched, runFifo, hd.popTask, hx]

/-- A drained scheduler loses nothing if no task is taken afterwards. -/
theorem Drained.keepsAll_iff (hd : s.Drained) (hidle : idle ∉ q) (hadm : Admissible idle q cs)
    (hpop : .popTask ∉ cs) : KeepsAll idle s cs := by
  induction cs generalizing s q with
  | nil => trivial
  | cons c cs ih =>
    cases c with
    | schedTask t =>
      obtain ⟨ht, -, hadm⟩ := hadm
      have hpop : .popTask ∉ cs := fun h => hpop (by simp [h])
      exact ⟨fun _ => hpop, ih (hd.schedTask ht) (by simp [hidle, ht.symm]) hadm hpop⟩
    | popTask => simp at hpop

end Scheduler

/-! ### Whole call sequences -/

/-- **The run queue is a FIFO exactly as long as it keeps all tasks.** -/
theorem Scheduler.Queued.runSched_eq_iff {idle : ℕ} {s : Scheduler} {q : List ℕ}
    {cs : List SchedCall} (hq : s.Queued q) (hidle : idle ∉ q) (hadm : Admissible idle q cs) :
    runSched idle s cs = runFifo idle q cs ↔ s.KeepsAll idle cs := by
  induction cs generalizing s q with
  | nil => simp [runSched, runFifo, KeepsAll]
  | cons c cs ih =>
    cases c with
    | schedTask t =>
      obtain ⟨ht, htq, hadm⟩ := hadm
      have hidle' : idle ∉ q ++ [t] := by simp [hidle, ht.symm]
      rw [runSched, runFifo, KeepsAll]
      by_cases hd : s.Drained
      · rw [(hd.schedTask ht).runSched_eq_iff (by simp) hidle' hadm]
        refine ⟨fun h => ⟨fun _ => h, (hd.schedTask ht).keepsAll_iff hidle' hadm h⟩,
          fun h => h.1 hd⟩
      · rw [ih (hq.schedTask ht htq hd) hidle' hadm]
        exact ⟨fun h => ⟨fun h' => absurd h' hd, h⟩, fun h => h.2⟩
    | popTask =>
      rw [runSched, KeepsAll]
      cases q with
      | nil =>
        rw [runFifo, hq.popTask_nil, ← ih hq hidle hadm]
        simp
      | cons x xs =>
        obtain ⟨hx, hq'⟩ : (s.popTask idle).1 = x ∧ (s.popTask idle).2.Queued xs := hq.popTask
        rw [runFifo, hx, ← ih hq' (fun h => hidle (by simp [h])) hadm]
        simp

/-- The scheduler at boot, with arbitrary link fields in the tasks. -/
def Scheduler.init (links : Links ℕ) : Scheduler := ⟨none, none, links⟩

/-- **The run queue from boot.** The tasks returned are those of the FIFO if and only if no
`pop_task` follows a `_sched_task` on a drained scheduler. -/
theorem runSched_init_iff (idle : ℕ) (links : Links ℕ) (cs : List SchedCall)
    (hadm : Admissible idle [] cs) :
    runSched idle (.init links) cs = runFifo idle [] cs ↔ (Scheduler.init links).KeepsAll idle cs :=
  Scheduler.Queued.runSched_eq_iff ⟨rfl, by simp⟩ (by simp) hadm

/-- Draining the queue, then queueing and taking one task: the FIFO returns the task, the
scheduler the idle task. -/
theorem runSched_init_ne :
    ¬ ∀ (idle : ℕ) (links : Links ℕ) (cs : List SchedCall), Admissible idle [] cs →
      runSched idle (.init links) cs = runFifo idle [] cs := by
  intro h
  have := h 0 ⟨fun _ => none, fun _ => none⟩
    [.schedTask 1, .popTask, .schedTask 2, .popTask] (by simp [Admissible])
  exact absurd this (by decide)

/-- Two tasks queued together come back in order. -/
theorem runSched_init_two :
    runSched 0 (.init ⟨fun _ => none, fun _ => none⟩)
        [.schedTask 1, .schedTask 2, .popTask, .popTask] =
      runFifo 0 [] [.schedTask 1, .schedTask 2, .popTask, .popTask] :=
  (runSched_init_iff _ _ _ (by simp [Admissible])).mpr
    (by simp [Scheduler.KeepsAll, Scheduler.Drained, Scheduler.init, Scheduler._schedTask])

end GoofyOs
