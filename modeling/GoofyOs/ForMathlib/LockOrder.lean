import GoofyOs.ForMathlib.Run
import Mathlib.Algebra.BigOperators.Group.Finset.Basic
import Mathlib.Algebra.Order.BigOperators.Group.Finset
import Mathlib.Data.Finset.Card
import Mathlib.Data.Fintype.Basic
import Mathlib.Data.Fintype.EquivFin

/-!
# Lock orders

Threads take locks and give them back. If the locks are ranked, every lock that is taken has a lower
rank than those its thread holds, and no thread ends with a lock, then the threads are never stuck:
whatever they have done, they can all get to their ends.

Where a program takes locks is written as a `LockUse`, and that its traces keep to the ranks is read
off its syntax.

## Main definitions

* `LockUse`, `LockUse.Trace`, `LockUse.Ordered` — programs, and the check of their nesting
* `Ranked` — what a thread that holds some locks may still do
* `LockThreads`, `LockThreads.act` — threads and the owners of the locks

## Main results

* `LockUse.Trace.ranked` — the traces of an ordered program keep to the ranks
* `LockThreads.Inv.exists_act` — some thread can go on
* `LockThreads.Inv.drain` — all threads get to their ends
-/

namespace GoofyOs

/-- Taking a lock, or giving it back. -/
inductive LockAction (ι : Type*)
  | take (l : ι)
  | drop (l : ι)
  deriving DecidableEq

/-! ### Programs -/

/-- Where a program takes locks. -/
inductive LockUse (ι : Type*)
  | skip
  /-- not taken -/
  | never
  | seq (p q : LockUse ι)
  | alt (p q : LockUse ι)
  | loop (p : LockUse ι)
  /-- one of a family, whichever it may be -/
  | anyOf (p : ℕ → LockUse ι)
  | locked (l : ι) (p : LockUse ι)
  /-- takes the lock, and returns with it -/
  | leaks (l : ι) (p : LockUse ι)

/-- What a program may do. -/
inductive LockUse.Trace {ι : Type*} : LockUse ι → List (LockAction ι) → Prop
  | skip : Trace skip []
  | seq {p q : LockUse ι} {t u : List (LockAction ι)} (hp : Trace p t) (hq : Trace q u) :
      Trace (.seq p q) (t ++ u)
  | inl {p q : LockUse ι} {t : List (LockAction ι)} (hp : Trace p t) : Trace (.alt p q) t
  | inr {p q : LockUse ι} {t : List (LockAction ι)} (hq : Trace q t) : Trace (.alt p q) t
  | done {p : LockUse ι} : Trace (.loop p) []
  | again {p : LockUse ι} {t u : List (LockAction ι)} (hp : Trace p t)
      (hrest : Trace (.loop p) u) : Trace (.loop p) (t ++ u)
  | anyOf {p : ℕ → LockUse ι} {t : List (LockAction ι)} (n : ℕ) (hp : Trace (p n) t) :
      Trace (.anyOf p) t
  | locked {l : ι} {p : LockUse ι} {t : List (LockAction ι)} (hp : Trace p t) :
      Trace (.locked l p) (.take l :: (t ++ [.drop l]))
  | leaks {l : ι} {p : LockUse ι} {t : List (LockAction ι)} (hp : Trace p t) :
      Trace (.leaks l p) (.take l :: t)

/-- A program without the branches that return with a lock. -/
def LockUse.tidy {ι : Type*} : LockUse ι → LockUse ι
  | seq p q => .seq p.tidy q.tidy
  | alt p q => .alt p.tidy q.tidy
  | loop p => .loop p.tidy
  | anyOf p => .anyOf fun n => (p n).tidy
  | locked l p => .locked l p.tidy
  | leaks _ _ => .never
  | p => p

/-- Every lock has a rank below `b` and below those around it, and is given back. -/
def LockUse.Ordered {ι : Type*} (rank : ι → ℕ) : ℕ → LockUse ι → Prop
  | _, skip | _, never => True
  | b, seq p q => p.Ordered rank b ∧ q.Ordered rank b
  | b, alt p q => p.Ordered rank b ∧ q.Ordered rank b
  | b, loop p => p.Ordered rank b
  | b, anyOf p => ∀ n, (p n).Ordered rank b
  | b, locked l p => rank l < b ∧ p.Ordered rank (rank l)
  | _, leaks _ _ => False

theorem LockUse.Ordered.mono {ι : Type*} {rank : ι → ℕ} {p : LockUse ι} {b b' : ℕ}
    (h : p.Ordered rank b) (hb : b ≤ b') : p.Ordered rank b' := by
  induction p with
  | skip | never => trivial
  | seq p q ihp ihq | alt p q ihp ihq => exact ⟨ihp h.1, ihq h.2⟩
  | loop p ih => exact ih h
  | anyOf p ih => exact fun n => ih n (h n)
  | locked l p _ => exact ⟨lt_of_lt_of_le h.1 hb, h.2⟩
  | leaks l p _ => exact h.elim

section Ranked

variable {ι : Type*} [DecidableEq ι] {rank : ι → ℕ} {held : List ι} {t u : List (LockAction ι)}
  {p : LockUse ι} {b : ℕ} {l : ι}

/-- What a thread that holds the locks `held` may still do: take locks of lower ranks, and give back
all of them. -/
def Ranked (rank : ι → ℕ) : List ι → List (LockAction ι) → Prop
  | held, [] => held = []
  | held, .take l :: t => (∀ h ∈ held, rank l < rank h) ∧ Ranked rank (l :: held) t
  | held, .drop l :: t => l ∈ held ∧ Ranked rank (held.erase l) t

/-- **An ordered program** keeps to the ranks, behind locks of ranks that are not below `b`. -/
theorem LockUse.Trace.ranked_append (ht : p.Trace t) (hp : p.Ordered rank b)
    (hheld : ∀ h ∈ held, b ≤ rank h) (hu : Ranked rank held u) : Ranked rank held (t ++ u) := by
  induction ht generalizing b held u with
  | skip => exact hu
  | seq _ _ ihp ihq =>
    rw [List.append_assoc]
    exact ihp hp.1 hheld (ihq hp.2 hheld hu)
  | inl _ ih => exact ih hp.1 hheld hu
  | inr _ ih => exact ih hp.2 hheld hu
  | done => exact hu
  | again _ _ ihp ihrest =>
    rw [List.append_assoc]
    exact ihp hp hheld (ihrest hp hheld hu)
  | anyOf n _ ih => exact ih (hp n) hheld hu
  | @locked l p t _ ih =>
    obtain ⟨hl, hp⟩ := hp
    rw [List.cons_append, List.append_assoc]
    refine ⟨fun h hh => lt_of_lt_of_le hl (hheld h hh), ih hp (fun h hh => ?_) ⟨List.mem_cons_self, ?_⟩⟩
    · obtain rfl | hh := List.mem_cons.mp hh
      · exact le_rfl
      · exact le_of_lt (lt_of_lt_of_le hl (hheld h hh))
    · rw [List.erase_cons_head]
      exact hu
  | leaks _ _ => exact hp.elim

theorem LockUse.Trace.ranked (ht : p.Trace t) (hp : p.Ordered rank b) : Ranked rank [] t := by
  rw [← List.append_nil t]
  exact ht.ranked_append hp nofun rfl

end Ranked

/-! ### Threads -/

/-- Who owns each lock, what each thread holds, and what it has left to do. -/
structure LockThreads (κ ι : Type*) where
  owner : ι → Option κ
  held : κ → List ι
  todo : κ → List (LockAction ι)

namespace LockThreads

variable {κ ι : Type*} [DecidableEq ι] {rank : ι → ℕ} {s s' : LockThreads κ ι}
  {i : κ} {l : ι} {t : List (LockAction ι)}

/-- The locks are owned by the threads that hold them, the last one first, and what the threads have
left to do keeps to the ranks. -/
structure Inv (rank : ι → ℕ) (s : LockThreads κ ι) : Prop where
  ranked : ∀ i, Ranked rank (s.held i) (s.todo i)
  sorted : ∀ i, (s.held i).Pairwise fun a b => rank a < rank b
  owner : ∀ l i, s.owner l = some i ↔ l ∈ s.held i

theorem Inv.nodup (h : s.Inv rank) (i : κ) : (s.held i).Nodup :=
  (h.sorted i).imp fun hlt heq => absurd (congrArg rank heq) (ne_of_lt hlt)

/-- A thread holds no more locks than there are ranks. -/
theorem Inv.length_le {n : ℕ} (h : s.Inv rank) (hn : ∀ l, rank l < n) (i : κ) :
    (s.held i).length ≤ n := by
  have hnd : ((s.held i).map rank).Nodup := by
    refine List.pairwise_map.mpr ((h.sorted i).imp fun hlt heq => ?_)
    exact absurd heq (ne_of_lt hlt)
  have hsub : ((s.held i).map rank).toFinset ⊆ Finset.range n := by
    intro r hr
    obtain ⟨l, -, rfl⟩ := List.mem_map.mp (List.mem_toFinset.mp hr)
    exact Finset.mem_range.mpr (hn l)
  rw [← List.length_map rank, ← List.toFinset_card_of_nodup hnd, ← Finset.card_range n]
  exact Finset.card_le_card hsub

variable [DecidableEq κ]

/-- The next action of thread `i`. It waits for a lock that has an owner. -/
def act (s : LockThreads κ ι) (i : κ) : Option (LockThreads κ ι) :=
  match s.todo i with
  | [] => none
  | .take l :: t =>
    match s.owner l with
    | none => some
        { owner := Function.update s.owner l (some i)
          held := Function.update s.held i (l :: s.held i)
          todo := Function.update s.todo i t }
    | some _ => none
  | .drop l :: t => some
      { owner := Function.update s.owner l none
        held := Function.update s.held i ((s.held i).erase l)
        todo := Function.update s.todo i t }

theorem act_take (ht : s.todo i = .take l :: t) (ho : s.owner l = none) : s.act i = some
    { owner := Function.update s.owner l (some i)
      held := Function.update s.held i (l :: s.held i)
      todo := Function.update s.todo i t } := by
  rw [act, ht]
  simp only [ho]

theorem act_drop (ht : s.todo i = .drop l :: t) : s.act i = some
    { owner := Function.update s.owner l none
      held := Function.update s.held i ((s.held i).erase l)
      todo := Function.update s.todo i t } := by
  rw [act, ht]

/-- **Nobody is stuck.** A thread that waits does so for one that holds a lock, and that one waits, if
it does, for a lock of a lower rank. -/
theorem Inv.exists_act (h : s.Inv rank) (hi : s.todo i ≠ []) : ∃ j s', s.act j = some s' := by
  obtain ⟨a, t, ht⟩ := List.exists_cons_of_ne_nil hi
  cases a with
  | drop l => exact ⟨i, _, act_drop ht⟩
  | take l =>
    -- by induction on the rank of the lock that is waited for
    induction hr : rank l using Nat.strong_induction_on generalizing i l t with
    | _ r ih =>
      cases ho : s.owner l with
      | none => exact ⟨i, _, act_take ht ho⟩
      | some j =>
        have hl : l ∈ s.held j := (h.owner l j).mp ho
        have hj := h.ranked j
        cases htj : s.todo j with
        | nil =>
          rw [htj] at hj
          exact absurd hl (by rw [show s.held j = [] from hj]; exact List.not_mem_nil)
        | cons a' t' =>
          cases a' with
          | drop l' => exact ⟨j, _, act_drop htj⟩
          | take l' =>
            rw [htj] at hj
            have hlt : rank l' < r := hr ▸ hj.1 l hl
            exact ih (rank l') hlt (by rw [htj]; exact List.cons_ne_nil _ _) t' l' htj rfl

/-- What a thread does keeps the ranks, and it has less left to do. -/
theorem Inv.act (h : s.Inv rank) (hs : s.act i = some s') :
    s'.Inv rank ∧ (s'.todo i).length < (s.todo i).length ∧
      ∀ j, j ≠ i → s'.todo j = s.todo j := by
  have hranked := h.ranked i
  rw [LockThreads.act] at hs
  cases ht : s.todo i with
  | nil =>
    rw [ht] at hs
    exact absurd hs nofun
  | cons a t =>
    rw [ht] at hs hranked
    cases a with
    | take l =>
      cases ho : s.owner l with
      | some j =>
        simp only [ho] at hs
        exact absurd hs nofun
      | none =>
        simp only [ho] at hs
        obtain rfl := Option.some.inj hs
        refine ⟨⟨fun j => ?_, fun j => ?_, fun l' j => ?_⟩, ?_, fun j hj => ?_⟩
        · by_cases hj : j = i
          · subst hj
            simp only [Function.update_self]
            exact hranked.2
          · simp only [Function.update_of_ne hj]
            exact h.ranked j
        · by_cases hj : j = i
          · subst hj
            simp only [Function.update_self]
            exact List.pairwise_cons.mpr ⟨hranked.1, h.sorted j⟩
          · simp only [Function.update_of_ne hj]
            exact h.sorted j
        · have hnot (j : κ) : l ∉ s.held j := fun hmem => by
            rw [(h.owner l j).mpr hmem] at ho
            exact absurd ho nofun
          by_cases hl : l' = l
          · subst hl
            by_cases hj : j = i
            · subst hj
              simp
            · simp [Function.update_of_ne hj, hnot j, Ne.symm hj]
          · by_cases hj : j = i
            · subst hj
              simp [hl, h.owner]
            · simp [Function.update_of_ne hl, Function.update_of_ne hj, h.owner]
        · simp
        · exact Function.update_of_ne hj _ _
    | drop l =>
      obtain rfl := Option.some.inj hs
      have howner : s.owner l = some i := (h.owner l i).mpr hranked.1
      refine ⟨⟨fun j => ?_, fun j => ?_, fun l' j => ?_⟩, ?_, fun j hj => ?_⟩
      · by_cases hj : j = i
        · subst hj
          simp only [Function.update_self]
          exact hranked.2
        · simp only [Function.update_of_ne hj]
          exact h.ranked j
      · by_cases hj : j = i
        · subst hj
          simp only [Function.update_self]
          exact (h.sorted j).sublist List.erase_sublist
        · simp only [Function.update_of_ne hj]
          exact h.sorted j
      · by_cases hj : j = i
        · subst hj
          by_cases hl : l' = l
          · subst hl
            simp [(h.nodup j).not_mem_erase]
          · simp [Function.update_of_ne hl, h.owner, List.mem_erase_of_ne hl]
        · by_cases hl : l' = l
          · subst hl
            have hnot : l' ∉ s.held j := fun hmem => by
              rw [(h.owner l' j).mpr hmem] at howner
              exact hj (Option.some.inj howner)
            simp [Function.update_of_ne hj, hnot]
          · simp [Function.update_of_ne hl, Function.update_of_ne hj, h.owner]
      · simp
      · exact Function.update_of_ne hj _ _

/-- **No deadlock.** Whatever the threads have done, they can all get to their ends, where none of them
holds a lock. -/
theorem Inv.drain [Finite κ] (h : s.Inv rank) :
    ∃ is s', Run LockThreads.act (fun _ _ => True) s is s' ∧ s'.Inv rank ∧
      ∀ i, s'.todo i = [] ∧ s'.held i = [] := by
  have := Fintype.ofFinite κ
  -- by induction on what is left to do
  induction hn : ∑ i, (s.todo i).length using Nat.strong_induction_on generalizing s with
  | _ n ih =>
    by_cases hdone : ∀ i, s.todo i = []
    · refine ⟨[], s, .nil s, h, fun i => ⟨hdone i, ?_⟩⟩
      have hi := h.ranked i
      rwa [hdone i] at hi
    · obtain ⟨i, hi⟩ := not_forall.mp hdone
      obtain ⟨j, s₁, hs₁⟩ := h.exists_act hi
      obtain ⟨h₁, hless, hrest⟩ := h.act hs₁
      have hlt : ∑ i, (s₁.todo i).length < n := by
        rw [← hn]
        refine Finset.sum_lt_sum (fun k _ => ?_) ⟨j, Finset.mem_univ j, hless⟩
        by_cases hk : k = j
        · rw [hk]
          exact le_of_lt hless
        · rw [hrest k hk]
      obtain ⟨is, s', hrun, h', hend⟩ := ih _ hlt h₁ rfl
      exact ⟨j :: is, s', .cons trivial hs₁ hrun, h', hend⟩

end LockThreads

end GoofyOs
