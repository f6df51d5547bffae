import GoofyOs.VfsCreation

/-!
# Concurrent creation

Threads that each run `vfs_mkdir` or `vfs_create`, in any order of their steps. Resolving a path makes
a new vnode for every directory but the root, so two threads in one directory hold two different
locks, and both may search for a name before either has inserted it.

## Main definitions

* `VfsThreads.Inv` — the invariant

## Main results

* `VfsThreads.Inv.step` — what one step of one thread keeps
* `concurrent_names_unique` — names are unique if every search was `Excluded`
* `concurrent_names_lost` — and may be lost after one that was not
* `not_concurrent_names_unique` — two threads that insert one name twice
-/

namespace GoofyOs

open Proc VfsState

/-! ### The invariant -/

namespace VfsCreation

variable {c : VfsCreation} {u u' : VfsState} {pc : CreationPc} {p : ℕ} {name : Name}

/-- What is known of a call, by where it is. -/
def At (c : VfsCreation) (u : VfsState) : CreationPc → Prop
  | .resolve => True
  | .check d => ∃ p name, c.Target u p name ∧ u.Designates d p
  | .acquire v name | .scan v name => ∃ p y, c.Target u p name ∧ u.VnodeOf v p y
  | .insert v p vfs name =>
    vfs = 0 ∧ c.Target u p name ∧ (∃ y, u.VnodeOf v p y) ∧ u.child p name = none
  | .release v name => ∃ p y, c.Target u p name ∧ u.VnodeOf v p y ∧ (u.child p name).isSome
  | .done (.ok ()) => ∃ p name, c.Target u p name ∧ (u.child p name).isSome
  | .done (.error _) => True

theorem isSome_later (hu : u.Later u') (h : (u.child p name).isSome) : (u'.child p name).isSome := by
  obtain ⟨q, hq⟩ := Option.isSome_iff_exists.mp h
  rw [hu.child hq]
  rfl

/-- What is known of a call stays true, if nobody else inserts its child. -/
theorem At.later (h : c.At u pc) (hu : u.Later u')
    (hins : ∀ p name, pc.Inserting p name → u'.child p name = none) : c.At u' pc := by
  cases pc with
  | resolve => exact trivial
  | check d =>
    obtain ⟨p, name, ht, hd⟩ := h
    exact ⟨p, name, ht.later hu, hu.designates hd⟩
  | acquire v name =>
    obtain ⟨p, y, ht, hy⟩ := h
    exact ⟨p, y, ht.later hu, hu.vnodeOf hy⟩
  | scan v name =>
    obtain ⟨p, y, ht, hy⟩ := h
    exact ⟨p, y, ht.later hu, hu.vnodeOf hy⟩
  | insert v p vfs name =>
    obtain ⟨hvfs, ht, ⟨y, hy⟩, -⟩ := h
    exact ⟨hvfs, ht.later hu, ⟨y, hu.vnodeOf hy⟩, hins p name ⟨rfl, rfl⟩⟩
  | release v name =>
    obtain ⟨p, y, ht, hy, hc⟩ := h
    exact ⟨p, y, ht.later hu, hu.vnodeOf hy, isSome_later hu hc⟩
  | done r =>
    rcases r with e | ok
    · exact trivial
    · obtain ⟨p, name, ht, hc⟩ := h
      exact ⟨p, name, ht.later hu, isSome_later hu hc⟩

/-- A call that has inserted its child named it before, and the child is there. -/
theorem At.inserted (h : c.At u pc) (hpc : pc.Inserted) (hu : u.Later u')
    (ht : c.Target u' p name) : c.Target u p name ∧ (u.child p name).isSome := by
  obtain ⟨q, b, hq, hc⟩ : ∃ q b, c.Target u q b ∧ (u.child q b).isSome := by
    cases pc with
    | release v b =>
      obtain ⟨q, -, hq, -, hc⟩ := h
      exact ⟨q, b, hq, hc⟩
    | done r =>
      rcases r with e | ok
      · exact hpc.elim
      · exact h
    | _ => exact hpc.elim
  obtain ⟨rfl, rfl⟩ := (hq.later hu).unique ht (.refl c)
  exact ⟨hq, hc⟩

end VfsCreation

namespace VfsThreads

variable {ι : Type} {calls : ι → VfsCreation} {t t' : VfsThreads ι}
  {u u' s' : VfsState} {H H' : ℕ → Bool} {pc : CreationPc} {i : ι}

/-- The invariant. Without the locks `H`, the file system layer is in order, as `u`; a lock is held by
one thread; and the threads that are about to insert, or have inserted, name different children. -/
structure Inv (calls : ι → VfsCreation) (t : VfsThreads ι) (u : VfsState) (H : ℕ → Bool) : Prop where
  fs : u.VfsInv
  locks : LockedBy H t.fs u
  at_pc : ∀ i, (calls i).At u (t.pc i)
  held : ∀ i v, (t.pc i).held = some v → H v = true
  exclusive : ∀ v i j, (t.pc i).held = some v → (t.pc j).held = some v → i = j
  inserting : ∀ p name i j, (t.pc i).Inserting p name → (t.pc j).Inserting p name → i = j
  once : ∀ p name i j, (t.pc i).Inserted ∧ (calls i).Target u p name →
    (t.pc j).Inserted ∧ (calls j).Target u p name → i = j

/-- What the others know of children that they are about to insert. -/
theorem Inv.child_eq_none (h : Inv calls t u H) {p : ℕ} {name : Name}
    (hi : (t.pc i).Inserting p name) : u.child p name = none := by
  have hat := h.at_pc i
  cases hpc : t.pc i with
  | insert v q vfs b =>
    rw [hpc] at hat hi
    obtain ⟨rfl, rfl⟩ := hi
    exact hat.2.2.2
  | _ =>
    rw [hpc] at hi
    exact hi.elim

/-- Nobody is about to insert the name that was not found: not under this lock, because it is held,
and not under another one. -/
theorem Inv.not_inserting (h : Inv calls t u H) (hx : Excluded t i) {v p : ℕ} {name : Name} {y : Vnode}
    (hpc : t.pc i = .scan v name) (hy : u.VnodeOf v p y) (j : ι) (hj : j ≠ i) :
    ¬ (t.pc j).Inserting p name := by
  intro hins
  rw [Excluded, hpc] at hx
  have hdata : (t.fs.vnodes[v]?).bind Vnode.privateData = some p := by
    rw [VfsCreation.getElem?_of_vnodeOf h.locks hy]
    exact hy.privateData
  exact hj (h.exclusive v j i (hx p hdata j hins) (by rw [hpc]; rfl))

/-- Siblings have distinct names under the invariant. -/
theorem Inv.namesUnique (h : Inv calls t u H) : NamesUnique calls t where
  siblings i x hx := by
    rw [h.locks.eq] at hx ⊢
    exact h.fs.tree.names hx
  once i j hi hj hpath := by
    have hat := h.at_pc i
    have hat' := h.at_pc j
    rw [hi] at hat
    rw [hj] at hat'
    obtain ⟨p, name, ht, -⟩ := hat
    obtain ⟨q, b, ht', -⟩ := hat'
    obtain ⟨rfl, rfl⟩ := ht.unique ht' hpath
    exact h.once p name i j ⟨by rw [hi]; exact trivial, ht⟩ ⟨by rw [hj]; exact trivial, ht'⟩

theorem inv_start {s : VfsState} (hs : s.VfsInv) :
    Inv calls (start s) s fun _ => false where
  fs := hs
  locks := by
    refine ⟨?_, fun v hv => by simp at hv⟩
    have hid : relock (fun _ => false) = fun _ y => y := by
      funext v y
      rw [relock, Bool.false_or]
    have hvnodes : s.vnodes.mapIdx (fun _ y => y) = s.vnodes :=
      List.ext_getElem? fun v => by simp
    rw [withLocks, hid, hvnodes]
    rfl
  at_pc i := trivial
  held i v hv := by simp [start, CreationPc.held] at hv
  exclusive v i j hv := by simp [start, CreationPc.held] at hv
  inserting p name i j hi := hi.elim
  once p name i j hi := hi.1.elim

variable [DecidableEq ι]

/-- At most one thread has a property after a step of the thread `i`. -/
theorem eq_of_update {f : ι → CreationPc} {P : ι → CreationPc → Prop}
    (hold : ∀ j k, P j (f j) → P k (f k) → j = k) (hnew : P i pc → ∀ j ≠ i, ¬ P j (f j)) (j k : ι)
    (hj : P j (Function.update f i pc j)) (hk : P k (Function.update f i pc k)) : j = k := by
  rcases eq_or_ne j i with rfl | hji
  · rcases eq_or_ne k j with rfl | hkj
    · rfl
    · rw [Function.update_self] at hj
      rw [Function.update_of_ne hkj] at hk
      exact absurd hk (hnew hj k hkj)
  · rw [Function.update_of_ne hji] at hj
    rcases eq_or_ne k i with rfl | hki
    · rw [Function.update_self] at hk
      exact absurd hj (hnew hk j hji)
    · rw [Function.update_of_ne hki] at hk
      exact hold j k hj hk

/-- A step of the thread `i` keeps the invariant, if it keeps what the others know and no other one
is where it goes. -/
theorem Inv.update (h : Inv calls t u H) (hu' : u'.VfsInv) (hlater : u.Later u')
    (hs' : LockedBy H' s' u') (hat : (calls i).At u' pc)
    (hothers : ∀ j ≠ i, ∀ p name, (t.pc j).Inserting p name → u'.child p name = none)
    (hheld : ∀ v, pc.held = some v → H' v = true ∧ ∀ j ≠ i, (t.pc j).held ≠ some v)
    (hheld' : ∀ j ≠ i, ∀ v, (t.pc j).held = some v → H' v = true)
    (hinserting : ∀ p name, pc.Inserting p name → ∀ j ≠ i, ¬ (t.pc j).Inserting p name)
    (honce : ∀ p name, pc.Inserted ∧ (calls i).Target u' p name →
      ∀ j ≠ i, ¬ ((t.pc j).Inserted ∧ (calls j).Target u' p name)) :
    Inv calls ⟨s', Function.update t.pc i pc⟩ u' H' where
  fs := hu'
  locks := hs'
  at_pc j := by
    show (calls j).At u' (Function.update t.pc i pc j)
    rcases eq_or_ne j i with rfl | hj
    · rw [Function.update_self]
      exact hat
    · rw [Function.update_of_ne hj]
      exact (h.at_pc j).later hlater (hothers j hj)
  held j v hv := by
    change (Function.update t.pc i pc j).held = some v at hv
    rcases eq_or_ne j i with rfl | hj
    · rw [Function.update_self] at hv
      exact (hheld v hv).1
    · rw [Function.update_of_ne hj] at hv
      exact hheld' j hj v hv
  exclusive v := eq_of_update (P := fun _ pc => pc.held = some v) (h.exclusive v)
    fun hv => (hheld v hv).2
  inserting p name := eq_of_update (P := fun _ pc => pc.Inserting p name) (h.inserting p name)
    (hinserting p name)
  once p name := by
    refine eq_of_update (P := fun j pc => pc.Inserted ∧ (calls j).Target u' p name)
      (fun j k hj hk => ?_) (honce p name)
    have hj' := (h.at_pc j).inserted hj.1 hlater hj.2
    have hk' := (h.at_pc k).inserted hk.1 hlater hk.2
    exact h.once p name j k ⟨hj.1, hj'.1⟩ ⟨hk.1, hk'.1⟩

/-- Looking something up, or returning an error code. -/
theorem Inv.quiet (h : Inv calls t u H) (hu' : u'.VfsInv) (hgrow : u.Grows u')
    (hs' : LockedBy H s' u') (hat : (calls i).At u' pc) (hheld : pc.held = none)
    (hinserting : ∀ p name, ¬ pc.Inserting p name) (hinserted : ¬ pc.Inserted) :
    Inv calls ⟨s', Function.update t.pc i pc⟩ u' H := by
  refine h.update hu' hgrow.later hs' hat (fun j _ p name hj => ?_) (fun v hv => ?_)
    (fun j _ v hv => h.held j v hv) (fun p name hp => absurd hp (hinserting p name))
    fun p name hp => absurd hp.1 hinserted
  · rw [hgrow.child]
    exact h.child_eq_none hj
  · rw [hheld] at hv
    simp at hv

theorem step_of_eq (h : (calls i).step (t.pc i) t.fs = some (.ok pc, s')) :
    step calls t i = some ⟨s', Function.update t.pc i pc⟩ := by
  rw [step, h]

theorem step_eq_some (h : step calls t i = some t') :
    ∃ pc s', (calls i).step (t.pc i) t.fs = some (.ok pc, s') ∧
      t' = ⟨s', Function.update t.pc i pc⟩ := by
  rw [step] at h
  split at h
  · next pc s' hc => exact ⟨pc, s', hc, (Option.some.inj h).symm⟩
  · simp at h

/-- **One step of one thread** keeps the invariant. -/
theorem Inv.step (h : Inv calls t u H) (hp : Permitted calls t i) (hx : Excluded t i)
    (hstep : VfsThreads.step calls t i = some t') : ∃ u' H', Inv calls t' u' H' := by
  obtain ⟨pc, s', hc, rfl⟩ := step_eq_some hstep
  have hat := h.at_pc i
  have hheld := h.held i
  have hexcl : ∀ v, (t.pc i).held = some v → ∀ j ≠ i, (t.pc j).held ≠ some v := fun v hv j hj hvj =>
    hj (h.exclusive v j i hvj hv)
  cases hpc : t.pc i with
  | resolve =>
    rw [hpc] at hc
    rw [VfsThreads.Permitted, hpc] at hp
    obtain ⟨u', hgrow, hu', hs', ⟨e, rfl⟩ | ⟨d, p, name, rfl, ht, hd⟩⟩ :=
      VfsCreation.step_resolve h.fs h.locks hp hc
    · exact ⟨u', H, h.quiet hu' hgrow hs' trivial rfl (fun _ _ => id) id⟩
    · exact ⟨u', H, h.quiet hu' hgrow hs' ⟨p, name, ht, hd⟩ rfl (fun _ _ => id) id⟩
  | check d =>
    rw [hpc] at hc hat
    obtain ⟨p, name, ht, hd⟩ := hat
    obtain ⟨u', hgrow, hu', hs', rfl | ⟨v, y, rfl, hy⟩⟩ :=
      VfsCreation.step_check h.fs h.locks ht hd hc
    · exact ⟨u', H, h.quiet hu' hgrow hs' trivial rfl (fun _ _ => id) id⟩
    · exact ⟨u', H, h.quiet hu' hgrow hs' ⟨p, y, ht.later hgrow.later, hy⟩ rfl (fun _ _ => id) id⟩
  | acquire v name =>
    rw [hpc] at hc hat
    obtain ⟨p, y, ht, hy⟩ := hat
    obtain ⟨hfree, rfl, hs'⟩ := VfsCreation.step_acquire h.locks hy hc
    refine ⟨u, Function.update H v true, h.update h.fs (.refl u) hs' ⟨p, y, ht, hy⟩
      (fun j _ p name hj => h.child_eq_none hj) (fun w hw => ?_) (fun j _ w hw => ?_)
      (fun p name hp => hp.elim) fun p name hp => hp.1.elim⟩
    · obtain rfl : v = w := Option.some.inj hw
      refine ⟨Function.update_self v true H, fun j _ hj => ?_⟩
      rw [h.held j v hj] at hfree
      simp at hfree
    · rw [Function.update_apply, h.held j w hw]
      exact ite_self true
  | scan v name =>
    rw [hpc] at hc hat hheld hexcl
    obtain ⟨p, y, ht, hy⟩ := hat
    obtain ⟨rfl, rfl | ⟨rfl, hnone⟩⟩ := VfsCreation.step_scan h.fs h.locks hy hc
    · exact ⟨u, H, h.quiet h.fs (.refl u) h.locks trivial rfl (fun _ _ => id) id⟩
    · refine ⟨u, H, h.update h.fs (.refl u) h.locks ⟨rfl, ht, ⟨y, hy⟩, hnone⟩
        (fun j _ p name hj => h.child_eq_none hj) (fun w hw => ⟨hheld w hw, hexcl w hw⟩)
        (fun j _ w hw => h.held j w hw) (fun q b hq => ?_) fun p name hp => hp.1.elim⟩
      obtain ⟨rfl, rfl⟩ := hq
      exact h.not_inserting hx hpc hy
  | insert v p vfs name =>
    rw [hpc] at hc hat hheld hexcl
    obtain ⟨rfl, ht, ⟨y, hy⟩, hnone⟩ := hat
    obtain ⟨x, hx, -⟩ := hy.mode
    have hp := (List.getElem?_eq_some_iff.mp hx).1
    obtain ⟨u', hadded, hs', rfl⟩ := VfsCreation.step_insert h.fs h.locks hx hc
    have hlater := hadded.later h.fs.tree hp hnone
    have hleaf := hadded.addedLeaf h.fs.tree hp hnone
    have hself : (u'.child p name).isSome := by
      rw [hleaf.self]
      rfl
    refine ⟨u', H, h.update (hadded.vfsInv h.fs hp hnone) hlater hs'
      ⟨p, y, ht.later hlater, hlater.vnodeOf hy, hself⟩ (fun j hj q b hq => ?_)
      (fun w hw => ⟨hheld w hw, hexcl w hw⟩) (fun j _ w hw => h.held j w hw)
      (fun p name hp => hp.elim) fun q b hq j hj hins => ?_⟩
    · -- another thread is about to insert another child
      rw [hleaf.other q b ?_]
      · exact h.child_eq_none hq
      · rintro ⟨rfl, rfl⟩
        exact hj (h.inserting q b j i hq (by rw [hpc]; exact ⟨rfl, rfl⟩))
    · -- another thread has inserted another child
      obtain ⟨rfl, rfl⟩ := hq.2.unique (ht.later hlater) (.refl _)
      have hchild := ((h.at_pc j).inserted hins.1 hlater hins.2).2
      rw [hnone] at hchild
      simp at hchild
  | release v name =>
    rw [hpc] at hc hat hexcl
    obtain ⟨p, y, ht, hy, hsome⟩ := hat
    obtain ⟨rfl, hs'⟩ := VfsCreation.step_release h.locks hy hc
    refine ⟨u, Function.update H v false, h.update h.fs (.refl u) hs' ⟨p, name, ht, hsome⟩
      (fun j _ p name hj => h.child_eq_none hj) (fun w hw => ?_) (fun j hj w hw => ?_)
      (fun p name hp => hp.elim) fun q b hq j hj hins => ?_⟩
    · simp [CreationPc.held] at hw
    · have hne : w ≠ v := by
        rintro rfl
        exact hexcl w rfl j hj hw
      rw [Function.update_of_ne hne]
      exact h.held j w hw
    · exact hj (h.once q b j i hins ⟨by rw [hpc]; exact trivial, hq.2⟩)
  | done r =>
    rw [hpc] at hc
    simp [VfsCreation.step, deref] at hc

/-- **Run lemma.** The invariant holds in every state that is reached by steps that are `Excluded`. -/
theorem run_inv {s : VfsState} (hs : s.VfsInv) {sched : List ι}
    (hr : Run (step calls) (fun t i => Permitted calls t i ∧ Excluded t i) (start s) sched t) :
    ∃ u H, Inv calls t u H :=
  hr.invariant (P := fun t => ∃ u H, Inv calls t u H)
    (fun _ _ _ ⟨_, _, h⟩ hok hstep => h.step hok.1 hok.2 hstep) ⟨s, _, inv_start hs⟩

/-! ### The condition is exact -/

/-- Two inodes were added under one name. -/
theorem not_nodup_of_added {u₁ u₂ u₃ : VfsState} {p : ℕ} {name : Name} {m m' : BitVec 16}
    {x : TmpfsInode} (hx : u₁.inodes[p]? = some x) (h : u₁.Added p name m u₂)
    (h' : u₂.Added p name m' u₃) :
    ∃ x₃ : TmpfsInode, u₃.inodes[p]? = some x₃ ∧ ¬ (x₃.children.map u₃.nameOf).Nodup := by
  have hx₂ := h.old hx
  have hx₃ := h'.old hx₂
  rw [if_pos rfl] at hx₂ hx₃
  have hlt : u₁.inodes.length < u₂.inodes.length := by
    rw [h.length]
    exact Nat.lt_succ_self _
  have hfirst : u₃.nameOf u₁.inodes.length = some name := (h'.nameOf hlt).trans h.nameOf_new
  refine ⟨_, hx₃, ?_⟩
  rw [if_pos rfl]
  simp [List.nodup_append, hfirst, h'.nameOf_new]

/-- **A search that is not `Excluded`** lets two threads insert one name: the one that searches, and
the one that is about to insert it. -/
theorem Inv.not_namesUnique (h : Inv calls t u H) (hx : ¬ Excluded t i) :
    ∃ j t', Run (VfsThreads.step calls) (Permitted calls) t [i, i, j] t' ∧ ¬ NamesUnique calls t' := by
  have hat := h.at_pc i
  cases hpc : t.pc i with
  | scan v name =>
    rw [Excluded, hpc] at hx
    rw [hpc] at hat
    obtain ⟨p, y, -, hy⟩ := hat
    have hdata : (t.fs.vnodes[v]?).bind Vnode.privateData = some p := by
      rw [VfsCreation.getElem?_of_vnodeOf h.locks hy]
      exact hy.privateData
    obtain ⟨j, hins⟩ : ∃ j, (t.pc j).Inserting p name := by
      by_contra hno
      refine hx fun q hq j hins => absurd ⟨j, ?_⟩ hno
      obtain rfl : p = q := Option.some.inj (hdata.symm.trans hq)
      exact hins
    have hji : j ≠ i := by
      rintro rfl
      rw [hpc] at hins
      exact hins
    have hnone := h.child_eq_none hins
    have hatj := h.at_pc j
    cases hpcj : t.pc j with
    | insert w q vfs b =>
      rw [hpcj] at hins hatj
      obtain ⟨rfl, rfl⟩ := hins
      obtain rfl : vfs = 0 := hatj.1
      obtain ⟨x, hx, -⟩ := hy.mode
      obtain ⟨cache, hm⟩ := h.fs.mounted
      let u₁ := u.inserted q x b ((calls i).flags &&& ~~~sIfmt ||| (calls i).fmt) cache
      have hadded : u.Added q b _ u₁ := added_inserted hx hm _
      have hx₁ := hadded.old hx
      rw [if_pos rfl] at hx₁
      obtain ⟨cache₁, hm₁⟩ := hadded.mounted
      let u₂ := u₁.inserted q { x with children := x.children ++ [u.inodes.length] } b
        ((calls j).flags &&& ~~~sIfmt ||| (calls j).fmt) cache₁
      have hadded₂ : u₁.Added q b _ u₂ := added_inserted hx₁ hm₁ _
      -- the search finds nothing, and both threads insert
      let pc₁ := Function.update t.pc i (.insert v q 0 b)
      let pc₂ := Function.update pc₁ i (.release v b)
      have hstep₁ : VfsThreads.step calls t i = some ⟨t.fs, pc₁⟩ := by
        refine step_of_eq ?_
        rw [hpc, VfsCreation.step_scan_eq h.fs h.locks hy, hnone]
        rfl
      have hstep₂ : VfsThreads.step calls ⟨t.fs, pc₁⟩ i = some ⟨u₁.withLocks H, pc₂⟩ := by
        refine step_of_eq ?_
        show (calls i).step (Function.update t.pc i _ i) t.fs = _
        rw [Function.update_self, h.locks.eq, VfsCreation.step_insert_eq hm hx]
      have hstep₃ : VfsThreads.step calls ⟨u₁.withLocks H, pc₂⟩ j =
          some ⟨u₂.withLocks H, Function.update pc₂ j (.release w b)⟩ := by
        refine step_of_eq ?_
        show (calls j).step (Function.update (Function.update t.pc i _) i _ j) _ = _
        rw [Function.update_of_ne hji, Function.update_of_ne hji, hpcj]
        exact VfsCreation.step_insert_eq hm₁ hx₁
      refine ⟨j, _, .cons ?_ hstep₁ (.cons ?_ hstep₂ (.cons ?_ hstep₃ (.nil _))), fun hunique => ?_⟩
      · rw [Permitted, hpc]
        exact trivial
      · show (calls i).Permitted _ (Function.update t.pc i _ i)
        rw [Function.update_self]
        exact trivial
      · show (calls j).Permitted _ (Function.update (Function.update t.pc i _) i _ j)
        rw [Function.update_of_ne hji, Function.update_of_ne hji, hpcj]
        exact trivial
      · obtain ⟨x₂, hx₂, hdup⟩ := not_nodup_of_added hx hadded hadded₂
        exact hdup (hunique.siblings q x₂ hx₂)
    | _ =>
      rw [hpcj] at hins
      exact hins.elim
  | _ =>
    rw [Excluded, hpc] at hx
    exact absurd trivial hx

end VfsThreads

open VfsThreads VfsSys

/-- **Concurrent creation.** Threads call `vfs_mkdir` and `vfs_create` on a file system that was
reached by any calls. If every search for a name is `Excluded`, siblings have distinct names in every
state that is reached, and of the calls for one path at most one returned 0. -/
theorem concurrent_names_unique {ι : Type} [DecidableEq ι] {vmalloc : VfsState → ℕ → List UInt8}
    {cs : List VfsCall} {t₀ : VfsSys} {calls : ι → VfsCreation} {sched : List ι} {t : VfsThreads ι}
    (hv : ∀ s n, (vmalloc s n).length = n) (h : Reached vmalloc cs t₀)
    (hr : Run (step calls) (fun t i => Permitted calls t i ∧ Excluded t i) (start t₀.fs) sched t) :
    NamesUnique calls t := by
  obtain ⟨u, H, hinv⟩ := run_inv (h.sysInv hv).fs hr
  exact hinv.namesUnique

/-- After a search that is not `Excluded`, three steps are enough for two children of one name. -/
theorem concurrent_names_lost {ι : Type} [DecidableEq ι] {vmalloc : VfsState → ℕ → List UInt8}
    {cs : List VfsCall} {t₀ : VfsSys} {calls : ι → VfsCreation} {sched : List ι} {t : VfsThreads ι}
    {i : ι} (hv : ∀ s n, (vmalloc s n).length = n) (h : Reached vmalloc cs t₀)
    (hr : Run (step calls) (fun t i => Permitted calls t i ∧ Excluded t i) (start t₀.fs) sched t)
    (hx : ¬ Excluded t i) :
    ∃ j t', Run (step calls) (Permitted calls) t [i, i, j] t' ∧ ¬ NamesUnique calls t' := by
  obtain ⟨u, H, hinv⟩ := run_inv (h.sysInv hv).fs hr
  exact hinv.not_namesUnique hx

/-- `vfs_mkdir("/a")`. -/
def mkdirA : List VfsCall := [.vfsMkdir [47, 97] none 0]

/-- Two threads that each call `vfs_create("/a/f")`. -/
def createTwice (_ : Bool) : VfsCreation := ⟨sIfreg, [47, 97, 47, 102], none, 0⟩

/-- The state after the first call, and the one that the two threads reach from there. -/
def runTwice (ok : VfsThreads Bool → Bool → Prop) [∀ t i, Decidable (ok t i)] (sched : List Bool) :
    Option (VfsSys × VfsThreads Bool) :=
  (Run.check (exec vzeroed) Allowed ⟨initVfs, []⟩ mkdirA).bind fun t₀ =>
    (Run.check (step createTwice) ok (start t₀.fs) sched).map fun t => (t₀, t)

theorem exists_of_runTwice (ok : VfsThreads Bool → Bool → Prop) [∀ t i, Decidable (ok t i)]
    (sched : List Bool) (f : VfsThreads Bool → Bool)
    (h : (runTwice ok sched).map (fun r => f r.2) = some true) :
    ∃ t₀ t, Reached vzeroed mkdirA t₀ ∧ Run (step createTwice) ok (start t₀.fs) sched t ∧
      f t = true := by
  obtain ⟨⟨t₀, t⟩, hr, hf⟩ := Option.map_eq_some_iff.mp h
  obtain ⟨t₀', ht₀, hr⟩ := Option.bind_eq_some_iff.mp hr
  obtain ⟨t', ht, heq⟩ := Option.map_eq_some_iff.mp hr
  obtain ⟨rfl, rfl⟩ := Prod.mk.inj heq
  exact ⟨t₀', t', Run.of_check ht₀, Run.of_check ht, hf⟩

/-- The call of a thread returned 0. -/
def returnedZero (t : VfsThreads Bool) (i : Bool) : Bool :=
  match t.pc i with
  | .done (.ok ()) => true
  | _ => false

theorem pc_of_returnedZero {t : VfsThreads Bool} {i : Bool} (h : returnedZero t i = true) :
    t.pc i = .done (.ok ()) := by
  rw [returnedZero] at h
  split at h
  · assumption
  · simp at h

/-- One of the threads creates the file, and the other one finds it when it searches. -/
theorem concurrent_names_unique_twice : ∃ t₀ t, Reached vzeroed mkdirA t₀ ∧
    Run (step createTwice) (fun t i => Permitted createTwice t i ∧ Excluded t i) (start t₀.fs)
      [false, true, false, true, false, true, false, false, true, false] t ∧
    NamesUnique createTwice t ∧ t.pc false = .done (.ok ()) := by
  obtain ⟨t₀, t, h, hr, ht⟩ := exists_of_runTwice (fun t i => Permitted createTwice t i ∧ Excluded t i)
    [false, true, false, true, false, true, false, false, true, false]
    (fun t => returnedZero t false) (by decide +kernel)
  exact ⟨t₀, t, h, hr, concurrent_names_unique length_vzeroed h hr, pc_of_returnedZero ht⟩

/-- **The names are not unique** in general: with their steps taken in turn, both threads return 0
from `vfs_create("/a/f")`. -/
theorem not_concurrent_names_unique :
    ¬ ∀ (ι : Type) [DecidableEq ι] (vmalloc : VfsState → ℕ → List UInt8) (cs : List VfsCall)
      (t₀ : VfsSys) (calls : ι → VfsCreation) (sched : List ι) (t : VfsThreads ι),
      (∀ s n, (vmalloc s n).length = n) → Reached vmalloc cs t₀ →
      Run (step calls) (Permitted calls) (start t₀.fs) sched t → NamesUnique calls t := by
  intro h
  obtain ⟨t₀, t, hreach, hr, ht⟩ := exists_of_runTwice (Permitted createTwice)
    [false, true, false, true, false, true, false, true, false, true, false, true]
    (fun t => returnedZero t false && returnedZero t true) (by decide +kernel)
  rw [Bool.and_eq_true] at ht
  have hunique := h Bool vzeroed mkdirA t₀ createTwice _ t length_vzeroed hreach hr
  have heq := hunique.once false true (pc_of_returnedZero ht.1) (pc_of_returnedZero ht.2) (.refl _)
  exact Bool.noConfusion heq

end GoofyOs
