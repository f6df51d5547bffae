import GoofyOs.ForMathlib.ProcSim
import GoofyOs.VfsAdd

/-!
# Locks that are held elsewhere

Code of one thread runs while other threads hold locks of vnodes. If it returns, it did what it
would have done if nobody else held a lock: it took only locks that were free, and it reads nothing
else of a lock.

## Main definitions

* `VfsState.withLocks` — a state in which some more locks are held
* `VfsState.LockedBy` — the relation between the two states

## Main results

* `VfsState.sim_vfsFindDentry`, `VfsState.sim_vfsFindChild` — resolving a path under held locks
-/

namespace GoofyOs

open Proc

namespace VfsState

variable {H : ℕ → Bool} {s u : VfsState} {v p : ℕ} {name : Name} {x y : Vnode}

/-- The vnode of a state in which the locks `H` are held too. -/
def relock (H : ℕ → Bool) (v : ℕ) (y : Vnode) : Vnode := { y with lock := H v || y.lock }

/-- The state in which the locks `H` are held too. -/
def withLocks (u : VfsState) (H : ℕ → Bool) : VfsState :=
  { u with vnodes := u.vnodes.mapIdx (relock H) }

/-- In `s` the locks `H` are held too, all of them of vnodes that exist. -/
structure LockedBy (H : ℕ → Bool) (s u : VfsState) : Prop where
  eq : s = u.withLocks H
  lt : ∀ v, H v = true → v < u.vnodes.length

theorem getElem?_withLocks : (u.withLocks H).vnodes[v]? = u.vnodes[v]?.map (relock H v) :=
  List.getElem?_mapIdx

/-! ### The heap -/

theorem sim_getInode : Simulates (LockedBy H) Eq (getInode p) (getInode p) :=
  Simulates.read.bind fun s u h => by
    obtain ⟨rfl, -⟩ := h
    exact Simulates.deref _

theorem sim_getDentry : Simulates (LockedBy H) Eq (getDentry p) (getDentry p) :=
  Simulates.read.bind fun s u h => by
    obtain ⟨rfl, -⟩ := h
    exact Simulates.deref _

theorem sim_getVfs : Simulates (LockedBy H) Eq (getVfs p) (getVfs p) :=
  Simulates.read.bind fun s u h => by
    obtain ⟨rfl, -⟩ := h
    exact Simulates.deref _

theorem sim_getVnode :
    Simulates (LockedBy H) (fun x y => x = relock H v y) (getVnode v) (getVnode v) := by
  refine Simulates.read.bind fun s u h => ?_
  obtain ⟨rfl, -⟩ := h
  rw [getElem?_withLocks]
  cases u.vnodes[v]? with
  | none => exact fun _ _ _ _ _ h => by simp [deref] at h
  | some y => exact Simulates.pure (Q := fun x y => x = relock H v y) rfl

theorem sim_setVnode (hxy : x = relock H v y) :
    Simulates (LockedBy H) (fun _ _ => True) (setVnode v x) (setVnode v y) := by
  refine Simulates.modify fun s u h => ?_
  obtain ⟨rfl, hlt⟩ := h
  refine ⟨?_, by simpa using hlt⟩
  subst hxy
  simp only [withLocks, List.mapIdx_set]

theorem sim_newVnode : Simulates (LockedBy H) Eq (newVnode y) (newVnode y) := by
  refine Simulates.read.bind fun s u h => ?_
  obtain ⟨rfl, -⟩ := h
  refine (Simulates.modify fun s u h => ?_).bind fun _ _ _ => Simulates.pure (by simp [withLocks])
  obtain ⟨rfl, hlt⟩ := h
  -- nobody holds the lock of a vnode that did not exist
  have hnew : relock H u.vnodes.length y = y := by
    have hfree : H u.vnodes.length = false :=
      Bool.eq_false_iff.mpr fun h => Nat.lt_irrefl _ (hlt _ h)
    rw [relock, hfree, Bool.false_or]
  refine ⟨?_, fun v hv => ?_⟩
  · simp only [withLocks, List.mapIdx_concat, hnew]
  · rw [List.length_append]
    exact Nat.lt_add_right _ (hlt v hv)

theorem sim_newDentry {e : Dentry} : Simulates (LockedBy H) Eq (newDentry e) (newDentry e) := by
  refine Simulates.read.bind fun s u h => ?_
  obtain ⟨rfl, -⟩ := h
  refine (Simulates.modify fun s u h => ?_).bind fun _ _ _ => Simulates.pure rfl
  obtain ⟨rfl, hlt⟩ := h
  exact ⟨rfl, hlt⟩

/-- Only a free lock is taken. -/
theorem sim_acquireVnode :
    Simulates (LockedBy H) (fun _ _ => H v = false) (acquireVnode v) (acquireVnode v) := by
  refine sim_getVnode.bind fun x y hxy => ?_
  subst hxy
  cases hv : H v with
  | true =>
    have hlocked : (relock H v y).lock = true := by rw [relock, hv, Bool.true_or]
    rw [if_pos hlocked]
    exact fun _ _ _ _ _ h => by simp [deref] at h
  | false =>
    have hsame : (relock H v y).lock = y.lock := by rw [relock, hv, Bool.false_or]
    rw [hsame]
    split
    · exact fun _ _ _ _ _ h => by simp [deref] at h
    · refine (sim_setVnode ?_).mono fun _ _ _ => rfl
      rw [relock, relock, hv]
      rfl

/-- Releasing a lock that nobody else holds. -/
theorem sim_releaseVnode (hv : H v = false) :
    Simulates (LockedBy H) (fun _ _ => True) (releaseVnode v) (releaseVnode v) := by
  refine sim_getVnode.bind fun x y hxy => sim_setVnode ?_
  rw [hxy, relock, relock, hv]
  rfl

/-! ### `tmpfs.c` -/

theorem sim_findName (name : Name) (cs : List ℕ) :
    Simulates (LockedBy H) Eq (findName name cs) (findName name cs) := by
  induction cs with
  | nil => exact Simulates.pure rfl
  | cons c cs ih =>
    exact sim_getInode.bind_eq fun x => Simulates.ite Iff.rfl (fun _ => Simulates.pure rfl) fun _ => ih

theorem sim_tmpfsLookup : Simulates (LockedBy H) Eq (tmpfsLookup v name) (tmpfsLookup v name) := by
  refine sim_acquireVnode.bind fun _ _ hv => sim_getVnode.bind fun x y hxy => ?_
  subst hxy
  refine (Simulates.deref _).bind_eq fun i => sim_getInode.bind_eq fun z =>
    (sim_findName _ _).bind_eq fun found => (sim_releaseVnode hv).bind fun _ _ _ => ?_
  cases found with
  | none => exact Simulates.throw _
  | some c => exact sim_getInode.bind_eq fun x => Simulates.pure rfl

theorem sim_tmpfsCreateNode {num : ℕ} :
    Simulates (LockedBy H) Eq (tmpfsCreateNode v num) (tmpfsCreateNode v num) := by
  refine sim_getVnode.bind fun x y hxy => ?_
  subst hxy
  refine (Simulates.deref _).bind_eq fun vfs => sim_getVfs.bind_eq fun z =>
    (Simulates.deref _).bind_eq fun tblock => ?_
  cases tblock.tnodeCache.hmapLookup num with
  | none => exact Simulates.throw _
  | some tnode => exact sim_getInode.bind_eq fun i => sim_newVnode

/-! ### `vfs.c` -/

theorem sim_vfsFindVnode {num : ℕ} :
    Simulates (LockedBy H) Eq (vfsFindVnode v num) (vfsFindVnode v num) := by
  refine sim_getVnode.bind fun x y hxy => ?_
  subst hxy
  refine Simulates.ite Iff.rfl (fun _ => Simulates.throw _) fun _ => Simulates.read.bind fun s u h => ?_
  obtain ⟨rfl, -⟩ := h
  cases hcache : u.vnodeCache.hmapLookup ⟨y.currVfs, num⟩ with
  | some ret =>
    simp only [withLocks, relock, hcache]
    exact Simulates.pure rfl
  | none =>
    simp only [withLocks, relock, hcache]
    exact sim_tmpfsCreateNode

/-- **`vfs_find_child`** under held locks. -/
theorem sim_vfsFindChild (d : ℕ) (name : Name) :
    Simulates (LockedBy H) Eq (vfsFindChild d name) (vfsFindChild d name) := by
  refine Simulates.ite Iff.rfl (fun _ => Simulates.pure rfl) fun _ => Simulates.read.bind fun s u h => ?_
  obtain ⟨rfl, -⟩ := h
  cases hcache : u.dentryCache.hmapLookup ⟨some d, name⟩ with
  | some ret =>
    simp only [withLocks, hcache]
    exact Simulates.pure rfl
  | none =>
    simp only [withLocks, hcache]
    refine sim_getDentry.bind_eq fun e => (Simulates.deref _).bind_eq fun w =>
      sim_getVnode.bind fun x y hxy => ?_
    subst hxy
    exact (Simulates.deref y.ops).bind_eq fun _ => sim_tmpfsLookup.bind_eq fun num =>
      sim_vfsFindVnode.bind_eq fun ret => sim_newDentry

theorem sim_findLoop (d : ℕ) (files : List Name) :
    Simulates (LockedBy H) Eq (findLoop d files) (findLoop d files) := by
  induction files generalizing d with
  | nil => exact Simulates.pure rfl
  | cons name files ih => exact (sim_vfsFindChild d name).bind_eq ih

/-- **`vfs_find_dentry`** under held locks. -/
theorem sim_vfsFindDentry (path : List UInt8) (rel : Option ℕ) (parent : Bool) :
    Simulates (LockedBy H) Eq (vfsFindDentry path rel parent) (vfsFindDentry path rel parent) := by
  refine (Simulates.deref _).bind_eq fun files =>
    Simulates.ite Iff.rfl (fun _ => Simulates.throw _) fun _ => Simulates.read.bind fun s u h => ?_
  obtain ⟨rfl, -⟩ := h
  exact (Simulates.deref _).bind_eq fun cur => sim_findLoop cur _

end VfsState

end GoofyOs
