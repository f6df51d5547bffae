import GoofyOs.VfsRun

/-!
# A creation that fails

`tmpfs_mkdir` and `tmpfs_create` return an error for one reason, a name that is taken, and before
they have changed the directory or the file system. But they return with the lock of the vnode
held. From then on every creation and every lookup in the directory waits for a lock that nobody
will release.

## Main definitions

* `VfsState.DirVnode` — a vnode whose pointers can be followed, and whose lock is free
* `VfsState.Untouched` — what a creation that fails has to leave as it was

## Main results

* `VfsState.DirVnode.tmpfsAdd_eq_error_iff` — when a creation fails, and in which state
* `VfsState.DirVnode.stuck_after_error` — what becomes of the next call
* `tmpfs_failure_untouched_iff` — it leaves everything as it was only if it cannot fail
-/

namespace GoofyOs

open Proc VfsState

/-! ### The steps that return no error code -/

section ErrorFree

variable {p : ℕ}

theorem errorFree_getInode : (getInode p).ErrorFree :=
  errorFree_read.bind fun _ => errorFree_deref _

theorem errorFree_getVnode : (getVnode p).ErrorFree :=
  errorFree_read.bind fun _ => errorFree_deref _

theorem errorFree_getVfs : (getVfs p).ErrorFree :=
  errorFree_read.bind fun _ => errorFree_deref _

theorem errorFree_releaseVnode : (releaseVnode p).ErrorFree :=
  errorFree_getVnode.bind fun _ => errorFree_modify _

theorem errorFree_acquireVfs : (acquireVfs p).ErrorFree :=
  errorFree_getVfs.bind fun _ => (errorFree_deref _).ite (errorFree_modify _)

theorem errorFree_releaseVfs : (releaseVfs p).ErrorFree :=
  errorFree_getVfs.bind fun _ => errorFree_modify _

theorem errorFree_nextNumber : (nextNumber p).ErrorFree :=
  errorFree_getVfs.bind fun _ => (errorFree_deref _).bind fun _ =>
    (errorFree_modify _).bind fun _ => errorFree_pure _

theorem errorFree_addTnode (number tnode : ℕ) : (addTnode p number tnode).ErrorFree :=
  errorFree_getVfs.bind fun _ => (errorFree_deref _).bind fun _ =>
    (errorFree_deref _).bind fun _ => errorFree_modify _

theorem errorFree_addChild (child : ℕ) : (addChild p child).ErrorFree :=
  errorFree_getInode.bind fun _ => errorFree_modify _

theorem errorFree_newInode (x : TmpfsInode) : (newInode x).ErrorFree :=
  errorFree_read.bind fun _ => (errorFree_modify _).bind fun _ => errorFree_pure _

/-- Once the name was found to be free, a creation does not return an error. -/
theorem errorFree_tmpfsInsert (fmt : BitVec 16) (tnode vfs : ℕ) (name : Name) (flags : BitVec 16) :
    (tmpfsInsert fmt tnode vfs name flags).ErrorFree := by
  refine errorFree_acquireVfs.bind fun _ => errorFree_nextNumber.bind fun number =>
    errorFree_releaseVfs.bind fun _ => (errorFree_newInode _).bind fun child => ?_
  exact (errorFree_addChild child).bind fun _ => errorFree_addTnode number child

end ErrorFree

namespace VfsState

variable {s s' : VfsState} {v i w : ℕ} {name : Name} {y : Vnode} {x : TmpfsInode} {e : ℤ}

/-- The vnode `v` of the inode `i` in the file system `w`. Its lock is free, and the pointers that a
creation follows to the children are valid. -/
structure DirVnode (s : VfsState) (v i w : ℕ) (y : Vnode) (x : TmpfsInode) : Prop where
  get : s.vnodes[v]? = some y
  lock : y.lock = false
  privateData : y.privateData = some i
  currVfs : y.currVfs = some w
  inode : s.inodes[i]? = some x
  child_lt : ∀ c ∈ x.children, c < s.inodes.length

/-- What a creation that fails has to leave as it was: the children of the directory, the numbers,
the index and the lock of the file system, and the lock of the vnode. -/
structure Untouched (s s' : VfsState) (v i w : ℕ) : Prop where
  children : s'.inodes[i]?.map TmpfsInode.children = s.inodes[i]?.map TmpfsInode.children
  vfs : s'.vfss[w]? = s.vfss[w]?
  lock : s'.vnodes[v]?.map Vnode.lock = s.vnodes[v]?.map Vnode.lock

/-- If the code returns an error, it leaves everything as it was. -/
def FailsUntouched (s : VfsState) (v i w : ℕ) (m : VfsM Unit) : Prop :=
  ∀ e s', m s = some (.error e, s') → s.Untouched s' v i w

namespace DirVnode

variable (h : s.DirVnode v i w y x)

include h

theorem hasFile (name : Name) : tmpfsHasFile i name (s.locked v y) =
    some (.ok (s.child i name).isSome, s.locked v y) := by
  have hx : (s.locked v y).inodes[i]? = some x := h.inode
  have hfind : findName name x.children (s.locked v y) =
      some (.ok (s.child i name), s.locked v y) := by
    rw [findName_ok (s := s.locked v y) h.child_lt, child_of_getElem? h.inode]
    rfl
  rw [tmpfsHasFile, bind_ok (getInode_ok hx), bind_ok hfind]
  rfl

/-- **When a creation fails**: the name is taken. The lock of the vnode is held afterwards, and
nothing else has changed. -/
theorem tmpfsAdd_eq_error_iff (fmt flags : BitVec 16) :
    tmpfsAdd fmt v name flags s = some (.error e, s') ↔
      s.child i name ≠ none ∧ e = -eexist ∧ s' = s.locked v y := by
  rw [tmpfsAdd_of_hasFile fmt flags h.get h.lock h.privateData h.currVfs (h.hasFile name)]
  cases hchild : s.child i name with
  | none =>
    have hfree := (errorFree_tmpfsInsert fmt i w name flags).bind fun _ =>
      errorFree_releaseVnode (p := v)
    exact ⟨fun herr => absurd herr (hfree _ _ _), fun herr => absurd rfl herr.1⟩
  | some c =>
    show some (Except.error (-eexist), s.locked v y) = some (.error e, s') ↔ _
    constructor
    · intro herr
      obtain ⟨he, rfl⟩ := Prod.mk.inj (Option.some.inj herr)
      exact ⟨nofun, (Except.error.inj he).symm, rfl⟩
    · rintro ⟨-, rfl, rfl⟩
      rfl

/-- The lock that is held makes the difference. -/
theorem not_untouched_locked : ¬ s.Untouched (s.locked v y) v i w := by
  intro hu
  have hlock := hu.lock
  rw [getElem?_locked h.get, h.get] at hlock
  exact Bool.noConfusion ((Option.some.inj hlock).trans h.lock)

/-- A creation leaves everything as it was when it fails, if and only if it cannot fail. -/
theorem failsUntouched_iff (fmt flags : BitVec 16) :
    s.FailsUntouched v i w (tmpfsAdd fmt v name flags) ↔ s.child i name = none := by
  constructor
  · intro hfail
    by_contra htaken
    exact h.not_untouched_locked
      (hfail _ _ ((h.tmpfsAdd_eq_error_iff fmt flags).mpr ⟨htaken, rfl, rfl⟩))
  · intro hfree e s' herr
    exact absurd hfree ((h.tmpfsAdd_eq_error_iff fmt flags).mp herr).1

/-- After it failed, nothing that takes the lock of the vnode returns. -/
theorem stuck_after_error (fmt flags fmt' flags' : BitVec 16) (name' : Name)
    (herr : tmpfsAdd fmt v name flags s = some (.error e, s')) :
    tmpfsAdd fmt' v name' flags' s' = none ∧ tmpfsLookup v name' s' = none := by
  obtain ⟨-, -, rfl⟩ := (h.tmpfsAdd_eq_error_iff fmt flags).mp herr
  have hstuck : acquireVnode v (s.locked v y) = none := by
    rw [acquireVnode, bind_ok (getVnode_ok (getElem?_locked h.get)), if_pos rfl]
    rfl
  exact ⟨bind_none hstuck, bind_none hstuck⟩

end DirVnode

end VfsState

/-- **A creation that fails leaves everything as it was** if and only if no child has the name, and
then it does not fail. -/
theorem tmpfs_failure_untouched_iff {s : VfsState} {v i w : ℕ} {y : Vnode} {x : TmpfsInode}
    (h : s.DirVnode v i w y x) (name : Name) (flags : BitVec 16) :
    (s.FailsUntouched v i w (tmpfsMkdir v name flags) ↔ s.child i name = none) ∧
      (s.FailsUntouched v i w (tmpfsCreate v name flags) ↔ s.child i name = none) :=
  ⟨h.failsUntouched_iff sIfdir flags, h.failsUntouched_iff sIfreg flags⟩

/-- The root with a directory `a`, as `tmpfs_mkdir` leaves them. -/
def rootWithA : VfsState :=
  initVfs.inserted 0 ⟨[slash], [], [], 0, 0, 0, 0⟩ [97] sIfdir (Hashmap.hmapInit.push 0 0)

example : tmpfsMkdir 1 [97] 0 initVfs = some (.ok (), rootWithA) := rfl

theorem dirVnode_rootWithA : ∃ y x, rootWithA.DirVnode 1 0 0 y x :=
  ⟨_, _, rfl, rfl, rfl, rfl, rfl, by decide⟩

/-- The name `b` is free. -/
theorem tmpfs_failure_untouched_b :
    rootWithA.FailsUntouched 1 0 0 (tmpfsMkdir 1 [98] 0) ∧
      rootWithA.FailsUntouched 1 0 0 (tmpfsCreate 1 [98] 0) := by
  obtain ⟨y, x, h⟩ := dirVnode_rootWithA
  have hiff := tmpfs_failure_untouched_iff h [98] 0
  exact ⟨hiff.1.mpr (by decide), hiff.2.mpr (by decide)⟩

/-- **A second `tmpfs_mkdir("a")`** returns `-EEXIST` and keeps the lock of the root. -/
theorem not_tmpfs_failure_untouched :
    ¬ ∀ (s : VfsState) (v i w : ℕ) (y : Vnode) (x : TmpfsInode) (name : Name) (flags : BitVec 16),
      s.DirVnode v i w y x → s.FailsUntouched v i w (tmpfsMkdir v name flags) := by
  intro hall
  obtain ⟨y, x, h⟩ := dirVnode_rootWithA
  have hfail := hall _ _ _ _ _ _ [97] 0 h
  exact absurd ((h.failsUntouched_iff sIfdir 0).mp hfail) (by decide)

end GoofyOs
