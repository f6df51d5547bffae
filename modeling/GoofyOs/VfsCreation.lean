import GoofyOs.VfsLocks
import GoofyOs.VfsRun
import Mathlib.Data.Fintype.Basic

/-!
# Creation in steps

`vfs_mkdir` and `vfs_create` as they are interleaved with other threads: resolving the parent, checking
for the child, taking the lock of the parent's vnode, searching for the name, inserting the child and
releasing the lock. A step that needs a lock which is held is not possible. The steps of one call
after another are the call.

## Main definitions

* `VfsCreation`, `CreationPc`, `VfsCreation.step` — a call, where it is, and its steps
* `VfsThreads` — threads that each run a call
* `VfsThreads.NamesUnique` — siblings have distinct names, and one call for a path returns 0
* `VfsThreads.Excluded` — a search for a name is under the lock of everybody who inserts it
* `VfsCreation.Target` — the child that a path names

## Main results

* `VfsCreation.run_eq` — the steps of a call, one after another
* `VfsCreation.step_resolve`, `VfsCreation.step_check`, `VfsCreation.step_acquire`,
  `VfsCreation.step_scan`, `VfsCreation.step_insert`, `VfsCreation.step_release` — what each step
  does under the locks of other threads
-/

namespace GoofyOs

open Proc VfsState

/-- A call of `vfs_mkdir` or `vfs_create`, which differ in the type of the new inode. -/
structure VfsCreation where
  fmt : BitVec 16
  path : List UInt8
  rel : Option ℕ
  flags : BitVec 16

/-- Where a call is. -/
inductive CreationPc
  | resolve
  | check (parent : ℕ)
  | acquire (node : ℕ) (name : Name)
  | scan (node : ℕ) (name : Name)
  | insert (node tnode vfs : ℕ) (name : Name)
  | release (node : ℕ) (name : Name)
  | done (r : Except ℤ Unit)

/-- The vnode whose lock a call holds. -/
def CreationPc.held : CreationPc → Option ℕ
  | .scan v _ | .insert v _ _ _ | .release v _ => some v
  | _ => none

/-- The call is about to insert the child `name` of the inode `p`. -/
def CreationPc.Inserting (p : ℕ) (name : Name) : CreationPc → Prop
  | .insert _ q _ b => q = p ∧ b = name
  | _ => False

instance (p : ℕ) (name : Name) : (pc : CreationPc) → Decidable (pc.Inserting p name)
  | .insert _ q _ b => inferInstanceAs (Decidable (q = p ∧ b = name))
  | .resolve | .check _ | .acquire _ _ | .scan _ _ | .release _ _ | .done _ => isFalse id

/-- The call has inserted its child. -/
def CreationPc.Inserted : CreationPc → Prop
  | .release _ _ | .done (.ok ()) => True
  | _ => False

namespace VfsCreation

variable (c : VfsCreation)

/-- One step of a call. On `-EEXIST` from the search the lock is kept. -/
def step : CreationPc → VfsM CreationPc
  | .resolve => do
    let r ← attempt (vfsFindDentry c.path c.rel true)
    match r with
    | .error e => pure (.done (.error e))
    | .ok parent => pure (.check parent)
  | .check parent => do
    let d ← getDentry parent
    let vnode ← deref d.vnode
    let x ← getVnode vnode
    let _ ← deref x.ops
    let files ← deref (vfsParsePath c.path)
    let child ← deref files.getLast?
    let found ← attempt (vfsFindChild parent child)
    match found with
    | .ok _ => pure (.done (.error (-eexist)))
    | .error _ => pure (.acquire vnode child)
  | .acquire node name => do
    acquireVnode node
    pure (.scan node name)
  | .scan node name => do
    let x ← getVnode node
    let tnode ← deref x.privateData
    let vfs ← deref x.currVfs
    let found ← tmpfsHasFile tnode name
    if found then pure (.done (.error (-eexist))) else pure (.insert node tnode vfs name)
  | .insert node tnode vfs name => do
    tmpfsInsert c.fmt tnode vfs name c.flags
    pure (.release node name)
  | .release node _ => do
    releaseVnode node
    pure (.done (.ok ()))
  | .done _ => deref none

/-- The steps of a call one after another, at most `n` of them. -/
def run : ℕ → CreationPc → VfsM Unit
  | _, .done (.ok ()) => pure ()
  | _, .done (.error e) => throw e
  | 0, _ => deref none
  | n + 1, pc => do
    let pc ← c.step pc
    run n pc

theorem run_release (node : ℕ) (name : Name) : c.run 1 (.release node name) = releaseVnode node := by
  show ((do
    releaseVnode node
    pure (.done (.ok ()))) >>= c.run 0) = releaseVnode node
  rw [bind_bind]
  exact bind_pure_unit _

theorem run_scan (node : ℕ) (name : Name) :
    c.run 3 (.scan node name) = (do
      let x ← getVnode node
      let tnode ← deref x.privateData
      let vfs ← deref x.currVfs
      let found ← tmpfsHasFile tnode name
      if found then throw (-eexist)
      else do
        tmpfsInsert c.fmt tnode vfs name c.flags
        releaseVnode node) := by
  show (c.step (.scan node name) >>= c.run 2) = _
  simp only [step, bind_bind]
  refine bind_congr fun x => bind_congr fun tnode => bind_congr fun vfs => bind_congr fun found => ?_
  cases found with
  | true => rfl
  | false =>
    show (c.step (.insert node tnode vfs name) >>= c.run 1) = _
    rw [step, bind_bind]
    exact bind_congr fun _ => c.run_release node name

theorem run_check (parent : ℕ) :
    c.run 5 (.check parent) = (do
      let d ← getDentry parent
      let vnode ← deref d.vnode
      let x ← getVnode vnode
      let _ ← deref x.ops
      let files ← deref (vfsParsePath c.path)
      let child ← deref files.getLast?
      let found ← attempt (vfsFindChild parent child)
      match found with
      | .ok _ => throw (-eexist)
      | .error _ => tmpfsAdd c.fmt vnode child c.flags) := by
  show (c.step (.check parent) >>= c.run 4) = _
  simp only [step, bind_bind]
  refine bind_congr fun d => bind_congr fun vnode => bind_congr fun x => bind_congr fun _ =>
    bind_congr fun files => bind_congr fun child => bind_congr fun found => ?_
  cases found with
  | ok d => rfl
  | error e =>
    show (c.step (.acquire vnode child) >>= c.run 3) = _
    rw [step, bind_bind, tmpfsAdd_eq]
    exact bind_congr fun _ => c.run_scan vnode child

/-- **The steps of a call** are the call, if nobody comes in between. -/
theorem run_eq : c.run 6 .resolve = vfsAdd (tmpfsAdd c.fmt) c.path c.rel c.flags := by
  show (c.step .resolve >>= c.run 5) = _
  rw [step, bind_bind, vfsAdd]
  refine Eq.trans ?_ (attempt_bind (vfsFindDentry c.path c.rel true) _)
  refine bind_congr fun r => ?_
  cases r with
  | error e => rfl
  | ok parent => exact c.run_check parent

/-- The path starts from a dentry. -/
def Permitted (s : VfsState) : CreationPc → Prop
  | .resolve => VfsSys.ValidRel s c.rel
  | _ => True

instance (s : VfsState) : (pc : CreationPc) → Decidable (c.Permitted s pc)
  | .resolve => inferInstanceAs (Decidable (VfsSys.ValidRel s c.rel))
  | .check _ | .acquire _ _ | .scan _ _ | .insert _ _ _ _ | .release _ _ | .done _ => isTrue trivial

/-- The two calls are for the same path. -/
def SamePath (c c' : VfsCreation) : Prop :=
  c.path = c'.path ∧ (c.path.head? = some slash ∨ c.rel = c'.rel)

end VfsCreation

/-! ### Threads -/

/-- The file system layer and the threads `ι`, each with its call. -/
structure VfsThreads (ι : Type) where
  fs : VfsState
  pc : ι → CreationPc

namespace VfsThreads

variable {ι : Type}

/-- All calls are still to be made. -/
def start (s : VfsState) : VfsThreads ι := ⟨s, fun _ => .resolve⟩

/-- One step of the thread `i`. There is none while it waits for a lock, and after its call. -/
def step [DecidableEq ι] (calls : ι → VfsCreation) (t : VfsThreads ι) (i : ι) :
    Option (VfsThreads ι) :=
  match (calls i).step (t.pc i) t.fs with
  | some (.ok pc, s) => some ⟨s, Function.update t.pc i pc⟩
  | _ => none

/-- Paths start from dentries. -/
def Permitted (calls : ι → VfsCreation) (t : VfsThreads ι) (i : ι) : Prop :=
  (calls i).Permitted t.fs (t.pc i)

/-- A search for a name is under the lock that everybody holds who is about to insert this name into
the same inode. -/
def ExcludedAt (t : VfsThreads ι) : CreationPc → Prop
  | .scan v name => ∀ p ∈ (t.fs.vnodes[v]?).bind Vnode.privateData, ∀ j,
      (t.pc j).Inserting p name → (t.pc j).held = some v
  | _ => True

/-- The next step of the thread `i` is not a search that misses what another thread is doing under
the lock of another vnode. -/
def Excluded (t : VfsThreads ι) (i : ι) : Prop := t.ExcludedAt (t.pc i)

instance [Fintype ι] (t : VfsThreads ι) : (pc : CreationPc) → Decidable (t.ExcludedAt pc)
  | .scan v name => inferInstanceAs (Decidable (∀ p ∈ (t.fs.vnodes[v]?).bind Vnode.privateData,
      ∀ j, (t.pc j).Inserting p name → (t.pc j).held = some v))
  | .resolve | .check _ | .acquire _ _ | .insert _ _ _ _ | .release _ _ | .done _ => isTrue trivial

instance (calls : ι → VfsCreation) (t : VfsThreads ι) (i : ι) : Decidable (Permitted calls t i) :=
  inferInstanceAs (Decidable ((calls i).Permitted t.fs (t.pc i)))

instance [Fintype ι] (t : VfsThreads ι) (i : ι) : Decidable (Excluded t i) :=
  inferInstanceAs (Decidable (t.ExcludedAt (t.pc i)))

/-- The children of every inode have distinct names, and of the calls for one path at most one
returned 0. -/
structure NamesUnique (calls : ι → VfsCreation) (t : VfsThreads ι) : Prop where
  siblings : ∀ (i : ℕ) (x : TmpfsInode), t.fs.inodes[i]? = some x →
    (x.children.map t.fs.nameOf).Nodup
  once : ∀ i j, t.pc i = .done (.ok ()) → t.pc j = .done (.ok ()) →
    (calls i).SamePath (calls j) → i = j

end VfsThreads

/-! ### What a path names -/

namespace VfsState

variable {u u' : VfsState} {p q v d : ℕ} {name name' : Name} {y : Vnode}

/-- What was resolved before still is. -/
structure Later (u u' : VfsState) : Prop where
  designates : ∀ {d i}, u.Designates d i → u'.Designates d i
  vnodeOf : ∀ {v i y}, u.VnodeOf v i y → u'.VnodeOf v i y
  resolve : ∀ {path files i parent j}, u.resolve path files i parent = .ok j →
    u'.resolve path files i parent = .ok j
  child : ∀ {p name c}, u.child p name = some c → u'.child p name = some c

theorem Later.start {rel : Option ℕ} {i : ℕ} (h : u.Later u') (hi : u.Start rel i) :
    u'.Start rel i := by
  cases rel with
  | none => exact hi
  | some d => exact h.designates hi

theorem Later.refl (u : VfsState) : u.Later u := ⟨id, id, id, id⟩

theorem Grows.later (h : u.Grows u') : u.Later u' where
  designates := h.designates
  vnodeOf := h.vnodeOf
  resolve hr := by
    rw [h.resolve]
    exact hr
  child hc := by
    rw [h.child]
    exact hc

theorem Added.later {mode : BitVec 16} (h : u.Added p name mode u') (ht : u.Tree)
    (hp : p < u.inodes.length) (habs : u.child p name = none) : u.Later u' where
  designates := h.designates
  vnodeOf := h.vnodeOf
  resolve := resolve_of_addedLeaf (h.addedLeaf ht hp habs)
  child {q b c} hc := by
    have hleaf := h.addedLeaf ht hp habs
    rw [hleaf.other q b ?_]
    · exact hc
    · rintro ⟨rfl, rfl⟩
      rw [habs] at hc
      simp at hc

/-- The inode that an absolute path designates does not depend on `rel`. -/
theorem resolve_absolute {path : List UInt8} {files : List Name} {i j : ℕ} {parent : Bool}
    (h : path.head? = some slash) : u.resolve path files i parent = u.resolve path files j parent := by
  simp only [resolve, h, if_true]

end VfsState

namespace VfsCreation

variable {c c' : VfsCreation} {u u' : VfsState} {p q : ℕ} {name name' : Name}

/-- The path names the child `name` of the inode `p`. -/
def Target (c : VfsCreation) (u : VfsState) (p : ℕ) (name : Name) : Prop :=
  ∃ files i, vfsParsePath c.path = some files ∧ u.Start c.rel i ∧
    u.resolve c.path files i true = .ok p ∧ files.getLast? = some name

theorem Target.later (h : c.Target u p name) (hu : u.Later u') : c.Target u' p name := by
  obtain ⟨files, i, hfiles, hi, hr, hlast⟩ := h
  exact ⟨files, i, hfiles, hu.start hi, hu.resolve hr, hlast⟩

/-- One path names one child. -/
theorem Target.unique (h : c.Target u p name) (h' : c'.Target u q name') (hc : c.SamePath c') :
    p = q ∧ name = name' := by
  obtain ⟨files, i, hfiles, hi, hr, hlast⟩ := h
  obtain ⟨files', j, hfiles', hj, hr', hlast'⟩ := h'
  obtain ⟨hpath, hrel⟩ := hc
  rw [← hpath] at hfiles' hr'
  obtain rfl := Option.some.inj (hfiles.symm.trans hfiles')
  refine ⟨?_, Option.some.inj (hlast.symm.trans hlast')⟩
  rcases hrel with habs | hrel
  · rw [resolve_absolute habs (j := j)] at hr
    exact Except.ok.inj (hr.symm.trans hr')
  · rw [← hrel] at hj
    obtain rfl := hi.unique hj
    exact Except.ok.inj (hr.symm.trans hr')

theorem SamePath.refl (c : VfsCreation) : c.SamePath c := ⟨rfl, Or.inr rfl⟩

end VfsCreation

/-! ### What a step does

`u` is the file system layer without the locks `H` that threads hold. -/

namespace VfsCreation

variable {c : VfsCreation} {u s s' : VfsState} {H : ℕ → Bool} {pc : CreationPc} {p v d : ℕ}
  {name : Name} {y : Vnode} {x : TmpfsInode}

/-- **Resolving the parent.** -/
theorem step_resolve (hu : u.VfsInv) (hs : LockedBy H s u) (hrel : VfsSys.ValidRel s c.rel)
    (h : c.step .resolve s = some (.ok pc, s')) :
    ∃ u', u.Grows u' ∧ u'.VfsInv ∧ LockedBy H s' u' ∧ ((∃ e, pc = .done (.error e)) ∨
      ∃ d p name, pc = .check d ∧ c.Target u' p name ∧ u'.Designates d p) := by
  rcases bind_eq_some h with ⟨e, hm, -⟩ | ⟨r, s₁, hm, hrest⟩
  · obtain ⟨r, hr, -⟩ := attempt_eq_some hm
    simp at hr
  · obtain ⟨r, heq, hm⟩ := attempt_eq_some hm
    obtain rfl := Except.ok.inj heq
    obtain ⟨r', u₁, hu₁, hs₁, hagree⟩ := sim_vfsFindDentry c.path c.rel true _ _ _ _ hs hm
    obtain rfl := hagree.eq
    obtain rfl := hs.eq
    cases hfiles : vfsParsePath c.path with
    | none =>
      rw [VfsSys.vfsFindDentry_none hfiles] at hu₁
      simp at hu₁
    | some files =>
      obtain ⟨i, hi⟩ : ∃ i, u.Start c.rel i := VfsSys.ValidRel.start hrel hu
      obtain ⟨u₂, hgrow, hu₂, hfind⟩ := hu.findDentry true hi hfiles
      cases hr : u.resolve c.path files i true with
      | error e =>
        rw [hr] at hfind
        obtain ⟨rfl, rfl⟩ := Prod.mk.inj (Option.some.inj (hu₁.symm.trans hfind))
        obtain ⟨rfl, rfl⟩ := eq_of_pure hrest
        exact ⟨u₁, hgrow, hu₂, hs₁, Or.inl ⟨e, rfl⟩⟩
      | ok p =>
        rw [hr] at hfind
        obtain ⟨d, hfind, hd, -⟩ := hfind
        obtain ⟨rfl, rfl⟩ := Prod.mk.inj (Option.some.inj (hu₁.symm.trans hfind))
        obtain ⟨rfl, rfl⟩ := eq_of_pure hrest
        obtain ⟨name, hlast⟩ := exists_last_of_resolve hr
        exact ⟨u₁, hgrow, hu₂, hs₁, Or.inr ⟨d, p, name, rfl,
          ⟨files, i, hfiles, hgrow.start hi, hgrow.later.resolve hr, hlast⟩, hd⟩⟩

theorem getElem?_of_vnodeOf (hs : LockedBy H s u) (hy : u.VnodeOf v p y) :
    s.vnodes[v]? = some (relock H v y) := by
  rw [hs.eq, getElem?_withLocks, hy.get]
  rfl

/-- **Checking for the child.** -/
theorem step_check (hu : u.VfsInv) (hs : LockedBy H s u) (ht : c.Target u p name)
    (hd : u.Designates d p) (h : c.step (.check d) s = some (.ok pc, s')) :
    ∃ u', u.Grows u' ∧ u'.VfsInv ∧ LockedBy H s' u' ∧ (pc = .done (.error (-eexist)) ∨
      ∃ v y, pc = .acquire v name ∧ u'.VnodeOf v p y) := by
  have hd' := hd
  obtain ⟨files, i, hfiles, -, -, hlast⟩ := ht
  obtain ⟨e, v, y, he, hv, hy⟩ := hd
  have he' : s.dentries[d]? = some e := by
    rw [hs.eq]
    exact he
  have hops : (relock H v y).ops = some .tmpfsOperations := hy.ops
  rw [step, bind_ok (getDentry_ok he'), hv, bind_ok (deref_some v s),
    bind_ok (getVnode_ok (getElem?_of_vnodeOf hs hy)), hops, bind_ok (deref_some _ s), hfiles,
    bind_ok (deref_some files s), hlast, bind_ok (deref_some name s)] at h
  rcases bind_eq_some h with ⟨e, hm, -⟩ | ⟨r, s₁, hm, hrest⟩
  · obtain ⟨r, hr, -⟩ := attempt_eq_some hm
    simp at hr
  · obtain ⟨r, heq, hm⟩ := attempt_eq_some hm
    obtain rfl := Except.ok.inj heq
    obtain ⟨r', u₁, hu₁, hs₁, hagree⟩ := sim_vfsFindChild d name _ _ _ _ hs hm
    obtain rfl := hagree.eq
    have hchild := hu.findChild name hd'
    split at hchild
    · obtain ⟨d', u₂, hchild, hgrow, hu₂, -⟩ := hchild
      obtain ⟨rfl, rfl⟩ := Prod.mk.inj (Option.some.inj (hu₁.symm.trans hchild))
      obtain ⟨rfl, rfl⟩ := eq_of_pure hrest
      exact ⟨u₁, hgrow, hu₂, hs₁, Or.inl rfl⟩
    · obtain ⟨rfl, rfl⟩ := Prod.mk.inj (Option.some.inj (hu₁.symm.trans hchild))
      obtain ⟨rfl, rfl⟩ := eq_of_pure hrest
      exact ⟨u₁, Grows.refl u₁, hu, hs₁, Or.inr ⟨v, y, rfl, hy⟩⟩

/-- Writing the lock of one vnode. -/
theorem setVnode_withLocks (hs : LockedBy H s u) (hy : u.VnodeOf v p y) (b : Bool) :
    LockedBy (Function.update H v b) { s with vnodes := s.vnodes.set v { relock H v y with lock := b } }
      u := by
  have hlt := (List.getElem?_eq_some_iff.mp hy.get).1
  obtain ⟨rfl, hH⟩ := hs
  refine ⟨?_, fun w hw => ?_⟩
  · have hvnodes : (u.withLocks H).vnodes.set v { relock H v y with lock := b } =
        (u.withLocks (Function.update H v b)).vnodes := by
      refine List.ext_getElem? fun w => ?_
      rw [getElem?_withLocks]
      rcases eq_or_ne w v with rfl | hw
      · rw [List.getElem?_set_self (by simpa [withLocks] using hlt), hy.get]
        simp [relock, hy.lock]
      · have hother : relock (Function.update H v b) w = relock H w := by
          funext z
          rw [relock, relock, Function.update_of_ne hw]
        rw [List.getElem?_set_ne hw.symm, getElem?_withLocks, hother]
    rw [hvnodes]
    rfl
  · rcases eq_or_ne w v with rfl | hne
    · exact hlt
    · exact hH w (by rwa [Function.update_of_ne hne] at hw)

/-- **Taking the lock**, which is free. -/
theorem step_acquire (hs : LockedBy H s u) (hy : u.VnodeOf v p y)
    (h : c.step (.acquire v name) s = some (.ok pc, s')) :
    H v = false ∧ pc = .scan v name ∧ LockedBy (Function.update H v true) s' u := by
  have hget := getElem?_of_vnodeOf hs hy
  by_cases hlock : (relock H v y).lock = true
  · rw [step, acquireVnode, bind_bind, bind_ok (getVnode_ok hget), if_pos hlock] at h
    exact absurd h (by rw [bind_none rfl]; simp)
  · have hfree : H v = false := by
      rw [Bool.not_eq_true, relock, hy.lock, Bool.or_false] at hlock
      exact hlock
    rw [step, acquireVnode, bind_bind, bind_ok (getVnode_ok hget), if_neg hlock,
      bind_ok (setVnode_ok _)] at h
    obtain ⟨rfl, rfl⟩ := eq_of_pure h
    exact ⟨hfree, rfl, setVnode_withLocks hs hy true⟩

theorem tree_of_lockedBy (hs : LockedBy H s u) (ht : u.Tree) : s.Tree := by
  obtain ⟨rfl, -⟩ := hs
  exact ⟨ht.root, ht.number, ht.child_lt, ht.names, ht.parent, ht.unique⟩

theorem step_scan_eq (hu : u.VfsInv) (hs : LockedBy H s u) (hy : u.VnodeOf v p y) :
    c.step (.scan v name) s = some (.ok (if (u.child p name).isSome then .done (.error (-eexist))
      else .insert v p 0 name), s) := by
  obtain ⟨x, hx, -⟩ := hy.mode
  have hx' : s.inodes[p]? = some x := by
    rw [hs.eq]
    exact hx
  have hchild : s.child p name = u.child p name := by
    rw [hs.eq]
    rfl
  have hdata : (relock H v y).privateData = some p := hy.privateData
  have hvfs : (relock H v y).currVfs = some 0 := hy.currVfs
  rw [step, bind_ok (getVnode_ok (getElem?_of_vnodeOf hs hy)), hdata, bind_ok (deref_some p s), hvfs,
    bind_ok (deref_some 0 s), bind_ok ((tree_of_lockedBy hs hu.tree).hasFile hx'), hchild]
  split
  · rfl
  · rfl

/-- **Searching for the name.** -/
theorem step_scan (hu : u.VfsInv) (hs : LockedBy H s u) (hy : u.VnodeOf v p y)
    (h : c.step (.scan v name) s = some (.ok pc, s')) :
    s' = s ∧ (pc = .done (.error (-eexist)) ∨ pc = .insert v p 0 name ∧ u.child p name = none) := by
  rw [step_scan_eq hu hs hy] at h
  obtain ⟨rfl, rfl⟩ := eq_of_pure h
  refine ⟨rfl, ?_⟩
  split
  · exact Or.inl rfl
  · next hnone => exact Or.inr ⟨rfl, Option.not_isSome_iff_eq_none.mp hnone⟩

theorem step_insert_eq {cache : Hashmap ℕ ℕ} (hm : u.Mounted cache) (hx : u.inodes[p]? = some x) :
    c.step (.insert v p 0 name) (u.withLocks H) = some (.ok (.release v name),
      (u.inserted p x name (c.flags &&& ~~~sIfmt ||| c.fmt) cache).withLocks H) := by
  have hinsert : tmpfsInsert c.fmt p 0 name c.flags (u.withLocks H) = _ :=
    tmpfsInsert_ok (s := u.withLocks H) hx hm.1 hm.2.1 c.fmt c.flags
  rw [step, bind_ok hinsert]
  rfl

/-- **Inserting the child.** -/
theorem step_insert (hu : u.VfsInv) (hs : LockedBy H s u) (hx : u.inodes[p]? = some x)
    (h : c.step (.insert v p 0 name) s = some (.ok pc, s')) :
    ∃ u', u.Added p name (c.flags &&& ~~~sIfmt ||| c.fmt) u' ∧ LockedBy H s' u' ∧
      pc = .release v name := by
  obtain ⟨cache, hm⟩ := hu.mounted
  obtain ⟨rfl, hH⟩ := hs
  rw [step_insert_eq hm hx] at h
  obtain ⟨rfl, rfl⟩ := eq_of_pure h
  exact ⟨_, added_inserted hx hm _, ⟨rfl, hH⟩, rfl⟩

/-- **Releasing the lock.** -/
theorem step_release (hs : LockedBy H s u) (hy : u.VnodeOf v p y)
    (h : c.step (.release v name) s = some (.ok pc, s')) :
    pc = .done (.ok ()) ∧ LockedBy (Function.update H v false) s' u := by
  rw [step, releaseVnode, bind_bind, bind_ok (getVnode_ok (getElem?_of_vnodeOf hs hy)),
    bind_ok (setVnode_ok _)] at h
  obtain ⟨rfl, rfl⟩ := eq_of_pure h
  exact ⟨rfl, setVnode_withLocks hs hy false⟩

end VfsCreation

end GoofyOs
