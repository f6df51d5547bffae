import GoofyOs.ForMathlib.PathWalk
import GoofyOs.Vfs
import Mathlib.Data.List.Induction

/-!
# The tree of inodes

The inodes form a tree with named edges, and resolving a path walks down this tree. The invariant
also says that the caches hold what `vfs_init` put there and nothing else, that no lock is held, and
that every dentry leads to the vnode of an inode.

## Main definitions

* `VfsState.Tree` — the inodes form a tree, and are numbered in order
* `VfsState.VfsInv` — the invariant
* `VfsState.child`, `VfsState.descend` — the tree, and walking down in it
* `VfsState.Designates` — a dentry leads to an inode

## Main results

* `VfsState.Tree.child_bounds` — children come after their parents
* `VfsState.Tree.walk_inj` — one path from an inode to another
* `VfsState.Grows.vfsInv` — allocating vnodes and dentries keeps the invariant
-/

namespace GoofyOs

open Proc PathWalk

namespace VfsState

variable {s s' s'' : VfsState} {i j n v d : ℕ} {name : Name} {files : List Name} {x : TmpfsInode}
  {y : Vnode}

/-! ### The tree -/

/-- The name of an inode. -/
def nameOf (s : VfsState) (c : ℕ) : Option Name := (s.inodes[c]?).map TmpfsInode.name

/-- The first child of an inode with a name. -/
def child (s : VfsState) (i : ℕ) (name : Name) : Option ℕ :=
  (s.inodes[i]?).bind fun x => x.children.find? fun c => s.nameOf c = some name

/-- The inode that a list of components leads to. The component `.` stays where it is. -/
def descend (s : VfsState) (i : ℕ) (files : List Name) : Option ℕ :=
  walk s.child i (files.filter (· ≠ dot))

/-- The inodes form a tree with distinct names below each inode. They are numbered in order, and
children come after their parents. -/
structure Tree (s : VfsState) : Prop where
  root : 0 < s.inodes.length
  number : ∀ {i : ℕ} {x : TmpfsInode}, s.inodes[i]? = some x → x.number = i
  child_lt : ∀ {i c : ℕ} {x : TmpfsInode}, s.inodes[i]? = some x → c ∈ x.children →
    i < c ∧ c < s.inodes.length
  names : ∀ {i : ℕ} {x : TmpfsInode}, s.inodes[i]? = some x → (x.children.map s.nameOf).Nodup
  parent : ∀ {c : ℕ}, 0 < c → c < s.inodes.length →
    ∃ (i : ℕ) (x : TmpfsInode), s.inodes[i]? = some x ∧ c ∈ x.children
  unique : ∀ {i j c : ℕ} {x y : TmpfsInode}, s.inodes[i]? = some x → s.inodes[j]? = some y → c ∈ x.children →
    c ∈ y.children → i = j

theorem child_of_getElem? (hx : s.inodes[i]? = some x) :
    s.child i name = x.children.find? fun c => s.nameOf c = some name := by
  rw [child, hx]
  rfl

theorem exists_of_child {c : ℕ} (h : s.child i name = some c) :
    ∃ x : TmpfsInode, s.inodes[i]? = some x ∧ c ∈ x.children ∧ s.nameOf c = some name := by
  obtain ⟨x, hx, hfind⟩ := Option.bind_eq_some_iff.mp h
  exact ⟨x, hx, List.mem_of_find?_eq_some hfind, by simpa using List.find?_some hfind⟩

theorem Tree.child_bounds (h : s.Tree) {c : ℕ} (hc : s.child i name = some c) :
    i < c ∧ c < s.inodes.length := by
  obtain ⟨x, hx, hmem, -⟩ := exists_of_child hc
  exact h.child_lt hx hmem

theorem descend_dot : s.descend i (dot :: files) = s.descend i files := by
  rw [descend, List.filter_cons_of_neg (by simp)]
  rfl

theorem descend_cons (h : name ≠ dot) :
    s.descend i (name :: files) = (s.child i name).bind fun j => s.descend j files := by
  rw [descend, List.filter_cons_of_pos (by simpa using h), walk_cons]
  rfl

theorem Tree.walk_le (h : s.Tree) (hw : walk s.child i files = some j) : i ≤ j := by
  induction files generalizing i with
  | nil => exact Nat.le_of_eq (Option.some.inj hw)
  | cons name files ih =>
    obtain ⟨k, hk, hw⟩ := Option.bind_eq_some_iff.mp (walk_cons ▸ hw)
    exact Nat.le_trans (Nat.le_of_lt (h.child_bounds hk).1) (ih hw)

/-- **Two walks** to the same inode are the same. -/
theorem Tree.walk_inj (h : s.Tree) {files' : List Name} (hw : walk s.child i files = some j)
    (hw' : walk s.child i files' = some j) : files = files' := by
  -- nothing leads back to where a walk starts
  have hback : ∀ {k b p}, walk s.child i p = some k → s.child k b ≠ some i := by
    intro k b p hp hk
    have := h.walk_le hp
    have := (h.child_bounds hk).1
    omega
  induction files using List.reverseRecOn generalizing j files' with
  | nil =>
    obtain rfl := Option.some.inj hw
    cases files' using List.reverseRecOn with
    | nil => rfl
    | append_singleton q b =>
      obtain ⟨k, hq, hk⟩ := Option.bind_eq_some_iff.mp (walk_concat ▸ hw')
      exact absurd hk (hback hq)
  | append_singleton p a ih =>
    obtain ⟨k, hp, hk⟩ := Option.bind_eq_some_iff.mp (walk_concat ▸ hw)
    cases files' using List.reverseRecOn with
    | nil =>
      obtain rfl := Option.some.inj hw'
      exact absurd hk (hback hp)
    | append_singleton q b =>
      obtain ⟨k', hq, hk'⟩ := Option.bind_eq_some_iff.mp (walk_concat ▸ hw')
      obtain ⟨x, hx, hmem, ha⟩ := exists_of_child hk
      obtain ⟨x', hx', hmem', hb⟩ := exists_of_child hk'
      obtain rfl := h.unique hx hx' hmem hmem'
      obtain rfl := Option.some.inj (ha.symm.trans hb)
      rw [ih hp hq]

/-! ### The vnodes -/

/-- The vnode `v` is one of the inode `i`, and nobody holds its lock. The inode of the root has no
mode. -/
structure VnodeOf (s : VfsState) (v i : ℕ) (y : Vnode) : Prop where
  get : s.vnodes[v]? = some y
  lock : y.lock = false
  ops : y.ops = some .tmpfsOperations
  currVfs : y.currVfs = some 0
  privateData : y.privateData = some i
  number : y.number = i
  mode : ∃ x : TmpfsInode, s.inodes[i]? = some x ∧ y.mode = if i = 0 then sIfdir ||| 0x1ff else x.mode

/-- The dentry `d` leads to the inode `i`. -/
def Designates (s : VfsState) (d i : ℕ) : Prop :=
  ∃ (e : Dentry) (v : ℕ) (y : Vnode), s.dentries[d]? = some e ∧ e.vnode = some v ∧ s.VnodeOf v i y

theorem Designates.unique (h : s.Designates d i) (h' : s.Designates d j) : i = j := by
  obtain ⟨e, v, y, he, hv, hy⟩ := h
  obtain ⟨e', v', y', he', hv', hy'⟩ := h'
  obtain rfl := Option.some.inj (he.symm.trans he')
  obtain rfl := Option.some.inj (hv.symm.trans hv')
  obtain rfl := Option.some.inj (hy.get.symm.trans hy'.get)
  exact hy.number.symm.trans hy'.number

/-- The file system that is mounted: its numbers and its index of inodes are those of the tree. -/
def Mounted (s : VfsState) (cache : Hashmap ℕ ℕ) : Prop :=
  s.vfss = [⟨false, some ⟨s.inodes.length, cache⟩⟩] ∧ cache.Fixed ∧
    ∀ n, cache.hmapLookup n = if n < s.inodes.length then some n else none

/-- The buffer of a file has room for its contents. -/
def Fits (x : TmpfsInode) : Prop :=
  x.length ≤ x.effectiveLength ∧ x.data.length = x.effectiveLength

/-- The invariant. -/
structure VfsInv (s : VfsState) : Prop where
  tree : s.Tree
  fits : ∀ {i : ℕ} {x : TmpfsInode}, s.inodes[i]? = some x → Fits x
  mounted : ∃ cache, s.Mounted cache
  vnodeCache : ∀ n, s.vnodeCache.hmapLookup ⟨some 0, n⟩ = if n = 0 then some 0 else none
  dentryCache : ∀ d name, s.dentryCache.hmapLookup ⟨some d, name⟩ = none
  dentry : ∀ d < s.dentries.length, ∃ i, s.Designates d i
  globalRoot : ∃ d, s.globalRoot = some d ∧ s.Designates d 0

theorem getElem?_of_isPrefix {α : Type} {l l' : List α} {a : α} {k : ℕ} (h : l <+: l')
    (ha : l[k]? = some a) : l'[k]? = some a := by
  obtain ⟨t, rfl⟩ := h
  rw [List.getElem?_append_left (List.getElem?_eq_some_iff.mp ha).1]
  exact ha

/-- Vnodes and dentries were allocated, and nothing else changed. -/
structure Grows (s s' : VfsState) : Prop where
  inodes : s'.inodes = s.inodes
  vfss : s'.vfss = s.vfss
  vnodeCache : s'.vnodeCache = s.vnodeCache
  dentryCache : s'.dentryCache = s.dentryCache
  globalRoot : s'.globalRoot = s.globalRoot
  vnodes : s.vnodes <+: s'.vnodes
  dentries : s.dentries <+: s'.dentries

namespace Grows

theorem refl (s : VfsState) : s.Grows s :=
  ⟨rfl, rfl, rfl, rfl, rfl, List.prefix_rfl, List.prefix_rfl⟩

theorem trans (h : s.Grows s') (h' : s'.Grows s'') : s.Grows s'' where
  inodes := h'.inodes.trans h.inodes
  vfss := h'.vfss.trans h.vfss
  vnodeCache := h'.vnodeCache.trans h.vnodeCache
  dentryCache := h'.dentryCache.trans h.dentryCache
  globalRoot := h'.globalRoot.trans h.globalRoot
  vnodes := h.vnodes.trans h'.vnodes
  dentries := h.dentries.trans h'.dentries

theorem child (h : s.Grows s') : s'.child = s.child := by
  funext i name
  rw [VfsState.child, VfsState.child, h.inodes]
  refine congrArg _ (funext fun x => ?_)
  congr 1
  funext c
  rw [nameOf, nameOf, h.inodes]

theorem descend (h : s.Grows s') : s'.descend = s.descend := by
  funext i files
  rw [VfsState.descend, VfsState.descend, h.child]

theorem vnodeOf (h : s.Grows s') (hy : s.VnodeOf v i y) : s'.VnodeOf v i y where
  get := getElem?_of_isPrefix h.vnodes hy.get
  lock := hy.lock
  ops := hy.ops
  currVfs := hy.currVfs
  privateData := hy.privateData
  number := hy.number
  mode := by
    rw [h.inodes]
    exact hy.mode

theorem designates (h : s.Grows s') (hd : s.Designates d i) : s'.Designates d i := by
  obtain ⟨e, v, y, he, hv, hy⟩ := hd
  exact ⟨e, v, y, getElem?_of_isPrefix h.dentries he, hv, h.vnodeOf hy⟩

theorem tree (h : s.Grows s') (ht : s.Tree) : s'.Tree := by
  have hname : s'.nameOf = s.nameOf := by
    funext c
    rw [nameOf, nameOf, h.inodes]
  constructor
  · rw [h.inodes]
    exact ht.root
  · rw [h.inodes]
    exact ht.number
  · rw [h.inodes]
    exact ht.child_lt
  · rw [h.inodes, hname]
    exact ht.names
  · rw [h.inodes]
    exact ht.parent
  · rw [h.inodes]
    exact ht.unique

/-- The invariant is kept if the new dentries lead to inodes. -/
theorem vfsInv (h : s.Grows s') (hs : s.VfsInv)
    (hnew : ∀ d, s.dentries.length ≤ d → d < s'.dentries.length → ∃ i, s'.Designates d i) :
    s'.VfsInv where
  tree := h.tree hs.tree
  fits := by
    rw [h.inodes]
    exact hs.fits
  mounted := by
    obtain ⟨cache, hcache⟩ := hs.mounted
    refine ⟨cache, ?_⟩
    rw [Mounted, h.vfss, h.inodes]
    exact hcache
  vnodeCache := by
    rw [h.vnodeCache]
    exact hs.vnodeCache
  dentryCache := by
    rw [h.dentryCache]
    exact hs.dentryCache
  dentry d hd := by
    by_cases hold : d < s.dentries.length
    · obtain ⟨i, hi⟩ := hs.dentry d hold
      exact ⟨i, h.designates hi⟩
    · exact hnew d (Nat.le_of_not_lt hold) hd
  globalRoot := by
    obtain ⟨d, hd, hroot⟩ := hs.globalRoot
    rw [h.globalRoot]
    exact ⟨d, hd, h.designates hroot⟩

end Grows

end VfsState

end GoofyOs
