import GoofyOs.VfsLookup
import Mathlib.Data.List.Find
import Mathlib.Data.List.Nodup

/-!
# Adding inodes

`vfs_mkdir` and `vfs_create` add a leaf to the tree of inodes, or return an error code and leave the
tree alone.

## Main definitions

* `VfsState.Added` — an inode was added under an inode
* `VfsState.AddTarget` — the path names a child that is not there yet

## Main results

* `VfsState.Added.addedLeaf`, `VfsState.Added.vfsInv` — the tree gets a leaf, and the invariant is kept
* `VfsState.VfsInv.vfsAdd_ok`, `VfsState.VfsInv.vfsAdd_error` — what `vfs_mkdir` and `vfs_create` do
* `VfsState.AddTarget.resolve_new`, `VfsState.resolve_of_addedLeaf` — how paths resolve afterwards
-/

namespace GoofyOs

open Proc PathWalk

namespace VfsState

variable {s s' s'' : VfsState} {i j n v d : ℕ} {name : Name} {files : List Name} {x : TmpfsInode}
  {y : Vnode} {mode : BitVec 16} {cache : Hashmap ℕ ℕ}

/-! ### What adding an inode does -/

/-- An inode was added under the inode `i`: it has the next number, and nothing else changed. -/
structure Added (s : VfsState) (i : ℕ) (name : Name) (mode : BitVec 16) (s' : VfsState) :
    Prop where
  length : s'.inodes.length = s.inodes.length + 1
  new : s'.inodes[s.inodes.length]? = some ⟨name, [], [], s.inodes.length, 0, 0, mode⟩
  old : ∀ {j : ℕ} {x : TmpfsInode}, s.inodes[j]? = some x → s'.inodes[j]? =
    some (if j = i then { x with children := x.children ++ [s.inodes.length] } else x)
  mounted : ∃ cache, s'.Mounted cache
  vnodes : s'.vnodes = s.vnodes
  dentries : s'.dentries = s.dentries
  vnodeCache : s'.vnodeCache = s.vnodeCache
  dentryCache : s'.dentryCache = s.dentryCache
  globalRoot : s'.globalRoot = s.globalRoot

namespace Added

/-- Where an inode of the new state comes from. -/
theorem cases (h : s.Added i name mode s') (hx : s'.inodes[j]? = some x) :
    (j = s.inodes.length ∧ x = ⟨name, [], [], s.inodes.length, 0, 0, mode⟩) ∨
      ∃ x₀, s.inodes[j]? = some x₀ ∧
        x = if j = i then { x₀ with children := x₀.children ++ [s.inodes.length] } else x₀ := by
  have hlt := (List.getElem?_eq_some_iff.mp hx).1
  rw [h.length] at hlt
  by_cases hj : j = s.inodes.length
  · subst hj
    exact Or.inl ⟨rfl, Option.some.inj (hx.symm.trans h.new)⟩
  · have hget : s.inodes[j]? = some s.inodes[j] := List.getElem?_eq_getElem (by omega)
    exact Or.inr ⟨_, hget, Option.some.inj (hx.symm.trans (h.old hget))⟩

theorem nameOf (h : s.Added i name mode s') {c : ℕ} (hc : c < s.inodes.length) :
    s'.nameOf c = s.nameOf c := by
  have hget : s.inodes[c]? = some s.inodes[c] := List.getElem?_eq_getElem hc
  rw [VfsState.nameOf, VfsState.nameOf, h.old hget, hget]
  split
  · rfl
  · rfl

theorem nameOf_new (h : s.Added i name mode s') : s'.nameOf s.inodes.length = some name := by
  rw [VfsState.nameOf, h.new]
  rfl

/-- The names below an inode that was there. -/
theorem find?_children (h : s.Added i name mode s') (ht : s.Tree) (hx : s.inodes[j]? = some x)
    (b : Name) : (x.children.find? fun c => s'.nameOf c = some b) = s.child j b := by
  rw [child_of_getElem? hx]
  refine List.find?_congr fun c hc => ?_
  rw [h.nameOf (ht.child_lt hx hc).2]

/-- **Adding an inode** adds a leaf to the tree. -/
theorem addedLeaf (h : s.Added i name mode s') (ht : s.Tree) (hi : i < s.inodes.length)
    (habs : s.child i name = none) :
    AddedLeaf s.child s'.child i name s.inodes.length where
  absent := habs
  self := by
    have hget : s.inodes[i]? = some s.inodes[i] := List.getElem?_eq_getElem hi
    have hget' := h.old hget
    rw [if_pos rfl] at hget'
    rw [child_of_getElem? hget', List.find?_append, h.find?_children ht hget, habs, Option.none_or]
    simp [h.nameOf_new]
  other j b hne := by
    by_cases hj : j < s.inodes.length
    · have hget : s.inodes[j]? = some s.inodes[j] := List.getElem?_eq_getElem hj
      have hget' := h.old hget
      by_cases hji : j = i
      · subst hji
        rw [if_pos rfl] at hget'
        have hb : ¬ name = b := fun heq => hne ⟨rfl, heq.symm⟩
        rw [child_of_getElem? hget', List.find?_append, h.find?_children ht hget]
        simp [h.nameOf_new, hb]
      · rw [if_neg hji] at hget'
        rw [child_of_getElem? hget', h.find?_children ht hget]
    · have hnone : s.child j b = none := by
        rw [child, List.getElem?_eq_none (Nat.le_of_not_lt hj)]
        rfl
      rw [hnone]
      by_cases hjn : j = s.inodes.length
      · subst hjn
        rw [child_of_getElem? h.new]
        rfl
      · rw [child, List.getElem?_eq_none (by rw [h.length]; omega)]
        rfl
  leaf b := by
    rw [child_of_getElem? h.new]
    rfl
  fresh j b heq := Nat.lt_irrefl _ (ht.child_bounds heq).2

theorem tree (h : s.Added i name mode s') (ht : s.Tree) (hi : i < s.inodes.length)
    (habs : s.child i name = none) : s'.Tree where
  root := by
    rw [h.length]
    exact Nat.succ_pos _
  number {j x} hx := by
    rcases h.cases hx with ⟨rfl, rfl⟩ | ⟨x₀, hx₀, rfl⟩
    · rfl
    · have := ht.number hx₀
      split
      · exact this
      · exact this
  child_lt {j c x} hx hc := by
    rw [h.length]
    rcases h.cases hx with ⟨rfl, rfl⟩ | ⟨x₀, hx₀, rfl⟩
    · simp at hc
    · have hlt := (List.getElem?_eq_some_iff.mp hx₀).1
      have hold : c ∈ x₀.children → j < c ∧ c < s.inodes.length + 1 := fun hc => by
        have := ht.child_lt hx₀ hc
        omega
      split at hc
      · rcases List.mem_append.mp hc with hc | hc
        · exact hold hc
        · obtain rfl := List.mem_singleton.mp hc
          omega
      · exact hold hc
  names {j x} hx := by
    rcases h.cases hx with ⟨rfl, rfl⟩ | ⟨x₀, hx₀, rfl⟩
    · exact List.nodup_nil
    · have hmap : x₀.children.map s'.nameOf = x₀.children.map s.nameOf :=
        List.map_congr_left fun c hc => h.nameOf (ht.child_lt hx₀ hc).2
      split
      · next hji =>
        subst hji
        show ((x₀.children ++ [s.inodes.length]).map s'.nameOf).Nodup
        rw [List.map_append, hmap, List.nodup_append]
        refine ⟨ht.names hx₀, List.nodup_singleton _, ?_⟩
        intro a ha b hb heq
        obtain ⟨c, hc, rfl⟩ := List.mem_map.mp ha
        obtain rfl : b = some name := by simpa [h.nameOf_new] using hb
        -- the name was not there
        rw [child_of_getElem? hx₀] at habs
        exact absurd heq (by simpa using List.find?_eq_none.mp habs c hc)
      · rw [hmap]
        exact ht.names hx₀
  parent {c} hpos hc := by
    rw [h.length] at hc
    by_cases hcn : c = s.inodes.length
    · subst hcn
      have hget : s.inodes[i]? = some s.inodes[i] := List.getElem?_eq_getElem hi
      refine ⟨i, _, h.old hget, ?_⟩
      rw [if_pos rfl]
      exact List.mem_append_right _ (List.mem_singleton_self _)
    · obtain ⟨j, x, hx, hmem⟩ := ht.parent hpos (by omega)
      refine ⟨j, _, h.old hx, ?_⟩
      split
      · exact List.mem_append_left _ hmem
      · exact hmem
  unique {j k c x z} hx hz hcx hcz := by
    -- the new inode is below `i` only, and the others are where they were
    have hparent : ∀ {j : ℕ} {x : TmpfsInode}, s'.inodes[j]? = some x → c ∈ x.children →
        (c = s.inodes.length ∧ j = i) ∨
          ∃ x₀ : TmpfsInode, s.inodes[j]? = some x₀ ∧ c ∈ x₀.children := by
      intro j x hx hc
      rcases h.cases hx with ⟨rfl, rfl⟩ | ⟨x₀, hx₀, rfl⟩
      · simp at hc
      · split at hc
        · next hji =>
          rcases List.mem_append.mp hc with hc | hc
          · exact Or.inr ⟨x₀, hx₀, hc⟩
          · exact Or.inl ⟨List.mem_singleton.mp hc, hji⟩
        · exact Or.inr ⟨x₀, hx₀, hc⟩
    rcases hparent hx hcx with ⟨rfl, rfl⟩ | ⟨x₀, hx₀, hc₀⟩
    · rcases hparent hz hcz with ⟨-, rfl⟩ | ⟨z₀, hz₀, hc₁⟩
      · rfl
      · exact absurd (ht.child_lt hz₀ hc₁).2 (Nat.lt_irrefl _)
    · rcases hparent hz hcz with ⟨rfl, -⟩ | ⟨z₀, hz₀, hc₁⟩
      · exact absurd (ht.child_lt hx₀ hc₀).2 (Nat.lt_irrefl _)
      · exact ht.unique hx₀ hz₀ hc₀ hc₁

theorem vnodeOf (h : s.Added i name mode s') (hy : s.VnodeOf v j y) : s'.VnodeOf v j y where
  get := by
    rw [h.vnodes]
    exact hy.get
  lock := hy.lock
  ops := hy.ops
  currVfs := hy.currVfs
  privateData := hy.privateData
  number := hy.number
  mode := by
    obtain ⟨x, hx, hmode⟩ := hy.mode
    refine ⟨_, h.old hx, ?_⟩
    rw [hmode]
    congr 1
    split
    · rfl
    · rfl

theorem designates (h : s.Added i name mode s') (hd : s.Designates d j) : s'.Designates d j := by
  obtain ⟨e, v, y, he, hv, hy⟩ := hd
  refine ⟨e, v, y, ?_, hv, h.vnodeOf hy⟩
  rw [h.dentries]
  exact he

/-- Adding an inode keeps the invariant. -/
theorem vfsInv (h : s.Added i name mode s') (hs : s.VfsInv) (hi : i < s.inodes.length)
    (habs : s.child i name = none) : s'.VfsInv where
  tree := h.tree hs.tree hi habs
  fits {j x} hx := by
    rcases h.cases hx with ⟨-, rfl⟩ | ⟨x₀, hx₀, rfl⟩
    · exact ⟨le_rfl, rfl⟩
    · have := hs.fits hx₀
      split
      · exact this
      · exact this
  mounted := h.mounted
  vnodeCache := by
    rw [h.vnodeCache]
    exact hs.vnodeCache
  dentryCache := by
    rw [h.dentryCache]
    exact hs.dentryCache
  dentry d hd := by
    rw [h.dentries] at hd
    obtain ⟨j, hj⟩ := hs.dentry d hd
    exact ⟨j, h.designates hj⟩
  globalRoot := by
    obtain ⟨d, hd, hroot⟩ := hs.globalRoot
    rw [h.globalRoot]
    exact ⟨d, hd, h.designates hroot⟩

end Added

/-! ### `tmpfs_mkdir` and `tmpfs_create` -/

section Mount

variable {sb : TmpfsSuperblock} {lock : Bool}

theorem getVfs_zero (h : s.vfss = [⟨lock, some sb⟩]) :
    getVfs 0 s = some (.ok ⟨lock, some sb⟩, s) :=
  getVfs_ok (by rw [h]; rfl)

theorem setVfs_zero {w w' : Vfs} (h : s.vfss = [w]) :
    setVfs 0 w' s = some (.ok (), { s with vfss := [w'] }) := by
  rw [setVfs, modify_apply, h]
  rfl

/-- Taking the next number, under the lock of the file system. -/
theorem nextNumber_locked (h : s.vfss = [⟨false, some sb⟩]) {α : Type} (f : ℕ → VfsM α) :
    (do
      acquireVfs 0
      let number ← nextNumber 0
      releaseVfs 0
      f number) s = f sb.currentInode
        { s with vfss := [⟨false, some { sb with currentInode := sb.currentInode + 1 }⟩] } := by
  have hacq : acquireVfs 0 s = some (.ok (), { s with vfss := [⟨true, some sb⟩] }) := by
    rw [acquireVfs, bind_ok (getVfs_zero h), if_neg (by simp)]
    exact setVfs_zero h
  have hnext : ∀ {s : VfsState}, s.vfss = [⟨true, some sb⟩] → nextNumber 0 s =
      some (.ok sb.currentInode,
        { s with vfss := [⟨true, some { sb with currentInode := sb.currentInode + 1 }⟩] }) := by
    intro s h
    rw [nextNumber, bind_ok (getVfs_zero h), bind_ok (deref_some _ s), bind_ok (setVfs_zero h)]
    rfl
  have hrelease : ∀ {s : VfsState} {sb : TmpfsSuperblock}, s.vfss = [⟨true, some sb⟩] →
      releaseVfs 0 s = some (.ok (), { s with vfss := [⟨false, some sb⟩] }) := by
    intro s sb h
    rw [releaseVfs, bind_ok (getVfs_zero h)]
    exact setVfs_zero h
  rw [bind_ok hacq, bind_ok (hnext rfl), bind_ok (hrelease rfl)]

/-- Entering an inode in the index. -/
theorem addTnode_ok (h : s.vfss = [⟨lock, some sb⟩]) (hf : sb.tnodeCache.Fixed) :
    addTnode 0 n i s = some (.ok (), { s with
      vfss := [⟨lock, some { sb with tnodeCache := sb.tnodeCache.push n i }⟩] }) := by
  rw [addTnode, bind_ok (getVfs_zero h), bind_ok (deref_some _ s), hf.hmapAdd_eq,
    bind_ok (deref_some _ s)]
  exact setVfs_zero h

end Mount

/-- The index after an inode was entered under the next number. -/
theorem hmapLookup_index {k : ℕ} (hcache : ∀ n, cache.hmapLookup n = if n < k then some n else none)
    (n : ℕ) : (cache.push k k).hmapLookup n = if n < k + 1 then some n else none := by
  rw [Hashmap.hmapLookup_push, hcache]
  by_cases hn : n < k
  · rw [if_pos hn, if_pos (Nat.lt_succ_of_lt hn)]
    rfl
  · rw [if_neg hn, Option.none_or]
    by_cases heq : n = k
    · rw [if_pos heq, heq, if_pos (Nat.lt_succ_self k)]
    · have hlt : ¬ n < k + 1 := by omega
      rw [if_neg heq, if_neg hlt]

/-- `tmpfs_mkdir` and `tmpfs_create` between the search for the name and the release of the lock. -/
def tmpfsInsert (fmt : BitVec 16) (tnode vfs : ℕ) (name : Name) (flags : BitVec 16) : VfsM Unit := do
  acquireVfs vfs
  let number ← nextNumber vfs
  releaseVfs vfs
  let child ← newInode ⟨name, [], [], number, 0, 0, (flags &&& ~~~sIfmt) ||| fmt⟩
  addChild tnode child
  addTnode vfs number child

theorem tmpfsAdd_eq (fmt : BitVec 16) (node : ℕ) (name : Name) (flags : BitVec 16) :
    tmpfsAdd fmt node name flags = (do
      acquireVnode node
      let x ← getVnode node
      let tnode ← deref x.privateData
      let vfs ← deref x.currVfs
      let found ← tmpfsHasFile tnode name
      if found then throw (-eexist)
      else do
        tmpfsInsert fmt tnode vfs name flags
        releaseVnode node) := by
  simp only [tmpfsAdd, tmpfsInsert, bind_bind]

/-- A creation takes the lock of the vnode, and searches for the name. -/
theorem tmpfsAdd_of_hasFile {w : ℕ} {found : Bool} (fmt flags : BitVec 16)
    (hget : s.vnodes[v]? = some y) (hlock : y.lock = false) (hdata : y.privateData = some i)
    (hvfs : y.currVfs = some w)
    (hfound : tmpfsHasFile i name (s.locked v y) = some (.ok found, s.locked v y)) :
    tmpfsAdd fmt v name flags s =
      (if found then throw (-eexist)
      else do
        tmpfsInsert fmt i w name flags
        releaseVnode v : VfsM Unit) (s.locked v y) := by
  rw [tmpfsAdd_eq, bind_ok (acquireVnode_ok hget hlock),
    bind_ok (getVnode_ok (getElem?_locked hget)), hdata, bind_ok (deref_some i _), hvfs,
    bind_ok (deref_some w _), bind_ok hfound]

/-- The state after an inode was inserted under the inode `i`. -/
def inserted (s : VfsState) (i : ℕ) (x : TmpfsInode) (name : Name) (mode : BitVec 16)
    (cache : Hashmap ℕ ℕ) : VfsState :=
  let k := s.inodes.length
  let new : TmpfsInode := ⟨name, [], [], k, 0, 0, mode⟩
  { s with
    inodes := (s.inodes ++ [new]).set i { x with children := x.children ++ [k] }
    vfss := [⟨false, some ⟨k + 1, cache.push k k⟩⟩] }

theorem tmpfsInsert_ok (hx : s.inodes[i]? = some x)
    (hvfs : s.vfss = [⟨false, some ⟨s.inodes.length, cache⟩⟩]) (hf : cache.Fixed)
    (fmt flags : BitVec 16) : tmpfsInsert fmt i 0 name flags s =
      some (.ok (), s.inserted i x name (flags &&& ~~~sIfmt ||| fmt) cache) := by
  let k := s.inodes.length
  let new : TmpfsInode := ⟨name, [], [], k, 0, 0, flags &&& ~~~sIfmt ||| fmt⟩
  let s₀ : VfsState := { s with vfss := [⟨false, some ⟨k + 1, cache⟩⟩] }
  let s₁ : VfsState := { s₀ with inodes := s.inodes ++ [new] }
  have hnew : newInode new s₀ = some (.ok k, s₁) := rfl
  have hx₁ : s₁.inodes[i]? = some x :=
    (List.getElem?_append_left (List.getElem?_eq_some_iff.mp hx).1).trans hx
  have hchild : addChild i k s₁ = some (.ok (), { s₁ with
      inodes := (s.inodes ++ [new]).set i { x with children := x.children ++ [k] } }) := by
    rw [addChild, bind_ok (getInode_ok hx₁)]
    rfl
  rw [tmpfsInsert, nextNumber_locked hvfs]
  show (do
    let child ← newInode new
    addChild i child
    addTnode 0 k child) s₀ = _
  rw [bind_ok hnew, bind_ok hchild, addTnode_ok rfl hf]
  rfl

/-- **Inserting an inode** does what `Added` says. -/
theorem added_inserted (hx : s.inodes[i]? = some x) (hm : s.Mounted cache) (mode : BitVec 16) :
    s.Added i name mode (s.inserted i x name mode cache) := by
  obtain ⟨-, hfixed, hcache⟩ := hm
  have hi := (List.getElem?_eq_some_iff.mp hx).1
  have hlen : (s.inserted i x name mode cache).inodes.length = s.inodes.length + 1 := by
    simp [inserted]
  refine ⟨hlen, ?_, fun {j x₀} hx₀ => ?_, ?_, rfl, rfl, rfl, rfl, rfl⟩
  · rw [inserted, List.getElem?_set_ne (Nat.ne_of_lt hi)]
    exact List.getElem?_concat_length
  · have hj := (List.getElem?_eq_some_iff.mp hx₀).1
    rw [inserted]
    by_cases hji : j = i
    · subst hji
      obtain rfl := Option.some.inj (hx₀.symm.trans hx)
      rw [if_pos rfl, List.getElem?_set_self (by simp; omega)]
    · rw [if_neg hji, List.getElem?_set_ne (Ne.symm hji), List.getElem?_append_left hj, hx₀]
  · refine ⟨cache.push s.inodes.length s.inodes.length, ?_, hfixed, ?_⟩
    · rw [hlen]
      rfl
    · rw [hlen]
      exact hmapLookup_index hcache

/-- **`tmpfs_has_file`** -/
theorem Tree.hasFile (h : s.Tree) (hx : s.inodes[i]? = some x) :
    tmpfsHasFile i name s = some (.ok (s.child i name).isSome, s) := by
  rw [tmpfsHasFile, bind_ok (getInode_ok hx), bind_ok (h.findName hx)]
  rfl

/-- **`tmpfs_mkdir` and `tmpfs_create`** add an inode under a name that is not taken. -/
theorem VfsInv.tmpfsAdd (h : s.VfsInv) (hy : s.VnodeOf v i y) (habs : s.child i name = none)
    (fmt flags : BitVec 16) :
    ∃ s', GoofyOs.tmpfsAdd fmt v name flags s = some (.ok (), s') ∧
      s.Added i name (flags &&& ~~~sIfmt ||| fmt) s' := by
  obtain ⟨x, hx, -⟩ := hy.mode
  obtain ⟨cache, hm⟩ := h.mounted
  have hx₁ : (s.locked v y).inodes[i]? = some x := hx
  have hhas : tmpfsHasFile i name (s.locked v y) = some (.ok false, s.locked v y) := by
    rw [h.tree.locked.hasFile hx₁]
    show some (Except.ok (s.child i name).isSome, _) = _
    rw [habs]
    rfl
  have hinsert : tmpfsInsert fmt i 0 name flags (s.locked v y) = _ :=
    tmpfsInsert_ok hx₁ hm.1 hm.2.1 fmt flags
  refine ⟨_, ?_, added_inserted hx hm _⟩
  rw [tmpfsAdd_of_hasFile fmt flags hy.get hy.lock hy.privateData hy.currVfs hhas,
    if_neg (by simp), bind_ok hinsert]
  exact releaseVnode_ok (s := s.inserted i x name _ cache) hy.get hy.lock

/-! ### `vfs_mkdir` and `vfs_create` -/

variable {path : List UInt8} {rel : Option ℕ} {p : ℕ}

/-- The path names a child of the inode `p` that is not there yet. -/
structure AddTarget (s : VfsState) (path : List UInt8) (files : List Name) (i p : ℕ)
    (name : Name) : Prop where
  parent : s.resolve path files i true = .ok p
  last : files.getLast? = some name
  ne_dot : name ≠ dot
  absent : s.child p name = none

theorem Designates.lt (h : s.Designates d i) : i < s.inodes.length := by
  obtain ⟨e, v, y, -, -, hy⟩ := h
  obtain ⟨x, hx, -⟩ := hy.mode
  exact (List.getElem?_eq_some_iff.mp hx).1

/-- `vfs_mkdir` and `vfs_create`, once the parent is found. -/
theorem vfsAdd_eq {op : ℕ → Name → BitVec 16 → VfsM Unit} {flags : BitVec 16} {s₁ : VfsState}
    {d : ℕ} {r : Except ℤ ℕ} (hfiles : vfsParsePath path = some files)
    (hfind : vfsFindDentry path rel true s = some (.ok d, s₁)) (hd : s₁.Designates d p)
    (hlast : files.getLast? = some name) (hchild : vfsFindChild d name s₁ = some (r, s')) :
    ∃ v y, s₁.VnodeOf v p y ∧ GoofyOs.vfsAdd op path rel flags s =
      match r with
      | .ok _ => some (.error (-eexist), s')
      | .error _ => op v name flags s' := by
  obtain ⟨e, v, y, he, hv, hy⟩ := hd
  refine ⟨v, y, hy, ?_⟩
  rw [GoofyOs.vfsAdd, bind_ok hfind, bind_ok (getDentry_ok he), hv, bind_ok (deref_some v s₁),
    bind_ok (getVnode_ok hy.get), hy.ops, bind_ok (deref_some _ s₁), hfiles,
    bind_ok (deref_some files s₁), hlast, bind_ok (deref_some name s₁),
    bind_ok (attempt_of_eq hchild)]
  cases r with
  | ok d' => rfl
  | error e => rfl

/-- A path that designates an inode has a last component. -/
theorem exists_last_of_resolve {parent : Bool} (hr : s.resolve path files i parent = .ok p) :
    ∃ name, files.getLast? = some name := by
  cases hlast : files.getLast? with
  | some name => exact ⟨name, rfl⟩
  | none =>
    obtain rfl := List.getLast?_eq_none_iff.mp hlast
    simp [resolve] at hr

/-- **`vfs_mkdir` and `vfs_create`** add the child that the path names. -/
theorem VfsInv.vfsAdd_ok (h : s.VfsInv) (hrel : s.Start rel i)
    (hfiles : vfsParsePath path = some files) (ht : s.AddTarget path files i p name)
    (fmt flags : BitVec 16) :
    ∃ s₁ s', GoofyOs.vfsAdd (GoofyOs.tmpfsAdd fmt) path rel flags s = some (.ok (), s') ∧
      s.Grows s₁ ∧ s₁.VfsInv ∧ p < s₁.inodes.length ∧
      s₁.Added p name (flags &&& ~~~sIfmt ||| fmt) s' := by
  obtain ⟨s₁, hgrow, h₁, hfind⟩ := h.findDentry true hrel hfiles
  rw [ht.parent] at hfind
  obtain ⟨d, hfind, hd, -⟩ := hfind
  have habs : s₁.child p name = none := by
    rw [hgrow.child]
    exact ht.absent
  have hchild := h₁.findChild name hd
  rw [if_neg ht.ne_dot, habs] at hchild
  obtain ⟨v, y, hy, heq⟩ := vfsAdd_eq hfiles hfind hd ht.last hchild
  obtain ⟨s', hadd, hadded⟩ := h₁.tmpfsAdd hy habs fmt flags
  exact ⟨s₁, s', heq.trans hadd, hgrow, h₁, hd.lt, hadded⟩

/-- **`vfs_mkdir` and `vfs_create`** otherwise return an error code, and change no inode. -/
theorem VfsInv.vfsAdd_error (h : s.VfsInv) (hrel : s.Start rel i)
    (hfiles : vfsParsePath path = some files) (ht : ∀ p name, ¬ s.AddTarget path files i p name)
    (fmt flags : BitVec 16) :
    ∃ e s', GoofyOs.vfsAdd (GoofyOs.tmpfsAdd fmt) path rel flags s = some (.error e, s') ∧
      s.Grows s' ∧ s'.VfsInv := by
  obtain ⟨s₁, hgrow, h₁, hfind⟩ := h.findDentry true hrel hfiles
  cases hr : s.resolve path files i true with
  | error e =>
    rw [hr] at hfind
    exact ⟨e, s₁, bind_error hfind, hgrow, h₁⟩
  | ok p =>
    rw [hr] at hfind
    obtain ⟨d, hfind, hd, -⟩ := hfind
    obtain ⟨name, hlast⟩ := exists_last_of_resolve hr
    have hchild := h₁.findChild name hd
    rw [hgrow.child] at hchild
    cases hc : (if name = dot then some p else s.child p name) with
    | none =>
      -- the path names a new child after all
      by_cases hdot : name = dot
      · rw [if_pos hdot] at hc
        simp at hc
      · rw [if_neg hdot] at hc
        exact absurd ⟨hr, hlast, hdot, hc⟩ (ht p name)
    | some c =>
      rw [hc] at hchild
      obtain ⟨d', s', hchild, hgrow', h', -⟩ := hchild
      obtain ⟨v, y, hy, heq⟩ := vfsAdd_eq hfiles hfind hd hlast hchild
      exact ⟨-eexist, s', heq, hgrow.trans hgrow', h'⟩

/-- What the path designates once the child is there. -/
theorem AddTarget.resolve_new (ht : s.AddTarget path files i p name)
    (hleaf : AddedLeaf s.child s'.child p name n) : s'.resolve path files i false = .ok n := by
  obtain ⟨front, rfl⟩ : ∃ front, files = front ++ [name] := List.getLast?_eq_some_iff.mp ht.last
  have hparent := ht.parent
  rw [resolve] at hparent ⊢
  have hlen : ¬ ((front ++ [name]).length = 0 ∨ ((front ++ [name]).length = 1 ∧ true = true)) := by
    intro hlen
    rw [if_pos hlen] at hparent
    simp at hparent
  have hlen' : ¬ ((front ++ [name]).length = 0 ∨ ((front ++ [name]).length = 1 ∧ false = true)) := by
    simp
  rw [if_neg hlen] at hparent
  rw [if_neg hlen']
  have hfront : front ≠ [] := by
    rintro rfl
    exact hlen (Or.inr ⟨rfl, rfl⟩)
  simp only [if_true, List.dropLast_concat, Bool.false_eq_true, if_false] at hparent ⊢
  -- the components before the last lead to `p`, in the new tree too
  have hfiles : (if path.head? = some slash then (front ++ [name]).tail else front ++ [name]) =
      (if path.head? = some slash then front.tail else front) ++ [name] := by
    split
    · exact List.tail_append_of_ne_nil hfront
    · rfl
  rw [hfiles]
  split at hparent
  · next j hj =>
    obtain rfl : j = p := Except.ok.inj hparent
    have hdesc : s'.descend (if path.head? = some slash then 0 else i)
        ((if path.head? = some slash then front.tail else front) ++ [name]) = some n := by
      rw [descend, List.filter_append, List.filter_cons_of_pos (by simpa using ht.ne_dot),
        List.filter_nil, walk_concat, hleaf.walk_of_walk hj]
      exact hleaf.self
    rw [hdesc]
  · simp at hparent

/-- What resolved before still resolves to the same inode. -/
theorem resolve_of_addedLeaf {q : List UInt8} {files : List Name} {parent : Bool}
    (hleaf : AddedLeaf s.child s'.child p name n) (hr : s.resolve q files i parent = .ok j) :
    s'.resolve q files i parent = .ok j := by
  rw [resolve] at hr ⊢
  split
  · next hlen =>
    rw [if_pos hlen] at hr
    simp at hr
  · next hlen =>
    rw [if_neg hlen] at hr
    dsimp only at hr ⊢
    split at hr
    · next k hk =>
      obtain rfl : k = j := Except.ok.inj hr
      have hk' : s'.descend _ _ = some k := hleaf.walk_of_walk hk
      rw [hk']
    · simp at hr

end VfsState

end GoofyOs
