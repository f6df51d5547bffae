import GoofyOs.VfsTree

/-!
# Resolving paths

What `vfs_find_child` and `vfs_find_dentry` return, by the tree of inodes. A lookup allocates a new
vnode and a new dentry, and changes nothing else.

## Main definitions

* `VfsState.resolve` — the inode that a path designates, or the error code
* `VfsState.Start` — the inode that `rel` stands for

## Main results

* `VfsState.VfsInv.findChild`, `VfsState.VfsInv.findLoop` — looking up a name, and a list of names
* `VfsState.VfsInv.findDentry` — resolving a path
-/

namespace GoofyOs

open Proc PathWalk

section Heap

variable {s : VfsState} {p : ℕ}

theorem getInode_ok {x : TmpfsInode} (h : s.inodes[p]? = some x) :
    getInode p s = some (.ok x, s) := by
  rw [getInode, bind_ok (read_apply s), h]
  rfl

theorem getVnode_ok {y : Vnode} (h : s.vnodes[p]? = some y) :
    getVnode p s = some (.ok y, s) := by
  rw [getVnode, bind_ok (read_apply s), h]
  rfl

theorem getDentry_ok {e : Dentry} (h : s.dentries[p]? = some e) :
    getDentry p s = some (.ok e, s) := by
  rw [getDentry, bind_ok (read_apply s), h]
  rfl

theorem getVfs_ok {v : Vfs} (h : s.vfss[p]? = some v) : getVfs p s = some (.ok v, s) := by
  rw [getVfs, bind_ok (read_apply s), h]
  rfl

theorem setInode_ok (x : TmpfsInode) :
    setInode p x s = some (.ok (), { s with inodes := s.inodes.set p x }) := rfl

theorem setVnode_ok (y : Vnode) :
    setVnode p y s = some (.ok (), { s with vnodes := s.vnodes.set p y }) := rfl

/-- The state while somebody holds the lock of the vnode `v`. -/
def VfsState.locked (s : VfsState) (v : ℕ) (y : Vnode) : VfsState :=
  { s with vnodes := s.vnodes.set v { y with lock := true } }

theorem acquireVnode_ok {y : Vnode} (h : s.vnodes[p]? = some y) (hlock : y.lock = false) :
    acquireVnode p s = some (.ok (), s.locked p y) := by
  rw [acquireVnode, bind_ok (getVnode_ok h), if_neg (by simp [hlock])]
  rfl

theorem getElem?_locked {y : Vnode} (h : s.vnodes[p]? = some y) :
    (s.locked p y).vnodes[p]? = some { y with lock := true } :=
  List.getElem?_set_self (List.getElem?_eq_some_iff.mp h).1

/-- Releasing the lock takes the state back, if nothing else happened. -/
theorem releaseVnode_ok {y : Vnode} (h : s.vnodes[p]? = some y) (hlock : y.lock = false) :
    releaseVnode p (s.locked p y) = some (.ok (), s) := by
  have hset : (s.locked p y).vnodes.set p { y with lock := false } = s.vnodes := by
    show (s.vnodes.set p _).set p _ = _
    rw [List.set_set]
    obtain ⟨hlt, rfl⟩ := List.getElem?_eq_some_iff.mp h
    rw [show ({ s.vnodes[p] with lock := false } : Vnode) = s.vnodes[p] by rw [← hlock]]
    exact List.set_getElem_self hlt
  rw [releaseVnode, bind_ok (getVnode_ok (getElem?_locked h))]
  show some (_, ({ s.locked p y with
    vnodes := (s.locked p y).vnodes.set p { y with lock := false } } : VfsState)) = _
  rw [hset]
  rfl

end Heap

namespace VfsState

variable {s s' s'' : VfsState} {i j n v d : ℕ} {name : Name} {files : List Name} {x : TmpfsInode}
  {y : Vnode}

/-! ### One name -/

theorem findName_ok {cs : List ℕ} (h : ∀ c ∈ cs, c < s.inodes.length) :
    findName name cs s = some (.ok (cs.find? fun c => s.nameOf c = some name), s) := by
  induction cs with
  | nil => rfl
  | cons c cs ih =>
    have hlt := h c List.mem_cons_self
    have hget : s.inodes[c]? = some s.inodes[c] := List.getElem?_eq_getElem hlt
    rw [findName, bind_ok (getInode_ok hget), List.find?_cons, nameOf, hget, Option.map_some]
    by_cases hname : s.inodes[c].name = name
    · rw [if_pos hname, hname]
      simp
    · rw [if_neg hname, ih fun c hc => h c (List.mem_cons_of_mem _ hc)]
      simp [hname]

/-- The children of an inode with a name, while a lock is held or not. -/
theorem Tree.findName (h : s.Tree) (hx : s.inodes[i]? = some x) :
    GoofyOs.findName name x.children s = some (.ok (s.child i name), s) := by
  rw [findName_ok fun c hc => (h.child_lt hx hc).2, child_of_getElem? hx]

theorem Tree.locked (h : s.Tree) : (s.locked v y).Tree :=
  ⟨h.root, h.number, h.child_lt, h.names, h.parent, h.unique⟩

/-- **`tmpfs_lookup`** finds the number of the child. -/
theorem VfsInv.tmpfsLookup (h : s.VfsInv) (name : Name) (hy : s.VnodeOf v i y) :
    GoofyOs.tmpfsLookup v name s = match s.child i name with
      | some c => some (.ok c, s)
      | none => some (.error (-enoent), s) := by
  obtain ⟨x, hx, -⟩ := hy.mode
  have hx' : (s.locked v y).inodes[i]? = some x := hx
  have hchild : (s.locked v y).child i name = s.child i name := rfl
  rw [GoofyOs.tmpfsLookup, bind_ok (acquireVnode_ok hy.get hy.lock),
    bind_ok (getVnode_ok (getElem?_locked hy.get)), hy.privateData, bind_ok (deref_some i _),
    bind_ok (getInode_ok hx'), bind_ok (h.tree.locked.findName hx'),
    bind_ok (releaseVnode_ok hy.get hy.lock), hchild]
  cases hc : s.child i name with
  | none => rfl
  | some c =>
    have hlt := (h.tree.child_bounds hc).2
    have hget : s.inodes[c]? = some s.inodes[c] := List.getElem?_eq_getElem hlt
    show (getInode c >>= fun child => pure child.number) s = some (.ok c, s)
    rw [bind_ok (getInode_ok hget), h.tree.number hget]
    rfl

/-- **`vfs_find_vnode`** makes a new vnode for every inode but the root. -/
theorem VfsInv.findVnode (h : s.VfsInv) (hy : s.VnodeOf v i y) (hj : 0 < j)
    (hx : s.inodes[j]? = some x) :
    ∃ z, GoofyOs.vfsFindVnode v j s =
        some (.ok s.vnodes.length, { s with vnodes := s.vnodes ++ [z] }) ∧
      ({ s with vnodes := s.vnodes ++ [z] } : VfsState).VnodeOf s.vnodes.length j z ∧
      z.size = x.length := by
  obtain ⟨cache, hvfs, -, hcache⟩ := h.mounted
  have hlt := (List.getElem?_eq_some_iff.mp hx).1
  have hv : s.vfss[0]? = some ⟨false, some ⟨s.inodes.length, cache⟩⟩ := by rw [hvfs]; rfl
  let z : Vnode := ⟨false, some .tmpfsOperations, some 0, some j, x.mode, j, x.length⟩
  have hcreate : tmpfsCreateNode v j s =
      some (.ok s.vnodes.length, { s with vnodes := s.vnodes ++ [z] }) := by
    rw [tmpfsCreateNode, bind_ok (getVnode_ok hy.get), hy.currVfs, bind_ok (deref_some 0 s),
      bind_ok (getVfs_ok hv), bind_ok (deref_some _ s), hcache, if_pos hlt]
    exact bind_ok (getInode_ok hx)
  refine ⟨z, ?_, ?_, rfl⟩
  · rw [vfsFindVnode, bind_ok (getVnode_ok hy.get), hy.ops, hy.currVfs, if_neg (by simp),
      bind_ok (read_apply s), h.vnodeCache, if_neg (Nat.ne_of_gt hj)]
    exact hcreate
  · refine ⟨?_, rfl, rfl, rfl, rfl, rfl, x, hx, ?_⟩
    · exact List.getElem?_concat_length
    · rw [if_neg (Nat.ne_of_gt hj)]

/-- The dentry `d` has a vnode that was allocated since `s`. -/
def FreshVnode (s s' : VfsState) (d : ℕ) : Prop :=
  ∃ (e : Dentry) (v : ℕ), s'.dentries[d]? = some e ∧ e.vnode = some v ∧ s.vnodes.length ≤ v

theorem FreshVnode.mono {s₀ : VfsState} (h : s'.FreshVnode s'' d) (hgrow : s.Grows s')
    (hgrow' : s''.Grows s₀) : s.FreshVnode s₀ d := by
  obtain ⟨e, v, he, hv, hle⟩ := h
  exact ⟨e, v, getElem?_of_isPrefix hgrow'.dentries he, hv, Nat.le_trans hgrow.vnodes.length_le hle⟩

/-- `vfs_find_child` after the cache was looked at, which holds no children. -/
theorem VfsInv.findChild_eq (h : s.VfsInv) (hdot : name ≠ dot) (hd : s.Designates d i) :
    ∃ v y, s.VnodeOf v i y ∧ vfsFindChild d name s = (do
      let num ← GoofyOs.tmpfsLookup v name
      let ret ← vfsFindVnode v num
      newDentry ⟨name, some d, some ret⟩) s := by
  obtain ⟨e, v, y, he, hv, hy⟩ := hd
  refine ⟨v, y, hy, ?_⟩
  rw [vfsFindChild, if_neg hdot, bind_ok (read_apply s), h.dentryCache]
  show (getDentry d >>= _) s = _
  rw [bind_ok (getDentry_ok he), hv, bind_ok (deref_some v s), bind_ok (getVnode_ok hy.get),
    hy.ops, bind_ok (deref_some _ s)]

/-- A child gets a new vnode and a new dentry. -/
theorem VfsInv.findChild_new (h : s.VfsInv) (hdot : name ≠ dot) (hd : s.Designates d i)
    (hc : s.child i name = some j) :
    ∃ s', vfsFindChild d name s = some (.ok s.dentries.length, s') ∧ s.Grows s' ∧ s'.VfsInv ∧
      s'.dentries = s.dentries ++ [⟨name, some d, some s.vnodes.length⟩] ∧
      s'.Designates s.dentries.length j := by
  obtain ⟨v, y, hy, heq⟩ := h.findChild_eq hdot hd
  have hlookup := h.tmpfsLookup name hy
  rw [hc] at hlookup
  obtain ⟨hij, hlt⟩ := h.tree.child_bounds hc
  obtain ⟨z, hfind, hz, -⟩ := h.findVnode hy (Nat.zero_lt_of_lt hij)
    (List.getElem?_eq_getElem hlt)
  let s₁ : VfsState := { s with vnodes := s.vnodes ++ [z] }
  let s₂ : VfsState :=
    { s₁ with dentries := s.dentries ++ [⟨name, some d, some s.vnodes.length⟩] }
  have hgrow₁ : s.Grows s₁ :=
    ⟨rfl, rfl, rfl, rfl, rfl, List.prefix_append _ _, List.prefix_rfl⟩
  have hgrow₂ : s₁.Grows s₂ :=
    ⟨rfl, rfl, rfl, rfl, rfl, List.prefix_rfl, List.prefix_append _ _⟩
  have hnew : s₂.Designates s.dentries.length j :=
    ⟨_, _, z, List.getElem?_concat_length, rfl, hgrow₂.vnodeOf hz⟩
  have hgrow := hgrow₁.trans hgrow₂
  refine ⟨s₂, ?_, hgrow, ?_, rfl, hnew⟩
  · rw [heq, bind_ok hlookup, bind_ok hfind]
    rfl
  · refine hgrow.vfsInv h fun d' hle hlt' => ⟨j, ?_⟩
    obtain rfl : d' = s.dentries.length := by
      have : s₂.dentries.length = s.dentries.length + 1 := List.length_append
      omega
    exact hnew

/-- **`vfs_find_child`** steps down to a child, which gets a new vnode, or stays at `.`. -/
theorem VfsInv.findChild (h : s.VfsInv) (name : Name) (hd : s.Designates d i) :
    match (if name = dot then some i else s.child i name) with
    | some j => ∃ d' s', vfsFindChild d name s = some (.ok d', s') ∧ s.Grows s' ∧ s'.VfsInv ∧
        s'.Designates d' j ∧ (d' = d ∨ s.FreshVnode s' d')
    | none => vfsFindChild d name s = some (.error (-enoent), s) := by
  by_cases hdot : name = dot
  · rw [if_pos hdot]
    exact ⟨d, s, by rw [vfsFindChild, if_pos hdot]; rfl, Grows.refl s, h, hd, Or.inl rfl⟩
  · rw [if_neg hdot]
    cases hc : s.child i name with
    | none =>
      obtain ⟨v, y, hy, heq⟩ := h.findChild_eq hdot hd
      have hlookup := h.tmpfsLookup name hy
      rw [hc] at hlookup
      exact heq.trans (bind_error hlookup)
    | some j =>
      obtain ⟨s', hfind, hgrow, h', hdentries, hnew⟩ := h.findChild_new hdot hd hc
      have hget : s'.dentries[s.dentries.length]? = some ⟨name, some d, some s.vnodes.length⟩ := by
        rw [hdentries]
        exact List.getElem?_concat_length
      exact ⟨s.dentries.length, s', hfind, hgrow, h', hnew, Or.inr ⟨_, _, hget, rfl, le_rfl⟩⟩

/-! ### A list of names -/

/-- **The loop of `vfs_find_dentry`** walks down the tree. -/
theorem VfsInv.findLoop (h : s.VfsInv) (files : List Name) (hd : s.Designates d i) :
    ∃ s', s.Grows s' ∧ s'.VfsInv ∧ match s.descend i files with
      | some j => ∃ d', GoofyOs.findLoop d files s = some (.ok d', s') ∧ s'.Designates d' j ∧
          (d' = d ∨ s.FreshVnode s' d')
      | none => GoofyOs.findLoop d files s = some (.error (-enoent), s') := by
  induction files generalizing s d i with
  | nil => exact ⟨s, Grows.refl s, h, d, rfl, hd, Or.inl rfl⟩
  | cons name files ih =>
    have hstep := h.findChild name hd
    have hdesc : s.descend i (name :: files) =
        (if name = dot then some i else s.child i name).bind fun j => s.descend j files := by
      by_cases hdot : name = dot
      · rw [hdot, descend_dot, if_pos rfl]
        rfl
      · rw [descend_cons hdot, if_neg hdot]
    rw [hdesc]
    cases hc : (if name = dot then some i else s.child i name) with
    | none =>
      rw [hc] at hstep
      exact ⟨s, Grows.refl s, h, bind_error hstep⟩
    | some j =>
      rw [hc] at hstep
      obtain ⟨d₁, s₁, hfind, hgrow, h₁, hd₁, hfresh⟩ := hstep
      obtain ⟨s₂, hgrow₂, h₂, hrest⟩ := ih h₁ hd₁
      refine ⟨s₂, hgrow.trans hgrow₂, h₂, ?_⟩
      rw [hgrow.descend] at hrest
      rw [Option.bind_some]
      cases hj : s.descend j files with
      | none =>
        rw [hj] at hrest
        rw [GoofyOs.findLoop, bind_ok hfind]
        exact hrest
      | some k =>
        rw [hj] at hrest
        obtain ⟨d', hloop, hd', hfresh'⟩ := hrest
        refine ⟨d', ?_, hd', ?_⟩
        · rw [GoofyOs.findLoop, bind_ok hfind]
          exact hloop
        · rcases hfresh' with rfl | hfresh'
          · exact hfresh.imp_right fun hf => hf.mono (Grows.refl s) hgrow₂
          · exact Or.inr (hfresh'.mono hgrow (Grows.refl s₂))

/-! ### Paths -/

/-- What `rel` stands for: the root if it is null. -/
def Start (s : VfsState) : Option ℕ → ℕ → Prop
  | none, i => i = 0
  | some d, i => s.Designates d i

theorem Start.unique {rel : Option ℕ} (h : s.Start rel i) (h' : s.Start rel j) : i = j := by
  cases rel with
  | none => exact Eq.trans h (Eq.symm h')
  | some d => exact Designates.unique h h'

/-- The inode that a path with the components `files` designates, or the error code. `i` is the
inode of `rel`. -/
def resolve (s : VfsState) (path : List UInt8) (files : List Name) (i : ℕ) (parent : Bool) :
    Except ℤ ℕ :=
  if files.length = 0 ∨ (files.length = 1 ∧ parent) then .error (-einval)
  else
    let files := if parent then files.dropLast else files
    let absolute := path.head? = some slash
    let files := if absolute then files.tail else files
    match s.descend (if absolute then 0 else i) files with
    | some j => .ok j
    | none => .error (-enoent)

theorem Grows.resolve (h : s.Grows s') : s'.resolve = s.resolve := by
  funext path files i parent
  rw [VfsState.resolve, VfsState.resolve, h.descend]

theorem Grows.start {rel : Option ℕ} (h : s.Grows s') (hrel : s.Start rel i) : s'.Start rel i := by
  cases rel with
  | none => exact hrel
  | some d => exact h.designates hrel

variable {path : List UInt8} {rel : Option ℕ} {parent : Bool}

/-- **`vfs_find_dentry`** resolves a path whose components fit the buffer. It makes a new vnode, unless
the path stays where it starts. -/
theorem VfsInv.findDentry (h : s.VfsInv) (parent : Bool) (hrel : s.Start rel i)
    (hfiles : vfsParsePath path = some files) :
    ∃ s', s.Grows s' ∧ s'.VfsInv ∧ match s.resolve path files i parent with
      | .ok j => ∃ d', vfsFindDentry path rel parent s = some (.ok d', s') ∧ s'.Designates d' j ∧
          ((if path.head? = some slash then 0 else i) ≠ j → s.FreshVnode s' d')
      | .error e => vfsFindDentry path rel parent s = some (.error e, s') := by
  obtain ⟨root, hroot, hroot0⟩ := h.globalRoot
  -- the dentry that the loop starts from
  obtain ⟨d, hd, hstart⟩ : ∃ d, (if path.head? = some slash then s.globalRoot else rel).or
      s.globalRoot = some d ∧ s.Designates d (if path.head? = some slash then 0 else i) := by
    by_cases habs : path.head? = some slash
    · rw [if_pos habs, if_pos habs, hroot]
      exact ⟨root, rfl, hroot0⟩
    · rw [if_neg habs, if_neg habs, hroot]
      cases rel with
      | none =>
        obtain rfl : i = 0 := hrel
        exact ⟨root, rfl, hroot0⟩
      | some d => exact ⟨d, rfl, hrel⟩
  rw [resolve]
  by_cases hshort : files.length = 0 ∨ (files.length = 1 ∧ parent)
  · rw [if_pos hshort]
    refine ⟨s, Grows.refl s, h, ?_⟩
    show vfsFindDentry path rel parent s = some (.error (-einval), s)
    rw [vfsFindDentry, hfiles, bind_ok (deref_some files s), if_pos hshort]
    rfl
  · rw [if_neg hshort]
    obtain ⟨s', hgrow, h', hloop⟩ := h.findLoop (if path.head? = some slash then
      (if parent then files.dropLast else files).tail else if parent then files.dropLast else files)
      hstart
    have hrun : vfsFindDentry path rel parent s = GoofyOs.findLoop d (if path.head? = some slash then
        (if parent then files.dropLast else files).tail
        else if parent then files.dropLast else files) s := by
      rw [vfsFindDentry, hfiles, bind_ok (deref_some files s), if_neg hshort]
      simp only [bind_ok (read_apply s), hd, bind_ok (deref_some d s)]
    refine ⟨s', hgrow, h', ?_⟩
    rw [hrun]
    dsimp only
    cases hj : s.descend (if path.head? = some slash then 0 else i) (if path.head? = some slash then
        (if parent then files.dropLast else files).tail
        else if parent then files.dropLast else files) with
    | none =>
      rw [hj] at hloop
      exact hloop
    | some j =>
      rw [hj] at hloop
      obtain ⟨d', hloop, hd', hfresh⟩ := hloop
      refine ⟨d', hloop, hd', fun hne => hfresh.resolve_left ?_⟩
      rintro rfl
      exact hne ((hgrow.designates hstart).unique hd')

/-- The vnode of a dentry that leads to an inode. -/
theorem fileVnode_ok (fd : File) (hd : s.Designates fd.entry i) :
    ∃ v y, fileVnode fd s = some (.ok v, s) ∧ s.VnodeOf v i y := by
  obtain ⟨e, v, y, he, hv, hy⟩ := hd
  refine ⟨v, y, ?_, hy⟩
  rw [fileVnode, bind_ok (getDentry_ok he), hv, bind_ok (deref_some v s),
    bind_ok (getVnode_ok hy.get), hy.ops, bind_ok (deref_some _ s)]
  rfl

/-- The number of the inode that `vfs_open` designates. -/
def opened (path : List UInt8) (rel : Option ℕ) : VfsM ℕ := do
  let fd ← vfsOpen path rel 0
  let vnode ← fileVnode fd
  let y ← getVnode vnode
  pure y.number

/-- **`vfs_open`** designates the inode that the path resolves to. -/
theorem VfsInv.vfsOpen (h : s.VfsInv) (hrel : s.Start rel i)
    (hfiles : vfsParsePath path = some files) (flags : BitVec 16) :
    ∃ s', s.Grows s' ∧ s'.VfsInv ∧ match s.resolve path files i false with
      | .ok j => ∃ d', GoofyOs.vfsOpen path rel flags s = some (.ok ⟨d', 0, flags⟩, s') ∧
        s'.Designates d' j
      | .error e => GoofyOs.vfsOpen path rel flags s = some (.error e, s') := by
  obtain ⟨s', hgrow, h', hfind⟩ := h.findDentry false hrel hfiles
  refine ⟨s', hgrow, h', ?_⟩
  cases hr : s.resolve path files i false with
  | error e =>
    rw [hr] at hfind
    exact bind_error hfind
  | ok j =>
    rw [hr] at hfind
    obtain ⟨d', hfind, hd', -⟩ := hfind
    exact ⟨d', bind_ok hfind, hd'⟩

theorem VfsInv.opened (h : s.VfsInv) (hrel : s.Start rel i)
    (hfiles : vfsParsePath path = some files) :
    (VfsState.opened path rel s).map Prod.fst = some (s.resolve path files i false) := by
  obtain ⟨s', -, -, hopen⟩ := h.vfsOpen hrel hfiles 0
  cases hr : s.resolve path files i false with
  | error e =>
    rw [hr] at hopen
    rw [VfsState.opened, bind_error hopen]
    rfl
  | ok j =>
    rw [hr] at hopen
    obtain ⟨d', hopen, hd'⟩ := hopen
    obtain ⟨v, y, hv, hy⟩ := fileVnode_ok ⟨d', 0, 0⟩ hd'
    rw [VfsState.opened, bind_ok hopen, bind_ok hv, bind_ok (getVnode_ok hy.get), hy.number]
    rfl

end VfsState

/-! ### Splitting paths -/

/-- The components of the path are shorter than `VFS_PATH_MAX`. -/
def ShortComponents (path : List UInt8) : Prop :=
  ∀ b, b <:+: path → slash ∉ b → b.length < 256

theorem parseLoop_isSome {path : List UInt8} {buf : Name} {ret : List Name} (hbuf : slash ∉ buf)
    (h : ShortComponents (buf ++ path)) : ∃ files, parseLoop path buf ret = some files := by
  have hlt : buf.length < 256 := h buf (List.prefix_append buf path).isInfix hbuf
  induction path generalizing buf ret with
  | nil =>
    rw [parseLoop, if_pos hlt]
    split
    · exact ⟨_, rfl⟩
    · exact ⟨_, rfl⟩
  | cons c path ih =>
    rw [parseLoop, if_pos hlt]
    by_cases hc : c = slash
    · rw [if_pos hc]
      refine ih List.not_mem_nil (fun b hb => h b (hb.trans ?_)) (by simp)
      exact ⟨buf ++ [c], [], by simp⟩
    · rw [if_neg hc]
      have hmem : slash ∉ buf ++ [c] := by
        simp [hbuf, Ne.symm hc]
      have happ : buf ++ [c] ++ path = buf ++ c :: path := by simp
      have hshort : ShortComponents (buf ++ [c] ++ path) := by
        rw [happ]
        exact h
      exact ih hmem hshort (hshort _ (List.prefix_append _ path).isInfix hmem)

/-- `vfs_parse_path` stays in its buffer. -/
theorem vfsParsePath_isSome {path : List UInt8} (h : ShortComponents path) :
    ∃ files, vfsParsePath path = some files := by
  cases path with
  | nil => exact ⟨[], rfl⟩
  | cons c rest =>
    rw [vfsParsePath]
    split
    · exact parseLoop_isSome List.not_mem_nil fun b hb => h b (hb.trans (List.suffix_cons c rest).isInfix)
    · exact parseLoop_isSome List.not_mem_nil h

end GoofyOs
