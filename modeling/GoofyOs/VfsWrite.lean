import GoofyOs.VfsAdd

/-!
# Writing files

`vfs_write` changes the contents of an inode and the size in one vnode, and leaves the tree alone.

## Main definitions

* `VfsState.Written` — the contents of an inode changed
* `VfsState.writtenInode` — what `tmpfs_write` makes of an inode

## Main results

* `VfsState.Written.child`, `VfsState.Written.vfsInv` — the tree stays, and the invariant is kept
* `VfsState.VfsInv.vfsWrite` — what `vfs_write` does to a regular file
-/

namespace GoofyOs

open Proc PathWalk

namespace VfsState

variable {s s' s'' : VfsState} {i j n v d : ℕ} {name : Name} {files : List Name} {x : TmpfsInode}
  {y : Vnode}

/-! ### What writing does -/

/-- The contents of the inode `i` became those of `x'`, and the vnode `v` has its length. Nothing
else changed. -/
structure Written (s : VfsState) (v i : ℕ) (x' : TmpfsInode) (s' : VfsState) : Prop where
  inodes : s'.inodes = s.inodes.set i x'
  vnodes : ∃ y, s.vnodes[v]? = some y ∧ s'.vnodes = s.vnodes.set v { y with size := x'.length }
  same : ∃ x, s.inodes[i]? = some x ∧ x'.name = x.name ∧ x'.children = x.children ∧
    x'.number = x.number ∧ x'.mode = x.mode
  fits : Fits x'
  vfss : s'.vfss = s.vfss
  dentries : s'.dentries = s.dentries
  vnodeCache : s'.vnodeCache = s.vnodeCache
  dentryCache : s'.dentryCache = s.dentryCache
  globalRoot : s'.globalRoot = s.globalRoot

namespace Written

variable {x' : TmpfsInode}

theorem length (h : s.Written v i x' s') : s'.inodes.length = s.inodes.length := by
  rw [h.inodes, List.length_set]

/-- Inodes keep all but their contents. -/
theorem old (h : s.Written v i x' s') (hx : s.inodes[j]? = some x) : ∃ z,
    s'.inodes[j]? = some z ∧ z.name = x.name ∧ z.children = x.children ∧ z.number = x.number ∧
      z.mode = x.mode := by
  rw [h.inodes]
  by_cases hji : j = i
  · subst hji
    obtain ⟨x₀, hx₀, hsame⟩ := h.same
    obtain rfl := Option.some.inj (hx.symm.trans hx₀)
    exact ⟨x', List.getElem?_set_self (List.getElem?_eq_some_iff.mp hx).1, hsame⟩
  · exact ⟨x, by rw [List.getElem?_set_ne (Ne.symm hji), hx], rfl, rfl, rfl, rfl⟩

theorem cases (h : s.Written v i x' s') {z : TmpfsInode} (hz : s'.inodes[j]? = some z) : ∃ x,
    s.inodes[j]? = some x ∧ z.name = x.name ∧ z.children = x.children ∧ z.number = x.number ∧
      z.mode = x.mode := by
  have hlt := (List.getElem?_eq_some_iff.mp hz).1
  rw [h.length] at hlt
  have hget : s.inodes[j]? = some s.inodes[j] := List.getElem?_eq_getElem hlt
  obtain ⟨z₀, hz₀, hsame⟩ := h.old hget
  obtain rfl := Option.some.inj (hz.symm.trans hz₀)
  exact ⟨_, hget, hsame⟩

theorem nameOf (h : s.Written v i x' s') : s'.nameOf = s.nameOf := by
  funext c
  cases hc : s.inodes[c]? with
  | none =>
    have hc' : s'.inodes[c]? = none := by
      rw [List.getElem?_eq_none_iff, h.length]
      exact List.getElem?_eq_none_iff.mp hc
    rw [VfsState.nameOf, VfsState.nameOf, hc, hc']
  | some x =>
    obtain ⟨z, hz, hname, -⟩ := h.old hc
    rw [VfsState.nameOf, VfsState.nameOf, hc, hz, Option.map_some, hname]
    rfl

/-- Writing does not change the tree. -/
theorem child (h : s.Written v i x' s') : s'.child = s.child := by
  funext j b
  cases hj : s.inodes[j]? with
  | none =>
    have hj' : s'.inodes[j]? = none := by
      rw [List.getElem?_eq_none_iff, h.length]
      exact List.getElem?_eq_none_iff.mp hj
    rw [VfsState.child, VfsState.child, hj, hj']
    rfl
  | some x =>
    obtain ⟨z, hz, -, hchildren, -⟩ := h.old hj
    rw [child_of_getElem? hj, child_of_getElem? hz, hchildren, h.nameOf]

theorem tree (h : s.Written v i x' s') (ht : s.Tree) : s'.Tree where
  root := by
    rw [h.length]
    exact ht.root
  number hz := by
    obtain ⟨x, hx, -, -, hnumber, -⟩ := h.cases hz
    rw [hnumber]
    exact ht.number hx
  child_lt hz hc := by
    obtain ⟨x, hx, -, hchildren, -⟩ := h.cases hz
    rw [hchildren] at hc
    rw [h.length]
    exact ht.child_lt hx hc
  names hz := by
    obtain ⟨x, hx, -, hchildren, -⟩ := h.cases hz
    rw [hchildren, h.nameOf]
    exact ht.names hx
  parent hpos hc := by
    rw [h.length] at hc
    obtain ⟨j, x, hx, hmem⟩ := ht.parent hpos hc
    obtain ⟨z, hz, -, hchildren, -⟩ := h.old hx
    exact ⟨j, z, hz, hchildren ▸ hmem⟩
  unique hz hz' hc hc' := by
    obtain ⟨x, hx, -, hchildren, -⟩ := h.cases hz
    obtain ⟨x₁, hx₁, -, hchildren₁, -⟩ := h.cases hz'
    rw [hchildren] at hc
    rw [hchildren₁] at hc'
    exact ht.unique hx hx₁ hc hc'

theorem vnodeOf {w : ℕ} (h : s.Written v i x' s') (hy : s.VnodeOf w j y) :
    ∃ z, s'.VnodeOf w j z ∧ z.mode = y.mode := by
  obtain ⟨x, hx, hmode⟩ := hy.mode
  obtain ⟨x₁, hx₁, -, -, -, hmode₁⟩ := h.old hx
  have hmode' : ∃ x : TmpfsInode, s'.inodes[j]? = some x ∧
      y.mode = if j = 0 then sIfdir ||| 0x1ff else x.mode := ⟨x₁, hx₁, by rw [hmode, hmode₁]⟩
  obtain ⟨y₀, hy₀, hvnodes⟩ := h.vnodes
  by_cases hw : w = v
  · subst hw
    obtain rfl := Option.some.inj (hy.get.symm.trans hy₀)
    refine ⟨{ y with size := x'.length }, ⟨?_, hy.lock, hy.ops, hy.currVfs, hy.privateData,
      hy.number, hmode'⟩, rfl⟩
    rw [hvnodes]
    exact List.getElem?_set_self (List.getElem?_eq_some_iff.mp hy.get).1
  · refine ⟨y, ⟨?_, hy.lock, hy.ops, hy.currVfs, hy.privateData, hy.number, hmode'⟩, rfl⟩
    rw [hvnodes, List.getElem?_set_ne (Ne.symm hw)]
    exact hy.get

theorem designates (h : s.Written v i x' s') (hd : s.Designates d j) : s'.Designates d j := by
  obtain ⟨e, w, y, he, hw, hy⟩ := hd
  obtain ⟨z, hz, -⟩ := h.vnodeOf hy
  refine ⟨e, w, z, ?_, hw, hz⟩
  rw [h.dentries]
  exact he

/-- Paths resolve as before. -/
theorem resolve (h : s.Written v i x' s') : s'.resolve = s.resolve := by
  funext path files j parent
  rw [VfsState.resolve, VfsState.resolve, show s'.descend = s.descend by
    funext j files
    rw [VfsState.descend, VfsState.descend, h.child]]

theorem start {rel : Option ℕ} (h : s.Written v i x' s') (hrel : s.Start rel j) :
    s'.Start rel j := by
  cases rel with
  | none => exact hrel
  | some d => exact h.designates hrel

/-- Writing keeps the invariant. -/
theorem vfsInv (h : s.Written v i x' s') (hs : s.VfsInv) : s'.VfsInv where
  tree := h.tree hs.tree
  fits {j z} hz := by
    rw [h.inodes] at hz
    by_cases hji : j = i
    · subst hji
      have hlt := (List.getElem?_eq_some_iff.mp hz).1
      rw [List.length_set] at hlt
      rw [List.getElem?_set_self hlt] at hz
      rw [← Option.some.inj hz]
      exact h.fits
    · rw [List.getElem?_set_ne (Ne.symm hji)] at hz
      exact hs.fits hz
  mounted := by
    obtain ⟨cache, hcache⟩ := hs.mounted
    refine ⟨cache, ?_⟩
    rw [Mounted, h.vfss, h.length]
    exact hcache
  vnodeCache := by
    rw [h.vnodeCache]
    exact hs.vnodeCache
  dentryCache := by
    rw [h.dentryCache]
    exact hs.dentryCache
  dentry d hd := by
    rw [h.dentries] at hd
    obtain ⟨j, hj⟩ := hs.dentry d hd
    exact ⟨j, h.designates hj⟩
  globalRoot := by
    obtain ⟨d, hd, hroot⟩ := hs.globalRoot
    rw [h.globalRoot]
    exact ⟨d, hd, h.designates hroot⟩

end Written

/-- What `tmpfs_write` makes of an inode, when it writes `buf` at the position `off`. -/
def writtenInode (vmalloc : VfsState → ℕ → List UInt8) (s : VfsState) (x : TmpfsInode)
    (buf : List UInt8) (off : ℕ) : TmpfsInode :=
  let newLength := max x.length (off + buf.length)
  let z := makeRoom vmalloc s x newLength
  { z with data := copyTo z.data off buf, length := newLength }

theorem le_pageAlign (n : ℕ) : n ≤ pageAlign n := by
  rw [pageAlign]
  omega

theorem length_copyTo {data buf : List UInt8} {off : ℕ} (h : off + buf.length ≤ data.length) :
    (copyTo data off buf).length = data.length := by
  simp only [copyTo, List.length_append, List.length_take, List.length_drop]
  omega

/-! ### `vfs_write` -/

variable {vmalloc : VfsState → ℕ → List UInt8} {buf : List UInt8} {off : ℕ}

/-- The buffer has room for the new length, and is as long as it says. -/
theorem makeRoom_spec {k : ℕ} (hv : ∀ s n, (vmalloc s n).length = n) (hx : Fits x) :
    k ≤ (makeRoom vmalloc s x k).effectiveLength ∧
      (makeRoom vmalloc s x k).data.length = (makeRoom vmalloc s x k).effectiveLength := by
  obtain ⟨hle, hdata⟩ := hx
  have halign := le_pageAlign k
  rw [makeRoom]
  split
  · refine ⟨halign, ?_⟩
    show (copyTo _ _ _).length = pageAlign k
    rw [length_copyTo, hv]
    rw [hv, List.length_take]
    omega
  · exact ⟨by omega, hdata⟩

theorem makeRoom_same (k : ℕ) :
    (makeRoom vmalloc s x k).name = x.name ∧ (makeRoom vmalloc s x k).children = x.children ∧
      (makeRoom vmalloc s x k).number = x.number ∧ (makeRoom vmalloc s x k).mode = x.mode := by
  rw [makeRoom]
  split
  · exact ⟨rfl, rfl, rfl, rfl⟩
  · exact ⟨rfl, rfl, rfl, rfl⟩

/-- **`tmpfs_write`** writes to a regular file. -/
theorem VfsInv.tmpfsWrite (hv : ∀ s n, (vmalloc s n).length = n) (h : s.VfsInv)
    (buf : List UInt8) (off : ℕ) (hy : s.VnodeOf v i y) (hreg : sIsreg y.mode = true)
    (hx : s.inodes[i]? = some x) :
    ∃ s', GoofyOs.tmpfsWrite vmalloc v buf off s = some (.ok (asInt buf.length), s') ∧
      s.Written v i (writtenInode vmalloc s x buf off) s' := by
  obtain ⟨hle, hdata⟩ := makeRoom_spec (s := s) (k := max x.length (off + buf.length)) hv (h.fits hx)
  let x' := writtenInode vmalloc s x buf off
  let s' : VfsState := { s with
    inodes := s.inodes.set i x'
    vnodes := s.vnodes.set v { y with size := x'.length } }
  have hroom : off + buf.length ≤
      (makeRoom vmalloc s x (max x.length (off + buf.length))).data.length := by omega
  have hfits : Fits x' := ⟨hle, (length_copyTo hroom).trans hdata⟩
  refine ⟨s', ?_, ⟨rfl, ⟨y, hy.get, rfl⟩, ⟨x, hx, makeRoom_same _⟩, hfits, rfl, rfl, rfl, rfl,
    rfl⟩⟩
  have hpriv : (deref y.privateData : VfsM ℕ) = deref (some i) := congrArg deref hy.privateData
  rw [GoofyOs.tmpfsWrite, bind_ok (getVnode_ok hy.get), if_neg (by simp [hreg]), hpriv,
    bind_ok (deref_some i s), bind_ok (getInode_ok hx), bind_ok (read_apply s), if_pos hroom,
    bind_ok (setInode_ok _), bind_ok (setVnode_ok _)]
  rfl

/-- `tmpfs_write` to anything else is an error. -/
theorem tmpfsWrite_error (hy : s.VnodeOf v i y) (hreg : sIsreg y.mode = false) :
    GoofyOs.tmpfsWrite vmalloc v buf off s = some (.error (-einval), s) := by
  rw [GoofyOs.tmpfsWrite, bind_ok (getVnode_ok hy.get), if_pos (by simp [hreg])]
  rfl

/-- `fd->pos += res`, for a regular file. -/
theorem advance_ok {fd : File} {res : ℤ} (hy : s.VnodeOf v i y) (hreg : sIsreg y.mode = true) :
    advance fd v res s = some (.ok { fd with pos := fd.pos + res.toNat }, s) := by
  rw [advance, bind_ok (getVnode_ok hy.get), hreg]
  by_cases hres : 0 < res
  · rw [if_pos (by simp [hres])]
    rfl
  · rw [if_neg (by simp [hres]), Int.toNat_of_nonpos (by omega)]
    rfl

/-- **`vfs_write`** to an open regular file. -/
theorem VfsInv.vfsWrite {fd : File} (hv : ∀ s n, (vmalloc s n).length = n) (h : s.VfsInv)
    (buf : List UInt8) (hd : s.Designates fd.entry i) (hx : s.inodes[i]? = some x)
    (hreg : sIsreg (if i = 0 then sIfdir ||| 0x1ff else x.mode) = true) :
    ∃ v s', GoofyOs.vfsWrite vmalloc fd buf s =
        some (.ok (asInt buf.length, { fd with pos := fd.pos + (asInt buf.length).toNat }), s') ∧
      s.Written v i (writtenInode vmalloc s x buf fd.pos) s' := by
  obtain ⟨v, y, hfile, hy⟩ := fileVnode_ok fd hd
  have hmode : sIsreg y.mode = true := by
    obtain ⟨x₀, hx₀, hmode⟩ := hy.mode
    obtain rfl := Option.some.inj (hx.symm.trans hx₀)
    rw [hmode]
    exact hreg
  obtain ⟨s', hwrite, hw⟩ := h.tmpfsWrite hv buf fd.pos hy hmode hx
  obtain ⟨z, hz, hzmode⟩ := hw.vnodeOf hy
  refine ⟨v, s', ?_, hw⟩
  rw [GoofyOs.vfsWrite, bind_ok hfile, bind_ok hwrite, bind_ok (advance_ok hz (hzmode ▸ hmode))]
  rfl

/-- `vfs_write` to anything else is an error. -/
theorem vfsWrite_error {fd : File} (hd : s.Designates fd.entry i) (hx : s.inodes[i]? = some x)
    (hreg : sIsreg (if i = 0 then sIfdir ||| 0x1ff else x.mode) = false) :
    GoofyOs.vfsWrite vmalloc fd buf s = some (.error (-einval), s) := by
  obtain ⟨v, y, hfile, hy⟩ := fileVnode_ok fd hd
  have hmode : sIsreg y.mode = false := by
    obtain ⟨x₀, hx₀, hmode⟩ := hy.mode
    obtain rfl := Option.some.inj (hx.symm.trans hx₀)
    rw [hmode]
    exact hreg
  rw [GoofyOs.vfsWrite, bind_ok hfile]
  exact bind_error (tmpfsWrite_error hy hmode)

end VfsState

end GoofyOs
