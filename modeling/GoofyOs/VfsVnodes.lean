import GoofyOs.VfsRun

/-!
# Vnodes and the vnode cache

`vfs_init` caches the vnode that `tmpfs_mount` then replaces in the root, and nothing else is ever
cached. A path that leads to another inode gets a new vnode each time, with its own copy of the size.

## Main definitions

* `VfsSys.OneVnode` — every path to an inode gets the vnode that is cached for it

## Main results

* `vnodes_reached` — this fails in every state that is reached, and two paths to an inode other than
  the root never get the same vnode
* `vfsSize_stale` — a run after which `vfs_size` of an open file is not the length of its inode
-/

namespace GoofyOs

open Proc PathWalk VfsState VfsSys

variable {vmalloc : VfsState → ℕ → List UInt8} {t t' : VfsSys} {s s' s₁ s₂ : VfsState}
  {c : VfsCall} {cs : List VfsCall} {path path' : List UInt8} {d d' i v v' : ℕ}

/-- The dentry `d` has the vnode `v`, one of the inode `i`. -/
def VfsState.HasVnode (s : VfsState) (d v i : ℕ) : Prop :=
  ∃ (e : Dentry) (y : Vnode), s.dentries[d]? = some e ∧ e.vnode = some v ∧ s.VnodeOf v i y

/-- Every path to an inode gets the vnode that is cached for it, and after a write `vfs_size` of every
open file is the length of its inode. -/
structure VfsSys.OneVnode (vmalloc : VfsState → ℕ → List UInt8) (t : VfsSys) : Prop where
  cached : ∀ path rel d v i s', ValidRel t.fs rel →
    vfsFindDentry path rel false t.fs = some (.ok d, s') → s'.HasVnode d v i →
    s'.vnodeCache.hmapLookup ⟨some 0, i⟩ = some v
  size : ∀ fd ∈ t.files, ∀ fd' ∈ t.files, ∀ i, t.fs.Designates fd.entry i →
    t.fs.Designates fd'.entry i → ∀ buf r s', vfsWrite vmalloc fd buf t.fs = some (.ok r, s') →
    ∃ x : TmpfsInode, s'.inodes[i]? = some x ∧ vfsSize fd' s' = some (.ok x.length, s')

/-! ### The vnode that is cached -/

/-- The vnode that `vfs_init` caches has no operations. -/
def VfsState.NodeUnused (s : VfsState) : Prop := ∃ y : Vnode, s.vnodes[0]? = some y ∧ y.ops = none

theorem VfsState.NodeUnused.grows (h : s.NodeUnused) (hgrow : s.Grows s') : s'.NodeUnused := by
  obtain ⟨y, hy, hops⟩ := h
  exact ⟨y, getElem?_of_isPrefix hgrow.vnodes hy, hops⟩

theorem VfsSys.Did.nodeUnused (hd : Did t c s') (h : t.fs.NodeUnused) : s'.NodeUnused := by
  cases hd with
  | grows hgrow _ _ => exact h.grows hgrow
  | added hgrow _ _ _ _ _ hadded =>
    obtain ⟨y, hy, hops⟩ := h.grows hgrow
    exact ⟨y, hadded.vnodes ▸ hy, hops⟩
  | @written v i x' hw _ =>
    obtain ⟨y, hy, hops⟩ := h
    obtain ⟨z, hz, hset⟩ := hw.vnodes
    by_cases hv : v = 0
    · subst hv
      obtain rfl := Option.some.inj (hy.symm.trans hz)
      refine ⟨{ y with size := x'.length }, ?_, hops⟩
      rw [hset]
      exact List.getElem?_set_self (List.getElem?_eq_some_iff.mp hy).1
    · refine ⟨y, ?_, hops⟩
      rw [hset, List.getElem?_set_ne hv, hy]

theorem VfsSys.Reached.nodeUnused (hv : ∀ s n, (vmalloc s n).length = n) (h : Reached vmalloc cs t) :
    t.fs.NodeUnused := by
  have hrun : t.SysInv ∧ t.fs.NodeUnused := by
    refine Run.invariant (P := fun t : VfsSys => t.SysInv ∧ t.fs.NodeUnused) h ?_ ?_
    · rintro t c t' ⟨ht, hunused⟩ ha hc
      obtain ⟨hdid, ht'⟩ := exec_cases hv ht ha hc
      exact ⟨ht', hdid.nodeUnused hunused⟩
    · exact ⟨Reached.sysInv hv (.nil _), _, rfl, rfl⟩
  exact hrun.2

/-- The root gets a vnode that is not the one cached for it. -/
theorem VfsState.VfsInv.findRoot (h : s.VfsInv) (hunused : s.NodeUnused) :
    ∃ d v, vfsFindDentry [slash] none false s = some (.ok d, s) ∧ s.HasVnode d v 0 ∧ v ≠ 0 := by
  obtain ⟨d, hroot, e, v, y, he, hv, hy⟩ := h.globalRoot
  refine ⟨d, v, ?_, ⟨e, y, he, hv, hy⟩, ?_⟩
  · have hparse : vfsParsePath [slash] = some [[slash]] := rfl
    rw [vfsFindDentry, hparse, bind_ok (deref_some _ s), if_neg (by simp), bind_ok (read_apply s)]
    simp only [List.head?_cons, if_true, hroot]
    exact bind_ok (deref_some d s)
  · rintro rfl
    obtain ⟨z, hz, hops⟩ := hunused
    obtain rfl := Option.some.inj (hz.symm.trans hy.get)
    have := hy.ops
    rw [hops] at this
    simp at this

/-! ### The other vnodes -/

theorem VfsState.HasVnode.designates (h : s.HasVnode d v i) : s.Designates d i := by
  obtain ⟨e, y, he, hv, hy⟩ := h
  exact ⟨e, v, y, he, hv, hy⟩

/-- A path from the root to another inode makes a new vnode. -/
theorem VfsState.VfsInv.le_of_hasVnode (h : s.VfsInv)
    (hfind : vfsFindDentry path none false s = some (.ok d, s')) (hd : s'.HasVnode d v i)
    (hi : i ≠ 0) : s.Grows s' ∧ s'.VfsInv ∧ s.vnodes.length ≤ v := by
  cases hfiles : vfsParsePath path with
  | none =>
    rw [vfsFindDentry_none hfiles] at hfind
    simp at hfind
  | some files =>
    have hstart : s.Start none 0 := rfl
    obtain ⟨s₁, hgrow, h₁, hres⟩ := h.findDentry false hstart hfiles
    cases hr : s.resolve path files 0 false with
    | error e =>
      rw [hr] at hres
      simp [hres] at hfind
    | ok j =>
      rw [hr] at hres
      obtain ⟨d₁, hfind₁, hd₁, hfresh⟩ := hres
      have heq := Option.some.inj (hfind₁.symm.trans hfind)
      obtain rfl : d₁ = d := Except.ok.inj (congrArg Prod.fst heq)
      obtain rfl : s₁ = s' := congrArg Prod.snd heq
      obtain rfl := hd₁.unique hd.designates
      refine ⟨hgrow, h₁, ?_⟩
      obtain ⟨e, y, he, hv, hy⟩ := hd
      obtain ⟨e', v', he', hv', hle⟩ := hfresh (by simp [Ne.symm hi])
      obtain rfl := Option.some.inj (he.symm.trans he')
      obtain rfl := Option.some.inj (hv.symm.trans hv')
      exact hle

/-- **Vnodes** in every state that is reached: the root does not have one vnode that is cached, and two
paths to another inode never get the same vnode, nor one that is cached. -/
theorem vnodes_reached (hv : ∀ s n, (vmalloc s n).length = n) (h : Reached vmalloc cs t) :
    ¬ t.OneVnode vmalloc ∧
    ∀ path path' d d' v v' i s₁ s₂, i ≠ 0 →
      vfsFindDentry path none false t.fs = some (.ok d, s₁) → s₁.HasVnode d v i →
      vfsFindDentry path' none false s₁ = some (.ok d', s₂) → s₂.HasVnode d' v' i →
      v ≠ v' ∧ s₂.vnodeCache.hmapLookup ⟨some 0, i⟩ = none := by
  have hinv := (h.sysInv hv).fs
  constructor
  · intro hone
    obtain ⟨d, v, hfind, hd, hne⟩ := hinv.findRoot (h.nodeUnused hv)
    have hrel : ValidRel t.fs none := fun d hd => by simp at hd
    have hcached := hone.cached _ none d v 0 t.fs hrel hfind hd
    rw [hinv.vnodeCache, if_pos rfl] at hcached
    exact hne (Option.some.inj hcached).symm
  · intro path path' d d' v v' i s₁ s₂ hi hfind hd hfind' hd'
    obtain ⟨-, h₁, -⟩ := hinv.le_of_hasVnode hfind hd hi
    obtain ⟨-, h₂, hle⟩ := h₁.le_of_hasVnode hfind' hd' hi
    obtain ⟨e, y, he, hv, hy⟩ := hd
    have hlt := (List.getElem?_eq_some_iff.mp hy.get).1
    refine ⟨Nat.ne_of_lt (Nat.lt_of_lt_of_le hlt hle), ?_⟩
    rw [h₂.vnodeCache, if_neg hi]

theorem vnodes_sampleCalls : ∃ t, Reached vzeroed sampleCalls t ∧ ¬ t.OneVnode vzeroed := by
  obtain ⟨t, ht, -⟩ := reached_sampleCalls
  exact ⟨t, ht, (vnodes_reached length_vzeroed ht).1⟩

/-- The inode of an open file. -/
def fileInode (fd : File) : VfsM ℕ := do
  let vnode ← fileVnode fd
  let x ← getVnode vnode
  deref x.privateData

/-- After `vfs_create("/f")` and two times `vfs_open("/f")`, both files are on the inode 1. A `vfs_write`
of two bytes through the first makes its length 2, and `vfs_size` of the second is still 0. -/
theorem vfsSize_stale : ∃ t fd fd' r s', Reached vzeroed [.vfsCreate [47, 102] none 0,
      .vfsOpen [47, 102] none 0, .vfsOpen [47, 102] none 0] t ∧
    t.files[0]? = some fd ∧ t.files[1]? = some fd' ∧
    vfsWrite vzeroed fd [49, 50] t.fs = some (r, s') ∧
    (fileInode fd t.fs).map Prod.fst = some (.ok 1) ∧
    (fileInode fd' t.fs).map Prod.fst = some (.ok 1) ∧ r.toOption.map Prod.fst = some 2 ∧
    (s'.inodes[1]?).map TmpfsInode.length = some 2 ∧
    (vfsSize fd' s').map Prod.fst = some (.ok 0) := by
  let calls : List VfsCall :=
    [.vfsCreate [47, 102] none 0, .vfsOpen [47, 102] none 0, .vfsOpen [47, 102] none 0]
  have hcheck : ((Run.check (exec vzeroed) Allowed ⟨initVfs, []⟩ calls).bind fun t =>
      (t.files[0]?).bind fun fd => (t.files[1]?).bind fun fd' =>
      (vfsWrite vzeroed fd [49, 50] t.fs).map fun r =>
        ([(fileInode fd t.fs).map Prod.fst, (fileInode fd' t.fs).map Prod.fst,
            (vfsSize fd' r.2).map Prod.fst],
          r.1.toOption.map Prod.fst, (r.2.inodes[1]?).map TmpfsInode.length)) =
      some ([some (.ok 1), some (.ok 1), some (.ok 0)], some 2, some 2) := by decide +kernel
  obtain ⟨t, ht, hcheck⟩ := Option.bind_eq_some_iff.mp hcheck
  obtain ⟨fd, hfd, hcheck⟩ := Option.bind_eq_some_iff.mp hcheck
  obtain ⟨fd', hfd', hcheck⟩ := Option.bind_eq_some_iff.mp hcheck
  obtain ⟨⟨r, s'⟩, hwrite, hcheck⟩ := Option.map_eq_some_iff.mp hcheck
  simp only [Prod.mk.injEq, List.cons.injEq] at hcheck
  obtain ⟨⟨hinode, hinode', hsize, -⟩, hres, hlength⟩ := hcheck
  exact ⟨t, fd, fd', r, s', Run.of_check ht, hfd, hfd', hwrite, hinode, hinode', hres, hlength,
    hsize⟩

end GoofyOs
