import GoofyOs.ForMathlib.Run
import GoofyOs.VfsWrite
import Mathlib.Logic.Relation

/-!
# Runs of the file system layer

The states that calls of `vfs_mkdir`, `vfs_create`, `vfs_open` and `vfs_write` reach after
`vfs_init`. A path may start from any dentry, and a write goes through any open file.

## Main definitions

* `VfsCall`, `VfsSys.exec` — a call, and what it does
* `VfsSys.Reached` — the states after a run
* `VfsSys.SysInv` — the invariant, with the dentries of the open files

## Main results

* `VfsSys.exec_cases` — what a call does to the state
* `VfsSys.Reached.sysInv` — the invariant holds in every state that is reached
* `tmpfs_tree` — the tree of inodes in every state that is reached
* `vfsCreate_vfsMkdir_reached` — creation and lookup in every state that is reached
-/

namespace GoofyOs

open Proc PathWalk VfsState

/-! ### The initial state -/

/-- The state that `vfs_init` leaves. -/
def initVfs : VfsState where
  inodes := [⟨[slash], [], [], 0, 0, 0, 0⟩]
  vnodes := [⟨false, none, some 0, none, sIfdir ||| 0x1ff, 0, 0⟩,
    ⟨false, some .tmpfsOperations, some 0, some 0, sIfdir ||| 0x1ff, 0, 0⟩]
  dentries := [⟨[slash], none, some 1⟩]
  vfss := [⟨false, some ⟨1, Hashmap.hmapInit.push 0 0⟩⟩]
  dentryCache := Hashmap.hmapInit.push ⟨none, [slash]⟩ 0
  vnodeCache := Hashmap.hmapInit.push ⟨some 0, 0⟩ 0
  globalRoot := some 0

theorem vfsInit_ok : vfsInit emptyVfs = some (.ok (), initVfs) := rfl

theorem inodes_initVfs {i : ℕ} {x : TmpfsInode} (hx : initVfs.inodes[i]? = some x) :
    i = 0 ∧ x = ⟨[slash], [], [], 0, 0, 0, 0⟩ := by
  have hlt : i < 1 := (List.getElem?_eq_some_iff.mp hx).1
  obtain rfl : i = 0 := by omega
  exact ⟨rfl, (Option.some.inj hx).symm⟩

theorem designates_initVfs : initVfs.Designates 0 0 :=
  ⟨_, 1, _, rfl, rfl, rfl, rfl, rfl, rfl, rfl, rfl, _, rfl, rfl⟩

/-- `vfs_init` establishes the invariant. -/
theorem vfsInv_initVfs : initVfs.VfsInv where
  tree := by
    refine ⟨Nat.one_pos, fun hx => ?_, fun hx hc => ?_, fun hx => ?_, fun hpos hc => ?_,
      fun hx hy _ _ => ?_⟩
    · obtain ⟨rfl, rfl⟩ := inodes_initVfs hx
      rfl
    · obtain ⟨rfl, rfl⟩ := inodes_initVfs hx
      simp at hc
    · obtain ⟨rfl, rfl⟩ := inodes_initVfs hx
      exact List.nodup_nil
    · exact absurd hc (Nat.not_lt.mpr hpos)
    · exact (inodes_initVfs hx).1.trans (inodes_initVfs hy).1.symm
  fits hx := by
    obtain ⟨rfl, rfl⟩ := inodes_initVfs hx
    exact ⟨le_rfl, rfl⟩
  mounted := ⟨Hashmap.hmapInit.push 0 0, rfl,
    (Hashmap.fixed_hmapInit : (Hashmap.hmapInit : Hashmap ℕ ℕ).Fixed),
    hmapLookup_index fun _ => rfl⟩
  vnodeCache n := by
    show (Hashmap.hmapInit.push (⟨some 0, 0⟩ : VnodeKey) 0).hmapLookup _ = _
    rw [Hashmap.hmapLookup_push, Hashmap.hmapLookup_hmapInit, Option.none_or]
    simp only [VnodeKey.mk.injEq, true_and]
  dentryCache d name := by
    show (Hashmap.hmapInit.push (⟨none, [slash]⟩ : DcacheKey) 0).hmapLookup _ = _
    rw [Hashmap.hmapLookup_push, Hashmap.hmapLookup_hmapInit, Option.none_or, if_neg (by simp)]
  dentry d hd := by
    obtain rfl : d = 0 := Nat.lt_one_iff.mp hd
    exact ⟨0, designates_initVfs⟩
  globalRoot := ⟨0, rfl, designates_initVfs⟩

/-! ### Calls -/

/-- A call. Files are named by the order in which they were opened. -/
inductive VfsCall
  | vfsMkdir (path : List UInt8) (rel : Option ℕ) (flags : BitVec 16)
  | vfsCreate (path : List UInt8) (rel : Option ℕ) (flags : BitVec 16)
  | vfsOpen (path : List UInt8) (rel : Option ℕ) (flags : BitVec 16)
  | vfsWrite (fd : ℕ) (buf : List UInt8)

/-- The file system layer and the files that its callers opened. -/
structure VfsSys where
  fs : VfsState
  files : List File

namespace VfsSys

/-- What a call leaves behind, whatever it returned. -/
def exec (vmalloc : VfsState → ℕ → List UInt8) (t : VfsSys) : VfsCall → Option VfsSys
  | .vfsMkdir path rel flags => (GoofyOs.vfsMkdir path rel flags t.fs).map fun r => ⟨r.2, t.files⟩
  | .vfsCreate path rel flags =>
    (GoofyOs.vfsCreate path rel flags t.fs).map fun r => ⟨r.2, t.files⟩
  | .vfsOpen path rel flags => (GoofyOs.vfsOpen path rel flags t.fs).map fun r =>
      ⟨r.2, match r.1 with
        | .ok fd => t.files ++ [fd]
        | .error _ => t.files⟩
  | .vfsWrite fd buf => (t.files[fd]?).bind fun file => (GoofyOs.vfsWrite vmalloc file buf t.fs).map
      fun r => ⟨r.2, match r.1 with
        | .ok (_, file) => t.files.set fd file
        | .error _ => t.files⟩

/-- `rel` is null or a dentry. -/
def ValidRel (s : VfsState) (rel : Option ℕ) : Prop := ∀ d, rel = some d → d < s.dentries.length

instance (s : VfsState) (rel : Option ℕ) : Decidable (ValidRel s rel) :=
  match rel with
  | none => isTrue fun _ h => by simp at h
  | some d => decidable_of_iff (d < s.dentries.length) (by simp [ValidRel])

/-- Paths start from dentries. -/
def Allowed (t : VfsSys) : VfsCall → Prop
  | .vfsMkdir _ rel _ | .vfsCreate _ rel _ | .vfsOpen _ rel _ => ValidRel t.fs rel
  | .vfsWrite _ _ => True

instance (t : VfsSys) : (c : VfsCall) → Decidable (Allowed t c)
  | .vfsMkdir _ rel _ => inferInstanceAs (Decidable (ValidRel t.fs rel))
  | .vfsCreate _ rel _ => inferInstanceAs (Decidable (ValidRel t.fs rel))
  | .vfsOpen _ rel _ => inferInstanceAs (Decidable (ValidRel t.fs rel))
  | .vfsWrite _ _ => inferInstanceAs (Decidable True)

/-- The calls `cs` lead from `vfs_init` to `t`. -/
def Reached (vmalloc : VfsState → ℕ → List UInt8) (cs : List VfsCall) (t : VfsSys) : Prop :=
  Run (exec vmalloc) Allowed ⟨initVfs, []⟩ cs t

/-- The invariant of the file system layer, with open files that have dentries. -/
structure SysInv (t : VfsSys) : Prop where
  fs : t.fs.VfsInv
  files : ∀ fd ∈ t.files, fd.entry < t.fs.dentries.length

/-- The call names a new child of the inode `p`. -/
def AddsUnder (t : VfsSys) (p : ℕ) (name : Name) : VfsCall → Prop
  | .vfsMkdir path rel _ | .vfsCreate path rel _ => ∃ i files, t.fs.Start rel i ∧
      vfsParsePath path = some files ∧ t.fs.AddTarget path files i p name
  | .vfsOpen _ _ _ | .vfsWrite _ _ => False

variable {vmalloc : VfsState → ℕ → List UInt8} {t t' : VfsSys} {s s' : VfsState} {c : VfsCall}
  {cs : List VfsCall} {path : List UInt8} {rel : Option ℕ} {flags : BitVec 16} {files : List Name}

/-! ### What a call does -/

/-- The inode that `rel` stands for. -/
theorem ValidRel.start (hrel : ValidRel s rel) (h : s.VfsInv) : ∃ i, s.Start rel i := by
  cases rel with
  | none => exact ⟨0, rfl⟩
  | some d => exact h.dentry d (hrel d rfl)

/-- A path that overflows the buffer of `vfs_parse_path` does not get further. -/
theorem vfsFindDentry_none {parent : Bool} (hfiles : vfsParsePath path = none) :
    vfsFindDentry path rel parent s = none := by
  rw [vfsFindDentry, hfiles]
  rfl

/-- A call names one inode to add to. -/
theorem AddsUnder.unique {p p' : ℕ} {name name' : Name} (h : t.AddsUnder p name c)
    (h' : t.AddsUnder p' name' c) : p = p' := by
  have key : ∀ {path rel}, (∃ i files, t.fs.Start rel i ∧ vfsParsePath path = some files ∧
      t.fs.AddTarget path files i p name) → (∃ i files, t.fs.Start rel i ∧
      vfsParsePath path = some files ∧ t.fs.AddTarget path files i p' name') → p = p' := by
    rintro path rel ⟨i, files, hi, hfiles, ht⟩ ⟨i', files', hi', hfiles', ht'⟩
    obtain rfl := hi.unique hi'
    obtain rfl := Option.some.inj (hfiles.symm.trans hfiles')
    exact Except.ok.inj (ht.parent.symm.trans ht'.parent)
  cases c with
  | vfsMkdir path rel flags => exact key h h'
  | vfsCreate path rel flags => exact key h h'
  | vfsOpen path rel flags => exact h.elim
  | vfsWrite fd buf => exact h.elim

/-- What a call did: it looked something up, it added an inode, or it wrote to one. -/
inductive Did (t : VfsSys) (c : VfsCall) (s' : VfsState) : Prop
  | grows (h : t.fs.Grows s') (hs' : s'.VfsInv) (hno : ∀ p name, ¬ t.AddsUnder p name c)
  | added {s₁ : VfsState} {p : ℕ} {name : Name} {mode : BitVec 16} (hgrow : t.fs.Grows s₁)
      (h₁ : s₁.VfsInv) (hp : p < s₁.inodes.length) (hc : t.AddsUnder p name c)
      (habs : s₁.child p name = none) (hmode : sIsdir mode = true ∨ sIsreg mode = true)
      (h : s₁.Added p name mode s')
  | written {v i : ℕ} {x' : TmpfsInode} (h : t.fs.Written v i x' s')
      (hno : ∀ p name, ¬ t.AddsUnder p name c)

/-- The type of a new inode is the one that was asked for, whatever the flags. -/
theorem and_sIfmt {fmt : BitVec 16} (flags : BitVec 16) (hfmt : fmt &&& sIfmt = fmt) :
    (flags &&& ~~~sIfmt ||| fmt) &&& sIfmt = fmt := by
  ext k hk
  have hbit := congrArg (fun b : BitVec 16 => b[k]) hfmt
  simp only [BitVec.getElem_and] at hbit
  simp only [BitVec.getElem_and, BitVec.getElem_or, BitVec.getElem_not]
  generalize flags[k] = a, fmt[k] = b, sIfmt[k] = m at hbit ⊢
  revert a b m
  decide

theorem sIsdir_mkdir (flags : BitVec 16) : sIsdir (flags &&& ~~~sIfmt ||| sIfdir) = true :=
  decide_eq_true (and_sIfmt flags rfl)

theorem sIsreg_create (flags : BitVec 16) : sIsreg (flags &&& ~~~sIfmt ||| sIfreg) = true :=
  decide_eq_true (and_sIfmt flags rfl)

/-- What `vfs_mkdir` and `vfs_create` do, if they return. -/
theorem vfsAdd_cases {fmt : BitVec 16} {r : Except ℤ Unit × VfsState} (h : s.VfsInv)
    (hrel : ValidRel s rel) (hr : GoofyOs.vfsAdd (tmpfsAdd fmt) path rel flags s = some r) :
    (∃ e, r.1 = .error e ∧ s.Grows r.2 ∧ r.2.VfsInv ∧ ∀ i files p name, s.Start rel i →
      vfsParsePath path = some files → ¬ s.AddTarget path files i p name) ∨
    ∃ s₁ i files p name, r.1 = .ok () ∧ s.Grows s₁ ∧ s₁.VfsInv ∧ p < s₁.inodes.length ∧
      s.Start rel i ∧ vfsParsePath path = some files ∧ s.AddTarget path files i p name ∧
      s₁.child p name = none ∧ s₁.Added p name (flags &&& ~~~sIfmt ||| fmt) r.2 := by
  obtain ⟨i, hi⟩ := hrel.start h
  cases hfiles : vfsParsePath path with
  | none =>
    rw [GoofyOs.vfsAdd, bind_none (vfsFindDentry_none hfiles)] at hr
    simp at hr
  | some files =>
    by_cases ht : ∃ p name, s.AddTarget path files i p name
    · obtain ⟨p, name, ht⟩ := ht
      obtain ⟨s₁, s', hadd, hgrow, h₁, hp, hadded⟩ := h.vfsAdd_ok hi hfiles ht fmt flags
      obtain rfl := Option.some.inj (hadd.symm.trans hr)
      refine Or.inr ⟨s₁, i, files, p, name, rfl, hgrow, h₁, hp, hi, rfl, ht, ?_, hadded⟩
      rw [hgrow.child]
      exact ht.absent
    · obtain ⟨e, s', hadd, hgrow, h'⟩ := h.vfsAdd_error hi hfiles
        (fun p name ht' => ht ⟨p, name, ht'⟩) fmt flags
      obtain rfl := Option.some.inj (hadd.symm.trans hr)
      refine Or.inl ⟨e, rfl, hgrow, h', fun j files' p name hj hfiles' ht' => ht ⟨p, name, ?_⟩⟩
      obtain rfl := Option.some.inj hfiles'
      exact hj.unique hi ▸ ht'

/-- What `vfs_open` does, if it returns. -/
theorem vfsOpen_cases {r : Except ℤ File × VfsState} (h : s.VfsInv) (hrel : ValidRel s rel)
    (hr : GoofyOs.vfsOpen path rel flags s = some r) :
    s.Grows r.2 ∧ r.2.VfsInv ∧ ∀ fd, r.1 = .ok fd → fd.entry < r.2.dentries.length := by
  obtain ⟨i, hi⟩ := hrel.start h
  cases hfiles : vfsParsePath path with
  | none =>
    rw [GoofyOs.vfsOpen, bind_none (vfsFindDentry_none hfiles)] at hr
    simp at hr
  | some files =>
    obtain ⟨s', hgrow, h', hopen⟩ := h.vfsOpen hi hfiles flags
    cases hres : s.resolve path files i false with
    | error e =>
      rw [hres] at hopen
      obtain rfl := Option.some.inj (hopen.symm.trans hr)
      exact ⟨hgrow, h', fun fd hfd => by simp at hfd⟩
    | ok j =>
      rw [hres] at hopen
      obtain ⟨d', hopen, e, v, y, he, -⟩ := hopen
      obtain rfl := Option.some.inj (hopen.symm.trans hr)
      refine ⟨hgrow, h', fun fd hfd => ?_⟩
      obtain rfl := Except.ok.inj hfd
      exact (List.getElem?_eq_some_iff.mp he).1

/-- What `vfs_write` does. -/
theorem vfsWrite_cases {fd : File} (buf : List UInt8) (hv : ∀ s n, (vmalloc s n).length = n)
    (h : s.VfsInv) (hfd : fd.entry < s.dentries.length) :
    GoofyOs.vfsWrite vmalloc fd buf s = some (.error (-einval), s) ∨
    ∃ v i x s', s.inodes[i]? = some x ∧ s.Designates fd.entry i ∧
      GoofyOs.vfsWrite vmalloc fd buf s =
        some (.ok (asInt buf.length, { fd with pos := fd.pos + (asInt buf.length).toNat }), s') ∧
      s.Written v i (writtenInode vmalloc s x buf fd.pos) s' := by
  obtain ⟨i, hi⟩ := h.dentry fd.entry hfd
  obtain ⟨x, hx⟩ : ∃ x, s.inodes[i]? = some x := ⟨_, List.getElem?_eq_getElem hi.lt⟩
  cases hreg : sIsreg (if i = 0 then sIfdir ||| 0x1ff else x.mode) with
  | false => exact Or.inl (vfsWrite_error hi hx hreg)
  | true =>
    obtain ⟨v, s', hwrite, hw⟩ := h.vfsWrite hv buf hi hx hreg
    exact Or.inr ⟨v, i, _, s', hx, hi, hwrite, hw⟩

/-! ### Runs -/

theorem Did.vfsInv {s' : VfsState} (h : Did t c s') (ht : t.fs.VfsInv) : s'.VfsInv := by
  cases h with
  | grows _ hs' _ => exact hs'
  | added _ h₁ hp _ habs _ h => exact h.vfsInv h₁ hp habs
  | written h _ => exact h.vfsInv ht

theorem Did.dentries {s' : VfsState} (h : Did t c s') : t.fs.dentries <+: s'.dentries := by
  cases h with
  | grows h _ _ => exact h.dentries
  | added hgrow _ _ _ _ _ h =>
    rw [h.dentries]
    exact hgrow.dentries
  | written h _ => exact h.dentries ▸ List.prefix_rfl

theorem sysInv_of_files {files : List File} (ht : t.SysInv) (hd : Did t c s')
    (hfiles : ∀ fd ∈ files, fd ∈ t.files ∨ fd.entry < s'.dentries.length) :
    (⟨s', files⟩ : VfsSys).SysInv where
  fs := hd.vfsInv ht.fs
  files fd hfd := by
    rcases hfiles fd hfd with hold | hnew
    · exact Nat.lt_of_lt_of_le (ht.files fd hold) hd.dentries.length_le
    · exact hnew

theorem did_vfsAdd {fmt : BitVec 16} {r : Except ℤ Unit × VfsState} (h : t.fs.VfsInv)
    (hfmt : ∀ flags, sIsdir (flags &&& ~~~sIfmt ||| fmt) = true ∨
      sIsreg (flags &&& ~~~sIfmt ||| fmt) = true)
    (hc : ∀ p name, t.AddsUnder p name c ↔ ∃ i files, t.fs.Start rel i ∧
      vfsParsePath path = some files ∧ t.fs.AddTarget path files i p name)
    (hrel : ValidRel t.fs rel) (hr : GoofyOs.vfsAdd (tmpfsAdd fmt) path rel flags t.fs = some r) :
    Did t c r.2 := by
  rcases vfsAdd_cases h hrel hr with ⟨e, -, hgrow, hs', hno⟩ |
    ⟨s₁, i, files, p, name, -, hgrow, h₁, hp, hi, hfiles, ht, habs, hadded⟩
  · refine .grows hgrow hs' fun p name hadds => ?_
    obtain ⟨i, files, hi, hfiles, ht⟩ := (hc p name).mp hadds
    exact hno i files p name hi hfiles ht
  · exact .added hgrow h₁ hp ((hc p name).mpr ⟨i, files, hi, hfiles, ht⟩) habs (hfmt flags) hadded

/-- **What a call does**, and the invariant after it. -/
theorem exec_cases (hv : ∀ s n, (vmalloc s n).length = n) (ht : t.SysInv) (ha : t.Allowed c)
    (hc : exec vmalloc t c = some t') : Did t c t'.fs ∧ t'.SysInv := by
  have hold : ∀ fd ∈ t.files, fd ∈ t.files ∨ fd.entry < t'.fs.dentries.length :=
    fun fd hfd => Or.inl hfd
  cases c with
  | vfsMkdir path rel flags =>
    obtain ⟨r, hr, rfl⟩ := Option.map_eq_some_iff.mp hc
    have hd : Did t (.vfsMkdir path rel flags) r.2 :=
      did_vfsAdd ht.fs (fun flags => Or.inl (sIsdir_mkdir flags)) (fun _ _ => Iff.rfl) ha hr
    exact ⟨hd, sysInv_of_files ht hd hold⟩
  | vfsCreate path rel flags =>
    obtain ⟨r, hr, rfl⟩ := Option.map_eq_some_iff.mp hc
    have hd : Did t (.vfsCreate path rel flags) r.2 :=
      did_vfsAdd ht.fs (fun flags => Or.inr (sIsreg_create flags)) (fun _ _ => Iff.rfl) ha hr
    exact ⟨hd, sysInv_of_files ht hd hold⟩
  | vfsOpen path rel flags =>
    obtain ⟨r, hr, rfl⟩ := Option.map_eq_some_iff.mp hc
    obtain ⟨hgrow, hs', hfile⟩ := vfsOpen_cases ht.fs ha hr
    have hd : Did t (.vfsOpen path rel flags) r.2 :=
      .grows hgrow hs' fun _ _ hadds => hadds
    refine ⟨hd, sysInv_of_files ht hd fun fd hfd => ?_⟩
    cases hres : r.1 with
    | error e =>
      rw [hres] at hfd
      exact Or.inl hfd
    | ok file =>
      rw [hres] at hfd
      rcases List.mem_append.mp hfd with hfd | hfd
      · exact Or.inl hfd
      · rw [List.mem_singleton.mp hfd]
        exact Or.inr (hfile file hres)
  | vfsWrite fd buf =>
    obtain ⟨file, hfile, hc⟩ := Option.bind_eq_some_iff.mp hc
    obtain ⟨r, hr, rfl⟩ := Option.map_eq_some_iff.mp hc
    have hentry := ht.files file (List.mem_of_getElem? hfile)
    rcases vfsWrite_cases buf hv ht.fs hentry with hwrite |
      ⟨v, i, x, s', -, -, hwrite, hw⟩
    · obtain rfl := Option.some.inj (hwrite.symm.trans hr)
      have hd : Did t (.vfsWrite fd buf) t.fs :=
        .grows (Grows.refl t.fs) ht.fs fun _ _ hadds => hadds
      exact ⟨hd, sysInv_of_files ht hd hold⟩
    · obtain rfl := Option.some.inj (hwrite.symm.trans hr)
      have hd : Did t (.vfsWrite fd buf) s' := .written hw fun _ _ hadds => hadds
      refine ⟨hd, sysInv_of_files ht hd fun fd' hfd' => ?_⟩
      rcases List.mem_or_eq_of_mem_set hfd' with hfd' | rfl
      · exact Or.inl hfd'
      · refine Or.inr ?_
        rw [hw.dentries]
        exact hentry

/-- **Run lemma.** The invariant holds in every state that is reached. -/
theorem Reached.sysInv (hv : ∀ s n, (vmalloc s n).length = n) (h : Reached vmalloc cs t) :
    t.SysInv :=
  h.invariant (fun _ _ _ ht ha hc => (exec_cases hv ht ha hc).2)
    ⟨vfsInv_initVfs, fun _ hfd => by simp at hfd⟩

end VfsSys

open VfsSys

variable {vmalloc : VfsState → ℕ → List UInt8} {t : VfsSys} {s s' : VfsState} {cs : List VfsCall}
  {path q : List UInt8} {rel : Option ℕ} {flags : BitVec 16} {files : List Name} {i j n p : ℕ}
  {name : Name}

/-! ### The tree of inodes -/

/-- The inode `c` is a child of the inode `i`. -/
def VfsState.ChildOf (s : VfsState) (c i : ℕ) : Prop :=
  ∃ x : TmpfsInode, s.inodes[i]? = some x ∧ c ∈ x.children

/-- Every inode is below the root. -/
theorem VfsState.Tree.reachable (h : s.Tree) {c : ℕ} (hc : c < s.inodes.length) :
    Relation.ReflTransGen (fun i c => s.ChildOf c i) 0 c := by
  induction c using Nat.strong_induction_on with
  | _ c ih =>
    by_cases hpos : 0 < c
    · obtain ⟨i, x, hx, hmem⟩ := h.parent hpos hc
      obtain ⟨hlt, -⟩ := h.child_lt hx hmem
      exact .tail (ih i hlt (hlt.trans hc)) ⟨x, hx, hmem⟩
    · obtain rfl := Nat.eq_zero_of_not_pos hpos
      exact .refl

/-- **The tree of inodes** in every state that is reached: the names below an inode are distinct,
the numbers are distinct and below the next one, the index finds exactly the inode with a number,
and every inode but the root has one parent and is below the root. -/
theorem tmpfs_tree (hv : ∀ s n, (vmalloc s n).length = n) (h : Reached vmalloc cs t) :
    (∀ (i : ℕ) (x : TmpfsInode), t.fs.inodes[i]? = some x →
      (x.children.map t.fs.nameOf).Nodup) ∧
    (∀ (i j : ℕ) (x y : TmpfsInode), t.fs.inodes[i]? = some x → t.fs.inodes[j]? = some y →
      x.number = y.number → i = j) ∧
    (∃ tblock, t.fs.vfss = [⟨false, some tblock⟩] ∧
      (∀ x ∈ t.fs.inodes, x.number < tblock.currentInode) ∧
      ∀ n i, tblock.tnodeCache.hmapLookup n = some i ↔
        ∃ x : TmpfsInode, t.fs.inodes[i]? = some x ∧ x.number = n) ∧
    ∀ c, c ≠ 0 → c < t.fs.inodes.length → (∃! i, t.fs.ChildOf c i) ∧
      Relation.ReflTransGen (fun i c => t.fs.ChildOf c i) 0 c := by
  have hinv := (h.sysInv hv).fs
  have ht := hinv.tree
  refine ⟨fun i x hx => ht.names hx, fun i j x y hx hy hxy => ?_, ?_, fun c hc hlt => ⟨?_, ?_⟩⟩
  · rw [← ht.number hx, ← ht.number hy, hxy]
  · obtain ⟨cache, hvfs, -, hcache⟩ := hinv.mounted
    refine ⟨_, hvfs, fun x hx => ?_, fun n i => ?_⟩
    · obtain ⟨i, hi⟩ := List.mem_iff_getElem?.mp hx
      rw [ht.number hi]
      exact (List.getElem?_eq_some_iff.mp hi).1
    · show cache.hmapLookup n = some i ↔ _
      rw [hcache]
      constructor
      · intro hn
        split at hn
        · next hlt =>
          obtain rfl := Option.some.inj hn
          have hget : t.fs.inodes[n]? = some t.fs.inodes[n] := List.getElem?_eq_getElem hlt
          exact ⟨_, hget, ht.number hget⟩
        · simp at hn
      · rintro ⟨x, hx, rfl⟩
        rw [ht.number hx, if_pos (List.getElem?_eq_some_iff.mp hx).1]
  · obtain ⟨i, x, hx, hmem⟩ := ht.parent (Nat.pos_of_ne_zero hc) hlt
    refine ⟨i, ⟨x, hx, hmem⟩, ?_⟩
    rintro j ⟨y, hy, hmem'⟩
    exact ht.unique hy hx hmem' hmem
  · exact ht.reachable hlt

/-- A `vmalloc` that returns zeroed memory. -/
def vzeroed (_ : VfsState) (n : ℕ) : List UInt8 := List.replicate n 0

theorem length_vzeroed (s : VfsState) (n : ℕ) : (vzeroed s n).length = n := List.length_replicate

/-- `vfs_mkdir("/a")`, `vfs_create("/a/f")`, `vfs_open("/a/f")`, and `vfs_write` of two bytes. -/
def sampleCalls : List VfsCall :=
  [.vfsMkdir [47, 97] none 0, .vfsCreate [47, 97, 47, 102] none 0,
    .vfsOpen [47, 97, 47, 102] none 0, .vfsWrite 0 [49, 50]]

theorem reached_sampleCalls : ∃ t, Reached vzeroed sampleCalls t ∧ t.fs.inodes.length = 3 := by
  have hcheck : ((Run.check (exec vzeroed) Allowed ⟨initVfs, []⟩ sampleCalls).map
      fun t => t.fs.inodes.length) = some 3 := by decide +kernel
  obtain ⟨t, ht, hlen⟩ := Option.map_eq_some_iff.mp hcheck
  exact ⟨t, Run.of_check ht, hlen⟩

theorem tmpfs_tree_sampleCalls : ∃ t, Reached vzeroed sampleCalls t ∧ ∃! i, t.fs.ChildOf 2 i := by
  obtain ⟨t, ht, hlen⟩ := reached_sampleCalls
  obtain ⟨-, -, -, hparent⟩ := tmpfs_tree length_vzeroed ht
  exact ⟨t, ht, (hparent 2 (by decide) (by omega)).1⟩

/-! ### Creation and lookup -/

/-- The call returns, and a path that is opened afterwards designates what it should: the new inode,
if the call returned 0, and otherwise what it designated before. -/
def Creates (op : VfsM Unit) (isType : BitVec 16 → Bool) (path : List UInt8) (rel : Option ℕ)
    (s : VfsState) : Prop :=
  ∃ r s', op s = some (r, s') ∧ match r with
  | .ok () =>
    (∃ n, (opened path rel s').map Prod.fst = some (.ok n) ∧ (∀ x ∈ s.inodes, x.number ≠ n) ∧
      ∃ x ∈ s'.inodes, x.number = n ∧ isType x.mode = true ∧ x.length = 0) ∧
    ∀ q rel' n, ValidRel s rel' → (opened q rel' s).map Prod.fst = some (.ok n) →
      (opened q rel' s').map Prod.fst = some (.ok n)
  | .error _ => ∀ q rel', ValidRel s rel' →
    (opened q rel' s').map Prod.fst = (opened q rel' s).map Prod.fst

theorem opened_none (hfiles : vfsParsePath q = none) : opened q rel s = none := by
  rw [opened, GoofyOs.vfsOpen]
  exact bind_none (bind_none (vfsFindDentry_none hfiles))

/-- **`vfs_mkdir` and `vfs_create`**, and the paths that are opened afterwards. -/
theorem VfsState.VfsInv.creates (fmt : BitVec 16) {isType : BitVec 16 → Bool} (h : s.VfsInv)
    (hpath : ShortComponents path) (hrel : ValidRel s rel)
    (htype : isType (flags &&& ~~~sIfmt ||| fmt) = true) :
    Creates (vfsAdd (GoofyOs.tmpfsAdd fmt) path rel flags) isType path rel s := by
  obtain ⟨i, hi⟩ := hrel.start h
  obtain ⟨files, hfiles⟩ := vfsParsePath_isSome hpath
  by_cases ht : ∃ p name, s.AddTarget path files i p name
  · obtain ⟨p, name, ht⟩ := ht
    obtain ⟨s₁, s', hadd, hgrow, h₁, hp, hadded⟩ := h.vfsAdd_ok hi hfiles ht fmt flags
    have habs : s₁.child p name = none := by
      rw [hgrow.child]
      exact ht.absent
    have hleaf := hadded.addedLeaf h₁.tree hp habs
    have h' := hadded.vfsInv h₁ hp habs
    have hstart : ∀ {rel j}, s.Start rel j → s'.Start rel j := by
      intro rel j hj
      cases rel with
      | none => exact hj
      | some d => exact hadded.designates (hgrow.designates hj)
    have hlen : s₁.inodes.length = s.inodes.length := by rw [hgrow.inodes]
    refine ⟨.ok (), s', hadd, ⟨s₁.inodes.length, ?_, fun x hx heq => ?_, ?_⟩,
      fun q rel' n hrel' hq => ?_⟩
    · rw [h'.opened (hstart hi) hfiles]
      have ht₁ : s₁.AddTarget path files i p name := by
        refine ⟨?_, ht.last, ht.ne_dot, habs⟩
        rw [hgrow.resolve]
        exact ht.parent
      rw [ht₁.resolve_new hleaf]
    · obtain ⟨j, hj⟩ := List.mem_iff_getElem?.mp hx
      have hlt := (List.getElem?_eq_some_iff.mp hj).1
      rw [h.tree.number hj, hlen] at heq
      omega
    · exact ⟨_, List.mem_of_getElem? hadded.new, rfl, htype, rfl⟩
    · obtain ⟨j, hj⟩ := hrel'.start h
      cases hq' : vfsParsePath q with
      | none =>
        rw [opened_none hq'] at hq
        simp at hq
      | some files' =>
        rw [h.opened hj hq', ← hgrow.resolve] at hq
        rw [h'.opened (hstart hj) hq', resolve_of_addedLeaf hleaf (Option.some.inj hq)]
  · obtain ⟨e, s', hadd, hgrow, h'⟩ := h.vfsAdd_error hi hfiles
      (fun p name ht' => ht ⟨p, name, ht'⟩) fmt flags
    refine ⟨.error e, s', hadd, fun q rel' hrel' => ?_⟩
    obtain ⟨j, hj⟩ := hrel'.start h
    cases hq' : vfsParsePath q with
    | none => rw [opened_none hq', opened_none hq']
    | some files' =>
      rw [h.opened hj hq', h'.opened (hgrow.start hj) hq', hgrow.resolve]

/-- **Creation and lookup** in every state that is reached. -/
theorem vfsCreate_vfsMkdir_reached (hv : ∀ s n, (vmalloc s n).length = n)
    (h : Reached vmalloc cs t) (hpath : ShortComponents path) (hrel : ValidRel t.fs rel)
    (flags : BitVec 16) :
    Creates (vfsCreate path rel flags) sIsreg path rel t.fs ∧
      Creates (vfsMkdir path rel flags) sIsdir path rel t.fs :=
  ⟨(h.sysInv hv).fs.creates sIfreg hpath hrel (sIsreg_create flags),
    (h.sysInv hv).fs.creates sIfdir hpath hrel (sIsdir_mkdir flags)⟩

theorem vfsCreate_vfsMkdir_sampleCalls : ∃ t, Reached vzeroed sampleCalls t ∧
    Creates (vfsCreate [47, 98] none 0) sIsreg [47, 98] none t.fs := by
  obtain ⟨t, ht, -⟩ := reached_sampleCalls
  have hpath : ShortComponents [47, 98] := fun b hb _ =>
    Nat.lt_of_le_of_lt hb.length_le (by decide)
  have hrel : ValidRel t.fs none := fun d hd => by simp at hd
  exact ⟨t, ht, (vfsCreate_vfsMkdir_reached length_vzeroed ht hpath hrel 0).1⟩

end GoofyOs
