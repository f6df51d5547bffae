import GoofyOs.VfsReadWrite

/-!
# Several files on one inode

Calls of `vfs_write` and `vfs_read` through any number of open files, interleaved with each other and
with all other calls. The files on an inode have positions of their own, and a write through one of
them may move the bytes to a larger buffer.

No position is ever past the length of its inode, so that a write leaves no hole, and the buffer
always has room for the length.

## Main definitions

* `FileCall`, `VfsSys.execFile`, `VfsSys.FileReached` — calls, with `vfs_read` among them, and runs
* `TmpfsInode.Overwrites` — what a write does to the bytes of an inode
* `VfsSys.FilesInv` — the invariant, with the number of bytes written so far

## Main results

* `VfsSys.FilesInv.exec` — each call keeps the invariant
* `vfsWrite_overwrites` — every write in every run
-/

namespace GoofyOs

open Proc VfsState VfsSys

/-- A call, or a `vfs_read` through an open file. -/
inductive FileCall
  | call (c : VfsCall)
  | vfsRead (fd n : ℕ)

/-- The number of bytes that a call is to write. -/
def FileCall.written : FileCall → ℕ
  | call (.vfsWrite _ buf) => buf.length
  | call _ | vfsRead _ _ => 0

/-- The number of bytes that some calls are to write. -/
def bytesWritten (cs : List FileCall) : ℕ := (cs.map FileCall.written).sum

namespace VfsSys

/-- What a call leaves behind, whatever it returned. -/
def execFile (vmalloc : VfsState → ℕ → List UInt8) (t : VfsSys) : FileCall → Option VfsSys
  | .call c => t.exec vmalloc c
  | .vfsRead fd n => (t.files[fd]?).bind fun file => (GoofyOs.vfsRead file n t.fs).map fun r =>
      ⟨r.2, match r.1 with
        | .ok (_, _, file) => t.files.set fd file
        | .error _ => t.files⟩

/-- Paths start from dentries. -/
def FileAllowed (t : VfsSys) : FileCall → Prop
  | .call c => t.Allowed c
  | .vfsRead _ _ => True

instance (t : VfsSys) : (c : FileCall) → Decidable (FileAllowed t c)
  | .call c => inferInstanceAs (Decidable (t.Allowed c))
  | .vfsRead _ _ => inferInstanceAs (Decidable True)

/-- The calls `cs` lead from `vfs_init` to `t`. -/
def FileReached (vmalloc : VfsState → ℕ → List UInt8) (cs : List FileCall) (t : VfsSys) : Prop :=
  Run (execFile vmalloc) FileAllowed ⟨initVfs, []⟩ cs t

/-- The invariant of the open files, after `k` bytes have been written. -/
structure FilesInv (t : VfsSys) (k : ℕ) : Prop where
  sys : t.SysInv
  length_le : ∀ {i : ℕ} {x : TmpfsInode}, t.fs.inodes[i]? = some x → x.length ≤ k
  /-- The inode of the root is not a regular file. -/
  root : ∀ {x : TmpfsInode}, t.fs.inodes[0]? = some x → sIsreg x.mode = false
  pos_le : ∀ {fd : File} {i : ℕ} {x : TmpfsInode}, fd ∈ t.files → t.fs.Designates fd.entry i →
    t.fs.inodes[i]? = some x → fd.pos ≤ x.length

end VfsSys

/-- `buf` was written at the position `pos`: the bytes there are those of `buf`, all other bytes are
as before, and the copy stayed inside the buffer. -/
structure TmpfsInode.Overwrites (x : TmpfsInode) (pos : ℕ) (buf : List UInt8) (x' : TmpfsInode) :
    Prop where
  inside : ∀ k < buf.length, x'.contents[pos + k]? = buf[k]?
  outside : ∀ k, k < pos ∨ pos + buf.length ≤ k → x'.contents[k]? = x.contents[k]?
  length : x'.length = max x.length (pos + buf.length)
  contents_length : x'.contents.length = x'.length
  room : pos + buf.length ≤ x'.effectiveLength
  rest : x'.name = x.name ∧ x'.children = x.children ∧ x'.number = x.number ∧ x'.mode = x.mode

/-! ### The bytes of a write -/

section Bytes

variable {vmalloc : VfsState → ℕ → List UInt8} {s : VfsState} {x : TmpfsInode}
  {data buf : List UInt8} {off k : ℕ}

theorem getElem?_copyTo_inside (hoff : off ≤ data.length) (hk : k < buf.length) :
    (copyTo data off buf)[off + k]? = buf[k]? := by
  have htake : (data.take off).length = off := by
    rw [List.length_take, min_eq_left hoff]
  rw [copyTo, List.append_assoc, List.getElem?_append_right (by omega), htake,
    Nat.add_sub_cancel_left, List.getElem?_append_left hk]

theorem getElem?_copyTo_outside (hoff : off ≤ data.length) (hk : k < off ∨ off + buf.length ≤ k) :
    (copyTo data off buf)[k]? = data[k]? := by
  have htake : (data.take off).length = off := by
    rw [List.length_take, min_eq_left hoff]
  rw [copyTo, List.append_assoc]
  rcases hk with hk | hk
  · rw [List.getElem?_append_left (by omega), List.getElem?_take_of_lt hk]
  · rw [List.getElem?_append_right (by omega), htake, List.getElem?_append_right (by omega),
      List.getElem?_drop]
    congr 1
    omega

/-- **Writing** at a position that is not past the end. -/
theorem overwrites_writtenInode (buf : List UInt8) (hv : ∀ s n, (vmalloc s n).length = n)
    (hx : Fits x) (hoff : off ≤ x.length) :
    x.Overwrites off buf (writtenInode vmalloc s x buf off) := by
  obtain ⟨hle, hdata⟩ := makeRoom_spec (s := s) (k := max x.length (off + buf.length)) hv hx
  have htake : (makeRoom vmalloc s x (max x.length (off + buf.length))).data.take x.length =
      x.contents := take_makeRoom hx _
  have hold : ∀ k < x.length,
      (makeRoom vmalloc s x (max x.length (off + buf.length))).data[k]? = x.contents[k]? := by
    intro k hk
    rw [← htake, List.getElem?_take_of_lt hk]
  have hlen : (copyTo (makeRoom vmalloc s x (max x.length (off + buf.length))).data off buf).length =
      (makeRoom vmalloc s x (max x.length (off + buf.length))).data.length := length_copyTo (by omega)
  have hcontents : (writtenInode vmalloc s x buf off).contents =
      (copyTo (makeRoom vmalloc s x (max x.length (off + buf.length))).data off buf).take
        (max x.length (off + buf.length)) := rfl
  refine ⟨fun k hk => ?_, fun k hk => ?_, rfl, ?_, ?_, makeRoom_same _⟩
  · rw [hcontents, List.getElem?_take_of_lt (by omega), getElem?_copyTo_inside (by omega) hk]
  · by_cases hlt : k < x.length
    · rw [hcontents, List.getElem?_take_of_lt (by omega),
        getElem?_copyTo_outside (by omega) hk, hold k hlt]
    · -- past both the old and the new end
      have hlen' : x.contents.length ≤ k := by
        rw [TmpfsInode.contents, List.length_take]
        omega
      rw [hcontents, List.getElem?_eq_none hlen', List.getElem?_eq_none]
      rw [List.length_take]
      omega
  · rw [hcontents, List.length_take, hlen, hdata, min_eq_left hle]
    rfl
  · exact (le_max_right _ _).trans hle

end Bytes

/-! ### One call -/

variable {vmalloc : VfsState → ℕ → List UInt8} {t t' : VfsSys} {s s' : VfsState} {c : FileCall}
  {cs : List FileCall} {k : ℕ}

/-- The old inodes have their lengths and modes, and the new ones are empty. -/
structure VfsState.KeepsLengths (s s' : VfsState) : Prop where
  inv : s'.VfsInv
  dentries : s.dentries.length ≤ s'.dentries.length
  designates : ∀ {d i : ℕ}, s.Designates d i → s'.Designates d i
  inode : ∀ {i : ℕ} {x' : TmpfsInode}, s'.inodes[i]? = some x' →
    (∃ x, s.inodes[i]? = some x ∧ x'.length = x.length ∧ x'.mode = x.mode) ∨
      s.inodes.length ≤ i ∧ x'.length = 0

theorem VfsState.Grows.keepsLengths (h : s.Grows s') (hs' : s'.VfsInv) : s.KeepsLengths s' where
  inv := hs'
  dentries := h.dentries.length_le
  designates := h.designates
  inode hx := Or.inl ⟨_, h.inodes ▸ hx, rfl, rfl⟩

theorem VfsState.Added.keepsLengths {p : ℕ} {name : Name} {mode : BitVec 16}
    (h : s.Added p name mode s') (hs' : s'.VfsInv) : s.KeepsLengths s' where
  inv := hs'
  dentries := by rw [h.dentries]
  designates := h.designates
  inode hx := by
    rcases h.cases hx with ⟨rfl, rfl⟩ | ⟨x₀, hx₀, rfl⟩
    · exact Or.inr ⟨le_rfl, rfl⟩
    · refine Or.inl ⟨x₀, hx₀, ?_⟩
      split
      · exact ⟨rfl, rfl⟩
      · exact ⟨rfl, rfl⟩

namespace VfsSys

/-- Calls that do not write, and open files at the position 0. -/
theorem FilesInv.keep {files : List File} (h : t.FilesInv k) (hkeep : t.fs.KeepsLengths s')
    (hfiles : ∀ fd ∈ files, fd ∈ t.files ∨ fd.pos = 0 ∧ fd.entry < s'.dentries.length) :
    (⟨s', files⟩ : VfsSys).FilesInv k where
  sys := by
    refine ⟨hkeep.inv, fun fd hfd => ?_⟩
    rcases hfiles fd hfd with hold | ⟨-, hlt⟩
    · exact Nat.lt_of_lt_of_le (h.sys.files fd hold) hkeep.dentries
    · exact hlt
  length_le hx := by
    rcases hkeep.inode hx with ⟨x, hx, hlen, -⟩ | ⟨-, hlen⟩
    · rw [hlen]
      exact h.length_le hx
    · rw [hlen]
      exact Nat.zero_le k
  root hx := by
    rcases hkeep.inode hx with ⟨x, hx, -, hmode⟩ | ⟨hle, -⟩
    · rw [hmode]
      exact h.root hx
    · exact absurd h.sys.fs.tree.root (Nat.not_lt.mpr hle)
  pos_le {fd i x'} hfd hd hx := by
    rcases hfiles fd hfd with hold | ⟨hpos, -⟩
    · obtain ⟨j, hj⟩ := h.sys.fs.dentry fd.entry (h.sys.files fd hold)
      obtain rfl := (hkeep.designates hj).unique hd
      rcases hkeep.inode hx with ⟨x, hx, hlen, -⟩ | ⟨hle, -⟩
      · rw [hlen]
        exact h.pos_le hold hj hx
      · exact absurd hj.lt (Nat.not_lt.mpr hle)
    · rw [hpos]
      exact Nat.zero_le _

theorem FilesInv.mono {k' : ℕ} (h : t.FilesInv k) (hk : k ≤ k') : t.FilesInv k' :=
  { h with length_le := fun hx => (h.length_le hx).trans hk }

/-- A file that is opened is at its start. -/
theorem vfsOpen_pos {path : List UInt8} {rel : Option ℕ} {flags : BitVec 16} {fd : File}
    {r : Except ℤ File × VfsState} (hr : GoofyOs.vfsOpen path rel flags s = some r)
    (hfd : r.1 = .ok fd) : fd.pos = 0 := by
  cases hfind : vfsFindDentry path rel false s with
  | none =>
    rw [GoofyOs.vfsOpen, bind_none hfind] at hr
    simp at hr
  | some r' =>
    obtain ⟨res, s'⟩ := r'
    cases res with
    | error e =>
      rw [GoofyOs.vfsOpen, bind_error hfind] at hr
      obtain rfl := Option.some.inj hr
      simp at hfd
    | ok file =>
      rw [GoofyOs.vfsOpen, bind_ok hfind] at hr
      obtain rfl := Option.some.inj hr
      obtain rfl := Except.ok.inj hfd
      rfl

/-- A regular file is not the root. -/
theorem FilesInv.vnodeMode (h : t.FilesInv k) {i : ℕ} {x : TmpfsInode}
    (hx : t.fs.inodes[i]? = some x) (hreg : sIsreg x.mode = true) :
    sIsreg (if i = 0 then sIfdir ||| 0x1ff else x.mode) = true := by
  by_cases hi : i = 0
  · subst hi
    rw [h.root hx] at hreg
    exact Bool.noConfusion hreg
  · rw [if_neg hi]
    exact hreg

/-- **`vfs_write`** through an open file. -/
theorem FilesInv.vfsWrite (hv : ∀ s n, (vmalloc s n).length = n) (h : t.FilesInv k) {fd : File}
    {i : ℕ} {x : TmpfsInode} (buf : List UInt8) (hfd : fd ∈ t.files)
    (hd : t.fs.Designates fd.entry i) (hx : t.fs.inodes[i]? = some x)
    (hreg : sIsreg (if i = 0 then sIfdir ||| 0x1ff else x.mode) = true)
    (hlt : buf.length < 2 ^ 31) :
    ∃ v x' s', GoofyOs.vfsWrite vmalloc fd buf t.fs =
        some (.ok (buf.length, { fd with pos := fd.pos + buf.length }), s') ∧
      t.fs.Written v i x' s' ∧ x.Overwrites fd.pos buf x' := by
  obtain ⟨v, s', hwrite, hw⟩ := h.sys.fs.vfsWrite hv buf hd hx hreg
  have hint : asInt buf.length = buf.length := asInt_of_lt (by omega) (by omega)
  rw [hint, Int.toNat_natCast] at hwrite
  exact ⟨v, _, s', hwrite, hw,
    overwrites_writtenInode buf hv (h.sys.fs.fits hx) (h.pos_le hfd hd hx)⟩

/-- The invariant after a read through the file `f`. -/
theorem FilesInv.moved {f i n : ℕ} {fd : File} {x : TmpfsInode} (h : t.FilesInv k)
    (hf : t.files[f]? = some fd) (hd : t.fs.Designates fd.entry i)
    (hx : t.fs.inodes[i]? = some x) :
    (⟨t.fs, t.files.set f { fd with pos := fd.pos + min n (x.length - fd.pos) }⟩ : VfsSys).FilesInv
      k where
  sys := by
    refine ⟨h.sys.fs, fun fd' hfd' => ?_⟩
    rcases List.mem_or_eq_of_mem_set hfd' with hold | rfl
    · exact h.sys.files fd' hold
    · exact h.sys.files fd (List.mem_of_getElem? hf)
  length_le := h.length_le
  root := h.root
  pos_le {fd' j z} hfd' hd' hz := by
    rcases List.mem_or_eq_of_mem_set hfd' with hold | rfl
    · exact h.pos_le hold hd' hz
    · obtain rfl := hd.unique hd'
      obtain rfl := Option.some.inj (hx.symm.trans hz)
      have := h.pos_le (List.mem_of_getElem? hf) hd hx
      show fd.pos + min n (x.length - fd.pos) ≤ x.length
      omega

/-- The invariant after a write through the file `f`. -/
theorem FilesInv.written {f v i : ℕ} {fd : File} {x x' : TmpfsInode} {buf : List UInt8}
    (h : t.FilesInv k) (hf : t.files[f]? = some fd) (hd : t.fs.Designates fd.entry i)
    (hx : t.fs.inodes[i]? = some x) (hw : t.fs.Written v i x' s') (ho : x.Overwrites fd.pos buf x') :
    (⟨s', t.files.set f { fd with pos := fd.pos + buf.length }⟩ : VfsSys).FilesInv
      (k + buf.length) := by
  have hfd := List.mem_of_getElem? hf
  have hpos := h.pos_le hfd hd hx
  have hlen := ho.length
  -- an inode of the new state is the one that was written, or an old one
  have hcases : ∀ {j : ℕ} {z : TmpfsInode}, s'.inodes[j]? = some z →
      (j = i ∧ z = x') ∨ (j ≠ i ∧ t.fs.inodes[j]? = some z) := by
    intro j z hz
    rw [hw.inodes] at hz
    by_cases hj : j = i
    · subst hj
      rw [List.getElem?_set_self (List.getElem?_eq_some_iff.mp hx).1] at hz
      exact Or.inl ⟨rfl, (Option.some.inj hz).symm⟩
    · rw [List.getElem?_set_ne (Ne.symm hj)] at hz
      exact Or.inr ⟨hj, hz⟩
  constructor
  · refine sysInv_of_files (c := .vfsWrite f buf) h.sys (.written hw fun _ _ hadds => hadds)
      fun fd' hfd' => ?_
    rcases List.mem_or_eq_of_mem_set hfd' with hold | rfl
    · exact Or.inl hold
    · refine Or.inr ?_
      rw [hw.dentries]
      exact h.sys.files fd hfd
  · intro j z hz
    rcases hcases hz with ⟨-, rfl⟩ | ⟨-, hz⟩
    · have := h.length_le hx
      omega
    · exact (h.length_le hz).trans (Nat.le_add_right _ _)
  · intro z hz
    rcases hcases hz with ⟨rfl, rfl⟩ | ⟨-, hz⟩
    · rw [ho.rest.2.2.2]
      exact h.root hx
    · exact h.root hz
  · intro fd' j z hfd' hd' hz
    rcases List.mem_or_eq_of_mem_set hfd' with hold | rfl
    · obtain ⟨l, hl⟩ := h.sys.fs.dentry fd'.entry (h.sys.files fd' hold)
      obtain rfl := (hw.designates hl).unique hd'
      rcases hcases hz with ⟨rfl, rfl⟩ | ⟨-, hz⟩
      · exact (h.pos_le hold hl hx).trans (hlen ▸ le_max_left _ _)
      · exact h.pos_le hold hl hz
    · obtain rfl := (hw.designates hd).unique hd'
      rcases hcases hz with ⟨-, rfl⟩ | ⟨hne, -⟩
      · exact hlen ▸ le_max_right _ _
      · exact absurd rfl hne

/-- `vfs_read` from anything but a regular file is an error. -/
theorem vfsRead_error {fd : File} {i n : ℕ} {x : TmpfsInode} (hd : s.Designates fd.entry i)
    (hx : s.inodes[i]? = some x)
    (hreg : sIsreg (if i = 0 then sIfdir ||| 0x1ff else x.mode) = false) :
    GoofyOs.vfsRead fd n s = some (.error (-einval), s) := by
  obtain ⟨v, y, hfile, hy⟩ := fileVnode_ok fd hd
  have hmode : sIsreg y.mode = false := by
    obtain ⟨x₀, hx₀, hmode⟩ := hy.mode
    obtain rfl := Option.some.inj (hx.symm.trans hx₀)
    rw [hmode]
    exact hreg
  have hread : tmpfsRead v n fd.pos s = some (.error (-einval), s) := by
    rw [tmpfsRead, bind_ok (getVnode_ok hy.get), if_pos (by simp [hmode])]
    rfl
  rw [GoofyOs.vfsRead]
  refine bind_error ?_
  rw [vfsPread, bind_ok hfile]
  exact hread

/-- **`vfs_read`** through an open file moves its position, and changes nothing else. -/
theorem FilesInv.vfsRead (h : t.FilesInv k) (hk : k < 2 ^ 31) {fd : File} {i : ℕ} {x : TmpfsInode}
    (n : ℕ) (hd : t.fs.Designates fd.entry i) (hx : t.fs.inodes[i]? = some x)
    (hreg : sIsreg (if i = 0 then sIfdir ||| 0x1ff else x.mode) = true) :
    ∃ buf, GoofyOs.vfsRead fd n t.fs = some (.ok ((min n (x.length - fd.pos) : ℕ), buf,
      { fd with pos := fd.pos + min n (x.length - fd.pos) }), t.fs) := by
  have hlen := length_contents (h.sys.fs.fits hx)
  have hfile : t.fs.OpenFile fd i x.contents := ⟨h.sys.fs, hd, x, hx, rfl, hlen.symm, hreg⟩
  have hlt : x.contents.length < 2 ^ 31 := by
    have := h.length_le hx
    omega
  have hread := hfile.vfsRead hlt n
  rw [hlen] at hread
  exact ⟨_, hread⟩

/-- **Step lemma.** -/
theorem FilesInv.exec (hv : ∀ s n, (vmalloc s n).length = n) (h : t.FilesInv k)
    (hk : k + c.written < 2 ^ 31) (ha : t.FileAllowed c) (hc : execFile vmalloc t c = some t') :
    t'.FilesInv (k + c.written) := by
  have hold : ∀ {s' : VfsState}, ∀ fd ∈ t.files,
      fd ∈ t.files ∨ fd.pos = 0 ∧ fd.entry < s'.dentries.length := fun fd hfd => Or.inl hfd
  have hadd : ∀ {fmt path rel flags} {r : Except ℤ Unit × VfsState}, ValidRel t.fs rel →
      GoofyOs.vfsAdd (tmpfsAdd fmt) path rel flags t.fs = some r →
      (⟨r.2, t.files⟩ : VfsSys).FilesInv k := by
    intro fmt path rel flags r hrel hr
    rcases vfsAdd_cases h.sys.fs hrel hr with ⟨e, -, hgrow, hs', -⟩ |
      ⟨s₁, i, files, p, name, -, hgrow, h₁, hp, -, -, -, habs, hadded⟩
    · exact h.keep (hgrow.keepsLengths hs') hold
    · have hmid : (⟨s₁, t.files⟩ : VfsSys).FilesInv k := h.keep (hgrow.keepsLengths h₁) hold
      exact hmid.keep (hadded.keepsLengths (hadded.vfsInv h₁ hp habs)) fun fd hfd => Or.inl hfd
  cases c with
  | call c =>
    cases c with
    | vfsMkdir path rel flags =>
      obtain ⟨r, hr, rfl⟩ := Option.map_eq_some_iff.mp hc
      exact hadd ha hr
    | vfsCreate path rel flags =>
      obtain ⟨r, hr, rfl⟩ := Option.map_eq_some_iff.mp hc
      exact hadd ha hr
    | vfsOpen path rel flags =>
      obtain ⟨r, hr, rfl⟩ := Option.map_eq_some_iff.mp hc
      obtain ⟨hgrow, hs', hfile⟩ := vfsOpen_cases h.sys.fs ha hr
      refine h.keep (hgrow.keepsLengths hs') fun fd hfd => ?_
      cases hres : r.1 with
      | error e =>
        rw [hres] at hfd
        exact Or.inl hfd
      | ok file =>
        rw [hres] at hfd
        rcases List.mem_append.mp hfd with hfd | hfd
        · exact Or.inl hfd
        · obtain rfl := List.mem_singleton.mp hfd
          exact Or.inr ⟨vfsOpen_pos hr hres, hfile fd hres⟩
    | vfsWrite f buf =>
      obtain ⟨fd, hf, hc⟩ := Option.bind_eq_some_iff.mp hc
      obtain ⟨r, hr, rfl⟩ := Option.map_eq_some_iff.mp hc
      have hfd := List.mem_of_getElem? hf
      obtain ⟨i, hd⟩ := h.sys.fs.dentry fd.entry (h.sys.files fd hfd)
      obtain ⟨x, hx⟩ : ∃ x, t.fs.inodes[i]? = some x := ⟨_, List.getElem?_eq_getElem hd.lt⟩
      cases hreg : sIsreg (if i = 0 then sIfdir ||| 0x1ff else x.mode) with
      | false =>
        obtain rfl := Option.some.inj ((vfsWrite_error hd hx hreg).symm.trans hr)
        exact h.mono (Nat.le_add_right _ _)
      | true =>
        have hbuf : k + buf.length < 2 ^ 31 := hk
        obtain ⟨v, x', s', hwrite, hw, ho⟩ := h.vfsWrite hv buf hfd hd hx hreg (by omega)
        obtain rfl := Option.some.inj (hwrite.symm.trans hr)
        exact h.written hf hd hx hw ho
  | vfsRead f n =>
    obtain ⟨fd, hf, hc⟩ := Option.bind_eq_some_iff.mp hc
    obtain ⟨r, hr, rfl⟩ := Option.map_eq_some_iff.mp hc
    have hfd := List.mem_of_getElem? hf
    obtain ⟨i, hd⟩ := h.sys.fs.dentry fd.entry (h.sys.files fd hfd)
    obtain ⟨x, hx⟩ : ∃ x, t.fs.inodes[i]? = some x := ⟨_, List.getElem?_eq_getElem hd.lt⟩
    cases hreg : sIsreg (if i = 0 then sIfdir ||| 0x1ff else x.mode) with
    | false =>
      obtain rfl := Option.some.inj ((vfsRead_error hd hx hreg).symm.trans hr)
      exact h
    | true =>
      obtain ⟨buf, hread⟩ := h.vfsRead hk n hd hx hreg
      obtain rfl := Option.some.inj (hread.symm.trans hr)
      exact h.moved hf hd hx

/-- **Run lemma.** -/
theorem FilesInv.run (hv : ∀ s n, (vmalloc s n).length = n) (h : t.FilesInv k)
    (hrun : Run (execFile vmalloc) FileAllowed t cs t') (hk : k + bytesWritten cs < 2 ^ 31) :
    t'.FilesInv (k + bytesWritten cs) := by
  induction hrun generalizing k with
  | nil t => exact h
  | @cons t t₁ t' c cs ha hc hrun ih =>
    have hsum : k + bytesWritten (c :: cs) = k + c.written + bytesWritten cs := by
      rw [bytesWritten, List.map_cons, List.sum_cons, ← Nat.add_assoc]
      rfl
    rw [hsum] at hk ⊢
    exact ih (h.exec hv (by omega) ha hc) hk

theorem filesInv_initVfs : (⟨initVfs, []⟩ : VfsSys).FilesInv 0 where
  sys := ⟨vfsInv_initVfs, fun _ hfd => by simp at hfd⟩
  length_le hx := by
    obtain ⟨-, rfl⟩ := inodes_initVfs hx
    exact le_rfl
  root hx := by
    obtain ⟨-, rfl⟩ := inodes_initVfs hx
    rfl
  pos_le hfd := by simp at hfd

theorem FileReached.filesInv (hv : ∀ s n, (vmalloc s n).length = n)
    (h : FileReached vmalloc cs t) (hk : bytesWritten cs < 2 ^ 31) : t.FilesInv (bytesWritten cs) := by
  have hinv := filesInv_initVfs.run hv h (by omega)
  rwa [Nat.zero_add] at hinv

end VfsSys

/-- **Writing to a file** in every run. The buffers have room for the lengths, and no open file is past
the end of its inode. A write through an open regular file advances its position and overwrites the
bytes there; a read moves its position only. -/
theorem vfsWrite_overwrites (hv : ∀ s n, (vmalloc s n).length = n) (h : FileReached vmalloc cs t)
    (hk : bytesWritten cs < 2 ^ 31) :
    (∀ x ∈ t.fs.inodes, x.length ≤ x.effectiveLength ∧ x.data.length = x.effectiveLength) ∧
    (∀ fd ∈ t.files, ∃ (i : ℕ) (x : TmpfsInode), t.fs.Designates fd.entry i ∧
      t.fs.inodes[i]? = some x ∧ fd.pos ≤ x.length) ∧
    ∀ (f i : ℕ) (fd : File) (x : TmpfsInode), t.files[f]? = some fd → t.fs.Designates fd.entry i →
      t.fs.inodes[i]? = some x → sIsreg x.mode = true →
      (∀ buf, bytesWritten (cs ++ [.call (.vfsWrite f buf)]) < 2 ^ 31 → ∃ x' s',
        vfsWrite vmalloc fd buf t.fs =
          some (.ok (buf.length, { fd with pos := fd.pos + buf.length }), s') ∧
        s'.inodes = t.fs.inodes.set i x' ∧ x.Overwrites fd.pos buf x') ∧
      ∀ n, ∃ buf, vfsRead fd n t.fs = some (.ok ((min n (x.length - fd.pos) : ℕ), buf,
        { fd with pos := fd.pos + min n (x.length - fd.pos) }), t.fs) := by
  have hinv := h.filesInv hv hk
  refine ⟨fun x hx => ?_, fun fd hfd => ?_, fun f i fd x hf hd hx hreg => ⟨fun buf hbuf => ?_,
    fun n => hinv.vfsRead hk n hd hx (hinv.vnodeMode hx hreg)⟩⟩
  · obtain ⟨i, hi⟩ := List.mem_iff_getElem?.mp hx
    exact hinv.sys.fs.fits hi
  · obtain ⟨i, hd⟩ := hinv.sys.fs.dentry fd.entry (hinv.sys.files fd hfd)
    obtain ⟨x, hx⟩ : ∃ x, t.fs.inodes[i]? = some x := ⟨_, List.getElem?_eq_getElem hd.lt⟩
    exact ⟨i, x, hd, hx, hinv.pos_le hfd hd hx⟩
  · have hlt : buf.length < 2 ^ 31 := by
      rw [bytesWritten, List.map_append, List.sum_append] at hbuf
      have : FileCall.written (.call (.vfsWrite f buf)) = buf.length := rfl
      simp only [List.map_cons, List.map_nil, List.sum_cons, List.sum_nil, this] at hbuf
      omega
    obtain ⟨v, x', s', hwrite, hw, ho⟩ := hinv.vfsWrite hv buf (List.mem_of_getElem? hf) hd hx
      (hinv.vnodeMode hx hreg) hlt
    exact ⟨x', s', hwrite, hw.inodes, ho⟩

/-- `vfs_create("/f")`, two times `vfs_open("/f")`, and a `vfs_write` of two bytes through the first
file. -/
theorem vfsWrite_overwrites_twoFiles : ∃ t, FileReached vzeroed [.call (.vfsCreate [47, 102] none 0),
      .call (.vfsOpen [47, 102] none 0), .call (.vfsOpen [47, 102] none 0),
      .call (.vfsWrite 0 [49, 50])] t ∧ t.files.map File.pos = [2, 0] ∧
    ∀ fd ∈ t.files, ∃ (i : ℕ) (x : TmpfsInode), t.fs.Designates fd.entry i ∧
      t.fs.inodes[i]? = some x ∧ fd.pos ≤ x.length := by
  let calls : List FileCall := [.call (.vfsCreate [47, 102] none 0),
    .call (.vfsOpen [47, 102] none 0), .call (.vfsOpen [47, 102] none 0),
    .call (.vfsWrite 0 [49, 50])]
  have hcheck : ((Run.check (execFile vzeroed) FileAllowed ⟨initVfs, []⟩ calls).map
      fun t => t.files.map File.pos) = some [2, 0] := by decide +kernel
  obtain ⟨t, ht, hpos⟩ := Option.map_eq_some_iff.mp hcheck
  have hreached : FileReached vzeroed calls t := Run.of_check ht
  obtain ⟨-, hfiles, -⟩ := vfsWrite_overwrites length_vzeroed hreached (by decide)
  exact ⟨t, hreached, hpos, hfiles⟩

end GoofyOs
