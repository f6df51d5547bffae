import GoofyOs.InitrdRun
import GoofyOs.VfsFiles

/-!
# The files of an archive

Once `unpack_ustar` has unpacked an archive, `vfs_open` finds every entry under its path, and no
other path. The file that it opens has the size and the bytes of the entry.

`run_init` opens `/sbin/init` and passes it to `exec_file`. This takes every file that is long
enough for the header of an executable, and then does nothing with it.

A vnode keeps the length that its inode had when it was made, or when it was last written through.
What `vfs_open` makes for a path with components is new.

## Main definitions

* `VfsState.Sized` — the vnode of a dentry has the length of its inode
* `Entry.ReadsAs` — an open file is what an entry says
* `runElfFile`, `execFile`, `runInit` — from the source

## Main results

* `VfsState.VfsInv.openSized` — `vfs_open`, with the size
* `initrd_open` — every entry can be opened and read
* `initrd_exec` — what `exec_file` takes, and when `run_init` returns
-/

namespace GoofyOs

open Proc PathWalk VfsState

/-! ### The source -/

/-- `ENOEXEC`. -/
def enoexec : ℤ := 8

/-- `sizeof(struct elf64_hdr)`. -/
def elfHdrSize : ℕ := 64

/-- `run_elf_file`. Nothing looks at the header that it reads. -/
def runElfFile (executable : File) : VfsM Unit := do
  let exeSize ← vfsSize executable
  if exeSize < elfHdrSize then throw (-enoexec)
  else do
    let err ← attempt (vfsPread executable elfHdrSize 0)
    if err.toOption.map Prod.fst = some (elfHdrSize : ℤ) then pure () else throw (-enoexec)

/-- `exec_file`. -/
def execFile (file : File) : VfsM Unit := do
  let err ← attempt (runElfFile file)
  if err.isOk then pure () else throw (-enoexec)

/-- `"/sbin/init"`. -/
def sbinInit : List UInt8 := [47, 115, 98, 105, 110, 47, 105, 110, 105, 116]

/-- `run_init`. Without the file it halts, and what `exec_file` returns is dropped. -/
def runInit : VfsM Unit := do
  let err ← attempt (vfsOpen sbinInit none 0)
  let init ← deref err.toOption
  let _ ← attempt (execFile init)
  pure ()

/-! ### Opening a file -/

namespace VfsState

variable {s s' : VfsState} {d d' i j : ℕ} {name : Name} {files names : List Name}

/-- The vnode of the dentry is one of the inode, and has its length. -/
def Sized (s : VfsState) (d i : ℕ) : Prop :=
  ∃ (e : Dentry) (v : ℕ) (y : Vnode) (x : TmpfsInode), s.dentries[d]? = some e ∧ e.vnode = some v ∧
    s.VnodeOf v i y ∧ s.inodes[i]? = some x ∧ y.size = x.length

theorem Sized.designates (h : s.Sized d i) : s.Designates d i := by
  obtain ⟨e, v, y, x, he, hv, hy, -⟩ := h
  exact ⟨e, v, y, he, hv, hy⟩

/-- **`vfs_size`** of a new vnode. -/
theorem Sized.vfsSize {fd : File} {x : TmpfsInode} (h : s.Sized fd.entry i)
    (hx : s.inodes[i]? = some x) : GoofyOs.vfsSize fd s = some (.ok x.length, s) := by
  obtain ⟨e, v, y, x', he, hv, hy, hx', hsize⟩ := h
  obtain rfl := Option.some.inj (hx.symm.trans hx')
  rw [GoofyOs.vfsSize, bind_ok (getDentry_ok he), hv, bind_ok (deref_some v s),
    bind_ok (getVnode_ok hy.get), ← hsize]
  rfl

/-- The vnode of a child is new. -/
theorem VfsInv.findChild_sized (h : s.VfsInv) (hdot : name ≠ dot) (hd : s.Designates d i)
    (hc : s.child i name = some j) :
    ∃ d' s', vfsFindChild d name s = some (.ok d', s') ∧ s'.VfsInv ∧ s'.Sized d' j := by
  obtain ⟨s', hfind, -, h', -⟩ := h.findChild_new hdot hd hc
  obtain ⟨v, y, hy, heq⟩ := h.findChild_eq hdot hd
  have hlookup := h.tmpfsLookup name hy
  rw [hc] at hlookup
  obtain ⟨hij, hlt⟩ := h.tree.child_bounds hc
  have hx : s.inodes[j]? = some s.inodes[j] := List.getElem?_eq_getElem hlt
  obtain ⟨z, hvnode, hz, hsize⟩ := h.findVnode hy (Nat.zero_lt_of_lt hij) hx
  have hs' : ({ s with
      vnodes := s.vnodes ++ [z]
      dentries := s.dentries ++ [⟨name, some d, some s.vnodes.length⟩] } : VfsState) = s' := by
    rw [heq, bind_ok hlookup, bind_ok hvnode] at hfind
    exact congrArg Prod.snd (Option.some.inj hfind)
  refine ⟨s.dentries.length, s', hfind, h', ?_⟩
  rw [← hs']
  exact ⟨_, _, z, _, List.getElem?_concat_length, rfl,
    ⟨hz.get, hz.lock, hz.ops, hz.currVfs, hz.privateData, hz.number, hz.mode⟩, hx, hsize⟩

/-- The vnode at the end of a path is new, unless there is no name in the path. -/
theorem VfsInv.findLoop_sized (h : s.VfsInv) (hdot : dot ∉ files) (hd : s.Designates d i)
    (hsized : files = [] → s.Sized d i)
    (hrun : GoofyOs.findLoop d files s = some (.ok d', s')) : ∃ j, s'.Sized d' j := by
  induction files generalizing s d i with
  | nil =>
    obtain ⟨hd', rfl⟩ := Prod.mk.inj (Option.some.inj hrun)
    obtain rfl := Except.ok.inj hd'
    exact ⟨i, hsized rfl⟩
  | cons name files ih =>
    have hname : name ≠ dot := fun hcd => hdot (hcd ▸ List.mem_cons_self)
    have hfiles : dot ∉ files := fun hmem => hdot (List.mem_cons_of_mem _ hmem)
    cases hc : s.child i name with
    | none =>
      have hfail := h.findChild name hd
      rw [if_neg hname, hc] at hfail
      rw [GoofyOs.findLoop, bind_error hfail] at hrun
      simp at hrun
    | some j =>
      obtain ⟨d₁, s₁, hfind, h₁, hd₁⟩ := h.findChild_sized hname hd hc
      rw [GoofyOs.findLoop, bind_ok hfind] at hrun
      exact ih h₁ hfiles hd₁.designates (fun _ => hd₁) hrun

/-- The components of a path that was made of names. -/
def pathFiles (path : List UInt8) (names : List Name) : List Name :=
  (if path.head? = some slash then [[slash]] else []) ++ names

theorem not_short_pathFiles (path : List UInt8) (hne : names ≠ []) :
    ¬ ((pathFiles path names).length = 0 ∨ (pathFiles path names).length = 1 ∧ false = true) := by
  simp [pathFiles, hne]

theorem tail_pathFiles (path : List UInt8) :
    (if path.head? = some slash then (pathFiles path names).tail else pathFiles path names) =
      names := by
  rw [pathFiles]
  split
  · rfl
  · rfl

theorem resolve_pathFiles (path : List UInt8) (hne : names ≠ []) (hdot : dot ∉ names) :
    s.resolve path (pathFiles path names) 0 false = match walk s.child 0 names with
      | some j => .ok j
      | none => .error (-enoent) := by
  have hfilter : names.filter (· ≠ dot) = names := by
    apply List.filter_eq_self.mpr
    intro c hc
    have hcd : c ≠ dot := fun heq => hdot (heq ▸ hc)
    simpa using hcd
  rw [resolve, if_neg (not_short_pathFiles path hne)]
  cases hw : walk s.child 0 names with
  | none =>
    simp only [Bool.false_eq_true, if_false, tail_pathFiles, ite_self, descend, hfilter, hw]
  | some j =>
    simp only [Bool.false_eq_true, if_false, tail_pathFiles, ite_self, descend, hfilter, hw]

/-- **`vfs_open`** finds what a path of names leads to, and makes a vnode with its length. -/
theorem VfsInv.openSized (h : s.VfsInv) (hne : names ≠ [])
    (hnames : ∀ c ∈ names, c ≠ [] ∧ c ≠ dot ∧ slash ∉ c ∧ c.length < 256)
    (leading trailing : Bool) (flags : BitVec 16) :
    ∃ s', s'.inodes = s.inodes ∧ s'.VfsInv ∧ match walk s.child 0 names with
      | some j => ∃ fd, GoofyOs.vfsOpen (renderPath names leading trailing) none flags s =
          some (.ok fd, s') ∧ fd.pos = 0 ∧ s'.Sized fd.entry j
      | none => GoofyOs.vfsOpen (renderPath names leading trailing) none flags s =
          some (.error (-enoent), s') := by
  have hdot : dot ∉ names := by
    intro hmem
    exact (hnames dot hmem).2.1 rfl
  have hfiles : vfsParsePath (renderPath names leading trailing) =
      some (pathFiles (renderPath names leading trailing) names) :=
    vfsParsePath_renderPath (fun c hc => ⟨(hnames c hc).1, (hnames c hc).2.2⟩)
      fun hempty => hne hempty.1
  generalize renderPath names leading trailing = path at hfiles ⊢
  have hrel : s.Start none 0 := rfl
  obtain ⟨s', hgrow, h', hfind⟩ := h.findDentry false hrel hfiles
  rw [resolve_pathFiles path hne hdot] at hfind
  refine ⟨s', hgrow.inodes, h', ?_⟩
  cases hw : walk s.child 0 names with
  | none =>
    rw [hw] at hfind
    exact bind_error hfind
  | some j =>
    rw [hw] at hfind
    obtain ⟨d', hfind, hd', -⟩ := hfind
    refine ⟨⟨d', 0, flags⟩, bind_ok hfind, rfl, ?_⟩
    -- the loop starts from the root, and goes down at least one name
    obtain ⟨root, hroot, hroot0⟩ := h.globalRoot
    have hloop : GoofyOs.findLoop root names s = some (.ok d', s') := by
      rw [vfsFindDentry, hfiles, bind_ok (deref_some _ s), if_neg (not_short_pathFiles path hne),
        bind_ok (read_apply s)] at hfind
      simp only [Bool.false_eq_true, if_false, hroot, tail_pathFiles] at hfind
      have hstart : (if path.head? = some slash then some root else none).or (some root) =
          some root := by
        split
        · rfl
        · rfl
      rwa [hstart, bind_ok (deref_some root s)] at hfind
    obtain ⟨k, hk⟩ := h.findLoop_sized hdot hroot0 (fun hnil => absurd hnil hne) hloop
    obtain rfl := hk.designates.unique hd'
    exact hk

end VfsState

/-! ### After unpacking -/

variable {vmalloc : VfsState → ℕ → List UInt8} {s s₁ : VfsState} {e : Entry} {es : List Entry}
  {image : List UInt8} {fd : File} {fuel i : ℕ}

/-- What an open file says is what the entry says: `vfs_size`, and reads from its start. -/
def Entry.ReadsAs (e : Entry) (fd : File) (s : VfsState) : Prop :=
  match e.kind with
  | .dir => ∀ n, vfsPread fd n 0 s = some (.error (-einval), s)
  | .file data => vfsSize fd s = some (.ok data.length, s) ∧
      ∀ n, vfsPread fd n 0 s = some (.ok ((min n data.length : ℕ), data.take n), s)

/-- `vfs_pread` from anything but a regular file is an error. -/
theorem vfsPread_error {x : TmpfsInode} (hd : s.Designates fd.entry i)
    (hx : s.inodes[i]? = some x)
    (hreg : sIsreg (if i = 0 then sIfdir ||| 0x1ff else x.mode) = false) (n pos : ℕ) :
    vfsPread fd n pos s = some (.error (-einval), s) := by
  obtain ⟨v, y, hfile, hy⟩ := fileVnode_ok fd hd
  have hmode : sIsreg y.mode = false := by
    obtain ⟨x₀, hx₀, hmode⟩ := hy.mode
    obtain rfl := Option.some.inj (hx.symm.trans hx₀)
    rw [hmode]
    exact hreg
  rw [vfsPread, bind_ok hfile, tmpfsRead, bind_ok (getVnode_ok hy.get), if_pos (by simp [hmode])]
  rfl

/-- The names in an archive are short. -/
theorem Encodes.length_name (h : Encodes es image) : ∀ e ∈ es, e.name.length < 100 := by
  induction h with
  | nil rest =>
    intro e he
    exact absurd he List.not_mem_nil
  | cons header _ _ ih => exact List.forall_mem_cons.mpr ⟨header.short, ih⟩

theorem WellFormed.path_ne_nil (h : WellFormed es) (he : e ∈ es) : e.path ≠ [] := by
  obtain ⟨pre, post, hes⟩ := List.append_of_mem he
  obtain ⟨p, c, hpath, -⟩ := h.parent pre e post hes
  simp [hpath]

/-- An entry that was opened is what it was in the archive. -/
theorem Unpacked.readsAs (h : Unpacked s es) (he : e ∈ es) (hne : e.path ≠ [])
    (hlt : e.data.length < 2 ^ 31) (hi : walk s.child 0 e.path = some i)
    (hinodes : s₁.inodes = s.inodes) (h₁ : s₁.VfsInv) (hpos : fd.pos = 0)
    (hsized : s₁.Sized fd.entry i) : e.ReadsAs fd s₁ := by
  obtain ⟨i', x, hi', hx, his⟩ := h.entry e he
  obtain rfl := Option.some.inj (hi.symm.trans hi')
  rw [← hinodes] at hx
  have hroot : i ≠ 0 := by
    rintro rfl
    exact hne (h.inv.tree.walk_inj hi rfl)
  rw [Entry.Is] at his
  rw [Entry.ReadsAs]
  cases hk : e.kind with
  | dir =>
    rw [hk] at his
    have hreg : sIsreg x.mode = false := by
      simp only [sIsdir, decide_eq_true_eq] at his
      rw [sIsreg, his]
      decide
    intro n
    exact vfsPread_error hsized.designates hx (by rw [if_neg hroot, hreg]) n 0
  | file data =>
    rw [hk] at his
    rw [Entry.data, hk] at hlt
    have hlt : data.length < 2 ^ 31 := hlt
    obtain ⟨hreg, hcontents, hlength⟩ := his
    have hfile : s₁.OpenFile fd i data :=
      ⟨h₁, hsized.designates, x, hx, hcontents, hlength, by rw [if_neg hroot, hreg]⟩
    refine ⟨?_, ?_⟩
    · rw [hsized.vfsSize hx, hlength]
    · intro n
      have hint : asInt (min n data.length : ℕ) = (min n data.length : ℕ) :=
        asInt_of_lt (by omega) (by omega)
      rw [hfile.vfsPread, hpos, Nat.sub_zero, hint, ← List.take_eq_take_min]

/-- **`vfs_open`** in an archive that was unpacked. -/
theorem Unpacked.vfsOpen {p : List Name} (h : Unpacked s es)
    (hsize : ∀ e ∈ es, e.data.length < 2 ^ 31) (hne : p ≠ [])
    (hp : ∀ c ∈ p, c ≠ [] ∧ c ≠ dot ∧ slash ∉ c ∧ c.length < 256) (leading trailing : Bool)
    (flags : BitVec 16) :
    ∃ s', s'.inodes = s.inodes ∧
      (∀ e ∈ es, e.path = p → ∃ fd i, GoofyOs.vfsOpen (renderPath p leading trailing) none flags s =
        some (.ok fd, s') ∧ e.ReadsAs fd s' ∧ s'.Sized fd.entry i) ∧
      ((∀ e ∈ es, e.path ≠ p) → GoofyOs.vfsOpen (renderPath p leading trailing) none flags s =
        some (.error (-enoent), s')) := by
  obtain ⟨s', hinodes, h', hopen⟩ := h.inv.openSized hne hp leading trailing flags
  refine ⟨s', hinodes, ?_, ?_⟩
  · rintro e he rfl
    obtain ⟨i, x, hi, -⟩ := h.entry e he
    rw [hi] at hopen
    obtain ⟨fd, hopen, hpos, hsized⟩ := hopen
    exact ⟨fd, i, hopen, h.readsAs he hne (hsize e he) hi hinodes h' hpos hsized, hsized⟩
  · intro hno
    cases hw : walk s.child 0 p with
    | none =>
      rw [hw] at hopen
      exact hopen
    | some j =>
      obtain ⟨e, he, hpath⟩ := h.only p j hne hw
      exact absurd hpath (hno e he)

theorem WellFormed.data_lt (h : WellFormed es) : ∀ e ∈ es, e.data.length < 2 ^ 31 := by
  intro e he
  have := h.size e he
  omega

/-- **An archive can be read back.** After `unpack_ustar`, the names of an entry joined by slashes,
with or without a slash at either end, open a file with the size and the bytes of the entry. All
other names are not found. -/
theorem initrd_open (hv : ∀ s n, (vmalloc s n).length = n) (hwf : WellFormed es)
    (himage : Encodes (Entry.root :: es) image) (hfuel : es.length < fuel) :
    ∃ s, unpackUstar vmalloc fuel image initVfs = some (.ok (), s) ∧
      ∀ (p : List Name) (leading trailing : Bool) (flags : BitVec 16), p ≠ [] →
        (∀ c ∈ p, c ≠ [] ∧ c ≠ dot ∧ slash ∉ c ∧ c.length < 256) →
        ∃ s', s'.inodes = s.inodes ∧
          (∀ e ∈ es, e.path = p → ∃ fd, vfsOpen (renderPath p leading trailing) none flags s =
            some (.ok fd, s') ∧ e.ReadsAs fd s') ∧
          ((∀ e ∈ es, e.path ≠ p) → vfsOpen (renderPath p leading trailing) none flags s =
            some (.error (-enoent), s')) := by
  obtain ⟨s, hrun, hu⟩ := unpackUstar_unpacked hv hwf himage hfuel
  refine ⟨s, hrun, ?_⟩
  intro p leading trailing flags hne hp
  obtain ⟨s', hinodes, hfound, hmissing⟩ := hu.vfsOpen hwf.data_lt hne hp leading trailing flags
  refine ⟨s', hinodes, ?_, hmissing⟩
  intro e he hpath
  obtain ⟨fd, i, hopen, hreads, -⟩ := hfound e he hpath
  exact ⟨fd, hopen, hreads⟩

/-- `/a/f`, from the archive with `./a/` and `./a/f`. -/
theorem initrd_open_sampleEntries : ∃ s fd s',
    unpackUstar vzeroed 3 (encode (Entry.root :: sampleEntries)) initVfs = some (.ok (), s) ∧
      vfsOpen [47, 97, 47, 102] none 0 s = some (.ok fd, s') ∧
      vfsPread fd 5 0 s' = some (.ok (2, [49, 50]), s') := by
  obtain ⟨s, hrun, hopen⟩ := initrd_open length_vzeroed wellFormed_sampleEntries
    (encodes_encode (by decide)) (show sampleEntries.length < 3 by decide)
  obtain ⟨s', -, hfound, -⟩ := hopen [[97], [102]] true false 0 (by decide) (by decide)
  obtain ⟨fd, hfile, -, hread⟩ := hfound ⟨[[97], [102]], false, .file [49, 50]⟩
    (List.mem_cons_of_mem _ List.mem_cons_self) rfl
  exact ⟨s, fd, s', hrun, hfile, hread 5⟩

/-! ### The first program -/

/-- `run_elf_file` takes what is long enough. -/
theorem Entry.ReadsAs.runElfFile (h : e.ReadsAs fd s) (hsized : s.Sized fd.entry i) :
    GoofyOs.runElfFile fd s =
      some (if elfHdrSize ≤ e.data.length then .ok () else .error (-enoexec), s) := by
  rw [Entry.ReadsAs] at h
  rw [Entry.data]
  cases hk : e.kind with
  | dir =>
    rw [hk] at h
    have hdata : ¬ elfHdrSize ≤ ([] : List UInt8).length := by decide
    obtain ⟨-, -, -, x, -, -, -, hx, -⟩ := id hsized
    rw [if_neg hdata, GoofyOs.runElfFile, bind_ok (hsized.vfsSize hx)]
    by_cases hshort : x.length < elfHdrSize
    · rw [if_pos hshort]
      rfl
    · rw [if_neg hshort, bind_ok (attempt_of_eq (h elfHdrSize))]
      rfl
  | file data =>
    rw [hk] at h
    obtain ⟨hsize, hread⟩ := h
    rw [GoofyOs.runElfFile, bind_ok hsize]
    by_cases hshort : data.length < elfHdrSize
    · rw [if_pos hshort, if_neg (Nat.not_le.mpr hshort)]
      rfl
    · have hle := Nat.not_lt.mp hshort
      rw [if_neg hshort, if_pos hle, bind_ok (attempt_of_eq (hread elfHdrSize)),
        Nat.min_eq_left hle]
      rfl

/-- **`exec_file`** takes what is long enough, and nothing is done with it. -/
theorem Entry.ReadsAs.execFile (h : e.ReadsAs fd s) (hsized : s.Sized fd.entry i) :
    GoofyOs.execFile fd s =
      some (if elfHdrSize ≤ e.data.length then .ok () else .error (-enoexec), s) := by
  rw [GoofyOs.execFile, bind_ok (attempt_of_eq (h.runElfFile hsized))]
  split
  · rfl
  · rfl

/-- `/sbin/init`, as names. -/
def initPath : List Name := [[115, 98, 105, 110], [105, 110, 105, 116]]

theorem sbinInit_eq : sbinInit = renderPath initPath true false := rfl

/-- **The first program.** After `unpack_ustar`, `exec_file` takes every file of at least 64 bytes,
whatever is in it, and refuses all other entries. `run_init` returns if the archive has an entry
`sbin/init` of any kind, and halts otherwise; it changes no file. -/
theorem initrd_exec (hv : ∀ s n, (vmalloc s n).length = n) (hwf : WellFormed es)
    (himage : Encodes (Entry.root :: es) image) (hfuel : es.length < fuel) :
    ∃ s, unpackUstar vmalloc fuel image initVfs = some (.ok (), s) ∧
      (∀ e ∈ es, ∃ fd s', vfsOpen (renderPath e.path true false) none 0 s = some (.ok fd, s') ∧
        execFile fd s' =
          some (if elfHdrSize ≤ e.data.length then .ok () else .error (-enoexec), s')) ∧
      ∃ s', s'.inodes = s.inodes ∧
        runInit s = if initPath ∈ es.map Entry.path then some (.ok (), s') else none := by
  obtain ⟨s, hrun, hu⟩ := unpackUstar_unpacked hv hwf himage hfuel
  refine ⟨s, hrun, ?_, ?_⟩
  · intro e he
    have hcomp : ∀ c ∈ e.path, c ≠ [] ∧ c ≠ dot ∧ slash ∉ c ∧ c.length < 256 := by
      intro c hc
      obtain ⟨hnil, hdot, hslash, -⟩ := hwf.component e he c hc
      have hname := himage.length_name e (List.mem_cons_of_mem _ he)
      have hle := Entry.length_le_of_mem hc
      exact ⟨hnil, hdot, hslash, by omega⟩
    obtain ⟨s', -, hfound, -⟩ := hu.vfsOpen hwf.data_lt (hwf.path_ne_nil he) hcomp true false 0
    obtain ⟨fd, i, hopen, hreads, hsized⟩ := hfound e he rfl
    exact ⟨fd, s', hopen, hreads.execFile hsized⟩
  · obtain ⟨s', hinodes, hfound, hmissing⟩ := hu.vfsOpen (p := initPath) hwf.data_lt (by decide)
      (by decide) true false 0
    refine ⟨s', hinodes, ?_⟩
    by_cases hmem : initPath ∈ es.map Entry.path
    · obtain ⟨e, he, hpath⟩ := List.mem_map.mp hmem
      obtain ⟨fd, i, hopen, hreads, hsized⟩ := hfound e he hpath
      rw [← sbinInit_eq] at hopen
      rw [if_pos hmem, runInit, bind_ok (attempt_of_eq hopen)]
      show (deref (some fd) >>= _) s' = _
      rw [bind_ok (deref_some fd s'), bind_ok (attempt_of_eq (hreads.execFile hsized))]
      rfl
    · have hopen := hmissing fun e he hpath => hmem (List.mem_map.mpr ⟨e, he, hpath⟩)
      rw [← sbinInit_eq] at hopen
      rw [if_neg hmem, runInit, bind_ok (attempt_of_eq hopen)]
      rfl

/-- The directory `./sbin/` and the file `./sbin/init` of 64 zeros. -/
def zeroInit : List Entry :=
  [⟨[[115, 98, 105, 110]], true, .dir⟩, ⟨initPath, false, .file (List.replicate 64 0)⟩]

theorem wellFormed_zeroInit : WellFormed zeroInit where
  component := by decide
  size := by decide
  nodup := by decide
  parent pre e post h := by
    match pre with
    | [] =>
      obtain ⟨rfl, -⟩ := List.cons.inj h
      exact ⟨[], [115, 98, 105, 110], rfl, Or.inl rfl⟩
    | [e'] =>
      obtain ⟨rfl, htail⟩ := List.cons.inj h
      obtain ⟨rfl, -⟩ := List.cons.inj htail
      exact ⟨[[115, 98, 105, 110]], [105, 110, 105, 116], rfl,
        Or.inr ⟨_, List.mem_singleton_self _, rfl⟩⟩
    | _ :: _ :: pre => simp [zeroInit] at h

/-- A file of zeros is taken for an executable, and `run_init` returns. -/
theorem initrd_exec_zeroInit : ∃ s fd s' s'',
    unpackUstar vzeroed 3 (encode (Entry.root :: zeroInit)) initVfs = some (.ok (), s) ∧
      vfsOpen (renderPath initPath true false) none 0 s = some (.ok fd, s') ∧
      execFile fd s' = some (.ok (), s') ∧ runInit s = some (.ok (), s'') := by
  obtain ⟨s, hrun, hexec, s'', -, hinit⟩ := initrd_exec length_vzeroed wellFormed_zeroInit
    (encodes_encode (by decide)) (show zeroInit.length < 3 by decide)
  obtain ⟨fd, s', hfile, htaken⟩ := hexec ⟨initPath, false, .file (List.replicate 64 0)⟩
    (List.mem_cons_of_mem _ List.mem_cons_self)
  exact ⟨s, fd, s', s'', hrun, hfile, htaken, hinit⟩

end GoofyOs
