import GoofyOs.VfsRun
import Mathlib.Algebra.GroupWithZero.Nat

/-!
# Reading files back

A file that is created, written to through one open file and read back through another. `tmpfs_read`
copies from the start of the file whatever the position, so that only the first read is sure to
return the right bytes.

## Main definitions

* `TmpfsInode.contents` — the bytes of a file
* `writeAll`, `readAll`, `writeThenRead` — successive calls of `vfs_write` and `vfs_read`
* `ReadsBack` — the reads return the bytes one after another, and 0 once the end is reached
* `StartRepeats` — the bytes at every position that is read are those at the start

## Main results

* `VfsState.VfsInv.writeAll`, `VfsState.VfsInv.readAll` — the two loops
* `readsBack_iff` — the reads return the right bytes just when the start of the file repeats
-/

namespace GoofyOs

open Proc PathWalk VfsState VfsSys

/-- The bytes of a file. -/
def TmpfsInode.contents (x : TmpfsInode) : List UInt8 := x.data.take x.length

/-- Successive calls of `vfs_write` through one file. -/
def writeAll (vmalloc : VfsState → ℕ → List UInt8) (fd : File) : List (List UInt8) → VfsM File
  | [] => pure fd
  | buf :: bufs => do
    let (_, fd) ← vfsWrite vmalloc fd buf
    writeAll vmalloc fd bufs

/-- Successive calls of `vfs_read` through one file: their results and the bytes they return. -/
def readAll (fd : File) : List ℕ → VfsM (List (ℤ × List UInt8))
  | [] => pure []
  | n :: ns => do
    let (res, buf, fd) ← vfsRead fd n
    let rest ← readAll fd ns
    pure ((res, buf) :: rest)

/-- Creating a file, writing to it through one open file and reading it through another. -/
def writeThenRead (vmalloc : VfsState → ℕ → List UInt8) (path : List UInt8) (rel : Option ℕ)
    (mode flags flags' : BitVec 16) (bufs : List (List UInt8)) (sizes : List ℕ) :
    VfsM (List (ℤ × List UInt8)) := do
  vfsCreate path rel mode
  let fd ← vfsOpen path rel flags
  let _ ← writeAll vmalloc fd bufs
  let fd ← vfsOpen path rel flags'
  readAll fd sizes

/-- The reads return the bytes of `data` one after another, and those that ask for something return 0
just when the end was reached. -/
def ReadsBack (data : List UInt8) (sizes : List ℕ) (reads : List (ℤ × List UInt8)) : Prop :=
  (reads.map Prod.snd).flatten = data.take sizes.sum ∧
    ∀ k n r, sizes[k]? = some n → reads[k]? = some r → n ≠ 0 →
      (r.1 = 0 ↔ data.length ≤ (sizes.take k).sum)

/-- The bytes at every position that is read are those at the start. The first read is at the
position `p`. -/
def StartRepeats (data : List UInt8) : ℕ → List ℕ → Prop
  | _, [] => True
  | p, n :: ns => data.take (min n (data.length - p)) = (data.drop p).take n ∧
      StartRepeats data (p + min n (data.length - p)) ns

/-- What the reads return from the position `p` on. -/
def readsAt (data : List UInt8) : ℕ → List ℕ → List (ℤ × List UInt8)
  | _, [] => []
  | p, n :: ns => ((min n (data.length - p) : ℕ), data.take (min n (data.length - p))) ::
      readsAt data (p + min n (data.length - p)) ns

/-! ### The bytes that are read -/

section Bytes

variable {data : List UInt8} {p : ℕ} {sizes : List ℕ}

/-- The bytes are the right ones just when the start of the data repeats. -/
theorem flatten_readsAt_iff (hp : p ≤ data.length) :
    ((readsAt data p sizes).map Prod.snd).flatten = (data.drop p).take sizes.sum ↔
      StartRepeats data p sizes := by
  induction sizes generalizing p with
  | nil => simp [readsAt, StartRepeats]
  | cons n ns ih =>
    have hsplit : (data.drop p).take (n + ns.sum) = (data.drop p).take n ++
        (data.drop (p + min n (data.length - p))).take ns.sum := by
      rw [List.take_add, List.drop_drop]
      by_cases hn : n ≤ data.length - p
      · rw [min_eq_left hn]
      · -- the read reaches the end
        have hend : data.drop (p + n) = [] := List.drop_eq_nil_of_le (by omega)
        have hend' : data.drop (p + (data.length - p)) = [] := List.drop_eq_nil_of_le (by omega)
        rw [min_eq_right (Nat.le_of_not_le hn), hend, hend']
    have hlen : (data.take (min n (data.length - p))).length = ((data.drop p).take n).length := by
      simp only [List.length_take, List.length_drop]
      omega
    rw [readsAt, StartRepeats, List.map_cons, List.flatten_cons, List.sum_cons, hsplit,
      List.append_eq_append_iff_of_size_eq_left hlen, ih (by omega)]

theorem take_eq_take_iff {l l' : List UInt8} {k : ℕ} :
    l.take k = l'.take k ↔ ∀ j < k, l[j]? = l'[j]? := by
  constructor
  · intro h j hj
    rw [← List.getElem?_take_of_lt hj, h, List.getElem?_take_of_lt hj]
  · intro h
    refine List.ext_getElem? fun j => ?_
    rw [List.getElem?_take, List.getElem?_take]
    split
    · next hj => exact h j hj
    · rfl

theorem length_readsAt : (readsAt data p sizes).length = sizes.length := by
  induction sizes generalizing p with
  | nil => rfl
  | cons n ns ih => rw [readsAt, List.length_cons, List.length_cons, ih]

/-- A read returns 0 just when the end was reached. -/
theorem fst_readsAt {k n : ℕ} {r : ℤ × List UInt8} (hp : p ≤ data.length)
    (hn : sizes[k]? = some n) (hr : (readsAt data p sizes)[k]? = some r) (hne : n ≠ 0) :
    r.1 = 0 ↔ data.length ≤ p + (sizes.take k).sum := by
  induction sizes generalizing p k with
  | nil => simp at hn
  | cons m ms ih =>
    cases k with
    | zero =>
      obtain rfl : m = n := Option.some.inj hn
      obtain rfl := (Option.some.inj hr).symm
      simp only [List.take_zero, List.sum_nil, Int.natCast_eq_zero]
      omega
    | succ k =>
      have hp' : p + min m (data.length - p) ≤ data.length := by omega
      rw [ih hp' hn hr, List.take_succ_cons, List.sum_cons]
      omega

theorem readsBack_readsAt_iff : ReadsBack data sizes (readsAt data 0 sizes) ↔
    StartRepeats data 0 sizes := by
  rw [← flatten_readsAt_iff (Nat.zero_le _), List.drop_zero]
  refine ⟨And.left, fun h => ⟨h, fun k n r hn hr hne => ?_⟩⟩
  rw [fst_readsAt (Nat.zero_le _) hn hr hne, Nat.zero_add]

end Bytes

/-! ### The two loops -/

variable {vmalloc : VfsState → ℕ → List UInt8} {t : VfsSys} {s s' : VfsState}
  {cs : List VfsCall} {path : List UInt8} {rel : Option ℕ} {files : List Name} {i v n : ℕ}
  {fd : File} {x : TmpfsInode} {buf : List UInt8}

theorem length_contents (hx : Fits x) : x.contents.length = x.length := by
  obtain ⟨hlen, hroom⟩ := hx
  rw [TmpfsInode.contents, List.length_take]
  omega

/-- A new buffer starts with the old bytes. -/
theorem take_makeRoom (hx : Fits x) (k : ℕ) :
    (makeRoom vmalloc s x k).data.take x.length = x.contents := by
  rw [makeRoom]
  split
  · show (copyTo _ 0 x.contents).take x.length = _
    rw [copyTo, List.take_zero, List.nil_append, ← length_contents hx, List.take_left']
    rfl
  · rfl

/-- Writing at the end of a file appends to its bytes. -/
theorem contents_writtenInode (buf : List UInt8) (hx : Fits x) :
    (writtenInode vmalloc s x buf x.length).contents = x.contents ++ buf ∧
      (writtenInode vmalloc s x buf x.length).length = x.length + buf.length := by
  have hmax : max x.length (x.length + buf.length) = x.length + buf.length := by omega
  refine ⟨?_, hmax⟩
  show (copyTo (makeRoom vmalloc s x (max x.length (x.length + buf.length))).data x.length buf).take
    (max x.length (x.length + buf.length)) = _
  rw [hmax, copyTo, take_makeRoom hx, List.take_left']
  rw [List.length_append, length_contents hx]

/-- An open regular file with the given bytes. -/
structure VfsState.OpenFile (s : VfsState) (fd : File) (i : ℕ) (data : List UInt8) : Prop where
  inv : s.VfsInv
  designates : s.Designates fd.entry i
  inode : ∃ x : TmpfsInode, s.inodes[i]? = some x ∧ x.contents = data ∧ x.length = data.length ∧
    sIsreg (if i = 0 then sIfdir ||| 0x1ff else x.mode) = true

variable {data : List UInt8}

/-- **`vfs_write`** at the end of an open file. -/
theorem VfsState.OpenFile.vfsWrite (hv : ∀ s n, (vmalloc s n).length = n)
    (h : s.OpenFile fd i data) (hpos : fd.pos = data.length)
    (hlt : (data ++ buf).length < 2 ^ 31) :
    ∃ v x' s' fd', GoofyOs.vfsWrite vmalloc fd buf s = some (.ok (buf.length, fd'), s') ∧
      fd'.pos = (data ++ buf).length ∧ s.Written v i x' s' ∧ s'.OpenFile fd' i (data ++ buf) := by
  obtain ⟨x, hx, hcontents, hlength, hreg⟩ := h.inode
  obtain ⟨v, s', hwrite, hw⟩ := h.inv.vfsWrite hv buf h.designates hx hreg
  obtain ⟨hcontents', hlength'⟩ : (writtenInode vmalloc s x buf x.length).contents = _ ∧ _ :=
    contents_writtenInode buf (h.inv.fits hx)
  rw [List.length_append] at hlt
  have hint : asInt buf.length = buf.length := asInt_of_lt (by omega) (by omega)
  rw [hint, Int.toNat_natCast] at hwrite
  rw [hpos, ← hlength] at hw
  have hinode : s'.inodes[i]? = some (writtenInode vmalloc s x buf x.length) := by
    rw [hw.inodes]
    exact List.getElem?_set_self (List.getElem?_eq_some_iff.mp hx).1
  refine ⟨v, _, s', _, hwrite, ?_, hw, hw.vfsInv h.inv, hw.designates h.designates, _, hinode, ?_,
    ?_, ?_⟩
  · show fd.pos + buf.length = _
    rw [hpos, List.length_append]
  · rw [hcontents', hcontents]
  · rw [hlength', hlength, List.length_append]
  · obtain ⟨x₀, hx₀, -, -, -, hmode⟩ := hw.same
    obtain rfl := Option.some.inj (hx.symm.trans hx₀)
    rw [hmode]
    exact hreg

/-- **Successive writes** append to the file, and paths resolve as before. -/
theorem VfsState.OpenFile.writeAll (bufs : List (List UInt8))
    (hv : ∀ s n, (vmalloc s n).length = n) (h : s.OpenFile fd i data) (hpos : fd.pos = data.length)
    (hlt : (data ++ bufs.flatten).length < 2 ^ 31) :
    ∃ fd' s', GoofyOs.writeAll vmalloc fd bufs s = some (.ok fd', s') ∧
      s'.OpenFile fd' i (data ++ bufs.flatten) ∧ s'.resolve = s.resolve ∧
      ∀ {rel j}, s.Start rel j → s'.Start rel j := by
  induction bufs generalizing s fd data with
  | nil =>
    refine ⟨fd, s, rfl, ?_, rfl, fun hrel => hrel⟩
    rw [List.flatten_nil, List.append_nil]
    exact h
  | cons buf bufs ih =>
    rw [List.flatten_cons, ← List.append_assoc] at hlt ⊢
    have hlt' : (data ++ buf).length < 2 ^ 31 := by
      rw [List.length_append] at hlt
      omega
    obtain ⟨v, x', s₁, fd₁, hwrite, hpos₁, hw, h₁⟩ := h.vfsWrite hv hpos hlt'
    obtain ⟨fd', s', hrest, h', hresolve, hstart⟩ := ih h₁ hpos₁ hlt
    refine ⟨fd', s', ?_, h', hresolve.trans hw.resolve, fun hrel => hstart (hw.start hrel)⟩
    rw [GoofyOs.writeAll, bind_ok hwrite]
    exact hrest

/-- The vnode of an open file. -/
theorem VfsState.OpenFile.vnode (h : s.OpenFile fd i data) :
    ∃ v y, fileVnode fd s = some (.ok v, s) ∧ s.VnodeOf v i y ∧ sIsreg y.mode = true := by
  obtain ⟨x, hx, -, -, hreg⟩ := h.inode
  obtain ⟨v, y, hfile, hy⟩ := fileVnode_ok fd h.designates
  refine ⟨v, y, hfile, hy, ?_⟩
  obtain ⟨x₀, hx₀, hmode⟩ := hy.mode
  obtain rfl := Option.some.inj (hx.symm.trans hx₀)
  rw [hmode]
  exact hreg

/-- **`vfs_pread`** returns bytes from the start of the file, as many as there are at the position of
the file, whatever the position it is given. -/
theorem VfsState.OpenFile.vfsPread (h : s.OpenFile fd i data) (n pos : ℕ) :
    GoofyOs.vfsPread fd n pos s = some (.ok (asInt (min n (data.length - fd.pos) : ℕ),
      data.take (min n (data.length - fd.pos))), s) := by
  obtain ⟨x, hx, hcontents, hlength, -⟩ := h.inode
  obtain ⟨v, y, hfile, hy, hmode⟩ := h.vnode
  have hpriv : (deref y.privateData : VfsM ℕ) = deref (some i) := congrArg deref hy.privateData
  obtain ⟨hle, hroom⟩ := h.inv.fits hx
  rw [GoofyOs.vfsPread, bind_ok hfile, tmpfsRead, bind_ok (getVnode_ok hy.get),
    if_neg (by simp [hmode]), hpriv, bind_ok (deref_some i s), bind_ok (getInode_ok hx), hlength]
  by_cases hend : data.length ≤ fd.pos
  · rw [if_pos hend, Nat.sub_eq_zero_of_le hend, Nat.min_zero]
    rfl
  · have htake : ∀ m ≤ x.length, data.take m = x.data.take m := by
      intro m hm
      rw [← hcontents, TmpfsInode.contents, List.take_take, min_eq_left hm]
    rw [if_neg hend, htake _ (by omega)]
    rw [if_pos (by omega)]
    rfl

/-- **`vfs_read`** returns bytes from the start of the file, as many as there are at its position. -/
theorem VfsState.OpenFile.vfsRead (h : s.OpenFile fd i data) (hlt : data.length < 2 ^ 31) (n : ℕ) :
    GoofyOs.vfsRead fd n s = some (.ok ((min n (data.length - fd.pos) : ℕ),
      data.take (min n (data.length - fd.pos)),
      { fd with pos := fd.pos + min n (data.length - fd.pos) }), s) := by
  obtain ⟨v, y, hfile, hy, hmode⟩ := h.vnode
  have hint : asInt (min n (data.length - fd.pos) : ℕ) = (min n (data.length - fd.pos) : ℕ) :=
    asInt_of_lt (by omega) (by omega)
  have hpread := h.vfsPread n fd.pos
  rw [hint] at hpread
  rw [GoofyOs.vfsRead, bind_ok hpread]
  show (fileVnode fd >>= _) s = _
  rw [bind_ok hfile, bind_ok (advance_ok hy hmode)]
  rfl

/-- **Successive reads** return what `readsAt` says. -/
theorem VfsState.OpenFile.readAll {sizes : List ℕ} (h : s.OpenFile fd i data)
    (hlt : data.length < 2 ^ 31) :
    GoofyOs.readAll fd sizes s = some (.ok (readsAt data fd.pos sizes), s) := by
  induction sizes generalizing fd with
  | nil => rfl
  | cons n ns ih =>
    have hfd : s.OpenFile { fd with pos := fd.pos + min n (data.length - fd.pos) } i data :=
      ⟨h.inv, h.designates, h.inode⟩
    rw [GoofyOs.readAll, bind_ok (h.vfsRead hlt n)]
    show (GoofyOs.readAll _ ns >>= _) s = _
    rw [bind_ok (ih hfd)]
    rfl

/-- A file that is opened is the new inode, which is empty. -/
theorem VfsState.AddTarget.openNew {s₁ : VfsState} {name : Name} {p : ℕ} {mode : BitVec 16}
    (ht : s.AddTarget path files i p name) (hi : s.Start rel i)
    (hfiles : vfsParsePath path = some files) (hgrow : s.Grows s₁) (h₁ : s₁.VfsInv)
    (hp : p < s₁.inodes.length) (habs : s₁.child p name = none) (hreg : sIsreg mode = true)
    (hadded : s₁.Added p name mode s') (flags : BitVec 16) :
    ∃ d s'', GoofyOs.vfsOpen path rel flags s' = some (.ok ⟨d, 0, flags⟩, s'') ∧ s'.Grows s'' ∧
      s''.OpenFile ⟨d, 0, flags⟩ s₁.inodes.length [] ∧ s''.Start rel i ∧
      s''.resolve path files i false = .ok s₁.inodes.length := by
  have h' := hadded.vfsInv h₁ hp habs
  have hi' : s'.Start rel i := by
    cases rel with
    | none => exact hi
    | some d => exact hadded.designates (hgrow.designates hi)
  have ht₁ : s₁.AddTarget path files i p name := by
    refine ⟨?_, ht.last, ht.ne_dot, habs⟩
    rw [hgrow.resolve]
    exact ht.parent
  have hnew := ht₁.resolve_new (hadded.addedLeaf h₁.tree hp habs)
  obtain ⟨s'', hgrow', h'', hopen⟩ := h'.vfsOpen hi' hfiles flags
  rw [hnew] at hopen
  obtain ⟨d, hopen, hd⟩ := hopen
  refine ⟨d, s'', hopen, hgrow', ⟨h'', hd, _, hgrow'.inodes ▸ hadded.new, rfl, rfl, ?_⟩,
    hgrow'.start hi', ?_⟩
  · rw [if_neg (Nat.ne_of_gt h₁.tree.root)]
    exact hreg
  · rw [hgrow'.resolve]
    exact hnew

/-- **Reading a file back** in every state that is reached: everything returns, and the reads return
the right bytes just when the bytes at every position that is read are those at the start. -/
theorem readsBack_iff (hv : ∀ s n, (vmalloc s n).length = n) (h : Reached vmalloc cs t)
    (hrel : ValidRel t.fs rel) {mode : BitVec 16}
    (hnew : ∃ s', vfsCreate path rel mode t.fs = some (.ok (), s')) (bufs : List (List UInt8))
    (hlt : bufs.flatten.length < 2 ^ 31) (flags flags' : BitVec 16) (sizes : List ℕ) :
    ∃ reads s', writeThenRead vmalloc path rel mode flags flags' bufs sizes t.fs =
        some (.ok reads, s') ∧ reads.length = sizes.length ∧
      (ReadsBack bufs.flatten sizes reads ↔ StartRepeats bufs.flatten 0 sizes) := by
  obtain ⟨s', hnew⟩ := hnew
  rcases vfsAdd_cases (h.sysInv hv).fs hrel hnew with ⟨e, he, -⟩ |
    ⟨s₁, i, files, p, name, -, hgrow, h₁, hp, hi, hfiles, ht, habs, hadded⟩
  · simp at he
  · obtain ⟨d, s₂, hopen, -, hfile, hi₂, hres₂⟩ := ht.openNew hi hfiles hgrow h₁ hp habs
      (sIsreg_create mode) hadded flags
    obtain ⟨fd, s₃, hwrite, hfile₃, hres₃, hstart₃⟩ := hfile.writeAll bufs hv rfl hlt
    -- the second file is on the same inode
    obtain ⟨s₄, hgrow₄, h₄, hopen₄⟩ := hfile₃.inv.vfsOpen (hstart₃ hi₂) hfiles flags'
    rw [hres₃, hres₂] at hopen₄
    obtain ⟨d', hopen₄, hd'⟩ := hopen₄
    have hfile₄ : s₄.OpenFile ⟨d', 0, flags'⟩ s₁.inodes.length bufs.flatten :=
      ⟨h₄, hd', hgrow₄.inodes ▸ hfile₃.inode⟩
    refine ⟨readsAt bufs.flatten 0 sizes, s₄, ?_, ?_, readsBack_readsAt_iff⟩
    · rw [writeThenRead, bind_ok hnew, bind_ok hopen, bind_ok hwrite, bind_ok hopen₄]
      exact hfile₄.readAll hlt
    · exact length_readsAt

theorem readsBack_iff_one : ∃ reads s', writeThenRead vzeroed [47, 102] none 0 0 0 [[1], [2]] [5, 1]
      initVfs = some (.ok reads, s') ∧ reads.length = 2 ∧
    (ReadsBack [1, 2] [5, 1] reads ↔ StartRepeats [1, 2] 0 [5, 1]) := by
  have hrel : ValidRel initVfs none := fun d hd => by simp at hd
  have hcreate : (vfsCreate [47, 102] none 0 initVfs).map Prod.fst = some (.ok ()) := by
    decide +kernel
  obtain ⟨⟨r, s'⟩, hs', rfl⟩ := Option.map_eq_some_iff.mp hcreate
  have hreached : Reached vzeroed [] ⟨initVfs, []⟩ := .nil _
  exact readsBack_iff length_vzeroed hreached hrel ⟨s', hs'⟩ [[1], [2]] (by decide) 0 0 [5, 1]

/-- Writing two bytes and reading them one at a time returns the first byte twice. -/
theorem readsBack_fails : ∃ reads s', writeThenRead vzeroed [47, 102] none 0 0 0 [[1, 2]] [1, 1]
    initVfs = some (.ok reads, s') ∧ ¬ ReadsBack [1, 2] [1, 1] reads := by
  have hrun : (writeThenRead vzeroed [47, 102] none 0 0 0 [[1, 2]] [1, 1] initVfs).map Prod.fst =
      some (.ok [(1, [1]), (1, [1])]) := by decide +kernel
  obtain ⟨⟨r, s'⟩, hs', rfl⟩ := Option.map_eq_some_iff.mp hrun
  refine ⟨_, s', hs', fun hback => ?_⟩
  exact absurd hback.1 (by decide)

end GoofyOs
