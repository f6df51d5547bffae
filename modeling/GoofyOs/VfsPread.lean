import GoofyOs.VfsReadWrite

/-!
# Reads at a given position

`vfs_pread` passes the position of the file on, and not the one it is given, and `tmpfs_read` copies
from the start of the file. The result depends on the position of the file, then, unless there is
nothing to read.

## Main definitions

* `positional` — what a read at a given position is to return

## Main results

* `vfsPread_eq_iff` — when a read through one open file returns that
* `vfsPread_iff` — when reads through all open files on an inode do
-/

namespace GoofyOs

open Proc VfsState VfsSys

/-- What a read of `n` bytes at the position `pos` is to return: the number of bytes, and the
bytes. -/
def positional (data : List UInt8) (n pos : ℕ) : ℤ × List UInt8 :=
  ((min n (data.length - pos) : ℕ), (data.drop pos).take n)

/-- Reading `n` bytes at the position `pos` and at the position `fpos` of the file is the same:
there are as many bytes to read, the bytes at `pos` are those at the start, and their number is an
`int`. -/
structure SameRead (data : List UInt8) (fpos n pos : ℕ) : Prop where
  count : min n (data.length - fpos) = min n (data.length - pos)
  bytes : ∀ k < min n (data.length - pos), data[k]? = data[pos + k]?
  int : min n (data.length - pos) < 2 ^ 31

variable {s : VfsState} {fd fd₁ fd₂ : File} {i n pos k : ℕ} {data : List UInt8}

theorem take_eq_drop_take_iff :
    data.take k = (data.drop pos).take k ↔ ∀ j < k, data[j]? = data[pos + j]? := by
  simp only [take_eq_take_iff, List.getElem?_drop]

theorem asInt_natCast_eq_iff : asInt k = k ↔ k < 2 ^ 31 := by
  rw [asInt_eq_self_iff]
  omega

/-- A read through one open file. -/
theorem vfsPread_eq_iff (h : s.OpenFile fd i data) (n pos : ℕ) :
    vfsPread fd n pos s = some (.ok (positional data n pos), s) ↔ SameRead data fd.pos n pos := by
  have htake : (data.drop pos).take n = (data.drop pos).take (min n (data.length - pos)) := by
    rw [← List.length_drop, List.take_eq_take_min]
  rw [h.vfsPread, positional, htake]
  simp only [Option.some.injEq, Prod.mk.injEq, Except.ok.injEq, and_true]
  constructor
  · rintro ⟨hint, hbytes⟩
    have hcount : min n (data.length - fd.pos) = min n (data.length - pos) := by
      have hlen := congrArg List.length hbytes
      simp only [List.length_take, List.length_drop] at hlen
      omega
    rw [hcount] at hint hbytes
    exact ⟨hcount, take_eq_drop_take_iff.mp hbytes, asInt_natCast_eq_iff.mp hint⟩
  · rintro ⟨hcount, hbytes, hint⟩
    rw [hcount]
    exact ⟨asInt_natCast_eq_iff.mpr hint, take_eq_drop_take_iff.mpr hbytes⟩

/-- The position of the file makes no difference only where there is nothing to read. -/
theorem forall_sameRead_iff : (∀ fpos, SameRead data fpos n pos) ↔ n = 0 ∨ data = [] := by
  constructor
  · intro h
    have hstart := (h 0).count
    have hend := (h data.length).count
    rw [← List.length_eq_zero_iff]
    omega
  · intro h fpos
    have hzero : ∀ q, min n (data.length - q) = 0 := by
      intro q
      rcases h with rfl | rfl
      · exact Nat.zero_min _
      · simp
    exact ⟨by rw [hzero, hzero], by simp [hzero], by rw [hzero]; decide⟩

/-- **Positional reads** through two open files on an inode both return the bytes at the position
just when reading there is the same as reading at the positions of the files. They do so through all
open files on the inode just when there is nothing to read. -/
theorem vfsPread_iff (h₁ : s.OpenFile fd₁ i data) (h₂ : s.OpenFile fd₂ i data) (n pos : ℕ) :
    (vfsPread fd₁ n pos s = some (.ok (positional data n pos), s) ∧
        vfsPread fd₂ n pos s = some (.ok (positional data n pos), s) ↔
      SameRead data fd₁.pos n pos ∧ SameRead data fd₂.pos n pos) ∧
    ((∀ fd, s.OpenFile fd i data →
        vfsPread fd n pos s = some (.ok (positional data n pos), s)) ↔ n = 0 ∨ data = []) := by
  refine ⟨and_congr (vfsPread_eq_iff h₁ n pos) (vfsPread_eq_iff h₂ n pos), ?_⟩
  rw [← @forall_sameRead_iff n pos data]
  constructor
  · intro h fpos
    have hfd : s.OpenFile { fd₁ with pos := fpos } i data := ⟨h₁.inv, h₁.designates, h₁.inode⟩
    exact (vfsPread_eq_iff hfd n pos).mp (h _ hfd)
  · exact fun h fd hfd => (vfsPread_eq_iff hfd n pos).mpr (h fd.pos)

/-! ### A file of two bytes -/

/-- There are open files with all contents that are not too long. -/
theorem exists_openFile (data : List UInt8) (hlt : data.length < 2 ^ 31) :
    ∃ s fd i, VfsState.OpenFile s fd i data := by
  have hrel : ValidRel initVfs none := fun d hd => by simp at hd
  have hcreate : (vfsCreate [47, 102] none 0 initVfs).map Prod.fst = some (.ok ()) := by
    decide +kernel
  obtain ⟨⟨r, s'⟩, hs', rfl⟩ := Option.map_eq_some_iff.mp hcreate
  rcases vfsAdd_cases vfsInv_initVfs hrel hs' with ⟨e, he, -⟩ |
    ⟨s₁, i, files, p, name, -, hgrow, h₁, hp, hi, hfiles, ht, habs, hadded⟩
  · simp at he
  · obtain ⟨d, s₂, -, -, hfile, -⟩ :=
      ht.openNew hi hfiles hgrow h₁ hp habs (sIsreg_create 0) hadded 0
    obtain ⟨fd, s₃, -, hfile₃, -⟩ :=
      hfile.writeAll [data] length_vzeroed rfl (by simpa using hlt)
    exact ⟨s₃, fd, _, by simpa using hfile₃⟩

theorem vfsPread_iff_one : ∃ s fd i, VfsState.OpenFile s fd i [1, 2] ∧
    (vfsPread { fd with pos := 0 } 1 0 s = some (.ok (1, [1]), s) ∧
      vfsPread { fd with pos := 1 } 1 0 s = some (.ok (1, [1]), s)) := by
  obtain ⟨s, fd, i, h⟩ := exists_openFile [1, 2] (by decide)
  have h₁ : s.OpenFile { fd with pos := 0 } i [1, 2] := ⟨h.inv, h.designates, h.inode⟩
  have h₂ : s.OpenFile { fd with pos := 1 } i [1, 2] := ⟨h.inv, h.designates, h.inode⟩
  refine ⟨s, fd, i, h, (vfsPread_iff h₁ h₂ 1 0).1.mpr ⟨?_, ?_⟩⟩
  · show SameRead [1, 2] 0 1 0
    exact ⟨by decide, by decide, by decide⟩
  · show SameRead [1, 2] 1 1 0
    exact ⟨by decide, by decide, by decide⟩

/-- Reading the second byte returns the first one, through a file at its start. -/
theorem not_vfsPread_positional : ¬ ∀ (s : VfsState) (fd : File) (i n pos : ℕ) (data : List UInt8),
    s.OpenFile fd i data → vfsPread fd n pos s = some (.ok (positional data n pos), s) := by
  intro hall
  obtain ⟨s, fd, i, h⟩ := exists_openFile [1, 2] (by decide)
  have hstart : s.OpenFile { fd with pos := 0 } i [1, 2] := ⟨h.inv, h.designates, h.inode⟩
  have hread := hall s { fd with pos := 0 } i 1 1 [1, 2] hstart
  rw [hstart.vfsPread] at hread
  have hbytes : ([1, 2] : List UInt8).take 1 = [2] :=
    congrArg Prod.snd (Except.ok.inj (congrArg Prod.fst (Option.some.inj hread)))
  exact absurd hbytes (by decide)

end GoofyOs
