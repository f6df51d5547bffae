import GoofyOs.Initrd

/-!
# The sizes in the headers of an archive

The 11 digits of a size also stand for numbers that are no `int`. `oct2bin` wraps around where they
are not, and `ustar_next`, which rounds the size up and adds a block, does so a little earlier.

## Main definitions

* `examined`, `writeSize` — the header that `ustar_next` looks at, and the number of bytes that
  `unpack_ustar` writes

## Main results

* `ustarNext_eq`, `unpackFile_eq` — where the two functions use them
* `sizes_iff` — the sizes for which both are right
-/

namespace GoofyOs

open Proc

/-- The offset of the header that `ustar_next` examines. -/
def examined (image : List UInt8) (header : ℕ) : Option ℤ := do
  let size ← readBytes image (header + 124) 11
  pure (header + roundedSize (oct2bin size))

/-- The number of bytes that `unpack_ustar` passes to `vfs_write`. -/
def writeSize (image : List UInt8) (fs : ℕ) : Option ℤ := do
  let size ← readBytes image (fs + 124) 11
  pure (oct2bin size)

variable {image : List UInt8} {header s : ℕ}

/-! ### The two functions -/

theorem ustarNext_eq (image : List UInt8) (header : ℕ) :
    ustarNext image header = (examined image header).bind fun next =>
      if next < 0 then none
      else (strcmpEq (image.drop (next.toNat + 257)) ustar).map fun found =>
        if found then some next.toNat else none := by
  rw [examined, ustarNext]
  simp only [Option.bind_eq_bind, Option.pure_def, Option.bind_assoc, Option.bind_some,
    Option.map_eq_bind]
  rfl

/-- What is done with a file that was opened. -/
theorem deref_writeSize {α : Type} (f : ℤ → VfsM α) (fs : ℕ) :
    (do let size ← deref (readBytes image (fs + 124) 11); f (oct2bin size)) =
      (do let n ← deref (writeSize image fs); f n) := by
  rw [writeSize]
  cases readBytes image (fs + 124) 11 with
  | none => rfl
  | some size =>
    rw [deref_some_bind]
    exact (deref_some_bind _ f).symm

theorem unpackFile_eq (vmalloc : VfsState → ℕ → List UInt8) (image : List UInt8) (fs : ℕ)
    (name : Name) : unpackFile vmalloc image fs name = (do
      let err ← attempt (vfsCreate name none 0)
      if err.isOk then do
        let err ← attempt (vfsOpen name none 0)
        let fd ← deref err.toOption
        let n ← deref (writeSize image fs)
        let buf ← deref (readBytes image (fs + 512) n)
        let _ ← attempt (vfsWrite vmalloc fd buf)
        pure ()
      else pure ()) := by
  simp only [← deref_writeSize]
  rfl

/-! ### The sizes -/

/-- **The sizes** of a header with the digits of `s` are right just up to `2 ^ 31 - 1024`: the
number that `oct2bin` returns, the header that `ustar_next` examines, and the number of bytes that
are written. The number alone is right if it is an `int`. -/
theorem sizes_iff (hs : s < 8 ^ 11)
    (hfield : readBytes image (header + 124) 11 = some (octDigits 11 s)) :
    (oct2bin (octDigits 11 s) = s ∧
        examined image header = some ↑(header + (512 + 512 * ((s + 511) / 512))) ∧
        writeSize image header = some (s : ℤ) ↔ s ≤ 2 ^ 31 - 1024) ∧
      (oct2bin (octDigits 11 s) = s ∧ writeSize image header = some (s : ℤ) ↔ s < 2 ^ 31) := by
  have hvalue : oct2bin (octDigits 11 s) = asInt s := by rw [oct2bin_eq, octValue_octDigits hs]
  have hwrite : writeSize image header = some (asInt s) := by
    rw [writeSize, hfield, ← hvalue]
    rfl
  have hexamined : examined image header = some (header + roundedSize (asInt s)) := by
    rw [examined, hfield, ← hvalue]
    rfl
  have hint : asInt s = s ↔ s < 2 ^ 31 := by
    rw [asInt_eq_self_iff]
    omega
  rw [hvalue, hwrite, hexamined, Option.some_inj, Option.some_inj, hint, and_self]
  refine ⟨⟨fun ⟨hlt, hnext, _⟩ => ?_, fun hle => ?_⟩, Iff.rfl⟩
  · rw [hint.mpr hlt] at hnext
    exact (roundedSize_eq_iff s).mp (by rw [padded]; omega)
  · have hlt : s < 2 ^ 31 := by omega
    rw [hint.mpr hlt, (roundedSize_eq_iff s).mpr hle, padded]
    exact ⟨hlt, by omega, hlt⟩

/-- An image that ends with the size of its first header. -/
def sizeImage (s : ℕ) : List UInt8 := List.replicate 124 0 ++ octDigits 11 s

theorem readBytes_sizeImage (s : ℕ) : readBytes (sizeImage s) 124 11 = some (octDigits 11 s) := by
  have hlen : (octDigits 11 s).length = 11 := length_octDigits 11 s
  have hdrop : (sizeImage s).drop 124 = octDigits 11 s := List.drop_left' List.length_replicate
  have hroom : 0 ≤ (11 : ℤ) ∧ 124 + (11 : ℤ).toNat ≤ (sizeImage s).length := by
    rw [sizeImage, List.length_append, hlen, List.length_replicate]
    decide
  rw [readBytes, if_pos hroom, hdrop]
  exact congrArg some (List.take_of_length_le hlen.le)

theorem sizes_iff_thousand : oct2bin (octDigits 11 1000) = 1000 ∧
    examined (sizeImage 1000) 0 = some 1536 ∧ writeSize (sizeImage 1000) 0 = some 1000 :=
  have hfield : readBytes (sizeImage 1000) (0 + 124) 11 = some (octDigits 11 1000) :=
    readBytes_sizeImage 1000
  (sizes_iff (by decide) hfield).1.mpr (by decide)

/-- From a file of almost 2 GiB, `ustar_next` goes back. -/
theorem not_sizes_twoGiB : ¬ ∀ (image : List UInt8) (header s : ℕ), s < 8 ^ 11 →
    readBytes image (header + 124) 11 = some (octDigits 11 s) →
      oct2bin (octDigits 11 s) = s ∧
        examined image header = some ↑(header + (512 + 512 * ((s + 511) / 512))) ∧
        writeSize image header = some (s : ℤ) := by
  intro hall
  obtain ⟨-, hnext, -⟩ := hall (sizeImage (2 ^ 31 - 1023)) 0 (2 ^ 31 - 1023) (by decide)
    (readBytes_sizeImage _)
  have hback : examined (sizeImage (2 ^ 31 - 1023)) 0 = some (-2 ^ 31) := by decide +kernel
  rw [hback] at hnext
  exact absurd hnext (by decide)

end GoofyOs
