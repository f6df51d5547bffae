import GoofyOs.ForMathlib.Trail
import GoofyOs.Initrd

/-!
# The walk over the headers of an archive

The distance to the next header is computed from 11 bytes that nobody checks. It is positive just
for the sizes from -1022 to `2 ^ 31 - 1024`: other sizes lead back, or nowhere.

## Main definitions

* `SizeForward` — the sizes that lead forward
* `MagicAt` — `ustar_next` takes what it finds for a header
* `headerAt` — the header that a round of `unpack_ustar` is at

## Main results

* `roundedSize_pos_iff` — the sizes with a positive distance
* `unpackLoop_fuel` — the loop goes round as long as there are headers
* `ustarNext_forward_iff` — where the walk goes forward, and ends
-/

namespace GoofyOs

open Proc

/-- The size, as an `int`, is one that leads forward. -/
def SizeForward (size : List UInt8) : Prop :=
  -1022 ≤ asInt (octValue size) ∧ asInt (octValue size) ≤ 2 ^ 31 - 1024

instance (size : List UInt8) : Decidable (SizeForward size) := inferInstanceAs (Decidable (_ ∧ _))

/-- `ustar_next` finds the magic of a header at the offset. -/
def MagicAt (image : List UInt8) (next : ℤ) : Prop :=
  0 ≤ next ∧ strcmpEq (image.drop (next.toNat + 257)) ustar = some true

instance (image : List UInt8) (next : ℤ) : Decidable (MagicAt image next) :=
  inferInstanceAs (Decidable (_ ∧ _))

/-- The header after another one, if `ustar_next` returns one. -/
def nextHeader (image : List UInt8) (header : ℕ) : Option ℕ := (ustarNext image header).join

/-- The header at the start of a round of the loop of `unpack_ustar`. -/
def headerAt (image : List UInt8) (k : ℕ) : Option ℕ := trail (nextHeader image) 0 k

variable {image size : List UInt8} {header next k fuel : ℕ} {filesize : ℤ}
  {vmalloc : VfsState → ℕ → List UInt8}

/-! ### The distance to the next header -/

/-- Division truncates towards zero. -/
theorem tdiv_cases (a : ℤ) : (0 ≤ a ∧ 512 * a.tdiv 512 ≤ a ∧ a < 512 * a.tdiv 512 + 512) ∨
    (a < 0 ∧ a ≤ 512 * a.tdiv 512 ∧ 512 * a.tdiv 512 < a + 512) := by
  rcases lt_or_ge a 0 with ha | ha
  · have hneg : (-a).tdiv 512 = -a / 512 := Int.tdiv_eq_ediv_of_nonneg (by omega)
    rw [Int.neg_tdiv] at hneg
    exact Or.inr ⟨ha, by omega, by omega⟩
  · rw [Int.tdiv_eq_ediv_of_nonneg ha]
    exact Or.inl ⟨ha, by omega, by omega⟩

/-- **The distance** is positive for sizes that do not overflow when they are rounded up, and that
are not so far below zero that rounding does not make up for it. -/
theorem roundedSize_pos_iff (h : -2 ^ 31 ≤ filesize) (h' : filesize < 2 ^ 31) :
    0 < roundedSize filesize ↔ -1022 ≤ filesize ∧ filesize ≤ 2 ^ 31 - 1024 := by
  rcases lt_or_ge filesize (2 ^ 31 - 511) with hlt | hge
  · rw [roundedSize_of_lt h hlt]
    have hdiv := tdiv_cases (filesize + 511)
    generalize (filesize + 511).tdiv 512 = q at hdiv ⊢
    rw [asInt, Int.bmod_def]
    omega
  · -- the sum wraps around to a negative number
    have hsum : asInt (filesize + 511) = filesize + 511 - 2 ^ 32 := by
      rw [asInt, Int.bmod_def]
      omega
    have hdiv := tdiv_cases (filesize + 511 - 2 ^ 32)
    rw [roundedSize, hsum]
    generalize (filesize + 511 - 2 ^ 32).tdiv 512 = q at hdiv ⊢
    rw [asInt_of_lt (n := q + 1) (by omega) (by omega), asInt_of_lt (by omega) (by omega)]
    omega

/-- What `ustar_next` returns. -/
theorem nextHeader_eq_some_iff (hsize : readBytes image (header + 124) 11 = some size) :
    nextHeader image header = some next ↔
      header + roundedSize (asInt (octValue size)) = next ∧ MagicAt image next := by
  have hround : asInt (asInt ((asInt (oct2bin size + 511)).tdiv 512 + 1) * 512) =
      roundedSize (asInt (octValue size)) := by rw [oct2bin_eq, roundedSize]
  rw [nextHeader, ustarNext, hsize]
  simp only [Option.bind_eq_bind, Option.bind_some, hround]
  generalize (header : ℤ) + roundedSize (asInt (octValue size)) = target
  split
  · next hneg =>
    simp only [Option.join_none, reduceCtorEq, false_iff, not_and]
    omega
  · next hpos =>
    obtain ⟨n, rfl⟩ := Int.eq_ofNat_of_zero_le (Int.not_lt.mp hpos)
    rw [MagicAt, Int.toNat_natCast, Int.toNat_natCast, Int.natCast_inj]
    have htarget : (n = next ∧ 0 ≤ (next : ℤ) ∧
        strcmpEq (image.drop (next + 257)) ustar = some true) ↔
        n = next ∧ strcmpEq (image.drop (n + 257)) ustar = some true :=
      and_congr_right fun hn => by rw [hn, and_iff_right (Int.natCast_nonneg next)]
    rw [htarget]
    rcases strcmpEq (image.drop (n + 257)) ustar with - | - | -
    · simp
    · simp
    · simp

theorem MagicAt.lt_length (h : MagicAt image next) : next < image.length := by
  by_contra hle
  obtain ⟨-, hfound⟩ := h
  rw [Int.toNat_natCast, List.drop_of_length_le (by omega)] at hfound
  simp [strcmpEq] at hfound

/-- The size of a header that leads to another one was read. -/
theorem exists_size (h : nextHeader image header = some next) :
    ∃ size, readBytes image (header + 124) 11 = some size := by
  rw [← Option.ne_none_iff_exists']
  intro hnone
  rw [nextHeader, ustarNext, hnone] at h
  simp at h

/-- A header leads to one further on, or to none, just when its size does or nothing is found. -/
theorem forward_iff (hsize : readBytes image (header + 124) 11 = some size) :
    (∀ next, nextHeader image header = some next → header < next) ↔
      SizeForward size ∨ ¬ MagicAt image (header + roundedSize (asInt (octValue size))) := by
  obtain ⟨hmin, hmax⟩ := asInt_bounds (octValue size)
  have hpos := roundedSize_pos_iff hmin hmax
  rw [SizeForward, ← hpos]
  constructor
  · intro h
    by_contra hnot
    obtain ⟨hback, hfound⟩ := not_or.mp hnot
    obtain ⟨n, hn⟩ := Int.eq_ofNat_of_zero_le (not_not.mp hfound).1
    have hlt := h n ((nextHeader_eq_some_iff hsize).mpr ⟨hn, hn ▸ not_not.mp hfound⟩)
    omega
  · intro h n hn
    obtain ⟨htarget, hfound⟩ := (nextHeader_eq_some_iff hsize).mp hn
    rcases h with h | h
    · omega
    · exact absurd (htarget ▸ hfound) h

/-! ### The loop -/

/-- The loop goes round as long as there are headers. -/
theorem unpackLoop_fuel (h : trail (nextHeader image) header k = none) (hfuel : k ≤ fuel) :
    unpackLoop vmalloc image fuel (some header) = unpackLoop vmalloc image k (some header) := by
  induction k generalizing header fuel with
  | zero => simp at h
  | succ k ih =>
    obtain ⟨fuel, rfl⟩ : ∃ n, fuel = n + 1 := ⟨fuel - 1, by omega⟩
    rw [unpackLoop, unpackLoop]
    refine congrArg _ (funext fun _ => ?_)
    rcases hnext : ustarNext image header with - | - | next
    · rfl
    · -- both loops are at the end
      rw [deref_some_bind, deref_some_bind, unpackLoop, unpackLoop]
    · have hsome : nextHeader image header = some next := by rw [nextHeader, hnext]; rfl
      rw [trail_succ_of_eq hsome] at h
      rw [deref_some_bind, deref_some_bind]
      exact ih h (by omega)

/-- **The walk over the headers.** From a header, `ustar_next` leads to one further on or to none
just when the size, as an `int`, is one that leads forward, or nothing is found where it leads. If
that is so of all headers that are met, then they come to an end, and `unpack_ustar` goes round no
more often than the image has bytes, and once. -/
theorem ustarNext_forward_iff (vmalloc : VfsState → ℕ → List UInt8) (image : List UInt8) :
    (∀ header size, readBytes image (header + 124) 11 = some size →
      ((∀ next, ustarNext image header = some (some next) → header < next) ↔
        SizeForward size ∨ ¬ MagicAt image (header + roundedSize (asInt (octValue size))))) ∧
    ((∀ k header size, headerAt image k = some header →
        readBytes image (header + 124) 11 = some size →
        SizeForward size ∨ ¬ MagicAt image (header + roundedSize (asInt (octValue size)))) →
      headerAt image (image.length + 1) = none ∧ ∀ fuel, image.length < fuel →
        unpackUstar vmalloc fuel image = unpackUstar vmalloc (image.length + 1) image) := by
  have hjoin : ∀ header next, ustarNext image header = some (some next) ↔
      nextHeader image header = some next := by
    intro header next
    rw [nextHeader, Option.join_eq_some_iff]
  refine ⟨fun header size hsize => ?_, fun hall => ?_⟩
  · simp only [hjoin]
    exact forward_iff hsize
  · have hend : headerAt image (image.length + 1) = none := by
      refine trail_eq_none (μ := id) (fun k header next hheader hnext => ?_)
        (fun header next hnext => ?_)
      · obtain ⟨size, hsize⟩ := exists_size hnext
        exact (forward_iff hsize).mpr (hall k header size hheader hsize) next hnext
      · obtain ⟨size, hsize⟩ := exists_size hnext
        exact ((nextHeader_eq_some_iff hsize).mp hnext).2.lt_length
    exact ⟨hend, fun fuel hfuel => unpackLoop_fuel hend hfuel⟩

/-- An archive with one file. -/
def fileImage : List UInt8 := encode [.root, ⟨[[97]], false, .file [1]⟩]

theorem ustarNext_forward_iff_file : headerAt fileImage (fileImage.length + 1) = none := by
  have hsteps : headerAt fileImage 0 = some 0 ∧ headerAt fileImage 1 = some 512 ∧
      headerAt fileImage 2 = none := by
    decide +kernel
  have hsizes : ∀ header ∈ [0, 512], ∀ size ∈ readBytes fileImage (header + 124) 11,
      SizeForward size := by
    decide +kernel
  refine ((ustarNext_forward_iff vzeroed fileImage).2 fun k header size hheader hsize => ?_).1
  refine Or.inl (hsizes header ?_ size (Option.mem_def.mpr hsize))
  obtain rfl | rfl | hk : k = 0 ∨ k = 1 ∨ 2 ≤ k := by omega
  · obtain rfl := Option.some.inj (hsteps.1.symm.trans hheader)
    exact List.mem_cons_self
  · obtain rfl := Option.some.inj (hsteps.2.1.symm.trans hheader)
    exact List.mem_cons_of_mem 0 List.mem_cons_self
  · rw [headerAt, trail_eq_none_of_le hsteps.2.2 hk] at hheader
    simp at hheader

/-- A header with the size `0000000.000`, which stands for -1024. -/
def stuckImage : List UInt8 :=
  List.replicate 124 0 ++ [48, 48, 48, 48, 48, 48, 48, 46, 48, 48, 48] ++ List.replicate 122 0 ++
    ustar ++ [0]

/-- The header leads to itself, again and again. -/
theorem not_ustarNext_forward :
    ¬ (∀ next, ustarNext stuckImage 0 = some (some next) → 0 < next) ∧
      ∀ k, headerAt stuckImage k = some 0 := by
  have hnext : ustarNext stuckImage 0 = some (some 0) := by decide +kernel
  refine ⟨fun h => absurd (h 0 hnext) (by decide), fun k => ?_⟩
  induction k with
  | zero => rfl
  | succ k ih =>
    rw [headerAt] at ih
    rw [headerAt, trail_succ, ih, Option.bind_some, nextHeader, hnext]
    rfl

end GoofyOs
