import Mathlib.Order.CompletePartialOrder
import Mathlib.Order.Interval.Set.Disjoint
import Mathlib.Data.List.Pairwise

/-!
# Tilings of an interval

A list of adjacent non-empty ranges, some of them in use, that covers an interval of numbers. This
is what a first-fit allocator of address ranges keeps, with no memory in it.

## Main definitions

* `Tiling.Tiles` — the ranges cover an interval, in order, with no gap and no overlap
* `Tiling.Carved` — a range was taken from the back of a free one
* `Tiling.release` — the range at an address was given back

## Main results

* `Tiling.Tiles.carved`, `Tiling.Tiles.release` — both keep a tiling
* `Tiling.Carved.disjoint` — what is carved out overlaps nothing in use
-/

namespace GoofyOs

namespace Tiling

/-- A range of `size` numbers from `addr` on. -/
structure Range where
  addr : ℕ
  size : ℕ
  inUse : Bool
  deriving DecidableEq

/-- The numbers in a range. -/
def Range.block (r : Range) : Set ℕ := Set.Ico r.addr (r.addr + r.size)

/-- The ranges cover the numbers from `lo` up to `hi`: each starts where the one before ends, and
none is empty. -/
def Tiles : ℕ → List Range → ℕ → Prop
  | lo, [], hi => lo = hi
  | lo, r :: rs, hi => r.addr = lo ∧ 0 < r.size ∧ Tiles (lo + r.size) rs hi

variable {lo hi mid a size : ℕ} {r r' : Range} {rs rs' ss : List Range}

@[simp] theorem tiles_nil : Tiles lo [] hi ↔ lo = hi := Iff.rfl

@[simp] theorem tiles_cons :
    Tiles lo (r :: rs) hi ↔ r.addr = lo ∧ 0 < r.size ∧ Tiles (lo + r.size) rs hi := Iff.rfl

theorem tiles_append : Tiles lo (rs ++ ss) hi ↔ ∃ mid, Tiles lo rs mid ∧ Tiles mid ss hi := by
  induction rs generalizing lo with
  | nil => simp
  | cons r rs ih => simp [ih, and_assoc]

namespace Tiles

theorem le (h : Tiles lo rs hi) : lo ≤ hi := by
  induction rs generalizing lo with
  | nil => exact Nat.le_of_eq h
  | cons r rs ih => exact (Nat.le_add_right _ _).trans (ih h.2.2)

/-- Every range lies in the interval. -/
theorem bounds (h : Tiles lo rs hi) (hr : r ∈ rs) :
    lo ≤ r.addr ∧ 0 < r.size ∧ r.addr + r.size ≤ hi := by
  obtain ⟨as, bs, rfl⟩ := List.append_of_mem hr
  obtain ⟨mid, has, rfl, hpos, hbs⟩ := tiles_append.mp h
  exact ⟨has.le, hpos, hbs.le⟩

/-- The ranges are in increasing order and do not overlap. -/
theorem pairwise (h : Tiles lo rs hi) : rs.Pairwise fun r r' => r.addr + r.size ≤ r'.addr := by
  induction rs generalizing lo with
  | nil => exact List.Pairwise.nil
  | cons r rs ih =>
    obtain ⟨rfl, -, h⟩ := h
    exact List.Pairwise.cons (fun r' hr' => (h.bounds hr').1) (ih h)

/-- Two ranges with a common number are the same range. -/
theorem eq_of_mem_block (h : Tiles lo rs hi) (hr : r ∈ rs) (hr' : r' ∈ rs) (ha : a ∈ r.block)
    (ha' : a ∈ r'.block) : r = r' := by
  induction rs generalizing lo with
  | nil => simp at hr
  | cons s rs ih =>
    obtain ⟨rfl, -, hrs⟩ := h
    -- a number of the first range is below all the others
    have hbelow : ∀ t ∈ rs, a ∈ s.block → a ∉ t.block := by
      intro t ht hs hat
      have := (hrs.bounds ht).1
      have := hs.2
      have := hat.1
      omega
    rcases List.mem_cons.mp hr with rfl | htail
    · rcases List.mem_cons.mp hr' with rfl | htail'
      · rfl
      · exact absurd ha' (hbelow r' htail' ha)
    · rcases List.mem_cons.mp hr' with rfl | htail'
      · exact absurd ha (hbelow r htail ha')
      · exact ih hrs htail htail'

/-- Different ranges do not overlap. -/
theorem disjoint (h : Tiles lo rs hi) (hr : r ∈ rs) (hr' : r' ∈ rs) (hne : r ≠ r') :
    Disjoint r.block r'.block :=
  Set.disjoint_left.mpr fun _ ha ha' => hne (h.eq_of_mem_block hr hr' ha ha')

end Tiles

/-- If the sizes and the start are multiples of `d`, so are all the starts. -/
theorem Tiles.dvd_addr {d : ℕ} (h : Tiles lo rs hi) (hlo : d ∣ lo) (hd : ∀ r ∈ rs, d ∣ r.size)
    (hr : r ∈ rs) : d ∣ r.addr := by
  induction rs generalizing lo with
  | nil => simp at hr
  | cons s rs ih =>
    obtain ⟨rfl, -, h⟩ := h
    rcases List.mem_cons.mp hr with rfl | hr
    · exact hlo
    · exact ih h (Nat.dvd_add hlo (hd s List.mem_cons_self))
        (fun r hr => hd r (List.mem_cons_of_mem _ hr)) hr

/-! ### Carving -/

/-- What becomes of a free range when `size` numbers are taken from its back. -/
def Range.carve (r : Range) (size : ℕ) : List Range :=
  if r.size = size then [{ r with inUse := true }]
  else [{ r with size := r.size - size }, ⟨r.addr + r.size - size, size, true⟩]

/-- `size` numbers from `a` on were carved out of a free range of `rs`, which left `rs'`. -/
def Carved (size : ℕ) (rs : List Range) (a : ℕ) (rs' : List Range) : Prop :=
  ∃ as r bs, rs = as ++ r :: bs ∧ r.inUse = false ∧ size ≤ r.size ∧
    a = r.addr + r.size - size ∧ rs' = as ++ (r.carve size ++ bs)

theorem tiles_carve (hpos : 0 < size) (hle : size ≤ r.size) (h : Tiles lo [r] hi) :
    Tiles lo (r.carve size) hi := by
  obtain ⟨rfl, -, rfl⟩ := h
  rw [Range.carve]
  split_ifs with heq
  · simp [heq, hpos]
  · have hlt := lt_of_le_of_ne hle (Ne.symm heq)
    simp only [tiles_cons, tiles_nil, true_and]
    omega

/-- **Carving keeps a tiling.** -/
theorem Tiles.carved (h : Tiles lo rs hi) (hpos : 0 < size) (hc : Carved size rs a rs') :
    Tiles lo rs' hi := by
  obtain ⟨as, r, bs, rfl, -, hle, -, rfl⟩ := hc
  obtain ⟨mid, has, h⟩ := tiles_append.mp h
  obtain ⟨mid', hr, hbs⟩ := tiles_append.mp (show Tiles mid ([r] ++ bs) hi from h)
  exact tiles_append.mpr ⟨mid, has, tiles_append.mpr ⟨mid', tiles_carve hpos hle hr, hbs⟩⟩

namespace Carved

theorem mem (hc : Carved size rs a rs') : ⟨a, size, true⟩ ∈ rs' := by
  obtain ⟨as, r, bs, rfl, -, -, rfl, rfl⟩ := hc
  rw [Range.carve]
  split_ifs with heq
  · simp [← heq]
  · simp

/-- What is in use stays as it is. -/
theorem mem_of_inUse (hc : Carved size rs a rs') (hr : r ∈ rs) (hu : r.inUse = true) :
    r ∈ rs' := by
  obtain ⟨as, r', bs, rfl, hfree, -, -, rfl⟩ := hc
  simp only [List.mem_append, List.mem_cons] at hr ⊢
  rcases hr with hr | rfl | hr
  · exact Or.inl hr
  · rw [hu] at hfree
    simp at hfree
  · exact Or.inr (Or.inr hr)

/-- Nothing else comes into use. -/
theorem mem_inUse (hc : Carved size rs a rs') (hr : r ∈ rs') (hu : r.inUse = true) :
    r = ⟨a, size, true⟩ ∨ r ∈ rs := by
  obtain ⟨as, r', bs, rfl, hfree, -, rfl, rfl⟩ := hc
  simp only [List.mem_append, List.mem_cons] at hr ⊢
  rcases hr with hr | hr | hr
  · exact Or.inr (Or.inl hr)
  · rw [Range.carve] at hr
    split_ifs at hr with heq
    · obtain rfl := List.mem_singleton.mp hr
      simp [← heq]
    · rcases hr with _ | ⟨_, _ | ⟨_, ⟨⟩⟩⟩
      · rw [show r'.inUse = true from hu] at hfree
        simp at hfree
      · exact Or.inl rfl
  · exact Or.inr (Or.inr (Or.inr hr))

/-- The carved numbers were free before. -/
theorem disjoint (hc : Carved size rs a rs') (h : Tiles lo rs hi) (hr : r ∈ rs)
    (hu : r.inUse = true) : Disjoint (Set.Ico a (a + size)) r.block := by
  obtain ⟨as, r', bs, rfl, hfree, hle, rfl, rfl⟩ := hc
  have hne : r' ≠ r := by
    rintro rfl
    rw [hu] at hfree
    simp at hfree
  refine Set.disjoint_of_subset_left ?_ (h.disjoint (by simp) hr hne)
  intro q hq
  have := hq.1
  have := hq.2
  exact ⟨by omega, by omega⟩

/-- The length grows by at most one. -/
theorem length_le (hc : Carved size rs a rs') : rs'.length ≤ rs.length + 1 := by
  obtain ⟨as, r, bs, rfl, -, -, -, rfl⟩ := hc
  rw [Range.carve]
  split_ifs
  · simp
  · simp
    omega

theorem dvd {d : ℕ} (hc : Carved size rs a rs') (hd : d ∣ size) (h : ∀ r ∈ rs, d ∣ r.size) :
    ∀ r ∈ rs', d ∣ r.size := by
  obtain ⟨as, r', bs, rfl, -, hle, -, rfl⟩ := hc
  have hr' : d ∣ r'.size := h r' (by simp)
  intro r hr
  simp only [List.mem_append] at hr
  rcases hr with hr | hr | hr
  · exact h r (by simp [hr])
  · rw [Range.carve] at hr
    split_ifs at hr
    · obtain rfl := List.mem_singleton.mp hr
      exact hr'
    · rcases hr with _ | ⟨_, _ | ⟨_, ⟨⟩⟩⟩
      · exact Nat.dvd_sub hr' hd
      · exact hd
  · exact h r (by simp [hr])

end Carved

/-! ### Giving back -/

/-- The range at `a` is given back. -/
def release (a : ℕ) (rs : List Range) : List Range :=
  rs.map fun r => if r.addr = a then { r with inUse := false } else r

theorem release_cons : release a (r :: rs) =
    (if r.addr = a then { r with inUse := false } else r) :: release a rs := rfl

theorem Tiles.release (h : Tiles lo rs hi) (a : ℕ) : Tiles lo (release a rs) hi := by
  induction rs generalizing lo with
  | nil => exact h
  | cons r rs ih =>
    obtain ⟨hr, hpos, h⟩ := h
    rw [release_cons]
    split
    · exact ⟨hr, hpos, ih h⟩
    · exact ⟨hr, hpos, ih h⟩

/-- The other ranges stay as they are. -/
theorem mem_release_of_ne (hr : r ∈ rs) (ha : r.addr ≠ a) : r ∈ release a rs :=
  List.mem_map.mpr ⟨r, hr, if_neg ha⟩

theorem dvd_release {d : ℕ} (h : ∀ r ∈ rs, d ∣ r.size) : ∀ r ∈ release a rs, d ∣ r.size := by
  intro r hr
  obtain ⟨r', hr', rfl⟩ := List.mem_map.mp hr
  split
  · exact h r' hr'
  · exact h r' hr'

end Tiling

end GoofyOs
