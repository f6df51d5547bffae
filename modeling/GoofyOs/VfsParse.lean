import GoofyOs.ForMathlib.Pieces
import GoofyOs.VfsLookup

/-!
# Splitting paths

What `vfs_parse_path` makes of a path: the pieces between its slashes.

## Main definitions

* `components` — the pieces of a path, after `/` if the path starts with one
* `renderPath` — names joined by slashes, with or without a slash at either end

## Main results

* `vfsParsePath_eq` — the loop returns the components, or overruns its buffer
* `shortComponents_iff` — when all components fit the buffer
* `vfsParsePath_components` — the components of a rendered path
-/

namespace GoofyOs

open Pieces

/-- The pieces of a path between its slashes, without the last one if it is empty. A slash at the
start is a component of its own. -/
def components (path : List UInt8) : List Name :=
  if path.head? = some slash then [slash] :: pieces slash path.tail else pieces slash path

/-- Names joined by slashes. -/
def renderPath (names : List Name) (leading trailing : Bool) : List UInt8 :=
  (if leading then [slash] else []) ++ [slash].intercalate names ++
    if trailing then [slash] else []

variable {path buf : List UInt8} {ret : List Name}

/-! ### The loop -/

/-- The buffer is the start of a piece. -/
theorem exists_piece (hbuf : slash ∉ buf) (path : List UInt8) :
    ∃ c ∈ (buf ++ path).splitOn slash, buf.length ≤ c.length := by
  by_cases h : slash ∈ path
  · obtain ⟨pre, post, rfl, hpre⟩ := List.eq_append_cons_of_mem h
    have hpiece : slash ∉ buf ++ pre := by simp [hbuf, hpre]
    refine ⟨buf ++ pre, ?_, by simp⟩
    rw [← List.append_assoc, List.splitOn_append_cons_self_of_not_mem hpiece]
    exact List.mem_cons_self
  · refine ⟨buf ++ path, ?_, by simp⟩
    rw [List.splitOn_eq_singleton (by simp [hbuf, h])]
    exact List.mem_cons_self

/-- The loop of **`vfs_parse_path`** returns the pieces, unless one of them does not fit. -/
theorem parseLoop_eq (hbuf : slash ∉ buf) : parseLoop path buf ret =
    if ∀ c ∈ (buf ++ path).splitOn slash, c.length < 256 then
      some (ret ++ pieces slash (buf ++ path))
    else none := by
  induction path generalizing buf ret with
  | nil =>
    rw [parseLoop, List.append_nil, List.splitOn_eq_singleton hbuf]
    simp only [List.mem_singleton, forall_eq]
    rcases eq_or_ne buf [] with rfl | hne
    · simp
    · rw [if_pos (List.length_pos_iff.mpr hne), pieces_of_notMem hne hbuf]
  | cons c path ih =>
    by_cases hlt : buf.length < 256
    · rw [parseLoop, if_pos hlt]
      by_cases hc : c = slash
      · rw [if_pos hc, hc, ih List.not_mem_nil, List.nil_append, pieces_of_notMem_append_cons hbuf,
          List.splitOn_append_cons_self_of_not_mem hbuf]
        simp only [List.forall_mem_cons, hlt, true_and, List.append_assoc, List.singleton_append]
      · have hbuf' : slash ∉ buf ++ [c] := by
          simp [hbuf, Ne.symm hc]
        rw [if_neg hc, ih hbuf', List.append_assoc, List.singleton_append]
    · obtain ⟨piece, hmem, hle⟩ := exists_piece hbuf (c :: path)
      rw [parseLoop, if_neg hlt, if_neg]
      intro hshort
      have := hshort piece hmem
      omega

/-- **`vfs_parse_path`** returns the components, unless one of them does not fit its buffer. -/
theorem vfsParsePath_eq (path : List UInt8) : vfsParsePath path =
    if ∀ c ∈ path.splitOn slash, c.length < 256 then some (components path) else none := by
  cases path with
  | nil => simp [vfsParsePath, components]
  | cons c rest =>
    by_cases hc : c = slash
    · have hsplit : (slash :: rest).splitOn slash = [] :: rest.splitOn slash := by
        rw [List.splitOn_cons_eq_if_modifyHead, if_pos (by simp)]
      have hhead : (c :: rest).head? = some slash := congrArg some hc
      rw [components, if_pos hhead, vfsParsePath, if_pos hc, parseLoop_eq List.not_mem_nil, hc,
        hsplit]
      simp
    · have hhead : (c :: rest).head? ≠ some slash := by simpa using hc
      rw [components, if_neg hhead, vfsParsePath, if_neg hc, parseLoop_eq List.not_mem_nil]
      rfl

/-! ### Components that fit -/

theorem isInfix_of_mem_splitOn {c : Name} (h : c ∈ path.splitOn slash) :
    c <:+: path ∧ slash ∉ c := by
  induction hn : path.length using Nat.strong_induction_on generalizing path with
  | _ n ih =>
    by_cases hmem : slash ∈ path
    · obtain ⟨pre, post, rfl, hpre⟩ := List.eq_append_cons_of_mem hmem
      rw [List.splitOn_append_cons_self_of_not_mem hpre] at h
      rcases List.mem_cons.mp h with rfl | h
      · exact ⟨(List.prefix_append c _).isInfix, hpre⟩
      · have hlt : post.length < n := by
          rw [← hn, List.length_append, List.length_cons]
          omega
        obtain ⟨hpart, hc⟩ := ih post.length hlt h rfl
        refine ⟨hpart.trans ?_, hc⟩
        exact ((List.suffix_cons slash post).trans (List.suffix_append pre _)).isInfix
    · rw [List.splitOn_eq_singleton hmem] at h
      obtain rfl := List.mem_singleton.mp h
      exact ⟨List.infix_rfl, hmem⟩

/-- Bytes without a slash are inside of one piece. -/
theorem exists_piece_of_infix (hbuf : slash ∉ buf) (pre post : List UInt8) :
    ∃ c ∈ (pre ++ (buf ++ post)).splitOn slash, buf.length ≤ c.length := by
  induction pre with
  | nil => exact exists_piece hbuf post
  | cons a pre ih =>
    obtain ⟨c, hc, hle⟩ := ih
    rw [List.cons_append, List.splitOn_cons_eq_if_modifyHead]
    split
    · exact ⟨c, List.mem_cons_of_mem _ hc, hle⟩
    · -- the first piece gets longer
      obtain ⟨piece, pieces, hsplit⟩ :=
        List.exists_cons_of_ne_nil (List.splitOn_ne_nil slash (pre ++ (buf ++ post)))
      rw [hsplit] at hc ⊢
      rcases List.mem_cons.mp hc with rfl | hc
      · exact ⟨a :: c, List.mem_cons_self, Nat.le_succ_of_le hle⟩
      · exact ⟨c, List.mem_cons_of_mem _ hc, hle⟩

/-- All components fit just when the pieces do. -/
theorem shortComponents_iff :
    ShortComponents path ↔ ∀ c ∈ path.splitOn slash, c.length < 256 := by
  constructor
  · intro h c hc
    obtain ⟨hpart, hslash⟩ := isInfix_of_mem_splitOn hc
    exact h c hpart hslash
  · rintro h b ⟨pre, post, rfl⟩ hb
    obtain ⟨c, hc, hle⟩ := exists_piece_of_infix hb pre post
    rw [← List.append_assoc] at hc
    exact Nat.lt_of_le_of_lt hle (h c hc)

theorem vfsParsePath_of_short (h : ShortComponents path) :
    vfsParsePath path = some (components path) := by
  rw [vfsParsePath_eq, if_pos (shortComponents_iff.mp h)]

/-! ### Rendered paths -/

/-- The components of names joined by slashes are the names. -/
theorem pieces_renderPath {names : List Name} {trailing : Bool} (hne : names ≠ [])
    (h : ∀ c ∈ names, c ≠ [] ∧ slash ∉ c) :
    pieces slash ([slash].intercalate names ++ if trailing then [slash] else []) = names := by
  obtain ⟨hjoin, htrail⟩ := pieces_intercalate hne h
  cases trailing with
  | false => exact (congrArg (pieces slash) (List.append_nil _)).trans hjoin
  | true => exact htrail

theorem head?_intercalate {names : List Name} (h : ∀ c ∈ names, c ≠ [] ∧ slash ∉ c)
    (hne : names ≠ []) (tail : List UInt8) :
    ([slash].intercalate names ++ tail).head? ≠ some slash := by
  obtain ⟨c, names, rfl⟩ := List.exists_cons_of_ne_nil hne
  obtain ⟨⟨hc, hslash⟩, -⟩ := List.forall_mem_cons.mp h
  obtain ⟨a, c, rfl⟩ := List.exists_cons_of_ne_nil hc
  have hhead : ([slash].intercalate ((a :: c) :: names) ++ tail).head? = some a := by
    cases names with
    | nil => simp
    | cons d names => simp [List.intercalate_cons_cons]
  rw [hhead]
  rintro ha
  exact hslash (by simp [Option.some.inj ha])

/-- The pieces of a rendered path fit if the names do. -/
theorem splitOn_renderPath {names : List Name} (leading trailing : Bool)
    (h : ∀ c ∈ names, slash ∉ c ∧ c.length < 256) :
    ∀ c ∈ (renderPath names leading trailing).splitOn slash, c.length < 256 := by
  have hjoin : ∀ c ∈ ([slash].intercalate names).splitOn slash, c.length < 256 := by
    rcases eq_or_ne names [] with rfl | hne
    · simp
    · rw [List.splitOn_intercalate slash (fun c hc => (h c hc).1) hne]
      exact fun c hc => (h c hc).2
  have htrail : ∀ c ∈ ([slash].intercalate names ++ if trailing then [slash] else []).splitOn slash,
      c.length < 256 := by
    cases trailing with
    | false => simpa using hjoin
    | true =>
      show ∀ c ∈ ([slash].intercalate names ++ [slash]).splitOn slash, c.length < 256
      rw [List.splitOn_append_cons_self]
      intro c hc
      rcases List.mem_append.mp hc with hc | hc
      · exact hjoin c hc
      · simp_all
  rw [renderPath, List.append_assoc]
  cases leading with
  | false => exact htrail
  | true =>
    show ∀ c ∈ (slash :: _).splitOn slash, c.length < 256
    rw [List.splitOn_cons_eq_if_modifyHead, if_pos (by simp)]
    exact List.forall_mem_cons.mpr ⟨by decide, htrail⟩

theorem components_renderPath {names : List Name} {leading trailing : Bool}
    (h : ∀ c ∈ names, c ≠ [] ∧ slash ∉ c) (hempty : ¬ (names = [] ∧ leading ∧ trailing)) :
    components (renderPath names leading trailing) =
      (if (renderPath names leading trailing).head? = some slash then [[slash]] else []) ++
        names := by
  rcases eq_or_ne names [] with rfl | hne
  · revert hempty
    cases leading <;> cases trailing <;> simp [renderPath, components]
  · cases leading with
    | false =>
      have hhead := head?_intercalate h hne (if trailing then [slash] else [])
      have hrender : renderPath names false trailing =
          [slash].intercalate names ++ if trailing then [slash] else [] := rfl
      rw [hrender, components, if_neg hhead, if_neg hhead, pieces_renderPath hne h,
        List.nil_append]
    | true =>
      have hrender : renderPath names true trailing =
          slash :: ([slash].intercalate names ++ if trailing then [slash] else []) := rfl
      rw [hrender, components, List.head?_cons, if_pos rfl, if_pos rfl, List.tail_cons,
        pieces_renderPath hne h, List.singleton_append]

/-- Names that were joined by slashes are found again. -/
theorem vfsParsePath_renderPath {names : List Name} {leading trailing : Bool}
    (h : ∀ c ∈ names, c ≠ [] ∧ slash ∉ c ∧ c.length < 256)
    (hempty : ¬ (names = [] ∧ leading ∧ trailing)) :
    vfsParsePath (renderPath names leading trailing) =
      some ((if (renderPath names leading trailing).head? = some slash then [[slash]] else []) ++
        names) := by
  have hshort := splitOn_renderPath leading trailing fun c hc => (h c hc).2
  rw [vfsParsePath_eq, if_pos hshort,
    components_renderPath (fun c hc => ⟨(h c hc).1, (h c hc).2.1⟩) hempty]

/-- **Splitting paths.** A path whose components fit the buffer is split into them, and nothing is
written past the end of the buffer. Names that were joined by slashes are found again, with or
without a slash at either end, unless there are no names and both slashes. -/
theorem vfsParsePath_components :
    (∀ path : List UInt8, (∀ c ∈ path.splitOn slash, c.length < 256) →
      vfsParsePath path = some ((if path.head? = some slash then [[slash]] else []) ++
        pieces slash (if path.head? = some slash then path.tail else path))) ∧
    ∀ (names : List Name) (leading trailing : Bool),
      (∀ c ∈ names, c ≠ [] ∧ slash ∉ c ∧ c.length < 256) →
      ¬ (names = [] ∧ leading ∧ trailing) →
      vfsParsePath (renderPath names leading trailing) =
        some ((if (renderPath names leading trailing).head? = some slash then [[slash]] else []) ++
          names) := by
  constructor
  · intro path h
    rw [vfsParsePath_eq, if_pos h, components]
    split
    · rfl
    · rfl
  · exact fun names leading trailing h hempty => vfsParsePath_renderPath h hempty

/-- `/a/b/`. -/
theorem vfsParsePath_components_ab :
    vfsParsePath [47, 97, 47, 98] = some [[47], [97], [98]] ∧
      vfsParsePath (renderPath [[97], [98]] true true) = some [[47], [97], [98]] := by
  obtain ⟨hsplit, hrender⟩ := vfsParsePath_components
  exact ⟨hsplit [47, 97, 47, 98] (by decide),
    hrender [[97], [98]] true true (by decide) (by decide)⟩

/-- No names and both slashes: `//` has an empty component. -/
theorem vfsParsePath_slashes : ¬ ∀ (names : List Name) (leading trailing : Bool),
    (∀ c ∈ names, c ≠ [] ∧ slash ∉ c ∧ c.length < 256) →
      vfsParsePath (renderPath names leading trailing) =
        some ((if (renderPath names leading trailing).head? = some slash then [[slash]] else []) ++
          names) := by
  intro h
  exact absurd (h [] true true (by simp)) (by decide)

end GoofyOs
