import GoofyOs.VfsParse
import GoofyOs.VfsRun

/-!
# Joining paths

Resolving a path that is joined of two resolves one after the other. `./` before a path changes
nothing, except where `vfs_mkdir` and `vfs_create` look for the parent: they reject the paths of one
component, which have no parent before the last slash, also when `rel` is the parent.

## Main definitions

* `DotNeutral` — `./` before a path makes no difference to a function

## Main results

* `vfsFindDentry_append` — joined paths, for every state
* `vfsFindDentry_composes` — joined paths, in every state that is reached
* `dotNeutral_iff` — where `./` makes no difference
-/

namespace GoofyOs

open Proc PathWalk Pieces VfsState VfsSys

variable {vmalloc : VfsState → ℕ → List UInt8} {t : VfsSys} {s s' : VfsState} {cs : List VfsCall}
  {path p q : List UInt8} {rel : Option ℕ} {d : ℕ} {name : Name}
  {flags fmt : BitVec 16}

/-! ### Components -/

theorem components_of_relative (h : path.head? ≠ some slash) :
    components path = pieces slash path :=
  if_neg h

theorem components_eq_nil : components path = [] ↔ path = [] := by
  rw [components]
  split
  · next h => simpa using fun hnil => by simp [hnil] at h
  · exact pieces_eq_nil

/-- The components of joined paths. -/
theorem components_append (hp : p ≠ []) (hlast : p.getLast? ≠ some slash)
    (hhead : q.head? ≠ some slash) :
    components (p ++ slash :: q) = components p ++ components q := by
  obtain ⟨a, rest, rfl⟩ := List.exists_cons_of_ne_nil hp
  rw [components_of_relative hhead, components, components, List.cons_append, List.head?_cons,
    List.head?_cons, List.tail_cons, List.tail_cons]
  by_cases ha : some a = some slash
  · have hrest : rest ≠ [] := by
      rintro rfl
      exact hlast ha
    have hlast' : rest.getLast? ≠ some slash := by
      rwa [List.getLast?_cons_of_ne_nil hrest] at hlast
    rw [if_pos ha, if_pos ha, pieces_append_cons hrest hlast', List.cons_append]
  · rw [if_neg ha, if_neg ha]
    exact pieces_append_cons hp hlast

theorem shortComponents_append :
    ShortComponents (p ++ slash :: q) ↔ ShortComponents p ∧ ShortComponents q := by
  rw [shortComponents_iff, shortComponents_iff, shortComponents_iff, List.splitOn_append_cons_self,
    List.forall_mem_append]

theorem shortComponents_dot : ShortComponents dot := by
  rw [shortComponents_iff]
  decide

theorem vfsParsePath_none (h : ¬ ShortComponents path) : vfsParsePath path = none := by
  rw [vfsParsePath_eq, if_neg (mt shortComponents_iff.mpr h)]

/-! ### Joined paths -/

theorem findLoop_append (as bs : List Name) :
    findLoop d (as ++ bs) = findLoop d as >>= fun e => findLoop e bs := by
  induction as generalizing d with
  | nil => rfl
  | cons a as ih =>
    rw [List.cons_append, findLoop, findLoop, bind_bind]
    exact congrArg _ (funext fun e => ih)

/-- The names that the loop of `vfs_find_dentry` looks up. -/
def lookups (path : List UInt8) : List Name :=
  if path.head? = some slash then (components path).tail else components path

/-- Where `vfs_find_dentry` starts. -/
def startDentry (s : VfsState) (path : List UInt8) (rel : Option ℕ) : Option ℕ :=
  (if path.head? = some slash then s.globalRoot else rel).or s.globalRoot

theorem vfsFindDentry_eq (hne : path ≠ []) (h : ShortComponents path) :
    vfsFindDentry path rel false s =
      (deref (startDentry s path rel) >>= fun cur => findLoop cur (lookups path)) s := by
  have hlen : ¬ ((components path).length = 0 ∨ ((components path).length = 1 ∧ false = true)) := by
    simpa using mt components_eq_nil.mp hne
  rw [vfsFindDentry, vfsParsePath_of_short h, bind_ok (deref_some _ s), if_neg hlen]
  rfl

/-- **`vfs_find_dentry` of joined paths** resolves one after the other. -/
theorem vfsFindDentry_append (hp : p ≠ []) (hlast : p.getLast? ≠ some slash) (hq : q ≠ [])
    (hhead : q.head? ≠ some slash) (hpshort : ShortComponents p) (hqshort : ShortComponents q) :
    vfsFindDentry (p ++ slash :: q) rel false =
      vfsFindDentry p rel false >>= fun d => vfsFindDentry q (some d) false := by
  have hfirst : (p ++ slash :: q).head? = p.head? := by
    rw [List.head?_append_of_ne_nil p hp]
  have hlookups : lookups (p ++ slash :: q) = lookups p ++ components q := by
    have hcons := components_eq_nil.not.mpr hp
    rw [lookups, lookups, hfirst, components_append hp hlast hhead]
    split
    · exact List.tail_append_of_ne_nil hcons
    · rfl
  -- the second path starts where the first one ends
  have hrest : (fun d => vfsFindDentry q (some d) false) = fun d => findLoop d (components q) := by
    funext d s
    rw [vfsFindDentry_eq hq hqshort, startDentry, lookups, if_neg hhead, if_neg hhead,
      Option.some_or]
    exact bind_ok (deref_some d s)
  funext s
  have hstart : startDentry s (p ++ slash :: q) rel = startDentry s p rel := by
    rw [startDentry, startDentry, hfirst]
  have hloop : (fun d => findLoop d (lookups (p ++ slash :: q))) =
      fun d => findLoop d (lookups p) >>= fun d => findLoop d (components q) := by
    funext d
    rw [hlookups, findLoop_append]
  rw [vfsFindDentry_eq (by simp) (shortComponents_append.mpr ⟨hpshort, hqshort⟩), hstart, hloop,
    hrest, ← bind_bind]
  exact bind_congr_apply (vfsFindDentry_eq hp hpshort).symm

/-- **Path resolution composes** in every state that is reached: resolving a joined path returns
what resolving the second path from the dentry of the first one does, and leaves the same state, or
the error of the first path. -/
theorem vfsFindDentry_composes (hv : ∀ s n, (vmalloc s n).length = n) (h : Reached vmalloc cs t)
    (hrel : ValidRel t.fs rel) (hp : p ≠ []) (hlast : p.getLast? ≠ some slash) (hq : q ≠ [])
    (hhead : q.head? ≠ some slash) (hpshort : ∀ c ∈ p.splitOn slash, c.length < 256)
    (hqshort : ∀ c ∈ q.splitOn slash, c.length < 256) :
    ∃ r s₁, vfsFindDentry p rel false t.fs = some (r, s₁) ∧ match r with
      | .error e => vfsFindDentry (p ++ slash :: q) rel false t.fs = some (.error e, s₁)
      | .ok d => ∃ r' s₂, vfsFindDentry q (some d) false s₁ = some (r', s₂) ∧
          vfsFindDentry (p ++ slash :: q) rel false t.fs = some (r', s₂) ∧
          ∀ d', r' = .ok d' → ∃ i, s₂.Designates d' i := by
  have hps := shortComponents_iff.mpr hpshort
  have hqs := shortComponents_iff.mpr hqshort
  have hinv := (h.sysInv hv).fs
  obtain ⟨i, hi⟩ := hrel.start hinv
  obtain ⟨s₁, -, h₁, hfind⟩ := hinv.findDentry false hi (vfsParsePath_of_short hps)
  rw [vfsFindDentry_append hp hlast hq hhead hps hqs]
  cases hj : t.fs.resolve p (components p) i false with
  | error e =>
    rw [hj] at hfind
    exact ⟨.error e, s₁, hfind, bind_error hfind⟩
  | ok j =>
    rw [hj] at hfind
    obtain ⟨d, hfind, hd, -⟩ := hfind
    refine ⟨.ok d, s₁, hfind, ?_⟩
    have hd' : s₁.Start (some d) j := hd
    obtain ⟨s₂, -, -, hfind₂⟩ := h₁.findDentry false hd' (vfsParsePath_of_short hqs)
    rw [bind_ok hfind]
    cases hk : s₁.resolve q (components q) j false with
    | error e =>
      rw [hk] at hfind₂
      exact ⟨.error e, s₂, hfind₂, hfind₂, fun d' hd' => by simp at hd'⟩
    | ok k =>
      rw [hk] at hfind₂
      obtain ⟨e, hfind₂, he, -⟩ := hfind₂
      refine ⟨.ok e, s₂, hfind₂, hfind₂, fun d' hd' => ⟨k, ?_⟩⟩
      obtain rfl := Except.ok.inj hd'
      exact he

/-- `/a` and `f`, after `/a/f` was made. -/
theorem vfsFindDentry_composes_af : ∃ (t : VfsSys) (r : Except ℤ ℕ) (s₁ : VfsState),
    Reached vzeroed sampleCalls t ∧ vfsFindDentry [47, 97] none false t.fs = some (r, s₁) ∧
      match r with
      | .error e => vfsFindDentry [47, 97, 47, 102] none false t.fs = some (.error e, s₁)
      | .ok d => ∃ r' s₂, vfsFindDentry [102] (some d) false s₁ = some (r', s₂) ∧
          vfsFindDentry [47, 97, 47, 102] none false t.fs = some (r', s₂) ∧
          ∀ d', r' = .ok d' → ∃ i, s₂.Designates d' i := by
  obtain ⟨t, ht, -⟩ := reached_sampleCalls
  have hrel : ValidRel t.fs none := fun d hd => by simp at hd
  obtain ⟨r, s₁, hfind, hrest⟩ := vfsFindDentry_composes (p := [47, 97]) (q := [102])
    length_vzeroed ht hrel (by decide) (by decide) (by decide) (by decide) (by decide) (by decide)
  exact ⟨t, r, s₁, ht, hfind, hrest⟩

/-! ### A leading `./` -/

theorem components_dot (hhead : p.head? ≠ some slash) :
    components (dot ++ slash :: p) = dot :: components p :=
  components_append (by decide) (by decide) hhead

theorem shortComponents_dotSlash : ShortComponents (dot ++ slash :: p) ↔ ShortComponents p := by
  rw [shortComponents_append, and_iff_right shortComponents_dot]

/-- `./` makes no difference where `vfs_find_dentry` drops no component, or two or more are there.
-/
theorem vfsFindDentry_dotSlash {parent : Bool} (hp : p ≠ []) (hhead : p.head? ≠ some slash)
    (hshort : ShortComponents p) (hparent : parent = true → 1 < (components p).length) :
    vfsFindDentry (dot ++ slash :: p) rel parent = vfsFindDentry p rel parent := by
  have hne := components_eq_nil.not.mpr hp
  have hpos := List.length_pos_iff.mpr hne
  have hhead' : (dot ++ slash :: p).head? ≠ some slash := by
    simp [dot, slash]
  have hguard : ¬ ((components p).length = 0 ∨ ((components p).length = 1 ∧ parent = true)) := by
    rintro (h | ⟨h, hpar⟩)
    · omega
    · have := hparent hpar
      omega
  have hguard' : ¬ ((dot :: components p).length = 0 ∨
      ((dot :: components p).length = 1 ∧ parent = true)) := by
    rw [List.length_cons]
    omega
  have hdrop : (if parent then (dot :: components p).dropLast else dot :: components p) =
      dot :: if parent then (components p).dropLast else components p := by
    split
    · exact List.dropLast_cons_of_ne_nil hne
    · rfl
  funext s
  rw [vfsFindDentry, vfsFindDentry, vfsParsePath_of_short hshort,
    vfsParsePath_of_short (shortComponents_dotSlash.mpr hshort), components_dot hhead,
    bind_ok (deref_some _ s), bind_ok (deref_some _ s), if_neg hguard, if_neg hguard',
    bind_ok (read_apply s), bind_ok (read_apply s), hdrop]
  simp only [if_neg hhead, if_neg hhead']
  rfl

/-- `./` makes no difference to `vfs_mkdir` and `vfs_create` of two or more components. -/
theorem vfsAdd_dotSlash (op : ℕ → Name → BitVec 16 → VfsM Unit) (hp : p ≠ [])
    (hhead : p.head? ≠ some slash) (hshort : ShortComponents p)
    (hlen : 1 < (components p).length) :
    vfsAdd op (dot ++ slash :: p) rel flags = vfsAdd op p rel flags := by
  have hne := components_eq_nil.not.mpr hp
  have hlast : (dot :: components p).getLast? = (components p).getLast? :=
    List.getLast?_cons_of_ne_nil hne
  rw [vfsAdd, vfsAdd, vfsFindDentry_dotSlash hp hhead hshort fun _ => hlen,
    vfsParsePath_of_short hshort, vfsParsePath_of_short (shortComponents_dotSlash.mpr hshort),
    components_dot hhead]
  simp only [deref_some_bind, hlast]

/-- One component has no parent before it. -/
theorem vfsAdd_single (op : ℕ → Name → BitVec 16 → VfsM Unit) (hshort : ShortComponents p)
    (hlen : (components p).length ≤ 1) : vfsAdd op p rel flags s = some (.error (-einval), s) := by
  refine bind_error ?_
  have hguard : (components p).length = 0 ∨ ((components p).length = 1 ∧ true = true) := by
    simp only [and_true]
    omega
  rw [vfsFindDentry, vfsParsePath_of_short hshort, deref_some_bind, if_pos hguard]
  rfl

/-- After `./`, it is looked for and made. -/
theorem vfsAdd_dot_single (h : s.VfsInv) (hrel : ValidRel s rel) (hhead : path.head? ≠ some slash)
    (hfiles : vfsParsePath path = some [dot, name]) :
    vfsAdd (tmpfsAdd fmt) path rel flags s ≠ some (.error (-einval), s') := by
  obtain ⟨i, hi⟩ := hrel.start h
  obtain ⟨s₁, -, h₁, hfind⟩ := h.findDentry true hi hfiles
  have hres : s.resolve path [dot, name] i true = .ok i := by
    simp [VfsState.resolve, hhead, descend]
  rw [hres] at hfind
  obtain ⟨d, hfind, hd, -⟩ := hfind
  have hlast : [dot, name].getLast? = some name := rfl
  have hchild := h₁.findChild name hd
  cases hc : (if name = dot then some i else s₁.child i name) with
  | none =>
    rw [hc] at hchild
    obtain ⟨v, y, hy, heq⟩ := vfsAdd_eq hfiles hfind hd hlast hchild
    have habs : s₁.child i name = none := by
      split at hc
      · simp at hc
      · exact hc
    obtain ⟨s₂, hadd, -⟩ := h₁.tmpfsAdd hy habs fmt flags
    rw [heq, hadd]
    simp
  | some c =>
    rw [hc] at hchild
    obtain ⟨d', s₂, hchild, -⟩ := hchild
    obtain ⟨v, y, hy, heq⟩ := vfsAdd_eq hfiles hfind hd hlast hchild
    rw [heq]
    simp [eexist, einval]

/-- `./` before the path makes no difference: the function returns the same value, and leaves the
same state. -/
def DotNeutral {α : Type} (f : List UInt8 → VfsM α) (p : List UInt8) (s : VfsState) : Prop :=
  ∃ r, f (dot ++ slash :: p) s = some r ∧ f p s = some r

theorem dotNeutral_vfsOpen_iff (h : s.VfsInv) (hrel : ValidRel s rel) (hp : p ≠ [])
    (hhead : p.head? ≠ some slash) (flags : BitVec 16) :
    DotNeutral (vfsOpen · rel flags) p s ↔ ShortComponents p := by
  constructor
  · rintro ⟨r, -, hr⟩
    by_contra hshort
    have hnone : vfsOpen p rel flags s = none :=
      bind_none (vfsFindDentry_none (vfsParsePath_none hshort))
    exact absurd (hnone.symm.trans hr) nofun
  · intro hshort
    obtain ⟨i, hi⟩ := hrel.start h
    obtain ⟨r, hr⟩ : ∃ r, vfsOpen p rel flags s = some r := by
      obtain ⟨s', -, -, hopen⟩ := h.vfsOpen hi (vfsParsePath_of_short hshort) flags
      split at hopen
      · obtain ⟨d, hopen, -⟩ := hopen
        exact ⟨_, hopen⟩
      · exact ⟨_, hopen⟩
    refine ⟨r, ?_, hr⟩
    show vfsOpen _ rel flags s = _
    rw [vfsOpen, vfsFindDentry_dotSlash hp hhead hshort (by simp)]
    exact hr

theorem dotNeutral_vfsAdd_iff (fmt : BitVec 16) (h : s.VfsInv) (hrel : ValidRel s rel) (hp : p ≠ [])
    (hhead : p.head? ≠ some slash) (flags : BitVec 16) :
    DotNeutral (vfsAdd (tmpfsAdd fmt) · rel flags) p s ↔
      ShortComponents p ∧ slash ∈ p.dropLast := by
  constructor
  · rintro ⟨r, hdot, hr⟩
    have hshort : ShortComponents p := by
      by_contra hshort
      have hnone : vfsAdd (tmpfsAdd fmt) p rel flags s = none :=
        bind_none (vfsFindDentry_none (vfsParsePath_none hshort))
      exact absurd (hnone.symm.trans hr) nofun
    refine ⟨hshort, ?_⟩
    by_contra hmem
    have hlen : (components p).length ≤ 1 := by
      rw [components_of_relative hhead]
      exact length_pieces_le_one.mpr hmem
    obtain ⟨name, hname⟩ : ∃ name, components p = [name] := by
      have hpos := List.length_pos_iff.mpr (components_eq_nil.not.mpr hp)
      exact List.length_eq_one_iff.mp (by omega)
    have hhead' : (dot ++ slash :: p).head? ≠ some slash := by
      simp [dot, slash]
    have hfiles : vfsParsePath (dot ++ slash :: p) = some [dot, name] := by
      rw [vfsParsePath_of_short (shortComponents_dotSlash.mpr hshort), components_dot hhead, hname]
    obtain rfl := Option.some.inj ((vfsAdd_single _ hshort hlen).symm.trans hr)
    exact vfsAdd_dot_single h hrel hhead' hfiles hdot
  · rintro ⟨hshort, hmem⟩
    have hlen : 1 < (components p).length := by
      rw [components_of_relative hhead]
      exact Nat.lt_of_not_le (mt length_pieces_le_one.mp (not_not_intro hmem))
    obtain ⟨i, hi⟩ := hrel.start h
    have hfiles := vfsParsePath_of_short hshort
    obtain ⟨r, hr⟩ : ∃ r, vfsAdd (tmpfsAdd fmt) p rel flags s = some r := by
      by_cases ht : ∃ i' name, s.AddTarget p (components p) i i' name
      · obtain ⟨i', name, ht⟩ := ht
        obtain ⟨-, s', hadd, -⟩ := h.vfsAdd_ok hi hfiles ht fmt flags
        exact ⟨_, hadd⟩
      · obtain ⟨e, s', hadd, -⟩ := h.vfsAdd_error hi hfiles
          (fun i' name ht' => ht ⟨i', name, ht'⟩) fmt flags
        exact ⟨_, hadd⟩
    refine ⟨r, ?_, hr⟩
    show vfsAdd _ (dot ++ slash :: p) rel flags s = _
    rw [vfsAdd_dotSlash _ hp hhead hshort hlen]
    exact hr

/-- **A leading `./`** is neutral in all three functions just when the path has two or more
components, which fit the buffer. For `vfs_open` it is enough that they fit. -/
theorem dotNeutral_iff (hv : ∀ s n, (vmalloc s n).length = n) (h : Reached vmalloc cs t)
    (hrel : ValidRel t.fs rel) (hp : p ≠ []) (hhead : p.head? ≠ some slash) (flags : BitVec 16) :
    (DotNeutral (vfsOpen · rel flags) p t.fs ∧ DotNeutral (vfsMkdir · rel flags) p t.fs ∧
        DotNeutral (vfsCreate · rel flags) p t.fs ↔
      (∀ c ∈ p.splitOn slash, c.length < 256) ∧ slash ∈ p.dropLast) ∧
    (DotNeutral (vfsOpen · rel flags) p t.fs ↔ ∀ c ∈ p.splitOn slash, c.length < 256) := by
  have hinv := (h.sysInv hv).fs
  have hopen := dotNeutral_vfsOpen_iff hinv hrel hp hhead flags
  have hmkdir : DotNeutral (vfsMkdir · rel flags) p t.fs ↔ _ :=
    dotNeutral_vfsAdd_iff sIfdir hinv hrel hp hhead flags
  have hcreate : DotNeutral (vfsCreate · rel flags) p t.fs ↔ _ :=
    dotNeutral_vfsAdd_iff sIfreg hinv hrel hp hhead flags
  rw [hopen, hmkdir, hcreate, and_self, ← shortComponents_iff]
  exact ⟨and_iff_right_of_imp And.left, Iff.rfl⟩

theorem dotNeutral_iff_af : ∃ t, Reached vzeroed sampleCalls t ∧
    DotNeutral (vfsOpen · none 0) [97, 47, 102] t.fs ∧
    DotNeutral (vfsMkdir · none 0) [97, 47, 102] t.fs ∧
    DotNeutral (vfsCreate · none 0) [97, 47, 102] t.fs := by
  obtain ⟨t, ht, -⟩ := reached_sampleCalls
  have hrel : ValidRel t.fs none := fun d hd => by simp at hd
  obtain ⟨hall, -⟩ := dotNeutral_iff (p := [97, 47, 102]) length_vzeroed ht hrel (by decide)
    (by decide) 0
  exact ⟨t, ht, hall.mpr (by decide)⟩

/-- `vfs_mkdir` rejects `a`, and makes `./a`. -/
theorem not_dotNeutral_a : ¬ DotNeutral (vfsMkdir · none 0) [97] initVfs := by
  rintro ⟨r, hdot, hr⟩
  have hfst : (vfsMkdir [46, 47, 97] none 0 initVfs).map Prod.fst =
      (vfsMkdir [97] none 0 initVfs).map Prod.fst :=
    congrArg (Option.map Prod.fst) (hdot.trans hr.symm)
  have hdiff : (vfsMkdir [46, 47, 97] none 0 initVfs).map Prod.fst = some (.ok ()) ∧
      (vfsMkdir [97] none 0 initVfs).map Prod.fst = some (.error (-22)) := by
    decide +kernel
  rw [hdiff.1, hdiff.2] at hfst
  simp at hfst

end GoofyOs
