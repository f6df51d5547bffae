import GoofyOs.Libk
import GoofyOs.VfsFiles
import GoofyOs.VfsPaths

/-!
# The path of a dentry

`dentry_resolve` puts the names of a dentry and of those above it on a stack, and then writes them
one after another. What it takes from the stack is a name, but it takes it for a dentry, and reads
the first eight bytes of the name as the address of another one. Short names have other bytes behind
them in their chunks. These bytes are a parameter, and so are the strings at all addresses; the
buffer is none of them.

The offsets are wrong as well: the slash before a name is not counted, and the root, whose name is a
slash already, gets another one.

## Main definitions

* `dentryResolve`, with the loops `pushNames` and `layoutNames`
* `PathTo` — the names on the way from the root to a dentry
* `laidOut` — what the second loop makes of the strings that it finds
* `Inverts` — what is asked of `dentry_resolve`

## Main results

* `pushNames_eq` — the first loop collects these names
* `layoutNames_eq` — the second loop
* `findLoop_pathTo` — what `vfs_find_dentry` returns has the components of the path as its names
* `dentryResolve_iff` — the path is written only if the strings there happen to spell it
-/

namespace GoofyOs

open Proc PathWalk Pieces VfsState VfsSys

/-! ### The source -/

/-- The first loop of `dentry_resolve`, going round at most `fuel` times. A pointer to a name is
given by the bytes from there on; those of dentry `d` have `behind d` after the NUL. -/
def pushNames (behind : ℕ → List UInt8) (s : VfsState) :
    ℕ → Option ℕ → List (List UInt8) → Option (List (List UInt8))
  | _, none, stack => some stack
  | 0, some _, _ => none
  | fuel + 1, some curr, stack => do
    let e ← s.dentries[curr]?
    pushNames behind s fuel e.parent ((e.name ++ 0 :: behind curr) :: stack)

/-- The number that eight bytes hold, the lowest one first. -/
def longValue (bytes : List UInt8) : ℕ := bytes.foldr (fun c n => c.toNat + 256 * n) 0

/-- `((struct dentry *)value)->name`, the first field, where `value` points to these bytes. A chunk
has no fewer than eight. -/
def nameField (value : List UInt8) : ℕ := longValue (value.take 8)

/-- Writing bytes at an offset of the buffer. -/
def putBytes (buf : List UInt8) (off : ℕ) (bytes : List UInt8) : Option (List UInt8) :=
  if off + bytes.length ≤ buf.length then some (copyTo buf off bytes) else none

/-- The second loop of `dentry_resolve`. `nameAt` is how a name is found from what was on the
stack. -/
def layoutNames (nameAt : List UInt8 → Option Name) :
    List (List UInt8) → ℕ → ℕ → List UInt8 → Option (List UInt8)
  | [], _, _, buf => some buf
  | value :: stack, path, len, buf => do
    let path := path + len
    let buf ← putBytes buf path [slash]
    let name ← nameAt value
    let buf ← putBytes buf (path + 1) (name ++ [0])
    layoutNames nameAt stack path name.length buf

/-- `dentry_resolve`, with the string at each address. -/
def dentryResolve (behind : ℕ → List UInt8) (strAt : ℕ → Option Name) (s : VfsState)
    (fuel dentry : ℕ) (buf : List UInt8) : Option (List UInt8) := do
  let stack ← pushNames behind s fuel (some dentry) []
  layoutNames (fun value => strAt (nameField value)) stack 0 0 buf

/-- **What is asked of `dentry_resolve`**: it writes the path and a NUL, and the path leads to the
same inode. -/
def Inverts (behind : ℕ → List UInt8) (strAt : ℕ → Option Name) (s : VfsState)
    (fuel dentry : ℕ) (path buf : List UInt8) : Prop :=
  ∃ buf', dentryResolve behind strAt s fuel dentry buf = some buf' ∧ path ++ [0] <+: buf' ∧
    ∃ i d s', s.Designates dentry i ∧ vfsFindDentry path none false s = some (.ok d, s') ∧
      s'.Designates d i

/-! ### The names above a dentry -/

/-- The dentry `d` has these names on the way from the root. -/
inductive PathTo (s : VfsState) : ℕ → List Name → Prop
  | root {d : ℕ} {e : Dentry} (he : s.dentries[d]? = some e) (hparent : e.parent = none) :
      PathTo s d [e.name]
  | child {d p : ℕ} {e : Dentry} {names : List Name} (he : s.dentries[d]? = some e)
      (hparent : e.parent = some p) (hp : PathTo s p names) : PathTo s d (names ++ [e.name])

variable {vmalloc : VfsState → ℕ → List UInt8} {t : VfsSys} {s s' : VfsState}
  {calls : List VfsCall} {c : VfsCall} {names cs : List Name} {stack values : List (List UInt8)}
  {behind : ℕ → List UInt8} {d i : ℕ} {rel : Option ℕ}

/-- **The first loop** of `dentry_resolve` collects the names, given enough fuel. -/
theorem pushNames_eq (h : PathTo s d names) (behind : ℕ → List UInt8) :
    ∃ values, List.Forall₂ (fun name value => name ++ [0] <+: value) names values ∧
      ∀ fuel stack, pushNames behind s fuel (some d) stack =
        if names.length ≤ fuel then some (values ++ stack) else none := by
  induction h with
  | @root d e he hparent =>
    refine ⟨[e.name ++ 0 :: behind d], .cons ⟨behind d, by simp⟩ .nil, fun fuel stack => ?_⟩
    cases fuel with
    | zero => rfl
    | succ fuel =>
      rw [pushNames, he, if_pos (by simp)]
      show pushNames behind s fuel e.parent ((e.name ++ 0 :: behind d) :: stack) = _
      rw [hparent]
      cases fuel with
      | zero => rfl
      | succ fuel => rfl
  | @child d p e names he hparent _ ih =>
    obtain ⟨values, hvalues, hpush⟩ := ih
    refine ⟨values ++ [e.name ++ 0 :: behind d],
      List.rel_append hvalues (.cons ⟨behind d, by simp⟩ .nil), fun fuel stack => ?_⟩
    cases fuel with
    | zero => simp [pushNames]
    | succ fuel =>
      rw [pushNames, he]
      show pushNames behind s fuel e.parent ((e.name ++ 0 :: behind d) :: stack) = _
      rw [hparent, hpush, List.length_append, List.length_singleton, List.append_assoc,
        List.singleton_append]
      simp only [Nat.add_le_add_iff_right]

theorem PathTo.mono (h : PathTo s d names) (hs : s.dentries <+: s'.dentries) :
    PathTo s' d names := by
  induction h with
  | root he hparent => exact .root (getElem?_of_isPrefix hs he) hparent
  | child he hparent _ ih => exact .child (getElem?_of_isPrefix hs he) hparent ih

/-- **The dentry that a list of names leads to** has these names. -/
theorem findLoop_pathTo (h : s.VfsInv) (hd : s.Designates d i) (hpath : PathTo s d names)
    (hcs : ∀ c ∈ cs, c ≠ dot) {d' : ℕ} (hfind : findLoop d cs s = some (.ok d', s')) :
    PathTo s' d' (names ++ cs) := by
  induction cs generalizing s d i names with
  | nil =>
    obtain ⟨rfl, rfl⟩ : d = d' ∧ s = s' := by
      simpa [findLoop] using hfind
    rwa [List.append_nil]
  | cons name cs ih =>
    obtain ⟨hdot, hcs⟩ := List.forall_mem_cons.mp hcs
    cases hc : s.child i name with
    | none =>
      have hchild := h.findChild name hd
      rw [if_neg hdot, hc] at hchild
      rw [findLoop, bind_error hchild] at hfind
      simp at hfind
    | some j =>
      obtain ⟨s₁, hchild, hgrow, h₁, hdentries, hnew⟩ := h.findChild_new hdot hd hc
      have hget : s₁.dentries[s.dentries.length]? = some ⟨name, some d, some s.vnodes.length⟩ := by
        rw [hdentries]
        exact List.getElem?_concat_length
      rw [findLoop, bind_ok hchild] at hfind
      have hpath' := ih h₁ hnew (.child hget rfl (hpath.mono hgrow.dentries)) hcs hfind
      rwa [List.append_assoc, List.singleton_append] at hpath'

/-! ### The root -/

/-- The root has the name `/`, and nothing is above it. -/
def RootNamed (s : VfsState) : Prop := ∃ root, s.globalRoot = some root ∧ PathTo s root [[slash]]

theorem RootNamed.mono (h : RootNamed s) (hroot : s'.globalRoot = s.globalRoot)
    (hs : s.dentries <+: s'.dentries) : RootNamed s' := by
  obtain ⟨root, hget, hpath⟩ := h
  exact ⟨root, hroot.trans hget, hpath.mono hs⟩

theorem globalRoot_did (h : Did t c s') : s'.globalRoot = t.fs.globalRoot := by
  cases h with
  | grows h _ _ => exact h.globalRoot
  | added hgrow _ _ _ _ _ h => exact h.globalRoot.trans hgrow.globalRoot
  | written h _ => exact h.globalRoot

theorem VfsSys.Reached.rootNamed (hv : ∀ s n, (vmalloc s n).length = n)
    (h : Reached vmalloc calls t) : RootNamed t.fs := by
  have hrun : t.SysInv ∧ RootNamed t.fs := by
    refine Run.invariant (P := fun t : VfsSys => t.SysInv ∧ RootNamed t.fs) h ?_ ?_
    · rintro t c t' ⟨ht, hroot⟩ ha hc
      obtain ⟨hdid, ht'⟩ := exec_cases hv ht ha hc
      exact ⟨ht', hroot.mono (globalRoot_did hdid) hdid.dentries⟩
    · exact ⟨Reached.sysInv hv (.nil _), 0, rfl, .root (e := ⟨[slash], none, some 1⟩) rfl rfl⟩
  exact hrun.2

/-! ### The second loop -/

variable {nameAt : List UInt8 → Option Name} {strAt : ℕ → Option Name} {buf buf' : List UInt8}
  {off path len k fuel : ℕ}

/-- What the second loop writes, but for the NUL. Every name but the last one loses its last
character to the slash of the next one, or its own slash if it is empty. -/
def laidOut : List Name → List UInt8
  | [] => []
  | [name] => slash :: name
  | name :: names => (slash :: name).take name.length ++ laidOut names

theorem laidOut_cons {name : Name} (h : names ≠ []) :
    laidOut (name :: names) = (slash :: name).take name.length ++ laidOut names := by
  obtain ⟨n, ns, rfl⟩ := List.exists_cons_of_ne_nil h
  rw [laidOut]
  exact List.cons_ne_nil n ns

theorem length_laidOut_pos (h : names ≠ []) : 0 < (laidOut names).length := by
  induction names with
  | nil => exact absurd rfl h
  | cons name names ih =>
    rcases eq_or_ne names [] with rfl | hne
    · exact Nat.succ_pos _
    · rw [laidOut_cons hne, List.length_append]
      have := ih hne
      omega

theorem length_copyTo {bytes : List UInt8} (hoff : off + bytes.length ≤ buf.length) :
    (copyTo buf off bytes).length = buf.length := by
  rw [copyTo, List.length_append, List.length_append, List.length_take, List.length_drop]
  omega

/-- Writing over the end of what was written. -/
theorem copyTo_copyTo {bytes bytes' : List UInt8} (hoff : off + bytes.length ≤ buf.length)
    (hk : k ≤ bytes.length) (hlen : bytes.length ≤ k + bytes'.length) :
    copyTo (copyTo buf off bytes) (off + k) bytes' = copyTo buf off (bytes.take k ++ bytes') := by
  have hoff' : (buf.take off).length = off := List.length_take_of_le (by omega)
  have htake : (copyTo buf off bytes).take (off + k) = buf.take off ++ bytes.take k := by
    rw [copyTo, List.append_assoc, show off + k = (buf.take off).length + k by omega,
      List.take_length_add_append, List.take_append_of_le_length hk]
  have hdrop : (copyTo buf off bytes).drop (off + k + bytes'.length) =
      buf.drop (off + (bytes.take k ++ bytes').length) := by
    rw [copyTo, List.append_assoc,
      show off + k + bytes'.length = (buf.take off).length + (k + bytes'.length) by omega,
      List.drop_length_add_append, List.drop_append, List.drop_eq_nil_of_le hlen, List.nil_append,
      List.drop_drop, List.length_append, List.length_take_of_le hk]
    congr 1
    omega
  rw [copyTo, htake, hdrop, copyTo, List.append_assoc (buf.take off)]

/-- Two writes, of which the second one covers the end of the first one. -/
theorem putBytes_bind {bytes bytes' : List UInt8} (hk : k ≤ bytes.length)
    (hlen : bytes.length ≤ k + bytes'.length) :
    ((putBytes buf off bytes).bind fun buf => putBytes buf (off + k) bytes') =
      putBytes buf off (bytes.take k ++ bytes') := by
  have hall : (bytes.take k ++ bytes').length = k + bytes'.length := by
    rw [List.length_append, List.length_take_of_le hk]
  rw [putBytes, putBytes, hall]
  by_cases hoff : off + bytes.length ≤ buf.length
  · rw [if_pos hoff, Option.bind_some, putBytes, length_copyTo hoff, copyTo_copyTo hoff hk hlen,
      Nat.add_assoc]
  · rw [if_neg hoff, if_neg (by omega)]
    rfl

/-- **The second loop** of `dentry_resolve`, over the strings that it finds. -/
theorem layoutNames_eq (hnames : values.map nameAt = names.map some) (hne : names ≠ []) :
    layoutNames nameAt values path len buf = putBytes buf (path + len) (laidOut names ++ [0]) := by
  induction names generalizing values path len buf with
  | nil => exact absurd rfl hne
  | cons name names ih =>
    obtain ⟨value, values, rfl⟩ := List.exists_cons_of_length_pos (l := values) (by
      have := congrArg List.length hnames
      rw [List.length_map, List.length_map, List.length_cons] at this
      omega)
    obtain ⟨hname, hrest⟩ := List.cons.inj hnames
    have hround : layoutNames nameAt (value :: values) path len buf =
        (putBytes buf (path + len) (slash :: name ++ [0])).bind fun buf =>
          layoutNames nameAt values (path + len) name.length buf := by
      have htwo : ((putBytes buf (path + len) [slash]).bind fun buf =>
          putBytes buf (path + len + 1) (name ++ [0])) =
          putBytes buf (path + len) (slash :: name ++ [0]) :=
        putBytes_bind le_rfl (Nat.le_add_right 1 _)
      rw [layoutNames, hname]
      refine Eq.trans ?_ (congrArg (fun o => Option.bind o fun buf =>
        layoutNames nameAt values (path + len) name.length buf) htwo)
      exact (Option.bind_assoc _ _ _).symm
    rw [hround]
    rcases eq_or_ne names [] with rfl | hnames'
    · obtain rfl := List.map_eq_nil_iff.mp hrest
      exact Option.bind_fun_some _
    · have hpos := length_laidOut_pos hnames'
      have hlen : (slash :: name ++ [0]).length = name.length + 2 := by simp
      have htake : (slash :: name ++ [0]).take name.length = (slash :: name).take name.length :=
        List.take_append_of_le_length (Nat.le_succ _)
      simp only [ih hrest hnames']
      rw [putBytes_bind (by omega) (by rw [hlen, List.length_append, List.length_singleton]; omega),
        htake, laidOut_cons hnames', List.append_assoc]

/-- If there is no string where one is looked for, the second loop has no result. -/
theorem exists_names (h : layoutNames nameAt values path len buf = some buf') :
    ∃ names : List Name, values.map nameAt = names.map some := by
  induction values generalizing path len buf with
  | nil => exact ⟨[], rfl⟩
  | cons value values ih =>
    obtain ⟨buf₁, -, h⟩ := Option.bind_eq_some_iff.mp h
    obtain ⟨name, hname, h⟩ := Option.bind_eq_some_iff.mp h
    obtain ⟨buf₂, -, h⟩ := Option.bind_eq_some_iff.mp h
    obtain ⟨names, hnames⟩ := ih h
    exact ⟨name :: names, by rw [List.map_cons, List.map_cons, hname, hnames]⟩

/-- The characters come from the names, or are slashes. -/
theorem mem_laidOut {b : UInt8} (h : b ∈ laidOut names) : b = slash ∨ ∃ name ∈ names, b ∈ name := by
  induction names with
  | nil => exact absurd h List.not_mem_nil
  | cons name names ih =>
    rcases eq_or_ne names [] with rfl | hne
    · rcases List.mem_cons.mp h with rfl | h
      · exact Or.inl rfl
      · exact Or.inr ⟨name, List.mem_cons_self, h⟩
    · rw [laidOut_cons hne] at h
      rcases List.mem_append.mp h with h | h
      · rcases List.mem_cons.mp (List.mem_of_mem_take h) with rfl | h
        · exact Or.inl rfl
        · exact Or.inr ⟨name, List.mem_cons_self, h⟩
      · rcases ih h with h | ⟨name', hname', h⟩
        · exact Or.inl h
        · exact Or.inr ⟨name', List.mem_cons_of_mem _ hname', h⟩

/-- The string at the start of a buffer ends at its first NUL. -/
theorem eq_of_prefix {p q : List UInt8} (hp : (0 : UInt8) ∉ p) (hq : (0 : UInt8) ∉ q)
    (h : p ++ [0] <+: buf) (h' : q ++ [0] <+: buf) : p = q := by
  obtain ⟨r, rfl⟩ := h
  obtain ⟨r', heq⟩ := h'
  rw [List.append_assoc, List.append_assoc, List.singleton_append, List.singleton_append] at heq
  exact (CStr.unique ⟨hp, r, rfl⟩ ⟨hq, r', heq.symm⟩)

/-- **The path is written** if and only if there is room for it, and the strings give it. -/
theorem layoutNames_writes_iff {p : List UInt8} (hvalues : values ≠ []) (hp : (0 : UInt8) ∉ p)
    (hnul : ∀ value name, nameAt value = some name → (0 : UInt8) ∉ name) :
    (∃ buf', layoutNames nameAt values 0 0 buf = some buf' ∧ p ++ [0] <+: buf') ↔
      p.length < buf.length ∧ ∃ names : List Name, values.map nameAt = names.map some ∧
        laidOut names = p := by
  have hput (bytes : List UInt8) : putBytes buf 0 bytes =
      if bytes.length ≤ buf.length then some (bytes ++ buf.drop bytes.length) else none := by
    rw [putBytes, copyTo, Nat.zero_add, List.take_zero, List.nil_append]
  have hne {names : List Name} (hnames : values.map nameAt = names.map some) : names ≠ [] := by
    rintro rfl
    exact hvalues (List.map_eq_nil_iff.mp hnames)
  constructor
  · rintro ⟨buf', hlay, hprefix⟩
    obtain ⟨names, hnames⟩ := exists_names hlay
    rw [layoutNames_eq hnames (hne hnames), Nat.zero_add, hput] at hlay
    split at hlay
    · next hroom =>
      obtain rfl := Option.some.inj hlay
      have hzero : (0 : UInt8) ∉ laidOut names := by
        intro hmem
        rcases mem_laidOut hmem with h | ⟨name, hname, h⟩
        · exact absurd h (by decide)
        · obtain ⟨value, -, hvalue⟩ := List.mem_map.mp
            (hnames ▸ List.mem_map_of_mem hname : some name ∈ values.map nameAt)
          exact hnul value name hvalue h
      obtain rfl := eq_of_prefix hzero hp (List.prefix_append _ _) hprefix
      rw [List.length_append, List.length_singleton] at hroom
      exact ⟨hroom, names, hnames, rfl⟩
    · exact absurd hlay.symm (Option.some_ne_none _)
  · rintro ⟨hroom, names, hnames, rfl⟩
    rw [layoutNames_eq hnames (hne hnames), Nat.zero_add, hput,
      if_pos (by rwa [List.length_append])]
    exact ⟨_, rfl, List.prefix_append _ _⟩

/-- With the names themselves, the second byte is a slash, like the first. -/
theorem layoutNames_slash (hcs : ∀ c ∈ cs, c ≠ [])
    (h : layoutNames some ([slash] :: cs) 0 0 buf = some buf') : buf'[1]? = some slash := by
  have hlaid : ∃ r, laidOut ([slash] :: cs) = slash :: slash :: r := by
    rcases eq_or_ne cs [] with rfl | hne
    · exact ⟨[], rfl⟩
    · -- the next name starts where the name of the root was
      obtain ⟨c, cs, rfl⟩ := List.exists_cons_of_ne_nil hne
      obtain ⟨a, c, rfl⟩ := List.exists_cons_of_ne_nil (hcs c List.mem_cons_self)
      rw [laidOut_cons hne]
      rcases eq_or_ne cs [] with rfl | hne'
      · exact ⟨_, rfl⟩
      · rw [laidOut_cons hne']
        exact ⟨_, rfl⟩
  obtain ⟨r, hr⟩ := hlaid
  rw [layoutNames_eq rfl (List.cons_ne_nil _ _), hr, putBytes] at h
  split at h
  · obtain rfl := Option.some.inj h
    rfl
  · exact absurd h.symm (Option.some_ne_none _)

/-- The second byte of a path is not a slash. -/
theorem getElem?_renderPath (hcs : ∀ c ∈ cs, c ≠ [] ∧ slash ∉ c) :
    (renderPath cs true false ++ [0])[1]? ≠ some slash := by
  have hrender : renderPath cs true false ++ [0] = slash :: ([slash].intercalate cs ++ [0]) := by
    simp [renderPath]
  rw [hrender, List.getElem?_cons_succ, ← List.head?_eq_getElem?]
  rcases eq_or_ne cs [] with rfl | hne
  · decide
  · exact head?_intercalate hcs hne [0]

theorem shortComponents_of_length {p : List UInt8} (h : p.length < 256) : ShortComponents p :=
  fun _ hb _ => Nat.lt_of_le_of_lt hb.length_le h

/-- The dentry that an absolute path designates has the components as its names. -/
theorem pathTo_of_findDentry (h : s.VfsInv) (hroot : RootNamed s)
    (hcs : ∀ c ∈ cs, c ≠ [] ∧ c ≠ dot ∧ slash ∉ c)
    (hlen : (renderPath cs true false).length < 256)
    (hfind : vfsFindDentry (renderPath cs true false) rel false s = some (.ok d, s')) :
    PathTo s' d ([slash] :: cs) := by
  have hhead : (renderPath cs true false).head? = some slash := rfl
  have hlookups : lookups (renderPath cs true false) = cs := by
    rw [lookups, if_pos hhead, components_renderPath (fun c hc => ⟨(hcs c hc).1, (hcs c hc).2.2⟩)
      (by simp), if_pos hhead]
    rfl
  obtain ⟨root, hget, hpath⟩ := hroot
  obtain ⟨root', hget', hd⟩ := h.globalRoot
  obtain rfl := Option.some.inj (hget.symm.trans hget')
  have hne : renderPath cs true false ≠ [] := by simp [renderPath]
  rw [vfsFindDentry_eq hne (shortComponents_of_length hlen), hlookups, startDentry, if_pos hhead,
    hget,
    Option.some_or, deref_some_bind] at hfind
  exact findLoop_pathTo h hd hpath (fun c hc => (hcs c hc).2.1) hfind

/-- An absolute path leads to the same inode again. -/
theorem findDentry_again (h : s.VfsInv) (hlen : (renderPath cs true false).length < 256)
    (hfind : vfsFindDentry (renderPath cs true false) rel false s = some (.ok d, s')) :
    ∃ i d' s'', s'.Designates d i ∧
      vfsFindDentry (renderPath cs true false) none false s' = some (.ok d', s'') ∧
      s''.Designates d' i := by
  have hne : renderPath cs true false ≠ [] := by simp [renderPath]
  have hshort := shortComponents_of_length hlen
  obtain ⟨files, hfiles⟩ := vfsParsePath_isSome hshort
  have hnone : vfsFindDentry (renderPath cs true false) none false s = some (.ok d, s') := by
    rw [← hfind, vfsFindDentry_eq hne hshort, vfsFindDentry_eq hne hshort]
    rfl
  have hstart (s : VfsState) : s.Start none 0 := rfl
  obtain ⟨s₁, hgrow, h₁, hfirst⟩ := h.findDentry false (hstart s) hfiles
  cases hres : s.resolve (renderPath cs true false) files 0 false with
  | error e =>
    rw [hres] at hfirst
    cases hfirst.symm.trans hnone
  | ok j =>
    rw [hres] at hfirst
    obtain ⟨d₁, hd₁, hdes, -⟩ := hfirst
    obtain ⟨rfl, rfl⟩ : d₁ = d ∧ s₁ = s' := by
      cases hd₁.symm.trans hnone
      exact ⟨rfl, rfl⟩
    obtain ⟨s₂, -, -, hagain⟩ := h₁.findDentry false (hstart s₁) hfiles
    rw [hgrow.resolve, hres] at hagain
    obtain ⟨d₂, hd₂, hdes₂, -⟩ := hagain
    exact ⟨j, d₂, s₂, hdes, hd₂, hdes₂⟩

/-- A path has no NUL if its components have none. -/
theorem zero_notMem_renderPath (hzero : ∀ c ∈ cs, (0 : UInt8) ∉ c) :
    (0 : UInt8) ∉ renderPath cs true false := by
  have hjoin : (0 : UInt8) ∉ [slash].intercalate cs := by
    induction cs with
    | nil => exact List.not_mem_nil
    | cons c cs ih =>
      obtain ⟨hc, hcs⟩ := List.forall_mem_cons.mp hzero
      rcases eq_or_ne cs [] with rfl | hne
      · simpa using hc
      · obtain ⟨c', cs, rfl⟩ := List.exists_cons_of_ne_nil hne
        rw [List.intercalate_cons_cons, List.mem_append, List.mem_append]
        rintro ((h | h) | h)
        · exact hc h
        · exact absurd h (by decide)
        · exact ih hcs h
  rw [renderPath, if_pos rfl, if_neg Bool.false_ne_true, List.append_nil, List.mem_append]
  rintro (h | h)
  · exact absurd h (by decide)
  · exact hjoin h

/-- **`dentry_resolve`** writes the path if and only if the strings at the addresses that the names
spell happen to give it. The names themselves never would. -/
theorem dentryResolve_iff (hv : ∀ s n, (vmalloc s n).length = n) (h : Reached vmalloc calls t)
    (hcs : ∀ c ∈ cs, c ≠ [] ∧ c ≠ dot ∧ slash ∉ c) (hzero : ∀ c ∈ cs, (0 : UInt8) ∉ c)
    (hlen : (renderPath cs true false).length < 256)
    (hfind : vfsFindDentry (renderPath cs true false) rel false t.fs = some (.ok d, s'))
    (behind : ℕ → List UInt8) :
    ∃ values, List.Forall₂ (fun name value => name ++ [0] <+: value) ([slash] :: cs) values ∧
      (∀ fuel, pushNames behind s' fuel (some d) [] =
        if cs.length < fuel then some values else none) ∧
      (∀ strAt fuel buf, (∀ a name, strAt a = some name → (0 : UInt8) ∉ name) →
        cs.length < fuel →
        (Inverts behind strAt s' fuel d (renderPath cs true false) buf ↔
          (renderPath cs true false).length < buf.length ∧ ∃ names : List Name,
            values.map (fun value => strAt (nameField value)) = names.map some ∧
              laidOut names = renderPath cs true false)) ∧
      ∀ buf buf', layoutNames some ([slash] :: cs) 0 0 buf = some buf' →
        ¬ renderPath cs true false ++ [0] <+: buf' := by
  have hinv := (h.sysInv hv).fs
  have hpath := pathTo_of_findDentry hinv (h.rootNamed hv) hcs hlen hfind
  obtain ⟨values, hvalues, hpush⟩ := pushNames_eq hpath behind
  have hpush' (fuel : ℕ) : pushNames behind s' fuel (some d) [] =
      if cs.length < fuel then some values else none := by
    rw [hpush, List.append_nil, List.length_cons]
    rfl
  refine ⟨values, hvalues, hpush', fun strAt fuel buf hstr hfuel => ?_,
    fun buf buf' hlay hprefix => ?_⟩
  · have hne : values ≠ [] := by
      rintro rfl
      cases hvalues
    rw [← layoutNames_writes_iff hne (zero_notMem_renderPath hzero)
      fun value name => hstr (nameField value) name]
    have hresolve : dentryResolve behind strAt s' fuel d buf =
        layoutNames (fun value => strAt (nameField value)) values 0 0 buf := by
      rw [dentryResolve, hpush', if_pos hfuel]
      rfl
    constructor
    · rintro ⟨buf', hbuf', hprefix, -⟩
      exact ⟨buf', hresolve.symm.trans hbuf', hprefix⟩
    · rintro ⟨buf', hbuf', hprefix⟩
      exact ⟨buf', hresolve.trans hbuf', hprefix, findDentry_again hinv hlen hfind⟩
  · have hslash := layoutNames_slash (fun c hc => (hcs c hc).1) hlay
    refine getElem?_renderPath (fun c hc => ⟨(hcs c hc).1, (hcs c hc).2.2⟩) ?_
    have hlt : 1 < (renderPath cs true false ++ [0]).length := by simp [renderPath]
    rw [List.getElem?_eq_getElem hlt, ← hslash]
    exact (getElem?_of_isPrefix hprefix (List.getElem?_eq_getElem hlt)).symm

/-- The root, and `/a/f` after it was made: the path is written where the strings at 47, 97 and 102
are empty, `ab` and `f`, and not where all strings are `x`. -/
theorem dentryResolve_iff_af : ∃ t d s', Reached vzeroed sampleCalls t ∧
    vfsFindDentry (renderPath [[97], [102]] true false) none false t.fs = some (.ok d, s') ∧
    Inverts (fun _ => List.replicate 6 0)
      (fun a => if a = 97 then some [97, 98] else if a = 102 then some [102] else some [])
      s' 3 d (renderPath [[97], [102]] true false) (List.replicate 257 0) ∧
    ¬ Inverts (fun _ => List.replicate 6 0) (fun _ => some [120]) s' 3 d
      (renderPath [[97], [102]] true false) (List.replicate 257 0) := by
  have hcheck : ((Run.check (exec vzeroed) Allowed ⟨initVfs, []⟩ sampleCalls).map fun t =>
      (vfsFindDentry [47, 97, 47, 102] none false t.fs).map fun r =>
        (r.1, pushNames (fun _ => List.replicate 6 0) r.2 3 (some 5) [])) =
      some (some (.ok 5, some [[47, 0, 0, 0, 0, 0, 0, 0], [97, 0, 0, 0, 0, 0, 0, 0],
        [102, 0, 0, 0, 0, 0, 0, 0]])) := by
    decide +kernel
  obtain ⟨t, ht, hfst⟩ := Option.map_eq_some_iff.mp hcheck
  obtain ⟨⟨r, s'⟩, hfind, hpair⟩ := Option.map_eq_some_iff.mp hfst
  obtain ⟨rfl, hstack⟩ := Prod.mk.inj hpair
  have hreached : Reached vzeroed sampleCalls t := Run.of_check ht
  have hcs : ∀ c ∈ [[97], [102]], c ≠ [] ∧ c ≠ dot ∧ slash ∉ c := by decide
  obtain ⟨values, -, hpush, hiff, -⟩ := dentryResolve_iff length_vzeroed hreached hcs (by decide)
    (by decide) hfind fun _ => List.replicate 6 0
  obtain rfl := Option.some.inj ((hpush 3).symm.trans hstack)
  refine ⟨t, 5, s', hreached, hfind, ?_, ?_⟩
  · refine (hiff _ 3 _ (fun a name hname => ?_) (by decide)).mpr
      ⟨?_, [[], [97, 98], [102]], rfl, rfl⟩
    · split_ifs at hname <;> cases hname <;> decide
    · rw [List.length_replicate]
      decide
  · rw [hiff _ 3 _ (fun a name hname => by cases hname; decide) (by decide)]
    rintro ⟨-, names, hnames, hlaid⟩
    have hlen : names.length = 3 := by simpa using (congrArg List.length hnames).symm
    have hall (name : Name) (hname : name ∈ names) : name = [120] := by
      obtain ⟨_, -, heq⟩ := List.mem_map.mp
        (hnames ▸ List.mem_map_of_mem hname : some name ∈ List.map _ _)
      exact (Option.some.inj heq).symm
    rw [List.eq_replicate_iff.mpr ⟨hlen, hall⟩] at hlaid
    exact absurd hlaid (by decide)

/-- The name of the root, with the upper bytes of a pointer behind it, is the address of some
string. If this is `x`, the root does not get its path. With its own name it would get `//`. -/
theorem not_dentryResolve_root :
    vfsFindDentry (renderPath [] true false) none false initVfs = some (.ok 0, initVfs) ∧
    ¬ Inverts (fun _ => [0, 0, 0, 128, 255, 255])
      (fun a => if a = 0xffff80000000002f then some [120] else none)
      initVfs 1 0 (renderPath [] true false) (List.replicate 257 0) ∧
    layoutNames some [[slash]] 0 0 (List.replicate 4 0) = some [47, 47, 0, 0] := by
  refine ⟨rfl, ?_, rfl⟩
  rintro ⟨buf', hbuf', ⟨rest, hprefix⟩, -⟩
  have hresolve : (dentryResolve (fun _ => [0, 0, 0, 128, 255, 255])
      (fun a => if a = 0xffff80000000002f then some [120] else none)
      initVfs 1 0 (List.replicate 257 0)).map (·[1]?) = some (some 120) := by
    decide +kernel
  rw [hbuf', ← hprefix] at hresolve
  -- the second byte is that of `x`, where the path has its NUL
  have hbyte : (0 : UInt8) = 120 := Option.some.inj (Option.some.inj hresolve)
  exact absurd hbyte (by decide)

end GoofyOs
