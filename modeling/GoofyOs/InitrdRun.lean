import GoofyOs.Initrd

/-!
# Unpacking an archive

`unpack_ustar` makes of an empty file system the tree of the archive.

## Main definitions

* `Unpacked` — the file system holds exactly the entries of an archive

## Main results

* `Unpacked.unpackEntry` — one entry
* `Unpacked.unpackLoop` — the loop, by induction on the entries that are left
* `unpackUstar_unpacked` — the whole archive
-/

namespace GoofyOs

open Proc PathWalk VfsState VfsSys

/-- The inode is what the entry says. -/
def Entry.Is (e : Entry) (x : TmpfsInode) : Prop :=
  match e.kind with
  | .dir => sIsdir x.mode = true
  | .file data => sIsreg x.mode = true ∧ x.contents = data ∧ x.length = data.length

/-- The file system holds exactly the entries: each is where its path leads, no other path leads
anywhere, and there are no other inodes but the root. -/
structure Unpacked (s : VfsState) (es : List Entry) : Prop where
  inv : s.VfsInv
  entry : ∀ e ∈ es, ∃ (i : ℕ) (x : TmpfsInode), walk s.child 0 e.path = some i ∧
    s.inodes[i]? = some x ∧ e.Is x
  only : ∀ p i, p ≠ [] → walk s.child 0 p = some i → ∃ e ∈ es, e.path = p
  length : s.inodes.length = es.length + 1

variable {vmalloc : VfsState → ℕ → List UInt8} {s s₁ s' : VfsState} {e e' : Entry}
  {es es' : List Entry} {p : List Name} {c : Name} {i : ℕ} {mode : BitVec 16}
  {image rest : List UInt8} {fs fuel : ℕ}

namespace Unpacked

theorem initVfs : Unpacked initVfs [] where
  inv := vfsInv_initVfs
  entry e he := by simp at he
  only q i hne hw := by
    obtain ⟨a, q, rfl⟩ := List.exists_cons_of_ne_nil hne
    simp [walk_cons, child, GoofyOs.initVfs] at hw
  length := rfl

theorem grows (h : Unpacked s es) (hgrow : s.Grows s') (hs' : s'.VfsInv) : Unpacked s' es where
  inv := hs'
  entry := by
    rw [hgrow.child, hgrow.inodes]
    exact h.entry
  only := by
    rw [hgrow.child]
    exact h.only
  length := by
    rw [hgrow.inodes]
    exact h.length

/-- The path of a new entry names a new child of its parent. -/
theorem target (h : Unpacked s es) (hpath : e.path = p ++ [c])
    (hcomp : ∀ c ∈ e.path, c ≠ dot) (hparent : p = [] ∨ ∃ e' ∈ es, e'.path = p)
    (hnew : ∀ e' ∈ es, e'.path ≠ e.path) :
    ∃ i, walk s.child 0 p = some i ∧ s.AddTarget e.name (dot :: e.path) 0 i c := by
  obtain ⟨i, hi⟩ : ∃ i, walk s.child 0 p = some i := by
    rcases hparent with rfl | ⟨e', he', rfl⟩
    · exact ⟨0, rfl⟩
    · obtain ⟨i, x, hi, -⟩ := h.entry e' he'
      exact ⟨i, hi⟩
  refine ⟨i, hi, ?_, ?_, ?_, ?_⟩
  · have hfilter : (dot :: p).filter (· ≠ dot) = p := by
      rw [List.filter_cons_of_neg (by simp), List.filter_eq_self]
      intro b hb
      have hne := hcomp b (hpath ▸ List.mem_append_left _ hb)
      simpa using hne
    have hhead : ¬ e.name.head? = some slash := by
      show ¬ some 46 = some slash
      decide
    have hdrop : (dot :: e.path).dropLast = dot :: p := by
      rw [hpath, ← List.cons_append, List.dropLast_concat]
    rw [resolve, if_neg (by simp [hpath])]
    simp only [hhead, if_true, if_false, hdrop, descend, hfilter, hi]
  · rw [hpath, ← List.cons_append, List.getLast?_concat]
  · exact hcomp c (hpath ▸ List.mem_append_right _ (List.mem_singleton_self c))
  · by_contra hchild
    obtain ⟨j, hj⟩ := Option.ne_none_iff_exists'.mp hchild
    have hw : walk s.child 0 (p ++ [c]) = some j := by
      rw [walk_concat, hi]
      exact hj
    obtain ⟨e', he', heq⟩ := h.only _ j (by simp) hw
    exact hnew e' he' (heq.trans hpath.symm)

/-- Where the path of a new entry leads once its inode is there. -/
theorem walk_new (h : s.VfsInv) (hpath : e.path = p ++ [c]) (hi : walk s.child 0 p = some i)
    (hlt : i < s.inodes.length) (habs : s.child i c = none) (hadded : s.Added i c mode s') :
    walk s'.child 0 e.path = some s.inodes.length := by
  rw [hpath]
  exact ((hadded.addedLeaf h.tree hlt habs).walk_eq_some_iff (Nat.ne_of_lt h.tree.root)).mpr
    (Or.inr ⟨rfl, p, rfl, hi⟩)

/-- Adding the inode of a new entry. -/
theorem added (h : Unpacked s es) (hpath : e.path = p ++ [c]) (hi : walk s.child 0 p = some i)
    (hlt : i < s.inodes.length) (habs : s.child i c = none) (hadded : s.Added i c mode s')
    (his : e.Is ⟨c, [], [], s.inodes.length, 0, 0, mode⟩) : Unpacked s' (es ++ [e]) := by
  have hleaf := hadded.addedLeaf h.inv.tree hlt habs
  have hroot : 0 ≠ s.inodes.length := Nat.ne_of_lt h.inv.tree.root
  refine ⟨hadded.vfsInv h.inv hlt habs, fun e' he' => ?_, fun q j hne hw => ?_, ?_⟩
  · rcases List.mem_append.mp he' with he' | he'
    · obtain ⟨j, x, hj, hx, hisx⟩ := h.entry e' he'
      refine ⟨j, _, hleaf.walk_of_walk hj, hadded.old hx, ?_⟩
      split
      · exact hisx
      · exact hisx
    · obtain rfl := List.mem_singleton.mp he'
      exact ⟨s.inodes.length, _, walk_new h.inv hpath hi hlt habs hadded, hadded.new, his⟩
  · rcases (hleaf.walk_eq_some_iff hroot).mp hw with hw | ⟨rfl, bs, rfl, hbs⟩
    · obtain ⟨e', he', heq⟩ := h.only q j hne hw
      exact ⟨e', List.mem_append_left _ he', heq⟩
    · refine ⟨e, List.mem_append_right _ (List.mem_singleton_self e), ?_⟩
      rw [hpath, h.inv.tree.walk_inj hi hbs]
  · rw [hadded.length, h.length, List.length_append, List.length_singleton]

/-- Writing the bytes of the last entry. -/
theorem written {e₀ : Entry} {v : ℕ} {x x' : TmpfsInode} (h : Unpacked s (es ++ [e₀]))
    (hpath : e₀.path = e.path) (hi : walk s.child 0 e.path = some i)
    (hnew : ∀ e' ∈ es, e'.path ≠ e.path) (hw : s.Written v i x' s')
    (hx : s'.inodes[i]? = some x) (his : e.Is x) : Unpacked s' (es ++ [e]) := by
  refine ⟨hw.vfsInv h.inv, fun e' he' => ?_, fun q j hne hwalk => ?_, ?_⟩
  · rw [hw.child]
    rcases List.mem_append.mp he' with he' | he'
    · obtain ⟨j, y, hj, hy, hisy⟩ := h.entry e' (List.mem_append_left _ he')
      refine ⟨j, y, hj, ?_, hisy⟩
      have hne : i ≠ j := by
        rintro rfl
        exact hnew e' he' (h.inv.tree.walk_inj hj hi)
      rw [hw.inodes, List.getElem?_set_ne hne, hy]
    · obtain rfl := List.mem_singleton.mp he'
      exact ⟨i, x, hi, hx, his⟩
  · rw [hw.child] at hwalk
    obtain ⟨e', he', heq⟩ := h.only q j hne hwalk
    rcases List.mem_append.mp he' with he' | he'
    · exact ⟨e', List.mem_append_left _ he', heq⟩
    · obtain rfl := List.mem_singleton.mp he'
      exact ⟨e, List.mem_append_right _ (List.mem_singleton_self e), hpath.symm.trans heq⟩
  · rw [hw.length, h.length, List.length_append, List.length_append]
    rfl

/-- A directory. -/
theorem unpackDir (h : Unpacked s es) (hpath : e.path = p ++ [c]) (hk : e.kind = .dir)
    (hfiles : vfsParsePath e.name = some (dot :: e.path)) (hi : walk s.child 0 p = some i)
    (htarget : s.AddTarget e.name (dot :: e.path) 0 i c) :
    ∃ s', GoofyOs.unpackDir e.name s = some (.ok (), s') ∧ Unpacked s' (es ++ [e]) := by
  have hstart : s.Start none 0 := rfl
  obtain ⟨s₁, s', hadd, hgrow, h₁, hlt, hadded⟩ := h.inv.vfsAdd_ok hstart hfiles htarget sIfdir 0
  refine ⟨s', bind_ok (attempt_of_eq hadd), (h.grows hgrow h₁).added hpath ?_ hlt ?_ hadded ?_⟩
  · rw [hgrow.child]
    exact hi
  · rw [hgrow.child]
    exact htarget.absent
  · rw [Entry.Is, hk]
    exact sIsdir_mkdir 0

/-- A regular file. -/
theorem unpackFile {data : List UInt8} (hv : ∀ s n, (vmalloc s n).length = n) (h : Unpacked s es)
    (hat : HeaderAt e image fs rest) (hpath : e.path = p ++ [c]) (hk : e.kind = .file data)
    (hfiles : vfsParsePath e.name = some (dot :: e.path)) (hi : walk s.child 0 p = some i)
    (htarget : s.AddTarget e.name (dot :: e.path) 0 i c)
    (hsize : e.data.length < 2 ^ 31 - 1024) (hnew : ∀ e' ∈ es, e'.path ≠ e.path) :
    ∃ s', GoofyOs.unpackFile vmalloc image fs e.name s = some (.ok (), s') ∧
      Unpacked s' (es ++ [e]) := by
  have hstart : s.Start none 0 := rfl
  have hdata : e.data = data := by
    rw [Entry.data, hk]
  obtain ⟨s₁, s₂, hadd, hgrow, h₁, hlt, hadded⟩ := h.inv.vfsAdd_ok hstart hfiles htarget sIfreg 0
  have habs : s₁.child i c = none := by
    rw [hgrow.child]
    exact htarget.absent
  -- the file is there, and empty
  have hi₁ : walk s₁.child 0 p = some i := by
    rw [hgrow.child]
    exact hi
  have h₂ : Unpacked s₂ (es ++ [⟨e.path, e.trailing, .file []⟩]) :=
    (h.grows hgrow h₁).added hpath hi₁ hlt habs hadded ⟨sIsreg_create 0, rfl, rfl⟩
  obtain ⟨d, s₃, hopen, hgrow₃, hfile, -, -⟩ := htarget.openNew hstart hfiles hgrow h₁ hlt habs
    (sIsreg_create 0) hadded 0
  have h₃ := h₂.grows hgrow₃ hfile.inv
  -- its bytes are written
  have hsmall : ([] ++ data).length < 2 ^ 31 := by
    rw [List.nil_append, ← hdata]
    omega
  obtain ⟨v, x', s', fd', hwrite, -, hw, hfile'⟩ := hfile.vfsWrite hv rfl hsmall
  obtain ⟨x, hx, hcontents, hlength, hreg⟩ := hfile'.inode
  have his : e.Is x := by
    rw [if_neg (Nat.ne_of_gt h₁.tree.root)] at hreg
    rw [Entry.Is, hk]
    exact ⟨hreg, hcontents, hlength⟩
  have hwalk : walk s₃.child 0 e.path = some s₁.inodes.length := by
    rw [hgrow₃.child]
    exact walk_new h₁ hpath hi₁ hlt habs hadded
  refine ⟨s', ?_, h₃.written rfl hwalk hnew hw hx his⟩
  have hbuf : readBytes image (fs + 512) (oct2bin (octDigits 11 e.data.length)) = some data := by
    rw [HeaderAt.oct2bin_size hsize, hat.data, hdata]
  have hcreate : vfsCreate e.name none 0 s = some (.ok (), s₂) := hadd
  rw [GoofyOs.unpackFile, bind_ok (attempt_of_eq hcreate)]
  show (attempt (vfsOpen e.name none 0) >>= _) s₂ = _
  rw [bind_ok (attempt_of_eq hopen)]
  show (deref (some _) >>= _) s₃ = _
  rw [bind_ok (deref_some _ s₃), hat.size, bind_ok (deref_some _ s₃), hbuf,
    bind_ok (deref_some data s₃)]
  exact bind_ok (attempt_of_eq hwrite)

/-- **One entry.** -/
theorem unpackEntry (hv : ∀ s n, (vmalloc s n).length = n) (h : Unpacked s es)
    (hat : HeaderAt e image fs rest) (hpath : e.path = p ++ [c])
    (hcomp : ∀ c ∈ e.path, c ≠ [] ∧ c ≠ dot ∧ slash ∉ c ∧ 0 ∉ c) (hshort : e.name.length < 100)
    (hsize : e.data.length < 2 ^ 31 - 1024) (hparent : p = [] ∨ ∃ e' ∈ es, e'.path = p)
    (hnew : ∀ e' ∈ es, e'.path ≠ e.path) :
    ∃ s', GoofyOs.unpackEntry vmalloc image fs s = some (.ok (), s') ∧ Unpacked s' (es ++ [e]) := by
  have hlen : ∀ c ∈ e.path, c.length + 2 ≤ e.name.length := fun c hc => Entry.length_le_of_mem hc
  have hfiles : vfsParsePath e.name = some (dot :: e.path) := by
    refine Entry.vfsParsePath_name fun c hc => ⟨(hcomp c hc).1, (hcomp c hc).2.2.1, ?_⟩
    have := hlen c hc
    omega
  have hname : e.name ≠ [46, 47] := by
    have hc : c ∈ e.path := hpath ▸ List.mem_append_right _ (List.mem_singleton_self c)
    have hpos := List.length_pos_iff.mpr (hcomp c hc).1
    have hle := hlen c hc
    intro heq
    rw [heq] at hle
    simp only [List.length_cons, List.length_nil] at hle
    omega
  have hstr := hat.cString fun c hc => (hcomp c hc).2.2.2
  obtain ⟨flag, hflag, hkind⟩ := hat.typeflag
  obtain ⟨i, hi, htarget⟩ := h.target hpath (fun c hc => (hcomp c hc).2.1) hparent hnew
  rw [GoofyOs.unpackEntry, hstr, bind_ok (deref_some e.name s), if_neg hname, hflag,
    bind_ok (deref_some flag s)]
  cases hk : e.kind with
  | dir =>
    rw [hk] at hkind
    rw [if_pos hkind]
    exact h.unpackDir hpath hk hfiles hi htarget
  | file data =>
    rw [hk] at hkind
    rw [if_neg (ne_ustarDir hkind.symm), if_pos hkind.symm]
    exact h.unpackFile hv hat hpath hk hfiles hi htarget hsize hnew

end Unpacked

/-! ### The whole archive -/

theorem WellFormed.left (h : WellFormed (es ++ e :: es')) :
    (∀ e' ∈ es, e'.path ≠ e.path) ∧ ∃ p c, e.path = p ++ [c] ∧
      (p = [] ∨ ∃ e' ∈ es, e'.path = p) := by
  refine ⟨fun e' he' heq => ?_, h.parent es e es' rfl⟩
  have hnodup := h.nodup
  rw [List.map_append, List.nodup_append] at hnodup
  exact hnodup.2.2 _ (List.mem_map_of_mem he') _ (List.mem_map_of_mem List.mem_cons_self) heq

/-- There is another header just when there is another entry. -/
theorem Encodes.strcmpEq_magic (h : Encodes es image) :
    strcmpEq (image.drop 257) ustar = some (!es.isEmpty) := by
  cases h with
  | nil rest => exact strcmpEq_zero (by decide) ustar (by decide) ustar_ne_zero
  | cons header pad rest =>
    rw [List.append_assoc]
    exact header.strcmpEq_magic

theorem Encodes.headerAt (h : Encodes (e :: es) (image.drop fs)) :
    ∃ rest, HeaderAt e image fs rest ∧ Encodes es rest ∧ e.name.length < 100 := by
  generalize hl : image.drop fs = l at h
  cases h with
  | cons header pad rest => exact ⟨_, ⟨_, _, header, pad, hl⟩, rest, header.short⟩

/-- Going round the loop once. -/
theorem Unpacked.step (hv : ∀ s n, (vmalloc s n).length = n) (h : Unpacked s es)
    (hwf : WellFormed (es ++ e :: es')) (himage : Encodes (e :: es') (image.drop fs)) :
    ∃ s' next, GoofyOs.unpackEntry vmalloc image fs s = some (.ok (), s') ∧
      Unpacked s' (es ++ [e]) ∧ Encodes es' (image.drop next) ∧
      ustarNext image fs = some (if !es'.isEmpty then some next else none) := by
  have he : e ∈ es ++ e :: es' := List.mem_append_right _ List.mem_cons_self
  obtain ⟨rest, hat, hrest, hshort⟩ := himage.headerAt
  obtain ⟨hnew, p, c, hpath, hparent⟩ := hwf.left
  obtain ⟨s', hentry, h'⟩ := h.unpackEntry hv hat hpath (hwf.component e he) hshort (hwf.size e he)
    hparent hnew
  refine ⟨s', _, hentry, h', ?_, hat.ustarNext (hwf.size e he) hrest.strcmpEq_magic⟩
  rw [hat.drop_next]
  exact hrest

/-- **The loop**, from an entry on. -/
theorem Unpacked.unpackLoop (hv : ∀ s n, (vmalloc s n).length = n) (h : Unpacked s es)
    (hwf : WellFormed (es ++ e :: es')) (himage : Encodes (e :: es') (image.drop fs))
    (hfuel : es'.length < fuel) :
    ∃ s', GoofyOs.unpackLoop vmalloc image fuel (some fs) s = some (.ok (), s') ∧
      Unpacked s' (es ++ e :: es') := by
  induction es' generalizing s es e fs fuel with
  | nil =>
    obtain ⟨fuel, rfl⟩ := Nat.exists_eq_succ_of_ne_zero (Nat.ne_of_gt hfuel)
    obtain ⟨s', next, hentry, h', -, hnext⟩ := h.step hv hwf himage
    refine ⟨s', ?_, h'⟩
    rw [GoofyOs.unpackLoop, bind_ok hentry, hnext]
    show (deref (some none) >>= _) s' = _
    rw [bind_ok (deref_some _ s')]
    cases fuel with
    | zero => rfl
    | succ fuel => rfl
  | cons e₁ es' ih =>
    obtain ⟨fuel, rfl⟩ := Nat.exists_eq_succ_of_ne_zero (Nat.ne_of_gt (Nat.zero_lt_of_lt hfuel))
    obtain ⟨s₁, next, hentry, h₁, himage₁, hnext⟩ := h.step hv hwf himage
    have hwf₁ : WellFormed ((es ++ [e]) ++ e₁ :: es') := by
      rw [List.append_assoc]
      exact hwf
    obtain ⟨s', hloop, h'⟩ := ih h₁ hwf₁ himage₁ (Nat.lt_of_succ_lt_succ hfuel)
    rw [List.append_assoc] at h'
    refine ⟨s', ?_, h'⟩
    rw [GoofyOs.unpackLoop, bind_ok hentry, hnext]
    show (deref (some (some next)) >>= _) s₁ = _
    rw [bind_ok (deref_some _ s₁)]
    exact hloop

/-- **Unpacking an archive** over an empty file system gives exactly its directories and files, with
their bytes. -/
theorem unpackUstar_unpacked (hv : ∀ s n, (vmalloc s n).length = n) (hwf : WellFormed es)
    (himage : Encodes (Entry.root :: es) image) (hfuel : es.length < fuel) :
    ∃ s', unpackUstar vmalloc fuel image initVfs = some (.ok (), s') ∧ Unpacked s' es := by
  obtain ⟨fuel, rfl⟩ := Nat.exists_eq_succ_of_ne_zero (Nat.ne_of_gt (Nat.zero_lt_of_lt hfuel))
  have himage₀ : Encodes (Entry.root :: es) (image.drop 0) := himage
  obtain ⟨rest, hat, hrest, -⟩ := himage₀.headerAt
  -- the first entry is skipped
  have hroot : GoofyOs.unpackEntry vmalloc image 0 initVfs = some (.ok (), initVfs) := by
    have hstr := hat.cString fun c hc => absurd hc List.not_mem_nil
    rw [GoofyOs.unpackEntry, hstr, bind_ok (deref_some _ initVfs)]
    rfl
  have hnext := hat.ustarNext (by decide) hrest.strcmpEq_magic
  rw [unpackUstar, GoofyOs.unpackLoop, bind_ok hroot, hnext]
  show ∃ s', (deref (some _) >>= _) initVfs = _ ∧ _
  rw [bind_ok (deref_some _ initVfs)]
  cases es with
  | nil =>
    refine ⟨initVfs, ?_, Unpacked.initVfs⟩
    cases fuel with
    | zero => rfl
    | succ fuel => rfl
  | cons e es =>
    refine Unpacked.unpackLoop hv Unpacked.initVfs hwf ?_ (Nat.lt_of_succ_lt_succ hfuel)
    rw [hat.drop_next]
    exact hrest

/-- The directory `./a/` and the file `./a/f` of two bytes. -/
def sampleEntries : List Entry :=
  [⟨[[97]], true, .dir⟩, ⟨[[97], [102]], false, .file [49, 50]⟩]

theorem wellFormed_sampleEntries : WellFormed sampleEntries where
  component := by decide
  size := by decide
  nodup := by decide
  parent pre e post h := by
    match pre with
    | [] =>
      obtain ⟨rfl, -⟩ := List.cons.inj h
      exact ⟨[], [97], rfl, Or.inl rfl⟩
    | [e'] =>
      obtain ⟨rfl, htail⟩ := List.cons.inj h
      obtain ⟨rfl, -⟩ := List.cons.inj htail
      exact ⟨[[97]], [102], rfl, Or.inr ⟨_, List.mem_singleton_self _, rfl⟩⟩
    | _ :: _ :: pre => simp [sampleEntries] at h

theorem unpackUstar_sampleEntries :
    ∃ s', unpackUstar vzeroed 3 (encode (Entry.root :: sampleEntries)) initVfs = some (.ok (), s') ∧
      Unpacked s' sampleEntries :=
  unpackUstar_unpacked length_vzeroed wellFormed_sampleEntries (encodes_encode (by decide)) (by decide)

end GoofyOs
