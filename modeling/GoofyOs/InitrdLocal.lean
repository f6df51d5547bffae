import GoofyOs.InitrdBounds

/-!
# What `unpack_ustar` depends on

The bytes that a round of `unpack_ustar` is said to read are all that matters to it: two memories
that agree on them lead to the same next round. A walk that stays inside the module does not depend
on what follows the module.

## Main definitions

* `AgreeOn` — two memories have the same bytes in a list of blocks

## Main results

* `unpackEntry_local`, `ustarNext_local` — a round that returns depends on what it reads
* `trail_roundStep_local` — the whole walk
-/

namespace GoofyOs

open Proc

/-- The memories have the same bytes in the blocks. -/
def AgreeOn (mem mem' : List UInt8) (blocks : List ReadBlock) : Prop :=
  ∀ b ∈ blocks, ∀ k < b.len, mem[(b.start + k).toNat]? = mem'[(b.start + k).toNat]?

variable {vmalloc : VfsState → ℕ → List UInt8} {mem mem' lit str : List UInt8} {fs fs' k off n : ℕ}
  {s s' : VfsState} {name : Name} {fd : File} {blocks blocks' : List ReadBlock} {b : ReadBlock}

/-! ### Blocks -/

theorem AgreeOn.of_subset (h : AgreeOn mem mem' blocks) (hsub : blocks' ⊆ blocks) :
    AgreeOn mem mem' blocks' := fun b hb => h b (hsub hb)

theorem agreeOn_cons : AgreeOn mem mem' (b :: blocks) ↔
    (∀ k < b.len, mem[(b.start + k).toNat]? = mem'[(b.start + k).toNat]?) ∧
      AgreeOn mem mem' blocks := List.forall_mem_cons

/-- The bytes of a block, from an offset on. -/
theorem AgreeOn.drop {len : ℕ} (h : AgreeOn mem mem' blocks) (hb : ⟨off, len⟩ ∈ blocks)
    (hk : k < len) : (mem.drop off)[k]? = (mem'.drop off)[k]? := by
  rw [List.getElem?_drop, List.getElem?_drop]
  exact h _ hb k hk

/-! ### Strings and fields -/

theorem exists_cons_of_head {c : UInt8} (h : (c :: mem)[0]? = mem'[0]?) :
    ∃ tail, mem' = c :: tail := by
  cases mem' with
  | nil => simp at h
  | cons d tail =>
    obtain rfl := Option.some.inj h
    exact ⟨tail, rfl⟩

theorem strcmpEq_local (h : ∀ k < cmpReads mem lit, mem[k]? = mem'[k]?) :
    strcmpEq mem lit = strcmpEq mem' lit := by
  fun_induction cmpReads mem lit generalizing mem' with
  | case1 lit =>
    obtain rfl : mem' = [] := by simpa using (h 0 Nat.one_pos).symm
    rfl
  | case2 c mem =>
    obtain ⟨tail, rfl⟩ := exists_cons_of_head (h 0 Nat.one_pos)
    rfl
  | case3 mem a lit ih =>
    obtain ⟨tail, rfl⟩ := exists_cons_of_head (h 0 (Nat.succ_pos _))
    rw [strcmpEq, strcmpEq, if_pos rfl, if_pos rfl]
    exact ih fun k hk => h (k + 1) (Nat.succ_lt_succ hk)
  | case4 c mem a lit hne =>
    obtain ⟨tail, rfl⟩ := exists_cons_of_head (h 0 Nat.one_pos)
    rw [strcmpEq, strcmpEq, if_neg hne, if_neg hne]

/-- A string with its NUL is at the start of the memory. -/
theorem prefix_of_cString (h : cString mem = some str) :
    (0 : UInt8) ∉ str ∧ str ++ [0] <+: mem ∧ strReads mem = str.length + 1 := by
  rw [cString] at h
  split at h
  · next hmem =>
    obtain rfl := Option.some.inj h
    refine ⟨fun h0 => by simpa using List.mem_takeWhile_imp h0, ?_, rfl⟩
    clear h
    induction mem with
    | nil => simp at hmem
    | cons c mem ih =>
      rw [List.takeWhile_cons]
      split
      · next hc =>
        have hne : c ≠ 0 := by simpa using hc
        rw [List.cons_append, List.prefix_cons_inj]
        exact ih ((List.mem_cons.mp hmem).resolve_left hne.symm)
      · next hc =>
        obtain rfl : c = 0 := by simpa using hc
        exact ⟨mem, rfl⟩
  · simp at h

theorem cString_local (h : ∀ k < strReads mem, mem[k]? = mem'[k]?) (hstr : cString mem = some str) :
    cString mem' = some str := by
  obtain ⟨hzero, hprefix, hlen⟩ := prefix_of_cString hstr
  refine cString_append hzero ?_
  have htake := take_eq_take_iff.mpr h
  have hlen' : (str ++ [0]).length = strReads mem := by rw [hlen, List.length_append]; rfl
  rw [List.prefix_iff_eq_take.mp hprefix, hlen', htake]
  exact List.take_prefix _ _

theorem readBytes_local {m : ℤ} {bytes bytes' : List UInt8}
    (h : ∀ k < m.toNat, (mem.drop off)[k]? = (mem'.drop off)[k]?)
    (hread : readBytes mem off m = some bytes) (hread' : readBytes mem' off m = some bytes') :
    bytes = bytes' := by
  rw [readBytes, Option.ite_none_right_eq_some] at hread hread'
  obtain ⟨-, hbytes⟩ := hread
  obtain ⟨-, hbytes'⟩ := hread'
  rw [← Option.some.inj hbytes, ← Option.some.inj hbytes', take_eq_take_iff.mpr h]

/-! ### One round -/

/-- The bytes of the size are read before everything that depends on them. -/
theorem size_local {size size' : List UInt8} (h : AgreeOn mem mem' blocks)
    (hb : ⟨fs + 124, 11⟩ ∈ blocks) (hsize : readBytes mem (fs + 124) 11 = some size)
    (hsize' : readBytes mem' (fs + 124) 11 = some size') : size = size' := by
  have hb : (⟨(fs + 124 : ℕ), (11 : ℤ).toNat⟩ : ReadBlock) ∈ blocks := hb
  exact readBytes_local (fun k hk => h.drop hb hk) hsize hsize'

theorem ustarNext_eq_some {next : Option ℕ} (h : ustarNext mem fs = some next) :
    ∃ size found, readBytes mem (fs + 124) 11 = some size ∧
      0 ≤ fs + roundedSize (oct2bin size) ∧
      strcmpEq (mem.drop ((fs + roundedSize (oct2bin size)).toNat + 257)) ustar = some found ∧
      next = if found then some (fs + roundedSize (oct2bin size)).toNat else none := by
  rw [ustarNext_eq] at h
  obtain ⟨target, hexamined, h⟩ := Option.bind_eq_some_iff.mp h
  obtain ⟨size, hsize, heq⟩ := Option.bind_eq_some_iff.mp hexamined
  obtain rfl := Option.some.inj heq
  rw [Option.ite_none_left_eq_some] at h
  obtain ⟨hpos, h⟩ := h
  obtain ⟨found, hfound, rfl⟩ := Option.map_eq_some_iff.mp h
  exact ⟨size, found, hsize, Int.not_lt.mp hpos, hfound, rfl⟩

theorem writeSize_local {n n' : ℤ} (h : AgreeOn mem mem' blocks) (hb : ⟨fs + 124, 11⟩ ∈ blocks)
    (hn : writeSize mem fs = some n) (hn' : writeSize mem' fs = some n') : n = n' := by
  obtain ⟨size, hsize, heq⟩ := Option.bind_eq_some_iff.mp hn
  obtain ⟨size', hsize', heq'⟩ := Option.bind_eq_some_iff.mp hn'
  obtain rfl := size_local h hb hsize hsize'
  exact Option.some.inj (heq.symm.trans heq')

/-- The next header depends on the size, and on what is compared of the magic. -/
theorem ustarNext_local {next next' : Option ℕ} (h : AgreeOn mem mem' (nextReads mem fs))
    (hnext : ustarNext mem fs = some next) (hnext' : ustarNext mem' fs = some next') :
    next = next' := by
  obtain ⟨size, found, hsize, hpos, hfound, rfl⟩ := ustarNext_eq_some hnext
  obtain ⟨size', found', hsize', -, hfound', rfl⟩ := ustarNext_eq_some hnext'
  obtain rfl := size_local h List.mem_cons_self hsize hsize'
  have hexamined : examined mem fs = some (fs + roundedSize (oct2bin size)) := by
    rw [examined, hsize]
    rfl
  generalize fs + roundedSize (oct2bin size) = target at hpos hfound hfound' hexamined
  obtain ⟨n, rfl⟩ := Int.eq_ofNat_of_zero_le hpos
  have hblock : ⟨(n + 257 : ℕ), cmpReads (mem.drop (n + 257)) ustar⟩ ∈ nextReads mem fs := by
    rw [nextReads, hexamined]
    exact List.mem_cons_of_mem _ (List.mem_singleton_self _)
  have hcmp : strcmpEq (mem.drop (n + 257)) ustar = strcmpEq (mem'.drop (n + 257)) ustar :=
    strcmpEq_local fun k hk => h.drop hblock hk
  rw [Int.toNat_natCast] at hfound hfound'
  obtain rfl : found = found' := Option.some.inj (hfound.symm.trans (hcmp.trans hfound'))
  rfl

/-- Writing to what is no regular file does not look at the bytes. -/
theorem vfsWrite_of_not_copies {bytes bytes' : List UInt8} (h : copies fd s = false) :
    vfsWrite vmalloc fd bytes s = vfsWrite vmalloc fd bytes' s := by
  rw [vfsWrite, vfsWrite]
  rcases hvnode : fileVnode fd s with - | ⟨e | v, s₁⟩
  · rw [bind_none hvnode, bind_none hvnode]
  · rw [bind_error hvnode, bind_error hvnode]
  · rw [bind_ok hvnode, bind_ok hvnode]
    refine bind_congr_apply ?_
    rw [tmpfsWrite, tmpfsWrite]
    rcases hx : getVnode v s₁ with - | ⟨e | x, s₂⟩
    · rw [bind_none hx, bind_none hx]
    · rw [bind_error hx, bind_error hx]
    · have hreg : ¬ sIsreg x.mode = true := by
        rw [copies, bind_ok hvnode, hx] at h
        simpa using h
      rw [bind_ok hx, bind_ok hx, if_pos hreg, if_pos hreg]

/-- What is left to do once the file was opened. -/
theorem unpackFile_opened (h : FileOpened name s fd s') :
    unpackFile vmalloc mem fs name s = (do
      let n ← deref (writeSize mem fs)
      let buf ← deref (readBytes mem (fs + 512) n)
      let _ ← attempt (vfsWrite vmalloc fd buf)
      pure () : VfsM Unit) s' := by
  obtain ⟨s₁, hcreate, hopen⟩ := h
  rw [unpackFile_eq, bind_ok (attempt_of_eq hcreate)]
  show (attempt (vfsOpen name none 0) >>= _) s₁ = _
  rw [bind_ok (attempt_of_eq hopen)]
  exact bind_ok (deref_some fd s')

theorem fileReads_opened (h : FileOpened name s fd s') : fileReads vmalloc mem fs name s =
    ⟨fs + 124, 11⟩ :: (dataReads mem fs fd s' ++ sizeStringReads vmalloc mem fs name s) := by
  obtain ⟨s₁, hcreate, hopen⟩ := h
  rw [fileReads, hcreate]
  simp only [hopen]

theorem deref_bind_eq_some {α : Type} {p : Option α} {f : α → VfsM Unit}
    {r : Except ℤ Unit × VfsState} (h : (deref p >>= f) s = some r) :
    ∃ a, p = some a ∧ f a s = some r := by
  cases p with
  | none => exact absurd h (by rw [bind_none rfl]; simp)
  | some a => exact ⟨a, rfl, h⟩

/-- A file that is not opened does not depend on the memory. -/
theorem unpackFile_of_not_opened (h : ∀ fd s', ¬ FileOpened name s fd s') :
    unpackFile vmalloc mem fs name s = unpackFile vmalloc mem' fs name s := by
  rw [unpackFile_eq, unpackFile_eq]
  rcases hcreate : vfsCreate name none 0 s with - | ⟨e | u, s₁⟩
  · have hnone : attempt (vfsCreate name none 0) s = none := by rw [attempt, hcreate]; rfl
    rw [bind_none hnone, bind_none hnone]
  · rw [bind_ok (attempt_of_eq hcreate), bind_ok (attempt_of_eq hcreate)]
    rfl
  · rw [bind_ok (attempt_of_eq hcreate), bind_ok (attempt_of_eq hcreate)]
    show (attempt (vfsOpen name none 0) >>= _) s₁ = (attempt (vfsOpen name none 0) >>= _) s₁
    rcases hopen : vfsOpen name none 0 s₁ with - | ⟨e | fd, s₂⟩
    · have hnone : attempt (vfsOpen name none 0) s₁ = none := by rw [attempt, hopen]; rfl
      rw [bind_none hnone, bind_none hnone]
    · rw [bind_ok (attempt_of_eq hopen), bind_ok (attempt_of_eq hopen)]
      rfl
    · exact absurd ⟨s₁, hcreate, hopen⟩ (h fd s₂)

/-- The bytes that are copied, or looked at by nobody. -/
theorem vfsWrite_local {n : ℤ} {buf buf' : List UInt8}
    (h : AgreeOn mem mem' (dataReads mem fs fd s)) (hn : writeSize mem fs = some n)
    (hbuf : readBytes mem (fs + 512) n = some buf)
    (hbuf' : readBytes mem' (fs + 512) n = some buf') :
    vfsWrite vmalloc fd buf s = vfsWrite vmalloc fd buf' s := by
  cases hc : copies fd s with
  | false => exact vfsWrite_of_not_copies hc
  | true =>
    obtain ⟨-, hmax⟩ := writeSize_bounds hn
    have hpos : 0 ≤ n := by
      rw [readBytes, Option.ite_none_right_eq_some] at hbuf
      exact hbuf.1.1
    have hlen : (n % 2 ^ 64).toNat = n.toNat := by rw [Int.emod_eq_of_lt hpos (by omega)]
    have hblock : ⟨(fs + 512 : ℕ), n.toNat⟩ ∈ dataReads mem fs fd s := by
      rw [dataReads, hn]
      simp only [hc, if_true, hlen]
      exact List.mem_singleton_self _
    rw [readBytes_local (fun k hk => h.drop hblock hk) hbuf hbuf']

/-- A file depends on its size and on the bytes that are copied. -/
theorem unpackFile_local {r r' : Except ℤ Unit × VfsState}
    (h : AgreeOn mem mem' (fileReads vmalloc mem fs name s))
    (hrun : unpackFile vmalloc mem fs name s = some r)
    (hrun' : unpackFile vmalloc mem' fs name s = some r') : r = r' := by
  by_cases hopened : ∃ fd s', FileOpened name s fd s'
  · obtain ⟨fd, s', hopened⟩ := hopened
    rw [unpackFile_opened hopened] at hrun hrun'
    rw [fileReads_opened hopened] at h
    obtain ⟨n, hn, hrun⟩ := deref_bind_eq_some hrun
    obtain ⟨n', hn', hrun'⟩ := deref_bind_eq_some hrun'
    obtain rfl : n = n' := writeSize_local h List.mem_cons_self hn hn'
    obtain ⟨buf, hbuf, hrun⟩ := deref_bind_eq_some hrun
    obtain ⟨buf', hbuf', hrun'⟩ := deref_bind_eq_some hrun'
    have hdata : AgreeOn mem mem' (dataReads mem fs fd s') := h.of_subset fun b hb =>
      List.mem_cons_of_mem _ (List.mem_append_left _ hb)
    have hattempt :
        attempt (vfsWrite vmalloc fd buf) s' = attempt (vfsWrite vmalloc fd buf') s' := by
      rw [attempt, attempt, vfsWrite_local hdata hn hbuf hbuf']
    rw [bind_congr_apply hattempt] at hrun
    exact Option.some.inj (hrun.symm.trans hrun')
  · have hopened : ∀ fd s', ¬ FileOpened name s fd s' := fun fd s' h => hopened ⟨fd, s', h⟩
    rw [unpackFile_of_not_opened hopened] at hrun
    exact Option.some.inj (hrun.symm.trans hrun')

/-- **One entry** depends on the bytes that are read. -/
theorem unpackEntry_local {r r' : Except ℤ Unit × VfsState}
    (h : AgreeOn mem mem' (entryReads vmalloc mem fs s))
    (hrun : unpackEntry vmalloc mem fs s = some r)
    (hrun' : unpackEntry vmalloc mem' fs s = some r') : r = r' := by
  rw [unpackEntry] at hrun hrun'
  obtain ⟨name, hname, hrun⟩ := deref_bind_eq_some hrun
  obtain ⟨name', hname', hrun'⟩ := deref_bind_eq_some hrun'
  have hblock : ⟨fs, strReads (mem.drop fs)⟩ ∈ entryReads vmalloc mem fs s := List.mem_cons_self
  obtain rfl : name = name' :=
    Option.some.inj ((cString_local (fun k hk => h.drop hblock hk) hname).symm.trans hname')
  by_cases hdot : name = [46, 47]
  · rw [if_pos hdot] at hrun hrun'
    exact Option.some.inj (hrun.symm.trans hrun')
  · rw [if_neg hdot] at hrun hrun'
    obtain ⟨typeflag, hflag, hrun⟩ := deref_bind_eq_some hrun
    obtain ⟨typeflag', hflag', hrun'⟩ := deref_bind_eq_some hrun'
    rw [entryReads, hname] at h
    simp only [if_neg hdot, hflag] at h
    obtain ⟨-, h⟩ := agreeOn_cons.mp h
    obtain ⟨htype, h⟩ := agreeOn_cons.mp h
    obtain rfl : typeflag = typeflag' :=
      Option.some.inj (hflag.symm.trans ((htype 0 Nat.one_pos).trans hflag'))
    by_cases hreg : typeflag = ustarReg2 ∨ typeflag = ustarReg
    · rw [if_neg (ne_ustarDir hreg), if_pos hreg] at h hrun hrun'
      exact unpackFile_local h hrun hrun'
    · rw [if_neg hreg] at hrun hrun'
      exact Option.some.inj (hrun.symm.trans hrun')

/-- **One round** depends on the bytes that are read. -/
theorem roundStep_local {x x' : ℕ × VfsState} (h : AgreeOn mem mem' (roundReads vmalloc mem fs s))
    (hstep : roundStep vmalloc mem (fs, s) = some x)
    (hstep' : roundStep vmalloc mem' (fs, s) = some x') : x = x' := by
  obtain ⟨next, s₁⟩ := x
  obtain ⟨next', s₁'⟩ := x'
  obtain ⟨hentry, hnext⟩ := roundStep_eq_some_iff.mp hstep
  obtain ⟨hentry', hnext'⟩ := roundStep_eq_some_iff.mp hstep'
  have hs : s₁ = s₁' := congrArg Prod.snd (unpackEntry_local
    (h.of_subset (List.subset_append_left _ _)) hentry hentry')
  rw [roundReads, hentry] at h
  have hnexts : some next = some next' := ustarNext_local
    (h.of_subset (List.subset_append_right _ _)) (Option.join_eq_some_iff.mp hnext)
    (Option.join_eq_some_iff.mp hnext')
  rw [hs, Option.some.inj hnexts]

/-! ### The walk -/

/-- Blocks in the module do not depend on what follows it. -/
theorem agreeOn_of_inside {image : List UInt8} (rest rest' : List UInt8)
    (h : ∀ b ∈ blocks, b.Inside image.length) :
    AgreeOn (image ++ rest) (image ++ rest') blocks := by
  intro b hb k hk
  obtain ⟨hpos, hlt⟩ := h b hb k hk
  rw [List.getElem?_append_left (by omega), List.getElem?_append_left (by omega)]

/-- **The walk** does not depend on what follows the module, as long as it stays inside. -/
theorem trail_roundStep_local {image : List UInt8} (rest rest' : List UInt8) {x x' : ℕ × VfsState}
    (hin : ∀ k fs s₁, trail (roundStep vmalloc (image ++ rest)) (0, s) k = some (fs, s₁) →
      ∀ b ∈ roundReads vmalloc (image ++ rest) fs s₁, b.Inside image.length)
    (h : trail (roundStep vmalloc (image ++ rest)) (0, s) k = some x)
    (h' : trail (roundStep vmalloc (image ++ rest')) (0, s) k = some x') : x = x' := by
  induction k generalizing x x' with
  | zero => exact Option.some.inj (h.symm.trans h')
  | succ k ih =>
    obtain ⟨y, hy, hstep⟩ := Option.bind_eq_some_iff.mp h
    obtain ⟨y', hy', hstep'⟩ := Option.bind_eq_some_iff.mp h'
    obtain rfl := ih hy hy'
    obtain ⟨fs, s₁⟩ := y
    exact roundStep_local (agreeOn_of_inside rest rest' (hin k fs s₁ hy)) hstep hstep'

end GoofyOs
