import GoofyOs.InitrdRun
import GoofyOs.InitrdSize
import GoofyOs.InitrdWalk
import Mathlib.Data.List.TakeWhile

/-!
# What `unpack_ustar` reads

`unpack_ustar` is told the length of the module, and does not use it. The bytes that it reads are
listed here, header by header, in a memory that goes on after the module.

## Main definitions

* `entryReads`, `nextReads`, `roundReads` — the bytes that a round of the loop reads
* `roundStep` — from one round to the next
* `HeaderFits` — the module is long enough for a header

## Main results

* `unpackLoop_roundStep` — the rounds are those of the loop
* `roundReads_inside_iff` — one round
* `unpackUstar_inside_iff` — the whole walk
* `Encodes.roundReads_inside` — archives as `tar` makes them are long enough
-/

namespace GoofyOs

open Proc

/-- Bytes that are read one after another. The offset is from the start of the module. -/
structure ReadBlock where
  start : ℤ
  len : ℕ

/-- Only offsets in the module are read. -/
def ReadBlock.Inside (b : ReadBlock) (length : ℕ) : Prop :=
  ∀ k < b.len, 0 ≤ b.start + k ∧ b.start + k < length

/-- The number of bytes of a string, with its NUL. `printk` would stop after 1024 characters, which
are more than its buffer holds. -/
def strReads (mem : List UInt8) : ℕ := (mem.takeWhile (· ≠ 0)).length + 1

/-- The number of bytes that `strcmp` looks at, for a literal without its NUL. -/
def cmpReads : List UInt8 → List UInt8 → ℕ
  | [], _ => 1
  | _ :: _, [] => 1
  | c :: mem, a :: lit => if c = a then cmpReads mem lit + 1 else 1

/-- `ustar_next`: the size, and the magic of the header it examines. -/
def nextReads (mem : List UInt8) (header : ℕ) : List ReadBlock :=
  ⟨header + 124, 11⟩ ::
    match examined mem header with
    | none => []
    | some next => [⟨next + 257, cmpReads (mem.drop (next + 257).toNat) ustar⟩]

/-- `tmpfs_write` gets as far as copying the bytes: the file is a regular one. -/
def copies (fd : File) (s : VfsState) : Bool :=
  match (do let vnode ← fileVnode fd; getVnode vnode : VfsM Vnode) s with
  | some (.ok x, _) => sIsreg x.mode
  | _ => false

/-- The bytes that are copied. Their number is a `size_t` to `memcpy`. -/
def dataReads (mem : List UInt8) (fs : ℕ) (fd : File) (s : VfsState) : List ReadBlock :=
  match writeSize mem fs with
  | some n => if copies fd s then [⟨fs + 512, (n % 2 ^ 64).toNat⟩] else []
  | none => []

/-- The size again, as a string that is printed once the data was written. -/
def sizeStringReads (vmalloc : VfsState → ℕ → List UInt8) (mem : List UInt8) (fs : ℕ) (name : Name)
    (s : VfsState) : List ReadBlock :=
  if (unpackFile vmalloc mem fs name s).isSome then [⟨fs + 124, strReads (mem.drop (fs + 124))⟩]
  else []

/-- The case of a regular file, after its name. -/
def fileReads (vmalloc : VfsState → ℕ → List UInt8) (mem : List UInt8) (fs : ℕ) (name : Name)
    (s : VfsState) : List ReadBlock :=
  match vfsCreate name none 0 s with
  | some (.ok _, s₁) =>
    match vfsOpen name none 0 s₁ with
    | some (.ok fd, s₂) =>
      ⟨fs + 124, 11⟩ :: (dataReads mem fs fd s₂ ++ sizeStringReads vmalloc mem fs name s)
    | some (.error _, _) => [⟨fs + 124, 11⟩]
    | none => []
  | _ => []

/-- The body of the loop. The name is printed, compared and passed on. -/
def entryReads (vmalloc : VfsState → ℕ → List UInt8) (mem : List UInt8) (fs : ℕ) (s : VfsState) :
    List ReadBlock :=
  ⟨fs, strReads (mem.drop fs)⟩ ::
    match cString (mem.drop fs) with
    | none => []
    | some name =>
      if name = [46, 47] then []
      else
        ⟨fs + 156, 1⟩ ::
          match mem[fs + 156]? with
          | none => []
          | some typeflag =>
            if typeflag = ustarDir then []
            else if typeflag = ustarReg2 ∨ typeflag = ustarReg then fileReads vmalloc mem fs name s
            else []

/-- One round of the loop. `ustar_next` is called if the body returns. -/
def roundReads (vmalloc : VfsState → ℕ → List UInt8) (mem : List UInt8) (fs : ℕ) (s : VfsState) :
    List ReadBlock :=
  entryReads vmalloc mem fs s ++
    if (unpackEntry vmalloc mem fs s).isSome then nextReads mem fs else []

/-- From the header of one round and the state before it to those of the next round. -/
def roundStep (vmalloc : VfsState → ℕ → List UInt8) (mem : List UInt8) :
    ℕ × VfsState → Option (ℕ × VfsState)
  | (fs, s) =>
    match unpackEntry vmalloc mem fs s with
    | some (.ok _, s') => (nextHeader mem fs).map fun next => (next, s')
    | _ => none

/-- A file was created and opened in the state `s'`. -/
def FileOpened (name : Name) (s : VfsState) (fd : File) (s' : VfsState) : Prop :=
  ∃ s₁, vfsCreate name none 0 s = some (.ok (), s₁) ∧ vfsOpen name none 0 s₁ = some (.ok fd, s')

/-- The header is one of a regular file, which was created and opened. -/
def EntryOpened (mem : List UInt8) (fs : ℕ) (s : VfsState) (fd : File) (s' : VfsState) : Prop :=
  ∃ name typeflag, cString (mem.drop fs) = some name ∧ name ≠ [46, 47] ∧
    mem[fs + 156]? = some typeflag ∧ (typeflag = ustarReg2 ∨ typeflag = ustarReg) ∧
    FileOpened name s fd s'

/-- The last field of a header that is read is the type flag, or the size if the name is `./`. -/
def fieldsEnd (mem : List UInt8) (fs : ℕ) : ℕ :=
  if cString (mem.drop fs) = some [46, 47] then fs + 135 else fs + 157

/-- The module is long enough for a header: for its name, the data of a file, the string that its
size is printed as, and what is compared of the magic of the next header. A negative size is a huge
one. -/
structure HeaderFits (vmalloc : VfsState → ℕ → List UInt8) (mem : List UInt8) (length fs : ℕ)
    (s : VfsState) : Prop where
  name : fs + strReads (mem.drop fs) ≤ length
  data : ∀ fd s' n, EntryOpened mem fs s fd s' → copies fd s' → writeSize mem fs = some n →
    n = 0 ∨ fs + 512 + n % 2 ^ 64 ≤ length
  sizeString : ∀ fd s', EntryOpened mem fs s fd s' → (unpackEntry vmalloc mem fs s).isSome →
    fs + 124 + strReads (mem.drop (fs + 124)) ≤ length
  next : ∀ target, (unpackEntry vmalloc mem fs s).isSome → examined mem fs = some target →
    0 ≤ target + 257 ∧ target + 257 + cmpReads (mem.drop (target + 257).toNat) ustar ≤ length

variable {vmalloc : VfsState → ℕ → List UInt8} {mem : List UInt8} {length fs k fuel : ℕ}
  {s s' : VfsState} {name : Name} {fd : File} {start n : ℤ}

/-! ### Blocks -/

theorem inside_iff {len : ℕ} :
    ReadBlock.Inside ⟨start, len⟩ length ↔ len = 0 ∨ 0 ≤ start ∧ start + len ≤ length := by
  constructor
  · intro h
    cases len with
    | zero => exact Or.inl rfl
    | succ len =>
      have hfirst := h 0 (Nat.succ_pos len)
      have hlast := h len (Nat.lt_succ_self len)
      simp only at hfirst hlast
      exact Or.inr ⟨by omega, by omega⟩
  · intro h k hk
    simp only at hk ⊢
    omega

theorem cmpReads_pos (mem lit : List UInt8) : 0 < cmpReads mem lit := by
  fun_cases cmpReads mem lit <;> omega

theorem forall_nextReads_iff :
    (∀ b ∈ nextReads mem fs, b.Inside length) ↔ fs + 135 ≤ length ∧
      ∀ target, examined mem fs = some target → 0 ≤ target + 257 ∧
        target + 257 + cmpReads (mem.drop (target + 257).toNat) ustar ≤ length := by
  rw [nextReads, List.forall_mem_cons, inside_iff]
  refine and_congr (by omega) ?_
  cases examined mem fs with
  | none => simp
  | some target =>
    have hpos := cmpReads_pos (mem.drop (target + 257).toNat) ustar
    simp only [List.forall_mem_singleton, inside_iff, Option.some.injEq, forall_eq']
    omega

theorem writeSize_bounds (h : writeSize mem fs = some n) : -2 ^ 31 ≤ n ∧ n < 2 ^ 31 := by
  obtain ⟨size, -, hn⟩ := Option.bind_eq_some_iff.mp h
  obtain rfl := Option.some.inj hn
  rw [oct2bin_eq]
  exact asInt_bounds _

theorem forall_dataReads_iff :
    (∀ b ∈ dataReads mem fs fd s, b.Inside length) ↔
      ∀ n, copies fd s → writeSize mem fs = some n → n = 0 ∨ fs + 512 + n % 2 ^ 64 ≤ length := by
  rw [dataReads]
  cases hn : writeSize mem fs with
  | none => simp
  | some n =>
    obtain ⟨hmin, hmax⟩ := writeSize_bounds hn
    by_cases hc : copies fd s
    · simp only [hc, if_true, List.forall_mem_singleton, inside_iff, Option.some.injEq,
        forall_eq', true_implies]
      omega
    · simp [hc]

theorem fileOpened_iff {s₁ : VfsState} (h : vfsCreate name none 0 s = some (.ok (), s₁)) :
    FileOpened name s fd s' ↔ vfsOpen name none 0 s₁ = some (.ok fd, s') := by
  constructor
  · rintro ⟨s₂, hcreate, hopen⟩
    obtain rfl : s₁ = s₂ := congrArg Prod.snd (Option.some.inj (h.symm.trans hcreate))
    exact hopen
  · exact fun hopen => ⟨s₁, h, hopen⟩

theorem forall_sizeStringReads_iff :
    (∀ b ∈ sizeStringReads vmalloc mem fs name s, b.Inside length) ↔
      ((unpackFile vmalloc mem fs name s).isSome →
        fs + 124 + strReads (mem.drop (fs + 124)) ≤ length) := by
  have hpos : 0 < strReads (mem.drop (fs + 124)) := Nat.succ_pos _
  rw [sizeStringReads]
  split
  · next hsome =>
    simp only [List.forall_mem_singleton, inside_iff, hsome, true_implies]
    omega
  · next hnone => simp [hnone]

theorem forall_fileReads_iff (hfields : fs + 135 ≤ length) :
    (∀ b ∈ fileReads vmalloc mem fs name s, b.Inside length) ↔
      ∀ fd s', FileOpened name s fd s' →
        (∀ n, copies fd s' → writeSize mem fs = some n → n = 0 ∨ fs + 512 + n % 2 ^ 64 ≤ length) ∧
        ((unpackFile vmalloc mem fs name s).isSome →
          fs + 124 + strReads (mem.drop (fs + 124)) ≤ length) := by
  have hsize : ReadBlock.Inside ⟨fs + 124, 11⟩ length := inside_iff.mpr (by omega)
  rw [fileReads]
  rcases hcreate : vfsCreate name none 0 s with - | ⟨e | u, s₁⟩
  · refine iff_of_true (by simp) ?_
    rintro fd s' ⟨s₁, hok, -⟩
    exact absurd (hcreate.symm.trans hok) (by simp)
  · refine iff_of_true (by simp) ?_
    rintro fd s' ⟨s₂, hok, -⟩
    exact absurd (hcreate.symm.trans hok) (by simp)
  · simp only [fileOpened_iff hcreate]
    rcases vfsOpen name none 0 s₁ with - | ⟨e | fd, s₂⟩
    · simp
    · simp [hsize]
    · simp only [Option.some.injEq, Prod.mk.injEq, Except.ok.injEq, and_imp, List.forall_mem_cons,
        List.forall_mem_append]
      rw [and_iff_right hsize, forall_dataReads_iff, forall_sizeStringReads_iff]
      constructor
      · rintro h _ _ rfl rfl
        exact h
      · exact fun h => h fd s₂ rfl rfl

/-! ### One round -/

theorem strReads_eq (h : cString mem = none) : strReads mem = mem.length + 1 := by
  have hnul : (0 : UInt8) ∉ mem := by
    intro hmem
    rw [cString, if_pos hmem] at h
    simp at h
  have hall : mem.takeWhile (· ≠ 0) = mem := by
    rw [List.takeWhile_eq_self_iff]
    intro a ha
    have hne : a ≠ 0 := fun h0 => hnul (h0 ▸ ha)
    simpa using hne
  rw [strReads, hall]

theorem nameBlock_inside_iff :
    ReadBlock.Inside ⟨fs, strReads (mem.drop fs)⟩ length ↔
      fs + strReads (mem.drop fs) ≤ length := by
  have hpos : 0 < strReads (mem.drop fs) := Nat.succ_pos _
  rw [inside_iff]
  omega

/-- A name that does not end in memory does not end in the module. -/
theorem exists_cString (hlen : length ≤ mem.length) (h : fs + strReads (mem.drop fs) ≤ length) :
    ∃ name, cString (mem.drop fs) = some name := by
  rw [← Option.ne_none_iff_exists']
  intro hnone
  rw [strReads_eq hnone, List.length_drop] at h
  omega

theorem entryOpened_iff (h : cString (mem.drop fs) = some name) :
    EntryOpened mem fs s fd s' ↔ name ≠ [46, 47] ∧ ∃ typeflag, mem[fs + 156]? = some typeflag ∧
      (typeflag = ustarReg2 ∨ typeflag = ustarReg) ∧ FileOpened name s fd s' := by
  constructor
  · rintro ⟨name', typeflag, hname, hne, hflag, hreg, hopened⟩
    obtain rfl := Option.some.inj (h.symm.trans hname)
    exact ⟨hne, typeflag, hflag, hreg, hopened⟩
  · rintro ⟨hne, typeflag, hflag, hreg, hopened⟩
    exact ⟨name, typeflag, h, hne, hflag, hreg, hopened⟩

theorem unpackEntry_dotSlash (h : cString (mem.drop fs) = some [46, 47]) :
    unpackEntry vmalloc mem fs s = some (.ok (), s) := by
  rw [unpackEntry, h, bind_ok (deref_some _ s), if_pos rfl]
  rfl

theorem unpackEntry_file {typeflag : UInt8} (h : cString (mem.drop fs) = some name)
    (hne : name ≠ [46, 47]) (hflag : mem[fs + 156]? = some typeflag)
    (hreg : typeflag = ustarReg2 ∨ typeflag = ustarReg) :
    unpackEntry vmalloc mem fs s = unpackFile vmalloc mem fs name s := by
  rw [unpackEntry, h, bind_ok (deref_some name s), if_neg hne, hflag,
    bind_ok (deref_some typeflag s), if_neg (ne_ustarDir hreg), if_pos hreg]

theorem forall_entryReads_iff (hlen : length ≤ mem.length)
    (h : cString (mem.drop fs) = some name) :
    (∀ b ∈ entryReads vmalloc mem fs s, b.Inside length) ↔
      fs + strReads (mem.drop fs) ≤ length ∧ (name ≠ [46, 47] → fs + 157 ≤ length) ∧
      ∀ fd s', EntryOpened mem fs s fd s' →
        (∀ n, copies fd s' → writeSize mem fs = some n → n = 0 ∨ fs + 512 + n % 2 ^ 64 ≤ length) ∧
        ((unpackEntry vmalloc mem fs s).isSome →
          fs + 124 + strReads (mem.drop (fs + 124)) ≤ length) := by
  rw [entryReads, List.forall_mem_cons, nameBlock_inside_iff]
  simp only [entryOpened_iff h, h]
  refine and_congr_right fun _ => ?_
  by_cases hname : name = [46, 47]
  · simp [hname]
  · have htype : ReadBlock.Inside ⟨fs + 156, 1⟩ length ↔ fs + 157 ≤ length := by
      rw [inside_iff]
      omega
    rw [if_neg hname, List.forall_mem_cons, htype]
    simp only [hname, ne_eq, not_false_eq_true, true_implies, true_and]
    refine and_congr_right fun hfields => ?_
    obtain ⟨typeflag, hflag⟩ : ∃ typeflag, mem[fs + 156]? = some typeflag :=
      ⟨_, List.getElem?_eq_getElem (by omega)⟩
    simp only [hflag, Option.some.injEq, exists_eq_left']
    by_cases hreg : typeflag = ustarReg2 ∨ typeflag = ustarReg
    · rw [if_neg (ne_ustarDir hreg), if_pos hreg, forall_fileReads_iff (by omega),
        unpackEntry_file h hname hflag hreg]
      simp only [hreg, true_and]
    · simp [hreg]

/-- **One round** reads only in the module just when the module is long enough for its header, up to
the last field that is read. -/
theorem roundReads_inside_iff (hlen : length ≤ mem.length) :
    (∀ b ∈ roundReads vmalloc mem fs s, b.Inside length) ↔
      fieldsEnd mem fs ≤ length ∧ HeaderFits vmalloc mem length fs s := by
  rw [roundReads, List.forall_mem_append, fieldsEnd]
  constructor
  · rintro ⟨hentry, hnext⟩
    have hstr := nameBlock_inside_iff.mp (hentry _ List.mem_cons_self)
    obtain ⟨name, h⟩ := exists_cString hlen hstr
    obtain ⟨-, hfields, hfile⟩ := (forall_entryReads_iff hlen h).mp hentry
    have hnext : (unpackEntry vmalloc mem fs s).isSome → _ := fun hsome =>
      forall_nextReads_iff.mp fun b hb => hnext b (List.mem_ite_nil_right.mpr ⟨hsome, hb⟩)
    refine ⟨?_, hstr, fun fd s' n hfd hc => (hfile fd s' hfd).1 n hc,
      fun fd s' hfd => (hfile fd s' hfd).2, fun target hsome => (hnext hsome).2 target⟩
    split
    · next hdot => exact (hnext (by rw [unpackEntry_dotSlash hdot]; rfl)).1
    · next hdot =>
      rw [h, Option.some_inj] at hdot
      exact hfields hdot
  · rintro ⟨hfields, hfits⟩
    obtain ⟨name, h⟩ := exists_cString hlen hfits.name
    refine ⟨(forall_entryReads_iff hlen h).mpr ⟨hfits.name, fun hname => ?_, fun fd s' hfd =>
      ⟨fun n hc => hfits.data fd s' n hfd hc, hfits.sizeString fd s' hfd⟩⟩, fun b hb => ?_⟩
    · rwa [if_neg (by rwa [h, Option.some_inj])] at hfields
    · obtain ⟨hsome, hb⟩ := List.mem_ite_nil_right.mp hb
      refine forall_nextReads_iff.mpr ⟨?_, fun target => hfits.next target hsome⟩ b hb
      split at hfields
      · exact hfields
      · omega

/-! ### The walk -/

/-- From one round to the next. -/
theorem roundStep_eq_some_iff {fs' : ℕ} : roundStep vmalloc mem (fs, s) = some (fs', s') ↔
    unpackEntry vmalloc mem fs s = some (.ok (), s') ∧ nextHeader mem fs = some fs' := by
  rw [roundStep]
  rcases unpackEntry vmalloc mem fs s with - | ⟨e | u, s₁⟩
  · simp
  · simp
  · constructor
    · intro h
      obtain ⟨next, hnext, heq⟩ := Option.map_eq_some_iff.mp h
      obtain ⟨rfl, rfl⟩ := Prod.mk.inj heq
      exact ⟨rfl, hnext⟩
    · rintro ⟨hentry, hnext⟩
      obtain rfl : s₁ = s' := congrArg Prod.snd (Option.some.inj hentry)
      exact Option.map_eq_some_iff.mpr ⟨fs', hnext, rfl⟩

/-- The rounds are those of the loop. -/
theorem unpackLoop_roundStep {fs' : ℕ}
    (h : trail (roundStep vmalloc mem) (fs, s) k = some (fs', s')) (fuel : ℕ) :
    unpackLoop vmalloc mem (fuel + k) (some fs) s = unpackLoop vmalloc mem fuel (some fs') s' := by
  induction k generalizing fs s with
  | zero =>
    obtain ⟨rfl, rfl⟩ := Prod.mk.inj (Option.some.inj h)
    rfl
  | succ k ih =>
    rw [trail_succ'] at h
    obtain ⟨⟨fs₁, s₁⟩, hstep, h⟩ := Option.bind_eq_some_iff.mp h
    obtain ⟨hentry, hnext⟩ := roundStep_eq_some_iff.mp hstep
    rw [← ih h, ← Nat.add_assoc, unpackLoop, bind_ok hentry, Option.join_eq_some_iff.mp hnext,
      deref_some_bind]

theorem cmpReads_eq {lit : List UInt8} (h : strcmpEq mem lit = some true) :
    cmpReads mem lit = lit.length + 1 := by
  fun_induction cmpReads mem lit with
  | case1 lit => simp [strcmpEq] at h
  | case2 c mem => rfl
  | case3 mem a lit ih =>
    rw [strcmpEq, if_pos rfl] at h
    rw [ih h, List.length_cons]
  | case4 c mem a lit hne =>
    rw [strcmpEq, if_neg hne] at h
    simp at h

/-- The magic of a header is behind the fields that are read. A header that was found by its magic
in the module has these fields in the module. -/
theorem HeaderFits.fieldsEnd_le {next : ℕ} (h : HeaderFits vmalloc mem length fs s)
    (hsome : (unpackEntry vmalloc mem fs s).isSome) (hnext : nextHeader mem fs = some next) :
    fieldsEnd mem next ≤ length := by
  obtain ⟨size, hsize⟩ := exists_size hnext
  obtain ⟨htarget, -, hfound⟩ := (nextHeader_eq_some_iff hsize).mp hnext
  have hexamined : examined mem fs = some (next : ℤ) := by
    rw [examined, hsize, ← htarget, ← oct2bin_eq]
    rfl
  obtain ⟨-, hmagic⟩ := h.next next hsome hexamined
  have hlen : cmpReads (mem.drop (next + 257)) ustar = 6 := cmpReads_eq hfound
  have hnat : ((next : ℤ) + 257).toNat = next + 257 := rfl
  rw [hnat, hlen] at hmagic
  rw [fieldsEnd]
  split
  · omega
  · omega

/-- **Staying inside the module.** Whatever follows the module in memory, and whatever the state of
the file system is at the start, `unpack_ustar` reads only in the module just when the module holds
the fields of the first header, and is long enough for every header that is met. -/
theorem unpackUstar_inside_iff (vmalloc : VfsState → ℕ → List UInt8) (image rest : List UInt8)
    (s₀ : VfsState) :
    (∀ k fs s, trail (roundStep vmalloc (image ++ rest)) (0, s₀) k = some (fs, s) →
      ∀ b ∈ roundReads vmalloc (image ++ rest) fs s, b.Inside image.length) ↔
    fieldsEnd (image ++ rest) 0 ≤ image.length ∧
      ∀ k fs s, trail (roundStep vmalloc (image ++ rest)) (0, s₀) k = some (fs, s) →
        HeaderFits vmalloc (image ++ rest) image.length fs s := by
  have hlen : image.length ≤ (image ++ rest).length := (List.sublist_append_left _ _).length_le
  simp only [roundReads_inside_iff hlen]
  constructor
  · exact fun h => ⟨(h 0 0 s₀ rfl).1, fun k fs s hround => (h k fs s hround).2⟩
  · rintro ⟨hfirst, h⟩ k fs s hround
    refine ⟨?_, h k fs s hround⟩
    cases k with
    | zero =>
      obtain ⟨rfl, rfl⟩ := Prod.mk.inj (Option.some.inj hround)
      exact hfirst
    | succ k =>
      obtain ⟨⟨fs₁, s₁⟩, hbefore, hstep⟩ := Option.bind_eq_some_iff.mp hround
      obtain ⟨hentry, hnext⟩ := roundStep_eq_some_iff.mp hstep
      exact (h k fs₁ s₁ hbefore).fieldsEnd_le (by rw [hentry]; rfl) hnext

/-- A module that ends with the header of `./`. The magic of a next header is looked for after it.
-/
theorem not_unpackUstar_inside : ¬ ∀ (image rest : List UInt8) (k fs : ℕ) (s : VfsState),
    trail (roundStep vzeroed (image ++ rest)) (0, initVfs) k = some (fs, s) →
      ∀ b ∈ roundReads vzeroed (image ++ rest) fs s, b.Inside image.length := by
  intro hall
  have hname : cString ((Entry.root.header ++ List.replicate 512 0).drop 0) = some [46, 47] := by
    decide +kernel
  have hexamined : examined (Entry.root.header ++ List.replicate 512 0) 0 = some 512 := by
    decide +kernel
  have hlen : Entry.root.header.length = 512 := (Entry.header_header (by decide)).length
  have hfits := ((roundReads_inside_iff (List.sublist_append_left _ _).length_le).mp
    (hall Entry.root.header (List.replicate 512 0) 0 0 initVfs rfl)).2
  obtain ⟨-, hmagic⟩ := hfits.next 512 (by rw [unpackEntry_dotSlash hname]; rfl) hexamined
  rw [hlen] at hmagic
  omega

/-! ### Archives -/

section Archives

variable {e : Entry} {es : List Entry} {image rest rest' : List UInt8}

theorem strReads_le (h : mem[k]? = some 0) : strReads mem ≤ k + 1 := by
  induction mem generalizing k with
  | nil => simp at h
  | cons a mem ih =>
    rw [strReads, List.takeWhile_cons]
    split
    · next ha =>
      cases k with
      | zero =>
        obtain rfl : a = 0 := by simpa using h
        simp at ha
      | succ k =>
        have hle := ih h
        rw [strReads] at hle
        rw [List.length_cons]
        omega
    · exact Nat.succ_le_succ (Nat.zero_le _)

theorem cmpReads_le (mem lit : List UInt8) : cmpReads mem lit ≤ lit.length + 1 := by
  fun_induction cmpReads mem lit with
  | case1 lit => omega
  | case2 c mem => exact Nat.le_refl _
  | case3 mem a lit ih => exact Nat.succ_le_succ ih
  | case4 c mem a lit hne => omega

namespace HeaderAt

theorem length_eq (h : HeaderAt e image fs rest') :
    fs + (512 + padded e.data.length + rest'.length) = image.length := by
  obtain ⟨block, padding, hheader, hpad, himage⟩ := h
  have hlen := congrArg List.length himage
  rw [List.length_drop, List.length_append, List.length_append, hpad, hheader.length] at hlen
  omega

/-- The header is also there in a memory that goes on after the image. -/
theorem append (h : HeaderAt e image fs rest') (rest : List UInt8) :
    HeaderAt e (image ++ rest) fs (rest' ++ rest) := by
  have hlen := h.length_eq
  obtain ⟨block, padding, hheader, hpad, himage⟩ := h
  refine ⟨block, padding, hheader, hpad, ?_⟩
  rw [List.drop_append_of_le_length (by omega), himage, List.append_assoc _ rest']

/-- A byte of the header. -/
theorem getElem?_block (h : HeaderAt e image fs rest') : ∃ block, Header e block ∧
    ∀ k < 512, image[fs + k]? = block[k]? := by
  obtain ⟨block, padding, hheader, -, himage⟩ := h
  refine ⟨block, hheader, fun k hk => ?_⟩
  rw [← List.getElem?_drop, himage, List.append_assoc,
    List.getElem?_append_left (by rwa [hheader.length])]

end HeaderAt

theorem Header.name_end {block : List UInt8} (h : Header e block) :
    block[e.name.length]? = some 0 := by
  obtain ⟨tail, htail⟩ := h.name
  rw [← htail, List.append_assoc, List.getElem?_append_right (Nat.le_refl _), Nat.sub_self]
  rfl

theorem Header.magic_end {block : List UInt8} (h : Header e block) : block[262]? = some 0 := by
  have hbyte : ((block.drop 257).take 6)[5]? = some 0 := by
    rw [h.magic]
    rfl
  rwa [List.getElem?_take_of_lt (by decide), List.getElem?_drop] at hbyte

/-- The module is long enough for a header of an archive, if it goes on up to the magic after its
data. -/
theorem HeaderAt.headerFits (h : HeaderAt e image fs rest') (hsize : e.data.length < 2 ^ 31 - 1024)
    (hrest : 263 ≤ rest'.length) : HeaderFits vmalloc (image ++ rest) image.length fs s := by
  have hlen := h.length_eq
  have hat := h.append rest
  obtain ⟨block, hheader, hbyte⟩ := hat.getElem?_block
  have hpad : e.data.length ≤ padded e.data.length := by
    rw [padded]
    omega
  have hwrite : writeSize (image ++ rest) fs = some (e.data.length : ℤ) := by
    rw [writeSize, hat.size]
    exact congrArg some (HeaderAt.oct2bin_size hsize)
  have hexamined : examined (image ++ rest) fs = some (fs + (512 + padded e.data.length) : ℕ) := by
    rw [examined, hat.size, Option.bind_eq_bind, Option.bind_some, HeaderAt.oct2bin_size hsize,
      (roundedSize_eq_iff _).mpr hsize.le]
    rfl
  refine ⟨?_, fun fd s' n _ _ hn => ?_, fun fd s' _ _ => ?_, fun target _ htarget => ?_⟩
  · have hshort := hheader.short
    have hle : strReads ((image ++ rest).drop fs) ≤ e.name.length + 1 := by
      refine strReads_le ?_
      rw [List.getElem?_drop, hbyte _ (by omega), hheader.name_end]
    omega
  · obtain rfl := Option.some.inj (hwrite.symm.trans hn)
    omega
  · have hle : strReads ((image ++ rest).drop (fs + 124)) ≤ 138 + 1 := by
      refine strReads_le ?_
      rw [List.getElem?_drop, Nat.add_assoc, hbyte _ (by decide), hheader.magic_end]
    omega
  · obtain rfl := Option.some.inj (hexamined.symm.trans htarget)
    have hle := cmpReads_le ((image ++ rest).drop
      ((fs + (512 + padded e.data.length) : ℕ) + 257 : ℤ).toNat) ustar
    have hustar : ustar.length = 5 := rfl
    omega

/-- There is a block after the last entry. -/
theorem Encodes.length_le (h : Encodes es image) : 512 ≤ image.length := by
  cases h with
  | nil rest =>
    rw [List.length_append, List.length_replicate]
    exact Nat.le_add_right _ _
  | cons header pad rest =>
    have hlen := header.length
    simp only [List.length_append]
    omega

theorem Encodes.append (h : Encodes es image) (rest : List UInt8) : Encodes es (image ++ rest) := by
  induction h with
  | nil tail =>
    rw [List.append_assoc]
    exact .nil _
  | cons header pad _ ih =>
    rw [List.append_assoc]
    exact .cons header pad ih

/-- What is left of an archive after a header that leads to another one. -/
theorem Encodes.nextHeader {next : ℕ} (h : Encodes (e :: es) (image.drop fs))
    (hsize : e.data.length < 2 ^ 31 - 1024)
    (hnext : GoofyOs.nextHeader (image ++ rest) fs = some next) :
    es ≠ [] ∧ Encodes es (image.drop next) := by
  obtain ⟨rest', hat, hrest, -⟩ := h.headerAt
  rw [GoofyOs.nextHeader,
    (hat.append rest).ustarNext hsize (hrest.append rest).strcmpEq_magic] at hnext
  cases es with
  | nil => simp at hnext
  | cons e₁ es =>
    obtain rfl : fs + (512 + padded e.data.length) = next := by simpa using hnext
    rw [hat.drop_next]
    exact ⟨List.cons_ne_nil e₁ es, hrest⟩

/-- What is left of the image at an offset is an archive with sizes that fit. -/
def ArchiveLeft (image : List UInt8) (fs : ℕ) : Prop :=
  ∃ e es, Encodes (e :: es) (image.drop fs) ∧ ∀ e' ∈ e :: es, e'.data.length < 2 ^ 31 - 1024

/-- **Archives.** In an archive with sizes that fit, `unpack_ustar` reads only in the module, from
every state of the file system. -/
theorem Encodes.roundReads_inside {x : ℕ × VfsState} (h : Encodes (e :: es) image)
    (hsize : ∀ e' ∈ e :: es, e'.data.length < 2 ^ 31 - 1024)
    (hround : trail (roundStep vmalloc (image ++ rest)) (0, s) k = some x) :
    ∀ b ∈ roundReads vmalloc (image ++ rest) x.1 x.2, b.Inside image.length := by
  have hfirst : ArchiveLeft image 0 := ⟨e, es, h, hsize⟩
  have hleft : ArchiveLeft image x.1 := by
    refine trail_invariant (P := fun x : ℕ × VfsState => ArchiveLeft image x.1) hround hfirst ?_
    rintro ⟨fs, s⟩ ⟨fs', s'⟩ ⟨e, es, himage, hsize⟩ hstep
    obtain ⟨he, hes⟩ := List.forall_mem_cons.mp hsize
    obtain ⟨hne, hrest⟩ := himage.nextHeader he (roundStep_eq_some_iff.mp hstep).2
    obtain ⟨e₁, es, rfl⟩ := List.exists_cons_of_ne_nil hne
    exact ⟨e₁, es, hrest, hes⟩
  obtain ⟨e, es, himage, hsize⟩ := hleft
  obtain ⟨rest', hat, hrest, -⟩ := himage.headerAt
  have hlen := hat.length_eq
  have hroom := hrest.length_le
  refine (roundReads_inside_iff (List.sublist_append_left _ _).length_le).mpr
    ⟨?_, hat.headerFits (hsize e List.mem_cons_self) (by omega)⟩
  rw [fieldsEnd]
  split
  · omega
  · omega

end Archives

end GoofyOs
