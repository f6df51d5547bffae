import GoofyOs.VfsParse
import GoofyOs.VfsReadWrite

/-!
# The archive that `fs/initrd.c` unpacks

`unpack_ustar` walks over the headers of a `ustar` archive in memory, and makes a directory or a
file of each entry. Reads outside the image fault.

## Main definitions

* `oct2bin`, `ustarNext`, `unpackUstar` — the functions of the source
* `Entry`, `Header`, `Encodes` — the entries of an archive, and how an image encodes them
* `WellFormed` — what `tar` guarantees of the list of entries

## Main results

* `oct2bin_octDigits` — octal digits are read back
* `Entry.vfsParsePath_name` — the components of an entry's name
* `HeaderAt.ustarNext` — the walk over the headers stays in step with the padding
-/

namespace GoofyOs

open Proc

/-! ### The source -/

/-- `oct2bin`. -/
def oct2bin (str : List UInt8) : ℤ :=
  str.foldl (fun n c => asInt (asInt (n * 8) + (charVal c - 48))) 0

/-- The string at a pointer, up to its NUL. -/
def cString (mem : List UInt8) : Option Name :=
  if (0 : UInt8) ∈ mem then some (mem.takeWhile (· ≠ 0)) else none

/-- `!strcmp(str, lit)`, for a literal without its NUL. -/
def strcmpEq : List UInt8 → List UInt8 → Option Bool
  | [], _ => none
  | c :: _, [] => some (c = 0)
  | c :: mem, a :: lit => if c = a then strcmpEq mem lit else some false

/-- `n` bytes at an offset of the image. -/
def readBytes (image : List UInt8) (off : ℕ) (n : ℤ) : Option (List UInt8) :=
  if 0 ≤ n ∧ off + n.toNat ≤ image.length then some ((image.drop off).take n.toNat) else none

/-- `"ustar"`. -/
def ustar : List UInt8 := [117, 115, 116, 97, 114]

/-- `ustar_next`: the offset of the next header. -/
def ustarNext (image : List UInt8) (header : ℕ) : Option (Option ℕ) := do
  let size ← readBytes image (header + 124) 11
  let filesize := oct2bin size
  let aligned := asInt (asInt ((asInt (filesize + 511)).tdiv 512 + 1) * 512)
  let next := header + aligned
  if next < 0 then none
  else do
    let found ← strcmpEq (image.drop (next.toNat + 257)) ustar
    pure (if found then some next.toNat else none)

/-- `USTAR_REG`. -/
def ustarReg : UInt8 := 48
/-- `USTAR_REG_2`. -/
def ustarReg2 : UInt8 := 0
/-- `USTAR_DIR`. -/
def ustarDir : UInt8 := 53

/-- The case of a directory in the loop of `unpack_ustar`. An error is printed. -/
def unpackDir (name : Name) : VfsM Unit := do
  let _ ← attempt (vfsMkdir name none 0)
  pure ()

/-- The case of a regular file. Errors are printed, and a file that could not be opened has a null
entry. -/
def unpackFile (vmalloc : VfsState → ℕ → List UInt8) (image : List UInt8) (fs : ℕ) (name : Name) :
    VfsM Unit := do
  let err ← attempt (vfsCreate name none 0)
  if err.isOk then do
    let err ← attempt (vfsOpen name none 0)
    let fd ← deref err.toOption
    let size ← deref (readBytes image (fs + 124) 11)
    let buf ← deref (readBytes image (fs + 512) (oct2bin size))
    let _ ← attempt (vfsWrite vmalloc fd buf)
    pure ()
  else pure ()

/-- The body of the loop of `unpack_ustar`. -/
def unpackEntry (vmalloc : VfsState → ℕ → List UInt8) (image : List UInt8) (fs : ℕ) :
    VfsM Unit := do
  let name ← deref (cString (image.drop fs))
  if name = [46, 47] then pure ()
  else do
    let typeflag ← deref image[fs + 156]?
    if typeflag = ustarDir then unpackDir name
    else if typeflag = ustarReg2 ∨ typeflag = ustarReg then unpackFile vmalloc image fs name
    else pure ()

/-- The loop of `unpack_ustar`, going round at most `fuel` times. -/
def unpackLoop (vmalloc : VfsState → ℕ → List UInt8) (image : List UInt8) :
    ℕ → Option ℕ → VfsM Unit
  | _, none => pure ()
  | 0, some _ => deref none
  | fuel + 1, some fs => do
    unpackEntry vmalloc image fs
    let next ← deref (ustarNext image fs)
    unpackLoop vmalloc image fuel next

/-- `unpack_ustar`. -/
def unpackUstar (vmalloc : VfsState → ℕ → List UInt8) (fuel : ℕ) (image : List UInt8) : VfsM Unit :=
  unpackLoop vmalloc image fuel (some 0)

/-! ### The format -/

/-- What an entry is. -/
inductive EntryKind
  | dir
  | file (data : List UInt8)

/-- An entry of an archive. Its name may end in a slash, as those of directories do. -/
structure Entry where
  path : List Name
  trailing : Bool
  kind : EntryKind

namespace Entry

/-- The bytes that follow the header. -/
def data (e : Entry) : List UInt8 :=
  match e.kind with
  | .dir => []
  | .file data => data

/-- The name in the header: `./a/b`, or `./a/b/`. -/
def name (e : Entry) : Name :=
  dot ++ e.path.flatMap (fun c => slash :: c) ++ if e.trailing then [slash] else []

/-- `./`. -/
def root : Entry := ⟨[], true, .dir⟩

end Entry

/-- The last `k` octal digits of a number. -/
def octDigits : ℕ → ℕ → List UInt8
  | 0, _ => []
  | k + 1, n => octDigits k (n / 8) ++ [UInt8.ofNat (48 + n % 8)]

/-- The size of the padded data. -/
def padded (n : ℕ) : ℕ := (n + 511) / 512 * 512

/-- The header of an entry. Fields that are not mentioned hold anything. -/
structure Header (e : Entry) (block : List UInt8) : Prop where
  length : block.length = 512
  name : e.name ++ [0] <+: block
  short : e.name.length < 100
  size : (block.drop 124).take 11 = octDigits 11 e.data.length
  typeflag : ∃ flag, block[156]? = some flag ∧ match e.kind with
    | .dir => flag = ustarDir
    | .file _ => flag = ustarReg ∨ flag = ustarReg2
  magic : (block.drop 257).take 6 = ustar ++ [0]
  noPrefix : block[345]? = some 0

/-- The image is the entries one after another, each with its data padded, and then a block of
zeros. -/
inductive Encodes : List Entry → List UInt8 → Prop
  | nil (rest : List UInt8) : Encodes [] (List.replicate 512 0 ++ rest)
  | cons {e : Entry} {es : List Entry} {block padding image : List UInt8} (header : Header e block)
      (pad : (e.data ++ padding).length = padded e.data.length) (rest : Encodes es image) :
      Encodes (e :: es) (block ++ (e.data ++ padding) ++ image)

/-- What `tar` guarantees of the entries after `./`: sensible components, sizes that the reader can
handle, distinct paths, and parents before children. -/
structure WellFormed (es : List Entry) : Prop where
  component : ∀ e ∈ es, ∀ c ∈ e.path, c ≠ [] ∧ c ≠ dot ∧ slash ∉ c ∧ 0 ∉ c
  size : ∀ e ∈ es, e.data.length < 2 ^ 31 - 1024
  nodup : (es.map Entry.path).Nodup
  parent : ∀ pre e post, es = pre ++ e :: post → ∃ p c, e.path = p ++ [c] ∧
    (p = [] ∨ ∃ e' ∈ pre, e'.path = p)

/-! ### Numbers -/

theorem length_octDigits (k n : ℕ) : (octDigits k n).length = k := by
  induction k generalizing n with
  | zero => rfl
  | succ k ih => rw [octDigits, List.length_append, ih, List.length_singleton]

theorem charVal_digit (n : ℕ) : charVal (UInt8.ofNat (48 + n % 8)) = 48 + (n % 8 : ℕ) := by
  have hdigits : ∀ d : Fin 8, charVal (UInt8.ofNat (48 + d)) = 48 + (d : ℕ) := by decide
  exact hdigits ⟨n % 8, Nat.mod_lt _ (by decide)⟩

/-- The number that the bytes stand for, those that are no digits included. -/
def octValue (str : List UInt8) : ℤ := str.foldl (fun n c => n * 8 + (charVal c - 48)) 0

/-- **Wrapping around** at each step is wrapping around once. -/
theorem oct2bin_eq (str : List UInt8) : oct2bin str = asInt (octValue str) := by
  rw [oct2bin, octValue]
  have hfold : ∀ a : ℤ, str.foldl (fun n c => asInt (asInt (n * 8) + (charVal c - 48))) (asInt a) =
      asInt (str.foldl (fun n c => n * 8 + (charVal c - 48)) a) := by
    induction str with
    | nil => exact fun a => rfl
    | cons c str ih =>
      intro a
      rw [List.foldl_cons, List.foldl_cons, asInt_asInt_mul, asInt_asInt_add, ih]
  exact hfold 0

theorem octValue_octDigits {k n : ℕ} (h : n < 8 ^ k) : octValue (octDigits k n) = n := by
  induction k generalizing n with
  | zero =>
    obtain rfl : n = 0 := by simpa using h
    rfl
  | succ k ih =>
    have hdiv : n / 8 < 8 ^ k := by
      rw [Nat.pow_succ] at h
      omega
    have hfold : octValue (octDigits (k + 1) n) =
        octValue (octDigits k (n / 8)) * 8 + (charVal (UInt8.ofNat (48 + n % 8)) - 48) := by
      rw [octValue, octDigits, List.foldl_append]
      rfl
    rw [hfold, ih hdiv, charVal_digit]
    omega

/-- **Octal digits** are read back, if the number fits an `int`. -/
theorem oct2bin_octDigits {k n : ℕ} (h : n < 8 ^ k) (h' : n < 2 ^ 31) :
    oct2bin (octDigits k n) = n := by
  rw [oct2bin_eq, octValue_octDigits h, asInt_of_lt (by omega) (by omega)]

/-- `(((filesize + 511) / 512) + 1) * 512`. -/
def roundedSize (filesize : ℤ) : ℤ := asInt (asInt ((asInt (filesize + 511)).tdiv 512 + 1) * 512)

/-- What is computed of a size up to the largest multiple of 512 that is an `int`. -/
theorem roundedSize_of_lt {filesize : ℤ} (h : -2 ^ 31 ≤ filesize) (h' : filesize < 2 ^ 31 - 511) :
    roundedSize filesize = asInt (((filesize + 511).tdiv 512 + 1) * 512) := by
  rw [roundedSize, asInt_of_lt (n := filesize + 511) (by omega) (by omega), asInt_asInt_mul]

/-- **Rounding up** is right up to the last block but one that an `int` can count. -/
theorem roundedSize_eq_iff (s : ℕ) : roundedSize s = (512 + padded s : ℕ) ↔ s ≤ 2 ^ 31 - 1024 := by
  constructor
  · intro h
    have hlt : roundedSize s < 2 ^ 31 := (asInt_bounds _).2
    rw [h, padded] at hlt
    omega
  · intro h
    have htdiv : ((s : ℤ) + 511).tdiv 512 = ((s + 511) / 512 : ℕ) := rfl
    rw [roundedSize_of_lt (by omega) (by omega), htdiv, asInt_of_lt (by omega) (by omega), padded]
    omega

/-! ### Names -/

variable {e : Entry} {es : List Entry} {block padding image rest : List UInt8} {fs : ℕ}

theorem intercalate_cons (c : Name) (p : List Name) :
    [slash].intercalate (c :: p) = c ++ p.flatMap (fun c => slash :: c) := by
  induction p generalizing c with
  | nil => simp
  | cons d p ih =>
    rw [List.intercalate_cons_cons, ih, List.flatMap_cons, List.append_assoc]
    rfl

/-- A name is the path that `.` and the components make up. -/
theorem Entry.name_eq (e : Entry) : e.name = renderPath (dot :: e.path) false e.trailing := by
  rw [name, renderPath, intercalate_cons]
  rfl

/-- The components of an entry's name are `.` and those of its path. -/
theorem Entry.vfsParsePath_name (hp : ∀ c ∈ e.path, c ≠ [] ∧ slash ∉ c ∧ c.length < 256) :
    vfsParsePath e.name = some (dot :: e.path) := by
  have hcomponents : ∀ c ∈ dot :: e.path, c ≠ [] ∧ slash ∉ c ∧ c.length < 256 :=
    List.forall_mem_cons.mpr ⟨by decide, hp⟩
  have hhead : ¬ e.name.head? = some slash := by
    show ¬ some 46 = some slash
    decide
  have hempty : ¬ (dot :: e.path = [] ∧ false = true ∧ e.trailing = true) := by simp
  have hparse := vfsParsePath_renderPath hcomponents hempty
  rwa [← e.name_eq, if_neg hhead] at hparse

theorem Entry.zero_notMem_name (hp : ∀ c ∈ e.path, (0 : UInt8) ∉ c) : (0 : UInt8) ∉ e.name := by
  have hdot : (0 : UInt8) ∉ dot := by decide
  have hslash : (0 : UInt8) ≠ slash := by decide
  have hend : (0 : UInt8) ∉ (if e.trailing then [slash] else []) := by
    split
    · exact fun h => hslash (List.mem_singleton.mp h)
    · exact List.not_mem_nil
  intro h
  rcases List.mem_append.mp h with h | h
  · rcases List.mem_append.mp h with h | h
    · exact hdot h
    · obtain ⟨c, hc, h⟩ := List.mem_flatMap.mp h
      rcases List.mem_cons.mp h with h | h
      · exact hslash h
      · exact hp c hc h
  · exact hend h

theorem Entry.length_le_of_mem {c : Name} (hc : c ∈ e.path) : c.length + 2 ≤ e.name.length := by
  obtain ⟨pre, post, hpath⟩ := List.append_of_mem hc
  rw [name, hpath]
  simp only [List.length_append, List.flatMap_append, List.flatMap_cons, List.length_cons, dot]
  omega

/-! ### Headers -/

theorem cString_append {str mem : List UInt8} (h : (0 : UInt8) ∉ str) (hpre : str ++ [0] <+: mem) :
    cString mem = some str := by
  obtain ⟨tail, rfl⟩ := hpre
  have hmem : (0 : UInt8) ∈ str ++ [0] ++ tail := by simp
  rw [cString, if_pos hmem, List.append_assoc, List.singleton_append]
  congr 1
  rw [List.takeWhile_append_of_pos]
  · simp
  · intro a ha
    have hne : a ≠ 0 := fun h0 => h (h0 ▸ ha)
    simpa using hne

theorem readBytes_drop {l : List UInt8} {k n : ℕ} (h : image.drop fs = l) (hn : k + n ≤ l.length)
    (hne : l ≠ []) : readBytes image (fs + k) n = some ((l.drop k).take n) := by
  subst h
  rw [← List.length_pos_iff, List.length_drop] at hne
  rw [List.length_drop] at hn
  rw [readBytes, if_pos ⟨by omega, by rw [Int.toNat_natCast]; omega⟩, Int.toNat_natCast,
    List.drop_drop]

theorem strcmpEq_append {lit : List UInt8} (h : ∀ a ∈ lit, a ≠ 0) :
    strcmpEq (lit ++ 0 :: rest) lit = some true := by
  induction lit with
  | nil => rfl
  | cons a lit ih =>
    obtain ⟨-, h⟩ := List.forall_mem_cons.mp h
    rw [List.cons_append, strcmpEq, if_pos rfl, ih h]

theorem strcmpEq_zero {k n : ℕ} (hk : k < n) (lit : List UInt8) (hlit : lit ≠ [])
    (h : ∀ a ∈ lit, a ≠ 0) : strcmpEq ((List.replicate n 0 ++ rest).drop k) lit = some false := by
  obtain ⟨a, lit, rfl⟩ := List.exists_cons_of_ne_nil hlit
  rw [List.drop_append_of_le_length (by simpa using hk.le), List.drop_replicate]
  obtain ⟨m, hm⟩ : ∃ m, n - k = m + 1 := ⟨n - k - 1, by omega⟩
  rw [hm, List.replicate_succ, List.cons_append, strcmpEq,
    if_neg (Ne.symm (h a List.mem_cons_self))]

theorem ne_ustarDir {typeflag : UInt8} (h : typeflag = ustarReg2 ∨ typeflag = ustarReg) :
    typeflag ≠ ustarDir := by
  rcases h with rfl | rfl
  · decide
  · decide

theorem ustar_ne_zero : ∀ a ∈ ustar, a ≠ 0 := by
  simp [ustar]

/-- The image holds the header of an entry, its padded data, and then `rest`. -/
structure HeaderAt (e : Entry) (image : List UInt8) (fs : ℕ) (rest : List UInt8) : Prop where
  exists_block : ∃ block padding, Header e block ∧
    (e.data ++ padding).length = padded e.data.length ∧
    image.drop fs = block ++ (e.data ++ padding) ++ rest

namespace HeaderAt

theorem drop_next (h : HeaderAt e image fs rest) :
    image.drop (fs + (512 + padded e.data.length)) = rest := by
  obtain ⟨block, padding, hheader, hpad, himage⟩ := h
  rw [← List.drop_drop, himage, List.drop_left']
  rw [List.length_append, hheader.length, hpad]

theorem cString (h : HeaderAt e image fs rest) (hzero : ∀ c ∈ e.path, (0 : UInt8) ∉ c) :
    GoofyOs.cString (image.drop fs) = some e.name := by
  obtain ⟨block, padding, hheader, -, himage⟩ := h
  rw [himage, List.append_assoc]
  exact cString_append (Entry.zero_notMem_name hzero)
    (hheader.name.trans (List.prefix_append _ _))

/-- The size field, read back. -/
theorem size (h : HeaderAt e image fs rest) :
    readBytes image (fs + 124) 11 = some (octDigits 11 e.data.length) := by
  obtain ⟨block, padding, hheader, -, himage⟩ := h
  have hlen := hheader.length
  rw [← hheader.size]
  have hread := readBytes_drop (k := 124) (n := 11) himage
    (by simp only [List.length_append]; omega) (by rw [← List.length_pos_iff]; simp; omega)
  refine hread.trans (congrArg some ?_)
  rw [List.append_assoc, List.drop_append_of_le_length (by omega),
    List.take_append_of_le_length (by rw [List.length_drop]; omega)]

theorem oct2bin_size (h : e.data.length < 2 ^ 31 - 1024) :
    oct2bin (octDigits 11 e.data.length) = e.data.length :=
  oct2bin_octDigits (by omega) (by omega)

theorem typeflag (h : HeaderAt e image fs rest) : ∃ flag, image[fs + 156]? = some flag ∧
    match e.kind with
    | .dir => flag = ustarDir
    | .file _ => flag = ustarReg ∨ flag = ustarReg2 := by
  obtain ⟨block, padding, hheader, -, himage⟩ := h
  obtain ⟨flag, hflag, hkind⟩ := hheader.typeflag
  refine ⟨flag, ?_, hkind⟩
  rw [← List.getElem?_drop, himage, List.append_assoc,
    List.getElem?_append_left (by rw [hheader.length]; decide), hflag]

theorem data (h : HeaderAt e image fs rest) :
    readBytes image (fs + 512) e.data.length = some e.data := by
  obtain ⟨block, padding, hheader, -, himage⟩ := h
  have hlen := hheader.length
  refine (readBytes_drop (k := 512) himage (by simp only [List.length_append]; omega)
    (by rw [← List.length_pos_iff]; simp; omega)).trans (congrArg some ?_)
  rw [List.append_assoc, ← hlen, List.drop_left, List.append_assoc, List.take_left]

/-- **The walk over the headers** stays in step with the padding. -/
theorem ustarNext (h : HeaderAt e image fs rest) (hsize : e.data.length < 2 ^ 31 - 1024)
    {found : Bool} (hmagic : strcmpEq (rest.drop 257) ustar = some found) :
    GoofyOs.ustarNext image fs =
      some (if found then some (fs + (512 + padded e.data.length)) else none) := by
  have hnext : (fs : ℤ) + (512 + padded e.data.length : ℕ) =
      (fs + (512 + padded e.data.length) : ℕ) := rfl
  have hround : asInt (asInt ((asInt ((e.data.length : ℤ) + 511)).tdiv 512 + 1) * 512) =
      (512 + padded e.data.length : ℕ) := (roundedSize_eq_iff _).mpr hsize.le
  rw [GoofyOs.ustarNext, h.size]
  simp only [Option.bind_eq_bind, Option.bind_some, oct2bin_size hsize, hround, hnext,
    Int.toNat_natCast]
  rw [if_neg (by omega), ← List.drop_drop, h.drop_next, hmagic]
  rfl

end HeaderAt

theorem Header.strcmpEq_magic (h : Header e block) :
    strcmpEq ((block ++ rest).drop 257) ustar = some true := by
  have hlen := h.length
  rw [List.drop_append_of_le_length (by omega), ← List.take_append_drop 6 (block.drop 257), h.magic,
    List.append_assoc, List.append_assoc]
  exact strcmpEq_append ustar_ne_zero

/-! ### An encoder -/

/-- The type flag of an entry. -/
def EntryKind.flag : EntryKind → UInt8
  | .dir => ustarDir
  | .file _ => ustarReg

/-- The fields of a header from the size on, with zeros in those that are not read. -/
def Entry.fields (e : Entry) : List UInt8 :=
  octDigits 11 e.data.length ++ (List.replicate 21 0 ++
    (e.kind.flag :: (List.replicate 100 0 ++ (ustar ++ List.replicate 250 0))))

/-- A header, with zeros in the fields that are not read. -/
def Entry.header (e : Entry) : List UInt8 :=
  e.name ++ List.replicate (124 - e.name.length) 0 ++ e.fields

/-- An image of the entries. -/
def encode : List Entry → List UInt8
  | [] => List.replicate 512 0 ++ List.replicate 512 0
  | e :: es =>
    e.header ++ (e.data ++ List.replicate (padded e.data.length - e.data.length) 0) ++ encode es

theorem Entry.drop_header (h : e.name.length < 100) (k : ℕ) :
    e.header.drop (124 + k) = e.fields.drop k := by
  have hlen : (e.name ++ List.replicate (124 - e.name.length) (0 : UInt8)).length = 124 := by
    rw [List.length_append, List.length_replicate]
    omega
  rw [header, ← List.drop_drop, List.drop_left' hlen]

theorem Entry.header_header (h : e.name.length < 100) : Header e e.header where
  length := by
    simp only [Entry.header, Entry.fields, List.length_append, List.length_cons,
      List.length_replicate, length_octDigits, ustar, List.length_nil]
    omega
  name := by
    obtain ⟨k, hk⟩ : ∃ k, 124 - e.name.length = k + 1 := ⟨123 - e.name.length, by omega⟩
    rw [Entry.header, hk, List.replicate_succ, List.append_assoc, List.prefix_append_right_inj]
    exact ⟨_, rfl⟩
  short := h
  size := by
    rw [Entry.drop_header h 0, List.drop_zero]
    exact List.take_left' (length_octDigits 11 _)
  typeflag := by
    refine ⟨e.kind.flag, ?_, ?_⟩
    · rw [← Nat.add_zero 156, ← List.getElem?_drop, Entry.drop_header h 32]
      simp [-List.reduceReplicate, Entry.fields, List.drop_append, length_octDigits]
    · cases e.kind with
      | dir => rfl
      | file data => exact Or.inl rfl
  magic := by
    rw [Entry.drop_header h 133]
    simp [-List.reduceReplicate, Entry.fields, List.drop_append, List.take_append,
      length_octDigits, ustar]
  noPrefix := by
    rw [← Nat.add_zero 345, ← List.getElem?_drop, Entry.drop_header h 221]
    simp [-List.reduceReplicate, Entry.fields, List.drop_append, length_octDigits, ustar]

/-- The encoder encodes. -/
theorem encodes_encode (h : ∀ e ∈ es, e.name.length < 100) : Encodes es (encode es) := by
  induction es with
  | nil => exact .nil _
  | cons e es ih =>
    obtain ⟨he, h⟩ := List.forall_mem_cons.mp h
    refine .cons (Entry.header_header he) ?_ (ih h)
    rw [List.length_append, List.length_replicate, padded]
    omega

end GoofyOs