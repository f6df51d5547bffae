import GoofyOs.CInt
import GoofyOs.ForMathlib.Proc
import GoofyOs.Hashmap

/-!
# The file system layer of `fs/vfs.c` and `fs/tmpfs.c`

Inodes, vnodes, dentries and mounted file systems are named by the order in which they were
allocated. Strings are lists of bytes, without the NUL. Null pointers that are followed, locks that
are taken twice and writes past the end of a buffer are faults.

`vmalloc` is a parameter, the bytes that a new buffer of a given size holds. A dentry that
`vfs_find_child` allocates on a failing lookup is not reachable from anywhere and is left out, and
so are `printk`, `dentry_resolve`, and the fields that no function reads.

## Main definitions

* `TmpfsInode`, `Vnode`, `Dentry`, `Vfs`, `VfsState` — the data
* `tmpfsAdd`, `tmpfsLookup`, `tmpfsCreateNode`, `tmpfsRead`, `tmpfsWrite`, `vfsInit` — the
  functions of `tmpfs.c` and the initial state
* `vfsParsePath`, `vfsFindChild`, `vfsFindDentry`, `vfsMkdir`, `vfsCreate`, `vfsOpen`, `vfsWrite`,
  `vfsRead` — the functions of `vfs.c`
-/

namespace GoofyOs

def enoent : ℤ := 2
def eexist : ℤ := 17
def einval : ℤ := 22

/-- `S_IFMT`. -/
def sIfmt : BitVec 16 := 0xf000
/-- `S_IFREG`. -/
def sIfreg : BitVec 16 := 0x8000
/-- `S_IFDIR`. -/
def sIfdir : BitVec 16 := 0x4000
/-- `S_IFBLK`. -/
def sIfblk : BitVec 16 := 0x6000

/-- `S_ISREG`. -/
def sIsreg (mode : BitVec 16) : Bool := mode &&& sIfmt = sIfreg
/-- `S_ISDIR`. -/
def sIsdir (mode : BitVec 16) : Bool := mode &&& sIfmt = sIfdir
/-- `S_ISBLK`. -/
def sIsblk (mode : BitVec 16) : Bool := mode &&& sIfmt = sIfblk

/-- A string, and a component of a path. -/
abbrev Name := List UInt8

/-- `'/'`. -/
def slash : UInt8 := 47
/-- `"."`. -/
def dot : Name := [46]

/-- `struct tmpfs_inode`. The buffer `data` is as long as `effective_length`. -/
structure TmpfsInode where
  name : Name
  children : List ℕ
  data : List UInt8
  number : ℕ
  length : ℕ
  effectiveLength : ℕ
  mode : BitVec 16

/-- The tables of operations. There is one, and it has all the operations used here. -/
inductive VnodeOperations
  | tmpfsOperations

/-- `struct vnode`. -/
structure Vnode where
  lock : Bool
  ops : Option VnodeOperations
  currVfs : Option ℕ
  privateData : Option ℕ
  mode : BitVec 16
  number : ℕ
  size : ℕ

/-- `struct dentry`. -/
structure Dentry where
  name : Name
  parent : Option ℕ
  vnode : Option ℕ

/-- `struct dcache_key`. -/
structure DcacheKey where
  parent : Option ℕ
  name : Name
  deriving DecidableEq

/-- `struct vnode_key`. -/
structure VnodeKey where
  vfs : Option ℕ
  number : ℕ
  deriving DecidableEq

instance : HashKey ℕ := ⟨longBytes⟩

instance : HashKey DcacheKey :=
  ⟨fun key => longBytes ((key.parent.map Nat.succ).getD 0) ++ key.name ++ [0]⟩

instance : HashKey VnodeKey :=
  ⟨fun key => longBytes ((key.vfs.map Nat.succ).getD 0) ++ longBytes key.number⟩

/-- `struct tmpfs_superblock`. -/
structure TmpfsSuperblock where
  currentInode : ℕ
  tnodeCache : Hashmap ℕ ℕ

/-- `struct vfs`. -/
structure Vfs where
  lock : Bool
  privateData : Option TmpfsSuperblock

/-- The heap and the global variables. -/
structure VfsState where
  inodes : List TmpfsInode
  vnodes : List Vnode
  dentries : List Dentry
  vfss : List Vfs
  dentryCache : Hashmap DcacheKey ℕ
  vnodeCache : Hashmap VnodeKey ℕ
  globalRoot : Option ℕ

/-- A function of the file system layer. It returns 0 and a value, or a negative error code. -/
abbrev VfsM := Proc VfsState ℤ

open Proc

/-! ### The heap -/

/-- Reading an inode. -/
def getInode (p : ℕ) : VfsM TmpfsInode := do
  let s ← read
  deref s.inodes[p]?

/-- Writing an inode. -/
def setInode (p : ℕ) (x : TmpfsInode) : VfsM Unit :=
  modify fun s => { s with inodes := s.inodes.set p x }

/-- `kzalloc(sizeof(struct tmpfs_inode))`, with its fields. -/
def newInode (x : TmpfsInode) : VfsM ℕ := do
  let s ← read
  modify fun s => { s with inodes := s.inodes ++ [x] }
  pure s.inodes.length

def getVnode (p : ℕ) : VfsM Vnode := do
  let s ← read
  deref s.vnodes[p]?

def setVnode (p : ℕ) (x : Vnode) : VfsM Unit :=
  modify fun s => { s with vnodes := s.vnodes.set p x }

def newVnode (x : Vnode) : VfsM ℕ := do
  let s ← read
  modify fun s => { s with vnodes := s.vnodes ++ [x] }
  pure s.vnodes.length

def getDentry (p : ℕ) : VfsM Dentry := do
  let s ← read
  deref s.dentries[p]?

def newDentry (x : Dentry) : VfsM ℕ := do
  let s ← read
  modify fun s => { s with dentries := s.dentries ++ [x] }
  pure s.dentries.length

def getVfs (p : ℕ) : VfsM Vfs := do
  let s ← read
  deref s.vfss[p]?

def setVfs (p : ℕ) (x : Vfs) : VfsM Unit :=
  modify fun s => { s with vfss := s.vfss.set p x }

/-- `acquire(&node->lock)`. -/
def acquireVnode (node : ℕ) : VfsM Unit := do
  let x ← getVnode node
  if x.lock then deref none else setVnode node { x with lock := true }

/-- `release(&node->lock)`. -/
def releaseVnode (node : ℕ) : VfsM Unit := do
  let x ← getVnode node
  setVnode node { x with lock := false }

/-- `acquire(&vfs->lock)`. -/
def acquireVfs (vfs : ℕ) : VfsM Unit := do
  let x ← getVfs vfs
  if x.lock then deref none else setVfs vfs { x with lock := true }

/-- `release(&vfs->lock)`. -/
def releaseVfs (vfs : ℕ) : VfsM Unit := do
  let x ← getVfs vfs
  setVfs vfs { x with lock := false }

/-! ### `tmpfs.c` -/

/-- The first inode of a list of children with the name. -/
def findName (name : Name) : List ℕ → VfsM (Option ℕ)
  | [] => pure none
  | c :: cs => do
    let x ← getInode c
    if x.name = name then pure (some c) else findName name cs

/-- `tmpfs_has_file`. -/
def tmpfsHasFile (node : ℕ) (name : Name) : VfsM Bool := do
  let x ← getInode node
  let found ← findName name x.children
  pure found.isSome

/-- `tblock->current_inode++`. -/
def nextNumber (vfs : ℕ) : VfsM ℕ := do
  let x ← getVfs vfs
  let tblock ← deref x.privateData
  setVfs vfs { x with privateData := some { tblock with currentInode := tblock.currentInode + 1 } }
  pure tblock.currentInode

/-- `hmap_add` to the `tnode_cache`. -/
def addTnode (vfs number tnode : ℕ) : VfsM Unit := do
  let x ← getVfs vfs
  let tblock ← deref x.privateData
  let cache ← deref (tblock.tnodeCache.hmapAdd number tnode)
  setVfs vfs { x with privateData := some { tblock with tnodeCache := cache } }

/-- `dlist_back_push(tnode->children, child)`. -/
def addChild (tnode child : ℕ) : VfsM Unit := do
  let x ← getInode tnode
  setInode tnode { x with children := x.children ++ [child] }

/-- `tmpfs_mkdir` and `tmpfs_create`, which differ in the type of the new inode. On `-EEXIST` the
lock is kept. -/
def tmpfsAdd (fmt : BitVec 16) (node : ℕ) (name : Name) (flags : BitVec 16) : VfsM Unit := do
  acquireVnode node
  let x ← getVnode node
  let tnode ← deref x.privateData
  let vfs ← deref x.currVfs
  let found ← tmpfsHasFile tnode name
  if found then throw (-eexist)
  else do
    acquireVfs vfs
    let number ← nextNumber vfs
    releaseVfs vfs
    let child ← newInode ⟨name, [], [], number, 0, 0, (flags &&& ~~~sIfmt) ||| fmt⟩
    addChild tnode child
    addTnode vfs number child
    releaseVnode node

/-- `tmpfs_mkdir`. -/
def tmpfsMkdir : ℕ → Name → BitVec 16 → VfsM Unit := tmpfsAdd sIfdir

/-- `tmpfs_create`. -/
def tmpfsCreate : ℕ → Name → BitVec 16 → VfsM Unit := tmpfsAdd sIfreg

/-- `tmpfs_read`: its result, which is an `int`, and the bytes copied to the buffer. They are taken
from the start of the file, whatever the offset. -/
def tmpfsRead (node n off : ℕ) : VfsM (ℤ × List UInt8) := do
  let x ← getVnode node
  if ¬ sIsreg x.mode then throw (-einval)
  else do
    let tnode ← deref x.privateData
    let i ← getInode tnode
    if off ≥ i.length then pure (0, [])
    else
      let toRead := min n (i.length - off)
      if toRead ≤ i.data.length then pure (asInt toRead, i.data.take toRead) else deref none

/-- `memcpy(&data[off], buf, n)`. -/
def copyTo (data : List UInt8) (off : ℕ) (buf : List UInt8) : List UInt8 :=
  data.take off ++ buf ++ data.drop (off + buf.length)

/-- `(n + 0xfff) & ~0xfff`. -/
def pageAlign (n : ℕ) : ℕ := (n + 0xfff) / 0x1000 * 0x1000

/-- Making room in the buffer, with `vmalloc` giving the bytes of a new one. -/
def makeRoom (vmalloc : VfsState → ℕ → List UInt8) (s : VfsState) (i : TmpfsInode)
    (newLength : ℕ) : TmpfsInode :=
  if newLength > i.effectiveLength then
    { i with
      data := copyTo (vmalloc s (pageAlign newLength)) 0 (i.data.take i.length)
      effectiveLength := pageAlign newLength }
  else i

/-- `tmpfs_write`. The result is an `int`. -/
def tmpfsWrite (vmalloc : VfsState → ℕ → List UInt8) (node : ℕ) (buf : List UInt8) (off : ℕ) :
    VfsM ℤ := do
  let x ← getVnode node
  if ¬ sIsreg x.mode then throw (-einval)
  else do
    let tnode ← deref x.privateData
    let i ← getInode tnode
    let newLength := max i.length (off + buf.length)
    let s ← read
    let i := makeRoom vmalloc s i newLength
    if off + buf.length ≤ i.data.length then do
      setInode tnode { i with data := copyTo i.data off buf, length := newLength }
      setVnode node { x with size := newLength }
      pure (asInt buf.length)
    else deref none

/-- `tmpfs_lookup`: the number of the child. -/
def tmpfsLookup (node : ℕ) (name : Name) : VfsM ℕ := do
  acquireVnode node
  let x ← getVnode node
  let tnode ← deref x.privateData
  let i ← getInode tnode
  let found ← findName name i.children
  releaseVnode node
  match found with
  | some c => do
    let child ← getInode c
    pure child.number
  | none => throw (-enoent)

/-- `tmpfs_create_node`. -/
def tmpfsCreateNode (node num : ℕ) : VfsM ℕ := do
  let x ← getVnode node
  let vfs ← deref x.currVfs
  let v ← getVfs vfs
  let tblock ← deref v.privateData
  match tblock.tnodeCache.hmapLookup num with
  | none => throw (-enoent)
  | some tnode => do
    let i ← getInode tnode
    newVnode ⟨false, some .tmpfsOperations, some vfs, some tnode, i.mode, num, i.length⟩

/-! ### `vfs.c` -/

/-- The loop of `vfs_parse_path`, with `buf` holding the first `curr` bytes of the buffer. -/
def parseLoop : List UInt8 → Name → List Name → Option (List Name)
  | [], buf, ret =>
    if 0 < buf.length then if buf.length < 256 then some (ret ++ [buf]) else none else some ret
  | c :: path, buf, ret =>
    if buf.length < 256 then
      if c = slash then parseLoop path [] (ret ++ [buf]) else parseLoop path (buf ++ [c]) ret
    else none

/-- `vfs_parse_path`. -/
def vfsParsePath (path : List UInt8) : Option (List Name) :=
  match path with
  | [] => some []
  | c :: rest => if c = slash then parseLoop rest [] [[slash]] else parseLoop path [] []

/-- `vfs_find_vnode`. -/
def vfsFindVnode (vnode num : ℕ) : VfsM ℕ := do
  let x ← getVnode vnode
  if x.ops.isNone ∨ x.currVfs.isNone then throw einval
  else do
    let s ← read
    match s.vnodeCache.hmapLookup ⟨x.currVfs, num⟩ with
    | some ret => pure ret
    | none => tmpfsCreateNode vnode num

/-- `vfs_find_child`. -/
def vfsFindChild (dent : ℕ) (name : Name) : VfsM ℕ :=
  if name = dot then pure dent
  else do
    let s ← read
    match s.dentryCache.hmapLookup ⟨some dent, name⟩ with
    | some ret => pure ret
    | none => do
      let d ← getDentry dent
      let vnode ← deref d.vnode
      let x ← getVnode vnode
      let _ ← deref x.ops
      let num ← tmpfsLookup vnode name
      let ret ← vfsFindVnode vnode num
      newDentry ⟨name, some dent, some ret⟩

/-- The loop of `vfs_find_dentry`. -/
def findLoop : ℕ → List Name → VfsM ℕ
  | cur, [] => pure cur
  | cur, name :: files => do
    let res ← vfsFindChild cur name
    findLoop res files

/-- `vfs_find_dentry`. -/
def vfsFindDentry (path : List UInt8) (rel : Option ℕ) (parent : Bool) : VfsM ℕ := do
  let files ← deref (vfsParsePath path)
  if files.length = 0 ∨ (files.length = 1 ∧ parent) then throw (-einval)
  else do
    let files := if parent then files.dropLast else files
    let s ← read
    let absolute := path.head? = some slash
    let files := if absolute then files.tail else files
    let rel := if absolute then s.globalRoot else rel
    let cur ← deref (rel.or s.globalRoot)
    findLoop cur files

/-- `vfs_mkdir` and `vfs_create`, which differ in the operation they call. -/
def vfsAdd (op : ℕ → Name → BitVec 16 → VfsM Unit) (path : List UInt8) (rel : Option ℕ)
    (flags : BitVec 16) : VfsM Unit := do
  let parent ← vfsFindDentry path rel true
  let d ← getDentry parent
  let vnode ← deref d.vnode
  let x ← getVnode vnode
  let _ ← deref x.ops
  let files ← deref (vfsParsePath path)
  let child ← deref files.getLast?
  let found ← attempt (vfsFindChild parent child)
  match found with
  | .ok _ => throw (-eexist)
  | .error _ => op vnode child flags

/-- `vfs_mkdir`. -/
def vfsMkdir : List UInt8 → Option ℕ → BitVec 16 → VfsM Unit := vfsAdd tmpfsMkdir

/-- `vfs_create`. -/
def vfsCreate : List UInt8 → Option ℕ → BitVec 16 → VfsM Unit := vfsAdd tmpfsCreate

/-- `struct file`. -/
structure File where
  entry : ℕ
  pos : ℕ
  flags : BitVec 16

/-- `vfs_open`: the file. -/
def vfsOpen (path : List UInt8) (rel : Option ℕ) (flags : BitVec 16) : VfsM File := do
  let file ← vfsFindDentry path rel false
  pure ⟨file, 0, flags⟩

/-- The vnode of an open file, which has operations. -/
def fileVnode (fd : File) : VfsM ℕ := do
  let d ← getDentry fd.entry
  let vnode ← deref d.vnode
  let x ← getVnode vnode
  let _ ← deref x.ops
  pure vnode

/-- `fd->pos += res`, for regular files and block devices. -/
def advance (fd : File) (vnode : ℕ) (res : ℤ) : VfsM File := do
  let x ← getVnode vnode
  pure (if 0 < res ∧ (sIsreg x.mode ∨ sIsblk x.mode) then { fd with pos := fd.pos + res.toNat }
    else fd)

/-- `vfs_write`: its result and the file. -/
def vfsWrite (vmalloc : VfsState → ℕ → List UInt8) (fd : File) (buf : List UInt8) :
    VfsM (ℤ × File) := do
  let vnode ← fileVnode fd
  let res ← tmpfsWrite vmalloc vnode buf fd.pos
  let fd ← advance fd vnode res
  pure (res, fd)

/-- `vfs_pread`, which reads at the position of the file. -/
def vfsPread (fd : File) (n _pos : ℕ) : VfsM (ℤ × List UInt8) := do
  let vnode ← fileVnode fd
  tmpfsRead vnode n fd.pos

/-- `vfs_read`: its result, the bytes copied to the buffer, and the file. -/
def vfsRead (fd : File) (n : ℕ) : VfsM (ℤ × List UInt8 × File) := do
  let (res, buf) ← vfsPread fd n fd.pos
  let vnode ← fileVnode fd
  let fd ← advance fd vnode res
  pure (res, buf, fd)

/-- `vfs_size`. -/
def vfsSize (fd : File) : VfsM ℕ := do
  let d ← getDentry fd.entry
  let vnode ← deref d.vnode
  let x ← getVnode vnode
  pure x.size

/-! ### The initial state -/

/-- Before `vfs_init`. -/
def emptyVfs : VfsState where
  inodes := []
  vnodes := []
  dentries := []
  vfss := []
  dentryCache := .hmapInit
  vnodeCache := .hmapInit
  globalRoot := none

/-- `tmpfs_mount`. -/
def tmpfsMount (dentry vfs : ℕ) : VfsM Unit := do
  let d ← getDentry dentry
  let rootInode ← newInode ⟨d.name, [], [], 0, 0, 0, 0⟩
  let rootVnode ← newVnode
    ⟨false, some .tmpfsOperations, some vfs, some rootInode, sIfdir ||| 0x1ff, 0, 0⟩
  modify fun s => { s with dentries := s.dentries.set dentry { d with vnode := some rootVnode } }
  let v ← getVfs vfs
  setVfs vfs { v with privateData := some ⟨0, .hmapInit⟩ }
  let number ← nextNumber vfs
  let i ← getInode rootInode
  setInode rootInode { i with number := number }
  addTnode vfs number rootInode

/-- `vfs_init`. The vnode that it caches is not the one that `tmpfs_mount` puts in the root. -/
def vfsInit : VfsM Unit := do
  let vfs := 0
  modify fun s => { s with vfss := s.vfss ++ [⟨false, none⟩] }
  let node ← newVnode ⟨false, none, some vfs, none, sIfdir ||| 0x1ff, 0, 0⟩
  let rootDentry ← newDentry ⟨[slash], none, some node⟩
  tmpfsMount rootDentry vfs
  let s ← read
  let d ← getDentry rootDentry
  let dentries ← deref (s.dentryCache.hmapAdd ⟨d.parent, d.name⟩ rootDentry)
  let x ← getVnode node
  let vnodes ← deref (s.vnodeCache.hmapAdd ⟨x.currVfs, x.number⟩ node)
  modify fun s => { s with
    dentryCache := dentries
    vnodeCache := vnodes
    globalRoot := some rootDentry }

end GoofyOs
