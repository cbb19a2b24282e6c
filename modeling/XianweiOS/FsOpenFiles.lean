import XianweiOS.FsInodeRelease
import XianweiOS.FsFileWrite
import XianweiOS.FsPath

/-! The file system in memory (`fs/inode.c`, `fs/dir.c`, `fs/file.c`): open inodes, directory
handles and the file table, over a mounted volume. Structures in the kernel heap have an
address; `sys_malloc` hands out addresses never used before, or fails as the stream `mallocs`
says. Reading through a null or dangling pointer stops the machine. A reference count stays
far below `2 ^ 32` and is a natural number. -/
namespace FsOpenFiles

open ByteStore HaltingProgram KernelBitmap DeviceIde FsVolume FsInodeTable FsBlockMap FsOwnership
  FsDirectory FsInodeRelease FsFileWrite

/-- `struct dir`. -/
structure Dir where
  inode : ℕ
  dirPos : ℕ

/-- `struct file`. -/
structure File where
  fdPos : ℕ
  fdFlag : ℕ
  fdInode : Option ℕ

/-- What the file system keeps in a task; `-1` in the descriptor table is `none`. -/
structure Task where
  fdTable : ℕ → Option ℕ
  cwdInodeNr : ℕ

/-- `cur` is the running task, `rootInode` the inode of `root_dir`. -/
structure Kernel (part : Partition) where
  vol : Volume part
  inodes : ℕ → Option Inode
  openInodes : List ℕ
  dirs : ℕ → Option Dir
  rootInode : ℕ
  fileTable : ℕ → File
  cur : Task
  next : ℕ
  mallocs : ℕ → Bool

variable {part : Partition}

def Kernel.withVol (s : Kernel part) (v : Volume part) : Kernel part := { s with vol := v }

def Kernel.setInode (s : Kernel part) (a : ℕ) (i : Inode) : Kernel part :=
  { s with inodes := Function.update s.inodes a (some i) }

def Kernel.setFile (s : Kernel part) (k : ℕ) (f : File) : Kernel part :=
  { s with fileTable := Function.update s.fileTable k f }

section Fields

variable (s : Kernel part)

@[simp] theorem Kernel.setInode_self (a : ℕ) (i : Inode) : (s.setInode a i).inodes a = some i :=
  Function.update_self _ _ _

theorem Kernel.setInode_ne {a b : ℕ} (i : Inode) (h : b ≠ a) :
    (s.setInode a i).inodes b = s.inodes b := Function.update_of_ne h _ _

@[simp] theorem Kernel.setFile_self (k : ℕ) (f : File) : (s.setFile k f).fileTable k = f :=
  Function.update_self _ _ _

theorem Kernel.setFile_ne {k j : ℕ} (f : File) (h : j ≠ k) :
    (s.setFile k f).fileTable j = s.fileTable j := Function.update_of_ne h _ _

@[simp] theorem Kernel.setInode_fileTable (a : ℕ) (i : Inode) :
    (s.setInode a i).fileTable = s.fileTable := rfl

@[simp] theorem Kernel.setFile_inodes (k : ℕ) (f : File) : (s.setFile k f).inodes = s.inodes := rfl

end Fields

/-- The answer of the next `sys_malloc`, whatever it is. The allocator of `kernel/memory.c` halts rather
than refuse a small request for want of a page. -/
def sysMalloc (s : Kernel part) : Bool × Kernel part :=
  (s.mallocs 0, { s with mallocs := fun k => s.mallocs (k + 1) })

/-- A structure for an inode, not yet in `open_inodes`. -/
def Kernel.newInode (s : Kernel part) (i : Inode) : Kernel part :=
  { s with inodes := Function.update s.inodes s.next (some i), next := s.next + 1 }

def Kernel.freeInode (s : Kernel part) (a : ℕ) : Kernel part :=
  { s with inodes := Function.update s.inodes a none }

/-- The walk of `inode_open` along `open_inodes`. -/
def findOpen (inodes : ℕ → Option Inode) (inodeNo : ℕ) : List ℕ → Option (Option ℕ)
  | [] => some none
  | a :: elems => do
    let i ← inodes a
    if i.iNo = inodeNo then return some a else findOpen inodes inodeNo elems

/-- The inode is not in the list: it is read from the disk and pushed. -/
def inodeLoad (inodeNo : ℕ) (s : Kernel part) : Option (ℕ × Kernel part) := do
  let (mallocInode, s) := sysMalloc s
  let (mallocBuf, s) := sysMalloc s
  assert (mallocInode = true ∧ mallocBuf = true)
  let i ← inodeRead part s.vol.disk inodeNo
  return (s.next, { s.newInode { i with openCnts := 1 } with openInodes := s.next :: s.openInodes })

def inodeOpen (inodeNo : ℕ) (s : Kernel part) : Option (ℕ × Kernel part) := do
  match ← findOpen s.inodes inodeNo s.openInodes with
  | some a =>
    let i ← s.inodes a
    return (a, s.setInode a { i with openCnts := i.openCnts + 1 })
  | none => inodeLoad inodeNo s

def inodeClose (a : ℕ) (s : Kernel part) : Option (Kernel part) := do
  let i ← s.inodes a
  if i.openCnts = 1 then
    return { s.freeInode a with openInodes := s.openInodes.erase a }
  else
    return s.setInode a
      { i with openCnts := if i.openCnts = 0 then 2 ^ 32 - 1 else i.openCnts - 1 }

/-- `struct dir*` other than a null pointer. -/
inductive DirPtr where
  | root
  | heap (a : ℕ)
  deriving DecidableEq, Repr

def dirOpen (inodeNo : ℕ) (s : Kernel part) : Option (Option DirPtr × Kernel part) := do
  let (mallocDir, s) := sysMalloc s
  if mallocDir = false then return (none, s)
  else
    let (a, s) ← inodeOpen inodeNo s
    return (some (.heap s.next),
      { s with dirs := Function.update s.dirs s.next (some ⟨a, 0⟩), next := s.next + 1 })

/-- `dir->inode`. -/
def dirInode (s : Kernel part) : Option DirPtr → Option ℕ
  | none => none
  | some .root => some s.rootInode
  | some (.heap p) => (s.dirs p).map Dir.inode

/-- The root directory stays open. -/
def dirClose (d : Option DirPtr) (s : Kernel part) : Option (Kernel part) :=
  match d with
  | none => none
  | some .root => some s
  | some (.heap p) => do
    let dir ← s.dirs p
    let s ← inodeClose dir.inode s
    return { s with dirs := Function.update s.dirs p none }

def searchDirEntryIn (pdir : Option DirPtr) (name : List Byte) (s : Kernel part) :
    Option (Option DirEntry × Kernel part) := do
  let (mallocAllBlocks, s) := sysMalloc s
  if mallocAllBlocks = false then return (none, s)
  else
    let a ← dirInode s pdir
    let i ← s.inodes a
    let (mallocBuf, s) := sysMalloc s
    let dirE ← searchDirEntry true mallocBuf s.vol.disk i name
    return (dirE, s)

/-- `delete_dir_entry` on an open directory. -/
def deleteDirEntryIn (pdir : Option DirPtr) (inodeNo : ℕ) (s : Kernel part) :
    Option (Kernel part) := do
  let a ← dirInode s pdir
  let i ← s.inodes a
  let (_, i, v) ← deleteDirEntry i inodeNo s.vol
  return (s.setInode a i).withVol v

def inodeReleaseNo (inodeNo : ℕ) (s : Kernel part) : Option (Kernel part) := do
  let (a, s) ← inodeOpen inodeNo s
  let i ← s.inodes a
  let (mallocIoBuf, s) := sysMalloc s
  let v ← inodeRelease mallocIoBuf i inodeNo s.vol
  inodeClose a (s.withVol v)

def maxFilesOpen : ℕ := 32
def maxFilesOpenPerProc : ℕ := 8

def getFreeSlotInGlobal (s : Kernel part) : Option ℕ :=
  (List.range maxFilesOpen).find? fun k => 3 ≤ k && (s.fileTable k).fdInode.isNone

/-- The local descriptor, `-1` when the task has none left. -/
def pcbFdInstall (globalFdIdx : ℕ) (s : Kernel part) : ℤ × Kernel part :=
  match (List.range maxFilesOpenPerProc).find? fun k => 3 ≤ k && (s.cur.fdTable k).isNone with
  | none => (-1, s)
  | some k =>
    (k, { s with cur := { s.cur with fdTable := Function.update s.cur.fdTable k (some globalFdIdx) } })

/-- The kernel when a volume has been mounted: nothing is open, and the running task has the
three standard descriptors. -/
def mounted (v : Volume part) (mallocs : ℕ → Bool) : Kernel part where
  vol := v
  inodes := fun _ => none
  openInodes := []
  dirs := fun _ => none
  rootInode := 0
  fileTable := fun _ => ⟨0, 0, none⟩
  cur := ⟨fun k => if k < 3 then some k else none, 0⟩
  next := 0
  mallocs := mallocs

def openRootDir (s : Kernel part) : Option (Kernel part) := do
  let (a, s) ← inodeOpen part.sb.rootInodeNo s
  return { s with rootInode := a }

/-- Both inodes and the inode bitmap go to the disk. -/
def syncNewInode (parent new : Inode) (v : Volume part) : Option (Volume part) := do
  let disk ← inodeSync part v.disk parent zeroes
  let disk ← inodeSync part disk new zeroes
  bitmapSync (v.withDisk disk) new.iNo .inodeBitmap

/-- `file_create` once it has an inode number, an inode structure and a slot of the table. -/
def fileCreateAt (pdir : Option DirPtr) (filename : List Byte) (inodeNo new fdIdx : ℕ)
    (s : Kernel part) : Option (ℤ × Kernel part) := do
  let e ← createDirEntry filename inodeNo .regular
  let a ← dirInode s pdir
  let i ← s.inodes a
  let (ok, i, v) ← syncDirEntry e i s.vol
  let s := s.setInode a i
  if ok = false then
    return (-1, ((s.setFile fdIdx ⟨0, 0, none⟩).freeInode new).withVol (v.setInodeBit inodeNo false))
  else
    let v ← syncNewInode i (inodeInit inodeNo) v
    let s := (s.withVol v).setInode new { inodeInit inodeNo with openCnts := 1 }
    return pcbFdInstall fdIdx { s with openInodes := new :: s.openInodes }

def fileCreate (pdir : Option DirPtr) (filename : List Byte) (flag : ℕ) (s : Kernel part) :
    Option (ℤ × Kernel part) := do
  let (mallocIoBuf, s) := sysMalloc s
  if mallocIoBuf = false then return (-1, s)
  else
    let (inodeNo, v) ← inodeBitmapAlloc s.vol
    match inodeNo with
    | none => return (-1, s)
    | some inodeNo =>
      let (mallocInode, s) := sysMalloc s
      if mallocInode = false then return (-1, s.withVol (v.setInodeBit inodeNo false))
      else
        match getFreeSlotInGlobal s with
        | none => return (-1, s.withVol (v.setInodeBit inodeNo false))
        | some fdIdx =>
          fileCreateAt pdir filename inodeNo s.next fdIdx
            (((s.withVol v).newInode (inodeInit inodeNo)).setFile fdIdx ⟨0, flag, some s.next⟩)

/-- `flag & O_WRONLY || flag & O_RDWD`. -/
def writable (flag : ℕ) : Bool := flag.testBit 0 || flag.testBit 1

/-- The second writer is refused; the inode stays counted. -/
def fileOpen (inodeNo flag : ℕ) (s : Kernel part) : Option (ℤ × Kernel part) :=
  match getFreeSlotInGlobal s with
  | none => return (-1, s)
  | some fdIdx => do
    let (a, s) ← inodeOpen inodeNo s
    let i ← s.inodes a
    if writable flag = false then
      return pcbFdInstall fdIdx (s.setFile fdIdx ⟨0, flag, some a⟩)
    else if i.writeDeny = false then
      return pcbFdInstall fdIdx
        ((s.setInode a { i with writeDeny := true }).setFile fdIdx ⟨0, flag, some a⟩)
    else return (-1, s.setFile fdIdx ⟨0, flag, none⟩)

def fileClose (fdIdx : ℕ) (s : Kernel part) : Option (ℤ × Kernel part) := do
  let a ← (s.fileTable fdIdx).fdInode
  let i ← s.inodes a
  let s ← inodeClose a (s.setInode a { i with writeDeny := false })
  return (0, s.setFile fdIdx { s.fileTable fdIdx with fdInode := none })

/-- `file_write` on a slot of the table. -/
def fileWriteTo (fdIdx : ℕ) (buf : Bytes) (count : ℕ) (s : Kernel part) :
    Option (ℤ × Kernel part) := do
  let a ← (s.fileTable fdIdx).fdInode
  let i ← s.inodes a
  let (mallocIoBuf, s) := sysMalloc s
  let (mallocAllBlocks, s) := sysMalloc s
  let res ← fileWrite mallocIoBuf mallocAllBlocks (s.fileTable fdIdx).fdPos i s.vol buf count
  return (res.ret, ((s.setInode a res.inode).withVol res.vol).setFile fdIdx
    { s.fileTable fdIdx with fdPos := res.fdPos })

end FsOpenFiles
