import XianweiOS.FsProcesses
import XianweiOS.MemoryPages

/-! The context in which the file system asks the heap. `sys_malloc` and `sys_free` look at the
`pgdir` of the running thread: `NULL` is the kernel's heap, otherwise it is the process's own.
The calls are those of the file system once more, with a record of every `sys_free`: the
context the block was allocated in and the context it is freed in. -/
namespace FsHeapTrace

open ByteStore HaltingProgram KernelBitmap DeviceIde FsVolume FsInodeTable FsBlockMap FsOwnership
  FsDirectory FsInodeRelease FsFileWrite FsPath FsOpenFiles FsSyscalls FsProcesses
open MemoryPages (Ctx)

variable {part : Partition}

/-- `inodeHome` and `dirHome` are the contexts the structures were allocated in. -/
structure Traced (part : Partition) where
  kernel : Kernel part
  pgdir : Ctx
  inodeHome : ℕ → Ctx
  dirHome : ℕ → Ctx
  frees : List (Ctx × Ctx)

namespace Traced

def on (t : Traced part) (s : Kernel part) : Traced part := { t with kernel := s }

/-- The context of the new block, or `none` for a null pointer. -/
def malloc (t : Traced part) : Option Ctx × Traced part :=
  let (ok, s) := FsOpenFiles.sysMalloc t.kernel
  (if ok then some t.pgdir else none, t.on s)

def free (home : Ctx) (t : Traced part) : Traced part :=
  { t with frees := (home, t.pgdir) :: t.frees }

/-- A null pointer trips the assertion of `sys_free`. -/
def freeBuf (buf : Option Ctx) (t : Traced part) : Option (Traced part) := do
  let home ← buf
  return free home t

def withPgdir (t : Traced part) (c : Ctx) : Traced part := { t with pgdir := c }

/-- The structure is allocated with `pgdir` set to `NULL` meanwhile, the buffer without. -/
def inodeLoad (inodeNo : ℕ) (t : Traced part) : Option (ℕ × Traced part) := do
  let curPagedirBak := t.pgdir
  let (inodeFound, t) := malloc (t.withPgdir none)
  let (inodeBuf, t) := malloc (t.withPgdir curPagedirBak)
  let home ← inodeFound
  let i ← inodeRead part t.kernel.vol.disk inodeNo
  let a := t.kernel.next
  let t := t.on { t.kernel.newInode { i with openCnts := 1 } with
    openInodes := a :: t.kernel.openInodes }
  let t ← freeBuf inodeBuf { t with inodeHome := Function.update t.inodeHome a home }
  return (a, t)

def inodeOpen (inodeNo : ℕ) (t : Traced part) : Option (ℕ × Traced part) := do
  match ← findOpen t.kernel.inodes inodeNo t.kernel.openInodes with
  | some a =>
    let i ← t.kernel.inodes a
    return (a, t.on (t.kernel.setInode a { i with openCnts := i.openCnts + 1 }))
  | none => inodeLoad inodeNo t

/-- The last reference frees the structure, with `pgdir` set to `NULL`. -/
def inodeClose (a : ℕ) (t : Traced part) : Option (Traced part) := do
  let i ← t.kernel.inodes a
  let s ← FsOpenFiles.inodeClose a t.kernel
  if i.openCnts = 1 then
    let curPagedirBak := t.pgdir
    let t := free (t.inodeHome a) ((t.on s).withPgdir none)
    return t.withPgdir curPagedirBak
  else return t.on s

def dirOpen (inodeNo : ℕ) (t : Traced part) : Option (Option DirPtr × Traced part) := do
  let (pdir, t) := malloc t
  match pdir with
  | none => return (none, t)
  | some home =>
    let (a, t) ← inodeOpen inodeNo t
    let p := t.kernel.next
    return (some (.heap p),
      { t.on { t.kernel with dirs := Function.update t.kernel.dirs p (some ⟨a, 0⟩), next := p + 1 } with
        dirHome := Function.update t.dirHome p home })

def dirClose (d : Option DirPtr) (t : Traced part) : Option (Traced part) :=
  match d with
  | none => none
  | some .root => some t
  | some (.heap p) => do
    let dir ← t.kernel.dirs p
    let t ← inodeClose dir.inode t
    return free (t.dirHome p) (t.on { t.kernel with dirs := Function.update t.kernel.dirs p none })

def searchDirEntryIn (pdir : Option DirPtr) (name : List Byte) (t : Traced part) :
    Option (Option DirEntry × Traced part) := do
  let (allBlocks, t) := malloc t
  match allBlocks with
  | none => return (none, t)
  | some allBlocks =>
    let a ← dirInode t.kernel pdir
    let i ← t.kernel.inodes a
    let (buf, t) := malloc t
    let dirE ← searchDirEntry true buf.isSome t.kernel.vol.disk i name
    let t ← freeBuf buf t
    return (dirE, free allBlocks t)

/-- The caller has the buffer. -/
def deleteDirEntryIn (pdir : Option DirPtr) (inodeNo : ℕ) (t : Traced part) :
    Option (Traced part) := do
  let s ← FsOpenFiles.deleteDirEntryIn pdir inodeNo t.kernel
  return t.on s

def inodeReleaseNo (inodeNo : ℕ) (t : Traced part) : Option (Traced part) := do
  let (a, t) ← inodeOpen inodeNo t
  let i ← t.kernel.inodes a
  let (ioBuf, t) := malloc t
  let v ← inodeRelease ioBuf.isSome i inodeNo t.kernel.vol
  let t ← freeBuf ioBuf (t.on (t.kernel.withVol v))
  inodeClose a t

/-- The rollback frees the new inode in the context of the caller. -/
def fileCreateAt (pdir : Option DirPtr) (filename : List Byte) (inodeNo new fdIdx : ℕ) (ioBuf : Ctx)
    (t : Traced part) : Option (ℤ × Traced part) := do
  let e ← createDirEntry filename inodeNo .regular
  let a ← dirInode t.kernel pdir
  let i ← t.kernel.inodes a
  let (ok, i, v) ← syncDirEntry e i t.kernel.vol
  let s := t.kernel.setInode a i
  if ok = false then
    let t := free (t.inodeHome new)
      (t.on (((s.setFile fdIdx ⟨0, 0, none⟩).freeInode new).withVol (v.setInodeBit inodeNo false)))
    return (-1, free ioBuf t)
  else
    let v ← syncNewInode i (inodeInit inodeNo) v
    let s := (s.withVol v).setInode new { inodeInit inodeNo with openCnts := 1 }
    let (fd, s) := pcbFdInstall fdIdx { s with openInodes := new :: s.openInodes }
    return (fd, free ioBuf (t.on s))

/-- The new inode is allocated in the context of the caller. -/
def fileCreate (pdir : Option DirPtr) (filename : List Byte) (flag : ℕ) (t : Traced part) :
    Option (ℤ × Traced part) := do
  let (ioBuf, t) := malloc t
  match ioBuf with
  | none => return (-1, t)
  | some ioBuf =>
    let (inodeNo, v) ← inodeBitmapAlloc t.kernel.vol
    match inodeNo with
    | none => return (-1, free ioBuf t)
    | some inodeNo =>
      let (newFileInode, t) := malloc t
      match newFileInode with
      | none => return (-1, free ioBuf (t.on (t.kernel.withVol (v.setInodeBit inodeNo false))))
      | some home =>
        match getFreeSlotInGlobal t.kernel with
        | none =>
          return (-1, free ioBuf (free home (t.on (t.kernel.withVol (v.setInodeBit inodeNo false)))))
        | some fdIdx =>
          let new := t.kernel.next
          fileCreateAt pdir filename inodeNo new fdIdx ioBuf
            { t.on (((t.kernel.withVol v).newInode (inodeInit inodeNo)).setFile fdIdx
                ⟨0, flag, some new⟩) with
              inodeHome := Function.update t.inodeHome new home }

def fileOpen (inodeNo flag : ℕ) (t : Traced part) : Option (ℤ × Traced part) :=
  match getFreeSlotInGlobal t.kernel with
  | none => return (-1, t)
  | some fdIdx => do
    let (a, t) ← inodeOpen inodeNo t
    let i ← t.kernel.inodes a
    if writable flag = false then
      let (fd, s) := pcbFdInstall fdIdx (t.kernel.setFile fdIdx ⟨0, flag, some a⟩)
      return (fd, t.on s)
    else if i.writeDeny = false then
      let (fd, s) := pcbFdInstall fdIdx
        ((t.kernel.setInode a { i with writeDeny := true }).setFile fdIdx ⟨0, flag, some a⟩)
      return (fd, t.on s)
    else return (-1, t.on (t.kernel.setFile fdIdx ⟨0, flag, none⟩))

def fileClose (fdIdx : ℕ) (t : Traced part) : Option (ℤ × Traced part) := do
  let a ← (t.kernel.fileTable fdIdx).fdInode
  let i ← t.kernel.inodes a
  let t ← inodeClose a (t.on (t.kernel.setInode a { i with writeDeny := false }))
  return (0, t.on (t.kernel.setFile fdIdx { t.kernel.fileTable fdIdx with fdInode := none }))

/-- A write that fails keeps its buffers. -/
def fileWriteTo (fdIdx : ℕ) (buf : Bytes) (count : ℕ) (t : Traced part) :
    Option (ℤ × Traced part) := do
  let a ← (t.kernel.fileTable fdIdx).fdInode
  let i ← t.kernel.inodes a
  let (ioBuf, t) := malloc t
  let (allBlocks, t) := malloc t
  let res ← fileWrite ioBuf.isSome allBlocks.isSome (t.kernel.fileTable fdIdx).fdPos i t.kernel.vol
    buf count
  let t := t.on (((t.kernel.setInode a res.inode).withVol res.vol).setFile fdIdx
    { t.kernel.fileTable fdIdx with fdPos := res.fdPos })
  if res.ret = -1 then return (-1, t)
  else
    let t ← freeBuf allBlocks t
    let t ← freeBuf ioBuf t
    return (res.ret, t)

def fileReadFrom (fdIdx : ℕ) (buf : Bytes) (count : ℕ) (t : Traced part) :
    Option ((ℤ × Bytes) × Traced part) := do
  let a ← (t.kernel.fileTable fdIdx).fdInode
  let i ← t.kernel.inodes a
  let (ioBuf, t) := malloc t
  let (allBlocks, t) := malloc t
  let res ← FsFileRead.fileRead ioBuf.isSome allBlocks.isSome (t.kernel.fileTable fdIdx).fdPos i
    t.kernel.vol.disk buf count
  let t := t.on (t.kernel.setFile fdIdx { t.kernel.fileTable fdIdx with fdPos := res.fdPos })
  if res.ret = -1 then return ((-1, res.buf), t)
  else
    let t ← freeBuf allBlocks t
    let t ← freeBuf ioBuf t
    return ((res.ret, res.buf), t)

def searchEnd (parentInodeNo dirEntryNo : ℕ) (record : PathSearchRecord) (t : Traced part) :
    Option ((Option ℕ × PathSearchRecord) × Traced part) := do
  let t ← dirClose record.parentDir t
  let (d, t) ← dirOpen parentInodeNo t
  return ((asInt dirEntryNo, { record with parentDir := d, fileType := .directory }), t)

def searchLoop (name : List Byte) (subPath : Option (List Byte)) (parentDir : Option DirPtr)
    (parentInodeNo dirEntryNo : ℕ) (record : PathSearchRecord) (t : Traced part) :
    Option ((Option ℕ × PathSearchRecord) × Traced part) :=
  if name = [] then searchEnd parentInodeNo dirEntryNo record t
  else do
    assert (name.length < 16)
    let record := { record with searchedPath := record.searchedPath ++ slash :: name }
    assert (record.searchedPath.length < maxPathLen)
    let (dirE, t) ← searchDirEntryIn parentDir name t
    match dirE with
    | none => return ((none, record), t)
    | some dirE =>
      assert ((nextName subPath).1.length ≤ 16)
      if dirE.fType = FileType.directory.code then
        let a ← dirInode t.kernel parentDir
        let i ← t.kernel.inodes a
        let t ← dirClose parentDir t
        let (d, t) ← dirOpen dirE.iNo t
        searchLoop (nextName subPath).1 (nextName subPath).2 d i.iNo dirE.iNo
          { record with parentDir := d } t
      else if dirE.fType = FileType.regular.code then
        return ((asInt dirE.iNo, { record with fileType := .regular }), t)
      else
        searchLoop (nextName subPath).1 (nextName subPath).2 parentDir parentInodeNo dirE.iNo record t
  termination_by pathLeft name subPath
  decreasing_by
    · exact nextName_left ‹_›
    · exact nextName_left ‹_›

def searchFile (junk : Junk) (pathname : List Byte) (record : PathSearchRecord) (t : Traced part) :
    Option ((Option ℕ × PathSearchRecord) × Traced part) :=
  if pathname = rootPath ∨ pathname = rootDotPath ∨ pathname = rootDotdotPath then
    some ((some 0, ⟨[], some .root, .directory⟩), t)
  else do
    assert (pathname.head? = some slash ∧ 1 < pathname.length ∧ pathname.length < maxPathLen)
    assert ((pathParse pathname).1.length ≤ 16)
    searchLoop (pathParse pathname).1 (pathParse pathname).2 (some .root) 0 junk.dirEntryNo
      { record with parentDir := some .root, fileType := .unknown } t

def openFound (junk : Junk) (pathname : List Byte) (flags depth : ℕ) (inodeNo : Option ℕ)
    (record : PathSearchRecord) (t : Traced part) : Option (ℤ × Traced part) := do
  if record.fileType = .directory then
    let t ← dirClose record.parentDir t
    return (-1, t)
  else
    let searchedDepth ← pathDepthCnt junk.name' record.searchedPath
    if searchedDepth ≠ depth then
      let t ← dirClose record.parentDir t
      return (-1, t)
    else
      match inodeNo, creates flags with
      | none, false =>
        let t ← dirClose record.parentDir t
        return (-1, t)
      | some _, true =>
        let t ← dirClose record.parentDir t
        return (-1, t)
      | none, true =>
        let filename ← afterLastSlash pathname
        let (fd, t) ← fileCreate record.parentDir filename flags t
        let t ← dirClose record.parentDir t
        return (fd, t)
      | some inodeNo, false => fileOpen inodeNo flags t

def sysOpen (junk : Junk) (pathname : List Byte) (flags : ℕ) (t : Traced part) :
    Option (ℤ × Traced part) := do
  let last ← pathname.getLast?
  if last = slash then return (-1, t)
  else
    assert (flags ≤ 7)
    let depth ← pathDepthCnt junk.name pathname
    let ((inodeNo, record), t) ← searchFile junk pathname zeroRecord t
    openFound junk pathname flags depth inodeNo record t

/-- The ring buffer of a pipe is a page, not a block of the heap. -/
def closeSlot (globalFd : ℕ) (t : Traced part) : Option (ℤ × Traced part) :=
  if (t.kernel.fileTable globalFd).fdFlag = pipeFlag then
    some (0, t.on (pipeClose globalFd t.kernel))
  else fileClose globalFd t

def sysClose (fd : ℕ) (t : Traced part) : Option (ℤ × Traced part) :=
  if fd ≤ 2 then return (-1, t)
  else do
    let globalFd ← fdLocal2global fd t.kernel
    let (ret, t) ← closeSlot globalFd t
    return (ret, t.on (Kernel.clearFd fd t.kernel))

def sysWrite (fd : ℕ) (buf : Bytes) (count : ℕ) (t : Traced part) : Option (ℤ × Traced part) :=
  if fd = 1 ∨ fd = 2 then do
    assert (count ≤ 1024)
    return (count, t)
  else do
    let globalFd ← fdLocal2global fd t.kernel
    assert ((t.kernel.fileTable globalFd).fdFlag ≠ pipeFlag)
    if writable (t.kernel.fileTable globalFd).fdFlag then fileWriteTo globalFd buf count t
    else return (-1, t)

def sysRead (fd : ℕ) (buf : Bytes) (count : ℕ) (t : Traced part) :
    Option ((ℤ × Bytes) × Traced part) :=
  if fd = 1 ∨ fd = 2 then return ((-1, buf), t)
  else do
    assert (fd ≠ 0)
    let globalFd ← fdLocal2global fd t.kernel
    assert ((t.kernel.fileTable globalFd).fdFlag ≠ pipeFlag)
    fileReadFrom globalFd buf count t

def sysLseek (ioqWord fd : ℕ) (offset : ℤ) (whence : Whence) (t : Traced part) :
    Option (ℤ × Traced part) := do
  let (pos, s) ← FsProcesses.sysLseek ioqWord fd offset whence t.kernel
  return (pos, t.on s)

def unlinkFound (inodeNo : ℕ) (parentDir : Option DirPtr) (t : Traced part) :
    Option (ℤ × Traced part) := do
  let (ioBuf, t) := malloc t
  match ioBuf with
  | none =>
    let t ← dirClose parentDir t
    return (-1, t)
  | some ioBuf =>
    let t ← deleteDirEntryIn parentDir inodeNo t
    let t ← inodeReleaseNo inodeNo t
    let t ← dirClose parentDir (free ioBuf t)
    return (0, t)

def sysUnlink (junk : Junk) (pathname : List Byte) (t : Traced part) : Option (ℤ × Traced part) := do
  assert (pathname.length < maxPathLen)
  let ((inodeNo, record), t) ← searchFile junk pathname (junkRecord junk) t
  assert (inodeNo ≠ some 0)
  match inodeNo with
  | none =>
    let t ← dirClose record.parentDir t
    return (-1, t)
  | some inodeNo =>
    if record.fileType = .directory then
      let t ← dirClose record.parentDir t
      return (-1, t)
    else
      let inUse ← inFileTable inodeNo t.kernel maxFilesOpen 0
      if inUse then
        let t ← dirClose record.parentDir t
        return (-1, t)
      else unlinkFound inodeNo record.parentDir t

def mkdirRollback (parentDir : Option DirPtr) (inodeNo : ℕ) (v : Volume part) (ioBuf : Ctx)
    (t : Traced part) : Option (ℤ × Traced part) := do
  let t ← dirClose parentDir (t.on (t.kernel.withVol (v.setInodeBit inodeNo false)))
  return (-1, free ioBuf t)

/-- The inode of the new directory is on the stack. -/
def mkdirIn (parentDir : Option DirPtr) (dirname : List Byte) (ioBuf : Ctx) (t : Traced part) :
    Option (ℤ × Traced part) := do
  let (inodeNo, v) ← inodeBitmapAlloc t.kernel.vol
  match inodeNo with
  | none =>
    let t ← dirClose parentDir t
    return (-1, free ioBuf t)
  | some inodeNo =>
    let a ← dirInode t.kernel parentDir
    let i ← t.kernel.inodes a
    let (new, v) ← newDirectory inodeNo i.iNo v
    match new with
    | none => mkdirRollback parentDir inodeNo v ioBuf t
    | some new =>
      let e ← createDirEntry dirname inodeNo .directory
      let (ok, i, v) ← syncDirEntry e i v
      let t := t.on (t.kernel.setInode a i)
      if ok = false then mkdirRollback parentDir inodeNo v ioBuf t
      else
        let v ← syncNewInode i new v
        let t ← dirClose parentDir (free ioBuf (t.on (t.kernel.withVol v)))
        return (0, t)

def sysMkdir (junk : Junk) (pathname : List Byte) (t : Traced part) : Option (ℤ × Traced part) := do
  let (ioBuf, t) := malloc t
  match ioBuf with
  | none => return (-1, t)
  | some ioBuf =>
    let ((inodeNo, record), t) ← searchFile junk pathname zeroRecord t
    match inodeNo with
    | some _ =>
      let t ← dirClose record.parentDir t
      return (-1, free ioBuf t)
    | none =>
      let pathnameDepth ← pathDepthCnt junk.name pathname
      let searchedDepth ← pathDepthCnt junk.name' record.searchedPath
      if pathnameDepth ≠ searchedDepth then
        let t ← dirClose record.parentDir t
        return (-1, free ioBuf t)
      else
        let dirname ← afterLastSlash record.searchedPath
        mkdirIn record.parentDir dirname ioBuf t

def sysOpendir (junk : Junk) (name : List Byte) (t : Traced part) :
    Option (Option DirPtr × Traced part) := do
  assert (name.length < maxPathLen)
  if name = rootPath then return (some .root, t)
  else
    let ((inodeNo, record), t) ← searchFile junk name (junkRecord junk) t
    match inodeNo, record.fileType with
    | some inodeNo, .directory =>
      let (ret, t) ← dirOpen inodeNo t
      let t ← dirClose record.parentDir t
      return (ret, t)
    | _, _ =>
      let t ← dirClose record.parentDir t
      return (none, t)

def sysClosedir (dir : Option DirPtr) (t : Traced part) : Option (ℤ × Traced part) :=
  match dir with
  | none => return (-1, t)
  | some d => do
    let t ← dirClose (some d) t
    return (0, t)

def moveDirPos (dir : DirPtr) (dirPos : ℕ) (t : Traced part) : Option (Unit × Traced part) := do
  let (_, s) ← FsSyscalls.moveDirPos dir dirPos t.kernel
  return ((), t.on s)

def dirRemove (parentDir childDir : Option DirPtr) (t : Traced part) : Option (ℤ × Traced part) := do
  let a ← dirInode t.kernel childDir
  let i ← t.kernel.inodes a
  assert (∀ k ∈ List.range 12, i.iSectors (k + 1) = 0)
  let (ioBuf, t) := malloc t
  match ioBuf with
  | none => return (-1, t)
  | some ioBuf =>
    let t ← deleteDirEntryIn parentDir i.iNo t
    let i ← t.kernel.inodes a
    let t ← inodeReleaseNo i.iNo t
    return (0, free ioBuf t)

def rmdirFound (inodeNo : ℕ) (parentDir : Option DirPtr) (t : Traced part) :
    Option (ℤ × Traced part) := do
  let (d, t) ← dirOpen inodeNo t
  let a ← dirInode t.kernel d
  let i ← t.kernel.inodes a
  if dirIsEmpty i = false then
    let t ← dirClose d t
    let t ← dirClose parentDir t
    return (-1, t)
  else
    let (ret, t) ← dirRemove parentDir d t
    let t ← dirClose d t
    let t ← dirClose parentDir t
    return (ret, t)

def sysRmdir (junk : Junk) (pathname : List Byte) (t : Traced part) : Option (ℤ × Traced part) := do
  let ((inodeNo, record), t) ← searchFile junk pathname zeroRecord t
  assert (inodeNo ≠ some 0)
  match inodeNo with
  | none =>
    let t ← dirClose record.parentDir t
    return (-1, t)
  | some inodeNo =>
    if record.fileType = .regular then
      let t ← dirClose record.parentDir t
      return (-1, t)
    else rmdirFound inodeNo record.parentDir t

def sysChdir (junk : Junk) (path : List Byte) (t : Traced part) : Option (ℤ × Traced part) := do
  let ((inodeNo, record), t) ← searchFile junk path zeroRecord t
  match inodeNo, record.fileType with
  | some inodeNo, .directory =>
    let t ← dirClose record.parentDir
      (t.on { t.kernel with cur := { t.kernel.cur with cwdInodeNr := inodeNo } })
    return (0, t)
  | _, _ =>
    let t ← dirClose record.parentDir t
    return (-1, t)

def sysStat (junk : Junk) (path : List Byte) (t : Traced part) :
    Option (Option Stat × Traced part) :=
  if path = rootPath ∨ path = rootDotPath ∨ path = rootDotdotPath then do
    let i ← t.kernel.inodes t.kernel.rootInode
    return (some ⟨0, i.iSize, .directory⟩, t)
  else do
    let ((inodeNo, record), t) ← searchFile junk path zeroRecord t
    match inodeNo with
    | none =>
      let t ← dirClose record.parentDir t
      return (none, t)
    | some inodeNo =>
      let (a, t) ← inodeOpen inodeNo t
      let i ← t.kernel.inodes a
      let t ← inodeClose a t
      let t ← dirClose record.parentDir t
      return (some ⟨inodeNo, i.iSize, record.fileType⟩, t)

def getParentDirInodeNr (childInodeNr : ℕ) (t : Traced part) : Option (ℕ × Traced part) := do
  let (a, t) ← inodeOpen childInodeNr t
  let i ← t.kernel.inodes a
  assert (part.sb.dataStartLba ≤ i.iSectors 0)
  let t ← inodeClose a t
  let parentInodeNr ← dotdotNumber t.kernel.vol.disk (i.iSectors 0)
  return (parentInodeNr, t)

def getChildDirName (pInodeNr cInodeNr : ℕ) (t : Traced part) :
    Option (Option (List Byte) × Traced part) := do
  let (a, t) ← inodeOpen pInodeNr t
  let i ← t.kernel.inodes a
  let allBlocks ← loadAllBlocks t.kernel.vol.disk i
  let t ← inodeClose a t
  let name ← nameOfNumber t.kernel.vol.disk allBlocks cInodeNr
    (if i.iSectors 12 = 0 then 12 else 140) 0
  return (name, t)

def cwdLoop : (fuel childInodeNr : ℕ) → List Byte → Traced part →
    Option (Option (List Byte) × Traced part)
  | 0, _, _, _ => none
  | fuel + 1, childInodeNr, fullPathReverse, t =>
    if childInodeNr = 0 then some (some fullPathReverse, t)
    else do
      let (parentInodeNr, t) ← getParentDirInodeNr childInodeNr t
      let (name, t) ← getChildDirName parentInodeNr childInodeNr t
      match name with
      | none => return (none, t)
      | some name =>
        assert ((fullPathReverse ++ slash :: name).length < maxPathLen)
        cwdLoop fuel parentInodeNr (fullPathReverse ++ slash :: name) t

def sysGetcwd (fuel size : ℕ) (t : Traced part) : Option (Option (List Byte) × Traced part) := do
  let (ioBuf, t) := malloc t
  match ioBuf with
  | none => return (none, t)
  | some ioBuf =>
    assert (t.kernel.cur.cwdInodeNr < 4096)
    if t.kernel.cur.cwdInodeNr = 0 then return (some rootPath, free ioBuf t)
    else
      let (path, t) ← cwdLoop fuel t.kernel.cur.cwdInodeNr [] t
      match path with
      | none => return (none, free ioBuf t)
      | some path =>
        assert (path.length ≤ size)
        return (some (reverseLoop path.length path []), free ioBuf t)

end Traced

/-- The threads of the machine; a user process has a page directory of its own. -/
structure System (part : Partition) where
  kernel : Kernel part
  inodeHome : ℕ → Ctx
  dirHome : ℕ → Ctx
  frees : List (Ctx × Ctx)
  procs : ℕ → Option Task
  user : ℕ → Bool

namespace System

def ctx (w : System part) (p : ℕ) : Ctx := if w.user p then some p else none

/-- A system call of thread `p`. -/
def call {α : Type} (w : System part) (p : ℕ) (f : Traced part → Option (α × Traced part)) :
    Option (System part) := do
  let task ← w.procs p
  let (_, t) ← f ⟨{ w.kernel with cur := task }, w.ctx p, w.inodeHome, w.dirHome, w.frees⟩
  return { w with
    kernel := t.kernel
    inodeHome := t.inodeHome
    dirHome := t.dirHome
    frees := t.frees
    procs := Function.update w.procs p (some t.kernel.cur) }

end System

/-- The calls of the file system, by thread `p`. -/
inductive Call where
  | open (p : ℕ) (junk : Junk) (pathname : List Byte) (flags : ℕ)
  | close (p fd : ℕ)
  | read (p fd : ℕ) (buf : Bytes) (count : ℕ)
  | write (p fd : ℕ) (buf : Bytes) (count : ℕ)
  | lseek (p ioqWord fd : ℕ) (offset : ℤ) (whence : Whence)
  | unlink (p : ℕ) (junk : Junk) (pathname : List Byte)
  | mkdir (p : ℕ) (junk : Junk) (pathname : List Byte)
  | opendir (p : ℕ) (junk : Junk) (name : List Byte)
  | closedir (p : ℕ) (dir : Option DirPtr)
  | movedir (p : ℕ) (dir : DirPtr) (dirPos : ℕ)
  | rmdir (p : ℕ) (junk : Junk) (pathname : List Byte)
  | getcwd (p fuel size : ℕ)
  | chdir (p : ℕ) (junk : Junk) (path : List Byte)
  | stat (p : ℕ) (junk : Junk) (path : List Byte)

def Call.exec : Call → System part → Option (System part)
  | .open p junk pathname flags, w => w.call p (Traced.sysOpen junk pathname flags)
  | .close p fd, w => w.call p (Traced.sysClose fd)
  | .read p fd buf count, w => w.call p (Traced.sysRead fd buf count)
  | .write p fd buf count, w => w.call p (Traced.sysWrite fd buf count)
  | .lseek p ioqWord fd offset whence, w => w.call p (Traced.sysLseek ioqWord fd offset whence)
  | .unlink p junk pathname, w => w.call p (Traced.sysUnlink junk pathname)
  | .mkdir p junk pathname, w => w.call p (Traced.sysMkdir junk pathname)
  | .opendir p junk name, w => w.call p (Traced.sysOpendir junk name)
  | .closedir p dir, w => w.call p (Traced.sysClosedir dir)
  | .movedir p dir dirPos, w => w.call p (Traced.moveDirPos dir dirPos)
  | .rmdir p junk pathname, w => w.call p (Traced.sysRmdir junk pathname)
  | .getcwd p fuel size, w => w.call p (Traced.sysGetcwd fuel size)
  | .chdir p junk path, w => w.call p (Traced.sysChdir junk path)
  | .stat p junk path, w => w.call p (Traced.sysStat junk path)

/-- The volume is mounted by the kernel's main thread. -/
def openRootDir (v : Volume part) (mallocs : ℕ → Bool) : Option (Traced part) := do
  let (a, t) ← Traced.inodeOpen part.sb.rootInodeNo
    ⟨mounted v mallocs, none, fun _ => none, fun _ => none, []⟩
  return t.on { t.kernel with rootInode := a }

def boot (v : Volume part) (mallocs : ℕ → Bool) (procs : ℕ → Option Task) (user : ℕ → Bool) :
    Option (System part) := do
  let t ← openRootDir v mallocs
  return ⟨t.kernel, t.inodeHome, t.dirHome, t.frees, procs, user⟩

/-- A traced computation that returns is the file system's own, with a record. -/
def Refines {α : Type} (x : Option (α × Traced part)) (y : Option (α × Kernel part)) : Prop :=
  ∀ r t, x = some (r, t) → y = some (r, t.kernel)

def RefinesState (x : Option (Traced part)) (y : Option (Kernel part)) : Prop :=
  ∀ t, x = some t → y = some t.kernel

section Refines

variable {α β : Type} {t : Traced part}

theorem Refines.pure (r : α) (t : Traced part) :
    Refines (Pure.pure (r, t)) (Pure.pure (r, t.kernel)) := by
  intro r' t' h
  obtain ⟨rfl, rfl⟩ := Prod.mk.inj (Option.some.inj h)
  rfl

theorem Refines.bind {x : Option (α × Traced part)} {y : Option (α × Kernel part)}
    {f : α × Traced part → Option (β × Traced part)} {g : α × Kernel part → Option (β × Kernel part)}
    (hx : Refines x y) (hf : ∀ a t, Refines (f (a, t)) (g (a, t.kernel))) :
    Refines (x >>= f) (y >>= g) := by
  intro r t h
  obtain ⟨⟨a, t₁⟩, hxa, hfa⟩ := bind_some_iff.mp h
  exact bind_some_iff.mpr ⟨(a, t₁.kernel), hx a t₁ hxa, hf a t₁ r t hfa⟩

theorem RefinesState.bind {x : Option (Traced part)} {y : Option (Kernel part)}
    {f : Traced part → Option (β × Traced part)} {g : Kernel part → Option (β × Kernel part)}
    (hx : RefinesState x y) (hf : ∀ t, Refines (f t) (g t.kernel)) :
    Refines (x >>= f) (y >>= g) := by
  intro r t h
  obtain ⟨t₁, hxa, hfa⟩ := bind_some_iff.mp h
  exact bind_some_iff.mpr ⟨t₁.kernel, hx t₁ hxa, hf t₁ r t hfa⟩

/-- Data read from the state or the disk. -/
theorem Refines.data (z : Option α) {f : α → Option (β × Traced part)}
    {g : α → Option (β × Kernel part)} (hf : ∀ a, Refines (f a) (g a)) :
    Refines (z >>= f) (z >>= g) := by
  intro r t h
  obtain ⟨a, ha, hfa⟩ := bind_some_iff.mp h
  exact bind_some_iff.mpr ⟨a, ha, hf a r t hfa⟩

/-- The same for a search, which returns a number and a record. -/
def RefinesSearch (x : Option ((Option ℕ × PathSearchRecord) × Traced part))
    (y : Option (Option ℕ × PathSearchRecord × Kernel part)) : Prop :=
  ∀ r record t, x = some ((r, record), t) → y = some (r, record, t.kernel)

theorem RefinesSearch.bind {x : Option ((Option ℕ × PathSearchRecord) × Traced part)}
    {y : Option (Option ℕ × PathSearchRecord × Kernel part)}
    {f : (Option ℕ × PathSearchRecord) × Traced part → Option (β × Traced part)}
    {g : Option ℕ × PathSearchRecord × Kernel part → Option (β × Kernel part)}
    (hx : RefinesSearch x y)
    (hf : ∀ r record t, Refines (f ((r, record), t)) (g (r, record, t.kernel))) :
    Refines (x >>= f) (y >>= g) := by
  intro r t h
  obtain ⟨⟨⟨n, record⟩, t₁⟩, hxa, hfa⟩ := bind_some_iff.mp h
  exact bind_some_iff.mpr ⟨(n, record, t₁.kernel), hx n record t₁ hxa, hf n record t₁ r t hfa⟩

theorem malloc_kernel {buf : Option Ctx} {t' : Traced part} (h : Traced.malloc t = (buf, t')) :
    FsOpenFiles.sysMalloc t.kernel = (buf.isSome, t'.kernel) := by
  obtain ⟨rfl, rfl⟩ := Prod.mk.inj h
  refine Prod.ext ?_ rfl
  cases hb : t.kernel.mallocs 0 with
  | false => simp [FsOpenFiles.sysMalloc, hb]
  | true => simp [FsOpenFiles.sysMalloc, hb]

theorem freeBuf_kernel {buf : Option Ctx} {t' : Traced part}
    (h : Traced.freeBuf buf t = some t') : buf.isSome = true ∧ t'.kernel = t.kernel := by
  simp only [Traced.freeBuf, bind_some_iff, Option.pure_def, Option.some.injEq] at h
  obtain ⟨home, rfl, rfl⟩ := h
  exact ⟨rfl, rfl⟩

theorem inodeOpen_refines (inodeNo : ℕ) (t : Traced part) :
    Refines (Traced.inodeOpen inodeNo t) (FsOpenFiles.inodeOpen inodeNo t.kernel) := by
  refine .data _ fun found => ?_
  cases found with
  | some a => exact .data _ fun i => .pure a (t.on _)
  | none =>
    intro a t' h
    simp only [Traced.inodeLoad] at h
    rcases h₁ : Traced.malloc (t.withPgdir none) with ⟨inodeFound, t₁⟩
    simp only [h₁] at h
    rcases h₂ : Traced.malloc (t₁.withPgdir t.pgdir) with ⟨inodeBuf, t₂⟩
    simp only [h₂, bind_some_iff, Option.pure_def, Option.some.injEq, Prod.mk.injEq] at h
    obtain ⟨home, rfl, i, hi, t₃, hfree, rfl, rfl⟩ := h
    obtain ⟨hbuf, hk⟩ := freeBuf_kernel hfree
    have hm₁ : FsOpenFiles.sysMalloc t.kernel = (true, t₁.kernel) := malloc_kernel h₁
    have hm₂ := malloc_kernel h₂
    rw [hbuf] at hm₂
    change FsOpenFiles.sysMalloc t₁.kernel = (true, t₂.kernel) at hm₂
    simp only [inodeLoad, hm₁, hm₂, bind_some_iff, assert_eq_some]
    refine ⟨(), ⟨trivial, trivial⟩, i, hi, ?_⟩
    rw [hk]
    rfl

theorem inodeClose_refines (a : ℕ) (t : Traced part) :
    RefinesState (Traced.inodeClose a t) (FsOpenFiles.inodeClose a t.kernel) := by
  intro t' h
  simp only [Traced.inodeClose, bind_some_iff] at h
  obtain ⟨i, -, s, hs, h⟩ := h
  rw [hs]
  split at h
  · obtain rfl := Option.some.inj h
    rfl
  · obtain rfl := Option.some.inj h
    rfl

theorem dirOpen_refines (inodeNo : ℕ) (t : Traced part) :
    Refines (Traced.dirOpen inodeNo t) (FsOpenFiles.dirOpen inodeNo t.kernel) := by
  simp only [Traced.dirOpen, dirOpen]
  rcases h₁ : Traced.malloc t with ⟨pdir, t₁⟩
  simp only [malloc_kernel h₁]
  cases pdir with
  | none => exact .pure _ _
  | some home =>
    refine Refines.bind (inodeOpen_refines inodeNo t₁) fun a t₂ => ?_
    exact .pure _ { t₂.on _ with dirHome := _ }

theorem dirClose_refines (d : Option DirPtr) (t : Traced part) :
    RefinesState (Traced.dirClose d t) (FsOpenFiles.dirClose d t.kernel) := by
  intro t' h
  rcases d with _ | _ | p
  · cases h
  · obtain rfl := Option.some.inj h
    rfl
  · simp only [Traced.dirClose, bind_some_iff, Option.pure_def, Option.some.injEq] at h
    obtain ⟨dir, hdir, t₁, hc, rfl⟩ := h
    simp only [dirClose, bind_some_iff]
    exact ⟨dir, hdir, t₁.kernel, inodeClose_refines _ _ _ hc, rfl⟩

theorem dirClose_return (d : Option DirPtr) (t : Traced part) (r : α) :
    Refines (Traced.dirClose d t >>= fun t => Pure.pure (r, t))
      (FsOpenFiles.dirClose d t.kernel >>= fun s => Pure.pure (r, s)) :=
  (dirClose_refines d t).bind fun t => .pure r t

theorem dirClose_free (d : Option DirPtr) (t : Traced part) (r : α) (ioBuf : Ctx) :
    Refines (Traced.dirClose d t >>= fun t => Pure.pure (r, Traced.free ioBuf t))
      (FsOpenFiles.dirClose d t.kernel >>= fun s => Pure.pure (r, s)) :=
  (dirClose_refines d t).bind fun t => .pure r (Traced.free ioBuf t)

theorem searchDirEntryIn_refines (d : Option DirPtr) (name : List Byte) (t : Traced part) :
    Refines (Traced.searchDirEntryIn d name t)
      (FsOpenFiles.searchDirEntryIn d name t.kernel) := by
  simp only [Traced.searchDirEntryIn, searchDirEntryIn]
  rcases h₁ : Traced.malloc t with ⟨allBlocks, t₁⟩
  simp only [malloc_kernel h₁]
  cases allBlocks with
  | none => exact .pure _ _
  | some home =>
    refine .data _ fun a => .data _ fun i => ?_
    rcases h₂ : Traced.malloc t₁ with ⟨buf, t₂⟩
    simp only [malloc_kernel h₂]
    refine .data _ fun dirE => ?_
    intro r t' h
    simp only [bind_some_iff, Option.pure_def, Option.some.injEq, Prod.mk.injEq] at h
    obtain ⟨t₃, hfree, rfl, rfl⟩ := h
    rw [← (freeBuf_kernel hfree).2]
    rfl

theorem deleteDirEntryIn_refines (d : Option DirPtr) (inodeNo : ℕ) (t : Traced part) :
    RefinesState (Traced.deleteDirEntryIn d inodeNo t)
      (FsOpenFiles.deleteDirEntryIn d inodeNo t.kernel) := by
  intro t' h
  simp only [Traced.deleteDirEntryIn, bind_some_iff, Option.pure_def, Option.some.injEq] at h
  obtain ⟨s, hs, rfl⟩ := h
  exact hs

theorem inodeReleaseNo_refines (inodeNo : ℕ) (t : Traced part) :
    RefinesState (Traced.inodeReleaseNo inodeNo t)
      (FsOpenFiles.inodeReleaseNo inodeNo t.kernel) := by
  intro t' h
  simp only [Traced.inodeReleaseNo, bind_some_iff] at h
  obtain ⟨⟨a, t₁⟩, ho, i, hi, h⟩ := h
  rcases h₁ : Traced.malloc t₁ with ⟨ioBuf, t₂⟩
  simp only [h₁] at h
  obtain ⟨v, hv, t₃, hfree, hclose⟩ := h
  simp only [inodeReleaseNo, bind_some_iff]
  refine ⟨_, inodeOpen_refines inodeNo t a t₁ ho, i, hi, ?_⟩
  simp only [malloc_kernel h₁]
  refine ⟨v, hv, ?_⟩
  have hkernel : t₃.kernel = t₂.kernel.withVol v := (freeBuf_kernel hfree).2
  rw [← hkernel]
  exact inodeClose_refines a t₃ t' hclose

theorem fileCreateAt_refines (d : Option DirPtr) (filename : List Byte) (inodeNo new fdIdx : ℕ)
    (ioBuf : Ctx) (t : Traced part) :
    Refines (Traced.fileCreateAt d filename inodeNo new fdIdx ioBuf t)
      (FsOpenFiles.fileCreateAt d filename inodeNo new fdIdx t.kernel) := by
  simp only [Traced.fileCreateAt, fileCreateAt]
  refine .data _ fun e => .data _ fun a => .data _ fun i => .data _ ?_
  rintro ⟨ok, i', v⟩
  simp only
  split
  · exact .pure _ (Traced.free ioBuf (Traced.free _ (t.on _)))
  · exact .data _ fun v' => .pure _ (Traced.free ioBuf (t.on _))

theorem fileCreate_refines (d : Option DirPtr) (filename : List Byte) (flag : ℕ) (t : Traced part) :
    Refines (Traced.fileCreate d filename flag t)
      (FsOpenFiles.fileCreate d filename flag t.kernel) := by
  simp only [Traced.fileCreate, fileCreate]
  rcases h₁ : Traced.malloc t with ⟨ioBuf, t₁⟩
  simp only [malloc_kernel h₁]
  cases ioBuf with
  | none => exact .pure _ _
  | some ioBuf =>
    apply Refines.data
    rintro ⟨inodeNo, v⟩
    cases inodeNo with
    | none => exact .pure _ (Traced.free ioBuf t₁)
    | some inodeNo =>
      rcases h₂ : Traced.malloc t₁ with ⟨newFileInode, t₂⟩
      simp only [malloc_kernel h₂]
      cases newFileInode with
      | none => exact .pure _ (Traced.free ioBuf (t₂.on _))
      | some home =>
        simp only [Option.isSome_some, Bool.true_eq_false, if_false]
        cases getFreeSlotInGlobal t₂.kernel with
        | none => exact .pure _ (Traced.free ioBuf (Traced.free home (t₂.on _)))
        | some fdIdx => exact fileCreateAt_refines d filename inodeNo _ fdIdx ioBuf _

theorem fileOpen_refines (inodeNo flag : ℕ) (t : Traced part) :
    Refines (Traced.fileOpen inodeNo flag t) (FsOpenFiles.fileOpen inodeNo flag t.kernel) := by
  simp only [Traced.fileOpen, fileOpen]
  cases getFreeSlotInGlobal t.kernel with
  | none => exact .pure _ t
  | some fdIdx =>
    refine Refines.bind (inodeOpen_refines inodeNo t) fun a t₁ => .data _ fun i => ?_
    split
    · exact .pure _ (t₁.on _)
    · split
      · exact .pure _ (t₁.on _)
      · exact .pure _ (t₁.on _)

theorem fileClose_refines (fdIdx : ℕ) (t : Traced part) :
    Refines (Traced.fileClose fdIdx t) (FsOpenFiles.fileClose fdIdx t.kernel) := by
  refine .data _ fun a => .data _ fun i => ?_
  exact (inodeClose_refines a (t.on _)).bind fun t₁ => .pure _ (t₁.on _)

/-- Buffers are freed behind a result that is not `-1`. -/
theorem twoBuffers_refines {ioBuf allBlocks : Option Ctx} {P : Prop} [Decidable P] {q r : α}
    (t : Traced part) (hq : P → q = r) :
    Refines (if P then Pure.pure (q, t) else Traced.freeBuf allBlocks t >>= fun t =>
      Traced.freeBuf ioBuf t >>= fun t => Pure.pure (r, t)) (Pure.pure (r, t.kernel)) := by
  split
  · rename_i hP
    rw [hq hP]
    exact .pure r t
  · intro r' t' h
    simp only [bind_some_iff, Option.pure_def, Option.some.injEq, Prod.mk.injEq] at h
    obtain ⟨t₁, h₁, t₂, h₂, rfl, rfl⟩ := h
    rw [(freeBuf_kernel h₂).2, (freeBuf_kernel h₁).2]
    rfl

theorem fileWriteTo_refines (fdIdx : ℕ) (buf : Bytes) (count : ℕ) (t : Traced part) :
    Refines (Traced.fileWriteTo fdIdx buf count t)
      (FsOpenFiles.fileWriteTo fdIdx buf count t.kernel) := by
  simp only [Traced.fileWriteTo, fileWriteTo]
  refine .data _ fun a => .data _ fun i => ?_
  rcases h₁ : Traced.malloc t with ⟨ioBuf, t₁⟩
  rcases h₂ : Traced.malloc t₁ with ⟨allBlocks, t₂⟩
  simp only [malloc_kernel h₁, malloc_kernel h₂]
  refine .data _ fun res => twoBuffers_refines (t₂.on _) fun hret => hret.symm

theorem fileReadFrom_refines (fdIdx : ℕ) (buf : Bytes) (count : ℕ) (t : Traced part) :
    Refines (Traced.fileReadFrom fdIdx buf count t)
      (FsSyscalls.fileReadFrom fdIdx buf count t.kernel) := by
  simp only [Traced.fileReadFrom, fileReadFrom]
  refine .data _ fun a => .data _ fun i => ?_
  rcases h₁ : Traced.malloc t with ⟨ioBuf, t₁⟩
  rcases h₂ : Traced.malloc t₁ with ⟨allBlocks, t₂⟩
  simp only [malloc_kernel h₁, malloc_kernel h₂]
  refine .data _ fun res => twoBuffers_refines (t₂.on _) fun hret => by rw [hret]

/-- A call that does not ask the heap. -/
theorem lift_refines (t : Traced part) (z : Option (α × Kernel part)) :
    Refines (z >>= fun x => Pure.pure (x.1, t.on x.2)) z := by
  intro r t' h
  obtain ⟨⟨r', s⟩, hz, h⟩ := bind_some_iff.mp h
  obtain ⟨rfl, rfl⟩ := Prod.mk.inj (Option.some.inj h)
  exact hz

end Refines

section Calls

variable {t : Traced part}

theorem searchEnd_refines (parentInodeNo dirEntryNo : ℕ) (record : PathSearchRecord)
    (t : Traced part) : RefinesSearch (Traced.searchEnd parentInodeNo dirEntryNo record t)
      (FsSyscalls.searchEnd parentInodeNo dirEntryNo record t.kernel) := by
  intro r record' t' h
  simp only [Traced.searchEnd, bind_some_iff, Option.pure_def, Option.some.injEq,
    Prod.mk.injEq] at h
  obtain ⟨t₁, hc, ⟨d, t₂⟩, ho, ⟨rfl, rfl⟩, rfl⟩ := h
  simp only [searchEnd, bind_some_iff]
  exact ⟨t₁.kernel, dirClose_refines _ _ _ hc, _, dirOpen_refines _ _ _ _ ho, rfl⟩

theorem searchLoop_refines (name : List Byte) (subPath : Option (List Byte))
    (parentDir : Option DirPtr) (parentInodeNo dirEntryNo : ℕ) (record : PathSearchRecord)
    (t : Traced part) :
    RefinesSearch (Traced.searchLoop name subPath parentDir parentInodeNo dirEntryNo record t)
      (FsSyscalls.searchLoop name subPath parentDir parentInodeNo dirEntryNo record t.kernel) := by
  induction name, subPath, parentDir, parentInodeNo, dirEntryNo, record, t using
    Traced.searchLoop.induct with
  | case1 subPath parentDir parentInodeNo dirEntryNo record t =>
    rw [Traced.searchLoop, searchLoop, if_pos rfl, if_pos rfl]
    exact searchEnd_refines parentInodeNo dirEntryNo record t
  | case2 name subPath parentDir parentInodeNo dirEntryNo record t hne ihdir ihother =>
    intro r record' t' h
    rw [Traced.searchLoop, if_neg hne] at h
    rw [searchLoop, if_neg hne]
    simp only [bind_some_iff, assert_eq_some] at h ⊢
    obtain ⟨_, hlen, _, hpath, ⟨dirE, t₁⟩, hs, h⟩ := h
    refine ⟨(), hlen, (), hpath, (dirE, t₁.kernel), searchDirEntryIn_refines _ _ _ _ _ hs, ?_⟩
    cases dirE with
    | none =>
      simp only [Option.pure_def, Option.some.injEq, Prod.mk.injEq] at h ⊢
      exact ⟨h.1.1, h.1.2, congrArg Traced.kernel h.2⟩
    | some dirE =>
      simp only [bind_some_iff, assert_eq_some] at h ⊢
      obtain ⟨_, hnext, h⟩ := h
      refine ⟨(), hnext, ?_⟩
      split at h
      · rename_i hdir
        rw [if_pos hdir]
        simp only [bind_some_iff] at h ⊢
        obtain ⟨a, ha, i, hi, t₂, hc, ⟨d, t₃⟩, ho, h⟩ := h
        exact ⟨a, ha, i, hi, t₂.kernel, dirClose_refines _ _ _ hc, (d, t₃.kernel),
          dirOpen_refines _ _ _ _ ho, ihdir dirE i d t₃ r record' t' h⟩
      · rename_i hdir
        rw [if_neg hdir]
        split at h
        · rename_i hreg
          rw [if_pos hreg]
          simp only [Option.pure_def, Option.some.injEq, Prod.mk.injEq] at h ⊢
          exact ⟨h.1.1, h.1.2, congrArg Traced.kernel h.2⟩
        · rename_i hreg
          rw [if_neg hreg]
          exact ihother t₁ dirE r record' t' h

theorem searchFile_refines (junk : Junk) (path : List Byte) (record : PathSearchRecord)
    (t : Traced part) : RefinesSearch (Traced.searchFile junk path record t)
      (FsSyscalls.searchFile junk path record t.kernel) := by
  intro r record' t' h
  rw [Traced.searchFile] at h
  rw [searchFile]
  split at h
  · rename_i hroot
    rw [if_pos hroot]
    simp only [Option.some.injEq, Prod.mk.injEq] at h ⊢
    exact ⟨h.1.1, h.1.2, congrArg Traced.kernel h.2⟩
  · rename_i hroot
    rw [if_neg hroot]
    simp only [bind_some_iff, assert_eq_some] at h ⊢
    obtain ⟨_, h₁, _, h₂, h⟩ := h
    exact ⟨(), h₁, (), h₂, searchLoop_refines _ _ _ _ _ _ _ r record' t' h⟩

theorem openFound_refines (junk : Junk) (path : List Byte) (flags depth : ℕ) (inodeNo : Option ℕ)
    (record : PathSearchRecord) (t : Traced part) :
    Refines (Traced.openFound junk path flags depth inodeNo record t)
      (FsSyscalls.openFound junk path flags depth inodeNo record t.kernel) := by
  simp only [Traced.openFound, openFound]
  split
  · exact dirClose_return _ t _
  · refine .data _ fun searchedDepth => ?_
    split
    · exact dirClose_return _ t _
    · cases inodeNo with
      | none =>
        cases creates flags with
        | false => exact dirClose_return _ t _
        | true =>
          refine .data _ fun filename => Refines.bind (fileCreate_refines _ filename flags t) ?_
          exact fun fd t₁ => dirClose_return _ t₁ fd
      | some inodeNo =>
        cases creates flags with
        | false => exact fileOpen_refines inodeNo flags t
        | true => exact dirClose_return _ t _

theorem sysOpen_refines (junk : Junk) (path : List Byte) (flags : ℕ) (t : Traced part) :
    Refines (Traced.sysOpen junk path flags t) (FsSyscalls.sysOpen junk path flags t.kernel) := by
  simp only [Traced.sysOpen, sysOpen]
  refine .data _ fun last => ?_
  split
  · exact .pure _ t
  · refine .data _ fun _ => .data _ fun depth => (searchFile_refines junk path zeroRecord t).bind ?_
    exact fun inodeNo record t₁ => openFound_refines junk path flags depth inodeNo record t₁

theorem sysClose_refines (fd : ℕ) (t : Traced part) :
    Refines (Traced.sysClose fd t) (FsSyscalls.sysClose fd t.kernel) := by
  simp only [Traced.sysClose, sysClose]
  split
  · exact .pure _ t
  · refine .data _ fun globalFd => ?_
    rw [Traced.closeSlot]
    by_cases hpipe : (t.kernel.fileTable globalFd).fdFlag = pipeFlag
    · rw [if_pos hpipe, if_pos hpipe]
      exact .pure _ ((t.on (pipeClose globalFd t.kernel)).on _)
    · rw [if_neg hpipe, if_neg hpipe]
      exact Refines.bind (fileClose_refines globalFd t) fun ret t₁ => .pure ret (t₁.on _)

theorem sysWrite_refines (fd : ℕ) (buf : Bytes) (count : ℕ) (t : Traced part) :
    Refines (Traced.sysWrite fd buf count t) (FsSyscalls.sysWrite fd buf count t.kernel) := by
  simp only [Traced.sysWrite, sysWrite]
  split
  · exact .data _ fun _ => .pure _ t
  · refine .data _ fun globalFd => .data _ fun _ => ?_
    split
    · exact fileWriteTo_refines globalFd buf count t
    · exact .pure _ t

theorem sysRead_refines (fd : ℕ) (buf : Bytes) (count : ℕ) (t : Traced part) :
    Refines (Traced.sysRead fd buf count t) (FsSyscalls.sysRead fd buf count t.kernel) := by
  simp only [Traced.sysRead, sysRead]
  split
  · exact .pure _ t
  · exact .data _ fun _ => .data _ fun globalFd => .data _ fun _ =>
      fileReadFrom_refines globalFd buf count t

theorem unlinkFound_refines (inodeNo : ℕ) (d : Option DirPtr) (t : Traced part) :
    Refines (Traced.unlinkFound inodeNo d t) (FsSyscalls.unlinkFound inodeNo d t.kernel) := by
  simp only [Traced.unlinkFound, unlinkFound]
  rcases h₁ : Traced.malloc t with ⟨ioBuf, t₁⟩
  simp only [malloc_kernel h₁]
  cases ioBuf with
  | none => exact dirClose_return d t₁ _
  | some ioBuf =>
    refine (deleteDirEntryIn_refines d inodeNo t₁).bind fun t₂ => ?_
    refine (inodeReleaseNo_refines inodeNo t₂).bind fun t₃ => ?_
    exact dirClose_return d (Traced.free ioBuf t₃) _

theorem sysUnlink_refines (junk : Junk) (path : List Byte) (t : Traced part) :
    Refines (Traced.sysUnlink junk path t) (FsSyscalls.sysUnlink junk path t.kernel) := by
  simp only [Traced.sysUnlink, sysUnlink]
  refine .data _ fun _ => (searchFile_refines junk path _ t).bind fun inodeNo record t₁ => ?_
  refine .data _ fun _ => ?_
  cases inodeNo with
  | none => exact dirClose_return _ t₁ _
  | some inodeNo =>
    simp only
    split
    · exact dirClose_return _ t₁ _
    · refine .data _ fun inUse => ?_
      split
      · exact dirClose_return _ t₁ _
      · exact unlinkFound_refines inodeNo _ t₁

theorem mkdirIn_refines (d : Option DirPtr) (dirname : List Byte) (ioBuf : Ctx) (t : Traced part) :
    Refines (Traced.mkdirIn d dirname ioBuf t) (FsSyscalls.mkdirIn d dirname t.kernel) := by
  simp only [Traced.mkdirIn, mkdirIn]
  apply Refines.data
  rintro ⟨inodeNo, v⟩
  cases inodeNo with
  | none => exact dirClose_free d t _ ioBuf
  | some inodeNo =>
    refine .data _ fun a => .data _ fun i => .data _ ?_
    rintro ⟨new, v₁⟩
    cases new with
    | none => exact dirClose_free d (t.on _) _ ioBuf
    | some new =>
      refine .data _ fun e => .data _ ?_
      rintro ⟨ok, i', v₂⟩
      simp only
      split
      · exact dirClose_free d ((t.on _).on _) _ ioBuf
      · exact .data _ fun v₃ => dirClose_return d (Traced.free ioBuf ((t.on _).on _)) _

theorem sysMkdir_refines (junk : Junk) (path : List Byte) (t : Traced part) :
    Refines (Traced.sysMkdir junk path t) (FsSyscalls.sysMkdir junk path t.kernel) := by
  simp only [Traced.sysMkdir, sysMkdir]
  rcases h₁ : Traced.malloc t with ⟨ioBuf, t₁⟩
  simp only [malloc_kernel h₁]
  cases ioBuf with
  | none => exact .pure _ t₁
  | some ioBuf =>
    refine (searchFile_refines junk path zeroRecord t₁).bind fun inodeNo record t₂ => ?_
    cases inodeNo with
    | some inodeNo => exact dirClose_free _ t₂ _ ioBuf
    | none =>
      refine .data _ fun pathnameDepth => .data _ fun searchedDepth => ?_
      split
      · exact dirClose_free _ t₂ _ ioBuf
      · exact .data _ fun dirname => mkdirIn_refines _ dirname ioBuf t₂

theorem sysOpendir_refines (junk : Junk) (path : List Byte) (t : Traced part) :
    Refines (Traced.sysOpendir junk path t) (FsSyscalls.sysOpendir junk path t.kernel) := by
  simp only [Traced.sysOpendir, sysOpendir]
  refine .data _ fun _ => ?_
  split
  · exact .pure _ t
  · refine (searchFile_refines junk path _ t).bind fun inodeNo record t₁ => ?_
    obtain ⟨searchedPath, parentDir, fileType⟩ := record
    cases inodeNo with
    | none => exact dirClose_return parentDir t₁ _
    | some inodeNo =>
      cases fileType with
      | directory =>
        exact Refines.bind (dirOpen_refines inodeNo t₁) fun ret t₂ => dirClose_return parentDir t₂ ret
      | regular => exact dirClose_return parentDir t₁ _
      | unknown => exact dirClose_return parentDir t₁ _

theorem sysClosedir_refines (d : Option DirPtr) (t : Traced part) :
    Refines (Traced.sysClosedir d t) (FsSyscalls.sysClosedir d t.kernel) := by
  cases d with
  | none => exact .pure _ t
  | some d => exact dirClose_return (some d) t 0

theorem dirRemove_refines (parentDir childDir : Option DirPtr) (t : Traced part) :
    Refines (Traced.dirRemove parentDir childDir t)
      (FsSyscalls.dirRemove parentDir childDir t.kernel) := by
  simp only [Traced.dirRemove, dirRemove]
  refine .data _ fun a => .data _ fun i => .data _ fun _ => ?_
  rcases h₁ : Traced.malloc t with ⟨ioBuf, t₁⟩
  simp only [malloc_kernel h₁]
  cases ioBuf with
  | none => exact .pure _ t₁
  | some ioBuf =>
    refine (deleteDirEntryIn_refines parentDir i.iNo t₁).bind fun t₂ => .data _ fun i' => ?_
    exact (inodeReleaseNo_refines i'.iNo t₂).bind fun t₃ => .pure _ (Traced.free ioBuf t₃)

theorem sysRmdir_refines (junk : Junk) (path : List Byte) (t : Traced part) :
    Refines (Traced.sysRmdir junk path t) (FsSyscalls.sysRmdir junk path t.kernel) := by
  simp only [Traced.sysRmdir, sysRmdir]
  refine (searchFile_refines junk path _ t).bind fun inodeNo record t₁ => .data _ fun _ => ?_
  cases inodeNo with
  | none => exact dirClose_return _ t₁ _
  | some inodeNo =>
    simp only
    split
    · exact dirClose_return _ t₁ _
    · simp only [Traced.rmdirFound, rmdirFound]
      refine Refines.bind (dirOpen_refines inodeNo t₁) fun d t₂ => ?_
      refine .data _ fun a => .data _ fun i => ?_
      split
      · exact (dirClose_refines d t₂).bind fun t₃ => dirClose_return _ t₃ _
      · refine Refines.bind (dirRemove_refines _ d t₂) fun ret t₃ => ?_
        exact (dirClose_refines d t₃).bind fun t₄ => dirClose_return _ t₄ ret

theorem sysChdir_refines (junk : Junk) (path : List Byte) (t : Traced part) :
    Refines (Traced.sysChdir junk path t) (FsSyscalls.sysChdir junk path t.kernel) := by
  simp only [Traced.sysChdir, sysChdir]
  refine (searchFile_refines junk path _ t).bind fun inodeNo record t₁ => ?_
  obtain ⟨searchedPath, parentDir, fileType⟩ := record
  cases inodeNo with
  | none => exact dirClose_return parentDir t₁ _
  | some inodeNo =>
    cases fileType with
    | directory => exact dirClose_return parentDir (t₁.on _) _
    | regular => exact dirClose_return parentDir t₁ _
    | unknown => exact dirClose_return parentDir t₁ _

theorem sysStat_refines (junk : Junk) (path : List Byte) (t : Traced part) :
    Refines (Traced.sysStat junk path t) (FsSyscalls.sysStat junk path t.kernel) := by
  simp only [Traced.sysStat, sysStat]
  split
  · exact .data _ fun i => .pure _ t
  · refine (searchFile_refines junk path _ t).bind fun inodeNo record t₁ => ?_
    cases inodeNo with
    | none => exact dirClose_return _ t₁ _
    | some inodeNo =>
      refine Refines.bind (inodeOpen_refines inodeNo t₁) fun a t₂ => .data _ fun i => ?_
      exact (inodeClose_refines a t₂).bind fun t₃ => dirClose_return _ t₃ _

theorem cwdLoop_refines (fuel childInodeNr : ℕ) (path : List Byte) (t : Traced part) :
    Refines (Traced.cwdLoop fuel childInodeNr path t)
      (FsSyscalls.cwdLoop fuel childInodeNr path t.kernel) := by
  induction fuel generalizing childInodeNr path t with
  | zero =>
    intro r t' h
    cases h
  | succ fuel ih =>
    simp only [Traced.cwdLoop, cwdLoop]
    split
    · exact .pure _ t
    · refine Refines.bind (y := getParentDirInodeNr childInodeNr t.kernel) ?_ fun parent t₁ => ?_
      · refine Refines.bind (inodeOpen_refines childInodeNr t) fun a t₁ => ?_
        refine .data _ fun i => .data _ fun _ => ?_
        exact (inodeClose_refines a t₁).bind fun t₂ => .data _ fun n => .pure n t₂
      refine Refines.bind (y := getChildDirName parent childInodeNr t₁.kernel) ?_ fun name t₂ => ?_
      · refine Refines.bind (inodeOpen_refines parent t₁) fun a t₂ => ?_
        refine .data _ fun i => .data _ fun allBlocks => ?_
        exact (inodeClose_refines a t₂).bind fun t₃ => .data _ fun n => .pure n t₃
      cases name with
      | none => exact .pure _ t₂
      | some name => exact .data _ fun _ => ih parent _ t₂

theorem sysGetcwd_refines (fuel size : ℕ) (t : Traced part) :
    Refines (Traced.sysGetcwd fuel size t) (FsSyscalls.sysGetcwd fuel size t.kernel) := by
  simp only [Traced.sysGetcwd, sysGetcwd]
  rcases h₁ : Traced.malloc t with ⟨ioBuf, t₁⟩
  simp only [malloc_kernel h₁]
  cases ioBuf with
  | none => exact .pure _ t₁
  | some ioBuf =>
    refine .data _ fun _ => ?_
    split
    · exact .pure _ (Traced.free ioBuf t₁)
    · refine Refines.bind (cwdLoop_refines fuel _ [] t₁) fun path t₂ => ?_
      cases path with
      | none => exact .pure _ (Traced.free ioBuf t₂)
      | some path => exact .data _ fun _ => .pure _ (Traced.free ioBuf t₂)

/-- The same call without the record. -/
def Call.plain : Call → World part → Option (World part)
  | .open p junk pathname flags, w => (w.call p (sysOpen junk pathname flags)).map Prod.snd
  | .close p fd, w => (w.call p (sysClose fd)).map Prod.snd
  | .read p fd buf count, w => (w.call p (sysRead fd buf count)).map Prod.snd
  | .write p fd buf count, w => (w.call p (sysWrite fd buf count)).map Prod.snd
  | .lseek p ioqWord fd offset whence, w =>
    (w.call p (sysLseek ioqWord fd offset whence)).map Prod.snd
  | .unlink p junk pathname, w => (w.call p (sysUnlink junk pathname)).map Prod.snd
  | .mkdir p junk pathname, w => (w.call p (sysMkdir junk pathname)).map Prod.snd
  | .opendir p junk name, w => (w.call p (sysOpendir junk name)).map Prod.snd
  | .closedir p dir, w => (w.call p (sysClosedir dir)).map Prod.snd
  | .movedir p dir dirPos, w => (w.call p (moveDirPos dir dirPos)).map Prod.snd
  | .rmdir p junk pathname, w => (w.call p (sysRmdir junk pathname)).map Prod.snd
  | .getcwd p fuel size, w => (w.call p (sysGetcwd fuel size)).map Prod.snd
  | .chdir p junk path, w => (w.call p (sysChdir junk path)).map Prod.snd
  | .stat p junk path, w => (w.call p (sysStat junk path)).map Prod.snd

def System.world (w : System part) : World part := ⟨w.kernel, w.procs⟩

theorem call_refines {α : Type} {w w' : System part} {p : ℕ}
    {f : Traced part → Option (α × Traced part)} {g : Kernel part → Option (α × Kernel part)}
    (hf : ∀ t, Refines (f t) (g t.kernel)) (h : w.call p f = some w') :
    (w.world.call p g).map Prod.snd = some w'.world := by
  simp only [System.call, bind_some_iff, Option.pure_def, Option.some.injEq] at h
  obtain ⟨task, htask, ⟨r, t⟩, hcall, rfl⟩ := h
  have hg := hf _ r t hcall
  simp only [World.call, System.world, htask, Option.bind_eq_bind, Option.bind_some, hg]
  rfl

/-- The record changes nothing for the file system. -/
theorem exec_refines {call : Call} {w w' : System part} (h : call.exec w = some w') :
    call.plain w.world = some w'.world := by
  cases call with
  | «open» p junk pathname flags => exact call_refines (sysOpen_refines junk pathname flags) h
  | close p fd => exact call_refines (sysClose_refines fd) h
  | read p fd buf count => exact call_refines (sysRead_refines fd buf count) h
  | write p fd buf count => exact call_refines (sysWrite_refines fd buf count) h
  | lseek p ioqWord fd offset whence =>
    exact call_refines (fun t => lift_refines t _) h
  | unlink p junk pathname => exact call_refines (sysUnlink_refines junk pathname) h
  | mkdir p junk pathname => exact call_refines (sysMkdir_refines junk pathname) h
  | opendir p junk name => exact call_refines (sysOpendir_refines junk name) h
  | closedir p dir => exact call_refines (sysClosedir_refines dir) h
  | movedir p dir dirPos => exact call_refines (fun t => lift_refines t _) h
  | rmdir p junk pathname => exact call_refines (sysRmdir_refines junk pathname) h
  | getcwd p fuel size => exact call_refines (sysGetcwd_refines fuel size) h
  | chdir p junk path => exact call_refines (sysChdir_refines junk path) h
  | stat p junk path => exact call_refines (sysStat_refines junk path) h

theorem run_refines {calls : List Call} {w w' : System part}
    (h : runAll Call.exec calls w = some w') : runAll Call.plain calls w.world = some w'.world := by
  induction calls generalizing w with
  | nil =>
    obtain rfl := Option.some.inj h
    rfl
  | cons call calls ih =>
    obtain ⟨w₁, h₁, h⟩ := runAll_cons.mp h
    exact runAll_cons.mpr ⟨w₁.world, exec_refines h₁, ih h⟩

end Calls

end FsHeapTrace
