import XianweiOS.FsOpenFiles
import XianweiOS.FsFileRead

/-! The system calls of `fs/fs.c`. What a call finds in its uninitialised locals is an
argument (`Junk`). A number returned as `int` is `-1` when the 32-bit number is all ones. -/
namespace FsSyscalls

open ByteStore HaltingProgram KernelBitmap DeviceIde FsVolume FsInodeTable FsBlockMap FsOwnership
  FsDirectory FsInodeRelease FsFileWrite FsPath FsOpenFiles

variable {part : Partition}

/-- Uninitialised memory: the string a `searched_path` holds, the number in `dir_e`, and the
first byte of the `name` buffers of two calls of `path_depth_cnt`. -/
structure Junk where
  searchedPath : List Byte
  dirEntryNo : ℕ
  name : Byte
  name' : Byte

structure PathSearchRecord where
  searchedPath : List Byte
  parentDir : Option DirPtr
  fileType : FileType

def zeroRecord : PathSearchRecord := ⟨[], none, .unknown⟩

def junkRecord (junk : Junk) : PathSearchRecord := ⟨junk.searchedPath, none, .unknown⟩

def maxPathLen : ℕ := 512

/-- `none` is `-1`. -/
def asInt (n : ℕ) : Option ℕ := if n = 2 ^ 32 - 1 then none else some n

def rootPath : List Byte := [slash]
def rootDotPath : List Byte := [slash, 0x2e]
def rootDotdotPath : List Byte := [slash, 0x2e, 0x2e]

/-- The target is a directory: the handle on it is exchanged for one on the directory before. -/
def searchEnd (parentInodeNo dirEntryNo : ℕ) (record : PathSearchRecord) (s : Kernel part) :
    Option (Option ℕ × PathSearchRecord × Kernel part) := do
  let s ← dirClose record.parentDir s
  let (d, s) ← dirOpen parentInodeNo s
  return (asInt dirEntryNo, { record with parentDir := d, fileType := .directory }, s)

def searchLoop (name : List Byte) (subPath : Option (List Byte)) (parentDir : Option DirPtr)
    (parentInodeNo dirEntryNo : ℕ) (record : PathSearchRecord) (s : Kernel part) :
    Option (Option ℕ × PathSearchRecord × Kernel part) :=
  if name = [] then searchEnd parentInodeNo dirEntryNo record s
  else do
    assert (name.length < 16)
    let record := { record with searchedPath := record.searchedPath ++ slash :: name }
    assert (record.searchedPath.length < maxPathLen)
    let (dirE, s) ← searchDirEntryIn parentDir name s
    match dirE with
    | none => return (none, record, s)
    | some dirE =>
      assert ((nextName subPath).1.length ≤ 16)
      if dirE.fType = FileType.directory.code then
        let a ← dirInode s parentDir
        let i ← s.inodes a
        let s ← dirClose parentDir s
        let (d, s) ← dirOpen dirE.iNo s
        searchLoop (nextName subPath).1 (nextName subPath).2 d i.iNo dirE.iNo
          { record with parentDir := d } s
      else if dirE.fType = FileType.regular.code then
        return (asInt dirE.iNo, { record with fileType := .regular }, s)
      else
        searchLoop (nextName subPath).1 (nextName subPath).2 parentDir parentInodeNo dirE.iNo record s
  termination_by pathLeft name subPath
  decreasing_by
    · exact nextName_left ‹_›
    · exact nextName_left ‹_›

def searchFile (junk : Junk) (pathname : List Byte) (record : PathSearchRecord) (s : Kernel part) :
    Option (Option ℕ × PathSearchRecord × Kernel part) :=
  if pathname = rootPath ∨ pathname = rootDotPath ∨ pathname = rootDotdotPath then
    some (some 0, ⟨[], some .root, .directory⟩, s)
  else do
    assert (pathname.head? = some slash ∧ 1 < pathname.length ∧ pathname.length < maxPathLen)
    assert ((pathParse pathname).1.length ≤ 16)
    searchLoop (pathParse pathname).1 (pathParse pathname).2 (some .root) 0 junk.dirEntryNo
      { record with parentDir := some .root, fileType := .unknown } s

/-- `flags & O_CREAT`. -/
def creates (flags : ℕ) : Bool := flags.testBit 2

/-- `sys_open` behind its search. -/
def openFound (junk : Junk) (pathname : List Byte) (flags depth : ℕ) (inodeNo : Option ℕ)
    (record : PathSearchRecord) (s : Kernel part) : Option (ℤ × Kernel part) := do
  if record.fileType = .directory then
    let s ← dirClose record.parentDir s
    return (-1, s)
  else
    let searchedDepth ← pathDepthCnt junk.name' record.searchedPath
    if searchedDepth ≠ depth then
      let s ← dirClose record.parentDir s
      return (-1, s)
    else
      match inodeNo, creates flags with
      | none, false =>
        let s ← dirClose record.parentDir s
        return (-1, s)
      | some _, true =>
        let s ← dirClose record.parentDir s
        return (-1, s)
      | none, true =>
        let filename ← afterLastSlash pathname
        let (fd, s) ← fileCreate record.parentDir filename flags s
        let s ← dirClose record.parentDir s
        return (fd, s)
      | some inodeNo, false => fileOpen inodeNo flags s

def sysOpen (junk : Junk) (pathname : List Byte) (flags : ℕ) (s : Kernel part) :
    Option (ℤ × Kernel part) := do
  let last ← pathname.getLast?
  if last = slash then return (-1, s)
  else
    assert (flags ≤ 7)
    let depth ← pathDepthCnt junk.name pathname
    let (inodeNo, record, s) ← searchFile junk pathname zeroRecord s
    openFound junk pathname flags depth inodeNo record s

def pipeFlag : ℕ := 0xffff

def fdLocal2global (localFd : ℕ) (s : Kernel part) : Option ℕ := do
  assert (localFd < maxFilesOpenPerProc)
  let globalFd ← s.cur.fdTable localFd
  assert (globalFd < maxFilesOpen)
  return globalFd

/-- A pipe counts its descriptors in `fd_pos`. -/
def pipeClose (globalFd : ℕ) (s : Kernel part) : Kernel part :=
  let f := s.fileTable globalFd
  let fdPos := (f.fdPos + 2 ^ 32 - 1) % 2 ^ 32
  s.setFile globalFd { f with fdPos := fdPos, fdInode := if fdPos = 0 then none else f.fdInode }

def sysClose (fd : ℕ) (s : Kernel part) : Option (ℤ × Kernel part) :=
  if fd ≤ 2 then return (-1, s)
  else do
    let globalFd ← fdLocal2global fd s
    let (ret, s) ←
      if (s.fileTable globalFd).fdFlag = pipeFlag then some (0, pipeClose globalFd s)
      else fileClose globalFd s
    return (ret, { s with cur := { s.cur with fdTable := Function.update s.cur.fdTable fd none } })

/-- What goes to the console passes through a buffer of 1024 bytes and leaves the file system
alone. A pipe is not written here. -/
def sysWrite (fd : ℕ) (buf : Bytes) (count : ℕ) (s : Kernel part) : Option (ℤ × Kernel part) :=
  if fd = 1 ∨ fd = 2 then do
    assert (count ≤ 1024)
    return (count, s)
  else do
    let globalFd ← fdLocal2global fd s
    assert ((s.fileTable globalFd).fdFlag ≠ pipeFlag)
    if writable (s.fileTable globalFd).fdFlag then fileWriteTo globalFd buf count s
    else return (-1, s)

/-- Is some slot of the table open on the inode? -/
def inFileTable (inodeNo : ℕ) (s : Kernel part) : (left fileIdx : ℕ) → Option Bool
  | 0, _ => some false
  | left + 1, fileIdx =>
    match (s.fileTable fileIdx).fdInode with
    | none => inFileTable inodeNo s left (fileIdx + 1)
    | some a => do
      let i ← s.inodes a
      if i.iNo = inodeNo then return true else inFileTable inodeNo s left (fileIdx + 1)

/-- `sys_unlink` once the file is known not to be open. -/
def unlinkFound (inodeNo : ℕ) (parentDir : Option DirPtr) (s : Kernel part) :
    Option (ℤ × Kernel part) := do
  let (mallocIoBuf, s) := sysMalloc s
  if mallocIoBuf = false then
    let s ← dirClose parentDir s
    return (-1, s)
  else
    let s ← deleteDirEntryIn parentDir inodeNo s
    let s ← inodeReleaseNo inodeNo s
    let s ← dirClose parentDir s
    return (0, s)

def sysUnlink (junk : Junk) (pathname : List Byte) (s : Kernel part) : Option (ℤ × Kernel part) := do
  assert (pathname.length < maxPathLen)
  let (inodeNo, record, s) ← searchFile junk pathname (junkRecord junk) s
  assert (inodeNo ≠ some 0)
  match inodeNo with
  | none =>
    let s ← dirClose record.parentDir s
    return (-1, s)
  | some inodeNo =>
    if record.fileType = .directory then
      let s ← dirClose record.parentDir s
      return (-1, s)
    else
      let inUse ← inFileTable inodeNo s maxFilesOpen 0
      if inUse then
        let s ← dirClose record.parentDir s
        return (-1, s)
      else unlinkFound inodeNo record.parentDir s

/-- The inode of a new directory, whose block holds `.` and `..`. -/
def newDirectory (inodeNo parentNo : ℕ) (v : Volume part) : Option (Option Inode × Volume part) := do
  let (blockLba, v) ← blockBitmapAlloc v
  match blockLba with
  | none => return (none, v)
  | some blockLba =>
    assert (0 < blockBitmapIdx part blockLba)
    let v ← bitmapSync v (blockBitmapIdx part blockLba) .blockBitmap
    let disk ← ideWrite v.disk blockLba (newDirBlock inodeNo parentNo) 1
    return (some { (inodeInit inodeNo).setSector 0 blockLba with iSize := 2 * dirEntrySize },
      v.withDisk disk)

/-- Block `k` of the data area was free, and now holds `.` and `..` of a new directory. -/
structure NewDirectoryAt (v : Volume part) (inodeNo parentNo k : ℕ) (new : Inode)
    (v' : Volume part) : Prop where
  low : LowestClear v.blockBitmap k
  lba : part.sb.dataStartLba + k ≤ maxLba
  no : new.iNo = inodeNo
  size : new.iSize = 2 * dirEntrySize
  sectors : ∀ j < 13, new.iSectors j = if j = 0 then part.sb.dataStartLba + k else 0
  blocks : v'.blockBitmap = bitmapSet v.blockBitmap k true
  inodes : v'.inodeBitmap = v.inodeBitmap
  frame : Changes {a | a ∈ blockBitmapArea part ∨ a ∈ sector (part.sb.dataStartLba + k)}
    v.disk v'.disk
  block : ∀ a < 512, v'.disk (512 * (part.sb.dataStartLba + k) + a) = newDirBlock inodeNo parentNo a
  synced : BlockSynced v → BlockSynced v'

theorem newDirectory_some {inodeNo parentNo : ℕ} {v v' : Volume part} {r : Option Inode}
    (h : newDirectory inodeNo parentNo v = some (r, v')) :
    ∃ new k, r = some new ∧ NewDirectoryAt v inodeNo parentNo k new v' := by
  rw [newDirectory, bind_some_iff] at h
  obtain ⟨⟨x, w⟩, hal, h⟩ := h
  obtain ⟨k, rfl, rfl, hlow⟩ := blockBitmapAlloc_some hal
  simp only [bind_some_iff] at h
  obtain ⟨-, -, v₂, hsync, disk, hw, h⟩ := h
  obtain ⟨rfl, rfl⟩ := Prod.mk.inj (Option.some.inj h)
  rw [blockBitmapIdx_alloc (v := v) hlow.1] at hsync
  obtain rfl := bitmapSync_block_some hsync
  obtain ⟨rfl, hlba⟩ := ideWrite_some hw
  refine ⟨_, k, rfl, hlow, by simp only [maxLba] at hlba ⊢; omega, rfl, rfl, fun j _ => ?_, rfl, rfl,
    ?_, fun a ha => ?_, fun hs a ha => ?_⟩
  · simp [Inode.setSector, inodeInit, Function.update_apply]
  · refine ((changes_bitSector (v := v) hlow.1).mono fun a ha => .inl ha).trans
      ((changes_patch _ _ _ _).mono fun a ha => .inr ?_)
    simp only [mem_span, mem_sector] at ha ⊢
    omega
  · rw [withDisk_disk, patch_in (by omega), Nat.add_sub_cancel_left]
  · have hb := part.bounds
    have hbits := blockSynced_set (b := true) (blockSynced_outside hs (k / 4096))
    rw [withDisk_disk, patch_out (by omega)]
    exact hbits a ha

/-- The rollback of `sys_mkdir`: the block of the new directory is not given back. -/
def mkdirRollback (parentDir : Option DirPtr) (inodeNo : ℕ) (v : Volume part) (s : Kernel part) :
    Option (ℤ × Kernel part) := do
  let s ← dirClose parentDir (s.withVol (v.setInodeBit inodeNo false))
  return (-1, s)

/-- `sys_mkdir` once the name is known to be free in the parent directory. -/
def mkdirIn (parentDir : Option DirPtr) (dirname : List Byte) (s : Kernel part) :
    Option (ℤ × Kernel part) := do
  let (inodeNo, v) ← inodeBitmapAlloc s.vol
  match inodeNo with
  | none =>
    let s ← dirClose parentDir s
    return (-1, s)
  | some inodeNo =>
    let a ← dirInode s parentDir
    let i ← s.inodes a
    let (new, v) ← newDirectory inodeNo i.iNo v
    match new with
    | none => mkdirRollback parentDir inodeNo v s
    | some new =>
      let e ← createDirEntry dirname inodeNo .directory
      let (ok, i, v) ← syncDirEntry e i v
      let s := s.setInode a i
      if ok = false then mkdirRollback parentDir inodeNo v s
      else
        let v ← syncNewInode i new v
        let s ← dirClose parentDir (s.withVol v)
        return (0, s)

def sysMkdir (junk : Junk) (pathname : List Byte) (s : Kernel part) : Option (ℤ × Kernel part) := do
  let (mallocIoBuf, s) := sysMalloc s
  if mallocIoBuf = false then return (-1, s)
  else
    let (inodeNo, record, s) ← searchFile junk pathname zeroRecord s
    match inodeNo with
    | some _ =>
      let s ← dirClose record.parentDir s
      return (-1, s)
    | none =>
      let pathnameDepth ← pathDepthCnt junk.name pathname
      let searchedDepth ← pathDepthCnt junk.name' record.searchedPath
      if pathnameDepth ≠ searchedDepth then
        let s ← dirClose record.parentDir s
        return (-1, s)
      else
        let dirname ← afterLastSlash record.searchedPath
        mkdirIn record.parentDir dirname s

def sysOpendir (junk : Junk) (name : List Byte) (s : Kernel part) :
    Option (Option DirPtr × Kernel part) := do
  assert (name.length < maxPathLen)
  if name = rootPath then return (some .root, s)
  else
    let (inodeNo, record, s) ← searchFile junk name (junkRecord junk) s
    match inodeNo, record.fileType with
    | some inodeNo, .directory =>
      let (ret, s) ← dirOpen inodeNo s
      let s ← dirClose record.parentDir s
      return (ret, s)
    | _, _ =>
      let s ← dirClose record.parentDir s
      return (none, s)

def sysClosedir (dir : Option DirPtr) (s : Kernel part) : Option (ℤ × Kernel part) :=
  match dir with
  | none => return (-1, s)
  | some d => do
    let s ← dirClose (some d) s
    return (0, s)

def dirIsEmpty (i : Inode) : Bool := i.iSize == 2 * dirEntrySize

/-- An empty directory has no block but its first. -/
def dirRemove (parentDir childDir : Option DirPtr) (s : Kernel part) : Option (ℤ × Kernel part) := do
  let a ← dirInode s childDir
  let i ← s.inodes a
  assert (∀ k ∈ List.range 12, i.iSectors (k + 1) = 0)
  let (mallocIoBuf, s) := sysMalloc s
  if mallocIoBuf = false then return (-1, s)
  else
    let s ← deleteDirEntryIn parentDir i.iNo s
    let i ← s.inodes a
    let s ← inodeReleaseNo i.iNo s
    return (0, s)

/-- `sys_rmdir` on the directory its search has found. -/
def rmdirFound (inodeNo : ℕ) (parentDir : Option DirPtr) (s : Kernel part) :
    Option (ℤ × Kernel part) := do
  let (d, s) ← dirOpen inodeNo s
  let a ← dirInode s d
  let i ← s.inodes a
  if dirIsEmpty i = false then
    let s ← dirClose d s
    let s ← dirClose parentDir s
    return (-1, s)
  else
    let (ret, s) ← dirRemove parentDir d s
    let s ← dirClose d s
    let s ← dirClose parentDir s
    return (ret, s)

def sysRmdir (junk : Junk) (pathname : List Byte) (s : Kernel part) : Option (ℤ × Kernel part) := do
  let (inodeNo, record, s) ← searchFile junk pathname zeroRecord s
  assert (inodeNo ≠ some 0)
  match inodeNo with
  | none =>
    let s ← dirClose record.parentDir s
    return (-1, s)
  | some inodeNo =>
    if record.fileType = .regular then
      let s ← dirClose record.parentDir s
      return (-1, s)
    else rmdirFound inodeNo record.parentDir s

def sysChdir (junk : Junk) (path : List Byte) (s : Kernel part) : Option (ℤ × Kernel part) := do
  let (inodeNo, record, s) ← searchFile junk path zeroRecord s
  match inodeNo, record.fileType with
  | some inodeNo, .directory =>
    let s ← dirClose record.parentDir { s with cur := { s.cur with cwdInodeNr := inodeNo } }
    return (0, s)
  | _, _ =>
    let s ← dirClose record.parentDir s
    return (-1, s)

/-- Number, size and type of the object. -/
structure Stat where
  stIno : ℕ
  stSize : ℕ
  stFiletype : FileType

def sysStat (junk : Junk) (path : List Byte) (s : Kernel part) :
    Option (Option Stat × Kernel part) :=
  if path = rootPath ∨ path = rootDotPath ∨ path = rootDotdotPath then do
    let i ← s.inodes s.rootInode
    return (some ⟨0, i.iSize, .directory⟩, s)
  else do
    let (inodeNo, record, s) ← searchFile junk path zeroRecord s
    match inodeNo with
    | none =>
      let s ← dirClose record.parentDir s
      return (none, s)
    | some inodeNo =>
      let (a, s) ← inodeOpen inodeNo s
      let i ← s.inodes a
      let s ← inodeClose a s
      let s ← dirClose record.parentDir s
      return (some ⟨inodeNo, i.iSize, record.fileType⟩, s)

/-- `sys_readdir` and `sys_rewinddir` leave `dir_pos` at `dirPos`; that of the root directory is
not kept here. -/
def moveDirPos (dir : DirPtr) (dirPos : ℕ) (s : Kernel part) : Option (Unit × Kernel part) :=
  match dir with
  | .root => some ((), s)
  | .heap p => do
    let d ← s.dirs p
    return ((), { s with dirs := Function.update s.dirs p (some { d with dirPos := dirPos }) })

/-- `file_read` on a slot of the table. -/
def fileReadFrom (fdIdx : ℕ) (buf : Bytes) (count : ℕ) (s : Kernel part) :
    Option ((ℤ × Bytes) × Kernel part) := do
  let a ← (s.fileTable fdIdx).fdInode
  let i ← s.inodes a
  let (mallocIoBuf, s) := sysMalloc s
  let (mallocAllBlocks, s) := sysMalloc s
  let res ← FsFileRead.fileRead mallocIoBuf mallocAllBlocks (s.fileTable fdIdx).fdPos i s.vol.disk buf
    count
  return ((res.ret, res.buf), s.setFile fdIdx { s.fileTable fdIdx with fdPos := res.fdPos })

/-- Neither the keyboard nor a pipe is read here. -/
def sysRead (fd : ℕ) (buf : Bytes) (count : ℕ) (s : Kernel part) :
    Option ((ℤ × Bytes) × Kernel part) :=
  if fd = 1 ∨ fd = 2 then return ((-1, buf), s)
  else do
    assert (fd ≠ 0)
    let globalFd ← fdLocal2global fd s
    assert ((s.fileTable globalFd).fdFlag ≠ pipeFlag)
    fileReadFrom globalFd buf count s

/-- The number in the second entry of a directory's first block. -/
def dotdotNumber (disk : Bytes) (blockLba : ℕ) : Option ℕ := do
  let ioBuf ← ideRead disk blockLba zeroes 1
  let dirE := DirEntry.ofBytes ioBuf dirEntrySize
  assert (dirE.iNo < 4096 ∧ dirE.fType = FileType.directory.code)
  return dirE.iNo

def getParentDirInodeNr (childInodeNr : ℕ) (s : Kernel part) : Option (ℕ × Kernel part) := do
  let (a, s) ← inodeOpen childInodeNr s
  let i ← s.inodes a
  assert (part.sb.dataStartLba ≤ i.iSectors 0)
  let s ← inodeClose a s
  let parentInodeNr ← dotdotNumber s.vol.disk (i.iSectors 0)
  return (parentInodeNr, s)

/-- The first entry with the number, whatever its type. -/
def entryOfNumber (ioBuf : Bytes) (inodeNr : ℕ) : (left dirEIdx : ℕ) → Option DirEntry
  | 0, _ => none
  | left + 1, dirEIdx =>
    if word ioBuf (24 * dirEIdx + 16) = inodeNr then some (DirEntry.ofBytes ioBuf (24 * dirEIdx))
    else entryOfNumber ioBuf inodeNr left (dirEIdx + 1)

def nameOfNumber (disk : Bytes) (allBlocks : ℕ → ℕ) (inodeNr : ℕ) :
    (left blockIdx : ℕ) → Option (Option (List Byte))
  | 0, _ => some none
  | left + 1, blockIdx =>
    if allBlocks blockIdx = 0 then nameOfNumber disk allBlocks inodeNr left (blockIdx + 1)
    else do
      let ioBuf ← ideRead disk (allBlocks blockIdx) zeroes 1
      match entryOfNumber ioBuf inodeNr dirEntrysPerSec 0 with
      | some dirE => return some dirE.filename
      | none => nameOfNumber disk allBlocks inodeNr left (blockIdx + 1)

def getChildDirName (pInodeNr cInodeNr : ℕ) (s : Kernel part) :
    Option (Option (List Byte) × Kernel part) := do
  let (a, s) ← inodeOpen pInodeNr s
  let i ← s.inodes a
  let allBlocks ← loadAllBlocks s.vol.disk i
  let s ← inodeClose a s
  let name ← nameOfNumber s.vol.disk allBlocks cInodeNr (if i.iSectors 12 = 0 then 12 else 140) 0
  return (name, s)

/-- The walk up to the root; `full_path_reverse` has 512 bytes. -/
def cwdLoop : (fuel childInodeNr : ℕ) → List Byte → Kernel part →
    Option (Option (List Byte) × Kernel part)
  | 0, _, _, _ => none
  | fuel + 1, childInodeNr, fullPathReverse, s =>
    if childInodeNr = 0 then some (some fullPathReverse, s)
    else do
      let (parentInodeNr, s) ← getParentDirInodeNr childInodeNr s
      let (name, s) ← getChildDirName parentInodeNr childInodeNr s
      match name with
      | none => return (none, s)
      | some name =>
        assert ((fullPathReverse ++ slash :: name).length < maxPathLen)
        cwdLoop fuel parentInodeNr (fullPathReverse ++ slash :: name) s

/-- What `strrchr(path, '/')` points to goes to the end of `buf` until no slash is left. -/
def reverseLoop : (fuel : ℕ) → (path buf : List Byte) → List Byte
  | 0, _, buf => buf
  | fuel + 1, path, buf =>
    match afterLastSlash path with
    | none => buf
    | some last =>
      reverseLoop fuel (path.take (path.length - last.length - 1)) (buf ++ slash :: last)

/-- `none` beside the state is a null pointer; a walk that does not end uses up the fuel. -/
def sysGetcwd (fuel size : ℕ) (s : Kernel part) : Option (Option (List Byte) × Kernel part) := do
  let (mallocIoBuf, s) := sysMalloc s
  if mallocIoBuf = false then return (none, s)
  else
    assert (s.cur.cwdInodeNr < 4096)
    if s.cur.cwdInodeNr = 0 then return (some rootPath, s)
    else
      let (path, s) ← cwdLoop fuel s.cur.cwdInodeNr [] s
      match path with
      | none => return (none, s)
      | some path =>
        assert (path.length ≤ size)
        return (some (reverseLoop path.length path []), s)

end FsSyscalls
