import XianweiOS.FsOwnership

/-! Directory files (`fs/dir.c`): 24-byte entries, 21 to a block. A name is a C string, the
list of its bytes before the terminating zero. The outcomes of `sys_malloc` are arguments.
A buffer that could not be had is passed to `strcmp`, which stops at a null pointer. -/
namespace FsDirectory

open ByteStore HaltingProgram KernelBitmap DeviceIde FsVolume FsInodeTable FsBlockMap FsOwnership

variable {part : Partition}

inductive FileType where
  | unknown
  | regular
  | directory
  deriving DecidableEq, Repr

def FileType.code : FileType → ℕ
  | .unknown => 0
  | .regular => 1
  | .directory => 2

structure DirEntry where
  filename : List Byte
  iNo : ℕ
  fType : ℕ
  deriving DecidableEq

def dot : List Byte := [0x2e]
def dotdot : List Byte := [0x2e, 0x2e]

def dirEntrySize : ℕ := 24
def dirEntrysPerSec : ℕ := 512 / dirEntrySize

/-- Does the string at address `a` equal the name? -/
def strcmp : List Byte → Bytes → ℕ → Bool
  | [], m, a => m a == 0
  | c :: name, m, a => c == m a && strcmp name m (a + 1)

/-- The string at address `a`, at most `n` bytes of it. -/
def cstr (m : Bytes) : (a n : ℕ) → List Byte
  | _, 0 => []
  | a, n + 1 => if m a = 0 then [] else m a :: cstr m (a + 1) n

def DirEntry.ofBytes (m : Bytes) (a : ℕ) : DirEntry where
  filename := cstr m a 16
  iNo := word m (a + 16)
  fType := word m (a + 20)

def DirEntry.toBytes (e : DirEntry) : Bytes := fun k =>
  if k < 16 then e.filename.getD k 0 else ofWords (fun w => if w = 4 then e.iNo else e.fType) k

/-- The cleared entry the callers pass in, filled in. -/
def createDirEntry (filename : List Byte) (inodeNo : ℕ) (fileType : FileType) : Option DirEntry := do
  assert (filename.length ≤ 16)
  return ⟨filename, inodeNo, fileType.code⟩

/-- The block of a new directory: `.`, `..` and cleared slots. -/
def newDirBlock (own parent : ℕ) : Bytes :=
  patch (patch zeroes 0 dirEntrySize (DirEntry.toBytes ⟨dot, own, FileType.directory.code⟩))
    dirEntrySize dirEntrySize (DirEntry.toBytes ⟨dotdot, parent, FileType.directory.code⟩)

def searchSector (buf : Bytes) (name : List Byte) : (left dirEntryIdx : ℕ) → Option DirEntry
  | 0, _ => none
  | left + 1, dirEntryIdx =>
    if strcmp name buf (24 * dirEntryIdx) then some (DirEntry.ofBytes buf (24 * dirEntryIdx))
    else searchSector buf name left (dirEntryIdx + 1)

def searchBlocks (mallocBuf : Bool) (disk : Bytes) (allBlocks : ℕ → ℕ) (name : List Byte) :
    (left blockIdx : ℕ) → Option (Option DirEntry)
  | 0, _ => some none
  | left + 1, blockIdx =>
    if allBlocks blockIdx = 0 then searchBlocks mallocBuf disk allBlocks name left (blockIdx + 1)
    else do
      let buf ← ideRead disk (allBlocks blockIdx) zeroes 1
      assert (mallocBuf = true)
      match searchSector buf name dirEntrysPerSec 0 with
      | some dirE => return some dirE
      | none => searchBlocks mallocBuf disk allBlocks name left (blockIdx + 1)

def searchDirEntry (mallocAllBlocks mallocBuf : Bool) (disk : Bytes) (inode : Inode)
    (name : List Byte) : Option (Option DirEntry) :=
  if mallocAllBlocks = false then return none
  else do
    let allBlocks ← loadAllBlocks disk inode
    searchBlocks mallocBuf disk allBlocks name 140 0

/-- The first entry of the sector whose `f_type` is `FT_UNKNOWN`. -/
def freeEntry (ioBuf : Bytes) : (left dirEntryIdx : ℕ) → Option ℕ
  | 0, _ => none
  | left + 1, dirEntryIdx =>
    if word ioBuf (24 * dirEntryIdx + 20) = FileType.unknown.code then some dirEntryIdx
    else freeEntry ioBuf left (dirEntryIdx + 1)

def grow (inode : Inode) : Inode := { inode with iSize := (inode.iSize + dirEntrySize) % 2 ^ 32 }

/-- The entry becomes the first one of a new block. -/
def writeNewBlock (lba : ℕ) (e : DirEntry) (inode : Inode) (v : Volume part) :
    Option (Bool × Inode × Volume part) := do
  let disk ← ideWrite v.disk lba (patch zeroes 0 dirEntrySize e.toBytes) 1
  return (true, grow inode, v.withDisk disk)

/-- The hole at `blockIdx` gets a block. At index 12 the first of two blocks becomes the
indirect table, whether or not the inode has one. -/
def syncNewBlock (blockIdx : ℕ) (allBlocks : ℕ → ℕ) (e : DirEntry) (inode : Inode)
    (v : Volume part) : Option (Bool × Inode × Volume part) := do
  let (blockLba, v) ← blockBitmapAlloc v
  match blockLba with
  | none => return (false, inode, v)
  | some blockLba =>
    let v ← bitmapSync v (blockBitmapIdx part blockLba) .blockBitmap
    if blockIdx < 12 then writeNewBlock blockLba e (inode.setSector blockIdx blockLba) v
    else if blockIdx = 12 then
      let inode := inode.setSector 12 blockLba
      let (blockLba, v) ← blockBitmapAlloc v
      match blockLba with
      | none =>
        return (false, inode.setSector 12 0,
          v.setBlockBit (blockBitmapIdx part (inode.iSectors 12)) false)
      | some blockLba =>
        let v ← bitmapSync v (blockBitmapIdx part blockLba) .blockBitmap
        let disk ← ideWrite v.disk (inode.iSectors 12)
          (tableBytes (Function.update allBlocks 12 blockLba)) 1
        writeNewBlock blockLba e inode (v.withDisk disk)
    else
      let disk ← ideWrite v.disk (inode.iSectors 12)
        (tableBytes (Function.update allBlocks blockIdx blockLba)) 1
      writeNewBlock blockLba e inode (v.withDisk disk)

def syncBlocks (allBlocks : ℕ → ℕ) (e : DirEntry) (inode : Inode) (v : Volume part) :
    (left blockIdx : ℕ) → Option (Bool × Inode × Volume part)
  | 0, _ => some (false, inode, v)
  | left + 1, blockIdx =>
    if allBlocks blockIdx = 0 then syncNewBlock blockIdx allBlocks e inode v
    else do
      let ioBuf ← ideRead v.disk (allBlocks blockIdx) zeroes 1
      match freeEntry ioBuf dirEntrysPerSec 0 with
      | some i =>
        let disk ← ideWrite v.disk (allBlocks blockIdx)
          (patch ioBuf (24 * i) dirEntrySize e.toBytes) 1
        return (true, grow inode, v.withDisk disk)
      | none => syncBlocks allBlocks e inode v left (blockIdx + 1)

def syncDirEntry (e : DirEntry) (inode : Inode) (v : Volume part) :
    Option (Bool × Inode × Volume part) := do
  assert (inode.iSize % dirEntrySize = 0)
  let allBlocks ← loadAllBlocks v.disk inode
  syncBlocks allBlocks e inode v 140 0

/-- What the scan of one block found: the entry to delete, the number of entries other than
`.` and `..`, and whether `.` is among them. -/
structure BlockScan where
  found : Option ℕ
  dirEntryCnt : ℕ
  isDirFirstBlock : Bool

def scanEntries (inodeNo : ℕ) (ioBuf : Bytes) :
    (left dirEntryIdx : ℕ) → BlockScan → Option BlockScan
  | 0, _, s => some s
  | left + 1, dirEntryIdx, s =>
    if word ioBuf (24 * dirEntryIdx + 20) ≠ FileType.unknown.code then
      if strcmp dot ioBuf (24 * dirEntryIdx) then
        scanEntries inodeNo ioBuf left (dirEntryIdx + 1) { s with isDirFirstBlock := true }
      else if strcmp dotdot ioBuf (24 * dirEntryIdx) then
        scanEntries inodeNo ioBuf left (dirEntryIdx + 1) s
      else if word ioBuf (24 * dirEntryIdx + 16) = inodeNo then do
        assert (s.found = none)
        scanEntries inodeNo ioBuf left (dirEntryIdx + 1)
          { s with found := some dirEntryIdx, dirEntryCnt := s.dirEntryCnt + 1 }
      else scanEntries inodeNo ioBuf left (dirEntryIdx + 1)
        { s with dirEntryCnt := s.dirEntryCnt + 1 }
    else scanEntries inodeNo ioBuf left (dirEntryIdx + 1) s

/-- `bitmap_set` to 0 of the block at sector `lba`, and its write-back. -/
def releaseBlock (lba : ℕ) (v : Volume part) : Option (Volume part) :=
  bitmapSync (v.setBlockBit (blockBitmapIdx part lba) false) (blockBitmapIdx part lba) .blockBitmap

def indirectBlocks (allBlocks : ℕ → ℕ) : ℕ :=
  ((List.range 128).filter fun k => allBlocks (12 + k) ≠ 0).length

/-- The block held only the entry to delete. With the last indirect block the table goes. -/
def dropBlock (blockIdx : ℕ) (allBlocks : ℕ → ℕ) (inode : Inode) (v : Volume part) :
    Option (Inode × Volume part) := do
  let v ← releaseBlock (allBlocks blockIdx) v
  if blockIdx < 12 then return (inode.setSector blockIdx 0, v)
  else
    assert (indirectBlocks allBlocks ≥ 1)
    if indirectBlocks allBlocks > 1 then
      let disk ← ideWrite v.disk (inode.iSectors 12)
        (tableBytes (Function.update allBlocks blockIdx 0)) 1
      return (inode, v.withDisk disk)
    else
      let v ← releaseBlock (inode.iSectors 12) v
      return (inode.setSector 12 0, v)

def shrink (inode : Inode) : Inode := { inode with iSize := inode.iSize - dirEntrySize }

def removeEntry (s : BlockScan) (i blockIdx : ℕ) (allBlocks : ℕ → ℕ) (ioBuf : Bytes)
    (inode : Inode) (v : Volume part) : Option (Inode × Volume part) :=
  if s.dirEntryCnt = 1 ∧ s.isDirFirstBlock = false then dropBlock blockIdx allBlocks inode v
  else do
    let disk ← ideWrite v.disk (allBlocks blockIdx) (patch ioBuf (24 * i) dirEntrySize zeroes) 1
    return (inode, v.withDisk disk)

def deleteBlocks (inodeNo : ℕ) (allBlocks : ℕ → ℕ) (inode : Inode) (v : Volume part) :
    (left blockIdx : ℕ) → Option (Bool × Inode × Volume part)
  | 0, _ => some (false, inode, v)
  | left + 1, blockIdx =>
    if allBlocks blockIdx = 0 then deleteBlocks inodeNo allBlocks inode v left (blockIdx + 1)
    else do
      let ioBuf ← ideRead v.disk (allBlocks blockIdx) zeroes 1
      let s ← scanEntries inodeNo ioBuf dirEntrysPerSec 0 ⟨none, 0, false⟩
      match s.found with
      | none => deleteBlocks inodeNo allBlocks inode v left (blockIdx + 1)
      | some i =>
        assert (s.dirEntryCnt ≥ 1)
        let (inode, v) ← removeEntry s i blockIdx allBlocks ioBuf inode v
        assert (inode.iSize ≥ dirEntrySize)
        let disk ← inodeSync part v.disk (shrink inode) zeroes
        return (true, shrink inode, v.withDisk disk)

def deleteDirEntry (inode : Inode) (inodeNo : ℕ) (v : Volume part) :
    Option (Bool × Inode × Volume part) := do
  let allBlocks ← loadAllBlocks v.disk inode
  deleteBlocks inodeNo allBlocks inode v 140 0

end FsDirectory
