import XianweiOS.FsSyscalls
import Mathlib.Control.Monad.Writer

/-! What `inode_sync` and `inode_delete` read into the buffer of their caller. The operations that
hand them a buffer are written once more with a record of these transfers: how many bytes were moved,
and how many `sys_malloc` was asked for when the buffer was allocated. -/
namespace FsBufferSizes

open ByteStore HaltingProgram DeviceIde FsVolume FsInodeTable FsBlockMap FsOwnership FsDirectory
  FsInodeRelease FsFileWrite FsPath FsOpenFiles FsSyscalls

variable {part : Partition}

/-- The operations that pass an `io_buf` on. -/
inductive Operation where
  | fileCreate
  | fileWrite
  | sysMkdir
  | deleteDirEntry
  | inodeRelease
  deriving DecidableEq, Repr

/-- One `ide_read` into the buffer of an operation, for the record of inode `iNo`. -/
structure Move where
  op : Operation
  iNo : ℕ
  bytes : ℕ
  bufSize : ℕ

abbrev Log := WriterT (List Move) Option

/-- `ide_read` of the one or two sectors of a record. -/
def moved (op : Operation) (iNo bufSize : ℕ) (pos : InodePosition) : Move :=
  ⟨op, iNo, 512 * if pos.twoSec then 2 else 1, bufSize⟩

def inodeSync (part : Partition) (op : Operation) (ioBuf : ℕ) (disk : Bytes) (inode : Inode) :
    Log Bytes := do
  let inodePos ← inodeLocate part (inode.iNo % 256)
  tell [moved op inode.iNo ioBuf inodePos]
  FsInodeTable.inodeSync part disk inode zeroes

def inodeDelete (part : Partition) (ioBuf : ℕ) (disk : Bytes) (inodeNo : ℕ) : Log Bytes := do
  let inodePos ← inodeLocate part inodeNo
  tell [moved .inodeRelease inodeNo ioBuf inodePos]
  FsInodeTable.inodeDelete part disk inodeNo zeroes

/-! ### The operations -/

def fileWrite (mallocIoBuf mallocAllBlocks : Bool) (fdPos : ℕ) (inode : Inode)
    (v : Volume part) (buf : Bytes) (count : ℕ) : Log (WriteResult part) := do
  if (inode.iSize + count) % 2 ^ 32 > 512 * 140 then return ⟨-1, fdPos, inode, v⟩
  let ioBuf := 512
  if mallocIoBuf = false then return ⟨-1, fdPos, inode, v⟩
  if mallocAllBlocks = false then return ⟨-1, fdPos, inode, v⟩
  let (ok, inode, v) ← writeFirstBlock inode v
  if ok = false then return ⟨-1, fdPos, inode, v⟩
  let fileHasUsedBlocks := inode.iSize / 512 + 1
  let fileWillUseBlocks := (inode.iSize + count) % 2 ^ 32 / 512 + 1
  assert (fileWillUseBlocks ≤ 140)
  let (ok, allBlocks, inode, v) ← writeBlocks fileHasUsedBlocks fileWillUseBlocks inode v
  if ok = false then return ⟨-1, fdPos, inode, v⟩
  let (bytesWritten, fdPos, inode, disk) ← writeLoop allBlocks buf count count true 0
    ((inode.iSize + 2 ^ 32 - 1) % 2 ^ 32) inode v.disk
  let disk ← inodeSync part .fileWrite ioBuf disk inode
  return ⟨bytesWritten, fdPos, inode, v.withDisk disk⟩

def fileWriteTo (fdIdx : ℕ) (buf : Bytes) (count : ℕ) (s : Kernel part) :
    Log (ℤ × Kernel part) := do
  let a ← (s.fileTable fdIdx).fdInode
  let i ← s.inodes a
  let (mallocIoBuf, s) := sysMalloc s
  let (mallocAllBlocks, s) := sysMalloc s
  let res ← fileWrite mallocIoBuf mallocAllBlocks (s.fileTable fdIdx).fdPos i s.vol buf count
  return (res.ret, ((s.setInode a res.inode).withVol res.vol).setFile fdIdx
    { s.fileTable fdIdx with fdPos := res.fdPos })

def syncNewInode (op : Operation) (ioBuf : ℕ) (parent new : Inode) (v : Volume part) :
    Log (Volume part) := do
  let disk ← inodeSync part op ioBuf v.disk parent
  let disk ← inodeSync part op ioBuf disk new
  bitmapSync (v.withDisk disk) new.iNo .inodeBitmap

def fileCreateAt (ioBuf : ℕ) (pdir : Option DirPtr) (filename : List Byte) (inodeNo new fdIdx : ℕ)
    (s : Kernel part) : Log (ℤ × Kernel part) := do
  let e ← createDirEntry filename inodeNo .regular
  let a ← dirInode s pdir
  let i ← s.inodes a
  let (ok, i, v) ← syncDirEntry e i s.vol
  let s := s.setInode a i
  if ok = false then
    return (-1, ((s.setFile fdIdx ⟨0, 0, none⟩).freeInode new).withVol (v.setInodeBit inodeNo false))
  else
    let v ← syncNewInode .fileCreate ioBuf i (inodeInit inodeNo) v
    let s := (s.withVol v).setInode new { inodeInit inodeNo with openCnts := 1 }
    return pcbFdInstall fdIdx { s with openInodes := new :: s.openInodes }

def fileCreate (pdir : Option DirPtr) (filename : List Byte) (flag : ℕ) (s : Kernel part) :
    Log (ℤ × Kernel part) := do
  let ioBuf := 1024
  let (mallocIoBuf, s) := sysMalloc s
  if mallocIoBuf = false then return (-1, s)
  else
    let (inodeNo, v) ← inodeBitmapAlloc s.vol
    match inodeNo with
    | none => return (-1, s)
    | some inodeNo =>
      let (mallocInode, s) := sysMalloc s
      if mallocInode = false then return (-1, s.withVol (v.setInodeBit inodeNo false))
      else
        match getFreeSlotInGlobal s with
        | none => return (-1, s.withVol (v.setInodeBit inodeNo false))
        | some fdIdx =>
          fileCreateAt ioBuf pdir filename inodeNo s.next fdIdx
            (((s.withVol v).newInode (inodeInit inodeNo)).setFile fdIdx ⟨0, flag, some s.next⟩)

def mkdirIn (ioBuf : ℕ) (parentDir : Option DirPtr) (dirname : List Byte) (s : Kernel part) :
    Log (ℤ × Kernel part) := do
  let (inodeNo, v) ← inodeBitmapAlloc s.vol
  match inodeNo with
  | none =>
    let s ← dirClose parentDir s
    return (-1, s)
  | some inodeNo =>
    let a ← dirInode s parentDir
    let i ← s.inodes a
    let (new, v) ← newDirectory inodeNo i.iNo v
    match new with
    | none => mkdirRollback parentDir inodeNo v s
    | some new =>
      let e ← createDirEntry dirname inodeNo .directory
      let (ok, i, v) ← syncDirEntry e i v
      let s := s.setInode a i
      if ok = false then mkdirRollback parentDir inodeNo v s
      else
        let v ← syncNewInode .sysMkdir ioBuf i new v
        let s ← dirClose parentDir (s.withVol v)
        return (0, s)

def sysMkdir (junk : Junk) (pathname : List Byte) (s : Kernel part) : Log (ℤ × Kernel part) := do
  let ioBuf := 512 * 2
  let (mallocIoBuf, s) := sysMalloc s
  if mallocIoBuf = false then return (-1, s)
  else
    let (inodeNo, record, s) ← searchFile junk pathname zeroRecord s
    match inodeNo with
    | some _ =>
      let s ← dirClose record.parentDir s
      return (-1, s)
    | none =>
      let pathnameDepth ← pathDepthCnt junk.name pathname
      let searchedDepth ← pathDepthCnt junk.name' record.searchedPath
      if pathnameDepth ≠ searchedDepth then
        let s ← dirClose record.parentDir s
        return (-1, s)
      else
        let dirname ← afterLastSlash record.searchedPath
        mkdirIn ioBuf record.parentDir dirname s

def deleteBlocks (ioBuf inodeNo : ℕ) (allBlocks : ℕ → ℕ) (inode : Inode) (v : Volume part) :
    (left blockIdx : ℕ) → Log (Bool × Inode × Volume part)
  | 0, _ => return (false, inode, v)
  | left + 1, blockIdx =>
    if allBlocks blockIdx = 0 then deleteBlocks ioBuf inodeNo allBlocks inode v left (blockIdx + 1)
    else do
      let entries ← ideRead v.disk (allBlocks blockIdx) zeroes 1
      let s ← scanEntries inodeNo entries dirEntrysPerSec 0 ⟨none, 0, false⟩
      match s.found with
      | none => deleteBlocks ioBuf inodeNo allBlocks inode v left (blockIdx + 1)
      | some i =>
        assert (s.dirEntryCnt ≥ 1)
        let (inode, v) ← removeEntry s i blockIdx allBlocks entries inode v
        assert (inode.iSize ≥ dirEntrySize)
        let disk ← inodeSync part .deleteDirEntry ioBuf v.disk (shrink inode)
        return (true, shrink inode, v.withDisk disk)

def deleteDirEntry (ioBuf : ℕ) (inode : Inode) (inodeNo : ℕ) (v : Volume part) :
    Log (Bool × Inode × Volume part) := do
  let allBlocks ← loadAllBlocks v.disk inode
  deleteBlocks ioBuf inodeNo allBlocks inode v 140 0

def deleteDirEntryIn (ioBuf : ℕ) (pdir : Option DirPtr) (inodeNo : ℕ) (s : Kernel part) :
    Log (Kernel part) := do
  let a ← dirInode s pdir
  let i ← s.inodes a
  let (_, i, v) ← deleteDirEntry ioBuf i inodeNo s.vol
  return (s.setInode a i).withVol v

def inodeRelease (mallocIoBuf : Bool) (inode : Inode) (inodeNo : ℕ) (v : Volume part) :
    Log (Volume part) := do
  assert (inode.iNo = inodeNo)
  let v ← releaseBlocks inode v
  let v ← bitmapSync (v.setInodeBit inodeNo false) inodeNo .inodeBitmap
  let ioBuf := 512 * 2
  assert (mallocIoBuf = true)
  let disk ← inodeDelete part ioBuf v.disk inodeNo
  return v.withDisk disk

def inodeReleaseNo (inodeNo : ℕ) (s : Kernel part) : Log (Kernel part) := do
  let (a, s) ← inodeOpen inodeNo s
  let i ← s.inodes a
  let (mallocIoBuf, s) := sysMalloc s
  let v ← inodeRelease mallocIoBuf i inodeNo s.vol
  inodeClose a (s.withVol v)

def unlinkFound (inodeNo : ℕ) (parentDir : Option DirPtr) (s : Kernel part) :
    Log (ℤ × Kernel part) := do
  let ioBuf := 512 * 2
  let (mallocIoBuf, s) := sysMalloc s
  if mallocIoBuf = false then
    let s ← dirClose parentDir s
    return (-1, s)
  else
    let s ← deleteDirEntryIn ioBuf parentDir inodeNo s
    let s ← inodeReleaseNo inodeNo s
    let s ← dirClose parentDir s
    return (0, s)

def dirRemove (parentDir childDir : Option DirPtr) (s : Kernel part) : Log (ℤ × Kernel part) := do
  let a ← dirInode s childDir
  let i ← s.inodes a
  assert (∀ k ∈ List.range 12, i.iSectors (k + 1) = 0)
  let ioBuf := 512 * 2
  let (mallocIoBuf, s) := sysMalloc s
  if mallocIoBuf = false then return (-1, s)
  else
    let s ← deleteDirEntryIn ioBuf parentDir i.iNo s
    let i ← s.inodes a
    let s ← inodeReleaseNo i.iNo s
    return (0, s)

/-! ### The model of the file system is the record with its transfers checked -/

section Checked

variable {α β : Type}

/-- The computation that stops where a transfer does not fit its buffer. -/
def checked (x : Log α) : Option α :=
  x.run.bind fun r => if ∀ m ∈ r.2, m.bytes ≤ m.bufSize then some r.1 else none

theorem checked_lift (x : Option α) : checked (liftM x : Log α) = x := by
  cases x with
  | none => rfl
  | some a =>
    have hrun : (liftM (some a) : Log α).run = some (a, []) := rfl
    rw [checked, hrun, Option.bind_some, if_pos]
    simp

/-- `x` does what `y` does, and goes on as `y` goes on. -/
theorem checked_bind {x : Log α} {y : Option α} {f : α → Log β} {g : α → Option β}
    (hx : checked x = y) (hf : ∀ a, checked (f a) = g a) : checked (x >>= f) = y >>= g := by
  subst hx
  rcases hrun : x.run with - | ⟨a, l⟩
  · simp [checked, hrun]
  by_cases hl : ∀ m ∈ l, m.bytes ≤ m.bufSize
  · have hx : checked x = some a := by
      rw [checked, hrun]
      exact if_pos hl
    rw [hx, Option.bind_eq_bind, Option.bind_some, ← hf a]
    rcases hfa : (f a).run with - | ⟨b, l'⟩
    · simp [checked, hrun, hfa]
    · have hboth : (∀ m ∈ l ++ l', m.bytes ≤ m.bufSize) ↔ ∀ m ∈ l', m.bytes ≤ m.bufSize :=
        ⟨fun h m hm => h m (List.mem_append_right _ hm), fun h m hm =>
          (List.mem_append.mp hm).elim (hl m) (h m)⟩
      have hrun' : (x >>= f).run = some (b, l ++ l') := by simp [hrun, hfa]
      rw [checked, checked, hrun', hfa, Option.bind_some, Option.bind_some]
      simp only [hboth]
  · have hx : checked x = none := by
      rw [checked, hrun]
      exact if_neg hl
    rw [hx, Option.bind_eq_bind, Option.bind_none]
    rcases hfa : (f a).run with - | ⟨b, l'⟩
    · simp [checked, hrun, hfa]
    · have hrun' : (x >>= f).run = some (b, l ++ l') := by simp [hrun, hfa]
      rw [checked, hrun', Option.bind_some, if_neg]
      exact fun h => hl fun m hm => h m (List.mem_append_left _ hm)

theorem checked_data (x : Option α) {f : α → Log β} {g : α → Option β}
    (hf : ∀ a, checked (f a) = g a) : checked ((liftM x : Log α) >>= f) = x >>= g :=
  checked_bind (checked_lift x) hf

theorem checked_tell (m : Move) :
    checked (tell [m] : Log PUnit) = (assert (m.bytes ≤ m.bufSize)).map fun _ => ⟨⟩ := by
  by_cases hm : m.bytes ≤ m.bufSize
  · rw [assert_pos hm]
    exact if_pos fun m' hm' => List.mem_singleton.mp hm' ▸ hm
  · rw [assert, if_neg hm]
    exact if_neg fun h => hm (h m (List.mem_singleton_self m))

theorem inodeSync_checked (op : Operation) (ioBuf : ℕ) (disk : Bytes) (inode : Inode) :
    checked (inodeSync part op ioBuf disk inode) = inodeSyncIn ioBuf part disk inode zeroes := by
  refine checked_data _ fun pos => ?_
  refine (checked_bind (checked_tell _) fun _ => checked_lift _).trans ?_
  rw [Option.bind_eq_bind, Option.bind_map]
  rfl

theorem inodeSync_checked_two (op : Operation) (disk : Bytes) (inode : Inode) :
    checked (inodeSync part op 1024 disk inode) = FsInodeTable.inodeSync part disk inode zeroes :=
  (inodeSync_checked op 1024 disk inode).trans (inodeSyncIn_two part disk inode zeroes)

theorem inodeDelete_checked (disk : Bytes) (inodeNo : ℕ) :
    checked (inodeDelete part 1024 disk inodeNo) =
      FsInodeTable.inodeDelete part disk inodeNo zeroes := by
  by_cases hn : inodeNo < 4096
  · rw [inodeDelete, inodeLocate_eq part hn]
    refine checked_bind (y := some _) (checked_lift _)
      (g := fun _ => FsInodeTable.inodeDelete part disk inodeNo zeroes) fun pos => ?_
    refine (checked_bind (checked_tell _) fun _ => checked_lift _).trans ?_
    rw [assert_pos]
    · rfl
    · simp only [moved]
      split
      · exact le_rfl
      · decide
  · rw [inodeDelete, FsInodeTable.inodeDelete, inodeLocate, assert, if_neg hn]
    rfl

theorem fileWrite_checked (mallocIoBuf mallocAllBlocks : Bool) (fdPos : ℕ) (inode : Inode)
    (v : Volume part) (buf : Bytes) (count : ℕ) :
    checked (fileWrite mallocIoBuf mallocAllBlocks fdPos inode v buf count) =
      FsFileWrite.fileWrite mallocIoBuf mallocAllBlocks fdPos inode v buf count := by
  rw [fileWrite, FsFileWrite.fileWrite]
  split
  · rfl
  split
  · rfl
  split
  · rfl
  refine checked_data _ fun r => ?_
  obtain ⟨ok, inode, v⟩ := r
  cases ok
  · rfl
  refine checked_data _ fun _ => checked_data _ fun r => ?_
  obtain ⟨ok, allBlocks, inode, v⟩ := r
  cases ok
  · rfl
  refine checked_data _ fun r => ?_
  obtain ⟨bytesWritten, fdPos, inode, disk⟩ := r
  exact checked_bind (inodeSync_checked _ _ _ _) fun _ => rfl

theorem fileWriteTo_checked (fdIdx : ℕ) (buf : Bytes) (count : ℕ) (s : Kernel part) :
    checked (fileWriteTo fdIdx buf count s) = FsOpenFiles.fileWriteTo fdIdx buf count s :=
  checked_data _ fun _ => checked_data _ fun _ => checked_bind (fileWrite_checked ..) fun _ => rfl

theorem syncNewInode_checked (op : Operation) (parent new : Inode) (v : Volume part) :
    checked (syncNewInode op 1024 parent new v) = FsOpenFiles.syncNewInode parent new v :=
  checked_bind (inodeSync_checked_two ..) fun _ =>
    checked_bind (inodeSync_checked_two ..) fun _ => checked_lift _

theorem fileCreateAt_checked (pdir : Option DirPtr) (filename : List Byte)
    (inodeNo new fdIdx : ℕ) (s : Kernel part) :
    checked (fileCreateAt 1024 pdir filename inodeNo new fdIdx s) =
      FsOpenFiles.fileCreateAt pdir filename inodeNo new fdIdx s := by
  refine checked_data _ fun e => checked_data _ fun a => checked_data _ fun i =>
    checked_data _ fun r => ?_
  obtain ⟨ok, i, v⟩ := r
  cases ok
  · rfl
  · exact checked_bind (syncNewInode_checked ..) fun _ => rfl

theorem fileCreate_checked (pdir : Option DirPtr) (filename : List Byte) (flag : ℕ)
    (s : Kernel part) :
    checked (fileCreate pdir filename flag s) = FsOpenFiles.fileCreate pdir filename flag s := by
  rw [fileCreate, FsOpenFiles.fileCreate]
  rcases sysMalloc s with ⟨mallocIoBuf, s⟩
  dsimp only
  split
  · rfl
  refine checked_data _ fun r => ?_
  obtain ⟨inodeNo, v⟩ := r
  cases inodeNo with
  | none => rfl
  | some inodeNo =>
    rcases sysMalloc s with ⟨mallocInode, s⟩
    dsimp only
    split
    · rfl
    cases getFreeSlotInGlobal s with
    | none => rfl
    | some fdIdx => exact fileCreateAt_checked ..

theorem mkdirIn_checked (parentDir : Option DirPtr) (dirname : List Byte)
    (s : Kernel part) :
    checked (mkdirIn 1024 parentDir dirname s) = FsSyscalls.mkdirIn parentDir dirname s := by
  refine checked_data _ fun r => ?_
  obtain ⟨inodeNo, v⟩ := r
  cases inodeNo with
  | none => exact checked_data _ fun _ => rfl
  | some inodeNo =>
    refine checked_data _ fun a => checked_data _ fun i => checked_data _ fun r => ?_
    obtain ⟨new, v⟩ := r
    cases new with
    | none => exact checked_lift _
    | some new =>
      refine checked_data _ fun e => checked_data _ fun r => ?_
      obtain ⟨ok, i, v⟩ := r
      cases ok
      · exact checked_lift _
      · exact checked_bind (syncNewInode_checked ..) fun _ => checked_data _ fun _ => rfl

theorem sysMkdir_checked (junk : Junk) (pathname : List Byte) (s : Kernel part) :
    checked (sysMkdir junk pathname s) = FsSyscalls.sysMkdir junk pathname s := by
  rw [sysMkdir, FsSyscalls.sysMkdir]
  rcases sysMalloc s with ⟨mallocIoBuf, s⟩
  dsimp only
  split
  · rfl
  refine checked_data _ fun r => ?_
  obtain ⟨inodeNo, record, s⟩ := r
  cases inodeNo with
  | some _ => exact checked_data _ fun _ => rfl
  | none =>
    refine checked_data _ fun pathnameDepth => checked_data _ fun searchedDepth => ?_
    dsimp only
    split
    · exact checked_data _ fun _ => rfl
    · exact checked_data _ fun _ => mkdirIn_checked ..

theorem deleteBlocks_checked (inodeNo : ℕ) (allBlocks : ℕ → ℕ) (inode : Inode)
    (v : Volume part) : ∀ left blockIdx,
    checked (deleteBlocks 1024 inodeNo allBlocks inode v left blockIdx) =
      FsDirectory.deleteBlocks inodeNo allBlocks inode v left blockIdx
  | 0, _ => rfl
  | left + 1, blockIdx => by
    rw [deleteBlocks, FsDirectory.deleteBlocks]
    split
    · exact deleteBlocks_checked inodeNo allBlocks inode v left (blockIdx + 1)
    refine checked_data _ fun entries => checked_data _ fun s => ?_
    cases s.found with
    | none => exact deleteBlocks_checked inodeNo allBlocks inode v left (blockIdx + 1)
    | some i =>
      exact checked_data _ fun _ => checked_data _ fun _ => checked_data _ fun _ =>
        checked_bind (inodeSync_checked_two ..) fun _ => rfl

theorem deleteDirEntryIn_checked (pdir : Option DirPtr) (inodeNo : ℕ)
    (s : Kernel part) :
    checked (deleteDirEntryIn 1024 pdir inodeNo s) = FsOpenFiles.deleteDirEntryIn pdir inodeNo s :=
  checked_data _ fun _ => checked_data _ fun _ =>
    checked_bind (checked_data _ fun _ => deleteBlocks_checked ..) fun _ => rfl

theorem inodeReleaseNo_checked (inodeNo : ℕ) (s : Kernel part) :
    checked (inodeReleaseNo inodeNo s) = FsOpenFiles.inodeReleaseNo inodeNo s := by
  refine checked_data _ fun r => checked_data _ fun i => checked_bind ?_ fun v => checked_lift _
  exact checked_data _ fun _ => checked_data _ fun _ => checked_data _ fun _ => checked_data _ fun _ =>
    checked_bind (inodeDelete_checked ..) fun _ => rfl

theorem unlinkFound_checked (inodeNo : ℕ) (parentDir : Option DirPtr) (s : Kernel part) :
    checked (unlinkFound inodeNo parentDir s) = FsSyscalls.unlinkFound inodeNo parentDir s := by
  rw [unlinkFound, FsSyscalls.unlinkFound]
  rcases sysMalloc s with ⟨mallocIoBuf, s⟩
  dsimp only
  split
  · exact checked_data _ fun _ => rfl
  · exact checked_bind (deleteDirEntryIn_checked ..) fun _ =>
      checked_bind (inodeReleaseNo_checked ..) fun _ => checked_data _ fun _ => rfl

theorem dirRemove_checked (parentDir childDir : Option DirPtr) (s : Kernel part) :
    checked (dirRemove parentDir childDir s) = FsSyscalls.dirRemove parentDir childDir s := by
  refine checked_data _ fun a => checked_data _ fun i => checked_data _ fun _ => ?_
  rcases sysMalloc s with ⟨mallocIoBuf, s⟩
  dsimp only
  split
  · rfl
  · exact checked_bind (deleteDirEntryIn_checked ..) fun _ => checked_data _ fun _ =>
      checked_bind (inodeReleaseNo_checked ..) fun _ => rfl

end Checked

/-! ### What is moved, and into how much room -/

/-- The record that is read: `inode_sync` narrows the number to a byte, `inode_delete` does not. -/
def recordNo (op : Operation) (iNo : ℕ) : ℕ := if op = .inodeRelease then iNo else iNo % 256

/-- The argument of the `sys_malloc` that gave the buffer. -/
def ioBufSize (op : Operation) : ℕ := if op = .fileWrite then 512 else 1024

/-- What an operation moves depends on the record alone, and its buffer on the operation. -/
structure AsAllocated (m : Move) : Prop where
  bytes : m.bytes = if Straddles (recordNo m.op m.iNo) then 1024 else 512
  size : m.bufSize = ioBufSize m.op

/-- All transfers of the computation are of this kind. -/
structure Recorded {α : Type} (x : Log α) : Prop where
  all : ∀ a l, x.run = some (a, l) → ∀ m ∈ l, AsAllocated m

section Recorded

variable {α β : Type}

theorem recorded_pure (a : α) : Recorded (pure a : Log α) := by
  refine ⟨fun b l h => ?_⟩
  obtain ⟨rfl, rfl⟩ := Prod.mk.inj (Option.some.inj h)
  exact fun m hm => (nomatch hm)

theorem recorded_lift (x : Option α) : Recorded (liftM x : Log α) := by
  cases x with
  | none => exact ⟨fun _ _ h => (nomatch h)⟩
  | some a => exact recorded_pure a

theorem recorded_bind {x : Log α} {f : α → Log β} (hx : Recorded x)
    (hf : ∀ a l, x.run = some (a, l) → Recorded (f a)) : Recorded (x >>= f) := by
  refine ⟨fun b l h => ?_⟩
  rcases hrun : x.run with - | ⟨a, l₁⟩
  · have hnone : (x >>= f).run = none := by simp [hrun]
    rw [hnone] at h
    cases h
  · rcases hfa : (f a).run with - | ⟨b', l₂⟩
    · have hnone : (x >>= f).run = none := by simp [hrun, hfa]
      rw [hnone] at h
      cases h
    · have hsome : (x >>= f).run = some (b', l₁ ++ l₂) := by simp [hrun, hfa]
      obtain ⟨rfl, rfl⟩ := Prod.mk.inj (Option.some.inj (hsome.symm.trans h))
      intro m hm
      rcases List.mem_append.mp hm with hm | hm
      · exact hx.all a l₁ hrun m hm
      · exact (hf a l₁ hrun).all b' l₂ hfa m hm

theorem recorded_then {x : Log α} {f : α → Log β} (hx : Recorded x) (hf : ∀ a, Recorded (f a)) :
    Recorded (x >>= f) := recorded_bind hx fun a _ _ => hf a

theorem recorded_data (x : Option α) {f : α → Log β} (hf : ∀ a, x = some a → Recorded (f a)) :
    Recorded ((liftM x : Log α) >>= f) := by
  refine recorded_bind (recorded_lift x) fun a l hrun => hf a ?_
  cases x with
  | none => cases hrun
  | some b =>
    obtain ⟨rfl, -⟩ := Prod.mk.inj (Option.some.inj hrun)
    rfl

theorem recorded_tell {m : Move} (h : AsAllocated m) : Recorded (tell [m] : Log PUnit) := by
  refine ⟨fun a l hrun => ?_⟩
  obtain ⟨rfl, rfl⟩ := Prod.mk.inj (Option.some.inj hrun)
  intro m' hm
  exact List.mem_singleton.mp hm ▸ h

theorem moved_asAllocated {op : Operation} {iNo : ℕ} {pos : InodePosition}
    (h : inodeLocate part (recordNo op iNo) = some pos) :
    AsAllocated (moved op iNo (ioBufSize op) pos) := by
  have hn : recordNo op iNo < 4096 := by
    by_contra hge
    rw [inodeLocate, assert, if_neg hge] at h
    cases h
  rw [inodeLocate_eq part hn] at h
  obtain rfl := Option.some.inj h
  refine ⟨?_, rfl⟩
  simp only [moved, Straddles, decide_eq_true_eq]
  split
  · rfl
  · rfl

theorem inodeSync_recorded {op : Operation} {ioBuf : ℕ} (hop : op ≠ .inodeRelease)
    (hbuf : ioBuf = ioBufSize op) (disk : Bytes) (inode : Inode) :
    Recorded (inodeSync part op ioBuf disk inode) := by
  subst hbuf
  refine recorded_data _ fun pos hpos => recorded_then (recorded_tell ?_) fun _ => recorded_lift _
  have hrec : inodeLocate part (recordNo op inode.iNo) = some pos := by
    rw [recordNo, if_neg hop, hpos]
  exact moved_asAllocated hrec

theorem inodeDelete_recorded (disk : Bytes) (inodeNo : ℕ) :
    Recorded (inodeDelete part 1024 disk inodeNo) :=
  recorded_data _ fun _ hpos => recorded_then (recorded_tell (moved_asAllocated hpos))
    fun _ => recorded_lift _

theorem fileWrite_recorded (mallocIoBuf mallocAllBlocks : Bool) (fdPos : ℕ) (inode : Inode)
    (v : Volume part) (buf : Bytes) (count : ℕ) :
    Recorded (fileWrite mallocIoBuf mallocAllBlocks fdPos inode v buf count) := by
  rw [fileWrite]
  split
  · exact recorded_pure _
  split
  · exact recorded_pure _
  split
  · exact recorded_pure _
  refine recorded_data _ fun r _ => ?_
  obtain ⟨ok, inode, v⟩ := r
  cases ok
  · exact recorded_pure _
  refine recorded_data _ fun _ _ => recorded_data _ fun r _ => ?_
  obtain ⟨ok, allBlocks, inode, v⟩ := r
  cases ok
  · exact recorded_pure _
  refine recorded_data _ fun r _ => ?_
  obtain ⟨bytesWritten, fdPos, inode, disk⟩ := r
  exact recorded_then (inodeSync_recorded (by decide) rfl _ _) fun _ => recorded_pure _

theorem fileWriteTo_recorded (fdIdx : ℕ) (buf : Bytes) (count : ℕ) (s : Kernel part) :
    Recorded (fileWriteTo fdIdx buf count s) :=
  recorded_data _ fun _ _ => recorded_data _ fun _ _ =>
    recorded_then (fileWrite_recorded ..) fun _ => recorded_pure _

theorem syncNewInode_recorded {op : Operation} (hop : op = .fileCreate ∨ op = .sysMkdir)
    (parent new : Inode) (v : Volume part) : Recorded (syncNewInode op 1024 parent new v) := by
  have hne : op ≠ .inodeRelease := by
    rcases hop with rfl | rfl
    · decide
    · decide
  have hbuf : 1024 = ioBufSize op := by
    rcases hop with rfl | rfl
    · decide
    · decide
  exact recorded_then (inodeSync_recorded hne hbuf _ _) fun _ =>
    recorded_then (inodeSync_recorded hne hbuf _ _) fun _ => recorded_lift _

theorem fileCreate_recorded (pdir : Option DirPtr) (filename : List Byte) (flag : ℕ)
    (s : Kernel part) : Recorded (fileCreate pdir filename flag s) := by
  rw [fileCreate]
  rcases sysMalloc s with ⟨mallocIoBuf, s⟩
  dsimp only
  split
  · exact recorded_pure _
  refine recorded_data _ fun r _ => ?_
  obtain ⟨inodeNo, v⟩ := r
  cases inodeNo with
  | none => exact recorded_pure _
  | some inodeNo =>
    rcases sysMalloc s with ⟨mallocInode, s⟩
    dsimp only
    split
    · exact recorded_pure _
    cases getFreeSlotInGlobal s with
    | none => exact recorded_pure _
    | some fdIdx =>
      refine recorded_data _ fun e _ => recorded_data _ fun a _ => recorded_data _ fun i _ =>
        recorded_data _ fun r _ => ?_
      obtain ⟨ok, i, v⟩ := r
      cases ok
      · exact recorded_pure _
      · exact recorded_then (syncNewInode_recorded (.inl rfl) ..) fun _ => recorded_pure _

theorem sysMkdir_recorded (junk : Junk) (pathname : List Byte) (s : Kernel part) :
    Recorded (sysMkdir junk pathname s) := by
  rw [sysMkdir]
  rcases sysMalloc s with ⟨mallocIoBuf, s⟩
  dsimp only
  split
  · exact recorded_pure _
  refine recorded_data _ fun r _ => ?_
  obtain ⟨inodeNo, record, s⟩ := r
  cases inodeNo with
  | some _ => exact recorded_data _ fun _ _ => recorded_pure _
  | none =>
    refine recorded_data _ fun pathnameDepth _ => recorded_data _ fun searchedDepth _ => ?_
    dsimp only
    split
    · exact recorded_data _ fun _ _ => recorded_pure _
    refine recorded_data _ fun _ _ => recorded_data _ fun r _ => ?_
    obtain ⟨inodeNo, v⟩ := r
    cases inodeNo with
    | none => exact recorded_data _ fun _ _ => recorded_pure _
    | some inodeNo =>
      refine recorded_data _ fun a _ => recorded_data _ fun i _ => recorded_data _ fun r _ => ?_
      obtain ⟨new, v⟩ := r
      cases new with
      | none => exact recorded_lift _
      | some new =>
        refine recorded_data _ fun e _ => recorded_data _ fun r _ => ?_
        obtain ⟨ok, i, v⟩ := r
        cases ok
        · exact recorded_lift _
        · exact recorded_then (syncNewInode_recorded (.inr rfl) ..) fun _ =>
            recorded_data _ fun _ _ => recorded_pure _

theorem deleteBlocks_recorded (inodeNo : ℕ) (allBlocks : ℕ → ℕ) (inode : Inode) (v : Volume part) :
    ∀ left blockIdx, Recorded (deleteBlocks 1024 inodeNo allBlocks inode v left blockIdx)
  | 0, _ => recorded_pure _
  | left + 1, blockIdx => by
    rw [deleteBlocks]
    split
    · exact deleteBlocks_recorded inodeNo allBlocks inode v left (blockIdx + 1)
    refine recorded_data _ fun entries _ => recorded_data _ fun s _ => ?_
    cases s.found with
    | none => exact deleteBlocks_recorded inodeNo allBlocks inode v left (blockIdx + 1)
    | some i =>
      exact recorded_data _ fun _ _ => recorded_data _ fun _ _ => recorded_data _ fun _ _ =>
        recorded_then (inodeSync_recorded (by decide) rfl _ _) fun _ => recorded_pure _

theorem deleteDirEntryIn_recorded (pdir : Option DirPtr) (inodeNo : ℕ) (s : Kernel part) :
    Recorded (deleteDirEntryIn 1024 pdir inodeNo s) :=
  recorded_data _ fun _ _ => recorded_data _ fun _ _ =>
    recorded_then (recorded_data _ fun _ _ => deleteBlocks_recorded ..) fun _ => recorded_pure _

theorem inodeReleaseNo_recorded (inodeNo : ℕ) (s : Kernel part) :
    Recorded (inodeReleaseNo inodeNo s) := by
  refine recorded_data _ fun r _ => recorded_data _ fun i _ =>
    recorded_then ?_ fun v => recorded_lift _
  exact recorded_data _ fun _ _ => recorded_data _ fun _ _ => recorded_data _ fun _ _ =>
    recorded_data _ fun _ _ => recorded_then (inodeDelete_recorded ..) fun _ => recorded_pure _

theorem unlinkFound_recorded (inodeNo : ℕ) (parentDir : Option DirPtr) (s : Kernel part) :
    Recorded (unlinkFound inodeNo parentDir s) := by
  rw [unlinkFound]
  rcases sysMalloc s with ⟨mallocIoBuf, s⟩
  dsimp only
  split
  · exact recorded_data _ fun _ _ => recorded_pure _
  · exact recorded_then (deleteDirEntryIn_recorded ..) fun _ =>
      recorded_then (inodeReleaseNo_recorded ..) fun _ =>
        recorded_data _ fun _ _ => recorded_pure _

theorem dirRemove_recorded (parentDir childDir : Option DirPtr) (s : Kernel part) :
    Recorded (dirRemove parentDir childDir s) := by
  refine recorded_data _ fun a _ => recorded_data _ fun i _ => recorded_data _ fun _ _ => ?_
  rcases sysMalloc s with ⟨mallocIoBuf, s⟩
  dsimp only
  split
  · exact recorded_pure _
  · exact recorded_then (deleteDirEntryIn_recorded ..) fun _ => recorded_data _ fun _ _ =>
      recorded_then (inodeReleaseNo_recorded ..) fun _ => recorded_pure _

end Recorded

/-! ### Buffers that are large enough -/

/-- The operations, `sys_unlink` and `sys_rmdir` from where they allocate the buffer for
`delete_dir_entry`. -/
inductive Call where
  | create (pdir : Option DirPtr) (filename : List Byte) (flag : ℕ)
  | write (fdIdx : ℕ) (buf : Bytes) (count : ℕ)
  | mkdir (junk : Junk) (pathname : List Byte)
  | unlink (inodeNo : ℕ) (parentDir : Option DirPtr)
  | remove (parentDir childDir : Option DirPtr)
  | release (inodeNo : ℕ)

def Call.exec : Call → Kernel part → Log (ℤ × Kernel part)
  | .create pdir filename flag, s => fileCreate pdir filename flag s
  | .write fdIdx buf count, s => fileWriteTo fdIdx buf count s
  | .mkdir junk pathname, s => sysMkdir junk pathname s
  | .unlink inodeNo parentDir, s => unlinkFound inodeNo parentDir s
  | .remove parentDir childDir, s => dirRemove parentDir childDir s
  | .release inodeNo, s => do
    let s ← inodeReleaseNo inodeNo s
    return (0, s)

/-- The calls of the file system, without the record. -/
def Call.execPlain : Call → Kernel part → Option (ℤ × Kernel part)
  | .create pdir filename flag, s => FsOpenFiles.fileCreate pdir filename flag s
  | .write fdIdx buf count, s => FsOpenFiles.fileWriteTo fdIdx buf count s
  | .mkdir junk pathname, s => FsSyscalls.sysMkdir junk pathname s
  | .unlink inodeNo parentDir, s => FsSyscalls.unlinkFound inodeNo parentDir s
  | .remove parentDir childDir, s => FsSyscalls.dirRemove parentDir childDir s
  | .release inodeNo, s => do
    let s ← FsOpenFiles.inodeReleaseNo inodeNo s
    return (0, s)

/-- Where every transfer fits the record changes nothing, and where one does not the model stops. -/
theorem exec_checked (c : Call) (s : Kernel part) : checked (c.exec s) = c.execPlain s := by
  cases c with
  | create pdir filename flag => exact fileCreate_checked ..
  | write fdIdx buf count => exact fileWriteTo_checked ..
  | mkdir junk pathname => exact sysMkdir_checked ..
  | unlink inodeNo parentDir => exact unlinkFound_checked ..
  | remove parentDir childDir => exact dirRemove_checked ..
  | release inodeNo => exact checked_bind (inodeReleaseNo_checked ..) fun _ => rfl

theorem exec_recorded (c : Call) (s : Kernel part) : Recorded (c.exec s) := by
  cases c with
  | create pdir filename flag => exact fileCreate_recorded ..
  | write fdIdx buf count => exact fileWriteTo_recorded ..
  | mkdir junk pathname => exact sysMkdir_recorded ..
  | unlink inodeNo parentDir => exact unlinkFound_recorded ..
  | remove parentDir childDir => exact dirRemove_recorded ..
  | release inodeNo => exact recorded_then (inodeReleaseNo_recorded ..) fun _ => recorded_pure _

/-- In no state does the operation read more of the record of inode `n` than its buffer has room
for. -/
def TransfersFit (part : Partition) (op : Operation) (n : ℕ) : Prop :=
  ∀ (c : Call) (s : Kernel part) (r : ℤ × Kernel part) (moves : List Move),
    (c.exec s).run = some (r, moves) → ∀ m ∈ moves, m.op = op → m.iNo = n → m.bytes ≤ m.bufSize

theorem run_data {α β : Type} {x : Option α} {a : α} (h : x = some a) (f : α → Log β) :
    ((liftM x : Log α) >>= f).run = (f a).run := by
  subst h
  rcases hfa : (f a).run with - | ⟨b, l⟩
  · simp [hfa]
  · simp [hfa]

/-- The transfer that `inode_sync` makes. -/
theorem inodeSync_run (part : Partition) (op : Operation) (ioBuf : ℕ) (disk : Bytes)
    (inode : Inode) : ∃ disk', (inodeSync part op ioBuf disk inode).run = some (disk',
      [⟨op, inode.iNo, 512 * if Straddles (inode.iNo % 256) then 2 else 1, ioBuf⟩]) := by
  refine ⟨patch disk (slotAddr part (inode.iNo % 256)) 76 inode.pure.toBytes, ?_⟩
  rw [inodeSync, run_data (inodeLocate_eq part (by omega)), inodeSync_eq]
  simp only [moved, decide_eq_true_eq]
  rfl

/-- The empty file whose only block is `lba`. -/
def emptyFile (n lba : ℕ) : Inode := ⟨n, 0, 1, true, fun j => if j = 0 then lba else 0⟩

theorem emptyFile_size (n lba : ℕ) : (emptyFile n lba).iSize = 0 := rfl

theorem writeLoop_one (n : ℕ) {lba : ℕ} (hl : lba ≤ maxLba) (buf disk : Bytes) :
    ∃ disk', writeLoop (lastBlock (emptyFile n lba) 1) buf 1 1 true 0 (2 ^ 32 - 1)
      (emptyFile n lba) disk = some (1, 0, { emptyFile n lba with iSize := 1 }, disk') := by
  have hlba : lastBlock (emptyFile n lba) 1 0 = lba := rfl
  have hread : roundBuf true disk lba = some (patch zeroes 0 512 (window disk (512 * lba))) :=
    ideRead_eq Nat.one_pos (Nat.succ_le_succ hl)
  have hwrite : ∀ b, ideWrite disk lba b 1 = some (patch disk (512 * lba) 512 b) := fun b =>
    ideWrite_eq Nat.one_pos (Nat.succ_le_succ hl)
  refine ⟨patch disk (512 * lba) 512 (patch (patch zeroes 0 512 (window disk (512 * lba))) 0 1
    (window buf 0)), ?_⟩
  have hsec : assert (0 < 140) = some () := rfl
  rw [writeLoop, if_pos Nat.one_pos]
  simp only [emptyFile_size, Nat.zero_div, Nat.zero_mod, hsec, hlba, hread, Option.bind_eq_bind,
    Option.bind_some, hwrite, writeLoop]
  rfl

theorem write_one_run (v : Volume part) (n : ℕ) {lba : ℕ} (h0 : lba ≠ 0) (hl : lba ≤ maxLba)
    (buf : Bytes) : ∃ res, (fileWrite true true 0 (emptyFile n lba) v buf 1).run = some
      (res, [⟨.fileWrite, n, 512 * if Straddles (n % 256) then 2 else 1, 512⟩]) := by
  have hfirst : writeFirstBlock (emptyFile n lba) v = some (true, emptyFile n lba, v) := if_neg h0
  have hlast : (0 + 1) % 2 ^ 32 / 512 + 1 ≤ 140 := by decide
  have hblocks : writeBlocks (0 / 512 + 1) ((0 + 1) % 2 ^ 32 / 512 + 1) (emptyFile n lba) v =
      some (true, lastBlock (emptyFile n lba) 1, emptyFile n lba, v) := by
    rw [show 0 / 512 + 1 = 1 from rfl, show (0 + 1) % 2 ^ 32 / 512 + 1 = 1 by decide]
    rfl
  obtain ⟨disk, hloop⟩ := writeLoop_one n hl buf v.disk
  obtain ⟨disk', hsync⟩ := inodeSync_run part .fileWrite 512 disk
    { emptyFile n lba with iSize := 1 }
  refine ⟨⟨1, 0, { emptyFile n lba with iSize := 1 }, v.withDisk disk'⟩, ?_⟩
  rw [fileWrite, if_neg (by rw [emptyFile_size]; decide), if_neg (by decide), if_neg (by decide),
    run_data hfirst]
  simp only [emptyFile_size]
  rw [if_neg (by decide)]
  refine (run_data (assert_pos hlast) _).trans ?_
  rw [run_data hblocks]
  simp only [emptyFile_size]
  rw [if_neg (by decide), show (0 + 2 ^ 32 - 1) % 2 ^ 32 = 2 ^ 32 - 1 by decide, run_data hloop]
  simp only [WriterT.run_bind, hsync]
  rfl

/-- A file of one block and no byte, open for writing. -/
def emptyFileKernel (v : Volume part) (n lba : ℕ) : Kernel part :=
  { mounted v fun _ => true with
    inodes := fun _ => some (emptyFile n lba)
    openInodes := [0]
    fileTable := fun _ => ⟨0, 2, some 0⟩
    next := 1 }

theorem write_one_moves (v : Volume part) (n lba : ℕ) (h0 : lba ≠ 0) (hl : lba ≤ maxLba)
    (buf : Bytes) : ∃ r, ((Call.write 3 buf 1).exec (emptyFileKernel v n lba)).run = some
      (r, [⟨.fileWrite, n, 512 * if Straddles (n % 256) then 2 else 1, 512⟩]) := by
  obtain ⟨res, hres⟩ := write_one_run v n h0 hl buf
  have hfile : ((emptyFileKernel v n lba).fileTable 3).fdInode = some 0 := rfl
  have hinode : (emptyFileKernel v n lba).inodes 0 = some (emptyFile n lba) := rfl
  let t := (sysMalloc (sysMalloc (emptyFileKernel v n lba)).2).2
  refine ⟨(res.ret, ((t.setInode 0 res.inode).withVol res.vol).setFile 3
    { t.fileTable 3 with fdPos := res.fdPos }), ?_⟩
  have hres' : (fileWrite (sysMalloc (emptyFileKernel v n lba)).1
      (sysMalloc (sysMalloc (emptyFileKernel v n lba)).2).1 (t.fileTable 3).fdPos (emptyFile n lba)
      t.vol buf 1).run = some (res, _) := hres
  rw [Call.exec, fileWriteTo, run_data hfile, run_data hinode]
  simp only [WriterT.run_bind]
  rw [hres']
  rfl

/-- The record fits the buffer in every operation but `file_write`, whose buffer has one sector. -/
theorem transfers_fit_iff (part : Partition) (op : Operation) (n : ℕ) :
    TransfersFit part op n ↔ op ≠ .fileWrite ∨ ¬Straddles (n % 256) := by
  constructor
  · intro h
    by_contra hnot
    obtain ⟨rfl, hstr⟩ : op = .fileWrite ∧ Straddles (n % 256) := by
      simpa only [ne_eq, not_or, not_not] using hnot
    let v : Volume part := ⟨zeroes, ⟨_, fun _ => 0⟩, ⟨_, fun _ => 0⟩, rfl, rfl⟩
    obtain ⟨r, hr⟩ := write_one_moves v n 1 (by decide) (by decide) zeroes
    have hfit := h _ _ r _ hr _ (List.mem_singleton_self _) rfl rfl
    rw [if_pos hstr] at hfit
    have hle : 512 * 2 ≤ 512 := hfit
    omega
  · rintro hop c s r moves hrun m hm rfl rfl
    obtain ⟨hbytes, hsize⟩ := (exec_recorded c s).all r moves hrun m hm
    rw [hbytes, hsize, ioBufSize]
    rcases hop with hop | hstr
    · rw [if_neg hop]
      split
      · exact le_rfl
      · decide
    · by_cases hrel : m.op = .inodeRelease
      · rw [hrel]
        split
        · decide
        · decide
      · rw [recordNo, if_neg hrel, if_neg hstr]
        split
        · exact le_rfl
        · decide

/-- The record of inode 6 ends in the second sector of the table: a write to it moves 1024 bytes into
a buffer of 512. -/
theorem sixth_record_overflows : ¬TransfersFit smallPartition .fileWrite 6 := by
  intro h
  let v : Volume smallPartition := ⟨zeroes, ⟨_, fun _ => 0⟩, ⟨_, fun _ => 0⟩, rfl, rfl⟩
  obtain ⟨r, hr⟩ := write_one_moves v 6 (smallPartition.sb.dataStartLba + 1) (by decide)
    (by decide) fun _ => 0x41
  have hfit := h _ _ r _ hr _ (List.mem_singleton_self _) rfl rfl
  exact absurd hfit (by decide)

end FsBufferSizes
