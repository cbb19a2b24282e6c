import XianweiOS.DeviceIde
import XianweiOS.KernelBitmap

/-! The mounted partition: the areas its super block describes, the two bitmaps kept in
memory, and the allocation and write-back of their bits (`fs/file.c`, `fs/super_block.h`).
A `Partition` carries the layout that formatting gives it, a `Volume` the sizes of its
bitmaps. Sector numbers are far below `2 ^ 32`, so sums of them do not wrap; a difference
may, and is taken modulo `2 ^ 32`. -/
namespace FsVolume

open ByteStore HaltingProgram KernelBitmap DeviceIde

structure SuperBlock where
  magic : ℕ
  secCnt : ℕ
  inodeCnt : ℕ
  partLbaBase : ℕ
  blockBitmapLba : ℕ
  blockBitmapSects : ℕ
  inodeBitmapLba : ℕ
  inodeBitmapSects : ℕ
  inodeTableLba : ℕ
  inodeTableSects : ℕ
  dataStartLba : ℕ
  rootInodeNo : ℕ
  dirEntrySize : ℕ
  deriving DecidableEq, Repr

/-- The consecutive areas of a partition that lies on the disk: boot sector and super
block, block bitmap, inode bitmap (one sector), inode table (608 sectors), data. -/
structure Layout (startLba secCnt : ℕ) (sb : SuperBlock) : Prop where
  start_pos : 0 < startLba
  block_bitmap_at : sb.blockBitmapLba = startLba + 2
  inode_bitmap_at : sb.inodeBitmapLba = sb.blockBitmapLba + sb.blockBitmapSects
  inode_bitmap_sects : sb.inodeBitmapSects = 1
  inode_table_at : sb.inodeTableLba = sb.inodeBitmapLba + sb.inodeBitmapSects
  inode_table_sects : sb.inodeTableSects = 608
  data_at : sb.dataStartLba = sb.inodeTableLba + sb.inodeTableSects
  data_inside : sb.dataStartLba < startLba + secCnt
  on_disk : startLba + secCnt ≤ maxLba + 1
  root_no : sb.rootInodeNo = 0
  entry_size : sb.dirEntrySize = 24

structure Partition where
  startLba : ℕ
  secCnt : ℕ
  sb : SuperBlock
  layout : Layout startLba secCnt sb

/-- The layout as linear facts about sector numbers. -/
theorem Partition.bounds (part : Partition) :
    0 < part.startLba ∧ part.sb.blockBitmapLba = part.startLba + 2 ∧
    part.sb.inodeBitmapLba = part.sb.blockBitmapLba + part.sb.blockBitmapSects ∧
    part.sb.inodeTableLba = part.sb.inodeBitmapLba + 1 ∧
    part.sb.dataStartLba = part.sb.inodeTableLba + 608 ∧
    part.sb.dataStartLba < part.startLba + part.secCnt ∧
    part.startLba + part.secCnt ≤ 163840 := by
  have h := part.layout
  have h1 := h.inode_bitmap_sects
  have h2 := h.inode_table_sects
  have h3 := h.on_disk
  simp only [maxLba] at h3
  exact ⟨h.start_pos, h.block_bitmap_at, h.inode_bitmap_at, h1 ▸ h.inode_table_at,
    h2 ▸ h.data_at, h.data_inside, by omega⟩

structure Volume (part : Partition) where
  disk : Bytes
  blockBitmap : Bitmap
  inodeBitmap : Bitmap
  block_len : blockBitmap.btmpBytesLen = 512 * part.sb.blockBitmapSects
  inode_len : inodeBitmap.btmpBytesLen = 512

variable {part : Partition}

def Volume.withDisk (v : Volume part) (disk : Bytes) : Volume part := { v with disk := disk }

def Volume.setBlockBit (v : Volume part) (i : ℕ) (value : Bool) : Volume part :=
  { v with blockBitmap := bitmapSet v.blockBitmap i value, block_len := v.block_len }

def Volume.setInodeBit (v : Volume part) (i : ℕ) (value : Bool) : Volume part :=
  { v with inodeBitmap := bitmapSet v.inodeBitmap i value, inode_len := v.inode_len }

@[simp] theorem withDisk_disk (v : Volume part) (d : Bytes) : (v.withDisk d).disk = d := rfl
@[simp] theorem withDisk_block (v : Volume part) (d : Bytes) :
    (v.withDisk d).blockBitmap = v.blockBitmap := rfl
@[simp] theorem withDisk_inode (v : Volume part) (d : Bytes) :
    (v.withDisk d).inodeBitmap = v.inodeBitmap := rfl
@[simp] theorem setBlockBit_disk (v : Volume part) (i : ℕ) (b : Bool) :
    (v.setBlockBit i b).disk = v.disk := rfl
@[simp] theorem setBlockBit_block (v : Volume part) (i : ℕ) (b : Bool) :
    (v.setBlockBit i b).blockBitmap = bitmapSet v.blockBitmap i b := rfl
@[simp] theorem setBlockBit_inode (v : Volume part) (i : ℕ) (b : Bool) :
    (v.setBlockBit i b).inodeBitmap = v.inodeBitmap := rfl
@[simp] theorem setInodeBit_disk (v : Volume part) (i : ℕ) (b : Bool) :
    (v.setInodeBit i b).disk = v.disk := rfl
@[simp] theorem setInodeBit_block (v : Volume part) (i : ℕ) (b : Bool) :
    (v.setInodeBit i b).blockBitmap = v.blockBitmap := rfl
@[simp] theorem setInodeBit_inode (v : Volume part) (i : ℕ) (b : Bool) :
    (v.setInodeBit i b).inodeBitmap = bitmapSet v.inodeBitmap i b := rfl

/-- Bit `i` of the block bitmap kept in memory. -/
def Volume.blockBit (v : Volume part) (i : ℕ) : Bool := bitmapScanTest v.blockBitmap i

def Volume.inodeBit (v : Volume part) (i : ℕ) : Bool := bitmapScanTest v.inodeBitmap i

@[simp] theorem blockBit_withDisk (v : Volume part) (d : Bytes) (i : ℕ) :
    (v.withDisk d).blockBit i = v.blockBit i := rfl
@[simp] theorem inodeBit_withDisk (v : Volume part) (d : Bytes) (i : ℕ) :
    (v.withDisk d).inodeBit i = v.inodeBit i := rfl
@[simp] theorem blockBit_setInodeBit (v : Volume part) (i j : ℕ) (b : Bool) :
    (v.setInodeBit i b).blockBit j = v.blockBit j := rfl
@[simp] theorem inodeBit_setBlockBit (v : Volume part) (i j : ℕ) (b : Bool) :
    (v.setBlockBit i b).inodeBit j = v.inodeBit j := rfl
@[simp] theorem blockBit_setBlockBit (v : Volume part) (i j : ℕ) (b : Bool) :
    (v.setBlockBit i b).blockBit j = if j = i then b else v.blockBit j :=
  bitmapScanTest_set _ _ _ _
@[simp] theorem inodeBit_setInodeBit (v : Volume part) (i j : ℕ) (b : Bool) :
    (v.setInodeBit i b).inodeBit j = if j = i then b else v.inodeBit j :=
  bitmapScanTest_set _ _ _ _

/-- `lba - data_start_lba` in `uint32_t`. -/
def blockBitmapIdx (part : Partition) (lba : ℕ) : ℕ :=
  (lba + 2 ^ 32 - part.sb.dataStartLba) % 2 ^ 32

theorem blockBitmapIdx_add (part : Partition) {i : ℕ} (h : part.sb.dataStartLba + i < 2 ^ 32) :
    blockBitmapIdx part (part.sb.dataStartLba + i) = i := by
  unfold blockBitmapIdx
  omega

def inodeBitmapAlloc (v : Volume part) : Option (Option ℕ × Volume part) := do
  let bitIdx ← bitmapScan v.inodeBitmap 1
  match bitIdx with
  | none => return (none, v)
  | some bitIdx => return (some bitIdx, v.setInodeBit bitIdx true)

/-- The result is the sector number of the block, not its bit. -/
def blockBitmapAlloc (v : Volume part) : Option (Option ℕ × Volume part) := do
  let bitIdx ← bitmapScan v.blockBitmap 1
  match bitIdx with
  | none => return (none, v)
  | some bitIdx => return (some (part.sb.dataStartLba + bitIdx), v.setBlockBit bitIdx true)

inductive BitmapType where
  | inodeBitmap
  | blockBitmap
  deriving DecidableEq, Repr

def bitmapSync (v : Volume part) (bitIdx : ℕ) (btmp : BitmapType) : Option (Volume part) := do
  let offSec := bitIdx / 4096
  let (secLba, bitmapOff) := match btmp with
    | .inodeBitmap => (part.sb.inodeBitmapLba + offSec, window v.inodeBitmap.bits (offSec * 512))
    | .blockBitmap => (part.sb.blockBitmapLba + offSec, window v.blockBitmap.bits (offSec * 512))
  let disk ← ideWrite v.disk secLba bitmapOff 1
  return v.withDisk disk

/-- The lowest clear bit: the one the next one-bit scan takes. -/
def LowestClear (btmp : Bitmap) (i : ℕ) : Prop :=
  i < 8 * btmp.btmpBytesLen ∧ bitmapScanTest btmp i = false ∧
    ∀ j < i, bitmapScanTest btmp j = true

theorem blockBitmapAlloc_some {v v' : Volume part} {r : Option ℕ}
    (h : blockBitmapAlloc v = some (r, v')) :
    ∃ i, r = some (part.sb.dataStartLba + i) ∧ v' = v.setBlockBit i true ∧
      LowestClear v.blockBitmap i := by
  simp only [blockBitmapAlloc, bind_some_iff] at h
  obtain ⟨r', hr, h⟩ := h
  obtain ⟨i, rfl, hi⟩ := bitmapScan_one hr
  simp only [Option.pure_def, Option.some.injEq, Prod.mk.injEq] at h
  exact ⟨i, h.1.symm, h.2.symm, hi⟩

theorem inodeBitmapAlloc_some {v v' : Volume part} {r : Option ℕ}
    (h : inodeBitmapAlloc v = some (r, v')) :
    ∃ i, r = some i ∧ v' = v.setInodeBit i true ∧ LowestClear v.inodeBitmap i := by
  simp only [inodeBitmapAlloc, bind_some_iff] at h
  obtain ⟨r', hr, h⟩ := h
  obtain ⟨i, rfl, hi⟩ := bitmapScan_one hr
  simp only [Option.pure_def, Option.some.injEq, Prod.mk.injEq] at h
  exact ⟨i, h.1.symm, h.2.symm, hi⟩

/-- The rollback of an inode number: its bit was clear. -/
theorem setInodeBit_back {v : Volume part} {i : ℕ} (h : v.inodeBit i = false) :
    (v.setInodeBit i true).setInodeBit i false = v := by
  have hb : bitmapSet (bitmapSet v.inodeBitmap i true) i false = v.inodeBitmap := by
    apply bitmap_ext (by simp)
    intro j
    rw [bitmapScanTest_set, bitmapScanTest_set]
    split
    · subst j
      exact h.symm
    · rfl
  obtain ⟨disk, blocks, inodes, hb', hi'⟩ := v
  simp only [Volume.setInodeBit, Volume.mk.injEq]
  exact ⟨trivial, trivial, hb⟩

/-- Allocation succeeds while a bit is clear. -/
theorem inodeBitmapAlloc_exists {v : Volume part} {i : ℕ} (hi : i < 4096)
    (hc : v.inodeBit i = false) : ∃ k ≤ i, inodeBitmapAlloc v = some (some k, v.setInodeBit k true) ∧
      v.inodeBit k = false := by
  have hlen : i < 8 * v.inodeBitmap.btmpBytesLen := by
    rw [v.inode_len]
    omega
  obtain ⟨r, hr⟩ := bitmapScan_one_exists hlen hc
  obtain ⟨k, rfl, -, hclear, hlow⟩ := bitmapScan_one hr
  refine ⟨k, ?_, by simp only [inodeBitmapAlloc, hr]; rfl, hclear⟩
  by_contra hlt
  exact Bool.false_ne_true (hc.symm.trans (hlow i (by omega)))

theorem blockBitmapAlloc_exists {v : Volume part} {i : ℕ}
    (hi : i < 8 * v.blockBitmap.btmpBytesLen) (hc : v.blockBit i = false) :
    ∃ k, blockBitmapAlloc v = some (some (part.sb.dataStartLba + k), v.setBlockBit k true) ∧
      LowestClear v.blockBitmap k := by
  obtain ⟨r, hr⟩ := bitmapScan_one_exists hi hc
  obtain ⟨k, rfl, hk⟩ := bitmapScan_one hr
  exact ⟨k, by simp only [blockBitmapAlloc, hr]; rfl, hk⟩

theorem bitmapSync_block_some {v v' : Volume part} {i : ℕ}
    (h : bitmapSync v i .blockBitmap = some v') :
    v' = v.withDisk (patch v.disk (512 * (part.sb.blockBitmapLba + i / 4096)) 512
      (window v.blockBitmap.bits (i / 4096 * 512))) := by
  simp only [bitmapSync, bind_some_iff, Option.pure_def, Option.some.injEq] at h
  obtain ⟨d, hd, rfl⟩ := h
  rw [(ideWrite_some hd).1]

theorem bitmapSync_inode_some {v v' : Volume part} {i : ℕ}
    (h : bitmapSync v i .inodeBitmap = some v') :
    v' = v.withDisk (patch v.disk (512 * (part.sb.inodeBitmapLba + i / 4096)) 512
      (window v.inodeBitmap.bits (i / 4096 * 512))) := by
  simp only [bitmapSync, bind_some_iff, Option.pure_def, Option.some.injEq] at h
  obtain ⟨d, hd, rfl⟩ := h
  rw [(ideWrite_some hd).1]

/-- A bit of the block bitmap lies in a sector of the block bitmap area. -/
theorem bitmapSync_block_eq {v : Volume part} {i : ℕ} (hi : i < 8 * v.blockBitmap.btmpBytesLen) :
    bitmapSync v i .blockBitmap =
      some (v.withDisk (patch v.disk (512 * (part.sb.blockBitmapLba + i / 4096)) 512
        (window v.blockBitmap.bits (i / 4096 * 512)))) := by
  have hb := part.bounds
  rw [v.block_len] at hi
  simp only [bitmapSync, ideWrite_eq (show 0 < 1 by omega)
    (show part.sb.blockBitmapLba + i / 4096 + 1 ≤ maxLba + 1 by simp only [maxLba]; omega)]
  rfl

theorem bitmapSync_inode_eq (v : Volume part) {i : ℕ} (hi : i < 4096) :
    bitmapSync v i .inodeBitmap =
      some (v.withDisk (patch v.disk (512 * (part.sb.inodeBitmapLba + i / 4096)) 512
        (window v.inodeBitmap.bits (i / 4096 * 512)))) := by
  have hb := part.bounds
  simp only [bitmapSync, ideWrite_eq (show 0 < 1 by omega)
    (show part.sb.inodeBitmapLba + i / 4096 + 1 ≤ maxLba + 1 by simp only [maxLba]; omega)]
  rfl

def blockBitmapArea (part : Partition) : Set ℕ :=
  span (512 * part.sb.blockBitmapLba) (512 * part.sb.blockBitmapSects)

def inodeBitmapArea (part : Partition) : Set ℕ := span (512 * part.sb.inodeBitmapLba) 512

/-- The block bitmap on the disk is the one in memory, bit for bit. -/
def BlockSynced (v : Volume part) : Prop :=
  ∀ k < 512 * part.sb.blockBitmapSects,
    v.disk (512 * part.sb.blockBitmapLba + k) = v.blockBitmap.bits k

def InodeSynced (v : Volume part) : Prop :=
  ∀ k < 512, v.disk (512 * part.sb.inodeBitmapLba + k) = v.inodeBitmap.bits k

/-- A partition of 1000 sectors behind the boot sector of its disk. -/
def smallPartition : Partition where
  startLba := 1
  secCnt := 1000
  sb := ⟨0x20060127, 1000, 4096, 1, 3, 1, 4, 1, 5, 608, 613, 0, 24⟩
  layout := by constructor <;> decide

/-- A volume with nothing allocated over the given disk. -/
def blankVolume (part : Partition) (disk : Bytes) : Volume part where
  disk := disk
  blockBitmap := ⟨512 * part.sb.blockBitmapSects, zeroes⟩
  inodeBitmap := ⟨512, zeroes⟩
  block_len := rfl
  inode_len := rfl

theorem blankVolume_blockBit (part : Partition) (disk : Bytes) (i : ℕ) :
    (blankVolume part disk).blockBit i = false := by
  simp [Volume.blockBit, blankVolume, bitmapScanTest, zeroes]

theorem blankVolume_inodeBit (part : Partition) (disk : Bytes) (i : ℕ) :
    (blankVolume part disk).inodeBit i = false := by
  simp [Volume.inodeBit, blankVolume, bitmapScanTest, zeroes]

end FsVolume
