import XianweiOS.FsDirectory

/-! A new file system: `partition_format` and `mount_partition` of `fs/fs.c`. The loop that
sizes the block bitmap need not end, and runs on fuel. What a `sys_malloc` returns is there
and cleared. The rest of the super block's sector and a length never assigned are arguments. -/
namespace FsFormat

open ByteStore HaltingProgram KernelBitmap DeviceIde FsVolume FsInodeTable FsDirectory

def maxFilesPerPart : ℕ := 4096
def bitPerSector : ℕ := 4096

def divRoundUp (x step : ℕ) : ℕ := (x + step - 1) % 2 ^ 32 / step

def sub32 (a b : ℕ) : ℕ := (a + 2 ^ 32 - b) % 2 ^ 32

/-- Sectors of the block bitmap and the number of its bits in use. -/
def sizeLoop (nowTotalFreeSects : ℕ) :
    (fuel prevBlockBitmapSects blockBitmapSects blockBitmapBitLen : ℕ) → Option (ℕ × ℕ)
  | 0, _, _, _ => none
  | fuel + 1, prev, sects, bitLen =>
    if sects ≠ prev then
      sizeLoop nowTotalFreeSects fuel sects
        (divRoundUp (sub32 nowTotalFreeSects sects) bitPerSector) (sub32 nowTotalFreeSects sects)
    else some (sects, bitLen)

def inodeBitmapSects : ℕ := divRoundUp maxFilesPerPart bitPerSector
def inodeTableSects : ℕ := divRoundUp (inodeSize * maxFilesPerPart) sectorSize

def superBlock (startLba secCnt blockBitmapSects : ℕ) : SuperBlock where
  magic := 0x20060127
  secCnt := secCnt
  inodeCnt := maxFilesPerPart
  partLbaBase := startLba
  blockBitmapLba := startLba + 2
  blockBitmapSects := blockBitmapSects
  inodeBitmapLba := startLba + 2 + blockBitmapSects
  inodeBitmapSects := inodeBitmapSects
  inodeTableLba := startLba + 2 + blockBitmapSects + inodeBitmapSects
  inodeTableSects := inodeTableSects
  dataStartLba := startLba + 2 + blockBitmapSects + inodeBitmapSects + inodeTableSects
  rootInodeNo := 0
  dirEntrySize := FsDirectory.dirEntrySize

def SuperBlock.toBytes (sb : SuperBlock) : Bytes := ofWords fun k =>
  [sb.magic, sb.secCnt, sb.inodeCnt, sb.partLbaBase, sb.blockBitmapLba, sb.blockBitmapSects,
    sb.inodeBitmapLba, sb.inodeBitmapSects, sb.inodeTableLba, sb.inodeTableSects,
    sb.dataStartLba, sb.rootInodeNo, sb.dirEntrySize].getD k 0

def SuperBlock.ofBytes (m : Bytes) : SuperBlock :=
  ⟨word m 0, word m 4, word m 8, word m 12, word m 16, word m 20, word m 24, word m 28, word m 32,
    word m 36, word m 40, word m 44, word m 48⟩

/-- `buf[byte] &= ~(1 << bit_idx++)`, `left` times. -/
def clearBits (byte : ℕ) : (left bitIdx : ℕ) → Bytes → Bytes
  | 0, _, buf => buf
  | left + 1, bitIdx, buf => clearBits byte left (bitIdx + 1)
      (Function.update buf byte (buf byte &&& ~~~(1#8 <<< bitIdx)))

/-- The block bitmap of a new file system: block 0 is taken, and so is what lies behind the
last block. -/
def newBlockBitmap (blockBitmapBitLen : ℕ) : Bytes :=
  let lastByte := blockBitmapBitLen / 8
  let buf := Function.update zeroes 0 (zeroes 0 ||| 1#8)
  let buf := patch buf lastByte (sectorSize - lastByte % sectorSize) fun _ => 0xff
  clearBits lastByte (blockBitmapBitLen % 8) 0 buf

def newRootInode (dataStartLba : ℕ) : Inode :=
  ⟨0, FsDirectory.dirEntrySize * 2, 0, false, fun k => if k = 0 then dataStartLba else 0⟩

def partitionFormat (fuel : ℕ) (sbPad : Bytes) (bitLen startLba secCnt : ℕ) (disk : Bytes) :
    Option (SuperBlock × Bytes) := do
  let freeSects := sub32 secCnt (1 + 1 + inodeBitmapSects + inodeTableSects)
  let (sects, bitLen) ← sizeLoop freeSects fuel 0 (divRoundUp freeSects bitPerSector) bitLen
  let sb := superBlock startLba secCnt sects
  let disk ← ideWrite disk (startLba + 1) (patch sbPad 0 52 (SuperBlock.toBytes sb)) 1
  let disk ← ideWrite disk sb.blockBitmapLba (newBlockBitmap bitLen) sb.blockBitmapSects
  let disk ← ideWrite disk sb.inodeBitmapLba (Function.update zeroes 0 1#8) sb.inodeBitmapSects
  let disk ← ideWrite disk sb.inodeTableLba
    (patch zeroes 0 inodeSize (newRootInode sb.dataStartLba).toBytes) sb.inodeTableSects
  let disk ← ideWrite disk sb.dataStartLba (newDirBlock 0 0) 1
  return (sb, disk)

/-- A `Partition` comes with its super block, which has to be the one on the disk. -/
def mountPartition (part : Partition) (disk : Bytes) : Option (Volume part) := do
  let sbBuf ← ideRead disk (part.startLba + 1) zeroes 1
  assert (SuperBlock.ofBytes sbBuf = part.sb)
  let blockBits ← ideRead disk part.sb.blockBitmapLba zeroes part.sb.blockBitmapSects
  let inodeBits ← ideRead disk part.sb.inodeBitmapLba zeroes part.sb.inodeBitmapSects
  return {
    disk := disk
    blockBitmap := ⟨512 * part.sb.blockBitmapSects, blockBits⟩
    inodeBitmap := ⟨512 * part.sb.inodeBitmapSects, inodeBits⟩
    block_len := rfl
    inode_len := by rw [part.layout.inode_bitmap_sects] }

theorem divRoundUp_eq {x : ℕ} (h : x < 2 ^ 31) :
    divRoundUp x bitPerSector = (x + 4095) / 4096 := by
  simp only [divRoundUp, bitPerSector]
  omega

theorem sub32_eq {a b : ℕ} (h : b ≤ a) (ha : a < 2 ^ 32) : sub32 a b = a - b := by
  simp only [sub32]
  omega

/-- When the loop ends, sectors and bits belong together. -/
theorem sizeLoop_some {total : ℕ} : ∀ {fuel prev sects len s l : ℕ},
    sizeLoop total fuel prev sects len = some (s, l) →
    (sects = prev → sects = divRoundUp len bitPerSector ∧ len = sub32 total sects) →
    s = divRoundUp l bitPerSector ∧ l = sub32 total s := by
  intro fuel
  induction fuel with
  | zero =>
    intro prev sects len s l h
    cases h
  | succ fuel ih =>
    intro prev sects len s l h hinv
    rw [sizeLoop] at h
    split at h
    · exact ih h fun he => ⟨rfl, by rw [he]⟩
    · rename_i he
      obtain ⟨rfl, rfl⟩ := Prod.mk.inj (Option.some.inj h)
      exact hinv (not_not.mp he)

theorem clearBits_bit (byte : ℕ) : ∀ (left idx : ℕ) (buf : Bytes) (k j : ℕ), j < 8 →
    (clearBits byte left idx buf k).getLsbD j =
      ((buf k).getLsbD j && !decide (k = byte ∧ idx ≤ j ∧ j < idx + left)) := by
  intro left
  induction left with
  | zero =>
    intro idx buf k j _
    simp only [clearBits, Nat.add_zero]
    rw [decide_eq_false (by omega), Bool.not_false, Bool.and_true]
  | succ left ih =>
    intro idx buf k j hj
    rw [clearBits, ih _ _ _ _ hj]
    by_cases hk : k = byte
    · subst k
      have hmask : (1#8 <<< idx).getLsbD j = decide (j = idx) := by
        rw [BitVec.getLsbD_shiftLeft, BitVec.getLsbD_one]
        by_cases hji : j = idx
        · subst j
          simp [hj]
        · simp only [hji, decide_false]
          by_cases hlt : j < idx
          · simp [hlt]
          · have : ¬(j - idx = 0) := by omega
            simp [this]
      rw [Function.update_self, BitVec.getLsbD_and, BitVec.getLsbD_not, hmask]
      simp only [hj, decide_true, Bool.true_and, true_and]
      by_cases h1 : j = idx
      · simp [h1]
      · have hrange : decide (idx + 1 ≤ j ∧ j < idx + 1 + left) =
            decide (idx ≤ j ∧ j < idx + (left + 1)) := decide_eq_decide.mpr (by omega)
        rw [hrange, decide_eq_false h1, Bool.not_false, Bool.and_true]
    · rw [Function.update_of_ne hk]
      simp [hk]

/-- Bit 0 is set unless the last byte is the first one. -/
theorem newBlockBitmap_bit {len i : ℕ} (hi : i < 4096 * ((len + 4095) / 4096)) :
    (newBlockBitmap len (i / 8)).getLsbD (i % 8) = decide (i = 0 ∧ 8 ≤ len ∨ len ≤ i) := by
  have hj : i % 8 < 8 := Nat.mod_lt _ (by omega)
  simp only [newBlockBitmap]
  rw [clearBits_bit _ _ _ _ _ _ hj]
  by_cases hk : len / 8 ≤ i / 8
  · rw [patch_in (by simp only [sectorSize]; omega)]
    have hff : (0xff : Byte).getLsbD (i % 8) = true := by
      generalize i % 8 = j at hj
      interval_cases j <;> rfl
    rw [hff, Bool.true_and, ← decide_not]
    apply decide_eq_decide.mpr
    omega
  · rw [patch_out (by omega), decide_eq_false (by omega), Bool.not_false, Bool.and_true]
    by_cases h0 : i / 8 = 0
    · rw [h0, Function.update_self]
      have hone : (zeroes 0 ||| 1#8).getLsbD (i % 8) = decide (i % 8 = 0) := by
        generalize i % 8 = j at hj
        interval_cases j <;> rfl
      rw [hone]
      apply decide_eq_decide.mpr
      omega
    · rw [Function.update_of_ne h0]
      have hz : (zeroes (i / 8)).getLsbD (i % 8) = false := by simp [zeroes]
      rw [hz]
      symm
      exact decide_eq_false (by omega)

/-- The data blocks of a partition. -/
def dataBlocks (part : Partition) : ℕ := part.startLba + part.secCnt - part.sb.dataStartLba

/-- The volume of a new file system. -/
structure Formatted {part : Partition} (v : Volume part) : Prop where
  covered : dataBlocks part ≤ 4096 * part.sb.blockBitmapSects
  blockBit : ∀ i < 4096 * part.sb.blockBitmapSects,
    v.blockBit i = decide (i = 0 ∧ 8 ≤ dataBlocks part ∨ dataBlocks part ≤ i)
  inodeBit : ∀ i < 4096, v.inodeBit i = decide (i = 0)
  blockSynced : BlockSynced v
  inodeSynced : InodeSynced v
  root : (diskInode part v.disk 0).Same (newRootInode part.sb.dataStartLba)
  rootBlock : ∀ k < 512, v.disk (512 * part.sb.dataStartLba + k) = newDirBlock 0 0 k

theorem mount_formatted {part : Partition} {fuel len : ℕ} {pad disk disk' : Bytes}
    {v : Volume part}
    (hf : partitionFormat fuel pad len part.startLba part.secCnt disk = some (part.sb, disk'))
    (hm : mountPartition part disk' = some v) : Formatted v := by
  have hb := part.bounds
  simp only [partitionFormat, bind_some_iff, Option.pure_def, Option.some.injEq,
    Prod.mk.injEq] at hf
  obtain ⟨⟨sects, bits⟩, hsize, d1, h1, d2, h2, d3, h3, d4, h4, d5, h5, hsb, rfl⟩ := hf
  simp only [hsb] at h2 h3 h4 h5
  have hsects : part.sb.blockBitmapSects = sects := by rw [← hsb]; rfl
  have h608 : inodeTableSects = 608 := rfl
  have h1' : inodeBitmapSects = 1 := rfl
  have hfree : sub32 part.secCnt (1 + 1 + inodeBitmapSects + inodeTableSects) =
      part.secCnt - 611 := by
    rw [h608, h1', sub32_eq (by omega) (by omega)]
  rw [hfree] at hsize
  obtain ⟨hs, hl⟩ := sizeLoop_some hsize fun he => by
    rw [divRoundUp_eq (by omega)] at he
    omega
  rw [sub32_eq (by omega) (by omega)] at hl
  rw [divRoundUp_eq (by omega)] at hs
  have hlen : bits = dataBlocks part := by
    simp only [dataBlocks]
    omega
  have e1 := (ideWrite_some h1).1
  have e2 := (ideWrite_some h2).1
  have e3 := (ideWrite_some h3).1
  have e4 := (ideWrite_some h4).1
  have e5 := (ideWrite_some h5).1
  simp only [mountPartition, bind_some_iff, assert_eq_some, Option.pure_def,
    Option.some.injEq] at hm
  obtain ⟨sbBuf, -, -, -, blockBits, hbb, inodeBits, hib, rfl⟩ := hm
  have hbb := (ideRead_some hbb).1
  have hib := (ideRead_some hib).1
  rw [part.layout.inode_bitmap_sects] at e3 hib
  rw [part.layout.inode_table_sects] at e4
  have hblock : ∀ k < 512 * part.sb.blockBitmapSects,
      d5 (512 * part.sb.blockBitmapLba + k) = newBlockBitmap bits k := by
    intro k hk
    rw [e5, patch_out (by omega), e4, patch_out (by omega), e3, patch_out (by omega), e2,
      patch_in (by omega), Nat.add_sub_cancel_left]
  have hinode : ∀ k < 512, d5 (512 * part.sb.inodeBitmapLba + k) =
      Function.update zeroes 0 1#8 k := by
    intro k hk
    rw [e5, patch_out (by omega), e4, patch_out (by omega), e3, patch_in (by omega),
      Nat.add_sub_cancel_left]
  have hbits : ∀ k < 512 * part.sb.blockBitmapSects,
      blockBits k = d5 (512 * part.sb.blockBitmapLba + k) := by
    intro k hk
    rw [hbb, patch_in (by omega), Nat.sub_zero, window]
  have hibits : ∀ k < 512, inodeBits k = d5 (512 * part.sb.inodeBitmapLba + k) := by
    intro k hk
    rw [hib, patch_in (by omega), Nat.sub_zero, window]
  constructor
  · omega
  · intro i hi
    rw [Volume.blockBit, bitmapScanTest_eq]
    simp only
    rw [hbits _ (by omega), hblock _ (by omega), newBlockBitmap_bit (by omega), hlen]
  · intro i hi
    rw [Volume.inodeBit, bitmapScanTest_eq]
    simp only
    rw [hibits _ (by omega), hinode _ (by omega)]
    have hj : i % 8 < 8 := Nat.mod_lt _ (by omega)
    by_cases h0 : i / 8 = 0
    · rw [h0, Function.update_self]
      have hone : (1#8).getLsbD (i % 8) = decide (i % 8 = 0) := by
        generalize i % 8 = j at hj
        interval_cases j <;> rfl
      rw [hone]
      apply decide_eq_decide.mpr
      omega
    · rw [Function.update_of_ne h0, decide_eq_false (by omega)]
      simp [zeroes]
  · exact fun k hk => (hbits k hk).symm
  · exact fun k hk => (hibits k hk).symm
  · have hfits : (newRootInode part.sb.dataStartLba).Fits := by
      refine ⟨show 0 < 2 ^ 32 by decide, show 24 * 2 < 2 ^ 32 by decide, fun j _ => ?_⟩
      simp only [newRootInode]
      split <;> omega
    have he : diskInode part d5 0 =
        Inode.ofBytes (newRootInode part.sb.dataStartLba).toBytes 0 := by
      apply ofBytes_congr
      intro j hj
      simp only [slotAddr]
      rw [e5, patch_out (by omega), e4, patch_in (by omega), patch_in (by simp only [inodeSize]; omega)]
      exact congrArg _ (by omega)
    rw [he]
    exact ofBytes_toBytes hfits
  · intro k hk
    simp only
    rw [e5, patch_in (by omega), Nat.add_sub_cancel_left]

end FsFormat
