import XianweiOS.FsOwnership
import Mathlib.Data.Finset.Card

/-! When allocation succeeds. A full bitmap stops the machine, and so does a block behind the
end of the disk, so calls that must return need free blocks on the disk; those inside the partition
are among them. -/
namespace FsFreeBlocks

open ByteStore HaltingProgram KernelBitmap DeviceIde FsVolume FsInodeTable FsBlockMap FsOwnership

variable {part : Partition}

/-- Blocks of the partition that are free. -/
def freeBlocks (v : Volume part) : ℕ :=
  ((Finset.range (8 * v.blockBitmap.btmpBytesLen)).filter fun i =>
    v.blockBit i = false ∧ part.sb.dataStartLba + i < part.startLba + part.secCnt).card

/-- Blocks whose bit is clear, as far as the disk reaches. -/
def clearBlocks (v : Volume part) : ℕ :=
  ((Finset.range (8 * v.blockBitmap.btmpBytesLen)).filter fun i =>
    v.blockBit i = false ∧ part.sb.dataStartLba + i ≤ maxLba).card

theorem freeBlocks_le (v : Volume part) : freeBlocks v ≤ clearBlocks v := by
  have hb := part.bounds
  refine Finset.card_le_card (Finset.monotone_filter_right _ fun i => ?_)
  intro _ hi
  exact ⟨hi.1, by simp only [maxLba]; omega⟩

/-- Every block the inode refers to is a sector of the disk. -/
def OnDisk (r : ℕ → ℕ) : Prop := ∀ p < 141, r p ≤ maxLba

/-- Setting one bit takes one free block at most. -/
theorem freeBlocks_setBlockBit (v : Volume part) (k : ℕ) (b : Bool) :
    freeBlocks v ≤ freeBlocks (v.setBlockBit k b) + 1 := by
  have hsub : (Finset.range (8 * v.blockBitmap.btmpBytesLen)).filter (fun i =>
      v.blockBit i = false ∧ part.sb.dataStartLba + i < part.startLba + part.secCnt) ⊆
      insert k ((Finset.range (8 * (v.setBlockBit k b).blockBitmap.btmpBytesLen)).filter
        fun i => (v.setBlockBit k b).blockBit i = false ∧
          part.sb.dataStartLba + i < part.startLba + part.secCnt) := by
    intro j hj
    simp only [Finset.mem_insert, Finset.mem_filter, Finset.mem_range, blockBit_setBlockBit,
      setBlockBit_block, bitmapSet_len] at hj ⊢
    by_cases hjk : j = k
    · exact Or.inl hjk
    · exact Or.inr ⟨hj.1, by rw [if_neg hjk]; exact hj.2.1, hj.2.2⟩
  exact (Finset.card_le_card hsub).trans (Finset.card_insert_le _ _)

/-- The lowest clear bit lies in the partition when any clear bit does. -/
theorem alloc_free {v : Volume part} (h : 0 < freeBlocks v) :
    ∃ k, blockBitmapAlloc v = some (some (part.sb.dataStartLba + k), v.setBlockBit k true) ∧
      k < 8 * v.blockBitmap.btmpBytesLen ∧ part.sb.dataStartLba + k ≤ maxLba ∧
      freeBlocks v ≤ freeBlocks (v.setBlockBit k true) + 1 := by
  obtain ⟨i, hi⟩ := Finset.card_pos.mp h
  simp only [Finset.mem_filter, Finset.mem_range] at hi
  obtain ⟨hi, hc, hin⟩ := hi
  obtain ⟨k, hal, hk⟩ := blockBitmapAlloc_exists hi hc
  have hki : k ≤ i := by
    by_contra hlt
    have := hk.2.2 i (by omega)
    rw [show bitmapScanTest v.blockBitmap i = false from hc] at this
    cases this
  have hb := part.bounds
  exact ⟨k, hal, hk.1, by simp only [maxLba]; omega, freeBlocks_setBlockBit v k true⟩

/-- A block that is taken is one of them. -/
theorem clearBlocks_take {v : Volume part} {k : ℕ} (hk : LowestClear v.blockBitmap k)
    (hlba : part.sb.dataStartLba + k ≤ maxLba) :
    clearBlocks (v.setBlockBit k true) + 1 = clearBlocks v := by
  have hmem : k ∈ (Finset.range (8 * v.blockBitmap.btmpBytesLen)).filter fun i =>
      v.blockBit i = false ∧ part.sb.dataStartLba + i ≤ maxLba := by
    simp only [Finset.mem_filter, Finset.mem_range]
    exact ⟨hk.1, hk.2.1, hlba⟩
  rw [clearBlocks, clearBlocks, ← Finset.card_erase_add_one hmem]
  congr 2
  ext i
  simp only [Finset.mem_filter, Finset.mem_range, Finset.mem_erase, blockBit_setBlockBit,
    setBlockBit_block, bitmapSet_len]
  by_cases hik : i = k
  · simp [hik]
  · simp [hik]

theorem alloc_clear {v : Volume part} (h : 0 < clearBlocks v) :
    ∃ k, blockBitmapAlloc v = some (some (part.sb.dataStartLba + k), v.setBlockBit k true) ∧
      LowestClear v.blockBitmap k ∧ part.sb.dataStartLba + k ≤ maxLba := by
  obtain ⟨i, hi⟩ := Finset.card_pos.mp h
  simp only [Finset.mem_filter, Finset.mem_range] at hi
  obtain ⟨hi, hc, hin⟩ := hi
  obtain ⟨k, hal, hk⟩ := blockBitmapAlloc_exists hi hc
  refine ⟨k, hal, hk, ?_⟩
  by_contra hlt
  have := hk.2.2 i (by omega)
  rw [show bitmapScanTest v.blockBitmap i = false from hc] at this
  cases this

theorem clearBlocks_congr {v w : Volume part} (h : v.blockBitmap = w.blockBitmap) :
    clearBlocks v = clearBlocks w := by
  unfold clearBlocks Volume.blockBit
  rw [h]

theorem clearBlocks_withDisk (v : Volume part) (d : Bytes) :
    clearBlocks (v.withDisk d) = clearBlocks v := rfl

theorem freeBlocks_withDisk (v : Volume part) (d : Bytes) : freeBlocks (v.withDisk d) = freeBlocks v :=
  rfl

/-- On an empty volume every block that has a bit and lies in the partition is free. -/
theorem freeBlocks_blank (part : Partition) (disk : Bytes) (n : ℕ)
    (hbits : n ≤ 8 * (512 * part.sb.blockBitmapSects))
    (hin : part.sb.dataStartLba + n ≤ part.startLba + part.secCnt) :
    n ≤ freeBlocks (blankVolume part disk) := by
  have hsub : Finset.range n ⊆ (Finset.range (8 * (512 * part.sb.blockBitmapSects))).filter fun i =>
      (blankVolume part disk).blockBit i = false ∧
        part.sb.dataStartLba + i < part.startLba + part.secCnt := by
    intro i hi
    have := Finset.mem_range.mp hi
    simp only [Finset.mem_filter, Finset.mem_range, blankVolume_blockBit, true_and]
    omega
  have := Finset.card_le_card hsub
  rwa [Finset.card_range] at this

theorem sync_alloc {v : Volume part} {k : ℕ} (hk : k < 8 * v.blockBitmap.btmpBytesLen) :
    bitmapSync (v.setBlockBit k true) (blockBitmapIdx part (part.sb.dataStartLba + k)) .blockBitmap =
      some ((v.setBlockBit k true).withDisk (patch (v.setBlockBit k true).disk
        (512 * (part.sb.blockBitmapLba + k / 4096)) 512
        (window (v.setBlockBit k true).blockBitmap.bits (k / 4096 * 512)))) := by
  rw [blockBitmapIdx_alloc hk]
  exact bitmapSync_block_eq (v := v.setBlockBit k true) hk

end FsFreeBlocks
