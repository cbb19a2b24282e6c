import XianweiOS.FsFileLimit
import XianweiOS.MemoryExhaustion

/-! `file_write` when the disk is full, with its two buffers from the heap of the running thread.
The scan of the bitmap stops the machine before it reports that no bit is clear. -/
namespace FsFullDisk

open ByteStore HaltingProgram KernelBitmap DeviceIde FsVolume FsInodeTable FsBlockMap FsOwnership
  FsFileWrite FsFileAppend FsFileLimit MemoryPages MemoryHeap HeapInvariant MemoryExhaustion

variable {part : Partition} {v v' : Volume part} {ino ino' : Inode}

/-- The blocks whose bit is clear. -/
def clearBlocks (v : Volume part) : ℕ :=
  ((Finset.range (8 * v.blockBitmap.btmpBytesLen)).filter fun i => v.blockBit i = false).card

/-- The whole call: the two buffers are freed when it succeeds. -/
def fileWriteHeap (mc : Machine) (h : Heap) (c : Ctx) (fdPos : ℕ) (inode : Inode) (v : Volume part)
    (buf : Bytes) (count : ℕ) : Option (WriteResult part × Heap) :=
  if (inode.iSize + count) % 2 ^ 32 > 512 * 140 then some (⟨-1, fdPos, inode, v⟩, h)
  else do
    match ← sysMalloc mc h c 512 with
    | (h, none) => return (⟨-1, fdPos, inode, v⟩, h)
    | (h, some ioBuf) =>
      match ← sysMalloc mc h c (512 + 48) with
      | (h, none) => return (⟨-1, fdPos, inode, v⟩, h)
      | (h, some allBlocks) =>
        let res ← fileWrite true true fdPos inode v buf count
        if res.ret = -1 then return (res, h)
        else
          let h ← sysFree mc h c allBlocks
          let h ← sysFree mc h c ioBuf
          return (res, h)

/-- `-1`, with the bitmaps, the inode, the disk and the heap as they were. -/
def Survived (mc : Machine) (h : Heap) (c : Ctx) (pos : ℕ) (ino : Inode) (v : Volume part)
    (buf : Bytes) (count : ℕ) : Prop :=
  ∃ res, fileWriteHeap mc h c pos ino v buf count = some (res, h) ∧ res.ret = -1 ∧
    res.inode = ino ∧ res.vol = v

section Blocks

theorem clearBlocks_withDisk (v : Volume part) (d : Bytes) :
    clearBlocks (v.withDisk d) = clearBlocks v := rfl

/-- An allocation takes one clear bit. -/
theorem alloc_clear {r : Option ℕ} (h : blockBitmapAlloc v = some (r, v')) :
    ∃ i, r = some (part.sb.dataStartLba + i) ∧ i < 8 * v'.blockBitmap.btmpBytesLen ∧
      clearBlocks v = clearBlocks v' + 1 := by
  obtain ⟨i, rfl, rfl, hlow⟩ := blockBitmapAlloc_some h
  have hset : (Finset.range (8 * v.blockBitmap.btmpBytesLen)).filter (fun j => v.blockBit j = false) =
      insert i ((Finset.range (8 * (v.setBlockBit i true).blockBitmap.btmpBytesLen)).filter
        fun j => (v.setBlockBit i true).blockBit j = false) := by
    ext j
    simp only [Finset.mem_insert, Finset.mem_filter, Finset.mem_range, blockBit_setBlockBit,
      setBlockBit_block, bitmapSet_len]
    by_cases hj : j = i
    · subst j
      exact iff_of_true ⟨hlow.1, hlow.2.1⟩ (Or.inl rfl)
    · simp only [hj, false_or, if_false]
  refine ⟨i, rfl, ?_, ?_⟩
  · rw [setBlockBit_block, bitmapSet_len]
    exact hlow.1
  · rw [clearBlocks, hset, Finset.card_insert_of_notMem, clearBlocks]
    simp

theorem sync_clear {i : ℕ} (hi : i < 8 * v.blockBitmap.btmpBytesLen)
    (h : bitmapSync v (blockBitmapIdx part (part.sb.dataStartLba + i)) .blockBitmap = some v') :
    clearBlocks v' = clearBlocks v := by
  rw [blockBitmapIdx_alloc hi] at h
  obtain rfl := bitmapSync_block_some h
  exact clearBlocks_withDisk _ _

theorem writeFirstBlock_clear {ok : Bool} (h : writeFirstBlock ino v = some (ok, ino', v')) :
    clearBlocks v = clearBlocks v' + if ino.iSectors 0 = 0 then 1 else 0 := by
  unfold writeFirstBlock at h
  split at h
  · rename_i hz
    rw [bind_some_iff] at h
    obtain ⟨⟨r, v₁⟩, hal, h⟩ := h
    obtain ⟨i, rfl, hi, hclear⟩ := alloc_clear hal
    rw [bind_some_iff] at h
    obtain ⟨v₂, hsync, h⟩ := h
    obtain ⟨-, -, rfl⟩ := by simpa using h
    rw [if_pos hz, sync_clear hi hsync]
    exact hclear
  · rename_i hz
    obtain ⟨-, -, rfl⟩ := by simpa using h
    rw [if_neg hz]
    rfl

theorem allocLoop_clear : ∀ (n idx : ℕ) {ab ab' : ℕ → ℕ} {ino ino' : Inode} {v v' : Volume part}
    {ok : Bool}, allocLoop n idx ab ino v = some (ok, ab', ino', v') →
    clearBlocks v = clearBlocks v' + n := by
  intro n
  induction n with
  | zero =>
    intro idx ab ab' ino ino' v v' ok h
    obtain ⟨-, -, -, rfl⟩ := by simpa [allocLoop] using h
    rfl
  | succ n ih =>
    intro idx ab ab' ino ino' v v' ok h
    rw [allocLoop, bind_some_iff] at h
    obtain ⟨⟨r, v₁⟩, hal, h⟩ := h
    obtain ⟨i, rfl, hi, hclear⟩ := alloc_clear hal
    simp only [bind_some_iff] at h
    obtain ⟨-, -, v₂, hsync, h⟩ := h
    have hrest := ih _ h
    rw [sync_clear hi hsync] at hrest
    omega

theorem writeBlocks_clear {used will : ℕ} {ok : Bool} {ab : ℕ → ℕ} (hle : used ≤ will)
    (hlt : will < 2 ^ 32) (h : writeBlocks used will ino v = some (ok, ab, ino', v')) :
    clearBlocks v = clearBlocks v' + (will - used) + if used ≤ 12 ∧ 12 < will then 1 else 0 := by
  unfold writeBlocks at h
  split at h
  · rename_i hadd
    have heq : used = will := by omega
    rw [heq, Nat.sub_self, if_neg (by omega)]
    split at h
    · obtain ⟨-, -, -, rfl⟩ := by simpa using h
      rfl
    · simp only [bind_some_iff, Option.pure_def, Option.some.injEq, Prod.mk.injEq] at h
      obtain ⟨-, -, -, -, -, -, -, rfl⟩ := h
      rfl
  split at h
  · rename_i hwill
    simp only [bind_some_iff] at h
    obtain ⟨-, -, h⟩ := h
    rw [if_neg (by omega)]
    exact allocLoop_clear _ _ h
  rename_i hwill
  split at h
  · rename_i hused
    simp only [bind_some_iff] at h
    obtain ⟨⟨r, v₁⟩, hal, h⟩ := h
    obtain ⟨i, rfl, hi, hclear⟩ := alloc_clear hal
    simp only [bind_some_iff] at h
    obtain ⟨-, -, ⟨ok₂, ab₂, ino₂, v₂⟩, hloop, h⟩ := h
    have hall := allocLoop_clear _ _ hloop
    rw [if_pos ⟨hused, by omega⟩]
    simp only at h
    split at h
    · obtain ⟨-, -, -, rfl⟩ := by simpa using h
      omega
    · simp only [bind_some_iff, Option.pure_def, Option.some.injEq, Prod.mk.injEq] at h
      obtain ⟨d, -, -, -, -, rfl⟩ := h
      rw [clearBlocks_withDisk]
      omega
  · rename_i hused
    simp only [bind_some_iff] at h
    obtain ⟨-, -, table, -, ⟨ok₂, ab₂, ino₂, v₂⟩, hloop, h⟩ := h
    have hall := allocLoop_clear _ _ hloop
    rw [if_neg (by omega)]
    simp only at h
    split at h
    · obtain ⟨-, -, -, rfl⟩ := by simpa using h
      exact hall
    · simp only [bind_some_iff, Option.pure_def, Option.some.injEq, Prod.mk.injEq] at h
      obtain ⟨d, -, -, -, -, rfl⟩ := h
      exact hall

/-- The copying loop reads `all_blocks` at the end of the file first. -/
theorem writeLoop_start {ab : ℕ → ℕ} {buf : Bytes} {count pos : ℕ} {d : Bytes}
    {x : ℕ × ℕ × Inode × Bytes} (h : writeLoop ab buf count count true 0 pos ino d = some x)
    (hc : 0 < count) : ino.iSize / 512 < 140 := by
  obtain ⟨n, rfl⟩ := Nat.exists_eq_succ_of_ne_zero (show count ≠ 0 by omega)
  rw [writeLoop, if_pos hc, assert_bind] at h
  exact h.1

/-- A write that goes through has taken its blocks from the free ones. -/
theorem fileWrite_clear {pos count : ℕ} {buf : Bytes} {res : WriteResult part}
    (hsize : ino.iSize < 2 ^ 32) (hsum : (ino.iSize + count) % 2 ^ 32 ≤ 71680)
    (h : fileWrite true true pos ino v buf count = some res) :
    blocksNeeded ino count ≤ clearBlocks v := by
  have hsum' : ¬ (ino.iSize + count) % 2 ^ 32 > 512 * 140 := by omega
  simp only [fileWrite, if_neg hsum', Bool.true_eq_false, ↓reduceIte, bind_some_iff] at h
  obtain ⟨⟨ok₁, ino₁, v₁⟩, h₁, h⟩ := h
  obtain ⟨rfl, hhead⟩ := writeFirstBlock_ok h₁
  simp only [Bool.true_eq_false, ↓reduceIte, bind_some_iff, assert_eq_some, hhead.size] at h
  obtain ⟨-, hwill, ⟨ok₂, ab, ino₂, v₂⟩, h₂, h⟩ := h
  obtain ⟨rfl, hhead₂⟩ := writeBlocks_ok h₂
  simp only [Bool.true_eq_false, ↓reduceIte, bind_some_iff] at h
  obtain ⟨⟨bw, pos', ino₃, d⟩, h₃, -⟩ := h
  have hsize₂ : ino₂.iSize = ino.iSize := hhead₂.size.trans hhead.size
  -- what was written fits below the limit, so the sum has not wrapped around
  have hfit : ino.iSize + count ≤ 71680 := by
    by_cases hc : 0 < count
    · have hstart := writeLoop_start h₃ hc
      have := writeLoop_bound _ h₃ (by omega) (by omega)
      omega
    · omega
  have hmod : (ino.iSize + count) % 2 ^ 32 = ino.iSize + count := by omega
  rw [hmod] at h₂
  have hfirst := writeFirstBlock_clear h₁
  have hblocks := writeBlocks_clear (by omega) (by omega) h₂
  have htable : (ino.iSize / 512 + 1 ≤ 12 ∧ 12 < (ino.iSize + count) / 512 + 1) ↔
      ino.iSize / 512 < 12 ∧ 12 ≤ (ino.iSize + count) / 512 := by omega
  simp only [htable] at hblocks
  unfold blocksNeeded
  omega

end Blocks

section Buffers

variable {mc : Machine} {h h' : Heap} {c : Ctx} {size : ℕ}

/-- One page is never refused: there is one, or the scan stops the machine. -/
theorem newArena_ok {i : ℕ} {ok : Bool} (hn : newArena mc h c i = some (h', ok)) : ok = true := by
  rw [newArena, bind_some_iff] at hn
  obtain ⟨⟨m, r⟩, hp, hn⟩ := hn
  cases r with
  | none =>
    obtain ⟨j, hj, -⟩ := bitmapScan_one (mallocPage_none hp)
    cases hj
  | some a =>
    rw [bind_some_iff] at hn
    obtain ⟨l, -, hn⟩ := hn
    exact (Prod.mk.inj (Option.some.inj hn)).2.symm

/-- A block of the small sizes is only refused on a machine whose pool is empty. -/
theorem sysMalloc_small (hs : size ≤ 1024) (h0 : 0 < size)
    (hm : sysMalloc mc h c size = some (h', none)) : mc.phySize (flagOf c) = 0 ∧ h' = h := by
  refine ⟨?_, sysMalloc_none hm⟩
  by_contra hpos
  have hpage : pgSize ≤ mc.phySize (flagOf c) := by
    unfold Machine.phySize at hpos ⊢
    exact Nat.le_mul_of_pos_left _ (Nat.pos_of_ne_zero (left_ne_zero_of_mul hpos))
  rw [sysMalloc, if_pos ⟨h0, by unfold pgSize at hpage; omega⟩, if_neg (by omega)] at hm
  have htake : ∀ {g : Heap}, takeBlock g c (descIndex size) ≠ some (h', none) := by
    intro g ht
    obtain ⟨b, l, -, hr, -⟩ := takeBlock_cases ht
    cases hr
  unfold mallocSmall at hm
  dsimp only at hm
  split at hm
  · rw [bind_some_iff] at hm
    obtain ⟨⟨h₁, ok⟩, hn, hm⟩ := hm
    obtain rfl := newArena_ok hn
    exact htake hm
  · exact htake hm

theorem sysMalloc_empty (he : mc.phySize (flagOf c) = 0) : sysMalloc mc h c size = some (h, none) := by
  rw [sysMalloc, if_neg (by omega)]

end Buffers

section Call

variable {mc : Machine} {h h' : Heap} {c : Ctx} {pos count : ℕ} {buf : Bytes}
  {res : WriteResult part}

/-- The call returns `-1` when the sum of size and count is too large, without memory in the pool,
and in no other case. -/
theorem fileWriteHeap_some (hw : fileWriteHeap mc h c pos ino v buf count = some (res, h')) :
    ((71680 < (ino.iSize + count) % 2 ^ 32 ∨ mc.phySize (flagOf c) = 0) ∧ h' = h ∧
      res = ⟨-1, pos, ino, v⟩) ∨
    ((ino.iSize + count) % 2 ^ 32 ≤ 71680 ∧ res.ret ≠ -1 ∧
      fileWrite true true pos ino v buf count = some res) := by
  unfold fileWriteHeap at hw
  split at hw
  · rename_i hbig
    obtain ⟨rfl, rfl⟩ := Prod.mk.inj (Option.some.inj hw)
    exact Or.inl ⟨Or.inl hbig, rfl, rfl⟩
  rename_i hsum
  have hle : (ino.iSize + count) % 2 ^ 32 ≤ 71680 := by omega
  rw [bind_some_iff] at hw
  obtain ⟨⟨h₁, ioBuf⟩, hm₁, hw⟩ := hw
  cases ioBuf with
  | none =>
    obtain ⟨hpool, rfl⟩ := sysMalloc_small (by decide) (by decide) hm₁
    obtain ⟨rfl, rfl⟩ := Prod.mk.inj (Option.some.inj hw)
    exact Or.inl ⟨Or.inr hpool, rfl, rfl⟩
  | some ioBuf =>
    rw [bind_some_iff] at hw
    obtain ⟨⟨h₂, allBlocks⟩, hm₂, hw⟩ := hw
    cases allBlocks with
    | none =>
      obtain ⟨hpool, -⟩ := sysMalloc_small (by decide) (by decide) hm₂
      rw [sysMalloc_empty hpool] at hm₁
      cases hm₁
    | some allBlocks =>
      simp only [bind_some_iff] at hw
      obtain ⟨res', hfile, hw⟩ := hw
      have hret := (fileWrite_passed hfile hle).2
      rw [if_neg hret] at hw
      simp only [bind_some_iff, Option.pure_def, Option.some.injEq, Prod.mk.injEq] at hw
      obtain ⟨-, -, -, -, rfl, -⟩ := hw
      exact Or.inr ⟨hle, hret, hfile⟩

theorem fileWriteHeap_refused
    (hr : 71680 < (ino.iSize + count) % 2 ^ 32 ∨ mc.phySize (flagOf c) = 0) :
    fileWriteHeap mc h c pos ino v buf count = some (⟨-1, pos, ino, v⟩, h) := by
  unfold fileWriteHeap
  split
  · rfl
  · rename_i hsum
    have hpool := hr.resolve_left fun hbig => hsum hbig
    rw [sysMalloc_empty hpool]
    rfl

/-- With too few clear bits, a write that passes the test of the sum stops the machine. -/
theorem fileWriteHeap_halts (hsize : ino.iSize < 2 ^ 32)
    (hneed : clearBlocks v < blocksNeeded ino count)
    (hno : ¬(71680 < (ino.iSize + count) % 2 ^ 32 ∨ mc.phySize (flagOf c) = 0)) :
    fileWriteHeap mc h c pos ino v buf count = none := by
  by_contra hne
  obtain ⟨⟨res, h'⟩, hw⟩ := Option.ne_none_iff_exists'.mp hne
  rcases fileWriteHeap_some hw with ⟨hr, -⟩ | ⟨hle, -, hfile⟩
  · exact hno hr
  · have := fileWrite_clear hsize hle hfile
    omega

/-- A write that needs more blocks than are free survives exactly when it is refused for another
reason. In every other case the machine stops. -/
theorem full_disk_survived_iff (mc : Machine) (h : Heap) (c : Ctx) (pos : ℕ) (buf : Bytes)
    (hsize : ino.iSize < 2 ^ 32) (hneed : clearBlocks v < blocksNeeded ino count) :
    (Survived mc h c pos ino v buf count ↔
      71680 < (ino.iSize + count) % 2 ^ 32 ∨ mc.phySize (flagOf c) = 0) ∧
    (¬Survived mc h c pos ino v buf count →
      fileWriteHeap mc h c pos ino v buf count = none) := by
  have hback : 71680 < (ino.iSize + count) % 2 ^ 32 ∨ mc.phySize (flagOf c) = 0 →
      Survived mc h c pos ino v buf count :=
    fun hr => ⟨_, fileWriteHeap_refused hr, rfl, rfl, rfl⟩
  refine ⟨⟨?_, hback⟩, fun hno => fileWriteHeap_halts hsize hneed fun hr => hno (hback hr)⟩
  rintro ⟨res, hw, -⟩
  by_contra hr
  rw [fileWriteHeap_halts hsize hneed hr] at hw
  cases hw

end Call

/-- A partition whose bitmap has no clear bit. -/
def fullVolume : Volume smallPartition :=
  { blankVolume smallPartition zeroes with
    blockBitmap := ⟨512 * smallPartition.sb.blockBitmapSects, fun _ => 0xff#8⟩
    block_len := rfl }

theorem fullVolume_clear : clearBlocks fullVolume = 0 := by
  rw [clearBlocks, Finset.card_eq_zero, Finset.filter_eq_empty_iff]
  intro i _
  have hset : ∀ j < 8, (0xff#8).getLsbD j = true := by decide
  rw [Volume.blockBit, bitmapScanTest_eq]
  exact (hset _ (Nat.mod_lt _ (by omega))).symm ▸ Bool.noConfusion

/-- A write of `2 ^ 32 - 1` bytes is refused by the sum, whatever is free. -/
theorem full_disk_survived_iff_large :
    Survived smallMachine memInit none 0 (inodeInit 1) fullVolume zeroes (2 ^ 32 - 1) :=
  ((full_disk_survived_iff smallMachine memInit none 0 zeroes (by decide)
    (by rw [fullVolume_clear]; decide)).1).mpr (.inl (by decide))

/-- The first byte of a new file on a full partition. -/
theorem first_byte_halts :
    clearBlocks fullVolume < blocksNeeded (inodeInit 1) 1 ∧
      ¬Survived smallMachine memInit none 0 (inodeInit 1) fullVolume zeroes 1 ∧
      fileWriteHeap smallMachine memInit none 0 (inodeInit 1) fullVolume zeroes 1 = none := by
  have hneed : clearBlocks fullVolume < blocksNeeded (inodeInit 1) 1 := by
    rw [fullVolume_clear]
    decide
  have hhalts : fileWriteHeap smallMachine memInit none 0 (inodeInit 1) fullVolume zeroes 1 = none :=
    fileWriteHeap_halts (by decide) hneed (by decide)
  refine ⟨hneed, ?_, hhalts⟩
  rintro ⟨res, hw, -⟩
  rw [hhalts] at hw
  cases hw

end FsFullDisk
