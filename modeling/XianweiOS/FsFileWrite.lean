import XianweiOS.FsOwnership
import Mathlib.Data.List.Basic

/-! `file_write` of `fs/file.c`. The file position, the inode and the volume are passed and
returned; the outcomes of its two `sys_malloc` calls are arguments, as what they return is
cleared memory. `-1` is returned with the state reached so far. Reading past the 140
entries of `all_blocks` stops the machine, and so does reading the sectors of the inode's record
over the end of `io_buf`. -/
namespace FsFileWrite

open ByteStore HaltingProgram KernelBitmap DeviceIde FsVolume FsInodeTable FsBlockMap FsOwnership

variable {part : Partition}

structure WriteResult (part : Partition) where
  ret : ℤ
  fdPos : ℕ
  inode : Inode
  vol : Volume part

/-- A fresh file has no block at all: the first write gives it block 0. -/
def writeFirstBlock (inode : Inode) (v : Volume part) : Option (Bool × Inode × Volume part) :=
  if inode.iSectors 0 = 0 then do
    let (blockLba, v) ← blockBitmapAlloc v
    match blockLba with
    | none => return (false, inode, v)
    | some blockLba =>
      let v ← bitmapSync v (blockBitmapIdx part blockLba) .blockBitmap
      return (true, inode.setSector 0 blockLba, v)
  else return (true, inode, v)

/-- The allocation loop. It stands three times in the source; in the first situation every
index is below 12, in the third none is, so those two are cases of the second. -/
def allocLoop : (fuel blockIdx : ℕ) → (ℕ → ℕ) → Inode → Volume part →
    Option (Bool × (ℕ → ℕ) × Inode × Volume part)
  | 0, _, allBlocks, inode, v => some (true, allBlocks, inode, v)
  | fuel + 1, blockIdx, allBlocks, inode, v => do
    let (blockLba, v) ← blockBitmapAlloc v
    match blockLba with
    | none => return (false, allBlocks, inode, v)
    | some blockLba =>
      assert (blockIdx < 12 → inode.iSectors blockIdx = 0)
      let inode := if blockIdx < 12 then inode.setSector blockIdx blockLba else inode
      let v ← bitmapSync v (blockBitmapIdx part blockLba) .blockBitmap
      allocLoop fuel (blockIdx + 1) (Function.update allBlocks blockIdx blockLba) inode v

/-- `all_blocks` with the one entry of the block being appended to. -/
def lastBlock (inode : Inode) (hasUsed : ℕ) : ℕ → ℕ :=
  Function.update (fun _ => 0) (hasUsed - 1) (inode.iSectors (hasUsed - 1))

/-- `all_blocks` with the table read in behind the direct entries, which stay empty. -/
def tableBlocks (table : Bytes) (k : ℕ) : ℕ := if k < 12 then 0 else word table (4 * (k - 12))

/-- The four ways of loading and allocating the blocks of the write. -/
def writeBlocks (hasUsed willUse : ℕ) (inode : Inode) (v : Volume part) :
    Option (Bool × (ℕ → ℕ) × Inode × Volume part) :=
  if (willUse + 2 ^ 32 - hasUsed) % 2 ^ 32 = 0 then
    if hasUsed ≤ 12 then return (true, lastBlock inode hasUsed, inode, v)
    else do
      assert (inode.iSectors 12 ≠ 0)
      let table ← ideRead v.disk (inode.iSectors 12) zeroes 1
      return (true, tableBlocks table, inode, v)
  else if willUse ≤ 12 then do
    assert (inode.iSectors (hasUsed - 1) ≠ 0)
    allocLoop (willUse - hasUsed) hasUsed (lastBlock inode hasUsed) inode v
  else if hasUsed ≤ 12 then do
    let allBlocks := lastBlock inode hasUsed
    let (blockLba, v) ← blockBitmapAlloc v
    match blockLba with
    | none => return (false, allBlocks, inode, v)
    | some indirectBlockTable =>
      assert (inode.iSectors 12 = 0)
      let (ok, allBlocks, inode, v) ← allocLoop (willUse - hasUsed) hasUsed allBlocks
        (inode.setSector 12 indirectBlockTable) v
      if ok = false then return (false, allBlocks, inode, v)
      let disk ← ideWrite v.disk indirectBlockTable (tableBytes allBlocks) 1
      return (true, allBlocks, inode, v.withDisk disk)
  else do
    assert (inode.iSectors 12 ≠ 0)
    let table ← ideRead v.disk (inode.iSectors 12) zeroes 1
    let (ok, allBlocks, inode, v) ← allocLoop (willUse - hasUsed) hasUsed (tableBlocks table)
      inode v
    if ok = false then return (false, allBlocks, inode, v)
    let disk ← ideWrite v.disk (inode.iSectors 12) (tableBytes allBlocks) 1
    return (true, allBlocks, inode, v.withDisk disk)

/-- The cleared `io_buf` of one round; only the first block may hold bytes to keep. -/
def roundBuf (firstWriteBlock : Bool) (disk : Bytes) (secLba : ℕ) : Option Bytes :=
  if firstWriteBlock then ideRead disk secLba zeroes 1 else some zeroes

/-- The copying loop: every round fills the block at the end of the file. -/
def writeLoop (allBlocks : ℕ → ℕ) (buf : Bytes) (count : ℕ) :
    (fuel : ℕ) → (firstWriteBlock : Bool) → (bytesWritten fdPos : ℕ) → Inode → Bytes →
    Option (ℕ × ℕ × Inode × Bytes)
  | 0, _, bytesWritten, fdPos, inode, disk => some (bytesWritten, fdPos, inode, disk)
  | fuel + 1, firstWriteBlock, bytesWritten, fdPos, inode, disk =>
    if bytesWritten < count then do
      let secIdx := inode.iSize / 512
      assert (secIdx < 140)
      let secLba := allBlocks secIdx
      let secOffBytes := inode.iSize % 512
      let chunkSize := min (count - bytesWritten) (512 - secOffBytes)
      let ioBuf ← roundBuf firstWriteBlock disk secLba
      let disk ← ideWrite disk secLba (patch ioBuf secOffBytes chunkSize (window buf bytesWritten)) 1
      writeLoop allBlocks buf count fuel false (bytesWritten + chunkSize)
        ((fdPos + chunkSize) % 2 ^ 32)
        { inode with iSize := (inode.iSize + chunkSize) % 2 ^ 32 } disk
    else some (bytesWritten, fdPos, inode, disk)

def fileWrite (mallocIoBuf mallocAllBlocks : Bool) (fdPos : ℕ) (inode : Inode)
    (v : Volume part) (buf : Bytes) (count : ℕ) : Option (WriteResult part) := do
  if (inode.iSize + count) % 2 ^ 32 > 512 * 140 then return ⟨-1, fdPos, inode, v⟩
  if mallocIoBuf = false then return ⟨-1, fdPos, inode, v⟩
  if mallocAllBlocks = false then return ⟨-1, fdPos, inode, v⟩
  let (ok, inode, v) ← writeFirstBlock inode v
  if ok = false then return ⟨-1, fdPos, inode, v⟩
  let fileHasUsedBlocks := inode.iSize / 512 + 1
  let fileWillUseBlocks := (inode.iSize + count) % 2 ^ 32 / 512 + 1
  assert (fileWillUseBlocks ≤ 140)
  let (ok, allBlocks, inode, v) ← writeBlocks fileHasUsedBlocks fileWillUseBlocks inode v
  if ok = false then return ⟨-1, fdPos, inode, v⟩
  let (bytesWritten, fdPos, inode, disk) ← writeLoop allBlocks buf count count true 0
    ((inode.iSize + 2 ^ 32 - 1) % 2 ^ 32) inode v.disk
  -- `io_buf` has one sector, and the record may lie in two
  let disk ← inodeSyncIn 512 part disk inode zeroes
  return ⟨bytesWritten, fdPos, inode, v.withDisk disk⟩

/-- Address of byte `k` of the file with the blocks `r`. -/
def byteAddr (r : ℕ → ℕ) (k : ℕ) : ℕ := 512 * r (k / 512) + k % 512

/-- The bytes of a file, through its direct and indirect blocks. -/
def content (disk : Bytes) (inode : Inode) : List Byte :=
  (List.range inode.iSize).map fun k => disk (byteAddr (ref disk inode) k)

/-- A file of `size` bytes has exactly the blocks `0 .. size / 512`, and a table if one of
them is indirect. -/
structure FileBlocks (r : ℕ → ℕ) (size : ℕ) : Prop where
  data : ∀ p < 140, r p ≠ 0 ↔ p ≤ size / 512
  table : r 140 ≠ 0 ↔ 12 ≤ size / 512

/-- What the writer keeps: the blocks the size asks for, or none while nothing was written. -/
structure FileLayout (v : Volume part) (inode : Inode) : Prop where
  owns : Owns v (ref v.disk inode)
  fits : inode.Fits
  size : inode.iSize < 512 * 140
  blocks : FileBlocks (ref v.disk inode) inode.iSize ∨
    (inode.iSize = 0 ∧ ∀ p < 141, ref v.disk inode p = 0)

theorem lowestClear_unique {b : Bitmap} {i j : ℕ} (hi : LowestClear b i) (hj : LowestClear b j) :
    i = j := by
  rcases Nat.lt_trichotomy i j with hlt | heq | hgt
  · exact absurd (hj.2.2 i hlt) (by rw [hi.2.1]; decide)
  · exact heq
  · exact absurd (hi.2.2 j hgt) (by rw [hj.2.1]; decide)

/-- The places as the writer has them in memory, ahead of the table on disk. -/
def memRef (allBlocks : ℕ → ℕ) (inode : Inode) (p : ℕ) : ℕ :=
  if p < 12 then inode.iSectors p else if p < 140 then allBlocks p else inode.iSectors 12

theorem memRef_take (allBlocks : ℕ → ℕ) (inode : Inode) {k : ℕ} (hk : k < 140) (x : ℕ) :
    memRef (Function.update allBlocks k x) (if k < 12 then inode.setSector k x else inode) =
      Function.update (memRef allBlocks inode) k x := by
  funext p
  by_cases hpk : p = k
  · subst p
    rw [Function.update_self]
    unfold memRef
    split
    · exact Function.update_self _ _ _
    · exact Function.update_self _ _ _
  · rw [Function.update_of_ne hpk]
    unfold memRef
    split
    · by_cases hk12 : k < 12
      · rw [if_pos hk12]
        exact Function.update_of_ne hpk _ _
      · rw [if_neg hk12]
    · rename_i hp12
      split
      · exact Function.update_of_ne hpk _ _
      · by_cases hk12 : k < 12
        · rw [if_pos hk12]
          exact Function.update_of_ne (by omega) _ _
        · rw [if_neg hk12]

/-- What `n` rounds of the allocation loop from index `idx` do. -/
structure Grown (idx n : ℕ) (v : Volume part) (ab : ℕ → ℕ) (ino : Inode) (v' : Volume part)
    (ab' : ℕ → ℕ) (ino' : Inode) : Prop where
  rewrites : Rewrites True True v (memRef ab ino) v' (memRef ab' ino')
  bitmap : Changes (blockBitmapArea part) v.disk v'.disk
  old : ∀ p, ¬(idx ≤ p ∧ p < idx + n) → memRef ab' ino' p = memRef ab ino p ∧ ab' p = ab p
  new : ∀ p, idx ≤ p → p < idx + n → memRef ab' ino' p ≠ 0 ∧ ab' p = memRef ab' ino' p
  table : ino'.iSectors 12 = ino.iSectors 12
  head : ino'.SameHead ino
  masked : 0 < n → ∀ j, LowestClear v.blockBitmap j → SyncedOutside v (j / 4096) → BlockSynced v'

theorem allocLoop_some : ∀ (n idx : ℕ) (ab : ℕ → ℕ) (ino : Inode) (v : Volume part)
    {ok : Bool} {ab' : ℕ → ℕ} {ino' : Inode} {v' : Volume part},
    allocLoop n idx ab ino v = some (ok, ab', ino', v') → Owns v (memRef ab ino) →
    idx + n ≤ 140 → (∀ p, idx ≤ p → p < idx + n → memRef ab ino p = 0) →
    ok = true ∧ Grown idx n v ab ino v' ab' ino' := by
  intro n
  induction n with
  | zero =>
    intro idx ab ino v ok ab' ino' v' h ho _ _
    simp only [allocLoop, Option.some.injEq, Prod.mk.injEq] at h
    obtain ⟨rfl, rfl, rfl, rfl⟩ := h
    exact ⟨rfl, Rewrites.refl ho, Changes.refl _ _, fun _ _ => ⟨rfl, rfl⟩,
      fun p h1 h2 => by omega, rfl, Inode.SameHead.refl _, fun h => by omega⟩
  | succ n ih =>
    intro idx ab ino v ok ab' ino' v' h ho hlen hz
    simp only [allocLoop, bind_some_iff] at h
    obtain ⟨⟨r, v1⟩, hal, h⟩ := h
    obtain ⟨i, rfl, rfl, hlow⟩ := blockBitmapAlloc_some hal
    simp only [bind_some_iff] at h
    obtain ⟨-, -, v2, hsync, h⟩ := h
    have hi : i < 8 * v.blockBitmap.btmpBytesLen := hlow.1
    rw [blockBitmapIdx_alloc hi] at hsync
    obtain rfl := bitmapSync_block_some hsync
    have hstep := rewrites_take_sync ho hi hlow.2.1 (show idx < 141 by omega)
      (hz idx (by omega) (by omega))
    rw [← memRef_take ab ino (show idx < 140 by omega)] at hstep
    -- the rest of the loop starts from the array with one more entry
    obtain ⟨rfl, hg⟩ := ih _ _ _ _ h hstep.owns (by omega) (by
      intro p h1 h2
      rw [memRef_take ab ino (show idx < 140 by omega), Function.update_of_ne (by omega)]
      exact hz p (by omega) (by omega))
    have hbit : Changes (blockBitmapArea part) v.disk (patch v.disk (512 * bitSector part i) 512
        (window (bitmapSet v.blockBitmap i true).bits (i / 4096 * 512))) :=
      changes_bitSector hi
    refine ⟨rfl, ?_, hbit.trans hg.bitmap, ?_, ?_, ?_, ?_, ?_⟩
    · exact (hstep.trans hg.rewrites).weaken (fun _ => ⟨trivial, trivial⟩)
        (fun _ => ⟨trivial, trivial⟩)
    · intro p hp
      obtain ⟨h1, h2⟩ := hg.old p (by omega)
      rw [memRef_take ab ino (show idx < 140 by omega), Function.update_of_ne (by omega)] at h1
      rw [Function.update_of_ne (by omega)] at h2
      exact ⟨h1, h2⟩
    · intro p h1 h2
      by_cases hpi : p = idx
      · subst p
        obtain ⟨h3, h4⟩ := hg.old idx (by omega)
        rw [memRef_take ab ino (show idx < 140 by omega), Function.update_self] at h3
        rw [Function.update_self] at h4
        have hb := part.bounds
        exact ⟨by omega, by omega⟩
      · exact hg.new p (by omega) (by omega)
    · rw [hg.table]
      split
      · exact Function.update_of_ne (by omega) _ _
      · rfl
    · refine hg.head.trans ?_
      split
      · exact setSector_head _ _ _
      · exact Inode.SameHead.refl _
    · intro _ j hj hs
      -- the first round takes the lowest clear bit and catches up with its sector
      obtain rfl := lowestClear_unique hj hlow
      exact hg.rewrites.synced trivial (blockSynced_set hs)

/-- The bitmap a one-bit allocation leaves behind. -/
def takeLowest (b : Bitmap) : Bitmap :=
  match bitmapScan b 1 with
  | some (some i) => bitmapSet b i true
  | _ => b

/-- The next two bits to be taken lie in one sector of the bitmap. -/
def SameSector (b : Bitmap) : Prop :=
  ∀ i j, LowestClear b i → LowestClear (bitmapSet b i true) j → i / 4096 = j / 4096

theorem takeLowest_eq {v v' : Volume part} {r : Option ℕ} (h : blockBitmapAlloc v = some (r, v')) :
    takeLowest v.blockBitmap = v'.blockBitmap := by
  simp only [blockBitmapAlloc, bind_some_iff] at h
  obtain ⟨r', hr, h⟩ := h
  obtain ⟨i, rfl, -⟩ := bitmapScan_one hr
  simp only [Option.pure_def, Option.some.injEq, Prod.mk.injEq] at h
  rw [takeLowest, hr, ← h.2]
  rfl

/-- The state after block 0 is there. -/
structure FirstBlock (v : Volume part) (ino : Inode) (v' : Volume part) (ino' : Inode) : Prop where
  rewrites : Rewrites True True v (ref v.disk ino) v' (ref v'.disk ino')
  blocks : FileBlocks (ref v'.disk ino') ino.iSize
  bitmap : Changes (blockBitmapArea part) v.disk v'.disk
  old : ∀ p < 141, ref v.disk ino p ≠ 0 → ref v'.disk ino' p = ref v.disk ino p
  head : ino'.SameHead ino
  bits : v'.blockBitmap = if ino.iSectors 0 = 0 then takeLowest v.blockBitmap else v.blockBitmap

theorem writeFirstBlock_some {ino ino' : Inode} {v v' : Volume part} {ok : Bool}
    (h : writeFirstBlock ino v = some (ok, ino', v')) (hl : FileLayout v ino) :
    ok = true ∧ FirstBlock v ino v' ino' := by
  have h0 : ref v.disk ino 0 = ino.iSectors 0 := ref_direct (by omega)
  unfold writeFirstBlock at h
  split at h
  · rename_i hz
    obtain ⟨hsize, hnone⟩ : ino.iSize = 0 ∧ ∀ p < 141, ref v.disk ino p = 0 := by
      rcases hl.blocks with hb | hn
      · exact absurd (h0.trans hz) ((hb.data 0 (by omega)).mpr (by omega))
      · exact hn
    simp only [bind_some_iff] at h
    obtain ⟨⟨r, v1⟩, hal, h⟩ := h
    have htake := takeLowest_eq hal
    obtain ⟨i, rfl, rfl, hlow⟩ := blockBitmapAlloc_some hal
    simp only [bind_some_iff] at h
    obtain ⟨v2, hsync, h⟩ := h
    have hi : i < 8 * v.blockBitmap.btmpBytesLen := hlow.1
    rw [blockBitmapIdx_alloc hi] at hsync
    obtain rfl := bitmapSync_block_some hsync
    simp only [Option.pure_def, Option.some.injEq, Prod.mk.injEq] at h
    obtain ⟨rfl, rfl, rfl⟩ := h
    have hstep := rewrites_take_sync hl.owns hi hlow.2.1 (show 0 < 141 by omega)
      (hnone 0 (by omega))
    have hbit := changes_bitSector (m := window (bitmapSet v.blockBitmap i true).bits
      (i / 4096 * 512)) hi
    have hnotable : ino.iSectors 12 = 0 := (ref_table v.disk ino).symm.trans (hnone 140 (by omega))
    have href : ∀ p < 141, ref (patch v.disk (512 * bitSector part i) 512
        (window (bitmapSet v.blockBitmap i true).bits (i / 4096 * 512)))
        (ino.setSector 0 (part.sb.dataStartLba + i)) p =
        Function.update (ref v.disk ino) 0 (part.sb.dataStartLba + i) p := by
      intro p hp
      rw [ref_setSector_direct _ _ (by omega) hp,
        ref_changes hbit (fun hne => absurd hnotable hne) hp]
      by_cases hp0 : p = 0
      · subst p
        rw [if_pos rfl, Function.update_self]
      · rw [if_neg hp0, Function.update_of_ne hp0]
    refine ⟨rfl, hstep.congr (fun _ _ => rfl) href, ⟨?_, ?_⟩, hbit, ?_, setSector_head _ _ _, ?_⟩
    · intro p hp
      have := href p (by omega)
      have hbd := part.bounds
      by_cases hp0 : p = 0
      · subst p
        rw [Function.update_self] at this
        refine iff_of_true (fun hn => ?_) (by omega)
        have := this.symm.trans hn
        omega
      · rw [Function.update_of_ne hp0, hnone p (by omega)] at this
        constructor
        · intro hne
          exact absurd this hne
        · intro hle
          omega
    · have := href 140 (by omega)
      rw [Function.update_of_ne (by omega), hnone 140 (by omega)] at this
      constructor
      · intro hne
        exact absurd this hne
      · intro hle
        omega
    · intro p hp hne
      exact absurd (hnone p hp) hne
    · rw [if_pos hz, htake]
      rfl
  · rename_i hz
    simp only [Option.pure_def, Option.some.injEq, Prod.mk.injEq] at h
    obtain ⟨rfl, rfl, rfl⟩ := h
    have hb : FileBlocks (ref v.disk ino) ino.iSize := by
      rcases hl.blocks with hb | hn
      · exact hb
      · exact absurd (h0.symm.trans (hn.2 0 (by omega))) hz
    exact ⟨rfl, Rewrites.refl hl.owns, hb, Changes.refl _ _, fun _ _ _ => rfl,
      Inode.SameHead.refl _, (if_neg hz).symm⟩

/-- The one allocation that is not written back, that of a table, is caught up with by the
block taken after it. -/
def TableMasked (size new : ℕ) (b : Bitmap) : Prop :=
  size / 512 < 12 → 12 ≤ new / 512 → SameSector b

/-- The blocks of a write from `size` up to `new` are there and listed in `ab`. -/
structure Loaded (size new : ℕ) (v : Volume part) (ino : Inode) (v' : Volume part) (ab : ℕ → ℕ)
    (ino' : Inode) : Prop where
  rewrites : Rewrites True (TableMasked size new v.blockBitmap) v (ref v.disk ino) v'
    (ref v'.disk ino')
  blocks : FileBlocks (ref v'.disk ino') new
  listed : ∀ p, size / 512 ≤ p → p ≤ new / 512 → ab p = ref v'.disk ino' p
  old : ∀ p < 141, ref v.disk ino p ≠ 0 → ref v'.disk ino' p = ref v.disk ino p
  quiet : ∀ p < 140, ref v.disk ino p ≠ 0 → ∀ a ∈ sector (ref v.disk ino p), v'.disk a = v.disk a
  table : ino'.iSectors 12 ≤ maxLba
  head : ino'.SameHead ino

/-- While all blocks are direct, the list with the last block in it is the map. -/
private theorem memRef_lastBlock {d : Bytes} {ino : Inode} {size : ℕ}
    (hb : FileBlocks (ref d ino) size) (hs : size / 512 < 12) {p : ℕ} (hp : p < 141) :
    memRef (lastBlock ino (size / 512 + 1)) ino p = ref d ino p := by
  unfold memRef
  split
  · rw [ref_direct ‹_›]
  split
  · have hz : ref d ino p = 0 := by
      by_contra hne
      have := (hb.data p (by omega)).mp hne
      omega
    rw [hz, lastBlock, Function.update_of_ne (by omega)]
  · obtain rfl : p = 140 := by omega
    rw [ref_table]

private theorem memRef_tableBlocks {d : Bytes} {ino : Inode} (ht : ino.iSectors 12 ≠ 0) {p : ℕ}
    (hp : p < 141) :
    memRef (tableBlocks (patch zeroes 0 512 (window d (512 * ino.iSectors 12)))) ino p =
      ref d ino p := by
  unfold memRef
  split
  · rw [ref_direct ‹_›]
  split
  · rw [ref_indirect (by omega) (by omega), if_neg ht, tableBlocks, if_neg (by omega),
      word_patch_in (by omega), Nat.sub_zero, word_window]
  · obtain rfl : p = 140 := by omega
    rw [ref_table]

/-- Blocks in use keep their bytes while only the bitmap is written. -/
private theorem quiet_bitmap {v v' : Volume part} {r : ℕ → ℕ} (ho : Owns v r)
    (hc : Changes (blockBitmapArea part) v.disk v'.disk) {p : ℕ} (hp : p < 141) (hz : r p ≠ 0) :
    ∀ a ∈ sector (r p), v'.disk a = v.disk a :=
  fun a ha => hc a (not_mem_bitmapArea (sector_inUse (ho.held p hp hz) ha))

/-- The blocks after the loop: the old ones and the new ones. -/
private theorem grown_ne_zero {size new : ℕ} {v v' : Volume part} {ab ab' : ℕ → ℕ}
    {ino ino' : Inode} (hle : size ≤ new)
    (hg : Grown (size / 512 + 1) (new / 512 - size / 512) v ab ino v' ab' ino')
    (h0 : ∀ p < 140, memRef ab ino p ≠ 0 ↔ p ≤ size / 512) {p : ℕ} (hp : p < 140) :
    memRef ab' ino' p ≠ 0 ↔ p ≤ new / 512 := by
  by_cases hnew : size / 512 + 1 ≤ p ∧ p < size / 512 + 1 + (new / 512 - size / 512)
  · have := (hg.new p hnew.1 hnew.2).1
    exact iff_of_true this (by omega)
  · rw [(hg.old p hnew).1, h0 p hp]
    omega

private theorem grown_listed {size new : ℕ} {v v' : Volume part} {ab ab' : ℕ → ℕ}
    {ino ino' : Inode}
    (hg : Grown (size / 512 + 1) (new / 512 - size / 512) v ab ino v' ab' ino')
    (h0 : ab (size / 512) = memRef ab ino (size / 512)) {p : ℕ} (h1 : size / 512 ≤ p)
    (h2 : p ≤ new / 512) : ab' p = memRef ab' ino' p := by
  by_cases he : p = size / 512
  · obtain ⟨h3, h4⟩ := hg.old p (by omega)
    rw [h3, h4, he, h0]
  · exact (hg.new p (by omega) (by omega)).2

/-- Installing the table that the loop filled in. -/
private theorem loaded_table {S : Prop} {size new : ℕ} {v v1 v2 : Volume part}
    {ab ab2 : ℕ → ℕ} {ino ino1 ino2 : Inode} (ho : Owns v (ref v.disk ino)) (hle : size ≤ new)
    (hnew : 12 ≤ new / 512)
    (h1 : Rewrites True S v (ref v.disk ino) v1 (memRef ab ino1))
    (hd : Changes (blockBitmapArea part) v.disk v1.disk)
    (hold : ∀ p < 141, ref v.disk ino p ≠ 0 → memRef ab ino1 p = ref v.disk ino p)
    (hblk : ∀ p < 140, memRef ab ino1 p ≠ 0 ↔ p ≤ size / 512)
    (hlast : ab (size / 512) = memRef ab ino1 (size / 512))
    (ht : ino1.iSectors 12 ≠ 0)
    (hg : Grown (size / 512 + 1) (new / 512 - size / 512) v1 ab ino1 v2 ab2 ino2)
    (hlen : new / 512 < 140)
    (hsync : TableMasked size new v.blockBitmap → BlockSynced v → BlockSynced v2)
    (hlba : ino2.iSectors 12 ≤ maxLba) (hhead : ino1.SameHead ino) :
    Loaded size new v ino
      (v2.withDisk (patch v2.disk (512 * ino2.iSectors 12) 512 (tableBytes ab2))) ab2 ino2 := by
  have ht2 : ino2.iSectors 12 ≠ 0 := by rw [hg.table]; exact ht
  have ho2 := hg.rewrites.owns
  have hmem : memRef ab2 ino2 140 = ino2.iSectors 12 := by
    unfold memRef
    rw [if_neg (by omega), if_neg (by omega)]
  have href : ∀ p < 141, ref (patch v2.disk (512 * ino2.iSectors 12) 512 (tableBytes ab2)) ino2 p =
      memRef ab2 ino2 p := by
    intro p hp
    rw [ref_write_table _ ht2 ?_ hp]
    · rfl
    · intro q hq1 hq2
      have := owns_lt ho2 (p := q) (by omega)
      unfold memRef at this
      rwa [if_neg (by omega), if_pos hq2] at this
  have hc : Changes (Writable v2 (memRef ab2 ino2)) v2.disk
      (patch v2.disk (512 * ino2.iSectors 12) 512 (tableBytes ab2)) :=
    (changes_patch _ _ _ _).mono fun a ha => ⟨_, ha, Or.inr ⟨140, by omega, hmem, ht2⟩⟩
  have h3 := (h1.trans (hg.rewrites.trans (rewrites_write ho2 hc))).congr (fun _ _ => rfl) href
  have hkeep : ∀ p < 141, ref v.disk ino p ≠ 0 → memRef ab2 ino2 p = ref v.disk ino p := by
    intro p hp hz
    rw [← hold p hp hz]
    apply (hg.old p _).1
    rintro ⟨h4, h5⟩
    rw [← hold p hp hz] at hz
    have := (hblk p (by omega)).mp hz
    omega
  refine ⟨{ h3 with
    tight := fun _ => h3.tight ⟨trivial, trivial, trivial⟩
    synced := fun hm hs => (rewrites_write ho2 hc).synced trivial (hsync hm hs) }, ⟨?_, ?_⟩, ?_, ?_,
    ?_, hlba, hg.head.trans hhead⟩
  · intro p hp
    rw [withDisk_disk, href p (by omega)]
    exact grown_ne_zero hle hg hblk hp
  · rw [withDisk_disk, href 140 (by omega), hmem]
    exact iff_of_true ht2 hnew
  · intro p h4 h5
    rw [withDisk_disk, href p (by omega)]
    exact grown_listed hg hlast h4 h5
  · intro p hp hz
    rw [withDisk_disk, href p hp]
    exact hkeep p hp hz
  · intro p hp hz a ha
    have hne : a ∉ span (512 * ino2.iSectors 12) 512 := by
      intro hin
      have hx : ref v.disk ino p = ino2.iSectors 12 := by
        simp only [mem_sector, mem_span] at ha hin
        omega
      rw [← hkeep p (by omega) hz, ← hmem] at hx
      have := ho2.distinct p (by omega) 140 (by omega) (by rw [hx, hmem]; exact ht2) hx
      omega
    rw [withDisk_disk, patch_out hne]
    exact quiet_bitmap ho (hd.trans hg.bitmap) (by omega) hz a ha

/-- No block is added: the list is read from the inode or its table. -/
private theorem loaded_same {size new : ℕ} {v : Volume part} {ab : ℕ → ℕ} {ino : Inode}
    (ho : Owns v (ref v.disk ino)) (hb : FileBlocks (ref v.disk ino) size)
    (hs : new / 512 = size / 512) (hab : ab (size / 512) = ref v.disk ino (size / 512))
    (hlba : ino.iSectors 12 ≤ maxLba) :
    Loaded size new v ino v ab ino := by
  refine ⟨(Rewrites.refl ho).weaken (fun _ => trivial) (fun _ => trivial), ⟨?_, ?_⟩, ?_,
    fun _ _ _ => rfl, fun _ _ _ _ _ => rfl, hlba, Inode.SameHead.refl _⟩
  · rw [hs]
    exact hb.data
  · rw [hs]
    exact hb.table
  · intro p h1 h2
    obtain rfl : p = size / 512 := by omega
    exact hab

/-- All blocks stay direct. -/
private theorem loaded_direct {size new : ℕ} {v v' : Volume part} {ab' : ℕ → ℕ}
    {ino ino' : Inode} (ho : Owns v (ref v.disk ino)) (hb : FileBlocks (ref v.disk ino) size)
    (hle : size ≤ new) (hnew : new / 512 < 12)
    (hg : Grown (size / 512 + 1) (new / 512 - size / 512) v
      (lastBlock ino (size / 512 + 1)) ino v' ab' ino') : Loaded size new v ino v' ab' ino' := by
  have hmem := fun p (hp : p < 141) => memRef_lastBlock hb (by omega) hp
  have ht : ino.iSectors 12 = 0 := by
    by_contra hne
    have := hb.table.mp (by rwa [ref_table])
    omega
  have ht' : ino'.iSectors 12 = 0 := hg.table.trans ht
  have hne : ∀ p < 140, memRef ab' ino' p ≠ 0 ↔ p ≤ new / 512 := fun p hp =>
    grown_ne_zero hle hg (fun p hp => by rw [hmem p (by omega)]; exact hb.data p hp) hp
  have href : ∀ p < 141, ref v'.disk ino' p = memRef ab' ino' p := by
    intro p hp
    by_cases h12 : p < 12
    · rw [ref_direct h12, memRef, if_pos h12]
    by_cases h140 : p < 140
    · rw [ref_indirect (by omega) h140, if_pos ht']
      by_contra hc
      have := (hne p h140).mp (Ne.symm hc)
      omega
    · rw [memRef, if_neg h12, if_neg h140]
      obtain rfl : p = 140 := by omega
      exact ref_table _ _
  refine ⟨(hg.rewrites.congr (fun p hp => (hmem p hp).symm) href).weaken (fun _ => trivial)
      (fun _ => trivial), ⟨?_, ?_⟩, ?_, ?_, ?_, by omega, hg.head⟩
  · intro p hp
    rw [href p (by omega)]
    exact hne p hp
  · rw [ref_table]
    exact iff_of_false (fun h => h ht') (by omega)
  · intro p h1 h2
    rw [href p (by omega)]
    refine grown_listed hg ?_ h1 h2
    rw [memRef, if_pos (by omega), lastBlock, Nat.add_sub_cancel, Function.update_self]
  · intro p hp hz
    rw [href p hp, ← hmem p hp]
    apply (hg.old p _).1
    rintro ⟨h1, h2⟩
    have := (hb.data p (by omega)).mp hz
    omega
  · intro p hp hz
    exact quiet_bitmap ho hg.bitmap (by omega) hz

theorem writeBlocks_some {size new : ℕ} {ino ino' : Inode} {v v' : Volume part} {ok : Bool}
    {ab : ℕ → ℕ} (h : writeBlocks (size / 512 + 1) (new / 512 + 1) ino v = some (ok, ab, ino', v'))
    (ho : Owns v (ref v.disk ino)) (hb : FileBlocks (ref v.disk ino) size) (hle : size ≤ new)
    (hlen : new / 512 < 140) : ok = true ∧ Loaded size new v ino v' ab ino' := by
  have hdiv : size / 512 ≤ new / 512 := Nat.div_le_div_right hle
  have hrounds : new / 512 + 1 - (size / 512 + 1) = new / 512 - size / 512 := by omega
  have hlast : size / 512 < 12 → lastBlock ino (size / 512 + 1) (size / 512) =
      ref v.disk ino (size / 512) := by
    intro h12
    rw [ref_direct h12, lastBlock, Nat.add_sub_cancel, Function.update_self]
  unfold writeBlocks at h
  split at h
  · -- no new block
    have hsame : new / 512 = size / 512 := by omega
    split at h
    · simp only [Option.pure_def, Option.some.injEq, Prod.mk.injEq] at h
      obtain ⟨rfl, rfl, rfl, rfl⟩ := h
      have ht : ino.iSectors 12 = 0 := by
        by_contra hne
        have := hb.table.mp (by rwa [ref_table])
        omega
      exact ⟨rfl, loaded_same ho hb hsame (hlast (by omega)) (by omega)⟩
    · simp only [bind_some_iff, assert_eq_some, Option.pure_def, Option.some.injEq,
        Prod.mk.injEq] at h
      obtain ⟨-, ht, table, hr, rfl, rfl, rfl, rfl⟩ := h
      obtain ⟨rfl, hlba⟩ := ideRead_some hr
      refine ⟨rfl, loaded_same ho hb hsame ?_ hlba⟩
      rw [← memRef_tableBlocks ht (by omega), memRef, if_neg (by omega), if_pos (by omega)]
  split at h
  · -- all blocks direct
    simp only [bind_some_iff, hrounds] at h
    obtain ⟨-, -, h⟩ := h
    have hmem := fun p (hp : p < 141) => memRef_lastBlock hb (by omega) hp
    obtain ⟨rfl, hg⟩ := allocLoop_some _ _ _ _ _ h (ho.congr hmem) (by omega) (by
      intro p h1 h2
      rw [hmem p (by omega)]
      by_contra hne
      have := (hb.data p (by omega)).mp hne
      omega)
    exact ⟨rfl, loaded_direct ho hb hle (by omega) hg⟩
  split at h
  · -- from direct to indirect blocks: the table is taken first
    have h12 : size / 512 < 12 := by omega
    have hmem := fun p (hp : p < 141) => memRef_lastBlock hb h12 hp
    have ht : ino.iSectors 12 = 0 := by
      by_contra hne
      have := hb.table.mp (by rwa [ref_table])
      omega
    simp only [bind_some_iff] at h
    obtain ⟨⟨r, v1⟩, hal, h⟩ := h
    obtain ⟨i, rfl, rfl, hlow⟩ := blockBitmapAlloc_some hal
    simp only [bind_some_iff, hrounds] at h
    obtain ⟨-, -, ⟨ok2, ab2, ino2, v2⟩, hloop, h⟩ := h
    have htake := rewrites_take ho hlow.1 hlow.2.1 (show 140 < 141 by omega)
      ((ref_table _ _).trans ht)
    have hmem1 : ∀ p < 141, memRef (lastBlock ino (size / 512 + 1))
        (ino.setSector 12 (part.sb.dataStartLba + i)) p =
        Function.update (ref v.disk ino) 140 (part.sb.dataStartLba + i) p := by
      intro p hp
      by_cases hp140 : p = 140
      · subst p
        rw [Function.update_self, memRef, if_neg (by omega), if_neg (by omega), setSector_self]
      · rw [Function.update_of_ne hp140, ← hmem p hp, memRef, memRef]
        split
        · exact setSector_of_ne _ (by omega) _
        · rw [if_pos (by omega), if_pos (by omega)]
    have hblk : ∀ p < 140, memRef (lastBlock ino (size / 512 + 1))
        (ino.setSector 12 (part.sb.dataStartLba + i)) p ≠ 0 ↔ p ≤ size / 512 := by
      intro p hp
      rw [hmem1 p (by omega), Function.update_of_ne (by omega)]
      exact hb.data p hp
    obtain ⟨rfl, hg⟩ := allocLoop_some _ _ _ _ _ hloop (htake.owns.congr hmem1) (by omega) (by
      intro p h1 h2
      by_contra hne
      have := (hblk p (by omega)).mp hne
      omega)
    simp only [Bool.true_eq_false, ↓reduceIte, bind_some_iff, Option.pure_def, Option.some.injEq,
      Prod.mk.injEq] at h
    obtain ⟨d, hw, rfl, rfl, rfl, rfl⟩ := h
    obtain ⟨rfl, hlba⟩ := ideWrite_some hw
    have htab : ino2.iSectors 12 = part.sb.dataStartLba + i := by
      rw [hg.table, setSector_self]
    have hbd := part.bounds
    rw [← htab] at hlba ⊢
    refine ⟨rfl, loaded_table ho hle (by omega) (htake.congr (fun _ _ => rfl) hmem1)
      (Changes.refl _ _) ?_ hblk ?_ ?_ hg hlen ?_ hlba (setSector_head _ _ _)⟩
    · intro p hp hz
      rw [hmem1 p hp]
      refine Function.update_of_ne ?_ _ _
      rintro rfl
      exact hz ((ref_table _ _).trans ht)
    · rw [hlast h12, hmem1 _ (by omega), Function.update_of_ne (by omega)]
    · rw [← hg.table, htab]
      omega
    · intro hm hs
      -- the first block of the loop lies in the same sector of the bitmap as the table
      have hpos : 0 < new / 512 - size / 512 := by omega
      have hfirst : ∃ j, LowestClear (v.setBlockBit i true).blockBitmap j := by
        obtain ⟨k, hk⟩ : ∃ k, new / 512 - size / 512 = k + 1 := ⟨_, (Nat.sub_add_cancel hpos).symm⟩
        rw [hk] at hloop
        simp only [allocLoop, bind_some_iff] at hloop
        obtain ⟨⟨r, v3⟩, hal, -⟩ := hloop
        obtain ⟨j, -, -, hj⟩ := blockBitmapAlloc_some hal
        exact ⟨j, hj⟩
      obtain ⟨j, hj⟩ := hfirst
      have hsec := hm h12 (by omega) i j hlow hj
      apply hg.masked hpos j hj
      rw [← hsec]
      exact syncedOutside_set hs i true
  · -- only indirect blocks
    have h12 : 12 ≤ size / 512 := by omega
    simp only [bind_some_iff, assert_eq_some, hrounds] at h
    obtain ⟨-, ht, table, hr, ⟨ok2, ab2, ino2, v2⟩, hloop, h⟩ := h
    obtain ⟨rfl, -⟩ := ideRead_some hr
    have hmem := fun p (hp : p < 141) => memRef_tableBlocks (d := v.disk) ht hp
    obtain ⟨rfl, hg⟩ := allocLoop_some _ _ _ _ _ hloop (ho.congr hmem) (by omega) (by
      intro p h1 h2
      rw [hmem p (by omega)]
      by_contra hne
      have := (hb.data p (by omega)).mp hne
      omega)
    simp only [Bool.true_eq_false, ↓reduceIte, bind_some_iff, Option.pure_def, Option.some.injEq,
      Prod.mk.injEq] at h
    obtain ⟨d, hw, rfl, rfl, rfl, rfl⟩ := h
    obtain ⟨rfl, hlba⟩ := ideWrite_some hw
    refine ⟨rfl, loaded_table ho hle (by omega)
      ((Rewrites.refl ho).congr (fun _ _ => rfl) hmem) (Changes.refl _ _)
      (fun p hp _ => hmem p hp) (fun p hp => by rw [hmem p (by omega)]; exact hb.data p hp) ?_ ht hg
      hlen (fun _ => hg.rewrites.synced trivial) hlba (Inode.SameHead.refl _)⟩
    rw [memRef, if_neg (by omega), if_pos (by omega)]

/-- A full bitmap stops the machine, so an allocation that returns has succeeded. -/
theorem allocLoop_ok : ∀ (n : ℕ) {idx : ℕ} {ab ab' : ℕ → ℕ} {ino ino' : Inode}
    {v v' : Volume part} {ok : Bool}, allocLoop n idx ab ino v = some (ok, ab', ino', v') →
    ok = true ∧ ino'.SameHead ino ∧ ino'.iSectors 12 = ino.iSectors 12 := by
  intro n
  induction n with
  | zero =>
    intro idx ab ab' ino ino' v v' ok h
    simp only [allocLoop, Option.some.injEq, Prod.mk.injEq] at h
    obtain ⟨rfl, -, rfl, -⟩ := h
    exact ⟨rfl, Inode.SameHead.refl _, rfl⟩
  | succ n ih =>
    intro idx ab ab' ino ino' v v' ok h
    simp only [allocLoop, bind_some_iff] at h
    obtain ⟨⟨r, v1⟩, hal, h⟩ := h
    obtain ⟨i, rfl, -, -⟩ := blockBitmapAlloc_some hal
    simp only [bind_some_iff] at h
    obtain ⟨-, -, v2, -, h⟩ := h
    obtain ⟨hok, hhead, htab⟩ := ih h
    refine ⟨hok, hhead.trans ?_, htab.trans ?_⟩
    · split
      · exact setSector_head _ _ _
      · exact Inode.SameHead.refl _
    · split
      · exact setSector_of_ne _ (by omega) _
      · rfl

theorem writeBlocks_ok {has will : ℕ} {ino ino' : Inode} {v v' : Volume part} {ok : Bool}
    {ab : ℕ → ℕ} (h : writeBlocks has will ino v = some (ok, ab, ino', v')) :
    ok = true ∧ ino'.SameHead ino := by
  unfold writeBlocks at h
  split at h
  · split at h
    · simp only [Option.pure_def, Option.some.injEq, Prod.mk.injEq] at h
      obtain ⟨rfl, -, rfl, -⟩ := h
      exact ⟨rfl, Inode.SameHead.refl _⟩
    · simp only [bind_some_iff, Option.pure_def, Option.some.injEq, Prod.mk.injEq] at h
      obtain ⟨-, -, -, -, rfl, -, rfl, -⟩ := h
      exact ⟨rfl, Inode.SameHead.refl _⟩
  split at h
  · simp only [bind_some_iff] at h
    obtain ⟨-, -, h⟩ := h
    exact ⟨(allocLoop_ok _ h).1, (allocLoop_ok _ h).2.1⟩
  split at h
  · simp only [bind_some_iff] at h
    obtain ⟨⟨r, v1⟩, hal, h⟩ := h
    obtain ⟨i, rfl, -, -⟩ := blockBitmapAlloc_some hal
    simp only [bind_some_iff] at h
    obtain ⟨-, -, ⟨ok2, ab2, ino2, v2⟩, hloop, h⟩ := h
    obtain ⟨rfl, hhead, -⟩ := allocLoop_ok _ hloop
    simp only [Bool.true_eq_false, ↓reduceIte, bind_some_iff, Option.pure_def, Option.some.injEq,
      Prod.mk.injEq] at h
    obtain ⟨-, -, rfl, -, rfl, -⟩ := h
    exact ⟨rfl, hhead.trans (setSector_head _ _ _)⟩
  · simp only [bind_some_iff] at h
    obtain ⟨-, -, table, -, ⟨ok2, ab2, ino2, v2⟩, hloop, h⟩ := h
    obtain ⟨rfl, hhead, -⟩ := allocLoop_ok _ hloop
    simp only [Bool.true_eq_false, ↓reduceIte, bind_some_iff, Option.pure_def, Option.some.injEq,
      Prod.mk.injEq] at h
    obtain ⟨-, -, rfl, -, rfl, -⟩ := h
    exact ⟨rfl, hhead⟩

end FsFileWrite
