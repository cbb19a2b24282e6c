import XianweiOS.FsFormatSize

/-! The file system that `partition_format` leaves behind: its areas tile the partition, and its
block bitmap has free exactly the data blocks behind the first one. -/
namespace FsFormatVolume

open ByteStore HaltingProgram KernelBitmap DeviceIde FsVolume FsInodeTable FsDirectory FsFormat
  FsFormatSize

/-- Areas one behind the other, each a first sector and a count, that fill `start` to `stop`. -/
def Tiles : (start stop : ℕ) → List (ℕ × ℕ) → Prop
  | start, stop, [] => start = stop
  | start, stop, (lba, cnt) :: areas => lba = start ∧ Tiles (start + cnt) stop areas

def InArea (x : ℕ) (area : ℕ × ℕ) : Prop := area.1 ≤ x ∧ x < area.1 + area.2

theorem Tiles.le {stop : ℕ} : ∀ {areas : List (ℕ × ℕ)} {start : ℕ},
    Tiles start stop areas → start ≤ stop := by
  intro areas
  induction areas with
  | nil =>
    intro start h
    exact Nat.le_of_eq h
  | cons area areas ih =>
    intro start h
    have := ih h.2
    omega

theorem Tiles.inside {stop x : ℕ} : ∀ {areas : List (ℕ × ℕ)} {start : ℕ},
    Tiles start stop areas → ∀ area ∈ areas, InArea x area → start ≤ x ∧ x < stop := by
  intro areas
  induction areas with
  | nil =>
    intro start _ area ha
    cases ha
  | cons first areas ih =>
    intro start h area ha hx
    have hle := h.2.le
    obtain ⟨hfirst, hrest⟩ := h
    rcases List.mem_cons.mp ha with rfl | ha
    · exact ⟨hfirst ▸ hx.1, by have := hx.2; omega⟩
    · have := ih hrest area ha hx
      omega

/-- A sector between `start` and `stop` lies in one area. -/
theorem Tiles.existsUnique {stop x : ℕ} : ∀ {areas : List (ℕ × ℕ)} {start : ℕ},
    Tiles start stop areas → start ≤ x → x < stop →
      ∃! k : ℕ, ∃ area, areas[k]? = some area ∧ InArea x area := by
  intro areas
  induction areas with
  | nil =>
    intro start h h1 h2
    have : start = stop := h
    omega
  | cons first areas ih =>
    intro start h h1 h2
    obtain ⟨hfirst, hrest⟩ := h
    by_cases hx : x < start + first.2
    · refine ⟨0, ⟨first, rfl, by omega, by omega⟩, ?_⟩
      rintro (_ | k) ⟨area, hk, hin⟩
      · rfl
      · have := (hrest.inside area (List.mem_of_getElem? hk) hin).1
        omega
    · obtain ⟨k, ⟨area, hk, hin⟩, huniq⟩ := ih hrest (by omega) h2
      refine ⟨k + 1, ⟨area, hk, hin⟩, ?_⟩
      rintro (_ | j) ⟨area', hj, hin'⟩
      · obtain rfl := Option.some.inj hj
        have := hin'.2
        omega
      · rw [huniq j ⟨area', hj, hin'⟩]

/-- Boot sector, super block, block bitmap, inode bitmap, inode table and data. -/
def areas (sb : SuperBlock) (bits : ℕ) : List (ℕ × ℕ) :=
  [(sb.partLbaBase, 1), (sb.partLbaBase + 1, 1), (sb.blockBitmapLba, sb.blockBitmapSects),
    (sb.inodeBitmapLba, sb.inodeBitmapSects), (sb.inodeTableLba, sb.inodeTableSects),
    (sb.dataStartLba, bits)]

section Runs

variable {part : Partition}

/-- Allocations, and releases of what they gave. -/
inductive BlockRun (v : Volume part) : List ℕ → Volume part → Prop where
  | start : BlockRun v [] v
  | alloc {given w lba w'} : BlockRun v given w → blockBitmapAlloc w = some (some lba, w') →
      BlockRun v (lba :: given) w'
  | release {given w lba} : BlockRun v given w → lba ∈ given →
      BlockRun v given (w.setBlockBit (blockBitmapIdx part lba) false)

/-- The data blocks behind the first one. -/
def Allocatable (part : Partition) (lba : ℕ) : Prop :=
  part.sb.dataStartLba + 1 ≤ lba ∧ lba < part.startLba + part.secCnt

/-- The bits of no allocatable block are set. -/
structure Reserved (v : Volume part) : Prop where
  first : v.blockBit 0 = true
  behind : ∀ i, dataBlocks part ≤ i → i < 4096 * part.sb.blockBitmapSects → v.blockBit i = true

theorem Formatted.reserved {v : Volume part} (h : Formatted v) (h8 : 8 ≤ dataBlocks part) :
    Reserved v := by
  have hlen := h.covered
  constructor
  · rw [h.blockBit 0 (by omega), decide_eq_true (.inl ⟨rfl, h8⟩)]
  · intro i hi hlt
    rw [h.blockBit i hlt, decide_eq_true (.inr hi)]

theorem Reserved.alloc {v v' : Volume part} {lba : ℕ} (h : Reserved v)
    (ha : blockBitmapAlloc v = some (some lba, v')) : Allocatable part lba ∧ Reserved v' := by
  obtain ⟨i, hr, rfl, hlt, hclear, -⟩ := blockBitmapAlloc_some ha
  obtain rfl := Option.some.inj hr
  rw [v.block_len] at hlt
  have hclear : v.blockBit i = false := hclear
  have h0 : i ≠ 0 := by
    rintro rfl
    rw [h.first] at hclear
    cases hclear
  have hin : i < dataBlocks part := by
    by_contra hge
    rw [h.behind i (by omega) (by omega)] at hclear
    cases hclear
  refine ⟨⟨by omega, ?_⟩, ?_, fun j hj hlt => ?_⟩
  · simp only [dataBlocks] at hin
    omega
  · rw [blockBit_setBlockBit, if_neg h0.symm]
    exact h.first
  · rw [blockBit_setBlockBit, if_neg (by omega)]
    exact h.behind j hj hlt

theorem Reserved.release {v : Volume part} {lba : ℕ} (h : Reserved v)
    (hl : Allocatable part lba) : Reserved (v.setBlockBit (blockBitmapIdx part lba) false) := by
  have hb := part.bounds
  obtain ⟨h1, h2⟩ := hl
  have hidx : blockBitmapIdx part lba = lba - part.sb.dataStartLba := by
    simp only [blockBitmapIdx]
    omega
  rw [hidx]
  constructor
  · rw [blockBit_setBlockBit, if_neg (by omega)]
    exact h.first
  · intro i hi hlt
    simp only [dataBlocks] at hi
    rw [blockBit_setBlockBit, if_neg (by omega)]
    exact h.behind i hi hlt

theorem BlockRun.reserved {v w : Volume part} {given : List ℕ} (hr : BlockRun v given w)
    (h : Reserved v) : Reserved w ∧ ∀ lba ∈ given, Allocatable part lba := by
  induction hr with
  | start => exact ⟨h, fun _ hl => by cases hl⟩
  | alloc _ ha ih =>
    obtain ⟨hlba, hw⟩ := ih.1.alloc ha
    exact ⟨hw, List.forall_mem_cons.mpr ⟨hlba, ih.2⟩⟩
  | release _ hl ih => exact ⟨ih.1.release (ih.2 _ hl), ih.2⟩

end Runs

/-- The disk of a new file system whose block bitmap has `bits` bits in use. -/
structure NewFileSystem (startLba secCnt bits : ℕ) (sb : SuperBlock) (disk : Bytes) : Prop where
  base : sb.partLbaBase = startLba
  inside : ∀ area ∈ areas sb bits, ∀ x, InArea x area → startLba ≤ x ∧ x < startLba + secCnt
  tiled : ∀ x, startLba ≤ x → x < startLba + secCnt →
    ∃! k : ℕ, ∃ area, (areas sb bits)[k]? = some area ∧ InArea x area
  room : bits ≤ 8 * (512 * sb.blockBitmapSects)
  marked : ∀ i < 8 * (512 * sb.blockBitmapSects),
    (disk (512 * sb.blockBitmapLba + i / 8)).getLsbD (i % 8) = decide (i = 0 ∨ bits ≤ i)
  layout : 0 < startLba → Layout startLba secCnt sb
  mounts : ∀ hl : Layout startLba secCnt sb,
    ∃ v, mountPartition ⟨startLba, secCnt, sb, hl⟩ disk = some v ∧
      ∀ given w, BlockRun v given w → ∀ lba w', blockBitmapAlloc w = some (some lba, w') →
        sb.dataStartLba + 1 ≤ lba ∧ lba < startLba + secCnt

/-- With at most 611 sectors the loop is not entered. -/
theorem sizeBlockBitmap_small {fuel bitLen secCnt sects bits : ℕ} (h : secCnt ≤ 611)
    (hs : sizeBlockBitmap fuel bitLen secCnt = some (sects, bits)) : sects = 0 := by
  have h0 : divRoundUp (freeSects secCnt) bitPerSector = 0 := by
    have hused : 1 + 1 + inodeBitmapSects + inodeTableSects = 611 := rfl
    simp only [divRoundUp, freeSects, hused, sub32, bitPerSector]
    omega
  rw [sizeBlockBitmap, h0] at hs
  cases fuel with
  | zero => cases hs
  | succ fuel =>
    rw [sizeLoop_stop] at hs
    exact (Prod.mk.inj (Option.some.inj hs)).1.symm

/-- The bitmap never asks for more sectors than are free. -/
theorem sizeLoop_le {total : ℕ} (h : 0 < total) (hw : total + 4095 < 2 ^ 32) :
    ∀ {fuel prev sects len s l : ℕ}, sizeLoop total fuel prev sects len = some (s, l) →
      sects ≤ total → s ≤ total := by
  intro fuel
  induction fuel with
  | zero =>
    intro prev sects len s l hs _
    cases hs
  | succ fuel ih =>
    intro prev sects len s l hs hle
    by_cases he : sects = prev
    · subst prev
      rw [sizeLoop_stop] at hs
      obtain ⟨rfl, -⟩ := Prod.mk.inj (Option.some.inj hs)
      exact hle
    · rw [sizeLoop_round he, nextSects_eq hle hw] at hs
      exact ih hs (by omega)

/-- With more, the sectors are enough for the bits, and these are the sectors left. -/
theorem sizeBlockBitmap_some {fuel bitLen secCnt sects bits : ℕ} (h : 611 < secCnt)
    (hw : secCnt ≤ 163840) (hs : sizeBlockBitmap fuel bitLen secCnt = some (sects, bits)) :
    sects = (bits + 4095) / 4096 ∧ bits + sects + 611 = secCnt := by
  rw [sizeBlockBitmap, freeSects_eq (by omega) (by omega), divRoundUp_eq (by omega)] at hs
  have hle := sizeLoop_le (by omega) (by omega) hs (by omega)
  obtain ⟨h1, h2⟩ := sizeLoop_some hs fun he => by omega
  rw [sub32_eq hle (by omega)] at h2
  rw [divRoundUp_eq (by omega)] at h1
  omega

section Format

variable {fuel bitLen startLba secCnt sects bits : ℕ}

theorem layout_superBlock (hpos : 0 < startLba) (hd : startLba + secCnt ≤ 163840)
    (hbits : 8 ≤ bits) (hsum : bits + sects + 611 = secCnt) :
    Layout startLba secCnt (superBlock startLba secCnt sects) := by
  have h608 : inodeTableSects = 608 := rfl
  have h1 : inodeBitmapSects = 1 := rfl
  refine ⟨hpos, rfl, rfl, rfl, rfl, rfl, rfl, ?_, ?_, rfl, rfl⟩
  · have hdata : (superBlock startLba secCnt sects).dataStartLba = startLba + 2 + sects + 1 + 608 :=
      rfl
    omega
  · simp only [maxLba]
    omega

theorem tiles_superBlock (hsum : bits + sects + 611 = secCnt) :
    Tiles startLba (startLba + secCnt) (areas (superBlock startLba secCnt sects) bits) := by
  have h608 : inodeTableSects = 608 := rfl
  have h1 : inodeBitmapSects = 1 := rfl
  refine ⟨rfl, rfl, rfl, rfl, rfl, rfl, ?_⟩
  show startLba + 1 + 1 + sects + 1 + 608 + bits = startLba + secCnt
  omega

/-- What the five writes leave in the super block and in the block bitmap. -/
theorem partitionFormat_exists (pad disk : Bytes) (hd : startLba + secCnt ≤ 163840)
    (hs : sizeBlockBitmap fuel bitLen secCnt = some (sects, bits)) (hbits : 8 ≤ bits)
    (hsum : bits + sects + 611 = secCnt) (hsects : sects = (bits + 4095) / 4096) :
    ∃ disk', partitionFormat fuel pad bitLen startLba secCnt disk =
        some (superBlock startLba secCnt sects, disk') ∧
      (∀ k < 52, disk' (512 * (startLba + 1) + k) =
        SuperBlock.toBytes (superBlock startLba secCnt sects) k) ∧
      ∀ k < 512 * sects, disk' (512 * (startLba + 2) + k) = newBlockBitmap bits k := by
  have hs' : sizeLoop (sub32 secCnt (1 + 1 + inodeBitmapSects + inodeTableSects)) fuel 0
      (divRoundUp (sub32 secCnt (1 + 1 + inodeBitmapSects + inodeTableSects)) bitPerSector)
      bitLen = some (sects, bits) := hs
  have h608 : inodeTableSects = 608 := rfl
  have h1 : inodeBitmapSects = 1 := rfl
  have hmax : maxLba + 1 = 163840 := rfl
  generalize hsb : superBlock startLba secCnt sects = sb
  have hbm : sb.blockBitmapLba = startLba + 2 := hsb ▸ rfl
  have hbs : sb.blockBitmapSects = sects := hsb ▸ rfl
  have him : sb.inodeBitmapLba = startLba + 2 + sects := hsb ▸ rfl
  have his : sb.inodeBitmapSects = 1 := hsb ▸ rfl
  have hit : sb.inodeTableLba = startLba + 2 + sects + 1 := hsb ▸ rfl
  have hts : sb.inodeTableSects = 608 := hsb ▸ rfl
  have hda : sb.dataStartLba = startLba + 2 + sects + 1 + 608 := hsb ▸ rfl
  simp only [partitionFormat, hs', Option.bind_eq_bind, Option.bind_some, hsb, hbm, hbs, him, his,
    hit, hts, hda]
  rw [ideWrite_eq (by omega) (by omega), Option.bind_some, ideWrite_eq (by omega) (by omega),
    Option.bind_some, ideWrite_eq (by omega) (by omega), Option.bind_some,
    ideWrite_eq (by omega) (by omega), Option.bind_some, ideWrite_eq (by omega) (by omega),
    Option.bind_some]
  refine ⟨_, rfl, fun k hk => ?_, fun k hk => ?_⟩
  · rw [patch_out (by omega), patch_out (by omega), patch_out (by omega), patch_out (by omega),
      patch_in (by omega), Nat.add_sub_cancel_left, patch_in (by omega)]
    rfl
  · rw [patch_out (by omega), patch_out (by omega), patch_out (by omega), patch_in (by omega),
      Nat.add_sub_cancel_left]

/-- A super block is read back as it was written. -/
theorem superBlock_ofBytes {m : Bytes} (hd : startLba + secCnt ≤ 163840)
    (hsects : sects ≤ secCnt)
    (h : ∀ k < 52, m k = SuperBlock.toBytes (superBlock startLba secCnt sects) k) :
    SuperBlock.ofBytes m = superBlock startLba secCnt sects := by
  have hw : ∀ k < 13, word m (4 * k) =
      [0x20060127, secCnt, maxFilesPerPart, startLba, startLba + 2, sects, startLba + 2 + sects,
        inodeBitmapSects, startLba + 2 + sects + inodeBitmapSects, inodeTableSects,
        startLba + 2 + sects + inodeBitmapSects + inodeTableSects, 0,
        FsDirectory.dirEntrySize].getD k 0 % 2 ^ 32 := by
    intro k hk
    have hread : word m (4 * k) =
        word (SuperBlock.toBytes (superBlock startLba secCnt sects)) (4 * k) :=
      word_congr fun j hj => h _ (by omega)
    rw [hread]
    exact word_ofWords _ k
  have h608 : inodeTableSects = 608 := rfl
  have h1 : inodeBitmapSects = 1 := rfl
  have hlt : ∀ x, x < 2 ^ 32 → x % 2 ^ 32 = x := fun x hx => Nat.mod_eq_of_lt hx
  simp only [SuperBlock.ofBytes, superBlock, SuperBlock.mk.injEq]
  refine ⟨hw 0 (by omega), (hw 1 (by omega)).trans (hlt _ (by simp; omega)), hw 2 (by omega),
    (hw 3 (by omega)).trans (hlt _ (by simp; omega)),
    (hw 4 (by omega)).trans (hlt _ (by simp; omega)),
    (hw 5 (by omega)).trans (hlt _ (by simp; omega)),
    (hw 6 (by omega)).trans (hlt _ (by simp; omega)), hw 7 (by omega),
    (hw 8 (by omega)).trans (hlt _ (by simp [h1]; omega)), hw 9 (by omega),
    (hw 10 (by omega)).trans (hlt _ (by simp [h1, h608]; omega)), hw 11 (by omega),
    hw 12 (by omega)⟩

theorem mountPartition_exists {part : Partition} {disk : Bytes} (hpos : 0 < part.sb.blockBitmapSects)
    (h : SuperBlock.ofBytes (patch zeroes 0 (512 * 1) (window disk (512 * (part.startLba + 1)))) =
      part.sb) : ∃ v, mountPartition part disk = some v := by
  have hb := part.bounds
  have hmax : maxLba + 1 = 163840 := rfl
  have h1 := part.layout.inode_bitmap_sects
  simp only [mountPartition, h1]
  simp only [ideRead_eq (show 0 < 1 by omega) (show part.startLba + 1 + 1 ≤ maxLba + 1 by omega),
    assert_pos h, ideRead_eq hpos (show part.sb.blockBitmapLba + part.sb.blockBitmapSects ≤
      maxLba + 1 by omega), ideRead_eq (show 0 < 1 by omega)
      (show part.sb.inodeBitmapLba + 1 ≤ maxLba + 1 by omega), Option.bind_eq_bind,
    Option.bind_some]
  exact ⟨_, rfl⟩

/-- What is formatted can be mounted, and only allocatable blocks are handed out from then on. -/
theorem newFileSystem_mounts (part : Partition) {pad disk disk' : Bytes}
    (hf : partitionFormat fuel pad bitLen part.startLba part.secCnt disk = some (part.sb, disk'))
    (hsb : SuperBlock.ofBytes
      (patch zeroes 0 (512 * 1) (window disk' (512 * (part.startLba + 1)))) = part.sb)
    (hpos : 0 < part.sb.blockBitmapSects) (h8 : 8 ≤ dataBlocks part) :
    ∃ v, mountPartition part disk' = some v ∧
      ∀ given w, BlockRun v given w → ∀ lba w', blockBitmapAlloc w = some (some lba, w') →
        Allocatable part lba := by
  obtain ⟨v, hv⟩ := mountPartition_exists hpos hsb
  have hres := Formatted.reserved (mount_formatted hf hv) h8
  exact ⟨v, hv, fun given w hrun lba w' ha => ((hrun.reserved hres).1.alloc ha).1⟩

/-- A partition of at most 163840 sectors on which the sizing loop ends with at least eight bits
gets a sound file system exactly when it has more than 611 sectors: otherwise the loop is not
entered, and the length is one that was never assigned. -/
theorem format_tiles_iff (pad disk : Bytes) (hd : startLba + secCnt ≤ 163840)
    (hs : sizeBlockBitmap fuel bitLen secCnt = some (sects, bits)) (hbits : 8 ≤ bits) :
    (∃ sb disk', partitionFormat fuel pad bitLen startLba secCnt disk = some (sb, disk') ∧
      NewFileSystem startLba secCnt bits sb disk') ↔ 611 < secCnt := by
  constructor
  · rintro ⟨sb, disk', hf, hnew⟩
    by_contra hle
    obtain rfl := sizeBlockBitmap_small (by omega) hs
    have hroom := hnew.room
    have hsb : sb = superBlock startLba secCnt 0 := by
      have hs' : sizeLoop (sub32 secCnt (1 + 1 + inodeBitmapSects + inodeTableSects)) fuel 0
          (divRoundUp (sub32 secCnt (1 + 1 + inodeBitmapSects + inodeTableSects)) bitPerSector)
          bitLen = some (0, bits) := hs
      simp only [partitionFormat, hs', bind_some_iff, Option.pure_def, Option.some.injEq,
        Prod.mk.injEq] at hf
      obtain ⟨_, rfl, _, -, _, -, _, -, _, -, _, -, hsb, -⟩ := hf
      exact hsb.symm
    subst sb
    simp only [superBlock] at hroom
    omega
  · intro h
    obtain ⟨hsects, hsum⟩ := sizeBlockBitmap_some h (by omega) hs
    obtain ⟨disk', hf, hsuper, hbitmap⟩ := partitionFormat_exists pad disk hd hs hbits hsum hsects
    have htiles : Tiles startLba (startLba + secCnt)
        (areas (superBlock startLba secCnt sects) bits) := tiles_superBlock hsum
    refine ⟨_, disk', hf, rfl, fun area ha x hx => htiles.inside area ha hx,
      fun x h1 h2 => htiles.existsUnique h1 h2, ?_, fun i hi => ?_,
      fun hpos => layout_superBlock hpos hd hbits hsum, fun hl => ?_⟩
    · simp only [superBlock]
      omega
    · simp only [superBlock] at hi ⊢
      rw [hbitmap _ (by omega), newBlockBitmap_bit (by omega)]
      apply decide_eq_decide.mpr
      omega
    · exact newFileSystem_mounts ⟨startLba, secCnt, superBlock startLba secCnt sects, hl⟩
        hf (superBlock_ofBytes hd (by omega) fun k hk => by
          rw [patch_in (by omega), Nat.sub_zero, window]
          exact hsuper k hk) (show 0 < sects by omega) (by
          have hdata : (superBlock startLba secCnt sects).dataStartLba =
              startLba + 2 + sects + 1 + 608 := rfl
          simp only [dataBlocks, hdata]
          omega)

end Format

theorem format_tiles_iff_small :
    (∃ sb disk', partitionFormat 3 zeroes 0 1 1000 zeroes = some (sb, disk') ∧
      NewFileSystem 1 1000 388 sb disk') ↔ 611 < 1000 :=
  format_tiles_iff zeroes zeroes (by decide)
    (show sizeBlockBitmap 3 0 1000 = some (1, 388) by decide +kernel) (by decide)

/-- On 611 sectors the length stays what the stack held, here 8. -/
theorem format_tiles_not : 1 + 611 ≤ 163840 ∧ sizeBlockBitmap 1 8 611 = some (0, 8) ∧ 8 ≤ 8 ∧
    ¬ ∃ sb disk', partitionFormat 1 zeroes 8 1 611 zeroes = some (sb, disk') ∧
      NewFileSystem 1 611 8 sb disk' := by
  refine ⟨by decide, by decide +kernel, by decide, ?_⟩
  rintro ⟨sb, disk', hf, -⟩
  have hs : sizeLoop (sub32 611 (1 + 1 + inodeBitmapSects + inodeTableSects)) 1 0
      (divRoundUp (sub32 611 (1 + 1 + inodeBitmapSects + inodeTableSects)) bitPerSector)
      8 = some (0, 8) := by decide +kernel
  have hempty : ∀ d b, ideWrite d (superBlock 1 611 0).blockBitmapLba b
      (superBlock 1 611 0).blockBitmapSects = none := fun d b => rfl
  simp only [partitionFormat, hs, bind_some_iff, Option.some.injEq] at hf
  obtain ⟨_, rfl, _, -, _, hwrite, -⟩ := hf
  rw [hempty] at hwrite
  cases hwrite

end FsFormatVolume
