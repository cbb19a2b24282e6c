import XianweiOS.FsSearch
import XianweiOS.FsLookupFrame

/-! What a `sys_mkdir` that returns `-1` leaves behind: nothing, unless the new entry finds no
room in the parent directory. Then the rollback gives back the inode and not the block. -/
namespace FsMkdirFailure

open ByteStore HaltingProgram KernelBitmap DeviceIde FsVolume FsInodeTable FsBlockMap FsOwnership
  FsDirectory FsDirectorySlots FsPath FsOpenFiles FsSyscalls FsReferenceCounts FsReferenceRuns
  FsLookupFrame FsTree FsSearch

variable {part : Partition} {s s' t : Kernel part} {d : Option DirPtr}

/-- What a failed mkdir is to leave as it was. -/
structure MkdirClean (s s' : Kernel part) : Prop where
  blockBitmap : s'.vol.blockBitmap = s.vol.blockBitmap
  inodeBitmap : s'.vol.inodeBitmap = s.vol.inodeBitmap
  disk : s'.vol.disk = s.vol.disk
  openInodes : s'.openInodes = s.openInodes
  inodes : ∀ a ∈ s.openInodes, s'.inodes a = s.inodes a

theorem sameOpen_mkdirClean (h : SameOpen s s') : MkdirClean s s' :=
  ⟨by rw [h.files.vol], by rw [h.files.vol], by rw [h.files.vol], h.openInodes, h.inodes⟩

/-- There is memory, the path is free in its parent directory, and that one is full. -/
def MkdirLeaves (junk : Junk) (pathname : List Byte) (s : Kernel part) : Prop :=
  s.mallocs 0 = true ∧ ∃ record t a i,
    searchFile junk pathname zeroRecord (sysMalloc s).2 = some (none, record, t) ∧
    pathDepthCnt junk.name pathname = pathDepthCnt junk.name' record.searchedPath ∧
    dirInode t record.parentDir = some a ∧ t.inodes a = some i ∧ FullDir s.vol.disk i

section Volume

variable {v v₁ : Volume part} {ino : Inode}

/-- Neither the bitmap nor a free block holds anything of a directory. -/
theorem fullDir_changes {x : ℕ} {disk : Bytes} (ho : Owns v (ref v.disk ino)) (hx : Free v x)
    (hc : Changes {a | a ∈ blockBitmapArea part ∨ a ∈ sector x} v.disk disk) :
    FullDir disk ino ↔ FullDir v.disk ino := by
  have hout : ∀ p < 141, ref v.disk ino p ≠ 0 → ∀ a ∈ sector (ref v.disk ino p),
      ¬(a ∈ blockBitmapArea part ∨ a ∈ sector x) := by
    intro p hp hz a ha hor
    have huse := ho.held p hp hz
    rcases hor with hb | hs
    · exact not_mem_bitmapArea (sector_inUse huse ha) hb
    · simp only [mem_sector] at ha hs
      have hpx : ref v.disk ino p = x := by omega
      exact hx.not_inUse (hpx ▸ huse)
  have href : ∀ p < 141, ref disk ino p = ref v.disk ino p := fun p hp =>
    ref_changes hc (fun hz => by
      have := hout 140 (by omega)
      rw [ref_table] at this
      exact this hz) hp
  have hslot : ∀ p < 140, ∀ i < 21,
      rawSlot disk (ref disk ino) p i = rawSlot v.disk (ref v.disk ino) p i := fun p hp i hi =>
    rawSlot_congr (href p (by omega)) hi fun hz a ha => hc a (hout p (by omega) hz a ha)
  constructor
  · intro hf p hp
    obtain ⟨hz, hall⟩ := hf p hp
    refine ⟨href p (by omega) ▸ hz, fun i hi => ?_⟩
    rw [← hslot p hp i hi]
    exact hall i hi
  · intro hf p hp
    obtain ⟨hz, hall⟩ := hf p hp
    refine ⟨(href p (by omega)).symm ▸ hz, fun i hi => ?_⟩
    rw [hslot p hp i hi]
    exact hall i hi

end Volume

/-- In a directory with room the call succeeds; in a full one the block of the new directory
stays marked. -/
theorem mkdirIn_some {a : ℕ} {i : Inode} (ha : dirInode t d = some a) (hi : t.inodes a = some i)
    (ho : Owns t.vol (ref t.vol.disk i)) {dirname : List Byte} {ret : ℤ}
    (h : mkdirIn d dirname t = some (ret, s')) :
    (ret = 0 ∧ ¬FullDir t.vol.disk i) ∨
      (ret = -1 ∧ FullDir t.vol.disk i ∧ s'.vol.blockBitmap ≠ t.vol.blockBitmap) := by
  rw [mkdirIn, bind_some_iff] at h
  obtain ⟨⟨r, v⟩, hal, h⟩ := h
  obtain ⟨n, rfl, rfl, -⟩ := inodeBitmapAlloc_some hal
  simp only [bind_some_iff] at h
  obtain ⟨a', ha', j, hj, ⟨r, v₁⟩, hnew, h⟩ := h
  obtain rfl := Option.some.inj (ha.symm.trans ha')
  obtain rfl := Option.some.inj (hi.symm.trans hj)
  obtain ⟨new, k, rfl, hat⟩ := newDirectory_some hnew
  have hfree : t.vol.blockBit k = false := hat.low.2.1
  have hmarked : v₁.blockBit k = true := by
    rw [Volume.blockBit, hat.blocks, bitmapScanTest_set, if_pos rfl]
  simp only [bind_some_iff] at h
  obtain ⟨e, -, ⟨ok, i', v₂⟩, hsync, h⟩ := h
  have hfull : FullDir v₁.disk i ↔ FullDir t.vol.disk i :=
    fullDir_changes ho ⟨k, rfl, hat.low.1, hfree⟩ hat.frame
  rcases syncDirEntry_full hsync with ⟨rfl, rfl, rfl, hyes⟩ | ⟨rfl, hno⟩
  · simp only [↓reduceIte, mkdirRollback, bind_some_iff] at h
    obtain ⟨s₁, hcl, h⟩ := h
    obtain ⟨rfl, rfl⟩ := Prod.mk.inj (Option.some.inj h)
    refine .inr ⟨rfl, hfull.mp hyes, fun hb => ?_⟩
    have hvol : s₁.vol = v₂.setInodeBit n false := (dirClose_files hcl).vol
    rw [hvol] at hb
    have hbit := congrArg (fun b => bitmapScanTest b k) hb
    exact absurd (hmarked.symm.trans (hbit.trans hfree)) (by decide)
  · simp only [Bool.true_eq_false, ↓reduceIte, bind_some_iff] at h
    obtain ⟨v₃, -, s₁, -, h⟩ := h
    obtain ⟨rfl, -⟩ := Prod.mk.inj (Option.some.inj h)
    exact .inl ⟨rfl, fun hall => hno (hfull.mpr hall)⟩

theorem mkdirIn_parent {dirname : List Byte} {ret : ℤ} (h : mkdirIn d dirname t = some (ret, s')) :
    ∃ a, dirInode t d = some a ∧ ∃ i, t.inodes a = some i := by
  rw [mkdirIn, bind_some_iff] at h
  obtain ⟨⟨r, v⟩, hal, h⟩ := h
  obtain ⟨n, rfl, rfl, -⟩ := inodeBitmapAlloc_some hal
  simp only [bind_some_iff] at h
  obtain ⟨a, ha, i, hi, -⟩ := h
  exact ⟨a, ha, i, hi⟩

/-- A failed mkdir is clean unless the path is free in a parent directory that is full. -/
theorem failed_mkdir_clean_iff {T : FileTree} (hs : Serves s T) {junk : Junk}
    {pathname : List Byte} (hz : (0 : Byte) ∉ pathname) {ret : ℤ}
    (h : sysMkdir junk pathname s = some (ret, s')) :
    (ret = -1 → MkdirClean s s') ↔ ¬MkdirLeaves junk pathname s := by
  obtain ⟨x, hcnt⟩ := hs.counted
  have hw : WellOpen (sysMalloc s).2 := wellOpen_of_counted hcnt.malloc
  have hback : MkdirClean (sysMalloc s).2 s' → MkdirClean s s' := fun hc =>
    ⟨hc.blockBitmap, hc.inodeBitmap, hc.disk, hc.openInodes, hc.inodes⟩
  simp only [sysMkdir] at h
  split at h
  · rename_i hm
    obtain ⟨-, rfl⟩ := Prod.mk.inj (Option.some.inj h)
    refine iff_of_true (fun _ => sameOpen_mkdirClean (sameOpen_malloc s)) fun hl => ?_
    exact Bool.false_ne_true (hm.symm.trans hl.1)
  rename_i hm
  rw [bind_some_iff] at h
  obtain ⟨⟨no, record, t⟩, hsearch, h⟩ := h
  have hlend := searchFile_lends hw hsearch
  have hclose : ∀ {r r' : ℤ}, (dirClose record.parentDir t >>= fun u => some (r', u)) = some (r, s') →
      (r = -1 → MkdirClean s s') :=
    fun hc _ => hback (sameOpen_mkdirClean (closeParent_same hw hlend hc))
  have hsame : ∀ no' record' t', searchFile junk pathname zeroRecord (sysMalloc s).2 =
      some (no', record', t') → no' = no ∧ record' = record ∧ t' = t := by
    intro no' record' t' hr
    simpa using hr.symm.trans hsearch
  cases no with
  | some n =>
    refine iff_of_true (hclose h) ?_
    rintro ⟨-, record', t', a, i, hr, -⟩
    cases (hsame _ _ _ hr).1
  | none =>
    simp only [bind_some_iff] at h
    obtain ⟨depth, hdepth, searched, hsearched, h⟩ := h
    split at h
    · rename_i hne
      refine iff_of_true (hclose h) ?_
      rintro ⟨-, record', t', a, i, hr, heq, -⟩
      obtain ⟨-, rfl, rfl⟩ := hsame _ _ _ hr
      rw [hdepth, hsearched] at heq
      exact hne (Option.some.inj heq)
    · rename_i heq
      rw [bind_some_iff] at h
      obtain ⟨dirname, -, h⟩ := h
      obtain ⟨a, ha, i, hi⟩ : ∃ a, dirInode t record.parentDir = some a ∧
          ∃ i, t.inodes a = some i := mkdirIn_parent h
      -- the parent is a directory of the tree and owns its blocks
      obtain ⟨hs', hd⟩ := searchFile_kept hs.malloc hz hsearch
      have hvol : t.vol = s.vol := hlend.files.vol
      have hown : Owns t.vol (ref t.vol.disk i) := by
        obtain ⟨n, hn, b, j, hb, hin, hj, rfl⟩ := hd.resolve_left fun hnull => by
          rw [hnull] at ha
          cases ha
        obtain rfl := Option.some.inj (ha.symm.trans hb)
        obtain rfl := Option.some.inj (hi.symm.trans hj)
        exact (directory_same (hs'.disk.directory i.iNo hn) (hs'.cached a hin i hi hn).symm).owns
      have hleaves : MkdirLeaves junk pathname s ↔ FullDir t.vol.disk i := by
        constructor
        · rintro ⟨-, record', t', a', i', hr, -, ha', hi', hfull⟩
          obtain ⟨-, rfl, rfl⟩ := hsame _ _ _ hr
          obtain rfl := Option.some.inj (ha.symm.trans ha')
          obtain rfl := Option.some.inj (hi.symm.trans hi')
          rwa [hvol]
        · intro hfull
          rw [hvol] at hfull
          refine ⟨eq_true_of_ne_false hm, record, t, a, i, hsearch, ?_, ha, hi, hfull⟩
          rw [hdepth, hsearched, not_not.mp heq]
      rw [hleaves]
      rcases mkdirIn_some ha hi hown h with ⟨rfl, hno⟩ | ⟨rfl, hyes, hne⟩
      · exact iff_of_true (fun h0 => absurd h0 (by decide)) hno
      · refine iff_of_false (fun hc => hne ?_) (not_not.mpr hyes)
        rw [(hc rfl).blockBitmap, hvol]

/-- The directory `/d` is there already. -/
theorem failed_mkdir_clean_iff_nested : ∃ s s' : Kernel smallPartition, Serves s nestedTree ∧
    sysMkdir noJunk (slash :: nestedName) s = some (-1, s') ∧ MkdirClean s s' := by
  have hrun : ((openRootDir (mounted nestedVolume fun _ => true)).bind fun s =>
      (sysMkdir noJunk (slash :: nestedName) s).bind fun r =>
        (searchFile noJunk (slash :: nestedName) zeroRecord (sysMalloc s).2).map fun found =>
          (r.1, found.1)) = some (-1, some 1) := by decide +kernel
  obtain ⟨s, hs, hmk⟩ := Option.bind_eq_some_iff.mp hrun
  obtain ⟨⟨r, s'⟩, hmk, hfound⟩ := Option.bind_eq_some_iff.mp hmk
  obtain ⟨⟨found, record, t⟩, hsearch, heq⟩ := Option.map_eq_some_iff.mp hfound
  obtain ⟨rfl, rfl⟩ := Prod.mk.inj heq
  have h := booted_serves (openRootDir_some hs) nested_onDisk
  refine ⟨s, s', h, hmk, ((failed_mkdir_clean_iff h (by decide) hmk).mpr ?_) rfl⟩
  -- the search leads to the directory
  rintro ⟨-, record', t', a, i, hnone, -⟩
  rw [hsearch] at hnone
  cases hnone

/-- A root directory without a free entry: 140 blocks with the entries of empty files. -/
def fullEntry (p i : ℕ) : DirEntry :=
  if p = 0 ∧ i = 0 then ⟨dot, 0, FileType.directory.code⟩
  else if p = 0 ∧ i = 1 then ⟨dotdot, 0, FileType.directory.code⟩
  else ⟨[BitVec.ofNat 8 (65 + p), BitVec.ofNat 8 (65 + i)], 21 * p + i, FileType.regular.code⟩

/-- The table of its blocks stands between the direct blocks and the others. -/
def fullInode : Inode := ⟨0, 24 * 2940, 0, false, fun k => if k < 12 then 613 + k else 625⟩

def fullDisk : Bytes := fun a =>
  if a / 512 < 5 then 0
  else if a / 512 < 613 then
    (if (a - 512 * 5) / 76 = 0 then fullInode else inodeInit ((a - 512 * 5) / 76)).toBytes
      ((a - 512 * 5) % 76)
  else if a / 512 = 625 then ofWords (fun k => 626 + k) (a % 512)
  else if a / 512 < 754 ∧ a % 512 < 504 then
    (fullEntry (if a / 512 < 625 then a / 512 - 613 else a / 512 - 614) (a % 512 / 24)).toBytes
      (a % 512 % 24)
  else 0

/-- Blocks 0 to 140 and the inodes 0 to 2939 are in use. -/
def fullVolume : Volume smallPartition where
  disk := fullDisk
  blockBitmap := ⟨512, fun k => if k < 17 then 0xff else if k = 17 then 0x1f else 0⟩
  inodeBitmap := ⟨512, fun k => if k < 367 then 0xff else if k = 367 then 0x0f else 0⟩
  block_len := rfl
  inode_len := rfl

/-- `mkdir /x` fails there, and block 141 stays marked. -/
theorem failed_mkdir_leaves_block :
    ∃ s s' : Kernel smallPartition, openRootDir (mounted fullVolume fun _ => true) = some s ∧
      sysMkdir noJunk [slash, 0x78] s = some (-1, s') ∧ ¬MkdirClean s s' := by
  have hrun : ((openRootDir (mounted fullVolume fun _ => true)).bind fun s =>
      (sysMkdir noJunk [slash, 0x78] s).map fun r =>
        (r.1, s.vol.blockBit 141, r.2.vol.blockBit 141)) = some (-1, false, true) := by
    decide +kernel
  obtain ⟨s, hs, hmk⟩ := Option.bind_eq_some_iff.mp hrun
  obtain ⟨⟨r, s'⟩, hmk, he⟩ := Option.map_eq_some_iff.mp hmk
  simp only [Prod.mk.injEq] at he
  obtain ⟨rfl, hfree, hmarked⟩ := he
  refine ⟨s, s', hs, hmk, fun hc => ?_⟩
  rw [Volume.blockBit, hc.blockBitmap] at hmarked
  exact absurd (hmarked.symm.trans hfree) (by decide)

end FsMkdirFailure
