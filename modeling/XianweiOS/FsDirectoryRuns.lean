import XianweiOS.FsDirectoryMap

/-! Sequences of insertions and deletions on one directory, from the state in which
`sys_mkdir` and `partition_format` leave a new one. -/
namespace FsDirectoryRuns

open ByteStore HaltingProgram KernelBitmap DeviceIde FsVolume FsInodeTable FsBlockMap FsOwnership
  FsFreeBlocks FsDirectory FsDirectorySlots FsDirectoryDelete FsDirectoryTable FsDirectoryMap SlotTable

variable {part : Partition} {v v' : Volume part} {ino ino' : Inode} {m : NameMap} {n : ℕ}

private theorem writeNewBlock_exists {x : ℕ} (e : DirEntry) (i : Inode) (w : Volume part)
    (hx : x ≤ maxLba) : ∃ j w', writeNewBlock x e i w = some (true, j, w') := by
  rw [writeNewBlock, ideWrite_eq (by omega) (by omega)]
  exact ⟨_, _, rfl⟩

/-- A block is taken and its bit written back. -/
private theorem alloc_sync {w : Volume part} (h : 0 < clearBlocks w) :
    ∃ x w1 w2, blockBitmapAlloc w = some (some x, w1) ∧
      bitmapSync w1 (blockBitmapIdx part x) .blockBitmap = some w2 ∧ x ≤ maxLba ∧
      clearBlocks w2 + 1 = clearBlocks w := by
  obtain ⟨k, hal, hk, hlba⟩ := alloc_clear h
  exact ⟨_, _, _, hal, sync_alloc hk.1, hlba, clearBlocks_take hk hlba⟩

/-- The blocks that filling the hole at `p` takes: one for the entry, and at index 12 one for the
table. -/
def holeBlocks (p : ℕ) : ℕ := if p = 12 then 2 else 1

theorem syncNewBlock_exists {p : ℕ} {ab : ℕ → ℕ} (e : DirEntry) (hfree : holeBlocks p ≤ clearBlocks v)
    (ht : 12 < p → ino.iSectors 12 ≤ maxLba) :
    ∃ j w, syncNewBlock p ab e ino v = some (true, j, w) := by
  rw [holeBlocks] at hfree
  obtain ⟨x, v1, v2, hal, hsync, hx, hle⟩ := alloc_sync (w := v) (by split at hfree <;> omega)
  rw [syncNewBlock, hal, Option.bind_eq_bind, Option.bind_some]
  simp only
  rw [hsync, Option.bind_eq_bind, Option.bind_some]
  split
  · exact writeNewBlock_exists e _ _ hx
  split
  · rename_i h12
    rw [if_pos h12] at hfree
    obtain ⟨y, v3, v4, hal2, hsync2, hy, -⟩ := alloc_sync (w := v2) (by omega)
    rw [hal2, Option.bind_eq_bind, Option.bind_some]
    simp only [setSector_self]
    rw [hsync2, Option.bind_some, ideWrite_eq (by omega) (by omega), Option.bind_some]
    exact writeNewBlock_exists e _ _ hy
  · have ht := ht (by omega)
    rw [ideWrite_eq (by omega) (by omega), Option.bind_eq_bind, Option.bind_some]
    exact writeNewBlock_exists e _ _ hx

/-- The blocks that an insertion takes: the first block that is not full is a hole, or has a free
slot, or there is none. -/
def entryBlocks (d : Bytes) (ino : Inode) : ℕ :=
  match (List.range 140).find? fun p => ¬FullAt d ino p with
  | some p => if ref d ino p = 0 then holeBlocks p else 0
  | none => 0

theorem entryBlocks_first {d : Bytes} {p : ℕ} (hp : p < 140) (hbelow : ∀ q < p, FullAt d ino q)
    (hnot : ¬FullAt d ino p) : entryBlocks d ino = if ref d ino p = 0 then holeBlocks p else 0 := by
  have hfirst : ((List.range 140).find? fun p => ¬FullAt d ino p) = some p := by
    rw [List.find?_range_eq_some]
    simp only [decide_not, Bool.not_eq_eq_eq_not, Bool.not_true, decide_eq_false_iff_not,
      List.mem_range, Bool.not_not, decide_eq_true_eq]
    exact ⟨hnot, hp, hbelow⟩
  rw [entryBlocks, hfirst]

theorem entryBlocks_full {d : Bytes} (h : FullDir d ino) : entryBlocks d ino = 0 := by
  have hnone : ((List.range 140).find? fun p => ¬FullAt d ino p) = none := by
    simpa [FullDir] using h
  rw [entryBlocks, hnone]

theorem entryBlocks_le (d : Bytes) (ino : Inode) : entryBlocks d ino ≤ 2 := by
  rw [entryBlocks]
  split
  · split
    · rw [holeBlocks]
      split <;> omega
    · omega
  · omega

theorem entryBlocks_congr {d d' : Bytes} {ino' : Inode}
    (href : ∀ p < 140, ref d' ino' p = ref d ino p) (hslot : ∀ p < 140, ∀ i < 21,
      rawSlot d' (ref d' ino') p i = rawSlot d (ref d ino) p i) :
    entryBlocks d' ino' = entryBlocks d ino := by
  have hfull : ∀ p < 140, FullAt d' ino' p ↔ FullAt d ino p := by
    intro p hp
    rw [FullAt, FullAt, href p hp]
    refine and_congr_right fun _ => forall₂_congr fun i hi => ?_
    rw [hslot p hp i hi]
  by_cases hall : FullDir d ino
  · rw [entryBlocks_full hall, entryBlocks_full fun p hp => (hfull p hp).mpr (hall p hp)]
  · have hex : ∃ p, p < 140 ∧ ¬FullAt d ino p := by
      simpa [FullDir] using hall
    obtain ⟨hp, hnot⟩ := Nat.find_spec hex
    have hbelow : ∀ q < Nat.find hex, FullAt d ino q := fun q hq =>
      by_contra fun hn => Nat.find_min hex hq ⟨by omega, hn⟩
    rw [entryBlocks_first hp hbelow hnot, entryBlocks_first hp
      (fun q hq => (hfull q (by omega)).mpr (hbelow q hq)) fun hn => hnot ((hfull _ hp).mp hn),
      href _ hp]

private theorem syncBlocks_exists {ab : ℕ → ℕ} (e : DirEntry) (hon : OnDisk (ref v.disk ino))
    (hab : ∀ k < 140, ab k = ref v.disk ino k) (hfree : entryBlocks v.disk ino ≤ clearBlocks v) :
    ∀ (left idx : ℕ), left + idx = 140 → (∀ p < idx, FullAt v.disk ino p) →
      ∃ x, syncBlocks ab e ino v left idx = some x := by
  intro left
  induction left with
  | zero =>
    intro idx _ _
    exact ⟨_, rfl⟩
  | succ left ih =>
    intro idx hlen hbelow
    have hlba := hon idx (by omega)
    have htab : ino.iSectors 12 ≤ maxLba := by
      rw [← ref_table v.disk ino]
      exact hon 140 (by omega)
    unfold syncBlocks
    rw [hab idx (by omega)]
    split
    · rename_i hz
      rw [entryBlocks_first (by omega) hbelow fun hf => hf.1 hz, if_pos hz] at hfree
      obtain ⟨j, w, h⟩ := syncNewBlock_exists (p := idx) e hfree fun _ => htab
      exact ⟨_, h⟩
    · rename_i hz
      rw [ideRead_eq (by omega) (by omega), Option.bind_eq_bind, Option.bind_some]
      have hspec := freeEntry_spec (sectorBuf v.disk (ref v.disk ino idx)) dirEntrysPerSec 0
      split
      · rw [ideWrite_eq (by omega) (by omega)]
        exact ⟨_, rfl⟩
      · rename_i hnone
        refine ih (idx + 1) (by omega) fun p hp => ?_
        by_cases hpi : p = idx
        · subst p
          refine ⟨hz, fun i hi => ?_⟩
          rw [← word_sectorBuf hz hi (by omega)]
          exact hspec.2 hnone i (by omega) (by rw [dirEntrysPerSec, dirEntrySize]; omega)
        · exact hbelow p (by omega)

/-- An insertion that finds its blocks returns. -/
theorem syncDirEntry_returns (h : Directory v ino m) (e : DirEntry)
    (hfree : entryBlocks v.disk ino ≤ clearBlocks v) :
    ∃ ok j w, syncDirEntry e ino v = some (ok, j, w) := by
  have htab : ino.iSectors 12 ≤ maxLba := by
    rw [← ref_table v.disk ino]
    exact h.onDisk 140 (by omega)
  obtain ⟨ab, hab⟩ := loadAllBlocks_exists v.disk htab
  obtain ⟨⟨ok, j, w⟩, hx⟩ := syncBlocks_exists e h.onDisk
    (fun k hk => (loadAllBlocks_some hab hk).trans (ref_of_lt hk).symm) hfree 140 0 rfl
    (fun p hp => by omega)
  have hmod : ino.iSize % dirEntrySize = 0 := by
    rw [h.size]
    exact Nat.mul_mod_right _ _
  refine ⟨ok, j, w, ?_⟩
  rw [syncDirEntry, assert_pos hmod, Option.bind_eq_bind, Option.bind_some, hab,
    Option.bind_eq_bind, Option.bind_some, hx]

/-- With two free blocks an insertion returns. -/
theorem syncDirEntry_exists (h : Directory v ino m) (e : DirEntry) (hfree : 2 ≤ freeBlocks v) :
    ∃ ok j w, syncDirEntry e ino v = some (ok, j, w) :=
  syncDirEntry_returns h e ((entryBlocks_le _ _).trans (hfree.trans (freeBlocks_le v)))

/-- The scan of a block goes through when at most one entry has the number. -/
private theorem scanEntries_exists (io : Bytes) (hone : ∀ i < 21, ∀ j < 21, Plain (bufSlot io i) →
    Plain (bufSlot io j) → word (bufSlot io i) 16 = n → word (bufSlot io j) 16 = n → i = j) :
    ∀ (left idx : ℕ), idx + left = 21 → ∀ s : BlockScan,
    (∀ i, s.found = some i → i < idx ∧ Plain (bufSlot io i) ∧ word (bufSlot io i) 16 = n) →
    ∃ s', scanEntries n io left idx s = some s' := by
  intro left
  induction left with
  | zero =>
    intro idx _ s _
    exact ⟨s, rfl⟩
  | succ left ih =>
    intro idx hlen s hs
    have hs' : ∀ i, s.found = some i → i < idx + 1 ∧ Plain (bufSlot io i) ∧
        word (bufSlot io i) 16 = n := fun i hi => ⟨by have := (hs i hi).1; omega, (hs i hi).2⟩
    unfold scanEntries
    rw [word_bufSlot io idx (by omega), strcmp_bufSlot (by decide), strcmp_bufSlot (by decide),
      word_bufSlot io idx (by omega)]
    split
    · rename_i hlive
      split
      · exact ih (idx + 1) (by omega) _ hs'
      split
      · exact ih (idx + 1) (by omega) _ hs'
      rename_i hd hdd
      have hp : Plain (bufSlot io idx) := ⟨hlive, by simpa using hd, by simpa using hdd⟩
      split
      · rename_i hno
        have hnone : s.found = none := by
          cases hf : s.found with
          | none => rfl
          | some i =>
            obtain ⟨h1, h2, h3⟩ := hs i hf
            have := hone i (by omega) idx (by omega) h2 hp h3 hno
            omega
        rw [assert_pos hnone, Option.bind_eq_bind, Option.bind_some]
        refine ih (idx + 1) (by omega) _ fun i hi => ?_
        obtain rfl := Option.some.inj hi
        exact ⟨by omega, hp, hno⟩
      · exact ih (idx + 1) (by omega) _ hs'
    · exact ih (idx + 1) (by omega) _ hs'

theorem releaseBlock_exists {x : ℕ} (w : Volume part) (hx : InUse v x) :
    ∃ w', releaseBlock x w = some w' := by
  obtain ⟨i, rfl, hi, -⟩ := hx
  rw [v.block_len] at hi
  have hi' : i < 8 * w.blockBitmap.btmpBytesLen := by rw [w.block_len]; exact hi
  rw [releaseBlock, blockBitmapIdx_alloc hi']
  exact ⟨_, bitmapSync_block_eq (v := w.setBlockBit i false) hi'⟩

private theorem dropBlock_exists {p : ℕ} {ab : ℕ → ℕ} (ho : Owns v (ref v.disk ino))
    (hon : OnDisk (ref v.disk ino)) (hab : ∀ k < 140, ab k = ref v.disk ino k) (hp : p < 140)
    (hz : ref v.disk ino p ≠ 0) : ∃ x, dropBlock p ab ino v = some x := by
  obtain ⟨v1, h1⟩ := releaseBlock_exists v (ho.held p (by omega) hz)
  rw [dropBlock, hab p hp, h1, Option.bind_eq_bind, Option.bind_some]
  split
  · exact ⟨_, rfl⟩
  rename_i h12
  have hpos : indirectBlocks ab ≥ 1 := by
    refine List.length_pos_of_mem (a := p - 12) ?_
    simp only [ne_eq, decide_not, List.mem_filter, List.mem_range, Bool.not_eq_eq_eq_not,
      Bool.not_true, decide_eq_false_iff_not]
    rw [show 12 + (p - 12) = p by omega, hab p hp]
    exact ⟨by omega, hz⟩
  have ht : ref v.disk ino 140 ≠ 0 := by
    rw [ref_table]
    intro h0
    apply hz
    rw [ref_indirect (by omega) hp, if_pos h0]
  have htd := hon 140 (by omega)
  rw [ref_table] at htd
  rw [assert_pos hpos, Option.bind_eq_bind, Option.bind_some]
  split
  · rw [ideWrite_eq (by omega) (by omega)]
    exact ⟨_, rfl⟩
  · obtain ⟨v2, h2⟩ := releaseBlock_exists v1 (ho.held 140 (by omega) ht)
    rw [ref_table] at h2
    rw [h2]
    exact ⟨_, rfl⟩

private theorem deleteBlocks_exists {ab : ℕ → ℕ} (h : Directory v ino m)
    (hab : ∀ k < 140, ab k = ref v.disk ino k) :
    ∀ (left idx : ℕ), left + idx = 140 → ∃ x, deleteBlocks n ab ino v left idx = some x := by
  intro left
  induction left with
  | zero =>
    intro idx _
    exact ⟨_, rfl⟩
  | succ left ih =>
    intro idx hlen
    have hlba := h.onDisk idx (by omega)
    unfold deleteBlocks
    rw [hab idx (by omega)]
    split
    · exact ih (idx + 1) (by omega)
    rename_i hz
    rw [ideRead_eq (by omega) (by omega), Option.bind_eq_bind, Option.bind_some]
    obtain ⟨s, hs⟩ := scanEntries_exists (n := n) (patch zeroes 0 (512 * 1)
        (window v.disk (512 * ref v.disk ino idx))) (by
      intro i hi j hj pi pj hni hnj
      rw [bufSlot_sectorBuf hz hi] at pi hni
      rw [bufSlot_sectorBuf hz hj] at pj hnj
      obtain ⟨k, ⟨n1, x⟩, ht, hk1, hk2⟩ := (plain_iff h.slots (by omega) hi).mp pi
      obtain ⟨k', ⟨n2, y⟩, ht', hk1', hk2'⟩ := (plain_iff h.slots (by omega) hj).mp pj
      have e1 := ht
      have e2 := ht'
      rw [dirTable_live (by omega) hi pi.live] at e1
      rw [dirTable_live (by omega) hj pj.live] at e2
      have f1 := (Prod.mk.inj (Prod.mk.inj (Option.some.inj e1)).2).1
      have f2 := (Prod.mk.inj (Prod.mk.inj (Option.some.inj e2)).2).1
      rw [hni] at f1
      rw [hnj] at f2
      subst f1 f2
      exact (Prod.mk.inj (h.numbers _ _ k k' _ x y ht ht' hk1 hk2 hk1' hk2')).2)
      dirEntrysPerSec 0 rfl ⟨none, 0, false⟩ (fun i hi => by cases hi)
    rw [hs, Option.bind_eq_bind, Option.bind_some]
    have hscan := scanEntries_start hs
    split
    · exact ih (idx + 1) (by omega)
    rename_i i hf
    obtain ⟨hi21, hplain, -, hcnt⟩ := hscan.found i hf
    have hrem : ∃ x, removeEntry s i idx ab (patch zeroes 0 (512 * 1)
        (window v.disk (512 * ref v.disk ino idx))) ino v = some x := by
      unfold removeEntry
      split
      · exact dropBlock_exists h.owns h.onDisk hab (by omega) hz
      · rw [hab idx (by omega), ideWrite_eq (by omega) (by omega)]
        exact ⟨_, rfl⟩
    obtain ⟨⟨j, w⟩, hjw⟩ := hrem
    rw [assert_pos hcnt, Option.bind_eq_bind, Option.bind_some, hjw, Option.bind_eq_bind,
      Option.bind_some]
    obtain ⟨-, hhead, -⟩ := removeEntry_some h.owns hab (by omega) hz hscan hf hjw
    have hsize : j.iSize ≥ dirEntrySize := by
      rw [bufSlot_sectorBuf hz hi21] at hplain
      have hlive := live_drop (dirTable_within v.disk (ref v.disk ino)).finite
        (dirTable_live (by omega) hi21 hplain.live)
      rw [hhead.size, h.size, dirEntrySize]
      omega
    simp only
    rw [assert_pos hsize, Option.bind_some, inodeSync_eq]
    exact ⟨_, rfl⟩

/-- A deletion returns. -/
theorem deleteDirEntry_exists (h : Directory v ino m) (n : ℕ) :
    ∃ ok j w, deleteDirEntry ino n v = some (ok, j, w) := by
  have htab : ino.iSectors 12 ≤ maxLba := by
    rw [← ref_table v.disk ino]
    exact h.onDisk 140 (by omega)
  obtain ⟨ab, hab⟩ := loadAllBlocks_exists v.disk htab
  obtain ⟨⟨ok, j, w⟩, hx⟩ := deleteBlocks_exists (n := n) h
    (fun k hk => (loadAllBlocks_some hab hk).trans (ref_of_lt hk).symm) 140 0 rfl
  refine ⟨ok, j, w, ?_⟩
  rw [deleteDirEntry, hab, Option.bind_eq_bind, Option.bind_some, hx]

/-- The map of a new directory. -/
def dotMap (own parent : ℕ) : NameMap := fun k =>
  if k = dot then some (own, FileType.directory.code)
  else if k = dotdot then some (parent, FileType.directory.code) else none

/-- One block with `.` and `..` in front and nothing behind them. -/
structure NewDirectory (v : Volume part) (ino : Inode) (own parent : ℕ) : Prop where
  own_lt : own < 2 ^ 32
  parent_lt : parent < 2 ^ 32
  owns : Owns v (ref v.disk ino)
  onDisk : OnDisk (ref v.disk ino)
  size : ino.iSize = 2 * dirEntrySize
  first : ref v.disk ino 0 ≠ 0
  alone : ∀ p, 0 < p → p < 141 → ref v.disk ino p = 0
  dots : ∀ i < 21, rawSlot v.disk (ref v.disk ino) 0 i =
    if i = 0 then clip (DirEntry.toBytes ⟨dot, own, FileType.directory.code⟩)
    else if i = 1 then clip (DirEntry.toBytes ⟨dotdot, parent, FileType.directory.code⟩)
    else zeroes

/-- An inode whose only block has just been written as a new directory. -/
theorem newDirectory_of_block {y own parent : ℕ} (ho : own < 2 ^ 32) (hp : parent < 2 ^ 32)
    (hy : InUse v y) (hlba : y ≤ maxLba) (hsize : ino.iSize = 2 * dirEntrySize)
    (hsec : ∀ k < 13, ino.iSectors k = if k = 0 then y else 0)
    (hd : ∀ k < 512, v.disk (512 * y + k) = newDirBlock own parent k) :
    NewDirectory v ino own parent := by
  have hy0 : y ≠ 0 := by
    have := hy.data
    omega
  have h0 : ref v.disk ino 0 = y := by
    rw [ref_single hsec (by omega), if_pos rfl]
  have halone : ∀ p, 0 < p → p < 141 → ref v.disk ino p = 0 := by
    intro p h1 h2
    rw [ref_single hsec h2, if_neg (by omega)]
  have hzero : ∀ p < 141, ref v.disk ino p ≠ 0 → p = 0 := by
    intro p hp hz
    by_contra hne
    exact hz (halone p (by omega) hp)
  refine ⟨ho, hp, ⟨fun p hp q hq hz he => ?_, fun p hp hz => ?_⟩, fun p hp => ?_, hsize,
    by rw [h0]; exact hy0, halone, fun i hi => ?_⟩
  · rw [hzero p hp hz, hzero q hq (by rw [← he]; exact hz)]
  · rw [hzero p hp hz, h0]
    exact hy
  · by_cases hz : ref v.disk ino p = 0
    · rw [hz]
      exact Nat.zero_le _
    · rw [hzero p hp hz, h0]
      exact hlba
  · rw [rawSlot_present (by rw [h0]; exact hy0), h0]
    by_cases hi0 : i = 0
    · subst i
      rw [if_pos rfl]
      funext k
      simp only [clip, window, Nat.mul_zero, Nat.add_zero]
      split
      · rw [hd k (by omega), newDirBlock, dirEntrySize, patch_out (by omega), patch_in (by omega),
          Nat.sub_zero]
      · rfl
    rw [if_neg hi0]
    by_cases hi1 : i = 1
    · subst i
      rw [if_pos rfl]
      funext k
      simp only [clip, window, Nat.mul_one, Nat.add_assoc]
      split
      · rw [hd (24 + k) (by omega), newDirBlock, dirEntrySize, patch_in (by omega),
          Nat.add_sub_cancel_left]
      · rfl
    · rw [if_neg hi1]
      funext k
      simp only [clip, window, Nat.add_assoc]
      split
      · rw [hd (24 * i + k) (by omega), newDirBlock, dirEntrySize, patch_out (by omega),
          patch_out (by omega)]
        rfl
      · rfl

theorem validName_dot : ValidName dot := ⟨by decide, by decide, by decide⟩
theorem validName_dotdot : ValidName dotdot := ⟨by decide, by decide, by decide⟩

theorem entryOf_dot {a : ℕ} (ha : a < 2 ^ 32) :
    entryOf (clip (DirEntry.toBytes ⟨dot, a, FileType.directory.code⟩)) =
      some (dot, a, FileType.directory.code) :=
  entryOf_toBytes validName_dot ha Nat.zero_lt_two (show 2 < 2 ^ 32 by decide)

theorem entryOf_dotdot {a : ℕ} (ha : a < 2 ^ 32) :
    entryOf (clip (DirEntry.toBytes ⟨dotdot, a, FileType.directory.code⟩)) =
      some (dotdot, a, FileType.directory.code) :=
  entryOf_toBytes validName_dotdot ha Nat.zero_lt_two (show 2 < 2 ^ 32 by decide)

private theorem isLive_of_entry {b : Bytes} {x : List Byte × ℕ × ℕ} (h : entryOf b = some x) :
    IsLive b := by
  intro hz
  rw [entryOf, if_pos hz] at h
  cases h

theorem NewDirectory.directory {own parent : ℕ} (h : NewDirectory v ino own parent) :
    Directory v ino (dotMap own parent) := by
  have habs : ∀ p i, 0 < p → p < 140 → rawSlot v.disk (ref v.disk ino) p i = zeroes :=
    fun p i h1 h2 => rawSlot_absent (h.alone p h1 (by omega)) i
  have h00 : dirTable v.disk (ref v.disk ino) (0, 0) =
      some (dot, own, FileType.directory.code) := by
    rw [dirTable, if_pos ⟨by decide, by decide⟩, h.dots 0 (by decide), if_pos rfl]
    exact entryOf_dot h.own_lt
  have h01 : dirTable v.disk (ref v.disk ino) (0, 1) =
      some (dotdot, parent, FileType.directory.code) := by
    rw [dirTable, if_pos ⟨by decide, by decide⟩, h.dots 1 (by decide), if_neg (by decide), if_pos rfl]
    exact entryOf_dotdot h.parent_lt
  have htab : dirTable v.disk (ref v.disk ino) =
      Function.update (Function.update (fun _ => none) (0, 0)
        (some (dot, own, FileType.directory.code))) (0, 1)
        (some (dotdot, parent, FileType.directory.code)) := by
    funext s
    by_cases hs1 : s = (0, 1)
    · rw [hs1, Function.update_self, h01]
    rw [Function.update_of_ne hs1]
    by_cases hs0 : s = (0, 0)
    · rw [hs0, Function.update_self, h00]
    rw [Function.update_of_ne hs0]
    obtain ⟨p, i⟩ := s
    rw [dirTable]
    by_cases hin : p < 140 ∧ i < 21
    · rw [if_pos hin]
      have hz : rawSlot v.disk (ref v.disk ino) p i = zeroes := by
        by_cases hp : p = 0
        · subst p
          rw [h.dots i hin.2, if_neg (fun hi => hs0 (by rw [hi])),
            if_neg (fun hi => hs1 (by rw [hi]))]
        · exact habs p i (by omega) hin.1
      simp only
      rw [hz, entryOf, word_zeroes, if_pos rfl]
    · rw [if_neg hin]
  have hempty : Represents (fun _ => none : Table (ℕ × ℕ) (List Byte) (ℕ × ℕ)) (fun _ => none) := by
    intro k x
    simp
  have hmap : dotMap own parent = Function.update (Function.update (fun _ => none) dot
      (some (own, FileType.directory.code))) dotdot (some (parent, FileType.directory.code)) := by
    funext k
    rw [dotMap]
    by_cases hk : k = dotdot
    · rw [hk, if_neg (by decide), if_pos rfl, Function.update_self]
    · rw [Function.update_of_ne hk, if_neg hk]
      by_cases hk' : k = dot
      · rw [if_pos hk', hk', Function.update_self]
      · rw [if_neg hk', Function.update_of_ne hk']
  have hput := represents_put (s := (0, 0)) (v := (own, FileType.directory.code)) hempty rfl
    (k := dot) rfl
  have hrep := represents_put (s := (0, 1)) (v := (parent, FileType.directory.code)) hput
    (by rw [Function.update_of_ne (by decide)]) (k := dotdot)
    (by rw [Function.update_of_ne (by decide)])
  have hkey0 : Keyed (fun _ => none : Table (ℕ × ℕ) (List Byte) (ℕ × ℕ)) :=
    fun _ _ _ _ _ hs => by cases hs
  have hkey := keyed_put (s := (0, 1)) (v := (parent, FileType.directory.code))
    (keyed_put (s := (0, 0)) (k := dot) (v := (own, FileType.directory.code)) hkey0
      (fun _ _ hs => by cases hs)) (k := dotdot) (by
      rw [← hput.none_iff, Function.update_of_ne (by decide)])
  have hcases : ∀ s k x, dirTable v.disk (ref v.disk ino) s = some (k, x) → k = dot ∨ k = dotdot := by
    intro s k x hs
    rw [htab] at hs
    by_cases hs1 : s = (0, 1)
    · rw [hs1, Function.update_self] at hs
      exact Or.inr (Prod.mk.inj (Option.some.inj hs)).1.symm
    rw [Function.update_of_ne hs1] at hs
    by_cases hs0 : s = (0, 0)
    · rw [hs0, Function.update_self] at hs
      exact Or.inl (Prod.mk.inj (Option.some.inj hs)).1.symm
    rw [Function.update_of_ne hs0] at hs
    cases hs
  refine ⟨h.owns, h.onDisk, ?_, ?_, ?_, ⟨_, h00⟩, ⟨_, h01⟩, ?_, ?_, ?_⟩
  · have hfin : {s | (fun _ => none : Table (ℕ × ℕ) (List Byte) (ℕ × ℕ)) s ≠ none}.Finite := by
      simp
    have h1 := live_put (s := (0, 0)) (k := dot) (v := (own, FileType.directory.code)) hfin rfl
    have hfin1 : {s | Function.update (fun _ => none : Table (ℕ × ℕ) (List Byte) (ℕ × ℕ)) (0, 0)
        (some (dot, own, FileType.directory.code)) s ≠ none}.Finite := by
      refine (Set.finite_singleton ((0, 0) : ℕ × ℕ)).subset fun s hs => ?_
      by_contra hne
      exact hs (by rw [Function.update_of_ne hne])
    have h2 := live_put (s := (0, 1)) (k := dotdot) (v := (parent, FileType.directory.code)) hfin1
      (by rw [Function.update_of_ne (by decide)])
    have h0 : live (fun _ => none : Table (ℕ × ℕ) (List Byte) (ℕ × ℕ)) = 0 := by
      simp [live]
    rw [h.size, htab, h2, h1, h0, dirEntrySize]
  · intro p hp i hi hl
    by_cases hp0 : p = 0
    · subst p
      rw [h.dots i hi] at hl ⊢
      by_cases hi0 : i = 0
      · rw [if_pos hi0] at hl
        exact absurd (isLive_of_entry (entryOf_dot h.own_lt)) hl
      · rw [if_neg hi0] at hl ⊢
        by_cases hi1 : i = 1
        · rw [if_pos hi1] at hl
          exact absurd (isLive_of_entry (entryOf_dotdot h.parent_lt)) hl
        · rw [if_neg hi1]
    · exact habs p i (by omega) hp
  · intro s k x hs
    rcases hcases s k x hs with rfl | rfl
    · exact validName_dot
    · exact validName_dotdot
  · rw [htab]
    exact hkey
  · intro s s' k k' a x y hs _ hk1 hk2
    rcases hcases s k _ hs with hk | hk
    · exact absurd hk hk1
    · exact absurd hk hk2
  · rw [htab, hmap]
    exact hrep

/-- Completed calls on one directory and the map they leave behind. -/
inductive DirRun : Volume part → Inode → NameMap → Prop where
  | start {v : Volume part} {ino : Inode} {own parent : ℕ}
      (h : NewDirectory v ino own parent) : DirRun v ino (dotMap own parent)
  | sync {v v' : Volume part} {ino ino' : Inode} {m : NameMap} {e : DirEntry} {ok : Bool}
      (h : DirRun v ino m) (he : Insertable m e) (hs : syncDirEntry e ino v = some (ok, ino', v')) :
      DirRun v' ino' (if ok then Function.update m e.filename (some (e.iNo, e.fType)) else m)
  | delete {v v' : Volume part} {ino ino' : Inode} {m : NameMap} {n : ℕ} {ok : Bool}
      (h : DirRun v ino m) (hd : deleteDirEntry ino n v = some (ok, ino', v')) :
      DirRun v' ino' (eraseNumber m n)

/-- A deletion that returns has taken the number out of the map. -/
theorem deleteDirEntry_directory {ok : Bool} (h : Directory v ino m)
    (hd : deleteDirEntry ino n v = some (ok, ino', v')) : Directory v' ino' (eraseNumber m n) := by
  rcases deleteDirEntry_some hd h.owns with ⟨rfl, rfl, rfl, hn⟩ | ⟨rfl, v1, hdel, rfl⟩
  · rw [eraseNumber_absent h hn]
    exact h
  · exact (h.delete hdel).synced

theorem dirRun_directory (h : DirRun v ino m) : Directory v ino m := by
  induction h with
  | start h => exact h.directory
  | sync _ he hs ih =>
    rcases syncDirEntry_some hs ih.owns with ⟨rfl, rfl, rfl, -⟩ | ⟨rfl, hi⟩
    · exact ih
    · exact ih.insert he hi
  | delete _ hd ih => exact deleteDirEntry_directory ih hd

section Filling

variable {e : DirEntry} {ok : Bool}

private theorem dirTable_occupied {d : Bytes} {r : ℕ → ℕ} {p i : ℕ} (hp : p < 140) (hi : i < 21) :
    dirTable d r (p, i) ≠ none ↔ IsLive (rawSlot d r p i) := by
  constructor
  · intro h hl
    apply h
    rw [dirTable, if_pos ⟨hp, hi⟩, entryOf, if_pos hl]
  · intro h
    rw [dirTable_live hp hi h]
    exact Option.some_ne_none _

/-- A directory is full when it counts as many entries as it has slots. -/
theorem fullDir_iff (d : Bytes) (ino : Inode) :
    FullDir d ino ↔ live (dirTable d (ref d ino)) = 140 * 21 := by
  rw [(dirTable_within d (ref d ino)).live_eq_iff]
  constructor
  · intro hfull p hp i hi
    exact (dirTable_occupied hp hi).mpr ((hfull p hp).2 i hi)
  · intro hall p hp
    have hlive := fun i hi => (dirTable_occupied hp hi).mp (hall p hp i hi)
    refine ⟨fun hz => ?_, hlive⟩
    apply hlive 0 (by omega)
    rw [rawSlot_absent hz, word_zeroes]

theorem full_iff_size (h : Directory v ino m) :
    FullDir v.disk ino ↔ ino.iSize = 24 * (140 * 21) := by
  rw [fullDir_iff, h.size]
  omega

/-- An insertion that returns has put the entry in just when the directory was not full. -/
theorem syncDirEntry_ok_iff (h : Directory v ino m) (hs : syncDirEntry e ino v = some (ok, ino', v')) :
    ok = true ↔ ino.iSize ≠ 24 * (140 * 21) := by
  rw [ne_eq, ← full_iff_size h]
  rcases syncDirEntry_full hs with ⟨rfl, -, -, hfull⟩ | ⟨rfl, hroom⟩
  · simp [hfull]
  · simp [hroom]

theorem syncDirEntry_size (h : Directory v ino m)
    (hs : syncDirEntry e ino v = some (true, ino', v')) : ino'.iSize = ino.iSize + 24 := by
  rcases syncDirEntry_some hs h.owns with ⟨hok, -⟩ | ⟨-, hi⟩
  · cases hok
  have hle := (dirTable_within v.disk (ref v.disk ino)).live_le
  have hsize := h.size
  have hgrown := hi.head.size
  simp only [grow, dirEntrySize] at hgrown
  omega

theorem deleteDirEntry_size (h : Directory v ino m)
    (hd : deleteDirEntry ino n v = some (true, ino', v')) : ino'.iSize + 24 = ino.iSize := by
  rcases deleteDirEntry_some hd h.owns with ⟨hok, -⟩ | ⟨-, v1, hdel, -⟩
  · cases hok
  have hle := hdel.size
  have hshrunk := hdel.head.size
  simp only [shrink, dirEntrySize] at hshrunk
  omega

/-- A deletion that returns has found the number just when a name other than `.` and `..` has it. -/
theorem deleteDirEntry_found (h : Directory v ino m) {k : List Byte} {x : ℕ} (hk : m k = some (n, x))
    (hk1 : k ≠ dot) (hk2 : k ≠ dotdot) (hd : deleteDirEntry ino n v = some (ok, ino', v')) :
    ok = true := by
  rcases deleteDirEntry_some hd h.owns with ⟨-, -, -, habsent⟩ | ⟨hok, -⟩
  · have hkept := congrFun (eraseNumber_absent h habsent) k
    rw [eraseNumber, if_pos ⟨hk1, hk2, by rw [hk]; rfl⟩, hk] at hkept
    cases hkept
  · exact hok

private theorem blockBitmapAlloc_takes {w w' : Volume part} {r : Option ℕ}
    (h : blockBitmapAlloc w = some (r, w')) : freeBlocks w ≤ freeBlocks w' + 1 := by
  by_cases hpos : 0 < freeBlocks w
  · obtain ⟨k, hal, -, -, hle⟩ := alloc_free hpos
    rw [h] at hal
    rw [(Prod.mk.inj (Option.some.inj hal)).2]
    exact hle
  · omega

private theorem bitmapSync_keeps {w w' : Volume part} {i : ℕ}
    (h : bitmapSync w i .blockBitmap = some w') : freeBlocks w' = freeBlocks w := by
  rw [bitmapSync_block_some h, freeBlocks_withDisk]

private theorem writeNewBlock_keeps {w w' : Volume part} {i i' : Inode} {lba : ℕ}
    (h : writeNewBlock lba e i w = some (ok, i', w')) : freeBlocks w' = freeBlocks w := by
  simp only [writeNewBlock, bind_some_iff, Option.pure_def, Option.some.injEq, Prod.mk.injEq] at h
  obtain ⟨d, -, -, -, rfl⟩ := h
  exact freeBlocks_withDisk _ _

private theorem syncNewBlock_takes {p : ℕ} {ab : ℕ → ℕ}
    (h : syncNewBlock p ab e ino v = some (ok, ino', v')) : freeBlocks v ≤ freeBlocks v' + 2 := by
  rw [syncNewBlock, bind_some_iff] at h
  obtain ⟨⟨r, v₁⟩, hal, h⟩ := h
  have h₁ := blockBitmapAlloc_takes hal
  obtain ⟨i, rfl, -⟩ := blockBitmapAlloc_some hal
  simp only [bind_some_iff] at h
  obtain ⟨v₂, hsync, h⟩ := h
  have h₂ := bitmapSync_keeps hsync
  split at h
  · have := writeNewBlock_keeps h
    omega
  split at h
  · rw [bind_some_iff] at h
    obtain ⟨⟨r', v₃⟩, hal', h⟩ := h
    have h₃ := blockBitmapAlloc_takes hal'
    obtain ⟨i', rfl, -⟩ := blockBitmapAlloc_some hal'
    simp only [bind_some_iff] at h
    obtain ⟨v₄, hsync', d, -, h⟩ := h
    have h₄ := bitmapSync_keeps hsync'
    have h₅ := writeNewBlock_keeps h
    rw [freeBlocks_withDisk] at h₅
    omega
  · rw [bind_some_iff] at h
    obtain ⟨d, -, h⟩ := h
    have h₅ := writeNewBlock_keeps h
    rw [freeBlocks_withDisk] at h₅
    omega

private theorem blockBitmapAlloc_clear {w w' : Volume part} {x : ℕ}
    (h : blockBitmapAlloc w = some (some x, w')) (hx : x ≤ maxLba) :
    clearBlocks w' + 1 = clearBlocks w := by
  obtain ⟨i, hi, rfl, hlow⟩ := blockBitmapAlloc_some h
  obtain rfl := Option.some.inj hi
  exact clearBlocks_take hlow hx

private theorem bitmapSync_clear {w w' : Volume part} {i : ℕ}
    (h : bitmapSync w i .blockBitmap = some w') : clearBlocks w' = clearBlocks w := by
  rw [bitmapSync_block_some h, clearBlocks_withDisk]

private theorem writeNewBlock_lba {w w' : Volume part} {i i' : Inode} {lba : ℕ}
    (h : writeNewBlock lba e i w = some (ok, i', w')) : lba ≤ maxLba := by
  simp only [writeNewBlock, bind_some_iff] at h
  obtain ⟨d, hd, -⟩ := h
  have := (ideWrite_some hd).2
  simp only [maxLba] at this ⊢
  omega

private theorem syncNewBlock_blocks {p : ℕ} {ab : ℕ → ℕ}
    (h : syncNewBlock p ab e ino v = some (ok, ino', v')) : holeBlocks p ≤ clearBlocks v := by
  rw [syncNewBlock, bind_some_iff] at h
  obtain ⟨⟨r, v₁⟩, hal, h⟩ := h
  obtain ⟨i, rfl, -⟩ := blockBitmapAlloc_some hal
  simp only [bind_some_iff] at h
  obtain ⟨v₂, hsync, h⟩ := h
  have h₂ := bitmapSync_clear hsync
  rw [holeBlocks]
  split at h
  · have h₁ := blockBitmapAlloc_clear hal (writeNewBlock_lba h)
    rw [if_neg (by omega)]
    omega
  split at h
  · rename_i h12
    rw [bind_some_iff] at h
    obtain ⟨⟨r', v₃⟩, hal', h⟩ := h
    obtain ⟨i', rfl, -⟩ := blockBitmapAlloc_some hal'
    simp only [bind_some_iff, setSector_self] at h
    obtain ⟨v₄, -, d, hd, h⟩ := h
    have hlba := (ideWrite_some hd).2
    have h₁ := blockBitmapAlloc_clear hal (by simp only [maxLba] at hlba ⊢; omega)
    have h₃ := blockBitmapAlloc_clear hal' (writeNewBlock_lba h)
    rw [if_pos h12]
    omega
  · rename_i h12
    rw [bind_some_iff] at h
    obtain ⟨d, -, h⟩ := h
    have h₁ := blockBitmapAlloc_clear hal (writeNewBlock_lba h)
    rw [if_neg h12]
    omega

/-- An insertion that returns has found its blocks. -/
theorem syncDirEntry_blocks (h : syncDirEntry e ino v = some (ok, ino', v')) :
    entryBlocks v.disk ino ≤ clearBlocks v := by
  rcases syncDirEntry_cases h with
    ⟨-, -, -, hfull⟩ | ⟨p, hp, hbelow, ⟨hz, ab, -, hnew⟩ | ⟨hz, -, -, i, hi, hw, -⟩⟩
  · rw [entryBlocks_full hfull]
    exact Nat.zero_le _
  · rw [entryBlocks_first hp hbelow fun hf => hf.1 hz, if_pos hz]
    exact syncNewBlock_blocks hnew
  · rw [entryBlocks_first hp hbelow fun hf => hf.2 i hi hw, if_neg hz]
    exact Nat.zero_le _

/-- An insertion returns just when the blocks it takes are there. -/
theorem syncDirEntry_returns_iff (h : Directory v ino m) (e : DirEntry) :
    (∃ r, syncDirEntry e ino v = some r) ↔ entryBlocks v.disk ino ≤ clearBlocks v := by
  constructor
  · rintro ⟨⟨ok, j, w⟩, hs⟩
    exact syncDirEntry_blocks hs
  · intro hfree
    obtain ⟨ok, j, w, hs⟩ := syncDirEntry_returns h e hfree
    exact ⟨_, hs⟩

/-- An insertion takes two blocks at most. -/
theorem syncDirEntry_takes (h : syncDirEntry e ino v = some (ok, ino', v')) :
    freeBlocks v ≤ freeBlocks v' + 2 := by
  rcases syncDirEntry_cases h with ⟨-, -, rfl, -⟩ | ⟨p, -, -, ⟨-, ab, -, hnew⟩ | ⟨-, -, -, i, -, -, rfl⟩⟩
  · omega
  · exact syncNewBlock_takes hnew
  · rw [freeBlocks_withDisk]
    omega


/-- Two letters for each number below ten thousand. -/
def nameOf (k : ℕ) : List Byte := [BitVec.ofNat 8 (65 + k % 100), BitVec.ofNat 8 (65 + k / 100)]

def nameNo : List Byte → Option ℕ
  | [a, b] => if 65 ≤ a.toNat ∧ a.toNat < 165 ∧ 65 ≤ b.toNat ∧ b.toNat < 165 then
      some (a.toNat - 65 + 100 * (b.toNat - 65)) else none
  | _ => none

theorem nameNo_nameOf {k : ℕ} (hk : k < 10000) : nameNo (nameOf k) = some k := by
  simp only [nameOf, nameNo, BitVec.toNat_ofNat]
  rw [if_pos (by omega)]
  congr 1
  omega

theorem nameOf_nameNo {name : List Byte} {k : ℕ} (h : nameNo name = some k) : name = nameOf k := by
  unfold nameNo at h
  split at h
  · rename_i a b
    split at h
    · rename_i hab
      obtain rfl := Option.some.inj h
      have ha : BitVec.ofNat 8 (65 + (a.toNat - 65 + 100 * (b.toNat - 65)) % 100) = a := by
        apply BitVec.eq_of_toNat_eq
        rw [BitVec.toNat_ofNat]
        omega
      have hb : BitVec.ofNat 8 (65 + (a.toNat - 65 + 100 * (b.toNat - 65)) / 100) = b := by
        apply BitVec.eq_of_toNat_eq
        rw [BitVec.toNat_ofNat]
        omega
      rw [nameOf, ha, hb]
    · cases h
  · cases h

theorem nameOf_inj {j k : ℕ} (hj : j < 10000) (hk : k < 10000) (h : nameOf j = nameOf k) : j = k := by
  have := nameNo_nameOf hj
  rw [h, nameNo_nameOf hk] at this
  exact (Option.some.inj this).symm

theorem nameOf_ne_dot {k : ℕ} (hk : k < 10000) : nameOf k ≠ dot ∧ nameOf k ≠ dotdot := by
  constructor
  all_goals
    intro h
    have hno := nameNo_nameOf hk
    rw [h] at hno
    revert hno
    simp [dot, dotdot, nameNo]

theorem nameOf_valid {k : ℕ} (hk : k < 10000) : ValidName (nameOf k) := by
  have hletter : ∀ n < 100, (0 : Byte) ≠ BitVec.ofNat 8 (65 + n) := by
    intro n hn h
    have hnat := congrArg BitVec.toNat h
    rw [BitVec.toNat_ofNat] at hnat
    simp at hnat
    omega
  refine ⟨by simp [nameOf], by simp [nameOf], ?_⟩
  simp only [nameOf, List.mem_cons, List.not_mem_nil, or_false, not_or]
  exact ⟨hletter _ (by omega), hletter _ (by omega)⟩

/-- `.`, `..` and a file of number `k + 1` for each `k` from `lo` up to `hi`. -/
def listed (lo hi : ℕ) : NameMap := fun name =>
  match nameNo name with
  | some k => if lo ≤ k ∧ k < hi then some (k + 1, FileType.regular.code) else none
  | none => dotMap 0 0 name

theorem listed_nameOf {lo hi k : ℕ} (hk : k < 10000) :
    listed lo hi (nameOf k) = if lo ≤ k ∧ k < hi then some (k + 1, FileType.regular.code) else none := by
  simp only [listed, nameNo_nameOf hk]

theorem listed_empty : listed 0 0 = dotMap 0 0 := by
  funext name
  rw [listed]
  split
  · rename_i k hk
    obtain rfl := nameOf_nameNo hk
    have hlt : k < 10000 := by
      unfold nameNo at hk
      split at hk
      · split at hk
        · have := Option.some.inj hk
          omega
        · cases hk
      · cases hk
    rw [if_neg (by omega), dotMap, if_neg (nameOf_ne_dot hlt).1, if_neg (nameOf_ne_dot hlt).2]
  · rfl

theorem listed_next {lo hi : ℕ} (hle : lo ≤ hi) (hhi : hi < 10000) :
    Function.update (listed lo hi) (nameOf hi) (some (hi + 1, FileType.regular.code)) =
      listed lo (hi + 1) := by
  funext name
  by_cases hname : name = nameOf hi
  · rw [hname, Function.update_self, listed_nameOf hhi, if_pos (by omega)]
  rw [Function.update_of_ne hname]
  simp only [listed]
  split
  · rename_i k hk
    have hne : k ≠ hi := by
      rintro rfl
      exact hname (nameOf_nameNo hk)
    have hiff : (lo ≤ k ∧ k < hi) ↔ (lo ≤ k ∧ k < hi + 1) := by omega
    simp only [hiff]
  · rfl

theorem listed_number {lo hi n x : ℕ} {name : List Byte} (h : listed lo hi name = some (n, x))
    (h1 : name ≠ dot) (h2 : name ≠ dotdot) : ∃ k, name = nameOf k ∧ n = k + 1 := by
  simp only [listed] at h
  split at h
  · rename_i k hk
    split at h
    · exact ⟨k, nameOf_nameNo hk, (Prod.mk.inj (Option.some.inj h)).1.symm⟩
    · cases h
  · rw [dotMap, if_neg h1, if_neg h2] at h
    cases h

theorem eraseNumber_listed {lo hi : ℕ} (hlt : lo < hi) (hlo : lo < 10000) :
    eraseNumber (listed lo hi) (lo + 1) = listed (lo + 1) hi := by
  funext name
  by_cases hname : name = nameOf lo
  · have hdots := nameOf_ne_dot hlo
    rw [hname, listed_nameOf hlo, if_neg (by omega), eraseNumber, if_pos]
    refine ⟨hdots.1, hdots.2, ?_⟩
    rw [listed_nameOf hlo, if_pos ⟨le_rfl, hlt⟩]
    rfl
  rw [eraseNumber, if_neg]
  · simp only [listed]
    split
    · rename_i k hk
      have hne : k ≠ lo := by
        rintro rfl
        exact hname (nameOf_nameNo hk)
      have hiff : (lo ≤ k ∧ k < hi) ↔ (lo + 1 ≤ k ∧ k < hi) := by omega
      simp only [hiff]
    · rfl
  · rintro ⟨h1, h2, h⟩
    obtain ⟨⟨n, x⟩, hx, rfl⟩ := Option.map_eq_some_iff.mp h
    obtain ⟨k, hk, hn⟩ := listed_number hx h1 h2
    exact hname (by rw [hk, show k = lo by omega])

theorem listed_insertable {hi : ℕ} (hhi : hi < 10000) :
    Insertable (listed 0 hi) ⟨nameOf hi, hi + 1, FileType.regular.code⟩ := by
  refine ⟨nameOf_valid hhi, (nameOf_ne_dot hhi).1, (nameOf_ne_dot hhi).2, ?_, by simp, ?_, ?_,
    Or.inl rfl⟩
  · rw [listed_nameOf hhi, if_neg (by omega)]
  · simp only
    omega
  · intro k x hk
    by_contra hdots
    obtain ⟨h1, h2⟩ := not_or.mp hdots
    obtain ⟨j, rfl, hj⟩ := listed_number hk h1 h2
    have hj : hi + 1 = j + 1 := hj
    obtain rfl : j = hi := by omega
    rw [listed_nameOf hhi, if_neg (by omega)] at hk
    cases hk

/-- A new directory takes as many files as it has slots behind `.` and `..`. -/
theorem filled (h : NewDirectory v ino 0 0) : ∀ hi ≤ 2938, 2 * hi + 2 ≤ freeBlocks v + 2 →
    ∃ (v' : Volume part) (ino' : Inode), DirRun v' ino' (listed 0 hi) ∧
      ino'.iSize = 24 * (hi + 2) ∧ freeBlocks v ≤ freeBlocks v' + 2 * hi := by
  intro hi
  induction hi with
  | zero =>
    intro _ _
    refine ⟨v, ino, ?_, by rw [h.size, dirEntrySize], by omega⟩
    rw [listed_empty]
    exact DirRun.start h
  | succ hi ih =>
    intro hle hfree
    obtain ⟨v₁, ino₁, hrun, hsize, hleft⟩ := ih (by omega) (by omega)
    have hdir := dirRun_directory hrun
    have hins := listed_insertable (show hi < 10000 by omega)
    obtain ⟨ok, ino₂, v₂, hs⟩ := syncDirEntry_exists hdir ⟨nameOf hi, hi + 1, FileType.regular.code⟩
      (by omega)
    obtain rfl := (syncDirEntry_ok_iff hdir hs).mpr (by omega)
    have htakes := syncDirEntry_takes hs
    refine ⟨v₂, ino₂, ?_, ?_, by omega⟩
    · have := hrun.sync hins hs
      rwa [if_pos rfl, listed_next (Nat.zero_le hi) (by omega)] at this
    · rw [syncDirEntry_size hdir hs, hsize]
      omega

/-- Its files are deleted one after the other. -/
theorem drained {lo hi : ℕ} (hhi : hi ≤ 2938) (h : DirRun v ino (listed lo hi)) :
    ∀ n, lo + n ≤ hi → ∃ (v' : Volume part) (ino' : Inode), DirRun v' ino' (listed (lo + n) hi) ∧
      ino'.iSize + 24 * n = ino.iSize := by
  intro n
  induction n with
  | zero =>
    intro _
    exact ⟨v, ino, h, rfl⟩
  | succ n ih =>
    intro hle
    obtain ⟨v₁, ino₁, hrun, hsize⟩ := ih (by omega)
    have hdir := dirRun_directory hrun
    obtain ⟨ok, ino₂, v₂, hd⟩ := deleteDirEntry_exists hdir (lo + n + 1)
    have hthere : listed (lo + n) hi (nameOf (lo + n)) = some (lo + n + 1, FileType.regular.code) := by
      rw [listed_nameOf (by omega), if_pos (by omega)]
    have hdots := nameOf_ne_dot (k := lo + n) (by omega)
    obtain rfl := deleteDirEntry_found hdir hthere hdots.1 hdots.2 hd
    refine ⟨v₂, ino₂, ?_, ?_⟩
    · have := hrun.delete hd
      rwa [eraseNumber_listed (by omega) (by omega), Nat.add_assoc] at this
    · have := deleteDirEntry_size hdir hd
      omega

end Filling

/-- A directory refines a finite map: lookup answers as the map does, the size counts its
names, calls with free blocks return, and a refused insertion changes nothing. -/
theorem directory_refines_map (h : DirRun v ino m) :
    (∀ name, name ≠ [] → (0 : Byte) ∉ name → searchDirEntry true true v.disk ino name =
      some ((m name).map fun x => ⟨name, x.1, x.2⟩)) ∧
    (∃ names : Finset (List Byte), (∀ k, k ∈ names ↔ m k ≠ none) ∧ ino.iSize = 24 * names.card) ∧
    (∀ e, Insertable m e → 2 ≤ freeBlocks v →
      ∃ ok ino' v', syncDirEntry e ino v = some (ok, ino', v')) ∧
    (∀ e ino' v', syncDirEntry e ino v = some (false, ino', v') → ino' = ino ∧ v' = v) ∧
    (∀ n, ∃ ok ino' v', deleteDirEntry ino n v = some (ok, ino', v')) := by
  have hd := dirRun_directory h
  refine ⟨fun name hne hn => searchDirEntry_eq hd hne hn, ?_, fun e _ hf => syncDirEntry_exists hd e hf,
    ?_, deleteDirEntry_exists hd⟩
  · obtain ⟨names, hmem, hcard⟩ := hd.represents.keys hd.keyed (dirTable_within _ _).finite
    exact ⟨names, hmem, by rw [hcard]; exact hd.size⟩
  · intro e ino' v' hs
    rcases syncDirEntry_some hs hd.owns with ⟨-, rfl, rfl, -⟩ | ⟨hok, -⟩
    · exact ⟨rfl, rfl⟩
    · cases hok

/-- An empty partition with its root directory in the first block. -/
def rootDirVolume (part : Partition) : Volume part :=
  ((blankVolume part zeroes).setBlockBit 0 true).withDisk
    (patch zeroes (512 * part.sb.dataStartLba) 512 (newDirBlock 0 0))

def rootDirInode (part : Partition) : Inode :=
  ⟨0, 2 * dirEntrySize, 0, false, fun k => if k = 0 then part.sb.dataStartLba else 0⟩

theorem rootDir_new (part : Partition) (h : 0 < part.sb.blockBitmapSects) :
    NewDirectory (rootDirVolume part) (rootDirInode part) 0 0 := by
  have hb := part.bounds
  refine newDirectory_of_block (y := part.sb.dataStartLba) (by decide) (by decide)
    ⟨0, rfl, Nat.mul_pos (by decide) (Nat.mul_pos (by decide) h), ?_⟩
    (by simp only [maxLba]; omega) rfl (fun _ _ => rfl) (fun k hk => ?_)
  · simp [rootDirVolume]
  · rw [rootDirVolume, withDisk_disk, patch_in (by omega), Nat.add_sub_cancel_left]

/-- A partition of 8000 sectors, with two for the block bitmap. -/
def widePartition : Partition where
  startLba := 1
  secCnt := 8000
  sb := ⟨0x20060127, 8000, 4096, 1, 3, 2, 5, 1, 6, 608, 614, 0, 24⟩
  layout := by constructor <;> decide

theorem wide_freeBlocks : 7000 ≤ freeBlocks (rootDirVolume widePartition) := by
  have hblank := freeBlocks_blank widePartition zeroes 7001 (by decide) (by decide)
  have htaken := freeBlocks_setBlockBit (blankVolume widePartition zeroes) 0 true
  rw [rootDirVolume, freeBlocks_withDisk]
  omega

/-- The root directory of an empty partition is filled with 2938 files, refuses one more, and
loses the first of them again. -/
theorem directory_refines_map_full : ∃ (v v' : Volume widePartition) (ino ino' : Inode),
    (∀ e, Insertable (listed 0 2938) e → syncDirEntry e ino v = some (false, ino, v)) ∧
    deleteDirEntry ino 1 v = some (true, ino', v') ∧
    searchDirEntry true true v'.disk ino' (nameOf 0) = some none ∧
    searchDirEntry true true v'.disk ino' (nameOf 1) =
      some (some ⟨nameOf 1, 2, FileType.regular.code⟩) := by
  have hfree := wide_freeBlocks
  obtain ⟨v, ino, hrun, hsize, hleft⟩ := filled (rootDir_new widePartition (by decide))
    2938 le_rfl (by omega)
  have hdir := dirRun_directory hrun
  obtain ⟨-, -, hinsert, hrefused, hdelete⟩ := directory_refines_map hrun
  obtain ⟨ok, ino', v', hd⟩ := hdelete 1
  have hrun' := hrun.delete hd
  rw [eraseNumber_listed (by omega) (by omega)] at hrun'
  have hdots := nameOf_ne_dot (k := 0) (by omega)
  obtain rfl := deleteDirEntry_found hdir (listed_nameOf (k := 0) (by omega)) hdots.1 hdots.2 hd
  have hlookup := (directory_refines_map hrun').1
  refine ⟨v, v', ino, ino', fun e he => ?_, hd, ?_, ?_⟩
  · obtain ⟨ok, ino₁, v₁, hs⟩ := hinsert e he (by omega)
    have hok := syncDirEntry_ok_iff hdir hs
    cases ok with
    | false =>
      obtain ⟨rfl, rfl⟩ := hrefused e ino₁ v₁ hs
      exact hs
    | true => exact absurd hsize (hok.mp rfl)
  · rw [hlookup _ (by decide) (by decide), listed_nameOf (by omega)]
    rfl
  · rw [hlookup _ (by decide) (by decide), listed_nameOf (by omega)]
    rfl

end FsDirectoryRuns
