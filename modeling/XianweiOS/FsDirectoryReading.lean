import XianweiOS.FsDirectoryLayout

/-! `sys_readdir` (`fs/dir.c`): every call goes through the blocks of the directory again and
counts live entries up to `dir_pos`. -/
namespace FsDirectoryReading

open ByteStore HaltingProgram KernelBitmap DeviceIde FsVolume FsInodeTable FsBlockMap FsOwnership
  FsFreeBlocks FsDirectory FsDirectorySlots FsDirectoryDelete FsDirectoryTable FsDirectoryRuns
  FsDirectoryLayout FsOpenFiles SlotTable

variable {part : Partition}

/-- The entries of one block: the position counted up to, and the entry that is at `dirPos`. -/
def readSlots (dirE : Bytes) (dirPos : ℕ) :
    (left dirEntryIdx curDirEntryPos : ℕ) → Option (ℕ × Option ℕ)
  | 0, _, curDirEntryPos => some (curDirEntryPos, none)
  | left + 1, dirEntryIdx, curDirEntryPos =>
    if word dirE (24 * dirEntryIdx + 20) ≠ 0 then
      if curDirEntryPos < dirPos then
        readSlots dirE dirPos left (dirEntryIdx + 1) ((curDirEntryPos + dirEntrySize) % 2 ^ 32)
      else do
        assert (curDirEntryPos = dirPos)
        return (curDirEntryPos, some dirEntryIdx)
    else readSlots dirE dirPos left (dirEntryIdx + 1) curDirEntryPos

def readBlocks (disk : Bytes) (dirInode : Inode) (allBlocks : ℕ → ℕ) (dir : Dir) :
    (left blockIdx curDirEntryPos : ℕ) → Option (Option DirEntry × Dir)
  | 0, _, _ => some (none, dir)
  | left + 1, blockIdx, curDirEntryPos =>
    if dir.dirPos ≥ dirInode.iSize then some (none, dir)
    else if allBlocks blockIdx = 0 then
      readBlocks disk dirInode allBlocks dir left (blockIdx + 1) curDirEntryPos
    else do
      let dirE ← ideRead disk (allBlocks blockIdx) zeroes 1
      match ← readSlots dirE dir.dirPos dirEntrysPerSec 0 curDirEntryPos with
      | (_, some i) =>
        return (some (DirEntry.ofBytes dirE (24 * i)),
          { dir with dirPos := (dir.dirPos + dirEntrySize) % 2 ^ 32 })
      | (curDirEntryPos, none) =>
        readBlocks disk dirInode allBlocks dir left (blockIdx + 1) curDirEntryPos

/-- Without an indirect table the walk ends behind the direct blocks. -/
def dirRead (disk : Bytes) (dirInode : Inode) (dir : Dir) : Option (Option DirEntry × Dir) := do
  let allBlocks ← loadAllBlocks disk dirInode
  readBlocks disk dirInode allBlocks dir (if dirInode.iSectors 12 ≠ 0 then 140 else 12) 0 0

def sysReaddir (s : Kernel part) (dir : Dir) : Option (Option DirEntry × Dir) := do
  let dirInode ← s.inodes dir.inode
  dirRead s.vol.disk dirInode dir

def sysRewinddir (dir : Dir) : Dir := { dir with dirPos := 0 }

/-- `n` calls of `sys_readdir`, one after the other. -/
def readdirs (s : Kernel part) : ℕ → Dir → Option (List (Option DirEntry) × Dir)
  | 0, dir => some ([], dir)
  | n + 1, dir => do
    let (dirE, dir) ← sysReaddir s dir
    let (rest, dir) ← readdirs s n dir
    return (dirE :: rest, dir)

instance (m : Bytes) : Decidable (IsLive m) := inferInstanceAs (Decidable (word m 20 ≠ 0))

/-- The live slots of the block at place `p`. -/
def blockSlots (d : Bytes) (r : ℕ → ℕ) (p : ℕ) : List (ℕ × ℕ) :=
  ((List.range 21).filter fun i => IsLive (rawSlot d r p i)).map (Prod.mk p)

/-- The live slots of a directory, block after block. -/
def liveSlots (d : Bytes) (r : ℕ → ℕ) : List (ℕ × ℕ) := (List.range 140).flatMap (blockSlots d r)

def entryAt (d : Bytes) (r : ℕ → ℕ) (s : ℕ × ℕ) : DirEntry := DirEntry.ofBytes (rawSlot d r s.1 s.2) 0

section Slots

variable {d : Bytes} {r : ℕ → ℕ}

theorem mem_blockSlots {p : ℕ} {s : ℕ × ℕ} :
    s ∈ blockSlots d r p ↔ s.1 = p ∧ s.2 < 21 ∧ IsLive (rawSlot d r s.1 s.2) := by
  simp only [blockSlots, List.mem_map, List.mem_filter, List.mem_range, decide_eq_true_eq]
  constructor
  · rintro ⟨i, ⟨hi, hl⟩, rfl⟩
    exact ⟨rfl, hi, hl⟩
  · rintro ⟨rfl, hi, hl⟩
    exact ⟨s.2, ⟨hi, hl⟩, rfl⟩

theorem mem_liveSlots {s : ℕ × ℕ} :
    s ∈ liveSlots d r ↔ s.1 < 140 ∧ s.2 < 21 ∧ IsLive (rawSlot d r s.1 s.2) := by
  simp only [liveSlots, List.mem_flatMap, List.mem_range, mem_blockSlots]
  constructor
  · rintro ⟨p, hp, rfl, h⟩
    exact ⟨hp, h⟩
  · rintro ⟨hp, h⟩
    exact ⟨s.1, hp, rfl, h⟩

/-- Behind one another on the disk. -/
def Before (a b : ℕ × ℕ) : Prop := a.1 < b.1 ∨ a.1 = b.1 ∧ a.2 < b.2

theorem Before.ne {a b : ℕ × ℕ} (h : Before a b) : a ≠ b := by
  rintro rfl
  rcases h with h | ⟨-, h⟩ <;> omega

theorem liveSlots_sorted : (liveSlots d r).Pairwise Before := by
  rw [liveSlots, List.pairwise_flatMap]
  constructor
  · intro p _
    rw [blockSlots, List.pairwise_map]
    exact (List.pairwise_lt_range.filter _).imp fun h => Or.inr ⟨rfl, h⟩
  · refine List.pairwise_lt_range.imp fun {p q} hpq a ha b hb => Or.inl ?_
    rw [(mem_blockSlots.mp ha).1, (mem_blockSlots.mp hb).1]
    exact hpq

theorem blockSlots_absent {p : ℕ} (h : r p = 0) : blockSlots d r p = [] := by
  rw [List.eq_nil_iff_forall_not_mem]
  intro s hs
  obtain ⟨rfl, -, hl⟩ := mem_blockSlots.mp hs
  rw [rawSlot_absent h] at hl
  exact hl (word_zeroes 20)

/-- As many slots are listed as are occupied. -/
theorem liveSlots_length : (liveSlots d r).length = live (dirTable d r) := by
  have hnd : (liveSlots d r).Nodup := liveSlots_sorted.imp Before.ne
  have hset : {s | dirTable d r s ≠ none} = ((liveSlots d r).toFinset : Set (ℕ × ℕ)) := by
    ext ⟨p, i⟩
    rw [Finset.mem_coe, List.mem_toFinset, mem_liveSlots, Set.mem_ofPred_eq]
    constructor
    · intro h
      obtain ⟨hp, hi⟩ := dirTable_within d r p i h
      refine ⟨hp, hi, fun hw => h (table_none hw)⟩
    · rintro ⟨hp, hi, hl⟩
      rw [dirTable_live hp hi hl]
      exact Option.some_ne_none _
  rw [live, hset, Set.ncard_coe_finset, List.toFinset_card_of_nodup hnd]

theorem entryAt_eq {p i : ℕ} (hz : r p ≠ 0) (hi : i < 21) :
    DirEntry.ofBytes (sectorBuf d (r p)) (24 * i) = entryAt d r (p, i) := by
  simp only [DirEntry.ofBytes, entryAt]
  rw [cstr_sectorBuf hz hi, word_sectorBuf hz hi (by omega), word_sectorBuf hz hi (by omega)]

end Slots

/-- The walk along a block passes entries until it has counted to `dir_pos`. -/
theorem readSlots_eq (io : Bytes) {k : ℕ} (hk : 24 * k < 2 ^ 32) : ∀ (left idx c : ℕ), c ≤ k →
    readSlots io (24 * k) left idx (24 * c) =
      match ((List.range' idx left).filter fun i => word io (24 * i + 20) ≠ 0)[k - c]? with
      | some i => some (24 * k, some i)
      | none => some (24 * (c + ((List.range' idx left).filter
          fun i => word io (24 * i + 20) ≠ 0).length), none) := by
  intro left
  induction left with
  | zero =>
    intro idx c _
    rfl
  | succ left ih =>
    intro idx c hc
    rw [readSlots, List.range'_succ, List.filter_cons]
    by_cases hw : word io (24 * idx + 20) ≠ 0
    · rw [if_pos hw, if_pos (c := decide _ = true) (decide_eq_true hw)]
      by_cases hck : c = k
      · subst c
        rw [if_neg (lt_irrefl _), assert_pos rfl, Nat.sub_self, List.getElem?_cons_zero]
        rfl
      · have hmod : (24 * c + dirEntrySize) % 2 ^ 32 = 24 * (c + 1) := by
          rw [dirEntrySize, Nat.mod_eq_of_lt (by omega)]
          exact (Nat.mul_succ 24 c).symm
        rw [if_pos (by omega), hmod, ih (idx + 1) (c + 1) (by omega),
          show k - c = k - (c + 1) + 1 by omega, List.getElem?_cons_succ, List.length_cons,
          Nat.add_assoc, Nat.add_comm 1]
    · rw [if_neg hw, if_neg (c := decide _ = true) (by simpa using hw)]
      exact ih (idx + 1) c hc

/-- The entries of the blocks from `idx` on. -/
theorem readBlocks_eq (d : Bytes) {r ab : ℕ → ℕ} {ino : Inode} {dir : Dir} {k : ℕ}
    (hon : OnDisk r) (hab : ∀ q < 140, ab q = r q) (hpos : dir.dirPos = 24 * k)
    (hsize : 24 * k < ino.iSize) (hmax : 24 * (k + 1) < 2 ^ 32) :
    ∀ (left idx c : ℕ), idx + left ≤ 140 → c ≤ k →
    readBlocks d ino ab dir left idx (24 * c) =
      match ((List.range' idx left).flatMap (blockSlots d r))[k - c]? with
      | some s => some (some (entryAt d r s), { dir with dirPos := 24 * (k + 1) })
      | none => some (none, dir) := by
  intro left
  induction left with
  | zero =>
    intro idx c _ _
    rfl
  | succ left ih =>
    intro idx c hlen hc
    rw [readBlocks, hpos, if_neg (by omega), hab idx (by omega), List.range'_succ,
      List.flatMap_cons]
    by_cases hz : r idx = 0
    · rw [if_pos hz, blockSlots_absent hz, List.nil_append]
      exact ih (idx + 1) c (by omega) hc
    have hlba := hon idx (by omega)
    have hfilter : ((List.range' 0 21).filter
        fun i => word (sectorBuf d (r idx)) (24 * i + 20) ≠ 0) =
        (List.range 21).filter fun i => IsLive (rawSlot d r idx i) := by
      rw [← List.range_eq_range']
      apply List.filter_congr
      intro i hi
      rw [word_sectorBuf hz (List.mem_range.mp hi) (by omega)]
      rfl
    have hslots := readSlots_eq (sectorBuf d (r idx)) (k := k) (by omega) 21 0 c hc
    rw [hfilter] at hslots
    rw [if_neg hz, ideRead_eq (by omega) (by omega), Option.bind_eq_bind, Option.bind_some,
      show dirEntrysPerSec = 21 from rfl]
    change Option.bind (readSlots (sectorBuf d (r idx)) (24 * k) 21 0 (24 * c)) _ = _
    rw [hslots, List.getElem?_append]
    have hlength : (blockSlots d r idx).length =
        ((List.range 21).filter fun i => IsLive (rawSlot d r idx i)).length := by
      rw [blockSlots, List.length_map]
    by_cases hin : k - c < (blockSlots d r idx).length
    · rw [if_pos hin, blockSlots, List.getElem?_map]
      rw [hlength] at hin
      have hi := List.mem_range.mp (List.mem_filter.mp (List.getElem_mem hin)).1
      have hmod : (24 * k + dirEntrySize) % 2 ^ 32 = 24 * (k + 1) := by
        rw [dirEntrySize, Nat.mod_eq_of_lt (by omega)]
        exact (Nat.mul_succ 24 k).symm
      rw [List.getElem?_eq_getElem hin, Option.bind_some, Option.map_some]
      simp only
      rw [← entryAt_eq hz hi, hmod]
      rfl
    · rw [if_neg hin]
      rw [hlength] at hin
      rw [List.getElem?_eq_none (by omega), Option.bind_some, ← hlength, Nat.sub_sub]
      exact ih (idx + 1) (c + (blockSlots d r idx).length) (by omega) (by omega)

/-- At the end of the directory nothing is read. -/
theorem readBlocks_end {d : Bytes} {ab : ℕ → ℕ} {ino : Inode} {dir : Dir}
    (h : ino.iSize ≤ dir.dirPos) : ∀ left idx c : ℕ,
    readBlocks d ino ab dir left idx c = some (none, dir) := by
  intro left idx c
  cases left with
  | zero => rfl
  | succ left => rw [readBlocks, if_pos h]

/-- A name that `strcmp` finds is the one stored. -/
theorem cstr_of_strcmp {m : Bytes} : ∀ (l : List Byte) (n a : ℕ), (0 : Byte) ∉ l → l.length < n →
    strcmp l m a = true → cstr m a n = l := by
  intro l
  induction l with
  | nil =>
    intro n a _ hlen h
    cases n with
    | zero => omega
    | succ n =>
      rw [strcmp, beq_iff_eq] at h
      rw [cstr, if_pos h]
  | cons c l ih =>
    intro n a hl hlen h
    cases n with
    | zero => omega
    | succ n =>
      rw [strcmp, Bool.and_eq_true, beq_iff_eq] at h
      obtain ⟨hc, hrest⟩ := h
      have hne : m a ≠ 0 := fun h0 => hl (by simp [hc, h0])
      rw [cstr, if_neg hne, ← hc, ih n (a + 1) (fun hx => hl (List.mem_cons_of_mem _ hx))
        (by simpa using hlen) hrest]

theorem entryAt_answers {d : Bytes} {r : ℕ → ℕ} {s : ℕ × ℕ} {l : List Byte}
    (h : Answers l (rawSlot d r s.1 s.2)) (hl : (0 : Byte) ∉ l) (hlen : l.length < 16) :
    (entryAt d r s).filename = l := cstr_of_strcmp l 16 0 hl hlen h.2

section Reading

variable {v : Volume part} {ino : Inode}

theorem liveSlots_size (h : Layout v ino) :
    ino.iSize = 24 * (liveSlots v.disk (ref v.disk ino)).length := by
  rw [liveSlots_length]
  exact h.size

theorem liveSlots_le (d : Bytes) (r : ℕ → ℕ) : (liveSlots d r).length ≤ 140 * 21 := by
  rw [liveSlots_length]
  exact (dirTable_within d r).live_le

/-- A directory without a table has no live slot behind the direct blocks. -/
theorem liveSlots_direct (ht : ino.iSectors 12 = 0) :
    (List.range' 0 12).flatMap (blockSlots v.disk (ref v.disk ino)) =
      liveSlots v.disk (ref v.disk ino) := by
  have habsent : (List.range' 12 128).flatMap (blockSlots v.disk (ref v.disk ino)) = [] := by
    rw [List.flatMap_eq_nil_iff]
    intro p hp
    obtain ⟨h1, h2⟩ := List.mem_range'_1.mp hp
    apply blockSlots_absent
    rw [ref_indirect (by omega) (by omega), if_pos ht]
  have happ : List.range' 0 140 = List.range' 0 12 ++ List.range' 12 128 :=
    (List.range'_append_1 (s := 0) (m := 12) (n := 128)).symm
  rw [liveSlots, List.range_eq_range', happ, List.flatMap_append, habsent, List.append_nil]

/-- The call at the position behind `k` entries. -/
theorem dirRead_eq (h : Layout v ino) {dir : Dir} {k : ℕ} (hpos : dir.dirPos = 24 * k)
    (hk : k ≤ (liveSlots v.disk (ref v.disk ino)).length) :
    dirRead v.disk ino dir =
      match (liveSlots v.disk (ref v.disk ino))[k]? with
      | some s => some (some (entryAt v.disk (ref v.disk ino) s), { dir with dirPos := 24 * (k + 1) })
      | none => some (none, dir) := by
  have htab : ino.iSectors 12 ≤ maxLba := by
    rw [← ref_table v.disk ino]
    exact h.onDisk 140 (by omega)
  obtain ⟨ab, hload⟩ := loadAllBlocks_exists v.disk htab
  have hab : ∀ q < 140, ab q = ref v.disk ino q := by
    intro q hq
    rw [loadAllBlocks_some hload hq, ref_of_lt hq]
  have hle := liveSlots_le v.disk (ref v.disk ino)
  have hsize := liveSlots_size h
  rw [dirRead, hload, Option.bind_eq_bind, Option.bind_some]
  by_cases hend : k = (liveSlots v.disk (ref v.disk ino)).length
  · rw [readBlocks_end (by omega), List.getElem?_eq_none (by omega)]
  have hlt : 24 * k < ino.iSize := by omega
  have hblocks := fun left hleft => readBlocks_eq v.disk h.onDisk hab hpos hlt (by omega) left 0 0
    hleft (Nat.zero_le k)
  by_cases ht : ino.iSectors 12 ≠ 0
  · rw [if_pos ht]
    have := hblocks 140 (by omega)
    rwa [← List.range_eq_range'] at this
  · rw [if_neg ht]
    have := hblocks 12 (by omega)
    rwa [liveSlots_direct (of_not_not ht)] at this

/-- Call `k` since the start, the entries being over or not. -/
theorem sysReaddir_eq {s : Kernel part} {dir : Dir} {k : ℕ} (h : Layout s.vol ino)
    (hi : s.inodes dir.inode = some ino)
    (hpos : dir.dirPos = 24 * min k (liveSlots s.vol.disk (ref s.vol.disk ino)).length) :
    ∃ dir', sysReaddir s dir = some ((liveSlots s.vol.disk (ref s.vol.disk ino))[k]?.map
        (entryAt s.vol.disk (ref s.vol.disk ino)), dir') ∧ dir'.inode = dir.inode ∧
      dir'.dirPos = 24 * min (k + 1) (liveSlots s.vol.disk (ref s.vol.disk ino)).length := by
  have hread := dirRead_eq h hpos (Nat.min_le_right _ _)
  rw [sysReaddir, hi, Option.bind_eq_bind, Option.bind_some, hread]
  by_cases hk : k < (liveSlots s.vol.disk (ref s.vol.disk ino)).length
  · rw [Nat.min_eq_left hk.le, List.getElem?_eq_getElem hk, Nat.min_eq_left hk]
    exact ⟨_, rfl, rfl, rfl⟩
  · rw [List.getElem?_eq_none (by omega), List.getElem?_eq_none (by omega)]
    refine ⟨dir, rfl, rfl, ?_⟩
    omega

theorem readdirs_eq {s : Kernel part} (h : Layout s.vol ino) : ∀ (n k : ℕ) (dir : Dir),
    s.inodes dir.inode = some ino →
    dir.dirPos = 24 * min k (liveSlots s.vol.disk (ref s.vol.disk ino)).length →
    ∃ dir', readdirs s n dir = some ((List.range' k n).map fun j =>
      (liveSlots s.vol.disk (ref s.vol.disk ino))[j]?.map
        (entryAt s.vol.disk (ref s.vol.disk ino)), dir') := by
  intro n
  induction n with
  | zero =>
    intro k dir _ _
    exact ⟨dir, rfl⟩
  | succ n ih =>
    intro k dir hi hpos
    obtain ⟨dir₁, hread, hsame, hpos₁⟩ := sysReaddir_eq h hi hpos
    obtain ⟨dir', hrest⟩ := ih (k + 1) dir₁ (by rw [hsame]; exact hi) hpos₁
    refine ⟨dir', ?_⟩
    rw [readdirs, hread, Option.bind_eq_bind, Option.bind_some]
    simp only
    rw [hrest, List.range'_succ, List.map_cons]
    rfl

end Reading

/-- After `sys_rewinddir` the calls return the live entries in the order of the disk, each once,
and then nothing. -/
theorem readdir_lists_directory {s : Kernel part} {ino : Inode} {dir : Dir}
    (h : Calls s.vol ino) (hi : s.inodes dir.inode = some ino) :
    ∃ slots : List (ℕ × ℕ),
      (∀ p i, (p, i) ∈ slots ↔
        p < 140 ∧ i < 21 ∧ IsLive (rawSlot s.vol.disk (ref s.vol.disk ino) p i)) ∧
      slots.Pairwise Before ∧
      (∃ a b, a ∈ slots ∧ (entryAt s.vol.disk (ref s.vol.disk ino) a).filename = dot ∧
        b ∈ slots ∧ (entryAt s.vol.disk (ref s.vol.disk ino) b).filename = dotdot) ∧
      ∀ n, ∃ dir', readdirs s n (sysRewinddir dir) = some ((List.range n).map fun k =>
        slots[k]?.map (entryAt s.vol.disk (ref s.vol.disk ino)), dir') := by
  have hl := calls_layout h
  have hdot := (hl.self 0 (by omega) 0 (by omega)).mpr ⟨rfl, rfl⟩
  have hdotdot := (hl.parent 0 (by omega) 1 (by omega)).mpr ⟨rfl, rfl⟩
  refine ⟨liveSlots s.vol.disk (ref s.vol.disk ino), fun p i => mem_liveSlots, liveSlots_sorted,
    ⟨(0, 0), (0, 1), ?_, ?_, ?_, ?_⟩, fun n => ?_⟩
  · exact mem_liveSlots.mpr ⟨by omega, by omega, hdot.1⟩
  · exact entryAt_answers hdot (by decide) (by decide)
  · exact mem_liveSlots.mpr ⟨by omega, by omega, hdotdot.1⟩
  · exact entryAt_answers hdotdot (by decide) (by decide)
  · rw [List.range_eq_range']
    exact readdirs_eq hl n 0 (sysRewinddir dir) hi (by rw [Nat.zero_min]; rfl)

theorem eq_liveSlots {d : Bytes} {r : ℕ → ℕ} {slots : List (ℕ × ℕ)}
    (hmem : ∀ p i, (p, i) ∈ slots ↔ p < 140 ∧ i < 21 ∧ IsLive (rawSlot d r p i))
    (hsorted : slots.Pairwise Before) : slots = liveSlots d r := by
  have : Std.Antisymm Before := ⟨fun a b hab hba => by
    rcases hab with h | ⟨h, h'⟩ <;> rcases hba with k | ⟨k, k'⟩ <;> omega⟩
  have : Std.Irrefl Before := ⟨fun a h => h.ne rfl⟩
  exact hsorted.eq_of_mem_iff liveSlots_sorted fun s => by rw [hmem s.1 s.2, mem_liveSlots]

/-- Four files put into a new root directory, the second of them deleted again. -/
def holedDir : Option (Inode × Volume smallPartition) := do
  let (_, ino, v) ← syncDirEntry ⟨nameOf 0, 1, FileType.regular.code⟩
    (rootDirInode smallPartition) (rootDirVolume smallPartition)
  let (_, ino, v) ← syncDirEntry ⟨nameOf 1, 2, FileType.regular.code⟩ ino v
  let (_, ino, v) ← syncDirEntry ⟨nameOf 2, 3, FileType.directory.code⟩ ino v
  let (_, ino, v) ← syncDirEntry ⟨nameOf 3, 4, FileType.regular.code⟩ ino v
  let (_, ino, v) ← deleteDirEntry ino 2 v
  return (ino, v)

theorem holedDir_calls {ino : Inode} {v : Volume smallPartition} (h : holedDir = some (ino, v)) :
    Calls v ino := by
  simp only [holedDir, bind_some_iff, Option.pure_def, Option.some.injEq, Prod.mk.injEq] at h
  obtain ⟨⟨ok₁, i₁, v₁⟩, h₁, ⟨ok₂, i₂, v₂⟩, h₂, ⟨ok₃, i₃, v₃⟩, h₃, ⟨ok₄, i₄, v₄⟩, h₄,
    ⟨ok₅, i₅, v₅⟩, h₅, rfl, rfl⟩ := h
  have henter : ∀ k < 4, ∀ t : FileType, t ≠ .unknown → Enterable ⟨nameOf k, k + 1, t.code⟩ := by
    intro k hk t ht
    have hdots := nameOf_ne_dot (k := k) (by omega)
    exact ⟨(nameOf_valid (by omega)).string, hdots.1, hdots.2, by cases t <;> simp_all⟩
  have hroot := Calls.start (rootDir_new smallPartition (by decide))
  have hfour := (((hroot.sync (henter 0 (by omega) .regular (by decide)) h₁).sync
    (henter 1 (by omega) .regular (by decide)) h₂).sync
    (henter 2 (by omega) .directory (by decide)) h₃).sync
    (henter 3 (by omega) .regular (by decide)) h₄
  exact hfour.delete h₅

/-- A kernel over the volume with the inode at address 0. -/
def dirKernel (v : Volume smallPartition) (ino : Inode) : Kernel smallPartition where
  vol := v
  inodes a := if a = 0 then some ino else none
  openInodes := [0]
  dirs _ := none
  rootInode := 0
  fileTable _ := ⟨0, 0, none⟩
  cur := ⟨fun _ => none, 0⟩
  next := 1
  mallocs _ := true

/-- The hole in front of the last two entries is passed over, and the sixth call finds nothing. -/
theorem readdir_lists_directory_holed : ∃ (ino : Inode) (v : Volume smallPartition) (dir' : Dir),
    holedDir = some (ino, v) ∧ readdirs (dirKernel v ino) 6 (sysRewinddir ⟨0, 48⟩) = some
      ([some ⟨dot, 0, 2⟩, some ⟨dotdot, 0, 2⟩, some ⟨nameOf 0, 1, 1⟩, some ⟨nameOf 2, 3, 2⟩,
        some ⟨nameOf 3, 4, 1⟩, none], dir') := by
  have hsome : holedDir.isSome = true := by decide +kernel
  obtain ⟨⟨ino, v⟩, hdir⟩ := Option.isSome_iff_exists.mp hsome
  have hentries : (holedDir.map fun x => (liveSlots x.2.disk (ref x.2.disk x.1)).map
      (entryAt x.2.disk (ref x.2.disk x.1))) = some [⟨dot, 0, 2⟩, ⟨dotdot, 0, 2⟩, ⟨nameOf 0, 1, 1⟩,
        ⟨nameOf 2, 3, 2⟩, ⟨nameOf 3, 4, 1⟩] := by decide +kernel
  obtain ⟨slots, hmem, hsorted, -, hlist⟩ := @readdir_lists_directory _ (dirKernel v ino) ino
    ⟨0, 48⟩ (holedDir_calls hdir) rfl
  obtain rfl := eq_liveSlots hmem hsorted
  obtain ⟨dir', hread⟩ := hlist 6
  rw [hdir, Option.map_some, Option.some.injEq] at hentries
  refine ⟨ino, v, dir', hdir, hread.trans ?_⟩
  simp only [← List.getElem?_map]
  rw [show (dirKernel v ino).vol = v from rfl, hentries]
  rfl

end FsDirectoryReading
