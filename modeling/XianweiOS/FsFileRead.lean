import XianweiOS.FsFileAppend

/-! `file_read` of `fs/file.c`, against the content that `file_write` builds. The reader
computes the block of the position behind the last byte as its end block; the writer has
given the file that block and its table already. -/
namespace FsFileRead

open ByteStore HaltingProgram KernelBitmap DeviceIde FsVolume FsInodeTable FsBlockMap FsOwnership
  FsFreeBlocks FsFileWrite FsFileAppend

variable {part : Partition}

structure ReadResult where
  ret : ℤ
  fdPos : ℕ
  buf : Bytes

/-- `all_blocks` with the direct entries `lo .. hi - 1` copied from the inode. -/
def directBlocks (inode : Inode) (lo hi : ℕ) (k : ℕ) : ℕ :=
  if lo ≤ k ∧ k < hi then inode.iSectors k else 0

/-- `all_blocks` with the table read in behind the entries it has. -/
def behindBlocks (allBlocks : ℕ → ℕ) (table : Bytes) (k : ℕ) : ℕ :=
  if k < 12 then allBlocks k else word table (4 * (k - 12))

/-- The blocks from `start` to `stop`, both included. Within one block the table is read
without looking whether there is one. -/
def readBlocks (disk : Bytes) (inode : Inode) (start stop : ℕ) : Option (ℕ → ℕ) :=
  if (start + 2 ^ 32 - stop) % 2 ^ 32 = 0 then do
    assert (stop = start)
    if stop < 12 then return directBlocks inode stop (stop + 1)
    else
      let table ← ideRead disk (inode.iSectors 12) zeroes 1
      return behindBlocks (fun _ => 0) table
  else if stop < 12 then return directBlocks inode start (stop + 1)
  else if start < 12 then do
    assert (inode.iSectors 12 ≠ 0)
    let table ← ideRead disk (inode.iSectors 12) zeroes 1
    return behindBlocks (directBlocks inode start 12) table
  else do
    assert (inode.iSectors 12 ≠ 0)
    let table ← ideRead disk (inode.iSectors 12) zeroes 1
    return behindBlocks (fun _ => 0) table

def readLoop (allBlocks : ℕ → ℕ) (disk : Bytes) (size : ℕ) :
    (fuel : ℕ) → (bytesRead fdPos : ℕ) → Bytes → Option (ℕ × ℕ × Bytes)
  | 0, bytesRead, fdPos, buf => some (bytesRead, fdPos, buf)
  | fuel + 1, bytesRead, fdPos, buf =>
    if bytesRead < size then do
      let secIdx := fdPos / 512
      assert (secIdx < 140)
      let secLba := allBlocks secIdx
      let secOffBytes := fdPos % 512
      let chunkSize := min (size - bytesRead) (512 - secOffBytes)
      let ioBuf ← ideRead disk secLba zeroes 1
      readLoop allBlocks disk size fuel (bytesRead + chunkSize) ((fdPos + chunkSize) % 2 ^ 32)
        (patch buf bytesRead chunkSize (window ioBuf secOffBytes))
    else some (bytesRead, fdPos, buf)

def fileRead (mallocIoBuf mallocAllBlocks : Bool) (fdPos : ℕ) (inode : Inode) (disk buf : Bytes)
    (count : ℕ) : Option ReadResult := do
  let clamped := (fdPos + count) % 2 ^ 32 > inode.iSize
  let size := if clamped then (inode.iSize + 2 ^ 32 - fdPos) % 2 ^ 32 else count
  if clamped ∧ size = 0 then return ⟨-1, fdPos, buf⟩
  if mallocIoBuf = false then return ⟨-1, fdPos, buf⟩
  if mallocAllBlocks = false then return ⟨-1, fdPos, buf⟩
  let blockReadStartIdx := fdPos / 512
  let blockReadEndIdx := (fdPos + size) % 2 ^ 32 / 512
  assert (blockReadEndIdx < 139 ∧ blockReadStartIdx < 139)
  let allBlocks ← readBlocks disk inode blockReadStartIdx blockReadEndIdx
  let (bytesRead, fdPos, buf) ← readLoop allBlocks disk size size 0 fdPos buf
  return ⟨bytesRead, fdPos, buf⟩

/-- The entries the loop will use. -/
private theorem readBlocks_exists {d : Bytes} {ino : Inode} (start stop : ℕ) (hle : start ≤ stop)
    (hlen : stop < 139) (ht : 12 ≤ stop → ino.iSectors 12 ≠ 0) (htd : ino.iSectors 12 ≤ maxLba) :
    ∃ ab, readBlocks d ino start stop = some ab ∧
      ∀ p, start ≤ p → p ≤ stop → ab p = ref d ino p := by
  have hread : ideRead d (ino.iSectors 12) zeroes 1 =
      some (patch zeroes 0 (512 * 1) (window d (512 * ino.iSectors 12))) :=
    ideRead_eq (by omega) (by omega)
  have hdir : ∀ {lo hi p : ℕ}, lo ≤ p → p < hi → p < 12 →
      directBlocks ino lo hi p = ref d ino p := by
    intro lo hi p h1 h2 h3
    rw [directBlocks, if_pos ⟨h1, h2⟩, ref_direct h3]
  have hbehind : ∀ {ab : ℕ → ℕ} {p : ℕ}, 12 ≤ stop → 12 ≤ p → p < 140 →
      behindBlocks ab (patch zeroes 0 (512 * 1) (window d (512 * ino.iSectors 12))) p =
        ref d ino p := by
    intro ab p h1 h2 h3
    rw [behindBlocks, if_neg (by omega), word_patch_in (by omega), Nat.sub_zero, word_window,
      ref_indirect h2 h3, if_neg (ht h1)]
  unfold readBlocks
  split
  · have hse : stop = start := by omega
    rw [assert_pos hse]
    simp only [Option.bind_eq_bind, Option.bind_some]
    split
    · exact ⟨_, rfl, fun p h1 h2 => hdir (by omega) (by omega) (by omega)⟩
    · rw [hread]
      exact ⟨_, rfl, fun p h1 h2 => hbehind (by omega) (by omega) (by omega)⟩
  split
  · exact ⟨_, rfl, fun p h1 h2 => hdir (by omega) (by omega) (by omega)⟩
  split
  · rw [assert_pos (ht (by omega)), hread]
    refine ⟨_, rfl, fun p h1 h2 => ?_⟩
    by_cases h12 : p < 12
    · rw [behindBlocks, if_pos h12]
      exact hdir h1 h12 h12
    · exact hbehind (by omega) (by omega) (by omega)
  · rw [assert_pos (ht (by omega)), hread]
    exact ⟨_, rfl, fun p h1 h2 => hbehind (by omega) (by omega) (by omega)⟩

/-- The bytes the loop has still to deliver, in front of what the buffer held behind them. -/
private theorem readLoop_eq {ab r : ℕ → ℕ} {d : Bytes} {size : ℕ} : ∀ (fuel br pos : ℕ)
    (buf : Bytes), size - br ≤ fuel → br ≤ size → pos + (size - br) < 71680 →
    (∀ p, pos / 512 ≤ p → p ≤ (pos + (size - br)) / 512 → ab p = r p) →
    (∀ j < size - br, r ((pos + j) / 512) ≤ maxLba) →
    readLoop ab d size fuel br pos buf = some (size, pos + (size - br),
      patch buf br (size - br) fun j => d (byteAddr r (pos + j))) := by
  intro fuel
  induction fuel with
  | zero =>
    intro br pos buf hf hbr _ _ _
    obtain rfl : br = size := by omega
    rw [Nat.sub_self, patch_zero]
    rfl
  | succ fuel ih =>
    intro br pos buf hf hbr hlen hab hlba
    unfold readLoop
    split
    · rename_i hlt
      have hlast : ab (pos / 512) = r (pos / 512) := hab _ le_rfl (by omega)
      have hl : r (pos / 512) ≤ maxLba := hlba 0 (by omega)
      generalize hm : min (size - br) (512 - pos % 512) = m
      have hmod : (pos + m) % 2 ^ 32 = pos + m := by omega
      simp only [assert_pos (show pos / 512 < 140 by omega), hlast, Option.bind_eq_bind,
        Option.bind_some, hm, hmod]
      rw [ideRead_eq (by omega) (by omega), Option.bind_some,
        ih _ _ _ (by omega) (by omega) (by omega) (fun p h1 h2 => hab p (by omega) (by omega))
          (fun j hj => by
            have := hlba (m + j) (by omega)
            rwa [← Nat.add_assoc] at this)]
      have hpos : pos + m + (size - (br + m)) = pos + (size - br) := by omega
      rw [hpos]
      -- the sector just read and the rest are adjacent pieces of the file
      have hpiece : patch buf br m (window (patch zeroes 0 (512 * 1)
          (window d (512 * r (pos / 512)))) (pos % 512)) =
          patch buf br m fun j => d (byteAddr r (pos + j)) := by
        funext i
        by_cases hin : br ≤ i ∧ i < br + m
        · rw [patch_in hin, patch_in hin]
          simp only [window, byteAddr]
          rw [patch_in (by omega), show (pos + (i - br)) / 512 = pos / 512 by omega]
          congr 1
          omega
        · rw [patch_out hin, patch_out hin]
      have hrest : (fun j => d (byteAddr r (pos + m + j))) =
          window (fun j => d (byteAddr r (pos + j))) m := by
        funext j
        simp only [window, Nat.add_assoc]
      rw [hpiece, hrest, patch_append, show m + (size - (br + m)) = size - br by omega]
    · obtain rfl : br = size := by omega
      rw [Nat.sub_self, patch_zero, Nat.add_zero]

/-- Other calls leave a file alone: its blocks stay in use and keep their bytes. -/
def Undisturbed (v v' : Volume part) (ino : Inode) : Prop :=
  ∀ p < 141, ref v.disk ino p ≠ 0 → InUse v' (ref v.disk ino p) ∧
    ∀ a ∈ sector (ref v.disk ino p), v'.disk a = v.disk a

/-- A file that `file_create` made and completed calls of `file_write` filled with `c`, with
calls on other files in between, and possibly closed and read in again. -/
inductive Built : Volume part → Inode → List Byte → Prop where
  | create (v : Volume part) {n : ℕ} (hn : n < 4096) : Built v (inodeInit n) []
  | write {v : Volume part} {ino : Inode} {c : List Byte} {m1 m2 : Bool} {pos count : ℕ}
      {buf : Bytes} {res : WriteResult part} (h : Built v ino c)
      (hw : fileWrite m1 m2 pos ino v buf count = some res) :
      Built res.vol res.inode (if res.ret = -1 then c else c ++ (List.range count).map buf)
  | other {v v' : Volume part} {ino : Inode} {c : List Byte} (h : Built v ino c)
      (hu : Undisturbed v v' ino) : Built v' ino c
  | reopen {v : Volume part} {ino ino' : Inode} {c : List Byte} (h : Built v ino c)
      (hs : ino'.Same ino) : Built v ino' c

/-- What the reader relies on. -/
structure Readable (v : Volume part) (ino : Inode) (c : List Byte) : Prop where
  layout : FileLayout v ino
  onDisk : ∀ k < ino.iSize, ref v.disk ino (k / 512) ≤ maxLba
  table : ino.iSectors 12 ≤ maxLba
  content : content v.disk ino = c

theorem readable_write {v : Volume part} {ino : Inode} {c : List Byte} {m1 m2 : Bool}
    {pos count : ℕ} {buf : Bytes} {res : WriteResult part} (h : Readable v ino c)
    (hw : fileWrite m1 m2 pos ino v buf count = some res) :
    Readable res.vol res.inode (if res.ret = -1 then c else c ++ (List.range count).map buf) := by
  rcases fileWrite_some hw h.layout with rfl | ⟨hlen, v', happ, hret, -, hvol⟩
  · exact h
  rw [if_neg (by rw [hret]; omega), hvol]
  refine ⟨happ.layout h.layout.fits hlen _ _, ?_, happ.table, ?_⟩
  · intro k hk
    rw [show res.inode.iSize = ino.iSize + count from happ.head.size] at hk
    rw [withDisk_disk, happ.ref_synced _ _ (by omega)]
    by_cases hold : k < ino.iSize
    · have hz : ref v.disk ino (k / 512) ≠ 0 := by
        rcases h.layout.blocks with hb | ⟨h0, -⟩
        · exact (hb.data _ (by omega)).mpr (by omega)
        · omega
      rw [happ.kept _ (by omega) hz]
      exact h.onDisk k hold
    · have := happ.onDisk (k - ino.iSize) (by omega)
      rwa [show ino.iSize + (k - ino.iSize) = k by omega] at this
  · rw [withDisk_disk, happ.content hlen, h.content]

/-- The map of an undisturbed file is where it was. -/
private theorem undisturbed_ref {v v' : Volume part} {ino : Inode} (hu : Undisturbed v v' ino)
    {p : ℕ} (hp : p < 141) : ref v'.disk ino p = ref v.disk ino p := by
  refine ref_congr (fun _ _ => rfl) (fun hz a ha => ?_) hp
  rw [← ref_table v.disk ino] at hz ha
  exact (hu 140 (by omega) hz).2 a ha

private theorem blocks_congr {r r' : ℕ → ℕ} {size : ℕ} (he : ∀ p < 141, r' p = r p)
    (h : FileBlocks r size) : FileBlocks r' size :=
  ⟨fun p hp => by rw [he p (by omega)]; exact h.data p hp,
    by rw [he 140 (by omega)]; exact h.table⟩

private theorem readable_other {v v' : Volume part} {ino : Inode} {c : List Byte}
    (h : Readable v ino c) (hu : Undisturbed v v' ino) : Readable v' ino c := by
  have href := fun p (hp : p < 141) => undisturbed_ref hu hp
  have hsize := h.layout.size
  refine ⟨⟨⟨?_, ?_⟩, h.layout.fits, h.layout.size, ?_⟩, ?_, h.table, ?_⟩
  · intro p hp q hq hz he
    rw [href p hp] at hz he
    rw [href q hq] at he
    exact h.layout.owns.distinct p hp q hq hz he
  · intro p hp hz
    rw [href p hp] at hz ⊢
    exact (hu p hp hz).1
  · rcases h.layout.blocks with hb | ⟨h0, hn⟩
    · exact Or.inl (blocks_congr href hb)
    · exact Or.inr ⟨h0, fun p hp => by rw [href p hp]; exact hn p hp⟩
  · intro k hk
    rw [href _ (by omega)]
    exact h.onDisk k hk
  · rw [← h.content]
    unfold FsFileWrite.content
    apply List.map_congr_left
    intro k hk
    have hk := List.mem_range.mp hk
    have hz : ref v.disk ino (k / 512) ≠ 0 := by
      rcases h.layout.blocks with hb | ⟨h0, -⟩
      · exact (hb.data _ (by omega)).mpr (by omega)
      · omega
    have haddr : byteAddr (ref v'.disk ino) k = byteAddr (ref v.disk ino) k := by
      simp only [byteAddr, href _ (show k / 512 < 141 by omega)]
    rw [haddr]
    exact (hu _ (by omega) hz).2 _ (byteAddr_mem _ _)

private theorem readable_reopen {v : Volume part} {ino ino' : Inode} {c : List Byte}
    (h : Readable v ino c) (hs : ino'.Same ino) : Readable v ino' c := by
  have href : ∀ p < 141, ref v.disk ino' p = ref v.disk ino p := fun p hp =>
    ref_congr hs.sectors (fun _ _ _ => rfl) hp
  have hsize := h.layout.size
  have hsz := hs.size
  refine ⟨⟨h.layout.owns.congr href, ⟨?_, ?_, ?_⟩, by omega, ?_⟩, ?_, ?_, ?_⟩
  · rw [hs.no]
    exact h.layout.fits.no
  · omega
  · intro j hj
    rw [hs.sectors j hj]
    exact h.layout.fits.sectors j hj
  · rw [hsz]
    rcases h.layout.blocks with hb | ⟨h0, hn⟩
    · exact Or.inl (blocks_congr href hb)
    · exact Or.inr ⟨h0, fun p hp => by rw [href p hp]; exact hn p hp⟩
  · intro k hk
    rw [href _ (by omega)]
    exact h.onDisk k (by omega)
  · rw [hs.sectors 12 (by omega)]
    exact h.table
  · rw [← h.content]
    unfold FsFileWrite.content
    rw [hsz]
    apply List.map_congr_left
    intro k hk
    have hk := List.mem_range.mp hk
    simp only [byteAddr, href _ (show k / 512 < 141 by omega)]

theorem built_readable {v : Volume part} {ino : Inode} {c : List Byte} (h : Built v ino c) :
    Readable v ino c := by
  induction h with
  | create v hn =>
    exact ⟨fresh_layout v (by omega), fun k hk => by simp [inodeInit] at hk,
      by simp [inodeInit], rfl⟩
  | write _ hw ih => exact readable_write ih hw
  | other _ hu ih => exact readable_other ih hu
  | reopen _ hs ih => exact readable_reopen ih hs

/-- The bytes a read of `count` at `pos` can deliver. -/
def available (ino : Inode) (pos count : ℕ) : ℕ := min count (ino.iSize - pos)

theorem fileRead_eq {v : Volume part} {ino : Inode} {c : List Byte} (h : Readable v ino c)
    (pos count : ℕ) (hpos : pos ≤ ino.iSize) (hcount : pos + count < 2 ^ 32)
    (hend : (pos + available ino pos count) / 512 < 139) (buf : Bytes) :
    fileRead true true pos ino v.disk buf count = some
      ⟨if 0 < count ∧ pos = ino.iSize then -1 else available ino pos count,
        pos + available ino pos count,
        patch buf 0 (available ino pos count) fun j =>
          v.disk (byteAddr (ref v.disk ino) (pos + j))⟩ := by
  have hsize := h.layout.size
  have hmod : (pos + count) % 2 ^ 32 = pos + count := by omega
  have hclamp : (if (pos + count) % 2 ^ 32 > ino.iSize then (ino.iSize + 2 ^ 32 - pos) % 2 ^ 32
      else count) = available ino pos count := by
    unfold available
    split <;> omega
  simp only [fileRead, hclamp]
  by_cases heof : 0 < count ∧ pos = ino.iSize
  · have h0 : available ino pos count = 0 := by
      unfold available
      omega
    rw [if_pos heof, if_pos ⟨by omega, h0⟩, h0, patch_zero]
    rfl
  · have hne : ¬((pos + count) % 2 ^ 32 > ino.iSize ∧ available ino pos count = 0) := by
      unfold available
      omega
    generalize hn : available ino pos count = n at hend hne hclamp ⊢
    have hnle : pos + n ≤ ino.iSize := by
      unfold available at hn
      omega
    have htab : 12 ≤ (pos + n) / 512 → ino.iSectors 12 ≠ 0 := by
      intro h12
      rcases h.layout.blocks with hb | ⟨h0, -⟩
      · rw [← ref_table v.disk ino]
        exact hb.table.mpr (by omega)
      · omega
    obtain ⟨ab, hab, hlist⟩ := readBlocks_exists (d := v.disk) (pos / 512)
      ((pos + n) / 512) (Nat.div_le_div_right (by omega)) hend htab h.table
    have hmod2 : (pos + n) % 2 ^ 32 = pos + n := by omega
    simp only [if_neg heof, if_neg hne, Bool.true_eq_false, ↓reduceIte, hmod2]
    rw [assert_pos (show (pos + n) / 512 < 139 ∧ pos / 512 < 139 by omega), hab]
    simp only [Option.bind_eq_bind, Option.bind_some]
    rw [readLoop_eq (r := ref v.disk ino) n 0 pos buf (by omega) (by omega) (by omega)
      (by
        rw [Nat.sub_zero]
        exact hlist)
      (by
        intro j hj
        exact h.onDisk (pos + j) (by omega))]
    rfl

/-- The bytes from `pos` on, cut off after `n`. -/
theorem content_slice {v : Volume part} {ino : Inode} {c : List Byte} (h : Readable v ino c)
    {pos n : ℕ} (hn : pos + n ≤ ino.iSize) :
    (List.range n).map (fun j => v.disk (byteAddr (ref v.disk ino) (pos + j))) =
      (c.drop pos).take n := by
  rw [← h.content]
  apply List.ext_getElem
  · simp only [FsFileWrite.content, List.length_map, List.length_range, List.length_take,
      List.length_drop]
    omega
  · intro j h1 h2
    simp [FsFileWrite.content]

theorem patched_slice {v : Volume part} {ino : Inode} {c : List Byte} (h : Readable v ino c)
    (pos n : ℕ) (hn : pos + n ≤ ino.iSize) (buf : Bytes) :
    (List.range n).map (patch buf 0 n fun j => v.disk (byteAddr (ref v.disk ino) (pos + j))) =
      (c.drop pos).take n := by
  rw [← content_slice h hn]
  apply List.map_congr_left
  intro j hj
  have hj := List.mem_range.mp hj
  rw [patch_in (by omega), Nat.sub_zero]

/-- One read after another, each from where the one before stopped. -/
def readChunks (inode : Inode) (disk : Bytes) : List ℕ → ℕ → Option (List Byte × ℕ)
  | [], pos => some ([], pos)
  | count :: counts, pos => do
    let res ← fileRead true true pos inode disk zeroes count
    let (bytes, pos) ← readChunks inode disk counts res.fdPos
    return ((List.range res.ret.toNat).map res.buf ++ bytes, pos)

private theorem readChunks_eq {v : Volume part} {ino : Inode} {c : List Byte}
    (h : Readable v ino c) : ∀ (counts : List ℕ) {pos : ℕ}, pos ≤ ino.iSize →
    pos + counts.sum < 2 ^ 32 → (pos + available ino pos counts.sum) / 512 < 139 →
    readChunks ino v.disk counts pos =
      some ((c.drop pos).take (available ino pos counts.sum),
        pos + available ino pos counts.sum) := by
  intro counts
  induction counts with
  | nil =>
    intro pos _ _ _
    simp [readChunks, available]
  | cons count counts ih =>
    intro pos hpos hsum hend
    rw [List.sum_cons] at hsum hend ⊢
    -- the first read stops early only at the end of the file
    have hsplit : available ino pos (count + counts.sum) = available ino pos count +
        available ino (pos + available ino pos count) counts.sum := by
      unfold available
      omega
    have hfirst : pos + available ino pos count ≤ ino.iSize := by
      unfold available
      omega
    rw [hsplit] at hend ⊢
    have hread := fileRead_eq h pos count hpos (by omega)
      (lt_of_le_of_lt (Nat.div_le_div_right (by omega)) hend) zeroes
    have hle : available ino pos count ≤ count := Nat.min_le_left _ _
    have hrest := ih hfirst (by omega) (by rw [Nat.add_assoc]; exact hend)
    rw [readChunks, hread, Option.bind_eq_bind, Option.bind_some]
    simp only
    rw [hrest, Option.bind_eq_bind, Option.bind_some]
    have hret : (if 0 < count ∧ pos = ino.iSize then -1
        else (available ino pos count : ℤ)).toNat = available ino pos count := by
      split
      · unfold available
        omega
      · exact Int.toNat_natCast _
    simp only [Option.pure_def, hret, patched_slice h pos _ hfirst, Option.some.injEq, Prod.mk.injEq]
    refine ⟨?_, by omega⟩
    rw [List.take_add, List.drop_drop]

/-- A read delivers the bytes of the file from its position on, and reads in pieces deliver
the same bytes. -/
theorem file_read_returns_content {v : Volume part} {ino : Inode} {c : List Byte}
    (hb : Built v ino c) (pos count : ℕ) (hpos : pos ≤ ino.iSize) (hcount : pos + count < 2 ^ 32)
    (hend : (pos + min count (ino.iSize - pos)) / 512 < 139) (buf : Bytes) :
    ∃ res, fileRead true true pos ino v.disk buf count = some res ∧
      res.ret = (if 0 < count ∧ pos = ino.iSize then -1 else ↑(min count (ino.iSize - pos))) ∧
      res.fdPos = pos + min count (ino.iSize - pos) ∧
      (List.range (min count (ino.iSize - pos))).map res.buf =
        (c.drop pos).take (min count (ino.iSize - pos)) ∧
      (∀ j, min count (ino.iSize - pos) ≤ j → res.buf j = buf j) ∧
      c = content v.disk ino ∧
      ∀ counts : List ℕ, counts.sum = count →
        readChunks ino v.disk counts pos =
          some ((List.range (min count (ino.iSize - pos))).map res.buf, res.fdPos) := by
  have h := built_readable hb
  have hbuf := patched_slice h pos (available ino pos count)
    (by unfold available; omega) buf
  refine ⟨_, fileRead_eq h pos count hpos hcount hend buf, rfl, rfl, hbuf, ?_, h.content.symm, ?_⟩
  · intro j hj
    simp only
    exact patch_out (by unfold available; omega)
  · rintro counts rfl
    rw [readChunks_eq h counts hpos hcount hend]
    exact congrArg (fun l => some (l, _)) hbuf.symm

/-- Of 6600 bytes written to a fresh file 6400 are read from position 100 on, over the edge of the
direct blocks. -/
theorem file_read_returns_content_crossing :
    ∃ (v : Volume smallPartition) (ino : Inode) (res : ReadResult),
      Built v ino ((List.range 6600).map fun k => BitVec.ofNat 8 k) ∧
      fileRead true true 100 ino v.disk zeroes 6400 = some res ∧ res.ret = 6400 ∧
      (List.range 6400).map res.buf =
        (((List.range 6600).map fun k => BitVec.ofNat 8 k).drop 100).take 6400 := by
  obtain ⟨w, hw, hret⟩ := fileWrite_exists (fresh_layout (blankVolume smallPartition zeroes)
    (n := 1) (by decide)) (fresh_onDisk _ _) (by decide) 0 (fun k => BitVec.ofNat 8 k) 6600
    (by decide) (blank_free 1 (by decide))
  have hb := (Built.create (blankVolume smallPartition zeroes) (n := 1) (by decide)).write hw
  rw [if_neg hret, List.nil_append] at hb
  have hsz : w.inode.iSize = 6600 := by
    have := congrArg List.length (built_readable hb).content
    simpa [FsFileWrite.content] using this
  obtain ⟨res, hres, hr, -, hbuf, -⟩ := file_read_returns_content hb 100 6400
    (by omega) (by decide) (by omega) zeroes
  rw [hsz] at hr hbuf
  exact ⟨_, _, res, hb, hres, hr, hbuf⟩

end FsFileRead
