import XianweiOS.FsVolume

/-! The inode table of `fs/inode.c`: 76-byte records packed over 512-byte sectors. The
writer narrows the inode number to 8 bits (`uint8_t inode_no`), the reader does not. A
caller's `io_buf` is a scratch buffer: what it holds on entry reaches no result, and where it is
not said to be shorter it has the two sectors that a record may lie in. -/
namespace FsInodeTable

open ByteStore HaltingProgram DeviceIde FsVolume

/-- `struct inode` without its list tag. `bool` is an `int` in the source. -/
structure Inode where
  iNo : ℕ
  iSize : ℕ
  openCnts : ℕ
  writeDeny : Bool
  iSectors : ℕ → ℕ

structure InodePosition where
  twoSec : Bool
  secLba : ℕ
  offSize : ℕ
  deriving DecidableEq, Repr

def inodeSize : ℕ := 76

def inodeLocate (part : Partition) (inodeNo : ℕ) : Option InodePosition := do
  assert (inodeNo < 4096)
  let offSize := inodeNo * inodeSize
  let offSec := offSize / 512
  let offSizeInSec := offSize % 512
  let leftInSec := 512 - offSizeInSec
  return ⟨decide (leftInSec < inodeSize), part.sb.inodeTableLba + offSec, offSizeInSec⟩

/-- The record as nineteen words; the two pointers of the list tag are cleared on disk. -/
def Inode.words (i : Inode) (k : ℕ) : ℕ :=
  if k = 0 then i.iNo else if k = 1 then i.iSize else if k = 2 then i.openCnts
  else if k = 3 then i.writeDeny.toNat else if k < 17 then i.iSectors (k - 4) else 0

def Inode.toBytes (i : Inode) : Bytes := ofWords i.words

def Inode.ofBytes (m : Bytes) (a : ℕ) : Inode where
  iNo := word m a
  iSize := word m (a + 4)
  openCnts := word m (a + 8)
  writeDeny := word m (a + 12) != 0
  iSectors := fun j => if j < 13 then word m (a + 16 + 4 * j) else 0

def Inode.pure (i : Inode) : Inode := { i with openCnts := 0, writeDeny := false }

def inodeSync (part : Partition) (disk : Bytes) (inode : Inode) (ioBuf : Bytes) :
    Option Bytes := do
  let inodeNo := inode.iNo % 256
  let inodePos ← inodeLocate part inodeNo
  assert (inodePos.secLba ≤ part.startLba + part.secCnt)
  if inodePos.twoSec then
    let inodeBuf ← ideRead disk inodePos.secLba ioBuf 2
    ideWrite disk inodePos.secLba
      (patch inodeBuf inodePos.offSize inodeSize inode.pure.toBytes) 2
  else
    let inodeBuf ← ideRead disk inodePos.secLba ioBuf 1
    ideWrite disk inodePos.secLba
      (patch inodeBuf inodePos.offSize inodeSize inode.pure.toBytes) 1

/-- `inode_sync` into a buffer of `size` bytes. What is read behind its end lands in memory that
belongs to others, so nothing is said about what happens then. -/
def inodeSyncIn (size : ℕ) (part : Partition) (disk : Bytes) (inode : Inode) (ioBuf : Bytes) :
    Option Bytes := do
  let inodePos ← inodeLocate part (inode.iNo % 256)
  assert ((512 * if inodePos.twoSec then 2 else 1) ≤ size)
  inodeSync part disk inode ioBuf

/-- The part of `inode_open` that reads an inode not yet open. -/
def inodeRead (part : Partition) (disk : Bytes) (inodeNo : ℕ) : Option Inode := do
  let inodePos ← inodeLocate part inodeNo
  let inodeBuf ← ideRead disk inodePos.secLba zeroes (if inodePos.twoSec then 2 else 1)
  return Inode.ofBytes inodeBuf inodePos.offSize

def inodeInit (inodeNo : ℕ) : Inode := ⟨inodeNo, 0, 0, false, fun _ => 0⟩

def inodeDelete (part : Partition) (disk : Bytes) (inodeNo : ℕ) (ioBuf : Bytes) :
    Option Bytes := do
  assert (inodeNo < 4096)
  let inodePos ← inodeLocate part inodeNo
  assert (inodePos.secLba ≤ part.startLba + part.secCnt)
  if inodePos.twoSec then
    let inodeBuf ← ideRead disk inodePos.secLba ioBuf 2
    ideWrite disk inodePos.secLba (patch inodeBuf inodePos.offSize inodeSize zeroes) 2
  else
    let inodeBuf ← ideRead disk inodePos.secLba ioBuf 1
    ideWrite disk inodePos.secLba (patch inodeBuf inodePos.offSize inodeSize zeroes) 1

def Inode.setSector (i : Inode) (k lba : ℕ) : Inode :=
  { i with iSectors := Function.update i.iSectors k lba }

theorem setSector_self (i : Inode) (k x : ℕ) : (i.setSector k x).iSectors k = x :=
  Function.update_self _ _ _

theorem setSector_of_ne (i : Inode) {j k : ℕ} (h : j ≠ k) (x : ℕ) :
    (i.setSector k x).iSectors j = i.iSectors j := Function.update_of_ne h _ _

/-- Byte address of the record of inode `n`. -/
def slotAddr (part : Partition) (n : ℕ) : ℕ := 512 * part.sb.inodeTableLba + 76 * n

def slot (part : Partition) (n : ℕ) : Set ℕ := span (slotAddr part n) 76

/-- Inode `n` as the disk holds it. -/
def diskInode (part : Partition) (disk : Bytes) (n : ℕ) : Inode :=
  Inode.ofBytes disk (slotAddr part n)

/-- Every field is a `uint32_t`. -/
structure Inode.Fits (i : Inode) : Prop where
  no : i.iNo < 2 ^ 32
  size : i.iSize < 2 ^ 32
  sectors : ∀ j < 13, i.iSectors j < 2 ^ 32

/-- The same file: number, size and block pointers. -/
structure Inode.Same (i j : Inode) : Prop where
  no : i.iNo = j.iNo
  size : i.iSize = j.iSize
  sectors : ∀ k < 13, i.iSectors k = j.iSectors k

theorem Inode.Same.refl (i : Inode) : i.Same i := ⟨rfl, rfl, fun _ _ => rfl⟩

theorem Inode.Same.symm {i j : Inode} (h : i.Same j) : j.Same i :=
  ⟨h.no.symm, h.size.symm, fun k hk => (h.sectors k hk).symm⟩

theorem Inode.Same.trans {i j k : Inode} (h : i.Same j) (h' : j.Same k) : i.Same k :=
  ⟨h.no.trans h'.no, h.size.trans h'.size,
    fun l hl => (h.sectors l hl).trans (h'.sectors l hl)⟩

/-- The same file but for the block pointers. -/
structure Inode.SameHead (i j : Inode) : Prop where
  no : i.iNo = j.iNo
  size : i.iSize = j.iSize
  cnts : i.openCnts = j.openCnts
  deny : i.writeDeny = j.writeDeny

theorem Inode.SameHead.refl (i : Inode) : i.SameHead i := ⟨rfl, rfl, rfl, rfl⟩

theorem Inode.SameHead.trans {i j k : Inode} (h : i.SameHead j) (h' : j.SameHead k) :
    i.SameHead k :=
  ⟨h.no.trans h'.no, h.size.trans h'.size, h.cnts.trans h'.cnts, h.deny.trans h'.deny⟩

theorem setSector_head (i : Inode) (k x : ℕ) : (i.setSector k x).SameHead i :=
  ⟨rfl, rfl, rfl, rfl⟩

theorem inodeLocate_eq (part : Partition) {n : ℕ} (hn : n < 4096) :
    inodeLocate part n = some ⟨decide (512 - 76 * n % 512 < 76),
      part.sb.inodeTableLba + 76 * n / 512, 76 * n % 512⟩ := by
  simp only [inodeLocate, assert_pos hn, inodeSize, Nat.mul_comm n 76]
  rfl

theorem slotAddr_eq (part : Partition) (n : ℕ) :
    slotAddr part n = 512 * (part.sb.inodeTableLba + 76 * n / 512) + 76 * n % 512 := by
  unfold slotAddr
  omega

/-- The sectors a record touches lie inside the table, for all 4096 numbers. -/
theorem slot_sectors (part : Partition) {n : ℕ} (hn : n < 4096) :
    part.sb.inodeTableLba + 76 * n / 512 + 1 ≤ maxLba + 1 ∧
    part.sb.inodeTableLba + 76 * n / 512 ≤ part.startLba + part.secCnt ∧
    (512 - 76 * n % 512 < 76 → part.sb.inodeTableLba + 76 * n / 512 + 2 ≤ maxLba + 1) := by
  have hb := part.bounds
  simp only [maxLba]
  refine ⟨by omega, by omega, fun _ => by omega⟩

/-- Reading the sectors of a record, changing the record in the buffer and writing the
sectors back patches the 76 bytes of the record, in the one- and the two-sector case. -/
private theorem rewrite_record (part : Partition) (disk ioBuf src : Bytes) {n : ℕ}
    (hn : n < 4096) :
    (if decide (512 - 76 * n % 512 < 76) = true then do
      let inodeBuf ← ideRead disk (part.sb.inodeTableLba + 76 * n / 512) ioBuf 2
      ideWrite disk (part.sb.inodeTableLba + 76 * n / 512)
        (patch inodeBuf (76 * n % 512) inodeSize src) 2
    else do
      let inodeBuf ← ideRead disk (part.sb.inodeTableLba + 76 * n / 512) ioBuf 1
      ideWrite disk (part.sb.inodeTableLba + 76 * n / 512)
        (patch inodeBuf (76 * n % 512) inodeSize src) 1) =
    some (patch disk (slotAddr part n) 76 src) := by
  obtain ⟨h1, -, h2⟩ := slot_sectors part hn
  rw [slotAddr_eq]
  by_cases htwo : 512 - 76 * n % 512 < 76
  · rw [if_pos (by simpa using htwo), ideRead_eq (by omega) (h2 htwo), Option.bind_eq_bind,
      Option.bind_some, ideWrite_eq (by omega) (h2 htwo)]
    exact congrArg some (patch_patch_window disk src (by simp only [inodeSize]; omega) ioBuf)
  · rw [if_neg (by simpa using htwo), ideRead_eq (by omega) h1, Option.bind_eq_bind,
      Option.bind_some, ideWrite_eq (by omega) h1]
    exact congrArg some (patch_patch_window disk src (by simp only [inodeSize]; omega) ioBuf)

theorem inodeSync_eq (part : Partition) (disk : Bytes) (inode : Inode) (ioBuf : Bytes) :
    inodeSync part disk inode ioBuf =
      some (patch disk (slotAddr part (inode.iNo % 256)) 76 inode.pure.toBytes) := by
  have hn : inode.iNo % 256 < 4096 := by omega
  simp only [inodeSync, inodeLocate_eq part hn, assert_pos (slot_sectors part hn).2.1,
    Option.bind_eq_bind, Option.bind_some]
  exact rewrite_record part disk ioBuf _ hn

/-- The record of inode `n` lies in two sectors. -/
def Straddles (n : ℕ) : Prop := 512 - 76 * n % 512 < 76

instance : DecidablePred Straddles := fun _ => inferInstanceAs (Decidable (_ < _))

theorem inodeSyncIn_eq (size : ℕ) (part : Partition) (disk : Bytes) (inode : Inode)
    (ioBuf : Bytes) : inodeSyncIn size part disk inode ioBuf =
      if (512 * if Straddles (inode.iNo % 256) then 2 else 1) ≤ size then
        inodeSync part disk inode ioBuf
      else none := by
  rw [inodeSyncIn, inodeLocate_eq part (by omega), Option.bind_eq_bind, Option.bind_some]
  simp only [decide_eq_true_eq]
  by_cases hfits : (512 * if Straddles (inode.iNo % 256) then 2 else 1) ≤ size
  · rw [if_pos hfits]
    exact congrArg (· >>= fun _ => inodeSync part disk inode ioBuf) (assert_pos hfits)
  · rw [if_neg hfits]
    exact congrArg (· >>= fun _ => inodeSync part disk inode ioBuf) (if_neg hfits)

/-- Two sectors are enough for every record. -/
theorem inodeSyncIn_two (part : Partition) (disk : Bytes) (inode : Inode) (ioBuf : Bytes) :
    inodeSyncIn 1024 part disk inode ioBuf = inodeSync part disk inode ioBuf := by
  rw [inodeSyncIn_eq, if_pos]
  split
  · exact le_rfl
  · decide

/-- One sector is enough for a record that lies in one. -/
theorem inodeSyncIn_one (part : Partition) (disk : Bytes) (inode : Inode) (ioBuf : Bytes) :
    inodeSyncIn 512 part disk inode ioBuf =
      if Straddles (inode.iNo % 256) then none else inodeSync part disk inode ioBuf := by
  rw [inodeSyncIn_eq]
  by_cases hstr : Straddles (inode.iNo % 256)
  · rw [if_pos hstr, if_pos hstr, if_neg (by decide)]
  · rw [if_neg hstr, if_neg hstr, if_pos (by decide)]

theorem inodeSyncIn_some {disk d : Bytes} {inode : Inode} {ioBuf : Bytes}
    (h : inodeSyncIn 512 part disk inode ioBuf = some d) : ¬Straddles (inode.iNo % 256) ∧
      d = patch disk (slotAddr part (inode.iNo % 256)) 76 inode.pure.toBytes := by
  rw [inodeSyncIn_one] at h
  split at h
  · cases h
  · rw [inodeSync_eq] at h
    exact ⟨‹_›, (Option.some.inj h).symm⟩

theorem inodeDelete_eq (part : Partition) (disk : Bytes) {n : ℕ} (hn : n < 4096)
    (ioBuf : Bytes) :
    inodeDelete part disk n ioBuf = some (patch disk (slotAddr part n) 76 zeroes) := by
  simp only [inodeDelete, inodeLocate_eq part hn, assert_pos hn,
    assert_pos (slot_sectors part hn).2.1, Option.bind_eq_bind, Option.bind_some]
  exact rewrite_record part disk ioBuf _ hn

/-- A record is decoded from its own 76 bytes. -/
theorem ofBytes_congr {m m' : Bytes} {a b : ℕ} (h : ∀ j < 76, m (a + j) = m' (b + j)) :
    Inode.ofBytes m a = Inode.ofBytes m' b := by
  have hw : ∀ o, o + 4 ≤ 76 → word m (a + o) = word m' (b + o) := by
    intro o ho
    apply word_congr
    intro j hj
    rw [Nat.add_assoc, Nat.add_assoc]
    exact h _ (by omega)
  have hs : ∀ j, j < 13 → word m (a + 16 + 4 * j) = word m' (b + 16 + 4 * j) := by
    intro j hj
    rw [Nat.add_assoc, Nat.add_assoc]
    exact hw _ (by omega)
  simp only [Inode.ofBytes, Inode.mk.injEq]
  refine ⟨hw 0 (by omega), hw 4 (by omega), hw 8 (by omega), by rw [hw 12 (by omega)], ?_⟩
  funext j
  split
  · exact hs j ‹_›
  · rfl

theorem inodeRead_eq (part : Partition) (disk : Bytes) {n : ℕ} (hn : n < 4096) :
    inodeRead part disk n = some (diskInode part disk n) := by
  obtain ⟨h1, -, h2⟩ := slot_sectors part hn
  have hread : ∀ cnt, 76 * n % 512 + 76 ≤ 512 * cnt →
      Inode.ofBytes (patch zeroes 0 (512 * cnt)
        (window disk (512 * (part.sb.inodeTableLba + 76 * n / 512)))) (76 * n % 512) =
      diskInode part disk n := by
    intro cnt hcnt
    apply ofBytes_congr
    intro j hj
    rw [patch_in (by omega), slotAddr_eq]
    simp only [window]
    congr 1
    omega
  simp only [inodeRead, inodeLocate_eq part hn, Option.bind_eq_bind, Option.bind_some]
  by_cases htwo : 512 - 76 * n % 512 < 76
  · simp only [htwo, decide_true, ↓reduceIte]
    rw [ideRead_eq (by omega) (h2 htwo)]
    exact congrArg some (hread 2 (by omega))
  · simp only [htwo, decide_false, Bool.false_eq_true, ↓reduceIte]
    rw [ideRead_eq (by omega) h1]
    exact congrArg some (hread 1 (by omega))

/-- Decoding what the writer packed gives number, size and block pointers back. -/
theorem ofBytes_toBytes {i : Inode} (h : i.Fits) : (Inode.ofBytes i.toBytes 0).Same i := by
  refine ⟨?_, ?_, ?_⟩
  · exact word_ofWords_of_lt (w := i.words) (k := 0) h.no
  · exact word_ofWords_of_lt (w := i.words) (k := 1) h.size
  · intro j hj
    have hw : i.words (4 + j) = i.iSectors j := by
      unfold Inode.words
      rw [if_neg (by omega), if_neg (by omega), if_neg (by omega), if_neg (by omega),
        if_pos (by omega), Nat.add_sub_cancel_left]
    have := word_ofWords_of_lt (w := i.words) (k := 4 + j) (by rw [hw]; exact h.sectors j hj)
    simp only [Inode.ofBytes, if_pos hj]
    rw [← hw, ← this]
    congr 1
    omega

theorem diskInode_patch_slot {part : Partition} {disk : Bytes} {i : Inode} (h : i.Fits) (n : ℕ) :
    (diskInode part (patch disk (slotAddr part n) 76 i.pure.toBytes) n).Same i := by
  have hp : i.pure.Fits := ⟨h.no, h.size, h.sectors⟩
  have he : diskInode part (patch disk (slotAddr part n) 76 i.pure.toBytes) n =
      Inode.ofBytes i.pure.toBytes 0 := by
    apply ofBytes_congr
    intro j hj
    rw [patch_in (by omega)]
    congr 1
    omega
  rw [he]
  exact (ofBytes_toBytes hp).trans ⟨rfl, rfl, fun _ _ => rfl⟩

/-- The records of two numbers share no byte. -/
theorem slot_disjoint (part : Partition) {n m : ℕ} (h : n ≠ m) {a : ℕ} (ha : a ∈ slot part n) :
    a ∉ slot part m := by
  simp only [slot, slotAddr, mem_span] at *
  omega

theorem diskInode_changes {part : Partition} {S : Set ℕ} {d d' : Bytes} (h : Changes S d d')
    {n : ℕ} (hd : ∀ a ∈ slot part n, a ∉ S) : diskInode part d' n = diskInode part d n :=
  ofBytes_congr fun j hj => h _ (hd _ ⟨by omega, by omega⟩)

end FsInodeTable
