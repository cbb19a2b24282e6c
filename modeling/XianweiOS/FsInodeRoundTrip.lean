import XianweiOS.FsOpenFiles

/-! Writing an inode back and opening it again. The writer finds the record of
`i_no % 256`, the reader the record of `i_no`. -/
namespace FsInodeRoundTrip

open ByteStore HaltingProgram KernelBitmap DeviceIde FsVolume FsInodeTable FsOpenFiles

variable {part : Partition}

/-- `inode_sync`, then an `inode_open` of the same number: the fields come back, and the 76
bytes of every other record are as before. -/
def RoundTrip (s : Kernel part) (inode : Inode) (ioBuf : Bytes) : Prop :=
  ∃ d, inodeSync part s.vol.disk inode ioBuf = some d ∧
    (∃ a s' i, inodeOpen inode.iNo (s.withVol (s.vol.withDisk d)) = some (a, s') ∧
      s'.inodes a = some i ∧ i.Same inode) ∧
    ∀ m < 4096, m ≠ inode.iNo → ∀ b ∈ slot part m, d b = s.vol.disk b

/-- The inode is not in `open_inodes` and memory for it is there. -/
structure Uncached (s : Kernel part) (inodeNo : ℕ) : Prop where
  closed : findOpen s.inodes inodeNo s.openInodes = some none
  mallocInode : s.mallocs 0 = true
  mallocBuf : s.mallocs 1 = true

/-- The disk holds already what the call writes, at the place where it writes it. -/
structure AlreadyWritten (disk : Bytes) (part : Partition) (inode : Inode) : Prop where
  record : (diskInode part disk inode.iNo).Same inode
  target : ∀ b ∈ slot part (inode.iNo % 256),
    disk b = inode.pure.toBytes (b - slotAddr part (inode.iNo % 256))

/-- An inode that is not open is read from its record. -/
theorem inodeOpen_uncached {s : Kernel part} {n : ℕ} (h : Uncached s n) (hn : n < 4096) :
    ∃ a s', inodeOpen n s = some (a, s') ∧
      s'.inodes a = some { diskInode part s.vol.disk n with openCnts := 1 } := by
  obtain ⟨s', hl, hi⟩ : ∃ s', inodeLoad n s = some (s.next, s') ∧
      s'.inodes s.next = some { diskInode part s.vol.disk n with openCnts := 1 } := by
    have hm : (sysMalloc s).1 = true ∧ (sysMalloc (sysMalloc s).2).1 = true :=
      ⟨h.mallocInode, h.mallocBuf⟩
    simp only [inodeLoad, assert_pos hm, inodeRead_eq part _ hn]
    exact ⟨_, rfl, Function.update_self _ _ _⟩
  refine ⟨s.next, s', ?_, hi⟩
  rw [inodeOpen, h.closed, Option.bind_eq_bind, Option.bind_some]
  exact hl

theorem roundTrip_iff_disk {s : Kernel part} {inode : Inode} (h : Uncached s inode.iNo)
    (hn : inode.iNo < 4096) (ioBuf : Bytes) :
    RoundTrip s inode ioBuf ↔
      (diskInode part (patch s.vol.disk (slotAddr part (inode.iNo % 256)) 76 inode.pure.toBytes)
        inode.iNo).Same inode ∧
      ∀ m < 4096, m ≠ inode.iNo → ∀ b ∈ slot part m,
        patch s.vol.disk (slotAddr part (inode.iNo % 256)) 76 inode.pure.toBytes b =
          s.vol.disk b := by
  have hu : ∀ d, Uncached (s.withVol (s.vol.withDisk d)) inode.iNo := fun d =>
    ⟨h.closed, h.mallocInode, h.mallocBuf⟩
  constructor
  · rintro ⟨d, hd, ⟨a, s', i, ho, hi, hsame⟩, hrest⟩
    rw [inodeSync_eq] at hd
    obtain rfl := Option.some.inj hd
    obtain ⟨a', s'', ho', hi'⟩ := inodeOpen_uncached (hu _) hn
    obtain ⟨rfl, rfl⟩ := Prod.mk.inj (Option.some.inj (ho.symm.trans ho'))
    obtain rfl := Option.some.inj (hi.symm.trans hi')
    exact ⟨⟨hsame.no, hsame.size, hsame.sectors⟩, hrest⟩
  · rintro ⟨hsame, hrest⟩
    obtain ⟨a, s', ho, hi⟩ := inodeOpen_uncached (hu (patch s.vol.disk
      (slotAddr part (inode.iNo % 256)) 76 inode.pure.toBytes)) hn
    exact ⟨_, inodeSync_eq _ _ _ _, ⟨a, s', _, ho, hi, ⟨hsame.no, hsame.size, hsame.sectors⟩⟩, hrest⟩

/-- Behind 255 the call writes a foreign record, which must hold the same bytes already. -/
theorem roundTrip_needs {s : Kernel part} {inode : Inode} {ioBuf : Bytes}
    (h : Uncached s inode.iNo) (hn : inode.iNo < 4096) (hr : RoundTrip s inode ioBuf)
    (hbig : 256 ≤ inode.iNo) : AlreadyWritten s.vol.disk part inode := by
  obtain ⟨hsame, hrest⟩ := (roundTrip_iff_disk h hn ioBuf).mp hr
  have hne : inode.iNo % 256 ≠ inode.iNo := by omega
  refine ⟨?_, fun b hb => ?_⟩
  · rwa [diskInode_changes (changes_patch _ _ _ _) fun a ha => slot_disjoint part hne.symm ha]
      at hsame
  · rw [← hrest _ (by omega) hne b hb, patch_in hb]

/-- The round trip works for the numbers below 256 and, beyond them, only where the disk
needed no change. -/
theorem sync_open_round_trip_iff {s : Kernel part} {inode : Inode} (hf : inode.Fits)
    (hn : inode.iNo < 4096) (h : Uncached s inode.iNo) (ioBuf : Bytes) :
    RoundTrip s inode ioBuf ↔ inode.iNo < 256 ∨ AlreadyWritten s.vol.disk part inode := by
  constructor
  · intro hr
    by_cases hbig : 256 ≤ inode.iNo
    · exact Or.inr (roundTrip_needs h hn hr hbig)
    · exact Or.inl (by omega)
  · intro hc
    rw [roundTrip_iff_disk h hn]
    rcases hc with hsmall | ⟨hrec, htarget⟩
    · rw [Nat.mod_eq_of_lt hsmall]
      exact ⟨diskInode_patch_slot hf _, fun m _ hne b hb => patch_out (slot_disjoint part hne hb)⟩
    · have hsame : patch s.vol.disk (slotAddr part (inode.iNo % 256)) 76 inode.pure.toBytes =
          s.vol.disk := by
        funext b
        by_cases hb : b ∈ slot part (inode.iNo % 256)
        · rw [patch_in hb, htarget b hb]
        · exact patch_out hb
      rw [hsame]
      exact ⟨hrec, fun _ _ _ _ _ => rfl⟩

/-- A freshly mounted file system with nothing open. -/
def idleKernel (part : Partition) : Kernel part where
  vol := blankVolume part zeroes
  inodes := fun _ => none
  openInodes := []
  dirs := fun _ => none
  rootInode := 0
  fileTable := fun _ => ⟨0, 0, none⟩
  cur := ⟨fun _ => none, 0⟩
  next := 0
  mallocs := fun _ => true

/-- A file of 7000 bytes, with a table. -/
def tallFile (n : ℕ) : Inode := ⟨n, 7000, 2, true, fun k => if k < 13 then 613 + k else 0⟩

/-- The sixth record begins in one sector and ends in the next. A file of that number comes back
with its size and blocks; one of number 262 goes to the sixth record too, and does not. -/
theorem sync_open_round_trip_iff_sixth : Straddles 6 ∧
    RoundTrip (idleKernel smallPartition) (tallFile 6) zeroes ∧
    ¬RoundTrip (idleKernel smallPartition) (tallFile 262) zeroes := by
  have hf : ∀ n < 2 ^ 32, (tallFile n).Fits := by
    intro n hn
    refine ⟨hn, by simp only [tallFile]; omega, fun j hj => ?_⟩
    simp only [tallFile, if_pos hj]
    omega
  have hu : ∀ n, Uncached (idleKernel smallPartition) (tallFile n).iNo := fun _ => ⟨rfl, rfl, rfl⟩
  refine ⟨by decide, (sync_open_round_trip_iff (hf 6 (by omega)) (by decide) (hu 6) zeroes).mpr
    (Or.inl (by decide)), fun hr => ?_⟩
  rcases (sync_open_round_trip_iff (hf 262 (by omega)) (by decide) (hu 262) zeroes).mp hr with
    hsmall | hwritten
  · exact absurd hsmall (by decide)
  · have hno := hwritten.record.no
    simp only [diskInode, Inode.ofBytes, idleKernel, blankVolume, word, zeroes, tallFile] at hno
    exact absurd hno (by decide)

/-- Inode 256 is written over the record of inode 0 and read back as inode 0. -/
theorem sync_open_loses_inode_256 :
    ¬RoundTrip (idleKernel smallPartition) (inodeInit 256) zeroes := by
  intro hr
  have hw := roundTrip_needs (s := idleKernel smallPartition) ⟨rfl, rfl, rfl⟩ (by decide) hr
    (by decide)
  have hno := hw.record.no
  simp only [diskInode, Inode.ofBytes, idleKernel, blankVolume, word, zeroes, inodeInit] at hno
  exact absurd hno (by decide)

end FsInodeRoundTrip
