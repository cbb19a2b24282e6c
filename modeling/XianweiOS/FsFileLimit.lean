import XianweiOS.FsFileRead

/-! The size limit of a file. Three tests are meant to describe the same maximum of 71680 bytes:
the sum of size and count in `file_write`, its number of blocks with one more for the block
behind the last byte, and the end block of `file_read`. A record in two sectors stops the writer
before any of them matters. -/
namespace FsFileLimit

open ByteStore HaltingProgram KernelBitmap DeviceIde FsVolume FsInodeTable FsBlockMap FsOwnership
  FsFreeBlocks FsFileWrite FsFileAppend FsFileRead

variable {part : Partition} {v : Volume part} {ino : Inode}

/-- A file of up to 71680 bytes with the blocks its size asks for. -/
structure SizedFile (v : Volume part) (ino : Inode) : Prop where
  owns : Owns v (ref v.disk ino)
  fits : ino.Fits
  size : ino.iSize ≤ 71680
  blocks : FileBlocks (ref v.disk ino) ino.iSize ∨
    (ino.iSize = 0 ∧ ∀ p < 141, ref v.disk ino p = 0)
  onDisk : OnDisk (ref v.disk ino)

theorem SizedFile.layout (h : SizedFile v ino) (hlt : ino.iSize < 71680) : FileLayout v ino :=
  ⟨h.owns, h.fits, hlt, h.blocks⟩

theorem SizedFile.readable (h : SizedFile v ino) (hlt : ino.iSize < 71680) :
    Readable v ino (content v.disk ino) := by
  refine ⟨h.layout hlt, fun k hk => h.onDisk _ (by omega), ?_, rfl⟩
  have := h.onDisk 140 (by omega)
  rwa [ref_table] at this

/-- What the limit promises: a write beyond it is refused and changes nothing, any other write
succeeds and the whole file can be read back. -/
structure LimitKept (v : Volume part) (ino : Inode) (pos : ℕ) (buf : Bytes) (count : ℕ) : Prop where
  refused : 71680 < ino.iSize + count →
    ∀ m₁ m₂, fileWrite m₁ m₂ pos ino v buf count = some ⟨-1, pos, ino, v⟩
  written : ino.iSize + count ≤ 71680 →
    ∃ res, fileWrite true true pos ino v buf count = some res ∧ res.ret = count ∧
      res.inode.iSize = ino.iSize + count ∧
      ∀ out, ∃ r, fileRead true true 0 res.inode res.vol.disk out res.inode.iSize = some r ∧
        r.ret = (ino.iSize + count : ℕ) ∧
        (List.range (ino.iSize + count)).map r.buf =
          content v.disk ino ++ (List.range count).map buf

section Write

variable {pos count : ℕ} {buf : Bytes} {res : WriteResult part}

theorem fileWrite_refused (h : 71680 < (ino.iSize + count) % 2 ^ 32) (m₁ m₂ : Bool) :
    fileWrite m₁ m₂ pos ino v buf count = some ⟨-1, pos, ino, v⟩ := by
  have h' : (ino.iSize + count) % 2 ^ 32 > 512 * 140 := h
  simp only [fileWrite, if_pos h']
  rfl

theorem writeFirstBlock_ok {ino' : Inode} {v' : Volume part} {ok : Bool}
    (h : writeFirstBlock ino v = some (ok, ino', v')) : ok = true ∧ ino'.SameHead ino := by
  rw [writeFirstBlock] at h
  split at h
  · rw [bind_some_iff] at h
    obtain ⟨⟨r, v₁⟩, hal, h⟩ := h
    obtain ⟨i, rfl, -, -⟩ := blockBitmapAlloc_some hal
    simp only [bind_some_iff, Option.pure_def, Option.some.injEq, Prod.mk.injEq] at h
    obtain ⟨-, -, rfl, rfl, -⟩ := h
    exact ⟨rfl, setSector_head _ _ _⟩
  · obtain ⟨rfl, rfl, -⟩ := by simpa using h
    exact ⟨rfl, Inode.SameHead.refl _⟩

/-- A call that passes the test of the sum needs few enough blocks and returns a count. -/
theorem fileWrite_passed (h : fileWrite true true pos ino v buf count = some res)
    (hsum : (ino.iSize + count) % 2 ^ 32 ≤ 71680) :
    (ino.iSize + count) % 2 ^ 32 / 512 + 1 ≤ 140 ∧ res.ret ≠ -1 := by
  have hsum' : ¬ (ino.iSize + count) % 2 ^ 32 > 512 * 140 := by omega
  simp only [fileWrite, if_neg hsum', Bool.true_eq_false, ↓reduceIte, bind_some_iff] at h
  obtain ⟨⟨ok₁, ino₁, v₁⟩, h₁, h⟩ := h
  obtain ⟨rfl, hhead⟩ := writeFirstBlock_ok h₁
  simp only [Bool.true_eq_false, ↓reduceIte, bind_some_iff, assert_eq_some, hhead.size] at h
  obtain ⟨-, hwill, ⟨ok₂, ab, ino₂, v₂⟩, h₂, h⟩ := h
  obtain ⟨rfl, -⟩ := writeBlocks_ok h₂
  simp only [Bool.true_eq_false, ↓reduceIte, bind_some_iff] at h
  obtain ⟨⟨bw, pos', ino₃, d⟩, -, d', -, h⟩ := h
  obtain rfl := Option.some.inj h
  exact ⟨hwill, by simp only; omega⟩

/-- The last of the 71680 bytes would need a 141st block. -/
theorem fileWrite_full (h : (ino.iSize + count) % 2 ^ 32 = 71680) :
    fileWrite true true pos ino v buf count = none := by
  by_contra hne
  obtain ⟨res, hres⟩ := Option.ne_none_iff_exists'.mp hne
  have := (fileWrite_passed hres h.le).1
  omega

end Write

/-- From 71168 bytes on the end block of a read of the whole file is out of range. -/
theorem fileRead_whole_none {disk out : Bytes} (h : 71168 ≤ ino.iSize) (hlt : ino.iSize < 2 ^ 32) :
    fileRead true true 0 ino disk out ino.iSize = none := by
  have hmod : (0 + ino.iSize) % 2 ^ 32 = ino.iSize := by omega
  have hend : ¬ (ino.iSize / 512 < 139 ∧ 0 / 512 < 139) := by omega
  simp only [fileRead, hmod, gt_iff_lt, lt_irrefl, ↓reduceIte, false_and, Bool.true_eq_false,
    assert, if_neg hend, Option.bind_eq_bind, Option.bind_none]

/-- The limit is kept exactly when the new size stays below 71168, the size that fills 139 blocks,
and the record of the inode lies in one sector, or when the new size is above 71680 and does not
wrap around. -/
theorem file_size_limit_iff (h : SizedFile v ino) {count : ℕ} (hcount : count < 2 ^ 32)
    (hfree : ino.iSize + count ≤ 71680 → blocksNeeded ino count ≤ freeBlocks v) (pos : ℕ)
    (buf : Bytes) :
    LimitKept v ino pos buf count ↔
      (ino.iSize + count < 71168 ∧ ¬Straddles (ino.iNo % 256)) ∨
        (71680 < ino.iSize + count ∧ ino.iSize + count < 2 ^ 32) := by
  have hsize := h.size
  constructor
  · intro hk
    by_contra hnot
    by_cases hbig : 71680 < ino.iSize + count
    · -- the sum wraps to a small one
      exact (fileWrite_passed (hk.refused hbig true true) (by omega)).2 rfl
    obtain ⟨res, hres, -, hsz, hread⟩ := hk.written (by omega)
    obtain ⟨hblocks, hret⟩ := fileWrite_passed hres (by omega)
    by_cases hlt : ino.iSize + count < 71168
    · have hstr : Straddles (ino.iNo % 256) := by
        by_contra hone
        exact hnot (Or.inl ⟨hlt, hone⟩)
      rw [fileWrite_straddling hres (h.layout (by omega)) hstr] at hret
      exact hret rfl
    obtain ⟨r, hr, -⟩ := hread zeroes
    rw [fileRead_whole_none (by omega) (by omega)] at hr
    cases hr
  · rintro (⟨hlt, hone⟩ | ⟨hbig, hw⟩)
    · refine ⟨fun hbig => by omega, fun _ => ?_⟩
      have hlen : ino.iSize + count < 71680 := by omega
      have hlay := h.layout (by omega)
      obtain ⟨res, hres, hret⟩ := fileWrite_exists hlay h.onDisk hone pos buf count hlen
        (hfree (by omega))
      have hread := readable_write (h.readable (by omega)) hres
      rw [if_neg hret] at hread
      rcases fileWrite_some hres hlay with rfl | ⟨-, v', happ, hcnt, -, -⟩
      · exact absurd rfl hret
      have hsz : res.inode.iSize = ino.iSize + count := happ.head.size
      refine ⟨res, hres, hcnt, hsz, fun out => ?_⟩
      have hav : available res.inode 0 res.inode.iSize = res.inode.iSize := by
        simp [available]
      have hrd := fileRead_eq hread 0 res.inode.iSize (Nat.zero_le _) (by omega)
        (by rw [hav]; omega) out
      rw [hav] at hrd
      refine ⟨_, hrd, ?_, ?_⟩
      · rw [if_neg (by omega), hsz]
      · rw [← hread.content, FsFileWrite.content, hsz]
        apply List.map_congr_left
        intro j hj
        have hj := List.mem_range.mp hj
        dsimp only
        rw [patch_in (by omega), Nat.sub_zero, Nat.zero_add]
    · exact ⟨fun _ => fileWrite_refused (by omega), fun hle => by omega⟩

theorem sizedFile_fresh (v : Volume part) {n : ℕ} (hn : n < 2 ^ 32) :
    SizedFile v (inodeInit n) :=
  ⟨(fresh_layout v hn).owns, (fresh_layout v hn).fits, by simp [inodeInit],
    (fresh_layout v hn).blocks, fresh_onDisk _ _⟩

/-- The empty partition has 388 free blocks. -/
theorem blank_freeBlocks : 388 ≤ freeBlocks (blankVolume smallPartition zeroes) :=
  freeBlocks_blank smallPartition zeroes _ (by decide) (by decide)

/-- On both sides of the limit: 71167 bytes are written and read back and 71681 are refused, but
71168 bytes are not read back, and the sixth record does not take a single byte. -/
theorem file_size_limit_iff_sides :
    LimitKept (blankVolume smallPartition zeroes) (inodeInit 1) 0 (fun _ => 65) 71167 ∧
    LimitKept (blankVolume smallPartition zeroes) (inodeInit 1) 0 (fun _ => 65) 71681 ∧
    ¬LimitKept (blankVolume smallPartition zeroes) (inodeInit 1) 0 (fun _ => 65) 71168 ∧
    ¬LimitKept (blankVolume smallPartition zeroes) (inodeInit 6) 0 (fun _ => 65) 1 := by
  have hfresh : ∀ n < 256, SizedFile (blankVolume smallPartition zeroes) (inodeInit n) :=
    fun n hn => sizedFile_fresh _ (by omega)
  have hsize : ∀ n, (inodeInit n).iSize = 0 := fun _ => rfl
  have hiff : ∀ n < 256, ∀ count < 2 ^ 32, (count ≤ 71680 → count < 71680) →
      (LimitKept (blankVolume smallPartition zeroes) (inodeInit n) 0 (fun _ => 65) count ↔
        (count < 71168 ∧ ¬Straddles (n % 256)) ∨ (71680 < count ∧ count < 2 ^ 32)) := by
    intro n hn count hcount hlt
    have := file_size_limit_iff (hfresh n hn) hcount
      (fun hle => blank_free n (by rw [hsize, Nat.zero_add] at hle; exact hlt hle)) 0 fun _ => 65
    rwa [hsize, Nat.zero_add] at this
  refine ⟨(hiff 1 (by omega) _ (by omega) (by omega)).mpr (Or.inl ⟨by omega, by decide⟩),
    (hiff 1 (by omega) _ (by omega) (by omega)).mpr (Or.inr ⟨by omega, by omega⟩),
    fun hk => ?_, fun hk => ?_⟩
  · have := (hiff 1 (by omega) _ (by omega) (by omega)).mp hk
    omega
  · rcases (hiff 6 (by omega) _ (by omega) (by omega)).mp hk with ⟨-, hone⟩ | ⟨hbig, -⟩
    · exact hone (by decide)
    · omega

/-- 71680 bytes written to a fresh file of an empty partition: an assertion fails. -/
theorem file_size_limit_full : SizedFile (blankVolume smallPartition zeroes) (inodeInit 1) ∧
    (inodeInit 1).iSize + 71680 ≤ 71680 ∧
    blocksNeeded (inodeInit 1) 71680 ≤ freeBlocks (blankVolume smallPartition zeroes) ∧
    fileWrite true true 0 (inodeInit 1) (blankVolume smallPartition zeroes) (fun _ => 65) 71680 =
      none ∧
    ¬ LimitKept (blankVolume smallPartition zeroes) (inodeInit 1) 0 (fun _ => 65) 71680 := by
  have hnone : fileWrite true true 0 (inodeInit 1) (blankVolume smallPartition zeroes)
      (fun _ => 65) 71680 = none := fileWrite_full (by decide)
  refine ⟨sizedFile_fresh _ (by decide), by decide,
    le_trans (by decide) blank_freeBlocks, hnone, fun hk => ?_⟩
  obtain ⟨res, hres, -⟩ := hk.written (by decide)
  rw [hnone] at hres
  cases hres

end FsFileLimit
