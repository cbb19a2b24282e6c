import XianweiOS.FsWriters
import XianweiOS.FsFileLimit

/-! The position of an open file. `file_write` puts it one byte before the end of the file, as an
unsigned number, before it copies; `file_read` moves it; `sys_lseek` checks it with signed
arithmetic. It stays inside the file unless nothing is written to an empty one. -/
namespace FsFilePosition

open ByteStore HaltingProgram KernelBitmap DeviceIde FsVolume FsInodeTable FsBlockMap FsOwnership
  FsDirectory FsDirectorySlots FsFileWrite FsFileAppend FsFileRead FsFileLimit FsPath FsOpenFiles
  FsSyscalls FsReferenceCounts FsReferenceRuns FsKernelFrame FsFormat FsProcesses FsWriters

variable {part : Partition} {s s' : Kernel part}

/-- No slot of the file table that is not a pipe is positioned behind the end of its file. -/
def PositionsInside (s : Kernel part) : Prop :=
  ∀ k < maxFilesOpen, (s.fileTable k).fdFlag ≠ pipeFlag → ∀ a i,
    (s.fileTable k).fdInode = some a → s.inodes a = some i → (s.fileTable k).fdPos ≤ i.iSize

structure Positioned (s : Kernel part) : Prop where
  below : ∀ k < maxFilesOpen, ∀ a, (s.fileTable k).fdInode = some a → a < s.next
  fresh : ∀ a, s.next ≤ a → s.inodes a = none
  inside : PositionsInside s

def SameSize (i i' : Inode) : Prop := i'.iSize = i.iSize

def NoSmaller (i i' : Inode) : Prop := i.iSize ≤ i'.iSize

theorem sameSize_countFree : CountFree SameSize :=
  ⟨fun _ => rfl, fun h h' => Eq.trans h' h, fun _ _ => rfl⟩

theorem noSmaller_countFree : CountFree NoSmaller :=
  ⟨fun _ => le_rfl, Nat.le_trans, fun _ _ => le_rfl⟩

theorem Positioned.keeps (h : Positioned s) (hk : Keeps NoSmaller s s') : Positioned s' := by
  refine ⟨fun k hlt a ha => ?_, fun a ha => hk.fresh a ha (h.fresh a (hk.next.trans ha)),
    fun k hlt hp a i' ha hi => ?_⟩
  · rw [hk.fileTable] at ha
    exact Nat.lt_of_lt_of_le (h.below k hlt a ha) hk.next
  · rw [hk.fileTable] at hp ha ⊢
    obtain ⟨i, hi, hsize⟩ := hk.moved a (h.below k hlt a ha) i' hi
    exact (h.inside k hlt hp a i ha hi).trans hsize

theorem Positioned.sameSize (h : Positioned s) (hk : Keeps SameSize s s') : Positioned s' := by
  refine h.keeps ⟨hk.fileTable, hk.cur, hk.next, fun a ha i' hi => ?_, hk.fresh⟩
  obtain ⟨i, hi, hsize⟩ := hk.moved a ha i' hi
  exact ⟨i, hi, Nat.le_of_eq hsize.symm⟩

theorem Positioned.withCur (h : Positioned s) (t : Task) : Positioned { s with cur := t } :=
  ⟨h.below, h.fresh, h.inside⟩

theorem Positioned.withOpenInodes (h : Positioned s) (l : List ℕ) :
    Positioned { s with openInodes := l } := ⟨h.below, h.fresh, h.inside⟩

/-- A slot gets a file that is positioned inside its inode. -/
theorem Positioned.setFile (h : Positioned s) {k : ℕ} {f : File}
    (hf : ∀ a, f.fdInode = some a → a < s.next ∧
      (f.fdFlag ≠ pipeFlag → ∀ i, s.inodes a = some i → f.fdPos ≤ i.iSize)) :
    Positioned (s.setFile k f) := by
  refine ⟨fun j hj a ha => ?_, h.fresh, fun j hj hp a i ha hi => ?_⟩
  · by_cases hjk : j = k
    · subst j
      rw [s.setFile_self] at ha
      exact (hf a ha).1
    · rw [s.setFile_ne f hjk] at ha
      exact h.below j hj a ha
  · by_cases hjk : j = k
    · subst j
      rw [s.setFile_self] at hp ha ⊢
      exact (hf a ha).2 hp i hi
    · rw [s.setFile_ne f hjk] at hp ha ⊢
      exact h.inside j hj hp a i ha hi

theorem Positioned.lt (h : Positioned s) {a : ℕ} {i : Inode} (hi : s.inodes a = some i) :
    a < s.next := by
  by_contra hn
  rw [h.fresh a (Nat.le_of_not_lt hn)] at hi
  cases hi

theorem Positioned.pcbFdInstall (h : Positioned s) (k : ℕ) : Positioned (pcbFdInstall k s).2 := by
  rw [FsOpenFiles.pcbFdInstall]
  split
  · exact h
  · exact h.withCur _

/-- A file is opened at position 0. -/
theorem fileOpen_positioned {n flag : ℕ} {fd : ℤ} (h : fileOpen n flag s = some (fd, s'))
    (hs : Positioned s) : Positioned s' := by
  rw [fileOpen] at h
  split at h
  · obtain ⟨-, rfl⟩ := Prod.mk.inj (Option.some.inj h)
    exact hs
  · rename_i k hk
    rw [bind_some_iff] at h
    obtain ⟨⟨a, s₁⟩, hop, h⟩ := h
    have hs₁ := hs.sameSize (inodeOpen_keeps sameSize_countFree hop)
    simp only [bind_some_iff] at h
    obtain ⟨i, hi, h⟩ := h
    have hlt : ∀ b, some a = some b → b < s₁.next := by
      intro b hb
      obtain rfl := Option.some.inj hb
      exact hs₁.lt hi
    split at h
    · have he := (Prod.ext_iff.mp (Option.some.inj h)).2
      rw [← show _ = s' from he]
      exact (hs₁.setFile fun b hb => ⟨hlt b hb, fun _ _ _ => Nat.zero_le _⟩).pcbFdInstall k
    split at h
    · have hs₂ : Positioned (s₁.setInode a { i with writeDeny := true }) :=
        hs₁.sameSize (keeps_setInode sameSize_countFree hi rfl)
      have he := (Prod.ext_iff.mp (Option.some.inj h)).2
      rw [← show _ = s' from he]
      exact (hs₂.setFile fun b hb => ⟨hlt b hb, fun _ _ _ => Nat.zero_le _⟩).pcbFdInstall k
    · obtain ⟨-, rfl⟩ := Prod.mk.inj (Option.some.inj h)
      exact hs₁.setFile fun b hb => by cases hb

/-- The sizes of open files leave room for a directory entry below `2 ^ 32`. -/
def SlotsSmall (s : Kernel part) : Prop :=
  ∀ k < maxFilesOpen, ∀ a i, (s.fileTable k).fdInode = some a → s.inodes a = some i →
    i.iSize + 24 < 2 ^ 32

theorem SlotsSmall.keeps (h : SlotsSmall s) (hp : Positioned s) (hk : Keeps SameSize s s') :
    SlotsSmall s' := by
  intro k hlt a i' ha hi
  rw [hk.fileTable] at ha
  obtain ⟨i, hi, hsize⟩ := hk.moved a (hp.below k hlt a ha) i' hi
  rw [show i'.iSize = i.iSize from hsize]
  exact h k hlt a i ha hi

/-- An inode is replaced by one that is behind no position. -/
theorem Positioned.setInode (h : Positioned s) {a : ℕ} {i i' : Inode} (hi : s.inodes a = some i)
    (hle : ∀ k < maxFilesOpen, (s.fileTable k).fdFlag ≠ pipeFlag →
      (s.fileTable k).fdInode = some a → (s.fileTable k).fdPos ≤ i'.iSize) :
    Positioned (s.setInode a i') := by
  refine ⟨h.below, fun b hb => ?_, fun k hk hp b j hb hj => ?_⟩
  · have hba : b ≠ a := Nat.ne_of_gt (Nat.lt_of_lt_of_le (h.lt hi) hb)
    rw [s.setInode_ne _ hba]
    exact h.fresh b hb
  · by_cases hba : b = a
    · subst b
      obtain rfl := Option.some.inj ((s.setInode_self a i').symm.trans hj)
      exact hle k hk hp hb
    · rw [s.setInode_ne _ hba] at hj
      exact h.inside k hk hp b j hb hj

theorem fileCreateAt_positioned {pdir : Option DirPtr} {filename : List Byte} {n k flag : ℕ}
    {fd : ℤ} {v : Volume part}
    (h : fileCreateAt pdir filename n s.next k
      (((s.withVol v).newInode (inodeInit n)).setFile k ⟨0, flag, some s.next⟩) = some (fd, s'))
    (hs : Positioned s) (hsmall : SlotsSmall s) : Positioned s' := by
  have hkeep : Keeps SameSize s ((s.withVol v).newInode (inodeInit n)) :=
    (keeps_withVol sameSize_countFree s v).trans sameSize_countFree
      (keeps_newInode sameSize_countFree _ _)
  have ht : Positioned (((s.withVol v).newInode (inodeInit n)).setFile k ⟨0, flag, some s.next⟩) := by
    refine (hs.sameSize hkeep).setFile fun b hb => ?_
    obtain rfl := Option.some.inj hb
    exact ⟨Nat.lt_succ_self _, fun _ _ _ => Nat.zero_le _⟩
  have hnew : (((s.withVol v).newInode (inodeInit n)).setFile k ⟨0, flag, some s.next⟩).inodes
      s.next = some (inodeInit n) := Function.update_self _ _ _
  -- of the slots on the new inode, and on any other one
  have hfiles : ∀ j < maxFilesOpen,
      ((((s.withVol v).newInode (inodeInit n)).setFile k ⟨0, flag, some s.next⟩).fileTable j).fdInode =
        some s.next →
      ((((s.withVol v).newInode (inodeInit n)).setFile k ⟨0, flag, some s.next⟩).fileTable j).fdPos =
        0 := by
    intro j hj ha
    by_cases hjk : j = k
    · subst j
      rw [Kernel.setFile_self]
    · rw [Kernel.setFile_ne _ _ hjk] at ha
      exact absurd (hs.below j hj _ ha) (lt_irrefl _)
  have hroom : SlotsSmall
      (((s.withVol v).newInode (inodeInit n)).setFile k ⟨0, flag, some s.next⟩) := by
    intro j hj b i hb hi
    by_cases hjk : j = k
    · subst j
      rw [Kernel.setFile_self] at hb
      obtain rfl := Option.some.inj hb
      obtain rfl := Option.some.inj (hnew.symm.trans hi)
      exact show 0 + 24 < 2 ^ 32 by omega
    · rw [Kernel.setFile_ne _ _ hjk] at hb
      exact hsmall.keeps hs hkeep j hj b i hb hi
  generalize ((s.withVol v).newInode (inodeInit n)).setFile k ⟨0, flag, some s.next⟩ = t
    at h ht hnew hfiles hroom
  simp only [fileCreateAt, bind_some_iff] at h
  obtain ⟨e, -, a, -, i, hi, ⟨ok, i', v₁⟩, hsync, h⟩ := h
  have h₁ : Positioned (t.setInode a i') := by
    refine ht.setInode hi fun j hj hp hb => ?_
    have hle := ht.inside j hj hp a i hb hi
    have := hroom j hj a i hb hi
    rcases (syncDirEntry_entered hsync).size with hsz | hsz <;> omega
  split at h
  · obtain ⟨-, rfl⟩ := by simpa using h
    have h₂ : Positioned ((t.setInode a i').setFile k ⟨0, 0, none⟩) :=
      h₁.setFile fun b hb => by cases hb
    exact (h₂.sameSize (keeps_freeInode sameSize_countFree _ _)).sameSize
      (keeps_withVol sameSize_countFree _ _)
  · simp only [bind_some_iff] at h
    obtain ⟨v₂, -, h⟩ := h
    have he := (Prod.ext_iff.mp (Option.some.inj h)).2
    rw [← show _ = s' from he]
    obtain ⟨j, hj⟩ : ∃ j, ((t.setInode a i').withVol v₂).inodes s.next = some j := by
      by_cases hne : s.next = a
      · exact ⟨i', hne ▸ t.setInode_self a i'⟩
      · exact ⟨_, (t.setInode_ne i' hne).trans hnew⟩
    have h₂ : Positioned (((t.setInode a i').withVol v₂).setInode s.next
        { inodeInit n with openCnts := 1 }) := by
      refine (h₁.sameSize (keeps_withVol sameSize_countFree _ v₂)).setInode hj fun j hlt _ hb => ?_
      rw [show (((t.setInode a i').withVol v₂).fileTable j).fdPos = 0 from hfiles j hlt hb]
      exact Nat.zero_le _
    exact (h₂.withOpenInodes (s.next :: t.openInodes)).pcbFdInstall k

theorem fileCreate_positioned {pdir : Option DirPtr} {filename : List Byte} {flag : ℕ} {fd : ℤ}
    (h : fileCreate pdir filename flag s = some (fd, s')) (hs : Positioned s)
    (hsmall : SlotsSmall s) : Positioned s' := by
  have hk₁ := keeps_malloc sameSize_countFree s
  have hk₂ := hk₁.trans sameSize_countFree (keeps_malloc sameSize_countFree _)
  simp only [fileCreate] at h
  split at h
  · obtain ⟨-, rfl⟩ := Prod.mk.inj (Option.some.inj h)
    exact hs.sameSize hk₁
  · rw [bind_some_iff] at h
    obtain ⟨⟨r, v⟩, -, h⟩ := h
    cases r with
    | none =>
      obtain ⟨-, rfl⟩ := Prod.mk.inj (Option.some.inj h)
      exact hs.sameSize hk₁
    | some n =>
      have hback := (hs.sameSize hk₂).sameSize
        (keeps_withVol sameSize_countFree _ (v.setInodeBit n false))
      simp only at h
      split at h
      · obtain ⟨-, rfl⟩ := Prod.mk.inj (Option.some.inj h)
        exact hback
      · split at h
        · obtain ⟨-, rfl⟩ := Prod.mk.inj (Option.some.inj h)
          exact hback
        · exact fileCreateAt_positioned h (hs.sameSize hk₂) (hsmall.keeps hs hk₂)

theorem openFound_positioned {junk : Junk} {pathname : List Byte} {flags depth : ℕ}
    {no : Option ℕ} {record : PathSearchRecord} {fd : ℤ}
    (h : openFound junk pathname flags depth no record s = some (fd, s')) (hs : Positioned s)
    (hsmall : creates flags = true → SlotsSmall s) : Positioned s' := by
  unfold openFound at h
  split at h
  · exact hs.sameSize (closeParent_keeps sameSize_countFree h)
  · rw [bind_some_iff] at h
    obtain ⟨searched, -, h⟩ := h
    split at h
    · exact hs.sameSize (closeParent_keeps sameSize_countFree h)
    split at h
    · exact hs.sameSize (closeParent_keeps sameSize_countFree h)
    · exact hs.sameSize (closeParent_keeps sameSize_countFree h)
    · rename_i hcr
      simp only [bind_some_iff, Option.pure_def, Option.some.injEq, Prod.mk.injEq] at h
      obtain ⟨filename, -, ⟨fd', s₁⟩, hnew, s₂, hcl, -, rfl⟩ := h
      exact (fileCreate_positioned hnew hs (hsmall hcr)).sameSize
        (dirClose_keeps sameSize_countFree hcl)
    · exact fileOpen_positioned h hs

theorem sysOpen_positioned {junk : Junk} {pathname : List Byte} {flags : ℕ} {fd : ℤ}
    (h : sysOpen junk pathname flags s = some (fd, s')) (hs : Positioned s)
    (hsmall : creates flags = true → SlotsSmall s) : Positioned s' := by
  rw [sysOpen, bind_some_iff] at h
  obtain ⟨last, -, h⟩ := h
  split at h
  · obtain ⟨-, rfl⟩ := Prod.mk.inj (Option.some.inj h)
    exact hs
  · simp only [bind_some_iff, assert_eq_some] at h
    obtain ⟨-, -, depth, -, ⟨no, record, s₁⟩, hsearch, h⟩ := h
    have hk := searchFile_keeps sameSize_countFree hsearch
    exact openFound_positioned h (hs.sameSize hk) fun hc => (hsmall hc).keeps hs hk

section Loops

/-- The copying loop of `file_write` moves size and position by what it copies. -/
theorem writeLoop_moves {ab : ℕ → ℕ} {buf : Bytes} {count : ℕ} : ∀ (fuel : ℕ) {first : Bool}
    {bw pos bw' pos' : ℕ} {ino ino' : Inode} {d d' : Bytes},
    writeLoop ab buf count fuel first bw pos ino d = some (bw', pos', ino', d') →
    count - bw ≤ fuel → pos < 2 ^ 32 →
    ino'.iSize = ino.iSize + (count - bw) ∧ pos' = (pos + (count - bw)) % 2 ^ 32 := by
  intro fuel
  induction fuel with
  | zero =>
    intro first bw pos bw' pos' ino ino' d d' h hf hp
    obtain ⟨-, rfl, rfl, -⟩ := by simpa [writeLoop] using h
    omega
  | succ fuel ih =>
    intro first bw pos bw' pos' ino ino' d d' h hf hp
    unfold writeLoop at h
    split at h
    · simp only [bind_some_iff, assert_eq_some] at h
      obtain ⟨-, hsec, io, -, d₁, -, h⟩ := h
      obtain ⟨h₁, h₂⟩ := ih h (by omega) (by omega)
      simp only at h₁
      omega
    · obtain ⟨-, rfl, rfl, -⟩ := by simpa using h
      omega

/-- The loop of `file_read` does not get behind the last block. -/
theorem readLoop_moves {ab : ℕ → ℕ} {d : Bytes} {size : ℕ} : ∀ (fuel : ℕ)
    {br pos br' pos' : ℕ} {buf buf' : Bytes},
    readLoop ab d size fuel br pos buf = some (br', pos', buf') → size - br ≤ fuel → br ≤ size →
    pos' = pos + (size - br) ∧ (br < size → pos' ≤ 71680) := by
  intro fuel
  induction fuel with
  | zero =>
    intro br pos br' pos' buf buf' h hf hbr
    obtain ⟨-, rfl, -⟩ := by simpa [readLoop] using h
    omega
  | succ fuel ih =>
    intro br pos br' pos' buf buf' h hf hbr
    unfold readLoop at h
    split at h
    · simp only [bind_some_iff, assert_eq_some] at h
      obtain ⟨-, hsec, io, -, h⟩ := h
      obtain ⟨h₁, h₂⟩ := ih h (by omega) (by omega)
      omega
    · obtain ⟨-, rfl, -⟩ := by simpa using h
      omega

end Loops

/-- What a write returns is positioned inside the file, unless nothing went to an empty file. -/
theorem fileWrite_inside {m₁ m₂ : Bool} {pos count : ℕ} {ino : Inode} {v : Volume part}
    {buf : Bytes} {res : WriteResult part} (h : fileWrite m₁ m₂ pos ino v buf count = some res)
    (hpos : pos ≤ ino.iSize) (hne : ¬ (ino.iSize = 0 ∧ count = 0)) :
    ino.iSize ≤ res.inode.iSize ∧ res.fdPos ≤ res.inode.iSize := by
  simp only [fileWrite] at h
  split at h
  · obtain rfl := Option.some.inj h
    exact ⟨le_rfl, hpos⟩
  split at h
  · obtain rfl := Option.some.inj h
    exact ⟨le_rfl, hpos⟩
  split at h
  · obtain rfl := Option.some.inj h
    exact ⟨le_rfl, hpos⟩
  simp only [bind_some_iff] at h
  obtain ⟨⟨ok₁, ino₁, v₁⟩, h₁, h⟩ := h
  obtain ⟨rfl, hhead⟩ := writeFirstBlock_ok h₁
  simp only [Bool.true_eq_false, ↓reduceIte, bind_some_iff, assert_eq_some, hhead.size] at h
  obtain ⟨-, -, ⟨ok₂, ab, ino₂, v₂⟩, h₂, h⟩ := h
  obtain ⟨rfl, hhead₂⟩ := writeBlocks_ok h₂
  have hsz : ino₂.iSize = ino.iSize := hhead₂.size.trans hhead.size
  simp only [Bool.true_eq_false, ↓reduceIte, bind_some_iff, hsz] at h
  obtain ⟨⟨bw, pos', ino₃, d⟩, hloop, d', -, h⟩ := h
  obtain rfl := Option.some.inj h
  obtain ⟨hs, hp⟩ := writeLoop_moves _ hloop (by omega) (by omega)
  simp only
  omega

theorem fileRead_inside {m₁ m₂ : Bool} {pos count : ℕ} {ino : Inode} {disk buf : Bytes}
    {res : ReadResult} (h : fileRead m₁ m₂ pos ino disk buf count = some res)
    (hpos : pos ≤ ino.iSize) : res.fdPos ≤ ino.iSize := by
  simp only [fileRead] at h
  generalize hsize : (if (pos + count) % 2 ^ 32 > ino.iSize then
    (ino.iSize + 2 ^ 32 - pos) % 2 ^ 32 else count) = size at h
  split at h
  · obtain rfl := Option.some.inj h
    exact hpos
  split at h
  · obtain rfl := Option.some.inj h
    exact hpos
  split at h
  · obtain rfl := Option.some.inj h
    exact hpos
  simp only [bind_some_iff, assert_eq_some] at h
  obtain ⟨-, -, ab, -, ⟨br, pos', buf'⟩, hloop, h⟩ := h
  obtain rfl := Option.some.inj h
  obtain ⟨hp, hle⟩ := readLoop_moves _ hloop (by omega) (by omega)
  simp only
  split at hsize <;> omega

theorem fileWriteTo_positioned {k count : ℕ} {buf : Bytes} {ret : ℤ}
    (h : fileWriteTo k buf count s = some (ret, s')) (hs : Positioned s) (hk : k < maxFilesOpen)
    (hpipe : (s.fileTable k).fdFlag ≠ pipeFlag)
    (hne : ∀ a i, (s.fileTable k).fdInode = some a → s.inodes a = some i →
      ¬ (i.iSize = 0 ∧ count = 0)) : Positioned s' := by
  simp only [fileWriteTo, bind_some_iff, Option.pure_def, Option.some.injEq, Prod.mk.injEq] at h
  obtain ⟨a, ha, i, hi, res, hw, -, rfl⟩ := h
  obtain ⟨hsize, hpos⟩ := fileWrite_inside hw (hs.inside k hk hpipe a i ha hi) (hne a i ha hi)
  have hs₂ := (hs.sameSize (keeps_malloc sameSize_countFree s)).sameSize
    (keeps_malloc sameSize_countFree _)
  have hset : Keeps NoSmaller (sysMalloc (sysMalloc s).2).2
      ((sysMalloc (sysMalloc s).2).2.setInode a res.inode) :=
    keeps_setInode noSmaller_countFree hi hsize
  have hs₃ := (hs₂.keeps hset).sameSize (keeps_withVol sameSize_countFree _ res.vol)
  refine hs₃.setFile fun b hb => ?_
  obtain rfl := Option.some.inj (ha.symm.trans hb)
  refine ⟨hs.lt hi, fun _ j hj => ?_⟩
  obtain rfl := Option.some.inj ((Kernel.setInode_self _ a res.inode).symm.trans hj)
  exact hpos

theorem fileReadFrom_positioned {k count : ℕ} {buf : Bytes} {r : ℤ × Bytes}
    (h : fileReadFrom k buf count s = some (r, s')) (hs : Positioned s) (hk : k < maxFilesOpen)
    (hpipe : (s.fileTable k).fdFlag ≠ pipeFlag) : Positioned s' := by
  simp only [fileReadFrom, bind_some_iff, Option.pure_def, Option.some.injEq, Prod.mk.injEq] at h
  obtain ⟨a, ha, i, hi, res, hr, -, rfl⟩ := h
  have hs₂ := (hs.sameSize (keeps_malloc sameSize_countFree s)).sameSize
    (keeps_malloc sameSize_countFree _)
  refine hs₂.setFile fun b hb => ?_
  obtain rfl := Option.some.inj (ha.symm.trans hb)
  refine ⟨hs.lt hi, fun _ j hj => ?_⟩
  obtain rfl := Option.some.inj (hi.symm.trans hj)
  exact fileRead_inside hr (hs.inside k hk hpipe a i ha hi)

/-- `sys_write` to a file that is empty writes at least one byte. -/
def WriteFine (fd count : ℕ) (s : Kernel part) : Prop :=
  fd ≠ 1 → fd ≠ 2 → ∀ k a i, s.cur.fdTable fd = some k → (s.fileTable k).fdInode = some a →
    s.inodes a = some i → writable (s.fileTable k).fdFlag = true → ¬ (i.iSize = 0 ∧ count = 0)

theorem sysWrite_positioned {fd count : ℕ} {buf : Bytes} {ret : ℤ}
    (h : sysWrite fd buf count s = some (ret, s')) (hs : Positioned s)
    (hfine : WriteFine fd count s) : Positioned s' := by
  rw [sysWrite] at h
  split at h
  · rw [assert_bind] at h
    obtain ⟨-, rfl⟩ := Prod.mk.inj (Option.some.inj h.2)
    exact hs
  · rename_i hfd
    rw [not_or] at hfd
    rw [bind_some_iff] at h
    obtain ⟨k, hlocal, h⟩ := h
    obtain ⟨-, hlocal, hk⟩ := fdLocal2global_some hlocal
    rw [assert_bind] at h
    obtain ⟨hpipe, h⟩ := h
    split at h
    · rename_i hwr
      exact fileWriteTo_positioned h hs hk hpipe fun a i ha hi =>
        hfine hfd.1 hfd.2 k a i hlocal ha hi hwr
    · obtain ⟨-, rfl⟩ := Prod.mk.inj (Option.some.inj h)
      exact hs

theorem sysRead_positioned {fd count : ℕ} {buf : Bytes} {r : ℤ × Bytes}
    (h : sysRead fd buf count s = some (r, s')) (hs : Positioned s) : Positioned s' := by
  rw [sysRead] at h
  split at h
  · obtain ⟨-, rfl⟩ := Prod.mk.inj (Option.some.inj h)
    exact hs
  · rw [assert_bind, bind_some_iff] at h
    obtain ⟨-, k, hlocal, h⟩ := h
    rw [assert_bind] at h
    exact fileReadFrom_positioned h.2 hs (fdLocal2global_some hlocal).2.2 h.1

theorem int32_range (x : ℤ) :
    -2147483648 ≤ int32 x ∧ int32 x < 2147483648 ∧ (int32 x - x) % 4294967296 = 0 := by
  rw [int32, Int.bmod]
  split <;> omega

/-- What `sys_lseek` accepts lies before the end of the file. -/
theorem seekTarget_le {fdPos size : ℕ} {offset : ℤ} {whence : Whence}
    (h : seekable fdPos size offset whence = true) :
    (seekTarget fdPos size offset whence).toNat ≤ size := by
  obtain ⟨h₀, hle⟩ := of_decide_eq_true h
  have h₁ := int32_range size
  have h₂ := int32_range (int32 size - 1)
  omega

theorem sysLseek_positioned {ioqWord fd : ℕ} {offset : ℤ} {whence : Whence} {ret : ℤ}
    (h : sysLseek ioqWord fd offset whence s = some (ret, s')) (hs : Positioned s) :
    Positioned s' := by
  simp only [sysLseek, bind_some_iff] at h
  obtain ⟨k, hlocal, a, ha, h⟩ := h
  obtain ⟨-, -, hk⟩ := fdLocal2global_some hlocal
  have hmove : ∀ size : ℕ, (∀ i, (s.fileTable k).fdFlag ≠ pipeFlag → s.inodes a = some i →
      size = i.iSize) → seekable (s.fileTable k).fdPos size offset whence = true →
      Positioned (s.setFile k { s.fileTable k with
        fdPos := (seekTarget (s.fileTable k).fdPos size offset whence).toNat }) := by
    intro size hsize hseek
    refine hs.setFile fun b hb => ⟨hs.below k hk b hb, fun hpipe i hi => ?_⟩
    obtain rfl := Option.some.inj (ha.symm.trans hb)
    exact (seekTarget_le hseek).trans (Nat.le_of_eq (hsize i hpipe hi))
  split at h
  · rename_i hpipe
    simp only [Option.bind_eq_bind, Option.bind_some] at h
    split at h
    · obtain ⟨-, rfl⟩ := Prod.mk.inj (Option.some.inj h)
      exact hs
    · rename_i hseek
      obtain ⟨-, rfl⟩ := Prod.mk.inj (Option.some.inj h)
      exact hmove ioqWord (fun i hne _ => absurd hpipe hne) (eq_true_of_ne_false hseek)
  · rename_i hpipe
    rw [bind_some_iff] at h
    obtain ⟨size, hsize, h⟩ := h
    split at h
    · obtain ⟨-, rfl⟩ := Prod.mk.inj (Option.some.inj h)
      exact hs
    · rename_i hseek
      obtain ⟨-, rfl⟩ := Prod.mk.inj (Option.some.inj h)
      refine hmove size (fun i _ hi => ?_) (eq_true_of_ne_false hseek)
      rw [hi] at hsize
      exact (Option.some.inj hsize).symm

/-- The calls of process `p` on open files. -/
inductive Call where
  | open (p : ℕ) (junk : Junk) (pathname : List Byte) (flags : ℕ)
  | read (p fd : ℕ) (buf : Bytes) (count : ℕ)
  | write (p fd : ℕ) (buf : Bytes) (count : ℕ)
  | lseek (p fd : ℕ) (offset : ℤ) (whence : Whence) (ioqWord : ℕ)

def Call.exec : Call → World part → Option (World part)
  | .open p junk pathname flags, w => (w.call p (sysOpen junk pathname flags)).map Prod.snd
  | .read p fd buf count, w => (w.call p (sysRead fd buf count)).map Prod.snd
  | .write p fd buf count, w => (w.call p (sysWrite fd buf count)).map Prod.snd
  | .lseek p fd offset whence ioqWord, w =>
    (w.call p (sysLseek ioqWord fd offset whence)).map Prod.snd

/-- An empty file is not written with no byte, and a file is not created while the size of an
open one is near `2 ^ 32`. -/
def Call.Fine : Call → World part → Prop
  | .open _ _ _ flags, w => creates flags = true → SlotsSmall w.kernel
  | .write p fd _ count, w => ∀ t, w.procs p = some t → WriteFine fd count { w.kernel with cur := t }
  | _, _ => True

theorem call_positioned {α : Type} {w w' : World part} {p : ℕ}
    {f : Kernel part → Option (α × Kernel part)}
    (hf : ∀ t r s', w.procs p = some t → f { w.kernel with cur := t } = some (r, s') → Positioned s')
    (h : (w.call p f).map Prod.snd = some w') : Positioned w'.kernel := by
  obtain ⟨⟨r, w₁⟩, hcall, rfl⟩ := Option.map_eq_some_iff.mp h
  obtain ⟨t, ht, s, hs, rfl⟩ := call_some hcall
  exact hf t r s ht hs

theorem exec_positioned {w w' : World part} {c : Call} (hs : Positioned w.kernel) (hc : c.Fine w)
    (h : c.exec w = some w') : Positioned w'.kernel := by
  cases c with
  | «open» p junk pathname flags =>
    exact call_positioned (fun t _ _ _ ho => sysOpen_positioned ho (hs.withCur t) hc) h
  | read p fd buf count =>
    exact call_positioned (fun t _ _ _ hr => sysRead_positioned hr (hs.withCur t)) h
  | write p fd buf count =>
    exact call_positioned (fun t _ _ ht hw => sysWrite_positioned hw (hs.withCur t) (hc t ht)) h
  | lseek p fd offset whence ioqWord =>
    exact call_positioned (fun t _ _ _ hl => sysLseek_positioned hl (hs.withCur t)) h

theorem openRootDir_positioned {v : Volume part} {m : ℕ → Bool}
    (h : openRootDir (mounted v m) = some s) : Positioned s := by
  rw [openRootDir, bind_some_iff] at h
  obtain ⟨⟨a, s₁⟩, ho, h⟩ := h
  obtain rfl := Option.some.inj h
  have hm : Positioned (mounted v m) := by
    refine ⟨fun k _ a ha => ?_, fun _ _ => rfl, fun k _ _ a i ha _ => ?_⟩
    · cases ha
    · cases ha
  have hs₁ := hm.sameSize (inodeOpen_keeps sameSize_countFree ho)
  exact ⟨hs₁.below, hs₁.fresh, hs₁.inside⟩

/-- From the mounted file system on, whatever descriptors the processes have. -/
theorem run_positions_inside {v : Volume part} {m : ℕ → Bool} {procs : ℕ → Option Task}
    {calls : List Call} {w : World part} (h : openRootDir (mounted v m) = some s)
    (hc : AllMeet Call.exec Call.Fine calls ⟨s, procs⟩)
    (hr : runAll Call.exec calls ⟨s, procs⟩ = some w) : PositionsInside w.kernel :=
  (runAll_invariant (fun w : World part => Positioned w.kernel)
    (fun _ _ _ hw hok he => exec_positioned hw hok he) (openRootDir_positioned h) hc hr).inside

theorem slotsSmall_root {v : Volume part} {m : ℕ → Bool} (h : openRootDir (mounted v m) = some s) :
    SlotsSmall s := by
  rw [openRootDir, bind_some_iff] at h
  obtain ⟨⟨a, s₁⟩, ho, h⟩ := h
  obtain rfl := Option.some.inj h
  intro k _ b i hb _
  rw [(inodeOpen_keeps sameSize_countFree ho).fileTable] at hb
  cases hb

/-- `/f` is created, gets one byte, and is read from the start. -/
def byteCalls : List Call :=
  [.open 1 noJunk [slash, 0x66] 6, .write 1 3 (fun _ => 0x78) 1, .lseek 1 3 0 .seekSet 0,
    .read 1 3 zeroes 1]

theorem run_positions_inside_byte :
    ∃ w w', smallWorld = some w ∧ runAll Call.exec byteCalls w = some w' ∧
      PositionsInside w'.kernel := by
  have hrun : (smallWorld >>= runAll Call.exec byteCalls).isSome := by decide +kernel
  obtain ⟨w', hw'⟩ := Option.isSome_iff_exists.mp hrun
  obtain ⟨⟨s, procs⟩, hw, hr⟩ := bind_some_iff.mp hw'
  obtain ⟨v, -, hs, -⟩ := smallWorld_some hw
  have hrest : ∀ c ∈ byteCalls.tail, ∀ w : World smallPartition, c.Fine w := by
    simp only [byteCalls, List.tail_cons, List.mem_cons, List.not_mem_nil, or_false]
    rintro c (rfl | rfl | rfl) w
    · exact fun t _ _ _ k a i _ _ _ _ hz => absurd hz.2 Nat.one_ne_zero
    · trivial
    · trivial
  have hfine : AllMeet Call.exec Call.Fine byteCalls ⟨s, procs⟩ :=
    ⟨fun _ => slotsSmall_root hs, fun _ _ => allMeet_of_forall hrest⟩
  exact ⟨_, w', hw, hr, run_positions_inside hs hfine hr⟩

/-- `/f` is created, and nothing is written to it. -/
def emptyWriteCalls : List Call := [.open 1 noJunk [slash, 0x66] 6, .write 1 3 zeroes 0]

theorem empty_write_moves_position :
    ∃ w w', smallWorld = some w ∧ runAll Call.exec emptyWriteCalls w = some w' ∧
      ¬PositionsInside w'.kernel := by
  have hrun : ((smallWorld >>= runAll Call.exec emptyWriteCalls).map fun w =>
      ((w.kernel.fileTable 3).fdPos, (w.kernel.fileTable 3).fdFlag,
        (w.kernel.fileTable 3).fdInode, (w.kernel.inodes 1).map Inode.iSize)) =
      some (2 ^ 32 - 1, 6, some 1, some 0) := by decide +kernel
  obtain ⟨w', hw', he⟩ := Option.map_eq_some_iff.mp hrun
  simp only [Prod.mk.injEq, Option.map_eq_some_iff] at he
  obtain ⟨hpos, hflag, hino, i, hi, hsize⟩ := he
  obtain ⟨w, hw, hr⟩ := bind_some_iff.mp hw'
  refine ⟨w, w', hw, hr, fun hx => ?_⟩
  have hle := hx 3 (by decide) (by rw [hflag]; decide) 1 i hino hi
  rw [hpos, hsize] at hle
  exact absurd hle (by decide)

end FsFilePosition
