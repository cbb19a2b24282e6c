import XianweiOS.FsProcesses
import XianweiOS.FsKernelFrame

/-! Writers of an inode. `write_deny` is one bit: `file_open` sets it for a writer and refuses
the next one. `file_create` does not set it, and `file_close` clears it for whoever closes. -/
namespace FsWriters

open ByteStore HaltingProgram KernelBitmap DeviceIde FsVolume FsInodeTable FsBlockMap FsOwnership
  FsDirectory FsDirectorySlots FsInodeRelease FsFileWrite FsPath FsOpenFiles FsSyscalls HolderCount
  FsReferenceCounts FsReferenceRuns FsKernelFrame FsFormat FsProcesses

variable {part : Partition} {s s' : Kernel part}

/-- The file table and the running task stay, and no inode changes its `write_deny`. -/
structure Quiet (s s' : Kernel part) : Prop where
  fileTable : s'.fileTable = s.fileTable
  cur : s'.cur = s.cur
  next : s.next ≤ s'.next
  deny : ∀ a < s.next, ∀ i', s'.inodes a = some i' →
    ∃ i, s.inodes a = some i ∧ i.writeDeny = i'.writeDeny
  fresh : ∀ a, s'.next ≤ a → s.inodes a = none → s'.inodes a = none

def SameDeny (i i' : Inode) : Prop := i.writeDeny = i'.writeDeny

theorem sameDeny_countFree : CountFree SameDeny := ⟨fun _ => rfl, Eq.trans, fun _ _ => rfl⟩

theorem quiet_iff : Quiet s s' ↔ Keeps SameDeny s s' :=
  ⟨fun h => ⟨h.fileTable, h.cur, h.next, h.deny, h.fresh⟩,
    fun h => ⟨h.fileTable, h.cur, h.next, h.moved, h.fresh⟩⟩

theorem Quiet.refl (s : Kernel part) : Quiet s s := quiet_iff.mpr (Keeps.refl sameDeny_countFree s)

theorem Quiet.trans {s'' : Kernel part} (h : Quiet s s') (h' : Quiet s' s'') : Quiet s s'' :=
  quiet_iff.mpr ((quiet_iff.mp h).trans sameDeny_countFree (quiet_iff.mp h'))

theorem quiet_malloc (s : Kernel part) : Quiet s (sysMalloc s).2 :=
  quiet_iff.mpr (keeps_malloc sameDeny_countFree s)

theorem quiet_withVol (s : Kernel part) (v : Volume part) : Quiet s (s.withVol v) :=
  quiet_iff.mpr (keeps_withVol sameDeny_countFree s v)

theorem quiet_setInode {a : ℕ} {i i' : Inode} (hi : s.inodes a = some i)
    (hd : i'.writeDeny = i.writeDeny) : Quiet s (s.setInode a i') :=
  quiet_iff.mpr (keeps_setInode sameDeny_countFree hi hd.symm)

theorem quiet_newInode (s : Kernel part) (i : Inode) : Quiet s (s.newInode i) :=
  quiet_iff.mpr (keeps_newInode sameDeny_countFree s i)

theorem quiet_freeInode (s : Kernel part) (a : ℕ) : Quiet s (s.freeInode a) :=
  quiet_iff.mpr (keeps_freeInode sameDeny_countFree s a)

/-- The list of open inodes is not looked at. -/
theorem Quiet.withOpenInodes (h : Quiet s s') (l : List ℕ) :
    Quiet s { s' with openInodes := l } := ⟨h.fileTable, h.cur, h.next, h.deny, h.fresh⟩

theorem inodeOpen_quiet {n a : ℕ} (h : inodeOpen n s = some (a, s')) : Quiet s s' :=
  quiet_iff.mpr (inodeOpen_keeps sameDeny_countFree h)

theorem inodeClose_quiet {a : ℕ} (h : inodeClose a s = some s') : Quiet s s' :=
  quiet_iff.mpr (inodeClose_keeps sameDeny_countFree h)

theorem dirClose_quiet {d : Option DirPtr} (h : dirClose d s = some s') : Quiet s s' :=
  quiet_iff.mpr (dirClose_keeps sameDeny_countFree h)

theorem searchFile_quiet {junk : Junk} {pathname : List Byte} {record record' : PathSearchRecord}
    {r : Option ℕ} (h : searchFile junk pathname record s = some (r, record', s')) :
    Quiet s s' :=
  quiet_iff.mpr (searchFile_keeps sameDeny_countFree h)

/-- Slot `k` has the inode at `a` open for writing. -/
def Writes (s : Kernel part) (k a : ℕ) : Prop :=
  (s.fileTable k).fdInode = some a ∧ writable (s.fileTable k).fdFlag = true

/-- No inode is open for writing in two slots of the table. -/
def SingleWriter (s : Kernel part) : Prop := ∀ a k k', Writes s k a → Writes s k' a → k = k'

/-- The inode of a writer refuses further writers. -/
structure Guarded (s : Kernel part) : Prop where
  single : SingleWriter s
  denied : ∀ k a i, Writes s k a → s.inodes a = some i → i.writeDeny = true
  below : ∀ k a, (s.fileTable k).fdInode = some a → a < s.next
  fresh : ∀ a, s.next ≤ a → s.inodes a = none

theorem Guarded.quiet (h : Guarded s) (hq : Quiet s s') : Guarded s' := by
  have hw : ∀ k a, Writes s' k a ↔ Writes s k a := by
    intro k a
    rw [Writes, Writes, hq.fileTable]
  refine ⟨fun a k k' hk hk' => ?_, fun k a i hk hi => ?_, fun k a hk => ?_, fun a ha => ?_⟩
  · exact h.single a k k' ((hw k a).mp hk) ((hw k' a).mp hk')
  · have hk := (hw k a).mp hk
    obtain ⟨j, hj, he⟩ := hq.deny a (h.below k a hk.1) i hi
    rw [← he]
    exact h.denied k a j hk hj
  · rw [hq.fileTable] at hk
    exact Nat.lt_of_lt_of_le (h.below k a hk) hq.next
  · exact hq.fresh a ha (h.fresh a (hq.next.trans ha))

theorem Guarded.lt (h : Guarded s) {a : ℕ} {i : Inode} (hi : s.inodes a = some i) : a < s.next := by
  by_contra hn
  rw [h.fresh a (Nat.le_of_not_lt hn)] at hi
  cases hi

/-- A slot that is not a writer takes the place of another. -/
theorem Guarded.setFile (h : Guarded s) {k : ℕ} {f : File}
    (hb : ∀ a, f.fdInode = some a → a < s.next)
    (hf : ∀ a, f.fdInode = some a → writable f.fdFlag = true → Writes s k a) :
    Guarded (s.setFile k f) := by
  have hw : ∀ j a, Writes (s.setFile k f) j a → Writes s j a := by
    intro j a hj
    by_cases hjk : j = k
    · subst j
      rw [Writes, s.setFile_self] at hj
      exact hf a hj.1 hj.2
    · rwa [Writes, s.setFile_ne f hjk] at hj
  refine ⟨fun a j j' hj hj' => ?_, fun j a i hj hi => ?_, fun j a hj => ?_, h.fresh⟩
  · exact h.single a j j' (hw j a hj) (hw j' a hj')
  · exact h.denied j a i (hw j a hj) hi
  · by_cases hjk : j = k
    · subst j
      rw [s.setFile_self] at hj
      exact hb a hj
    · rw [s.setFile_ne f hjk] at hj
      exact h.below j a hj

/-- The first writer of an inode. -/
theorem Guarded.setWriter (h : Guarded s) {k a : ℕ} {i : Inode} {f : File} (hi : s.inodes a = some i)
    (hno : ∀ j, ¬Writes s j a) (hf : f.fdInode = some a) :
    Guarded ((s.setInode a { i with writeDeny := true }).setFile k f) := by
  have hw : ∀ j b, Writes ((s.setInode a { i with writeDeny := true }).setFile k f) j b →
      (j = k ∧ b = a) ∨ (j ≠ k ∧ b ≠ a ∧ Writes s j b) := by
    intro j b hj
    by_cases hjk : j = k
    · subst j
      rw [Writes, Kernel.setFile_self, hf] at hj
      exact Or.inl ⟨rfl, (Option.some.inj hj.1).symm⟩
    · rw [Writes, Kernel.setFile_ne _ f hjk] at hj
      exact Or.inr ⟨hjk, fun hb => hno j (hb ▸ hj), hj⟩
  refine ⟨fun b j j' hj hj' => ?_, fun j b i' hj hi => ?_, fun j b hj => ?_, fun b hb => ?_⟩
  · rcases hw j b hj with ⟨rfl, rfl⟩ | ⟨-, hb, hj⟩
    · rcases hw j' b hj' with ⟨rfl, -⟩ | ⟨-, hb, -⟩
      · rfl
      · exact absurd rfl hb
    · rcases hw j' b hj' with ⟨-, rfl⟩ | ⟨-, -, hj'⟩
      · exact absurd rfl hb
      · exact h.single b j j' hj hj'
  · rcases hw j b hj with ⟨rfl, rfl⟩ | ⟨-, hb, hj⟩
    · rw [Kernel.setFile_inodes, Kernel.setInode_self] at hi
      rw [← Option.some.inj hi]
    · rw [Kernel.setFile_inodes, Kernel.setInode_ne _ _ hb] at hi
      exact h.denied j b i' hj hi
  · by_cases hjk : j = k
    · subst j
      rw [Kernel.setFile_self, hf] at hj
      rw [← Option.some.inj hj]
      exact h.lt hi
    · rw [Kernel.setFile_ne _ f hjk] at hj
      exact h.below j b hj
  · have hba : b ≠ a := Nat.ne_of_gt (Nat.lt_of_lt_of_le (h.lt hi) hb)
    rw [Kernel.setFile_inodes, Kernel.setInode_ne _ _ hba]
    exact h.fresh b hb

theorem Guarded.pcbFdInstall {k : ℕ} (h : Guarded s) : Guarded (pcbFdInstall k s).2 := by
  rw [FsOpenFiles.pcbFdInstall]
  split
  · exact h
  · exact ⟨h.single, h.denied, h.below, h.fresh⟩

theorem fileOpen_guarded {n flag : ℕ} {fd : ℤ} (h : fileOpen n flag s = some (fd, s'))
    (hs : Guarded s) : Guarded s' := by
  rw [fileOpen] at h
  split at h
  · obtain ⟨-, rfl⟩ := Prod.mk.inj (Option.some.inj h)
    exact hs
  · rename_i k hk
    rw [bind_some_iff] at h
    obtain ⟨⟨a, s1⟩, hop, h⟩ := h
    have hs1 := hs.quiet (inodeOpen_quiet hop)
    simp only [bind_some_iff] at h
    obtain ⟨i, hi, h⟩ := h
    split at h
    · rename_i hread
      have he := (Prod.ext_iff.mp (Option.some.inj h)).2
      rw [← show _ = s' from he]
      refine (hs1.setFile (fun b hb => ?_) fun b _ hw => ?_).pcbFdInstall
      · obtain rfl := Option.some.inj hb
        exact hs1.lt hi
      · rw [hread] at hw
        cases hw
    split at h
    · rename_i hdeny
      have he := (Prod.ext_iff.mp (Option.some.inj h)).2
      rw [← show _ = s' from he]
      -- a writer of this inode would have set the bit
      refine (hs1.setWriter hi (fun j hj => ?_) rfl).pcbFdInstall
      rw [hs1.denied j a i hj hi] at hdeny
      cases hdeny
    · obtain ⟨-, rfl⟩ := Prod.mk.inj (Option.some.inj h)
      refine hs1.setFile (fun b hb => ?_) fun b hb _ => ?_
      · cases hb
      · cases hb

/-- A new file is not open for writing. -/
theorem fileCreateAt_guarded {pdir : Option DirPtr} {filename : List Byte} {n k flag : ℕ} {fd : ℤ}
    {v : Volume part}
    (h : fileCreateAt pdir filename n s.next k
      (((s.withVol v).newInode (inodeInit n)).setFile k ⟨0, flag, some s.next⟩) = some (fd, s'))
    (hflag : writable flag = false) (hs : Guarded s) : Guarded s' := by
  have hs1 : Guarded (((s.withVol v).newInode (inodeInit n)).setFile k ⟨0, flag, some s.next⟩) := by
    refine ((hs.quiet (quiet_withVol s v)).quiet (quiet_newInode _ _)).setFile
      (fun b hb => ?_) fun b _ hw => ?_
    · obtain rfl := Option.some.inj hb
      exact Nat.lt_succ_self _
    · rw [hflag] at hw
      cases hw
  have hnew : (((s.withVol v).newInode (inodeInit n)).setFile k ⟨0, flag, some s.next⟩).inodes s.next =
      some (inodeInit n) := Function.update_self _ _ _
  generalize ((s.withVol v).newInode (inodeInit n)).setFile k ⟨0, flag, some s.next⟩ = t at h hs1 hnew
  simp only [fileCreateAt, bind_some_iff] at h
  obtain ⟨e, -, a, ha, i, hi, ⟨ok, i', v1⟩, hsync, h⟩ := h
  have hs2 := hs1.quiet (quiet_setInode hi (syncDirEntry_entered hsync).deny)
  have hnew' : ∃ j, (t.setInode a i').inodes s.next = some j ∧ j.writeDeny = false := by
    by_cases hne : s.next = a
    · rw [hne] at hnew ⊢
      obtain rfl := Option.some.inj (hnew.symm.trans hi)
      exact ⟨i', t.setInode_self a i', (syncDirEntry_entered hsync).deny⟩
    · exact ⟨_, (t.setInode_ne i' hne).trans hnew, rfl⟩
  split at h
  · obtain ⟨-, rfl⟩ := by simpa using h
    refine ((hs2.setFile (fun b hb => ?_) fun b hb _ => ?_).quiet (quiet_freeInode _ _)).quiet
      (quiet_withVol _ _)
    · cases hb
    · cases hb
  · simp only [bind_some_iff] at h
    obtain ⟨v2, -, h⟩ := h
    have he := (Prod.ext_iff.mp (Option.some.inj h)).2
    rw [← show _ = s' from he]
    obtain ⟨j, hj, hdeny⟩ := hnew'
    refine Guarded.pcbFdInstall ?_
    have hq : Quiet ((t.setInode a i').withVol v2) (((t.setInode a i').withVol v2).setInode s.next
        { inodeInit n with openCnts := 1 }) := quiet_setInode hj hdeny.symm
    exact (hs2.quiet (quiet_withVol _ v2)).quiet (hq.withOpenInodes (s.next :: t.openInodes))

theorem fileCreate_guarded {pdir : Option DirPtr} {filename : List Byte} {flag : ℕ} {fd : ℤ}
    (h : fileCreate pdir filename flag s = some (fd, s')) (hflag : writable flag = false)
    (hs : Guarded s) : Guarded s' := by
  have hs1 := hs.quiet (quiet_malloc s)
  have hs2 := hs1.quiet (quiet_malloc _)
  simp only [fileCreate] at h
  split at h
  · obtain ⟨-, rfl⟩ := Prod.mk.inj (Option.some.inj h)
    exact hs1
  · rw [bind_some_iff] at h
    obtain ⟨⟨r, v⟩, -, h⟩ := h
    cases r with
    | none =>
      obtain ⟨-, rfl⟩ := Prod.mk.inj (Option.some.inj h)
      exact hs1
    | some n =>
      simp only at h
      split at h
      · obtain ⟨-, rfl⟩ := Prod.mk.inj (Option.some.inj h)
        exact hs2.quiet (quiet_withVol _ _)
      · split at h
        · obtain ⟨-, rfl⟩ := Prod.mk.inj (Option.some.inj h)
          exact hs2.quiet (quiet_withVol _ _)
        · exact fileCreateAt_guarded h hflag hs2

theorem closeParent_quiet {d : Option DirPtr} {r r' : ℤ}
    (h : (dirClose d s >>= fun u => some (r', u)) = some (r, s')) : Quiet s s' :=
  quiet_iff.mpr (closeParent_keeps sameDeny_countFree h)

theorem openFound_guarded {junk : Junk} {pathname : List Byte} {flags depth : ℕ}
    {no : Option ℕ} {record : PathSearchRecord} {fd : ℤ}
    (h : openFound junk pathname flags depth no record s = some (fd, s'))
    (hflags : creates flags = true → writable flags = false) (hs : Guarded s) : Guarded s' := by
  unfold openFound at h
  split at h
  · exact hs.quiet (closeParent_quiet h)
  · rw [bind_some_iff] at h
    obtain ⟨searched, -, h⟩ := h
    split at h
    · exact hs.quiet (closeParent_quiet h)
    split at h
    · exact hs.quiet (closeParent_quiet h)
    · exact hs.quiet (closeParent_quiet h)
    · rename_i hcr
      simp only [bind_some_iff, Option.pure_def, Option.some.injEq, Prod.mk.injEq] at h
      obtain ⟨filename, -, ⟨fd', s1⟩, hnew, s2, hcl, -, rfl⟩ := h
      exact (fileCreate_guarded hnew (hflags hcr) hs).quiet (dirClose_quiet hcl)
    · exact fileOpen_guarded h hs

theorem sysOpen_guarded {junk : Junk} {pathname : List Byte} {flags : ℕ} {fd : ℤ}
    (h : sysOpen junk pathname flags s = some (fd, s'))
    (hflags : creates flags = true → writable flags = false) (hs : Guarded s) : Guarded s' := by
  rw [sysOpen, bind_some_iff] at h
  obtain ⟨last, -, h⟩ := h
  split at h
  · obtain ⟨-, rfl⟩ := Prod.mk.inj (Option.some.inj h)
    exact hs
  · simp only [bind_some_iff, assert_eq_some] at h
    obtain ⟨-, -, depth, -, ⟨no, record, s1⟩, hsearch, h⟩ := h
    exact openFound_guarded h hflags (hs.quiet (searchFile_quiet hsearch))

/-- Whoever closes `k` clears `write_deny`, so there must be no other writer. -/
theorem fileClose_guarded {k : ℕ} {ret : ℤ} (h : fileClose k s = some (ret, s'))
    (hk : ∀ a, (s.fileTable k).fdInode = some a → ∀ j, Writes s j a → j = k) (hs : Guarded s) :
    Guarded s' := by
  simp only [fileClose, bind_some_iff, Option.pure_def, Option.some.injEq, Prod.mk.injEq] at h
  obtain ⟨a, ha, i, hi, s1, hcl, -, rfl⟩ := h
  -- the slot is given up first, and then nobody writes the inode
  have hgive : Guarded ((s.setInode a { i with writeDeny := false }).setFile k
      { s1.fileTable k with fdInode := none }) := by
    have hs1 : Guarded (s.setFile k { s1.fileTable k with fdInode := none }) := by
      refine hs.setFile (fun b hb => ?_) fun b hb _ => ?_
      · cases hb
      · cases hb
    refine ⟨hs1.single, fun j b i' hj hi' => ?_, hs1.below, fun b hb => ?_⟩
    · have hba : b ≠ a := by
        rintro rfl
        have hjk : j ≠ k := by
          rintro rfl
          rw [Writes, Kernel.setFile_self] at hj
          cases hj.1
        rw [Writes, Kernel.setFile_ne _ _ hjk] at hj
        exact hjk (hk b ha j hj)
      refine hs1.denied j b i' hj ?_
      rw [Kernel.setFile_inodes, Kernel.setInode_ne _ _ hba] at hi'
      exact hi'
    · have hba : b ≠ a := Nat.ne_of_gt (Nat.lt_of_lt_of_le (hs.lt hi) hb)
      rw [Kernel.setFile_inodes, Kernel.setInode_ne _ _ hba]
      exact hs.fresh b hb
  exact hgive.quiet (inodeClose_quiet (inodeClose_setFile hcl k _))

theorem pipeClose_guarded (k : ℕ) (hs : Guarded s) : Guarded (pipeClose k s) := by
  have hsame : ∀ (pos : ℕ) (a : Option ℕ), (a = none ∨ a = (s.fileTable k).fdInode) →
      Guarded (s.setFile k { s.fileTable k with fdPos := pos, fdInode := a }) := by
    rintro pos a (rfl | rfl)
    · refine hs.setFile (fun b hb => ?_) fun b hb _ => ?_
      · cases hb
      · cases hb
    · exact hs.setFile (fun b hb => hs.below k b hb) fun b hb hw => ⟨hb, hw⟩
  refine hsame _ _ ?_
  split
  · exact Or.inl rfl
  · exact Or.inr rfl

theorem sysClose_guarded {fd : ℕ} {ret : ℤ} (h : sysClose fd s = some (ret, s'))
    (hk : 2 < fd → ∀ k a, s.cur.fdTable fd = some k → (s.fileTable k).fdInode = some a →
      ∀ j, Writes s j a → j = k) (hs : Guarded s) : Guarded s' := by
  rcases sysClose_some h with ⟨-, rfl⟩ | ⟨hfd, -, k, -, hlocal, ⟨-, rfl⟩ | ⟨-, s1, hcl, rfl⟩⟩
  · exact hs
  · have hs1 := pipeClose_guarded k hs
    exact ⟨hs1.single, hs1.denied, hs1.below, hs1.fresh⟩
  · have hs1 := fileClose_guarded hcl (fun a => hk hfd k a hlocal) hs
    exact ⟨hs1.single, hs1.denied, hs1.below, hs1.fresh⟩

theorem mounted_guarded (v : Volume part) (m : ℕ → Bool) : Guarded (mounted v m) := by
  refine ⟨fun a k k' hk _ => ?_, fun k a i hk _ => ?_, fun k a hk => ?_, fun a _ => rfl⟩
  · cases hk.1
  · cases hk.1
  · cases hk

theorem openRootDir_guarded {v : Volume part} {m : ℕ → Bool}
    (h : openRootDir (mounted v m) = some s) : Guarded s := by
  rw [openRootDir, bind_some_iff] at h
  obtain ⟨⟨a, s1⟩, ho, h⟩ := h
  obtain rfl := Option.some.inj h
  have hs1 := (mounted_guarded v m).quiet (inodeOpen_quiet ho)
  exact ⟨hs1.single, hs1.denied, hs1.below, hs1.fresh⟩

/-- The descriptors of a process that has opened nothing. -/
def freshTask : Task := ⟨fun k => if k < 3 then some k else none, 0⟩

/-- Processes 1 and 2 on a new file system. -/
def smallWorld : Option (World smallPartition) := do
  let v ← smallVolume
  let s ← openRootDir (mounted v fun _ => true)
  return ⟨s, fun p => if p = 1 ∨ p = 2 then some freshTask else none⟩

theorem smallWorld_some {w : World smallPartition} (h : smallWorld = some w) :
    ∃ v, smallVolume = some v ∧ openRootDir (mounted v fun _ => true) = some w.kernel ∧
      w.procs = fun p => if p = 1 ∨ p = 2 then some freshTask else none := by
  simp only [smallWorld, bind_some_iff, Option.pure_def, Option.some.injEq] at h
  obtain ⟨v, hv, s, hs, rfl⟩ := h
  exact ⟨v, hv, hs, rfl⟩

end FsWriters
