import XianweiOS.FsFormat
import XianweiOS.FsReferenceCounts

/-! Every system call gives up the references it takes, but for one branch of `sys_open`: a
file that exists is opened without a `dir_close` of the directory it was found in. -/
namespace FsReferenceRuns

open ByteStore HaltingProgram KernelBitmap DeviceIde FsVolume FsInodeTable FsBlockMap FsOwnership
  FsDirectory FsDirectorySlots FsInodeRelease FsFileWrite FsPath FsOpenFiles FsSyscalls HolderCount
  FsReferenceCounts FsFormat

variable {part : Partition} {s s' : Kernel part} {x : ℕ → ℕ} {D : ℕ → Option Dir}
  {d : Option DirPtr}

def NoPipes (s : Kernel part) : Prop := ∀ k, (s.fileTable k).fdFlag ≠ pipeFlag

/-- Counts are right, and the handles in use are those of `D` and `d`. -/
structure Holding (D : ℕ → Option Dir) (d : Option DirPtr) (s : Kernel part) (x : ℕ → ℕ) : Prop where
  counted : Counted s x
  handles : Handles D d s
  pipes : NoPipes s

theorem Holding.malloc (h : Holding D d s x) : Holding D d (sysMalloc s).2 x :=
  ⟨h.counted.malloc, h.handles.congr rfl, h.pipes⟩

theorem Holding.withVol (h : Holding D d s x) (v : Volume part) : Holding D d (s.withVol v) x :=
  ⟨h.counted.withVol v, h.handles.congr rfl, h.pipes⟩

theorem Holding.withCur (h : Holding D d s x) (t : Task) : Holding D d { s with cur := t } x :=
  ⟨h.counted.withCur t, h.handles.congr rfl, h.pipes⟩

theorem Holding.setInode (h : Holding D d s x) {a : ℕ} {i i' : Inode} (hi : s.inodes a = some i)
    (hc : i'.openCnts = i.openCnts) : Holding D d (s.setInode a i') x :=
  ⟨h.counted.setInode hi hc, h.handles.congr rfl, h.pipes⟩

theorem noPipes_congr (h : NoPipes s) (hs : SameFiles s s') : NoPipes s' := by
  intro k
  rw [hs.fileTable]
  exact h k

theorem inodeOpen_holding {n a : ℕ} (ho : inodeOpen n s = some (a, s')) (h : Holding D d s x) :
    Holding D d s' (bump x a) := by
  obtain ⟨hc, hs, hd⟩ := inodeOpen_counted ho h.counted
  exact ⟨hc, h.handles.congr hd, noPipes_congr h.pipes hs⟩

theorem inodeClose_holding {a : ℕ} (hcl : inodeClose a s = some s') (h : Holding D d s (bump x a)) :
    Holding D d s' x := by
  obtain ⟨hs, hd, -⟩ := inodeClose_same hcl
  exact ⟨inodeClose_counted hcl h.counted, h.handles.congr hd, noPipes_congr h.pipes hs⟩

theorem dirOpen_holding {n : ℕ} (ho : dirOpen n s = some (d, s')) (h : Holding D none s x) :
    Holding D d s' x := by
  obtain ⟨hc, hs, hd⟩ := dirOpen_counted ho h.counted
  rw [show s.dirs = D from h.handles] at hd
  exact ⟨hc, hd, noPipes_congr h.pipes hs⟩

theorem dirClose_holding (hcl : dirClose d s = some s') (h : Holding D d s x) :
    Holding D none s' x := by
  obtain ⟨hc, hs, hd⟩ := dirClose_counted hcl h.counted h.handles
  exact ⟨hc, hd, noPipes_congr h.pipes hs⟩

/-- The last line of most branches: `dir_close(parent_dir)` and a return. -/
theorem closeParent_holding {α : Type} {r r' : α}
    (h : (dirClose d s >>= fun u => some (r', u)) = some (r, s')) (hs : Holding D d s x) :
    Holding D none s' x := by
  rw [bind_some_iff] at h
  obtain ⟨u, hcl, h⟩ := h
  obtain ⟨-, rfl⟩ := Prod.mk.inj (Option.some.inj h)
  exact dirClose_holding hcl hs

theorem searchDirEntryIn_holding {pdir : Option DirPtr} {name : List Byte} {r : Option DirEntry}
    (h : searchDirEntryIn pdir name s = some (r, s')) (hs : Holding D d s x) :
    Holding D d s' x := by
  rcases searchDirEntryIn_some h with rfl | rfl
  · exact hs.malloc
  · exact hs.malloc.malloc

/-- The loop of `search_file` keeps one handle in use, that of its record. -/
theorem searchLoop_holding (name : List Byte) (subPath : Option (List Byte)) :
    ∀ {parentDir : Option DirPtr} {parentNo no : ℕ} {record record' : PathSearchRecord}
      {s s' : Kernel part} {r : Option ℕ},
    searchLoop name subPath parentDir parentNo no record s = some (r, record', s') →
    record.parentDir = parentDir → Holding D parentDir s x → Holding D record'.parentDir s' x := by
  -- on the part of the path that is left
  induction hl : pathLeft name subPath using Nat.strong_induction_on generalizing name subPath with
  | _ l ih =>
    intro parentDir parentNo no record record' s s' r h hrec hs
    rw [searchLoop] at h
    split at h
    · simp only [searchEnd, bind_some_iff, Option.pure_def, Option.some.injEq, Prod.mk.injEq] at h
      obtain ⟨s1, hcl, ⟨d', s2⟩, hop, -, rfl, rfl⟩ := h
      rw [hrec] at hcl
      exact dirOpen_holding hop (dirClose_holding hcl hs)
    · rename_i hname
      have hleft := nextName_left (p := subPath) hname
      simp only [assert_bind] at h
      obtain ⟨-, -, h⟩ := h
      rw [bind_some_iff] at h
      obtain ⟨⟨e, s1⟩, hsearch, h⟩ := h
      have hs1 := searchDirEntryIn_holding hsearch hs
      cases e with
      | none =>
        obtain ⟨-, rfl, rfl⟩ := by simpa using h
        simpa only [hrec] using hs1
      | some e =>
        simp only [assert_bind] at h
        obtain ⟨-, h⟩ := h
        split at h
        · simp only [bind_some_iff] at h
          obtain ⟨a, -, i, -, s2, hcl, ⟨d', s3⟩, hop, h⟩ := h
          exact ih _ (hl ▸ hleft) _ _ rfl h rfl (dirOpen_holding hop (dirClose_holding hcl hs1))
        split at h
        · obtain ⟨-, rfl, rfl⟩ := by simpa using h
          simpa only [hrec] using hs1
        · exact ih _ (hl ▸ hleft) _ _ rfl h hrec hs1

theorem searchFile_holding {junk : Junk} {pathname : List Byte} {record record' : PathSearchRecord}
    {r : Option ℕ} (h : searchFile junk pathname record s = some (r, record', s'))
    (hs : Holding D none s x) : Holding D record'.parentDir s' x := by
  have hroot : Holding D (some .root) s x := ⟨hs.counted, hs.handles, hs.pipes⟩
  rw [searchFile] at h
  split at h
  · obtain ⟨-, rfl, rfl⟩ := by simpa using h
    exact hroot
  · simp only [assert_bind] at h
    exact searchLoop_holding _ _ h.2.2 rfl hroot

theorem deleteDirEntryIn_holding {pdir : Option DirPtr} {n : ℕ}
    (h : deleteDirEntryIn pdir n s = some s') (hs : Holding D d s x) : Holding D d s' x := by
  simp only [deleteDirEntryIn, bind_some_iff, Option.pure_def, Option.some.injEq] at h
  obtain ⟨a, -, i, hi, ⟨ok, i', v⟩, hdel, rfl⟩ := h
  exact (hs.setInode hi (deleteDirEntry_use hdel).cnts).withVol v

theorem inodeReleaseNo_holding {n : ℕ} (h : inodeReleaseNo n s = some s') (hs : Holding D d s x) :
    Holding D d s' x := by
  simp only [inodeReleaseNo, bind_some_iff] at h
  obtain ⟨⟨a, s1⟩, hop, i, -, v, -, hcl⟩ := h
  exact inodeClose_holding hcl ((inodeOpen_holding hop hs).malloc.withVol v)

theorem getFreeSlotInGlobal_some {k : ℕ} (h : getFreeSlotInGlobal s = some k) :
    k < maxFilesOpen ∧ (s.fileTable k).fdInode = none := by
  have hp := List.find?_some h
  simp only [Bool.and_eq_true, Option.isNone_iff_eq_none] at hp
  exact ⟨List.mem_range.mp (List.mem_of_find?_eq_some h), hp.2⟩

theorem pcbFdInstall_holding {k : ℕ} (h : Holding D d s x) :
    Holding D d (pcbFdInstall k s).2 x := by
  rw [pcbFdInstall]
  split
  · exact h
  · exact h.withCur _

/-- A slot without an inode takes over a reference in flight. -/
theorem Holding.setFile {k a : ℕ} {f : File} (h : Holding D d s (bump x a)) (hk : k < maxFilesOpen)
    (hfree : (s.fileTable k).fdInode = none) (hf : f.fdInode = some a) (hflag : f.fdFlag ≤ 7) :
    Holding D d (s.setFile k f) x := by
  refine ⟨h.counted.setFile hk f fun b => ?_, h.handles.congr rfl, fun j => ?_⟩
  · simp only [fileSlots, hfree, hf, weight_none, bump]
    omega
  · by_cases hj : j = k
    · subst j
      simp only [Kernel.setFile, Function.update_self, pipeFlag]
      omega
    · simp only [Kernel.setFile, Function.update_of_ne hj]
      exact h.pipes j

theorem fileOpen_holding {n flag : ℕ} {fd : ℤ} (h : fileOpen n flag s = some (fd, s'))
    (hfd : fd ≠ -1) (hflag : flag ≤ 7) (hs : Holding D d s x) : Holding D d s' x := by
  rw [fileOpen] at h
  split at h
  · exact absurd (Prod.mk.inj (Option.some.inj h)).1.symm hfd
  · rename_i k hk
    rw [bind_some_iff] at h
    obtain ⟨⟨a, s1⟩, hop, h⟩ := h
    obtain ⟨hlt, hfree⟩ := getFreeSlotInGlobal_some hk
    have hs1 := inodeOpen_holding hop hs
    have hfree1 : (s1.fileTable k).fdInode = none := by
      rw [(inodeOpen_counted hop hs.counted).2.1.fileTable]
      exact hfree
    simp only [bind_some_iff] at h
    obtain ⟨i, hi, h⟩ := h
    split at h
    · have he := (Prod.ext_iff.mp (Option.some.inj h)).2
      rw [← show _ = s' from he]
      exact pcbFdInstall_holding (hs1.setFile hlt hfree1 rfl hflag)
    split at h
    · have he := (Prod.ext_iff.mp (Option.some.inj h)).2
      rw [← show _ = s' from he]
      have hs2 : Holding D d (s1.setInode a { i with writeDeny := true }) (bump x a) :=
        hs1.setInode hi rfl
      exact pcbFdInstall_holding (hs2.setFile hlt hfree1 rfl hflag)
    · exact absurd (Prod.mk.inj (Option.some.inj h)).1.symm hfd

theorem fileClose_holding {k : ℕ} {ret : ℤ} (h : fileClose k s = some (ret, s'))
    (hk : k < maxFilesOpen) (hs : Holding D d s x) : Holding D d s' x := by
  simp only [fileClose, bind_some_iff, Option.pure_def, Option.some.injEq, Prod.mk.injEq] at h
  obtain ⟨a, ha, i, hi, s1, hcl, -, rfl⟩ := h
  have hs1 : Holding D d (s.setInode a { i with writeDeny := false }) x := hs.setInode hi rfl
  -- the slot gives its reference up before the inode is closed
  have hgive : Holding D d ((s.setInode a { i with writeDeny := false }).setFile k
      { s1.fileTable k with fdInode := none }) (bump x a) := by
    refine ⟨hs1.counted.setFile hk _ fun b => ?_, hs1.handles.congr rfl, fun j => ?_⟩
    · rw [weight_none, show fileSlots (s.setInode a { i with writeDeny := false }) k = some a from ha,
        bump, Nat.add_zero]
    · have hfiles : s1.fileTable = s.fileTable := (inodeClose_same hcl).1.fileTable
      by_cases hj : j = k
      · subst j
        simp only [Kernel.setFile, Function.update_self, hfiles]
        exact hs.pipes _
      · simp only [Kernel.setFile, Function.update_of_ne hj]
        exact hs.pipes j
  exact inodeClose_holding (inodeClose_setFile hcl k _) hgive

/-- The kernel behind a `file_create` that has put the new inode into the slot `k`. -/
def createdFile (s : Kernel part) (a : ℕ) (i' : Inode) (n k flag : ℕ) (v : Volume part) : Kernel part :=
  { s with
    vol := v
    inodes := Function.update (Function.update s.inodes a (some i')) s.next
      (some { inodeInit n with openCnts := 1 })
    openInodes := s.next :: s.openInodes
    fileTable := Function.update s.fileTable k ⟨0, flag, some s.next⟩
    next := s.next + 1 }

theorem createdFile_eq {a : ℕ} (hne : a ≠ s.next) (i' : Inode) (n k flag : ℕ) (v v' : Volume part) :
    { ((((((s.withVol v).newInode (inodeInit n)).setFile k ⟨0, flag, some s.next⟩).setInode a
      i').withVol v').setInode s.next { inodeInit n with openCnts := 1 }) with
      openInodes := s.next :: s.openInodes } = createdFile s a i' n k flag v' := by
  have hinodes : Function.update (Function.update (Function.update s.inodes s.next (some (inodeInit n)))
      a (some i')) s.next (some { inodeInit n with openCnts := 1 }) =
      Function.update (Function.update s.inodes a (some i')) s.next
        (some { inodeInit n with openCnts := 1 }) := by
    rw [Function.update_comm hne.symm, Function.update_idem]
  exact congrArg (fun f => { createdFile s a i' n k flag v' with inodes := f }) hinodes

/-- As if the inode had been opened and put into the slot. -/
theorem createdFile_counted {a n k flag : ℕ} {i i' : Inode} {v : Volume part} (hs : Counted s x)
    (hk : k < maxFilesOpen) (hfree : (s.fileTable k).fdInode = none) (hi : s.inodes a = some i)
    (hc : i'.openCnts = i.openCnts) : Counted (createdFile s a i' n k flag v) x := by
  have hpush : Counted { s.setInode a i' with
      inodes := Function.update (s.setInode a i').inodes s.next
        (some { inodeInit n with openCnts := 1 })
      openInodes := s.next :: s.openInodes
      next := s.next + 1 } (bump x s.next) :=
    (hs.setInode hi hc).push rfl rfl rfl rfl rfl rfl rfl
  exact (hpush.setFile hk ⟨0, flag, some s.next⟩ fun b => by
    simp [bump, fileSlots, hfree, weight_none]).withVol v

theorem fileCreateAt_holding {pdir : Option DirPtr} {filename : List Byte} {n k flag : ℕ} {fd : ℤ}
    {v : Volume part}
    (h : fileCreateAt pdir filename n s.next k
      (((s.withVol v).newInode (inodeInit n)).setFile k ⟨0, flag, some s.next⟩) = some (fd, s'))
    (hk : k < maxFilesOpen) (hfree : (s.fileTable k).fdInode = none) (hflag : flag ≤ 7)
    (hs : Holding D d s x) : Holding D d s' x := by
  have hnew : s.next ∉ s.openInodes := fun hm => absurd (hs.counted.below _ hm) (lt_irrefl _)
  simp only [fileCreateAt, bind_some_iff] at h
  obtain ⟨e, -, a, ha, i, hi, ⟨ok, i', v1⟩, hsync, h⟩ := h
  have haopen : a ∈ s.openInodes := hs.counted.dirInode_open (d := pdir) (by
    rcases pdir with _ | _ | p <;> exact ha)
  have hne : a ≠ s.next := fun he => hnew (he ▸ haopen)
  have hi : s.inodes a = some i := by
    simpa only [Kernel.setFile, Kernel.newInode, Kernel.withVol, Function.update_of_ne hne] using hi
  have hs1 : Holding D d (s.setInode a i') x := hs.setInode hi (syncDirEntry_entered hsync).cnts
  split at h
  · -- as if only the slot had been cleared
    obtain ⟨-, rfl⟩ := by simpa using h
    have hs2 : Holding D d ((s.setInode a i').setFile k ⟨0, 0, none⟩) x := by
      refine ⟨hs1.counted.setFile hk _ fun b => ?_, hs1.handles.congr rfl, fun j => ?_⟩
      · rw [weight_none, show fileSlots (s.setInode a i') k = none from hfree, weight_none]
      · by_cases hj : j = k
        · subst j
          simp [Kernel.setFile, pipeFlag]
        · simp only [Kernel.setFile, Function.update_of_ne hj]
          exact hs1.pipes j
    refine ⟨hs2.counted.of_same rfl (held_new ?_ rfl rfl rfl (hs.counted.fresh _ le_rfl))
      (fun b hb j hj => ?_) (Nat.le_succ _) fun p hp => hs.counted.fresh p ?_,
      hs2.handles.congr rfl, fun j => ?_⟩
    · simp [Kernel.setFile, Kernel.newInode, Kernel.withVol, Kernel.setInode, Kernel.freeInode]
    · have hb' : b ≠ s.next := fun he => hnew (he ▸ hb)
      refine ⟨j, ?_, rfl⟩
      rw [← hj]
      simp only [Kernel.setFile, Kernel.newInode, Kernel.withVol, Kernel.setInode, Kernel.freeInode,
        Function.update_of_ne hb']
      by_cases hba : b = a
      · rw [hba, Function.update_self, Function.update_self]
      · rw [Function.update_of_ne hba, Function.update_of_ne hba, Function.update_of_ne hb']
    · exact Nat.le_of_succ_le hp
    · have := hs2.pipes j
      simpa [Kernel.setFile, Kernel.newInode, Kernel.withVol, Kernel.setInode, Kernel.freeInode]
        using this
  · simp only [bind_some_iff] at h
    obtain ⟨v2, -, h⟩ := h
    have he := (Prod.ext_iff.mp (Option.some.inj h)).2
    rw [← show _ = s' from he]
    refine pcbFdInstall_holding ?_
    have hcount : Counted (createdFile s a i' n k flag v2) x :=
      createdFile_counted hs.counted hk hfree hi (syncDirEntry_entered hsync).cnts
    rw [← createdFile_eq hne i' n k flag v v2] at hcount
    refine ⟨hcount, hs.handles.congr rfl, fun j => ?_⟩
    by_cases hj : j = k
    · subst j
      simp only [Kernel.setInode, Kernel.withVol, Kernel.setFile, Function.update_self, pipeFlag]
      omega
    · simp only [Kernel.setInode, Kernel.withVol, Kernel.setFile, Function.update_of_ne hj]
      exact hs.pipes j

theorem fileCreate_holding {pdir : Option DirPtr} {filename : List Byte} {flag : ℕ} {fd : ℤ}
    (h : fileCreate pdir filename flag s = some (fd, s')) (hflag : flag ≤ 7)
    (hs : Holding D d s x) : Holding D d s' x := by
  simp only [fileCreate] at h
  split at h
  · obtain ⟨-, rfl⟩ := Prod.mk.inj (Option.some.inj h)
    exact hs.malloc
  · rw [bind_some_iff] at h
    obtain ⟨⟨r, v⟩, -, h⟩ := h
    cases r with
    | none =>
      obtain ⟨-, rfl⟩ := Prod.mk.inj (Option.some.inj h)
      exact hs.malloc
    | some n =>
      simp only at h
      split at h
      · obtain ⟨-, rfl⟩ := Prod.mk.inj (Option.some.inj h)
        exact hs.malloc.malloc.withVol _
      · split at h
        · obtain ⟨-, rfl⟩ := Prod.mk.inj (Option.some.inj h)
          exact hs.malloc.malloc.withVol _
        · rename_i k hk
          obtain ⟨hlt, hfree⟩ := getFreeSlotInGlobal_some hk
          exact fileCreateAt_holding h hlt hfree hflag hs.malloc.malloc

/-- A file whose path has one component is found in the root directory. -/
theorem searchFile_top {junk : Junk} {pathname : List Byte} {record record' : PathSearchRecord}
    {r : Option ℕ} (h : searchFile junk pathname record s = some (r, record', s'))
    (hone : (components pathname).length = 1) (hfile : record'.fileType ≠ .directory) :
    record'.parentDir = some .root := by
  have hend : ∀ {parentDir : Option DirPtr} {p n : ℕ} {subPath : Option (List Byte)}
      {rec : PathSearchRecord} {t : Kernel part},
      searchLoop [] subPath parentDir p n rec t ≠ some (r, record', s') := by
    intro parentDir p n subPath rec t ht
    simp only [searchLoop, ↓reduceIte, searchEnd, bind_some_iff, Option.pure_def,
      Option.some.injEq, Prod.mk.injEq] at ht
    obtain ⟨_, _, _, _, _, hrec, _⟩ := ht
    rw [← hrec] at hfile
    exact hfile rfl
  rw [searchFile] at h
  split at h
  · obtain ⟨-, rfl, -⟩ := by simpa using h
    rfl
  · simp only [assert_bind] at h
    obtain ⟨-, -, h⟩ := h
    rw [components, namesFrom] at hone
    split at hone
    · exact absurd hone (by decide)
    · rename_i hname
      have hnext : (nextName (pathParse pathname).2).1 = [] := by
        by_contra hne
        rw [List.length_cons, namesFrom, if_neg hne] at hone
        simp at hone
      rw [searchLoop, if_neg hname] at h
      simp only [assert_bind] at h
      obtain ⟨-, -, h⟩ := h
      rw [bind_some_iff] at h
      obtain ⟨⟨e, s1⟩, -, h⟩ := h
      cases e with
      | none =>
        obtain ⟨-, rfl, -⟩ := by simpa using h
        rfl
      | some e =>
        simp only [assert_bind, hnext] at h
        obtain ⟨-, h⟩ := h
        split at h
        · simp only [bind_some_iff] at h
          obtain ⟨_, -, _, -, _, -, _, -, h⟩ := h
          exact absurd h hend
        split at h
        · obtain ⟨-, rfl, -⟩ := by simpa using h
          rfl
        · exact absurd h hend

theorem openFound_holding {junk : Junk} {pathname : List Byte} {flags depth : ℕ}
    {no : Option ℕ} {record : PathSearchRecord} {fd : ℤ}
    (h : openFound junk pathname flags depth no record s = some (fd, s'))
    (hfd : creates flags = false → fd ≠ -1) (hflags : flags ≤ 7)
    (hs : Holding D record.parentDir s x)
    (htop : creates flags = false → record.fileType ≠ .directory → record.parentDir = some .root) :
    Holding D none s' x := by
  unfold openFound at h
  split at h
  · exact closeParent_holding h hs
  · rename_i hdir
    rw [bind_some_iff] at h
    obtain ⟨searched, -, h⟩ := h
    split at h
    · exact closeParent_holding h hs
    split at h
    · exact closeParent_holding h hs
    · exact closeParent_holding h hs
    · simp only [bind_some_iff, Option.pure_def, Option.some.injEq, Prod.mk.injEq] at h
      obtain ⟨filename, -, ⟨fd', s1⟩, hcr, s2, hcl, -, rfl⟩ := h
      exact dirClose_holding hcl (fileCreate_holding hcr hflags hs)
    · rename_i hcr
      have hroot := htop hcr hdir
      rw [hroot] at hs
      have := fileOpen_holding h (hfd hcr) hflags hs
      exact ⟨this.counted, this.handles, this.pipes⟩

/-- The condition on `sys_open`: a file that has to exist is given by one component. -/
def OpensOne (pathname : List Byte) (flags : ℕ) : Prop :=
  creates flags = false → (components pathname).length = 1

theorem sysOpen_holding {junk : Junk} {pathname : List Byte} {flags : ℕ} {fd : ℤ}
    (h : sysOpen junk pathname flags s = some (fd, s')) (hfd : creates flags = false → fd ≠ -1)
    (hone : OpensOne pathname flags) (hs : Holding D none s x) : Holding D none s' x := by
  rw [sysOpen, bind_some_iff] at h
  obtain ⟨last, -, h⟩ := h
  split at h
  · obtain ⟨-, rfl⟩ := Prod.mk.inj (Option.some.inj h)
    exact hs
  · simp only [bind_some_iff, assert_eq_some] at h
    obtain ⟨-, hflags, depth, -, ⟨no, record, s1⟩, hsearch, h⟩ := h
    exact openFound_holding h hfd hflags (searchFile_holding hsearch hs)
      fun hcr hfile => searchFile_top hsearch (hone hcr) hfile

theorem sysClose_holding {fd : ℕ} {ret : ℤ} (h : sysClose fd s = some (ret, s'))
    (hs : Holding D none s x) : Holding D none s' x := by
  rw [sysClose] at h
  split at h
  · obtain ⟨-, rfl⟩ := Prod.mk.inj (Option.some.inj h)
    exact hs
  · rw [bind_some_iff] at h
    obtain ⟨k, hlocal, h⟩ := h
    simp only [fdLocal2global, bind_some_iff, assert_eq_some, Option.pure_def,
      Option.some.injEq] at hlocal
    obtain ⟨-, -, k', -, -, hk, rfl⟩ := hlocal
    rw [if_neg (hs.pipes _), bind_some_iff] at h
    obtain ⟨⟨ret', s1⟩, hcl, h⟩ := h
    obtain ⟨-, rfl⟩ := Prod.mk.inj (Option.some.inj h)
    exact (fileClose_holding hcl hk hs).withCur _

theorem sysUnlink_holding {junk : Junk} {pathname : List Byte} {ret : ℤ}
    (h : sysUnlink junk pathname s = some (ret, s')) (hs : Holding D none s x) :
    Holding D none s' x := by
  simp only [sysUnlink, bind_some_iff, assert_eq_some] at h
  obtain ⟨-, -, ⟨no, record, s1⟩, hsearch, -, -, h⟩ := h
  have hs1 := searchFile_holding hsearch hs
  cases no with
  | none => exact closeParent_holding h hs1
  | some n =>
    simp only at h
    split at h
    · exact closeParent_holding h hs1
    · rw [bind_some_iff] at h
      obtain ⟨inUse, -, h⟩ := h
      split at h
      · exact closeParent_holding h hs1
      · simp only [unlinkFound] at h
        split at h
        · exact closeParent_holding h hs1.malloc
        · simp only [bind_some_iff, Option.pure_def, Option.some.injEq, Prod.mk.injEq] at h
          obtain ⟨s2, hdel, s3, hrel, s4, hcl, -, rfl⟩ := h
          exact dirClose_holding hcl
            (inodeReleaseNo_holding hrel (deleteDirEntryIn_holding hdel hs1.malloc))

theorem mkdirIn_holding {dirname : List Byte} {ret : ℤ} (h : mkdirIn d dirname s = some (ret, s'))
    (hs : Holding D d s x) : Holding D none s' x := by
  rw [mkdirIn, bind_some_iff] at h
  obtain ⟨⟨r, v⟩, -, h⟩ := h
  cases r with
  | none => exact closeParent_holding h hs
  | some n =>
    simp only [bind_some_iff] at h
    obtain ⟨a, -, i, hi, ⟨new, v1⟩, -, h⟩ := h
    cases new with
    | none => exact closeParent_holding h (hs.withVol _)
    | some new =>
      simp only [bind_some_iff] at h
      obtain ⟨e, -, ⟨ok, i', v2⟩, hsync, h⟩ := h
      have hs1 := hs.setInode hi (syncDirEntry_entered hsync).cnts
      split at h
      · exact closeParent_holding h (hs1.withVol _)
      · rw [bind_some_iff] at h
        obtain ⟨v3, -, h⟩ := h
        exact closeParent_holding h (hs1.withVol _)

theorem sysMkdir_holding {junk : Junk} {pathname : List Byte} {ret : ℤ}
    (h : sysMkdir junk pathname s = some (ret, s')) (hs : Holding D none s x) :
    Holding D none s' x := by
  simp only [sysMkdir] at h
  split at h
  · obtain ⟨-, rfl⟩ := Prod.mk.inj (Option.some.inj h)
    exact hs.malloc
  · rw [bind_some_iff] at h
    obtain ⟨⟨no, record, s1⟩, hsearch, h⟩ := h
    have hs1 := searchFile_holding hsearch hs.malloc
    cases no with
    | some n => exact closeParent_holding h hs1
    | none =>
      simp only [bind_some_iff] at h
      obtain ⟨depth, -, searched, -, h⟩ := h
      split at h
      · exact closeParent_holding h hs1
      · rw [bind_some_iff] at h
        obtain ⟨dirname, -, h⟩ := h
        exact mkdirIn_holding h hs1

theorem dirRemove_holding {pdir child : Option DirPtr} {ret : ℤ}
    (h : dirRemove pdir child s = some (ret, s')) (hs : Holding D d s x) : Holding D d s' x := by
  simp only [dirRemove, bind_some_iff, assert_eq_some] at h
  obtain ⟨a, -, i, -, -, -, h⟩ := h
  split at h
  · obtain ⟨-, rfl⟩ := Prod.mk.inj (Option.some.inj h)
    exact hs.malloc
  · simp only [bind_some_iff] at h
    obtain ⟨s1, hdel, i', -, s2, hrel, h⟩ := h
    obtain ⟨-, rfl⟩ := Prod.mk.inj (Option.some.inj h)
    exact inodeReleaseNo_holding hrel (deleteDirEntryIn_holding hdel hs.malloc)

/-- A handle opened on top of another one and closed again. -/
theorem Holding.inner {d' : Option DirPtr} {t : Kernel part} (h : Holding D d s x)
    (h' : Holding s.dirs d' t x) (hcl : dirClose d' t = some s') : Holding D d s' x := by
  have hin := dirClose_holding hcl h'
  exact ⟨hin.counted, h.handles.congr hin.handles, hin.pipes⟩

theorem dirOpen_inner {n : ℕ} {d' : Option DirPtr} (ho : dirOpen n s = some (d', s'))
    (h : Holding D d s x) : Holding s.dirs d' s' x :=
  dirOpen_holding ho ⟨h.counted, rfl, h.pipes⟩

theorem rmdirFound_holding {n : ℕ} {ret : ℤ} (h : rmdirFound n d s = some (ret, s'))
    (hs : Holding D d s x) : Holding D none s' x := by
  simp only [rmdirFound, bind_some_iff] at h
  obtain ⟨⟨d', s1⟩, hop, a, -, i, -, h⟩ := h
  have hs1 := dirOpen_inner hop hs
  split at h
  · rw [bind_some_iff] at h
    obtain ⟨s2, hcl, h⟩ := h
    exact closeParent_holding h (hs.inner hs1 hcl)
  · simp only [bind_some_iff] at h
    obtain ⟨⟨ret', s2⟩, hrem, s3, hcl, h⟩ := h
    exact closeParent_holding (bind_some_iff.mpr h) (hs.inner (dirRemove_holding hrem hs1) hcl)

theorem sysRmdir_holding {junk : Junk} {pathname : List Byte} {ret : ℤ}
    (h : sysRmdir junk pathname s = some (ret, s')) (hs : Holding D none s x) :
    Holding D none s' x := by
  simp only [sysRmdir, bind_some_iff, assert_eq_some] at h
  obtain ⟨⟨no, record, s1⟩, hsearch, -, -, h⟩ := h
  have hs1 := searchFile_holding hsearch hs
  cases no with
  | none => exact closeParent_holding h hs1
  | some n =>
    simp only at h
    split at h
    · exact closeParent_holding h hs1
    · exact rmdirFound_holding h hs1

theorem sysChdir_holding {junk : Junk} {path : List Byte} {ret : ℤ}
    (h : sysChdir junk path s = some (ret, s')) (hs : Holding D none s x) :
    Holding D none s' x := by
  rw [sysChdir, bind_some_iff] at h
  obtain ⟨⟨no, record, s1⟩, hsearch, h⟩ := h
  have hs1 := searchFile_holding hsearch hs
  simp only at h
  split at h
  · exact closeParent_holding h (hs1.withCur _)
  · exact closeParent_holding h hs1

theorem sysStat_holding {junk : Junk} {path : List Byte} {ret : Option Stat}
    (h : sysStat junk path s = some (ret, s')) (hs : Holding D none s x) :
    Holding D none s' x := by
  rw [sysStat] at h
  split at h
  · rw [bind_some_iff] at h
    obtain ⟨i, -, h⟩ := h
    obtain ⟨-, rfl⟩ := Prod.mk.inj (Option.some.inj h)
    exact hs
  · rw [bind_some_iff] at h
    obtain ⟨⟨no, record, s1⟩, hsearch, h⟩ := h
    have hs1 := searchFile_holding hsearch hs
    cases no with
    | none => exact closeParent_holding h hs1
    | some n =>
      simp only [bind_some_iff] at h
      obtain ⟨⟨a, s2⟩, hop, i, -, s3, hcl, h⟩ := h
      exact closeParent_holding (bind_some_iff.mpr h)
        (inodeClose_holding hcl (inodeOpen_holding hop hs1))

/-- Two handles in use; the first one can be given up before the second. -/
theorem handles_swap {d' : Option DirPtr} {t : Kernel part} (h : Handles D d s)
    (h' : Handles s.dirs d' t) :
    ∃ D', Handles D' d t ∧ ∀ u : Kernel part, u.dirs = D' → Handles D d' u := by
  have houter : s.dirs = D → ∃ D', t.dirs = D' ∧ ∀ u : Kernel part, u.dirs = D' → Handles D d' u := by
    rintro rfl
    exact ⟨_, rfl, fun u hu => h'.congr hu⟩
  have hinner : ∀ p, D p = none → (∃ dir, s.dirs = Function.update D p (some dir)) →
      t.dirs = s.dirs → Handles D (some (.heap p)) t := by
    rintro p hz ⟨dir, hdir⟩ he
    exact ⟨hz, dir, he.trans hdir⟩
  rcases d with _ | _ | p
  · exact houter h
  · exact houter h
  · rcases d' with _ | _ | q
    · exact ⟨D, hinner p h.1 h.2 h', fun u hu => hu⟩
    · exact ⟨D, hinner p h.1 h.2 h', fun u hu => hu⟩
    · obtain ⟨hz, dir, hdir⟩ := h
      obtain ⟨hz', dir', hdir'⟩ := h'
      have hne : q ≠ p := by
        rintro rfl
        rw [hdir, Function.update_self] at hz'
        cases hz'
      rw [hdir, Function.update_of_ne hne] at hz'
      refine ⟨Function.update D q (some dir'), ⟨?_, dir, ?_⟩, fun u hu => ⟨hz', dir', hu⟩⟩
      · rw [Function.update_of_ne hne.symm]
        exact hz
      · rw [hdir', hdir, Function.update_comm hne]

theorem sysOpendir_holding {junk : Junk} {name : List Byte} {ret : Option DirPtr}
    (h : sysOpendir junk name s = some (ret, s')) (hs : Holding D none s x) :
    Holding D ret s' x := by
  rw [sysOpendir, assert_bind] at h
  obtain ⟨-, h⟩ := h
  split at h
  · obtain ⟨rfl, rfl⟩ := Prod.mk.inj (Option.some.inj h)
    exact ⟨hs.counted, hs.handles, hs.pipes⟩
  · rw [bind_some_iff] at h
    obtain ⟨⟨no, record, s1⟩, hsearch, h⟩ := h
    have hs1 := searchFile_holding hsearch hs
    simp only at h
    split at h
    · simp only [bind_some_iff] at h
      obtain ⟨⟨ret', s2⟩, hop, h⟩ := h
      have hs2 := dirOpen_inner hop hs1
      obtain ⟨D', hD', hret⟩ := handles_swap hs1.handles hs2.handles
      obtain ⟨u, hcl, he⟩ := h
      obtain ⟨rfl, rfl⟩ := Prod.mk.inj (Option.some.inj he)
      have hs3 := dirClose_holding hcl ⟨hs2.counted, hD', hs2.pipes⟩
      exact ⟨hs3.counted, hret _ hs3.handles, hs3.pipes⟩
    · rw [bind_some_iff] at h
      obtain ⟨u, hcl, h⟩ := h
      obtain ⟨rfl, rfl⟩ := Prod.mk.inj (Option.some.inj h)
      exact dirClose_holding hcl hs1

theorem sysClosedir_holding {ret : ℤ} (h : sysClosedir d s = some (ret, s'))
    (hs : Holding D d s x) : Holding D none s' x := by
  cases d with
  | none =>
    obtain ⟨-, rfl⟩ := Prod.mk.inj (Option.some.inj h)
    exact hs
  | some d => exact closeParent_holding h hs

/-- The running process and the handles `sys_opendir` has given it. -/
structure Session (part : Partition) where
  kernel : Kernel part
  handles : Finset ℕ

inductive Call where
  | open (junk : Junk) (pathname : List Byte) (flags : ℕ)
  | close (fd : ℕ)
  | opendir (junk : Junk) (name : List Byte)
  | closedir (dir : Option DirPtr)
  | mkdir (junk : Junk) (pathname : List Byte)
  | unlink (junk : Junk) (pathname : List Byte)
  | rmdir (junk : Junk) (pathname : List Byte)
  | stat (junk : Junk) (path : List Byte)
  | chdir (junk : Junk) (path : List Byte)

/-- `sys_closedir` gets a handle that is outstanding, or `&root_dir`. -/
def isHandle (handles : Finset ℕ) : Option DirPtr → Bool
  | some (.heap p) => decide (p ∈ handles)
  | _ => true

def gain (handles : Finset ℕ) : Option DirPtr → Finset ℕ
  | some (.heap p) => insert p handles
  | _ => handles

def lose (handles : Finset ℕ) : Option DirPtr → Finset ℕ
  | some (.heap p) => handles.erase p
  | _ => handles

/-- A completed call; `sys_open` has to succeed. -/
def Call.exec : Call → Session part → Option (Session part)
  | .open junk pathname flags, σ => do
    let (fd, s) ← sysOpen junk pathname flags σ.kernel
    assert (fd ≠ -1)
    return { σ with kernel := s }
  | .close fd, σ => do
    let (_, s) ← sysClose fd σ.kernel
    return { σ with kernel := s }
  | .opendir junk name, σ => do
    let (dir, s) ← sysOpendir junk name σ.kernel
    return ⟨s, gain σ.handles dir⟩
  | .closedir dir, σ => do
    assert (isHandle σ.handles dir = true)
    let (_, s) ← sysClosedir dir σ.kernel
    return ⟨s, lose σ.handles dir⟩
  | .mkdir junk pathname, σ => do
    let (_, s) ← sysMkdir junk pathname σ.kernel
    return { σ with kernel := s }
  | .unlink junk pathname, σ => do
    let (_, s) ← sysUnlink junk pathname σ.kernel
    return { σ with kernel := s }
  | .rmdir junk pathname, σ => do
    let (_, s) ← sysRmdir junk pathname σ.kernel
    return { σ with kernel := s }
  | .stat junk path, σ => do
    let (_, s) ← sysStat junk path σ.kernel
    return { σ with kernel := s }
  | .chdir junk path, σ => do
    let (_, s) ← sysChdir junk path σ.kernel
    return { σ with kernel := s }

/-- Completed calls in a row. -/
def execAll : List Call → Session part → Option (Session part)
  | [], σ => some σ
  | c :: calls, σ => do
    let σ ← c.exec σ
    execAll calls σ

/-- File table entries, outstanding handles and `root_dir` that hold the inode at `a`. -/
def holders (σ : Session part) (a : ℕ) : ℕ :=
  ((Finset.range maxFilesOpen).filter fun k => (σ.kernel.fileTable k).fdInode = some a).card +
  (σ.handles.filter fun p => (σ.kernel.dirs p).map Dir.inode = some a).card +
  if a = σ.kernel.rootInode then 1 else 0

/-- Every open inode is counted once for each holder, and none has the count zero. -/
def ExactCounts (σ : Session part) : Prop :=
  ∀ a ∈ σ.kernel.openInodes, ∃ i, σ.kernel.inodes a = some i ∧ i.openCnts = holders σ a ∧
    i.openCnts ≠ 0

/-- The outstanding handles are all the handles there are. -/
structure Clean (σ : Session part) : Prop where
  counted : Counted σ.kernel fun _ => 0
  handles : ∀ p, p ∈ σ.handles ↔ σ.kernel.dirs p ≠ none
  pipes : NoPipes σ.kernel

theorem Clean.exact {σ : Session part} (h : Clean σ) : ExactCounts σ := by
  have hsame : ∀ a, holders σ a = held σ.kernel a := by
    intro a
    have hset : σ.handles.filter (fun p => (σ.kernel.dirs p).map Dir.inode = some a) =
        (Finset.range σ.kernel.next).filter fun p => dirSlots σ.kernel p = some a := by
      ext p
      rw [Finset.mem_filter, Finset.mem_filter, Finset.mem_range, h.handles, dirSlots]
      constructor
      · rintro ⟨hne, ha⟩
        refine ⟨?_, ha⟩
        by_contra hge
        exact hne (h.counted.fresh p (by omega))
      · rintro ⟨-, ha⟩
        refine ⟨fun hz => ?_, ha⟩
        rw [hz] at ha
        cases ha
    rw [holders, held, hset, weight_some]
    rfl
  intro a ha
  obtain ⟨i, hi, hc, hp⟩ := h.counted.listed a ha
  exact ⟨i, hi, by rw [hsame, hc, Nat.add_zero], by omega⟩

/-- The kernel with its handles as a base to hold more. -/
theorem Clean.holding {σ : Session part} (h : Clean σ) :
    Holding σ.kernel.dirs none σ.kernel fun _ => 0 := ⟨h.counted, rfl, h.pipes⟩

theorem Clean.keep {σ : Session part} (h : Clean σ)
    (hs : Holding σ.kernel.dirs none s' fun _ => 0) : Clean { σ with kernel := s' } := by
  refine ⟨hs.counted, fun p => ?_, hs.pipes⟩
  rw [show s'.dirs = σ.kernel.dirs from hs.handles]
  exact h.handles p

theorem Clean.gain {σ : Session part} (h : Clean σ)
    (hs : Holding σ.kernel.dirs d s' fun _ => 0) : Clean ⟨s', FsReferenceRuns.gain σ.handles d⟩ := by
  rcases d with _ | _ | p
  · exact h.keep ⟨hs.counted, hs.handles, hs.pipes⟩
  · exact h.keep ⟨hs.counted, hs.handles, hs.pipes⟩
  · obtain ⟨hz, dir, hdir⟩ := hs.handles
    refine ⟨hs.counted, fun q => ?_, hs.pipes⟩
    simp only [FsReferenceRuns.gain, Finset.mem_insert, hdir]
    by_cases hq : q = p
    · subst q
      simp
    · rw [Function.update_of_ne hq, h.handles q]
      simp [hq]

theorem Clean.lose {σ : Session part} (h : Clean σ) (hd : isHandle σ.handles d = true)
    {ret : ℤ} (hcl : sysClosedir d σ.kernel = some (ret, s')) :
    Clean ⟨s', FsReferenceRuns.lose σ.handles d⟩ := by
  rcases d with _ | _ | p
  · exact h.keep (sysClosedir_holding hcl h.holding)
  · exact h.keep (sysClosedir_holding hcl ⟨h.counted, rfl, h.pipes⟩)
  · obtain ⟨dir, hdir⟩ := Option.ne_none_iff_exists'.mp ((h.handles p).mp (of_decide_eq_true hd))
    have hbase : Holding (Function.update σ.kernel.dirs p none) (some (.heap p)) σ.kernel
        fun _ => 0 := by
      refine ⟨h.counted, ⟨Function.update_self _ _ _, dir, ?_⟩, h.pipes⟩
      rw [Function.update_idem, ← hdir, Function.update_eq_self]
    have hs := sysClosedir_holding hcl hbase
    refine ⟨hs.counted, fun q => ?_, hs.pipes⟩
    rw [show s'.dirs = Function.update σ.kernel.dirs p none from hs.handles]
    simp only [FsReferenceRuns.lose, Finset.mem_erase]
    by_cases hq : q = p
    · subst q
      simp
    · rw [Function.update_of_ne hq, h.handles q]
      simp [hq]

/-- A file that is opened without `O_CREAT` is given by one component. -/
def Call.Fine : Call → Prop
  | .open _ pathname flags => OpensOne pathname flags
  | _ => True

theorem exec_clean {σ σ' : Session part} {c : Call} (h : Clean σ) (hc : c.Fine)
    (hs : c.exec σ = some σ') : Clean σ' := by
  cases c with
  | «open» junk pathname flags =>
    simp only [Call.exec, bind_some_iff, assert_eq_some, Option.pure_def, Option.some.injEq] at hs
    obtain ⟨⟨fd, s⟩, ho, -, hfd, rfl⟩ := hs
    exact h.keep (sysOpen_holding ho (fun _ => hfd) hc h.holding)
  | close fd =>
    simp only [Call.exec, bind_some_iff, Option.pure_def, Option.some.injEq] at hs
    obtain ⟨⟨ret, s⟩, hcl, rfl⟩ := hs
    exact h.keep (sysClose_holding hcl h.holding)
  | opendir junk name =>
    simp only [Call.exec, bind_some_iff, Option.pure_def, Option.some.injEq] at hs
    obtain ⟨⟨dir, s⟩, ho, rfl⟩ := hs
    exact h.gain (sysOpendir_holding ho h.holding)
  | closedir dir =>
    simp only [Call.exec, bind_some_iff, assert_eq_some, Option.pure_def, Option.some.injEq] at hs
    obtain ⟨-, hd, ⟨ret, s⟩, hcl, rfl⟩ := hs
    exact h.lose hd hcl
  | mkdir junk pathname =>
    simp only [Call.exec, bind_some_iff, Option.pure_def, Option.some.injEq] at hs
    obtain ⟨⟨ret, s⟩, hm, rfl⟩ := hs
    exact h.keep (sysMkdir_holding hm h.holding)
  | unlink junk pathname =>
    simp only [Call.exec, bind_some_iff, Option.pure_def, Option.some.injEq] at hs
    obtain ⟨⟨ret, s⟩, hu, rfl⟩ := hs
    exact h.keep (sysUnlink_holding hu h.holding)
  | rmdir junk pathname =>
    simp only [Call.exec, bind_some_iff, Option.pure_def, Option.some.injEq] at hs
    obtain ⟨⟨ret, s⟩, hr, rfl⟩ := hs
    exact h.keep (sysRmdir_holding hr h.holding)
  | stat junk path =>
    simp only [Call.exec, bind_some_iff, Option.pure_def, Option.some.injEq] at hs
    obtain ⟨⟨ret, s⟩, hst, rfl⟩ := hs
    exact h.keep (sysStat_holding hst h.holding)
  | chdir junk path =>
    simp only [Call.exec, bind_some_iff, Option.pure_def, Option.some.injEq] at hs
    obtain ⟨⟨ret, s⟩, hch, rfl⟩ := hs
    exact h.keep (sysChdir_holding hch h.holding)

theorem booted_clean {v : Volume part} (h : Booted v s) : Clean ⟨s, ∅⟩ := by
  refine ⟨h.counted, fun p => ?_, fun k => ?_⟩
  · simp [h.dirs]
  · simp [h.fileTable, pipeFlag]

theorem execAll_clean : ∀ {calls : List Call} {σ σ' : Session part}, Clean σ →
    (∀ c ∈ calls, c.Fine) → execAll calls σ = some σ' → Clean σ' := by
  intro calls
  induction calls with
  | nil =>
    intro σ σ' h _ hs
    obtain rfl := Option.some.inj hs
    exact h
  | cons c calls ih =>
    intro σ σ' h hc hs
    rw [execAll, bind_some_iff] at hs
    obtain ⟨σ1, h1, hs⟩ := hs
    exact ih (exec_clean h (hc c List.mem_cons_self) h1)
      (fun c' hc' => hc c' (List.mem_cons_of_mem _ hc')) hs

/-- From the mounted file system on, as long as files that exist are opened by paths of one
component, every count is the number of holders. -/
theorem run_counts_exact {v : Volume part} {m : ℕ → Bool} {calls : List Call} {σ : Session part}
    (h : openRootDir (mounted v m) = some s) (hc : ∀ c ∈ calls, c.Fine)
    (hr : execAll calls ⟨s, ∅⟩ = some σ) : ExactCounts σ :=
  (execAll_clean (booted_clean (openRootDir_some h)) hc hr).exact

/-- A new file system on the small partition. -/
def smallVolume : Option (Volume smallPartition) := do
  let (_, disk) ← partitionFormat 3 zeroes 0 1 1000 zeroes
  mountPartition smallPartition disk

def smallRun (calls : List Call) : Option (Session smallPartition) := do
  let v ← smallVolume
  let s ← openRootDir (mounted v fun _ => true)
  execAll calls ⟨s, ∅⟩

theorem smallRun_some {calls : List Call} {σ : Session smallPartition} (h : smallRun calls = some σ) :
    ∃ v s, smallVolume = some v ∧ openRootDir (mounted v fun _ => true) = some s ∧
      execAll calls ⟨s, ∅⟩ = some σ := by
  simp only [smallRun, bind_some_iff] at h
  obtain ⟨v, hv, s, hs, h⟩ := h
  exact ⟨v, s, hv, hs, h⟩

def noJunk : Junk := ⟨[], 0, 0, 0⟩

/-- `mkdir /d`, `opendir /d`, then `/f` is created, closed and opened again. -/
def fineCalls : List Call :=
  [.mkdir noJunk [slash, 0x64], .opendir noJunk [slash, 0x64], .open noJunk [slash, 0x66] 4,
    .close 3, .open noJunk [slash, 0x66] 0]

theorem run_counts_exact_reopen :
    ∃ v s σ, smallVolume = some v ∧ openRootDir (mounted v fun _ => true) = some s ∧
      execAll fineCalls ⟨s, ∅⟩ = some σ ∧ ExactCounts σ := by
  have hrun : (smallRun fineCalls).isSome := by decide +kernel
  obtain ⟨σ, hσ⟩ := Option.isSome_iff_exists.mp hrun
  obtain ⟨v, s, hv, hs, hr⟩ := smallRun_some hσ
  have hfine : ∀ c ∈ fineCalls, c.Fine := by
    simp only [fineCalls, List.mem_cons, List.not_mem_nil, or_false]
    rintro c (rfl | rfl | rfl | rfl | rfl)
    · trivial
    · trivial
    · exact fun h => absurd h (by decide)
    · trivial
    · intro _
      decide +kernel
  exact ⟨v, s, σ, hv, hs, hr, run_counts_exact hs hfine hr⟩

/-- `mkdir /d`, then `/d/f` is created, closed and opened again. -/
def leakyCalls : List Call :=
  [.mkdir noJunk [slash, 0x64], .open noJunk [slash, 0x64, slash, 0x66] 4, .close 3,
    .open noJunk [slash, 0x64, slash, 0x66] 0]

/-- The inode of `/d` stays open without a holder. -/
theorem open_in_subdirectory_leaks :
    ∃ v s σ, smallVolume = some v ∧ openRootDir (mounted v fun _ => true) = some s ∧
      execAll leakyCalls ⟨s, ∅⟩ = some σ ∧ ¬ExactCounts σ := by
  have hrun : ((smallRun leakyCalls).map fun σ =>
      (σ.kernel.openInodes, (σ.kernel.inodes 4).map Inode.openCnts, holders σ 4)) =
      some ([6, 4, 0], some 1, 0) := by decide +kernel
  obtain ⟨σ, hσ, he⟩ := Option.map_eq_some_iff.mp hrun
  simp only [Prod.mk.injEq] at he
  obtain ⟨v, s, hv, hs, hr⟩ := smallRun_some hσ
  refine ⟨v, s, σ, hv, hs, hr, fun hx => ?_⟩
  obtain ⟨i, hi, hcnt, hne⟩ := hx 4 (by rw [he.1]; decide)
  rw [hcnt, he.2.2] at hne
  exact hne rfl

end FsReferenceRuns
