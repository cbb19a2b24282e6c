import XianweiOS.FsWriters

/-! Descriptors of several processes on regular files. `sys_fork` makes parent and child share
slots of the file table and counts the child only in the inodes; `file_close` clears the slot,
whoever else refers to it. -/
namespace FsDescriptors

open ByteStore HaltingProgram KernelBitmap DeviceIde FsVolume FsInodeTable FsBlockMap FsOwnership
  FsDirectory FsInodeRelease FsFileWrite FsPath FsOpenFiles FsSyscalls HolderCount
  FsReferenceCounts FsReferenceRuns FsFormat FsProcesses FsWriters

variable {part : Partition} {s s' : Kernel part} {x : ℕ → ℕ} {D : ℕ → Option Dir}
  {d : Option DirPtr}

/-- What a slot that is in use holds stays, and a descriptor that is handed out is new and
refers to a slot that was free. -/
structure OpenEffect (s s' : Kernel part) (fd : ℤ) : Prop where
  kept : ∀ k, (s.fileTable k).fdInode ≠ none → s'.fileTable k = s.fileTable k
  result : (fd = -1 ∧ s'.cur = s.cur) ∨ ∃ j k a : ℕ, fd = j ∧ 3 ≤ j ∧ j < maxFilesOpenPerProc ∧
    k < maxFilesOpen ∧ s.cur.fdTable j = none ∧ (s.fileTable k).fdInode = none ∧
    (s'.fileTable k).fdInode = some a ∧
    s'.cur = { s.cur with fdTable := Function.update s.cur.fdTable j (some k) }

theorem OpenEffect.of_quiet (h : Quiet s s') : OpenEffect s s' (-1) :=
  ⟨fun k _ => by rw [h.fileTable], Or.inl ⟨rfl, h.cur⟩⟩

theorem OpenEffect.quiet {s0 s1 : Kernel part} {fd : ℤ} (h : OpenEffect s s' fd) (h0 : Quiet s0 s)
    (h1 : Quiet s' s1) : OpenEffect s0 s1 fd := by
  obtain ⟨hkept, hres⟩ := h
  rw [h0.fileTable] at hkept
  rw [h0.fileTable, h0.cur] at hres
  refine ⟨fun k hk => ?_, ?_⟩
  · rw [h1.fileTable]
    exact hkept k hk
  · rw [h1.fileTable, h1.cur]
    exact hres

theorem pcbFdInstall_cases (k : ℕ) (s : Kernel part) :
    pcbFdInstall k s = (-1, s) ∨ ∃ j, 3 ≤ j ∧ j < maxFilesOpenPerProc ∧ s.cur.fdTable j = none ∧
      pcbFdInstall k s = ((j : ℤ), { s with cur := { s.cur with
        fdTable := Function.update s.cur.fdTable j (some k) } }) := by
  rw [pcbFdInstall]
  split
  · exact Or.inl rfl
  · rename_i j hj
    have hp := List.find?_some hj
    simp only [Bool.and_eq_true, decide_eq_true_eq, Option.isNone_iff_eq_none] at hp
    exact Or.inr ⟨j, hp.1, List.mem_range.mp (List.mem_of_find?_eq_some hj), hp.2, rfl⟩

/-- A slot that was free is filled and installed. -/
theorem pcbFdInstall_effect {k a : ℕ} {f : File} {t : Kernel part} {r : ℤ × Kernel part}
    (hr : pcbFdInstall k t = r) (hfree : (s.fileTable k).fdInode = none) (hk : k < maxFilesOpen)
    (hf : f.fdInode = some a) (ht : t.fileTable = Function.update s.fileTable k f)
    (hcur : t.cur = s.cur) : OpenEffect s r.2 r.1 := by
  have hkept : ∀ j, (s.fileTable j).fdInode ≠ none → t.fileTable j = s.fileTable j := by
    intro j hj
    rw [ht, Function.update_of_ne]
    rintro rfl
    exact hj hfree
  rcases pcbFdInstall_cases k t with h | ⟨j, h3, h8, hj, h⟩
  · rw [← hr, h]
    exact ⟨hkept, Or.inl ⟨rfl, hcur⟩⟩
  · rw [← hr, h]
    rw [hcur] at hj
    refine ⟨hkept, Or.inr ⟨j, k, a, rfl, h3, h8, hk, hj, hfree, ?_, ?_⟩⟩
    · simp only [ht, Function.update_self, hf]
    · simp only [hcur]

theorem fileOpen_effect {n flag : ℕ} {fd : ℤ} (h : fileOpen n flag s = some (fd, s')) :
    OpenEffect s s' fd := by
  rw [fileOpen] at h
  split at h
  · obtain ⟨rfl, rfl⟩ := Prod.mk.inj (Option.some.inj h)
    exact OpenEffect.of_quiet (Quiet.refl _)
  · rename_i k hk
    obtain ⟨hlt, hfree⟩ := getFreeSlotInGlobal_some hk
    rw [bind_some_iff] at h
    obtain ⟨⟨a, s1⟩, hop, h⟩ := h
    have hq := inodeOpen_quiet hop
    rw [← hq.fileTable] at hfree
    simp only [bind_some_iff] at h
    obtain ⟨i, -, h⟩ := h
    split at h
    · exact (pcbFdInstall_effect (Option.some.inj h) hfree hlt rfl rfl rfl).quiet hq (Quiet.refl _)
    split at h
    · exact (pcbFdInstall_effect (s := s1) (Option.some.inj h) hfree hlt rfl rfl rfl).quiet hq
        (Quiet.refl _)
    · obtain ⟨rfl, rfl⟩ := Prod.mk.inj (Option.some.inj h)
      have he : OpenEffect s1 (s1.setFile k ⟨0, flag, none⟩) (-1) := by
        refine ⟨fun j hj => s1.setFile_ne _ ?_, Or.inl ⟨rfl, rfl⟩⟩
        rintro rfl
        exact hj hfree
      exact he.quiet hq (Quiet.refl _)

theorem fileCreateAt_effect {pdir : Option DirPtr} {filename : List Byte} {n k flag : ℕ} {fd : ℤ}
    {v : Volume part}
    (h : fileCreateAt pdir filename n s.next k
      (((s.withVol v).newInode (inodeInit n)).setFile k ⟨0, flag, some s.next⟩) = some (fd, s'))
    (hk : k < maxFilesOpen) (hfree : (s.fileTable k).fdInode = none) : OpenEffect s s' fd := by
  simp only [fileCreateAt, bind_some_iff] at h
  obtain ⟨e, -, a, -, i, -, ⟨ok, i', v1⟩, -, h⟩ := h
  split at h
  · obtain ⟨rfl, rfl⟩ := by simpa using h
    refine ⟨fun j hj => ?_, Or.inl ⟨rfl, rfl⟩⟩
    have hjk : j ≠ k := by
      rintro rfl
      exact hj hfree
    simp only [Kernel.withVol, Kernel.freeInode, Kernel.setFile, Kernel.setInode, Kernel.newInode,
      Function.update_of_ne hjk]
  · simp only [bind_some_iff] at h
    obtain ⟨v2, -, h⟩ := h
    exact pcbFdInstall_effect (s := s) (Option.some.inj h) hfree hk rfl rfl rfl

theorem fileCreate_effect {pdir : Option DirPtr} {filename : List Byte} {flag : ℕ} {fd : ℤ}
    (h : fileCreate pdir filename flag s = some (fd, s')) : OpenEffect s s' fd := by
  have hq1 := quiet_malloc s
  have hq2 := hq1.trans (quiet_malloc _)
  simp only [fileCreate] at h
  split at h
  · obtain ⟨rfl, rfl⟩ := Prod.mk.inj (Option.some.inj h)
    exact OpenEffect.of_quiet hq1
  · rw [bind_some_iff] at h
    obtain ⟨⟨r, v⟩, -, h⟩ := h
    cases r with
    | none =>
      obtain ⟨rfl, rfl⟩ := Prod.mk.inj (Option.some.inj h)
      exact OpenEffect.of_quiet hq1
    | some n =>
      simp only at h
      split at h
      · obtain ⟨rfl, rfl⟩ := Prod.mk.inj (Option.some.inj h)
        exact OpenEffect.of_quiet (hq2.trans (quiet_withVol _ _))
      · split at h
        · obtain ⟨rfl, rfl⟩ := Prod.mk.inj (Option.some.inj h)
          exact OpenEffect.of_quiet (hq2.trans (quiet_withVol _ _))
        · rename_i k hk
          obtain ⟨hlt, hfree⟩ := getFreeSlotInGlobal_some hk
          exact (fileCreateAt_effect h hlt hfree).quiet hq2 (Quiet.refl _)

theorem closeParent_effect {fd : ℤ}
    (h : (dirClose d s >>= fun u => some (-1, u)) = some (fd, s')) : OpenEffect s s' fd := by
  have hq := closeParent_quiet h
  rw [bind_some_iff] at h
  obtain ⟨u, -, h⟩ := h
  rw [← (Prod.mk.inj (Option.some.inj h)).1]
  exact OpenEffect.of_quiet hq

theorem openFound_effect {junk : Junk} {pathname : List Byte} {flags depth : ℕ}
    {no : Option ℕ} {record : PathSearchRecord} {fd : ℤ}
    (h : openFound junk pathname flags depth no record s = some (fd, s')) : OpenEffect s s' fd := by
  unfold openFound at h
  split at h
  · exact closeParent_effect h
  · rw [bind_some_iff] at h
    obtain ⟨searched, -, h⟩ := h
    split at h
    · exact closeParent_effect h
    split at h
    · exact closeParent_effect h
    · exact closeParent_effect h
    · simp only [bind_some_iff, Option.pure_def, Option.some.injEq, Prod.mk.injEq] at h
      obtain ⟨filename, -, ⟨fd', s1⟩, hnew, s2, hcl, rfl, rfl⟩ := h
      exact (fileCreate_effect hnew).quiet (Quiet.refl _) (dirClose_quiet hcl)
    · exact fileOpen_effect h

theorem sysOpen_effect {junk : Junk} {pathname : List Byte} {flags : ℕ} {fd : ℤ}
    (h : sysOpen junk pathname flags s = some (fd, s')) : OpenEffect s s' fd := by
  rw [sysOpen, bind_some_iff] at h
  obtain ⟨last, -, h⟩ := h
  split at h
  · obtain ⟨rfl, rfl⟩ := Prod.mk.inj (Option.some.inj h)
    exact OpenEffect.of_quiet (Quiet.refl _)
  · simp only [bind_some_iff, assert_eq_some] at h
    obtain ⟨-, -, depth, -, ⟨no, record, s1⟩, hsearch, h⟩ := h
    exact (openFound_effect h).quiet (searchFile_quiet hsearch) (Quiet.refl _)

/-- Every reference is counted, some perhaps without a holder. -/
structure Tracked (s : Kernel part) : Prop where
  counted : ∃ x, Counted s x
  pipes : NoPipes s

theorem Tracked.holding (h : Tracked s) : ∃ x, Holding s.dirs none s x := by
  obtain ⟨x, hx⟩ := h.counted
  exact ⟨x, hx, rfl, h.pipes⟩

theorem tracked_of (h : Holding D d s x) : Tracked s := ⟨⟨x, h.counted⟩, h.pipes⟩

theorem Tracked.withCur (h : Tracked s) (t : Task) : Tracked { s with cur := t } := by
  obtain ⟨x, hx⟩ := h.counted
  exact ⟨⟨x, hx.withCur t⟩, h.pipes⟩

/-- A second writer is refused, and the reference taken for it stays. -/
theorem fileOpen_tracked {n flag : ℕ} {fd : ℤ} (h : fileOpen n flag s = some (fd, s'))
    (hflag : flag ≤ 7) (hs : Holding D d s x) : Tracked s' := by
  by_cases hfd : fd = -1
  · subst fd
    rw [fileOpen] at h
    split at h
    · obtain ⟨-, rfl⟩ := Prod.mk.inj (Option.some.inj h)
      exact tracked_of hs
    · rename_i k hk
      obtain ⟨hlt, hfree⟩ := getFreeSlotInGlobal_some hk
      rw [bind_some_iff] at h
      obtain ⟨⟨a, s1⟩, hop, h⟩ := h
      have hs1 := inodeOpen_holding hop hs
      rw [← (inodeOpen_quiet hop).fileTable] at hfree
      simp only [bind_some_iff] at h
      obtain ⟨i, hi, h⟩ := h
      split at h
      · have he := (Prod.ext_iff.mp (Option.some.inj h)).2
        rw [← show _ = s' from he]
        exact tracked_of (pcbFdInstall_holding
          (hs1.setFile (f := ⟨0, flag, some a⟩) hlt hfree rfl hflag))
      split at h
      · have hs2 : Holding D d (s1.setInode a { i with writeDeny := true }) (bump x a) :=
          hs1.setInode hi rfl
        have he := (Prod.ext_iff.mp (Option.some.inj h)).2
        rw [← show _ = s' from he]
        exact tracked_of (pcbFdInstall_holding
          (hs2.setFile (f := ⟨0, flag, some a⟩) hlt hfree rfl hflag))
      · obtain ⟨-, rfl⟩ := Prod.mk.inj (Option.some.inj h)
        refine ⟨⟨bump x a, hs1.counted.setFile hlt _ fun b => ?_⟩, fun j => ?_⟩
        · rw [fileSlots, hfree]
        · by_cases hj : j = k
          · subst j
            simp only [Kernel.setFile_self, pipeFlag]
            omega
          · rw [s1.setFile_ne _ hj]
            exact hs1.pipes j
  · exact tracked_of (fileOpen_holding h hfd hflag hs)

theorem openFound_tracked {junk : Junk} {pathname : List Byte} {flags depth : ℕ}
    {no : Option ℕ} {record : PathSearchRecord} {fd : ℤ}
    (h : openFound junk pathname flags depth no record s = some (fd, s')) (hflags : flags ≤ 7)
    (hs : Holding D record.parentDir s x) : Tracked s' := by
  unfold openFound at h
  split at h
  · exact tracked_of (closeParent_holding h hs)
  · rw [bind_some_iff] at h
    obtain ⟨searched, -, h⟩ := h
    split at h
    · exact tracked_of (closeParent_holding h hs)
    split at h
    · exact tracked_of (closeParent_holding h hs)
    · exact tracked_of (closeParent_holding h hs)
    · simp only [bind_some_iff, Option.pure_def, Option.some.injEq, Prod.mk.injEq] at h
      obtain ⟨filename, -, ⟨fd', s1⟩, hcr, s2, hcl, -, rfl⟩ := h
      exact tracked_of (dirClose_holding hcl (fileCreate_holding hcr hflags hs))
    · exact fileOpen_tracked h hflags hs

theorem sysOpen_tracked {junk : Junk} {pathname : List Byte} {flags : ℕ} {fd : ℤ}
    (h : sysOpen junk pathname flags s = some (fd, s')) (hs : Tracked s) : Tracked s' := by
  obtain ⟨x, hx⟩ := hs.holding
  rw [sysOpen, bind_some_iff] at h
  obtain ⟨last, -, h⟩ := h
  split at h
  · obtain ⟨-, rfl⟩ := Prod.mk.inj (Option.some.inj h)
    exact hs
  · simp only [bind_some_iff, assert_eq_some] at h
    obtain ⟨-, hflags, depth, -, ⟨no, record, s1⟩, hsearch, h⟩ := h
    exact openFound_tracked h hflags (searchFile_holding hsearch hx)

theorem sysClose_tracked {fd : ℕ} {ret : ℤ} (h : sysClose fd s = some (ret, s'))
    (hs : Tracked s) : Tracked s' := by
  obtain ⟨x, hx⟩ := hs.holding
  exact tracked_of (sysClose_holding h hx)

/-- `sys_fork` counts the references of the child and nothing else. -/
theorem updateInodeOpenCnts_tracked : ∀ {left fd : ℕ} {s s' : Kernel part},
    updateInodeOpenCnts left fd s = some s' → Tracked s →
    Tracked s' ∧ s'.fileTable = s.fileTable ∧ s'.cur = s.cur := by
  intro left
  induction left with
  | zero =>
    intro fd s s' h hs
    obtain rfl := Option.some.inj h
    exact ⟨hs, rfl, rfl⟩
  | succ left ih =>
    intro fd s s' h hs
    rw [updateInodeOpenCnts] at h
    split at h
    · exact ih h hs
    · rename_i k hk
      rw [assert_bind] at h
      obtain ⟨hlt, h⟩ := h
      simp only [if_neg (hs.pipes k), bind_some_iff] at h
      obtain ⟨a, ha, i, hi, h⟩ := h
      obtain ⟨x, hx⟩ := hs.counted
      have hs1 : Tracked (s.setInode a { i with openCnts := i.openCnts + 1 }) :=
        ⟨⟨_, hx.count (hx.fileInode_open hlt ha) hi⟩, hs.pipes⟩
      obtain ⟨htr, hfiles, hcur⟩ := ih h hs1
      exact ⟨htr, hfiles, hcur⟩

theorem fileClose_effect {k : ℕ} {ret : ℤ} (h : fileClose k s = some (ret, s')) :
    (s'.fileTable k).fdInode = none ∧ (∀ j ≠ k, s'.fileTable j = s.fileTable j) ∧
      s'.cur = s.cur := by
  simp only [fileClose, bind_some_iff, Option.pure_def, Option.some.injEq, Prod.mk.injEq] at h
  obtain ⟨a, -, i, -, s1, hcl, -, rfl⟩ := h
  have hq := inodeClose_quiet hcl
  refine ⟨?_, fun j hj => ?_, hq.cur⟩
  · rw [s1.setFile_self]
  · rw [s1.setFile_ne _ hj, hq.fileTable]
    rfl

/-- `opened p fd` is the inode that descriptor `fd` of process `p` was opened on. -/
structure Traced (part : Partition) where
  world : World part
  opened : ℕ → ℕ → Option ℕ

/-- The inode behind a descriptor. -/
def World.inodeOf (w : World part) (p fd : ℕ) : Option ℕ := do
  let t ← w.procs p
  let k ← t.fdTable fd
  (w.kernel.fileTable k).fdInode

inductive Call where
  | open (p : ℕ) (junk : Junk) (pathname : List Byte) (flags : ℕ)
  | fork (p child : ℕ)
  | close (p fd : ℕ)
  | exit (p : ℕ)

/-- A new descriptor is opened on the inode in its slot, an inherited one on that of the parent. -/
def Call.exec : Call → Traced part → Option (Traced part)
  | .open p junk pathname flags, σ => do
    let (fd, w) ← σ.world.call p (sysOpen junk pathname flags)
    if fd = -1 then return ⟨w, σ.opened⟩
    else return ⟨w, Function.update σ.opened p
      (Function.update (σ.opened p) fd.toNat (World.inodeOf w p fd.toNat))⟩
  | .fork p child, σ => do
    let w ← sysFork p child σ.world
    return ⟨w, Function.update σ.opened child (σ.opened p)⟩
  | .close p fd, σ => do
    let (_, w) ← σ.world.call p (sysClose fd)
    return ⟨w, σ.opened⟩
  | .exit p, σ => do
    let w ← sysExit p σ.world
    return ⟨w, σ.opened⟩

/-- Every descriptor behind the standard ones refers to a slot with the inode it was opened on,
and that inode is open. -/
def DescriptorsValid (σ : Traced part) : Prop :=
  ∀ p t fd k, σ.world.procs p = some t → 3 ≤ fd → t.fdTable fd = some k → k < maxFilesOpen ∧
    ∃ a, (σ.world.kernel.fileTable k).fdInode = some a ∧ σ.opened p fd = some a ∧
      a ∈ σ.world.kernel.openInodes

/-- No other process has a descriptor on slot `k`. -/
def Unshared (procs : ℕ → Option Task) (p k : ℕ) : Prop :=
  ∀ q t fd, q ≠ p → procs q = some t → 3 ≤ fd → t.fdTable fd ≠ some k

/-- A slot that is closed belongs to one process. -/
def Call.Fine : Call → Traced part → Prop
  | .close p fd, σ => 3 ≤ fd → ∀ t k, σ.world.procs p = some t → t.fdTable fd = some k →
    Unshared σ.world.procs p k
  | .exit p, σ => ∀ t fd k, σ.world.procs p = some t → 3 ≤ fd → t.fdTable fd = some k →
    Unshared σ.world.procs p k
  | _, _ => True

structure Sharing (σ : Traced part) : Prop where
  tracked : Tracked σ.world.kernel
  entry : ∀ p t fd k, σ.world.procs p = some t → 3 ≤ fd → t.fdTable fd = some k →
    k < maxFilesOpen ∧ ∃ a, (σ.world.kernel.fileTable k).fdInode = some a ∧ σ.opened p fd = some a
  apart : ∀ p t fd fd' k, σ.world.procs p = some t → 3 ≤ fd → 3 ≤ fd' → t.fdTable fd = some k →
    t.fdTable fd' = some k → fd = fd'

theorem Sharing.valid {σ : Traced part} (h : Sharing σ) : DescriptorsValid σ := by
  intro p t fd k ht hfd hk
  obtain ⟨hlt, a, ha, ho⟩ := h.entry p t fd k ht hfd hk
  obtain ⟨x, hx⟩ := h.tracked.counted
  exact ⟨hlt, a, ha, ho, hx.fileInode_open hlt ha⟩

section Steps

variable {procs : ℕ → Option Task} {opened : ℕ → ℕ → Option ℕ} {p : ℕ}

theorem sysOpen_sharing {junk : Junk} {pathname : List Byte} {flags : ℕ} {fd : ℤ}
    (h : sysOpen junk pathname flags s = some (fd, s')) (hp : procs p = some s.cur)
    (hs : Sharing ⟨⟨s, procs⟩, opened⟩) :
    Sharing ⟨⟨s', Function.update procs p (some s'.cur)⟩, if fd = -1 then opened else
      Function.update opened p (Function.update (opened p) fd.toNat
        (World.inodeOf ⟨s', Function.update procs p (some s'.cur)⟩ p fd.toNat))⟩ := by
  have he := sysOpen_effect h
  have hkeep : ∀ q t fd' k, procs q = some t → 3 ≤ fd' → t.fdTable fd' = some k →
      k < maxFilesOpen ∧ ∃ a, (s'.fileTable k).fdInode = some a ∧ opened q fd' = some a := by
    intro q t fd' k hq hfd' hk
    obtain ⟨hlt, a, ha, ho⟩ := hs.entry q t fd' k hq hfd' hk
    refine ⟨hlt, a, ?_, ho⟩
    have hne : (s.fileTable k).fdInode ≠ none := by
      rw [show (s.fileTable k).fdInode = some a from ha]
      exact Option.some_ne_none a
    rw [he.kept k hne]
    exact ha
  have hprocs : ∀ q t, Function.update procs p (some s'.cur) q = some t →
      (q ≠ p ∧ procs q = some t) ∨ (q = p ∧ t = s'.cur) := by
    intro q t hq
    by_cases hqp : q = p
    · subst q
      rw [Function.update_self] at hq
      exact Or.inr ⟨rfl, (Option.some.inj hq).symm⟩
    · rw [Function.update_of_ne hqp] at hq
      exact Or.inl ⟨hqp, hq⟩
  rcases he.result with ⟨rfl, hcur⟩ | ⟨j, k0, a0, rfl, h3, h8, hk0, hj, hfree, ha0, hcur⟩
  · -- nothing is handed out
    rw [if_pos rfl, hcur, ← hp, Function.update_eq_self]
    exact ⟨sysOpen_tracked h hs.tracked, hkeep, hs.apart⟩
  · have hold : ∀ fd' k, 3 ≤ fd' → s.cur.fdTable fd' = some k → k ≠ k0 := by
      rintro fd' k hfd' hk rfl
      obtain ⟨-, a, ha, -⟩ := hs.entry p s.cur fd' k hp hfd' hk
      rw [show (s.fileTable k).fdInode = none from hfree] at ha
      cases ha
    have hnew : World.inodeOf ⟨s', Function.update procs p (some s'.cur)⟩ p j = some a0 := by
      simp only [World.inodeOf, Function.update_self, Option.bind_eq_bind, Option.bind_some, hcur]
      exact ha0
    rw [if_neg (by omega), Int.toNat_natCast, hnew]
    refine ⟨sysOpen_tracked h hs.tracked, fun q t fd' k hq hfd' hk => ?_,
      fun q t fd1 fd2 k hq h1 h2 hk1 hk2 => ?_⟩
    · rcases hprocs q t hq with ⟨hqp, hq⟩ | ⟨rfl, rfl⟩
      · simp only [Function.update_of_ne hqp]
        exact hkeep q t fd' k hq hfd' hk
      · rw [hcur] at hk
        simp only [Function.update_self]
        by_cases hfj : fd' = j
        · subst fd'
          simp only [Function.update_self, Option.some.injEq] at hk ⊢
          subst k
          exact ⟨hk0, a0, ha0, rfl⟩
        · simp only [Function.update_of_ne hfj] at hk ⊢
          exact hkeep q s.cur fd' k hp hfd' hk
    · rcases hprocs q t hq with ⟨hqp, hq⟩ | ⟨rfl, rfl⟩
      · exact hs.apart q t fd1 fd2 k hq h1 h2 hk1 hk2
      · rw [hcur] at hk1 hk2
        by_cases hf1 : fd1 = j
        · subst fd1
          by_cases hf2 : fd2 = j
          · exact hf2.symm
          · simp only [Function.update_self, Function.update_of_ne hf2, Option.some.injEq] at hk1 hk2
            exact absurd hk1.symm (hold fd2 k h2 hk2)
        · by_cases hf2 : fd2 = j
          · subst fd2
            simp only [Function.update_self, Function.update_of_ne hf1, Option.some.injEq] at hk1 hk2
            exact absurd hk2.symm (hold fd1 k h1 hk1)
          · simp only [Function.update_of_ne hf1, Function.update_of_ne hf2] at hk1 hk2
            exact hs.apart q s.cur fd1 fd2 k hp h1 h2 hk1 hk2

/-- The slot of a descriptor that is closed is used by nobody else. -/
theorem sysClose_sharing {fd : ℕ} {ret : ℤ} (h : sysClose fd s = some (ret, s'))
    (hp : procs p = some s.cur)
    (hun : 3 ≤ fd → ∀ k, s.cur.fdTable fd = some k → Unshared procs p k)
    (hs : Sharing ⟨⟨s, procs⟩, opened⟩) :
    Sharing ⟨⟨s', Function.update procs p (some s'.cur)⟩, opened⟩ := by
  have ht := sysClose_tracked h hs.tracked
  rcases sysClose_some h with ⟨-, rfl⟩ | ⟨hfd, -, k, hk, hlocal, ⟨hpipe, -⟩ | ⟨-, s1, hcl, rfl⟩⟩
  · rw [← hp, Function.update_eq_self]
    exact hs
  · exact absurd hpipe (hs.tracked.pipes k)
  · obtain ⟨-, hother, hcur⟩ := fileClose_effect hcl
    have hback : ∀ q t, Function.update procs p (some (Kernel.clearFd fd s1).cur) q = some t →
        ∃ t0, procs q = some t0 ∧ ∀ fd' k', t.fdTable fd' = some k' →
          t0.fdTable fd' = some k' ∧ (q = p → fd' ≠ fd) := by
      intro q t hq
      by_cases hqp : q = p
      · subst q
        rw [Function.update_self] at hq
        obtain rfl := Option.some.inj hq
        refine ⟨s.cur, hp, fun fd' k' hk' => ?_⟩
        simp only [Kernel.clearFd, hcur] at hk'
        by_cases hff : fd' = fd
        · rw [hff, Function.update_self] at hk'
          cases hk'
        · rw [Function.update_of_ne hff] at hk'
          exact ⟨hk', fun _ => hff⟩
      · rw [Function.update_of_ne hqp] at hq
        exact ⟨t, hq, fun _ _ hk' => ⟨hk', fun he => absurd he hqp⟩⟩
    refine ⟨ht, fun q t fd' k' hq hfd' hk' => ?_, fun q t fd1 fd2 k' hq h1 h2 hk1 hk2 => ?_⟩
    · obtain ⟨t0, ht0, hsub⟩ := hback q t hq
      obtain ⟨hk0, hff⟩ := hsub fd' k' hk'
      obtain ⟨hlt, a, ha, ho⟩ := hs.entry q t0 fd' k' ht0 hfd' hk0
      -- the slot is not the one that is closed
      have hne : k' ≠ k := by
        rintro rfl
        by_cases hqp : q = p
        · subst q
          obtain rfl := Option.some.inj (hp.symm.trans ht0)
          exact hff rfl (hs.apart p s.cur fd' fd k' hp hfd' hfd hk0 hlocal)
        · exact hun hfd k' hlocal q t0 fd' hqp ht0 hfd' hk0
      have hsame : (Kernel.clearFd fd s1).fileTable k' = s.fileTable k' := hother k' hne
      exact ⟨hlt, a, by rw [hsame]; exact ha, ho⟩
    · obtain ⟨t0, ht0, hsub⟩ := hback q t hq
      exact hs.apart q t0 fd1 fd2 k' ht0 h1 h2 (hsub _ _ hk1).1 (hsub _ _ hk2).1

/-- The descriptors of a process that exits, one after the other. -/
theorem releaseFds_sharing : ∀ {left fdIdx : ℕ} {s s' : Kernel part}, 3 ≤ fdIdx →
    releaseFds left fdIdx s = some s' →
    (∀ fd k, 3 ≤ fd → s.cur.fdTable fd = some k → Unshared procs p k) →
    Sharing ⟨⟨s, Function.update procs p (some s.cur)⟩, opened⟩ →
    Sharing ⟨⟨s', Function.update procs p (some s'.cur)⟩, opened⟩ := by
  intro left
  induction left with
  | zero =>
    intro fdIdx s s' _ h _ hs
    obtain rfl := Option.some.inj h
    exact hs
  | succ left ih =>
    intro fdIdx s s' h3 h hun hs
    rw [releaseFds] at h
    split at h
    · exact ih (Nat.le_succ_of_le h3) h hun hs
    · rw [bind_some_iff] at h
      obtain ⟨k, hlocal, h⟩ := h
      simp only [if_neg (hs.tracked.pipes k), bind_some_iff] at h
      obtain ⟨⟨ret, s1⟩, hcl, h⟩ := h
      have hunp : ∀ k, Unshared procs p k →
          Unshared (Function.update procs p (some s.cur)) p k := by
        intro k hk q t fd hqp hq
        rw [Function.update_of_ne hqp] at hq
        exact hk q t fd hqp hq
      have hs1 := sysClose_sharing hcl (Function.update_self _ _ _)
        (fun hfd k hk => hunp k (hun fdIdx k hfd hk)) hs
      rw [Function.update_idem] at hs1
      refine ih (Nat.le_succ_of_le h3) h (fun fd k hfd hk => ?_) hs1
      rcases sysClose_some hcl with ⟨-, rfl⟩ | ⟨-, -, k0, -, -, ⟨hpipe, -⟩ | ⟨-, s2, hcl2, rfl⟩⟩
      · exact hun fd k hfd hk
      · exact absurd hpipe (hs.tracked.pipes k0)
      · simp only [Kernel.clearFd, (fileClose_effect hcl2).2.2] at hk
        by_cases hff : fd = fdIdx
        · rw [hff, Function.update_self] at hk
          cases hk
        · rw [Function.update_of_ne hff] at hk
          exact hun fd k hfd hk

end Steps

theorem exec_sharing {σ σ' : Traced part} {c : Call} (hs : Sharing σ) (hc : c.Fine σ)
    (h : c.exec σ = some σ') : Sharing σ' := by
  obtain ⟨⟨s, procs⟩, opened⟩ := σ
  have hcur : ∀ t, Sharing ⟨⟨{ s with cur := t }, procs⟩, opened⟩ := fun t =>
    ⟨hs.tracked.withCur t, hs.entry, hs.apart⟩
  cases c with
  | «open» p junk pathname flags =>
    rw [Call.exec, bind_some_iff] at h
    obtain ⟨⟨fd, w⟩, hcall, h⟩ := h
    obtain ⟨t, ht, s1, ho, rfl⟩ := call_some hcall
    have hs1 := sysOpen_sharing ho ht (hcur t)
    simp only at h
    split at h
    · rename_i hfd
      obtain rfl := Option.some.inj h
      rwa [if_pos hfd] at hs1
    · rename_i hfd
      obtain rfl := Option.some.inj h
      rwa [if_neg hfd] at hs1
  | fork p child =>
    simp only [Call.exec, sysFork, bind_some_iff, assert_eq_some, Option.pure_def,
      Option.some.injEq] at h
    obtain ⟨w, ⟨-, ⟨hz, -⟩, t, ht, s1, hcnt, rfl⟩, rfl⟩ := h
    obtain ⟨htr, hfiles, hcur1⟩ := updateInodeOpenCnts_tracked hcnt (hs.tracked.withCur t)
    -- the child has the parent's descriptors
    have hwho : ∀ q u, Function.update procs child (some t) q = some u →
        ∃ r, procs r = some u ∧ ∀ fd, Function.update opened child (opened p) q fd = opened r fd := by
      intro q u hq
      by_cases hqc : q = child
      · subst q
        rw [Function.update_self] at hq
        exact ⟨p, ht.trans hq, fun fd => by rw [Function.update_self]⟩
      · rw [Function.update_of_ne hqc] at hq
        exact ⟨q, hq, fun fd => by rw [Function.update_of_ne hqc]⟩
    refine ⟨htr, fun q u fd k hq hfd hk => ?_, fun q u fd fd' k hq h1 h2 hk1 hk2 => ?_⟩
    · obtain ⟨r, hr, ho⟩ := hwho q u hq
      simp only [ho fd, hfiles]
      exact hs.entry r u fd k hr hfd hk
    · obtain ⟨r, hr, -⟩ := hwho q u hq
      exact hs.apart r u fd fd' k hr h1 h2 hk1 hk2
  | close p fd =>
    simp only [Call.exec, bind_some_iff, Option.pure_def, Option.some.injEq] at h
    obtain ⟨⟨ret, w⟩, hcall, rfl⟩ := h
    obtain ⟨t, ht, s1, hcl, rfl⟩ := call_some hcall
    exact sysClose_sharing hcl ht (fun hfd k hk => hc hfd t k ht hk) (hcur t)
  | exit p =>
    simp only [Call.exec, sysExit, bind_some_iff, Option.pure_def, Option.some.injEq] at h
    obtain ⟨w, ⟨t, ht, s1, hrel, rfl⟩, rfl⟩ := h
    have hs1 : Sharing ⟨⟨{ s with cur := t }, Function.update procs p (some t)⟩, opened⟩ := by
      rw [← show procs p = some t from ht, Function.update_eq_self]
      exact hcur t
    have hs2 := releaseFds_sharing le_rfl hrel (fun fd k hfd hk => hc t fd k ht hfd hk) hs1
    have hlive : ∀ q u, Function.update procs p none q = some u →
        Function.update procs p (some s1.cur) q = some u := by
      intro q u hq
      by_cases hqp : q = p
      · rw [hqp, Function.update_self] at hq
        cases hq
      · rw [Function.update_of_ne hqp] at hq ⊢
        exact hq
    exact ⟨hs2.tracked, fun q u fd k hq => hs2.entry q u fd k (hlive q u hq),
      fun q u fd fd' k hq => hs2.apart q u fd fd' k (hlive q u hq)⟩

theorem openRootDir_tracked {v : Volume part} {m : ℕ → Bool}
    (h : openRootDir (mounted v m) = some s) : Tracked s := by
  have hb := openRootDir_some h
  refine ⟨⟨_, hb.counted⟩, fun k => ?_⟩
  rw [hb.fileTable]
  exact Nat.ne_of_beq_eq_false rfl

/-- From the mounted file system on, with processes that have opened nothing: as long as no slot
is closed that another process also refers to, every descriptor stays valid. -/
theorem run_descriptors_valid {v : Volume part} {m : ℕ → Bool} {procs : ℕ → Option Task}
    {calls : List Call} {σ : Traced part} (h : openRootDir (mounted v m) = some s)
    (hp : ∀ p t fd, procs p = some t → 3 ≤ fd → t.fdTable fd = none)
    (hc : AllMeet Call.exec Call.Fine calls ⟨⟨s, procs⟩, fun _ _ => none⟩)
    (hr : runAll Call.exec calls ⟨⟨s, procs⟩, fun _ _ => none⟩ = some σ) : DescriptorsValid σ := by
  have hstart : Sharing ⟨⟨s, procs⟩, fun _ _ => none⟩ := by
    refine ⟨openRootDir_tracked h, fun p t fd k ht hfd hk => ?_, fun p t fd fd' k ht hfd _ hk => ?_⟩
    · rw [hp p t fd ht hfd] at hk
      cases hk
    · rw [hp p t fd ht hfd] at hk
      cases hk
  exact (runAll_invariant Sharing (fun _ _ _ hs hok he => exec_sharing hs hok he) hstart hc hr).valid

theorem freshTask_none {fd : ℕ} (h : 3 ≤ fd) : freshTask.fdTable fd = none :=
  if_neg (Nat.not_lt_of_le h)

theorem smallWorld_fresh {w : World smallPartition} (h : smallWorld = some w) :
    ∀ p t fd, w.procs p = some t → 3 ≤ fd → t.fdTable fd = none := by
  obtain ⟨v, -, -, hp⟩ := smallWorld_some h
  intro p t fd ht hfd
  rw [hp] at ht
  simp only at ht
  split at ht
  · obtain rfl := Option.some.inj ht
    exact freshTask_none hfd
  · cases ht

/-- `/f` is created, closed and opened again, and then inherited. -/
def inheriting : List Call :=
  [.open 1 noJunk [slash, 0x66] 4, .close 1 3, .open 1 noJunk [slash, 0x66] 0, .fork 1 3]

theorem run_descriptors_valid_fork :
    ∃ w σ, smallWorld = some w ∧ runAll Call.exec inheriting ⟨w, fun _ _ => none⟩ = some σ ∧
      DescriptorsValid σ := by
  have hrun : (smallWorld >>= fun w =>
      runAll Call.exec inheriting ⟨w, fun _ _ => none⟩).isSome := by decide +kernel
  obtain ⟨σ, hσ⟩ := Option.isSome_iff_exists.mp hrun
  obtain ⟨⟨s, procs⟩, hw, hr⟩ := bind_some_iff.mp hσ
  obtain ⟨v, -, hs, -⟩ := smallWorld_some hw
  have hfresh := smallWorld_fresh hw
  have hfine : AllMeet Call.exec Call.Fine inheriting ⟨⟨s, procs⟩, fun _ _ => none⟩ := by
    refine ⟨trivial, fun σ1 h1 => ⟨fun _ t k _ _ q u fd hq hu hfd => ?_, fun σ2 _ =>
      ⟨trivial, fun σ3 _ => ⟨trivial, fun _ _ => trivial⟩⟩⟩⟩
    -- the other processes have opened nothing
    rw [Call.exec, bind_some_iff] at h1
    obtain ⟨⟨fd', w1⟩, hcall, h1⟩ := h1
    obtain ⟨t', -, s1, -, rfl⟩ := call_some hcall
    have hprocs : σ1.world.procs = Function.update procs 1 (some s1.cur) := by
      simp only at h1
      split at h1
      · rw [← Option.some.inj h1]
      · rw [← Option.some.inj h1]
    rw [hprocs, Function.update_of_ne hq] at hu
    rw [hfresh q u fd hu hfd]
    exact (Option.some_ne_none k).symm
  exact ⟨_, σ, hw, hr, run_descriptors_valid hs hfresh hfine hr⟩

/-- `/f` is created and inherited, and the child closes it. -/
def closedByChild : List Call :=
  [.open 1 noJunk [slash, 0x66] 4, .fork 1 3, .close 3 3]

/-- The descriptor of the parent refers to a slot without an inode. -/
theorem close_in_child_invalidates :
    ∃ w σ, smallWorld = some w ∧ runAll Call.exec closedByChild ⟨w, fun _ _ => none⟩ = some σ ∧
      ¬DescriptorsValid σ := by
  have hrun : ((smallWorld >>= fun w => runAll Call.exec closedByChild ⟨w, fun _ _ => none⟩).map
      fun σ => ((σ.world.procs 1).map fun t => t.fdTable 3,
        (σ.world.kernel.fileTable 3).fdInode)) = some (some (some 3), none) := by decide +kernel
  obtain ⟨σ, hσ, he⟩ := Option.map_eq_some_iff.mp hrun
  simp only [Prod.mk.injEq, Option.map_eq_some_iff] at he
  obtain ⟨⟨t, ht, hfd⟩, hnone⟩ := he
  obtain ⟨w, hw, hr⟩ := bind_some_iff.mp hσ
  refine ⟨w, σ, hw, hr, fun hx => ?_⟩
  obtain ⟨-, a, ha, -⟩ := hx 1 t 3 3 ht le_rfl hfd
  rw [hnone] at ha
  cases ha

end FsDescriptors
