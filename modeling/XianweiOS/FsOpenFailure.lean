import XianweiOS.FsLookupFrame
import XianweiOS.FsKernelFrame

/-! What a `sys_open` that returns `-1` leaves behind. Its search gives everything back. But
`file_open` does not undo what it has done when it refuses a second writer or finds no free
descriptor, and `file_create` clears the slot it had taken whatever was in it. -/
namespace FsOpenFailure

open ByteStore HaltingProgram KernelBitmap DeviceIde FsVolume FsInodeTable FsDirectory
  FsDirectorySlots FsPath FsOpenFiles FsSyscalls FsReferenceCounts FsReferenceRuns FsKernelFrame
  FsLookupFrame

variable {part : Partition} {s s' t t' : Kernel part} {d : Option DirPtr}

/-- What a failed open is to leave as it was. -/
structure OpenClean (s s' : Kernel part) : Prop where
  fdTable : s'.cur.fdTable = s.cur.fdTable
  fileTable : s'.fileTable = s.fileTable
  openInodes : s'.openInodes = s.openInodes
  inodes : ∀ a ∈ s.openInodes, s'.inodes a = s.inodes a
  inodeBitmap : s'.vol.inodeBitmap = s.vol.inodeBitmap
  disk : s'.vol.disk = s.vol.disk

theorem sameOpen_clean (h : SameOpen s s') : OpenClean s s' :=
  ⟨by rw [h.files.cur], h.files.fileTable, h.openInodes, h.inodes, by rw [h.files.vol],
    by rw [h.files.vol]⟩

/-- The process has no free descriptor. -/
def NoFd (s : Kernel part) : Prop :=
  ∀ k < maxFilesOpenPerProc, 3 ≤ k → s.cur.fdTable k ≠ none

theorem pcbFdInstall_failed {k : ℕ} (h : pcbFdInstall k s = (-1, s')) : NoFd s ∧ s' = s := by
  rw [pcbFdInstall] at h
  split at h
  · rename_i hnone
    refine ⟨fun j hj h3 hz => ?_, (Prod.mk.inj h).2.symm⟩
    have := List.find?_eq_none.mp hnone j (List.mem_range.mpr hj)
    simp [h3, hz] at this
  · have := (Prod.mk.inj h).1
    omega

/-- The inode numbered `n` refuses a writer. -/
def WriteDenied (n : ℕ) (t : Kernel part) : Prop :=
  ∃ a t₁ i, inodeOpen n t = some (a, t₁) ∧ t₁.inodes a = some i ∧ i.writeDeny = true

/-- `file_open` fails with something left behind: the handle on the parent directory when there
is no slot, and else the slot or a reference to the inode. -/
def OpenSpoils (flags n : ℕ) (parentDir : Option DirPtr) (t : Kernel part) : Prop :=
  match getFreeSlotInGlobal t with
  | none => ∃ p, parentDir = some (.heap p)
  | some _ => NoFd t ∨ (writable flags = true ∧ WriteDenied n t)

/-- `file_create` fails with something left behind: the whole new file when there is no free
descriptor, or the cleared slot when the directory is full. -/
def CreateSpoils (parentDir : Option DirPtr) (t : Kernel part) : Prop :=
  t.mallocs 0 = true ∧ t.mallocs 1 = true ∧ ∃ k a i, getFreeSlotInGlobal t = some k ∧
    dirInode t parentDir = some a ∧ t.inodes a = some i ∧
    ((FullDir t.vol.disk i ∧ t.fileTable k ≠ ⟨0, 0, none⟩) ∨ (¬FullDir t.vol.disk i ∧ NoFd t))

/-- A handle that is not given back is seen. -/
theorem oneMore_not_clean {a : ℕ} (h : OneMore s a t) : ¬OpenClean s t := by
  intro hc
  rcases h.held with ⟨ha, -, i, hs, ht⟩ | ⟨ha, hp, -⟩
  · have hsame := hs.symm.trans ((hc.inodes a ha).symm.trans ht)
    have hcnt : i.openCnts = i.openCnts + 1 := congrArg Inode.openCnts (Option.some.inj hsame)
    omega
  · rw [hc.openInodes] at hp
    exact ha (hp ▸ List.mem_cons_self)

/-- So is a second reference, beside the handle. -/
theorem inodeOpen_not_clean (hw : WellOpen s) (hd : Lends s d t) {n a : ℕ} {t₁ : Kernel part}
    (ho : inodeOpen n t = some (a, t₁)) (hl : t'.openInodes = t₁.openInodes)
    (hi : t'.inodes = t₁.inodes) : ¬OpenClean s t' := by
  intro hc
  have hlist := hl.symm.trans hc.openInodes
  have hino : ∀ b ∈ s.openInodes, t₁.inodes b = s.inodes b := fun b hb => hi ▸ hc.inodes b hb
  rcases inodeOpen_some ho with ⟨ha, j, hj, -, rfl⟩ | ⟨-, -, rfl, m, rfl⟩
  · have ha : a ∈ s.openInodes := hlist ▸ ha
    obtain ⟨i, hs, -⟩ := hw.listed a ha
    obtain ⟨-, c, hle, hc'⟩ := hd.inode ha hs
    obtain rfl := Option.some.inj (hj.symm.trans hc')
    have hsame := hs.symm.trans ((hino a ha).symm.trans (t.setInode_self a _))
    have hcnt : i.openCnts = c + 1 := congrArg Inode.openCnts (Option.some.inj hsame)
    omega
  · have hlt := hw.below t.next (hlist ▸ List.mem_cons_self)
    have := hd.next
    omega

/-- A slot that was free and holds an inode now is seen. -/
theorem slot_not_clean {k : ℕ} (hk : getFreeSlotInGlobal t = some k) (hfiles : SameFiles s t)
    (hf : ∃ a, (t'.fileTable k).fdInode = some a) : ¬OpenClean s t' := by
  intro hc
  obtain ⟨a, ha⟩ := hf
  rw [hc.fileTable, ← hfiles.fileTable, (getFreeSlotInGlobal_some hk).2] at ha
  cases ha

/-- When `file_open` fails it has left something behind, but for a lookup in the root directory
that finds no slot. -/
theorem fileOpen_failed (hw : WellOpen s) (hd : Lends s d t) {n flags : ℕ}
    (h : fileOpen n flags t = some (-1, t')) : OpenClean s t' ↔ ¬OpenSpoils flags n d t := by
  rw [fileOpen] at h
  cases hslot : getFreeSlotInGlobal t with
  | none =>
    simp only [hslot] at h
    obtain ⟨-, rfl⟩ := Prod.mk.inj (Option.some.inj h)
    have hiff : OpenSpoils flags n d t ↔ ∃ p, d = some (.heap p) := by
      simp only [OpenSpoils, hslot]
    rw [hiff]
    rcases d with _ | _ | p
    · exact iff_of_true (sameOpen_clean hd) (by simp)
    · exact iff_of_true (sameOpen_clean hd) (by simp)
    · obtain ⟨dir, -, ho⟩ := hd
      exact iff_of_false (oneMore_not_clean ho) (by simp)
  | some k =>
    simp only [hslot] at h
    rw [bind_some_iff] at h
    obtain ⟨⟨a, t₁⟩, hop, h⟩ := h
    simp only [bind_some_iff] at h
    obtain ⟨i, hi, h⟩ := h
    have hcur : t₁.cur = t.cur := by
      rcases inodeOpen_some hop with ⟨-, -, -, -, rfl⟩ | ⟨-, -, -, -, rfl⟩
      · rfl
      · rfl
    have hspoils : NoFd t ∨ (writable flags = true ∧ WriteDenied n t) → OpenSpoils flags n d t := by
      intro hs
      simp only [OpenSpoils, hslot]
      exact hs
    have hfd : ∀ u : Kernel part, u.cur = t₁.cur → (u.fileTable k).fdInode = some a →
        pcbFdInstall k u = (-1, t') → (OpenClean s t' ↔ ¬OpenSpoils flags n d t) := by
      intro u hu hfile hp
      obtain ⟨hno, rfl⟩ := pcbFdInstall_failed hp
      refine iff_of_false (slot_not_clean hslot hd.files ⟨a, hfile⟩) (not_not.mpr ?_)
      refine hspoils (.inl ?_)
      rw [NoFd, hu, hcur] at hno
      exact hno
    split at h
    · refine hfd (t₁.setFile k ⟨0, flags, some a⟩) rfl ?_ (Option.some.inj h)
      rw [Kernel.setFile_self]
    split at h
    · refine hfd ((t₁.setInode a { i with writeDeny := true }).setFile k ⟨0, flags, some a⟩) rfl ?_
        (Option.some.inj h)
      rw [Kernel.setFile_self]
    · rename_i hwr hdeny
      obtain ⟨-, rfl⟩ := Prod.mk.inj (Option.some.inj h)
      refine iff_of_false (inodeOpen_not_clean hw hd hop rfl rfl) (not_not.mpr (hspoils ?_))
      exact .inr ⟨eq_true_of_ne_false hwr, a, t₁, i, hop, hi, eq_true_of_ne_false hdeny⟩

/-- The same of `file_create`: it gives everything back, or leaves a slot behind. -/
theorem fileCreateAt_failed (hw : WellOpen s) (hd : Lends s d t) {filename : List Byte}
    {n k flag : ℕ} (hn : t.vol.inodeBit n = false)
    (h : fileCreateAt d filename n t.next k
      (((t.withVol (t.vol.setInodeBit n true)).newInode (inodeInit n)).setFile k
        ⟨0, flag, some t.next⟩) = some (-1, t')) :
    ∃ a i, dirInode t d = some a ∧ t.inodes a = some i ∧
      ((FullDir t.vol.disk i ∧ t'.fileTable = Function.update t.fileTable k ⟨0, 0, none⟩ ∧
          Lends (s.setFile k ⟨0, 0, none⟩) d t') ∨
        (¬FullDir t.vol.disk i ∧ NoFd t ∧ ∃ b, (t'.fileTable k).fdInode = some b)) := by
  simp only [fileCreateAt, bind_some_iff] at h
  obtain ⟨e, -, a, ha, i, hi, ⟨ok, i', v⟩, hsync, h⟩ := h
  have ha : dirInode t d = some a := ha
  have halt := hd.dirInode_lt hw ha
  have hi : t.inodes a = some i := (Function.update_of_ne (Nat.ne_of_lt halt) _ _).symm.trans hi
  refine ⟨a, i, ha, hi, ?_⟩
  rcases syncDirEntry_full hsync with ⟨rfl, rfl, rfl, hfull⟩ | ⟨rfl, hfull⟩
  · refine .inl ⟨hfull, ?_⟩
    simp only [↓reduceIte, Option.pure_def, Option.some.injEq, Prod.mk.injEq, true_and] at h
    subst h
    have hidem : Function.update (Function.update t.fileTable k ⟨0, flag, some t.next⟩) k ⟨0, 0, none⟩ =
        Function.update t.fileTable k ⟨0, 0, none⟩ := Function.update_idem _ _ _
    refine ⟨hidem, (hd.setFile k ⟨0, 0, none⟩).beside (wellOpen_setFile hw k ⟨0, 0, none⟩)
      ⟨⟨setInodeBit_back hn, hidem, rfl, rfl⟩, rfl, rfl, fun b hb => ?_, Nat.le_succ _⟩⟩
    have hne : b ≠ t.next := Nat.ne_of_lt hb
    refine (Function.update_of_ne hne _ _).trans ?_
    by_cases hba : b = a
    · subst b
      exact (Kernel.setInode_self _ a i').trans hi.symm
    · exact (Kernel.setInode_ne _ i' hba).trans (Function.update_of_ne hne _ _)
  · refine .inr ⟨hfull, ?_⟩
    simp only [Bool.true_eq_false, ↓reduceIte, bind_some_iff] at h
    obtain ⟨v₂, -, h⟩ := h
    obtain ⟨hno, rfl⟩ := pcbFdInstall_failed (Option.some.inj h)
    refine ⟨hno, t.next, ?_⟩
    show (Function.update t.fileTable k ⟨0, flag, some t.next⟩ k).fdInode = some t.next
    rw [Function.update_self]

theorem fileCreate_failed (hw : WellOpen s) (hd : Lends s d t) {filename : List Byte} {flag : ℕ}
    (h : fileCreate d filename flag t = some (-1, t')) :
    (¬CreateSpoils d t ∧ Lends s d t') ∨ (CreateSpoils d t ∧ t'.fileTable ≠ t.fileTable) := by
  simp only [fileCreate] at h
  split at h
  · rename_i hm
    obtain ⟨-, rfl⟩ := Prod.mk.inj (Option.some.inj h)
    exact .inl ⟨fun hs => Bool.false_ne_true (hm.symm.trans hs.1), hd.malloc⟩
  rename_i hm₀
  rw [bind_some_iff] at h
  obtain ⟨⟨r, v⟩, hal, h⟩ := h
  obtain ⟨n, rfl, rfl, -, hclear, -⟩ := inodeBitmapAlloc_some hal
  have hclear : t.vol.inodeBit n = false := hclear
  -- the bit of the inode is taken and given back
  have hback : Lends s d ((sysMalloc (sysMalloc t).2).2.withVol
      ((t.vol.setInodeBit n true).setInodeBit n false)) := by
    refine hd.malloc.malloc.beside hw ⟨⟨setInodeBit_back hclear, rfl, rfl, rfl⟩, rfl, rfl,
      fun _ _ => rfl, le_rfl⟩
  simp only at h
  split at h
  · rename_i hm
    obtain ⟨-, rfl⟩ := Prod.mk.inj (Option.some.inj h)
    exact .inl ⟨fun hs => Bool.false_ne_true (hm.symm.trans hs.2.1), hback⟩
  rename_i hm₁
  split at h
  · rename_i hslot
    obtain ⟨-, rfl⟩ := Prod.mk.inj (Option.some.inj h)
    refine .inl ⟨?_, hback⟩
    rintro ⟨-, -, k, -, -, hk, -⟩
    exact Option.some_ne_none k (hk.symm.trans hslot)
  · rename_i k hslot
    obtain ⟨a, i, ha, hi, hcase⟩ := fileCreateAt_failed hw hd.malloc.malloc hclear h
    have hfree := (getFreeSlotInGlobal_some hslot).2
    have hm₀ : t.mallocs 0 = true := eq_true_of_ne_false hm₀
    have hm₁ : t.mallocs 1 = true := eq_true_of_ne_false hm₁
    have hk : ∀ j, getFreeSlotInGlobal t = some j → j = k := fun j hj =>
      Option.some.inj (hj.symm.trans hslot)
    rcases hcase with ⟨hfull, hfile, hl⟩ | ⟨hfull, hno, b, hb⟩
    · by_cases hz : t.fileTable k = ⟨0, 0, none⟩
      · refine .inl ⟨?_, ?_⟩
        · rintro ⟨-, -, j, a', i', hj, ha', hi', ⟨-, hne⟩ | ⟨hnot, -⟩⟩
          · exact hne (hk j hj ▸ hz)
          · obtain rfl := Option.some.inj (ha.symm.trans ha')
            obtain rfl := Option.some.inj (hi.symm.trans hi')
            exact hnot hfull
        · have hself : s.setFile k ⟨0, 0, none⟩ = s := by
            rw [Kernel.setFile, ← hz, hd.files.fileTable, Function.update_eq_self]
          rwa [hself] at hl
      · refine .inr ⟨⟨hm₀, hm₁, k, a, i, hslot, ha, hi, .inl ⟨hfull, hz⟩⟩, fun he => hz ?_⟩
        rw [← he, hfile, Function.update_self]
    · refine .inr ⟨⟨hm₀, hm₁, k, a, i, hslot, ha, hi, .inr ⟨hfull, hno⟩⟩, fun he => ?_⟩
      rw [he] at hb
      exact Option.some_ne_none b (hb.symm.trans hfree)

/-- What is left behind by `sys_open` with what its search has returned. -/
def Spoils (flags : ℕ) (inodeNo : Option ℕ) (parentDir : Option DirPtr) (t : Kernel part) : Prop :=
  match inodeNo, creates flags with
  | some n, false => OpenSpoils flags n parentDir t
  | none, true => CreateSpoils parentDir t
  | _, _ => False

/-- The path leads to a regular file or is free, and the call comes to what spoils it. -/
def OpenLeaves (junk : Junk) (pathname : List Byte) (flags : ℕ) (s : Kernel part) : Prop :=
  pathname.getLast? ≠ some slash ∧ ∃ inodeNo record t,
    searchFile junk pathname zeroRecord s = some (inodeNo, record, t) ∧
    record.fileType ≠ .directory ∧
    pathDepthCnt junk.name' record.searchedPath = pathDepthCnt junk.name pathname ∧
    Spoils flags inodeNo record.parentDir t

theorem openFound_failed (hw : WellOpen s) {junk : Junk} {pathname : List Byte} {flags depth : ℕ}
    {no : Option ℕ} {record : PathSearchRecord} (hd : Lends s record.parentDir t)
    (h : openFound junk pathname flags depth no record t = some (-1, s')) :
    OpenClean s s' ↔ ¬(record.fileType ≠ .directory ∧
      pathDepthCnt junk.name' record.searchedPath = some depth ∧
      Spoils flags no record.parentDir t) := by
  unfold openFound at h
  split at h
  · rename_i hdir
    exact iff_of_true (sameOpen_clean (closeParent_same hw hd h)) fun hs => hs.1 hdir
  rename_i hdir
  rw [bind_some_iff] at h
  obtain ⟨searched, hsearched, h⟩ := h
  rw [hsearched]
  split at h
  · rename_i hdepth
    refine iff_of_true (sameOpen_clean (closeParent_same hw hd h)) ?_
    exact fun hs => hdepth (Option.some.inj hs.2.1)
  rename_i hdepth
  rw [ne_eq, not_not] at hdepth
  have hspoils : ¬(record.fileType ≠ .directory ∧ some searched = some depth ∧
      Spoils flags no record.parentDir t) ↔ ¬Spoils flags no record.parentDir t := by
    simp only [ne_eq, hdir, not_false_iff, hdepth, true_and]
  rw [hspoils]
  split at h
  · rename_i hcr
    refine iff_of_true (sameOpen_clean (closeParent_same hw hd h)) ?_
    simp only [Spoils, hcr, not_false_iff]
  · rename_i hcr
    refine iff_of_true (sameOpen_clean (closeParent_same hw hd h)) ?_
    simp only [Spoils, hcr, not_false_iff]
  · rename_i hcr
    simp only [bind_some_iff, Option.pure_def, Option.some.injEq, Prod.mk.injEq] at h
    obtain ⟨filename, -, ⟨fd, t₁⟩, hnew, t₂, hcl, rfl, rfl⟩ := h
    simp only [Spoils, hcr]
    rcases fileCreate_failed hw hd hnew with ⟨hno, hl⟩ | ⟨hyes, hne⟩
    · exact iff_of_true (sameOpen_clean (dirClose_lends hw hl hcl)) hno
    · refine iff_of_false (fun hc => hne ?_) (not_not.mpr hyes)
      have hkeep := dirClose_keeps (R := fun _ _ => True)
        ⟨fun _ => trivial, fun _ _ => trivial, fun _ _ => trivial⟩ hcl
      rw [← hkeep.fileTable, hc.fileTable, hd.files.fileTable]
  · rename_i hcr
    simp only [Spoils, hcr]
    exact fileOpen_failed hw hd h

/-- A failed open is clean unless the path leads to a file that cannot be opened for want of a
slot, of a descriptor or of the right to write, or is free and the new file finds no descriptor
or no room in its directory. -/
theorem failed_open_clean_iff (hw : WellOpen s) {junk : Junk} {pathname : List Byte} {flags : ℕ}
    (h : sysOpen junk pathname flags s = some (-1, s')) :
    OpenClean s s' ↔ ¬OpenLeaves junk pathname flags s := by
  rw [sysOpen, bind_some_iff] at h
  obtain ⟨last, hlast, h⟩ := h
  split at h
  · rename_i hslash
    obtain ⟨-, rfl⟩ := Prod.mk.inj (Option.some.inj h)
    refine iff_of_true (sameOpen_clean (SameOpen.refl s)) ?_
    rintro ⟨hne, -⟩
    exact hne (hslash ▸ hlast)
  rename_i hslash
  simp only [bind_some_iff, assert_eq_some] at h
  obtain ⟨-, -, depth, hdepth, ⟨no, record, t⟩, hsearch, h⟩ := h
  rw [openFound_failed hw (searchFile_lends hw hsearch) h, not_iff_not, OpenLeaves, hdepth]
  constructor
  · intro hs
    refine ⟨fun he => hslash (Option.some.inj (hlast.symm.trans he)), no, record, t, hsearch, hs⟩
  · rintro ⟨-, no', record', t', hsearch', hs⟩
    obtain ⟨rfl, rfl, rfl⟩ := by simpa using hsearch.symm.trans hsearch'
    exact hs

/-- The new file system with the descriptors of a task. -/
def smallKernel (fdTable : ℕ → Option ℕ) : Option (Kernel smallPartition) := do
  let v ← smallVolume
  let s ← openRootDir (mounted v fun _ => true)
  return { s with cur := ⟨fdTable, 0⟩ }

theorem smallKernel_some {fdTable : ℕ → Option ℕ} {s : Kernel smallPartition}
    (h : smallKernel fdTable = some s) :
    WellOpen s ∧ s.fileTable = fun _ => ⟨0, 0, none⟩ := by
  simp only [smallKernel, bind_some_iff, Option.pure_def, Option.some.injEq] at h
  obtain ⟨v, -, s₀, hs, rfl⟩ := h
  have hb := openRootDir_some hs
  exact ⟨wellOpen_of_counted (hb.counted.withCur _), hb.fileTable⟩

/-- A file that is not there. -/
theorem failed_open_clean_missing :
    ∃ s s', smallKernel (fun k => if k < 3 then some k else none) = some s ∧
      sysOpen noJunk [slash, 0x66] 0 s = some (-1, s') ∧ OpenClean s s' := by
  have hrun : ((smallKernel fun k => if k < 3 then some k else none).bind fun s =>
      (sysOpen noJunk [slash, 0x66] 0 s).map Prod.fst) = some (-1) := by decide +kernel
  obtain ⟨s, hs, hopen⟩ := Option.bind_eq_some_iff.mp hrun
  obtain ⟨⟨r, s'⟩, hopen, rfl⟩ := Option.map_eq_some_iff.mp hopen
  have hfind : ((smallKernel fun k => if k < 3 then some k else none).bind fun s =>
      (searchFile noJunk [slash, 0x66] zeroRecord s).map Prod.fst) = some none := by decide +kernel
  rw [hs, Option.bind_some] at hfind
  refine ⟨s, s', hs, hopen, (failed_open_clean_iff (smallKernel_some hs).1 hopen).mpr ?_⟩
  rintro ⟨-, no, record, t, hsearch, -, -, hspoils⟩
  rw [hsearch] at hfind
  obtain rfl : no = none := Option.some.inj hfind
  exact hspoils

/-- The process has used up its descriptors and creates `/f`: the call fails, the file is there
and its slot is taken. -/
theorem failed_open_leaves_file :
    ∃ s s', smallKernel (fun _ => some 0) = some s ∧
      sysOpen noJunk [slash, 0x66] 4 s = some (-1, s') ∧ ¬OpenClean s s' := by
  have hrun : ((smallKernel fun _ => some 0).bind fun s =>
      (sysOpen noJunk [slash, 0x66] 4 s).map fun r => (r.1, (r.2.fileTable 3).fdInode)) =
      some (-1, some 1) := by decide +kernel
  obtain ⟨s, hs, hopen⟩ := Option.bind_eq_some_iff.mp hrun
  obtain ⟨⟨r, s'⟩, hopen, he⟩ := Option.map_eq_some_iff.mp hopen
  obtain ⟨rfl, hslot⟩ := Prod.mk.inj he
  refine ⟨s, s', hs, hopen, fun hc => ?_⟩
  rw [hc.fileTable, (smallKernel_some hs).2] at hslot
  exact absurd hslot (by simp)

end FsOpenFailure
