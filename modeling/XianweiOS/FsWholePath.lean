import XianweiOS.FsSearch
import XianweiOS.FsLookupFrame
import XianweiOS.FsConsistentTree

/-! `sys_unlink` and `sys_stat` take what `search_file` returns for the object of the whole path.
The search stops at the first file, so that a path that goes on behind a file acts on the file. -/
namespace FsWholePath

open ByteStore HaltingProgram KernelBitmap DeviceIde FsVolume FsInodeTable FsBlockMap FsOwnership
  FsDirectory FsDirectorySlots FsDirectoryDelete FsDirectoryMap FsInodeRelease FsPath FsOpenFiles
  FsSyscalls FsReferenceCounts FsReferenceRuns FsLookupFrame FsDirectoryRuns PathTree FsTree FsSearch
  FsConsistentTree

variable {part : Partition} {s s' s₁ : Kernel part} {t : FileTree} {d : Option DirPtr}
  {pathname : List Byte} {m n : ℕ} {k : List Byte}

/-- A kernel over a consistent tree, of whose files it has in memory what the disk holds. -/
structure Settled (s : Kernel part) (t : FileTree) : Prop where
  serves : Serves s t
  volume : Consistent s.vol t
  files : ∀ a ∈ s.openInodes, ∀ i, s.inodes a = some i → t i.iNo = some .file →
    i.Same (diskInode part s.vol.disk i.iNo)

/-- The same kernel with other answers of `sys_malloc` ahead. -/
def withMallocs (s : Kernel part) (mallocs : ℕ → Bool) : Kernel part := { s with mallocs := mallocs }

theorem Settled.withMallocs (h : Settled s t) (mallocs : ℕ → Bool) :
    Settled (withMallocs s mallocs) t := by
  obtain ⟨x, hc⟩ := h.serves.counted
  have hc' : Counted (FsWholePath.withMallocs s mallocs) x :=
    hc.of_same rfl (fun _ => rfl) (fun _ _ i hi => ⟨i, hi, rfl⟩) le_rfl hc.fresh
  exact ⟨h.serves.step hc' rfl rfl fun b hb i hi => .inl ⟨i, hi, hb, Inode.Same.refl i⟩,
    h.volume, h.files⟩

/-- Whatever `sys_unlink` removes is the entry of the file that the whole path leads to. -/
def UnlinkNamed (s : Kernel part) (t : FileTree) (pathname : List Byte) : Prop :=
  ∀ junk mallocs s', sysUnlink junk pathname (withMallocs s mallocs) = some (0, s') →
    ∃ pre k m n, components pathname = pre ++ [k] ∧ t.walk dots 0 pre = some m ∧
      t.child dots m k = some n ∧ t n = some .file ∧ EntryRemoved s'.vol t m k

/-- `sys_stat` succeeds on paths that lead somewhere as a whole. -/
def StatNamed (s : Kernel part) (t : FileTree) (pathname : List Byte) : Prop :=
  ∀ junk mallocs st s', sysStat junk pathname (withMallocs s mallocs) = some (some st, s') →
    ∃ n, t.walk dots 0 (components pathname) = some n

/-- The path goes on behind a file, with a name that `path_parse` can store. -/
def BehindFile (t : FileTree) (pathname : List Byte) : Prop :=
  pathname.length < maxPathLen ∧ ∃ pre k post n, components pathname = pre ++ k :: post ∧
    t.walk dots 0 pre = some n ∧ t n = some .file ∧ k.length ≤ 16

/-- The path leads to a file that is not in use, in a directory with a number that does not fit
into a byte. Its record is the file's own only if the file is open. -/
def FarParent (s : Kernel part) (t : FileTree) (pathname : List Byte) : Prop :=
  pathname.length < maxPathLen ∧ ∃ pre k m n, components pathname = pre ++ [k] ∧
    t.walk dots 0 pre = some m ∧ t.child dots m k = some n ∧ t n = some .file ∧ 256 ≤ m ∧
    (m % 256 ≠ n ∨ findOpen s.inodes n s.openInodes ≠ some none) ∧
    inFileTable n s maxFilesOpen 0 = some false

/-- The steps of an unlink that returns 0. -/
theorem unlinkFound_zero (h : unlinkFound n d s₁ = some (0, s')) : ∃ a i ok i' v₁ b s₂ j mem,
    dirInode s₁ d = some a ∧ s₁.inodes a = some i ∧
    deleteDirEntry i n s₁.vol = some (ok, i', v₁) ∧
    inodeOpen n (((sysMalloc s₁).2.setInode a i').withVol v₁) = some (b, s₂) ∧
    s₂.inodes b = some j ∧ inodeRelease mem j n v₁ = some s'.vol := by
  simp only [unlinkFound] at h
  split at h
  · simp only [bind_some_iff, Option.pure_def, Option.some.injEq, Prod.mk.injEq] at h
    obtain ⟨-, -, hret, -⟩ := h
    cases hret
  · simp only [bind_some_iff, Option.pure_def, Option.some.injEq, Prod.mk.injEq] at h
    obtain ⟨s₃, hdel, s₄, hrel, s₅, hclose, -, rfl⟩ := h
    simp only [deleteDirEntryIn, bind_some_iff, Option.pure_def, Option.some.injEq] at hdel
    obtain ⟨a, ha, i, hi, ⟨ok, i', v₁⟩, hdel, rfl⟩ := hdel
    simp only [inodeReleaseNo, bind_some_iff] at hrel
    obtain ⟨⟨b, s₂⟩, hopen, j, hj, v₂, hrel, hcl⟩ := hrel
    have hvol₂ : (sysMalloc s₂).2.vol = v₁ := by
      rcases inodeOpen_some hopen with ⟨-, i₂, -, -, rfl⟩ | ⟨-, -, -, x, rfl⟩
      · rfl
      · rfl
    have hvol : s₅.vol = v₂ := by
      rw [(dirClose_files hclose).vol, (inodeClose_same hcl).1.vol]
      rfl
    refine ⟨a, i, ok, i', v₁, b, s₂, j, (sysMalloc s₂).1, ha, hi, hdel, hopen, hj, ?_⟩
    rw [hvol, ← hvol₂]
    exact hrel

theorem findOpen_eq_none {inodes : ℕ → Option Inode} : ∀ {l : List ℕ},
    (∀ a ∈ l, ∃ i, inodes a = some i ∧ i.iNo ≠ n) → findOpen inodes n l = some none := by
  intro l
  induction l with
  | nil =>
    intro _
    rfl
  | cons a l ih =>
    intro h
    obtain ⟨i, hi, hne⟩ := h a (by simp)
    rw [findOpen, hi, Option.bind_eq_bind, Option.bind_some, if_neg hne]
    exact ih fun b hb => h b (by simp [hb])

theorem dirInode_congr (hs : SameFiles s s₁) (hd : s₁.dirs = s.dirs) (d : Option DirPtr) :
    dirInode s₁ d = dirInode s d := by
  rcases d with _ | _ | p
  · rfl
  · exact congrArg some hs.rootInode
  · exact congrArg (fun D => (D p).map Dir.inode) hd

/-- The inode behind `inode_open` is there. -/
theorem inodeOpen_inode {b : ℕ} (ho : inodeOpen n s = some (b, s₁)) : ∃ j, s₁.inodes b = some j := by
  rcases inodeOpen_some ho with ⟨-, i, -, -, rfl⟩ | ⟨-, -, rfl, m, rfl⟩
  · exact ⟨_, s.setInode_self b _⟩
  · exact ⟨_, Function.update_self _ _ _⟩

/-- Giving up an inode that was opened beside a directory handle, and then the handle. -/
theorem closes_exist {x : ℕ → ℕ} {a b : ℕ} {j : Inode} (hc : Counted s (bump x b))
    (hp : Plentiful s) (hj : s.inodes b = some j) (ha : dirInode s d = some a) :
    ∃ s₁ s', inodeClose b s = some s₁ ∧ dirClose d s₁ = some s' ∧ s'.vol = s.vol := by
  obtain ⟨s₁, hcl, hp₁⟩ := inodeClose_exists hj hp
  obtain ⟨hsame, hdirs, -⟩ := inodeClose_same hcl
  obtain ⟨s', hclose, -⟩ := dirClose_exists (inodeClose_counted hcl hc) hp₁
    ((dirInode_congr hsame hdirs d).trans ha)
  exact ⟨s₁, s', hcl, hclose, (dirClose_files hclose).vol.trans hsame.vol⟩

section Effect

variable {a b : ℕ} {i i' j : Inode} {v₁ : Volume part} {s₂ : Kernel part} {ok : Bool}

/-- The file that is opened for its release: it is open already and what the disk held before the
deletion, or it is read from the disk behind the deletion. -/
theorem openedFile (h : Settled s t) (hl : Lends s d s₁) (ha : dirInode s₁ d = some a)
    (hi : s₁.inodes a = some i) (hno : i.iNo ≠ n) (hno' : i'.iNo ≠ n) (hn : t n = some .file)
    (ho : inodeOpen n (((sysMalloc s₁).2.setInode a i').withVol v₁) = some (b, s₂))
    (hj : s₂.inodes b = some j) :
    (findOpen s.inodes n s.openInodes ≠ some none ∧ j.Same (diskInode part s.vol.disk n)) ∨
      (findOpen s.inodes n s.openInodes = some none ∧ j.Same (diskInode part v₁.disk n)) := by
  rcases inodeOpen_some ho with ⟨hb, jb, hjb, hjn, rfl⟩ | ⟨hall, -, rfl, x, rfl⟩
  · have hba : b ≠ a := by
      rintro rfl
      have : some i' = some jb := ((sysMalloc s₁).2.setInode_self b i').symm.trans hjb
      obtain rfl := Option.some.inj this
      exact hno' hjn
    obtain rfl := Option.some.inj ((Kernel.setInode_self _ b _).symm.trans hj)
    have hjb₁ : s₁.inodes b = some jb := ((sysMalloc s₁).2.setInode_ne i' hba).symm.trans hjb
    obtain ⟨hbs, hsame⟩ := hl.other ha hb hba
    rw [hsame] at hjb₁
    refine .inl ⟨fun hnone => ?_, ?_⟩
    · obtain ⟨jb', hjb', hne⟩ := findOpen_none hnone b hbs
      obtain rfl := Option.some.inj (hjb₁.symm.trans hjb')
      exact hne hjn
    · have := h.files b hbs jb hjb₁ (by rw [hjn]; exact hn)
      rw [hjn] at this
      exact ⟨this.no, this.size, this.sectors⟩
  · refine .inr ⟨findOpen_eq_none fun c hc => ?_, ?_⟩
    · obtain ⟨y, hy⟩ : ∃ y, s.inodes c = some y := by
        obtain ⟨x, hx⟩ := h.serves.counted
        obtain ⟨y, hy, -⟩ := hx.listed c hc
        exact ⟨y, hy⟩
      obtain ⟨hc₁, cnt, -, hy₁⟩ := hl.inode hc hy
      refine ⟨y, hy, ?_⟩
      by_cases hca : c = a
      · subst c
        obtain rfl := Option.some.inj (hi.symm.trans hy₁)
        exact hno
      · obtain ⟨z, hz, hne⟩ := hall c hc₁
        have hz' : s₁.inodes c = some z := ((sysMalloc s₁).2.setInode_ne i' hca).symm.trans hz
        obtain rfl := Option.some.inj (hy₁.symm.trans hz')
        exact hne
    · dsimp only at hj
      rw [Function.update_self] at hj
      obtain rfl := Option.some.inj hj
      exact ⟨rfl, rfl, fun _ _ => rfl⟩

/-- The handle of the search on the parent directory. -/
theorem parentInode (h₁ : Serves s₁ t) (ho : d = none ∨ OpenOn s₁ d m) (hm : t.IsDir m)
    (ha : dirInode s₁ d = some a) (hi : s₁.inodes a = some i) :
    OpenOn s₁ d m ∧ i.iNo = m ∧ i.Same (diskInode part s₁.vol.disk m) := by
  have ho := ho.resolve_left fun hd => by
    subst hd
    cases ha
  obtain ⟨a', i₀, ha', hin, hi₀, hno⟩ := id ho
  obtain rfl := Option.some.inj (ha.symm.trans ha')
  obtain rfl := Option.some.inj (hi.symm.trans hi₀)
  refine ⟨ho, hno, ?_⟩
  have := h₁.cached a hin i hi (hno ▸ hm)
  rwa [hno] at this

/-- The file that is opened for its release is what the disk held before, unless the parent has
been written over its record. -/
theorem openedFile_same (h : Settled s t) (hl : Lends s d s₁) (h₁ : Serves s₁ t)
    (ho : OpenOn s₁ d m) (hc : t.child dots m k = some n) (hn : t n = some .file)
    (ha : dirInode s₁ d = some a) (hi : s₁.inodes a = some i)
    (hdel : deleteDirEntry i n s₁.vol = some (ok, i', v₁))
    (hopen : inodeOpen n (((sysMalloc s₁).2.setInode a i').withVol v₁) = some (b, s₂))
    (hj : s₂.inodes b = some j) (hrec : m % 256 ≠ n ∨ findOpen s.inodes n s.openInodes ≠ some none) :
    j.Same (diskInode part s.vol.disk n) := by
  have hm := isDir_of_child hc
  obtain ⟨-, hno, hsame⟩ := parentInode h₁ (.inr ho) hm ha hi
  obtain ⟨-, hne⟩ := child_file h.volume.tree.tree hc hn
  rw [hl.files.vol] at hsame hdel
  obtain ⟨-, hno'⟩ := deleted_record h.volume hc hn hsame hdel
  rcases openedFile h hl ha hi (hno ▸ hne.symm) (hno' ▸ hne.symm) hn hopen hj with
    ⟨-, hj⟩ | ⟨hnone, hj⟩
  · exact hj
  · have hmod := hrec.resolve_right fun hopen => hopen hnone
    obtain ⟨-, -, hrecs⟩ := deleted_other h.volume hc hn hsame (Inode.Same.refl _) hdel
    rwa [hrecs n (h.volume.tree.numbers n (by simp [hn])) hmod.symm] at hj

/-- What an unlink that returns 0 has done, in a directory whose record is its own. -/
theorem unlinkFound_removes (h : Settled s t) (hl : Lends s d s₁) (h₁ : Serves s₁ t)
    (ho : d = none ∨ OpenOn s₁ d m) (hc : t.child dots m k = some n) (hn : t n = some .file)
    (hnear : m < 256 ∨ (m % 256 = n ∧ findOpen s.inodes n s.openInodes = some none))
    (hrun : unlinkFound n d s₁ = some (0, s')) : EntryRemoved s'.vol t m k := by
  obtain ⟨a, i, ok, i', v₁, b, s₂, j, mem, ha, hi, hdel, hopen, hj, hrel⟩ := unlinkFound_zero hrun
  obtain ⟨ho, hno, hsame⟩ := parentInode h₁ ho (isDir_of_child hc) ha hi
  obtain ⟨-, hne⟩ := child_file h.volume.tree.tree hc hn
  rw [hl.files.vol] at hsame
  rcases hnear with hlt | ⟨hmod, hnone⟩
  · have hj := openedFile_same h hl h₁ ho hc hn ha hi hdel hopen hj
      (.inl (by rw [Nat.mod_eq_of_lt hlt]; exact hne.symm))
    rw [hl.files.vol] at hdel
    exact unlinked_entryRemoved h.volume hc hn hsame hj hlt hdel hrel
  · rw [hl.files.vol] at hdel
    obtain ⟨hrec, hno'⟩ := deleted_record h.volume hc hn hsame hdel
    -- the parent was written over the record of the file
    have hj := ((openedFile h hl ha hi (hno ▸ hne.symm) (hno' ▸ hne.symm) hn hopen hj).resolve_left
      fun hno => hno.1 hnone).2
    simp only [inodeRelease, bind_some_iff, assert_eq_some] at hrel
    obtain ⟨-, hjn, -⟩ := hrel
    rw [← hmod] at hj
    exact absurd (((hj.trans hrec).no.trans hno').symm.trans hjn) hne.symm

/-- With memory the unlink comes to its end, and the record of a parent with a large number is not
the one that has been written. -/
theorem unlinkFound_far (h : Settled s t) (hl : Lends s d s₁) (h₁ : Serves s₁ t)
    (hp : Plentiful s₁) (ho : OpenOn s₁ d m) (hc : t.child dots m k = some n)
    (hn : t n = some .file) (hbig : 256 ≤ m)
    (hrec : m % 256 ≠ n ∨ findOpen s.inodes n s.openInodes ≠ some none) :
    ∃ s', unlinkFound n d s₁ = some (0, s') ∧ ¬EntryRemoved s'.vol t m k := by
  obtain ⟨a, i, ha, hin, hi, hno⟩ := id ho
  have hm := isDir_of_child hc
  have hlt := h.volume.tree.numbers n (by simp [hn])
  have hsame := (parentInode h₁ (.inr ho) hm ha hi).2.2
  have hdirm : Directory s₁.vol i (entriesOf t m) :=
    directory_same (h₁.disk.directory m hm) hsame.symm
  obtain ⟨ok, i', v₁, hdel⟩ := deleteDirEntry_exists hdirm n
  obtain ⟨x, hcount⟩ := h₁.counted
  have hcount₂ : Counted (((sysMalloc s₁).2.setInode a i').withVol v₁) x :=
    (hcount.malloc.setInode (i := i) hi (deleteDirEntry_use hdel).cnts).withVol v₁
  obtain ⟨b, s₂, hopen, hp₂⟩ := inodeOpen_total hcount₂ (n := n) (fun q => hp (q + 1)) hlt
  obtain ⟨hcount₃, hsame₃, hdirs₃⟩ := inodeOpen_counted hopen hcount₂
  obtain ⟨j, hj⟩ := inodeOpen_inode hopen
  have hfile := openedFile_same h hl h₁ ho hc hn ha hi hdel hopen hj hrec
  have hvol := hl.files.vol
  rw [hvol] at hsame hdel
  obtain ⟨ok', i₂, v₂, v₃, hdel', hrel⟩ := unlinked_exists h.volume hc hn hsame hfile
  obtain ⟨rfl, rfl, rfl⟩ : ok' = ok ∧ i₂ = i' ∧ v₂ = v₁ := by simpa [hdel] using hdel'.symm
  have hcount₄ : Counted ((sysMalloc s₂).2.withVol v₃) (bump x b) := hcount₃.malloc.withVol v₃
  obtain ⟨s₅, s', hcl, hclose, hvol'⟩ := closes_exist hcount₄ (fun q => hp₂ (q + 1)) hj
    ((dirInode_congr hsame₃ hdirs₃ d).trans ha)
  have hmem : (sysMalloc s₁).1 = true := hp 0
  have hmem₂ : (sysMalloc s₂).1 = true := hp₂ 0
  have hvol₂ : (sysMalloc s₂).2.vol = v₂ := hsame₃.vol
  have hdel₁ : deleteDirEntryIn d n (sysMalloc s₁).2 =
      some (((sysMalloc s₁).2.setInode a i₂).withVol v₂) := by
    have ha' : dirInode (sysMalloc s₁).2 d = some a := ha
    have hi' : (sysMalloc s₁).2.inodes a = some i := hi
    have hv' : (sysMalloc s₁).2.vol = s.vol := hvol
    simp only [deleteDirEntryIn, ha', hi', hv', hdel, Option.bind_eq_bind, Option.bind_some]
    rfl
  have hrel₁ : inodeReleaseNo n (((sysMalloc s₁).2.setInode a i₂).withVol v₂) = some s₅ := by
    simp only [inodeReleaseNo, hopen, hj, hmem₂, hvol₂, hrel, hcl, Option.bind_eq_bind,
      Option.bind_some]
  refine ⟨s', ?_, ?_⟩
  · simp only [unlinkFound, hmem, Bool.true_eq_false, ↓reduceIte, hdel₁, hrel₁, hclose,
      Option.bind_eq_bind, Option.bind_some]
    rfl
  · rw [hvol']
    exact unlinked_far h.volume hc hn hsame hfile hbig hdel hrel

end Effect

/-- How `sys_unlink` comes to return 0. -/
theorem sysUnlink_zero {junk : Junk} (hs : Serves s t) (hz : (0 : Byte) ∉ pathname)
    (h : sysUnlink junk pathname s = some (0, s')) : pathname.length < maxPathLen ∧
    ∃ record s₁ m n, Lends s record.parentDir s₁ ∧ Serves s₁ t ∧
      (record.parentDir = none ∨ OpenOn s₁ record.parentDir m) ∧
      Found t (components pathname) m n record ∧ t n = some .file ∧
      inFileTable n s₁ maxFilesOpen 0 = some false ∧
      unlinkFound n record.parentDir s₁ = some (0, s') := by
  have hlend : WellOpen s := by
    obtain ⟨x, hc⟩ := hs.counted
    exact wellOpen_of_counted hc
  simp only [sysUnlink, assert_bind] at h
  obtain ⟨hlen, h⟩ := h
  rw [bind_some_iff] at h
  obtain ⟨⟨r, record, s₁⟩, hsearch, h⟩ := h
  simp only [assert_bind] at h
  obtain ⟨hr0, h⟩ := h
  refine ⟨hlen, ?_⟩
  cases r with
  | none =>
    simp only [bind_some_iff, Option.pure_def, Option.some.injEq, Prod.mk.injEq] at h
    obtain ⟨-, -, hret, -⟩ := h
    cases hret
  | some n =>
    dsimp only at h
    split at h
    · simp only [bind_some_iff, Option.pure_def, Option.some.injEq, Prod.mk.injEq] at h
      obtain ⟨-, -, hret, -⟩ := h
      cases hret
    rename_i htype
    rw [bind_some_iff] at h
    obtain ⟨inUse, huse, h⟩ := h
    split at h
    · simp only [bind_some_iff, Option.pure_def, Option.some.injEq, Prod.mk.injEq] at h
      obtain ⟨-, -, hret, -⟩ := h
      cases hret
    rename_i hnot
    have hspecial : ¬(pathname = rootPath ∨ pathname = rootDotPath ∨ pathname = rootDotdotPath) := by
      intro hsp
      rw [searchFile, if_pos hsp] at hsearch
      exact hr0 (Prod.mk.inj (Option.some.inj hsearch)).1.symm
    have hne : components pathname ≠ [] := by
      intro hnil
      -- without a component the search ends at a directory
      rw [searchFile, if_neg hspecial] at hsearch
      simp only [assert_bind] at hsearch
      obtain ⟨-, -, hsearch⟩ := hsearch
      have hname : (pathParse pathname).1 = [] := by
        by_contra hname
        rw [components, namesFrom, if_neg hname] at hnil
        cases hnil
      rw [searchLoop, if_pos hname] at hsearch
      simp only [searchEnd, bind_some_iff, Option.pure_def, Option.some.injEq, Prod.mk.injEq] at hsearch
      obtain ⟨_, _, _, _, _, rfl, _⟩ := hsearch
      exact htype rfl
    obtain ⟨m, hm, hon, hfound⟩ := searchFile_found hs hz hne hspecial hsearch
    have hfile : t n = some .file := by
      obtain ⟨pre, k, post, -, -, hk, -⟩ := hfound.split
      obtain ⟨N, hN⟩ := hs.disk.tree.child_some hk
      cases N with
      | file => exact hN
      | dir p E =>
        exfalso
        apply htype
        rw [hfound.type]
        simp [typeOf, hN]
    exact ⟨record, s₁, m, n, searchFile_lends hlend hsearch, (searchFile_kept hs hz hsearch).1, hon,
      hfound, hfile, by rw [huse]; simpa using hnot, h⟩

/-- The search does not change what the file table has open. -/
theorem inFileTable_lends (hs : Serves s t) (hl : Lends s d s₁) : ∀ (left idx : ℕ),
    idx + left ≤ maxFilesOpen → inFileTable n s₁ left idx = inFileTable n s left idx := by
  intro left
  induction left with
  | zero =>
    intro idx _
    rfl
  | succ left ih =>
    intro idx hle
    have hnext := ih (idx + 1) (by omega)
    rw [inFileTable, inFileTable, hl.files.fileTable]
    cases hf : (s.fileTable idx).fdInode with
    | none => exact hnext
    | some a =>
      obtain ⟨x, hc⟩ := hs.counted
      have hopen := hc.fileInode_open (show idx < maxFilesOpen by omega) hf
      obtain ⟨i, hi, -⟩ := hc.listed a hopen
      obtain ⟨-, c, -, hi₁⟩ := hl.inode hopen hi
      simp only [hi, hi₁, hnext, Option.bind_eq_bind, Option.bind_some]

/-- What has been found is what the whole path leads to, unless the path goes on behind a file. -/
theorem found_whole {record : PathSearchRecord} (hf : Found t (components pathname) m n record)
    (hlen : pathname.length < maxPathLen) (hb : ¬BehindFile t pathname) :
    ∃ pre k, components pathname = pre ++ [k] ∧ t.walk dots 0 pre = some m ∧
      t.child dots m k = some n := by
  obtain ⟨pre, k, post, hsplit, hwalk, hk, hpost⟩ := hf.split
  cases post with
  | nil => exact ⟨pre, k, hsplit, hwalk, hk⟩
  | cons c post =>
    obtain ⟨hn, hc⟩ := hpost c rfl
    refine absurd ⟨hlen, pre ++ [k], c, post, n, ?_, ?_, hn, hc⟩ hb
    · rw [hsplit]
      simp
    · rw [walk_last, hwalk, Option.bind_some, hk]

theorem unlinkNamed_of (h : Settled s t) (hz : (0 : Byte) ∉ pathname)
    (hb : ¬BehindFile t pathname) (hf : ¬FarParent s t pathname) : UnlinkNamed s t pathname := by
  intro junk mallocs s' hrun
  have h' := h.withMallocs mallocs
  obtain ⟨hlen, record, s₁, m, n, hl, h₁, ho, hfound, hn, huse, hunlink⟩ :=
    sysUnlink_zero h'.serves hz hrun
  obtain ⟨pre, k, hsplit, hwalk, hk⟩ := found_whole hfound hlen hb
  refine ⟨pre, k, m, n, hsplit, hwalk, hk, hn, unlinkFound_removes h' hl h₁ ho hk hn ?_ hunlink⟩
  by_contra hfar
  rw [not_or, not_and_or] at hfar
  have hsame : SameOpen s (withMallocs s mallocs) :=
    ⟨⟨rfl, rfl, rfl, rfl⟩, rfl, fun _ _ => rfl, le_rfl⟩
  have hlend : Lends s none (withMallocs s mallocs) := hsame
  refine hf ⟨hlen, pre, k, m, n, hsplit, hwalk, hk, hn, by omega, hfar.2, ?_⟩
  rw [← inFileTable_lends h.serves hlend maxFilesOpen 0 (by omega),
    ← inFileTable_lends h'.serves hl maxFilesOpen 0 (by omega), huse]

theorem statNamed_of (h : Settled s t) (hz : (0 : Byte) ∉ pathname)
    (hb : ¬BehindFile t pathname) : StatNamed s t pathname := by
  intro junk mallocs st s' hrun
  have h' := (h.withMallocs mallocs).serves
  rw [sysStat] at hrun
  split at hrun
  · rename_i hsp
    rcases hsp with rfl | hdots
    · rw [show components rootPath = [] from (components_slash []).trans components_nil]
      exact ⟨0, rfl⟩
    · exact ⟨0, walk_rootDots h.volume.tree.tree hdots⟩
  rename_i hsp
  rw [bind_some_iff] at hrun
  obtain ⟨⟨r, record, s₁⟩, hsearch, hrun⟩ := hrun
  cases r with
  | none =>
    simp only [bind_some_iff, Option.pure_def, Option.some.injEq, Prod.mk.injEq] at hrun
    obtain ⟨-, -, h, -⟩ := hrun
    cases h
  | some n =>
    by_cases hne : components pathname = []
    · rw [hne]
      exact ⟨0, rfl⟩
    have hlen : pathname.length < maxPathLen := by
      rw [searchFile, if_neg hsp] at hsearch
      simp only [assert_bind] at hsearch
      exact hsearch.1.2.2
    obtain ⟨m, -, -, hfound⟩ := searchFile_found h' hz hne hsp hsearch
    obtain ⟨pre, k, hsplit, hwalk, hk⟩ := found_whole hfound hlen hb
    exact ⟨n, by rw [hsplit, walk_last, hwalk, Option.bind_some, hk]⟩

section Names

variable {v : Volume part} {pre post : List (List Byte)}

/-- Where a path leads somewhere, its names are entries. -/
theorem namesFit_walk (h : OnDiskTree v t) {names : List (List Byte)}
    (hw : t.walk dots 0 names = some n) : NamesFit t 0 names := by
  rintro l c post rfl x hx
  rw [walk_append, hx, Option.bind_some, Tree.walk, Option.bind_eq_some_iff] at hw
  obtain ⟨y, hy, -⟩ := hw
  have hc := child_valid h hy
  have := hc.short
  exact ⟨by omega, fun _ => by omega, hc.string⟩

theorem namesFit_behind (h : OnDiskTree v t) (hw : t.walk dots 0 pre = some n)
    (hn : t n = some .file) (hk : k.length ≤ 16) (hz : (0 : Byte) ∉ k) :
    NamesFit t 0 (pre ++ k :: post) := by
  intro l c post' he x hx
  have hfile : ¬t.IsDir n := by
    rintro ⟨p, E, hdir⟩
    rw [hn] at hdir
    cases hdir
  rcases List.append_eq_append_iff.mp he with ⟨l', rfl, hrest⟩ | ⟨l', rfl, hrest⟩
  · cases l' with
    | nil =>
      rw [List.append_nil, hw] at hx
      obtain rfl := Option.some.inj hx
      obtain ⟨rfl, -⟩ := List.cons.inj hrest
      exact ⟨hk, fun hdir => absurd hdir hfile, hz⟩
    | cons k' l' =>
      -- nothing is found behind the file
      obtain ⟨rfl, -⟩ := List.cons.inj hrest
      rw [walk_append, hw] at hx
      simp [Tree.walk, Tree.child, hn] at hx
  · cases l' with
    | nil =>
      rw [List.append_nil] at hw
      obtain rfl := Option.some.inj (hw.symm.trans hx)
      obtain ⟨rfl, -⟩ := List.cons.inj hrest
      exact ⟨hk, fun hdir => absurd hdir hfile, hz⟩
    | cons c' l' =>
      obtain ⟨rfl, -⟩ := List.cons.inj hrest
      exact namesFit_walk h hw l c l' rfl x hx

/-- The search does not miss the file, whatever stands behind it. -/
theorem lookedUp_found {pre' post' : List (List Byte)} {k' : List Byte} {r : Option ℕ}
    {record : PathSearchRecord} (hl : LookedUp t pre' k' post' m r record s₁)
    (he : pre ++ k :: post = pre' ++ k' :: post') (hw : t.walk dots 0 pre = some n)
    (hn : t n = some .file) : r ≠ none := by
  rw [hl.result]
  have hreach := hl.reached
  have hdir : m ≠ n := by
    rintro rfl
    obtain ⟨p, E, hm⟩ := hl.dir
    rw [hn] at hm
    cases hm
  rcases List.append_eq_append_iff.mp he with ⟨l, rfl, hrest⟩ | ⟨l, rfl, hrest⟩
  · cases l with
    | nil =>
      rw [List.append_nil, hw] at hreach
      exact absurd (Option.some.inj hreach).symm hdir
    | cons c l =>
      rw [walk_append, hw] at hreach
      simp [Tree.walk, Tree.child, hn] at hreach
  · cases l with
    | nil =>
      rw [List.append_nil, hreach] at hw
      exact absurd (Option.some.inj hw) hdir
    | cons c l =>
      obtain ⟨rfl, -⟩ := List.cons.inj hrest
      rw [walk_append, hreach, Option.bind_some, Tree.walk, Option.bind_eq_some_iff] at hw
      obtain ⟨y, hy, -⟩ := hw
      rw [hy]
      exact Option.some_ne_none y

end Names

/-- A path that leads to a file, or behind one, is none of those that are not looked up. -/
theorem not_special (h : WellFormed 0 t) {pre post : List (List Byte)}
    (hsplit : components pathname = pre ++ post) (hw : t.walk dots 0 pre = some n)
    (hn : t n = some .file) :
    ¬(pathname = rootPath ∨ pathname = rootDotPath ∨ pathname = rootDotdotPath) := by
  intro hsp
  have hroot := file_ne_root h hn
  obtain ⟨hlen, hwalk⟩ : (components pathname).length ≤ 1 ∧
      t.walk dots 0 (components pathname) = some 0 := by
    rcases hsp with rfl | hdots
    · rw [show components rootPath = [] from (components_slash []).trans components_nil]
      exact ⟨by decide, rfl⟩
    · refine ⟨?_, walk_rootDots h hdots⟩
      rcases hdots with rfl | rfl
      · rw [components_rootDotPath]
        decide
      · rw [components_rootDotdotPath]
        decide
  rw [hsplit] at hlen hwalk
  cases pre with
  | nil => exact hroot (Option.some.inj hw).symm
  | cons k pre =>
    obtain rfl : post = [] := List.eq_nil_of_length_eq_zero (by
      simp only [List.length_append, List.length_cons] at hlen
      omega)
    rw [List.append_nil, hw] at hwalk
    exact hroot (Option.some.inj hwalk)

/-- With memory, `sys_stat` succeeds on a path that goes on behind a file. -/
theorem behindFile_stat (h : Settled s t) (habs : pathname.head? = some slash)
    (hz : (0 : Byte) ∉ pathname) (hb : BehindFile t pathname) : ¬StatNamed s t pathname := by
  intro hstat
  obtain ⟨hlen, pre, k, post, n, hsplit, hw, hn, hk⟩ := hb
  have h' := h.withMallocs fun _ => true
  have hnot := not_special h.volume.tree.tree hsplit hw hn
  have hzk : (0 : Byte) ∉ k := fun h0 => hz (components_mem k (by simp [hsplit]) 0 h0)
  obtain ⟨r, record, s₁, hsearch, hp₁, h₁, pre', k', post', m, hsplit', hlook⟩ :=
    searchFile_stops h'.serves (fun _ => rfl) ⟨[], 0, 0, 0⟩ habs hlen hnot
      (by rw [hsplit]; simp) (hsplit ▸ namesFit_behind h.volume.tree hw hn hk hzk)
  have hr := lookedUp_found hlook (hsplit.symm.trans hsplit') hw hn
  obtain ⟨st, s', hrun⟩ : ∃ st s', sysStat ⟨[], 0, 0, 0⟩ pathname
      (withMallocs s fun _ => true) = some (some st, s') := by
    rw [sysStat, if_neg hnot, hsearch]
    cases r with
    | none => exact absurd rfl hr
    | some c =>
      have hc : c < 4096 := by
        obtain ⟨N, hN⟩ := h.volume.tree.tree.child_some hlook.result.symm
        exact h.volume.tree.numbers c (by simp [hN])
      obtain ⟨x, hcount⟩ := h₁.counted
      obtain ⟨a, s₂, hopen, hp₂⟩ := inodeOpen_total hcount hp₁ hc
      obtain ⟨hcount₂, hsame₂, hdirs₂⟩ := inodeOpen_counted hopen hcount
      obtain ⟨j, hj⟩ := inodeOpen_inode hopen
      obtain ⟨b, i, hb, -⟩ := hlook.parent
      obtain ⟨s₃, s', hcl, hclose, -⟩ := closes_exist hcount₂ hp₂ hj
        ((dirInode_congr hsame₂ hdirs₂ _).trans hb)
      refine ⟨⟨c, j.iSize, record.fileType⟩, s', ?_⟩
      simp only [hopen, hj, hcl, hclose, Option.bind_eq_bind, Option.bind_some]
      rfl
  obtain ⟨c, hwhole⟩ := hstat _ _ _ _ hrun
  obtain ⟨p, E, hdir⟩ := noFileBefore_of_walk hwhole pre k post hsplit n hw
  rw [hn] at hdir
  cases hdir

/-- With memory, `sys_unlink` comes to its end and does not remove what it says. -/
theorem farParent_unlink (h : Settled s t) (habs : pathname.head? = some slash)
    (hf : FarParent s t pathname) : ¬UnlinkNamed s t pathname := by
  intro hunlink
  obtain ⟨hlen, pre, k, m, n, hsplit, hw, hk, hn, hbig, hrec, huse⟩ := hf
  have h' := h.withMallocs fun _ => true
  have hwhole : t.walk dots 0 (components pathname) = some n := by
    rw [hsplit, walk_last, hw, Option.bind_some, hk]
  have hnot := not_special h.volume.tree.tree (components pathname).append_nil.symm hwhole hn
  obtain ⟨r, record, s₁, hsearch, hp₁, h₁, pre', k', post', m', hsplit', hlook⟩ :=
    searchFile_stops h'.serves (fun _ => rfl) ⟨[], 0, 0, 0⟩ habs hlen hnot
      (by rw [hsplit]; simp) (namesFit_walk h.volume.tree hwhole)
  have hans : Answers t (components pathname) r record s₁ :=
    ⟨pre', k', post', m', hsplit', hlook.stopsAt (hsplit' ▸ noFileBefore_of_walk hwhole)⟩
  obtain rfl : r = some n := hans.walk.trans hwhole
  obtain ⟨s', hrun, hleft⟩ : ∃ s', sysUnlink ⟨[], 0, 0, 0⟩ pathname
      (withMallocs s fun _ => true) = some (0, s') ∧ ¬EntryRemoved s'.vol t m k := by
    have hsame : SameOpen s (withMallocs s fun _ => true) :=
      ⟨⟨rfl, rfl, rfl, rfl⟩, rfl, fun _ _ => rfl, le_rfl⟩
    have hlend₀ : Lends s none (withMallocs s fun _ => true) := hsame
    obtain ⟨x, hcount⟩ := h'.serves.counted
    have hlend := searchFile_lends (wellOpen_of_counted hcount) hsearch
    have hparent : m' = m := by
      have hstop := hlook.stopsAt (hsplit' ▸ noFileBefore_of_walk hwhole)
      obtain rfl := hstop.last.resolve_left (Option.some_ne_none n)
      obtain ⟨rfl, -⟩ := List.append_inj' (hsplit.symm.trans hsplit') rfl
      exact Option.some.inj (hlook.reached.symm.trans hw)
    subst m'
    obtain ⟨s', hrun, hleft⟩ := unlinkFound_far h' hlend h₁ hp₁ hlook.parent hk hn hbig hrec
    have hsearch' : searchFile ⟨[], 0, 0, 0⟩ pathname (junkRecord ⟨[], 0, 0, 0⟩)
        (withMallocs s fun _ => true) = some (some n, record, s₁) := hsearch
    have hn0 : (some n : Option ℕ) ≠ some 0 := fun h0 =>
      file_ne_root h.volume.tree.tree hn (Option.some.inj h0)
    have htype : record.fileType ≠ .directory := by
      rw [hlook.type]
      simp [typeOf, hn]
    refine ⟨s', ?_, hleft⟩
    simp only [sysUnlink, assert_pos hlen, hsearch', assert_pos hn0, htype, ↓reduceIte,
      inFileTable_lends h'.serves hlend maxFilesOpen 0 (by omega),
      inFileTable_lends h.serves hlend₀ maxFilesOpen 0 (by omega), huse, hrun, Option.bind_eq_bind,
      Option.bind_some, Bool.false_eq_true]
  obtain ⟨pre₁, k₁, m₁, n₁, hsplit₁, hw₁, -, -, hrem⟩ := hunlink _ _ _ hrun
  obtain ⟨rfl, hk₁⟩ := List.append_inj' (hsplit.symm.trans hsplit₁) rfl
  obtain rfl := List.singleton_inj.mp hk₁
  obtain rfl := Option.some.inj (hw.symm.trans hw₁)
  exact hleft hrem

/-- `sys_unlink` and `sys_stat` act on the object that the whole path names if and only if the path
does not go on behind a file, and no file is removed from a directory with a large number. -/
theorem whole_path_iff (h : Settled s t) (habs : pathname.head? = some slash)
    (hz : (0 : Byte) ∉ pathname) : (UnlinkNamed s t pathname ∧ StatNamed s t pathname) ↔
    ¬BehindFile t pathname ∧ ¬FarParent s t pathname := by
  constructor
  · rintro ⟨hunlink, hstat⟩
    exact ⟨fun hb => behindFile_stat h habs hz hb hstat,
      fun hf => farParent_unlink h habs hf hunlink⟩
  · rintro ⟨hb, hf⟩
    exact ⟨unlinkNamed_of h hz hb hf, statNamed_of h hz hb⟩

def fileName : List Byte := [0x66]

/-- The root directory holds the file `f`, inode 1, which is empty. -/
def fileTree : FileTree := singleTree fileName .file

def fileEntry : DirEntry := ⟨fileName, 1, FileType.regular.code⟩

/-- The same without the entry. -/
def rootVolume : Volume smallPartition :=
  ((((blankVolume smallPartition zeroes).setBlockBit 0 true).setInodeBit 0 true).setInodeBit 1
    true).withDisk
    (patch (patch (patch zeroes
      (slotAddr smallPartition 0) 76 (nestedInode 0 613 72).toBytes)
      (slotAddr smallPartition 1) 76 (inodeInit 1).toBytes)
      (512 * 613) 512 (newDirBlock 0 0))

def fileVolume : Volume smallPartition :=
  rootVolume.withDisk (patch rootVolume.disk (512 * 613) 512
    (patch (sectorBuf rootVolume.disk 613) 48 24 fileEntry.toBytes))

theorem fileVolume_root :
    (nestedInode 0 613 72).Same (diskInode smallPartition fileVolume.disk 0) :=
  same_diskInode (by decide +kernel) ⟨by decide, by decide, by decide⟩

theorem fileVolume_file : (inodeInit 1).Same (diskInode smallPartition fileVolume.disk 1) :=
  same_diskInode (by decide +kernel) ⟨by decide, by decide, by decide⟩

theorem fileVolume_onDisk : OnDiskTree fileVolume fileTree := by
  have hdirs : ∀ d, fileTree.IsDir d → d = 0 := by
    rintro d ⟨p, E, h⟩
    have hd : singleTree fileName .file d ≠ none := by
      rw [show singleTree fileName .file d = _ from h]
      exact Option.some_ne_none _
    rcases singleTree_some hd with rfl | rfl
    · rfl
    · cases h
  refine ⟨wellFormed_single trivial (fun p E he => by cases he), fun n hn => ?_, fun d hd => ?_,
    fun d hd => ?_⟩
  · rcases singleTree_some hn with rfl | rfl
    · decide
    · decide
  · obtain rfl := hdirs d hd
    exact fileVolume_root.no.symm
  · obtain rfl := hdirs d hd
    refine directory_same ?_ fileVolume_root
    rw [fileTree, entriesOf_single_root (by decide) (by decide)]
    exact firstEntry_directory (e := fileEntry) (v := rootVolume) ⟨0, rfl, by decide, by decide +kernel⟩
      (by decide +kernel) (insertable_dotMap ⟨by decide, by decide, by decide⟩ (by decide)
        (by decide) (by decide) (by decide) (.inl rfl))

/-- The only block belongs to the root directory. -/
theorem fileVolume_refs {n p : ℕ} (hn : n = 0 ∨ n = 1) (hp : p < 141) :
    ref fileVolume.disk (diskInode smallPartition fileVolume.disk n) p =
      if n = 0 ∧ p = 0 then 613 else 0 := by
  rcases hn with rfl | rfl
  · rw [← ref_same fileVolume_root, ref_single (y := 613) (fun _ _ => rfl) hp]
    simp
  · rw [← ref_same fileVolume_file, ref_single (y := 0) (fun _ _ => by simp [inodeInit]) hp]
    simp

theorem fileVolume_allocated {n : ℕ} (hn : fileVolume.inodeBit n = true) : n = 0 ∨ n = 1 := by
  by_contra hnot
  obtain ⟨h0, h1⟩ := not_or.mp hnot
  simp [fileVolume, rootVolume, blankVolume_inodeBit, h0, h1] at hn

theorem fileVolume_consistent : Consistent fileVolume fileTree := by
  have hused : InUse fileVolume 613 := ⟨0, rfl, by decide, by decide +kernel⟩
  have hbits : fileVolume.inodeBit 0 = true ∧ fileVolume.inodeBit 1 = true := by decide +kernel
  refine ⟨fileVolume_onDisk, ⟨fun n hn => ?_, fun n hn p hp hz => ?_,
    fun n n' hn hn' p hp p' hp' hz he => ?_⟩, fun n hn => ?_, fun n hn p hp => ?_, ?_⟩
  · rcases fileVolume_allocated hn.2 with rfl | rfl
    · exact fileVolume_root.no.symm
    · exact fileVolume_file.no.symm
  · have href : (diskStore fileVolume).refs n p = _ :=
      fileVolume_refs (fileVolume_allocated hn.2) hp
    rw [href] at hz ⊢
    split
    · exact hused
    · exact absurd (if_neg ‹_›) hz
  · have href : (diskStore fileVolume).refs n p = _ :=
      fileVolume_refs (fileVolume_allocated hn.2) hp
    have href' : (diskStore fileVolume).refs n' p' = _ :=
      fileVolume_refs (fileVolume_allocated hn'.2) hp'
    rw [href] at hz he
    rw [href'] at he
    have hnp : n = 0 ∧ p = 0 := by
      by_contra hnot
      exact hz (if_neg hnot)
    have hnp' : n' = 0 ∧ p' = 0 := by
      by_contra hnot
      rw [if_pos hnp, if_neg hnot] at he
      cases he
    exact ⟨hnp.1.trans hnp'.1.symm, hnp.2.trans hnp'.2.symm⟩
  · rcases singleTree_some hn with rfl | rfl
    · exact hbits.1
    · exact hbits.2
  · rw [fileVolume_refs (singleTree_some hn) hp]
    split
    · decide
    · decide
  · exact fileVolume_refs (.inl rfl) (by decide)

/-- A file system that has just been mounted has no file open. -/
theorem booted_settled {v : Volume part} (h : Booted v s) (hc : Consistent v t) : Settled s t := by
  refine ⟨booted_serves h hc.tree, h.vol ▸ hc, fun a ha i hi hn => ?_⟩
  rw [h.openInodes, List.mem_singleton] at ha
  rw [ha, h.inode] at hi
  obtain rfl := Option.some.inj hi
  have hno : (diskInode part v.disk 0).iNo = 0 := hc.tree.number 0 hc.tree.root
  exact absurd hno (file_ne_root hc.tree.tree hn)

/-- The path `/f`. -/
def filePath : List Byte := slash :: fileName

theorem whole_path_iff_file : ∃ s : Kernel smallPartition, Settled s fileTree ∧
    UnlinkNamed s fileTree filePath ∧ StatNamed s fileTree filePath := by
  obtain ⟨s, hs, -⟩ := openRootDir_mounted fileVolume (m := fun _ => true) rfl rfl
  have h := booted_settled (openRootDir_some hs) fileVolume_consistent
  have hc : components filePath = [fileName] := by
    rw [filePath, components_slash, components_last (by decide) (by decide)]
  have hfirst : ∀ {pre k post}, components filePath = pre ++ k :: post → pre = [] := by
    intro pre k post he
    have hlen := congrArg List.length he
    rw [hc] at hlen
    simp only [List.length_append, List.length_cons, List.length_nil] at hlen
    exact List.eq_nil_of_length_eq_zero (by omega)
  refine ⟨s, h, (whole_path_iff h rfl (by decide)).mpr ⟨?_, ?_⟩⟩
  · rintro ⟨-, pre, k, post, n, he, hw, hn, -⟩
    obtain rfl := hfirst he
    obtain rfl := Option.some.inj hw
    cases hn
  · rintro ⟨-, pre, k, m, n, he, hw, -, -, hbig, -⟩
    obtain rfl := hfirst he
    obtain rfl := Option.some.inj hw
    omega

/-- The path `/f/x`. -/
def behindPath : List Byte := slash :: (fileName ++ [slash, 0x78])

/-- `/f/x` does not exist, and both calls take it for `/f`. -/
theorem search_stops_at_file : ∃ s : Kernel smallPartition, Settled s fileTree ∧
    behindPath.head? = some slash ∧ (0 : Byte) ∉ behindPath ∧
    fileTree.walk dots 0 (components behindPath) = none ∧
    (∃ s', sysUnlink ⟨[], 0, 0, 0⟩ behindPath s = some (0, s')) ∧
    (∃ st s', sysStat ⟨[], 0, 0, 0⟩ behindPath s = some (some st, s')) ∧
    ¬UnlinkNamed s fileTree behindPath ∧ ¬StatNamed s fileTree behindPath := by
  obtain ⟨s, hs, -⟩ := openRootDir_mounted fileVolume (m := fun _ => true) rfl rfl
  have h := booted_settled (openRootDir_some hs) fileVolume_consistent
  have hc : components behindPath = [fileName, [0x78]] := by
    rw [behindPath, components_slash, components_name (by decide) (by decide),
      components_last (by decide) (by decide)]
  have hnone : fileTree.walk dots 0 (components behindPath) = none := by
    rw [hc]
    decide
  have hunlink : ((openRootDir (mounted fileVolume fun _ => true)).bind fun s =>
      (sysUnlink ⟨[], 0, 0, 0⟩ behindPath s).map Prod.fst) = some 0 := by decide +kernel
  have hstat : ((openRootDir (mounted fileVolume fun _ => true)).bind fun s =>
      (sysStat ⟨[], 0, 0, 0⟩ behindPath s).map (Option.isSome ∘ Prod.fst)) = some true := by
    decide +kernel
  rw [hs, Option.bind_some, Option.map_eq_some_iff] at hunlink hstat
  obtain ⟨⟨-, s'⟩, hrun, rfl⟩ := hunlink
  obtain ⟨⟨_ | st, s''⟩, hrun', hst⟩ := hstat
  · cases hst
  refine ⟨s, h, rfl, by decide, hnone, ⟨s', hrun⟩, ⟨st, s'', hrun'⟩, fun hu => ?_, fun hs => ?_⟩
  · obtain ⟨pre, k, m, n, hsplit, hw, hk, -⟩ := hu _ s.mallocs s' hrun
    rw [hsplit, walk_last, hw, Option.bind_some, hk] at hnone
    cases hnone
  · obtain ⟨n, hn⟩ := hs _ s.mallocs st s'' hrun'
    rw [hnone] at hn
    cases hn

end FsWholePath
