import XianweiOS.FsTreeInsert
import XianweiOS.FsSearch
import XianweiOS.FsLookupFrame
import XianweiOS.FsWholePath

/-! Creating a file or a directory in an open directory of a tree. With memory, an inode number and
the blocks they take the calls come to their end, and a call that succeeds leaves a kernel that
serves the tree with the new object. -/
namespace FsCreation

open ByteStore HaltingProgram KernelBitmap DeviceIde FsVolume FsInodeTable FsBlockMap FsOwnership
  FsFreeBlocks FsDirectory FsDirectorySlots FsDirectoryTable FsDirectoryMap FsDirectoryRuns FsPath
  FsOpenFiles FsSyscalls FsReferenceCounts FsReferenceRuns FsLookupFrame PathTree FsTree FsSearch
  FsConsistentTree FsTreeInsert FsWholePath

variable {part : Partition} {s s' : Kernel part} {t : FileTree} {d : Option DirPtr} {m n : ℕ}
  {k : List Byte} {pre : List (List Byte)}

/-- The open inodes are objects of the tree, and no object is open twice. -/
structure Known (s : Kernel part) (t : FileTree) : Prop where
  object : ∀ a ∈ s.openInodes, ∀ i, s.inodes a = some i → t i.iNo ≠ none
  single : ∀ a ∈ s.openInodes, ∀ b ∈ s.openInodes, ∀ i j, s.inodes a = some i →
    s.inodes b = some j → i.iNo = j.iNo → a = b

theorem Known.of_open (h : Known s t) (hopen : ∀ b ∈ s'.openInodes, ∀ j, s'.inodes b = some j →
    ∃ i, s.inodes b = some i ∧ b ∈ s.openInodes ∧ j.iNo = i.iNo) : Known s' t := by
  refine ⟨fun a ha i hi => ?_, fun a ha b hb i j hi hj he => ?_⟩
  · obtain ⟨i₀, hi₀, ha₀, hno⟩ := hopen a ha i hi
    rw [hno]
    exact h.object a ha₀ i₀ hi₀
  · obtain ⟨i₀, hi₀, ha₀, hi⟩ := hopen a ha i hi
    obtain ⟨j₀, hj₀, hb₀, hj⟩ := hopen b hb j hj
    exact h.single a ha₀ b hb₀ i₀ j₀ hi₀ hj₀ (hi.symm.trans (he.trans hj))

theorem Known.malloc (h : Known s t) : Known (sysMalloc s).2 t :=
  h.of_open fun _ hb j hj => ⟨j, hj, hb, rfl⟩

theorem dirClose_open (hcl : dirClose d s = some s') : ∀ b ∈ s'.openInodes, ∀ j,
    s'.inodes b = some j → ∃ i, s.inodes b = some i ∧ b ∈ s.openInodes ∧ j.Same i := by
  rcases d with _ | _ | p
  · cases hcl
  · obtain rfl := Option.some.inj hcl
    exact fun b hb j hj => ⟨j, hj, hb, Inode.Same.refl j⟩
  · simp only [dirClose, bind_some_iff, Option.pure_def, Option.some.injEq] at hcl
    obtain ⟨dir, -, s₁, hcl, rfl⟩ := hcl
    exact fun b hb j hj => inodeClose_open hcl b hb j hj

theorem inodeOpen_known (h : Known s t) (ht : OnDiskTree s.vol t) (hn : t.IsDir n) {a : ℕ}
    (ho : inodeOpen n s = some (a, s')) : Known s' t := by
  rcases inodeOpen_some ho with ⟨ha, i, hi, hno, rfl⟩ | ⟨hall, -, rfl, x, rfl⟩
  · refine h.of_open fun b hb j hj => ?_
    by_cases hba : b = a
    · subst b
      obtain rfl := Option.some.inj ((s.setInode_self a _).symm.trans hj)
      exact ⟨i, hi, ha, rfl⟩
    · rw [s.setInode_ne _ hba] at hj
      exact ⟨j, hj, hb, rfl⟩
  · have hno : (diskInode part s.vol.disk n).iNo = n := ht.number n hn
    have hnode : t n ≠ none := by
      obtain ⟨p, E, hn⟩ := hn
      simp [hn]
    -- the inode that was read has a number that was not there
    have hopen : ∀ b ∈ s.next :: s.openInodes, ∀ j, Function.update s.inodes s.next
        (some { diskInode part s.vol.disk n with openCnts := 1 }) b = some j →
        (b = s.next ∧ j.iNo = n) ∨ (b ∈ s.openInodes ∧ s.inodes b = some j ∧ j.iNo ≠ n) := by
      intro b hb' j hj
      by_cases hba : b = s.next
      · subst b
        rw [Function.update_self] at hj
        obtain rfl := Option.some.inj hj
        exact .inl ⟨rfl, hno⟩
      · rw [Function.update_of_ne hba] at hj
        have hbs := (List.mem_cons.mp hb').resolve_left hba
        obtain ⟨i, hi, hne⟩ := hall b hbs
        obtain rfl := Option.some.inj (hi.symm.trans hj)
        exact .inr ⟨hbs, hj, hne⟩
    refine ⟨fun b hb' j hj => ?_, fun b hb' c hc i j hi hj he => ?_⟩
    · rcases hopen b hb' j hj with ⟨-, hjn⟩ | ⟨hbs, hj, -⟩
      · rwa [hjn]
      · exact h.object b hbs j hj
    · rcases hopen b hb' i hi with ⟨rfl, hin⟩ | ⟨hbs, hi, hin⟩ <;>
        rcases hopen c hc j hj with ⟨rfl, hjn⟩ | ⟨hcs, hj, hjn⟩
      · rfl
      · exact absurd (he.symm.trans hin) hjn
      · exact absurd (he.trans hjn) hin
      · exact h.single b hbs c hcs i j hi hj he

theorem dirOpen_known (hs : Serves s t) (hn : t.IsDir n) (ho : dirOpen n s = some (d, s'))
    (h : Known s t) : Known s' t := by
  simp only [dirOpen] at ho
  split at ho
  · obtain ⟨rfl, rfl⟩ := Prod.mk.inj (Option.some.inj ho)
    exact h.malloc
  · rw [bind_some_iff] at ho
    obtain ⟨⟨a, s₁⟩, hop, ho⟩ := ho
    obtain ⟨rfl, rfl⟩ := Prod.mk.inj (Option.some.inj ho)
    have h₁ := inodeOpen_known h.malloc hs.malloc.disk hn hop
    exact h₁.of_open fun b hb j hj => ⟨j, hj, hb, rfl⟩

/-- A lookup leaves the volume alone, and opens what it has found. -/
theorem lookupStable_known (v : Volume part) :
    LookupStable t fun s : Kernel part => Known s t ∧ s.vol = v := by
  refine ⟨fun h => ⟨h.1.malloc, h.2⟩, fun hcl h => ⟨h.1.of_open fun b hb j hj => ?_, ?_⟩,
    fun hs hn ho h => ⟨dirOpen_known hs hn ho h.1, ?_⟩⟩
  · obtain ⟨i, hi, hbs, hsame⟩ := dirClose_open hcl b hb j hj
    exact ⟨i, hi, hbs, hsame.no⟩
  · exact (dirClose_files hcl).vol.trans h.2
  · obtain ⟨x, hc⟩ := hs.counted
    exact (dirOpen_counted ho hc).2.1.vol.trans h.2

/-- A kernel that serves a consistent tree, and in which a new object finds memory and an inode. -/
structure Ready (s : Kernel part) (t : FileTree) : Prop where
  serves : Serves s t
  consistent : Consistent s.vol t
  known : Known s t
  memory : Plentiful s
  number : ∃ n < 256, s.vol.inodeBit n = false

theorem Ready.of_vol (h : Ready s t) (hs : Serves s' t) (hk : Known s' t) (hm : Plentiful s')
    (hv : s'.vol = s.vol) : Ready s' t :=
  ⟨hs, hv ▸ h.consistent, hk, hm, hv ▸ h.number⟩

theorem Ready.malloc (h : Ready s t) : Ready (sysMalloc s).2 t :=
  h.of_vol h.serves.malloc h.known.malloc h.memory.malloc rfl

/-- What a search along `pre` and then `k` has found, in directory `m`. -/
structure Searched (s : Kernel part) (t : FileTree) (pre : List (List Byte)) (k : List Byte)
    (m : ℕ) (r : Option ℕ) (record : PathSearchRecord) : Prop where
  ready : Ready s t
  result : r = t.child dots m k
  handle : ∃ n, OpenOn s record.parentDir n
  path : record.fileType ≠ .directory → record.searchedPath = joinPath (pre ++ [k])
  parent : r = none → OpenOn s record.parentDir m
  type : r = none → record.fileType = .unknown

/-- The parent directory and the name of a path. -/
structure Splits (t : FileTree) (pathname : List Byte) (pre : List (List Byte)) (k : List Byte)
    (m : ℕ) : Prop where
  split : components pathname = pre ++ [k]
  reached : t.walk dots 0 pre = some m
  dir : t.IsDir m

theorem Splits.noFileBefore {pathname : List Byte}
    (h : Splits t pathname pre k m) : t.NoFileBefore dots 0 (components pathname) := by
  rw [h.split]
  intro l c post he n hn
  rcases List.append_eq_append_iff.mp he with ⟨l', rfl, hl⟩ | ⟨l', rfl, hl⟩
  · -- the last name is the whole rest
    have hnil : l' = [] := by
      have hlen := congrArg List.length hl
      simp only [List.length_append, List.length_cons, List.length_nil] at hlen
      exact List.length_eq_zero_iff.mp (by omega)
    subst hnil
    rw [List.append_nil, h.reached] at hn
    exact Option.some.inj hn ▸ h.dir
  · cases l' with
    | nil =>
      rw [List.append_nil] at h
      rw [h.reached] at hn
      exact Option.some.inj hn ▸ h.dir
    | cons c' l' =>
      exact noFileBefore_of_walk h.reached l c' l' rfl n hn

/-- A search that stops early has missed a name, and the parent would not be there. -/
theorem Splits.stop {pathname : List Byte} (h : Splits t pathname pre k m)
    {pre' post : List (List Byte)} {k' : List Byte} {m' : ℕ} {r : Option ℕ}
    {record : PathSearchRecord} (he : components pathname = pre' ++ k' :: post)
    (hst : StopsAt t pre' k' post m' r record s) : pre' = pre ∧ k' = k ∧ m' = m := by
  rw [h.split] at he
  rcases List.eq_nil_or_concat post with rfl | ⟨post, c, rfl⟩
  · obtain ⟨rfl, hk⟩ := List.append_inj' he rfl
    obtain rfl := (List.cons.inj hk).1
    exact ⟨rfl, rfl, Option.some.inj (hst.reached.symm.trans h.reached)⟩
  · rw [List.concat_eq_append, ← List.cons_append, ← List.append_assoc] at he
    obtain ⟨rfl, -⟩ := List.append_inj' he rfl
    have hr : r = none := hst.last.resolve_right (by simp)
    have hwalk := h.reached
    rw [walk_append, hst.reached, Option.bind_some, Tree.walk, ← hst.result, hr] at hwalk
    cases hwalk

theorem search_ready (h : Ready s t) {pathname : List Byte} (hp : PathOk pathname)
    (hs : Splits t pathname pre k m) (junk : Junk) :
    ∃ r record s', searchFile junk pathname zeroRecord s = some (r, record, s') ∧
      s'.vol = s.vol ∧ Searched s' t pre k m r record := by
  have hroot : pathname ≠ rootPath := by
    rintro rfl
    exact hp.nonempty ((components_slash []).trans components_nil)
  by_cases hdots : pathname = rootDotPath ∨ pathname = rootDotdotPath
  · have hwalk := walk_rootDots h.serves.disk.tree hdots
    rw [hs.split, walk_last, hs.reached, Option.bind_some] at hwalk
    exact ⟨some 0, ⟨[], some .root, .directory⟩, s, if_pos (.inr hdots), rfl, h, hwalk.symm,
      ⟨0, h.serves.openRoot⟩, fun hn => (hn rfl).elim, fun hn => (Option.some_ne_none _ hn).elim,
      fun hn => (Option.some_ne_none _ hn).elim⟩
  obtain ⟨r, record, s', hrun, hm', h', pre', k', post, m', hsplit, hlook⟩ :=
    searchFile_stops h.serves h.memory junk hp.absolute hp.short
      (fun he => he.elim hroot hdots) hp.nonempty
      (namesFit_of_short (fun c hc =>
        ⟨hp.names c hc, fun hz => hp.string (components_mem c hc 0 hz)⟩) 0)
  obtain ⟨-, -, hstable⟩ := searchFile_stable (lookupStable_known s.vol) h.serves hp.string hrun
  obtain ⟨hk', hv'⟩ := hstable ⟨h.known, rfl⟩
  have hstop := hlook.stopsAt (hsplit ▸ hs.noFileBefore)
  obtain ⟨rfl, rfl, rfl⟩ := hs.stop hsplit hstop
  exact ⟨r, record, s', hrun, hv', h.of_vol h' hk' hm' hv', hstop.result, ⟨m', hstop.parent⟩,
    fun _ => hstop.path, fun _ => hstop.parent, fun hr => by rw [hstop.type, hr]; rfl⟩

/-- The open directory in which a name is free. -/
structure Parent (s : Kernel part) (t : FileTree) (d : Option DirPtr) (k : List Byte) (a m : ℕ)
    (i : Inode) : Prop where
  ready : Ready s t
  dir : t.IsDir m
  near : m < 256
  handle : dirInode s d = some a
  opened : a ∈ s.openInodes
  inode : s.inodes a = some i
  no : i.iNo = m
  name : ValidName k
  absent : t.child dots m k = none

section Parent

variable {a : ℕ} {i i' new : Inode} {v₁ v₂ v₃ : Volume part} {N : Node ℕ (List Byte)}

theorem Parent.plain (h : Parent s t d k a m i) : k ≠ dot ∧ k ≠ dotdot := by
  obtain ⟨p, E, hm⟩ := h.dir
  have habs := h.absent
  constructor
  · rintro rfl
    exact Option.some_ne_none _ ((child_self (w := dots) hm).symm.trans habs)
  · rintro rfl
    have hup := child_up (w := dots) hm (by decide)
    exact Option.some_ne_none _ (hup.symm.trans habs)

theorem Parent.same (h : Parent s t d k a m i) : i.Same (diskInode part s.vol.disk m) := by
  have := h.ready.serves.cached a h.opened i h.inode (h.no ▸ h.dir)
  rwa [h.no] at this

theorem Parent.directory (h : Parent s t d k a m i) : Directory s.vol i (entriesOf t m) :=
  directory_same (h.ready.serves.disk.directory m h.dir) h.same.symm

/-- A number that is free on the disk is free in the tree. -/
theorem Ready.alloc (h : Ready s t) : ∃ n < 256,
    inodeBitmapAlloc s.vol = some (some n, s.vol.setInodeBit n true) ∧
      s.vol.inodeBit n = false ∧ t n = none := by
  obtain ⟨j, hj, hclear⟩ := h.number
  obtain ⟨n, hn, hal, hlow⟩ := inodeBitmapAlloc_exists (by omega) hclear
  refine ⟨n, by omega, hal, hlow, ?_⟩
  by_contra hnode
  exact Bool.false_ne_true (hlow.symm.trans (h.consistent.allocated n hnode))

/-- The first block of the data area is that of the root directory. -/
theorem Ready.first (h : Ready s t) : s.vol.blockBit 0 = true := by
  obtain ⟨p, E, h0⟩ := h.consistent.tree.root
  have hdata : part.sb.dataStartLba ≠ 0 := by
    have := part.bounds
    omega
  have hheld := h.consistent.owned.held 0 (h.consistent.of_node (by simp [h0])) 0 (by omega)
  have hfirst : (diskStore s.vol).refs 0 0 = part.sb.dataStartLba := h.consistent.first
  rw [hfirst] at hheld
  obtain ⟨j, hj, -, hbit⟩ := hheld hdata
  obtain rfl : j = 0 := by omega
  exact hbit

theorem newDirectory_exists {v : Volume part} (h0 : v.blockBit 0 = true)
    (hfree : 0 < clearBlocks v) (n p : ℕ) : ∃ new v₁, newDirectory n p v = some (some new, v₁) ∧
      clearBlocks v₁ + 1 = clearBlocks v := by
  obtain ⟨j, hal, hlow, hlba⟩ := alloc_clear hfree
  have hpos : 0 < blockBitmapIdx part (part.sb.dataStartLba + j) := by
    rw [blockBitmapIdx_alloc hlow.1]
    refine Nat.pos_of_ne_zero fun he => ?_
    subst he
    exact Bool.false_ne_true (hlow.2.1.symm.trans h0)
  rw [newDirectory, hal, Option.bind_eq_bind, Option.bind_some]
  simp only
  rw [assert_pos hpos, Option.bind_eq_bind, Option.bind_some, sync_alloc hlow.1,
    Option.bind_eq_bind, Option.bind_some,
    ideWrite_eq (by omega) (by simp only [maxLba] at hlba ⊢; omega), Option.bind_eq_bind,
    Option.bind_some]
  refine ⟨_, _, rfl, ?_⟩
  rw [clearBlocks_withDisk, clearBlocks_withDisk]
  exact clearBlocks_take hlow hlba

/-- A directory that returns has found its block. -/
theorem newDirectory_clear {v v₁ : Volume part} {p : ℕ} {new : Inode}
    (h : newDirectory n p v = some (some new, v₁)) : clearBlocks v₁ + 1 = clearBlocks v := by
  obtain ⟨new, j, -, hat⟩ := newDirectory_some h
  rw [clearBlocks_congr (w := v.setBlockBit j true) hat.blocks]
  exact clearBlocks_take hat.low hat.lba

/-- The blocks that a new directory in directory `m` takes: its own, and those of its entry. -/
def mkdirBlocks (v : Volume part) (m : ℕ) : ℕ :=
  1 + entryBlocks v.disk (diskInode part v.disk m)

theorem syncNewInode_exists (i : Inode) (v : Volume part) (hn : new.iNo < 4096) :
    ∃ w, syncNewInode i new v = some w := by
  simp only [syncNewInode, inodeSync_eq, Option.bind_eq_bind, Option.bind_some,
    bitmapSync_inode_eq _ hn]
  exact ⟨_, rfl⟩

/-- The parent is open as the disk has it, and the other open inodes are as before. -/
theorem cached_insert (hp : Parent s t d k a m i)
    (hi : Insertion s.vol t m n k N i new i' v₁ v₂ v₃) : ∀ b ∈ s.openInodes, ∀ j,
    (s.setInode a i').inodes b = some j → (t.insert m k n N).IsDir j.iNo →
      j.Same (diskInode part v₃.disk j.iNo) := by
  intro b hb j hj hdir
  by_cases hba : b = a
  · subst b
    obtain rfl := Option.some.inj ((s.setInode_self a i').symm.trans hj)
    rw [hi.no']
    exact hi.parent₃
  · rw [s.setInode_ne i' hba] at hj
    have hjm : j.iNo ≠ m := fun he =>
      hba (hp.ready.known.single b hb a hp.opened j i hj hp.inode (he.trans hp.no.symm))
    have hjn : j.iNo ≠ n := fun he => hp.ready.known.object b hb j hj (he ▸ hi.free)
    have hold := (insert_isDir hjn).mp hdir
    rw [hi.record₃ (hp.ready.serves.disk.lt hold) hjm hjn]
    exact hp.ready.serves.cached b hb j hj hold

theorem root_insert (hp : Parent s t d k a m i) (hno : i'.iNo = i.iNo) :
    ∃ j, (s.setInode a i').inodes s.rootInode = some j ∧ j.iNo = 0 := by
  obtain ⟨j, hj, hj0⟩ := hp.ready.serves.root
  by_cases hroot : s.rootInode = a
  · rw [hroot] at hj ⊢
    obtain rfl := Option.some.inj (hp.inode.symm.trans hj)
    exact ⟨i', s.setInode_self a i', hno.trans hj0⟩
  · exact ⟨j, (s.setInode_ne i' hroot).trans hj, hj0⟩

/-- The kernel behind the insertion serves the larger tree. -/
theorem serves_insert (hp : Parent s t d k a m i)
    (hi : Insertion s.vol t m n k N i new i' v₁ v₂ v₃) :
    Serves ((s.setInode a i').withVol v₃) (t.insert m k n N) := by
  have hent := syncDirEntry_entered hi.entered
  obtain ⟨x, hc⟩ := hp.ready.serves.counted
  exact ⟨hi.consistent₃.tree, ⟨x, (hc.setInode hp.inode hent.cnts).withVol v₃⟩,
    root_insert hp hent.no, cached_insert hp hi⟩

/-- The new file is open as well, and in a slot of the file table. -/
theorem serves_createdFile (hp : Parent s t d k a m i)
    (hi : Insertion s.vol t m n k .file i new i' v₁ v₂ v₃) (flag : ℕ) {j : ℕ} (hj : j < maxFilesOpen)
    (hfree : (s.fileTable j).fdInode = none) :
    Serves (createdFile s a i' n j flag v₃) (t.insert m k n .file) := by
  have hent := syncDirEntry_entered hi.entered
  obtain ⟨x, hc⟩ := hp.ready.serves.counted
  have hold : ∀ b ∈ s.openInodes, (createdFile s a i' n j flag v₃).inodes b =
      (s.setInode a i').inodes b := by
    intro b hb
    have hne : b ≠ s.next := fun he => lt_irrefl _ (he ▸ hc.below b hb)
    exact Function.update_of_ne hne _ _
  have hroot : s.rootInode ∈ s.openInodes := hc.dirInode_open (d := some .root) rfl
  refine ⟨hi.consistent₃.tree, ⟨x, createdFile_counted hc hj hfree hp.inode hent.cnts⟩, ?_,
    fun b hb y hy hdir => ?_⟩
  · obtain ⟨y, hy, h0⟩ := root_insert hp hent.no
    exact ⟨y, (hold _ hroot).trans hy, h0⟩
  · rcases List.mem_cons.mp hb with rfl | hb
    · -- the new object is no directory
      have hself : (createdFile s a i' n j flag v₃).inodes s.next =
          some { inodeInit n with openCnts := 1 } := Function.update_self _ _ _
      obtain rfl := Option.some.inj (hself.symm.trans hy)
      obtain ⟨p, E, hn⟩ := hdir
      cases insert_self.symm.trans hn
    · exact cached_insert hp hi b hb y ((hold b hb).symm.trans hy) hdir

/-- The tree has the object `N` under a number that was free before. -/
def Added (s s' : Kernel part) (t : FileTree) (m : ℕ) (k : List Byte)
    (N : Node ℕ (List Byte)) : Prop :=
  ∃ n, s.vol.inodeBit n = false ∧ s'.vol.inodeBit n = true ∧ t n = none ∧
    Serves s' (t.insert m k n N)

theorem Parent.openOn (h : Parent s t d k a m i) (hno : i'.iNo = i.iNo) :
    OpenOn (s.setInode a i') d m :=
  ⟨a, i', h.handle, h.opened, s.setInode_self a i', hno.trans h.no⟩

/-- Giving the handle on the parent back. -/
theorem dirClose_added (ho : OpenOn s d m) (hm : Plentiful s) : ∃ s', dirClose d s = some s' ∧
    Plentiful s' ∧ s'.vol = s.vol ∧ ∀ T : FileTree, Serves s T → Serves s' T := by
  obtain ⟨a, i, ha, -, hi, -⟩ := id ho
  obtain ⟨s', hcl, hm'⟩ := dirClose_returns ha hi hm
  exact ⟨s', hcl, hm', (dirClose_files hcl).vol, fun T hT => dirClose_kept hT ho hcl⟩

/-- The open inode of the parent takes the blocks that its record takes, also while the new object
is prepared. -/
theorem Parent.entryBlocks (h : Parent s t d k a m i) {v₁ : Volume part} (hsp : Spared s.vol v₁) :
    entryBlocks v₁.disk i = FsDirectoryRuns.entryBlocks s.vol.disk (diskInode part s.vol.disk m) := by
  have howns := h.directory.owns
  have hkept : FsDirectoryRuns.entryBlocks v₁.disk i = FsDirectoryRuns.entryBlocks s.vol.disk i :=
    entryBlocks_congr (fun p hp => hsp.ref howns (by omega)) fun p hp j hj =>
      rawSlot_congr (hsp.ref howns (by omega)) hj fun hz => hsp.quiet _ (howns.held p (by omega) hz)
  rw [hkept]
  exact entryBlocks_congr (fun p _ => by rw [ref_same h.same]) fun p _ j _ => by
    rw [ref_same h.same]

theorem mkdirIn_ready (hp : Parent s t d k a m i) (hblocks : mkdirBlocks s.vol m ≤ clearBlocks s.vol) :
    ∃ ret s', mkdirIn d k s = some (ret, s') ∧
    Plentiful s' ∧ (ret = -1 ∨ Added s s' t m k (.dir m fun _ => none)) := by
  have hnear := hp.near
  obtain ⟨n, hn, hal, hclear, hfree⟩ := hp.ready.alloc
  rw [mkdirBlocks] at hblocks
  obtain ⟨new, v₁, hnew, hleft⟩ := newDirectory_exists (v := s.vol.setInodeBit n true)
    hp.ready.first (show 0 < clearBlocks s.vol by omega) n m
  have hleft : clearBlocks v₁ + 1 = clearBlocks s.vol := hleft
  obtain ⟨hprep, hdir⟩ := prepared_directory (by omega) (by omega) hnew
  have hentry := hp.entryBlocks hprep.spared
  obtain ⟨ok, i', v₂, hsync⟩ := syncDirEntry_returns (hprep.spared.directory hp.directory)
    ⟨k, n, FileType.directory.code⟩ (by omega)
  have hno := (syncDirEntry_entered hsync).no
  have hlen : k.length ≤ 16 := hp.name.short.le
  have hopen : ∀ v, OpenOn ((s.setInode a i').withVol v) d m := fun v => hp.openOn hno
  rw [mkdirIn, hal, Option.bind_eq_bind, Option.bind_some]
  simp only [hp.handle, hp.inode, hp.no, hnew, createDirEntry, assert_pos hlen, hsync,
    Option.bind_eq_bind, Option.bind_some, Option.pure_def]
  cases ok with
  | false =>
    obtain ⟨s', hcl, hm', -, -⟩ := dirClose_added (hopen (v₂.setInodeBit n false)) hp.ready.memory
    exact ⟨-1, s', by simp [mkdirRollback, hcl], hm', .inl rfl⟩
  | true =>
    obtain ⟨v₃, hsynced⟩ := syncNewInode_exists i' v₂ (show new.iNo < 4096 by rw [hprep.no]; omega)
    obtain ⟨s', hcl, hm', hvol, hserves⟩ := dirClose_added (hopen v₃) hp.ready.memory
    have hins : Insertion s.vol t m n k (.dir m fun _ => none) i new i' v₁ v₂ v₃ := by
      refine ⟨hp.ready.consistent, hp.dir, hp.near, hp.same, hp.name, hp.plain, hp.absent, hfree,
        hclear, hn, rfl, ?_, hprep, fun p E _ => hdir, ?_, hsynced⟩
      · rintro p E he l
        obtain ⟨-, rfl⟩ := Node.dir.inj he
        rfl
      · rw [typeOf, insert_self]
        exact hsync
    refine ⟨0, s', by simp [hsynced, hcl], hm', .inr ⟨n, hclear, ?_, hfree, ?_⟩⟩
    · rw [hvol]
      exact (hins.inodeBit₃ n).trans (if_pos rfl)
    · exact hserves _ (serves_insert hp hins)

/-- A call that returns has found its blocks. -/
theorem mkdirIn_blocks (hp : Parent s t d k a m i) {ret : ℤ}
    (h : mkdirIn d k s = some (ret, s')) : mkdirBlocks s.vol m ≤ clearBlocks s.vol := by
  have hnear := hp.near
  obtain ⟨n, hn, hal, -, -⟩ := hp.ready.alloc
  simp only [mkdirIn, hal, hp.handle, hp.inode, hp.no, Option.bind_eq_bind, Option.bind_some] at h
  rw [Option.bind_eq_some_iff] at h
  obtain ⟨⟨r, v₁⟩, hnew, h⟩ := h
  obtain ⟨new, -, rfl, -⟩ := newDirectory_some hnew
  have hleft := newDirectory_clear hnew
  have hleft : clearBlocks v₁ + 1 = clearBlocks s.vol := hleft
  obtain ⟨hprep, -⟩ := prepared_directory (by omega) (by omega) hnew
  simp only [Option.bind_eq_some_iff] at h
  obtain ⟨e, -, ⟨ok, i', v₂⟩, hsync, -⟩ := h
  have hentry := syncDirEntry_blocks hsync
  rw [hp.entryBlocks hprep.spared] at hentry
  rw [mkdirBlocks]
  omega

theorem Parent.malloc (h : Parent s t d k a m i) : Parent (sysMalloc s).2 t d k a m i := by
  refine ⟨h.ready.malloc, h.dir, h.near, ?_, h.opened, h.inode, h.no, h.name, h.absent⟩
  rcases d with _ | _ | p <;> exact h.handle

/-- Only the descriptors of the task are new. -/
theorem pcbFdInstall_cur (j : ℕ) (s : Kernel part) :
    ∃ fd cur, pcbFdInstall j s = (fd, { s with cur := cur }) := by
  rw [pcbFdInstall]
  split
  · exact ⟨-1, s.cur, rfl⟩
  · exact ⟨_, _, rfl⟩

theorem fileCreateAt_ready (hp : Parent s t d k a m i) (hn : n < 256) (hfree : t n = none)
    (hclear : s.vol.inodeBit n = false) (hblocks : mkdirBlocks s.vol m ≤ clearBlocks s.vol)
    {j flag : ℕ} (hj : j < maxFilesOpen) (hslot : (s.fileTable j).fdInode = none) : ∃ fd s',
      fileCreateAt d k n s.next j (((s.withVol (s.vol.setInodeBit n true)).newInode
        (inodeInit n)).setFile j ⟨0, flag, some s.next⟩) = some (fd, s') ∧
      Plentiful s' ∧ OpenOn s' d m ∧ (fd = -1 ∨ Added s s' t m k .file) := by
  obtain ⟨x, hc⟩ := hp.ready.serves.counted
  have hne : a ≠ s.next := fun he => lt_irrefl _ (he ▸ hc.below a hp.opened)
  have hprep : Prepared s.vol n (inodeInit n) (s.vol.setInodeBit n true) := prepared_file (by omega)
  have hentry := hp.entryBlocks hprep.spared
  have hleft : clearBlocks (s.vol.setInodeBit n true) = clearBlocks s.vol := rfl
  rw [mkdirBlocks] at hblocks
  obtain ⟨ok, i', v₂, hsync⟩ := syncDirEntry_returns (hprep.spared.directory hp.directory)
    ⟨k, n, FileType.regular.code⟩ (by omega)
  have hno := (syncDirEntry_entered hsync).no
  have hlen : k.length ≤ 16 := hp.name.short.le
  have hat : ∀ u : Kernel part, u.dirs = s.dirs → u.rootInode = s.rootInode →
      dirInode u d = some a := by
    intro u hdirs hroot
    have hd := hp.handle
    rcases d with _ | _ | p
    · exact hd
    · exact (congrArg some hroot).trans hd
    · simpa [dirInode, hdirs] using hd
  have hdir := hat (((s.withVol (s.vol.setInodeBit n true)).newInode (inodeInit n)).setFile j
    ⟨0, flag, some s.next⟩) rfl rfl
  have hinode : (((s.withVol (s.vol.setInodeBit n true)).newInode (inodeInit n)).setFile j
      ⟨0, flag, some s.next⟩).inodes a = some i := (Function.update_of_ne hne _ _).trans hp.inode
  have hvol : (((s.withVol (s.vol.setInodeBit n true)).newInode (inodeInit n)).setFile j
      ⟨0, flag, some s.next⟩).vol = s.vol.setInodeBit n true := rfl
  simp only [fileCreateAt, createDirEntry, assert_pos hlen, hdir, hinode, hvol, hsync,
    Option.bind_eq_bind, Option.bind_some, Option.pure_def]
  cases ok with
  | false =>
    refine ⟨_, _, rfl, hp.ready.memory,
      ⟨a, i', hat _ rfl rfl, hp.opened, ?_, hno.trans hp.no⟩, .inl rfl⟩
    simp [Kernel.withVol, Kernel.freeInode, Kernel.setFile, Kernel.setInode, hne]
  | true =>
    obtain ⟨v₃, hsynced⟩ := syncNewInode_exists i' v₂
      (show (inodeInit n).iNo < 4096 from hn.trans (by decide))
    have hins : Insertion s.vol t m n k .file i (inodeInit n) i' (s.vol.setInodeBit n true) v₂ v₃ := by
      refine ⟨hp.ready.consistent, hp.dir, hp.near, hp.same, hp.name, hp.plain, hp.absent, hfree,
        hclear, hn, trivial, fun _ _ he => (by cases he), hprep, fun _ _ he => (by cases he),
        ?_, hsynced⟩
      rw [typeOf, insert_self]
      exact hsync
    have hserves := serves_createdFile hp hins flag hj hslot
    simp only [hsynced, Option.bind_some, Bool.true_eq_false, ↓reduceIte]
    obtain ⟨fd, cur, hinstall⟩ := pcbFdInstall_cur j (createdFile s a i' n j flag v₃)
    have hcreated := createdFile_eq hne i' n j flag (s.vol.setInodeBit n true) v₃
    refine ⟨fd, _, congrArg some ((congrArg (pcbFdInstall j) hcreated).trans hinstall),
      hp.ready.memory,
      ⟨a, i', hat _ rfl rfl, List.mem_cons_of_mem _ hp.opened, ?_, hno.trans hp.no⟩,
      .inr ⟨n, hclear, (hins.inodeBit₃ n).trans (if_pos rfl), hfree, hserves.withCur cur⟩⟩
    simp [createdFile, hne]

theorem fileCreate_ready (hp : Parent s t d k a m i)
    (hblocks : mkdirBlocks s.vol m ≤ clearBlocks s.vol) (flag : ℕ) : ∃ fd s',
    fileCreate d k flag s = some (fd, s') ∧ Plentiful s' ∧ OpenOn s' d m ∧
      (fd = -1 ∨ Added s s' t m k .file) := by
  have hp₂ := hp.malloc.malloc
  have h0 : (sysMalloc s).1 = true := hp.ready.memory 0
  have h1 : (sysMalloc (sysMalloc s).2).1 = true := hp.ready.memory 1
  obtain ⟨n, hn, hal, hclear, hfree⟩ := hp₂.ready.alloc
  have hal : inodeBitmapAlloc (sysMalloc s).2.vol =
      some (some n, (sysMalloc (sysMalloc s).2).2.vol.setInodeBit n true) := hal
  simp only [fileCreate, h0, h1, hal, Bool.true_eq_false, ↓reduceIte, Option.bind_eq_bind,
    Option.bind_some, Option.pure_def]
  cases hslot : getFreeSlotInGlobal (sysMalloc (sysMalloc s).2).2 with
  | none =>
    exact ⟨_, _, rfl, hp₂.ready.memory, ⟨a, i, hp₂.handle, hp₂.opened, hp₂.inode, hp₂.no⟩, .inl rfl⟩
  | some j =>
    obtain ⟨hj, hempty⟩ := getFreeSlotInGlobal_some hslot
    exact fileCreateAt_ready hp₂ hn hfree hclear hblocks hj hempty

end Parent

section Calls

variable {pathname : List Byte} {N : Node ℕ (List Byte)}

/-- A later search finds the new object. -/
theorem Added.found {s' : Kernel part} (h : Added s s' t m k N) (hm : Plentiful s')
    (hp : PathOk pathname) (hs : Splits t pathname pre k m) (hplain : k ≠ dot ∧ k ≠ dotdot)
    (habsent : t.child dots m k = none) :
    ∃ n, s.vol.inodeBit n = false ∧ s'.vol.inodeBit n = true ∧ ∀ junk, ∃ record u,
      searchFile junk pathname zeroRecord s' = some (some n, record, u) := by
  obtain ⟨n, hclear, hset, hfree, hserves⟩ := h
  have hpre := walk_insert (w := dots) (N := N) hs.dir hfree hplain habsent hs.reached
  have hwalk : (t.insert m k n N).walk dots 0 (components pathname) = some n := by
    rw [hs.split, walk_last, hpre, Option.bind_some,
      insert_child hs.dir hplain (ne_of_isDir hfree hs.dir), if_pos ⟨rfl, rfl⟩]
  refine ⟨n, hclear, hset, fun junk => ?_⟩
  obtain ⟨r, record, u, hrun, -, hr, -⟩ :=
    search_file_walks hserves hm junk hp (noFileBefore_of_walk hwalk)
  rw [hwalk] at hr
  exact ⟨record, u, hr ▸ hrun⟩

theorem Splits.mem (hs : Splits t pathname pre k m) : k ∈ components pathname := by
  rw [hs.split]
  exact List.mem_append_right _ (List.mem_singleton_self k)

theorem Splits.name (hs : Splits t pathname pre k m) (hp : PathOk pathname) : ValidName k := by
  have hk := hs.mem
  exact ⟨(components_valid k hk).1, Nat.lt_succ_of_le (hp.names k hk),
    fun hz => hp.string (components_mem k hk 0 hz)⟩

/-- A search that has not found the name has the handle on its directory. -/
theorem Searched.absent {record : PathSearchRecord} (h : Searched s t pre k m none record)
    (hs : Splits t pathname pre k m) (hp : PathOk pathname) (hnear : m < 256) :
    ∃ a i, Parent s t record.parentDir k a m i := by
  obtain ⟨a, i, ha, hin, hi, hno⟩ := h.parent rfl
  exact ⟨a, i, h.ready, hs.dir, hnear, ha, hin, hi, hno, hs.name hp, h.result.symm⟩

/-- The two depths that are compared are those of the path. -/
theorem Splits.depth (hs : Splits t pathname pre k m) (hp : PathOk pathname) (junk : Byte) :
    pathDepthCnt junk pathname = some (components pathname).length ∧
      pathDepthCnt junk (joinPath (pre ++ [k])) = some (components pathname).length := by
  have hlen : ∀ c ∈ components pathname, c.length ≤ 16 := fun c hc => (hp.names c hc).trans (by omega)
  have hjoin : components (joinPath (pre ++ [k])) = components pathname := by
    rw [← hs.split]
    exact components_joinPath components_valid
  refine ⟨pathDepthCnt_eq hp.nonempty hlen, ?_⟩
  rw [pathDepthCnt_eq (by rw [hjoin]; exact hp.nonempty) (by rw [hjoin]; exact hlen), hjoin]

/-- The call returns: with `-1`, or with a new object that a later search on the path finds. -/
def FailsOrCreates (call : Kernel part → Option (ℤ × Kernel part)) (pathname : List Byte)
    (s : Kernel part) : Prop :=
  ∃ ret s', call s = some (ret, s') ∧ (ret = -1 ∨ ∃ n, s.vol.inodeBit n = false ∧
    s'.vol.inodeBit n = true ∧ ∀ junk, ∃ record u,
      searchFile junk pathname zeroRecord s' = some (some n, record, u))

/-- With the handle on the parent given back the object is still there. -/
theorem Added.closed {u : Kernel part} (h : Added s s' t m k N) (hv : u.vol = s'.vol)
    (hserves : ∀ T : FileTree, Serves s' T → Serves u T) : Added s u t m k N := by
  obtain ⟨n, hclear, hset, hfree, hT⟩ := h
  exact ⟨n, hclear, hv ▸ hset, hfree, hserves _ hT⟩

theorem sysMkdir_ready (h : Ready s t) (hp : PathOk pathname) (hs : Splits t pathname pre k m)
    (hnear : m < 256)
    (hblocks : t.child dots m k = none → mkdirBlocks s.vol m ≤ clearBlocks s.vol) (junk : Junk) :
    FailsOrCreates (sysMkdir junk pathname) pathname s := by
  have h0 : (sysMalloc s).1 = true := h.memory 0
  obtain ⟨r, record, s₁, hrun, hvol, hfound⟩ := search_ready h.malloc hp hs junk
  simp only [FailsOrCreates, sysMkdir, h0, hrun, Bool.true_eq_false, ↓reduceIte,
    Option.bind_eq_bind, Option.bind_some, Option.pure_def]
  cases r with
  | some c =>
    obtain ⟨n, ho⟩ := hfound.handle
    obtain ⟨s₂, hcl, -⟩ := dirClose_added ho hfound.ready.memory
    simp only [hcl, Option.bind_some]
    exact ⟨-1, s₂, rfl, .inl rfl⟩
  | none =>
    obtain ⟨a, i, hpar⟩ := hfound.absent hs hp hnear
    have hpath := hfound.path (by rw [hfound.type rfl]; decide)
    obtain ⟨ret, s₂, hmk, hm₂, hret⟩ := mkdirIn_ready hpar (hvol ▸ hblocks hpar.absent)
    have hlast : afterLastSlash record.searchedPath = some k := by
      rw [hpath, joinPath_append]
      exact afterLastSlash_append (components_valid k hs.mem).2 _
    simp only [(hs.depth hp junk.name).1, hpath, (hs.depth hp junk.name').2, Option.bind_some,
      ne_eq, not_true_eq_false, ↓reduceIte]
    rw [← hpath, hlast, Option.bind_some, hmk]
    refine ⟨ret, s₂, rfl, hret.imp_right fun hadd => ?_⟩
    obtain ⟨n, hclear, hset, hsearch⟩ := hadd.found hm₂ hp hs hpar.plain hpar.absent
    exact ⟨n, hvol ▸ hclear, hset, hsearch⟩

theorem sysOpen_ready (h : Ready s t) (hp : PathOk pathname) (hs : Splits t pathname pre k m)
    (hnear : m < 256)
    (hblocks : t.child dots m k = none → mkdirBlocks s.vol m ≤ clearBlocks s.vol) (junk : Junk)
    {flags : ℕ} (hflags : flags ≤ 7 ∨ pathname.getLast? = some slash)
    (hcreate : creates flags = true) : FailsOrCreates (sysOpen junk pathname flags) pathname s := by
  have hne : pathname ≠ [] := fun he => hp.nonempty (he ▸ components_nil)
  obtain ⟨last, hlast⟩ := Option.isSome_iff_exists.mp (List.getLast?_isSome.mpr hne)
  simp only [FailsOrCreates, sysOpen, hlast, Option.bind_eq_bind, Option.bind_some,
    Option.pure_def]
  by_cases hslash : last = slash
  · rw [if_pos hslash]
    exact ⟨-1, s, rfl, .inl rfl⟩
  have hflags : flags ≤ 7 :=
    hflags.resolve_right fun he => hslash (Option.some.inj (hlast.symm.trans he))
  obtain ⟨r, record, s₁, hrun, hvol, hfound⟩ := search_ready h hp hs junk
  obtain ⟨n, ho⟩ := hfound.handle
  obtain ⟨s₂, hcl, -⟩ := dirClose_added ho hfound.ready.memory
  simp only [if_neg hslash, assert_pos hflags, (hs.depth hp junk.name).1, hrun, Option.bind_some,
    openFound, Option.bind_eq_bind, Option.pure_def]
  by_cases htype : record.fileType = .directory
  · simp only [if_pos htype, hcl, Option.bind_some]
    exact ⟨-1, s₂, rfl, .inl rfl⟩
  have hpath := hfound.path htype
  simp only [if_neg htype, hpath, (hs.depth hp junk.name').2, Option.bind_some, ne_eq,
    not_true_eq_false, ↓reduceIte, hcreate]
  cases r with
  | some c =>
    simp only [hcl, Option.bind_some]
    exact ⟨-1, s₂, rfl, .inl rfl⟩
  | none =>
    obtain ⟨a, i, hpar⟩ := hfound.absent hs hp hnear
    obtain ⟨fd, s₃, hcr, hm₃, ho₃, hret⟩ :=
      fileCreate_ready hpar (hvol ▸ hblocks hpar.absent) flags
    obtain ⟨s₄, hcl₄, hm₄, hvol₄, hserves⟩ := dirClose_added ho₃ hm₃
    have hin : slash ∈ pathname := List.mem_of_head? hp.absolute
    obtain ⟨pre', c, hsplit, hafter⟩ := afterLastSlash_last hin (by
      rw [hlast]
      exact fun he => hslash (Option.some.inj he))
    obtain rfl : c = k := by
      rw [hs.split] at hsplit
      obtain ⟨-, hk⟩ := List.append_inj' hsplit rfl
      exact (List.cons.inj hk).1.symm
    simp only [hafter, hcr, hcl₄, Option.bind_some]
    refine ⟨fd, s₄, rfl, hret.imp_right fun hadd => ?_⟩
    obtain ⟨n, hclear, hset, hsearch⟩ :=
      (hadd.closed hvol₄ hserves).found hm₄ hp hs hpar.plain hpar.absent
    exact ⟨n, hvol ▸ hclear, hset, hsearch⟩

/-- Names that lead somewhere stand in an entry. -/
theorem walk_validName {v : Volume part} (h : OnDiskTree v t) {l : List (List Byte)} {c x : ℕ}
    (hw : t.walk dots c l = some x) : ∀ name ∈ l, ValidName name := by
  induction l generalizing c with
  | nil =>
    intro name hname
    cases hname
  | cons name' l ih =>
    rw [Tree.walk, Option.bind_eq_some_iff] at hw
    obtain ⟨y, hy, hw⟩ := hw
    intro name hname
    rcases List.mem_cons.mp hname with rfl | hname
    · exact child_valid h hy
    · exact ih hw name hname

/-- `sys_mkdir` does not return from a last name that fills its buffer. -/
theorem mkdir_short (h : Ready s t) (hs : Splits t pathname pre k m) {junk : Junk} {ret : ℤ}
    (hrun : sysMkdir junk pathname s = some (ret, s')) : k.length ≤ 15 := by
  by_cases hroot : pathname = rootPath ∨ pathname = rootDotPath ∨ pathname = rootDotdotPath
  · have hmem := hs.mem
    rcases hroot with rfl | rfl | rfl
    · rw [show components rootPath = [] from (components_slash []).trans components_nil] at hmem
      cases hmem
    · rw [components_rootDotPath, List.mem_singleton] at hmem
      subst hmem
      decide
    · rw [components_rootDotdotPath, List.mem_singleton] at hmem
      subst hmem
      decide
  have h0 : (sysMalloc s).1 = true := h.memory 0
  simp only [sysMkdir, h0, Bool.true_eq_false, ↓reduceIte, bind_some_iff] at hrun
  obtain ⟨⟨r, record, s₁⟩, hsearch, -⟩ := hrun
  exact searchFile_short h.serves.malloc h.memory.malloc hroot hs.split hs.reached hs.dir hsearch

/-- `sys_mkdir` does not return when it does not find the blocks of the new directory. -/
theorem mkdir_blocks (h : Ready s t) (hp : PathOk pathname) (hs : Splits t pathname pre k m)
    (hnear : m < 256) (habsent : t.child dots m k = none) {junk : Junk} {ret : ℤ}
    (hrun : sysMkdir junk pathname s = some (ret, s')) :
    mkdirBlocks s.vol m ≤ clearBlocks s.vol := by
  have h0 : (sysMalloc s).1 = true := h.memory 0
  obtain ⟨r, record, s₁, hsearch, hvol, hfound⟩ := search_ready h.malloc hp hs junk
  have hvol : s₁.vol = s.vol := hvol
  obtain rfl : r = none := hfound.result.trans habsent
  obtain ⟨a, i, hpar⟩ := hfound.absent hs hp hnear
  have hpath := hfound.path (by rw [hfound.type rfl]; decide)
  have hlast : afterLastSlash record.searchedPath = some k := by
    rw [hpath, joinPath_append]
    exact afterLastSlash_append (components_valid k hs.mem).2 _
  simp only [sysMkdir, h0, hsearch, hlast, (hs.depth hp junk.name).1, Bool.true_eq_false,
    ↓reduceIte, Option.bind_eq_bind, Option.bind_some] at hrun
  simp only [hpath, (hs.depth hp junk.name').2, Option.bind_some, ne_eq, not_true_eq_false,
    ↓reduceIte] at hrun
  rw [← hvol]
  exact mkdirIn_blocks hpar hrun

/-! ### The strings that are stored -/

/-- What `path_parse` puts into the buffer of a loop over a path: one component after the other, and
nothing behind the last. -/
def parsedNames (name : List Byte) (p : Option (List Byte)) : List (List Byte) :=
  if name = [] then [[]] else name :: parsedNames (nextName p).1 (nextName p).2
  termination_by pathLeft name p
  decreasing_by exact nextName_left ‹_›

/-- The stores of `path_depth_cnt`. -/
def depthStores (pathname : List Byte) : List (List Byte) :=
  parsedNames (pathParse pathname).1 (pathParse pathname).2

/-- The stores of the loop of `search_file` behind the first one. -/
def searchStores (name : List Byte) (subPath : Option (List Byte)) (parentDir : Option DirPtr)
    (s : Kernel part) : List (List Byte) :=
  if name = [] then []
  else
    match searchDirEntryIn parentDir name s with
    | some (some dirE, s) =>
      (nextName subPath).1 :: if dirE.fType = FileType.directory.code then
        match (do
          let s ← dirClose parentDir s
          dirOpen dirE.iNo s : Option (Option DirPtr × Kernel part)) with
        | some (d, s) => searchStores (nextName subPath).1 (nextName subPath).2 d s
        | none => []
      else if dirE.fType = FileType.regular.code then []
      else searchStores (nextName subPath).1 (nextName subPath).2 parentDir s
    | _ => []
  termination_by pathLeft name subPath
  decreasing_by
    · exact nextName_left ‹_›
    · exact nextName_left ‹_›

def searchFileStores (pathname : List Byte) (s : Kernel part) : List (List Byte) :=
  if pathname = rootPath ∨ pathname = rootDotPath ∨ pathname = rootDotdotPath then []
  else (pathParse pathname).1 ::
    searchStores (pathParse pathname).1 (pathParse pathname).2 (some .root) s

/-- The stores of `sys_open` with `O_CREAT`; the last of them is what `create_dir_entry` is given. -/
def openStores (junk : Junk) (pathname : List Byte) (s : Kernel part) : List (List Byte) :=
  if pathname.getLast? = some slash then []
  else depthStores pathname ++ searchFileStores pathname s ++
    match searchFile junk pathname zeroRecord s with
    | some (r, record, _) =>
      if record.fileType = .directory then []
      else depthStores record.searchedPath ++
        if r = none then (afterLastSlash pathname).toList else []
    | none => []

def mkdirStores (junk : Junk) (pathname : List Byte) (s : Kernel part) : List (List Byte) :=
  searchFileStores pathname (sysMalloc s).2 ++
    match searchFile junk pathname zeroRecord (sysMalloc s).2 with
    | some (none, record, _) => depthStores pathname ++ depthStores record.searchedPath ++
        (afterLastSlash record.searchedPath).toList
    | _ => []

theorem parsedNames_mem (name : List Byte) (p : Option (List Byte)) :
    ∀ c ∈ parsedNames name p, c = [] ∨ c ∈ namesFrom name p := by
  induction name, p using parsedNames.induct with
  | case1 p =>
    intro c hc
    rw [parsedNames, if_pos rfl, List.mem_singleton] at hc
    exact Or.inl hc
  | case2 name p hne ih =>
    intro c hc
    rw [parsedNames, if_neg hne] at hc
    rw [namesFrom, if_neg hne]
    rcases List.mem_cons.mp hc with rfl | hc
    · exact Or.inr List.mem_cons_self
    · exact (ih c hc).imp_right (List.mem_cons_of_mem _)

theorem depthStores_mem {c : List Byte} (hc : c ∈ depthStores pathname) :
    c = [] ∨ c ∈ components pathname := parsedNames_mem _ _ c hc

private theorem head_mem (name : List Byte) (p : Option (List Byte)) :
    name = [] ∨ name ∈ namesFrom name p := by
  by_cases hne : name = []
  · exact Or.inl hne
  · rw [namesFrom, if_neg hne]
    exact Or.inr List.mem_cons_self

theorem searchStores_mem (name : List Byte) (subPath : Option (List Byte))
    (parentDir : Option DirPtr) (s : Kernel part) :
    ∀ c ∈ searchStores name subPath parentDir s, c = [] ∨ c ∈ namesFrom name subPath := by
  induction name, subPath, parentDir, s using searchStores.induct with
  | case1 subPath parentDir s =>
    intro c hc
    rw [searchStores, if_pos rfl] at hc
    cases hc
  | case2 name subPath parentDir s hne dirE s₁ hfound ihDir ih =>
    intro c hc
    have hlater : c ∈ namesFrom (nextName subPath).1 (nextName subPath).2 →
        c ∈ namesFrom name subPath := by
      rw [namesFrom.eq_def name, if_neg hne]
      exact List.mem_cons_of_mem _
    rw [searchStores, if_neg hne, hfound] at hc
    apply Or.imp_right hlater
    rcases List.mem_cons.mp hc with rfl | hc
    · exact head_mem _ _
    · -- the search goes on in the directory that was found, or not at all
      split_ifs at hc
      · split at hc
        · exact ihDir _ _ c hc
        · cases hc
      · cases hc
      · exact ih c hc
  | case3 name subPath parentDir s hne hnone =>
    intro c hc
    rw [searchStores, if_neg hne] at hc
    split at hc
    · exact (hnone _ _ ‹_›).elim
    · cases hc

theorem searchFileStores_mem {c : List Byte} (hc : c ∈ searchFileStores pathname s) :
    c = [] ∨ c ∈ components pathname := by
  rw [searchFileStores] at hc
  split_ifs at hc with hroot
  · cases hc
  · rcases List.mem_cons.mp hc with rfl | hc
    · exact head_mem _ _
    · exact searchStores_mem _ _ _ _ c hc

/-- The path that a search has gone along is made of components of the path. -/
theorem Splits.searched_mem (hs : Splits t pathname pre k m) {c : List Byte}
    (hc : c ∈ depthStores (joinPath (pre ++ [k]))) : c = [] ∨ c ∈ components pathname := by
  have hjoin : components (joinPath (pre ++ [k])) = components pathname := by
    rw [← hs.split]
    exact components_joinPath components_valid
  rw [← hjoin]
  exact depthStores_mem hc

theorem openStores_mem (h : Ready s t) (hp : PathOk pathname) (hs : Splits t pathname pre k m)
    (junk : Junk) {c : List Byte} (hc : c ∈ openStores junk pathname s) :
    c = [] ∨ c ∈ components pathname := by
  obtain ⟨r, record, s₁, hrun, -, hfound⟩ := search_ready h hp hs junk
  rw [openStores] at hc
  split_ifs at hc with hslash
  · cases hc
  simp only [hrun] at hc
  rw [List.mem_append, List.mem_append] at hc
  rcases hc with (hc | hc) | hc
  · exact depthStores_mem hc
  · exact searchFileStores_mem hc
  · split_ifs at hc with htype habsent
    · cases hc
    · rw [hfound.path htype] at hc
      rcases List.mem_append.mp hc with hc | hc
      · exact hs.searched_mem hc
      · -- the name that the entry is made of is the last component
        have hne : pathname ≠ [] := fun he => hp.nonempty (he ▸ components_nil)
        obtain ⟨pre', c', hsplit, hafter⟩ :=
          afterLastSlash_last (List.mem_of_head? hp.absolute) hslash
        rw [hafter, Option.toList_some, List.mem_singleton] at hc
        exact Or.inr (hc ▸ hsplit ▸ List.mem_append_right _ (List.mem_singleton_self _))
    · rw [hfound.path htype, List.append_nil] at hc
      exact hs.searched_mem hc

theorem mkdirStores_mem (h : Ready s t) (hp : PathOk pathname) (hs : Splits t pathname pre k m)
    (junk : Junk) {c : List Byte} (hc : c ∈ mkdirStores junk pathname s) :
    c = [] ∨ c ∈ components pathname := by
  obtain ⟨r, record, s₁, hrun, -, hfound⟩ := search_ready h.malloc hp hs junk
  rw [mkdirStores, hrun] at hc
  rcases List.mem_append.mp hc with hc | hc
  · exact searchFileStores_mem hc
  · cases r with
    | some r => cases hc
    | none =>
      have hpath := hfound.path (by rw [hfound.type rfl]; decide)
      simp only [hpath] at hc
      rw [List.mem_append, List.mem_append] at hc
      rcases hc with (hc | hc) | hc
      · exact depthStores_mem hc
      · exact hs.searched_mem hc
      · rw [joinPath_append, joinPath, afterLastSlash_append (components_valid k hs.mem).2,
          Option.toList_some, List.mem_singleton] at hc
        exact Or.inr (hc ▸ hs.mem)

/-- Both calls fail or create an object that is found, and every name that they store has its end
within the 16 bytes of its buffer. -/
structure Creates (junk : Junk) (pathname : List Byte) (flags : ℕ) (s : Kernel part) : Prop where
  opens : FailsOrCreates (sysOpen junk pathname flags) pathname s
  makes : FailsOrCreates (sysMkdir junk pathname) pathname s
  names : ∀ c ∈ openStores junk pathname s ++ mkdirStores junk pathname s, c.length ≤ 15

/-- `sys_open` asserts the flags before it searches, and behind a last slash it does neither. -/
theorem open_flags {flags : ℕ} {junk : Junk} {ret : ℤ}
    (hrun : sysOpen junk pathname flags s = some (ret, s')) :
    flags ≤ 7 ∨ pathname.getLast? = some slash := by
  simp only [sysOpen, bind_some_iff] at hrun
  obtain ⟨last, hlast, hrun⟩ := hrun
  split_ifs at hrun with hslash
  · exact Or.inr (hlast.trans (congrArg some hslash))
  · simp only [bind_some_iff] at hrun
    obtain ⟨_, hflags, -⟩ := hrun
    exact Or.inl (assert_eq_some.mp hflags)

/-- With memory and an inode number, the calls do so exactly when the last name leaves room for its
end, the flags pass the check, and a name that is not there finds the blocks it takes. -/
theorem creates_iff (h : Ready s t) (habs : pathname.head? = some slash)
    (hz : (0 : Byte) ∉ pathname) (hlen : pathname.length < maxPathLen)
    (hs : Splits t pathname pre k m) (hnear : m < 256) (junk : Junk) {flags : ℕ}
    (hcreate : creates flags = true) : Creates junk pathname flags s ↔
      k.length ≤ 15 ∧ (flags ≤ 7 ∨ pathname.getLast? = some slash) ∧
        (t.child dots m k = none → mkdirBlocks s.vol m ≤ clearBlocks s.vol) := by
  -- with a short last name all names are short
  have hpath : k.length ≤ 15 → PathOk pathname := by
    intro hk
    refine ⟨habs, hz, hlen, List.ne_nil_of_mem hs.mem, fun c hc => ?_⟩
    rw [hs.split, List.mem_append, List.mem_singleton] at hc
    rcases hc with hc | rfl
    · exact Nat.le_of_lt_succ (walk_validName h.serves.disk hs.reached c hc).short
    · exact hk
  constructor
  · intro hc
    obtain ⟨ret, s', hmkdir, -⟩ := hc.makes
    obtain ⟨fd, s'', hopen, -⟩ := hc.opens
    have hk := mkdir_short h hs hmkdir
    exact ⟨hk, open_flags hopen,
      fun habsent => mkdir_blocks h (hpath hk) hs hnear habsent hmkdir⟩
  · rintro ⟨hk, hflags, hblocks⟩
    have hp := hpath hk
    refine ⟨sysOpen_ready h hp hs hnear hblocks junk hflags hcreate,
      sysMkdir_ready h hp hs hnear hblocks junk, fun c hc => ?_⟩
    have hmem : c = [] ∨ c ∈ components pathname := by
      rcases List.mem_append.mp hc with hc | hc
      · exact openStores_mem h hp hs junk hc
      · exact mkdirStores_mem h hp hs junk hc
    rcases hmem with rfl | hmem
    · exact Nat.zero_le _
    · exact hp.names c hmem

end Calls

theorem fileVolume_freeBlocks : 3 ≤ freeBlocks fileVolume := by
  have hsub : ({1, 2, 3} : Finset ℕ) ⊆ (Finset.range (8 * 512)).filter fun i =>
      fileVolume.blockBit i = false ∧ 613 + i < 1 + 1000 := by
    intro i hi
    simp only [Finset.mem_insert, Finset.mem_singleton] at hi
    rcases hi with rfl | rfl | rfl <;> decide +kernel
  exact Finset.card_le_card hsub

/-- A file system that has just been mounted is ready, if its disk is. -/
theorem booted_ready {v : Volume part} (h : Booted v s) (hc : Consistent v t) (hm : Plentiful s)
    (hnumber : ∃ n < 256, v.inodeBit n = false) : Ready s t := by
  have hno : (diskInode part v.disk 0).iNo = 0 := hc.tree.number 0 hc.tree.root
  have hroot : t 0 ≠ none := by
    obtain ⟨p, E, h0⟩ := hc.tree.root
    simp [h0]
  have hopen : ∀ a ∈ s.openInodes, a = 0 ∧ ∀ i, s.inodes a = some i → i.iNo = 0 := by
    intro a ha
    rw [h.openInodes, List.mem_singleton] at ha
    refine ⟨ha, fun i hi => ?_⟩
    rw [ha, h.inode] at hi
    exact Option.some.inj hi ▸ hno
  refine ⟨booted_serves h hc.tree, h.vol ▸ hc, ⟨fun a ha i hi => ?_, fun a ha b hb _ _ _ _ _ => ?_⟩,
    hm, h.vol ▸ hnumber⟩
  · rw [(hopen a ha).2 i hi]
    exact hroot
  · exact (hopen a ha).1.trans (hopen b hb).1.symm

theorem fileVolume_ready : ∃ s : Kernel smallPartition, s.vol = fileVolume ∧ Ready s fileTree := by
  obtain ⟨s, hs, hmem⟩ := openRootDir_mounted fileVolume (m := fun _ => true) rfl rfl
  have hbooted := openRootDir_some hs
  exact ⟨s, hbooted.vol, booted_ready hbooted fileVolume_consistent (fun k => by rw [hmem])
    ⟨2, by decide, by decide +kernel⟩⟩

theorem fileVolume_blocks (m : ℕ) : mkdirBlocks fileVolume m ≤ clearBlocks fileVolume := by
  have hentry := entryBlocks_le fileVolume.disk (diskInode smallPartition fileVolume.disk m)
  have hfree := fileVolume_freeBlocks.trans (freeBlocks_le fileVolume)
  rw [mkdirBlocks]
  omega

/-- The path `/d`, and one whose last name has 16 characters. -/
def freshPath : List Byte := slash :: nestedName

def filledPath : List Byte := slash :: List.replicate 16 0x61

theorem splits_top {name : List Byte} (hne : name ≠ []) (hslash : slash ∉ name) :
    Splits fileTree (slash :: name) [] name 0 := by
  refine ⟨?_, rfl, ⟨_, _, rfl⟩⟩
  rw [components_slash, components_last hslash hne]
  rfl

theorem creates_iff_fresh : ∃ s : Kernel smallPartition, Ready s fileTree ∧
    Creates noJunk freshPath 4 s ∧ ¬Creates noJunk freshPath 12 s := by
  obtain ⟨s, hvol, h⟩ := fileVolume_ready
  have hs : Splits fileTree freshPath [] nestedName 0 := splits_top (by decide) (by decide)
  refine ⟨s, h, (creates_iff h rfl (by decide) (by decide) hs (by decide) noJunk rfl).mpr
    ⟨by decide, Or.inl (by decide), fun _ => hvol ▸ fileVolume_blocks 0⟩, fun hc => ?_⟩
  obtain ⟨-, hflags, -⟩ :=
    (creates_iff h rfl (by decide) (by decide) hs (by decide) noJunk rfl).mp hc
  exact absurd hflags (by decide)

/-- `sys_mkdir` halts on a name of 16 characters. -/
theorem filled_name_halts : ∃ s : Kernel smallPartition, Ready s fileTree ∧
    filledPath.head? = some slash ∧ (0 : Byte) ∉ filledPath ∧ filledPath.length < maxPathLen ∧
    Splits fileTree filledPath [] (List.replicate 16 0x61) 0 ∧
    sysMkdir noJunk filledPath s = none ∧ ¬Creates noJunk filledPath 4 s := by
  obtain ⟨s, -, h⟩ := fileVolume_ready
  have hs : Splits fileTree filledPath [] (List.replicate 16 0x61) 0 :=
    splits_top (by decide) (by decide)
  have hhalt : sysMkdir noJunk filledPath s = none := by
    refine Option.eq_none_iff_forall_ne_some.mpr fun r hrun => ?_
    exact absurd (mkdir_short h hs hrun) (by decide)
  refine ⟨s, h, rfl, by decide, by decide, hs, hhalt, fun hc => ?_⟩
  obtain ⟨ret, s', hrun, -⟩ := hc.makes
  rw [hhalt] at hrun
  cases hrun

end FsCreation
