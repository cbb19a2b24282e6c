import XianweiOS.FsImage
import XianweiOS.FsSearch
import XianweiOS.FsKernelFrame
import XianweiOS.FsLookupFrame

/-! The kernel over the image of a tree: every open inode is an object, open once and as the disk has
it, and the file table holds files. Opening and closing keeps it so, and so does a step that takes
the volume to the next image. -/
namespace FsIntact

open ByteStore HaltingProgram KernelBitmap DeviceIde FsVolume FsInodeTable FsBlockMap FsOwnership
  FsDirectory FsPath FsOpenFiles FsSyscalls HolderCount FsReferenceCounts FsReferenceRuns
  FsKernelFrame PathTree FsTree FsSearch FsTreeRemove FsImage

variable {part : Partition} {S : Prop} {s s' s₁ s₂ : Kernel part} {t t' : FileTree} {x y : ℕ → ℕ}
  {d : Option DirPtr} {n m a k : ℕ}

structure Intact (S : Prop) (s : Kernel part) (t : FileTree) (x : ℕ → ℕ) : Prop where
  image : Image S s.vol t
  counted : Counted s x
  root : ∃ i, s.inodes s.rootInode = some i ∧ i.iNo = 0
  cached : ∀ a ∈ s.openInodes, ∀ i, s.inodes a = some i →
    t i.iNo ≠ none ∧ i.Same (diskInode part s.vol.disk i.iNo)
  single : ∀ a ∈ s.openInodes, ∀ b ∈ s.openInodes, ∀ i j, s.inodes a = some i →
    s.inodes b = some j → i.iNo = j.iNo → a = b
  files : ∀ k < maxFilesOpen, ∀ a i, (s.fileTable k).fdInode = some a → s.inodes a = some i →
    t i.iNo = some .file
  pipes : NoPipes s

theorem Intact.serves (h : Intact S s t x) : Serves s t :=
  ⟨h.image.consistent.tree, ⟨x, h.counted⟩, h.root, fun a ha i hi _ => (h.cached a ha i hi).2⟩

/-- Every open inode was open before, and what a slot of the file table refers to. -/
theorem Intact.keepFiles (h : Intact S s t x) (hc : Counted s' y) (hv : s'.vol = s.vol)
    (hr : s'.rootInode = s.rootInode) (hp : NoPipes s')
    (hft : ∀ k < maxFilesOpen, ∀ a, (s'.fileTable k).fdInode = some a →
      (s.fileTable k).fdInode = some a)
    (hopen : ∀ b ∈ s'.openInodes, ∀ j, s'.inodes b = some j →
      ∃ i, s.inodes b = some i ∧ b ∈ s.openInodes ∧ j.Same i) : Intact S s' t y := by
  have hserves := h.serves.step hc hv hr fun b hb j hj => .inl (hopen b hb j hj)
  refine ⟨hv ▸ h.image, hc, hserves.root, fun b hb j hj => ?_, fun b hb c hc i j hi hj he => ?_,
    fun k hk b j hf hj => ?_, hp⟩
  · obtain ⟨i, hi, hbs, hsame⟩ := hopen b hb j hj
    rw [hsame.no, hv]
    have hold := h.cached b hbs i hi
    exact ⟨hold.1, hsame.trans hold.2⟩
  · obtain ⟨i₀, hi₀, hbs, hsi⟩ := hopen b hb i hi
    obtain ⟨j₀, hj₀, hcs, hsj⟩ := hopen c hc j hj
    exact h.single b hbs c hcs i₀ j₀ hi₀ hj₀ ((hsi.no.symm.trans he).trans hsj.no)
  · have hb : b ∈ s'.openInodes := hc.fileInode_open hk hf
    obtain ⟨i, hi, -, hsame⟩ := hopen b hb j hj
    rw [hsame.no]
    exact h.files k hk b i (hft k hk b hf) hi

theorem Intact.keep (h : Intact S s t x) (hc : Counted s' y) (hv : s'.vol = s.vol)
    (hr : s'.rootInode = s.rootInode) (hft : s'.fileTable = s.fileTable)
    (hopen : ∀ b ∈ s'.openInodes, ∀ j, s'.inodes b = some j →
      ∃ i, s.inodes b = some i ∧ b ∈ s.openInodes ∧ j.Same i) : Intact S s' t y :=
  h.keepFiles hc hv hr (fun k => hft ▸ h.pipes k) (fun _ _ _ ha => hft ▸ ha) hopen

theorem Intact.malloc (h : Intact S s t x) : Intact S (sysMalloc s).2 t x :=
  h.keep h.counted.malloc rfl rfl rfl fun _ hb j hj => ⟨j, hj, hb, Inode.Same.refl j⟩

theorem Intact.withCur (h : Intact S s t x) (cur : Task) : Intact S { s with cur := cur } t x :=
  h.keep (h.counted.withCur cur) rfl rfl rfl fun _ hb j hj => ⟨j, hj, hb, Inode.Same.refl j⟩

theorem Intact.withMallocs (h : Intact S s t x) (m : ℕ → Bool) :
    Intact S { s with mallocs := m } t x := by
  refine h.keep ?_ rfl rfl rfl fun b hb j hj => ⟨j, hj, hb, Inode.Same.refl j⟩
  exact h.counted.of_same rfl (fun _ => rfl) (fun a _ i hi => ⟨i, hi, rfl⟩) le_rfl h.counted.fresh

/-- An open inode changes but for what the disk has of it. -/
theorem Intact.setInode (h : Intact S s t x) {i i' : Inode} (hi : s.inodes a = some i)
    (hs : i'.Same i) (hc : i'.openCnts = i.openCnts) : Intact S (s.setInode a i') t x := by
  refine h.keep (h.counted.setInode hi hc) rfl rfl rfl fun b hb j hj => ?_
  by_cases hba : b = a
  · subst b
    rw [Kernel.setInode_self] at hj
    obtain rfl := Option.some.inj hj
    exact ⟨i, hi, hb, hs⟩
  · rw [s.setInode_ne _ hba] at hj
    exact ⟨j, hj, hb, Inode.Same.refl j⟩

/-- An open inode gets one more reference. -/
theorem Intact.count (h : Intact S s t x) (ha : a ∈ s.openInodes) {i : Inode}
    (hi : s.inodes a = some i) :
    Intact S (s.setInode a { i with openCnts := i.openCnts + 1 }) t (bump x a) := by
  refine h.keep (h.counted.count ha hi) rfl rfl rfl fun b hb j hj => ?_
  by_cases hba : b = a
  · subst b
    obtain rfl := Option.some.inj ((s.setInode_self a _).symm.trans hj)
    exact ⟨i, hi, ha, rfl, rfl, fun _ _ => rfl⟩
  · rw [s.setInode_ne _ hba] at hj
    exact ⟨j, hj, hb, Inode.Same.refl j⟩

/-- An inode is opened for an object of the tree. -/
theorem inodeOpen_intact (h : Intact S s t x) (hn : t n ≠ none)
    (ho : inodeOpen n s = some (a, s')) :
    Intact S s' t (bump x a) ∧ a ∈ s'.openInodes ∧ ∃ i, s'.inodes a = some i ∧ i.iNo = n := by
  obtain ⟨hc, hsame, -⟩ := inodeOpen_counted ho h.counted
  rcases inodeOpen_some ho with ⟨ha, i, hi, hno, rfl⟩ | ⟨hall, -, rfl, m, rfl⟩
  · exact ⟨h.count ha hi, ha, _, s.setInode_self a _, hno⟩
  · have hno : (diskInode part s.vol.disk n).iNo = n :=
      h.image.consistent.owned.number n (h.image.allocated.mpr hn)
    -- the inode that is read is not open yet
    have hopen : ∀ b ∈ s.next :: s.openInodes, ∀ j, Function.update s.inodes s.next
        (some { diskInode part s.vol.disk n with openCnts := 1 }) b = some j →
        (b = s.next ∧ j.Same (diskInode part s.vol.disk n)) ∨
        (b ∈ s.openInodes ∧ s.inodes b = some j ∧ j.iNo ≠ n) := by
      intro b hb j hj
      by_cases hba : b = s.next
      · subst b
        rw [Function.update_self] at hj
        obtain rfl := Option.some.inj hj
        exact .inl ⟨rfl, rfl, rfl, fun _ _ => rfl⟩
      · rw [Function.update_of_ne hba] at hj
        have hbs := (List.mem_cons.mp hb).resolve_left hba
        obtain ⟨i, hi, hne⟩ := hall b hbs
        obtain rfl := Option.some.inj (hi.symm.trans hj)
        exact .inr ⟨hbs, hj, hne⟩
    obtain ⟨r, hr, hr0⟩ := h.root
    have hrin : s.rootInode ∈ s.openInodes := h.counted.dirInode_open (d := some .root) rfl
    have hrne : s.rootInode ≠ s.next := fun he => by
      have := h.counted.below _ hrin
      omega
    refine ⟨⟨h.image, hc, ⟨r, ?_, hr0⟩, fun b hb j hj => ?_, fun b hb c hc' i j hi hj he => ?_,
      fun k hk b j hf hj => ?_, h.pipes⟩, List.mem_cons_self, _, Function.update_self _ _ _, hno⟩
    · exact (Function.update_of_ne hrne _ _).trans hr
    · rcases hopen b hb j hj with ⟨-, hj⟩ | ⟨hbs, hj, -⟩
      · rw [hj.no, hno]
        exact ⟨hn, hj⟩
      · exact h.cached b hbs j hj
    · rcases hopen b hb i hi with ⟨rfl, hin⟩ | ⟨hbs, hi, hin⟩ <;>
        rcases hopen c hc' j hj with ⟨rfl, hjn⟩ | ⟨hcs, hj, hjn⟩
      · rfl
      · exact absurd ((he.symm.trans hin.no).trans hno) hjn
      · exact absurd ((he.trans hjn.no).trans hno) hin
      · exact h.single b hbs c hcs i j hi hj he
    · have hbs : b ∈ s.openInodes := h.counted.fileInode_open hk hf
      have hbne : b ≠ s.next := fun he => by
        have := h.counted.below _ hbs
        omega
      exact h.files k hk b j hf ((Function.update_of_ne hbne _ _).symm.trans hj)

theorem inodeClose_intact (h : Intact S s t (bump x a)) (hcl : inodeClose a s = some s') :
    Intact S s' t x := by
  have hsame := (inodeClose_same hcl).1
  exact h.keep (inodeClose_counted hcl h.counted) hsame.vol hsame.rootInode hsame.fileTable
    fun b hb j hj => inodeClose_open hcl b hb j hj

theorem dirOpen_intact (h : Intact S s t x) (hn : t.IsDir n) (ho : dirOpen n s = some (d, s')) :
    Intact S s' t x ∧ (d = none ∨ OpenOn s' d n) := by
  obtain ⟨hc, -, -⟩ := dirOpen_counted ho h.counted
  have hd := (dirOpen_kept h.serves hn ho).2
  refine ⟨?_, hd⟩
  simp only [dirOpen] at ho
  split at ho
  · obtain ⟨rfl, rfl⟩ := Prod.mk.inj (Option.some.inj ho)
    exact h.malloc
  · rw [bind_some_iff] at ho
    obtain ⟨⟨b, s₁⟩, hop, ho⟩ := ho
    obtain ⟨rfl, rfl⟩ := Prod.mk.inj (Option.some.inj ho)
    have hne : t n ≠ none := by
      obtain ⟨p, E, hn⟩ := hn
      simp [hn]
    have h₁ := (inodeOpen_intact h.malloc hne hop).1
    exact h₁.keep hc rfl rfl rfl fun b hb j hj => ⟨j, hj, hb, Inode.Same.refl j⟩

/-- A handle that is there can be closed. -/
theorem dirClose_intact (h : Intact S s t x) (hcl : dirClose d s = some s') : Intact S s' t x := by
  rcases d with _ | _ | p
  · cases hcl
  · obtain rfl := Option.some.inj hcl
    exact h
  · have hcl' := hcl
    simp only [dirClose, bind_some_iff] at hcl'
    obtain ⟨dir, hp, s₁, hclose, -⟩ := hcl'
    obtain ⟨hc, hsame, -⟩ := dirClose_counted (D := Function.update s.dirs p none) hcl h.counted
      ⟨Function.update_self _ _ _, dir, by rw [Function.update_idem, ← hp, Function.update_eq_self]⟩
    refine h.keep hc hsame.vol hsame.rootInode hsame.fileTable fun b hb j hj => ?_
    simp only [dirClose, hp, hclose, Option.bind_eq_bind, Option.bind_some, Option.pure_def,
      Option.some.injEq] at hcl
    subst hcl
    exact inodeClose_open hclose b hb j hj

/-- The numbers of open inodes. -/
def SameNumber (i j : Inode) : Prop := j.iNo = i.iNo

theorem sameNumber_countFree : CountFree SameNumber :=
  ⟨fun _ => rfl, fun h h' => h'.trans h, fun _ _ => rfl⟩

/-- What a lookup leaves of a kernel, besides the handle it returns. -/
structure LookedAt (S : Prop) (s : Kernel part) (t : FileTree) (x : ℕ → ℕ) (s' : Kernel part) :
    Prop where
  intact : Intact S s' t x
  vol : s'.vol = s.vol
  keeps : Keeps SameNumber s s'

theorem LookedAt.refl (h : Intact S s t x) : LookedAt S s t x s :=
  ⟨h, rfl, Keeps.refl sameNumber_countFree s⟩

theorem LookedAt.trans (h : LookedAt S s t x s₁) (h' : LookedAt S s₁ t y s₂) : LookedAt S s t y s₂ :=
  ⟨h'.intact, h'.vol.trans h.vol, h.keeps.trans sameNumber_countFree h'.keeps⟩

theorem LookedAt.malloc (h : LookedAt S s t x s₁) : LookedAt S s t x (sysMalloc s₁).2 :=
  h.trans ⟨h.intact.malloc, rfl, keeps_malloc sameNumber_countFree s₁⟩

theorem LookedAt.dirClose (h : LookedAt S s t x s₁) (hcl : FsOpenFiles.dirClose d s₁ = some s₂) :
    LookedAt S s t x s₂ :=
  h.trans ⟨dirClose_intact h.intact hcl, (FsLookupFrame.dirClose_files hcl).vol,
    dirClose_keeps sameNumber_countFree hcl⟩

theorem LookedAt.dirOpen (h : LookedAt S s t x s₁) (hn : t.IsDir n)
    (ho : FsOpenFiles.dirOpen n s₁ = some (d, s₂)) : LookedAt S s t x s₂ :=
  h.trans ⟨(dirOpen_intact h.intact hn ho).1, (dirOpen_counted ho h.intact.counted).2.1.vol,
    dirOpen_keeps sameNumber_countFree ho⟩

theorem lookupStable_lookedAt (s : Kernel part) : LookupStable t (LookedAt S s t x) :=
  ⟨fun h => h.malloc, fun hcl h => h.dirClose hcl, fun _ hn ho h => h.dirOpen hn ho⟩

/-- Whatever a search finds or misses. -/
theorem searchFile_lookedAt (h : Intact S s t x) {junk : Junk} {pathname : List Byte}
    (hz : (0 : Byte) ∉ pathname) {record record' : PathSearchRecord} {r : Option ℕ}
    (hrun : searchFile junk pathname record s = some (r, record', s')) :
    LookedAt S s t x s' ∧ HandleOn s' t record'.parentDir := by
  obtain ⟨-, hd, hJ⟩ := searchFile_stable (lookupStable_lookedAt s) h.serves hz hrun
  exact ⟨hJ (.refl h), hd⟩

/-- A slot of the file table gets a file, or loses what it has. -/
theorem Intact.setFile (h : Intact S s t x) (hk : k < maxFilesOpen) {f : File}
    (hy : ∀ a, y a + weight f.fdInode a = x a + weight (fileSlots s k) a)
    (hfile : ∀ a i, f.fdInode = some a → s.inodes a = some i → t i.iNo = some .file)
    (hflag : f.fdFlag ≠ pipeFlag) : Intact S (s.setFile k f) t y := by
  refine ⟨h.image, h.counted.setFile hk f hy, h.root, h.cached, h.single,
    fun l hl a i hf hi => ?_, fun l => ?_⟩
  · by_cases hlk : l = k
    · subst l
      rw [Kernel.setFile_self] at hf
      exact hfile a i hf hi
    · rw [s.setFile_ne f hlk] at hf
      exact h.files l hl a i hf hi
  · by_cases hlk : l = k
    · subst l
      rw [Kernel.setFile_self]
      exact hflag
    · rw [s.setFile_ne f hlk]
      exact h.pipes l

/-- Only the descriptors of the task are new. -/
theorem Intact.pcbFdInstall (h : Intact S s t x) (k : ℕ) : Intact S (pcbFdInstall k s).2 t x := by
  unfold FsOpenFiles.pcbFdInstall
  split
  · exact h
  · exact h.withCur _

/-- The open inode at `a` and the volume change together, and the volume shows another tree. -/
structure Moves (S : Prop) (s : Kernel part) (t : FileTree) (a : ℕ) (i i' : Inode) (v' : Volume part)
    (t' : FileTree) : Prop where
  image : Image S v' t'
  opened : a ∈ s.openInodes
  inode : s.inodes a = some i
  no : i'.iNo = i.iNo
  cnts : i'.openCnts = i.openCnts
  self : t' i.iNo ≠ none ∧ i'.Same (diskInode part v'.disk i.iNo)
  others : ∀ b ∈ s.openInodes, ∀ j, s.inodes b = some j → j.iNo ≠ i.iNo →
    t' j.iNo ≠ none ∧ (diskInode part v'.disk j.iNo).Same (diskInode part s.vol.disk j.iNo)
  files : ∀ b ∈ s.openInodes, ∀ j, s.inodes b = some j → t j.iNo = some .file →
    t' j.iNo = some .file

theorem Intact.moves {i i' : Inode} {v' : Volume part} (h : Intact S s t x)
    (hm : Moves S s t a i i' v' t') : Intact S ((s.setInode a i').withVol v') t' x := by
  have hi := hm.inode
  -- what is open is as before, but for the one inode
  have hopen : ∀ b ∈ s.openInodes, ∀ j, (s.setInode a i').inodes b = some j →
      (b = a ∧ j = i') ∨ (b ≠ a ∧ s.inodes b = some j) := by
    intro b _ j hj
    by_cases hba : b = a
    · subst b
      rw [Kernel.setInode_self] at hj
      exact .inl ⟨rfl, (Option.some.inj hj).symm⟩
    · rw [s.setInode_ne _ hba] at hj
      exact .inr ⟨hba, hj⟩
  have hnumber : ∀ b ∈ s.openInodes, ∀ j, (s.setInode a i').inodes b = some j →
      ∃ j₀, s.inodes b = some j₀ ∧ j.iNo = j₀.iNo := by
    intro b hb j hj
    rcases hopen b hb j hj with ⟨rfl, rfl⟩ | ⟨-, hj⟩
    · exact ⟨i, hi, hm.no⟩
    · exact ⟨j, hj, rfl⟩
  obtain ⟨r, hr, hr0⟩ := h.root
  refine ⟨hm.image, (h.counted.setInode hi hm.cnts).withVol _, ?_, fun b hb j hj => ?_,
    fun b hb c hc j₁ j₂ hj₁ hj₂ he => ?_, fun l hl b j hf hj => ?_, h.pipes⟩
  · by_cases hra : s.rootInode = a
    · obtain rfl := Option.some.inj ((hra ▸ hr).symm.trans hi)
      exact ⟨i', by rw [← hra]; exact s.setInode_self _ _, hm.no.trans hr0⟩
    · exact ⟨r, (s.setInode_ne _ hra).trans hr, hr0⟩
  · rcases hopen b hb j hj with ⟨rfl, rfl⟩ | ⟨hba, hj⟩
    · rw [hm.no]
      exact hm.self
    · by_cases hne : j.iNo = i.iNo
      · exact absurd (h.single b hb a hm.opened j i hj hi hne) hba
      · have hother := hm.others b hb j hj hne
        exact ⟨hother.1, (h.cached b hb j hj).2.trans hother.2.symm⟩
  · obtain ⟨i₁, hi₁, h₁⟩ := hnumber b hb j₁ hj₁
    obtain ⟨i₂, hi₂, h₂⟩ := hnumber c hc j₂ hj₂
    exact h.single b hb c hc i₁ i₂ hi₁ hi₂ ((h₁.symm.trans he).trans h₂)
  · have hb : b ∈ s.openInodes := h.counted.fileInode_open hl hf
    obtain ⟨j₀, hj₀, hno⟩ := hnumber b hb j hj
    rw [hno]
    exact hm.files b hb j₀ hj₀ (h.files l hl b j₀ hf hj₀)

end FsIntact
