import XianweiOS.FsDirectoryRuns
import XianweiOS.FsReferenceCounts
import XianweiOS.PathTree

/-! Directory trees on a disk, and a kernel that serves one: it counts its references right, and
what it holds of a directory in memory is what the disk holds. Opening and closing directories
keeps it so. -/
namespace FsTree

open ByteStore HaltingProgram KernelBitmap DeviceIde FsVolume FsInodeTable FsBlockMap FsOwnership
  FsDirectory FsDirectorySlots FsDirectoryTable FsDirectoryMap FsDirectoryRuns FsPath FsOpenFiles
  FsReferenceCounts PathTree

variable {part : Partition} {s s' : Kernel part} {n : ℕ}

abbrev FileTree := Tree ℕ (List Byte)

def dots : Dots (List Byte) := ⟨dot, dotdot⟩

def typeOf (t : FileTree) (c : ℕ) : FileType :=
  match t c with
  | some .file => .regular
  | some (.dir ..) => .directory
  | none => .unknown

/-- What the file of directory `d` has to say. -/
def entriesOf (t : FileTree) (d : ℕ) : NameMap := fun k =>
  (t.child dots d k).map fun c => (c, (typeOf t c).code)

/-- The disk holds the tree. -/
structure OnDiskTree (v : Volume part) (t : FileTree) : Prop where
  tree : WellFormed 0 t
  numbers : ∀ n, t n ≠ none → n < 4096
  number : ∀ d, t.IsDir d → (diskInode part v.disk d).iNo = d
  directory : ∀ d, t.IsDir d → Directory v (diskInode part v.disk d) (entriesOf t d)

structure Serves (s : Kernel part) (t : FileTree) : Prop where
  disk : OnDiskTree s.vol t
  counted : ∃ x, Counted s x
  root : ∃ i, s.inodes s.rootInode = some i ∧ i.iNo = 0
  cached : ∀ a ∈ s.openInodes, ∀ i, s.inodes a = some i → t.IsDir i.iNo →
    i.Same (diskInode part s.vol.disk i.iNo)

/-- `sys_malloc` has memory left. -/
def Plentiful (s : Kernel part) : Prop := ∀ k, s.mallocs k = true

/-- A call on a machine whose allocator has blocks for `k` more requests. Those of the file system are
small: the next one is not answered with `NULL`, it halts in the scan for a page. -/
def serving {α : Type} (k : ℕ) (after : α → Kernel part) (call : Kernel part → Option α)
    (s : Kernel part) : Option α := do
  let r ← call { s with mallocs := fun j => decide (j ≤ k) }
  assert ((after r).mallocs 0 = true)
  return r

/-- An open handle on inode `n`. -/
def OpenOn (s : Kernel part) (d : Option DirPtr) (n : ℕ) : Prop :=
  ∃ a i, dirInode s d = some a ∧ a ∈ s.openInodes ∧ s.inodes a = some i ∧ i.iNo = n

variable {t : FileTree} {d : Option DirPtr}

/-- A directory is read off the block pointers and the size of its inode. -/
theorem directory_same {v : Volume part} {i j : Inode} {m : NameMap} (h : Directory v i m)
    (hs : i.Same j) : Directory v j m := by
  have href := ref_same hs v.disk
  obtain ⟨h1, h2, h3, h4, h5, h6, h7, h8, h9, h10⟩ := h
  rw [hs.size] at h3
  rw [href] at h1 h2 h3 h4 h5 h6 h7 h8 h9 h10
  exact ⟨h1, h2, h3, h4, h5, h6, h7, h8, h9, h10⟩

theorem Plentiful.malloc (h : Plentiful s) : Plentiful (sysMalloc s).2 := fun k => h (k + 1)

theorem OnDiskTree.lt {v : Volume part} (h : OnDiskTree v t) (hn : t.IsDir n) : n < 4096 := by
  obtain ⟨p, E, hn⟩ := hn
  exact h.numbers n (by simp [hn])

theorem OnDiskTree.root {v : Volume part} (h : OnDiskTree v t) : t.IsDir 0 := by
  obtain ⟨E, hE⟩ := h.tree.top
  exact ⟨0, E, hE⟩

/-- A name that leads somewhere fits into an entry. -/
theorem child_valid {v : Volume part} (h : OnDiskTree v t) {c : ℕ} {k : List Byte}
    (hc : t.child dots n k = some c) : ValidName k := by
  have hd := h.directory n (isDir_of_child hc)
  have hk : entriesOf t n k = some (c, (typeOf t c).code) := by
    rw [entriesOf, hc, Option.map_some]
  obtain ⟨s, hs⟩ := (hd.represents _ _).mp hk
  exact hd.names s k _ hs

/-- The root directory is open. -/
theorem Serves.openRoot (h : Serves s t) : OpenOn s (some .root) 0 := by
  obtain ⟨x, hc⟩ := h.counted
  obtain ⟨i, hi, hn⟩ := h.root
  exact ⟨s.rootInode, i, rfl, hc.dirInode_open (d := some .root) rfl, hi, hn⟩

/-- Every open inode was open before, or has been read from the disk for a directory. -/
theorem Serves.step (h : Serves s t) {x : ℕ → ℕ} (hc : Counted s' x) (hv : s'.vol = s.vol)
    (hr : s'.rootInode = s.rootInode)
    (hopen : ∀ b ∈ s'.openInodes, ∀ i', s'.inodes b = some i' →
      (∃ i, s.inodes b = some i ∧ b ∈ s.openInodes ∧ i'.Same i) ∨
      (b ∉ s.openInodes ∧ ∃ n, t.IsDir n ∧ i'.Same (diskInode part s.vol.disk n))) :
    Serves s' t := by
  obtain ⟨y, hcs⟩ := h.counted
  refine ⟨by rw [hv]; exact h.disk, ⟨x, hc⟩, ?_, fun b hb i' hi' hdir => ?_⟩
  · have hin : s'.rootInode ∈ s'.openInodes := hc.dirInode_open (d := some .root) rfl
    obtain ⟨i', hi', -⟩ := hc.listed _ hin
    obtain ⟨j, hj, hn⟩ := h.root
    refine ⟨i', hi', ?_⟩
    rcases hopen _ hin i' hi' with ⟨i, hi, -, hsame⟩ | ⟨hnot, -⟩
    · rw [hr, hj] at hi
      obtain rfl := Option.some.inj hi
      exact hsame.no.trans hn
    · rw [hr] at hnot
      exact absurd (hcs.dirInode_open (d := some .root) rfl) hnot
  · rw [hv]
    rcases hopen b hb i' hi' with ⟨i, hi, hbs, hsame⟩ | ⟨-, n, hn, hsame⟩
    · rw [hsame.no] at hdir ⊢
      exact hsame.trans (h.cached b hbs i hi hdir)
    · rw [hsame.no, h.disk.number n hn]
      exact hsame

theorem Serves.malloc (h : Serves s t) : Serves (sysMalloc s).2 t := by
  obtain ⟨x, hc⟩ := h.counted
  exact h.step hc.malloc rfl rfl fun b hb i hi => .inl ⟨i, hi, hb, Inode.Same.refl i⟩

theorem Serves.withCur (h : Serves s t) (cur : Task) : Serves { s with cur := cur } t := by
  obtain ⟨x, hc⟩ := h.counted
  exact h.step (hc.withCur cur) rfl rfl fun b hb j hj => .inl ⟨j, hj, hb, Inode.Same.refl j⟩

theorem findOpen_total {inodes : ℕ → Option Inode} : ∀ {l : List ℕ},
    (∀ a ∈ l, ∃ i, inodes a = some i) → ∃ r, findOpen inodes n l = some r := by
  intro l
  induction l with
  | nil =>
    intro _
    exact ⟨none, rfl⟩
  | cons a l ih =>
    intro h
    obtain ⟨i, hi⟩ := h a (by simp)
    rw [findOpen, hi, Option.bind_eq_bind, Option.bind_some]
    split
    · exact ⟨_, rfl⟩
    · exact ih fun b hb => h b (by simp [hb])

theorem inodeOpen_total {x : ℕ → ℕ} (hc : Counted s x) (hm : Plentiful s) (hn : n < 4096) :
    ∃ a s', inodeOpen n s = some (a, s') ∧ Plentiful s' := by
  obtain ⟨r, hr⟩ := findOpen_total (n := n) (l := s.openInodes) fun a ha => by
    obtain ⟨i, hi, -⟩ := hc.listed a ha
    exact ⟨i, hi⟩
  rw [inodeOpen, hr, Option.bind_eq_bind, Option.bind_some]
  cases r with
  | some a =>
    obtain ⟨-, i, hi, -⟩ := findOpen_some hr
    refine ⟨a, s.setInode a { i with openCnts := i.openCnts + 1 }, ?_, hm⟩
    simp only [hi]
    rfl
  | none =>
    have hmem : (sysMalloc s).1 = true ∧ (sysMalloc (sysMalloc s).2).1 = true := ⟨hm 0, hm 1⟩
    simp only [inodeLoad, assert_pos hmem, Option.bind_eq_bind, Option.bind_some]
    rw [show (sysMalloc (sysMalloc s).2).2.vol = s.vol from rfl, inodeRead_eq part _ hn]
    exact ⟨_, _, rfl, fun k => hm (k + 2)⟩

/-- `inode_open` on a directory of the tree. -/
theorem inodeOpen_kept (h : Serves s t) (hn : t.IsDir n) {a : ℕ}
    (ho : inodeOpen n s = some (a, s')) :
    Serves s' t ∧ a ∈ s'.openInodes ∧ ∃ i, s'.inodes a = some i ∧ i.iNo = n := by
  obtain ⟨x, hc⟩ := h.counted
  obtain ⟨hc', hsame, -⟩ := inodeOpen_counted ho hc
  rcases inodeOpen_some ho with ⟨ha, i, hi, hno, rfl⟩ | ⟨-, -, rfl, m, rfl⟩
  · refine ⟨h.step hc' rfl rfl fun b hb j hj => .inl ?_, ha, _, s.setInode_self a _, hno⟩
    by_cases hba : b = a
    · subst b
      obtain rfl := Option.some.inj ((s.setInode_self a _).symm.trans hj)
      exact ⟨i, hi, ha, rfl, rfl, fun _ _ => rfl⟩
    · rw [s.setInode_ne _ hba] at hj
      exact ⟨j, hj, hb, Inode.Same.refl j⟩
  · refine ⟨h.step hc' rfl rfl fun b hb j hj => ?_, List.mem_cons_self, _,
      Function.update_self _ _ _, h.disk.number n hn⟩
    dsimp only at hj
    by_cases hba : b = s.next
    · subst b
      rw [Function.update_self] at hj
      obtain rfl := Option.some.inj hj
      exact .inr ⟨fun hin => absurd (hc.below _ hin) (by omega), n, hn, rfl, rfl, fun _ _ => rfl⟩
    · rw [Function.update_of_ne hba] at hj
      exact .inl ⟨j, hj, (List.mem_cons.mp hb).resolve_left hba, Inode.Same.refl j⟩

theorem inodeOpen_serves (h : Serves s t) (hm : Plentiful s) (hn : t.IsDir n) :
    ∃ a s', inodeOpen n s = some (a, s') ∧ Plentiful s' ∧ Serves s' t ∧
      a ∈ s'.openInodes ∧ ∃ i, s'.inodes a = some i ∧ i.iNo = n := by
  obtain ⟨x, hc⟩ := h.counted
  obtain ⟨a, s', ho, hm'⟩ := inodeOpen_total hc hm (h.disk.lt hn)
  exact ⟨a, s', ho, hm', inodeOpen_kept h hn ho⟩

/-- What is open behind `inode_close` was open before. -/
theorem inodeClose_open {a : ℕ} (hcl : inodeClose a s = some s') : ∀ b ∈ s'.openInodes, ∀ j,
    s'.inodes b = some j → ∃ i, s.inodes b = some i ∧ b ∈ s.openInodes ∧ j.Same i := by
  intro b hb j hj
  obtain ⟨i₁, hi₁, ⟨-, rfl⟩ | ⟨-, rfl⟩⟩ := inodeClose_some hcl
  · -- the last reference is gone
    dsimp only [Kernel.freeInode] at hj
    have hba : b ≠ a := by
      rintro rfl
      rw [Function.update_self] at hj
      cases hj
    rw [Function.update_of_ne hba] at hj
    exact ⟨j, hj, List.mem_of_mem_erase hb, Inode.Same.refl j⟩
  · dsimp only [Kernel.setInode] at hj
    by_cases hba : b = a
    · subst b
      rw [Function.update_self] at hj
      obtain rfl := Option.some.inj hj
      exact ⟨i₁, hi₁, hb, rfl, rfl, fun _ _ => rfl⟩
    · rw [Function.update_of_ne hba] at hj
      exact ⟨j, hj, hb, Inode.Same.refl j⟩

theorem inodeClose_exists {a : ℕ} {i : Inode} (hi : s.inodes a = some i) (hm : Plentiful s) :
    ∃ s', inodeClose a s = some s' ∧ Plentiful s' := by
  simp only [inodeClose, hi, Option.bind_eq_bind, Option.bind_some]
  split
  · exact ⟨_, rfl, hm⟩
  · exact ⟨_, rfl, hm⟩

/-- Looking at the inode of a directory: it is opened, read and closed again. -/
theorem inodeLook_serves (h : Serves s t) (hm : Plentiful s) (hn : t.IsDir n) :
    ∃ a s₁ i s₂, inodeOpen n s = some (a, s₁) ∧ s₁.inodes a = some i ∧
      inodeClose a s₁ = some s₂ ∧ i.Same (diskInode part s.vol.disk n) ∧ SameFiles s s₁ ∧
      SameFiles s s₂ ∧ Plentiful s₂ ∧ Serves s₂ t := by
  obtain ⟨x, hc⟩ := h.counted
  obtain ⟨a, s₁, ho, hm₁, h₁, ha, i, hi, hno⟩ := inodeOpen_serves h hm hn
  obtain ⟨hc₁, hsame, -⟩ := inodeOpen_counted ho hc
  obtain ⟨s₂, hcl, hm₂⟩ := inodeClose_exists hi hm₁
  have hsame₂ := (inodeClose_same hcl).1
  refine ⟨a, s₁, i, s₂, ho, hi, hcl, ?_, hsame, hsame.trans hsame₂, hm₂,
    h₁.step (inodeClose_counted hcl hc₁) hsame₂.vol hsame₂.rootInode fun b hb j hj =>
      .inl (inodeClose_open hcl b hb j hj)⟩
  have := h₁.cached a ha i hi (hno ▸ hn)
  rwa [hno, hsame.vol] at this

/-- A null pointer, or an open handle on a directory of the tree. -/
def HandleOn (s : Kernel part) (t : FileTree) (d : Option DirPtr) : Prop :=
  d = none ∨ ∃ n, t.IsDir n ∧ OpenOn s d n

theorem dirOpen_kept (h : Serves s t) (hn : t.IsDir n) (ho : dirOpen n s = some (d, s')) :
    Serves s' t ∧ (d = none ∨ OpenOn s' d n) := by
  obtain ⟨x, hc⟩ := h.counted
  obtain ⟨hc', -, -⟩ := dirOpen_counted ho hc
  simp only [dirOpen] at ho
  split at ho
  · obtain ⟨rfl, rfl⟩ := Prod.mk.inj (Option.some.inj ho)
    exact ⟨h.malloc, .inl rfl⟩
  · rw [bind_some_iff] at ho
    obtain ⟨⟨a, s₁⟩, hop, ho⟩ := ho
    obtain ⟨rfl, rfl⟩ := Prod.mk.inj (Option.some.inj ho)
    obtain ⟨h₁, ha, i, hi, hno⟩ := inodeOpen_kept h.malloc hn hop
    refine ⟨h₁.step hc' rfl rfl fun b hb j hj => .inl ⟨j, hj, hb, Inode.Same.refl j⟩,
      .inr ⟨a, i, ?_, ha, hi, hno⟩⟩
    simp [dirInode]

theorem dirOpen_serves (h : Serves s t) (hm : Plentiful s) (hn : t.IsDir n) :
    ∃ d s', dirOpen n s = some (d, s') ∧ Plentiful s' ∧ Serves s' t ∧ OpenOn s' d n := by
  obtain ⟨a, s₁, ho, hm₁, -⟩ := inodeOpen_serves h.malloc hm.malloc hn
  have hopen : dirOpen n s = some (some (.heap s₁.next), { s₁ with
      dirs := Function.update s₁.dirs s₁.next (some ⟨a, 0⟩), next := s₁.next + 1 }) := by
    have h0 : (sysMalloc s).1 = true := hm 0
    simp only [dirOpen, h0, Bool.true_eq_false, ↓reduceIte, ho, Option.bind_eq_bind,
      Option.bind_some]
    rfl
  obtain ⟨h', hd⟩ := dirOpen_kept h hn hopen
  exact ⟨_, _, hopen, hm₁, h', hd.resolve_left (Option.some_ne_none _)⟩

theorem dirClose_kept (h : Serves s t) (ho : OpenOn s d n) (hclose : dirClose d s = some s') :
    Serves s' t := by
  obtain ⟨a, i, ha, hin, hi, -⟩ := ho
  rcases d with _ | _ | p
  · cases ha
  · obtain rfl := Option.some.inj hclose
    exact h
  · obtain ⟨dir, hp, rfl⟩ := Option.map_eq_some_iff.mp ha
    obtain ⟨x, hc⟩ := h.counted
    obtain ⟨hc', hsame, -⟩ := dirClose_counted (D := Function.update s.dirs p none) hclose hc
      ⟨Function.update_self _ _ _, dir, by rw [Function.update_idem, ← hp, Function.update_eq_self]⟩
    simp only [dirClose, hp, bind_some_iff, Option.some.injEq, Option.pure_def] at hclose
    obtain ⟨_, rfl, s₁, hcl, rfl⟩ := hclose
    exact h.step hc' hsame.vol hsame.rootInode fun b hb j hj => .inl (inodeClose_open hcl b hb j hj)

/-- A handle on an inode that is there can be closed. -/
theorem dirClose_returns {a : ℕ} {i : Inode} (ha : dirInode s d = some a)
    (hi : s.inodes a = some i) (hm : Plentiful s) :
    ∃ s', dirClose d s = some s' ∧ Plentiful s' := by
  rcases d with _ | _ | p
  · cases ha
  · exact ⟨s, rfl, hm⟩
  · obtain ⟨dir, hp, rfl⟩ := Option.map_eq_some_iff.mp ha
    obtain ⟨s₁, hcl, hm₁⟩ := inodeClose_exists hi hm
    simp only [dirClose, hp, hcl, Option.bind_eq_bind, Option.bind_some]
    exact ⟨_, rfl, hm₁⟩

theorem dirClose_exists {x : ℕ → ℕ} (hc : Counted s x) (hm : Plentiful s) {a : ℕ}
    (ha : dirInode s d = some a) : ∃ s', dirClose d s = some s' ∧ Plentiful s' := by
  obtain ⟨i, hi, -⟩ := hc.listed a (hc.dirInode_open ha)
  exact dirClose_returns ha hi hm

theorem dirClose_serves (h : Serves s t) (hm : Plentiful s) (ho : OpenOn s d n) :
    ∃ s', dirClose d s = some s' ∧ Plentiful s' ∧ Serves s' t := by
  obtain ⟨x, hc⟩ := h.counted
  obtain ⟨s', hclose, hm'⟩ := dirClose_exists hc hm ho.choose_spec.choose_spec.1
  exact ⟨s', hclose, hm', dirClose_kept h ho hclose⟩

/-- Looking up a name in an open directory of the tree. -/
theorem searchDirEntryIn_serves (h : Serves s t) (hm : Plentiful s) (ho : OpenOn s d n)
    (hn : t.IsDir n) {name : List Byte} (hne : name ≠ []) (hz : (0 : Byte) ∉ name) :
    searchDirEntryIn d name s = some ((t.child dots n name).map fun c => ⟨name, c,
      (typeOf t c).code⟩, (sysMalloc (sysMalloc s).2).2) := by
  obtain ⟨a, i, ha, hin, hi, rfl⟩ := ho
  have hdir : Directory s.vol i (entriesOf t i.iNo) :=
    directory_same (h.disk.directory i.iNo hn) (h.cached a hin i hi hn).symm
  have h0 : (sysMalloc s).1 = true := hm 0
  have h1 : (sysMalloc (sysMalloc s).2).1 = true := hm 1
  have hd' : dirInode (sysMalloc s).2 d = some a := ha
  have hi' : (sysMalloc s).2.inodes a = some i := hi
  have hv : (sysMalloc (sysMalloc s).2).2.vol = s.vol := rfl
  simp only [searchDirEntryIn, h0, h1, hd', hi', hv, Bool.true_eq_false, ↓reduceIte,
    Option.bind_eq_bind, Option.bind_some, searchDirEntry_eq hdir hne hz, entriesOf,
    Option.map_map]
  rfl

/-- Without a buffer nothing is found. -/
theorem searchBlocks_noBuf {disk : Bytes} {ab : ℕ → ℕ} {name : List Byte} : ∀ {left idx : ℕ}
    {r : Option DirEntry}, searchBlocks false disk ab name left idx = some r → r = none := by
  intro left
  induction left with
  | zero =>
    intro idx r h
    exact (Option.some.inj h).symm
  | succ left ih =>
    intro idx r h
    rw [searchBlocks] at h
    split at h
    · exact ih h
    · simp only [bind_some_iff, assert_eq_some] at h
      obtain ⟨-, -, -, hfalse, -⟩ := h
      cases hfalse

/-- Memory or not, what is found is there. -/
theorem searchDirEntryIn_kept (h : Serves s t) (ho : OpenOn s d n) (hn : t.IsDir n)
    {name : List Byte} (hne : name ≠ []) (hz : (0 : Byte) ∉ name) {r : Option DirEntry}
    (hs : searchDirEntryIn d name s = some (r, s')) :
    r = none ∨ r = (t.child dots n name).map fun c => ⟨name, c, (typeOf t c).code⟩ := by
  obtain ⟨a, i, ha, hin, hi, rfl⟩ := ho
  have hdir : Directory s.vol i (entriesOf t i.iNo) :=
    directory_same (h.disk.directory i.iNo hn) (h.cached a hin i hi hn).symm
  simp only [searchDirEntryIn] at hs
  split at hs
  · exact .inl (Prod.mk.inj (Option.some.inj hs)).1.symm
  simp only [bind_some_iff, Option.pure_def, Option.some.injEq, Prod.mk.injEq] at hs
  obtain ⟨b, hb, j, hj, e, he, rfl, -⟩ := hs
  have hd' : dirInode (sysMalloc s).2 d = some a := ha
  obtain rfl := Option.some.inj (hd'.symm.trans hb)
  have hi' : (sysMalloc s).2.inodes a = some i := hi
  obtain rfl := Option.some.inj (hi'.symm.trans hj)
  cases hbuf : (sysMalloc (sysMalloc s).2).1 with
  | false =>
    simp only [hbuf, searchDirEntry, Bool.true_eq_false, ↓reduceIte, bind_some_iff] at he
    obtain ⟨ab, -, he⟩ := he
    exact .inl (searchBlocks_noBuf he)
  | true =>
    have hv : (sysMalloc (sysMalloc s).2).2.vol = s.vol := rfl
    rw [hbuf, hv, searchDirEntry_eq hdir hne hz] at he
    refine .inr ((Option.some.inj he).symm.trans ?_)
    rw [entriesOf, Option.map_map]
    rfl

/-- A file system that has just been mounted serves the tree of its disk. -/
theorem booted_serves {v : Volume part} (h : Booted v s) (ht : OnDiskTree v t) : Serves s t := by
  obtain rfl := h.vol
  have hno := ht.number 0 ht.root
  refine ⟨ht, ⟨_, h.counted⟩, ⟨{ diskInode part s.vol.disk 0 with openCnts := 1 },
    by rw [h.rootInode, h.inode], hno⟩, fun a ha i hi hdir => ?_⟩
  rw [h.openInodes, List.mem_singleton] at ha
  subst a
  obtain rfl := Option.some.inj (h.inode.symm.trans hi)
  dsimp only
  rw [hno]
  exact ⟨hno.symm, rfl, fun _ _ => rfl⟩

theorem openRootDir_mounted (v : Volume part) {m : ℕ → Bool} (h0 : m 0 = true)
    (h1 : m 1 = true) :
    ∃ s, openRootDir (mounted v m) = some s ∧ s.mallocs = fun k => m (k + 2) := by
  have hmem : (sysMalloc (mounted v m)).1 = true ∧
      (sysMalloc (sysMalloc (mounted v m)).2).1 = true := ⟨h0, h1⟩
  have hvol : (sysMalloc (sysMalloc (mounted v m)).2).2.vol = v := rfl
  have hlist : findOpen (mounted v m).inodes 0 (mounted v m).openInodes = some none := rfl
  rw [openRootDir, part.layout.root_no, inodeOpen, hlist]
  simp only [inodeLoad, Option.bind_eq_bind, Option.bind_some, assert_pos hmem, hvol,
    inodeRead_eq part v.disk (show 0 < 4096 by omega)]
  exact ⟨_, rfl, rfl⟩

def nestedName : List Byte := [0x64]

/-- The root directory holds the directory `d`, inode 1. -/
def nestedTree : FileTree := fun n =>
  if n = 0 then some (.dir 0 fun k => if k = nestedName then some 1 else none)
  else if n = 1 then some (.dir 0 fun _ => none) else none

def nestedInode (n y size : ℕ) : Inode := ⟨n, size, 0, false, fun k => if k = 0 then y else 0⟩

/-- Two directories, the second one without an entry. -/
def bareVolume : Volume smallPartition :=
  (((blankVolume smallPartition zeroes).setBlockBit 0 true).setBlockBit 1 true).withDisk
    (patch (patch (patch (patch zeroes
      (slotAddr smallPartition 0) 76 (nestedInode 0 613 72).toBytes)
      (slotAddr smallPartition 1) 76 (nestedInode 1 614 48).toBytes)
      (512 * 613) 512 (newDirBlock 0 0))
      (512 * 614) 512 (newDirBlock 1 0))

def nestedEntry : DirEntry := ⟨nestedName, 1, FileType.directory.code⟩

def nestedVolume : Volume smallPartition :=
  bareVolume.withDisk (patch bareVolume.disk (512 * 613) 512
    (patch (sectorBuf bareVolume.disk 613) 48 24 nestedEntry.toBytes))

/-- The first entry behind the dots of the root directory. -/
theorem firstEntry_directory {v : Volume smallPartition} {e : DirEntry} (hu : InUse v 613)
    (hblock : ∀ k < 512, v.disk (512 * 613 + k) = newDirBlock 0 0 k)
    (hins : Insertable (dotMap 0 0) e) :
    Directory (v.withDisk (patch v.disk (512 * 613) 512
      (patch (sectorBuf v.disk 613) 48 24 e.toBytes))) (nestedInode 0 613 72)
      (Function.update (dotMap 0 0) e.filename (some (e.iNo, e.fType))) := by
  have hnew : NewDirectory v (nestedInode 0 613 48) 0 0 :=
    newDirectory_of_block (y := 613) (by decide) (by decide) hu (by decide) rfl (fun _ _ => rfl)
      hblock
  have h12 : ¬ (nestedInode 0 613 48).iSectors 12 ≠ 0 := by decide
  have hsize : (nestedInode 0 613 48).iSize % dirEntrySize = 0 := by decide
  have h0 : (nestedInode 0 613 48).iSectors 0 = 613 := rfl
  have hread : ideRead v.disk 613 zeroes 1 = some (sectorBuf v.disk 613) :=
    ideRead_eq (by omega) (by decide)
  have hword : ∀ o, o + 4 ≤ 512 → word (sectorBuf v.disk 613) o = word (newDirBlock 0 0) o := by
    intro o ho
    apply word_congr
    intro j hj
    rw [sectorBuf, patch_in (by omega), Nat.sub_zero, window, hblock _ (by omega)]
  have hfree : freeEntry (sectorBuf v.disk 613) dirEntrysPerSec 0 = some 2 := by
    have h20 : word (newDirBlock 0 0) 20 ≠ 0 := by decide +kernel
    have h44 : word (newDirBlock 0 0) 44 ≠ 0 := by decide +kernel
    have h68 : word (newDirBlock 0 0) 68 = 0 := by decide +kernel
    simp only [show dirEntrysPerSec = 18 + 3 from rfl, freeEntry, FileType.code, hword 20 (by omega),
      hword 44 (by omega), hword 68 (by omega), h20, h44, h68, ↓reduceIte]
  have hsync : syncDirEntry e (nestedInode 0 613 48) v = some (true, nestedInode 0 613 72,
      v.withDisk (patch v.disk (512 * 613) 512 (patch (sectorBuf v.disk 613) 48 24 e.toBytes))) := by
    rw [syncDirEntry, assert_pos hsize, Option.bind_eq_bind, Option.bind_some, loadAllBlocks,
      if_neg h12, Option.pure_def, Option.bind_eq_bind, Option.bind_some, syncBlocks]
    simp only [Nat.zero_lt_succ, ↓reduceIte, h0, hread, hfree, Option.bind_eq_bind,
      Option.bind_some, OfNat.ofNat_ne_zero, ideWrite_eq (show 0 < 1 by omega)
        (show 613 + 1 ≤ maxLba + 1 by decide)]
    rfl
  exact dirRun_directory ((DirRun.start hnew).sync hins hsync)

/-- What may be entered first. -/
theorem insertable_dotMap {e : DirEntry} (hn : ValidName e.filename) (h1 : e.filename ≠ dot)
    (h2 : e.filename ≠ dotdot) (hpos : 0 < e.iNo) (hlt : e.iNo < 2 ^ 32)
    (ht : e.fType = FileType.regular.code ∨ e.fType = FileType.directory.code) :
    Insertable (dotMap 0 0) e := by
  refine ⟨hn, h1, h2, by simp [dotMap, h1, h2], hpos, hlt, fun k x hk => ?_, ht⟩
  by_contra hdots
  obtain ⟨h1, h2⟩ := not_or.mp hdots
  simp [dotMap, h1, h2] at hk

/-- The root directory holds one object, inode 1. -/
def singleTree (name : List Byte) (N : Node ℕ (List Byte)) : FileTree := fun n =>
  if n = 0 then some (.dir 0 fun k => if k = name then some 1 else none)
  else if n = 1 then some N else none

section Single

variable {name : List Byte} {N : Node ℕ (List Byte)}

theorem singleTree_some {n : ℕ} (h : singleTree name N n ≠ none) : n = 0 ∨ n = 1 := by
  by_contra hn
  obtain ⟨h0, h1⟩ := not_or.mp hn
  simp [singleTree, h0, h1] at h

theorem wellFormed_single (hu : N.Under 0) (hN : ∀ p E, N = .dir p E → ∀ k, E k = none) :
    WellFormed 0 (singleTree name N) := by
  refine ⟨⟨_, rfl⟩, ?_, ?_⟩
  · rintro d k c ⟨p, E, hd, hc⟩
    simp only [singleTree] at hd
    split at hd
    · obtain ⟨rfl, rfl⟩ := Node.dir.inj (Option.some.inj hd)
      subst d
      dsimp only at hc
      split at hc
      · obtain rfl := Option.some.inj hc
        exact ⟨by decide, N, rfl, hu⟩
      · cases hc
    split at hd
    · rw [hN p E (Option.some.inj hd) k] at hc
      cases hc
    · cases hd
  · intro c hc h0
    obtain rfl := (singleTree_some hc).resolve_left h0
    exact ⟨0, name, 0, _, rfl, by simp⟩

theorem entriesOf_single_root (h1 : name ≠ dot) (h2 : name ≠ dotdot) :
    entriesOf (singleTree name N) 0 = Function.update (dotMap 0 0) name
      (some (1, (typeOf (singleTree name N) 1).code)) := by
  funext k
  by_cases hk : k = name
  · subst k
    simp [entriesOf, Tree.child, singleTree, dots, h1, h2]
  · by_cases hd : k = dot
    · simp [entriesOf, Tree.child, singleTree, dots, dotMap, hd, h1.symm, typeOf]
    by_cases hu : k = dotdot
    · have h3 : dotdot ≠ dot := by decide
      simp [entriesOf, Tree.child, singleTree, dots, dotMap, hu, h3, h2.symm, typeOf]
    · simp [entriesOf, Tree.child, singleTree, dots, dotMap, hd, hu, hk]

end Single

theorem nestedTree_single : nestedTree = singleTree nestedName (.dir 0 fun _ => none) := rfl

theorem wellFormed_nested : WellFormed 0 nestedTree := by
  rw [nestedTree_single]
  refine wellFormed_single rfl fun p E he k => ?_
  obtain ⟨-, rfl⟩ := Node.dir.inj he
  rfl

/-- A directory without entries holds its dots. -/
theorem entriesOf_bare {m : ℕ} (hN : t n = some (.dir m fun _ => none)) (hn : typeOf t n = .directory)
    (hm : typeOf t m = .directory) : entriesOf t n = dotMap n m := by
  have hne : dotdot ≠ dot := by decide
  funext l
  rw [entriesOf, child_dir hN, dotMap]
  by_cases h1 : l = dot
  · simp [h1, dots, hn]
  · by_cases h2 : l = dotdot
    · simp [h2, hne, dots, hm]
    · simp [h1, h2, dots]

theorem entriesOf_nested_sub : entriesOf nestedTree 1 = dotMap 1 0 := entriesOf_bare rfl rfl rfl

/-- The record on the disk is the inode that was written there. -/
theorem same_diskInode {disk : Bytes} {i : Inode} {n : ℕ} (h : ∀ k < 76,
    disk (slotAddr smallPartition n + k) = i.toBytes k) (hf : i.Fits) :
    i.Same (diskInode smallPartition disk n) := by
  have he : diskInode smallPartition disk n = Inode.ofBytes i.toBytes 0 := by
    apply ofBytes_congr
    intro j hj
    rw [h j hj, Nat.zero_add]
  rw [he]
  exact (ofBytes_toBytes hf).symm

theorem nested_onDisk : OnDiskTree nestedVolume nestedTree := by
  have hroot : (nestedInode 0 613 72).Same (diskInode smallPartition nestedVolume.disk 0) :=
    same_diskInode (by decide +kernel) ⟨by decide, by decide, by decide⟩
  have hsub : (nestedInode 1 614 48).Same (diskInode smallPartition nestedVolume.disk 1) :=
    same_diskInode (by decide +kernel) ⟨by decide, by decide, by decide⟩
  have hdirs : ∀ d, nestedTree.IsDir d → d = 0 ∨ d = 1 := by
    rintro d ⟨p, E, h⟩
    have hd : singleTree nestedName (.dir 0 fun _ => none) d ≠ none := by
      rw [← nestedTree_single, h]
      exact Option.some_ne_none _
    exact singleTree_some hd
  refine ⟨wellFormed_nested, fun n hn => ?_, fun d hd => ?_, fun d hd => ?_⟩
  · rcases singleTree_some (nestedTree_single ▸ hn) with rfl | rfl
    · decide
    · decide
  · rcases hdirs d hd with rfl | rfl
    · exact hroot.no.symm
    · exact hsub.no.symm
  · rcases hdirs d hd with rfl | rfl
    · refine directory_same ?_ hroot
      rw [nestedTree_single, entriesOf_single_root (by decide) (by decide)]
      exact firstEntry_directory (e := nestedEntry) (v := bareVolume)
        ⟨0, rfl, by decide, by decide +kernel⟩ (by decide +kernel)
        (insertable_dotMap ⟨by decide, by decide, by decide⟩ (by decide) (by decide) (by decide)
          (by decide) (.inr rfl))
    · refine directory_same ?_ hsub
      rw [entriesOf_nested_sub]
      exact (newDirectory_of_block (y := 614) (by decide) (by decide)
        ⟨1, rfl, by decide, by decide +kernel⟩ (by decide) rfl (fun _ _ => rfl)
        (by decide +kernel)).directory

theorem nested_walk {pre : List (List Byte)} {n : ℕ} (h : nestedTree.walk dots 0 pre = some n) :
    nestedTree.IsDir n := by
  obtain ⟨N, hN⟩ : ∃ N, nestedTree n = some N := by
    rcases List.eq_nil_or_concat pre with rfl | ⟨l, k, rfl⟩
    · obtain rfl := Option.some.inj h
      exact ⟨_, rfl⟩
    · rw [List.concat_eq_append, walk_last] at h
      obtain ⟨m, -, hm⟩ := Option.bind_eq_some_iff.mp h
      exact wellFormed_nested.child_some hm
  simp only [nestedTree] at hN
  split at hN
  · subst n
    exact ⟨_, _, rfl⟩
  split at hN
  · subst n
    exact ⟨_, _, rfl⟩
  · cases hN

end FsTree
