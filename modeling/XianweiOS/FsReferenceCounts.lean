import XianweiOS.FsSyscalls
import XianweiOS.HolderCount

/-! Reference counts of open inodes. An inode is held by slots of the file table, by directory
handles and by `root_dir`; `Counted` says that its count is the number of its holders, plus
references in flight that are nowhere recorded. -/
namespace FsReferenceCounts

open ByteStore HaltingProgram KernelBitmap DeviceIde FsVolume FsInodeTable FsBlockMap FsOwnership
  FsDirectory FsInodeRelease FsFileWrite FsPath FsOpenFiles FsSyscalls HolderCount

variable {part : Partition}

def fileSlots (s : Kernel part) (k : ℕ) : Option ℕ := (s.fileTable k).fdInode

def dirSlots (s : Kernel part) (p : ℕ) : Option ℕ := (s.dirs p).map Dir.inode

/-- The holders of the inode at address `a`. -/
def held (s : Kernel part) (a : ℕ) : ℕ :=
  occurs maxFilesOpen (fileSlots s) a + occurs s.next (dirSlots s) a + weight (some s.rootInode) a

/-- One more reference to `a` in flight. -/
def bump (x : ℕ → ℕ) (a : ℕ) : ℕ → ℕ := fun b => x b + weight (some a) b

structure Counted (s : Kernel part) (x : ℕ → ℕ) : Prop where
  nodup : s.openInodes.Nodup
  listed : ∀ a ∈ s.openInodes, ∃ i, s.inodes a = some i ∧ i.openCnts = held s a + x a ∧ 0 < i.openCnts
  unlisted : ∀ a, a ∉ s.openInodes → held s a + x a = 0
  below : ∀ a ∈ s.openInodes, a < s.next
  fresh : ∀ p, s.next ≤ p → s.dirs p = none

/-- Only open inodes and handles may differ. -/
structure SameFiles (s s' : Kernel part) : Prop where
  vol : s'.vol = s.vol
  fileTable : s'.fileTable = s.fileTable
  cur : s'.cur = s.cur
  rootInode : s'.rootInode = s.rootInode

theorem SameFiles.refl (s : Kernel part) : SameFiles s s := ⟨rfl, rfl, rfl, rfl⟩

theorem SameFiles.trans {s s' s'' : Kernel part} (h : SameFiles s s') (h' : SameFiles s' s'') :
    SameFiles s s'' :=
  ⟨h'.vol.trans h.vol, h'.fileTable.trans h.fileTable, h'.cur.trans h.cur,
    h'.rootInode.trans h.rootInode⟩

theorem sameFiles_malloc (s : Kernel part) : SameFiles s (sysMalloc s).2 := ⟨rfl, rfl, rfl, rfl⟩

theorem findOpen_some {inodes : ℕ → Option Inode} {n a : ℕ} : ∀ {l : List ℕ},
    findOpen inodes n l = some (some a) → a ∈ l ∧ ∃ i, inodes a = some i ∧ i.iNo = n := by
  intro l
  induction l with
  | nil =>
    intro h
    cases h
  | cons b l ih =>
    intro h
    rw [findOpen, bind_some_iff] at h
    obtain ⟨i, hi, h⟩ := h
    split at h
    · rename_i hn
      obtain rfl := Option.some.inj (Option.some.inj h)
      exact ⟨List.mem_cons_self, i, hi, hn⟩
    · obtain ⟨hm, hex⟩ := ih h
      exact ⟨List.mem_cons_of_mem _ hm, hex⟩

theorem findOpen_none {inodes : ℕ → Option Inode} {n : ℕ} : ∀ {l : List ℕ},
    findOpen inodes n l = some none → ∀ a ∈ l, ∃ i, inodes a = some i ∧ i.iNo ≠ n := by
  intro l
  induction l with
  | nil =>
    intro _ a ha
    cases ha
  | cons b l ih =>
    intro h a ha
    rw [findOpen, bind_some_iff] at h
    obtain ⟨i, hi, h⟩ := h
    split at h
    · cases h
    · rename_i hn
      rcases List.mem_cons.mp ha with rfl | ha
      · exact ⟨i, hi, hn⟩
      · exact ih h a ha

theorem inodeRead_lt {disk : Bytes} {n : ℕ} {i : Inode} (h : inodeRead part disk n = some i) :
    n < 4096 ∧ i = diskInode part disk n := by
  by_cases hn : n < 4096
  · rw [inodeRead_eq part disk hn] at h
    exact ⟨hn, (Option.some.inj h).symm⟩
  · simp only [inodeRead, inodeLocate, assert, if_neg hn] at h
    cases h

/-- What `inode_open` does: count once more, or read the inode and push it. -/
theorem inodeOpen_some {n a : ℕ} {s s' : Kernel part} (h : inodeOpen n s = some (a, s')) :
    (a ∈ s.openInodes ∧ ∃ i, s.inodes a = some i ∧ i.iNo = n ∧
      s' = s.setInode a { i with openCnts := i.openCnts + 1 }) ∨
    ((∀ b ∈ s.openInodes, ∃ i, s.inodes b = some i ∧ i.iNo ≠ n) ∧ n < 4096 ∧ a = s.next ∧
      ∃ m, s' = { s with
        inodes := Function.update s.inodes s.next
          (some { diskInode part s.vol.disk n with openCnts := 1 })
        openInodes := s.next :: s.openInodes
        next := s.next + 1
        mallocs := m }) := by
  rw [inodeOpen, bind_some_iff] at h
  obtain ⟨r, hr, h⟩ := h
  cases r with
  | some b =>
    obtain ⟨hb, i, hi, hn⟩ := findOpen_some hr
    simp only [hi, Option.bind_eq_bind, Option.bind_some, Option.pure_def, Option.some.injEq,
      Prod.mk.injEq] at h
    obtain ⟨rfl, rfl⟩ := h
    exact Or.inl ⟨hb, i, hi, hn, rfl⟩
  | none =>
    simp only [inodeLoad, bind_some_iff] at h
    obtain ⟨-, -, i, hi, h⟩ := h
    obtain ⟨hlt, rfl⟩ := inodeRead_lt hi
    simp only [Option.pure_def, Option.some.injEq, Prod.mk.injEq] at h
    obtain ⟨rfl, rfl⟩ := h
    exact Or.inr ⟨findOpen_none hr, hlt, rfl, _, rfl⟩

theorem inodeClose_some {a : ℕ} {s s' : Kernel part} (h : inodeClose a s = some s') :
    ∃ i, s.inodes a = some i ∧
      ((i.openCnts = 1 ∧ s' = { s.freeInode a with openInodes := s.openInodes.erase a }) ∨
      (i.openCnts ≠ 1 ∧ s' = s.setInode a
        { i with openCnts := if i.openCnts = 0 then 2 ^ 32 - 1 else i.openCnts - 1 })) := by
  rw [inodeClose, bind_some_iff] at h
  obtain ⟨i, hi, h⟩ := h
  refine ⟨i, hi, ?_⟩
  split at h
  · rename_i hc
    exact Or.inl ⟨hc, (Option.some.inj h).symm⟩
  · rename_i hc
    exact Or.inr ⟨hc, (Option.some.inj h).symm⟩

theorem searchDirEntryIn_some {pdir : Option DirPtr} {name : List Byte} {r : Option DirEntry}
    (h : searchDirEntryIn pdir name s = some (r, s')) :
    s' = (sysMalloc s).2 ∨ s' = (sysMalloc (sysMalloc s).2).2 := by
  simp only [searchDirEntryIn] at h
  split at h
  · exact Or.inl (Prod.mk.inj (Option.some.inj h)).2.symm
  · simp only [bind_some_iff, Option.pure_def, Option.some.injEq, Prod.mk.injEq] at h
    obtain ⟨-, -, -, -, -, -, -, rfl⟩ := h
    exact Or.inr rfl

/-- An address used for something other than a handle holds nothing. -/
theorem held_new {s s' : Kernel part} (hf : s'.fileTable = s.fileTable) (hd : s'.dirs = s.dirs)
    (hr : s'.rootInode = s.rootInode) (hn : s'.next = s.next + 1) (hz : s.dirs s.next = none)
    (b : ℕ) : held s' b = held s b := by
  have hslots : dirSlots s' = dirSlots s := by
    funext p
    simp only [dirSlots, hd]
  have hfiles : fileSlots s' = fileSlots s := by
    funext k
    simp only [fileSlots, hf]
  have hnone : dirSlots s s.next = none := by
    simp only [dirSlots, hz, Option.map_none]
  rw [held, held, hslots, hfiles, hr, hn, occurs_succ, hnone, weight_none, Nat.add_zero]

section Steps

variable {s s' : Kernel part} {x : ℕ → ℕ}

/-- Counts and holders are as before. -/
theorem Counted.of_same (h : Counted s x) (hopen : s'.openInodes = s.openInodes)
    (hheld : ∀ a, held s' a = held s a)
    (hcnt : ∀ a ∈ s.openInodes, ∀ i, s.inodes a = some i →
      ∃ i', s'.inodes a = some i' ∧ i'.openCnts = i.openCnts)
    (hnext : s.next ≤ s'.next) (hfresh : ∀ p, s'.next ≤ p → s'.dirs p = none) : Counted s' x := by
  refine ⟨hopen ▸ h.nodup, fun a ha => ?_, fun a ha => ?_, fun a ha => ?_, hfresh⟩
  · rw [hopen] at ha
    obtain ⟨i, hi, hc, hp⟩ := h.listed a ha
    obtain ⟨i', hi', hc'⟩ := hcnt a ha i hi
    exact ⟨i', hi', by rw [hc', hc, hheld], by rw [hc']; exact hp⟩
  · rw [hopen] at ha
    rw [hheld]
    exact h.unlisted a ha
  · rw [hopen] at ha
    exact Nat.lt_of_lt_of_le (h.below a ha) hnext

theorem Counted.malloc (h : Counted s x) : Counted (sysMalloc s).2 x :=
  h.of_same rfl (fun _ => rfl) (fun _ _ i hi => ⟨i, hi, rfl⟩) le_rfl h.fresh

theorem Counted.withVol (h : Counted s x) (v : Volume part) : Counted (s.withVol v) x :=
  h.of_same rfl (fun _ => rfl) (fun _ _ i hi => ⟨i, hi, rfl⟩) le_rfl h.fresh

theorem Counted.withCur (h : Counted s x) (t : Task) : Counted { s with cur := t } x :=
  h.of_same rfl (fun _ => rfl) (fun _ _ i hi => ⟨i, hi, rfl⟩) le_rfl h.fresh

/-- Changing an inode but for its count. -/
theorem Counted.setInode (h : Counted s x) {a : ℕ} {i i' : Inode} (hi : s.inodes a = some i)
    (hc : i'.openCnts = i.openCnts) : Counted (s.setInode a i') x := by
  refine h.of_same rfl (fun _ => rfl) (fun b _ j hj => ?_) le_rfl h.fresh
  by_cases hb : b = a
  · subst b
    obtain rfl := Option.some.inj (hi.symm.trans hj)
    exact ⟨i', Function.update_self _ _ _, hc⟩
  · exact ⟨j, (Function.update_of_ne hb _ _).trans hj, rfl⟩

theorem held_setFile (s : Kernel part) {k : ℕ} (hk : k < maxFilesOpen) (f : File) (a : ℕ) :
    held (s.setFile k f) a + weight (fileSlots s k) a = held s a + weight f.fdInode a := by
  have hslots : fileSlots (s.setFile k f) = Function.update (fileSlots s) k f.fdInode := by
    funext j
    by_cases hj : j = k
    · subst j
      simp [fileSlots, Kernel.setFile]
    · simp [fileSlots, Kernel.setFile, hj]
  have h := occurs_update hk (fileSlots s) f.fdInode a
  rw [← hslots] at h
  have hdirs : dirSlots (s.setFile k f) = dirSlots s := rfl
  simp only [held, hdirs]
  rw [show (s.setFile k f).next = s.next from rfl,
    show (s.setFile k f).rootInode = s.rootInode from rfl]
  omega

/-- A reference moves between the file table and the references in flight. -/
theorem Counted.setFile (h : Counted s x) {k : ℕ} (hk : k < maxFilesOpen) (f : File) {y : ℕ → ℕ}
    (hy : ∀ a, y a + weight f.fdInode a = x a + weight (fileSlots s k) a) :
    Counted (s.setFile k f) y := by
  have hsum : ∀ a, held (s.setFile k f) a + y a = held s a + x a := by
    intro a
    have := held_setFile s hk f a
    have := hy a
    omega
  refine ⟨h.nodup, fun a ha => ?_, fun a ha => ?_, h.below, h.fresh⟩
  · obtain ⟨i, hi, hc, hp⟩ := h.listed a ha
    exact ⟨i, hi, by rw [hc, hsum], hp⟩
  · rw [hsum]
    exact h.unlisted a ha

/-- A structure at a new address joins `open_inodes` with the count 1. -/
theorem Counted.push (h : Counted s x) {i : Inode} (hc : i.openCnts = 1)
    (hin : s'.inodes = Function.update s.inodes s.next (some i))
    (hopen : s'.openInodes = s.next :: s.openInodes) (hnext : s'.next = s.next + 1)
    (hf : s'.fileTable = s.fileTable) (hd : s'.dirs = s.dirs) (hr : s'.rootInode = s.rootInode) :
    Counted s' (bump x s.next) := by
  have hnew : s.next ∉ s.openInodes := fun hm => absurd (h.below _ hm) (lt_irrefl _)
  have hheld := held_new hf hd hr hnext (h.fresh s.next le_rfl)
  constructor
  · rw [hopen]
    exact List.nodup_cons.mpr ⟨hnew, h.nodup⟩
  · intro b hb
    rw [hheld, hin]
    by_cases hba : b = s.next
    · subst b
      have := h.unlisted _ hnew
      refine ⟨i, Function.update_self _ _ _, ?_, by omega⟩
      simp only [bump, weight_some, ↓reduceIte]
      omega
    · rw [hopen] at hb
      rcases List.mem_cons.mp hb with he | hb
      · exact absurd he hba
      obtain ⟨j, hj, hcj, hp⟩ := h.listed b hb
      refine ⟨j, (Function.update_of_ne hba _ _).trans hj, ?_, hp⟩
      simp only [bump, weight_some, if_neg hba, hcj]
      omega
  · intro b hb
    rw [hopen, List.mem_cons, not_or] at hb
    rw [hheld]
    simp only [bump, weight_some, if_neg hb.1]
    exact h.unlisted b hb.2
  · intro b hb
    rw [hopen, List.mem_cons] at hb
    rw [hnext]
    rcases hb with rfl | hb
    · exact Nat.lt_succ_self _
    · exact Nat.lt_succ_of_lt (h.below b hb)
  · intro p hp
    rw [hd]
    exact h.fresh p (by omega)

/-- An open inode is counted once more. -/
theorem Counted.count (h : Counted s x) {a : ℕ} {i : Inode} (ha : a ∈ s.openInodes)
    (hi : s.inodes a = some i) :
    Counted (s.setInode a { i with openCnts := i.openCnts + 1 }) (bump x a) := by
  refine ⟨h.nodup, fun b hb => ?_, fun b hb => ?_, h.below, h.fresh⟩
  · obtain ⟨j, hj, hc, hp⟩ := h.listed b hb
    have hheld : held (s.setInode a { i with openCnts := i.openCnts + 1 }) b = held s b := rfl
    rw [hheld]
    by_cases hba : b = a
    · subst b
      obtain rfl := Option.some.inj (hi.symm.trans hj)
      refine ⟨_, Function.update_self _ _ _, ?_, Nat.succ_pos _⟩
      simp only [bump, weight_some, ↓reduceIte, hc]
      omega
    · refine ⟨j, (Function.update_of_ne hba _ _).trans hj, ?_, hp⟩
      simp only [bump, weight_some, if_neg hba, hc]
      omega
  · have hba : b ≠ a := fun he => hb (he ▸ ha)
    simp only [bump, weight_some, if_neg hba]
    exact h.unlisted b hb

theorem inodeOpen_counted {n a : ℕ} (ho : inodeOpen n s = some (a, s')) (h : Counted s x) :
    Counted s' (bump x a) ∧ SameFiles s s' ∧ s'.dirs = s.dirs := by
  rcases inodeOpen_some ho with ⟨ha, i, hi, -, rfl⟩ | ⟨-, -, rfl, m, rfl⟩
  · exact ⟨h.count ha hi, ⟨rfl, rfl, rfl, rfl⟩, rfl⟩
  · refine ⟨h.push (i := { diskInode part s.vol.disk n with openCnts := 1 }) rfl ?_ ?_ ?_ ?_ ?_ ?_,
      ⟨rfl, rfl, rfl, rfl⟩, rfl⟩ <;> rfl

theorem inodeClose_counted {a : ℕ} (hcl : inodeClose a s = some s') (h : Counted s (bump x a)) :
    Counted s' x := by
  have ha : a ∈ s.openInodes := by
    by_contra hn
    have := h.unlisted a hn
    simp only [bump, weight_some, ↓reduceIte] at this
    omega
  obtain ⟨i, hi, hc, hp⟩ := h.listed a ha
  simp only [bump, weight_some, ↓reduceIte] at hc
  obtain ⟨i', hi', hcase⟩ := inodeClose_some hcl
  obtain rfl := Option.some.inj (hi.symm.trans hi')
  rcases hcase with ⟨h1, rfl⟩ | ⟨h1, rfl⟩
  · refine ⟨h.nodup.erase a, fun b hb => ?_, fun b hb => ?_, fun b hb => ?_, h.fresh⟩
    · obtain ⟨hne, hb⟩ := h.nodup.mem_erase_iff.mp hb
      obtain ⟨j, hj, hcj, hpj⟩ := h.listed b hb
      refine ⟨j, (Function.update_of_ne hne _ _).trans hj, ?_, hpj⟩
      simp only [bump, weight_some, if_neg hne, Nat.add_zero] at hcj
      exact hcj
    · by_cases hba : b = a
      · subst b
        have : held s a + x a = 0 := by omega
        exact this
      · have hnb : b ∉ s.openInodes := fun hm => hb (h.nodup.mem_erase_iff.mpr ⟨hba, hm⟩)
        have := h.unlisted b hnb
        simp only [bump, weight_some, if_neg hba, Nat.add_zero] at this
        exact this
    · exact h.below b (h.nodup.mem_erase_iff.mp hb).2
  · refine ⟨h.nodup, fun b hb => ?_, fun b hb => ?_, h.below, h.fresh⟩
    · by_cases hba : b = a
      · subst b
        refine ⟨_, Function.update_self _ _ _, ?_, ?_⟩
        · rw [if_neg (by omega)]
          have : i.openCnts - 1 = held s a + x a := by omega
          exact this
        · simp only
          rw [if_neg (by omega)]
          omega
      · obtain ⟨j, hj, hcj, hpj⟩ := h.listed b hb
        refine ⟨j, (Function.update_of_ne hba _ _).trans hj, ?_, hpj⟩
        simp only [bump, weight_some, if_neg hba, Nat.add_zero] at hcj
        exact hcj
    · have hba : b ≠ a := fun he => hb (he ▸ ha)
      have := h.unlisted b hb
      simp only [bump, weight_some, if_neg hba, Nat.add_zero] at this
      exact this

theorem inodeClose_same {a : ℕ} (h : inodeClose a s = some s') :
    SameFiles s s' ∧ s'.dirs = s.dirs ∧ s'.next = s.next := by
  obtain ⟨i, -, ⟨-, rfl⟩ | ⟨-, rfl⟩⟩ := inodeClose_some h <;> exact ⟨⟨rfl, rfl, rfl, rfl⟩, rfl, rfl⟩

/-- Closing an inode does not look at handles and files. -/
theorem inodeClose_frame {a : ℕ} {f : Kernel part → Kernel part} (h : inodeClose a s = some s')
    (hi : (f s).inodes a = s.inodes a)
    (hfree : f { s.freeInode a with openInodes := s.openInodes.erase a } =
      { (f s).freeInode a with openInodes := (f s).openInodes.erase a })
    (hset : ∀ i, f (s.setInode a i) = (f s).setInode a i) :
    inodeClose a (f s) = some (f s') := by
  obtain ⟨i, hopen, ⟨hc, rfl⟩ | ⟨hc, rfl⟩⟩ := inodeClose_some h
  · rw [inodeClose, bind_some_iff]
    refine ⟨i, hi.trans hopen, ?_⟩
    rw [if_pos hc, hfree]
    rfl
  · rw [inodeClose, bind_some_iff]
    refine ⟨i, hi.trans hopen, ?_⟩
    rw [if_neg hc, hset]
    rfl

theorem inodeClose_withDirs {a : ℕ} (h : inodeClose a s = some s') (D : ℕ → Option Dir) :
    inodeClose a { s with dirs := D } = some { s' with dirs := D } :=
  inodeClose_frame (f := fun s => { s with dirs := D }) h rfl rfl fun _ => rfl

theorem inodeClose_setFile {a : ℕ} (h : inodeClose a s = some s') (k : ℕ) (f : File) :
    inodeClose a (s.setFile k f) = some (s'.setFile k f) :=
  inodeClose_frame (f := fun s => s.setFile k f) h rfl rfl fun _ => rfl

/-- The handles in use are those of `D` and `d`. -/
def Handles (D : ℕ → Option Dir) (d : Option DirPtr) (s : Kernel part) : Prop :=
  match d with
  | some (.heap p) => D p = none ∧ ∃ dir, s.dirs = Function.update D p (some dir)
  | _ => s.dirs = D

theorem Handles.congr {D : ℕ → Option Dir} {d : Option DirPtr} (h : Handles D d s)
    (he : s'.dirs = s.dirs) : Handles D d s' := by
  rcases d with _ | _ | p
  · exact he.trans h
  · exact he.trans h
  · obtain ⟨hz, dir, hd⟩ := h
    exact ⟨hz, dir, he.trans hd⟩

theorem dirSlots_update (D : ℕ → Option Dir) (p : ℕ) (d : Option Dir) :
    dirSlots { s with dirs := Function.update D p d } =
      Function.update (dirSlots { s with dirs := D }) p (d.map Dir.inode) := by
  funext q
  by_cases hq : q = p
  · subst q
    simp [dirSlots]
  · simp [dirSlots, hq]

theorem dirOpen_counted {n : ℕ} {d : Option DirPtr} (ho : dirOpen n s = some (d, s'))
    (h : Counted s x) : Counted s' x ∧ SameFiles s s' ∧ Handles s.dirs d s' := by
  simp only [dirOpen] at ho
  split at ho
  · obtain ⟨rfl, rfl⟩ := Prod.mk.inj (Option.some.inj ho)
    exact ⟨h.malloc, sameFiles_malloc s, rfl⟩
  · rw [bind_some_iff] at ho
    obtain ⟨⟨a, s1⟩, ho1, ho⟩ := ho
    obtain ⟨hc, hsame, hdirs⟩ := inodeOpen_counted ho1 h.malloc
    obtain ⟨rfl, rfl⟩ := Prod.mk.inj (Option.some.inj ho)
    have hheld : ∀ b, held { s1 with
        dirs := Function.update s1.dirs s1.next (some ⟨a, 0⟩), next := s1.next + 1 } b =
        held s1 b + weight (some a) b := by
      intro b
      have hp := occurs_push s1.next (dirSlots s1) (some a) b
      rw [held, held]
      have hslots : dirSlots { s1 with
          dirs := Function.update s1.dirs s1.next (some ⟨a, 0⟩), next := s1.next + 1 } =
          Function.update (dirSlots s1) s1.next (some a) := dirSlots_update s1.dirs s1.next _
      have hfiles : fileSlots { s1 with
          dirs := Function.update s1.dirs s1.next (some ⟨a, 0⟩), next := s1.next + 1 } =
          fileSlots s1 := rfl
      rw [hslots, hfiles]
      simp only
      rw [hp]
      omega
    have hfresh := hc.fresh s1.next le_rfl
    refine ⟨⟨hc.nodup, fun b hb => ?_, fun b hb => ?_, fun b hb => ?_, fun p hp => ?_⟩,
      (sameFiles_malloc s).trans ⟨hsame.vol, hsame.fileTable, hsame.cur, hsame.rootInode⟩, ?_, ?_⟩
    · obtain ⟨i, hi, hci, hpi⟩ := hc.listed b hb
      refine ⟨i, hi, ?_, hpi⟩
      rw [hci, hheld, bump]
      omega
    · have := hc.unlisted b hb
      rw [bump] at this
      rw [hheld]
      omega
    · have := hc.below b hb
      simp only
      omega
    · simp only at hp ⊢
      rw [Function.update_of_ne (by omega)]
      exact hc.fresh p (by omega)
    · rw [← show s1.dirs = s.dirs from hdirs]
      exact hfresh
    · exact ⟨⟨a, 0⟩, by rw [← show s1.dirs = s.dirs from hdirs]⟩

theorem dirClose_counted {D : ℕ → Option Dir} {d : Option DirPtr} (hcl : dirClose d s = some s')
    (h : Counted s x) (hd : Handles D d s) : Counted s' x ∧ SameFiles s s' ∧ s'.dirs = D := by
  rcases d with _ | _ | p
  · cases hcl
  · obtain rfl := Option.some.inj hcl
    exact ⟨h, SameFiles.refl _, hd⟩
  · obtain ⟨hz, dir, hdir⟩ := hd
    have hp : s.dirs p = some dir := by rw [hdir, Function.update_self]
    have hlt : p < s.next := by
      by_contra hn
      rw [h.fresh p (by omega)] at hp
      cases hp
    simp only [dirClose, bind_some_iff] at hcl
    obtain ⟨dir', hp', s1, h1, hcl⟩ := hcl
    obtain rfl := Option.some.inj (hp.symm.trans hp')
    have hback : Function.update s.dirs p none = D := by
      rw [hdir, Function.update_idem, ← hz, Function.update_eq_self]
    -- give the handle up first, then close the inode it referred to
    have hheld : ∀ b, held { s with dirs := D } b + weight (some dir.inode) b = held s b := by
      intro b
      have hu := occurs_update hlt (dirSlots s) none b
      have hslots : dirSlots { s with dirs := D } = Function.update (dirSlots s) p none := by
        rw [← hback]
        exact dirSlots_update s.dirs p none
      have hval : dirSlots s p = some dir.inode := by
        simp only [dirSlots, hp, Option.map_some]
      rw [hval, weight_none, Nat.add_zero, ← hslots] at hu
      rw [held, held, ← hu]
      simp only [show fileSlots { s with dirs := D } = fileSlots s from rfl]
      omega
    have hc : Counted { s with dirs := D } (bump x dir.inode) := by
      refine ⟨h.nodup, fun b hb => ?_, fun b hb => ?_, h.below, fun q hq => ?_⟩
      · obtain ⟨i, hi, hci, hpi⟩ := h.listed b hb
        refine ⟨i, hi, ?_, hpi⟩
        have := hheld b
        rw [hci, bump]
        omega
      · have := h.unlisted b hb
        have := hheld b
        rw [bump]
        omega
      · rw [← hback]
        simp only
        rw [Function.update_of_ne (by simp only at hq; omega)]
        exact h.fresh q hq
    have hc' := inodeClose_counted (inodeClose_withDirs h1 D) hc
    obtain ⟨hs1, hd1, -⟩ := inodeClose_same h1
    obtain rfl := Option.some.inj hcl
    rw [hd1, hback]
    exact ⟨hc', ⟨hs1.vol, hs1.fileTable, hs1.cur, hs1.rootInode⟩, rfl⟩

/-- What a handle refers to is open. -/
theorem Counted.dirInode_open (h : Counted s x) {d : Option DirPtr} {a : ℕ}
    (ha : dirInode s d = some a) :
    a ∈ s.openInodes := by
  by_contra hn
  have hz := h.unlisted a hn
  rw [held] at hz
  rcases d with _ | _ | p
  · cases ha
  · obtain rfl := Option.some.inj ha
    rw [weight_some, if_pos rfl] at hz
    omega
  · have hlt : p < s.next := by
      by_contra hge
      rw [dirInode, h.fresh p (by omega)] at ha
      cases ha
    have := occurs_pos.mpr ⟨p, hlt, show dirSlots s p = some a from ha⟩
    omega

/-- What a slot of the file table refers to is open. -/
theorem Counted.fileInode_open (h : Counted s x) {k a : ℕ} (hk : k < maxFilesOpen)
    (ha : (s.fileTable k).fdInode = some a) : a ∈ s.openInodes := by
  by_contra hn
  have hz := h.unlisted a hn
  have := occurs_pos.mpr ⟨k, hk, show fileSlots s k = some a from ha⟩
  rw [held] at hz
  omega

/-- The file system when only `root_dir` is open. -/
structure Booted (v : Volume part) (s : Kernel part) : Prop where
  vol : s.vol = v
  inode : s.inodes 0 = some { diskInode part v.disk 0 with openCnts := 1 }
  openInodes : s.openInodes = [0]
  dirs : s.dirs = fun _ => none
  rootInode : s.rootInode = 0
  fileTable : s.fileTable = fun _ => ⟨0, 0, none⟩
  cur : s.cur = ⟨fun k => if k < 3 then some k else none, 0⟩
  next : s.next = 1

theorem openRootDir_some {v : Volume part} {m : ℕ → Bool}
    (h : openRootDir (mounted v m) = some s) : Booted v s := by
  rw [openRootDir, bind_some_iff, part.layout.root_no] at h
  obtain ⟨⟨a, s1⟩, ho, h⟩ := h
  obtain rfl := Option.some.inj h
  rcases inodeOpen_some ho with ⟨ha, -⟩ | ⟨-, -, rfl, m', rfl⟩
  · cases ha
  · exact ⟨rfl, by simp [mounted], rfl, rfl, rfl, rfl, rfl, rfl⟩

theorem Booted.counted {v : Volume part} (h : Booted v s) : Counted s fun _ => 0 := by
  have hheld : ∀ b, held s b = weight (some 0) b := by
    intro b
    simp [held, occurs, fileSlots, dirSlots, h.fileTable, h.dirs, h.rootInode]
  constructor
  · rw [h.openInodes]
    exact List.nodup_singleton _
  · intro b hb
    rw [h.openInodes, List.mem_singleton] at hb
    subst b
    rw [hheld, weight_some, if_pos rfl]
    exact ⟨_, h.inode, rfl, Nat.one_pos⟩
  · intro b hb
    rw [h.openInodes, List.mem_singleton] at hb
    rw [hheld, weight_some, if_neg hb]
  · intro b hb
    rw [h.openInodes, List.mem_singleton] at hb
    rw [hb, h.next]
    exact Nat.one_pos
  · intro p _
    rw [h.dirs]

/-- What is not written to the disk is as before, and so is the number. -/
structure SameUse (i j : Inode) : Prop where
  no : i.iNo = j.iNo
  cnts : i.openCnts = j.openCnts
  deny : i.writeDeny = j.writeDeny

theorem SameUse.refl (i : Inode) : SameUse i i := ⟨rfl, rfl, rfl⟩

theorem removeEntry_use {b : BlockScan} {k blockIdx : ℕ} {allBlocks : ℕ → ℕ} {io : Bytes}
    {i i' : Inode} {v v' : Volume part}
    (h : removeEntry b k blockIdx allBlocks io i v = some (i', v')) : SameUse i' i := by
  rw [removeEntry] at h
  split at h
  · rw [dropBlock, bind_some_iff] at h
    obtain ⟨v1, -, h⟩ := h
    split at h
    · obtain ⟨rfl, -⟩ := by simpa using h
      exact ⟨rfl, rfl, rfl⟩
    · rw [assert_bind] at h
      obtain ⟨-, h⟩ := h
      split at h
      · simp only [bind_some_iff, Option.pure_def, Option.some.injEq, Prod.mk.injEq] at h
        obtain ⟨-, -, rfl, -⟩ := h
        exact SameUse.refl _
      · simp only [bind_some_iff, Option.pure_def, Option.some.injEq, Prod.mk.injEq] at h
        obtain ⟨-, -, rfl, -⟩ := h
        exact ⟨rfl, rfl, rfl⟩
  · simp only [bind_some_iff, Option.pure_def, Option.some.injEq, Prod.mk.injEq] at h
    obtain ⟨-, -, rfl, -⟩ := h
    exact SameUse.refl _

theorem deleteDirEntry_use {n : ℕ} {i i' : Inode} {v v' : Volume part} {ok : Bool}
    (h : deleteDirEntry i n v = some (ok, i', v')) : SameUse i' i := by
  rw [deleteDirEntry, bind_some_iff] at h
  obtain ⟨allBlocks, -, h⟩ := h
  generalize 140 = left, 0 = idx at h
  induction left generalizing idx with
  | zero =>
    obtain ⟨-, rfl, -⟩ := by simpa [deleteBlocks] using h
    exact SameUse.refl _
  | succ left ih =>
    rw [deleteBlocks] at h
    split at h
    · exact ih _ h
    · rw [bind_some_iff] at h
      obtain ⟨io, -, h⟩ := h
      rw [bind_some_iff] at h
      obtain ⟨b, -, h⟩ := h
      split at h
      · exact ih _ h
      · simp only [bind_some_iff, Option.pure_def, Option.some.injEq, Prod.mk.injEq] at h
        obtain ⟨-, -, ⟨j, w⟩, hrem, -, -, -, -, -, rfl, -⟩ := h
        have hj := removeEntry_use hrem
        exact ⟨hj.no, hj.cnts, hj.deny⟩

end Steps

end FsReferenceCounts
