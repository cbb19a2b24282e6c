import XianweiOS.FsReferenceRuns

/-! What a path lookup leaves alone. `search_file` borrows one directory handle at a time: beside
the reference it holds, every open inode is as before, and once the handle is closed nothing of
the lookup is left but used-up addresses. -/
namespace FsLookupFrame

open ByteStore HaltingProgram KernelBitmap DeviceIde FsVolume FsInodeTable FsDirectory FsPath
  FsOpenFiles FsSyscalls FsReferenceCounts FsReferenceRuns

variable {part : Partition} {s t t' : Kernel part} {a n : ℕ} {d : Option DirPtr}

/-- The inodes in the list, that of the root directory among them, are there and counted. -/
structure WellOpen (s : Kernel part) : Prop where
  listed : ∀ a ∈ s.openInodes, ∃ i, s.inodes a = some i ∧ 0 < i.openCnts
  below : ∀ a ∈ s.openInodes, a < s.next
  root : s.rootInode ∈ s.openInodes

theorem wellOpen_of_counted {x : ℕ → ℕ} (h : Counted s x) : WellOpen s := by
  have hroot : dirInode s (some .root) = some s.rootInode := rfl
  refine ⟨fun a ha => ?_, h.below, h.dirInode_open hroot⟩
  obtain ⟨i, hi, -, hpos⟩ := h.listed a ha
  exact ⟨i, hi, hpos⟩

/-- Volume, tables, the list of open inodes and the inodes in it are the same. -/
structure SameOpen (s t : Kernel part) : Prop where
  files : SameFiles s t
  openInodes : t.openInodes = s.openInodes
  inodes : ∀ a ∈ s.openInodes, t.inodes a = s.inodes a
  next : s.next ≤ t.next

theorem SameOpen.refl (s : Kernel part) : SameOpen s s :=
  ⟨SameFiles.refl s, rfl, fun _ _ => rfl, le_rfl⟩

theorem SameOpen.trans (h : SameOpen s t) (h' : SameOpen t t') : SameOpen s t' :=
  ⟨h.files.trans h'.files, h'.openInodes.trans h.openInodes,
    fun a ha => (h'.inodes a (h.openInodes ▸ ha)).trans (h.inodes a ha), h.next.trans h'.next⟩

theorem sameOpen_malloc (s : Kernel part) : SameOpen s (sysMalloc s).2 :=
  ⟨sameFiles_malloc s, rfl, fun _ _ => rfl, le_rfl⟩

/-- One more reference to the inode at `a`, which may have been read in for it. -/
structure OneMore (s : Kernel part) (a : ℕ) (t : Kernel part) : Prop where
  files : SameFiles s t
  next : s.next ≤ t.next
  below : a < t.next
  others : ∀ b ∈ s.openInodes, b ≠ a → t.inodes b = s.inodes b
  held : (a ∈ s.openInodes ∧ t.openInodes = s.openInodes ∧ ∃ i, s.inodes a = some i ∧
      t.inodes a = some { i with openCnts := i.openCnts + 1 }) ∨
    (a ∉ s.openInodes ∧ t.openInodes = a :: s.openInodes ∧ ∃ i, t.inodes a = some i ∧
      i.openCnts = 1)

theorem OneMore.mem (h : OneMore s a t) : a ∈ t.openInodes := by
  rcases h.held with ⟨ha, ho, -⟩ | ⟨-, ho, -⟩
  · rwa [ho]
  · rw [ho]
    exact List.mem_cons_self

theorem OneMore.sub (h : OneMore s a t) {b : ℕ} (hb : b ∈ s.openInodes) : b ∈ t.openInodes := by
  rcases h.held with ⟨-, ho, -⟩ | ⟨-, ho, -⟩
  · rwa [ho]
  · rw [ho]
    exact List.mem_cons_of_mem _ hb

theorem OneMore.same (h : OneMore s a t) (h' : SameOpen t t') : OneMore s a t' := by
  refine ⟨h.files.trans h'.files, h.next.trans h'.next, Nat.lt_of_lt_of_le h.below h'.next,
    fun b hb hne => (h'.inodes b (h.sub hb)).trans (h.others b hb hne), ?_⟩
  rw [h'.openInodes, h'.inodes a h.mem]
  exact h.held

theorem inodeOpen_oneMore (hw : WellOpen s) (h : SameOpen s t)
    (ho : inodeOpen n t = some (a, t')) : OneMore s a t' := by
  rcases inodeOpen_some ho with ⟨ha, i, hi, -, rfl⟩ | ⟨-, -, rfl, m, rfl⟩
  · rw [h.openInodes] at ha
    refine ⟨⟨h.files.vol, h.files.fileTable, h.files.cur, h.files.rootInode⟩, h.next,
      Nat.lt_of_lt_of_le (hw.below a ha) h.next,
      fun b hb hne => (t.setInode_ne _ hne).trans (h.inodes b hb),
      .inl ⟨ha, h.openInodes, i, ?_, t.setInode_self a _⟩⟩
    rw [← h.inodes a ha]
    exact hi
  · have hfresh : t.next ∉ s.openInodes := fun hm =>
      absurd (Nat.lt_of_lt_of_le (hw.below _ hm) h.next) (lt_irrefl _)
    refine ⟨⟨h.files.vol, h.files.fileTable, h.files.cur, h.files.rootInode⟩,
      h.next.trans (Nat.le_succ _), Nat.lt_succ_self _, fun b hb hne => ?_,
      .inr ⟨hfresh, by simp [h.openInodes], _, Function.update_self _ _ _, rfl⟩⟩
    exact (Function.update_of_ne hne _ _).trans (h.inodes b hb)

theorem inodeClose_oneMore (hw : WellOpen s) (h : OneMore s a t)
    (hc : inodeClose a t = some t') : SameOpen s t' := by
  obtain ⟨i, hi, hcase⟩ := inodeClose_some hc
  rcases h.held with ⟨ha, hl, j, hj, hj'⟩ | ⟨ha, hl, j, hj, hj1⟩
  · -- it was open before, so that the count does not go down to zero
    obtain rfl := Option.some.inj (hi.symm.trans hj')
    obtain ⟨k, hk, hpos⟩ := hw.listed a ha
    obtain rfl := Option.some.inj (hj.symm.trans hk)
    rcases hcase with ⟨h1, -⟩ | ⟨-, rfl⟩
    · simp only at h1
      omega
    · refine ⟨⟨h.files.vol, h.files.fileTable, h.files.cur, h.files.rootInode⟩, hl,
        fun b hb => ?_, h.next⟩
      by_cases hba : b = a
      · subst b
        rw [t.setInode_self, hj]
        simp only [if_neg (Nat.succ_ne_zero _), Nat.add_sub_cancel]
      · exact (t.setInode_ne _ hba).trans (h.others b hb hba)
  · obtain rfl := Option.some.inj (hi.symm.trans hj)
    rcases hcase with ⟨-, rfl⟩ | ⟨h1, -⟩
    · refine ⟨⟨h.files.vol, h.files.fileTable, h.files.cur, h.files.rootInode⟩, ?_,
        fun b hb => ?_, h.next⟩
      · simp only [hl, List.erase_cons_head]
      · have hba : b ≠ a := fun he => ha (he ▸ hb)
        exact (Function.update_of_ne hba _ _).trans (h.others b hb hba)
    · exact absurd hj1 h1

/-- `s` with the handle `d` lent to someone. -/
def Lends (s : Kernel part) : Option DirPtr → Kernel part → Prop
  | some (.heap p), t => ∃ dir, t.dirs p = some dir ∧ OneMore s dir.inode t
  | _, t => SameOpen s t

theorem Lends.files (h : Lends s d t) : SameFiles s t := by
  rcases d with _ | _ | p
  · exact SameOpen.files h
  · exact SameOpen.files h
  · obtain ⟨dir, -, ho⟩ := h
    exact ho.files

theorem Lends.next (h : Lends s d t) : s.next ≤ t.next := by
  rcases d with _ | _ | p
  · exact SameOpen.next h
  · exact SameOpen.next h
  · obtain ⟨dir, -, ho⟩ := h
    exact ho.next

/-- An inode of `s` is still open, and at most its count has changed: it has grown. -/
theorem Lends.inode (h : Lends s d t) {b : ℕ} {i : Inode} (hb : b ∈ s.openInodes)
    (hi : s.inodes b = some i) :
    b ∈ t.openInodes ∧ ∃ c, i.openCnts ≤ c ∧ t.inodes b = some { i with openCnts := c } := by
  have hsame : SameOpen s t →
      b ∈ t.openInodes ∧ ∃ c, i.openCnts ≤ c ∧ t.inodes b = some { i with openCnts := c } :=
    fun h => ⟨h.openInodes ▸ hb, i.openCnts, le_rfl, (h.inodes b hb).trans hi⟩
  rcases d with _ | _ | p
  · exact hsame h
  · exact hsame h
  · obtain ⟨dir, -, ho⟩ := h
    refine ⟨ho.sub hb, ?_⟩
    by_cases hba : b = dir.inode
    · rcases ho.held with ⟨-, -, j, hj, hj'⟩ | ⟨hnot, -⟩
      · rw [← hba, hi] at hj
        obtain rfl := Option.some.inj hj
        exact ⟨_, Nat.le_succ _, hba ▸ hj'⟩
      · exact absurd (hba ▸ hb) hnot
    · exact ⟨i.openCnts, le_rfl, (ho.others b hb hba).trans hi⟩

/-- An open inode that the handle does not refer to is one of `s`. -/
theorem Lends.other (h : Lends s d t) (ha : dirInode t d = some a) {b : ℕ}
    (hb : b ∈ t.openInodes) (hne : b ≠ a) : b ∈ s.openInodes ∧ t.inodes b = s.inodes b := by
  have hsame : SameOpen s t → b ∈ s.openInodes ∧ t.inodes b = s.inodes b := fun h =>
    have hb := h.openInodes ▸ hb
    ⟨hb, h.inodes b hb⟩
  rcases d with _ | _ | p
  · cases ha
  · exact hsame h
  · obtain ⟨dir, hd, ho⟩ := h
    simp only [dirInode, hd, Option.map_some, Option.some.injEq] at ha
    rw [← ha] at hne
    have hbs : b ∈ s.openInodes := by
      rcases ho.held with ⟨-, hl, -⟩ | ⟨-, hl, -⟩
      · rwa [hl] at hb
      · rw [hl] at hb
        exact (List.mem_cons.mp hb).resolve_left hne
    exact ⟨hbs, ho.others b hbs hne⟩

theorem Lends.malloc (h : Lends s d t) : Lends s d (sysMalloc t).2 := by
  rcases d with _ | _ | p
  · exact SameOpen.trans h (sameOpen_malloc t)
  · exact SameOpen.trans h (sameOpen_malloc t)
  · obtain ⟨dir, hd, ho⟩ := h
    exact ⟨dir, hd, ho.same (sameOpen_malloc t)⟩

/-- Nothing differs but memory that was not in use. -/
structure Beside (t t' : Kernel part) : Prop where
  files : SameFiles t t'
  openInodes : t'.openInodes = t.openInodes
  dirs : t'.dirs = t.dirs
  inodes : ∀ b < t.next, t'.inodes b = t.inodes b
  next : t.next ≤ t'.next

theorem Lends.beside (hw : WellOpen s) (h : Lends s d t) (hb : Beside t t') : Lends s d t' := by
  have hsame : SameOpen s t → SameOpen s t' := fun h =>
    ⟨h.files.trans hb.files, hb.openInodes.trans h.openInodes,
      fun a ha => (hb.inodes a (Nat.lt_of_lt_of_le (hw.below a ha) h.next)).trans (h.inodes a ha),
      h.next.trans hb.next⟩
  rcases d with _ | _ | p
  · exact hsame h
  · exact hsame h
  · obtain ⟨dir, hd, ho⟩ := h
    refine ⟨dir, (congrFun hb.dirs p).trans hd, ho.files.trans hb.files, ho.next.trans hb.next,
      Nat.lt_of_lt_of_le ho.below hb.next, fun b hm hne => ?_, ?_⟩
    · rw [hb.inodes b (Nat.lt_of_lt_of_le (hw.below b hm) ho.next)]
      exact ho.others b hm hne
    · rw [hb.openInodes, hb.inodes _ ho.below]
      exact ho.held

theorem wellOpen_setFile (hw : WellOpen s) (k : ℕ) (f : File) : WellOpen (s.setFile k f) :=
  ⟨hw.listed, hw.below, hw.root⟩

theorem sameFiles_setFile (h : SameFiles s t) (k : ℕ) (f : File) :
    SameFiles (s.setFile k f) (t.setFile k f) := by
  refine ⟨h.vol, ?_, h.cur, h.rootInode⟩
  rw [Kernel.setFile, Kernel.setFile, h.fileTable]

theorem Lends.setFile (h : Lends s d t) (k : ℕ) (f : File) :
    Lends (s.setFile k f) d (t.setFile k f) := by
  have hsame : SameOpen s t → SameOpen (s.setFile k f) (t.setFile k f) := fun h =>
    ⟨sameFiles_setFile h.files k f, h.openInodes, h.inodes, h.next⟩
  rcases d with _ | _ | p
  · exact hsame h
  · exact hsame h
  · obtain ⟨dir, hd, ho⟩ := h
    exact ⟨dir, hd, sameFiles_setFile ho.files k f, ho.next, ho.below, ho.others, ho.held⟩

/-- The inode of a handle is in memory that is in use. -/
theorem Lends.dirInode_lt (hw : WellOpen s) (h : Lends s d t) (ha : dirInode t d = some a) :
    a < t.next := by
  rcases d with _ | _ | p
  · cases ha
  · obtain rfl := Option.some.inj ha
    rw [h.files.rootInode]
    exact Nat.lt_of_lt_of_le (hw.below _ hw.root) h.next
  · obtain ⟨dir, hd, ho⟩ := h
    simp only [dirInode, hd, Option.map_some, Option.some.injEq] at ha
    exact ha ▸ ho.below

theorem dirOpen_lends (hw : WellOpen s) (h : SameOpen s t) (ho : dirOpen n t = some (d, t')) :
    Lends s d t' := by
  simp only [dirOpen] at ho
  split at ho
  · obtain ⟨rfl, rfl⟩ := Prod.mk.inj (Option.some.inj ho)
    exact h.trans (sameOpen_malloc t)
  · rw [bind_some_iff] at ho
    obtain ⟨⟨a, t₁⟩, hop, ho⟩ := ho
    obtain ⟨rfl, rfl⟩ := Prod.mk.inj (Option.some.inj ho)
    have hone := inodeOpen_oneMore hw (h.trans (sameOpen_malloc t)) hop
    exact ⟨⟨a, 0⟩, Function.update_self _ _ _,
      ⟨hone.files.vol, hone.files.fileTable, hone.files.cur, hone.files.rootInode⟩,
      hone.next.trans (Nat.le_succ _), Nat.lt_succ_of_lt hone.below, hone.others, hone.held⟩

theorem dirClose_files (h : dirClose d s = some t) : SameFiles s t := by
  rcases d with _ | _ | p
  · cases h
  · obtain rfl := Option.some.inj h
    exact SameFiles.refl s
  · simp only [dirClose, bind_some_iff, Option.some.injEq, Option.pure_def] at h
    obtain ⟨dir, -, s₁, hcl, rfl⟩ := h
    have h₁ := (inodeClose_same hcl).1
    exact ⟨h₁.vol, h₁.fileTable, h₁.cur, h₁.rootInode⟩

/-- Closing the handle gives everything back. -/
theorem dirClose_lends (hw : WellOpen s) (h : Lends s d t) (hc : dirClose d t = some t') :
    SameOpen s t' := by
  rcases d with _ | _ | p
  · cases hc
  · obtain rfl := Option.some.inj hc
    exact h
  · obtain ⟨dir, hd, hone⟩ := h
    simp only [dirClose, hd, bind_some_iff, Option.some.injEq, Option.pure_def] at hc
    obtain ⟨_, rfl, t₁, hcl, rfl⟩ := hc
    have h₁ := inodeClose_oneMore hw hone hcl
    exact ⟨⟨h₁.files.vol, h₁.files.fileTable, h₁.files.cur, h₁.files.rootInode⟩,
      h₁.openInodes, h₁.inodes, h₁.next⟩

/-- A call that only closes the directory it has found. -/
theorem closeParent_same (hw : WellOpen s) (hd : Lends s d t) {α : Type} {r r' : α}
    (h : (dirClose d t >>= fun u => some (r', u)) = some (r, s')) : SameOpen s s' := by
  rw [bind_some_iff] at h
  obtain ⟨u, hcl, h⟩ := h
  obtain ⟨-, rfl⟩ := Prod.mk.inj (Option.some.inj h)
  exact dirClose_lends hw hd hcl

theorem searchDirEntryIn_lends {pdir : Option DirPtr} {name : List Byte} {r : Option DirEntry}
    (h : Lends s d t) (hs : searchDirEntryIn pdir name t = some (r, t')) : Lends s d t' := by
  rcases searchDirEntryIn_some hs with rfl | rfl
  · exact h.malloc
  · exact h.malloc.malloc

/-- The handle in the record is the one that is lent. -/
theorem searchLoop_lends (hw : WellOpen s) (name : List Byte) (subPath : Option (List Byte)) :
    ∀ {parentDir : Option DirPtr} {parentNo no : ℕ} {record record' : PathSearchRecord}
      {t t' : Kernel part} {r : Option ℕ},
    searchLoop name subPath parentDir parentNo no record t = some (r, record', t') →
    record.parentDir = parentDir → Lends s parentDir t → Lends s record'.parentDir t' := by
  -- on the part of the path that is left
  induction hl : pathLeft name subPath using Nat.strong_induction_on generalizing name subPath with
  | _ l ih =>
    intro parentDir parentNo no record record' t t' r h hrec hs
    rw [searchLoop] at h
    split at h
    · simp only [searchEnd, bind_some_iff, Option.pure_def, Option.some.injEq, Prod.mk.injEq] at h
      obtain ⟨t₁, hcl, ⟨d', t₂⟩, hop, -, rfl, rfl⟩ := h
      rw [hrec] at hcl
      exact dirOpen_lends hw (dirClose_lends hw hs hcl) hop
    · rename_i hname
      have hleft := nextName_left (p := subPath) hname
      simp only [assert_bind] at h
      obtain ⟨-, -, h⟩ := h
      rw [bind_some_iff] at h
      obtain ⟨⟨e, t₁⟩, hsearch, h⟩ := h
      have hs₁ := searchDirEntryIn_lends hs hsearch
      cases e with
      | none =>
        obtain ⟨-, rfl, rfl⟩ := by simpa using h
        simpa only [hrec] using hs₁
      | some e =>
        simp only [assert_bind] at h
        obtain ⟨-, h⟩ := h
        split at h
        · simp only [bind_some_iff] at h
          obtain ⟨a, -, i, -, t₂, hcl, ⟨d', t₃⟩, hop, h⟩ := h
          exact ih _ (hl ▸ hleft) _ _ rfl h rfl (dirOpen_lends hw (dirClose_lends hw hs₁ hcl) hop)
        split at h
        · obtain ⟨-, rfl, rfl⟩ := by simpa using h
          simpa only [hrec] using hs₁
        · exact ih _ (hl ▸ hleft) _ _ rfl h hrec hs₁

theorem searchFile_lends (hw : WellOpen s) {junk : Junk} {pathname : List Byte}
    {record record' : PathSearchRecord} {r : Option ℕ}
    (h : searchFile junk pathname record s = some (r, record', t)) :
    Lends s record'.parentDir t := by
  rw [searchFile] at h
  split at h
  · obtain ⟨-, rfl, rfl⟩ := by simpa using h
    exact SameOpen.refl s
  · simp only [assert_bind] at h
    exact searchLoop_lends hw _ _ h.2.2 rfl (SameOpen.refl s)

end FsLookupFrame
