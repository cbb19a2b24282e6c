import XianweiOS.FsReferenceRuns

/-! What opening and closing inodes leaves alone: the file table, the running task, and of the
inodes whatever does not depend on their reference counts. -/
namespace FsKernelFrame

open ByteStore HaltingProgram KernelBitmap DeviceIde FsVolume FsInodeTable FsDirectory FsPath
  FsOpenFiles FsSyscalls FsReferenceCounts FsReferenceRuns

variable {part : Partition} {R : Inode → Inode → Prop} {s s' : Kernel part}

/-- A preorder on inodes that does not look at reference counts. -/
structure CountFree (R : Inode → Inode → Prop) : Prop where
  refl : ∀ i, R i i
  trans : ∀ {i j k}, R i j → R j k → R i k
  cnts : ∀ i n, R i { i with openCnts := n }

/-- The file table and the running task stay, and an inode only moves along `R`. -/
structure Keeps (R : Inode → Inode → Prop) (s s' : Kernel part) : Prop where
  fileTable : s'.fileTable = s.fileTable
  cur : s'.cur = s.cur
  next : s.next ≤ s'.next
  moved : ∀ a < s.next, ∀ i', s'.inodes a = some i' → ∃ i, s.inodes a = some i ∧ R i i'
  fresh : ∀ a, s'.next ≤ a → s.inodes a = none → s'.inodes a = none

theorem Keeps.refl (hR : CountFree R) (s : Kernel part) : Keeps R s s :=
  ⟨rfl, rfl, le_rfl, fun _ _ i hi => ⟨i, hi, hR.refl i⟩, fun _ _ h => h⟩

theorem Keeps.trans {s'' : Kernel part} (hR : CountFree R) (h : Keeps R s s')
    (h' : Keeps R s' s'') : Keeps R s s'' := by
  refine ⟨h'.fileTable.trans h.fileTable, h'.cur.trans h.cur, h.next.trans h'.next,
    fun a ha i hi => ?_, fun a ha hz => h'.fresh a ha (h.fresh a (h'.next.trans ha) hz)⟩
  obtain ⟨i', hi', he'⟩ := h'.moved a (Nat.lt_of_lt_of_le ha h.next) i hi
  obtain ⟨i'', hi'', he''⟩ := h.moved a ha i' hi'
  exact ⟨i'', hi'', hR.trans he'' he'⟩

theorem keeps_malloc (hR : CountFree R) (s : Kernel part) : Keeps R s (sysMalloc s).2 :=
  ⟨rfl, rfl, le_rfl, fun _ _ i hi => ⟨i, hi, hR.refl i⟩, fun _ _ h => h⟩

theorem keeps_withVol (hR : CountFree R) (s : Kernel part) (v : Volume part) :
    Keeps R s (s.withVol v) :=
  ⟨rfl, rfl, le_rfl, fun _ _ i hi => ⟨i, hi, hR.refl i⟩, fun _ _ h => h⟩

theorem keeps_setInode (hR : CountFree R) {a : ℕ} {i i' : Inode} (hi : s.inodes a = some i)
    (hd : R i i') : Keeps R s (s.setInode a i') := by
  refine ⟨rfl, rfl, le_rfl, fun b _ j hj => ?_, fun b _ hz => ?_⟩
  · by_cases hb : b = a
    · subst b
      obtain rfl := Option.some.inj ((s.setInode_self a i').symm.trans hj)
      exact ⟨i, hi, hd⟩
    · exact ⟨j, (s.setInode_ne i' hb).symm.trans hj, hR.refl j⟩
  · have hb : b ≠ a := by
      rintro rfl
      rw [hi] at hz
      cases hz
    exact (s.setInode_ne i' hb).trans hz

theorem keeps_newInode (hR : CountFree R) (s : Kernel part) (i : Inode) :
    Keeps R s (s.newInode i) := by
  refine ⟨rfl, rfl, Nat.le_succ _, fun b hb j hj => ?_, fun b hb hz => ?_⟩
  · exact ⟨j, (Function.update_of_ne (Nat.ne_of_lt hb) _ _).symm.trans hj, hR.refl j⟩
  · exact (Function.update_of_ne (Nat.ne_of_gt hb) _ _).trans hz

theorem keeps_freeInode (hR : CountFree R) (s : Kernel part) (a : ℕ) :
    Keeps R s (s.freeInode a) := by
  have hfree : ∀ b, (s.freeInode a).inodes b = if b = a then none else s.inodes b := by
    intro b
    simp only [Kernel.freeInode, Function.update_apply]
  refine ⟨rfl, rfl, le_rfl, fun b _ j hj => ?_, fun b _ hz => ?_⟩
  · rw [hfree] at hj
    split at hj
    · cases hj
    · exact ⟨j, hj, hR.refl j⟩
  · rw [hfree, hz, ite_self]

/-- The list of open inodes is not looked at. -/
theorem Keeps.withOpenInodes (h : Keeps R s s') (l : List ℕ) :
    Keeps R s { s' with openInodes := l } := ⟨h.fileTable, h.cur, h.next, h.moved, h.fresh⟩

theorem inodeOpen_keeps (hR : CountFree R) {n a : ℕ} (h : inodeOpen n s = some (a, s')) :
    Keeps R s s' := by
  rcases inodeOpen_some h with ⟨-, i, hi, -, rfl⟩ | ⟨-, -, -, m, rfl⟩
  · exact keeps_setInode hR hi (hR.cnts i _)
  · have hq := keeps_newInode hR s { diskInode part s.vol.disk n with openCnts := 1 }
    exact ⟨hq.fileTable, hq.cur, hq.next, hq.moved, hq.fresh⟩

theorem inodeClose_keeps (hR : CountFree R) {a : ℕ} (h : inodeClose a s = some s') :
    Keeps R s s' := by
  obtain ⟨i, hi, ⟨-, rfl⟩ | ⟨-, rfl⟩⟩ := inodeClose_some h
  · exact (keeps_freeInode hR s a).withOpenInodes _
  · exact keeps_setInode hR hi (hR.cnts i _)

theorem dirOpen_keeps (hR : CountFree R) {n : ℕ} {d : Option DirPtr}
    (h : dirOpen n s = some (d, s')) : Keeps R s s' := by
  simp only [dirOpen] at h
  split at h
  · obtain ⟨-, rfl⟩ := Prod.mk.inj (Option.some.inj h)
    exact keeps_malloc hR s
  · rw [bind_some_iff] at h
    obtain ⟨⟨a, s1⟩, ho, h⟩ := h
    obtain ⟨-, rfl⟩ := Prod.mk.inj (Option.some.inj h)
    have h1 := (keeps_malloc hR s).trans hR (inodeOpen_keeps hR ho)
    exact ⟨h1.fileTable, h1.cur, Nat.le_succ_of_le h1.next, h1.moved,
      fun b hb => h1.fresh b (Nat.le_of_succ_le hb)⟩

theorem dirClose_keeps (hR : CountFree R) {d : Option DirPtr} (h : dirClose d s = some s') :
    Keeps R s s' := by
  rcases d with _ | _ | p
  · cases h
  · obtain rfl := Option.some.inj h
    exact Keeps.refl hR _
  · simp only [dirClose, bind_some_iff, Option.pure_def, Option.some.injEq] at h
    obtain ⟨dir, -, s1, hcl, rfl⟩ := h
    have h1 := inodeClose_keeps hR hcl
    exact ⟨h1.fileTable, h1.cur, h1.next, h1.moved, h1.fresh⟩

/-- The last line of most branches of `sys_open`. -/
theorem closeParent_keeps (hR : CountFree R) {d : Option DirPtr} {r r' : ℤ}
    (h : (dirClose d s >>= fun u => some (r', u)) = some (r, s')) : Keeps R s s' := by
  rw [bind_some_iff] at h
  obtain ⟨u, hcl, h⟩ := h
  obtain ⟨-, rfl⟩ := Prod.mk.inj (Option.some.inj h)
  exact dirClose_keeps hR hcl

theorem searchDirEntryIn_keeps (hR : CountFree R) {pdir : Option DirPtr} {name : List Byte}
    {r : Option DirEntry} (h : searchDirEntryIn pdir name s = some (r, s')) : Keeps R s s' := by
  rcases searchDirEntryIn_some h with rfl | rfl
  · exact keeps_malloc hR s
  · exact (keeps_malloc hR s).trans hR (keeps_malloc hR _)

theorem searchLoop_keeps (hR : CountFree R) (name : List Byte) (subPath : Option (List Byte)) :
    ∀ {parentDir : Option DirPtr} {parentNo no : ℕ} {record record' : PathSearchRecord}
      {s s' : Kernel part} {r : Option ℕ},
    searchLoop name subPath parentDir parentNo no record s = some (r, record', s') →
    Keeps R s s' := by
  -- on the part of the path that is left
  induction hl : pathLeft name subPath using Nat.strong_induction_on generalizing name subPath with
  | _ l ih =>
    intro parentDir parentNo no record record' s s' r h
    rw [searchLoop] at h
    split at h
    · simp only [searchEnd, bind_some_iff, Option.pure_def, Option.some.injEq, Prod.mk.injEq] at h
      obtain ⟨s1, hcl, ⟨d', s2⟩, hop, -, -, rfl⟩ := h
      exact (dirClose_keeps hR hcl).trans hR (dirOpen_keeps hR hop)
    · rename_i hname
      have hleft := nextName_left (p := subPath) hname
      simp only [assert_bind] at h
      obtain ⟨-, -, h⟩ := h
      rw [bind_some_iff] at h
      obtain ⟨⟨e, s1⟩, hsearch, h⟩ := h
      have hs1 : Keeps R s s1 := searchDirEntryIn_keeps hR hsearch
      cases e with
      | none =>
        obtain ⟨-, -, rfl⟩ := by simpa using h
        exact hs1
      | some e =>
        simp only [assert_bind] at h
        obtain ⟨-, h⟩ := h
        split at h
        · simp only [bind_some_iff] at h
          obtain ⟨a, -, i, -, s2, hcl, ⟨d', s3⟩, hop, h⟩ := h
          exact ((hs1.trans hR (dirClose_keeps hR hcl)).trans hR (dirOpen_keeps hR hop)).trans hR
            (ih _ (hl ▸ hleft) _ _ rfl h)
        split at h
        · obtain ⟨-, -, rfl⟩ := by simpa using h
          exact hs1
        · exact hs1.trans hR (ih _ (hl ▸ hleft) _ _ rfl h)

theorem searchFile_keeps (hR : CountFree R) {junk : Junk} {pathname : List Byte}
    {record record' : PathSearchRecord} {r : Option ℕ}
    (h : searchFile junk pathname record s = some (r, record', s')) : Keeps R s s' := by
  rw [searchFile] at h
  split at h
  · obtain ⟨-, -, rfl⟩ := by simpa using h
    exact Keeps.refl hR _
  · simp only [assert_bind] at h
    exact searchLoop_keeps hR _ _ h.2.2

end FsKernelFrame
