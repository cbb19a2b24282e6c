import XianweiOS.FsTree
import XianweiOS.FsStoreRuns

/-! A directory tree with the blocks of its objects. What a call does to one directory leaves the
files of the others alone, since no two objects share a block. -/
namespace FsConsistentTree

open ByteStore HaltingProgram KernelBitmap DeviceIde FsVolume FsInodeTable FsBlockMap FsOwnership
  FsFreeBlocks FsDirectory FsDirectorySlots FsDirectoryDelete FsDirectoryTable FsDirectoryMap
  FsDirectoryRuns FsInodeRelease FsStore FsStoreRuns PathTree FsTree

variable {part : Partition} {v v' : Volume part} {t : FileTree}

/-- The inodes as the disk holds them. -/
def diskStore (v : Volume part) : Store part := ⟨v, fun _ => none⟩

/-- The disk holds the tree, its objects have their numbers, and nobody else has their blocks. The
first block of the data area is the root directory's. -/
structure Consistent (v : Volume part) (t : FileTree) : Prop where
  tree : OnDiskTree v t
  owned : Owned (diskStore v)
  allocated : ∀ n, t n ≠ none → v.inodeBit n = true
  onDisk : ∀ n, t n ≠ none → OnDisk (ref v.disk (diskInode part v.disk n))
  first : ref v.disk (diskInode part v.disk 0) 0 = part.sb.dataStartLba

theorem Consistent.of_node (h : Consistent v t) {n : ℕ} (hn : t n ≠ none) :
    (diskStore v).Allocated n := ⟨h.tree.numbers n hn, h.allocated n hn⟩

/-- A directory depends on its size, on its block map and on the contents of its blocks. -/
theorem directory_kept {i i' : Inode} {m : NameMap} (h : Directory v i m)
    (ho : Owns v' (ref v'.disk i')) (hs : i'.iSize = i.iSize)
    (href : ∀ p < 141, ref v'.disk i' p = ref v.disk i p)
    (hquiet : ∀ p < 141, ref v.disk i p ≠ 0 → ∀ a ∈ sector (ref v.disk i p),
      v'.disk a = v.disk a) : Directory v' i' m := by
  refine DirSlots.directory (h.slots.congr ho (fun p hp => ?_) hs fun p hp j hj => ?_) h.keyed
    h.represents
  · rw [href p hp]
    exact h.onDisk p hp
  · exact rawSlot_congr (href p (by omega)) hj (hquiet p (by omega))

/-- An inode that stands for a directory fits into its record. -/
theorem directory_fits {i : Inode} {m : NameMap} (h : Directory v i m) (hn : i.iNo < 2 ^ 32) :
    i.Fits := by
  refine ⟨hn, ?_, fun k hk => ?_⟩
  · have hle := (dirTable_within v.disk (ref v.disk i)).live_le
    rw [h.size]
    omega
  · by_cases h12 : k < 12
    · rw [← ref_direct (d := v.disk) h12]
      exact owns_lt h.owns (by omega)
    · obtain rfl : k = 12 := by omega
      rw [← ref_table v.disk i]
      exact owns_lt h.owns (by omega)

/-- Directory `m` has lost the entry `k`, and every other directory is as it was. -/
structure EntryRemoved (v' : Volume part) (t : FileTree) (m : ℕ) (k : List Byte) : Prop where
  parent : Directory v' (diskInode part v'.disk m) (Function.update (entriesOf t m) k none)
  others : ∀ d, t.IsDir d → d ≠ m → Directory v' (diskInode part v'.disk d) (entriesOf t d)

/-- Giving back a block that was in use and is not the first one. -/
theorem releaseOne_exists {x : ℕ} (w : Volume part) (hx : InUse v x)
    (hne : x ≠ part.sb.dataStartLba) : ∃ w', releaseOne x w = some w' := by
  obtain ⟨k, rfl, hk, -⟩ := id hx
  have hidx : blockBitmapIdx part (part.sb.dataStartLba + k) = k := blockBitmapIdx_alloc (v := v) hk
  have hpos : 0 < blockBitmapIdx part (part.sb.dataStartLba + k) := by
    rw [hidx]
    omega
  obtain ⟨w', hw'⟩ := releaseBlock_exists w hx
  exact ⟨w', by rw [releaseOne, assert_bind]; exact ⟨hpos, hw'⟩⟩

theorem releaseLoop_exists {ab : ℕ → ℕ} (hab : ∀ k < 140, ab k ≠ 0 →
    InUse v (ab k) ∧ ab k ≠ part.sb.dataStartLba) : ∀ (left idx : ℕ) (w : Volume part),
    left + idx ≤ 140 → ∃ w', releaseLoop ab left idx w = some w' := by
  intro left
  induction left with
  | zero =>
    intro idx w _
    exact ⟨w, rfl⟩
  | succ left ih =>
    intro idx w hlen
    unfold releaseLoop
    split
    · rename_i hz
      obtain ⟨hx, hne⟩ := hab idx (by omega) hz
      obtain ⟨w₁, h₁⟩ := releaseOne_exists w hx hne
      rw [h₁]
      exact ih (idx + 1) w₁ (by omega)
    · exact ih (idx + 1) w (by omega)

/-- A release with a buffer returns, if the blocks of the inode are data blocks in use. -/
theorem inodeRelease_exists {w : Volume part} {j : Inode} {n : ℕ} (hno : j.iNo = n) (hlt : n < 4096)
    (htab : j.iSectors 12 ≤ maxLba) (hblocks : ∀ p < 141, ref w.disk j p ≠ 0 →
      InUse v (ref w.disk j p) ∧ ref w.disk j p ≠ part.sb.dataStartLba) :
    ∃ w', inodeRelease true j n w = some w' := by
  obtain ⟨ab, hab⟩ := loadAllBlocks_exists w.disk htab
  have hab' : ∀ k < 140, ab k ≠ 0 → InUse v (ab k) ∧ ab k ≠ part.sb.dataStartLba := by
    intro k hk
    rw [(loadAllBlocks_some hab hk).trans (ref_of_lt hk).symm]
    exact hblocks k (by omega)
  have hrel : ∃ w₁, releaseBlocks j w = some w₁ := by
    rw [releaseBlocks, hab, Option.bind_eq_bind, Option.bind_some]
    split
    · rename_i hz
      have h140 := hblocks 140 (by omega)
      rw [ref_table] at h140
      obtain ⟨hx, hne⟩ := h140 hz
      obtain ⟨w₁, h₁⟩ := releaseOne_exists w hx hne
      rw [h₁]
      exact releaseLoop_exists hab' 140 0 w₁ (by omega)
    · exact releaseLoop_exists hab' 12 0 w (by omega)
  obtain ⟨w₁, h₁⟩ := hrel
  have hsync := bitmapSync_inode_eq (w₁.setInodeBit n false) hlt
  simp only [inodeRelease, assert_pos hno, h₁, hsync, inodeDelete_eq part _ hlt, assert_pos,
    Option.bind_eq_bind, Option.bind_some]
  exact ⟨_, rfl⟩

section Unlink

variable {m n : ℕ} {k : List Byte} {i i' j : Inode} {v₁ v₂ : Volume part} {ok mem : Bool}

/-- A deletion up to the moment when the inode is written back. -/
theorem deleteDirEntry_parts (hdel : deleteDirEntry i n v = some (ok, i', v₁))
    (ho : Owns v (ref v.disk i)) : ∃ w, Rewrites True True v (ref v.disk i) w (ref w.disk i') ∧
      i'.iNo = i.iNo ∧ (v₁ = w ∨ v₁ = syncedInode w i') := by
  rcases deleteDirEntry_some hdel ho with ⟨-, rfl, rfl, -⟩ | ⟨-, w, hd, rfl⟩
  · exact ⟨v₁, (Rewrites.refl ho).weaken (fun _ => trivial) id, rfl, .inl rfl⟩
  · exact ⟨w, hd.rewrites, hd.head.no, .inr rfl⟩

/-- The store in which inode `m` is in memory. -/
def openStore (v : Volume part) (m : ℕ) (i : Inode) : Store part :=
  ⟨v, fun q => if q = m then some i else none⟩

theorem openStore_self (v : Volume part) (m : ℕ) (i : Inode) : (openStore v m i).node m = i := by
  simp [openStore, Store.node]

theorem openStore_ne (v : Volume part) (i : Inode) {q : ℕ} (h : q ≠ m) :
    (openStore v m i).node q = diskInode part v.disk q := by
  simp [openStore, Store.node, h]

theorem Consistent.openStore (h : Consistent v t) (hi : i.Same (diskInode part v.disk m)) :
    Owned (openStore v m i) := by
  apply owned_same h.owned
  intro q _
  by_cases hq : q = m
  · subst q
    exact (openStore_self v m i).symm ▸ hi
  · exact (openStore_ne v i hq).symm ▸ Inode.Same.refl _

/-- Only the entry of inode `n` has the number `n`. -/
theorem eraseNumber_child (h : Directory v i (entriesOf t m)) (hc : t.child dots m k = some n)
    (hk : k ≠ dot ∧ k ≠ dotdot) :
    eraseNumber (entriesOf t m) n = Function.update (entriesOf t m) k none := by
  have he : entriesOf t m k = some (n, (typeOf t n).code) := by
    rw [entriesOf, hc, Option.map_some]
  obtain ⟨s, hs⟩ := (h.represents k _).mp he
  exact eraseNumber_eq h hs hk.1 hk.2

theorem file_ne_root (h : WellFormed 0 t) {n : ℕ} (hn : t n = some .file) : n ≠ 0 := by
  rintro rfl
  obtain ⟨E, h0⟩ := h.top
  rw [hn] at h0
  cases h0

/-- A file is not behind `.` or `..`. -/
theorem child_file (h : WellFormed 0 t) (hc : t.child dots m k = some n) (hn : t n = some .file) :
    (k ≠ dot ∧ k ≠ dotdot) ∧ n ≠ m := by
  obtain ⟨p, E, hm⟩ := isDir_of_child hc
  refine ⟨⟨?_, ?_⟩, ?_⟩
  · rintro rfl
    have hself : t.child dots m dot = some m := child_self (w := dots) hm
    obtain rfl := Option.some.inj (hc.symm.trans hself)
    rw [hm] at hn
    cases hn
  · rintro rfl
    have hup : t.child dots m dotdot = some p := child_up (w := dots) hm (by decide)
    obtain rfl := Option.some.inj (hc.symm.trans hup)
    obtain ⟨q, E', hp⟩ := h.parent hm
    rw [hp] at hn
    cases hn
  · rintro rfl
    rw [hm] at hn
    cases hn

variable (h : Consistent v t) (hc : t.child dots m k = some n) (hn : t n = some .file)
  (hi : i.Same (diskInode part v.disk m)) (hj : j.Same (diskInode part v.disk n))

include h hc hn hi in
/-- The deletion writes the parent's inode, into the record of the number modulo 256. -/
theorem deleted_record (hdel : deleteDirEntry i n v = some (ok, i', v₁)) :
    (diskInode part v₁.disk (m % 256)).Same i' ∧ i'.iNo = m := by
  have hm := isDir_of_child hc
  obtain ⟨hk, -⟩ := child_file h.tree.tree hc hn
  have hdirm : Directory v i (entriesOf t m) := directory_same (h.tree.directory m hm) hi.symm
  have hdir₁ := deleteDirEntry_directory hdirm hdel
  have herase := eraseNumber_child hdirm hc hk
  rcases deleteDirEntry_some hdel hdirm.owns with ⟨-, rfl, rfl, hnone⟩ | ⟨-, w, hd, rfl⟩
  · -- the entry is there to be found
    rw [eraseNumber_absent hdirm hnone] at herase
    have := congrFun herase k
    rw [Function.update_self, entriesOf, hc] at this
    cases this
  · have hno : i'.iNo = m := by rw [hd.head.no, shrink, hi.no, h.tree.number m hm]
    have hlt := h.tree.lt hm
    have hfits := directory_fits hdir₁ (by omega)
    have hrec : (diskInode part (patch w.disk (slotAddr part (m % 256)) 76 i'.pure.toBytes)
        (m % 256)).Same i' := diskInode_patch_slot hfits (m % 256)
    rw [syncedInode, hno]
    exact ⟨hrec, rfl⟩

include h hc hn hi hj in
/-- The entry goes, and then the file it named. -/
theorem unlinked_entryRemoved (hlt : m < 256)
    (hdel : deleteDirEntry i n v = some (ok, i', v₁))
    (hrel : inodeRelease mem j n v₁ = some v₂) : EntryRemoved v₂ t m k := by
  have hm := isDir_of_child hc
  obtain ⟨hk, hne⟩ := child_file h.tree.tree hc hn
  have hmn : t m ≠ none := by
    obtain ⟨p, E, hm⟩ := hm
    simp [hm]
  have hdirm : Directory v i (entriesOf t m) := directory_same (h.tree.directory m hm) hi.symm
  have ha := h.of_node hmn
  have ha' : (openStore v m i).Allocated m := ha
  have hdel' : deleteDirEntry ((openStore v m i).node m) n (openStore v m i).vol =
      some (ok, i', v₁) := by rwa [openStore_self]
  have hstep := delete_stepOn (h.openStore hi) ha' hlt hdel'
  have hdir₁ := deleteDirEntry_directory hdirm hdel
  rw [eraseNumber_child hdirm hc hk] at hdir₁
  -- what the disk holds of the parent is what the kernel has in memory
  have hrec₁ := (deleted_record h hc hn hi hdel).1
  rw [Nat.mod_eq_of_lt hlt] at hrec₁
  have halloc := h.of_node (n := n) (by simp [hn])
  have hnode₁ : (Store.put (openStore v m i) v₁ m (some i')).node n = diskInode part v.disk n := by
    rw [hstep.node n hne halloc, openStore_ne v i hne]
  have hfree := release_same hstep.owned ((allocated_congr hstep.bits n).mpr halloc)
    (hnode₁ ▸ hj) hrel
  have hrecord : ∀ q < 4096, q ≠ m → q ≠ n →
      diskInode part v₂.disk q = diskInode part v.disk q := fun q hq hqm hqn =>
    (hfree.records q hq hqn).trans (hstep.records q hq hqm)
  refine ⟨?_, fun d hd hdm => ?_⟩
  · have hm₁ := (allocated_congr hstep.bits m).mpr ha
    have hnode₂ : (Store.put (Store.put (openStore v m i) v₁ m (some i')) v₂ n none).node m = i' := by
      rw [hfree.node m hne.symm hm₁, put_node_self]
    have hrefs := hfree.refs m hne.symm hm₁
    have hquiet := hfree.quiet m hne.symm hm₁
    have howns := hfree.owned.owns ((hfree.allocated m).mpr ⟨hm₁, hne.symm⟩)
    simp only [Store.refs, put_node_self, hnode₂] at hrefs hquiet howns
    have hdir₂ : Directory v₂ i' (Function.update (entriesOf t m) k none) :=
      directory_kept hdir₁ howns rfl hrefs hquiet
    apply directory_same hdir₂
    have hrec₂ : diskInode part v₂.disk m = diskInode part v₁.disk m :=
      hfree.records m (h.tree.lt hm) hne.symm
    rw [hrec₂]
    exact hrec₁.symm
  · have hdn : d ≠ n := by
      rintro rfl
      obtain ⟨p, E, hd⟩ := hd
      rw [hn] at hd
      cases hd
    have hdne : t d ≠ none := by
      obtain ⟨p, E, hd⟩ := hd
      simp [hd]
    have had : (openStore v m i).Allocated d := h.of_node hdne
    have hd₁ := (allocated_congr hstep.bits d).mpr had
    have hnode₁ := hstep.node d hdm had
    have hnode₂ := hfree.node d hdn hd₁
    rw [openStore_ne v i hdm] at hnode₁
    rw [hnode₁] at hnode₂
    have hrefs₁ := hstep.refs d hdm had
    have hrefs₂ := hfree.refs d hdn hd₁
    have hquiet₁ := hstep.quiet d hdm had
    have hquiet₂ := hfree.quiet d hdn hd₁
    have howns := hfree.owned.owns ((hfree.allocated d).mpr ⟨hd₁, hdn⟩)
    simp only [Store.refs, hnode₁, hnode₂, openStore_ne v i hdm] at hrefs₁ hrefs₂ hquiet₁ hquiet₂ howns
    rw [hrecord d (h.tree.lt hd) hdm hdn]
    refine directory_kept (h.tree.directory d hd) howns rfl
      (fun p hp => (hrefs₂ p hp).trans (hrefs₁ p hp)) fun p hp hz a ha => ?_
    have href := hrefs₁ p hp
    exact (hquiet₂ p hp (href ▸ hz) a (href ▸ ha)).trans (hquiet₁ p hp hz a ha)

include h hc hn hi hj in
/-- Behind the deletion the file still has its blocks, and the records of the inode table but one
are as before. -/
theorem deleted_other (hdel : deleteDirEntry i n v = some (ok, i', v₁)) :
    Owns v₁ (ref v₁.disk j) ∧ (∀ p < 141, ref v₁.disk j p = ref v.disk j p) ∧
      ∀ q < 4096, q ≠ m % 256 → diskInode part v₁.disk q = diskInode part v.disk q := by
  have hm := isDir_of_child hc
  obtain ⟨-, hne⟩ := child_file h.tree.tree hc hn
  have hmn : t m ≠ none := by
    obtain ⟨p, E, hm⟩ := hm
    simp [hm]
  have hdirm : Directory v i (entriesOf t m) := directory_same (h.tree.directory m hm) hi.symm
  have halloc := h.of_node (n := n) (by simp [hn])
  have ha : (openStore v m i).Allocated m := h.of_node hmn
  have hnode := openStore_self v m i
  obtain ⟨w, hrew, hno, hw⟩ := deleteDirEntry_parts hdel hdirm.owns
  have hno : i'.iNo = m := by rw [hno, hi.no, h.tree.number m hm]
  have hrew' : Rewrites True True (openStore v m i).vol ((openStore v m i).refs m) w
      (ref w.disk i') := by rwa [Store.refs, hnode]
  have hstep := rewrites_stepOn (h.openStore hi) ha hrew' hno
  have hnode₁ := hstep.node n hne halloc
  have howns := hstep.owned.owns ((allocated_congr hstep.bits n).mpr halloc)
  have hrefs := hstep.refs n hne halloc
  rw [openStore_ne v i hne] at hnode₁
  simp only [Store.refs, hnode₁, openStore_ne v i hne, ← ref_same hj] at howns hrefs
  have hrec : ∀ q < 4096, diskInode part w.disk q = diskInode part v.disk q := by
    intro q hq
    refine diskInode_changes hrew.frame fun a ha hin => ?_
    have hrange := slot_range hq ha
    have := touched_outside hdirm.owns hin
    have hb := part.bounds
    omega
  rcases hw with rfl | rfl
  · exact ⟨howns, hrefs, fun q hq _ => hrec q hq⟩
  · have hslot : Changes (slot part (i'.iNo % 256)) w.disk (syncedInode w i').disk :=
      changes_patch _ _ _ _
    have hlow : ∀ a ∈ slot part (i'.iNo % 256), a < 512 * part.sb.dataStartLba :=
      slot_below (by omega)
    have href : ∀ p < 141, ref (syncedInode w i').disk j p = ref w.disk j p :=
      fun p hp => howns.ref_eq hslot hlow hp
    refine ⟨(howns.withDisk _).congr href, fun p hp => (href p hp).trans (hrefs p hp),
      fun q hq hqm => ?_⟩
    rw [← hrec q hq]
    exact diskInode_changes hslot fun a ha => slot_disjoint part (by rwa [hno]) ha

include h hc hn hi hj in
/-- The record of a parent with a large number is not the one that is written, so that the disk
does not have its new size. -/
theorem unlinked_far (hbig : 256 ≤ m) (hdel : deleteDirEntry i n v = some (ok, i', v₁))
    (hrel : inodeRelease mem j n v₁ = some v₂) : ¬EntryRemoved v₂ t m k := by
  intro hrem
  have hm := isDir_of_child hc
  obtain ⟨-, hne⟩ := child_file h.tree.tree hc hn
  obtain ⟨howns, -, hrec⟩ := deleted_other h hc hn hi hj hdel
  have hlt := h.tree.lt hm
  have hsame : diskInode part v₂.disk m = diskInode part v.disk m :=
    (released_record (inodeRelease_some hrel howns) hlt hne.symm).trans (hrec m hlt (by omega))
  have hold := h.tree.directory m hm
  have hnew := hrem.parent
  obtain ⟨keys, hkeys, hcard⟩ := hold.represents.keys hold.keyed (dirTable_within _ _).finite
  obtain ⟨keys', hkeys', hcard'⟩ := hnew.represents.keys hnew.keyed (dirTable_within _ _).finite
  have hk : entriesOf t m k ≠ none := by
    rw [entriesOf, hc, Option.map_some]
    exact Option.some_ne_none _
  have herase : keys' = keys.erase k := by
    ext l
    rw [Finset.mem_erase, hkeys, hkeys']
    by_cases hl : l = k
    · subst l
      simp
    · simp [hl]
  have hin := (hkeys k).mpr hk
  have hpos := Finset.card_erase_add_one hin
  have h1 := hold.size
  have h2 := hnew.size
  rw [← hcard] at h1
  rw [← hcard', hsame, herase] at h2
  omega

include h hc hn hi hj in
/-- With memory the file can be released behind the deletion. -/
theorem unlinked_exists : ∃ ok i' v₁ v₂, deleteDirEntry i n v = some (ok, i', v₁) ∧
    inodeRelease true j n v₁ = some v₂ := by
  have hm := isDir_of_child hc
  obtain ⟨-, hne⟩ := child_file h.tree.tree hc hn
  have hdirm : Directory v i (entriesOf t m) := directory_same (h.tree.directory m hm) hi.symm
  obtain ⟨ok, i', v₁, hdel⟩ := deleteDirEntry_exists hdirm n
  obtain ⟨-, hrefs, -⟩ := deleted_other h hc hn hi hj hdel
  have halloc := h.of_node (n := n) (by simp [hn])
  have hroot : t 0 ≠ none := by
    obtain ⟨p, E, h0⟩ := h.tree.root
    simp [h0]
  have hn0 := file_ne_root h.tree.tree hn
  have hj12 : j.iSectors 12 ≤ maxLba := by
    rw [← ref_table v.disk j, ref_same hj]
    exact h.onDisk n (by simp [hn]) 140 (by omega)
  obtain ⟨v₂, hrel⟩ := inodeRelease_exists (v := v) (w := v₁)
    (hj.no.trans (h.owned.number n halloc)) halloc.1 hj12 fun p hp hz => by
      rw [hrefs p hp, ref_same hj] at hz ⊢
      refine ⟨h.owned.held n halloc p hp hz, fun he => hn0 ?_⟩
      -- the first block of the data area belongs to the root directory
      exact (h.owned.unique n 0 halloc (h.of_node hroot) p hp 0 (by omega) hz
        (he.trans h.first.symm)).1
  exact ⟨ok, i', v₁, v₂, hdel, hrel⟩

end Unlink

end FsConsistentTree
