import XianweiOS.FsTreeRemove

/-! What a volume shows in a run of the file system: a consistent tree in which every allocated inode
is an object with one name, files with their blocks, and no block outside of the partition. An
insertion, a removal, a write and an insertion that is given up lead from one such volume to the
next. -/
namespace FsImage

open ByteStore HaltingProgram KernelBitmap DeviceIde FsVolume FsInodeTable FsBlockMap FsOwnership
  FsFreeBlocks FsFileWrite FsFileAppend FsDirectory FsDirectorySlots FsDirectoryDelete
  FsDirectoryMap FsDirectoryRuns FsInodeRelease FsStore FsStoreRuns FsOpenFiles FsSyscalls PathTree
  FsTree FsConsistentTree FsTreeInsert FsTreeRemove

variable {part : Partition} {S : Prop} {v v' v₁ v₂ v₃ : Volume part} {t : FileTree} {m n q : ℕ}
  {k : List Byte} {N : Node ℕ (List Byte)} {i i' j new : Inode}

/-- Free blocks and blocks of inodes lie in the partition. -/
structure Inside (v : Volume part) : Prop where
  free : ∀ x, Free v x → x < part.startLba + part.secCnt
  refs : ∀ n, (diskStore v).Allocated n → ∀ p < 141, diskRefs v n p < part.startLba + part.secCnt

/-- Blocks that are free afterwards, and blocks that belong to an inode, were free or belonged to an
inode before. -/
theorem Inside.step (h : Inside v)
    (hfree : ∀ x, Free v' x → Free v x ∨ ∃ q, (diskStore v).Allocated q ∧
      ∃ p < 141, diskRefs v q p = x)
    (hrefs : ∀ q, (diskStore v').Allocated q → ∀ p < 141, diskRefs v' q p ≠ 0 →
      Free v (diskRefs v' q p) ∨ ∃ q', (diskStore v).Allocated q' ∧
        ∃ p' < 141, diskRefs v q' p' = diskRefs v' q p) : Inside v' := by
  have hpos : 0 < part.startLba + part.secCnt := by
    have := part.bounds
    omega
  refine ⟨fun x hx => ?_, fun q hq p hp => ?_⟩
  · rcases hfree x hx with hx | ⟨q, hq, p, hp, rfl⟩
    · exact h.free x hx
    · exact h.refs q hq p hp
  · by_cases hz : diskRefs v' q p = 0
    · rwa [hz]
    rcases hrefs q hq p hp hz with hx | ⟨q', hq', p', hp', he⟩
    · exact h.free _ hx
    · rw [← he]
      exact h.refs q' hq' p' hp'

/-- The objects of the tree are the allocated inodes, and if `S` holds both bitmaps are on the disk
as they are in memory. -/
structure Image (S : Prop) (v : Volume part) (t : FileTree) : Prop where
  consistent : Consistent v t
  hierarchy : Hierarchy dots 0 t
  near : ∀ n, t n ≠ none → n < 256
  exact : ∀ n < 4096, v.inodeBit n = true → t n ≠ none
  layout : ∀ n, t n = some .file → FileLayout v (diskInode part v.disk n)
  inside : Inside v
  synced : InodeSynced v
  blocks : S → BlockSynced v

theorem Image.allocated (h : Image S v t) : (diskStore v).Allocated n ↔ t n ≠ none :=
  ⟨fun hn => h.exact n hn.1 hn.2, h.consistent.of_node⟩

theorem Image.owns (h : Image S v t) (hn : t n ≠ none) : Owns v (diskRefs v n) :=
  h.consistent.owned.owns (h.consistent.of_node hn)

/-- The tree is the same and its directories are kept. -/
theorem consistent_of_kept (h : Consistent v t) (ho : Owned (diskStore v'))
    (hbits : v'.inodeBitmap = v.inodeBitmap) (hdirs : ∀ d, t.IsDir d → Kept v v' d)
    (hon : ∀ n, t n ≠ none → OnDisk (diskRefs v' n)) : Consistent v' t := by
  have halloc : ∀ n, t n ≠ none → (diskStore v').Allocated n := fun n hn =>
    (allocated_congr hbits n).mpr (h.of_node hn)
  have hsome : ∀ d, t.IsDir d → t d ≠ none := by
    rintro d ⟨p, E, hd⟩
    simp [hd]
  refine ⟨⟨h.tree.tree, h.tree.numbers, fun d hd => ho.number d (halloc d (hsome d hd)),
    fun d hd => ?_⟩, ho, fun n hn => (halloc n hn).2, hon, ?_⟩
  · exact (hdirs d hd).directory (ho.owns (halloc d (hsome d hd))) (h.tree.directory d hd)
  · exact ((hdirs 0 h.tree.root).refs 0 (by omega)).trans h.first

theorem onDisk_of_inside (h : Inside v) (hn : (diskStore v).Allocated n) : OnDisk (diskRefs v n) := by
  intro p hp
  have := h.refs n hn p hp
  have := part.bounds
  simp only [maxLba]
  omega

/-- All inodes are kept, and the blocks of the tree are in use as before. -/
theorem Image.kept (h : Image S v t) (hbits : v'.inodeBitmap = v.inodeBitmap)
    (hkeep : ∀ x, InUse v x → InUse v' x) (hkept : ∀ q, t q ≠ none → Kept v v' q)
    (hsync : InodeSynced v') (hblocks : S → BlockSynced v') : Image S v' t := by
  have halloc : ∀ q, (diskStore v').Allocated q ↔ t q ≠ none := fun q =>
    (allocated_congr hbits q).trans h.allocated
  have howned : Owned (diskStore v') := h.consistent.owned.congr
    (fun q hq => h.allocated.mpr ((halloc q).mp hq))
    (fun q hq => (hkept q (h.allocated.mp hq)).same.no)
    (fun q hq => (hkept q (h.allocated.mp hq)).refs) hkeep
  have hinside : Inside v' := h.inside.step (fun x hx => .inl (free_of_keep (hkeep x) hx))
    fun q hq p hp _ => by
      have hq := (halloc q).mp hq
      exact .inr ⟨q, h.allocated.mpr hq, p, hp, ((hkept q hq).refs p hp).symm⟩
  refine ⟨consistent_of_kept h.consistent howned hbits (fun d hd => hkept d ?_)
    fun n hn => onDisk_of_inside hinside ((halloc n).mpr hn), h.hierarchy, h.near,
    fun n hn hb => (halloc n).mp ⟨hn, hb⟩, fun n hn => ?_, hinside, hsync, hblocks⟩
  · obtain ⟨p, E, hd⟩ := hd
    simp [hd]
  · have hne : t n ≠ none := by simp [hn]
    exact (hkept n hne).layout (howned.owns ((halloc n).mpr hne)) (h.layout n hn)

section Insert

variable (hi : Insertion v t m n k N i new i' v₁ v₂ v₃)

include hi

/-- The inodes beside the new one and its parent. -/
theorem insertion_kept (hq : (diskStore v).Allocated q) (hqm : q ≠ m) (hqn : q ≠ n) :
    Kept v v₃ q := by
  refine ⟨hi.record₃ hq.1 hqm hqn ▸ Inode.Same.refl _,
    fun p hp => hi.refs_kept hq hp fun he => absurd he hqm, fun p hp hz a ha => ?_⟩
  obtain ⟨T, hstep⟩ := hi.stepOn
  have hq₁ := (prepared_allocated hi.prepared hi.lt (m := m) (i := i) q).mpr (.inr hq)
  have hrefs : (preparedStore v₁ n new m i).refs q p = diskRefs v q p :=
    prepared_refs hi.consistent hi.prepared hi.clear hi.parent hq hp
  have hquiet₁ := hi.prepared.spared.quiet _ (hi.consistent.owned.held q hq p hp hz) a ha
  have hquiet₂ := hstep.quiet q hqm hq₁ p hp (by rwa [hrefs]) a (by rwa [hrefs])
  have hrefs₂ := hstep.refs q hqm hq₁ p hp
  have huse : InUse v₂ (diskRefs v q p) := by
    have hheld := hstep.owned.held q ((hi.allocated₂ q).mpr (.inr hq)) p hp
    rw [hrefs₂, hrefs] at hheld
    exact hheld hz
  exact ((hi.syncedNew.spared.quiet _ huse a ha).trans hquiet₂).trans hquiet₁

/-- The parent's pointers behind the insertion. -/
theorem insertion_parent {p : ℕ} (hp : p < 141) : diskRefs v₃ m p = ref v₂.disk i' p := by
  have href := hi.refs₃ (.inr hi.allocated_parent) hp
  rwa [Store.refs, put_node_self] at href

theorem insertion_new {p : ℕ} (hp : p < 141) : diskRefs v₃ n p = ref v₁.disk new p := by
  obtain ⟨T, hstep⟩ := hi.stepOn
  have halloc := (prepared_allocated hi.prepared hi.lt (m := m) (i := i) n).mpr (.inl rfl)
  rw [diskRefs, hi.refs₃ (.inl rfl) hp, hstep.refs n hi.ne.symm halloc p hp, Store.refs,
    prepared_self]
  rfl

/-- What the preparation has taken was free. -/
theorem prepared_free {x : ℕ} (hf : Free v₁ x) : Free v x :=
  free_of_keep (hi.prepared.spared.keep x) hf

theorem insertion_inside (h : Inside v) : Inside v₃ := by
  obtain ⟨T, hins⟩ := hi.inserted
  have hm := hi.allocated_parent
  -- the parent's blocks before the insertion
  have hparent : ∀ p < 141, ref v₁.disk i p = diskRefs v m p := by
    intro p hp
    have hrefs := prepared_refs hi.consistent hi.prepared hi.clear hi.parent hm hp
    rwa [Store.refs, prepared_parent hi.ne] at hrefs
  refine h.step (fun x hx => ?_) fun q hq p hp hz => ?_
  · have hx₂ : Free v₂ x := by
      obtain ⟨b, hxb, hb, hbit⟩ := hx
      rw [hi.syncedNew.blocks] at hb
      rw [Volume.blockBit, hi.syncedNew.blocks] at hbit
      exact ⟨b, hxb, hb, hbit⟩
    rcases hins.rewrites.free hx₂ with hx₁ | ⟨p, hp, rfl⟩
    · exact .inl (prepared_free hi hx₁)
    · exact .inr ⟨m, hm, p, hp, (hparent p hp).symm⟩
  · have hq : q = n ∨ (diskStore v).Allocated q := by
      obtain ⟨hq, hbit⟩ := hq
      change v₃.inodeBit q = true at hbit
      rw [hi.inodeBit₃ q] at hbit
      split at hbit
      · exact .inl ‹_›
      · exact .inr ⟨hq, hbit⟩
    by_cases hqn : q = n
    · subst q
      rw [insertion_new hi hp] at hz ⊢
      obtain ⟨b, hxb, hb, -⟩ := hi.prepared.owns.held p hp hz
      refine .inl ⟨b, hxb, by rwa [v.block_len, ← v₁.block_len], ?_⟩
      cases hbit : v.blockBit b with
      | false => rfl
      | true =>
        rw [v₁.block_len, ← v.block_len] at hb
        exact absurd ⟨b, hxb, hb, hbit⟩ (hi.prepared.fresh p hp hz)
    · have hq := hq.resolve_left hqn
      by_cases hqm : q = m
      · subst q
        rw [insertion_parent hi hp] at hz ⊢
        rcases hins.rewrites.source p hp hz with ⟨p', hp', he⟩ | hf
        · exact .inr ⟨m, hm, p', hp', (hparent p' hp').symm.trans he⟩
        · exact .inl (prepared_free hi hf)
      · exact .inr ⟨q, hq, p, hp, ((insertion_kept hi hq hqm hqn).refs p hp).symm⟩

/-- Both write-backs and the sector of the inode bitmap are done. -/
theorem insertion_synced : InodeSynced v₃ := by
  have hsync := hi.synced
  simp only [syncNewInode, bind_some_iff] at hsync
  obtain ⟨d, -, d', -, hsync⟩ := hsync
  obtain rfl := bitmapSync_inode_some hsync
  have hzero : new.iNo / 4096 = 0 := by
    have := hi.lt
    rw [hi.prepared.no]
    omega
  intro b hb
  simp only [withDisk_disk, withDisk_inode, hzero, Nat.add_zero]
  rw [patch_in (by omega), Nat.add_sub_cancel_left]
  simp [window]

theorem insertion_blocks (hs : BlockSynced v) : BlockSynced v₃ := by
  obtain ⟨T, hstep⟩ := hi.stepOn
  exact hi.syncedNew.synced (hstep.blockSynced trivial (hi.prepared.synced hs))

/-- The image with the new object. -/
theorem Image.insert (h : Image S v t) (hnew : N = .file → new = inodeInit n) :
    Image S v₃ (t.insert m k n N) := by
  have hinside := insertion_inside hi h.inside
  refine ⟨hi.consistent₃, h.hierarchy.insert hi.dir hi.free hi.plain hi.absent hi.under hi.bare,
    fun q hq => ?_, fun q hq hbit => insert_ne_none.mpr ?_, fun q hq => ?_, hinside,
    insertion_synced hi, fun hS => insertion_blocks hi (h.blocks hS)⟩
  · rcases insert_ne_none.mp hq with rfl | hq
    · exact hi.low
    · exact h.near q hq
  · rw [hi.inodeBit₃ q] at hbit
    split at hbit
    · exact .inl ‹_›
    · exact .inr (h.exact q hq hbit)
  · by_cases hqn : q = n
    · subst q
      obtain rfl := hnew (Option.some.inj (insert_self.symm.trans hq))
      have hsame := hi.syncedNew.self
      have hno : (inodeInit n).iNo = n := rfl
      rw [hno] at hsame
      have hn4 := hi.lt
      refine fileLayout_congr (fresh_layout v₃ (show n < 2 ^ 32 by omega)) hsame ?_ fun p hp => ?_
      · exact hi.owned₃.owns (hi.allocated₃ (.inl rfl))
      · rw [ref_same hsame]
    · have hq' : t q = some .file := by
        cases hnode : t q with
        | none =>
          rw [insert_none hqn hnode] at hq
          cases hq
        | some M =>
          cases M with
          | file => rfl
          | dir p E =>
            rw [insert_dir hqn hnode] at hq
            cases hq
      have hqm : q ≠ m := by
        rintro rfl
        obtain ⟨p, E, hd⟩ := hi.dir
        rw [hd] at hq'
        cases hq'
      have hq₀ : (diskStore v).Allocated q := h.consistent.of_node (by simp [hq'])
      exact (insertion_kept hi hq₀ hqm hqn).layout (hi.owned₃.owns (hi.allocated₃ (.inr hq₀)))
        (h.layout q hq')

/-- A new file is empty. -/
theorem insertion_bytes (hnew : new = inodeInit n) : fileBytes v₃ n = [] := by
  have hsame := hi.syncedNew.self
  rw [hi.prepared.no] at hsame
  rw [fileBytes, content, hsame.size, hnew]
  rfl

end Insert

section Remove

variable (hx : Extraction v t m n k N i j i' v₁ v₂)

include hx

theorem extraction_inside (h : Inside v) : Inside v₂ := by
  obtain ⟨w, hdel, hv₁⟩ := hx.deletedTo
  obtain ⟨mem, hrel⟩ := hx.released
  have hm := hx.allocated_parent
  have hn := hx.allocated_object
  have hparent : ∀ p, ref v.disk i p = diskRefs v m p := fun p => congrFun (ref_same hx.parent _) p
  have hwfree : ∀ y, Free w y → Free v y ∨ ∃ q, (diskStore v).Allocated q ∧
      ∃ p < 141, diskRefs v q p = y := by
    intro y hy
    rcases hdel.rewrites.free hy with hy | ⟨p, hp, rfl⟩
    · exact .inl hy
    · exact .inr ⟨m, hm, p, hp, (hparent p).symm⟩
  -- the released inode has the blocks it had
  have hobject : ∀ p < 141, ref v₁.disk j p = diskRefs v n p := by
    intro p hp
    have hrefs := hx.stepOn.refs n hx.ne hn p hp
    rw [Store.refs, hx.node₁, Store.refs, openStore_ne v i hx.ne] at hrefs
    rw [ref_same hx.object]
    exact hrefs
  have howns : Owns v₁ (ref v₁.disk j) := by
    have := hx.stepOn.owned.owns ((allocated_congr hx.stepOn.bits n).mpr hn)
    rw [Store.refs, hx.node₁, ← ref_same hx.object] at this
    exact this
  obtain ⟨w₂, hrew, hblock, -⟩ := (inodeRelease_some hrel howns).blocks
  refine h.step (fun y hy => ?_) fun q hq p hp hz => ?_
  · have hy₂ : Free w₂ y := by
      obtain ⟨b, hyb, hb, hbit⟩ := hy
      rw [hblock] at hb
      rw [Volume.blockBit, hblock] at hbit
      exact ⟨b, hyb, hb, hbit⟩
    rcases hrew.free hy₂ with hy₁ | ⟨p, hp, rfl⟩
    · rw [hv₁] at hy₁
      exact hwfree y hy₁
    · exact .inr ⟨n, hn, p, hp, (hobject p hp).symm⟩
  · obtain ⟨hq, hqn⟩ := (hx.allocated₂ q).mp hq
    by_cases hqm : q = m
    · subst q
      have href : diskRefs v₂ m p = ref w.disk i' p := by
        rw [hx.refs₂ hp, hv₁]
        refine hdel.rewrites.owns.ref_eq (S := slot part (i'.iNo % 256)) ?_
          (slot_below (by omega)) hp
        exact changes_patch _ _ _ _
      rw [href] at hz ⊢
      rcases hdel.rewrites.source p hp hz with ⟨p', hp', he⟩ | hf
      · exact .inr ⟨m, hm, p', hp', (hparent p').symm.trans he⟩
      · exact .inl hf
    · exact .inr ⟨q, hq, p, hp, ((hx.kept hq hqm hqn).refs p hp).symm⟩

/-- The image without the object. -/
theorem Image.remove (h : Image S v t) : Image S v₂ (t.erase m k n) := by
  obtain ⟨mem, hrel⟩ := hx.released
  have howns : Owns v₁ (ref v₁.disk j) := by
    have := hx.stepOn.owned.owns ((allocated_congr hx.stepOn.bits n).mpr hx.allocated_object)
    rw [Store.refs, hx.node₁, ← ref_same hx.object] at this
    exact this
  refine ⟨hx.consistent₂, h.hierarchy.erase hx.name hx.node hx.bare, fun q hq => ?_,
    fun q hq hbit => ?_, fun q hq => ?_, extraction_inside hx h.inside,
    (inodeRelease_some hrel howns).synced, fun hS =>
      hx.freeOf.blockSynced (hx.stepOn.blockSynced trivial (h.blocks hS))⟩
  · exact h.near q (erase_ne_none.mp hq).2
  · obtain ⟨hq₀, hqn⟩ := (hx.allocated₂ q).mp ⟨hq, hbit⟩
    exact erase_ne_none.mpr ⟨hqn, h.exact q hq₀.1 hq₀.2⟩
  · obtain ⟨hqn, hq'⟩ := erase_file_iff.mp hq
    have hqm : q ≠ m := by
      rintro rfl
      obtain ⟨p, E, hd⟩ := hx.dir
      rw [hd] at hq'
      cases hq'
    have hq₀ : (diskStore v).Allocated q := h.consistent.of_node (by simp [hq'])
    exact (hx.kept hq₀ hqm hqn).layout
      (hx.owned₂.owns ((hx.allocated₂ q).mpr ⟨hq₀, hqn⟩)) (h.layout q hq')

end Remove

/-- The layout of a file that is open as the disk has it. -/
theorem Image.layout_same (h : Image S v t) (hn : t n = some .file)
    (hi : i.Same (diskInode part v.disk n)) : FileLayout v i :=
  fileLayout_congr (h.layout n hn) hi (by rw [ref_same hi]; exact h.owns (by simp [hn]))
    fun p _ => congrFun (ref_same hi _) p

/-- The course of a write to file `n` that appends its buffer. -/
structure Growth (S : Prop) (v : Volume part) (t : FileTree) (n : ℕ) (i : Inode) (buf : Bytes)
    (count : ℕ) (w : Volume part) (i' : Inode) (v' : Volume part) : Prop where
  image : Image S v t
  file : t n = some .file
  same : i.Same (diskInode part v.disk n)
  short : i.iSize + count < 71680
  masked : S → WriteMasked i count v.blockBitmap
  appended : Appended v i buf count w i'
  vol : v' = w.withDisk (patch w.disk (slotAddr part (n % 256)) 76 i'.pure.toBytes)

namespace Growth

variable {w : Volume part} {buf : Bytes} {count : ℕ} (h : Growth S v t n i buf count w i' v')

include h

theorem ne_none : t n ≠ none := by simp [h.file]

theorem allocated : (openStore v n i).Allocated n := h.image.allocated.mpr h.ne_none

theorem refs (p : ℕ) : ref v.disk i p = diskRefs v n p := congrFun (ref_same h.same _) p

theorem layout : FileLayout v i := h.image.layout_same h.file h.same

theorem mod : n % 256 = n := Nat.mod_eq_of_lt (h.image.near n h.ne_none)

theorem no' : i'.iNo = n := by
  rw [h.appended.head.no]
  exact h.same.no.trans (h.image.consistent.owned.number n (h.image.allocated.mpr h.ne_none))

theorem changes : Changes (slot part n) w.disk v'.disk := by
  rw [h.vol, h.mod]
  exact changes_patch _ _ _ _

theorem rewrites : Rewrites True (WriteMasked i count v.blockBitmap) v (ref v.disk i) w
    (ref w.disk i') := h.appended.rewrites

theorem stepOn : StepOn n True (WriteMasked i count v.blockBitmap) (openStore v n i)
    (Store.put (openStore v n i) v' n (some i')) := by
  have hvol := h.vol
  have hrewrites : Rewrites True (WriteMasked i count v.blockBitmap) v
      ((openStore v n i).refs n) w (ref w.disk i') := by
    rw [Store.refs, openStore_self]
    exact h.rewrites
  refine (h.image.consistent.openStore h.same).step h.allocated hrewrites
    (by rw [hvol]; rfl) (by rw [hvol]; rfl) h.changes (fun m hm => put_mem _ _ _ hm)
    (fun p hp => ?_) (by rw [put_node_self, h.no'])
  · rw [Store.refs, put_node_self]
    exact h.rewrites.owns.ref_eq h.changes (slot_below h.allocated.1) hp

theorem bits : v'.inodeBitmap = v.inodeBitmap := h.stepOn.bits

theorem allocated' (q : ℕ) : (diskStore v').Allocated q ↔ t q ≠ none :=
  (allocated_congr h.bits q).trans h.image.allocated

theorem layout' : FileLayout v' i' := by
  rw [h.vol]
  exact h.appended.layout h.layout.fits h.short n _

/-- The inode is in its own record. -/
theorem same' : i'.Same (diskInode part v'.disk n) := by
  have hrec : (diskInode part (patch w.disk (slotAddr part (n % 256)) 76 i'.pure.toBytes)
      (n % 256)).Same i' := diskInode_patch_slot h.layout'.fits _
  rw [h.mod] at hrec
  rw [h.vol, withDisk_disk, h.mod]
  exact hrec.symm

theorem kept (hq : t q ≠ none) (hqn : q ≠ n) : Kept v v' q := by
  have hq₀ : (openStore v n i).Allocated q := h.image.allocated.mpr hq
  have hstep := h.stepOn
  exact kept_of_step (hstep.records q hq₀.1 hqn) (openStore_ne v i hqn) (hstep.node q hqn hq₀)
    (hstep.refs q hqn hq₀) (hstep.quiet q hqn hq₀)

theorem owned' : Owned (diskStore v') := by
  have hsame : ∀ q, (diskStore v').Allocated q → (diskInode part v'.disk q).Same
      ((Store.put (openStore v n i) v' n (some i')).node q) := by
    intro q hq
    by_cases hqn : q = n
    · subst q
      rw [put_node_self]
      exact h.same'.symm
    · have hq := (h.allocated' q).mp hq
      rw [h.stepOn.node q hqn (h.image.allocated.mpr hq), openStore_ne v i hqn]
      exact (h.kept hq hqn).same
  exact owned_same h.stepOn.owned hsame

theorem refs' {p : ℕ} (hp : p < 141) : diskRefs v' n p = ref w.disk i' p := by
  rw [diskRefs, ← ref_same h.same']
  exact h.rewrites.owns.ref_eq h.changes (slot_below h.allocated.1) hp

theorem inside : Inside v' := by
  have hn := h.image.allocated.mpr h.ne_none
  refine h.image.inside.step (fun x hx => ?_) fun q hq p hp hz => ?_
  · have hx' : Free w x := by
      obtain ⟨b, hxb, hb, hbit⟩ := hx
      rw [h.vol] at hb hbit
      exact ⟨b, hxb, hb, hbit⟩
    rcases h.rewrites.free hx' with hx' | ⟨p, hp, rfl⟩
    · exact .inl hx'
    · exact .inr ⟨n, hn, p, hp, (h.refs p).symm⟩
  · have hq := (h.allocated' q).mp hq
    by_cases hqn : q = n
    · subst q
      rw [h.refs' hp] at hz ⊢
      rcases h.rewrites.source p hp hz with ⟨p', hp', he⟩ | hf
      · exact .inr ⟨_, hn, p', hp', (h.refs p').symm.trans he⟩
      · exact .inl hf
    · exact .inr ⟨q, h.image.allocated.mpr hq, p, hp, ((h.kept hq hqn).refs p hp).symm⟩

theorem image' : Image S v' t := by
  refine ⟨consistent_of_kept h.image.consistent h.owned' h.bits (fun d hd => h.kept ?_ ?_)
    fun q hq => onDisk_of_inside h.inside ((h.allocated' q).mpr hq), h.image.hierarchy,
    h.image.near, fun q hq hb => (h.allocated' q).mp ⟨hq, hb⟩, fun q hq => ?_, h.inside,
    h.stepOn.inodeSynced h.image.synced,
    fun hS => h.stepOn.blockSynced (h.masked hS) (h.image.blocks hS)⟩
  · obtain ⟨p, E, hd⟩ := hd
    simp [hd]
  · rintro rfl
    obtain ⟨p, E, hd⟩ := hd
    have hfile := h.file
    rw [hd] at hfile
    cases hfile
  · have hqne : t q ≠ none := by simp [hq]
    have howns := h.owned'.owns ((h.allocated' q).mpr hqne)
    by_cases hqn : q = n
    · subst q
      exact fileLayout_congr h.layout' h.same'.symm howns
        fun p _ => congrFun (ref_same h.same'.symm _) p
    · exact (h.kept hqne hqn).layout howns (h.image.layout q hq)

omit h in
/-- The bytes of a file are told by number, size and pointers of its inode. -/
theorem content_same {a b : Inode} (d : Bytes) (hab : a.Same b) : content d a = content d b := by
  rw [content, content, hab.size, ref_same hab]

theorem bytes : fileBytes v' n = fileBytes v n ++ (List.range count).map buf := by
  rw [fileBytes, fileBytes, ← content_same _ h.same', ← content_same _ h.same, h.vol]
  exact h.appended.content h.short n _

end Growth

/-- A write is refused, or it appends. -/
theorem Image.write (h : Image S v t) (hn : t n = some .file)
    (hi : i.Same (diskInode part v.disk n)) {m₁ m₂ : Bool} {pos count : ℕ} {buf : Bytes}
    {res : WriteResult part} (hw : fileWrite m₁ m₂ pos i v buf count = some res)
    (hmask : S → WriteMasked i count v.blockBitmap) : res = ⟨-1, pos, i, v⟩ ∨ (res.ret = count ∧
      res.fdPos = (i.iSize + 2 ^ 32 - 1 + count) % 2 ^ 32 ∧
      ∃ w, Growth S v t n i buf count w res.inode res.vol) := by
  have hno : i.iNo = n :=
    hi.no.trans (h.consistent.owned.number n (h.allocated.mpr (by simp [hn])))
  rcases fileWrite_some hw (h.layout_same hn hi) with rfl | ⟨hlen, w, happ, hret, hpos, hvol⟩
  · exact .inl rfl
  · rw [hno] at hvol
    exact .inr ⟨hret, hpos, w, h, hn, hi, hlen, hmask, happ, hvol⟩

/-- A new inode that is given up: the block that was taken for it stays in use. -/
theorem Image.giveUp (h : Image S v t) (hp : Prepared v n new v₁)
    (hclear : v.inodeBit n = false)
    (hsync : Changes (fun a => a ∉ inodeBitmapArea part) v.disk v₁.disk) :
    Image S (v₁.setInodeBit n false) t ∧ ∀ q, t q ≠ none → Kept v (v₁.setInodeBit n false) q := by
  have hbits : (v₁.setInodeBit n false).inodeBitmap = v.inodeBitmap := by
    have hback := congrArg Volume.inodeBitmap (setInodeBit_back hclear)
    rw [setInodeBit_inode] at hback
    rw [setInodeBit_inode, hp.bits]
    exact hback
  have hkept : ∀ q, t q ≠ none → Kept v (v₁.setInodeBit n false) q := by
    intro q hq
    have hq₀ := h.allocated.mpr hq
    have hrec := hp.records q hq₀.1
    have howns := h.owns hq
    refine ⟨?_, fun p hp' => ?_, fun p hp' hz a ha => ?_⟩
    · rw [setInodeBit_disk, hrec]
      exact Inode.Same.refl _
    · rw [diskRefs, setInodeBit_disk, hrec]
      exact hp.spared.ref howns hp'
    · rw [setInodeBit_disk]
      exact hp.spared.quiet _ (howns.held p hp' hz) a ha
  refine ⟨h.kept hbits (fun x hx => hp.spared.keep x hx) hkept (fun b hb => ?_)
    fun hS => hp.synced (h.blocks hS), hkept⟩
  rw [setInodeBit_disk, hbits, ← h.synced b hb]
  refine hsync _ fun hin => hin ?_
  simp only [inodeBitmapArea, mem_span]
  omega

end FsImage
