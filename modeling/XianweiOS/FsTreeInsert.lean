import XianweiOS.FsConsistentTree
import XianweiOS.FsDirectoryLayout

/-! A new object in a consistent tree. The new inode gets its number and, as a directory, its block;
then the parent gets its entry, and both inodes go to the disk. Behind that the volume holds the
tree with the new object. -/
namespace FsTreeInsert

open ByteStore HaltingProgram KernelBitmap DeviceIde FsVolume FsInodeTable FsBlockMap FsOwnership
  FsFreeBlocks FsDirectory FsDirectorySlots FsDirectoryTable FsDirectoryMap FsDirectoryRuns
  FsDirectoryLayout FsStore FsStoreRuns FsOpenFiles FsSyscalls PathTree FsTree FsConsistentTree

variable {part : Partition} {v v' v₁ v₂ v₃ : Volume part} {t : FileTree} {m n : ℕ}
  {k : List Byte} {i i' new : Inode}

/-- What was in use still is, and holds what it held. -/
structure Spared (v v' : Volume part) : Prop where
  keep : ∀ x, InUse v x → InUse v' x
  quiet : ∀ x, InUse v x → ∀ a ∈ sector x, v'.disk a = v.disk a

theorem Spared.ref (h : Spared v v') {j : Inode} (ho : Owns v (ref v.disk j)) {p : ℕ} (hp : p < 141) :
    ref v'.disk j p = ref v.disk j p := by
  refine ref_congr (fun _ _ => rfl) (fun hz a ha => ?_) hp
  have huse := ho.held 140 (by omega)
  rw [ref_table] at huse
  exact h.quiet _ (huse hz) a ha

theorem Spared.owns (h : Spared v v') {j : Inode} (ho : Owns v (FsBlockMap.ref v.disk j)) :
    Owns v' (FsBlockMap.ref v'.disk j) := by
  refine Owns.congr (r := FsBlockMap.ref v.disk j) ⟨ho.distinct, fun p hp hz => ?_⟩
    fun p hp => h.ref ho hp
  exact h.keep _ (ho.held p hp hz)

theorem Spared.directory (h : Spared v v') {j : Inode} {e : NameMap} (hd : Directory v j e) :
    Directory v' j e :=
  directory_kept hd (h.owns hd.owns) rfl (fun _ hp => h.ref hd.owns hp) fun p hp hz =>
    h.quiet _ (hd.owns.held p hp hz)

/-- The new inode has its number, and its block if it is to have one. -/
structure Prepared (v : Volume part) (n : ℕ) (new : Inode) (v₁ : Volume part) : Prop where
  no : new.iNo = n
  fits : new.Fits
  owns : Owns v₁ (ref v₁.disk new)
  onDisk : OnDisk (ref v₁.disk new)
  fresh : ∀ p < 141, ref v₁.disk new p ≠ 0 → ¬InUse v (ref v₁.disk new p)
  bits : v₁.inodeBitmap = (v.setInodeBit n true).inodeBitmap
  spared : Spared v v₁
  records : ∀ q < 4096, diskInode part v₁.disk q = diskInode part v.disk q
  synced : BlockSynced v → BlockSynced v₁

theorem prepared_file (hn : n < 4096) : Prepared v n (inodeInit n) (v.setInodeBit n true) := by
  have href : ∀ p < 141, ref v.disk (inodeInit n) p = 0 := by
    intro p hp
    rw [ref_single (y := 0) (fun _ _ => by simp [inodeInit]) hp]
    simp
  refine ⟨rfl, ⟨by simp only [inodeInit]; omega, by simp [inodeInit], fun _ _ => by simp [inodeInit]⟩,
    ⟨fun p hp q _ hz _ => absurd (href p hp) hz, fun p hp hz => absurd (href p hp) hz⟩,
    fun p hp => ?_, fun p hp hz => absurd (href p hp) hz, rfl,
    ⟨fun x hx => hx, fun _ _ _ _ => rfl⟩, fun _ _ => rfl, fun hs => hs⟩
  rw [setInodeBit_disk, href p hp]
  exact Nat.zero_le _

theorem prepared_directory (hn : n < 4096) (hm : m < 4096)
    (h : newDirectory n m (v.setInodeBit n true) = some (some new, v₁)) :
    Prepared v n new v₁ ∧ NewDirectory v₁ new n m := by
  have hb := part.bounds
  have hdir : NewDirectory v₁ new n m := newDirectory_new (by omega) (by omega) h
  obtain ⟨_, b, hnew, hat⟩ := newDirectory_some h
  obtain rfl := Option.some.inj hnew
  have hlba := hat.lba
  have hfree : Free v (part.sb.dataStartLba + b) := ⟨b, rfl, hat.low.1, hat.low.2.1⟩
  have href : ∀ p < 141, ref v₁.disk new p ≠ 0 → ref v₁.disk new p = part.sb.dataStartLba + b := by
    intro p hp hz
    rw [ref_single hat.sectors hp] at hz ⊢
    exact if_pos (of_not_not fun hp0 => hz (if_neg hp0))
  have hspared : Spared v v₁ := by
    refine ⟨fun x hx => ?_, fun x hx a ha => hat.frame a ?_⟩
    · obtain ⟨c, rfl, hc, hbit⟩ := hx
      refine ⟨c, rfl, ?_, ?_⟩
      · rw [hat.blocks]
        exact hc
      · rw [Volume.blockBit, hat.blocks, bitmapScanTest_set]
        split
        · rfl
        · exact hbit
    · rintro (hmap | hsec)
      · exact not_mem_bitmapArea (sector_inUse hx ha) hmap
      · simp only [mem_sector] at ha hsec
        have hxy : x = part.sb.dataStartLba + b := by omega
        exact hfree.not_inUse (hxy ▸ hx)
  refine ⟨⟨hat.no, ⟨by rw [hat.no]; omega, by rw [hat.size]; decide, fun j hj => ?_⟩,
    hdir.owns, hdir.onDisk, fun p hp hz => ?_, hat.inodes, hspared, fun q hq => ?_,
    hat.synced⟩, hdir⟩
  · rw [hat.sectors j hj]
    simp only [maxLba] at hlba
    split
    · omega
    · omega
  · rw [href p hp hz]
    exact hfree.not_inUse
  · refine diskInode_changes hat.frame fun a ha hin => ?_
    have hrange := slot_range hq ha
    rcases hin with hmap | hsec
    · simp only [blockBitmapArea, mem_span] at hmap
      omega
    · simp only [mem_sector] at hsec
      omega

/-- The new inode in memory, beside that of its parent. -/
def preparedStore (v₁ : Volume part) (n : ℕ) (new : Inode) (m : ℕ) (i : Inode) : Store part :=
  ⟨v₁, fun q => if q = n then some new else if q = m then some i else none⟩

section Insert

variable (h : Consistent v t) (hp : Prepared v n new v₁) (hn : n < 4096) (hfree : t n = none)
  (hclear : v.inodeBit n = false) (hm : t.IsDir m) (hi : i.Same (diskInode part v.disk m))

theorem ne_of_isDir (hfree : t n = none) (hm : t.IsDir m) : m ≠ n := by
  rintro rfl
  obtain ⟨p, E, hm⟩ := hm
  rw [hfree] at hm
  cases hm

theorem prepared_self : (preparedStore v₁ n new m i).node n = new := by
  simp [preparedStore, Store.node]

theorem prepared_parent (hne : m ≠ n) : (preparedStore v₁ n new m i).node m = i := by
  simp [preparedStore, Store.node, hne]

include hp hi in
theorem prepared_same {q : ℕ} (hq : q < 4096) (hqn : q ≠ n) :
    ((preparedStore v₁ n new m i).node q).Same (diskInode part v.disk q) := by
  by_cases hqm : q = m
  · subst q
    rwa [prepared_parent hqn]
  · have hnode : (preparedStore v₁ n new m i).node q = diskInode part v₁.disk q := by
      simp [preparedStore, Store.node, hqn, hqm]
    rw [hnode, hp.records q hq]
    exact Inode.Same.refl _

include hp hn in
theorem prepared_allocated (q : ℕ) : (preparedStore v₁ n new m i).Allocated q ↔
    q = n ∨ (diskStore v).Allocated q := by
  have hbit : v₁.inodeBit q = if q = n then true else v.inodeBit q := by
    rw [Volume.inodeBit, hp.bits]
    exact bitmapScanTest_set _ _ _ _
  simp only [Store.Allocated, preparedStore, diskStore, hbit]
  by_cases hq : q = n
  · simp [hq, hn]
  · simp [hq]

include h hp hi hclear in
theorem prepared_refs {q : ℕ} (hq : (diskStore v).Allocated q) {p : ℕ} (hp141 : p < 141) :
    (preparedStore v₁ n new m i).refs q p = (diskStore v).refs q p := by
  have hqn : q ≠ n := by
    rintro rfl
    exact Bool.false_ne_true (hclear.symm.trans hq.2)
  have howns : Owns v (ref v.disk (diskInode part v.disk q)) := h.owned.owns hq
  have href := hp.spared.ref howns hp141
  rw [Store.refs, ref_same (prepared_same hp hi hq.1 hqn)]
  exact href

include h hp hn hi hclear in
theorem prepared_owned : Owned (preparedStore v₁ n new m i) := by
  have hself : ∀ p, (preparedStore v₁ n new m i).refs n p = ref v₁.disk new p := by
    intro p
    rw [Store.refs, prepared_self]
    rfl
  have hall := prepared_allocated hp hn (m := m) (i := i)
  have hnot : ∀ q, (diskStore v).Allocated q → q ≠ n := by
    rintro q hq rfl
    exact Bool.false_ne_true (hclear.symm.trans hq.2)
  -- the new inode has no block that was in use
  have hapart : ∀ q, (diskStore v).Allocated q → ∀ p < 141, ∀ p' < 141,
      (diskStore v).refs q p ≠ 0 → (diskStore v).refs q p ≠ ref v₁.disk new p' := by
    intro q hq p hp141 p' hp141' hz he
    exact hp.fresh p' hp141' (he ▸ hz) (he ▸ h.owned.held q hq p hp141 hz)
  refine ⟨fun q hq => ?_, fun q hq p hp141 hz => ?_, fun q q' hq hq' p hp141 p' hp141' hz he => ?_⟩
  · rcases (hall q).mp hq with rfl | hq
    · rw [prepared_self, hp.no]
    · exact (prepared_same hp hi hq.1 (hnot q hq)).no.trans (h.owned.number q hq)
  · rcases (hall q).mp hq with rfl | hq
    · rw [hself] at hz ⊢
      exact hp.owns.held p hp141 hz
    · rw [prepared_refs h hp hclear hi hq hp141] at hz ⊢
      exact hp.spared.keep _ (h.owned.held q hq p hp141 hz)
  · rcases (hall q).mp hq with rfl | hq₀ <;> rcases (hall q').mp hq' with rfl | hq₀'
    · rw [hself] at hz he
      rw [hself] at he
      exact ⟨rfl, hp.owns.distinct p hp141 p' hp141' hz he⟩
    · rw [hself] at hz he
      rw [prepared_refs h hp hclear hi hq₀' hp141'] at he
      exact absurd he.symm (hapart q' hq₀' p' hp141' p hp141 (he ▸ hz))
    · rw [prepared_refs h hp hclear hi hq₀ hp141] at hz he
      rw [hself] at he
      exact absurd he (hapart q hq₀ p hp141 p' hp141' hz)
    · rw [prepared_refs h hp hclear hi hq₀ hp141] at hz he
      rw [prepared_refs h hp hclear hi hq₀' hp141'] at he
      exact h.owned.unique q q' hq₀ hq₀' p hp141 p' hp141' hz he

end Insert

section Tree

variable {N : Node ℕ (List Byte)}

theorem typeOf_insert {c : ℕ} (hc : c ≠ n) : typeOf (t.insert m k n N) c = typeOf t c := by
  cases hnode : t c with
  | none => simp only [typeOf, insert_none hc hnode, hnode]
  | some M =>
    cases M with
    | file => simp only [typeOf, insert_file hc hnode, hnode]
    | dir p E => simp only [typeOf, insert_dir hc hnode, hnode]

/-- The directories that were there before: the parent has one entry more. -/
theorem entriesOf_insert (ht : WellFormed 0 t) (hm : t.IsDir m) (hk : k ≠ dot ∧ k ≠ dotdot)
    (hn : t n = none) {d : ℕ} (hd : d ≠ n) : entriesOf (t.insert m k n N) d =
      if d = m then Function.update (entriesOf t m) k (some (n, (typeOf (t.insert m k n N) n).code))
      else entriesOf t d := by
  have hold : ∀ l, (t.child dots d l).map (fun c => (c, (typeOf (t.insert m k n N) c).code)) =
      entriesOf t d l := by
    intro l
    cases hc : t.child dots d l with
    | none => simp [entriesOf, hc]
    | some c =>
      have hcn : c ≠ n := by
        rintro rfl
        obtain ⟨M, hM⟩ := ht.child_some hc
        rw [hn] at hM
        cases hM
      simp [entriesOf, hc, typeOf_insert hcn]
  funext l
  rw [entriesOf, insert_child (w := dots) hm hk hd]
  by_cases hdm : d = m
  · subst d
    by_cases hl : l = k
    · subst l
      simp
    · simp [hl, hold]
  · simp [hdm, hold]

end Tree

/-- What is behind the three write-backs of a new inode. -/
structure SyncedNew (v₂ : Volume part) (i' new : Inode) (v₃ : Volume part) : Prop where
  blocks : v₃.blockBitmap = v₂.blockBitmap
  inodes : v₃.inodeBitmap = v₂.inodeBitmap
  spared : Spared v₂ v₃
  parent : (diskInode part v₃.disk i'.iNo).Same i'
  self : (diskInode part v₃.disk new.iNo).Same new
  records : ∀ q < 4096, q ≠ i'.iNo → q ≠ new.iNo →
    diskInode part v₃.disk q = diskInode part v₂.disk q
  synced : BlockSynced v₂ → BlockSynced v₃

theorem syncNewInode_some (h : syncNewInode i' new v₂ = some v₃) (hm : i'.iNo < 256)
    (hn : new.iNo < 256) (hne : i'.iNo ≠ new.iNo) (hi : i'.Fits) (hf : new.Fits) :
    SyncedNew v₂ i' new v₃ := by
  have hb := part.bounds
  simp only [syncNewInode, inodeSync_eq, Nat.mod_eq_of_lt hm, Nat.mod_eq_of_lt hn,
    Option.bind_eq_bind, Option.bind_some] at h
  obtain rfl := bitmapSync_inode_some h
  rw [show new.iNo / 4096 = 0 by omega, Nat.add_zero, Nat.zero_mul]
  have hmap : ∀ d m' : Bytes, Changes (inodeBitmapArea part) d
      (patch d (512 * part.sb.inodeBitmapLba) 512 m') := fun d m' => changes_patch _ _ _ _
  -- the bitmap is no part of the inode table
  have hout : ∀ q < 4096, ∀ a ∈ slot part q, a ∉ inodeBitmapArea part := by
    intro q hq a ha hin
    have := slot_range hq ha
    simp only [inodeBitmapArea, mem_span] at hin
    omega
  have hrec : ∀ d m' : Bytes, ∀ q < 4096,
      diskInode part (patch d (512 * part.sb.inodeBitmapLba) 512 m') q = diskInode part d q :=
    fun d m' q hq => diskInode_changes (hmap d m') (hout q hq)
  have hslot : ∀ d m' : Bytes, ∀ p q, q ≠ p →
      diskInode part (patch d (slotAddr part p) 76 m') q = diskInode part d q :=
    fun d m' p q hqp => diskInode_changes (changes_patch _ _ _ _) fun a ha => slot_disjoint part hqp ha
  refine ⟨rfl, rfl, ⟨fun x hx => hx, fun x hx a ha => ?_⟩, ?_, ?_, fun q hq hqm hqn => ?_,
    fun hs k hk => ?_⟩
  · have hdata := sector_inUse hx ha
    have h1 := not_mem_slot hdata (n := i'.iNo) (by omega)
    have h2 := not_mem_slot hdata (n := new.iNo) (by omega)
    simp only [slot, mem_span] at h1 h2
    rw [withDisk_disk, patch_out (by omega), withDisk_disk, patch_out (by omega),
      patch_out (by omega)]
  · rw [withDisk_disk, hrec _ _ _ (by omega), withDisk_disk, hslot _ _ _ _ hne]
    exact diskInode_patch_slot hi _
  · rw [withDisk_disk, hrec _ _ _ (by omega), withDisk_disk]
    exact diskInode_patch_slot hf _
  · rw [withDisk_disk, hrec _ _ q hq, withDisk_disk, hslot _ _ _ _ hqn, hslot _ _ _ _ hqm]
  · -- the block bitmap lies in front of all that is written
    have hslots : ∀ q, 512 * part.sb.inodeTableLba ≤ slotAddr part q := fun q => Nat.le_add_right _ _
    have h1 := hslots i'.iNo
    have h2 := hslots new.iNo
    rw [withDisk_disk, patch_out (by omega), withDisk_disk, patch_out (by omega),
      patch_out (by omega)]
    exact hs k hk

/-- The course of an insertion that succeeds: of the object `N`, inode `n`, under the name `k` in
directory `m`. -/
structure Insertion (v : Volume part) (t : FileTree) (m n : ℕ) (k : List Byte)
    (N : Node ℕ (List Byte)) (i new i' : Inode) (v₁ v₂ v₃ : Volume part) : Prop where
  consistent : Consistent v t
  dir : t.IsDir m
  near : m < 256
  parent : i.Same (diskInode part v.disk m)
  name : ValidName k
  plain : k ≠ dot ∧ k ≠ dotdot
  absent : t.child dots m k = none
  free : t n = none
  clear : v.inodeBit n = false
  low : n < 256
  under : N.Under m
  bare : N.Bare
  prepared : Prepared v n new v₁
  filled : ∀ p E, N = .dir p E → NewDirectory v₁ new n m
  entered : syncDirEntry ⟨k, n, (typeOf (t.insert m k n N) n).code⟩ i v₁ = some (true, i', v₂)
  synced : syncNewInode i' new v₂ = some v₃

namespace Insertion

variable {N : Node ℕ (List Byte)} (h : Insertion v t m n k N i new i' v₁ v₂ v₃)

include h

theorem ne : m ≠ n := ne_of_isDir h.free h.dir

theorem lt : n < 4096 := h.low.trans (by decide)

theorem pos : n ≠ 0 := by
  rintro rfl
  obtain ⟨p, E, h0⟩ := h.consistent.tree.root
  rw [h.free] at h0
  cases h0

theorem allocated_parent : (diskStore v).Allocated m := h.consistent.of_node (by
  obtain ⟨p, E, hm⟩ := h.dir
  simp [hm])

/-- Behind the preparation the parent is what it was. -/
theorem directory₁ : Directory v₁ i (entriesOf t m) :=
  h.prepared.spared.directory
    (directory_same (h.consistent.tree.directory m h.dir) h.parent.symm)

theorem no' : i'.iNo = m :=
  (syncDirEntry_entered h.entered).no.trans (h.parent.no.trans (h.consistent.tree.number m h.dir))

theorem insertable :
    Insertable (entriesOf t m) ⟨k, n, (typeOf (t.insert m k n N) n).code⟩ := by
  refine ⟨h.name, h.plain.1, h.plain.2, ?_, Nat.pos_of_ne_zero h.pos, h.lt.trans (by decide),
    fun l x hl => ?_, ?_⟩
  · rw [entriesOf, h.absent, Option.map_none]
  · -- no entry leads to a number that is not taken
    obtain ⟨c, hc, hx⟩ := Option.map_eq_some_iff.mp hl
    obtain ⟨M, hM⟩ := h.consistent.tree.tree.child_some hc
    rw [(Prod.mk.inj hx).1, h.free] at hM
    cases hM
  · cases N with
    | file => exact .inl (by simp [typeOf, insert_self])
    | dir p E => exact .inr (by simp [typeOf, insert_self])

theorem inserted : ∃ T, Inserted T v₁ i ⟨k, n, (typeOf (t.insert m k n N) n).code⟩ v₂ i' := by
  rcases syncDirEntry_some h.entered h.directory₁.owns with ⟨hok, -⟩ | ⟨-, hi⟩
  · cases hok
  · exact ⟨_, hi⟩

theorem directory₂ : Directory v₂ i' (Function.update (entriesOf t m) k
    (some (n, (typeOf (t.insert m k n N) n).code))) := by
  obtain ⟨T, hi⟩ := h.inserted
  exact h.directory₁.insert h.insertable hi

theorem syncedNew : SyncedNew v₂ i' new v₃ := by
  have hno := h.no'
  have hnew := h.prepared.no
  have hne := h.ne
  have hnear := h.near
  have hlow := h.low
  exact syncNewInode_some h.synced (by omega) (by omega) (by omega)
    (directory_fits h.directory₂ (by omega)) h.prepared.fits

/-- The store behind `sync_dir_entry`: the blocks of the parent have been rewritten. -/
theorem stepOn : ∃ T, StepOn m T True (preparedStore v₁ n new m i)
    (Store.put (preparedStore v₁ n new m i) v₂ m (some i')) := by
  obtain ⟨T, hi⟩ := h.inserted
  have hown := prepared_owned h.consistent h.prepared h.lt h.clear h.parent
  have halloc : (preparedStore v₁ n new m i).Allocated m :=
    (prepared_allocated h.prepared h.lt m).mpr (.inr h.allocated_parent)
  have hr : Rewrites T True (preparedStore v₁ n new m i).vol ((preparedStore v₁ n new m i).refs m)
      v₂ (ref v₂.disk i') := by
    rw [Store.refs, prepared_parent h.ne]
    exact hi.rewrites
  exact ⟨T, rewrites_stepOn hown halloc hr h.no'⟩

theorem allocated₂ (q : ℕ) : (Store.put (preparedStore v₁ n new m i) v₂ m (some i')).Allocated q ↔
    q = n ∨ (diskStore v).Allocated q := by
  obtain ⟨T, hstep⟩ := h.stepOn
  rw [allocated_congr hstep.bits q]
  exact prepared_allocated h.prepared h.lt q

/-- The records of the others are as before. -/
theorem record₃ {q : ℕ} (hq : q < 4096) (hqm : q ≠ m) (hqn : q ≠ n) :
    diskInode part v₃.disk q = diskInode part v.disk q := by
  obtain ⟨T, hstep⟩ := h.stepOn
  rw [h.syncedNew.records q hq (h.no' ▸ hqm) (h.prepared.no ▸ hqn)]
  exact (hstep.records q hq hqm).trans (h.prepared.records q hq)

/-- What is on the disk in the end is what was in memory. -/
theorem same₃ {q : ℕ} (hq : q = n ∨ (diskStore v).Allocated q) :
    (diskInode part v₃.disk q).Same
      ((Store.put (preparedStore v₁ n new m i) v₂ m (some i')).node q) := by
  obtain ⟨T, hstep⟩ := h.stepOn
  have hsync := h.syncedNew
  have hno := h.no'
  have hnew := h.prepared.no
  by_cases hqm : q = m
  · subst q
    rw [put_node_self]
    have := hsync.parent
    rwa [hno] at this
  have halloc := (prepared_allocated h.prepared h.lt (m := m) (i := i) q).mpr hq
  rw [hstep.node q hqm halloc]
  by_cases hqn : q = n
  · subst q
    rw [prepared_self]
    have := hsync.self
    rwa [hnew] at this
  · have hq4 : q < 4096 := halloc.1
    rw [h.record₃ hq4 hqm hqn]
    exact (prepared_same h.prepared h.parent hq4 hqn).symm

theorem refs₃ {q : ℕ} (hq : q = n ∨ (diskStore v).Allocated q) {p : ℕ} (hp : p < 141) :
    ref v₃.disk (diskInode part v₃.disk q) p =
      (Store.put (preparedStore v₁ n new m i) v₂ m (some i')).refs q p := by
  obtain ⟨T, hstep⟩ := h.stepOn
  have howns := hstep.owned.owns ((h.allocated₂ q).mpr hq)
  rw [ref_same (h.same₃ hq)]
  exact h.syncedNew.spared.ref howns hp

theorem owned₃ : Owned (diskStore v₃) := by
  obtain ⟨T, hstep⟩ := h.stepOn
  have hsync := h.syncedNew
  have hall : ∀ q, (diskStore v₃).Allocated q →
      (Store.put (preparedStore v₁ n new m i) v₂ m (some i')).Allocated q := by
    rintro q ⟨hq, hbit⟩
    refine ⟨hq, ?_⟩
    rw [Volume.inodeBit] at hbit ⊢
    exact hsync.inodes ▸ hbit
  exact hstep.owned.congr hall (fun q hq => (h.same₃ ((h.allocated₂ q).mp hq)).no)
    (fun q hq p hp => h.refs₃ ((h.allocated₂ q).mp hq) hp) hsync.spared.keep

/-- A directory other than the parent keeps its entries from the preparation on. -/
theorem kept {q : ℕ} (hqm : q ≠ m) (hq : q = n ∨ (diskStore v).Allocated q) {e : NameMap}
    (hd : Directory v₁ ((preparedStore v₁ n new m i).node q) e) :
    Directory v₃ (diskInode part v₃.disk q) e := by
  obtain ⟨T, hstep⟩ := h.stepOn
  have halloc := (prepared_allocated h.prepared h.lt (m := m) (i := i) q).mpr hq
  have hnode := hstep.node q hqm halloc
  have hrefs := hstep.refs q hqm halloc
  have hquiet := hstep.quiet q hqm halloc
  have howns := hstep.owned.owns ((h.allocated₂ q).mpr hq)
  rw [Store.refs, hnode] at howns
  simp only [Store.refs, hnode] at hrefs hquiet
  have hd₂ : Directory v₂ ((preparedStore v₁ n new m i).node q) e :=
    directory_kept hd howns rfl hrefs hquiet
  refine directory_same (h.syncedNew.spared.directory hd₂) ?_
  have := (h.same₃ hq).symm
  rwa [hnode] at this

theorem inodeBit₃ (q : ℕ) : v₃.inodeBit q = if q = n then true else v.inodeBit q := by
  obtain ⟨T, hstep⟩ := h.stepOn
  have hbits : v₂.inodeBitmap = v₁.inodeBitmap := hstep.bits
  rw [Volume.inodeBit, h.syncedNew.inodes, hbits, h.prepared.bits]
  exact bitmapScanTest_set _ _ _ _

/-- The objects of the tree have their numbers. -/
theorem taken {q : ℕ} (hq : t.insert m k n N q ≠ none) : q = n ∨ (diskStore v).Allocated q :=
  (insert_ne_none.mp hq).imp_right h.consistent.of_node

theorem allocated₃ {q : ℕ} (hq : q = n ∨ (diskStore v).Allocated q) : (diskStore v₃).Allocated q := by
  rcases hq with rfl | ⟨hq, hbit⟩
  · exact ⟨h.lt, (h.inodeBit₃ q).trans (if_pos rfl)⟩
  · refine ⟨hq, (h.inodeBit₃ q).trans ?_⟩
    split
    · rfl
    · exact hbit

theorem wellFormed : WellFormed 0 (t.insert m k n N) := by
  refine h.consistent.tree.tree.insert h.dir h.free (fun x hx => ?_) h.under h.bare
  have hc := (child_plain (w := dots) h.plain).mpr hx
  rw [h.absent] at hc
  cases hc

/-- The file of a new directory. -/
theorem directory_new (hd : (t.insert m k n N).IsDir n) :
    Directory v₃ (diskInode part v₃.disk n) (entriesOf (t.insert m k n N) n) := by
  obtain ⟨p, E, hd⟩ := hd
  obtain rfl : N = .dir p E := Option.some.inj (insert_self.symm.trans hd)
  obtain rfl : p = m := h.under
  obtain rfl : E = fun _ => none := funext (h.bare p E rfl)
  have htype : typeOf (t.insert p k n (.dir p fun _ => none)) p = .directory := by
    obtain ⟨q, F, hp⟩ := h.dir
    rw [typeOf_insert h.ne, typeOf, hp]
  rw [entriesOf_bare hd (by rw [typeOf, hd]) htype]
  refine h.kept h.ne.symm (.inl rfl) ?_
  rw [prepared_self]
  exact (h.filled _ _ rfl).directory

theorem onDisk : OnDiskTree v₃ (t.insert m k n N) := by
  have hsome : ∀ d, (t.insert m k n N).IsDir d → t.insert m k n N d ≠ none := by
    rintro d ⟨p, E, hd⟩
    simp [hd]
  refine ⟨h.wellFormed, fun d hd => (h.allocated₃ (h.taken hd)).1,
    fun d hd => h.owned₃.number d (h.allocated₃ (h.taken (hsome d hd))), fun d hd => ?_⟩
  by_cases hdn : d = n
  · subst d
    exact h.directory_new hd
  have hdir : t.IsDir d := (insert_isDir hdn).mp hd
  rw [entriesOf_insert h.consistent.tree.tree h.dir h.plain h.free hdn]
  by_cases hdm : d = m
  · subst d
    rw [if_pos rfl]
    refine directory_same (h.syncedNew.spared.directory h.directory₂) ?_
    have := h.syncedNew.parent.symm
    rwa [h.no'] at this
  · rw [if_neg hdm]
    refine h.kept hdm (h.taken (hsome d hd)) ?_
    have hsame := prepared_same h.prepared h.parent (h.consistent.tree.lt hdir) hdn
    exact directory_same (h.prepared.spared.directory (h.consistent.tree.directory d hdir)) hsame.symm

/-- The place of a block that the parent had, and all the blocks of the others. -/
theorem refs_kept {q : ℕ} (hq : (diskStore v).Allocated q) {p : ℕ} (hp : p < 141)
    (hkeep : q = m → p < 12 ∧ ref v.disk (diskInode part v.disk q) p ≠ 0) :
    ref v₃.disk (diskInode part v₃.disk q) p = ref v.disk (diskInode part v.disk q) p := by
  obtain ⟨T, hstep⟩ := h.stepOn
  rw [h.refs₃ (.inr hq) hp]
  have hbefore := prepared_refs h.consistent h.prepared h.clear h.parent hq hp
  by_cases hqm : q = m
  · subst q
    obtain ⟨h12, hz⟩ := hkeep rfl
    rw [Store.refs, put_node_self, ref_direct h12]
    have hi : i.iSectors p = ref v.disk (diskInode part v.disk m) p := by
      rw [← ref_same h.parent, ref_direct h12]
    rw [(syncDirEntry_entered h.entered).direct p h12 (hi ▸ hz), hi]
  · rw [hstep.refs q hqm ((prepared_allocated h.prepared h.lt q).mpr (.inr hq)) p hp]
    exact hbefore

theorem onDisk_refs {q : ℕ} (hq : t.insert m k n N q ≠ none) :
    OnDisk (ref v₃.disk (diskInode part v₃.disk q)) := by
  intro p hp
  by_cases hqm : q = m
  · subst q
    rw [h.refs₃ (.inr h.allocated_parent) hp, Store.refs, put_node_self]
    obtain ⟨T, hi⟩ := h.inserted
    exact hi.onDisk h.directory₁.onDisk p hp
  rcases insert_ne_none.mp hq with rfl | hq
  · obtain ⟨T, hstep⟩ := h.stepOn
    have halloc := (prepared_allocated h.prepared h.lt (m := m) (i := i) q).mpr (.inl rfl)
    rw [h.refs₃ (.inl rfl) hp, hstep.refs q hqm halloc p hp, Store.refs, prepared_self]
    exact h.prepared.onDisk p hp
  · rw [h.refs_kept (h.consistent.of_node hq) hp fun he => absurd he hqm]
    exact h.consistent.onDisk q hq p hp

/-- Behind the insertion the volume holds the larger tree. -/
theorem consistent₃ : Consistent v₃ (t.insert m k n N) := by
  have hroot : (diskStore v).Allocated 0 := h.consistent.of_node (by
    obtain ⟨p, E, h0⟩ := h.consistent.tree.root
    simp [h0])
  have hfirst := h.consistent.first
  have hdata : part.sb.dataStartLba ≠ 0 := by
    have := part.bounds
    omega
  refine ⟨h.onDisk, h.owned₃, fun q hq => (h.allocated₃ (h.taken hq)).2, fun q hq => h.onDisk_refs hq,
    ?_⟩
  rw [h.refs_kept hroot (by omega) fun _ => ⟨by omega, by rw [hfirst]; exact hdata⟩]
  exact hfirst

/-- The parent in memory is what the disk holds of it. -/
theorem parent₃ : i'.Same (diskInode part v₃.disk m) := by
  have := h.syncedNew.parent.symm
  rwa [h.no'] at this

end Insertion

end FsTreeInsert
