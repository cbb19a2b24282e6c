import XianweiOS.FsStore
import XianweiOS.FsDirectoryRuns

/-! Runs of the four operations that take and give back blocks, on the directories and files
of one store. An operation leaves the inode it worked on in memory. -/
namespace FsStoreRuns

open ByteStore HaltingProgram KernelBitmap DeviceIde FsVolume FsInodeTable FsBlockMap FsOwnership
  FsFreeBlocks FsFileWrite FsFileAppend FsDirectory FsDirectorySlots FsDirectoryDelete
  FsDirectoryTable FsDirectoryMap FsDirectoryRuns FsInodeRelease FsStore SlotTable

variable {part : Partition}

inductive Op where
  | sync (n : ℕ) (e : DirEntry)
  | delete (n inodeNo : ℕ)
  | write (n : ℕ) (mallocIoBuf mallocAllBlocks : Bool) (fdPos : ℕ) (buf : Bytes) (count : ℕ)
  | release (n : ℕ) (mallocIoBuf : Bool)

def Store.put (s : Store part) (v : Volume part) (n : ℕ) (ino : Option Inode) : Store part :=
  ⟨v, Function.update s.mem n ino⟩

def step (s : Store part) : Op → Option (Store part)
  | .sync n e => do
    let (_, ino, v) ← syncDirEntry e (s.node n) s.vol
    return Store.put s v n (some ino)
  | .delete n inodeNo => do
    let (_, ino, v) ← deleteDirEntry (s.node n) inodeNo s.vol
    return Store.put s v n (some ino)
  | .write n m1 m2 fdPos buf count => do
    let res ← fileWrite m1 m2 fdPos (s.node n) s.vol buf count
    return Store.put s res.vol n (some res.inode)
  | .release n m => do
    let v ← inodeRelease m (s.node n) n s.vol
    return Store.put s v n none

/-- Directory operations work on directories, file operations on files. -/
def Op.Allowed (files : Set ℕ) (s : Store part) : Op → Prop
  | .sync n _ => s.Allocated n ∧ n ∉ files
  | .delete n _ => s.Allocated n ∧ n ∉ files
  | .write n _ _ _ _ _ => s.Allocated n ∧ n ∈ files
  | .release n _ => s.Allocated n ∧ n ∈ files

/-- No table is replaced by a second one, and the record written back is the inode's own. -/
def Op.Good (s : Store part) : Op → Prop
  | .sync n _ => ¬Orphans s.vol.disk (s.node n)
  | .delete n _ => n < 256
  | .write n _ _ _ _ _ => n < 256
  | .release _ _ => True

/-- Completed operations in a row, all of them meeting `C`. -/
inductive Run (files : Set ℕ) (C : Store part → Op → Prop) : Store part → Store part → Prop where
  | refl (s : Store part) : Run files C s s
  | step {s s' s'' : Store part} {op : Op} (h : Run files C s s') (ha : op.Allowed files s')
      (hc : C s' op) (hs : FsStoreRuns.step s' op = some s'') : Run files C s s''

structure Sound (files : Set ℕ) (s : Store part) : Prop where
  owned : Owned s
  layout : ∀ n ∈ files, s.Allocated n → FileLayout s.vol (s.node n)

theorem fileLayout_congr {v v' : Volume part} {i j : Inode} (h : FileLayout v i) (hj : j.Same i)
    (ho : Owns v' (ref v'.disk j)) (hr : ∀ p < 141, ref v'.disk j p = ref v.disk i p) :
    FileLayout v' j := by
  refine ⟨ho, ⟨?_, ?_, ?_⟩, ?_, ?_⟩
  · rw [hj.no]
    exact h.fits.no
  · rw [hj.size]
    exact h.fits.size
  · intro k hk
    rw [hj.sectors k hk]
    exact h.fits.sectors k hk
  · rw [hj.size]
    exact h.size
  · rw [hj.size]
    refine h.blocks.imp (fun hb => ⟨fun p hp => ?_, ?_⟩) fun hz => ⟨hz.1, fun p hp => ?_⟩
    · rw [hr p (by omega)]
      exact hb.data p hp
    · rw [hr 140 (by omega)]
      exact hb.table
    · rw [hr p hp]
      exact hz.2 p hp

/-- The layout of a file the step was not about. -/
theorem Sound.other {files : Set ℕ} {s s' : Store part} (h : Sound files s) (ho : Owned s') {m : ℕ}
    (hm : m ∈ files) (ha : s.Allocated m) (ha' : s'.Allocated m) (hnode : s'.node m = s.node m)
    (hrefs : ∀ p < 141, s'.refs m p = s.refs m p) : FileLayout s'.vol (s'.node m) :=
  fileLayout_congr (h.layout m hm ha) (by rw [hnode]; exact Inode.Same.refl _) (ho.owns ha') hrefs

theorem Sound.stepOn {files : Set ℕ} {T S : Prop} {s s' : Store part} {n : ℕ} (h : Sound files s)
    (hs : StepOn n T S s s') (hn : n ∈ files → FileLayout s'.vol (s'.node n)) :
    Sound files s' := by
  refine ⟨hs.owned, fun m hm ha' => ?_⟩
  by_cases hne : m = n
  · subst m
    exact hn hm
  · have ha := (allocated_congr hs.bits m).mp ha'
    exact h.other hs.owned hm ha ha' (hs.node m hne ha) (hs.refs m hne ha)

theorem Sound.freeOf {files : Set ℕ} {s s' : Store part} {n : ℕ} (h : Sound files s)
    (hf : FreeOf n s s') : Sound files s' := by
  refine ⟨hf.owned, fun m hm ha' => ?_⟩
  obtain ⟨ha, hne⟩ := (hf.allocated m).mp ha'
  exact h.other hf.owned hm ha ha' (hf.node m hne ha) (hf.refs m hne ha)

@[simp] theorem put_node_self (s : Store part) (v : Volume part) (n : ℕ) (ino : Inode) :
    (Store.put s v n (some ino)).node n = ino := by
  simp [Store.put, Store.node]

theorem put_mem (s : Store part) (v : Volume part) {n m : ℕ} (ino : Option Inode) (h : m ≠ n) :
    (Store.put s v n ino).mem m = s.mem m := Function.update_of_ne h _ _

/-- Only number, size and block pointers of the inodes in memory matter. -/
theorem owned_same {mem mem' : ℕ → Option Inode} (h : Owned (⟨v, mem⟩ : Store part))
    (hs : ∀ n, (⟨v, mem⟩ : Store part).Allocated n →
      ((⟨v, mem'⟩ : Store part).node n).Same ((⟨v, mem⟩ : Store part).node n)) :
    Owned (⟨v, mem'⟩ : Store part) :=
  h.congr (fun _ hn => hn) (fun n hn => (hs n hn).no)
    (fun n hn p _ => congrFun (ref_same (hs n hn) v.disk) p) fun _ hx => hx

/-- The inode that is released may be a copy of the one in the store. -/
theorem release_same {s : Store part} {n : ℕ} {j : Inode} {mem : Bool} {v' : Volume part}
    (h : Owned s) (hn : s.Allocated n) (hj : j.Same (s.node n))
    (hrel : inodeRelease mem j n s.vol = some v') : FreeOf n s (Store.put s v' n none) := by
  have hself : (Store.put s s.vol n (some j)).node n = j := put_node_self _ _ _ _
  have hother : ∀ q ≠ n, (Store.put s s.vol n (some j)).node q = s.node q := by
    intro q hq
    rw [Store.node, Store.node, put_mem s _ _ hq]
    rfl
  have hrefs : ∀ q, (Store.put s s.vol n (some j)).refs q = s.refs q := by
    intro q
    rw [Store.refs, Store.refs]
    by_cases hq : q = n
    · subst q
      rw [hself]
      exact ref_same hj s.vol.disk
    · rw [hother q hq]
      rfl
  have hown : Owned (Store.put s s.vol n (some j)) := by
    apply owned_same h
    intro q _
    by_cases hq : q = n
    · subst q
      exact hself.symm ▸ hj
    · exact (hother q hq).symm ▸ Inode.Same.refl _
  have hfree : FreeOf n (Store.put s s.vol n (some j)) (Store.put s v' n none) :=
    hown.release hn (by rw [hself]; exact inodeRelease_some hrel (by
      have := hown.owns hn
      rwa [Store.refs, hself] at this)) fun m hm => by rw [put_mem s _ _ hm, put_mem s _ _ hm]
  refine ⟨hfree.owned, hfree.allocated, fun hl => hfree.noLeak fun x hx hu => ?_,
    hfree.blockSynced, fun q hq ha => ?_, fun q hq ha p hp => ?_, fun q hq ha p hp hz => ?_,
    hfree.records⟩
  · obtain ⟨q, hq, p, hp, he⟩ := hl x hx hu
    exact ⟨q, hq, p, hp, by rw [hrefs q]; exact he⟩
  · rw [hfree.node q hq ha, hother q hq]
  · rw [hfree.refs q hq ha p hp, hrefs q]
  · rw [← hrefs q] at hz ⊢
    exact hfree.quiet q hq ha p hp hz

/-- Inode `n` in memory and its blocks are rewritten, and the inode table is not. -/
theorem rewrites_stepOn {s : Store part} {n : ℕ} {T S : Prop} {ino : Inode} {v : Volume part}
    (h : Owned s) (hn : s.Allocated n) (hr : Rewrites T S s.vol (s.refs n) v (ref v.disk ino))
    (hno : ino.iNo = n) : StepOn n T S s (Store.put s v n (some ino)) :=
  h.step hn hr rfl rfl (Changes.refl _ _) (fun m hm => put_mem s _ _ hm)
    (fun p _ => by rw [Store.refs, put_node_self]; rfl) (by rw [put_node_self, hno])

/-- Deleting an entry of directory `n` is a step on that inode, if its record is the one that is
written back. -/
theorem delete_stepOn {s : Store part} {n inodeNo : ℕ} {ok : Bool} {ino : Inode} {v : Volume part}
    (h : Owned s) (hn : s.Allocated n) (hlt : n < 256)
    (hdel : deleteDirEntry (s.node n) inodeNo s.vol = some (ok, ino, v)) :
    StepOn n True True s (Store.put s v n (some ino)) := by
  rcases deleteDirEntry_some hdel (h.owns hn) with ⟨-, rfl, rfl, -⟩ | ⟨-, v1, hi, rfl⟩
  · exact rewrites_stepOn h hn (Rewrites.refl (h.owns hn)) (h.number n hn)
  · have hno : ino.iNo = n := hi.head.no.trans (h.number n hn)
    have hslot : ino.iNo % 256 = n := by rw [hno]; exact Nat.mod_eq_of_lt hlt
    have hc : Changes (slot part n) v1.disk (syncedInode v1 ino).disk := by
      rw [syncedInode, hslot]
      exact changes_patch _ _ _ _
    exact h.step hn hi.rewrites rfl rfl hc (fun m hm => put_mem s _ _ hm)
      (fun p hp => by
        rw [Store.refs, put_node_self]
        exact hi.rewrites.owns.ref_eq hc (slot_below hn.1) hp)
      (by rw [put_node_self, hno])

/-- One operation: the store stays sound, and a good one leaks nothing. -/
theorem step_sound {files : Set ℕ} {s s' : Store part} {op : Op} (h : Sound files s)
    (ha : op.Allowed files s) (hg : op.Good s) (hs : step s op = some s') :
    Sound files s' ∧ (NoLeak s → NoLeak s') := by
  cases op with
  | sync n e =>
    obtain ⟨hn, hd⟩ := ha
    simp only [step, bind_some_iff, Option.pure_def, Option.some.injEq] at hs
    obtain ⟨⟨ok, ino, v⟩, hsync, rfl⟩ := hs
    have hrew : Rewrites (¬Orphans s.vol.disk (s.node n)) True s.vol (s.refs n) v (ref v.disk ino) ∧
        ino.iNo = (s.node n).iNo := by
      rcases syncDirEntry_some hsync (h.owned.owns hn) with ⟨-, rfl, rfl, -⟩ | ⟨-, hi⟩
      · exact ⟨(Rewrites.refl (h.owned.owns hn)).weaken (fun _ => trivial) id, rfl⟩
      · exact ⟨hi.rewrites, hi.head.no⟩
    have hon : StepOn n _ _ s (Store.put s v n (some ino)) :=
      rewrites_stepOn h.owned hn hrew.1 (hrew.2.trans (h.owned.number n hn))
    exact ⟨h.stepOn hon fun hf => absurd hf hd, hon.noLeak hg⟩
  | delete n inodeNo =>
    obtain ⟨hn, hd⟩ := ha
    simp only [step, bind_some_iff, Option.pure_def, Option.some.injEq] at hs
    obtain ⟨⟨ok, ino, v⟩, hdel, rfl⟩ := hs
    have hon := delete_stepOn h.owned hn hg hdel
    exact ⟨h.stepOn hon fun hf => absurd hf hd, hon.noLeak trivial⟩
  | write n m1 m2 fdPos buf count =>
    obtain ⟨hn, hf⟩ := ha
    simp only [step, bind_some_iff, Option.pure_def, Option.some.injEq] at hs
    obtain ⟨res, hw, rfl⟩ := hs
    have hlay := h.layout n hf hn
    rcases fileWrite_some hw hlay with rfl | ⟨hlen, v1, happ, -, -, hvol⟩
    · have hon : StepOn n _ _ s (Store.put s s.vol n (some (s.node n))) :=
        rewrites_stepOn h.owned hn (Rewrites.refl (h.owned.owns hn)) (h.owned.number n hn)
      exact ⟨h.stepOn hon fun _ => by rw [put_node_self]; exact hlay, hon.noLeak trivial⟩
    · have hno : (s.node n).iNo = n := h.owned.number n hn
      have hslot : (s.node n).iNo % 256 = n := by rw [hno]; exact Nat.mod_eq_of_lt hg
      have hlay' := happ.layout hlay.fits hlen (s.node n).iNo res.inode.pure.toBytes
      rw [← hvol] at hlay'
      have hc : Changes (slot part n) v1.disk res.vol.disk := by
        rw [hvol, hslot]
        exact changes_patch _ _ _ _
      have hon : StepOn n _ _ s (Store.put s res.vol n (some res.inode)) :=
        h.owned.step hn happ.rewrites (by rw [hvol]; rfl) (by rw [hvol]; rfl) hc
          (fun m hm => put_mem s _ _ hm)
          (fun p hp => by
            rw [Store.refs, put_node_self]
            exact happ.rewrites.owns.ref_eq hc (slot_below hn.1) hp)
          (by rw [put_node_self, happ.head.no]; exact hno)
      exact ⟨h.stepOn hon fun _ => by rw [put_node_self]; exact hlay', hon.noLeak trivial⟩
  | release n m =>
    obtain ⟨hn, hf⟩ := ha
    simp only [step, bind_some_iff, Option.pure_def, Option.some.injEq] at hs
    obtain ⟨v, hrel, rfl⟩ := hs
    have hfree : FreeOf n s (Store.put s v n none) :=
      h.owned.release hn (inodeRelease_some hrel (h.owned.owns hn)) fun m hm => put_mem s _ _ hm
    exact ⟨h.freeOf hfree, hfree.noLeak⟩

theorem run_sound {files : Set ℕ} {s s' : Store part} (h : Sound files s) (hl : NoLeak s)
    (hr : Run files Op.Good s s') : Sound files s' ∧ NoLeak s' := by
  induction hr with
  | refl => exact ⟨h, hl⟩
  | step _ ha hc hs ih =>
    obtain ⟨hsound, hnl⟩ := ih
    obtain ⟨hsound', hkeep⟩ := step_sound hsound ha hc hs
    exact ⟨hsound', hkeep hnl⟩

/-- No block leaks in a run that never puts a second table in place of one. -/
theorem run_no_leak {files : Set ℕ} {s s' : Store part} (h : Sound files s) (hl : NoLeak s)
    (hr : Run files Op.Good s s') : NoLeak s' := (run_sound h hl hr).2

/-- A root directory after 272 insertions and the deletion of the 21 entries of place 12:
twelve full blocks, a table whose first entry is empty, one entry in the block of place 13. -/
def holedUsed (p i : ℕ) : Prop := p < 12 ∨ p = 13 ∧ i = 0

instance (p i : ℕ) : Decidable (holedUsed p i) := inferInstanceAs (Decidable (_ ∨ _))

def holedEntry (p i : ℕ) : DirEntry :=
  if p = 0 ∧ i = 0 then ⟨dot, 0, FileType.directory.code⟩
  else if p = 0 ∧ i = 1 then ⟨dotdot, 0, FileType.directory.code⟩
  else ⟨[BitVec.ofNat 8 (65 + p), BitVec.ofNat 8 (65 + i)], 1 + 21 * p + i, FileType.regular.code⟩

def holedRef (p : ℕ) : ℕ :=
  if p < 12 then 613 + p else if p = 13 then 626 else if p = 140 then 625 else 0

def holedDisk : Bytes := fun a =>
  if a / 512 = 625 then ofWords (fun k => if k = 1 then 626 else 0) (a % 512)
  else
    let p := if a / 512 = 626 then 13 else a / 512 - 613
    if 613 ≤ a / 512 ∧ a / 512 ≤ 626 ∧ a % 512 < 504 ∧ holedUsed p (a % 512 / 24) then
      (holedEntry p (a % 512 / 24)).toBytes (a % 512 % 24)
    else 0

def holedInode : Inode := ⟨0, 24 * 253, 1, false, fun k => if k < 12 then 613 + k else 625⟩

/-- Blocks 0 to 13 and the inodes 0 to 274 are in use. -/
def holedVolume : Volume smallPartition where
  disk := holedDisk
  blockBitmap := ⟨512, fun k => if k = 0 then 0xff else if k = 1 then 0x3f else 0⟩
  inodeBitmap := ⟨512, fun k => if k < 34 then 0xff else if k = 34 then 0x07 else 0⟩
  block_len := rfl
  inode_len := rfl

/-- The entries name files that are still empty. -/
def holedStore : Store smallPartition :=
  ⟨holedVolume, fun n => some (if n = 0 then holedInode else inodeInit n)⟩

theorem holed_blockBit (i : ℕ) : holedVolume.blockBit i = decide (i < 14) := by
  rw [Volume.blockBit, bitmapScanTest_eq]
  simp only [holedVolume]
  by_cases h : i < 16
  · have : i = 0 ∨ i = 1 ∨ i = 2 ∨ i = 3 ∨ i = 4 ∨ i = 5 ∨ i = 6 ∨ i = 7 ∨ i = 8 ∨ i = 9 ∨ i = 10 ∨
      i = 11 ∨ i = 12 ∨ i = 13 ∨ i = 14 ∨ i = 15 := by omega
    rcases this with rfl | rfl | rfl | rfl | rfl | rfl | rfl | rfl | rfl | rfl | rfl | rfl | rfl |
      rfl | rfl | rfl <;> decide
  · rw [if_neg (by omega), if_neg (by omega), decide_eq_false (by omega)]
    simp

theorem holed_ref {p : ℕ} (hp : p < 141) : ref holedDisk holedInode p = holedRef p := by
  by_cases h12 : p < 12
  · rw [ref_direct h12, holedRef, if_pos h12]
    exact if_pos h12
  by_cases h140 : p < 140
  · rw [ref_indirect (by omega) h140, holedRef, if_neg h12]
    have ht : holedInode.iSectors 12 = 625 := rfl
    rw [ht, if_neg (by decide)]
    have : word holedDisk (512 * 625 + 4 * (p - 12)) =
        word (ofWords fun k => if k = 1 then 626 else 0) (4 * (p - 12)) := by
      apply word_congr
      intro j hj
      have h1 : (512 * 625 + 4 * (p - 12) + j) / 512 = 625 := by omega
      have h2 : (512 * 625 + 4 * (p - 12) + j) % 512 = 4 * (p - 12) + j := by omega
      simp only [holedDisk, h1, h2, ↓reduceIte]
    rw [this, word_ofWords_of_lt (by split <;> omega)]
    by_cases h13 : p = 13
    · subst p
      decide
    · rw [if_neg (by omega), if_neg h13, if_neg (by omega)]
  · obtain rfl : p = 140 := by omega
    rfl

theorem holed_slot {p i : ℕ} (hp : p < 140) (hi : i < 21) :
    rawSlot holedDisk (ref holedDisk holedInode) p i =
      if holedUsed p i then clip (holedEntry p i).toBytes else zeroes := by
  have href := holed_ref (show p < 141 by omega)
  by_cases hz : holedRef p = 0
  · rw [rawSlot_absent (by rw [href, hz])]
    have : ¬holedUsed p i := by
      rintro (h | ⟨rfl, -⟩)
      · rw [holedRef, if_pos h] at hz
        omega
      · exact absurd hz (by decide)
    rw [if_neg this]
  · rw [rawSlot_present (by rw [href]; exact hz), href]
    have hcase : (p < 12 ∧ holedRef p = 613 + p) ∨ (p = 13 ∧ holedRef p = 626) := by
      by_cases h12 : p < 12
      · exact Or.inl ⟨h12, if_pos h12⟩
      · by_cases h13 : p = 13
        · subst p
          exact Or.inr ⟨rfl, rfl⟩
        · rw [holedRef, if_neg h12, if_neg h13, if_neg (by omega)] at hz
          exact absurd rfl hz
    funext k
    by_cases hk : k < 24
    · have h2 : (512 * holedRef p + 24 * i + k) / 512 = holedRef p := by omega
      have h3 : (512 * holedRef p + 24 * i + k) % 512 = 24 * i + k := by omega
      have h4 : (24 * i + k) / 24 = i := by omega
      have h5 : (24 * i + k) % 24 = k := by omega
      have h6 : (if holedRef p = 626 then 13 else holedRef p - 613) = p := by
        split <;> omega
      simp only [clip, window, if_pos hk, holedDisk, h2, h3, h4, h5, h6]
      rw [if_neg (by omega)]
      by_cases hu : holedUsed p i
      · rw [if_pos ⟨by omega, by omega, by omega, hu⟩, if_pos hu]
        simp only [clip, if_pos hk]
      · rw [if_neg (fun h => hu h.2.2.2), if_neg hu]
        rfl
    · simp only [clip, if_neg hk]
      split
      · simp only [clip, if_neg hk]
      · rfl


/-- The codes of the entries are told apart by their slots. -/
private theorem holedEntry_valid {p i : ℕ} (hp : p < 14) (hi : i < 21) :
    ValidName (holedEntry p i).filename ∧ (holedEntry p i).iNo < 2 ^ 32 ∧
      0 < (holedEntry p i).fType ∧ (holedEntry p i).fType < 2 ^ 32 := by
  rw [holedEntry]
  split
  · exact ⟨validName_dot, by decide, by decide, by decide⟩
  split
  · exact ⟨validName_dotdot, by decide, by decide, by decide⟩
  · refine ⟨⟨by simp, by simp, ?_⟩, by simp only; omega, Nat.zero_lt_one, show 1 < 2 ^ 32 by decide⟩
    simp only [List.mem_cons, List.not_mem_nil, or_false, not_or]
    constructor <;> intro h <;> have := congrArg BitVec.toNat h <;> simp at this <;> omega

private theorem holed_used_lt {p i : ℕ} (h : holedUsed p i) : p < 14 := by
  rcases h with h | ⟨h, -⟩ <;> omega

theorem holed_table (s : ℕ × ℕ) : dirTable holedDisk (ref holedDisk holedInode) s =
    if s.2 < 21 ∧ holedUsed s.1 s.2 then
      some ((holedEntry s.1 s.2).filename, (holedEntry s.1 s.2).iNo, (holedEntry s.1 s.2).fType)
    else none := by
  obtain ⟨p, i⟩ := s
  simp only [dirTable]
  by_cases hin : p < 140 ∧ i < 21
  · rw [if_pos hin, holed_slot hin.1 hin.2]
    by_cases hu : holedUsed p i
    · obtain ⟨h1, h2, h3, h4⟩ := holedEntry_valid (holed_used_lt hu) hin.2
      rw [if_pos hu, if_pos ⟨hin.2, hu⟩, entryOf_toBytes h1 h2 h3 h4]
    · rw [if_neg hu, if_neg (fun h => hu h.2), ← clip_zeroes, entryOf_zeroes]
  · rw [if_neg hin, if_neg]
    rintro ⟨hi, hu⟩
    have := holed_used_lt hu
    exact hin ⟨by omega, hi⟩

/-- Two entries share their name, or their number outside the dots, only if they are one. -/
private theorem holedEntry_inj {p i q j : ℕ} (hp : p < 14) (hi : i < 21) (hq : q < 14) (hj : j < 21) :
    ((holedEntry p i).filename = (holedEntry q j).filename → p = q ∧ i = j) ∧
    ((holedEntry p i).filename ≠ dot → (holedEntry p i).filename ≠ dotdot →
      (holedEntry q j).filename ≠ dot → (holedEntry q j).filename ≠ dotdot →
      (holedEntry p i).iNo = (holedEntry q j).iNo → p = q ∧ i = j) := by
  have hname : ∀ a b c d : ℕ, a < 14 → b < 21 → c < 14 → d < 21 →
      [BitVec.ofNat 8 (65 + a), BitVec.ofNat 8 (65 + b)] =
        [BitVec.ofNat 8 (65 + c), BitVec.ofNat 8 (65 + d)] → a = c ∧ b = d := by
    intro a b c d h1 h2 h3 h4 h
    simp only [List.cons.injEq, and_true] at h
    have e1 := congrArg BitVec.toNat h.1
    have e2 := congrArg BitVec.toNat h.2
    simp only [BitVec.toNat_ofNat] at e1 e2
    omega
  have hdd : ∀ a b : ℕ, a < 14 → dotdot ≠ [BitVec.ofNat 8 (65 + a), BitVec.ofNat 8 (65 + b)] := by
    intro a b h1 h
    simp only [dotdot, List.cons.injEq] at h
    have e1 := congrArg BitVec.toNat h.1
    simp at e1
    omega
  have hno : ∀ a b : ℕ, (holedEntry a b).filename ≠ dot → (holedEntry a b).filename ≠ dotdot →
      (holedEntry a b).iNo = 1 + 21 * a + b := by
    intro a b h1 h2
    unfold holedEntry at h1 h2 ⊢
    by_cases c1 : a = 0 ∧ b = 0
    · rw [if_pos c1] at h1
      exact absurd rfl h1
    by_cases c2 : a = 0 ∧ b = 1
    · rw [if_neg c1, if_pos c2] at h2
      exact absurd rfl h2
    · rw [if_neg c1, if_neg c2]
  constructor
  · intro h
    rw [holedEntry, holedEntry] at h
    split at h
    · split at h
      · omega
      split at h
      · exact absurd h (by decide)
      · exact absurd (congrArg List.length h) (by simp [dot])
    split at h
    · split at h
      · exact absurd h (by decide)
      split at h
      · omega
      · exact absurd h (hdd _ _ hq)
    · split at h
      · exact absurd (congrArg List.length h) (by simp [dot])
      split at h
      · exact absurd h.symm (hdd _ _ hp)
      · exact hname _ _ _ _ hp hi hq hj h
  · intro h1 h2 h3 h4 h
    rw [hno p i h1 h2, hno q j h3 h4] at h
    omega

theorem holed_owns : Owns holedVolume (ref holedDisk holedInode) := by
  have hinj : ∀ p < 141, ∀ q < 141, holedRef p ≠ 0 → holedRef p = holedRef q → p = q := by
    intro p _ q _ hz h
    unfold holedRef at hz h
    split_ifs at hz h <;> omega
  refine ⟨fun p hp q hq hz h => ?_, fun p hp hz => ?_⟩
  · rw [holed_ref hp] at hz h
    rw [holed_ref hq] at h
    exact hinj p hp q hq hz h
  · rw [holed_ref hp] at hz ⊢
    have hlt : holedRef p - 613 < 14 ∧ 613 ≤ holedRef p := by
      unfold holedRef at hz ⊢
      split_ifs at hz ⊢ <;> omega
    refine ⟨holedRef p - 613, ?_, ?_, ?_⟩
    · simp only [smallPartition]
      omega
    · simp only [holedVolume]
      omega
    · rw [holed_blockBit]
      exact decide_eq_true hlt.1

theorem holed_live : live (dirTable holedDisk (ref holedDisk holedInode)) = 253 := by
  have hset : {s | dirTable holedDisk (ref holedDisk holedInode) s ≠ none} =
      (insert (13, 0) (Finset.range 12 ×ˢ Finset.range 21) : Finset (ℕ × ℕ)) := by
    ext ⟨p, i⟩
    rw [Set.mem_ofPred_eq, holed_table]
    simp only [Finset.coe_insert, Set.mem_insert_iff, Prod.mk.injEq, Finset.mem_coe,
      Finset.mem_product, Finset.mem_range]
    by_cases hu : i < 21 ∧ holedUsed p i
    · rw [if_pos hu]
      simp only [holedUsed] at hu
      simp only [ne_eq, reduceCtorEq, not_false_eq_true, true_iff]
      omega
    · rw [if_neg hu]
      simp only [holedUsed] at hu
      simp only [ne_eq, not_true_eq_false, false_iff]
      omega
  rw [live, hset, Set.ncard_coe_finset, Finset.card_insert_of_notMem (by simp), Finset.card_product,
    Finset.card_range, Finset.card_range]

theorem holed_directory : ∃ m, Directory holedVolume holedInode m := by
  have hkeyed : Keyed (dirTable holedDisk (ref holedDisk holedInode)) := by
    rintro ⟨p, i⟩ ⟨q, j⟩ k x y h1 h2
    rw [holed_table] at h1 h2
    split at h1
    · rename_i c1
      split at h2
      · rename_i c2
        have e1 := (Prod.mk.inj (Option.some.inj h1)).1
        have e2 := (Prod.mk.inj (Option.some.inj h2)).1
        obtain ⟨rfl, rfl⟩ := (holedEntry_inj (holed_used_lt c1.2) c1.1 (holed_used_lt c2.2) c2.1).1
          (e1.trans e2.symm)
        rfl
      · cases h2
    · cases h1
  obtain ⟨m, hm⟩ := hkeyed.represents
  refine ⟨m, holed_owns, ?_, ?_, ?_, ?_, ?_, ?_, hkeyed, ?_, hm⟩
  · intro p hp
    rw [show ref holedVolume.disk holedInode p = holedRef p from holed_ref hp]
    unfold holedRef
    split_ifs <;> simp only [maxLba] <;> omega
  · exact congrArg (24 * ·) holed_live.symm
  · intro p hp i hi hl
    rw [show rawSlot holedVolume.disk (ref holedVolume.disk holedInode) p i = _ from
      holed_slot hp hi] at hl ⊢
    split
    · rename_i hu
      rw [if_pos hu] at hl
      have ht := holed_table (p, i)
      rw [if_pos ⟨hi, hu⟩, dirTable, if_pos ⟨hp, hi⟩, holed_slot hp hi, if_pos hu, entryOf,
        if_pos (not_not.mp hl)] at ht
      cases ht
    · rfl
  · rintro ⟨p, i⟩ k x h
    rw [show dirTable holedVolume.disk (ref holedVolume.disk holedInode) (p, i) = _ from
      holed_table (p, i)] at h
    split at h
    · rename_i c
      rw [← (Prod.mk.inj (Option.some.inj h)).1]
      exact (holedEntry_valid (holed_used_lt c.2) c.1).1
    · cases h
  · exact ⟨_, holed_table (0, 0)⟩
  · exact ⟨_, holed_table (0, 1)⟩
  · rintro ⟨p, i⟩ ⟨q, j⟩ k k' n x y h1 h2 a1 a2 a3 a4
    rw [show dirTable holedVolume.disk (ref holedVolume.disk holedInode) (p, i) = _ from
      holed_table (p, i)] at h1
    rw [show dirTable holedVolume.disk (ref holedVolume.disk holedInode) (q, j) = _ from
      holed_table (q, j)] at h2
    split at h1
    · rename_i c1
      split at h2
      · rename_i c2
        simp only [Option.some.injEq, Prod.mk.injEq] at h1 h2
        obtain ⟨rfl, rfl, -⟩ := h1
        obtain ⟨rfl, hn, -⟩ := h2
        obtain ⟨rfl, rfl⟩ := (holedEntry_inj (holed_used_lt c1.2) c1.1 (holed_used_lt c2.2) c2.1).2
          a1 a2 a3 a4 hn.symm
        rfl
      · cases h2
    · cases h1

theorem holed_sound : Sound {n | n ≠ 0} holedStore := by
  have hnode : ∀ n ≠ 0, holedStore.node n = inodeInit n := fun n hn => by
    simp [Store.node, holedStore, hn]
  have hempty : ∀ n ≠ 0, ∀ p < 141, holedStore.refs n p = 0 := fun n hn p hp => by
    rw [Store.refs, hnode n hn]
    exact fresh_ref _ _ hp
  refine ⟨⟨fun n _ => ?_, fun n _ p hp hz => ?_, fun n n' _ _ p hp p' hp' hz he => ?_⟩,
    fun n hn ha => ?_⟩
  · by_cases hn : n = 0
    · subst n
      rfl
    · rw [hnode n hn]
      rfl
  · by_cases hn : n = 0
    · subst n
      exact holed_owns.held p hp hz
    · exact absurd (hempty n hn p hp) hz
  · by_cases hn : n = 0
    · subst n
      by_cases hn' : n' = 0
      · subst n'
        exact ⟨rfl, holed_owns.distinct p hp p' hp' hz he⟩
      · rw [he] at hz
        exact absurd (hempty n' hn' p' hp') hz
    · exact absurd (hempty n hn p hp) hz
  · rw [hnode n hn]
    exact fresh_layout _ (by have := ha.1; omega)

theorem holed_root : holedStore.Allocated 0 := by
  refine ⟨by decide, ?_⟩
  rw [Volume.inodeBit, bitmapScanTest_eq]
  decide

theorem holed_noLeak : NoLeak holedStore := by
  rintro x - ⟨i, rfl, -, hb⟩
  rw [show holedStore.vol.blockBit i = _ from holed_blockBit i] at hb
  have hi := of_decide_eq_true hb
  have href : ∀ p < 141, holedStore.refs 0 p = holedRef p := fun p hp => holed_ref hp
  have hds : smallPartition.sb.dataStartLba = 613 := rfl
  refine ⟨0, holed_root, if i < 12 then i else if i = 12 then 140 else 13, by split_ifs <;> omega, ?_⟩
  rw [href _ (by split_ifs <;> omega), hds]
  unfold holedRef
  split_ifs <;> omega

theorem holed_orphans : Orphans holedStore.vol.disk (holedStore.node 0) := by
  have href : ∀ p < 141, ref holedStore.vol.disk (holedStore.node 0) p = holedRef p :=
    fun p hp => holed_ref hp
  refine ⟨by decide, ?_, fun p hp => ⟨?_, fun i hi => ?_⟩⟩
  · rw [href 12 (by decide)]
    decide
  · rw [href p (by omega), holedRef, if_pos hp]
    omega
  · have ht := holed_table (p, i)
    rw [if_pos ⟨hi, Or.inl hp⟩, dirTable, if_pos ⟨by omega, hi⟩, entryOf] at ht
    intro hz
    rw [if_pos (show word (rawSlot holedDisk (ref holedDisk holedInode) (p, i).1 (p, i).2) 20 = 0
      from hz)] at ht
    cases ht

theorem holed_free : 2 ≤ freeBlocks holedVolume := by
  refine Finset.one_lt_card.mpr ⟨14, ?_, 15, ?_, by decide⟩ <;>
    simp only [Finset.mem_filter, Finset.mem_range, holed_blockBit] <;> decide

/-- An entry for inode 275 puts a second table in place of the first, whose block leaks. -/
theorem second_table_leaks :
    ∃ m, Directory holedStore.vol (holedStore.node 0) m ∧ Sound {n | n ≠ 0} holedStore ∧
      NoLeak holedStore ∧
      ∃ s', Run {n | n ≠ 0} (fun _ _ => True) holedStore s' ∧
        step holedStore (.sync 0 ⟨[0x7a], 275, FileType.regular.code⟩) = some s' ∧ ¬NoLeak s' := by
  obtain ⟨m, hd⟩ := holed_directory
  obtain ⟨ok, ino, v, hs⟩ := syncDirEntry_exists hd ⟨[0x7a], 275, FileType.regular.code⟩ holed_free
  have hstep : step holedStore (.sync 0 ⟨[0x7a], 275, FileType.regular.code⟩) =
      some (Store.put holedStore v 0 (some ino)) := by
    rw [step, show syncDirEntry _ (holedStore.node 0) holedStore.vol = _ from hs]
    rfl
  obtain ⟨hused, hnot⟩ := syncDirEntry_leaks hs holed_owns holed_orphans
  have hallow : (Op.sync 0 ⟨[0x7a], 275, FileType.regular.code⟩).Allowed {n | n ≠ 0} holedStore :=
    ⟨holed_root, by simp⟩
  refine ⟨m, hd, holed_sound, holed_noLeak, _, .step (.refl _) hallow trivial hstep, hstep,
    fun hl => ?_⟩
  obtain ⟨n, -, p, hp, he⟩ := hl 625 (by decide) hused
  by_cases hn : n = 0
  · subst n
    rw [Store.refs, put_node_self] at he
    exact hnot p hp he
  · have hnode : (Store.put holedStore v 0 (some ino)).node n = inodeInit n := by
      simp [Store.put, Store.node, holedStore, hn]
    rw [Store.refs, hnode, fresh_ref _ _ hp] at he
    cases he

/-- Deleting the entry of inode 3 from that directory leaks nothing. -/
theorem run_no_leak_delete :
    ∃ s', step holedStore (.delete 0 3) = some s' ∧ NoLeak s' := by
  obtain ⟨m, hd⟩ := holed_directory
  obtain ⟨ok, ino, v, hs⟩ := deleteDirEntry_exists hd 3
  have hstep : step holedStore (.delete 0 3) = some (Store.put holedStore v 0 (some ino)) := by
    rw [step, show deleteDirEntry (holedStore.node 0) 3 holedStore.vol = _ from hs]
    rfl
  have hallow : (Op.delete 0 3).Allowed {n | n ≠ 0} holedStore := ⟨holed_root, by simp⟩
  have hgood : (Op.delete 0 3).Good holedStore := show 0 < 256 by decide
  exact ⟨_, hstep, run_no_leak holed_sound holed_noLeak (.step (.refl _) hallow hgood hstep)⟩

end FsStoreRuns
