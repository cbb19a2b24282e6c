import XianweiOS.FsDirectoryDelete

/-! `inode_release` of `fs/inode.c`, behind the `inode_open` it starts with: the blocks of
the inode are given back one by one, then its bit of the inode bitmap and its record. A
buffer that could not be had is handed to the drive, which stops the machine. -/
namespace FsInodeRelease

open ByteStore HaltingProgram KernelBitmap DeviceIde FsVolume FsInodeTable FsBlockMap FsOwnership
  FsDirectory FsDirectoryDelete

variable {part : Partition}

/-- One block; block 0 of the data area belongs to the root directory and is never given back. -/
def releaseOne (lba : ℕ) (v : Volume part) : Option (Volume part) := do
  assert (0 < blockBitmapIdx part lba)
  releaseBlock lba v

def releaseLoop (allBlocks : ℕ → ℕ) :
    (left blockIdx : ℕ) → Volume part → Option (Volume part)
  | 0, _, v => some v
  | left + 1, blockIdx, v =>
    if allBlocks blockIdx ≠ 0 then do
      let v ← releaseOne (allBlocks blockIdx) v
      releaseLoop allBlocks left (blockIdx + 1) v
    else releaseLoop allBlocks left (blockIdx + 1) v

/-- The indirect table and then everything in `all_blocks`. -/
def releaseBlocks (inode : Inode) (v : Volume part) : Option (Volume part) := do
  let allBlocks ← loadAllBlocks v.disk inode
  if inode.iSectors 12 ≠ 0 then
    let v ← releaseOne (inode.iSectors 12) v
    releaseLoop allBlocks 140 0 v
  else releaseLoop allBlocks 12 0 v

def inodeRelease (mallocIoBuf : Bool) (inode : Inode) (inodeNo : ℕ) (v : Volume part) :
    Option (Volume part) := do
  assert (inode.iNo = inodeNo)
  let v ← releaseBlocks inode v
  let v ← bitmapSync (v.setInodeBit inodeNo false) inodeNo .inodeBitmap
  assert (mallocIoBuf = true)
  let disk ← inodeDelete part v.disk inodeNo zeroes
  return v.withDisk disk

/-- The places of which the loop has already given the blocks back. -/
def emptied (r : ℕ → ℕ) (k p : ℕ) : ℕ := if p < k ∨ p = 140 then 0 else r p

theorem releaseOne_some {v v' : Volume part} {x p : ℕ} {r : ℕ → ℕ}
    (h : releaseOne x v = some v') (ho : Owns v r) (hp : p < 141) (hx : r p = x) (hz : x ≠ 0) :
    Changes (blockBitmapArea part) v.disk v'.disk ∧
    Rewrites True True v r v' (Function.update r p 0) := by
  rw [releaseOne, assert_bind] at h
  exact releaseBlock_some h.2 ho hp hx hz

theorem releaseLoop_some {r ab : ℕ → ℕ} (hab : ∀ k < 140, ab k = r k) :
    ∀ (left idx : ℕ) {v v' : Volume part}, left + idx ≤ 140 →
    releaseLoop ab left idx v = some v' → Owns v (emptied r idx) →
    Changes (blockBitmapArea part) v.disk v'.disk ∧
    Rewrites True True v (emptied r idx) v' (emptied r (left + idx)) := by
  intro left
  induction left with
  | zero =>
    intro idx v v' _ h ho
    obtain rfl := Option.some.inj h
    rw [Nat.zero_add]
    exact ⟨Changes.refl _ _, Rewrites.refl ho⟩
  | succ left ih =>
    intro idx v v' hlen h ho
    unfold releaseLoop at h
    rw [hab idx (by omega)] at h
    have hidx : emptied r idx idx = r idx := if_neg (by omega)
    have hnext : emptied r (idx + 1) = Function.update (emptied r idx) idx 0 := by
      funext p
      by_cases hp : p = idx
      · subst p
        rw [Function.update_self, emptied, if_pos (Or.inl (by omega))]
      · rw [Function.update_of_ne hp, emptied, emptied]
        congr 1
        rw [eq_iff_iff]
        omega
    rw [show left + 1 + idx = left + (idx + 1) by omega]
    split at h
    · rename_i hz
      rw [bind_some_iff] at h
      obtain ⟨v1, h1, h⟩ := h
      obtain ⟨hc, hr⟩ := releaseOne_some h1 ho (show idx < 141 by omega) hidx hz
      rw [← hnext] at hr
      obtain ⟨hc', hr'⟩ := ih (idx + 1) (by omega) h hr.owns
      exact ⟨hc.trans hc', (hr.trans hr').weaken (fun _ => ⟨trivial, trivial⟩)
        fun _ => ⟨trivial, trivial⟩⟩
    · rename_i hz
      have hsame : emptied r (idx + 1) = emptied r idx := by
        rw [hnext, Function.update_eq_self_iff, hidx]
        exact (not_not.mp hz).symm
      rw [← hsame] at ho ⊢
      exact ih (idx + 1) (by omega) h ho

/-- All blocks of the inode are given back, and nothing but the bitmap is written. -/
theorem releaseBlocks_some {v v' : Volume part} {ino : Inode} (h : releaseBlocks ino v = some v')
    (ho : Owns v (ref v.disk ino)) :
    Changes (blockBitmapArea part) v.disk v'.disk ∧
    Rewrites True True v (ref v.disk ino) v' (fun _ => 0) := by
  rw [releaseBlocks, bind_some_iff] at h
  obtain ⟨ab, hab, h⟩ := h
  have hab' : ∀ k < 140, ab k = ref v.disk ino k := fun k hk => by
    rw [loadAllBlocks_some hab hk, ref_of_lt hk]
  split at h
  · rename_i ht
    rw [bind_some_iff] at h
    obtain ⟨v1, h1, h⟩ := h
    obtain ⟨hc, hr⟩ := releaseOne_some h1 ho (show 140 < 141 by omega) (ref_table _ _) ht
    have hr1 : Rewrites True True v (ref v.disk ino) v1 (emptied (ref v.disk ino) 0) := by
      refine hr.congr (fun _ _ => rfl) fun p hp => ?_
      by_cases hp' : p = 140
      · subst p
        rw [Function.update_self, emptied, if_pos (Or.inr rfl)]
      · rw [Function.update_of_ne hp', emptied, if_neg (by omega)]
    obtain ⟨hc', hr'⟩ := releaseLoop_some hab' 140 0 (by omega) h hr1.owns
    refine ⟨hc.trans hc', ((hr1.trans hr').weaken (fun _ => ⟨trivial, trivial⟩)
      fun _ => ⟨trivial, trivial⟩).congr (fun _ _ => rfl) fun p hp => ?_⟩
    rw [emptied, if_pos (by omega)]
  · rename_i ht
    have ht : ino.iSectors 12 = 0 := not_not.mp ht
    have hemp : ∀ p < 141, emptied (ref v.disk ino) 0 p = ref v.disk ino p := by
      intro p hp
      by_cases hp' : p = 140
      · subst p
        rw [emptied, if_pos (Or.inr rfl), ref_table, ht]
      · rw [emptied, if_neg (by omega)]
    obtain ⟨hc', hr'⟩ := releaseLoop_some hab' 12 0 (by omega) h (ho.congr hemp)
    refine ⟨hc', hr'.congr (fun p hp => (hemp p hp).symm) fun p hp => ?_⟩
    by_cases h12 : p < 12 ∨ p = 140
    · rw [emptied, if_pos (by omega)]
    · rw [emptied, if_neg (by omega), ref_indirect (by omega) (by omega), if_pos ht]

/-- The bytes a release writes. -/
def ReleaseArea (part : Partition) (n : ℕ) : Set ℕ :=
  {a | a ∈ blockBitmapArea part ∨ a ∈ inodeBitmapArea part ∨ a ∈ slot part n}

/-- What releasing inode `n` does. -/
structure Released (n : ℕ) (v : Volume part) (ino : Inode) (v' : Volume part) : Prop where
  number : ino.iNo = n
  lt : n < 4096
  blocks : ∃ v1, Rewrites True True v (ref v.disk ino) v1 (fun _ => 0) ∧
    v'.blockBitmap = v1.blockBitmap ∧
    ∀ a ∈ blockBitmapArea part, v'.disk a = v1.disk a
  inodes : v'.inodeBitmap = bitmapSet v.inodeBitmap n false
  frame : Changes (ReleaseArea part n) v.disk v'.disk
  synced : InodeSynced v'
  cleared : ∀ a ∈ slot part n, v'.disk a = 0

theorem inodeRelease_some {m : Bool} {n : ℕ} {v v' : Volume part} {ino : Inode}
    (h : inodeRelease m ino n v = some v') (ho : Owns v (ref v.disk ino)) :
    Released n v ino v' := by
  have hb := part.bounds
  simp only [inodeRelease, bind_some_iff, assert_eq_some, Option.pure_def, Option.some.injEq] at h
  obtain ⟨-, hno, v1, hrel, v2, hsync, -, -, d, hdel, rfl⟩ := h
  obtain ⟨hc, hr⟩ := releaseBlocks_some hrel ho
  have hn : n < 4096 := by
    by_contra hge
    simp only [inodeDelete, assert, if_neg hge] at hdel
    cases hdel
  rw [inodeDelete_eq part _ hn] at hdel
  obtain rfl := Option.some.inj hdel
  obtain rfl := bitmapSync_inode_some hsync
  rw [show n / 4096 = 0 by omega]
  simp only [Nat.add_zero, Nat.zero_mul, withDisk_disk, setInodeBit_disk, setInodeBit_inode]
  refine ⟨hno, hn, ⟨v1, hr, rfl, fun a ha => ?_⟩, ?_, fun a ha => ?_, fun k hk => ?_, fun a ha => ?_⟩
  · simp only [blockBitmapArea, mem_span, slotAddr] at *
    rw [withDisk_disk, patch_out (by omega), patch_out (by omega)]
  · simp only [withDisk_inode, setInodeBit_inode, hr.inodes]
  · simp only [ReleaseArea, Set.mem_ofPred_eq, not_or] at ha
    rw [withDisk_disk, patch_out ha.2.2, patch_out ha.2.1]
    exact hc a ha.1
  · rw [withDisk_disk, patch_out (by simp only [slotAddr]; omega), patch_in (by omega),
      Nat.add_sub_cancel_left]
    simp only [window, Nat.zero_add]
    rfl
  · rw [withDisk_disk, patch_in ha]
    rfl

end FsInodeRelease
