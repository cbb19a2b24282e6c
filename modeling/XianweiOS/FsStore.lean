import XianweiOS.FsFileAppend
import XianweiOS.FsInodeRelease

/-! All inodes of a volume at once. An inode lives in memory while it is open and in its
record of the inode table otherwise; `Owned` says that the blocks of the allocated inodes
are in use and no two places refer to one block, `NoLeak` that no other block is in use. -/
namespace FsStore

open ByteStore HaltingProgram KernelBitmap DeviceIde FsVolume FsInodeTable FsBlockMap FsOwnership
  FsDirectory FsDirectorySlots FsDirectoryDelete FsInodeRelease

variable {part : Partition}

structure Store (part : Partition) where
  vol : Volume part
  mem : ℕ → Option Inode

/-- Inode `n` as the kernel sees it. -/
def Store.node (s : Store part) (n : ℕ) : Inode := (s.mem n).getD (diskInode part s.vol.disk n)

def Store.refs (s : Store part) (n : ℕ) : ℕ → ℕ := ref s.vol.disk (s.node n)

def Store.Allocated (s : Store part) (n : ℕ) : Prop := n < 4096 ∧ s.vol.inodeBit n = true

structure Owned (s : Store part) : Prop where
  number : ∀ n, s.Allocated n → (s.node n).iNo = n
  held : ∀ n, s.Allocated n → ∀ p < 141, s.refs n p ≠ 0 → InUse s.vol (s.refs n p)
  unique : ∀ n n', s.Allocated n → s.Allocated n' → ∀ p < 141, ∀ p' < 141, s.refs n p ≠ 0 →
    s.refs n p = s.refs n' p' → n = n' ∧ p = p'

/-- Every block of the partition that is in use belongs to an inode. -/
def NoLeak (s : Store part) : Prop :=
  ∀ x < part.startLba + part.secCnt, InUse s.vol x → ∃ n, s.Allocated n ∧ ∃ p < 141, s.refs n p = x

theorem Owned.owns {s : Store part} (h : Owned s) {n : ℕ} (hn : s.Allocated n) :
    Owns s.vol (s.refs n) :=
  ⟨fun p hp q hq hz he => (h.unique n n hn hn p hp q hq hz he).2, h.held n hn⟩

theorem Owned.apart {s : Store part} (h : Owned s) {n m : ℕ} (hn : s.Allocated n)
    (hm : s.Allocated m) (hne : m ≠ n) : Apart (s.refs m) (s.refs n) := by
  intro p hp q hq he
  by_contra hz
  exact hne (h.unique m n hm hn p hp q hq hz he).1

/-- Ownership depends on numbers and block maps alone. -/
theorem Owned.congr {s s' : Store part} (h : Owned s) (hall : ∀ n, s'.Allocated n → s.Allocated n)
    (hno : ∀ n, s.Allocated n → (s'.node n).iNo = (s.node n).iNo)
    (hrefs : ∀ n, s.Allocated n → ∀ p < 141, s'.refs n p = s.refs n p)
    (huse : ∀ x, InUse s.vol x → InUse s'.vol x) : Owned s' := by
  refine ⟨fun n hn => ?_, fun n hn p hp hz => ?_, fun n n' hn hn' p hp p' hp' hz he => ?_⟩
  · rw [hno n (hall n hn), h.number n (hall n hn)]
  · rw [hrefs n (hall n hn) p hp] at hz ⊢
    exact huse _ (h.held n (hall n hn) p hp hz)
  · rw [hrefs n (hall n hn) p hp] at hz he
    rw [hrefs n' (hall n' hn') p' hp'] at he
    exact h.unique n n' (hall n hn) (hall n' hn') p hp p' hp' hz he

/-- A step on the one inode `n`. -/
structure StepOn (n : ℕ) (T S : Prop) (s s' : Store part) : Prop where
  owned : Owned s'
  bits : s'.vol.inodeBitmap = s.vol.inodeBitmap
  noLeak : T → NoLeak s → NoLeak s'
  blockSynced : S → BlockSynced s.vol → BlockSynced s'.vol
  inodeSynced : InodeSynced s.vol → InodeSynced s'.vol
  node : ∀ m ≠ n, s.Allocated m → s'.node m = s.node m
  refs : ∀ m ≠ n, s.Allocated m → ∀ p < 141, s'.refs m p = s.refs m p
  quiet : ∀ m ≠ n, s.Allocated m → ∀ p < 141, s.refs m p ≠ 0 →
    ∀ a ∈ sector (s.refs m p), s'.vol.disk a = s.vol.disk a
  records : ∀ m < 4096, m ≠ n → diskInode part s'.vol.disk m = diskInode part s.vol.disk m

theorem allocated_congr {s s' : Store part} (h : s'.vol.inodeBitmap = s.vol.inodeBitmap) (n : ℕ) :
    s'.Allocated n ↔ s.Allocated n := by
  simp only [Store.Allocated, Volume.inodeBit, h]

/-- The inode table and the inode bitmap lie outside what a step on blocks touches. -/
theorem touched_outside {v : Volume part} {r : ℕ → ℕ} (ho : Owns v r) {a : ℕ}
    (ha : a ∈ Touched v r) : a < 512 * part.sb.inodeBitmapLba ∨ 512 * part.sb.dataStartLba ≤ a := by
  have hb := part.bounds
  rcases ha with hbm | hw
  · simp only [blockBitmapArea, mem_span] at hbm
    omega
  · exact Or.inr (writable_data ho hw)

theorem slot_range {n a : ℕ} (hn : n < 4096) (ha : a ∈ slot part n) :
    512 * part.sb.inodeTableLba ≤ a ∧ a < 512 * part.sb.dataStartLba := by
  have hb := part.bounds
  simp only [slot, slotAddr, mem_span] at ha
  omega

/-- The blocks of inode `n` are rewritten, and its record may be. -/
theorem Owned.step {T S : Prop} {s s' : Store part} {n : ℕ} {v' : Volume part} {r' : ℕ → ℕ}
    (h : Owned s) (hn : s.Allocated n) (hr : Rewrites T S s.vol (s.refs n) v' r')
    (hblock : s'.vol.blockBitmap = v'.blockBitmap) (hinode : s'.vol.inodeBitmap = v'.inodeBitmap)
    (hdisk : Changes (slot part n) v'.disk s'.vol.disk) (hmem : ∀ m ≠ n, s'.mem m = s.mem m)
    (hrefs : ∀ p < 141, s'.refs n p = r' p) (hno : (s'.node n).iNo = n) : StepOn n T S s s' := by
  have hb := part.bounds
  have ho := h.owns hn
  have hbits : s'.vol.inodeBitmap = s.vol.inodeBitmap := hinode.trans hr.inodes
  have hall := allocated_congr hbits
  have huse : ∀ x, InUse s'.vol x ↔ InUse v' x := by
    intro x
    simp only [InUse, Block, Volume.blockBit, hblock]
  -- outside the touched bytes and the record of `n` the disk is what it was
  have hd : ∀ a, a ∉ Touched s.vol (s.refs n) → a ∉ slot part n → s'.vol.disk a = s.vol.disk a :=
    fun a h1 h2 => (hdisk a h2).trans (hr.frame a h1)
  have hrec : ∀ m < 4096, m ≠ n → diskInode part s'.vol.disk m = diskInode part s.vol.disk m := by
    intro m hm hne
    refine diskInode_changes (S := {a | a ∈ Touched s.vol (s.refs n) ∨ a ∈ slot part n})
      (fun a ha => hd a (fun h1 => ha (Or.inl h1)) (fun h2 => ha (Or.inr h2))) ?_
    rintro a ha (h1 | h2)
    · have := touched_outside ho h1
      have := slot_range hm ha
      omega
    · exact slot_disjoint part hne ha h2
  have hquiet : ∀ m ≠ n, s.Allocated m → ∀ p < 141, s.refs m p ≠ 0 →
      ∀ a ∈ sector (s.refs m p), s'.vol.disk a = s.vol.disk a := by
    intro m hne hm p hp hz a ha
    rw [hdisk a (not_mem_slot (sector_inUse (h.held m hm p hp hz) ha) hn.1)]
    exact rewrites_quiet hr (h.owns hm) (h.apart hn hm hne) hp hz a ha
  have hnode : ∀ m ≠ n, s.Allocated m → s'.node m = s.node m := by
    intro m hne hm
    rw [Store.node, Store.node, hmem m hne, hrec m hm.1 hne]
  have href : ∀ m ≠ n, s.Allocated m → ∀ p < 141, s'.refs m p = s.refs m p := by
    intro m hne hm p hp
    rw [Store.refs, Store.refs, hnode m hne hm]
    refine ref_congr (fun _ _ => rfl) (fun hz a ha => ?_) hp
    rw [← ref_table s.vol.disk] at hz ha
    exact hquiet m hne hm 140 (by omega) hz a ha
  -- a new block of `n` was free, so it belongs to nobody else
  have hown : ∀ m ≠ n, s.Allocated m → ∀ p < 141, ∀ q < 141, s.refs m p ≠ 0 →
      s.refs m p ≠ r' q := by
    intro m hne hm p hp q hq hz he
    rcases hr.source q hq (by rw [← he]; exact hz) with ⟨q', hq', heq⟩ | hf
    · exact hz (h.apart hn hm hne p hp q' hq' (he.trans heq.symm))
    · exact hf.not_inUse (he ▸ h.held m hm p hp hz)
  refine ⟨⟨?_, ?_, ?_⟩, hbits, ?_, ?_, ?_, hnode, href, hquiet, hrec⟩
  · intro m hm
    rw [hall] at hm
    by_cases hne : m = n
    · rw [hne, hno]
    · rw [hnode m hne hm, h.number m hm]
  · intro m hm p hp hz
    rw [hall] at hm
    rw [huse]
    by_cases hne : m = n
    · subst m
      rw [hrefs p hp] at hz ⊢
      exact hr.owns.held p hp hz
    · rw [href m hne hm p hp] at hz ⊢
      refine hr.keep _ (h.held m hm p hp hz) fun q hq he => ?_
      exact hz (h.apart hn hm hne p hp q hq he.symm)
  · intro m m' hm hm' p hp p' hp' hz he
    rw [hall] at hm hm'
    by_cases hne : m = n
    · subst m
      by_cases hne' : m' = n
      · subst m'
        rw [hrefs p hp] at hz he
        rw [hrefs p' hp'] at he
        exact ⟨rfl, hr.owns.distinct p hp p' hp' hz he⟩
      · rw [hrefs p hp, href m' hne' hm' p' hp'] at he
        rw [hrefs p hp] at hz
        exact absurd he.symm (hown m' hne' hm' p' hp' p hp (by rw [← he]; exact hz))
    · rw [href m hne hm p hp] at hz he
      by_cases hne' : m' = n
      · subst m'
        rw [hrefs p' hp'] at he
        exact absurd he (hown m hne hm p hp p' hp' hz)
      · rw [href m' hne' hm' p' hp'] at he
        exact h.unique m m' hm hm' p hp p' hp' hz he
  · intro ht hl x hx hu
    rw [huse] at hu
    rcases hr.tight ht x hu with ⟨hold, hnot⟩ | ⟨p, hp, he⟩
    · obtain ⟨m, hm, p, hp, he⟩ := hl x hx hold
      have hne : m ≠ n := by
        rintro rfl
        exact hnot p hp he
      exact ⟨m, (hall m).mpr hm, p, hp, (href m hne hm p hp).trans he⟩
    · exact ⟨n, (hall n).mpr hn, p, hp, (hrefs p hp).trans he⟩
  · intro hs hbs k hk
    have hsync := hr.synced hs hbs k hk
    rw [hblock, ← hsync]
    refine hdisk _ fun hin => ?_
    have := slot_range hn.1 hin
    omega
  · intro his k hk
    rw [hbits, ← his k hk]
    refine hd _ (fun hin => ?_) (fun hin => ?_)
    · have := touched_outside ho hin
      omega
    · have := slot_range hn.1 hin
      omega

/-- Inode `n` is released. -/
structure FreeOf (n : ℕ) (s s' : Store part) : Prop where
  owned : Owned s'
  allocated : ∀ m, s'.Allocated m ↔ s.Allocated m ∧ m ≠ n
  noLeak : NoLeak s → NoLeak s'
  blockSynced : BlockSynced s.vol → BlockSynced s'.vol
  node : ∀ m ≠ n, s.Allocated m → s'.node m = s.node m
  refs : ∀ m ≠ n, s.Allocated m → ∀ p < 141, s'.refs m p = s.refs m p
  quiet : ∀ m ≠ n, s.Allocated m → ∀ p < 141, s.refs m p ≠ 0 →
    ∀ a ∈ sector (s.refs m p), s'.vol.disk a = s.vol.disk a
  records : ∀ m < 4096, m ≠ n → diskInode part s'.vol.disk m = diskInode part s.vol.disk m

theorem releaseArea_below {n a : ℕ} (hn : n < 4096) (ha : a ∈ ReleaseArea part n) :
    a < 512 * part.sb.dataStartLba := by
  have hb := part.bounds
  rcases ha with h | h | h
  · simp only [blockBitmapArea, mem_span] at h
    omega
  · simp only [inodeBitmapArea, mem_span] at h
    omega
  · exact slot_below hn a h

/-- The records of the other inodes stay. -/
theorem released_record {n m : ℕ} {v v' : Volume part} {i : Inode} (hr : Released n v i v')
    (hm : m < 4096) (hne : m ≠ n) : diskInode part v'.disk m = diskInode part v.disk m := by
  have hb := part.bounds
  refine diskInode_changes hr.frame fun a ha hin => ?_
  have hrange := slot_range hm ha
  rcases hin with h1 | h1 | h1
  · simp only [blockBitmapArea, mem_span] at h1
    omega
  · simp only [inodeBitmapArea, mem_span] at h1
    omega
  · exact slot_disjoint part hne ha h1

theorem Owned.release {s s' : Store part} {n : ℕ} (h : Owned s) (hn : s.Allocated n)
    (hr : Released n s.vol (s.node n) s'.vol) (hmem : ∀ m ≠ n, s'.mem m = s.mem m) :
    FreeOf n s s' := by
  have hb := part.bounds
  obtain ⟨v1, hrew, hblock, hbm⟩ := hr.blocks
  have huse : ∀ x, InUse s'.vol x ↔ InUse v1 x := by
    intro x
    simp only [InUse, Block, Volume.blockBit, hblock]
  have hall : ∀ m, s'.Allocated m ↔ s.Allocated m ∧ m ≠ n := by
    intro m
    simp only [Store.Allocated, Volume.inodeBit, hr.inodes, bitmapScanTest_set]
    by_cases hm : m = n
    · simp [hm]
    · simp [hm]
  have hrec : ∀ m < 4096, m ≠ n → diskInode part s'.vol.disk m = diskInode part s.vol.disk m :=
    fun m hm hne => released_record hr hm hne
  have hquiet : ∀ m ≠ n, s.Allocated m → ∀ p < 141, s.refs m p ≠ 0 →
      ∀ a ∈ sector (s.refs m p), s'.vol.disk a = s.vol.disk a := by
    intro m _ hm p hp hz a ha
    refine hr.frame a fun hin => ?_
    have := sector_inUse (h.held m hm p hp hz) ha
    have := releaseArea_below hn.1 hin
    omega
  have hnode : ∀ m ≠ n, s.Allocated m → s'.node m = s.node m := by
    intro m hne hm
    rw [Store.node, Store.node, hmem m hne, hrec m hm.1 hne]
  have href : ∀ m ≠ n, s.Allocated m → ∀ p < 141, s'.refs m p = s.refs m p := by
    intro m hne hm p hp
    rw [Store.refs, Store.refs, hnode m hne hm]
    refine ref_congr (fun _ _ => rfl) (fun hz a ha => ?_) hp
    rw [← ref_table s.vol.disk] at hz ha
    exact hquiet m hne hm 140 (by omega) hz a ha
  refine ⟨⟨?_, ?_, ?_⟩, hall, ?_, ?_, hnode, href, hquiet, hrec⟩
  · intro m hm
    obtain ⟨hm, hne⟩ := (hall m).mp hm
    rw [hnode m hne hm, h.number m hm]
  · intro m hm p hp hz
    obtain ⟨hm, hne⟩ := (hall m).mp hm
    rw [href m hne hm p hp] at hz ⊢
    rw [huse]
    refine hrew.keep _ (h.held m hm p hp hz) fun q hq he => ?_
    exact hz (h.apart hn hm hne p hp q hq he.symm)
  · intro m m' hm hm' p hp p' hp' hz he
    obtain ⟨hm, hne⟩ := (hall m).mp hm
    obtain ⟨hm', hne'⟩ := (hall m').mp hm'
    rw [href m hne hm p hp] at hz he
    rw [href m' hne' hm' p' hp'] at he
    exact h.unique m m' hm hm' p hp p' hp' hz he
  · intro hl x hx hu
    rw [huse] at hu
    rcases hrew.tight trivial x hu with ⟨hold, hnot⟩ | ⟨p, -, he⟩
    · obtain ⟨m, hm, p, hp, he⟩ := hl x hx hold
      have hne : m ≠ n := by
        rintro rfl
        exact hnot p hp he
      exact ⟨m, (hall m).mpr ⟨hm, hne⟩, p, hp, (href m hne hm p hp).trans he⟩
    · have := hu.data
      omega
  · intro hbs k hk
    rw [hblock, ← hrew.synced trivial hbs k hk]
    exact hbm _ ⟨by omega, by omega⟩

end FsStore
