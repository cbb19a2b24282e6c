import XianweiOS.FsNamespaceRuns

/-! The bitmaps over runs of the calls: every block of an inode is marked in use and belongs to nothing
else, and the disk has the bits that the memory has. -/
namespace FsAllocationRuns

open ByteStore HaltingProgram KernelBitmap DeviceIde FsVolume FsInodeTable FsBlockMap FsOwnership
  FsFreeBlocks FsFileWrite FsFileAppend FsStore FsFormat FsPath FsOpenFiles FsSyscalls
  FsReferenceCounts FsReferenceRuns FsConsistentTree FsTree FsTreeRemove FsImage FsIntact
  FsNamespace FsShown FsFileCalls LabelledRuns FsFileRuns FsNamespaceRuns

variable {part : Partition} {S : Prop} {s s' : Kernel part} {σ : State} {v : Volume part}
  {t : FileTree} {l : List Request} {fuel len : ℕ} {pad disk : Bytes} {memory : ℕ → Bool}

section Blocks

/-- The blocks of the allocated inodes are marked, and each of them is referred to once. The open
inodes refer to the same ones, and no other block is handed out for one of them. -/
structure BlocksKept (s : Kernel part) : Prop where
  marked : ∀ n, (diskStore s.vol).Allocated n → ∀ p < 141, diskRefs s.vol n p ≠ 0 →
    InUse s.vol (diskRefs s.vol n p)
  once : ∀ n n', (diskStore s.vol).Allocated n → (diskStore s.vol).Allocated n' → ∀ p < 141,
    ∀ p' < 141, diskRefs s.vol n p ≠ 0 → diskRefs s.vol n p = diskRefs s.vol n' p' → n = n' ∧ p = p'
  opened : ∀ a ∈ s.openInodes, ∀ i, s.inodes a = some i →
    (diskStore s.vol).Allocated i.iNo ∧ ref s.vol.disk i = diskRefs s.vol i.iNo
  fresh : ∀ x v, blockBitmapAlloc s.vol = some (some x, v) →
    ∀ n, (diskStore s.vol).Allocated n → ∀ p < 141, diskRefs s.vol n p ≠ x

/-- A block that is handed out was free. -/
theorem blockBitmapAlloc_free {v v' : Volume part} {x : ℕ}
    (h : blockBitmapAlloc v = some (some x, v')) : Free v x := by
  obtain ⟨i, hi, -, hlt, hclear, -⟩ := blockBitmapAlloc_some h
  exact ⟨i, Option.some.inj hi, hlt, hclear⟩

theorem running_blocks (h : Running S s σ) : BlocksKept s := by
  obtain ⟨t, x, hi, -⟩ := h
  have howned := hi.image.consistent.owned
  refine ⟨howned.held, howned.unique, fun a ha i hi' => ?_, fun x v hal n hn p hp he => ?_⟩
  · obtain ⟨hobject, hsame⟩ := hi.cached a ha i hi'
    exact ⟨hi.image.allocated.mpr hobject, ref_same hsame _⟩
  · have hfree := blockBitmapAlloc_free hal
    have hz : diskRefs s.vol n p ≠ 0 := he ▸ hfree.data.2.ne'
    exact hfree.not_inUse (he ▸ howned.held n hn p hp hz)

/-- From a new file system on blocks are kept in every run, unless the partition is so small that not
even the root directory's block is marked. -/
theorem blocks_kept_iff (hs : bootNew part fuel pad len disk memory = some s) :
    (∀ l s', AllMeet (next exec) (Admits False) l s → runAll (next exec) l s = some s' →
      BlocksKept s') ↔ 8 ≤ dataBlocks part := by
  constructor
  · intro h
    obtain ⟨disk', v, -, hb, hv⟩ := bootNew_some hs
    obtain rfl := (openRootDir_some hb).vol
    have hroot : (diskStore s.vol).Allocated 0 := by
      refine ⟨by omega, ?_⟩
      exact (hv.inodeBit 0 (by omega)).trans rfl
    have href := formatted_refs hv (show 0 < 141 by omega)
    have hpos := part.bounds
    obtain ⟨i, hi, hlt, hbit⟩ := (h [] s trivial rfl).marked 0 hroot 0 (by omega) (by
      rw [href, if_pos rfl]
      omega)
    rw [href, if_pos rfl] at hi
    obtain rfl : i = 0 := by omega
    rw [s.vol.block_len] at hlt
    have hset := (hv.blockBit 0 (by omega)).symm.trans hbit
    rcases of_decide_eq_true hset with ⟨-, h8⟩ | hnone
    · exact h8
    · simp only [dataBlocks] at hnone
      omega
  · intro h8 l s' hok hrun
    obtain ⟨σ', hr⟩ := run_running ⟨newFiles, new_running h8 hs⟩ hok hrun
    exact running_blocks hr

theorem blocks_kept_iff_removed : ∃ s s' calls,
    bootNew smallPartition 3 zeroes 0 zeroes (fun _ => true) = some s ∧
    runLabels exec removedRun s = some (calls, s') ∧
    calls.map (fun b => Reply.value b.2) =
      [some 3, some 5, some 0, some 5, some 0, none, some 0] ∧ BlocksKept s' := by
  have heval : ((bootNew smallPartition 3 zeroes 0 zeroes fun _ => true).bind fun s =>
      (runLabels exec removedRun s).map fun r => r.1.map fun b => Reply.value b.2) =
      some [some 3, some 5, some 0, some 5, some 0, none, some 0] := by
    decide +kernel
  obtain ⟨s, hs, heval⟩ := Option.bind_eq_some_iff.mp heval
  obtain ⟨⟨calls, s'⟩, hrun, hcalls⟩ := Option.map_eq_some_iff.mp heval
  have hkept := (blocks_kept_iff hs).mpr (by decide) removedRun s' (removedRun_admitted hs)
    (runAll_of_labels hrun)
  exact ⟨s, s', calls, hs, hrun, hcalls, hkept⟩

/-- A partition of 616 sectors, four of them for data. -/
def tinyPartition : Partition where
  startLba := 1
  secCnt := 616
  sb := ⟨0x20060127, 616, 4096, 1, 3, 1, 4, 1, 5, 608, 613, 0, 24⟩
  layout := by constructor <;> decide

/-- The file `/f` gets the root directory's block. -/
theorem root_block_shared : ∃ s s' calls,
    bootNew tinyPartition 3 zeroes 0 zeroes (fun _ => true) = some s ∧
    runLabels exec ([.open filePath 6, .write 3 (fun _ => 0x78) 1].map plainRequest) s =
      some (calls, s') ∧
    calls.map (fun b => Reply.value b.2) = [some 3, some 1] ∧
    diskRefs s'.vol 0 0 = 613 ∧ diskRefs s'.vol 1 0 = 613 ∧ ¬BlocksKept s' := by
  have heval : ((bootNew tinyPartition 3 zeroes 0 zeroes fun _ => true).bind fun s =>
      (runLabels exec ([.open filePath 6, .write 3 (fun _ => 0x78) 1].map plainRequest) s).map
        fun r => (r.1.map (fun b => Reply.value b.2), r.2.vol.inodeBit 0, r.2.vol.inodeBit 1,
          diskRefs r.2.vol 0 0, diskRefs r.2.vol 1 0)) =
      some ([some 3, some 1], true, true, 613, 613) := by
    decide +kernel
  obtain ⟨s, hs, heval⟩ := Option.bind_eq_some_iff.mp heval
  obtain ⟨⟨calls, s'⟩, hrun, he⟩ := Option.map_eq_some_iff.mp heval
  obtain ⟨hcalls, he⟩ := Prod.mk.inj he
  obtain ⟨hbit₀, he⟩ := Prod.mk.inj he
  obtain ⟨hbit₁, he⟩ := Prod.mk.inj he
  obtain ⟨hroot, hfile⟩ := Prod.mk.inj he
  refine ⟨s, s', calls, hs, hrun, hcalls, hroot, hfile, fun h => ?_⟩
  have honce := h.once 0 1 ⟨by omega, hbit₀⟩ ⟨by omega, hbit₁⟩ 0 (by omega) 0 (by omega)
    (by rw [hroot]; omega) (hroot.trans hfile.symm)
  exact absurd honce.1 (by omega)

end Blocks

section Bitmaps

/-- A partition of 6000 sectors. Its block bitmap has two. -/
def widePartition : Partition where
  startLba := 1
  secCnt := 6000
  sb := ⟨0x20060127, 6000, 4096, 1, 3, 2, 5, 1, 6, 608, 614, 0, 24⟩
  layout := by constructor <;> decide

end Bitmaps

end FsAllocationRuns
