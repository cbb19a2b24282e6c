import XianweiOS.MemoryExhaustion
import XianweiOS.FsProcesses
import XianweiOS.ThreadScheduler

/-! A fork that returns `-1` (`userprog/fork.c`). One kernel page is never refused, so that the only
failure that returns is the one of the pages for the bitmap of virtual addresses. By then two
kernel pages and a pid are taken, and none is given back. -/
namespace ForkFailure

open ByteStore HaltingProgram KernelBitmap MemoryPages MemoryHeap ProcessMemory ForkRoom
  MemoryExhaustion

/-- `files` has the parent as its current task, `threads` its task as the running one. -/
structure State (part : FsVolume.Partition) where
  kernel : ProcessMemory.Kernel
  files : FsOpenFiles.Kernel part
  threads : ThreadScheduler.State

variable {part : FsVolume.Partition}

/-- `none` beside the state is the return value `-1`. -/
def sysFork (mc : Machine) (s : State part) (parent : ℕ) : Option (State part × Option ℕ) := do
  assert (∃ r ∈ s.kernel.proc parent, r.hanging = false)
  match ← forkPages mc s.kernel with
  | (k, none) => return ({ s with kernel := k }, none)
  | (k, some q) =>
    let h ← copyProcess mc k.heap parent q.pid q.buf
    let files ← FsProcesses.updateInodeOpenCnts (FsOpenFiles.maxFilesOpenPerProc - 3) 3 s.files
    let threads ← (ThreadScheduler.sysFork q.pcb q.pid s.threads).toOption
    return (⟨(k.setHeap h).setProc q.pid (some ⟨q.pcb, q.pgdir, q.bitmap, parent, false⟩), files,
      threads⟩, some q.pid)

/-- The pools, the kernel's addresses, the pids, the reference counts and the lists of threads. -/
structure AsBefore (s s' : State part) : Prop where
  pool : s'.kernel.heap.memory.pool = s.kernel.heap.memory.pool
  vaddr : (s'.kernel.heap.memory.space none).vaddr = (s.kernel.heap.memory.space none).vaddr
  pids : s'.kernel.pidBits = s.kernel.pidBits
  inodes : s'.files.inodes = s.files.inodes
  fileTable : s'.files.fileTable = s.files.fileTable
  ready : s'.threads.threadReadyList = s.threads.threadReadyList
  all : s'.threads.threadAllList = s.threads.threadAllList

def FailsClean (mc : Machine) (s : State part) (parent : ℕ) : Prop :=
  ∀ s', sysFork mc s parent = some (s', none) → AsBefore s s'

/-- The first free address of the kernel and the one after it can be mapped and a pid is left, but
then there is no run of addresses for the child's bitmap. -/
structure Starved (mc : Machine) (k : ProcessMemory.Kernel) (i j : ℕ) : Prop where
  first : bitmapScan (vaddrBitmap mc k.heap.memory none) 1 = some (some i)
  second : bitmapScan (bitmapSet (vaddrBitmap mc k.heap.memory none) i true) 1 = some (some j)
  unmapped : ∀ n ∈ [i, j], k.heap.memory.frameAt none (vaddrStart none + n) = none
  frames : 2 ≤ freeFrames mc k.heap.memory .kernel
  pid : ∃ n < 1024, bitmapScanTest (pidBitmap k.pidBits) n = false
  noRun : bitmapScan (bitmapSet (bitmapSet (vaddrBitmap mc k.heap.memory none) i true) j true)
    bitmapPgCnt = some none

section Failure

variable {mc : Machine} {k k' : ProcessMemory.Kernel} {h h' h₁ h₂ : Heap} {a : ℕ}

/-- What a kernel page takes. -/
structure TookPage (mc : Machine) (h h' : Heap) (i : ℕ) : Prop where
  scan : bitmapScan (vaddrBitmap mc h.memory none) 1 = some (some i)
  vaddr : vaddrBitmap mc h'.memory none = bitmapSet (vaddrBitmap mc h.memory none) i true
  frames : freeFrames mc h'.memory .kernel + 1 = freeFrames mc h.memory .kernel
  unmapped : h.memory.frameAt none (vaddrStart none + i) = none
  others : ∀ w, w ≠ vaddrStart none + i → h'.memory.frameAt none w = h.memory.frameAt none w

theorem getKernelPages_took (hg : getKernelPages mc h 1 = some (h', some a)) :
    ∃ i, a = vaddrStart none + i ∧ TookPage mc h h' i := by
  have hgain := getKernelPages_memory hg
  obtain ⟨m, hm, rfl⟩ := getKernelPages_gained hg
  obtain ⟨-, ⟨hr, -⟩ | ⟨v, m₁, hr, hv, hmap⟩⟩ := mallocPage_cases hm
  · cases hr
  obtain rfl := Option.some.inj hr
  rw [vaddrGet, bind_some_iff] at hv
  obtain ⟨s, hs, hv⟩ := hv
  obtain ⟨i, rfl, -⟩ := bitmapScan_one hs
  simp only [assert_bind, Option.pure_def, Option.some.injEq, Prod.mk.injEq] at hv
  obtain ⟨-, rfl, rfl⟩ := hv
  refine ⟨i, rfl, hs, ?_, ?_, ?_, ?_⟩
  · have hbits := mapPages_vaddr hmap none
    rw [setVaddr_vaddr, if_pos rfl] at hbits
    change (⟨_, (m.space none).vaddr⟩ : Bitmap) = _
    rw [hbits]
    rfl
  · obtain ⟨m₁, m₂, f, hp, ha, hrest⟩ := mapPages_succ hmap
    obtain ⟨rfl, -⟩ := Prod.mk.inj (Option.some.inj hrest)
    have hstart : 0xc0100 ≤ vaddrStart none + i := Nat.le_add_right _ _
    have htaken := (palloc_freeFrames hp).1
    have hadded := (pageTableAdd_freeFrames (.inr ⟨rfl, hstart⟩) ha).2
    rw [tablePresent_kernel hstart, if_neg Bool.noConfusion, Nat.add_zero] at hadded
    change freeFrames mc m₂ .kernel + 1 = freeFrames mc h.memory .kernel
    rw [← hadded]
    exact htaken
  · exact hgain.unmapped _ (by simp)
  · intro w hw
    refine hgain.others none w fun hin => hw ?_
    have := hin.2
    rw [mem_span] at this
    omega

/-- One kernel page can be had if and only if the first free address can be mapped. -/
theorem getKernelPages_exists {i : ℕ} (hs : bitmapScan (vaddrBitmap mc h.memory none) 1 = some (some i))
    (hfree : 0 < freeFrames mc h.memory .kernel)
    (hun : h.memory.frameAt none (vaddrStart none + i) = none) :
    ∃ h' a, getKernelPages mc h 1 = some (h', some a) := by
  refine getKernelPages_one_iff.mpr ⟨i, hs, .inl rfl, hfree, fun p hp => ?_, fun w _ => .inl rfl,
    fun w hw => ?_⟩
  · cases hp
  · have : w = vaddrStart none + i := by
      rw [mem_span] at hw
      omega
    exact this ▸ hun

theorem allocatePid_exists {bits : Bytes} {n : ℕ} (hn : n < 1024)
    (hfree : bitmapScanTest (pidBitmap bits) n = false) : ∃ r, allocatePid bits = some r := by
  obtain ⟨r, hr⟩ := bitmapScan_one_exists (b := pidBitmap bits) (by simpa [pidBitmap] using hn) hfree
  obtain ⟨i, rfl, -⟩ := bitmapScan_one hr
  exact ⟨_, by simp only [allocatePid, hr, Option.bind_eq_bind, Option.bind_some]; rfl⟩

/-- What a fork that fails has taken. -/
theorem forkPages_refused (hf : forkPages mc k = some (k', none)) :
    (∃ i j, Starved mc k i j) ∧
      freeFrames mc k'.heap.memory .kernel + 2 = freeFrames mc k.heap.memory .kernel := by
  simp only [forkPages, bind_some_iff] at hf
  obtain ⟨⟨h₁, r₁⟩, hpcb, hf⟩ := hf
  obtain ⟨pcb, rfl⟩ := getKernelPages_one hpcb
  simp only [bind_some_iff] at hf
  obtain ⟨⟨h₂, r₂⟩, hbuf, hf⟩ := hf
  obtain ⟨buf, rfl⟩ := getKernelPages_one hbuf
  simp only [bind_some_iff] at hf
  obtain ⟨⟨bits, pid⟩, hpid, ⟨h₃, r₃⟩, hbm, hf⟩ := hf
  obtain ⟨i, -, t₁⟩ := getKernelPages_took hpcb
  obtain ⟨j, -, t₂⟩ := getKernelPages_took hbuf
  cases r₃ with
  | some bitmap =>
    simp only [bind_some_iff] at hf
    obtain ⟨⟨h₄, r₄⟩, hpd, hf⟩ := hf
    obtain ⟨pgdir, rfl⟩ := getKernelPages_one hpd
    cases (Prod.mk.inj (Option.some.inj hf)).2
  | none =>
    obtain ⟨rfl, -⟩ := Prod.mk.inj (Option.some.inj hf)
    obtain ⟨rfl, hnone⟩ := getKernelPages_refused hbm
    have hframes : freeFrames mc h₃.memory .kernel + 2 = freeFrames mc k.heap.memory .kernel := by
      rw [← t₁.frames, ← t₂.frames]
    refine ⟨⟨i, j, t₁.scan, ?_, ?_, ?_, ?_, ?_⟩, hframes⟩
    · rw [← t₁.vaddr]
      exact t₂.scan
    · intro n hn
      rw [List.mem_cons, List.mem_singleton] at hn
      rcases hn with rfl | rfl
      · exact t₁.unmapped
      · by_cases hij : n = i
        · exact hij ▸ t₁.unmapped
        · rw [← t₁.others _ (by omega)]
          exact t₂.unmapped
    · omega
    · rw [allocatePid, bind_some_iff] at hpid
      obtain ⟨r, hr, -⟩ := hpid
      obtain ⟨n, -, hn, hclear, -⟩ := bitmapScan_one hr
      exact ⟨n, hn, hclear⟩
    · rw [← t₁.vaddr, ← t₂.vaddr]
      exact hnone

/-- Two addresses, two frames and a pid are taken before the run of addresses is looked for. -/
theorem Starved.forkPages {i j : ℕ} (hs : Starved mc k i j) :
    ∃ k', ProcessMemory.forkPages mc k = some (k', none) := by
  have hfr := hs.frames
  obtain ⟨h₁, pcb, hpcb⟩ := getKernelPages_exists hs.first (by omega) (hs.unmapped i (by simp))
  obtain ⟨i', -, t₁⟩ := getKernelPages_took hpcb
  obtain rfl : i' = i := Option.some.inj (Option.some.inj (t₁.scan.symm.trans hs.first))
  have htaken := t₁.frames
  have hne : j ≠ i' := by
    rintro rfl
    obtain ⟨j', hj', -, hclear, -⟩ := bitmapScan_one hs.second
    obtain rfl := Option.some.inj hj'
    rw [bitmapScanTest_set, if_pos rfl] at hclear
    cases hclear
  have hun : h₁.memory.frameAt none (vaddrStart none + j) = none := by
    rw [t₁.others _ (by omega)]
    exact hs.unmapped j (by simp)
  obtain ⟨h₂, buf, hbuf⟩ := getKernelPages_exists (t₁.vaddr.symm ▸ hs.second) (by omega) hun
  obtain ⟨j', -, t₂⟩ := getKernelPages_took hbuf
  obtain rfl : j' = j :=
    Option.some.inj (Option.some.inj (t₂.scan.symm.trans (t₁.vaddr.symm ▸ hs.second)))
  obtain ⟨n, hn, hpid⟩ := hs.pid
  obtain ⟨⟨bits, pid⟩, hpid⟩ := allocatePid_exists hn hpid
  have hnone : bitmapScan (vaddrBitmap mc h₂.memory none) bitmapPgCnt = some none := by
    rw [t₂.vaddr, t₁.vaddr]
    exact hs.noRun
  have hcnt : 0 < bitmapPgCnt ∧ bitmapPgCnt < 3840 := by
    unfold bitmapPgCnt userBtmpLen pgSize
    omega
  have hbm := getKernelPages_none_of_scan hcnt.1 hcnt.2 hnone
  refine ⟨({ k with pidBits := bits }).setHeap h₂, ?_⟩
  rw [ProcessMemory.forkPages]
  exact bind_some_iff.mpr ⟨_, hpcb, bind_some_iff.mpr ⟨_, hbuf, bind_some_iff.mpr ⟨_, hpid,
    bind_some_iff.mpr ⟨_, hbm, rfl⟩⟩⟩⟩

theorem sysFork_refused {part : FsVolume.Partition} {s s' : State part} {parent : ℕ}
    (hf : sysFork mc s parent = some (s', none)) :
    (∃ r ∈ s.kernel.proc parent, r.hanging = false) ∧
      ∃ k', forkPages mc s.kernel = some (k', none) ∧ s' = { s with kernel := k' } := by
  rw [sysFork, assert_bind, bind_some_iff] at hf
  obtain ⟨hrun, ⟨k', q⟩, hp, hf⟩ := hf
  cases q with
  | none => exact ⟨hrun, k', hp, (Prod.mk.inj (Option.some.inj hf)).1.symm⟩
  | some q =>
    simp only [bind_some_iff] at hf
    obtain ⟨h, -, files, -, threads, -, hf⟩ := hf
    cases (Prod.mk.inj (Option.some.inj hf)).2

theorem sysFork_starved {part : FsVolume.Partition} {s : State part} {parent : ℕ}
    (hrun : ∃ r ∈ s.kernel.proc parent, r.hanging = false) {i j : ℕ}
    (hs : Starved mc s.kernel i j) : ∃ s', sysFork mc s parent = some (s', none) := by
  obtain ⟨k', hp⟩ := hs.forkPages
  refine ⟨{ s with kernel := k' }, ?_⟩
  rw [sysFork, assert_pos hrun, Option.bind_eq_bind, Option.bind_some, hp]
  rfl

/-- A fork that returns `-1` leaves its pages and its pid behind, so that it is clean only where it
does not return so. -/
theorem fork_fails_clean_iff (mc : Machine) (s : State part) (parent : ℕ) :
    FailsClean mc s parent ↔ ¬((∃ r ∈ s.kernel.proc parent, r.hanging = false) ∧
      ∃ i j, Starved mc s.kernel i j) := by
  constructor
  · rintro hclean ⟨hrun, i, j, hs⟩
    obtain ⟨s', hf⟩ := sysFork_starved hrun hs
    obtain ⟨-, k', hp, rfl⟩ := sysFork_refused hf
    have hframes := (forkPages_refused hp).2
    have hpool : k'.heap.memory.pool = s.kernel.heap.memory.pool := (hclean _ hf).pool
    rw [freeFrames_congr hpool] at hframes
    omega
  · intro hnot s' hf
    obtain ⟨hrun, k', hp, -⟩ := sysFork_refused hf
    exact absurd ⟨hrun, (forkPages_refused hp).1⟩ hnot

end Failure

/-- The last three addresses of the kernel are left. -/
def lastAddresses : ProcessMemory.Kernel where
  heap := memInit.setMemory (memInit.memory.setVaddr none fun k => if k = 479 then 0xf8#8 else 0xff#8)
  pidBits := zeroes
  proc := fun p => if p = 1 then some ⟨0xc0200, 0xc0201, 0xc0202, 0, false⟩ else none

theorem lastAddresses_starved : Starved smallMachine lastAddresses 3832 3833 := by
  refine ⟨by decide +kernel, by decide +kernel, ?_, ?_, ⟨0, by decide, by decide⟩, by decide +kernel⟩
  · intro n _
    simp [lastAddresses, memInit, Memory.frameAt]
  · have htwo : ({0, 1} : Finset ℕ) ⊆ (Finset.range (8 * smallMachine.btmpLen .kernel)).filter
        fun i => bitmapScanTest (poolBitmap smallMachine lastAddresses.heap.memory .kernel) i =
          false := by
      intro i hi
      rw [Finset.mem_insert, Finset.mem_singleton] at hi
      rcases hi with rfl | rfl <;>
        exact Finset.mem_filter.mpr ⟨Finset.mem_range.mpr (by decide), by decide⟩
    exact Finset.card_le_card htwo

/-- A process with nothing open forks there. -/
def lastState : State FsVolume.smallPartition where
  kernel := lastAddresses
  files := FsOpenFiles.mounted (FsVolume.blankVolume FsVolume.smallPartition zeroes) fun _ => true
  threads := ⟨fun _ => none, 1, 0, 0, [], [1], fun _ => ⟨1, []⟩, fun _ => none, false, fun _ => false⟩

theorem failed_fork_leaks :
    ∃ s', sysFork smallMachine lastState 1 = some (s', none) ∧
      freeFrames smallMachine s'.kernel.heap.memory .kernel + 2 =
        freeFrames smallMachine lastState.kernel.heap.memory .kernel ∧
      ¬ FailsClean smallMachine lastState 1 := by
  have hrun : ∃ r ∈ lastState.kernel.proc 1, r.hanging = false := ⟨_, rfl, rfl⟩
  obtain ⟨s', hf⟩ := sysFork_starved hrun lastAddresses_starved
  obtain ⟨-, k', hp, rfl⟩ := sysFork_refused hf
  have hframes := (forkPages_refused hp).2
  refine ⟨_, hf, hframes, fun hclean => ?_⟩
  have hpool : k'.heap.memory.pool = lastState.kernel.heap.memory.pool := (hclean _ hf).pool
  rw [freeFrames_congr hpool] at hframes
  omega

end ForkFailure
