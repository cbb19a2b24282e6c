import XianweiOS.PipeTransfer
import XianweiOS.FsPipes
import XianweiOS.MemoryExhaustion

/-! `sys_pipe` of `shell/pipe.c` with the kernel's memory: a slot of the file table, a kernel page
for the ring and two descriptors of the process are taken one after the other. -/
namespace PipeCreation

open HaltingProgram MemoryPages MemoryHeap ProcessMemory FsOpenFiles FsSyscalls FsPipes
  PipeTransfer MemoryExhaustion DeviceIde FsVolume

structure State (T : Type) (part : Partition) where
  session : Session T part
  memory : Heap

variable {T : Type} {part : Partition}

/-- The slot's number is used before it is looked at, so that without a slot the code leaves
`file_table`; a descriptor that `pcb_fd_install` does not find is returned as `-1`. The outer result
is `none` for the return value `-1`. -/
def sysPipe (mc : Machine) (s : State T part) : Option (Option (ℤ × ℤ) × State T part) := do
  let globalFd ← getFreeSlotInGlobal s.session.kernel
  let (memory, page) ← getKernelPages mc s.memory 1
  match page with
  | none =>
    let f := s.session.kernel.fileTable globalFd
    return (none, ⟨{ s.session with
      kernel := s.session.kernel.setFile globalFd { f with fdInode := none } }, memory⟩)
  | some a =>
    let dev := { s.session.dev with
      ring := Function.update s.session.dev.ring a IoQueue.System.initial }
    let k := s.session.kernel.setFile globalFd ⟨2, pipeFlag, some a⟩
    let (fd0, k) := pcbFdInstall globalFd k
    let (fd1, k) := pcbFdInstall globalFd k
    return (some (fd0, fd1), ⟨⟨k, dev⟩, memory⟩)

/-- The new pipe has the free slot `g` and an empty ring at `a`, and the descriptors `j` and `j'`. -/
structure Created (s s' : State T part) (g a j j' : ℕ) : Prop where
  slot : 3 ≤ g ∧ g < maxFilesOpen ∧ (s.session.kernel.fileTable g).fdInode = none
  fd0 : 3 ≤ j ∧ j < maxFilesOpenPerProc ∧ s.session.kernel.cur.fdTable j = none
  fd1 : 3 ≤ j' ∧ j' < maxFilesOpenPerProc ∧ s.session.kernel.cur.fdTable j' = none
  distinct : j ≠ j'
  fdTable : s'.session.kernel.cur.fdTable =
    Function.update (Function.update s.session.kernel.cur.fdTable j (some g)) j' (some g)
  fileTable : s'.session.kernel.fileTable =
    Function.update s.session.kernel.fileTable g ⟨2, pipeFlag, some a⟩
  ring : s'.session.dev.ring a = IoQueue.System.initial

structure Untouched (s s' : State T part) : Prop where
  fdTable : s'.session.kernel.cur.fdTable = s.session.kernel.cur.fdTable
  fileTable : s'.session.kernel.fileTable = s.session.kernel.fileTable
  pool : s'.memory.memory.pool .kernel = s.memory.memory.pool .kernel

/-- A pipe with two descriptors, or `-1` and nothing is different. -/
def AllOrNothing (mc : Machine) (s : State T part) : Prop :=
  ∃ r s', sysPipe mc s = some (r, s') ∧
    ((∃ g a j j' : ℕ, r = some (↑j, ↑j') ∧ Created s s' g a j j') ∨ (r = none ∧ Untouched s s'))

def SlotFree (s : Kernel part) : Prop :=
  ∃ g, 3 ≤ g ∧ g < maxFilesOpen ∧ (s.fileTable g).fdInode = none

section Creation

variable {mc : Machine} {s s' : State T part} {h h' : Heap} {n a : ℕ}

theorem getFreeSlotInGlobal_exists {k : Kernel part} :
    (∃ g, getFreeSlotInGlobal k = some g) ↔ SlotFree k := by
  constructor
  · rintro ⟨g, hg⟩
    obtain ⟨hlt, hfree⟩ := FsReferenceRuns.getFreeSlotInGlobal_some hg
    exact ⟨g, getFreeSlotInGlobal_ge hg, hlt, hfree⟩
  · rintro ⟨g, h3, hlt, hfree⟩
    refine Option.ne_none_iff_exists'.mp fun hnone => ?_
    have := List.find?_eq_none.mp hnone g (List.mem_range.mpr hlt)
    simp [h3, hfree] at this

theorem sysPipe_some {r : Option (ℤ × ℤ)} (hp : sysPipe mc s = some (r, s')) :
    ∃ g h' a, getFreeSlotInGlobal s.session.kernel = some g ∧
      getKernelPages mc s.memory 1 = some (h', some a) ∧
      r = some ((pcbFdInstall g (s.session.kernel.setFile g ⟨2, pipeFlag, some a⟩)).1,
        (pcbFdInstall g
          (pcbFdInstall g (s.session.kernel.setFile g ⟨2, pipeFlag, some a⟩)).2).1) ∧
      s' = ⟨⟨(pcbFdInstall g
          (pcbFdInstall g (s.session.kernel.setFile g ⟨2, pipeFlag, some a⟩)).2).2,
        { s.session.dev with
          ring := Function.update s.session.dev.ring a IoQueue.System.initial }⟩, h'⟩ := by
  rw [sysPipe, bind_some_iff] at hp
  obtain ⟨g, hg, hp⟩ := hp
  rw [bind_some_iff] at hp
  obtain ⟨⟨h', page⟩, hpage, hp⟩ := hp
  obtain ⟨a, rfl⟩ := getKernelPages_one hpage
  obtain ⟨rfl, rfl⟩ := Prod.mk.inj (Option.some.inj hp)
  exact ⟨g, h', a, hg, hpage, rfl, rfl⟩

theorem sysPipe_eq {g : ℕ} (hg : getFreeSlotInGlobal s.session.kernel = some g)
    (hpage : getKernelPages mc s.memory 1 = some (h', some a)) :
    sysPipe mc s = some (some ((pcbFdInstall g
        (s.session.kernel.setFile g ⟨2, pipeFlag, some a⟩)).1,
      (pcbFdInstall g (pcbFdInstall g (s.session.kernel.setFile g ⟨2, pipeFlag, some a⟩)).2).1),
      ⟨⟨(pcbFdInstall g
          (pcbFdInstall g (s.session.kernel.setFile g ⟨2, pipeFlag, some a⟩)).2).2,
        { s.session.dev with
          ring := Function.update s.session.dev.ring a IoQueue.System.initial }⟩, h'⟩) := by
  rw [sysPipe, hg, Option.bind_eq_bind, Option.bind_some, hpage, Option.bind_eq_bind,
    Option.bind_some]
  rfl

/-- The two descriptors of a pipe are free ones. -/
theorem Created.twoFree {g j j' : ℕ} (hc : Created s s' g a j j') :
    TwoFree s.session.kernel := by
  obtain ⟨h3, h8, hj⟩ := hc.fd0
  obtain ⟨h3', h8', hj'⟩ := hc.fd1
  rcases lt_or_gt_of_ne hc.distinct with hlt | hlt
  · exact ⟨j, j', h3, hlt, h8', hj, hj'⟩
  · exact ⟨j', j, h3', hlt, h8, hj', hj⟩

/-- What `sys_pipe` needs is there from the start; it finds out about none of it in time. -/
theorem sys_pipe_all_or_nothing_iff (mc : Machine) (s : State T part) : AllOrNothing mc s ↔
    SlotFree s.session.kernel ∧ TwoFree s.session.kernel ∧ Obtainable mc s.memory.memory none 1 := by
  constructor
  · rintro ⟨r, s', hp, h⟩
    obtain ⟨g, h', a, hg, hpage, hr, -⟩ := sysPipe_some hp
    refine ⟨getFreeSlotInGlobal_exists.mp ⟨g, hg⟩, ?_, getKernelPages_one_iff.mp ⟨h', a, hpage⟩⟩
    rcases h with ⟨g', a', j, j', -, hc⟩ | ⟨hn, -⟩
    · exact hc.twoFree
    · rw [hn] at hr
      cases hr
  · rintro ⟨hslot, hfds, hpage⟩
    obtain ⟨g, hg⟩ := getFreeSlotInGlobal_exists.mpr hslot
    obtain ⟨h', a, hpage⟩ := getKernelPages_one_iff.mpr hpage
    obtain ⟨hlt, hfree⟩ := FsReferenceRuns.getFreeSlotInGlobal_some hg
    let k := s.session.kernel.setFile g ⟨2, pipeFlag, some a⟩
    obtain ⟨j, j', hj, hj', hne, hfj, hfj', h1, h2⟩ := pcbFdInstall_two (s := k) g hfds
    refine ⟨_, _, sysPipe_eq hg hpage, .inl ⟨g, a, j, j', ?_, ?_⟩⟩
    · rw [h1, h2]
    · rw [h1, h2]
      exact ⟨⟨getFreeSlotInGlobal_ge hg, hlt, hfree⟩, ⟨hj.1, hj.2, hfj⟩, ⟨hj'.1, hj'.2, hfj'⟩,
        hne.symm, rfl, rfl, Function.update_self ..⟩

end Creation

/-- Every slot of the file table is in use. -/
def crowded : State ℕ smallPartition where
  session := { pipeSession 0 0 with
    kernel := { (pipeSession 0 0).kernel with fileTable := fun _ => ⟨0, 0, some 0⟩ } }
  memory := memInit

/-- The code goes on with the slot `-1`. -/
theorem sys_pipe_without_slot :
    getFreeSlotInGlobal crowded.session.kernel = none ∧ sysPipe smallMachine crowded = none ∧
      ¬ AllOrNothing smallMachine crowded := by
  have hslot : getFreeSlotInGlobal crowded.session.kernel = none := by decide
  have hnone : sysPipe smallMachine crowded = none := by
    rw [sysPipe, hslot]
    rfl
  refine ⟨hslot, hnone, ?_⟩
  rintro ⟨r, s', hp, -⟩
  rw [hnone] at hp
  cases hp

end PipeCreation
