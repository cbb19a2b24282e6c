import XianweiOS.FsSyscalls

/-! Processes and their descriptors: `sys_fork` (`userprog/fork.c`) and `sys_exit`
(`userprog/wait_exit.c`) as far as they touch the file system, and the pipes of
`shell/pipe.c`. A call runs on the kernel with its process as the current task. A pid is any
number of the pid pool that is not in use. A process that has exited is no longer live. The inodes
that are open stand in one store, whatever heap they were allocated in. -/
namespace FsProcesses

open ByteStore HaltingProgram KernelBitmap DeviceIde FsVolume FsInodeTable FsOpenFiles FsSyscalls

structure World (part : Partition) where
  kernel : Kernel part
  procs : ℕ → Option Task

variable {part : Partition}

/-- A system call of process `p`. -/
def World.call {α : Type} (w : World part) (p : ℕ) (f : Kernel part → Option (α × Kernel part)) :
    Option (α × World part) := do
  let t ← w.procs p
  let (ret, s) ← f { w.kernel with cur := t }
  return (ret, ⟨s, Function.update w.procs p (some s.cur)⟩)

theorem call_some {α : Type} {w w' : World part} {p : ℕ} {r : α}
    {f : Kernel part → Option (α × Kernel part)} (h : w.call p f = some (r, w')) :
    ∃ t, w.procs p = some t ∧ ∃ s, f { w.kernel with cur := t } = some (r, s) ∧
      w' = ⟨s, Function.update w.procs p (some s.cur)⟩ := by
  simp only [World.call, bind_some_iff, Option.pure_def, Option.some.injEq, Prod.mk.injEq] at h
  obtain ⟨t, ht, ⟨r', s⟩, hf, rfl, rfl⟩ := h
  exact ⟨t, ht, s, hf, rfl⟩

theorem fdLocal2global_some {fd k : ℕ} {s : Kernel part} (h : fdLocal2global fd s = some k) :
    fd < maxFilesOpenPerProc ∧ s.cur.fdTable fd = some k ∧ k < maxFilesOpen := by
  simp only [fdLocal2global, bind_some_iff, assert_eq_some, Option.pure_def,
    Option.some.injEq] at h
  obtain ⟨-, hfd, k', hk', -, hk, rfl⟩ := h
  exact ⟨hfd, hk', hk⟩

def Kernel.clearFd (fd : ℕ) (s : Kernel part) : Kernel part :=
  { s with cur := { s.cur with fdTable := Function.update s.cur.fdTable fd none } }

/-- What `sys_close` does. -/
theorem sysClose_some {fd : ℕ} {ret : ℤ} {s s' : Kernel part}
    (h : sysClose fd s = some (ret, s')) :
    (fd ≤ 2 ∧ s' = s) ∨
    (2 < fd ∧ fd < maxFilesOpenPerProc ∧ ∃ k < maxFilesOpen, s.cur.fdTable fd = some k ∧
      (((s.fileTable k).fdFlag = pipeFlag ∧ s' = Kernel.clearFd fd (pipeClose k s)) ∨
      ((s.fileTable k).fdFlag ≠ pipeFlag ∧
        ∃ s1, fileClose k s = some (ret, s1) ∧ s' = Kernel.clearFd fd s1))) := by
  rw [sysClose] at h
  split at h
  · rename_i hfd
    exact Or.inl ⟨hfd, (Prod.mk.inj (Option.some.inj h)).2.symm⟩
  · rename_i hfd
    rw [bind_some_iff] at h
    obtain ⟨k, hlocal, h⟩ := h
    obtain ⟨h8, hk, h32⟩ := fdLocal2global_some hlocal
    refine Or.inr ⟨Nat.lt_of_not_le hfd, h8, k, h32, hk, ?_⟩
    simp only at h
    split at h
    · rename_i hpipe
      exact Or.inl ⟨hpipe, (Prod.mk.inj (Option.some.inj h)).2.symm⟩
    · rename_i hpipe
      rw [bind_some_iff] at h
      obtain ⟨⟨ret', s1⟩, hcl, h⟩ := h
      obtain ⟨rfl, rfl⟩ := Prod.mk.inj (Option.some.inj h)
      exact Or.inr ⟨hpipe, s1, hcl, rfl⟩

/-- The references of one more process, the child of the current one. -/
def updateInodeOpenCnts : (left localFd : ℕ) → Kernel part → Option (Kernel part)
  | 0, _, s => some s
  | left + 1, localFd, s =>
    match s.cur.fdTable localFd with
    | none => updateInodeOpenCnts left (localFd + 1) s
    | some globalFd => do
      assert (globalFd < maxFilesOpen)
      let f := s.fileTable globalFd
      if f.fdFlag = pipeFlag then
        updateInodeOpenCnts left (localFd + 1)
          (s.setFile globalFd { f with fdPos := (f.fdPos + 1) % 2 ^ 32 })
      else
        let a ← f.fdInode
        let i ← s.inodes a
        updateInodeOpenCnts left (localFd + 1)
          (s.setInode a { i with openCnts := i.openCnts + 1 })

def maxPid : ℕ := 1024

/-- Process `p` forks `child`. -/
def sysFork (p child : ℕ) (w : World part) : Option (World part) := do
  assert (w.procs child = none ∧ 0 < child ∧ child ≤ maxPid)
  let t ← w.procs p
  let s ← updateInodeOpenCnts (maxFilesOpenPerProc - 3) 3 { w.kernel with cur := t }
  return ⟨s, Function.update w.procs child (some t)⟩

/-- The descriptors in `release_prog_resource`; an entry on a pipe is not cleared. -/
def releaseFds : (left fdIdx : ℕ) → Kernel part → Option (Kernel part)
  | 0, _, s => some s
  | left + 1, fdIdx, s =>
    match s.cur.fdTable fdIdx with
    | none => releaseFds left (fdIdx + 1) s
    | some _ => do
      let globalFd ← fdLocal2global fdIdx s
      if (s.fileTable globalFd).fdFlag = pipeFlag then
        releaseFds left (fdIdx + 1) (pipeClose globalFd s)
      else
        let (_, s) ← sysClose fdIdx s
        releaseFds left (fdIdx + 1) s

def sysExit (p : ℕ) (w : World part) : Option (World part) := do
  let t ← w.procs p
  let s ← releaseFds (maxFilesOpenPerProc - 3) 3 { w.kernel with cur := t }
  return ⟨s, Function.update w.procs p none⟩

/-- A page of the kernel heap becomes the ring buffer. Neither a full table nor a missing page
is checked before it is used. -/
def sysPipe (s : Kernel part) : Option ((ℤ × ℤ) × Kernel part) := do
  let globalFd ← getFreeSlotInGlobal s
  let (page, s) := sysMalloc s
  assert (page = true)
  let s := { s.setFile globalFd ⟨2, pipeFlag, some s.next⟩ with next := s.next + 1 }
  let (fd0, s) := pcbFdInstall globalFd s
  let (fd1, s) := pcbFdInstall globalFd s
  return ((fd0, fd1), s)

/-- The entry is overwritten, whatever it was, and no reference is counted. -/
def sysFdRedirect (oldLocalFd newLocalFd : ℕ) (s : Kernel part) : Option (Unit × Kernel part) := do
  assert (oldLocalFd < maxFilesOpenPerProc ∧ newLocalFd < maxFilesOpenPerProc)
  let entry := if newLocalFd < 3 then some newLocalFd else s.cur.fdTable newLocalFd
  return ((), { s with cur := { s.cur with
    fdTable := Function.update s.cur.fdTable oldLocalFd entry } })

inductive Whence where
  | seekSet
  | seekCur
  | seekEnd
  deriving DecidableEq, Repr

/-- A sum in `int32_t` wraps around. -/
def int32 (x : ℤ) : ℤ := x.bmod (2 ^ 32)

def seekTarget (fdPos : ℕ) (fileSize offset : ℤ) : Whence → ℤ
  | .seekSet => int32 offset
  | .seekCur => int32 (int32 fdPos + offset)
  | .seekEnd => int32 (int32 fileSize + offset)

/-- Is the target inside the file? -/
def seekable (fdPos : ℕ) (fileSize offset : ℤ) (whence : Whence) : Bool :=
  decide (0 ≤ seekTarget fdPos fileSize offset whence ∧
    seekTarget fdPos fileSize offset whence ≤ int32 (int32 fileSize - 1))

/-- `i_size` of a pipe is a word of its ring buffer's lock, `ioqWord`. -/
def sysLseek (ioqWord fd : ℕ) (offset : ℤ) (whence : Whence) (s : Kernel part) :
    Option (ℤ × Kernel part) := do
  let globalFd ← fdLocal2global fd s
  let f := s.fileTable globalFd
  let a ← f.fdInode
  let fileSize ← if f.fdFlag = pipeFlag then some ioqWord else (s.inodes a).map Inode.iSize
  if seekable f.fdPos fileSize offset whence = false then return (-1, s)
  else
    let newPos := seekTarget f.fdPos fileSize offset whence
    return (newPos, s.setFile globalFd { f with fdPos := newPos.toNat })

end FsProcesses
