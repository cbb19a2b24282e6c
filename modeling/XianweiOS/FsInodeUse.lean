import XianweiOS.FsSingleWriter
import XianweiOS.FsNamespaceRuns

/-! Inodes that are in use by any process: in the file table, behind the handles of directories, and
as the directories that processes work in. `sys_unlink` looks for its file in the table of files;
`sys_rmdir` looks nowhere. -/
namespace FsInodeUse

open ByteStore HaltingProgram DeviceIde FsVolume FsInodeTable FsOwnership FsFormat FsPath FsOpenFiles
  FsSyscalls HolderCount FsReferenceCounts FsReferenceRuns FsProcesses PathTree FsTree FsImage
  FsIntact FsNamespace FsShown FsRemoveCalls FsFileRuns FsNamespaceRuns
open FsWriters (freshTask)
open FsHeapTrace (System)
open FsSingleWriter (Sees)

variable {part : Partition} {S : Prop} {s s' : Kernel part} {w w' : System part} {σ : State}
  {t : FileTree} {x : ℕ → ℕ} {p child : ℕ} {q : Request}

/-- The call `q` of process `p`. -/
def traced (p : ℕ) (q : Request) : FsHeapTrace.Call :=
  match q.call with
  | .open pathname flags => .open p q.junk pathname flags
  | .close fd => .close p fd
  | .read fd buf count => .read p fd buf count
  | .write fd buf count => .write p fd buf count
  | .lseek fd offset whence => .lseek p q.ioqWord fd offset whence
  | .opendir name => .opendir p q.junk name
  | .closedir dir => .closedir p dir
  | .mkdir pathname => .mkdir p q.junk pathname
  | .unlink pathname => .unlink p q.junk pathname
  | .rmdir pathname => .rmdir p q.junk pathname
  | .stat path => .stat p q.junk path
  | .chdir path => .chdir p q.junk path

/-- A user process forks; what its heap holds is not in that of the child but as a copy. -/
def fork (p child : ℕ) (w : System part) : Option (System part) := do
  assert (w.user p = true)
  let u ← sysFork p child w.world
  return { w with kernel := u.kernel, procs := u.procs, user := Function.update w.user child true }

inductive Act where
  | serve (p : ℕ) (q : Request)
  | fork (p child : ℕ)

def Act.exec : Act → System part → Option (System part)
  | .serve p q, w => (traced p q).exec { w with kernel := q.start w.kernel }
  | .fork p child, w => FsInodeUse.fork p child w

/-- A handle that is closed was opened by the process that closes it. -/
def OwnHandle (q : Request) (w : System part) (p : ℕ) : Prop :=
  ∀ a, q.call = .closedir (some (.heap a)) → w.dirHome a = w.ctx p

/-- The process has no handle of a directory: a child would get a copy that nobody counts. -/
def NoHandles (w : System part) (p : ℕ) : Prop :=
  ∀ a dir, w.kernel.dirs a = some dir → w.dirHome a ≠ w.ctx p

/-- The caller reaches every open inode. What a call takes away is open in the table of files, where
`sys_unlink` sees it, or not at all; and no process works in it. -/
def Act.Fine : Act → System part → Prop
  | .serve p q, w => Sees w p ∧ OwnHandle q w p ∧ ∀ task, w.procs p = some task →
    Admits False q { w.kernel with cur := task } ∧
      ∀ n, q.RemovesDir { w.kernel with cur := task } n →
        ∀ p' task', w.procs p' = some task' → task'.cwdInodeNr ≠ n
  | .fork p _, w => Sees w p ∧ NoHandles w p

/-- The inode at `a` is in memory, and its number is taken. -/
def Taken (s : Kernel part) (a : ℕ) : Prop :=
  ∃ i, s.inodes a = some i ∧ s.vol.inodeBit i.iNo = true

/-- No inode that is in use is free, and none is in memory twice. -/
structure NoneFreed (w : System part) : Prop where
  files : ∀ k < maxFilesOpen, ∀ a, (w.kernel.fileTable k).fdInode = some a → Taken w.kernel a
  handles : ∀ d a, dirInode w.kernel d = some a → Taken w.kernel a
  cwds : ∀ p task, w.procs p = some task → w.kernel.vol.inodeBit task.cwdInodeNr = true
  numbers : (w.kernel.openInodes.map fun a => (w.kernel.inodes a).map Inode.iNo).Nodup

/-- The kernel serves the files of a tree, and every process works in a directory of it. -/
def Secure (w : System part) : Prop :=
  ∃ t σ, Serving False w.kernel t σ ∧ ∀ p task, w.procs p = some task → t.IsDir task.cwdInodeNr

theorem Secure.noneFreed (h : Secure w) : NoneFreed w := by
  obtain ⟨t, σ, ⟨x, hi, -⟩, hcwd⟩ := h
  have htaken : ∀ a ∈ w.kernel.openInodes, Taken w.kernel a := fun a ha => by
    obtain ⟨i, hi', -⟩ := hi.counted.listed a ha
    exact ⟨i, hi', hi.image.consistent.allocated _ (hi.cached a ha i hi').1⟩
  refine ⟨fun k hk a ha => htaken a (hi.counted.fileInode_open hk ha),
    fun d a ha => htaken a (hi.counted.dirInode_open ha), fun p task hp => ?_, ?_⟩
  · obtain ⟨m, E, hd⟩ := hcwd p task hp
    exact hi.image.consistent.allocated _ (hd ▸ Option.some_ne_none _)
  · refine hi.counted.nodup.map_on fun a ha b hb he => ?_
    obtain ⟨i, hia, -⟩ := hi.counted.listed a ha
    obtain ⟨j, hjb, -⟩ := hi.counted.listed b hb
    rw [hia, hjb] at he
    exact hi.single a ha b hb i j hia hjb (Option.some.inj he)

section Fork

/-- The child refers to what its parent refers to. -/
theorem updateInodeOpenCnts_serving : ∀ {left fd : ℕ} {s : Kernel part},
    updateInodeOpenCnts left fd s = some s' → Serving S s t σ → Serving S s' t σ := by
  intro left
  induction left with
  | zero =>
    intro fd s hu h
    obtain rfl := Option.some.inj hu
    exact h
  | succ left ih =>
    intro fd s hu h
    rw [updateInodeOpenCnts] at hu
    split at hu
    · exact ih hu h
    · rename_i k hk
      rw [assert_bind] at hu
      obtain ⟨hlt, hu⟩ := hu
      obtain ⟨x, hi, hs⟩ := h
      simp only [if_neg (hi.pipes k), bind_some_iff] at hu
      obtain ⟨a, ha, i, hia, hu⟩ := hu
      have hopen := hi.counted.fileInode_open hlt ha
      exact ih hu ⟨_, hi.count hopen hia, hs.setInode hia rfl⟩

theorem fork_some (h : fork p child w = some w') : ∃ task s, w.procs p = some task ∧
    updateInodeOpenCnts (maxFilesOpenPerProc - 3) 3 { w.kernel with cur := task } = some s ∧
    w'.kernel = s ∧ w'.procs = Function.update w.procs child (some task) := by
  simp only [fork, sysFork, bind_some_iff, Option.pure_def, Option.some.injEq] at h
  obtain ⟨-, -, u, ⟨-, -, task, hp, s, hu, rfl⟩, rfl⟩ := h
  exact ⟨task, s, hp, hu, rfl, rfl⟩

theorem fork_secure (h : Secure w) (hf : fork p child w = some w') : Secure w' := by
  obtain ⟨t, σ, hserving, hcwd⟩ := h
  obtain ⟨task, s, hp, hu, hkernel, hprocs⟩ := fork_some hf
  refine ⟨t, _, hkernel ▸ updateInodeOpenCnts_serving hu (Serving.withCur hserving task),
    fun p' task' hp' => ?_⟩
  rw [hprocs] at hp'
  by_cases hchild : p' = child
  · subst hchild
    rw [Function.update_self] at hp'
    obtain rfl := Option.some.inj hp'
    exact hcwd p task hp
  · rw [Function.update_of_ne hchild] at hp'
    exact hcwd p' task' hp'

end Fork

section Serve

/-- A call in the world of the processes. -/
theorem call_replied {α : Type} {u u' : World part} {f : Kernel part → Option (α × Kernel part)}
    (reply : α → Reply) (h : (u.call p f).map Prod.snd = some u') : ∃ task r s,
      u.procs p = some task ∧
      (f { u.kernel with cur := task }).map (fun (a, s) => (reply a, s)) = some (r, s) ∧
      u' = ⟨s, Function.update u.procs p (some s.cur)⟩ := by
  obtain ⟨⟨a, u''⟩, hcall, rfl⟩ := Option.map_eq_some_iff.mp h
  obtain ⟨task, hp, s, hf, rfl⟩ := call_some hcall
  exact ⟨task, reply a, s, hp, by rw [hf]; rfl, rfl⟩

/-- The traced call is the call of the file system, on the kernel with its process running. -/
theorem serve_some (h : (Act.serve p q).exec w = some w') : ∃ task r s, w.procs p = some task ∧
    serve q (q.start { w.kernel with cur := task }) = some (r, s) ∧ w'.kernel = s ∧
    w'.procs = Function.update w.procs p (some s.cur) := by
  suffices hworld : ∃ task r s, w.procs p = some task ∧
      serve q (q.start { w.kernel with cur := task }) = some (r, s) ∧
      w'.world = ⟨s, Function.update w.procs p (some s.cur)⟩ by
    obtain ⟨task, r, s, hp, hserve, hw'⟩ := hworld
    exact ⟨task, r, s, hp, hserve, congrArg World.kernel hw', congrArg World.procs hw'⟩
  have hplain := FsHeapTrace.exec_refines h
  obtain ⟨call, junk, ioqWord, mallocs⟩ := q
  cases call
  case read fd buf count => exact call_replied (fun ret => .bytes ret.1 ret.2) hplain
  all_goals exact call_replied _ hplain

theorem serve_secure (h : Secure w) (hok : (Act.serve p q).Fine w)
    (hexec : (Act.serve p q).exec w = some w') : Secure w' := by
  obtain ⟨t, σ, hserving, hcwd⟩ := h
  obtain ⟨task, r, s, hp, hserve, hkernel, hprocs⟩ := serve_some hexec
  obtain ⟨hadmits, hclear⟩ := hok.2.2 task hp
  obtain ⟨σ', t', hserved⟩ := serve_served (Serving.withCur hserving task) hadmits hserve
  have hstays : ∀ p' task', w.procs p' = some task' → t'.IsDir task'.cwdInodeNr :=
    fun p' task' hp' => hserved.dirs _ (hcwd p' task' hp') fun hn => hclear _ hn p' task' hp' rfl
  refine ⟨t', σ', hkernel ▸ hserved.serving, fun p' task' hp' => ?_⟩
  rw [hprocs] at hp'
  by_cases hcaller : p' = p
  · subst hcaller
    rw [Function.update_self] at hp'
    obtain rfl := Option.some.inj hp'
    rcases hserved.cwd with hsame | hdir
    · rw [hsame]
      exact hstays p' task hp
    · exact hdir
  · rw [Function.update_of_ne hcaller] at hp'
    exact hstays p' task' hp'

theorem exec_secure {act : Act} (h : Secure w) (hok : act.Fine w) (hexec : act.exec w = some w') :
    Secure w' := by
  cases act with
  | serve p q => exact serve_secure h hok hexec
  | fork p child => exact fork_secure h hexec

end Serve

section Booted

variable {fuel len : ℕ} {pad disk : Bytes} {memory : ℕ → Bool} {threads user : ℕ → Bool}

/-- The system on a new file system, with the threads as `init_thread` leaves them. -/
def bootSystem (part : Partition) (fuel : ℕ) (pad : Bytes) (len : ℕ) (disk : Bytes)
    (memory threads user : ℕ → Bool) : Option (System part) := do
  let (sb, disk) ← partitionFormat fuel pad len part.startLba part.secCnt disk
  assert (sb = part.sb)
  let v ← mountPartition part disk
  FsHeapTrace.boot v memory (fun p => if threads p then some freshTask else none) user

theorem bootSystem_some (h : bootSystem part fuel pad len disk memory threads user = some w) :
    bootNew part fuel pad len disk memory = some w.kernel ∧
      w.procs = fun p => if threads p then some freshTask else none := by
  simp only [bootSystem, FsHeapTrace.boot, FsHeapTrace.openRootDir, bind_some_iff, assert_eq_some,
    Option.pure_def, Option.some.injEq] at h
  obtain ⟨⟨sb, disk'⟩, hformat, -, hsb, v, hv, u, ⟨⟨a, u'⟩, hopen, rfl⟩, rfl⟩ := h
  have hplain := FsHeapTrace.inodeOpen_refines _ _ _ _ hopen
  refine ⟨?_, rfl⟩
  simp only [bootNew, bind_some_iff, assert_eq_some]
  refine ⟨_, hformat, (), hsb, v, hv, ?_⟩
  rw [openRootDir, bind_some_iff]
  exact ⟨_, hplain, rfl⟩

theorem boot_secure (h8 : 8 ≤ dataBlocks part)
    (h : bootSystem part fuel pad len disk memory threads user = some w) : Secure w := by
  obtain ⟨hboot, hprocs⟩ := bootSystem_some h
  obtain ⟨t, x, hi, hs⟩ := new_running (S := False) h8 hboot
  refine ⟨t, newFiles, ⟨x, hi, hs⟩, fun p task hp => ?_⟩
  simp only [hprocs] at hp
  split at hp
  · obtain rfl := Option.some.inj hp
    obtain ⟨E, htop⟩ := hi.image.hierarchy.tree.top
    exact ⟨0, E, htop⟩
  · cases hp

/-- Whatever the processes do, in whatever order: as long as nothing is taken away that is in use
outside the table of files, no inode that is in use is free. -/
theorem run_none_freed {acts : List Act} (h8 : 8 ≤ dataBlocks part)
    (hb : bootSystem part fuel pad len disk memory threads user = some w)
    (hok : AllMeet Act.exec Act.Fine acts w) (hr : runAll Act.exec acts w = some w') :
    NoneFreed w' :=
  (runAll_invariant Secure (fun _ _ _ hs hf he => exec_secure hs hf he) (boot_secure h8 hb) hok
    hr).noneFreed

end Booted

section Small

/-- Only the entry of the caller changes, or that of the child. -/
def Act.pid : Act → ℕ
  | .serve p _ => p
  | .fork _ child => child

theorem exec_others {act : Act} (h : act.exec w = some w') (hp : p ≠ act.pid) :
    w'.procs p = w.procs p := by
  cases act with
  | serve p' q =>
    obtain ⟨task, r, s, -, -, -, hprocs⟩ := serve_some h
    rw [hprocs]
    exact Function.update_of_ne hp _ _
  | fork p' child =>
    obtain ⟨task, s, -, -, -, hprocs⟩ := fork_some h
    rw [hprocs]
    exact Function.update_of_ne hp _ _

/-- A call that takes nothing away. -/
theorem keeping_fine (hsees : Sees w p) (hown : OwnHandle q w p) 
    (hno : ∀ (s : Kernel part) n, ¬q.Removes s n)
    (hfine : ∀ task, Fine False q { w.kernel with cur := task }) : (Act.serve p q).Fine w := by
  have hdir : ∀ (s : Kernel part) n, ¬q.RemovesDir s n := fun s n hn => hno s n (by
    obtain ⟨call, junk, ioqWord, mallocs⟩ := q
    cases call <;> first | exact hn | exact hn.elim)
  exact ⟨hsees, hown, fun task _ => ⟨⟨hfine task, fun n hn => absurd hn (hno _ n)⟩,
    fun n hn => absurd hn (hdir _ n)⟩⟩

/-- Thread 1 of the kernel and the user process 2. -/
def smallBoot : Option (System smallPartition) :=
  bootSystem smallPartition 3 zeroes 0 zeroes (fun _ => true) (fun p => p = 1 ∨ p = 2) fun p => p = 2

/-- Process 2 forks and makes `/f`, where the child goes to work; the child makes `/d` and the parent
removes it. -/
def sharedRun : List Act :=
  [.fork 2 3, .serve 2 (plainRequest (.mkdir filePath)), .serve 3 (plainRequest (.chdir filePath)),
    .serve 3 (plainRequest (.mkdir dirPath)), .serve 2 dirRemoval,
    .serve 2 (plainRequest (.opendir filePath))]

theorem run_none_freed_shared : ∃ w w', smallBoot = some w ∧
    runAll Act.exec sharedRun w = some w' ∧
    [1, 2, 3].map (fun p => (w'.procs p).map Task.cwdInodeNr) = [some 0, some 0, some 1] ∧
    NoneFreed w' := by
  have heval : (smallBoot.bind fun w₀ =>
      ((Act.fork 2 3).exec w₀).bind fun w₁ =>
      ((Act.serve 2 (plainRequest (.mkdir filePath))).exec w₁).bind fun w₂ =>
      ((Act.serve 3 (plainRequest (.chdir filePath))).exec w₂).bind fun w₃ =>
      ((Act.serve 3 (plainRequest (.mkdir dirPath))).exec w₃).bind fun w₄ =>
      ((Act.serve 2 dirRemoval).exec w₄).bind fun w₅ =>
      ((Act.serve 2 (plainRequest (.opendir filePath))).exec w₅).map fun w' =>
        decide (([1, 2, 3].map (fun p => (w'.procs p).map Task.cwdInodeNr) =
            [some 0, some 0, some 1]) ∧
          (Sees w₀ 2 ∧ Sees w₁ 2 ∧ Sees w₂ 3 ∧ Sees w₃ 3 ∧ Sees w₄ 2 ∧ Sees w₅ 2) ∧
          w₁.kernel.vol.inodeBit 1 = false ∧ w₃.kernel.vol.inodeBit 2 = false ∧
          (w₄.kernel.openInodes.map fun a => (w₄.kernel.inodes a).map Inode.iNo) = [some 0] ∧
          ((w₄.procs 2).bind fun task => (searchFile noJunk dirPath zeroRecord
            (dirRemoval.start { w₄.kernel with cur := task })).map fun r => r.1) = some (some 2) ∧
          ([2, 3].map fun p => (w₄.procs p).map Task.cwdInodeNr) = [some 0, some 1])) =
      some true := by
    decide +kernel
  obtain ⟨w₀, h₀, heval⟩ := Option.bind_eq_some_iff.mp heval
  obtain ⟨w₁, h₁, heval⟩ := Option.bind_eq_some_iff.mp heval
  obtain ⟨w₂, h₂, heval⟩ := Option.bind_eq_some_iff.mp heval
  obtain ⟨w₃, h₃, heval⟩ := Option.bind_eq_some_iff.mp heval
  obtain ⟨w₄, h₄, heval⟩ := Option.bind_eq_some_iff.mp heval
  obtain ⟨w₅, h₅, heval⟩ := Option.bind_eq_some_iff.mp heval
  obtain ⟨w', h₆, heval⟩ := Option.map_eq_some_iff.mp heval
  obtain ⟨hcwds, ⟨s₀, s₁, s₂, s₃, s₄, s₅⟩, hbit₁, hbit₂, hopen, hfound, hwork⟩ :=
    of_decide_eq_true heval
  have hrun : runAll Act.exec sharedRun w₀ = some w' := by
    simp only [sharedRun, runAll, h₁, h₂, h₃, h₄, h₅, h₆, Option.bind_eq_bind, Option.bind_some]
  have hfile : PathFine filePath := filePath_fine
  have hhandles : NoHandles w₀ 2 := fun a dir hdir => by
    obtain ⟨disk', v, -, hb, -⟩ := bootNew_some (bootSystem_some h₀).1
    rw [(openRootDir_some hb).dirs] at hdir
    cases hdir
  -- at the removal the only working directories are the root and `/f`
  have hothers : ∀ p, p ≠ 2 → p ≠ 3 → w₄.procs p = w₀.procs p := fun p h2 h3 => by
    rw [exec_others h₄ h3, exec_others h₃ h3, exec_others h₂ h2, exec_others h₁ h3]
  have hwork : ∀ p task, w₄.procs p = some task → task.cwdInodeNr ≠ 2 := by
    intro p task hp
    by_cases h2 : p = 2
    · subst h2
      simp only [List.map_cons, hp, Option.map_some, List.cons.injEq, Option.some.injEq] at hwork
      omega
    by_cases h3 : p = 3
    · subst h3
      simp only [List.map_cons, hp, Option.map_some, List.cons.injEq, Option.some.injEq] at hwork
      omega
    rw [hothers p h2 h3, (bootSystem_some h₀).2] at hp
    have hp : (if decide (p = 1 ∨ p = 2) then some freshTask else none) = some task := hp
    split at hp
    · obtain rfl := Option.some.inj hp
      decide
    · cases hp
  have hok : AllMeet Act.exec Act.Fine sharedRun w₀ := by
    refine allMeet_cons h₁ ⟨s₀, hhandles⟩ ?_
    refine allMeet_cons h₂ (keeping_fine s₁ (fun _ he => by cases he) (fun _ _ => id) fun _ =>
      ⟨hfile.string, fun _ => rfl, 1, by decide, hbit₁⟩) ?_
    refine allMeet_cons h₃ (keeping_fine s₂ (fun _ he => by cases he) (fun _ _ => id) fun _ =>
      hfile) ?_
    refine allMeet_cons h₄ (keeping_fine s₃ (fun _ he => by cases he) (fun _ _ => id) fun _ =>
      ⟨by decide, fun _ => rfl, 2, by decide, hbit₂⟩) ?_
    refine allMeet_cons h₅ ⟨s₄, (fun _ he => by cases he), fun task hp => ?_⟩ ?_
    · have hnumber : ∀ n, dirRemoval.RemovesDir { w₄.kernel with cur := task } n → n = 2 := by
        rintro n ⟨record, u, hsearch, -⟩
        rw [hp, Option.bind_some] at hfound
        obtain ⟨r, hr, he⟩ := Option.map_eq_some_iff.mp hfound
        obtain rfl := Option.some.inj (hr.symm.trans hsearch)
        exact Option.some.inj he
      refine ⟨⟨dirRemoval_fine _, fun n hn a ha i hi hno => ?_⟩, fun n hn p' task' hp' => ?_⟩
      · -- only the root directory is open
        obtain rfl := hnumber n hn
        have hmem : (w₄.kernel.inodes a).map Inode.iNo ∈ [some 0] :=
          hopen ▸ List.mem_map_of_mem (f := fun a => (w₄.kernel.inodes a).map Inode.iNo) ha
        have hi : w₄.kernel.inodes a = some i := hi
        rw [hi, Option.map_some, List.mem_singleton, hno] at hmem
        cases hmem
      · rw [hnumber n hn]
        exact hwork p' task' hp'
    refine allMeet_cons h₆ (keeping_fine s₅ (fun _ he => by cases he) (fun _ _ => id) fun _ =>
      hfile) trivial
  exact ⟨w₀, w', h₀, hrun, hcwds, run_none_freed (by decide) h₀ hok hrun⟩

/-- The process works in `/d` and removes it. -/
theorem working_directory_freed : ∃ w w', smallBoot = some w ∧
    runAll Act.exec [.serve 2 (plainRequest (.mkdir dirPath)),
      .serve 2 (plainRequest (.chdir dirPath)), .serve 2 dirRemoval] w = some w' ∧
    (w'.procs 2).map Task.cwdInodeNr = some 1 ∧ w'.kernel.vol.inodeBit 1 = false ∧
    ¬NoneFreed w' := by
  have heval : (smallBoot.bind fun w => (runAll Act.exec
      [.serve 2 (plainRequest (.mkdir dirPath)), .serve 2 (plainRequest (.chdir dirPath)),
        .serve 2 dirRemoval] w).map fun w' =>
      ((w'.procs 2).map Task.cwdInodeNr, w'.kernel.vol.inodeBit 1)) = some (some 1, false) := by
    decide +kernel
  obtain ⟨w, hw, heval⟩ := Option.bind_eq_some_iff.mp heval
  obtain ⟨w', hrun, he⟩ := Option.map_eq_some_iff.mp heval
  obtain ⟨hcwd, hbit⟩ := Prod.mk.inj he
  refine ⟨w, w', hw, hrun, hcwd, hbit, fun hnone => ?_⟩
  obtain ⟨task, hp, hnumber⟩ := Option.map_eq_some_iff.mp hcwd
  have htaken := hnone.cwds 2 task hp
  rw [hnumber, hbit] at htaken
  cases htaken

end Small

end FsInodeUse
