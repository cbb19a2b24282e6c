import XianweiOS.FsHeapContext

/-! `sys_open` and `sys_close` of several processes. The inode that `file_create` allocates lies in
the heap of the process that calls it, and so only that process may follow the list of open inodes
while it is there: for another one the list leads into a page that is not there, or holds something
else. -/
namespace FsSingleWriter

open ByteStore HaltingProgram FsVolume FsPath FsSyscalls FsProcesses FsWriters FsHeapTrace
  FsHeapContext
open FsOpenFiles (Task writable)
open FsReferenceRuns (noJunk)

variable {part : Partition} {w w' : System part} {p : ℕ}

/-- `sys_open` and `sys_close` of process `p`. -/
inductive Call where
  | open (p : ℕ) (junk : Junk) (pathname : List Byte) (flags : ℕ)
  | close (p fd : ℕ)

def Call.exec : Call → System part → Option (System part)
  | .open p junk pathname flags, w => w.call p (Traced.sysOpen junk pathname flags)
  | .close p fd, w => w.call p (Traced.sysClose fd)

/-- Every open inode lies in the heap of the kernel or in that of process `p`. -/
def Sees (w : System part) (p : ℕ) : Prop :=
  ∀ a ∈ w.kernel.openInodes, w.inodeHome a = none ∨ w.inodeHome a = w.ctx p

/-- The caller reaches every open inode, a file is not created open for writing, and a slot that is
not open for writing is not closed while another one has its inode open for writing. -/
def Call.Fine : Call → System part → Prop
  | .open p _ _ flags, w => Sees w p ∧ (creates flags = true → writable flags = false)
  | .close p fd, w => Sees w p ∧ (2 < fd → ∀ t k a, w.procs p = some t → t.fdTable fd = some k →
    (w.kernel.fileTable k).fdInode = some a → writable (w.kernel.fileTable k).fdFlag = false →
    ∀ j, ¬Writes w.kernel j a)

theorem exec_guarded {c : Call} (hs : Guarded w.kernel) (hc : c.Fine w) (h : c.exec w = some w') :
    Guarded w'.kernel := by
  have hcur : ∀ t, Guarded { w.kernel with cur := t } := fun t =>
    ⟨hs.single, hs.denied, hs.below, hs.fresh⟩
  cases c with
  | «open» p junk pathname flags =>
    obtain ⟨⟨fd, u⟩, hcall, hu⟩ :=
      Option.map_eq_some_iff.mp (call_refines (sysOpen_refines junk pathname flags) h)
    obtain ⟨t, -, s, ho, rfl⟩ := call_some hcall
    rw [show w'.kernel = s from congrArg World.kernel hu.symm]
    exact sysOpen_guarded ho hc.2 (hcur t)
  | close p fd =>
    obtain ⟨⟨ret, u⟩, hcall, hu⟩ :=
      Option.map_eq_some_iff.mp (call_refines (sysClose_refines fd) h)
    obtain ⟨t, ht, s, hcl, rfl⟩ := call_some hcall
    rw [show w'.kernel = s from congrArg World.kernel hu.symm]
    refine sysClose_guarded hcl (fun hfd k a hk ha j hj => ?_) (hcur t)
    cases hw : writable (w.kernel.fileTable k).fdFlag with
    | false => exact absurd hj (hc.2 hfd t k a ht hk ha hw j)
    | true => exact hs.single a j k hj ⟨ha, hw⟩

theorem boot_guarded {v : Volume part} {mallocs : ℕ → Bool} {procs : ℕ → Option Task}
    {user : ℕ → Bool} (h : boot v mallocs procs user = some w) : Guarded w.kernel := by
  simp only [boot, FsHeapTrace.openRootDir, bind_some_iff, Option.pure_def, Option.some.injEq] at h
  obtain ⟨t, ⟨⟨a, t₁⟩, ho, rfl⟩, rfl⟩ := h
  have hplain := inodeOpen_refines _ _ _ _ ho
  have hs₁ := (mounted_guarded v mallocs).quiet (inodeOpen_quiet hplain)
  exact ⟨hs₁.single, hs₁.denied, hs₁.below, hs₁.fresh⟩

/-- From the mounted file system on, whatever descriptors the processes have: while the callers
reach the open inodes, no file is created open for writing and no reader closes beside a writer, an
inode has one writer. -/
theorem run_single_writer {v : Volume part} {mallocs : ℕ → Bool} {procs : ℕ → Option Task}
    {user : ℕ → Bool} {calls : List Call} (hb : boot v mallocs procs user = some w)
    (hc : AllMeet Call.exec Call.Fine calls w) (hr : runAll Call.exec calls w = some w') :
    SingleWriter w'.kernel :=
  (runAll_invariant (fun w : System part => Guarded w.kernel)
    (fun _ _ _ hw hok he => exec_guarded hw hok he) (boot_guarded hb) hc hr).single

/-- A condition that a run can be tested for: the slots that are closed are open for writing. -/
def Call.ClosesWriters : Call → System part → Prop
  | .open p _ _ flags, w => Sees w p ∧ (creates flags = true → writable flags = false)
  | .close p fd, w => Sees w p ∧ (w.procs p).any (fun t => (t.fdTable fd).any fun k =>
    writable (w.kernel.fileTable k).fdFlag) = true

instance (w : System part) (p : ℕ) : Decidable (Sees w p) := by
  unfold Sees
  infer_instance

instance (c : Call) (w : System part) : Decidable (c.ClosesWriters w) := by
  cases c <;> simp only [Call.ClosesWriters] <;> infer_instance

theorem Call.ClosesWriters.fine {c : Call} (h : c.ClosesWriters w) : c.Fine w := by
  cases c with
  | «open» p junk pathname flags => exact h
  | close p fd =>
    refine ⟨h.1, fun _ t k a ht hk _ hflag => ?_⟩
    have hw := h.2
    rw [ht, Option.any_some, hk, Option.any_some, hflag] at hw
    cases hw

/-- Thread 1 creates `/f`, process 2 opens it for writing, and thread 1 for reading; its next open
for writing is refused until process 2 has closed. -/
def fineCalls : List Call :=
  [.open 1 noJunk [slash, 0x66] 4, .open 2 noJunk [slash, 0x66] 1, .open 1 noJunk [slash, 0x66] 0,
    .open 1 noJunk [slash, 0x66] 1, .close 2 3, .open 1 noJunk [slash, 0x66] 2]

theorem run_single_writer_readers : ∃ w w', smallSystem = some w ∧
    runAll Call.exec fineCalls w = some w' ∧ (∃ k a, Writes w'.kernel k a) ∧
      SingleWriter w'.kernel := by
  have hrun : ((do
      let w ← smallSystem
      let w' ← runAll Call.exec fineCalls w
      return (decide (AllMeet Call.exec Call.ClosesWriters fineCalls w),
        (w'.kernel.fileTable 4).fdInode, writable (w'.kernel.fileTable 4).fdFlag)) :
      Option (Bool × Option ℕ × Bool)) = some (true, some 1, true) := by decide +kernel
  simp only [bind_some_iff, Option.pure_def, Option.some.injEq, Prod.mk.injEq] at hrun
  obtain ⟨w, hw, w', hr, hok, hinode, hflag⟩ := hrun
  have hfine := (of_decide_eq_true hok).mono fun _ _ => Call.ClosesWriters.fine
  have hboot := hw
  rw [smallSystem, bind_some_iff] at hboot
  obtain ⟨v, -, hboot⟩ := hboot
  exact ⟨w, w', hw, hr, ⟨4, 1, hinode, hflag⟩, run_single_writer hboot hfine hr⟩

/-- Process 2 creates `/f` open for writing and opens it for writing once more. -/
def createdTwice : List Call :=
  [.open 2 noJunk [slash, 0x66] 5, .open 2 noJunk [slash, 0x66] 1]

/-- Both get a slot that writes the inode, which lies in the heap of the process. -/
theorem created_file_has_two_writers : ∃ w w', smallSystem = some w ∧
    runAll Call.exec createdTwice w = some w' ∧ Sees w' 2 ∧ ¬SingleWriter w'.kernel := by
  have hrun : ((do
      let w ← smallSystem
      let w' ← runAll Call.exec createdTwice w
      return (decide (Sees w' 2), (w'.kernel.fileTable 3).fdInode, (w'.kernel.fileTable 4).fdInode,
        writable (w'.kernel.fileTable 3).fdFlag, writable (w'.kernel.fileTable 4).fdFlag)) :
      Option (Bool × Option ℕ × Option ℕ × Bool × Bool)) =
      some (true, some 1, some 1, true, true) := by decide +kernel
  simp only [bind_some_iff, Option.pure_def, Option.some.injEq, Prod.mk.injEq] at hrun
  obtain ⟨w, hw, w', hr, hsees, h3, h4, hw3, hw4⟩ := hrun
  refine ⟨w, w', hw, hr, of_decide_eq_true hsees, fun hx => ?_⟩
  exact absurd (hx 1 3 4 ⟨h3, hw3⟩ ⟨h4, hw4⟩) (by decide)

end FsSingleWriter
