import XianweiOS.SyncLock

/-! One channel of `device/ide.c`: threads in `ide_read` and `ide_write`, the channel's lock, its
semaphore `disk_done`, and `intr_hd_handler`, which may run between any two accesses of a thread.
Data and port registers are left out; what `busy_wait` returns is up to the disk. `ASSERT(lba)` in
`select_sector` and the `PANIC`s stop the machine. -/
namespace IdeChannel

open HaltingProgram

variable {T : Type} [DecidableEq T]

inductive Call where
  | ideRead
  | ideWrite
  deriving DecidableEq, Repr

/-- The access a thread makes next. `asleep` and `awake` are in `sema_down(&disk_done)`. -/
inductive Place where
  | idle
  | acquire
  | test
  | selectSector
  | setExpecting
  | command
  | down
  | asleep
  | awake
  | busyWait
  | transfer
  | advance
  | release
  deriving DecidableEq, Repr

structure Thread where
  place : Place
  call : Call
  lba : UInt32
  secCnt : UInt32
  secsDone : UInt32
  secsOp : UInt32
  deriving DecidableEq

/-- `commands`, `ups` and `downs` count the commands, the calls of `sema_up` and the completed
calls of `sema_down` on `disk_done`. The code keeps no such counts. -/
structure System (T : Type) where
  sync : SyncLock.System T
  expectingIntr : Bool
  diskDone : SyncLock.Semaphore T
  thread : T → Thread
  halted : Bool
  commands : ℕ
  ups : ℕ
  downs : ℕ

/-- After `ide_init`. -/
def System.initial : System T :=
  ⟨.initial, false, SyncLock.semaInit 0, fun _ => ⟨.idle, .ideRead, 0, 0, 0, 0⟩, false, 0, 0, 0⟩

def maxLba : UInt32 := 80 * 1024 * 1024 / 512 - 1

def System.put (s : System T) (t : T) (c : Thread) : System T :=
  { s with thread := Function.update s.thread t c }

@[simp] theorem System.put_self (s : System T) (t : T) (c : Thread) :
    (s.put t c).thread t = c := Function.update_self ..

theorem System.put_other {s : System T} {t u : T} {c : Thread} (h : u ≠ t) :
    (s.put t c).thread u = s.thread u := Function.update_of_ne h ..

theorem System.put_same (s : System T) (t : T) : s.put t (s.thread t) = s := by
  simp [System.put]

def System.goto (s : System T) (t : T) (p : Place) : System T :=
  s.put t { s.thread t with place := p }

@[simp] theorem System.goto_diskDone (s : System T) (t : T) (p : Place) :
    (s.goto t p).diskDone = s.diskDone := rfl

@[simp] theorem System.goto_downs (s : System T) (t : T) (p : Place) :
    (s.goto t p).downs = s.downs := rfl

@[simp] theorem System.goto_ups (s : System T) (t : T) (p : Place) :
    (s.goto t p).ups = s.ups := rfl

def System.halt (s : System T) : System T := { s with halted := true }

/-- How many sectors the next command moves. -/
def secsOp (secsDone secCnt : UInt32) : UInt32 :=
  if secsDone + 256 ≤ secCnt then 256 else secCnt - secsDone

/-- One test of `sema_down(&disk_done)`; `ide_read` waits for the interrupt before the transfer,
`ide_write` after it. -/
def diskDown (t : T) (s : System T) : Option (System T) := do
  let (x, passed) ← SyncLock.semaDown t s.diskDone
  let s := { s with diskDone := x }
  if passed then
    let next := match (s.thread t).call with
      | .ideRead => .busyWait
      | .ideWrite => .advance
    return { s.goto t next with downs := s.downs + 1 }
  else return s.goto t .asleep

/-- A step inside `lock_acquire` or `lock_release`; the call returns when the thread is out. -/
def lockStep (t : T) (after : Place) (s : System T) : Option (System T) := do
  let sync ← SyncLock.step t s.sync
  let s := { s with sync := sync }
  if (sync.thread t).place = .outside then return s.goto t after else return s

/-- `ready` is what `busy_wait` returns. -/
def step (t : T) (ready : Bool) (s : System T) : Option (System T) :=
  let c := s.thread t
  match c.place with
  | .idle | .asleep => some s
  | .acquire => lockStep t .test s
  | .test =>
    if c.secsDone < c.secCnt then
      some (s.put t { c with place := .selectSector, secsOp := secsOp c.secsDone c.secCnt })
    else do
      let sync ← SyncLock.exec (.release t) s.sync
      return { s.goto t .release with sync := sync }
  | .selectSector =>
    some (if c.lba + c.secsDone ≤ maxLba then s.goto t .setExpecting else s.halt)
  -- cmd_out
  | .setExpecting =>
    some { s.goto t .command with expectingIntr := true, commands := s.commands + 1 }
  | .command =>
    some (s.goto t (match c.call with
      | .ideRead => .down
      | .ideWrite => .busyWait))
  | .down | .awake => diskDown t s
  | .busyWait => some (if ready then s.goto t .transfer else s.halt)
  | .transfer =>
    some (s.goto t (match c.call with
      | .ideRead => .advance
      | .ideWrite => .down))
  | .advance => some (s.put t { c with place := .test, secsDone := c.secsDone + c.secsOp })
  | .release => lockStep t .idle s

/-- `thread_unblock` asserts that the thread it wakes is blocked. -/
def wake (a : Option T) (s : System T) : Option (System T) :=
  match a with
  | none => some s
  | some t => do
    assert ((s.thread t).place = .asleep)
    return s.goto t .awake

/-- Runs with interrupts off. -/
def intrHdHandler (s : System T) : Option (System T) :=
  if s.expectingIntr then do
    let s := { s with expectingIntr := false }
    let (x, a) ← SyncLock.semaUp s.diskDone
    wake a { s with diskDone := x, ups := s.ups + 1 }
  else some s

/-- The first two assertions of a call, and its `lock_acquire`. -/
def start (t : T) (call : Call) (lba secCnt : UInt32) (s : System T) : Option (System T) :=
  if lba ≤ maxLba ∧ 0 < secCnt then do
    let sync ← SyncLock.exec (.acquire t) s.sync
    return { s.put t ⟨.acquire, call, lba, secCnt, 0, 0⟩ with sync := sync }
  else some s.halt

inductive Event (T : Type) where
  | call (t : T) (call : Call) (lba secCnt : UInt32)
  | step (t : T) (ready : Bool)
  | interrupt

/-- `none` is a failed `ASSERT` of `thread/sync.c` or of `thread_unblock`. A thread that is in a
call does not start another, and a machine that stopped does nothing. -/
def exec (e : Event T) (s : System T) : Option (System T) :=
  if s.halted then some s
  else match e with
    | .call t call lba secCnt =>
      if (s.thread t).place = .idle then start t call lba secCnt s else some s
    | .step t ready => step t ready s
    | .interrupt => intrHdHandler s

/-- The thread gave a command and has not passed `sema_down`. -/
def Thread.Pending (c : Thread) : Prop :=
  c.place ∈ [.command, .down, .asleep, .awake] ∨
    (c.call = .ideWrite ∧ c.place ∈ [.busyWait, .transfer])

/-- What the lock knows of a thread. -/
def Linked (p : Place) (c : SyncLock.Thread) : Prop :=
  match p with
  | .idle => c = ⟨.outside, 0⟩
  | .acquire => c.Acquiring
  | .release => c.Releasing
  | _ => c = ⟨.outside, 1⟩

/-- No command is on its way. -/
structure Quiet (s : System T) : Prop where
  expecting : s.expectingIntr = false
  diskDone : s.diskDone = ⟨0, []⟩
  downs : s.downs = s.commands
  ups : s.ups = s.commands

/-- The command's interrupt has not come: nothing was counted up, and the thread may sleep. -/
structure Awaiting (s : System T) (t : T) : Prop where
  expecting : s.expectingIntr = true
  diskDone : s.diskDone = ⟨0, if (s.thread t).place = .asleep then [t] else []⟩
  place : (s.thread t).place ≠ .awake
  downs : s.downs + 1 = s.commands
  ups : s.ups + 1 = s.commands

/-- The command's interrupt has come. -/
structure Answered (s : System T) (t : T) : Prop where
  expecting : s.expectingIntr = false
  diskDone : s.diskDone = ⟨1, []⟩
  place : (s.thread t).place ≠ .asleep
  downs : s.downs + 1 = s.commands
  ups : s.ups = s.commands

structure Invariant (s : System T) : Prop where
  sync : SyncLock.Invariant s.sync
  linked : ∀ t, Linked (s.thread t).place (s.sync.thread t)
  quiet : (∀ t, ¬ (s.thread t).Pending) → Quiet s
  pending : ∀ t, (s.thread t).Pending → Awaiting s t ∨ Answered s t

section Rest

omit [DecidableEq T]

theorem initial_invariant : Invariant (System.initial : System T) := by
  have hno : ∀ t, ¬ ((System.initial : System T).thread t).Pending := by
    simp [System.initial, Thread.Pending]
  exact ⟨SyncLock.initial_invariant, fun _ => rfl, fun _ => ⟨rfl, rfl, rfl, rfl⟩,
    fun t ht => absurd ht (hno t)⟩

theorem Invariant.halt {s : System T} (h : Invariant s) : Invariant s.halt := by
  refine ⟨h.sync, h.linked, fun hno => ?_, fun t ht => ?_⟩
  · obtain ⟨he, hd, hdn, hup⟩ := h.quiet hno
    exact ⟨he, hd, hdn, hup⟩
  · rcases h.pending t ht with ⟨he, hd, hpl, hdn, hup⟩ | ⟨he, hd, hpl, hdn, hup⟩
    · exact .inl ⟨he, hd, hpl, hdn, hup⟩
    · exact .inr ⟨he, hd, hpl, hdn, hup⟩

end Rest

section Steps

variable {s : System T} {t : T} {c : Thread}

/-- A thread with a command holds the lock. -/
theorem Linked.of_pending {d : SyncLock.Thread} (h : Linked c.place d) (hp : c.Pending) :
    d = ⟨.outside, 1⟩ := by
  unfold Thread.Pending at hp
  unfold Linked at h
  cases hc : c.place <;> simp_all

theorem Invariant.alone (h : Invariant s) (ht : s.sync.thread t = ⟨.outside, 1⟩) {u : T}
    (hu : u ≠ t) : ¬ (s.thread u).Pending := by
  intro hp
  have hin := (h.linked u).of_pending hp
  exact hu (h.sync.exclusive.one_inside u t (by simp [SyncLock.Inside, hin])
    (by simp [SyncLock.Inside, ht]))

/-- Only a thread on its way into the lock sleeps for it. -/
theorem Linked.woken {p : Place} {d : SyncLock.Thread} (h : Linked p d) (hd : d.place = .asleep) :
    Linked p { d with place := .awake } := by
  have hacq : d.Acquiring → ({ d with place := .awake } : SyncLock.Thread).Acquiring :=
    fun ha => ⟨ha.1, by simp⟩
  cases p <;> simp_all [Linked, SyncLock.Thread.Releasing]

/-- A thread moves on and leaves `disk_done` alone. -/
theorem Invariant.move (h : Invariant s) {sync : SyncLock.System T}
    (hi : SyncLock.Invariant sync)
    (hs : ∀ u, u ≠ t → sync.thread u = s.sync.thread u ∨ ((s.sync.thread u).place = .asleep ∧
      sync.thread u = { s.sync.thread u with place := .awake }))
    (hl : Linked c.place (sync.thread t)) (hp : c.Pending ↔ (s.thread t).Pending)
    (hc : c.place ∉ [.asleep, .awake]) (ht : (s.thread t).place ∉ [.asleep, .awake]) :
    Invariant { s.put t c with sync := sync } := by
  simp only [List.mem_cons, List.not_mem_nil, or_false, not_or] at hc ht
  have hpend : ∀ u, ((s.put t c).thread u).Pending ↔ (s.thread u).Pending := by
    intro u
    by_cases hu : u = t
    · subst u
      rwa [System.put_self]
    · rw [System.put_other hu]
  refine ⟨hi, fun u => ?_, fun hno => ?_, fun u hu => ?_⟩
  · show Linked ((s.put t c).thread u).place (sync.thread u)
    by_cases hu : u = t
    · subst u
      rwa [System.put_self]
    · rw [System.put_other hu]
      rcases hs u hu with he | ⟨hasleep, hawake⟩
      · exact he ▸ h.linked u
      · exact hawake ▸ (h.linked u).woken hasleep
  · obtain ⟨he, hd, hdn, hup⟩ := h.quiet fun u => (hpend u).not.mp (hno u)
    exact ⟨he, hd, hdn, hup⟩
  · have hplace : ((s.put t c).thread u).place = .asleep ↔ (s.thread u).place = .asleep := by
      by_cases hut : u = t
      · subst u
        simp [hc.1, ht.1]
      · rw [System.put_other hut]
    have hawake : ((s.put t c).thread u).place = .awake ↔ (s.thread u).place = .awake := by
      by_cases hut : u = t
      · subst u
        simp [hc.2, ht.2]
      · rw [System.put_other hut]
    rcases h.pending u ((hpend u).mp hu) with ⟨he, hd, hpl, hdn, hup⟩ | ⟨he, hd, hpl, hdn, hup⟩
    · refine .inl ⟨he, ?_, hawake.not.mpr hpl, hdn, hup⟩
      show s.diskDone = _
      simp only [hd, hplace]
    · exact .inr ⟨he, hd, hplace.not.mpr hpl, hdn, hup⟩

/-- The same, outside the lock's functions. -/
theorem Invariant.walk (h : Invariant s) (hl : Linked c.place (s.sync.thread t))
    (hp : c.Pending ↔ (s.thread t).Pending) (hc : c.place ∉ [.asleep, .awake])
    (ht : (s.thread t).place ∉ [.asleep, .awake]) : Invariant (s.put t c) :=
  h.move h.sync (fun _ _ => .inl rfl) hl hp hc ht

/-- A step inside one of the two calls of the lock: the thread is out and goes on, or it is still
in. -/
theorem lockStep_total (h : Invariant s) {after : Place} {out : SyncLock.Thread}
    (hstep : ∀ sync, SyncLock.step t s.sync = some sync → sync.thread t = out ∨
      Linked (s.thread t).place (sync.thread t) ∧ (sync.thread t).place ≠ .outside)
    (hout : out.place = .outside) (hafter : Linked after out)
    (hpending : ({ s.thread t with place := after } : Thread).Pending ↔ (s.thread t).Pending)
    (hquiet : after ∉ [.asleep, .awake]) (hp : (s.thread t).place ∉ [.asleep, .awake]) :
    ∃ s', lockStep t after s = some s' ∧ Invariant s' := by
  obtain ⟨sync, hs, hi⟩ := SyncLock.step_total (t := t) h.sync
  have hothers := fun u hu => SyncLock.step_other (u := u) hs hu
  rcases hstep sync hs with rfl | ⟨hin, hne⟩
  · refine ⟨{ s.goto t after with sync := sync }, by simp [lockStep, hs, hout, System.goto,
      System.put], ?_⟩
    exact h.move hi hothers hafter hpending hquiet hp
  · refine ⟨{ s with sync := sync }, by simp [lockStep, hs, hne], ?_⟩
    have hmove := h.move (c := s.thread t) hi hothers hin Iff.rfl hp hp
    rwa [System.put_same] at hmove

theorem lockStep_acquire (h : Invariant s) (hp : (s.thread t).place = .acquire) :
    ∃ s', lockStep t .test s = some s' ∧ Invariant s' := by
  have hl : (s.sync.thread t).Acquiring := by simpa [Linked, hp] using h.linked t
  refine lockStep_total h (fun sync hs => ?_) rfl rfl (by simp [Thread.Pending, hp]) (by simp)
    (by simp [hp])
  rcases SyncLock.step_acquiring h.sync hs hl with hin | hacq
  · exact .inl hin
  · refine .inr ⟨by simpa [Linked, hp] using hacq, fun he => ?_⟩
    simpa [he] using hacq.2

theorem lockStep_release (h : Invariant s) (hp : (s.thread t).place = .release) :
    ∃ s', lockStep t .idle s = some s' ∧ Invariant s' := by
  have hl : (s.sync.thread t).Releasing := by simpa [Linked, hp] using h.linked t
  refine lockStep_total h (fun sync hs => ?_) rfl rfl (by simp [Thread.Pending, hp]) (by simp)
    (by simp [hp])
  rcases SyncLock.step_releasing h.sync hs hl with hout | hrel
  · exact .inl hout
  · refine .inr ⟨by simpa [Linked, hp] using hrel, fun he => ?_⟩
    simpa [he] using hrel.2

/-- Only the thread that gives a command touches the flag before its interrupt does. -/
theorem Invariant.expect (h : Invariant s) (hp : (s.thread t).place = .setExpecting) :
    Invariant { s.goto t .command with expectingIntr := true, commands := s.commands + 1 } := by
  have hin : s.sync.thread t = ⟨.outside, 1⟩ := by simpa [Linked, hp] using h.linked t
  have hno : ∀ u, ¬ (s.thread u).Pending := by
    intro u
    by_cases hu : u = t
    · subst u
      simp [Thread.Pending, hp]
    · exact h.alone hin hu
  obtain ⟨-, hd, hdn, hup⟩ := h.quiet hno
  refine ⟨h.sync, fun u => ?_, fun hnone => ?_, fun u hu => ?_⟩
  · show Linked ((s.goto t .command).thread u).place (s.sync.thread u)
    by_cases hu : u = t
    · subst u
      simpa [System.goto, Linked] using hin
    · simpa [System.goto, System.put_other hu] using h.linked u
  · exact absurd (show ((s.goto t .command).thread t).Pending by
      simp [System.goto, Thread.Pending]) (hnone t)
  · by_cases hut : u = t
    · subst u
      refine .inl ⟨rfl, ?_, by simp [System.goto], congrArg (· + 1) hdn, congrArg (· + 1) hup⟩
      simp [System.goto, System.put, hd]
    · have hold : (s.thread u).Pending := by
        simpa [System.goto, System.put_other hut] using hu
      exact absurd hold (hno u)

/-- `sema_down(&disk_done)` sleeps until the interrupt and passes after it. -/
theorem diskDown_total (h : Invariant s)
    (hp : (s.thread t).place = .down ∨ (s.thread t).place = .awake) :
    ∃ s', diskDown t s = some s' ∧ Invariant s' := by
  have hpend : (s.thread t).Pending := by
    rcases hp with hp | hp <;> simp [Thread.Pending, hp]
  have hin : s.sync.thread t = ⟨.outside, 1⟩ := (h.linked t).of_pending hpend
  have hlinked : ∀ p, (∀ d, d = ⟨.outside, 1⟩ → Linked p d) → ∀ u,
      Linked ((s.goto t p).thread u).place (s.sync.thread u) := by
    intro p hl u
    by_cases hu : u = t
    · subst u
      simpa [System.goto] using hl _ hin
    · simpa [System.goto, System.put_other hu] using h.linked u
  rcases h.pending t hpend with ⟨he, hd, hpl, hdn, hup⟩ | ⟨he, hd, hpl, hdn, hup⟩
  · -- the interrupt has not come
    have hdown : (s.thread t).place = .down := hp.resolve_right hpl
    have hd' : s.diskDone = ⟨0, []⟩ := by simpa [hdown] using hd
    refine ⟨{ s.goto t .asleep with diskDone := ⟨0, [t]⟩ }, by
      simp [diskDown, hd', SyncLock.semaDown, assert, System.goto, System.put], ?_⟩
    refine ⟨h.sync, hlinked .asleep fun _ hd => hd, fun hnone => ?_, fun u hu => ?_⟩
    · exact absurd (show ((s.goto t .asleep).thread t).Pending by
        simp [System.goto, Thread.Pending]) (hnone t)
    · by_cases hut : u = t
      · subst u
        exact .inl ⟨he, by simp [System.goto], by simp [System.goto], hdn, hup⟩
      · have hold : (s.thread u).Pending := by
          simpa [System.goto, System.put_other hut] using hu
        exact absurd hold (h.alone hin hut)
  · -- the interrupt has come
    obtain ⟨p, hnext, hnp, hpl⟩ : ∃ p, (match (s.thread t).call with
        | .ideRead => Place.busyWait
        | .ideWrite => Place.advance) = p ∧
        ¬ ({ s.thread t with place := p } : Thread).Pending ∧
        ∀ d, d = ⟨.outside, 1⟩ → Linked p d := by
      cases hc : (s.thread t).call with
      | ideRead => exact ⟨.busyWait, rfl, by simp [Thread.Pending, hc], fun _ hd => hd⟩
      | ideWrite => exact ⟨.advance, rfl, by simp [Thread.Pending], fun _ hd => hd⟩
    refine ⟨{ s.goto t p with diskDone := ⟨0, []⟩, downs := s.downs + 1 }, by
      simp [diskDown, hd, SyncLock.semaDown, assert, System.goto, System.put, ← hnext], ?_⟩
    refine ⟨h.sync, hlinked p hpl, fun _ => ⟨he, rfl, hdn, hup⟩, fun u hu => ?_⟩
    by_cases hut : u = t
    · subst u
      exact absurd (by simpa [System.goto] using hu) hnp
    · have hold : (s.thread u).Pending := by
        simpa [System.goto, System.put_other hut] using hu
      exact absurd hold (h.alone hin hut)

theorem step_total (h : Invariant s) (ready : Bool) :
    ∃ s', step t ready s = some s' ∧ Invariant s' := by
  have hl := h.linked t
  cases hp : (s.thread t).place with
  | idle => exact ⟨s, by simp [step, hp], h⟩
  | asleep => exact ⟨s, by simp [step, hp], h⟩
  | acquire => simpa [step, hp] using lockStep_acquire h hp
  | release => simpa [step, hp] using lockStep_release h hp
  | down => simpa [step, hp] using diskDown_total h (.inl hp)
  | awake => simpa [step, hp] using diskDown_total h (.inr hp)
  | setExpecting => exact ⟨_, by simp only [step, hp], h.expect hp⟩
  | test =>
    simp only [hp, Linked] at hl
    by_cases hmore : (s.thread t).secsDone < (s.thread t).secCnt
    · refine ⟨_, by simp only [step, hp, hmore, ↓reduceIte]; rfl, ?_⟩
      exact h.walk hl (by simp [Thread.Pending, hp]) (by simp) (by simp [hp])
    · have hen : SyncLock.Enabled (.release t) s.sync := by simp [SyncLock.Enabled, hl]
      obtain ⟨sync, hs, hi⟩ := SyncLock.exec_total (e := .release t) h.sync ⟨hen, trivial⟩
      have hset : sync = s.sync.set s.sync.lock t ⟨.assertHolder, 0⟩ := by
        simpa [SyncLock.exec, hl] using (Option.some.inj hs).symm
      refine ⟨{ s.goto t .release with sync := sync }, by simp [step, hp, hmore, hs], ?_⟩
      refine h.move hi (fun u hu => ?_) ?_ (by simp [Thread.Pending, hp]) (by simp) (by simp [hp])
      · left
        rw [hset, SyncLock.System.set_other hu]
      · simp [Linked, SyncLock.Thread.Releasing, hset]
  | selectSector =>
    simp only [hp, Linked] at hl
    refine ⟨_, by simp only [step, hp]; rfl, ?_⟩
    split
    · exact h.walk hl (by simp [Thread.Pending, hp]) (by simp) (by simp [hp])
    · exact h.halt
  | command =>
    simp only [hp, Linked] at hl
    refine ⟨_, by simp only [step, hp]; rfl, ?_⟩
    cases hc : (s.thread t).call <;>
      exact h.walk hl (by simp [Thread.Pending, hp, hc]) (by simp) (by simp [hp])
  | busyWait =>
    simp only [hp, Linked] at hl
    refine ⟨_, by simp only [step, hp]; rfl, ?_⟩
    cases ready with
    | true => exact h.walk hl (by simp [Thread.Pending, hp]) (by simp) (by simp [hp])
    | false => exact h.halt
  | transfer =>
    simp only [hp, Linked] at hl
    refine ⟨_, by simp only [step, hp]; rfl, ?_⟩
    cases hc : (s.thread t).call <;>
      exact h.walk hl (by simp [Thread.Pending, hp, hc]) (by simp) (by simp [hp])
  | advance =>
    simp only [hp, Linked] at hl
    refine ⟨_, by simp only [step, hp]; rfl, ?_⟩
    exact h.walk hl (by simp [Thread.Pending, hp]) (by simp) (by simp [hp])

/-- An interrupt that nobody expects does nothing; an expected one finds the count at 0. -/
theorem intrHdHandler_total (h : Invariant s) :
    ∃ s', intrHdHandler s = some s' ∧ Invariant s' := by
  by_cases he : s.expectingIntr = true
  · obtain ⟨t, ht⟩ : ∃ t, (s.thread t).Pending := by
      by_contra hno
      have hq := h.quiet fun u hu => hno ⟨u, hu⟩
      rw [hq.expecting] at he
      cases he
    have hin : s.sync.thread t = ⟨.outside, 1⟩ := (h.linked t).of_pending ht
    obtain ⟨-, hd, hpl, hdn, hup⟩ : Awaiting s t := by
      refine (h.pending t ht).resolve_right fun ha => ?_
      rw [ha.expecting] at he
      cases he
    by_cases hs : (s.thread t).place = .asleep
    · -- the thread sleeps and is woken
      have hd' : s.diskDone = ⟨0, [t]⟩ := by simpa [hs] using hd
      refine ⟨{ s.goto t .awake with
        expectingIntr := false, diskDone := ⟨1, []⟩, ups := s.ups + 1 }, by
        simp [intrHdHandler, he, SyncLock.semaUp, hd', assert, wake, hs, System.goto, System.put],
        ?_⟩
      refine ⟨h.sync, fun u => ?_, fun hnone => ?_, fun u hu => ?_⟩
      · show Linked ((s.goto t .awake).thread u).place (s.sync.thread u)
        by_cases hu : u = t
        · subst u
          simpa [System.goto, Linked] using hin
        · simpa [System.goto, System.put_other hu] using h.linked u
      · exact absurd (show ((s.goto t .awake).thread t).Pending by
          simp [System.goto, Thread.Pending]) (hnone t)
      · by_cases hut : u = t
        · subst u
          exact .inr ⟨rfl, rfl, by simp [System.goto], hdn, hup⟩
        · have hold : (s.thread u).Pending := by
            simpa [System.goto, System.put_other hut] using hu
          exact absurd hold (h.alone hin hut)
    · -- the thread has not come to its test
      have hd' : s.diskDone = ⟨0, []⟩ := by simpa [hs] using hd
      refine ⟨{ s with expectingIntr := false, diskDone := ⟨1, []⟩, ups := s.ups + 1 }, by
        simp [intrHdHandler, he, SyncLock.semaUp, hd', assert, wake], ?_⟩
      refine ⟨h.sync, h.linked, fun hnone => absurd ht (hnone t), fun u hu => ?_⟩
      by_cases hut : u = t
      · subst u
        exact .inr ⟨rfl, rfl, hs, hdn, hup⟩
      · exact absurd hu (h.alone hin hut)
  · exact ⟨s, by simp [intrHdHandler, he], h⟩

theorem start_total (h : Invariant s) (hp : (s.thread t).place = .idle) (call : Call)
    (lba secCnt : UInt32) : ∃ s', start t call lba secCnt s = some s' ∧ Invariant s' := by
  by_cases hok : lba ≤ maxLba ∧ 0 < secCnt
  · have hl : s.sync.thread t = ⟨.outside, 0⟩ := by simpa [hp, Linked] using h.linked t
    have hen : SyncLock.Enabled (.acquire t) s.sync := by simp [SyncLock.Enabled, hl]
    obtain ⟨sync, hs, hi⟩ := SyncLock.exec_total (e := .acquire t) h.sync
      ⟨hen, by simp [SyncLock.Shallow, hl]⟩
    have hset : sync = s.sync.set s.sync.lock t ⟨.testHolder, 0⟩ := by
      simpa [SyncLock.exec, SyncLock.System.goto, hl] using (Option.some.inj hs).symm
    refine ⟨{ s.put t ⟨.acquire, call, lba, secCnt, 0, 0⟩ with sync := sync }, by
      simp [start, hok, hs], ?_⟩
    refine h.move hi (fun u hu => ?_) ?_ (by simp [Thread.Pending, hp]) (by simp) (by simp [hp])
    · left
      rw [hset, SyncLock.System.set_other hu]
    · simp [Linked, SyncLock.Thread.Acquiring, hset]
  · exact ⟨s.halt, by rw [start, if_neg hok], h.halt⟩

theorem exec_total (h : Invariant s) (e : Event T) : ∃ s', exec e s = some s' ∧ Invariant s' := by
  unfold exec
  split
  · exact ⟨s, rfl, h⟩
  · cases e with
    | step t ready => exact step_total h ready
    | interrupt => exact intrHdHandler_total h
    | call t call lba secCnt =>
      dsimp only
      split
      · next hp => exact start_total h hp call lba secCnt
      · exact ⟨s, rfl, h⟩

end Steps

/-- What commands, interrupts and `disk_done` have to do with each other. While a thread has a
command, the next `sema_down` to complete is its own, and it is the one that goes with the command;
the `sema_up` for it has come or not. Otherwise as many were counted up as commands were given, and
as many down. -/
structure Handshake (s : System T) : Prop where
  value_le_one : s.diskDone.value ≤ 1
  lock_free : s.sync.lock.semaphore.value = 1 ∨ s.sync.lock.holder = none → s.diskDone.value = 0
  expecting : s.expectingIntr → s.diskDone.value = 0
  one_up : ∀ t, (s.thread t).Pending → s.downs + 1 = s.commands ∧
    (s.ups = s.downs ∧ s.expectingIntr ∨ s.ups = s.commands ∧ ¬ s.expectingIntr)
  settled : (∀ t, ¬ (s.thread t).Pending) → s.ups = s.commands ∧ s.downs = s.commands

theorem Invariant.handshake {s : System T} (h : Invariant s) : Handshake s := by
  have hquiet : (∀ t, ¬ (s.thread t).Pending) → s.diskDone.value = 0 := by
    intro hno
    rw [(h.quiet hno).diskDone]
  refine ⟨?_, fun hfree => hquiet fun t ht => ?_, fun he => ?_, fun t ht => ?_, fun hno => ?_⟩
  · by_cases hno : ∀ t, ¬ (s.thread t).Pending
    · rw [hquiet hno]
      exact Nat.zero_le 1
    · obtain ⟨t, ht⟩ := not_forall_not.mp hno
      rcases h.pending t ht with ha | ha <;> simp [ha.diskDone]
  · -- a thread with a command keeps the lock
    have hin := (h.linked t).of_pending ht
    have hinside : SyncLock.Inside s.sync t := by simp [SyncLock.Inside, hin]
    have hh := h.sync.exclusive.holder_inside t hinside
    have hnone : s.sync.lock.holder = none := by
      rcases hfree with hv | hn
      · exact (h.sync.exclusive.free hv).1
      · exact hn
    rw [hnone] at hh
    cases hh
  · by_cases hno : ∀ t, ¬ (s.thread t).Pending
    · exact hquiet hno
    · obtain ⟨t, ht⟩ := not_forall_not.mp hno
      rcases h.pending t ht with ha | ha
      · rw [ha.diskDone]
      · rw [ha.expecting] at he
        cases he
  · rcases h.pending t ht with ha | ha
    · exact ⟨ha.downs, .inl ⟨Nat.succ.inj (ha.ups.trans ha.downs.symm), ha.expecting⟩⟩
    · exact ⟨ha.downs, .inr ⟨ha.ups, by simp [ha.expecting]⟩⟩
  · exact ⟨(h.quiet hno).ups, (h.quiet hno).downs⟩

theorem run_handshake (l : List (Event T)) :
    ∃ s, runAll exec l (System.initial : System T) = some s ∧ Handshake s := by
  have hall : AllMeet exec (fun (_ : Event T) _ => True) l System.initial :=
    allMeet_of_forall fun _ _ _ => trivial
  obtain ⟨s, hr, hi⟩ := runAll_total Invariant (fun e s hi _ => exec_total hi e)
    initial_invariant hall
  exact ⟨s, hr, hi.handshake⟩

end IdeChannel
