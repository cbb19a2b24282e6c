import XianweiOS.ThreadScheduler

/-! The invariant of the scheduler. A task's status says which list its tag is on: a ready task
is on the ready list, and a task on a waiter list or waiting for a ring buffer is blocked. `idle`
is on no waiter list, so it is blocked whenever no task is ready or running. -/
namespace ThreadInvariant

open ThreadScheduler

section Outcomes

variable {α β : Type} {P : α → Prop} {Q : β → Prop}

/-- The step ends with `P`, or the machine stops elsewhere than at one of the assertions. -/
def Holds (P : α → Prop) : Except Fault α → Prop
  | .ok a => P a
  | .error f => f = .halt

theorem Holds.bind {x : Except Fault α} {f : α → Except Fault β} (hx : Holds P x)
    (hf : ∀ a, P a → Holds Q (f a)) : Holds Q (x >>= f) := by
  cases x with
  | error e => exact hx
  | ok a => exact hf a hx

theorem ok_bind (a : α) (f : α → Except Fault β) : (Except.ok a >>= f) = f a := rfl

theorem holds_check {p : Prop} [Decidable p] (h : p) : Holds (fun _ => p) (check p) := by
  rw [check, if_pos h]
  exact h

theorem holds_demand (p : Prop) [Decidable p] : Holds (fun _ => p) (demand p) := by
  rw [demand]
  split
  · assumption
  · rfl

theorem holds_task (s : State) (a : ℕ) : Holds (fun t => s.tasks a = some t) (s.task a) := by
  rw [State.task]
  split
  · rfl
  · assumption

end Outcomes

/-- The task at `a` has this status. -/
def Is (s : State) (a : ℕ) (st : TaskStatus) : Prop := ∃ t, s.tasks a = some t ∧ t.status = st

theorem Is.unique {s : State} {a : ℕ} {st st' : TaskStatus} (h : Is s a st) (h' : Is s a st') :
    st = st' := by
  obtain ⟨t, ht, rfl⟩ := h
  obtain ⟨t', ht', rfl⟩ := h'
  obtain rfl := Option.some.inj (ht.symm.trans ht')
  rfl

/-- Every status goes with the list a task is on, whether or not a task is running. -/
structure Core (s : State) : Prop where
  runs : ∀ a, Is s a .running → a = s.cur
  nodup : s.threadReadyList.Nodup
  ready : ∀ a, a ∈ s.threadReadyList ↔ Is s a .ready
  queued : ∀ i, (s.semas i).waiters.Nodup
  waits : ∀ i, ∀ a ∈ (s.semas i).waiters, a ≠ s.idleThread ∧ Is s a .blocked
  apart : ∀ i j a, a ∈ (s.semas i).waiters → a ∈ (s.semas j).waiters → i = j
  buffer : ∀ w a, s.waiter w = some a → a ≠ s.idleThread ∧ Is s a .blocked ∧
    ∀ i, a ∉ (s.semas i).waiters
  single : ∀ w w' a, s.waiter w = some a → s.waiter w' = some a → w = w'
  idle : Is s s.idleThread .running ∨ Is s s.idleThread .ready ∨ Is s s.idleThread .blocked
  binary : ∀ i, (s.semas i).value ≤ 1

/-- The invariant between two steps: the current task is running. -/
structure Sched (s : State) : Prop extends Core s where
  current : Is s s.cur .running

/-- The tag of `a` is on no list, and nobody is going to wake `a`. -/
structure Free (s : State) (a : ℕ) : Prop where
  notReady : a ∉ s.threadReadyList
  notQueued : ∀ i, a ∉ (s.semas i).waiters
  notAwaited : ∀ w, s.waiter w ≠ some a

section Moves

variable {s : State} {a : ℕ} {st : TaskStatus}

theorem Core.free (h : Core s) (ha : Is s a st) (hr : st ≠ .ready) (hb : st ≠ .blocked) :
    Free s a := by
  refine ⟨fun hm => ?_, fun i hm => ?_, fun w hw => ?_⟩
  · exact hr (ha.unique ((h.ready a).mp hm))
  · exact hb (ha.unique (h.waits i a hm).2)
  · exact hb (ha.unique (h.buffer w a hw).2.1)

theorem Core.flags (h : Core s) (intr : Bool) (saved : ℕ → Bool) :
    Core { s with intr := intr, saved := saved } :=
  ⟨h.runs, h.nodup, h.ready, h.queued, h.waits, h.apart, h.buffer, h.single, h.idle, h.binary⟩

theorem is_setTask {t : TaskStruct} {b : ℕ} {st : TaskStatus} :
    Is (s.setTask a t) b st ↔ (b = a ∧ t.status = st) ∨ (b ≠ a ∧ Is s b st) := by
  by_cases hb : b = a
  · subst b
    simp [Is]
  · simp [Is, setTask_ne s t hb, hb]

/-- A task that is on no list gets a status that belongs to none. -/
theorem Core.setTask (h : Core s) (hf : Free s a) {t : TaskStruct}
    (hrun : t.status = .running → a = s.cur) (hr : t.status ≠ .ready)
    (hi : a = s.idleThread → t.status = .running ∨ t.status = .blocked) : Core (s.setTask a t) := by
  constructor
  · intro b hb
    rcases is_setTask.mp hb with ⟨rfl, ht⟩ | ⟨-, hb⟩
    · exact hrun ht
    · exact h.runs b hb
  · exact h.nodup
  · intro b
    rw [is_setTask, ← h.ready b]
    constructor
    · intro hm
      refine Or.inr ⟨?_, hm⟩
      rintro rfl
      exact hf.notReady hm
    · rintro (⟨-, ht⟩ | ⟨-, hm⟩)
      · exact absurd ht hr
      · exact hm
  · exact h.queued
  · intro i b hm
    obtain ⟨hne, hb⟩ := h.waits i b hm
    refine ⟨hne, is_setTask.mpr (Or.inr ⟨?_, hb⟩)⟩
    rintro rfl
    exact hf.notQueued i hm
  · exact h.apart
  · intro w b hw
    obtain ⟨hne, hb, hno⟩ := h.buffer w b hw
    refine ⟨hne, is_setTask.mpr (Or.inr ⟨?_, hb⟩), hno⟩
    rintro rfl
    exact hf.notAwaited w hw
  · exact h.single
  · simp only [is_setTask]
    by_cases ha : s.idleThread = a
    · rcases hi ha.symm with ht | ht
      · exact Or.inl (Or.inl ⟨ha, ht⟩)
      · exact Or.inr (Or.inr (Or.inl ⟨ha, ht⟩))
    · rcases h.idle with hs | hs | hs
      · exact Or.inl (Or.inr ⟨ha, hs⟩)
      · exact Or.inr (Or.inl (Or.inr ⟨ha, hs⟩))
      · exact Or.inr (Or.inr (Or.inr ⟨ha, hs⟩))
  · exact h.binary

/-- A task that is on no list goes to the ready list. -/
theorem Core.toReady (h : Core s) (hf : Free s a) {t : TaskStruct} (ht : t.status = .ready)
    {l : List ℕ} (hl : l.Nodup) (hm : ∀ b, b ∈ l ↔ b = a ∨ b ∈ s.threadReadyList) :
    Core { s.setTask a t with threadReadyList := l } := by
  have his : ∀ b st, Is { s.setTask a t with threadReadyList := l } b st ↔
      (b = a ∧ st = .ready) ∨ (b ≠ a ∧ Is s b st) := by
    intro b st
    rw [show Is { s.setTask a t with threadReadyList := l } b st ↔ Is (s.setTask a t) b st from
      Iff.rfl, is_setTask, ht, eq_comm (a := TaskStatus.ready)]
  constructor
  · intro b hb
    rcases (his b _).mp hb with ⟨-, hc⟩ | ⟨-, hb⟩
    · cases hc
    · exact h.runs b hb
  · exact hl
  · intro b
    rw [his, hm]
    by_cases hb : b = a
    · simp [hb]
    · simp [hb, h.ready b]
  · exact h.queued
  · intro i b hb
    obtain ⟨hne, hs⟩ := h.waits i b hb
    refine ⟨hne, (his b _).mpr (Or.inr ⟨?_, hs⟩)⟩
    rintro rfl
    exact hf.notQueued i hb
  · exact h.apart
  · intro w b hw
    obtain ⟨hne, hs, hno⟩ := h.buffer w b hw
    refine ⟨hne, (his b _).mpr (Or.inr ⟨?_, hs⟩), hno⟩
    rintro rfl
    exact hf.notAwaited w hw
  · exact h.single
  · simp only [his]
    by_cases ha : s.idleThread = a
    · exact Or.inr (Or.inl (Or.inl ⟨ha, trivial⟩))
    · rcases h.idle with hs | hs | hs
      · exact Or.inl (Or.inr ⟨ha, hs⟩)
      · exact Or.inr (Or.inl (Or.inr ⟨ha, hs⟩))
      · exact Or.inr (Or.inr (Or.inr ⟨ha, hs⟩))
  · exact h.binary

theorem Core.append (h : Core s) (hf : Free s a) {t : TaskStruct} (ht : t.status = .ready) :
    Core { s.setTask a t with threadReadyList := s.threadReadyList ++ [a] } := by
  refine h.toReady hf ht (List.nodup_append_comm.mp (List.nodup_cons.mpr ⟨hf.notReady, h.nodup⟩))
    fun b => ?_
  rw [List.mem_append, List.mem_singleton, or_comm]

/-- A blocked task that nobody is going to wake becomes a waiter of a semaphore. -/
theorem Core.enqueue (h : Core s) (hf : Free s a) (ha : Is s a .blocked) (hi : a ≠ s.idleThread)
    (i : ℕ) : Core (s.setSema i { s.semas i with waiters := (s.semas i).waiters ++ [a] }) := by
  have hmem : ∀ j b, b ∈ ((s.setSema i { s.semas i with
      waiters := (s.semas i).waiters ++ [a] }).semas j).waiters ↔
      (j = i ∧ b = a) ∨ b ∈ (s.semas j).waiters := by
    intro j b
    by_cases hj : j = i
    · subst j
      simp [or_comm]
    · simp [setSema_ne s _ hj, hj]
  refine ⟨h.runs, h.nodup, h.ready, fun j => ?_, fun j b hb => ?_, fun j j' b hb hb' => ?_,
    fun w b hw => ?_, h.single, h.idle, fun j => ?_⟩
  · by_cases hj : j = i
    · subst j
      rw [setSema_self]
      exact List.nodup_append_comm.mp (List.nodup_cons.mpr ⟨hf.notQueued i, h.queued i⟩)
    · rw [setSema_ne s _ hj]
      exact h.queued j
  · rcases (hmem j b).mp hb with ⟨-, rfl⟩ | hb
    · exact ⟨hi, ha⟩
    · exact h.waits j b hb
  · rcases (hmem j b).mp hb with ⟨rfl, rfl⟩ | h1
    · rcases (hmem j' b).mp hb' with ⟨rfl, -⟩ | h2
      · rfl
      · exact absurd h2 (hf.notQueued j')
    · rcases (hmem j' b).mp hb' with ⟨rfl, rfl⟩ | h2
      · exact absurd h1 (hf.notQueued j)
      · exact h.apart j j' b h1 h2
  · obtain ⟨hne, hs, hno⟩ := h.buffer w b hw
    refine ⟨hne, hs, fun j hb => ?_⟩
    rcases (hmem j b).mp hb with ⟨-, rfl⟩ | hb
    · exact hf.notAwaited w hw
    · exact hno j hb
  · by_cases hj : j = i
    · rw [hj, setSema_self]
      exact h.binary i
    · rw [setSema_ne s _ hj]
      exact h.binary j

/-- Waiters leave a semaphore, and its value changes. -/
theorem Core.dequeue (h : Core s) {i v : ℕ} {l : List ℕ} (hl : l.Sublist (s.semas i).waiters)
    (hv : v ≤ 1) : Core (s.setSema i ⟨v, l⟩) := by
  have hmem : ∀ j b, b ∈ ((s.setSema i ⟨v, l⟩).semas j).waiters → b ∈ (s.semas j).waiters := by
    intro j b hb
    by_cases hj : j = i
    · subst j
      rw [setSema_self] at hb
      exact hl.subset hb
    · rwa [setSema_ne s _ hj] at hb
  refine ⟨h.runs, h.nodup, h.ready, fun j => ?_, fun j b hb => h.waits j b (hmem j b hb),
    fun j j' b hb hb' => h.apart j j' b (hmem j b hb) (hmem j' b hb'), fun w b hw => ?_, h.single,
    h.idle, fun j => ?_⟩
  · by_cases hj : j = i
    · rw [hj, setSema_self]
      exact hl.nodup (h.queued i)
    · rw [setSema_ne s _ hj]
      exact h.queued j
  · obtain ⟨hne, hs, hno⟩ := h.buffer w b hw
    exact ⟨hne, hs, fun j hb => hno j (hmem j b hb)⟩
  · by_cases hj : j = i
    · subst j
      rw [setSema_self]
      exact hv
    · rw [setSema_ne s _ hj]
      exact h.binary j

/-- A blocked task that nobody is going to wake becomes the waiter of a ring buffer. -/
theorem Core.await (h : Core s) (hf : Free s a) (ha : Is s a .blocked) (hi : a ≠ s.idleThread)
    (w : ℕ) : Core { s with waiter := Function.update s.waiter w (some a) } := by
  have hcases : ∀ w' b, Function.update s.waiter w (some a) w' = some b →
      (w' = w ∧ b = a) ∨ s.waiter w' = some b := by
    intro w' b hb
    by_cases hw' : w' = w
    · subst w'
      rw [Function.update_self] at hb
      exact Or.inl ⟨rfl, (Option.some.inj hb).symm⟩
    · rw [Function.update_of_ne hw'] at hb
      exact Or.inr hb
  refine ⟨h.runs, h.nodup, h.ready, h.queued, h.waits, h.apart, fun w' b hb => ?_,
    fun w1 w2 b h1 h2 => ?_, h.idle, h.binary⟩
  · rcases hcases w' b hb with ⟨-, rfl⟩ | hb
    · exact ⟨hi, ha, hf.notQueued⟩
    · exact h.buffer w' b hb
  · rcases hcases w1 b h1 with ⟨rfl, rfl⟩ | h1'
    · rcases hcases w2 b h2 with ⟨rfl, -⟩ | h2'
      · rfl
      · exact absurd h2' (hf.notAwaited w2)
    · rcases hcases w2 b h2 with ⟨rfl, rfl⟩ | h2'
      · exact absurd h1' (hf.notAwaited w1)
      · exact h.single w1 w2 b h1' h2'

/-- The waiter of a ring buffer is taken out. -/
theorem Core.unawait (h : Core s) (w : ℕ) :
    Core { s with waiter := Function.update s.waiter w none } := by
  have hsub : ∀ w' b, Function.update s.waiter w none w' = some b → s.waiter w' = some b := by
    intro w' b hb
    by_cases hw' : w' = w
    · rw [hw', Function.update_self] at hb
      cases hb
    · rwa [Function.update_of_ne hw'] at hb
  exact ⟨h.runs, h.nodup, h.ready, h.queued, h.waits, h.apart,
    fun w' b hb => h.buffer w' b (hsub w' b hb),
    fun w1 w2 b h1 h2 => h.single w1 w2 b (hsub w1 b h1) (hsub w2 b h2), h.idle, h.binary⟩

end Moves

section Steps

variable {s : State} {a : ℕ}

/-- The assertions of `thread_unblock` hold for a task that is blocked in some way. -/
theorem threadUnblock_eq {t : TaskStruct} (ht : s.tasks a = some t)
    (hst : t.status = .blocked ∨ t.status = .hanging ∨ t.status = .waiting)
    (hr : a ∉ s.threadReadyList) :
    threadUnblock a s = .ok { s.setTask a { t with status := .ready } with
      threadReadyList := a :: s.threadReadyList } := by
  have hne : t.status ≠ .ready := by
    rcases hst with h | h | h <;> rw [h] <;> decide
  have htask : s.task a = .ok t := by rw [State.task, ht]
  simp only [threadUnblock, htask, ok_bind, check, if_pos hst, if_pos hne, if_pos hr]
  rfl

theorem threadUnblock_core (h : Core s) (hf : Free s a) {st : TaskStatus} (ha : Is s a st)
    (hst : st = .blocked ∨ st = .hanging ∨ st = .waiting) :
    ∃ s', threadUnblock a s = .ok s' ∧ Core s' ∧ Is s' a .ready ∧ s'.cur = s.cur ∧
      s'.threadReadyList = a :: s.threadReadyList ∧ s'.waiter = s.waiter ∧ s'.semas = s.semas ∧
      s'.idleThread = s.idleThread ∧ s'.intr = s.intr ∧
      ∀ b st', b ≠ a → (Is s' b st' ↔ Is s b st') := by
  obtain ⟨t, ht, rfl⟩ := ha
  refine ⟨_, threadUnblock_eq ht hst hf.notReady, ?_, ?_, rfl, rfl, rfl, rfl, rfl, rfl,
    fun b st' hb => ?_⟩
  · exact h.toReady hf rfl (List.nodup_cons.mpr ⟨hf.notReady, h.nodup⟩) fun b => List.mem_cons
  · exact ⟨_, setTask_self s a _, rfl⟩
  · refine is_setTask.trans ⟨?_, fun hs => Or.inr ⟨hb, hs⟩⟩
    rintro (⟨he, -⟩ | ⟨-, hs⟩)
    · exact absurd he hb
    · exact hs

/-- After the current task has been parked nothing is running. -/
theorem schedulePark_holds (h : Core s) :
    Holds (fun s' => Core s' ∧ ∀ b, ¬Is s' b .running) (schedulePark s) := by
  rw [schedulePark]
  refine (holds_task s s.cur).bind fun t ht => ?_
  split
  · rename_i hrun
    have hf := h.free ⟨t, ht, hrun⟩ (by decide) (by decide)
    refine (holds_check hf.notReady).bind fun _ _ => ?_
    refine ⟨h.append hf rfl, fun b hb => ?_⟩
    rcases is_setTask.mp (show Is (s.setTask s.cur _) b .running from hb) with ⟨-, hc⟩ | ⟨hne, hb⟩
    · cases hc
    · exact hne (h.runs b hb)
  · rename_i hrun
    refine ⟨h, fun b hb => ?_⟩
    obtain rfl := h.runs b hb
    obtain ⟨t', ht', hst⟩ := hb
    obtain rfl := Option.some.inj (ht.symm.trans ht')
    exact hrun hst

/-- When no task is ready, `idle` is blocked. -/
theorem idle_blocked (h : Core s) (hno : ∀ b, ¬Is s b .running) (he : s.threadReadyList = []) :
    Is s s.idleThread .blocked := by
  rcases h.idle with hi | hi | hi
  · exact absurd hi (hno _)
  · have := (h.ready _).mpr hi
    rw [he] at this
    cases this
  · exact hi

theorem scheduleIdle_holds (h : Core s) (hno : ∀ b, ¬Is s b .running) :
    Holds (fun s' => Core s' ∧ (∀ b, ¬Is s' b .running) ∧ s'.threadReadyList ≠ [])
      (scheduleIdle s) := by
  rw [scheduleIdle]
  split
  · rename_i he
    have hb := idle_blocked h hno he
    have hf : Free s s.idleThread := by
      refine ⟨?_, fun i hm => (h.waits i _ hm).1 rfl, fun w hw => (h.buffer w _ hw).1 rfl⟩
      rw [he]
      exact List.not_mem_nil
    obtain ⟨s', hs', hc, hr, -, hl, -, -, -, -, hother⟩ :=
      threadUnblock_core h hf hb (Or.inl rfl)
    rw [hs']
    refine ⟨hc, fun b hbr => ?_, ?_⟩
    · by_cases hbi : b = s.idleThread
      · subst b
        exact absurd (hbr.unique hr) (by decide)
      · exact hno b ((hother b _ hbi).mp hbr)
    · rw [hl]
      exact List.cons_ne_nil _ _
  · rename_i he
    exact ⟨h, hno, he⟩

theorem switchTo_holds (h : Core s) (hno : ∀ b, ¬Is s b .running) (hne : s.threadReadyList ≠ []) :
    Holds Sched (switchTo s) := by
  rw [switchTo]
  split
  · rename_i he
    exact absurd he hne
  · rename_i next rest hl
    have hnd := h.nodup
    rw [hl, List.nodup_cons] at hnd
    have hready : Is s next .ready := (h.ready next).mp (by rw [hl]; exact List.mem_cons_self)
    refine (holds_task s next).bind fun t ht => ?_
    have his : ∀ b st, Is (s.setTask next { t with status := .running }) b st ↔
        (b = next ∧ TaskStatus.running = st) ∨ (b ≠ next ∧ Is s b st) := fun b st => is_setTask
    -- as a blocked task the next one would be on another list
    have hnb : ∀ b, Is s b .blocked → b ≠ next := by
      rintro b hb rfl
      exact absurd (hb.unique hready) (by decide)
    refine ⟨⟨fun b hb => ?_, hnd.2, fun b => ?_, h.queued, fun i b hb => ?_, h.apart,
      fun w b hw => ?_, h.single, ?_, h.binary⟩, ?_⟩
    · rcases (his b _).mp hb with ⟨rfl, -⟩ | ⟨-, hb⟩
      · rfl
      · exact absurd hb (hno b)
    · have hb := h.ready b
      rw [hl, List.mem_cons] at hb
      refine Iff.trans ?_ (his b _).symm
      constructor
      · intro hm
        have hbn : b ≠ next := by
          rintro rfl
          exact hnd.1 hm
        exact Or.inr ⟨hbn, hb.mp (Or.inr hm)⟩
      · rintro (⟨-, hc⟩ | ⟨hbn, hs⟩)
        · cases hc
        · rcases hb.mpr hs with he | hm
          · exact absurd he hbn
          · exact hm
    · obtain ⟨hi, hs⟩ := h.waits i b hb
      exact ⟨hi, (his b _).mpr (Or.inr ⟨hnb b hs, hs⟩)⟩
    · obtain ⟨hi, hs, hq⟩ := h.buffer w b hw
      exact ⟨hi, (his b _).mpr (Or.inr ⟨hnb b hs, hs⟩), hq⟩
    · by_cases hi : s.idleThread = next
      · exact Or.inl ((his _ _).mpr (Or.inl ⟨hi, rfl⟩))
      · rcases h.idle with hs | hs | hs
        · exact absurd hs (hno _)
        · exact Or.inr (Or.inl ((his _ _).mpr (Or.inr ⟨hi, hs⟩)))
        · exact Or.inr (Or.inr ((his _ _).mpr (Or.inr ⟨hi, hs⟩)))
    · exact (his _ _).mpr (Or.inl ⟨rfl, rfl⟩)

/-- The scheduler itself: its assertions hold and it ends with a running task. -/
theorem schedule_holds (h : Core s) (hintr : s.intr = false) : Holds Sched (schedule s) := by
  rw [schedule]
  refine (holds_check hintr).bind fun _ _ => ?_
  refine (schedulePark_holds h).bind fun s1 ⟨h1, hno1⟩ => ?_
  refine (scheduleIdle_holds h1 hno1).bind fun s2 ⟨h2, hno2, hne⟩ => ?_
  exact switchTo_holds h2 hno2 hne

theorem Sched.disable (h : Sched s) : Sched s.intrDisable :=
  ⟨h.toCore.flags _ _, h.current⟩

theorem Sched.restore (h : Sched s) : Sched s.intrRestore :=
  ⟨h.toCore.flags _ _, h.current⟩

/-- The running task is on no list. -/
theorem Sched.free (h : Sched s) : Free s s.cur :=
  h.toCore.free h.current (by decide) (by decide)

/-- A thread that has recorded who wakes it, or that nobody wakes, is blocked. -/
theorem threadBlock_holds {stat : TaskStatus}
    (h : ∀ t, s.tasks s.cur = some t →
      Core (s.intrDisable.setTask s.cur { t with status := stat })) :
    Holds Sched (threadBlock stat s) := by
  rw [threadBlock]
  exact (holds_task s.intrDisable s.cur).bind fun t ht => schedule_holds (h t ht) rfl

/-- The running task takes a status that belongs to no list. -/
theorem Sched.park (h : Sched s) {t : TaskStruct} (hr : t.status ≠ .ready)
    (hi : s.cur = s.idleThread → t.status = .running ∨ t.status = .blocked) :
    Core (s.setTask s.cur t) :=
  h.toCore.setTask h.free (fun _ => rfl) hr hi

theorem threadYield_holds (h : Sched s) : Holds Sched (threadYield s) := by
  rw [threadYield]
  refine (holds_check h.disable.free.notReady).bind fun _ _ => ?_
  refine (holds_task _ _).bind fun t _ => ?_
  exact schedule_holds (h.disable.toCore.append h.disable.free rfl) rfl

theorem intrTimerHandler_holds (h : Sched s) : Holds Sched (intrTimerHandler s) := by
  rw [intrTimerHandler]
  refine (holds_task s.intrDisable s.cur).bind fun t ht => ?_
  split
  · exact schedule_holds h.disable.toCore rfl
  · have hrun : t.status = .running := by
      obtain ⟨t', ht', hst⟩ := h.current
      obtain rfl := Option.some.inj (ht'.symm.trans ht)
      exact hst
    have hcore := h.disable.park (t := { t with ticks := t.ticks - 1 })
      (by simp only [hrun]; decide) fun _ => Or.inl hrun
    exact Sched.restore ⟨hcore, ⟨_, setTask_self _ _ _, hrun⟩⟩

theorem idleBlock_holds (h : Sched s) : Holds Sched (threadBlock .blocked s) :=
  threadBlock_holds fun _ _ => h.disable.park (by simp) fun _ => Or.inr rfl

theorem semaDown_holds (h : Sched s) (hi : s.cur ≠ s.idleThread) (i : ℕ) :
    Holds Sched (semaDown i s) := by
  have hd := h.disable
  rw [semaDown]
  split
  · refine (holds_check (hd.free.notQueued i)).bind fun _ _ => ?_
    refine threadBlock_holds fun t ht => ?_
    -- blocked first and then queued, which ends in the same state
    have hcore := hd.park (t := { t with status := .blocked }) (by simp) fun _ => Or.inr rfl
    have hfree : Free (s.intrDisable.setTask s.cur { t with status := .blocked }) s.cur :=
      ⟨hd.free.notReady, hd.free.notQueued, hd.free.notAwaited⟩
    exact (hcore.enqueue hfree ⟨_, setTask_self _ _ _, rfl⟩ hi i).flags _ _
  · rename_i hv
    have hle := h.binary i
    have hone : (s.semas i).value - 1 = 0 := by omega
    refine (holds_check (show (s.intrDisable.semas i).value - 1 = 0 from hone)).bind fun _ _ => ?_
    have hcore := hd.toCore.dequeue (i := i) (v := (s.semas i).value - 1)
      (List.Sublist.refl (s.semas i).waiters) (by omega)
    exact Sched.restore ⟨hcore, hd.current⟩

theorem semaWake_holds (h : Sched s) (i : ℕ) :
    Holds (fun s' => Sched s' ∧ (s'.semas i).value = (s.semas i).value) (semaWake i s) := by
  rw [semaWake]
  split
  · exact ⟨h, rfl⟩
  · rename_i a rest hw
    have hmem : a ∈ (s.semas i).waiters := by
      rw [hw]
      exact List.mem_cons_self
    have hb := (h.waits i a hmem).2
    have hnd := h.queued i
    rw [hw, List.nodup_cons] at hnd
    have hcore := h.toCore.dequeue (i := i) (v := (s.semas i).value) (l := rest)
      (by rw [hw]; exact List.sublist_cons_self a rest) (h.binary i)
    have hfree : Free (s.setSema i ⟨(s.semas i).value, rest⟩) a := by
      refine ⟨fun hm => ?_, fun j hm => ?_, fun w hw' => ?_⟩
      · exact absurd (hb.unique ((h.ready a).mp hm)) (by decide)
      · by_cases hj : j = i
        · rw [hj, setSema_self] at hm
          exact hnd.1 hm
        · rw [setSema_ne s _ hj] at hm
          exact hj (h.apart j i a hm hmem)
      · exact (h.buffer w a hw').2.2 i hmem
    obtain ⟨s', hs', hc, -, hcur, -, -, hsem, -, -, hother⟩ :=
      threadUnblock_core hcore hfree hb (Or.inl rfl)
    rw [show threadUnblock a (s.setSema i { s.semas i with waiters := rest }) = .ok s' from hs']
    have hne : s.cur ≠ a := by
      rintro rfl
      exact absurd (hb.unique h.current) (by decide)
    refine ⟨⟨hc, ?_⟩, ?_⟩
    · rw [hcur]
      exact (hother s.cur _ hne).mpr h.current
    · rw [hsem, setSema_self]

theorem semaUp_holds (h : Sched s) (i : ℕ) : Holds Sched (semaUp i s) := by
  rw [semaUp]
  refine (holds_demand _).bind fun _ hz => ?_
  refine (semaWake_holds h.disable i).bind fun s1 ⟨h1, hv⟩ => ?_
  refine (holds_demand _).bind fun _ hone => ?_
  have hcore := h1.toCore.dequeue (i := i) (v := (s1.semas i).value + 1)
    (List.Sublist.refl (s1.semas i).waiters) (Nat.le_of_eq hone)
  exact Sched.restore ⟨hcore, h1.current⟩

theorem ioqWait_holds (h : Sched s) (hi : s.cur ≠ s.idleThread) (w : ℕ) :
    Holds Sched (ioqWait w s) := by
  rw [ioqWait]
  refine (holds_demand _).bind fun _ _ => threadBlock_holds fun t ht => ?_
  have hcore := h.disable.park (t := { t with status := .blocked }) (by simp) fun _ => Or.inr rfl
  have hfree : Free (s.intrDisable.setTask s.cur { t with status := .blocked }) s.cur :=
    ⟨h.free.notReady, h.free.notQueued, h.free.notAwaited⟩
  exact hcore.await hfree ⟨_, setTask_self _ _ _, rfl⟩ hi w

theorem weakup_holds (h : Sched s) (w : ℕ) : Holds Sched (weakup w s) := by
  rw [weakup]
  split
  · rfl
  · rename_i a hw
    obtain ⟨-, ⟨t, ht, hst⟩, hq⟩ := h.buffer w a hw
    have hnr : a ∉ s.threadReadyList := fun hm =>
      absurd (Is.unique ⟨t, ht, hst⟩ ((h.ready a).mp hm)) (by decide)
    rw [threadUnblock_eq ht (Or.inl hst) hnr]
    have hfree : Free { s with waiter := Function.update s.waiter w none } a := by
      refine ⟨hnr, hq, fun w' hw' => ?_⟩
      by_cases hww : w' = w
      · simp only [hww, Function.update_self] at hw'
        cases hw'
      · simp only [Function.update_of_ne hww] at hw'
        exact hww (h.single w' w a hw' hw)
    have hne : s.cur ≠ a := by
      rintro rfl
      exact absurd (Is.unique ⟨t, ht, hst⟩ h.current) (by decide)
    -- taken out first and then unblocked, which ends in the same state
    have hcore := (h.toCore.unawait w).toReady hfree (t := { t with status := .ready }) rfl
      (List.nodup_cons.mpr ⟨hnr, h.nodup⟩) fun b => List.mem_cons
    exact ⟨hcore, is_setTask.mpr (Or.inr ⟨hne, h.current⟩)⟩

theorem sysFork_holds (h : Sched s) {child : ℕ} (hc : s.tasks child = none) (pid : ℤ) :
    Holds Sched (sysFork child pid s) := by
  rw [sysFork]
  refine (holds_task _ _).bind fun t _ => (holds_demand _).bind fun _ _ => ?_
  have hno : ∀ st, ¬Is s child st := by
    rintro st ⟨t', ht', -⟩
    rw [hc] at ht'
    cases ht'
  have hfree : Free s child := by
    refine ⟨fun hm => ?_, fun i hm => ?_, fun w hw => ?_⟩
    · exact hno _ ((h.ready child).mp hm)
    · exact hno _ (h.waits i child hm).2
    · exact hno _ (h.buffer w child hw).2.1
  have hne : s.cur ≠ child := by
    rintro rfl
    exact hno _ h.current
  have hcore := h.toCore.append hfree
    (t := ⟨pid, .ready, t.priority, t.priority, t.pid⟩) rfl
  exact ⟨⟨hcore.runs, hcore.nodup, hcore.ready, hcore.queued, hcore.waits, hcore.apart,
    hcore.buffer, hcore.single, hcore.idle, hcore.binary⟩,
    is_setTask.mpr (Or.inr ⟨hne, h.current⟩)⟩

/-- Adoption changes no status. -/
theorem sysExitAdopt_holds (h : Sched s) : Holds Sched (sysExitAdopt s) := by
  rw [sysExitAdopt]
  refine (holds_task _ _).bind fun t _ => (holds_demand _).bind fun _ _ => ?_
  have his : ∀ b st, Is (initAdoptChildren t.pid s) b st ↔ Is s b st := by
    intro b st
    simp only [Is, initAdoptChildren, Option.map_eq_some_iff]
    constructor
    · rintro ⟨_, ⟨u, hu, rfl⟩, hst⟩
      refine ⟨u, hu, ?_⟩
      split at hst
      · exact hst
      · exact hst
    · rintro ⟨u, hu, hst⟩
      refine ⟨_, ⟨u, hu, rfl⟩, ?_⟩
      split
      · exact hst
      · exact hst
  refine ⟨⟨fun b hb => h.runs b ((his b _).mp hb), h.nodup, fun b => ?_, h.queued,
    fun i b hb => ?_, h.apart, fun w b hw => ?_, h.single, ?_, h.binary⟩, ?_⟩
  · rw [his]
    exact h.ready b
  · rw [his]
    exact h.waits i b hb
  · rw [his]
    exact h.buffer w b hw
  · rw [his, his, his]
    exact h.idle
  · rw [his]
    exact h.current

theorem wakeParent_holds (h : Sched s) (p : ℕ) :
    Holds (fun s' => Sched s' ∧ s'.cur = s.cur ∧ s'.idleThread = s.idleThread) (wakeParent p s) := by
  rw [wakeParent]
  refine (holds_task _ _).bind fun t ht => ?_
  split
  · rename_i hst
    have hp : Is s p .waiting := ⟨t, ht, hst⟩
    have hfree := h.toCore.free hp (by decide) (by decide)
    obtain ⟨s', hs', hc, -, hcur, -, -, -, hidle, -, hother⟩ :=
      threadUnblock_core h.toCore hfree hp (Or.inr (Or.inr rfl))
    rw [hs']
    have hne : s.cur ≠ p := by
      rintro rfl
      exact absurd (hp.unique h.current) (by decide)
    refine ⟨⟨hc, ?_⟩, hcur, hidle⟩
    rw [hcur]
    exact (hother s.cur _ hne).mpr h.current
  · exact ⟨h, rfl, rfl⟩

theorem sysExit_holds (h : Sched s) (hi : s.cur ≠ s.idleThread) : Holds Sched (sysExit s) := by
  rw [sysExit]
  refine (holds_task _ _).bind fun t _ => (holds_demand _).bind fun _ _ => ?_
  split
  · rfl
  · rename_i p _
    refine (wakeParent_holds h p).bind fun s1 ⟨h1, hcur, hidle⟩ => ?_
    refine threadBlock_holds fun u _ => h1.disable.park (by simp) fun he => ?_
    have he : s1.cur = s1.idleThread := he
    rw [hcur, hidle] at he
    exact absurd he hi

/-- A task that is on no list dies. -/
theorem threadExit_core (h : Core s) (hf : Free s a) (hi : a ≠ s.idleThread) :
    Holds (fun s' => Core s' ∧ s'.cur = s.cur ∧ s'.intr = s.intr ∧
      ∀ b st, b ≠ a → Is s b st → Is s' b st) (threadExit a s) := by
  rw [threadExit]
  refine (holds_task _ _).bind fun t _ => ?_
  have herase : s.threadReadyList.erase a = s.threadReadyList := List.erase_of_not_mem hf.notReady
  have hcore := h.setTask hf (t := { t with status := .died }) (fun hc => by cases hc) (by simp)
    fun he => absurd he hi
  have hstay : ∀ b st, b ≠ a → Is s b st → Is (s.setTask a { t with status := .died }) b st :=
    fun b st hb hs => is_setTask.mpr (Or.inr ⟨hb, hs⟩)
  simp only [herase]
  split
  · -- the page is given back
    have his : ∀ b st, Is { s.setTask a { t with status := .died } with
        threadReadyList := s.threadReadyList
        threadAllList := s.threadAllList.erase a
        tasks := Function.update (s.setTask a { t with status := .died }).tasks a none } b st ↔
        b ≠ a ∧ Is s b st := by
      intro b st
      by_cases hb : b = a
      · subst b
        simp [Is]
      · simp [Is, hb, setTask_ne s _ hb]
    refine ⟨⟨fun b hb => h.runs b ((his b _).mp hb).2, h.nodup, fun b => ?_, h.queued,
      fun i b hb => ?_, h.apart, fun w b hw => ?_, h.single, ?_, h.binary⟩, rfl, rfl,
      fun b st hb hs => (his b st).mpr ⟨hb, hs⟩⟩
    · rw [his, ← h.ready b]
      refine ⟨fun hm => ⟨?_, hm⟩, fun hm => hm.2⟩
      rintro rfl
      exact hf.notReady hm
    · obtain ⟨hne, hs⟩ := h.waits i b hb
      refine ⟨hne, (his b _).mpr ⟨?_, hs⟩⟩
      rintro rfl
      exact hf.notQueued i hb
    · obtain ⟨hne, hs, hq⟩ := h.buffer w b hw
      refine ⟨hne, (his b _).mpr ⟨?_, hs⟩, hq⟩
      rintro rfl
      exact hf.notAwaited w hw
    · rcases h.idle with hs | hs | hs
      · exact Or.inl ((his _ _).mpr ⟨hi.symm, hs⟩)
      · exact Or.inr (Or.inl ((his _ _).mpr ⟨hi.symm, hs⟩))
      · exact Or.inr (Or.inr ((his _ _).mpr ⟨hi.symm, hs⟩))
  · exact ⟨⟨hcore.runs, hcore.nodup, hcore.ready, hcore.queued, hcore.waits, hcore.apart,
      hcore.buffer, hcore.single, hcore.idle, hcore.binary⟩, rfl, rfl, hstay⟩

theorem mainExit_holds (h : Sched s) (hi : s.cur ≠ s.idleThread) : Holds Sched (mainExit s) := by
  rw [mainExit]
  refine (threadExit_core h.disable.toCore h.disable.free hi).bind fun s1 ⟨h1, _, hintr, _⟩ => ?_
  exact schedule_holds h1 hintr

theorem sysWait_holds (h : Sched s) (hi : s.cur ≠ s.idleThread) : Holds Sched (sysWait s) := by
  rw [sysWait]
  refine (holds_task _ _).bind fun t _ => ?_
  split
  · rename_i child hfind
    have hp := List.find?_some hfind
    rw [isHangingChild] at hp
    split at hp
    · cases hp
    · rename_i u hu
      simp only [Bool.decide_and, Bool.and_eq_true, decide_eq_true_eq] at hp
      have hc : Is s child .hanging := ⟨u, hu, hp.2⟩
      have hfree := h.toCore.free hc (by decide) (by decide)
      have hne : child ≠ s.idleThread := by
        rintro rfl
        rcases h.idle with hs | hs | hs <;> exact absurd (hc.unique hs) (by decide)
      have hcur : s.cur ≠ child := by
        rintro rfl
        exact absurd (hc.unique h.current) (by decide)
      have hex := threadExit_core h.toCore hfree hne
      generalize threadExit child s = r at hex ⊢
      cases r with
      | error e => exact hex
      | ok s1 =>
        obtain ⟨h1, hc1, -, hstay⟩ := hex
        refine ⟨h1, ?_⟩
        rw [hc1]
        exact hstay s.cur _ hcur h.current
  · split
    · exact h
    · exact threadBlock_holds fun u _ => h.disable.park (by simp) fun he => absurd he hi

/-- No step fails at one of the assertions, and the invariant holds again after it. -/
theorem exec_holds (h : Sched s) {x : Action} (he : Enabled s x) : Holds Sched (exec x s) := by
  cases x with
  | tick => exact intrTimerHandler_holds h
  | yield => exact threadYield_holds h
  | semaDown i => exact semaDown_holds h he i
  | semaUp i => exact semaUp_holds h i
  | ioqWait w => exact ioqWait_holds h he w
  | weakup w => exact weakup_holds h w
  | fork child pid => exact sysFork_holds h he.2 pid
  | exitAdopt => exact sysExitAdopt_holds h
  | exit => exact sysExit_holds h he
  | wait => exact sysWait_holds h he
  | mainExit => exact mainExit_holds h he.2
  | idleBlock => exact idleBlock_holds h
  | setIntr on => exact ⟨h.toCore.flags on s.saved, h.current⟩

end Steps

theorem is_threadInit (b : Boot) (a : ℕ) (st : TaskStatus) : Is (threadInit b) a st ↔
    (a = b.init ∧ st = .ready) ∨ (a = b.main ∧ st = .running) ∨ (a = b.idle ∧ st = .ready) := by
  obtain ⟨h1, h2, h3⟩ := b.distinct
  have htasks : (threadInit b).tasks a =
      if a = b.idle then some ⟨3, .ready, 10, 10, -1⟩ else
      if a = b.main then some ⟨2, .running, 31, 31, -1⟩ else
      if a = b.init then some ⟨1, .ready, 31, 31, -1⟩ else none := by
    simp only [threadInit, threadStart, makeMainThread, initThread, State.setTask,
      Function.update_apply, if_neg h1, if_neg h3.symm, if_true]
  rw [Is, htasks]
  by_cases ha : a = b.idle
  · subst a
    simp [h2.symm, h3.symm, eq_comm]
  · rw [if_neg ha]
    by_cases hm : a = b.main
    · subst a
      simp [h1.symm, h3, eq_comm]
    · rw [if_neg hm]
      by_cases hi : a = b.init
      · subst a
        simp [h1, h2, eq_comm]
      · simp [ha, hm, hi]

theorem threadInit_sched (b : Boot) : Sched (threadInit b) := by
  obtain ⟨h1, h2, h3⟩ := b.distinct
  have hnone : ∀ i a, a ∉ ((threadInit b).semas i).waiters := fun i a hm => by
    rw [show ((threadInit b).semas i).waiters = [] from (b.fresh i).1] at hm
    cases hm
  refine ⟨⟨fun a ha => ?_, ?_, fun a => ?_, fun i => ?_, fun i a hm => absurd hm (hnone i a),
    fun i j a hm _ => absurd hm (hnone i a), fun w a hw => ?_, fun w w' a hw _ => ?_, ?_,
    fun i => (b.fresh i).2⟩, ?_⟩
  · rcases (is_threadInit b a _).mp ha with ⟨-, hc⟩ | ⟨rfl, -⟩ | ⟨-, hc⟩
    · cases hc
    · rfl
    · cases hc
  · exact List.nodup_cons.mpr ⟨by simpa using h2, List.nodup_singleton _⟩
  · rw [is_threadInit]
    simp [threadInit, threadStart, makeMainThread, initThread, State.setTask]
  · rw [show ((threadInit b).semas i).waiters = [] from (b.fresh i).1]
    exact List.nodup_nil
  · cases hw
  · cases hw
  · exact Or.inr (Or.inl ((is_threadInit b _ _).mpr (Or.inr (Or.inr ⟨rfl, rfl⟩))))
  · exact (is_threadInit b _ _).mpr (Or.inr (Or.inl ⟨rfl, rfl⟩))

/-- The states a system can get into after `thread_init`. -/
inductive Reachable (b : Boot) : State → Prop where
  | init : Reachable b (threadInit b)
  | step {s s' : State} {x : Action} : Reachable b s → Enabled s x → exec x s = .ok s' →
    Reachable b s'

theorem Reachable.sched {b : Boot} {s : State} (h : Reachable b s) : Sched s := by
  induction h with
  | init => exact threadInit_sched b
  | step _ he hx ih =>
    have hs := exec_holds ih he
    rw [hx] at hs
    exact hs

/-- One task is running and it is the current one; the ready list has every ready task once; and
a tag is on one list at most. -/
structure WellScheduled (s : State) : Prop where
  running : ∀ a, Is s a .running ↔ a = s.cur
  ready : ∀ a, a ∈ s.threadReadyList ↔ Is s a .ready
  readyOnce : s.threadReadyList.Nodup
  waitersOnce : ∀ i, (s.semas i).waiters.Nodup
  oneQueue : ∀ i j a, a ∈ (s.semas i).waiters → a ∈ (s.semas j).waiters → i = j
  readyOrWaiting : ∀ i a, a ∈ s.threadReadyList → a ∉ (s.semas i).waiters

theorem reachable_well_scheduled {b : Boot} {s : State} (h : Reachable b s) :
    WellScheduled s ∧ ∀ x, Enabled s x → exec x s ≠ .error .assertion := by
  have hs := h.sched
  refine ⟨⟨fun a => ⟨hs.runs a, ?_⟩, hs.ready, hs.nodup, hs.queued, hs.apart, fun i a hr hq => ?_⟩,
    fun x he hx => ?_⟩
  · rintro rfl
    exact hs.current
  · exact absurd (((hs.ready a).mp hr).unique (hs.waits i a hq).2) (by decide)
  · have hx' := exec_holds hs he
    rw [hx] at hx'
    cases hx'

/-- Tasks at 1, 2 and 3, every semaphore free. -/
def smallBoot : Boot :=
  ⟨1, 2, 3, fun _ => ⟨1, []⟩, by decide, fun _ => ⟨rfl, Nat.le_refl 1⟩⟩

/-- `main` yields to `init`. -/
theorem reachable_well_scheduled_yield : ∃ s, exec .yield (threadInit smallBoot) = .ok s ∧
    WellScheduled s ∧ ∀ x, Enabled s x → exec x s ≠ .error .assertion := by
  have he : Enabled (threadInit smallBoot) .yield := by
    show (2 : ℕ) ≠ 3
    decide
  have hx : ∃ s, exec .yield (threadInit smallBoot) = .ok s := ⟨_, rfl⟩
  obtain ⟨s, hx⟩ := hx
  exact ⟨s, hx, reachable_well_scheduled (.step .init he hx)⟩

end ThreadInvariant
