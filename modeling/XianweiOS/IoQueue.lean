import XianweiOS.RingBuffer
import XianweiOS.SyncLock

/-! The ring of bytes of `device/ioqueue.c`. Its functions assert that interrupts are off, so a
thread runs until it returns or is blocked, in `sema_down` of the queue's lock or in `ioq_wait`;
it holds the lock while it is blocked in `ioq_wait`. -/
namespace IoQueue

open HaltingProgram RingBuffer

variable {T : Type}

def bufsize : ℕ := 2048

structure Ring (T : Type) where
  producer : Option T
  consumer : Option T
  buf : ℕ → UInt8
  head : ℕ
  tail : ℕ

def nextPos (pos : ℕ) : ℕ := next bufsize pos

def ioqFull (q : Ring T) : Bool := nextPos q.head = q.tail

def ioqEmpty (q : Ring T) : Bool := q.head = q.tail

def ioqLength (q : Ring T) : ℕ := fill bufsize q.head q.tail

inductive Role where
  | producer
  | consumer
  deriving DecidableEq, Repr

def Ring.waiter (q : Ring T) : Role → Option T
  | .producer => q.producer
  | .consumer => q.consumer

def Ring.setWaiter (q : Ring T) (r : Role) (w : Option T) : Ring T :=
  match r with
  | .producer => { q with producer := w }
  | .consumer => { q with consumer := w }

/-- The condition of the `while` loop. -/
def Ring.stuck (q : Ring T) : Role → Bool
  | .producer => ioqFull q
  | .consumer => ioqEmpty q

@[simp] theorem Ring.waiter_setWaiter (q : Ring T) (r : Role) (w : Option T) :
    (q.setWaiter r w).waiter r = w := by
  cases r <;> rfl

theorem Ring.waiter_setWaiter_ne {q : Ring T} {r r' : Role} {w : Option T} (h : r' ≠ r) :
    (q.setWaiter r w).waiter r' = q.waiter r' := by
  cases r <;> cases r' <;> first | rfl | exact absurd rfl h

@[simp] theorem Ring.setWaiter_head (q : Ring T) (r : Role) (w : Option T) :
    (q.setWaiter r w).head = q.head := by
  cases r <;> rfl

@[simp] theorem Ring.setWaiter_tail (q : Ring T) (r : Role) (w : Option T) :
    (q.setWaiter r w).tail = q.tail := by
  cases r <;> rfl

@[simp] theorem Ring.setWaiter_buf (q : Ring T) (r : Role) (w : Option T) :
    (q.setWaiter r w).buf = q.buf := by
  cases r <;> rfl

@[simp] theorem Ring.setWaiter_stuck (q : Ring T) (r r' : Role) (w : Option T) :
    (q.setWaiter r w).stuck r' = q.stuck r' := by
  cases r <;> cases r' <;> rfl

/-- A thread waits only while its test holds. -/
def Awaited (q : Ring T) : Prop := ∀ r, q.waiter r ≠ none → q.stuck r

inductive Call where
  | getchar
  | putchar (byte : UInt8)
  deriving DecidableEq, Repr

def Call.role : Call → Role
  | .getchar => .consumer
  | .putchar _ => .producer

/-- Where a thread was switched out: in no call, in `sema_down`, or in `ioq_wait` before and after
`weakup`. A thread that runs counts as idle. -/
inductive Place where
  | idle
  | locking (c : Call)
  | waiting (c : Call)
  | ready (c : Call)
  deriving DecidableEq, Repr

/-- `sync` is the queue's lock. `stored` and `returned` are the bytes that calls put in the buffer
and returned, in order; the code keeps no such lists. -/
structure System (T : Type) where
  sync : SyncLock.System T
  queue : Ring T
  place : T → Place
  stored : List UInt8
  returned : List UInt8

/-- After `ioqueue_init`. -/
def System.initial : System T :=
  ⟨.initial, ⟨none, none, fun _ => 0, 0, 0⟩, fun _ => .idle, [], []⟩

variable [DecidableEq T]

def System.goto (s : System T) (t : T) (p : Place) : System T :=
  { s with place := Function.update s.place t p }

@[simp] theorem System.goto_sync (s : System T) (t : T) (p : Place) :
    (s.goto t p).sync = s.sync := rfl

@[simp] theorem System.goto_queue (s : System T) (t : T) (p : Place) :
    (s.goto t p).queue = s.queue := rfl

@[simp] theorem System.goto_place (s : System T) (t : T) (p : Place) :
    (s.goto t p).place = Function.update s.place t p := rfl

def ioqWait (t : T) (c : Call) (s : System T) : Option (System T) := do
  assert (s.queue.waiter c.role = none)
  return { s.goto t (.waiting c) with queue := s.queue.setWaiter c.role (some t) }

/-- `thread_unblock` asserts that the waiter is blocked. -/
def weakup (r : Role) (s : System T) : Option (System T) :=
  match s.queue.waiter r with
  | none => none
  | some u =>
    match s.place u with
    | .waiting c => some { s.goto u (.ready c) with queue := s.queue.setWaiter r none }
    | _ => none

def ioqGetcharEnd (s : System T) : Option (System T) :=
  let byte := s.queue.buf s.queue.tail
  let s := { s with
    queue := { s.queue with tail := nextPos s.queue.tail }
    returned := s.returned ++ [byte] }
  if s.queue.producer ≠ none then weakup .producer s else some s

def ioqPutcharEnd (byte : UInt8) (s : System T) : Option (System T) :=
  let s := { s with
    queue := { s.queue with
      buf := Function.update s.queue.buf s.queue.head byte
      head := nextPos s.queue.head }
    stored := s.stored ++ [byte] }
  if s.queue.consumer ≠ none then weakup .consumer s else some s

def Call.finish (c : Call) (s : System T) : Option (System T) :=
  match c with
  | .getchar => ioqGetcharEnd s
  | .putchar byte => ioqPutcharEnd byte s

/-- The loop goes on to `ioq_wait` when `lock_acquire` returns. -/
def afterAcquire (t : T) (c : Call) (s : System T) : Option (System T) :=
  if (s.sync.thread t).place = .outside then ioqWait t c s else some (s.goto t (.locking c))

/-- `ioq_getchar` and `ioq_putchar`, from a test of the loop on. -/
def loop (t : T) (c : Call) (s : System T) : Option (System T) :=
  if s.queue.stuck c.role then do
    let sync ← SyncLock.lockAcquire t s.sync
    afterAcquire t c { s with sync := sync }
  else c.finish s

/-- The thread is switched to again. -/
def resume (t : T) (s : System T) : Option (System T) :=
  match s.place t with
  | .idle | .waiting _ => some s
  | .locking c => do
    let sync ← SyncLock.lockResume t s.sync
    afterAcquire t c { s with sync := sync }
  | .ready c => do
    let sync ← SyncLock.lockRelease t s.sync
    loop t c { s.goto t .idle with sync := sync }

inductive Event (T : Type) where
  | call (t : T) (c : Call)
  | resume (t : T)
  deriving DecidableEq, Repr

/-- `none` is a failed `ASSERT`. -/
def exec : Event T → System T → Option (System T)
  | .call t c, s => loop t c s
  | .resume t, s => resume t s

/-- The scheduler runs a thread that is not blocked. -/
def Runnable (t : T) (s : System T) : Prop :=
  match s.place t with
  | .idle | .waiting _ => False
  | .locking _ => (s.sync.thread t).place = .awake
  | .ready _ => True

instance (t : T) (s : System T) : Decidable (Runnable t s) := by
  unfold Runnable
  cases s.place t <;> infer_instance

def Enabled : Event T → System T → Prop
  | .call t _, s => s.place t = .idle
  | .resume t, s => Runnable t s

instance (e : Event T) (s : System T) : Decidable (Enabled e s) :=
  match e with
  | .call t _ => inferInstanceAs (Decidable (s.place t = .idle))
  | .resume t => inferInstanceAs (Decidable (Runnable t s))

/-- A thread that slept for the lock and gets it finds the condition of its loop unchanged. -/
def Retests : Event T → System T → Prop
  | .call _ _, _ => True
  | .resume t, s =>
    match s.place t with
    | .locking c => s.sync.lock.semaphore.value ≠ 0 → s.queue.stuck c.role
    | _ => True

instance (e : Event T) (s : System T) : Decidable (Retests e s) := by
  cases e with
  | call t c => exact .isTrue trivial
  | resume t =>
    unfold Retests
    dsimp only
    cases s.place t <;> infer_instance

/-- What the lock knows of a thread. -/
def Linked : Place → SyncLock.Thread → Prop
  | .idle, c => c = ⟨.outside, 0⟩
  | .locking _, c => c = ⟨.asleep, 0⟩ ∨ c = ⟨.awake, 0⟩
  | .waiting _, c => c = ⟨.outside, 1⟩
  | .ready _, c => c = ⟨.outside, 1⟩

def view (s : System T) : Fifo UInt8 :=
  ⟨contents bufsize s.queue.buf s.queue.head s.queue.tail, s.stored, s.returned⟩

structure Invariant (s : System T) : Prop where
  sync : SyncLock.Invariant s.sync
  linked : ∀ t, Linked (s.place t) (s.sync.thread t)
  waiter : ∀ r t, s.queue.waiter r = some t ↔ ∃ c : Call, c.role = r ∧ s.place t = .waiting c
  head_lt : s.queue.head < bufsize
  tail_lt : s.queue.tail < bufsize

section Rest

omit [DecidableEq T]

variable {s : System T} {t : T}

theorem initial_invariant : Invariant (System.initial : System T) := by
  refine ⟨SyncLock.initial_invariant, fun _ => rfl, fun r t => ?_, Nat.two_pow_pos 11,
    Nat.two_pow_pos 11⟩
  cases r <;> simp [System.initial, Ring.waiter]

/-- A thread in `ioq_wait` has the lock. -/
theorem Linked.owns {p : Place} {d : SyncLock.Thread} (h : Linked p d) {c : Call}
    (hp : p = .waiting c ∨ p = .ready c) : d.Owns := by
  rcases hp with rfl | rfl
  all_goals
    simp only [Linked] at h
    simp [h, SyncLock.Thread.Owns]

/-- Nobody waits while the lock is free. -/
theorem Invariant.no_waiter (h : Invariant s) (hv : s.sync.lock.semaphore.value ≠ 0) (r : Role) :
    s.queue.waiter r = none := by
  refine Option.eq_none_iff_forall_ne_some.mpr fun u hu => ?_
  obtain ⟨c, _, hc⟩ := (h.waiter r u).mp hu
  exact (h.sync.value_one hv).2.2.2 u ((h.linked u).owns (.inl hc))

/-- Moving bytes leaves the waiters alone. -/
theorem Invariant.moved (h : Invariant s) {q : Ring T} (stored returned : List UInt8)
    (hp : q.producer = s.queue.producer) (hc : q.consumer = s.queue.consumer)
    (hh : q.head < bufsize) (ht : q.tail < bufsize) :
    Invariant { s with queue := q, stored := stored, returned := returned } := by
  refine ⟨h.sync, h.linked, fun r u => ?_, hh, ht⟩
  have hw : q.waiter r = s.queue.waiter r := by cases r <;> assumption
  exact hw ▸ h.waiter r u

/-- A new waiter leaves everybody's test as it was. -/
theorem awaited_setWaiter {q : Ring T} {r : Role} (h : Awaited q) :
    Awaited (q.setWaiter r (some t)) ↔ q.stuck r := by
  constructor
  · intro ha
    simpa using ha r (by simp)
  · intro hs r' hr'
    by_cases hr : r' = r
    · subst r'
      simpa using hs
    · rw [Ring.waiter_setWaiter_ne hr] at hr'
      simpa using h r' hr'

end Rest

section Steps

variable {s s' : System T} {t : T} {c : Call}

theorem Invariant.linked_goto (h : Invariant s) {sync : SyncLock.System T} {p : Place}
    (hs : ∀ u, u ≠ t → sync.thread u = s.sync.thread u) (hp : Linked p (sync.thread t)) (u : T) :
    Linked ((s.goto t p).place u) (sync.thread u) := by
  by_cases hu : u = t
  · subst u
    simpa [System.goto] using hp
  · simpa [System.goto, hu, hs u hu] using h.linked u

/-- The lock is taken; `ioq_wait` finds no other waiter. -/
theorem Invariant.wait (h : Invariant s) (hv : s.sync.lock.semaphore.value ≠ 0)
    {sync : SyncLock.System T} (hi : SyncLock.Invariant sync) {l : SyncLock.Lock T}
    (hs : sync = s.sync.set l t ⟨.outside, 1⟩) :
    ∃ s', afterAcquire t c { s with sync := sync } = some s' ∧ Invariant s' ∧
      view s' = view s ∧ s'.queue = s.queue.setWaiter c.role (some t) := by
  have hnone := h.no_waiter hv
  have hself : sync.thread t = ⟨.outside, 1⟩ := by rw [hs, SyncLock.System.set_self]
  have hother : ∀ u, u ≠ t → sync.thread u = s.sync.thread u := by
    intro u hu
    rw [hs, SyncLock.System.set_other hu]
  have hnot : ∀ u d, s.place u ≠ .waiting d := by
    intro u d hu
    have := (h.waiter d.role u).mpr ⟨d, rfl, hu⟩
    rw [hnone] at this
    cases this
  refine ⟨_, by simp only [afterAcquire, hself, ↓reduceIte, ioqWait, assert_pos (hnone c.role)]; rfl,
    ?_, by simp [view, System.goto], rfl⟩
  · refine ⟨hi, h.linked_goto hother hself, fun r u => ?_,
      by simpa using h.head_lt, by simpa using h.tail_lt⟩
    by_cases hu : u = t
    · subst u
      by_cases hr : r = c.role
      · subst r
        simp
      · rw [Ring.waiter_setWaiter_ne hr, hnone]
        simp [Ne.symm hr]
    · by_cases hr : r = c.role
      · subst r
        simp [hu, Ne.symm hu, hnot]
      · rw [Ring.waiter_setWaiter_ne hr, hnone]
        simp [hu, hnot]

/-- The lock is held by another thread. -/
theorem Invariant.sleep (h : Invariant s) (ht : ∀ d, s.place t ≠ .waiting d)
    {sync : SyncLock.System T} (hi : SyncLock.Invariant sync) {l : SyncLock.Lock T}
    (hs : sync = s.sync.set l t ⟨.asleep, 0⟩) :
    ∃ s', afterAcquire t c { s with sync := sync } = some s' ∧ Invariant s' ∧
      view s' = view s ∧ s'.queue = s.queue := by
  have hself : sync.thread t = ⟨.asleep, 0⟩ := by rw [hs, SyncLock.System.set_self]
  have hother : ∀ u, u ≠ t → sync.thread u = s.sync.thread u := by
    intro u hu
    rw [hs, SyncLock.System.set_other hu]
  refine ⟨{ s with sync := sync }.goto t (.locking c), by simp [afterAcquire, hself], ?_, rfl, rfl⟩
  refine ⟨hi, h.linked_goto hother (.inl hself), fun r u => (h.waiter r u).trans ?_, h.head_lt,
    h.tail_lt⟩
  by_cases hu : u = t
  · subst u
    simp [ht]
  · simp [hu]

theorem weakup_total (h : Invariant s) {r : Role} (hw : s.queue.waiter r ≠ none) :
    ∃ s', weakup r s = some s' ∧ Invariant s' ∧ view s' = view s ∧
      s'.queue = s.queue.setWaiter r none := by
  obtain ⟨u, hu⟩ := Option.ne_none_iff_exists'.mp hw
  obtain ⟨c, hc, hp⟩ := (h.waiter r u).mp hu
  refine ⟨{ s.goto u (.ready c) with queue := s.queue.setWaiter r none },
    by simp [weakup, hu, hp], ?_, by simp [view, System.goto], rfl⟩
  refine ⟨h.sync, fun w => ?_, fun r' w => ?_, by simpa using h.head_lt, by simpa using h.tail_lt⟩
  · refine h.linked_goto (fun _ _ => rfl) ?_ w
    simpa [Linked, hp] using h.linked u
  · by_cases hwu : w = u
    · subst w
      by_cases hr : r' = r
      · subst r'
        simp [System.goto]
      · rw [Ring.waiter_setWaiter_ne hr]
        simp only [System.goto, Function.update_self, reduceCtorEq, and_false, exists_false,
          iff_false]
        intro hr'
        obtain ⟨d, hd, hpd⟩ := (h.waiter r' u).mp hr'
        rw [hp] at hpd
        cases hpd
        exact hr (hd.symm.trans hc)
    · have hplace : (s.goto u (.ready c)).place w = s.place w := by simp [System.goto, hwu]
      by_cases hr : r' = r
      · subst r'
        simp only [Ring.waiter_setWaiter, reduceCtorEq, false_iff, hplace]
        intro hex
        have := (h.waiter r w).mpr hex
        rw [hu] at this
        exact hwu (Option.some.inj this).symm
      · rw [Ring.waiter_setWaiter_ne hr, h.waiter r' w]
        simp [hplace]

/-- A call that its loop lets through moves one byte and wakes the other side. -/
theorem finish_total (h : Invariant s) (hb : s.queue.stuck c.role = false) :
    ∃ s', c.finish s = some s' ∧ Invariant s' ∧ Fifo.Step 2047 (view s) (view s') ∧
      (Awaited s.queue → Awaited s'.queue) := by
  cases c with
  | getchar =>
    have hne : s.queue.head ≠ s.queue.tail := by
      simpa [Ring.stuck, Call.role, ioqEmpty] using hb
    have hfront : (view s).content = s.queue.buf s.queue.tail ::
        contents bufsize s.queue.buf s.queue.head (nextPos s.queue.tail) :=
      contents_get h.head_lt h.tail_lt hne
    have h₁ : Invariant { s with
        queue := { s.queue with tail := nextPos s.queue.tail }
        returned := s.returned ++ [s.queue.buf s.queue.tail] } :=
      h.moved _ _ rfl rfl h.head_lt (next_lt h.tail_lt)
    have hnone : Awaited s.queue → s.queue.consumer = none := by
      intro ha
      by_contra hc
      exact Bool.false_ne_true (hb.symm.trans (ha .consumer hc))
    by_cases hp : s.queue.producer = none
    · refine ⟨_, by simp only [Call.finish, ioqGetcharEnd, hp, ne_eq, not_true, ↓reduceIte], h₁,
        .get _ _ _ hfront, fun ha r hr => ?_⟩
      cases r with
      | producer => exact absurd hp hr
      | consumer => exact absurd (hnone ha) hr
    · obtain ⟨s', hs, h', hv, hq⟩ := weakup_total (r := .producer) h₁ hp
      refine ⟨s', by simpa [Call.finish, ioqGetcharEnd, hp] using hs, h', ?_, fun ha r hr => ?_⟩
      · rw [hv]
        exact .get _ _ _ hfront
      · rw [hq] at hr
        cases r with
        | producer => exact absurd rfl hr
        | consumer => exact absurd (hnone ha) hr
  | putchar b =>
    have hne : nextPos s.queue.head ≠ s.queue.tail := by
      simpa [Ring.stuck, Call.role, ioqFull] using hb
    have hroom : (view s).content.length < 2047 := by
      have hlt : fill bufsize s.queue.head s.queue.tail < bufsize := fill_lt h.head_lt
      have hfull := (fill_eq_full h.head_lt h.tail_lt).not.mpr hne
      rw [view, length_contents]
      unfold bufsize at *
      omega
    have hput : contents bufsize (Function.update s.queue.buf s.queue.head b)
        (next bufsize s.queue.head) s.queue.tail =
          contents bufsize s.queue.buf s.queue.head s.queue.tail ++ [b] :=
      contents_put h.head_lt h.tail_lt hne b
    have h₁ : Invariant { s with
        queue := { s.queue with
          buf := Function.update s.queue.buf s.queue.head b
          head := nextPos s.queue.head }
        stored := s.stored ++ [b] } :=
      h.moved _ _ rfl rfl (next_lt h.head_lt) h.tail_lt
    have hnone : Awaited s.queue → s.queue.producer = none := by
      intro ha
      by_contra hc
      exact Bool.false_ne_true (hb.symm.trans (ha .producer hc))
    have hstep : Fifo.Step 2047 (view s) ⟨contents bufsize
        (Function.update s.queue.buf s.queue.head b) (nextPos s.queue.head) s.queue.tail,
        s.stored ++ [b], s.returned⟩ := by
      rw [nextPos, hput]
      exact .put (view s) b hroom
    by_cases hp : s.queue.consumer = none
    · refine ⟨_, by simp only [Call.finish, ioqPutcharEnd, hp, ne_eq, not_true, ↓reduceIte], h₁,
        hstep, fun ha r hr => ?_⟩
      cases r with
      | consumer => exact absurd hp hr
      | producer => exact absurd (hnone ha) hr
    · obtain ⟨s', hs, h', hv, hq⟩ := weakup_total (r := .consumer) h₁ hp
      refine ⟨s', by simpa [Call.finish, ioqPutcharEnd, hp] using hs, h', ?_, fun ha r hr => ?_⟩
      · rw [hv]
        exact hstep
      · rw [hq] at hr
        cases r with
        | consumer => exact absurd rfl hr
        | producer => exact absurd (hnone ha) hr

theorem weakup_some {r : Role} (h : weakup r s = some s') :
    ∃ u c, s.place u = .waiting c ∧
      s' = { s.goto u (.ready c) with queue := s.queue.setWaiter r none } := by
  unfold weakup at h
  split at h
  · cases h
  · rename_i u hu
    split at h
    · rename_i d hp
      exact ⟨u, d, hp, (Option.some.inj h).symm⟩
    · cases h

/-- `weakup` runs another thread, and only the waiter is cleared. -/
theorem weakup_keeps {r : Role} (ht : s.place t = .idle) (h : weakup r s = some s') :
    s'.place t = .idle ∧ s'.stored = s.stored ∧ s'.returned = s.returned := by
  obtain ⟨u, d, hp, rfl⟩ := weakup_some h
  have hne : t ≠ u := by
    rintro rfl
    rw [ht] at hp
    cases hp
  exact ⟨(Function.update_of_ne hne _ _).trans ht, rfl, rfl⟩

theorem getchar_logs (ht : s.place t = .idle) (h : Call.finish .getchar s = some s') :
    s'.place t = .idle ∧ s'.stored = s.stored ∧
      s'.returned = s.returned ++ [s.queue.buf s.queue.tail] := by
  simp only [Call.finish, ioqGetcharEnd] at h
  split at h
  · exact weakup_keeps (t := t) (by exact ht) h
  · obtain rfl := Option.some.inj h
    exact ⟨ht, rfl, rfl⟩

theorem putchar_logs {b : UInt8} (ht : s.place t = .idle)
    (h : Call.finish (.putchar b) s = some s') :
    s'.place t = .idle ∧ s'.stored = s.stored ++ [b] ∧ s'.returned = s.returned := by
  simp only [Call.finish, ioqPutcharEnd] at h
  split at h
  · exact weakup_keeps (t := t) (by exact ht) h
  · obtain rfl := Option.some.inj h
    exact ⟨ht, rfl, rfl⟩

theorem loop_total (h : Invariant s) (ht : s.place t = .idle) :
    ∃ s', loop t c s = some s' ∧ Invariant s' ∧ Fifo.Step 2047 (view s) (view s') ∧
      (Awaited s.queue → Awaited s'.queue) := by
  by_cases hb : s.queue.stuck c.role = true
  · have hout : s.sync.thread t = ⟨.outside, 0⟩ := by simpa [ht, Linked] using h.linked t
    obtain ⟨sync, hacq, hi⟩ := SyncLock.lockAcquire_total h.sync hout
    by_cases hv : s.sync.lock.semaphore.value = 0
    · have hs := Option.some.inj (hacq.symm.trans (SyncLock.lockAcquire_taken h.sync hout hv))
      obtain ⟨s', hs', h', hview, hq⟩ := h.sleep (c := c) (by simp [ht]) hi hs
      refine ⟨s', by simp [loop, hb, hacq, hs'], h', hview ▸ .idle _, fun ha => ?_⟩
      rwa [hq]
    · have hs := Option.some.inj (hacq.symm.trans (SyncLock.lockAcquire_free h.sync hout hv))
      obtain ⟨s', hs', h', hview, hq⟩ := h.wait (c := c) hv hi hs
      refine ⟨s', by simp [loop, hb, hacq, hs'], h', hview ▸ .idle _, fun ha => ?_⟩
      rw [hq]
      exact (awaited_setWaiter ha).mpr hb
  · have hf : s.queue.stuck c.role = false := by simpa using hb
    obtain ⟨s', hs', hrest⟩ := finish_total h hf
    exact ⟨s', by simp [loop, hf, hs'], hrest⟩

/-- A thread that does not get past the test of its loop is blocked. -/
theorem loop_stuck (h : Invariant s) (ht : s.place t = .idle) (hb : s.queue.stuck c.role = true) :
    ∃ s', loop t c s = some s' ∧ Invariant s' ∧ s'.place t ≠ .idle := by
  have hout : s.sync.thread t = ⟨.outside, 0⟩ := by simpa [ht, Linked] using h.linked t
  obtain ⟨sync, hacq, hi⟩ := SyncLock.lockAcquire_total h.sync hout
  by_cases hv : s.sync.lock.semaphore.value = 0
  · have hs := Option.some.inj (hacq.symm.trans (SyncLock.lockAcquire_taken h.sync hout hv))
    obtain ⟨s', hs', h', -, -⟩ := h.sleep (c := c) (by simp [ht]) hi hs
    refine ⟨s', by simp [loop, hb, hacq, hs'], h', fun hidle => ?_⟩
    have hself : sync.thread t = ⟨.asleep, 0⟩ := by rw [hs, SyncLock.System.set_self]
    simp only [afterAcquire, hself, reduceCtorEq, ↓reduceIte, Option.some.injEq] at hs'
    subst hs'
    simp at hidle
  · have hs := Option.some.inj (hacq.symm.trans (SyncLock.lockAcquire_free h.sync hout hv))
    obtain ⟨s', hs', h', -, hq⟩ := h.wait (c := c) hv hi hs
    refine ⟨s', by simp [loop, hb, hacq, hs'], h', fun hidle => ?_⟩
    have hw : s'.queue.waiter c.role = some t := by rw [hq, Ring.waiter_setWaiter]
    obtain ⟨d, -, hp⟩ := (h'.waiter _ _).mp hw
    rw [hidle] at hp
    cases hp

theorem loop_getchar (h : Invariant s) (ht : s.place t = .idle)
    (hb : s.queue.stuck .consumer = false) :
    ∃ s', loop t .getchar s = some s' ∧ Invariant s' ∧ s'.place t = .idle ∧
      s'.stored = s.stored ∧ ∃ b, (view s).content = b :: (view s').content ∧
        s'.returned = s.returned ++ [b] := by
  obtain ⟨s', hs', h', hstep, -⟩ := finish_total (c := .getchar) h hb
  obtain ⟨hidle, hst, hret⟩ := getchar_logs ht hs'
  exact ⟨s', by simpa [loop, Call.role, hb] using hs', h', hidle, hst, _, hstep.of_taken hret, hret⟩

theorem loop_putchar (b : UInt8) (h : Invariant s) (ht : s.place t = .idle)
    (hb : s.queue.stuck .producer = false) :
    ∃ s', loop t (.putchar b) s = some s' ∧ Invariant s' ∧ s'.place t = .idle ∧
      s'.returned = s.returned ∧ (view s').content = (view s).content ++ [b] ∧
        s'.stored = s.stored ++ [b] := by
  obtain ⟨s', hs', h', hstep, -⟩ := finish_total (c := .putchar b) h hb
  obtain ⟨hidle, hst, hret⟩ := putchar_logs ht hs'
  exact ⟨s', by simpa [loop, Call.role, hb] using hs', h', hidle, hret, hstep.of_stored hst, hst⟩

theorem Linked.woken {p : Place} (h : Linked p ⟨.asleep, 0⟩) : Linked p ⟨.awake, 0⟩ := by
  cases p <;> simp [Linked] at h ⊢

/-- After `ioq_wait` the lock is released and the loop tests again. -/
theorem ready_total (h : Invariant s) (ht : s.place t = .ready c) :
    ∃ s', resume t s = some s' ∧ Invariant s' ∧ Fifo.Step 2047 (view s) (view s') ∧
      (Awaited s.queue → Awaited s'.queue) := by
  have hin : s.sync.thread t = ⟨.outside, 1⟩ := by simpa [ht, Linked] using h.linked t
  obtain ⟨sync, hrel, hi⟩ := SyncLock.lockRelease_total h.sync hin
  obtain ⟨sync', hrel', hout, -, hothers⟩ := SyncLock.lockRelease_last h.sync hin
  obtain rfl := Option.some.inj (hrel.symm.trans hrel')
  have h₁ : Invariant { s.goto t .idle with sync := sync } := by
    refine ⟨hi, fun u => ?_, fun r u => (h.waiter r u).trans ?_, h.head_lt, h.tail_lt⟩
    · by_cases hu : u = t
      · subst u
        simp [hout, Linked]
      · have hl := h.linked u
        rcases hothers u hu with he | ⟨hasleep, hawake⟩
        · simpa [hu, he] using hl
        · rw [hasleep] at hl
          simpa [hu, hawake] using hl.woken
    · by_cases hu : u = t
      · subst u
        simp [ht]
      · simp [hu]
  obtain ⟨s', hs', h', hstep, ha⟩ := loop_total (t := t) (c := c) h₁ (by simp)
  refine ⟨s', ?_, h', hstep, ha⟩
  simp only [resume, ht, hrel, Option.bind_eq_bind, Option.bind_some]
  exact hs'

/-- A thread that `sema_up` unblocked gets the lock and waits without another test, or sleeps
again. -/
theorem locking_total (h : Invariant s) (ht : s.place t = .locking c)
    (hrun : (s.sync.thread t).place = .awake) :
    ∃ s', resume t s = some s' ∧ Invariant s' ∧ view s' = view s ∧
      (Awaited s.queue → (Awaited s'.queue ↔
        (s.sync.lock.semaphore.value ≠ 0 → s.queue.stuck c.role))) := by
  have hawake : s.sync.thread t = ⟨.awake, 0⟩ := by
    have hl : Linked (.locking c) (s.sync.thread t) := ht ▸ h.linked t
    rcases hl with hl | hl
    · rw [hl] at hrun
      cases hrun
    · exact hl
  obtain ⟨sync, hres, hi⟩ := SyncLock.finish_total (t := t) h.sync 6
  by_cases hv : s.sync.lock.semaphore.value = 0
  · have hs := Option.some.inj (hres.symm.trans (SyncLock.lockResume_taken h.sync hawake hv))
    obtain ⟨s', hs', h', hview, hq⟩ := h.sleep (c := c) (by simp [ht]) hi hs
    refine ⟨s', by simp [resume, ht, SyncLock.lockResume, hres, hs'], h', hview, fun ha => ?_⟩
    simpa [hq, hv] using ha
  · have hs := Option.some.inj (hres.symm.trans (SyncLock.lockResume_free h.sync hawake hv))
    obtain ⟨s', hs', h', hview, hq⟩ := h.wait (c := c) hv hi hs
    refine ⟨s', by simp [resume, ht, SyncLock.lockResume, hres, hs'], h', hview, fun ha => ?_⟩
    rw [hq, awaited_setWaiter ha]
    simp [hv]

theorem exec_total {e : Event T} (h : Invariant s) (he : Enabled e s) :
    ∃ s', exec e s = some s' ∧ Invariant s' ∧ Fifo.Step 2047 (view s) (view s') ∧
      (Awaited s.queue → (Awaited s'.queue ↔ Retests e s)) := by
  cases e with
  | call t c =>
    obtain ⟨s', hs', h', hstep, ha⟩ := loop_total (c := c) h he
    exact ⟨s', hs', h', hstep, fun haw => iff_of_true (ha haw) trivial⟩
  | resume t =>
    have hrun : Runnable t s := he
    unfold Runnable at hrun
    cases hp : s.place t with
    | idle => simp [hp] at hrun
    | waiting c => simp [hp] at hrun
    | ready c =>
      obtain ⟨s', hs', h', hstep, ha⟩ := ready_total h hp
      refine ⟨s', hs', h', hstep, fun haw => iff_of_true (ha haw) ?_⟩
      simp [Retests, hp]
    | locking c =>
      rw [hp] at hrun
      obtain ⟨s', hs', h', hview, ha⟩ := locking_total h hp hrun
      refine ⟨s', hs', h', hview ▸ .idle _, fun haw => (ha haw).trans ?_⟩
      simp [Retests, hp]

end Steps

/-- The ring as a queue: what was stored is what was returned and then what is in the buffer. -/
structure InOrder (s : System T) : Prop where
  reachable : (view s).Reachable 2047
  in_order : s.stored = s.returned ++ (view s).content
  length : ioqLength s.queue + s.returned.length = s.stored.length
  length_le : ioqLength s.queue ≤ 2047
  empty_iff : ioqEmpty s.queue ↔ ioqLength s.queue = 0
  full_iff : ioqFull s.queue ↔ ioqLength s.queue = 2047

/-- No thread is blocked as `ioq->consumer` while there is a byte, and none as `ioq->producer`
while there is room. -/
def NoLostWakeup (s : System T) : Prop :=
  (∀ t, s.queue.consumer = some t → ioqEmpty s.queue) ∧
    ∀ t, s.queue.producer = some t → ioqFull s.queue

section Answers

omit [DecidableEq T]

theorem Invariant.inOrder {s : System T} (h : Invariant s) (hr : (view s).Reachable 2047) :
    InOrder s := by
  obtain ⟨hlog, hlen⟩ := hr.in_order
  have hfill : (view s).content.length = ioqLength s.queue := length_contents
  refine ⟨hr, hlog, ?_, hfill ▸ hlen, ?_, ?_⟩
  · have hsum := congrArg List.length hlog
    rw [List.length_append, hfill] at hsum
    exact (Nat.add_comm _ _).trans hsum.symm
  · rw [ioqLength, fill_eq_zero h.tail_lt]
    simp [ioqEmpty]
  · rw [ioqLength, show 2047 = bufsize - 1 from rfl, fill_eq_full h.head_lt h.tail_lt]
    exact decide_eq_true_iff

theorem noLostWakeup_iff {s : System T} : NoLostWakeup s ↔ Awaited s.queue := by
  constructor
  · rintro ⟨hc, hp⟩ r hr
    obtain ⟨t, ht⟩ := Option.ne_none_iff_exists'.mp hr
    cases r with
    | consumer => exact hc t ht
    | producer => exact hp t ht
  · intro h
    exact ⟨fun t ht => h .consumer (by simp [Ring.waiter, ht]),
      fun t ht => h .producer (by simp [Ring.waiter, ht])⟩

end Answers

theorem run_in_order (l : List (Event T)) (h : AllMeet exec Enabled l System.initial) :
    ∃ s, runAll exec l (System.initial : System T) = some s ∧ InOrder s := by
  obtain ⟨s, hr, hi, hf⟩ := runAll_total
    (fun s : System T => Invariant s ∧ (view s).Reachable 2047)
    (fun e s hs he => by
      obtain ⟨s', hs', h', hstep, _⟩ := exec_total hs.1 he
      exact ⟨s', hs', h', .step hs.2 hstep⟩)
    ⟨initial_invariant, .empty⟩ h
  exact ⟨s, hr, hi.inOrder hf⟩

/-- A consumer waits; two bytes are stored before it runs again, and it returns the first. -/
theorem run_in_order_consumer_first :
    ∃ s, runAll exec ([.call 0 .getchar, .call 1 (.putchar 7), .call 1 (.putchar 8), .resume 0] :
        List (Event ℕ)) System.initial = some s ∧ s.returned = [7] ∧ InOrder s := by
  obtain ⟨s, hr, ho⟩ := run_in_order ([.call 0 .getchar, .call 1 (.putchar 7),
    .call 1 (.putchar 8), .resume 0] : List (Event ℕ)) (by decide +kernel)
  obtain rfl := Option.some.inj hr
  exact ⟨_, rfl, rfl, ho⟩

theorem no_lost_wakeup_iff_retests (l : List (Event T))
    (h : AllMeet exec Enabled l (System.initial : System T)) :
    AllMeet exec Retests l System.initial ↔
      ∀ l', l' <+: l → ∀ s, runAll exec l' System.initial = some s → NoLostWakeup s := by
  refine allMeet_iff_prefixes Invariant NoLostWakeup (fun e s hi hn he => ?_) initial_invariant
    ⟨fun t ht => (Option.some_ne_none t ht.symm).elim,
      fun t ht => (Option.some_ne_none t ht.symm).elim⟩ h
  obtain ⟨s', hs', h', _, ha⟩ := exec_total hi he
  exact ⟨s', hs', h', noLostWakeup_iff.trans (ha (noLostWakeup_iff.mp hn))⟩

/-- Thread 1 sleeps for the lock while the queue is empty and gets it when a byte is left. -/
def lateConsumer : List (Event ℕ) :=
  [.call 0 .getchar, .call 1 .getchar, .call 2 (.putchar 7), .call 2 (.putchar 8), .resume 0,
    .resume 1]

theorem lost_wakeup_late_consumer :
    AllMeet exec Enabled lateConsumer System.initial ∧
      ∃ s, runAll exec lateConsumer System.initial = some s ∧ s.queue.consumer = some 1 ∧
        (view s).content = [8] ∧ ¬ NoLostWakeup s := by
  refine ⟨by decide +kernel, _, rfl, rfl, rfl, fun h => ?_⟩
  have hempty := h.1 1 rfl
  revert hempty
  decide

/-- Two threads wait for a byte, and one byte comes. -/
def oneByte : List (Event ℕ) :=
  [.call 0 .getchar, .call 1 .getchar, .call 2 (.putchar 7), .resume 0, .resume 1]

theorem no_lost_wakeup_iff_retests_one_byte : (runAll exec oneByte System.initial).isSome ∧
    ∀ l', l' <+: oneByte → ∀ s, runAll exec l' System.initial = some s → NoLostWakeup s :=
  ⟨by decide +kernel, (no_lost_wakeup_iff_retests _ (by decide +kernel)).mp (by decide +kernel)⟩

end IoQueue
