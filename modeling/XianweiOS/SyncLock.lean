import Mathlib.Algebra.Group.Nat.Defs
import Mathlib.Data.List.Nodup
import Mathlib.Logic.Function.Basic
import XianweiOS.HaltingProgram

/-! Semaphores and locks of `thread/sync.c`, for any type of threads. `sema_down` and `sema_up`
run with interrupts off, so one test of the loop of `sema_down` is one step and `sema_up` is one
step; in `lock_acquire` and `lock_release` a thread can lose the processor between any two
accesses, so each access is a step of its own. Which thread steps next is not restricted. -/
namespace SyncLock

open HaltingProgram

variable {T : Type} [DecidableEq T]

structure Semaphore (T : Type) where
  value : ℕ
  waiters : List T
  deriving DecidableEq

structure Lock (T : Type) where
  holder : Option T
  semaphore : Semaphore T
  holderRepeatNr : ℕ
  deriving DecidableEq

def semaInit (value : ℕ) : Semaphore T := ⟨value, []⟩

def lockInit : Lock T := ⟨none, semaInit 1, 0⟩

/-- One test of the loop of `sema_down`: `false` when the thread was put to sleep. -/
def semaDown (t : T) (x : Semaphore T) : Option (Semaphore T × Bool) :=
  if x.value = 0 then do
    assert (t ∉ x.waiters)
    return ({ x with waiters := x.waiters ++ [t] }, false)
  else do
    assert (x.value - 1 = 0)
    return ({ x with value := x.value - 1 }, true)

/-- The second component is the thread that `thread_unblock` is called on. -/
def semaUp (x : Semaphore T) : Option (Semaphore T × Option T) := do
  assert (x.value = 0)
  let value := (x.value + 1) % 256
  assert (value = 1)
  match x.waiters with
  | [] => return ({ x with value := value }, none)
  | t :: rest => return (⟨value, rest⟩, some t)

/-- The access a thread makes next. `asleep` and `awake` are the two sides of `thread_block`. -/
inductive Place where
  | outside
  | testHolder
  | down
  | asleep
  | awake
  | setHolder
  | assertFresh
  | setRepeat
  | incRepeat
  | assertHolder
  | testRepeat
  | decRepeat
  | assertOne
  | clearHolder
  | clearRepeat
  | up
  deriving DecidableEq, Repr

/-- `depth` counts the calls of `lock_acquire` that returned and whose `lock_release` has not been
called. The code keeps no such count. -/
structure Thread where
  place : Place
  depth : ℕ
  deriving DecidableEq, Repr

structure System (T : Type) where
  lock : Lock T
  thread : T → Thread

def System.initial : System T := ⟨lockInit, fun _ => ⟨.outside, 0⟩⟩

/-- The lock and one thread change. -/
def System.set (s : System T) (lock : Lock T) (t : T) (c : Thread) : System T :=
  ⟨lock, Function.update s.thread t c⟩

def System.goto (s : System T) (t : T) (p : Place) : System T :=
  s.set s.lock t { s.thread t with place := p }

/-- One test of `sema_down` for the lock. -/
def tryDown (t : T) (s : System T) : Option (System T) := do
  let (x, passed) ← semaDown t s.lock.semaphore
  return s.set { s.lock with semaphore := x } t
    { s.thread t with place := if passed then .setHolder else .asleep }

/-- `thread_unblock` asserts that the thread it wakes is blocked. -/
def wake (a : Option T) (s : System T) : Option (System T) :=
  match a with
  | none => some s
  | some t => do
    assert ((s.thread t).place = .asleep)
    return s.goto t .awake

/-- The end of `lock_release`. -/
def lastUp (t : T) (s : System T) : Option (System T) := do
  let (x, a) ← semaUp s.lock.semaphore
  let s ← wake a s
  return s.set { s.lock with semaphore := x } t { s.thread t with place := .outside }

/-- `holder_repeat_nr` is a `uint32_t`. -/
def incRepeatNr (n : ℕ) : ℕ := (n + 1) % 2 ^ 32

def decRepeatNr (n : ℕ) : ℕ := (n + 2 ^ 32 - 1) % 2 ^ 32

def step (t : T) (s : System T) : Option (System T) :=
  let c := s.thread t
  match c.place with
  | .outside | .asleep => some s
  -- lock_acquire
  | .testHolder => some (s.goto t (if s.lock.holder ≠ some t then .down else .incRepeat))
  | .down | .awake => tryDown t s
  | .setHolder => some (s.set { s.lock with holder := some t } t { c with place := .assertFresh })
  | .assertFresh => do
    assert (s.lock.holderRepeatNr = 0)
    return s.goto t .setRepeat
  | .setRepeat => some (s.set { s.lock with holderRepeatNr := 1 } t ⟨.outside, c.depth + 1⟩)
  | .incRepeat =>
    some (s.set { s.lock with holderRepeatNr := incRepeatNr s.lock.holderRepeatNr } t
      ⟨.outside, c.depth + 1⟩)
  -- lock_release
  | .assertHolder => do
    assert (s.lock.holder = some t)
    return s.goto t .testRepeat
  | .testRepeat => some (s.goto t (if s.lock.holderRepeatNr > 1 then .decRepeat else .assertOne))
  | .decRepeat =>
    some (s.set { s.lock with holderRepeatNr := decRepeatNr s.lock.holderRepeatNr } t
      { c with place := .outside })
  | .assertOne => do
    assert (s.lock.holderRepeatNr = 1)
    return s.goto t .clearHolder
  | .clearHolder => some (s.set { s.lock with holder := none } t { c with place := .clearRepeat })
  | .clearRepeat => some (s.set { s.lock with holderRepeatNr := 0 } t { c with place := .up })
  | .up => lastUp t s

inductive Event (T : Type) where
  | acquire (t : T)
  | release (t : T)
  | step (t : T)
  deriving DecidableEq, Repr

/-- `none` is a failed `ASSERT`. -/
def exec : Event T → System T → Option (System T)
  | .acquire t, s => some (s.goto t .testHolder)
  | .release t, s => some (s.set s.lock t ⟨.assertHolder, (s.thread t).depth - 1⟩)
  | .step t, s => step t s

/-- A thread goes on by itself: after a call it stands still, asleep it waits. -/
def finish (t : T) : ℕ → System T → Option (System T)
  | 0, s => some s
  | n + 1, s => do
    let s ← step t s
    finish t n s

/-- With interrupts off a call runs to its end or to `thread_block`: six accesses at most. -/
def lockAcquire (t : T) (s : System T) : Option (System T) := do
  let s ← exec (.acquire t) s
  finish t 6 s

def lockRelease (t : T) (s : System T) : Option (System T) := do
  let s ← exec (.release t) s
  finish t 6 s

/-- A thread that was unblocked comes back from `thread_block` in `sema_down`. -/
def lockResume (t : T) (s : System T) : Option (System T) := finish t 6 s

/-- A thread is in one call at a time and releases only what it acquired; a sleeping thread does
not run. -/
def Enabled : Event T → System T → Prop
  | .acquire t, s => (s.thread t).place = .outside
  | .release t, s => (s.thread t).place = .outside ∧ 0 < (s.thread t).depth
  | .step t, s => (s.thread t).place ≠ .outside ∧ (s.thread t).place ≠ .asleep

instance (e : Event T) (s : System T) : Decidable (Enabled e s) :=
  match e with
  | .acquire t => inferInstanceAs (Decidable ((s.thread t).place = .outside))
  | .release _ => inferInstanceAs (Decidable (_ ∧ _))
  | .step _ => inferInstanceAs (Decidable (_ ∧ _))

/-- No thread nests as deep as `holder_repeat_nr` can count. -/
def Shallow : Event T → System T → Prop
  | .acquire t, s => (s.thread t).depth + 1 < 2 ^ 32
  | _, _ => True

instance (e : Event T) (s : System T) : Decidable (Shallow e s) :=
  match e with
  | .acquire t => inferInstanceAs (Decidable ((s.thread t).depth + 1 < 2 ^ 32))
  | .release _ => inferInstanceAs (Decidable True)
  | .step _ => inferInstanceAs (Decidable True)

@[simp] theorem System.set_lock (s : System T) (l : Lock T) (t : T) (c : Thread) :
    (s.set l t c).lock = l := rfl

@[simp] theorem System.set_self (s : System T) (l : Lock T) (t : T) (c : Thread) :
    (s.set l t c).thread t = c := Function.update_self ..

theorem System.set_other {s : System T} {l : Lock T} {t u : T} {c : Thread} (h : u ≠ t) :
    (s.set l t c).thread u = s.thread u := Function.update_of_ne h ..

@[simp] theorem System.set_set (s : System T) (l l' : Lock T) (t : T) (c c' : Thread) :
    (s.set l t c).set l' t c' = s.set l' t c' := by
  simp [System.set]

/-- The last word on a thread counts, whatever happened to another one in between. -/
theorem System.set_around {s : System T} {a t : T} (h : a ≠ t) (l l₁ l₂ l' : Lock T)
    (c d c' : Thread) : ((s.set l t c).set l₁ a d).set l' t c' = (s.set l₂ a d).set l' t c' := by
  simp only [System.set, System.mk.injEq, true_and]
  rw [Function.update_comm h.symm, Function.update_idem]

/-- The thread took the semaphore and has not given it back. -/
def Thread.Owns (c : Thread) : Prop :=
  0 < c.depth ∨ c.place ∈ [.setHolder, .assertFresh, .setRepeat, .assertHolder, .testRepeat,
    .decRepeat, .assertOne, .clearHolder, .clearRepeat, .up]

/-- What `holder` is while this thread owns the lock. -/
def Thread.holder (c : Thread) (t : T) : Option T :=
  if c.place ∈ [.setHolder, .clearRepeat, .up] then none else some t

/-- What `holder_repeat_nr` is while this thread owns the lock. -/
def Thread.repeatNr (c : Thread) : ℕ :=
  match c.place with
  | .setHolder | .assertFresh | .setRepeat | .up => 0
  | .assertHolder | .testRepeat | .decRepeat | .assertOne | .clearHolder | .clearRepeat =>
    c.depth + 1
  | _ => c.depth

/-- Which depths a place goes with. -/
def Thread.Fits (c : Thread) : Prop :=
  match c.place with
  | .outside => c.depth < 2 ^ 32
  | .testHolder | .assertHolder | .testRepeat => c.depth + 1 < 2 ^ 32
  | .incRepeat | .decRepeat => 0 < c.depth ∧ c.depth + 1 < 2 ^ 32
  | _ => c.depth = 0

def Free (s : System T) : Prop :=
  s.lock.semaphore.value = 1 ∧ s.lock.holder = none ∧ s.lock.holderRepeatNr = 0 ∧
    ∀ t, ¬ (s.thread t).Owns

structure OwnedBy (s : System T) (t : T) : Prop where
  owns : (s.thread t).Owns
  value : s.lock.semaphore.value = 0
  holder : s.lock.holder = (s.thread t).holder t
  repeatNr : s.lock.holderRepeatNr = (s.thread t).repeatNr
  only : ∀ u, u ≠ t → ¬ (s.thread u).Owns

structure Invariant (s : System T) : Prop where
  owner : Free s ∨ ∃ t, OwnedBy s t
  nodup : s.lock.semaphore.waiters.Nodup
  asleep : ∀ t, t ∈ s.lock.semaphore.waiters ↔ (s.thread t).place = .asleep
  fits : ∀ t, (s.thread t).Fits

section Owners

omit [DecidableEq T]

theorem initial_invariant : Invariant (System.initial : System T) := by
  refine ⟨.inl ⟨rfl, rfl, rfl, ?_⟩, List.nodup_nil, ?_, ?_⟩
  · simp [System.initial, Thread.Owns]
  · simp [System.initial, lockInit, semaInit]
  · simp [System.initial, Thread.Fits]

theorem Invariant.ownedBy {s : System T} (h : Invariant s) {t : T} (ho : (s.thread t).Owns) :
    OwnedBy s t := by
  rcases h.owner with hf | ⟨u, hu⟩
  · exact absurd ho (hf.2.2.2 t)
  · by_cases htu : t = u
    · subst u
      exact hu
    · exact absurd ho (hu.only t htu)

theorem Invariant.holder_ne {s : System T} (h : Invariant s) {t : T}
    (ho : ¬ (s.thread t).Owns) : s.lock.holder ≠ some t := by
  rcases h.owner with hf | ⟨u, hu⟩
  · rw [hf.2.1]
    exact Option.some_ne_none t |>.symm
  · have hne : u ≠ t := by
      rintro rfl
      exact ho hu.owns
    rw [hu.holder, Thread.holder]
    split
    · exact Option.some_ne_none t |>.symm
    · simpa using hne

theorem Invariant.value_one {s : System T} (h : Invariant s) (hv : s.lock.semaphore.value ≠ 0) :
    Free s := by
  rcases h.owner with hf | ⟨u, hu⟩
  · exact hf
  · exact absurd hu.value hv

/-- A thread that is inside has set `holder` and not cleared it. -/
theorem Thread.holder_inside {c : Thread} (hf : c.Fits) (hd : 0 < c.depth) (t : T) :
    c.holder t = some t := by
  unfold Thread.Fits at hf
  unfold Thread.holder
  rw [if_neg]
  intro hp
  simp only [List.mem_cons, List.not_mem_nil, or_false] at hp
  rcases hp with hp | hp | hp <;> simp only [hp] at hf <;> omega

end Owners

section Transitions

variable {s : System T} {t : T} {c : Thread}

/-- The sleeping threads stay the same when a thread moves between two waking places. -/
theorem asleep_set (h : Invariant s) {l : Lock T}
    (hl : l.semaphore.waiters = s.lock.semaphore.waiters)
    (ht : (s.thread t).place ≠ .asleep) (hc : c.place ≠ .asleep) (u : T) :
    u ∈ l.semaphore.waiters ↔ ((s.set l t c).thread u).place = .asleep := by
  rw [hl, h.asleep u]
  by_cases hu : u = t
  · subst u
    simp [ht, hc]
  · rw [System.set_other hu]

theorem fits_set (h : Invariant s) {l : Lock T} (hc : c.Fits) (u : T) :
    ((s.set l t c).thread u).Fits := by
  by_cases hu : u = t
  · subst u
    rwa [System.set_self]
  · rw [System.set_other hu]
    exact h.fits u

/-- Any set of other owners stays as it was. -/
theorem owns_other {l : Lock T} {u : T} (hu : u ≠ t) :
    ((s.set l t c).thread u).Owns ↔ (s.thread u).Owns := by
  rw [System.set_other hu]

/-- A thread that does not own the lock moves on without touching it. -/
theorem Invariant.pass (h : Invariant s) (ht : (s.thread t).place ≠ .asleep)
    (ho : ¬ (s.thread t).Owns) (hc : c.place ≠ .asleep) (hf : c.Fits) (hn : ¬ c.Owns) :
    Invariant (s.set s.lock t c) := by
  refine ⟨?_, h.nodup, asleep_set h rfl ht hc, fits_set h hf⟩
  rcases h.owner with ⟨hv, hh, hr, hno⟩ | ⟨u, hu⟩
  · refine .inl ⟨hv, hh, hr, fun u => ?_⟩
    by_cases hut : u = t
    · subst u
      rwa [System.set_self]
    · rw [owns_other hut]
      exact hno u
  · have hut : u ≠ t := by
      rintro rfl
      exact ho hu.owns
    have heq := System.set_other (l := s.lock) (c := c) (s := s) hut
    refine .inr ⟨u, ⟨by rw [heq]; exact hu.owns, hu.value, by rw [heq]; exact hu.holder,
      by rw [heq]; exact hu.repeatNr, fun w hw => ?_⟩⟩
    by_cases hwt : w = t
    · subst w
      rwa [System.set_self]
    · rw [owns_other hwt]
      exact hu.only w hw

/-- The owner goes on and keeps the lock. -/
theorem Invariant.keep (h : Invariant s) {l : Lock T} (ho : (s.thread t).Owns)
    (ht : (s.thread t).place ≠ .asleep) (hl : l.semaphore = s.lock.semaphore)
    (hc : c.place ≠ .asleep) (hf : c.Fits) (hown : c.Owns) (hh : l.holder = c.holder t)
    (hr : l.holderRepeatNr = c.repeatNr) : Invariant (s.set l t c) := by
  have hown' := h.ownedBy ho
  have hw : l.semaphore.waiters = s.lock.semaphore.waiters := by rw [hl]
  refine ⟨.inr ⟨t, ⟨by simpa, ?_, by simpa, by simpa, fun u hu => ?_⟩⟩, ?_,
    asleep_set h hw ht hc, fits_set h hf⟩
  · rw [System.set_lock, hl]
    exact hown'.value
  · rw [owns_other hu]
    exact hown'.only u hu
  · rw [System.set_lock, hw]
    exact h.nodup

/-- The semaphore is taken: the thread sleeps. -/
theorem Invariant.sleep (h : Invariant s) (hp : (s.thread t).place = .down ∨
    (s.thread t).place = .awake) (hv : s.lock.semaphore.value = 0) :
    ∃ s', tryDown t s = some s' ∧ Invariant s' := by
  have hne : (s.thread t).place ≠ .asleep := by
    rcases hp with hp | hp <;> simp [hp]
  have hd : (s.thread t).depth = 0 := by
    have hfit := h.fits t
    rcases hp with hp | hp <;> simpa [Thread.Fits, hp] using hfit
  have hno : ¬ (s.thread t).Owns := by
    rcases hp with hp | hp <;> simp [Thread.Owns, hp, hd]
  have hmem : t ∉ s.lock.semaphore.waiters := by rwa [h.asleep t]
  have hd' : semaDown t s.lock.semaphore =
      some ({ s.lock.semaphore with waiters := s.lock.semaphore.waiters ++ [t] }, false) := by
    simp [semaDown, hv, assert_pos hmem]
  refine ⟨_, by rw [tryDown, hd']; rfl, ?_⟩
  simp only [Bool.false_eq_true, ↓reduceIte]
  refine ⟨?_, ?_, fun u => ?_, fits_set h (by simp [Thread.Fits, hd])⟩
  · rcases h.owner with hfree | ⟨u, hu⟩
    · rw [hfree.1] at hv
      cases hv
    · have hut : u ≠ t := by
        rintro rfl
        exact hno hu.owns
      refine .inr ⟨u, ⟨by rw [owns_other hut]; exact hu.owns, hv, ?_, ?_, fun w hw => ?_⟩⟩
      · rw [System.set_other hut]
        exact hu.holder
      · rw [System.set_other hut]
        exact hu.repeatNr
      · by_cases hwt : w = t
        · subst w
          simp [Thread.Owns, hd]
        · rw [owns_other hwt]
          exact hu.only w hw
  · simpa [List.nodup_append] using ⟨h.nodup, fun a ha e => hmem (e ▸ ha)⟩
  · by_cases hut : u = t
    · subst u
      simp
    · rw [System.set_other hut]
      simp [hut, h.asleep u]

/-- The semaphore is free: the thread becomes the owner. -/
theorem Invariant.take (h : Invariant s) (hp : (s.thread t).place = .down ∨
    (s.thread t).place = .awake) (hv : s.lock.semaphore.value ≠ 0) :
    ∃ s', tryDown t s = some s' ∧ Invariant s' := by
  have hne : (s.thread t).place ≠ .asleep := by
    rcases hp with hp | hp <;> simp [hp]
  have hd : (s.thread t).depth = 0 := by
    have hfit := h.fits t
    rcases hp with hp | hp <;> simpa [Thread.Fits, hp] using hfit
  rcases h.owner with ⟨hone, hh, hr, hno⟩ | ⟨u, hu⟩
  · have hd' : semaDown t s.lock.semaphore = some ({ s.lock.semaphore with value := 0 }, true) := by
      simp [semaDown, hone, assert]
    refine ⟨_, by rw [tryDown, hd']; rfl, ?_⟩
    simp only [↓reduceIte]
    refine ⟨.inr ⟨t, ⟨by simp [Thread.Owns], rfl, ?_, ?_, fun u hu => ?_⟩⟩, h.nodup,
      asleep_set h rfl hne (by simp), fits_set h (by simp [Thread.Fits, hd])⟩
    · simpa [Thread.holder] using hh
    · simpa [Thread.repeatNr] using hr
    · rw [owns_other hu]
      exact hno u
  · exact absurd hu.value hv

/-- `sema_up` pops the first sleeper and unblocks it. -/
theorem Invariant.wakeFirst (h : Invariant s) {a : T} {rest : List T}
    (hw : s.lock.semaphore.waiters = a :: rest) :
    Invariant (s.set { s.lock with semaphore := { s.lock.semaphore with waiters := rest } } a
      { s.thread a with place := .awake }) := by
  have ha : (s.thread a).place = .asleep := by
    rw [← h.asleep a, hw]
    exact List.mem_cons_self
  have hd : (s.thread a).depth = 0 := by simpa [Thread.Fits, ha] using h.fits a
  have hno : ¬ (s.thread a).Owns := by simp [Thread.Owns, ha, hd]
  have hnd : a ∉ rest ∧ rest.Nodup := List.nodup_cons.mp (hw ▸ h.nodup)
  refine ⟨?_, hnd.2, fun u => ?_, fits_set h (by simp [Thread.Fits, hd])⟩
  · rcases h.owner with ⟨hv, hh, hr, hfree⟩ | ⟨u, hu⟩
    · refine .inl ⟨hv, hh, hr, fun u => ?_⟩
      by_cases hua : u = a
      · subst u
        simp [Thread.Owns, hd]
      · rw [owns_other hua]
        exact hfree u
    · have hua : u ≠ a := by
        rintro rfl
        exact hno hu.owns
      refine .inr ⟨u, ⟨by rw [owns_other hua]; exact hu.owns, hu.value, ?_, ?_, fun w hw => ?_⟩⟩
      · rw [System.set_other hua]
        exact hu.holder
      · rw [System.set_other hua]
        exact hu.repeatNr
      · by_cases hwa : w = a
        · subst w
          simp [Thread.Owns, hd]
        · rw [owns_other hwa]
          exact hu.only w hw
  · by_cases hua : u = a
    · subst u
      simp [hnd.1]
    · rw [System.set_other hua, ← h.asleep u, hw]
      simp [hua]

/-- The owner counts the semaphore up and leaves. -/
theorem Invariant.leave (h : Invariant s) (hp : (s.thread t).place = .up) :
    Invariant (s.set { s.lock with semaphore := { s.lock.semaphore with value := 1 } } t
      { s.thread t with place := .outside }) := by
  have hd : (s.thread t).depth = 0 := by simpa [Thread.Fits, hp] using h.fits t
  have hown := h.ownedBy (t := t) (by simp [Thread.Owns, hp])
  have hh : s.lock.holder = none := by simpa [Thread.holder, hp] using hown.holder
  have hr : s.lock.holderRepeatNr = 0 := by simpa [Thread.repeatNr, hp] using hown.repeatNr
  refine ⟨.inl ⟨rfl, hh, hr, fun u => ?_⟩, h.nodup, asleep_set h rfl (by simp [hp]) (by simp),
    fits_set h (by simp [Thread.Fits, hd])⟩
  by_cases hut : u = t
  · subst u
    simp [Thread.Owns, hd]
  · rw [owns_other hut]
    exact hown.only u hut

theorem Invariant.give (h : Invariant s) (hp : (s.thread t).place = .up) :
    ∃ s', lastUp t s = some s' ∧ Invariant s' := by
  have hv := (h.ownedBy (t := t) (by simp [Thread.Owns, hp])).value
  cases hw : s.lock.semaphore.waiters with
  | nil =>
    have hup : semaUp s.lock.semaphore = some ({ s.lock.semaphore with value := 1 }, none) := by
      simp [semaUp, hv, hw, assert]
    refine ⟨_, by rw [lastUp, hup]; rfl, h.leave hp⟩
  | cons a rest =>
    have hup : semaUp s.lock.semaphore = some (⟨1, rest⟩, some a) := by
      simp [semaUp, hv, hw, assert]
    have ha : (s.thread a).place = .asleep := by
      rw [← h.asleep a, hw]
      exact List.mem_cons_self
    have hat : t ≠ a := by
      rintro rfl
      rw [hp] at ha
      cases ha
    have hwake : wake (some a) s = some (s.goto a .awake) := by simp [wake, ha, assert]
    refine ⟨_, by rw [lastUp, hup]; simp only [Option.bind_eq_bind, Option.bind_some, hwake]; rfl,
      ?_⟩
    exact (h.wakeFirst hw).leave (t := t) (by rw [System.set_other hat]; exact hp)

end Transitions

section Steps

variable {s : System T} {t : T}

theorem step_total (h : Invariant s) : ∃ s', step t s = some s' ∧ Invariant s' := by
  have hf := h.fits t
  unfold Thread.Fits at hf
  cases hp : (s.thread t).place with
  | outside => exact ⟨s, by simp [step, hp], h⟩
  | asleep => exact ⟨s, by simp [step, hp], h⟩
  | testHolder =>
    simp only [hp] at hf
    refine ⟨_, by simp only [step, hp]; rfl, ?_⟩
    by_cases hd : (s.thread t).depth = 0
    · have hno : ¬ (s.thread t).Owns := by simp [Thread.Owns, hp, hd]
      rw [if_pos (h.holder_ne hno)]
      exact h.pass (by simp [hp]) hno (by simp) (by simp [Thread.Fits, hd])
        (by simp [Thread.Owns, hd])
    · have ho : (s.thread t).Owns := .inl (Nat.pos_of_ne_zero hd)
      have hown := h.ownedBy ho
      have hh : s.lock.holder = some t := by simpa [Thread.holder, hp] using hown.holder
      have hr : s.lock.holderRepeatNr = (s.thread t).depth := by
        simpa [Thread.repeatNr, hp] using hown.repeatNr
      rw [if_neg (by simp [hh])]
      refine h.keep ho (by simp [hp]) rfl (by simp) ?_ (.inl (Nat.pos_of_ne_zero hd)) ?_ ?_
      · exact ⟨Nat.pos_of_ne_zero hd, hf⟩
      · simpa [Thread.holder] using hh
      · simpa [Thread.repeatNr] using hr
  | down =>
    by_cases hv : s.lock.semaphore.value = 0
    · simpa [step, hp] using h.sleep (.inl hp) hv
    · simpa [step, hp] using h.take (.inl hp) hv
  | awake =>
    by_cases hv : s.lock.semaphore.value = 0
    · simpa [step, hp] using h.sleep (.inr hp) hv
    · simpa [step, hp] using h.take (.inr hp) hv
  | up => simpa [step, hp] using h.give hp
  | setHolder =>
    simp only [hp] at hf
    have ho : (s.thread t).Owns := by simp [Thread.Owns, hp]
    have hown := h.ownedBy ho
    refine ⟨_, by simp only [step, hp]; rfl, ?_⟩
    refine h.keep ho (by simp [hp]) rfl (by simp) hf ?_ ?_ ?_
    · simp [Thread.Owns]
    · simp [Thread.holder]
    · simpa [Thread.repeatNr, hp] using hown.repeatNr
  | assertFresh =>
    simp only [hp] at hf
    have ho : (s.thread t).Owns := by simp [Thread.Owns, hp]
    have hown := h.ownedBy ho
    have hr : s.lock.holderRepeatNr = 0 := by simpa [Thread.repeatNr, hp] using hown.repeatNr
    refine ⟨s.goto t .setRepeat, by simp [step, hp, hr, assert],
      h.keep ho (by simp [hp]) rfl (by simp) hf ?_ ?_ ?_⟩
    · simp [Thread.Owns]
    · simpa [Thread.holder, hp] using hown.holder
    · simpa [Thread.repeatNr] using hr
  | setRepeat =>
    simp only [hp] at hf
    have ho : (s.thread t).Owns := by simp [Thread.Owns, hp]
    have hown := h.ownedBy ho
    refine ⟨_, by simp only [step, hp]; rfl, ?_⟩
    refine h.keep ho (by simp [hp]) rfl (by simp) ?_ ?_ ?_ ?_
    · simp [Thread.Fits, hf]
    · simp [Thread.Owns]
    · simpa [Thread.holder, hp] using hown.holder
    · simp [Thread.repeatNr, hf]
  | incRepeat =>
    simp only [hp] at hf
    have ho : (s.thread t).Owns := .inl hf.1
    have hown := h.ownedBy ho
    have hr : s.lock.holderRepeatNr = (s.thread t).depth := by
      simpa [Thread.repeatNr, hp] using hown.repeatNr
    refine ⟨_, by simp only [step, hp]; rfl, ?_⟩
    refine h.keep ho (by simp [hp]) rfl (by simp) ?_ ?_ ?_ ?_
    · simpa [Thread.Fits] using hf.2
    · simp [Thread.Owns]
    · simpa [Thread.holder, hp] using hown.holder
    · show incRepeatNr s.lock.holderRepeatNr = (s.thread t).depth + 1
      rw [hr]
      exact Nat.mod_eq_of_lt hf.2
  | assertHolder =>
    simp only [hp] at hf
    have ho : (s.thread t).Owns := by simp [Thread.Owns, hp]
    have hown := h.ownedBy ho
    have hh : s.lock.holder = some t := by simpa [Thread.holder, hp] using hown.holder
    refine ⟨s.goto t .testRepeat, by simp [step, hp, hh, assert],
      h.keep ho (by simp [hp]) rfl (by simp) hf ?_ ?_ ?_⟩
    · simp [Thread.Owns]
    · simpa [Thread.holder] using hh
    · simpa [Thread.repeatNr, hp] using hown.repeatNr
  | testRepeat =>
    simp only [hp] at hf
    have ho : (s.thread t).Owns := by simp [Thread.Owns, hp]
    have hown := h.ownedBy ho
    have hr : s.lock.holderRepeatNr = (s.thread t).depth + 1 := by
      simpa [Thread.repeatNr, hp] using hown.repeatNr
    have hh : s.lock.holder = some t := by simpa [Thread.holder, hp] using hown.holder
    refine ⟨_, by simp only [step, hp]; rfl, ?_⟩
    by_cases hd : (s.thread t).depth = 0
    · rw [if_neg (by omega)]
      refine h.keep ho (by simp [hp]) rfl (by simp) hd (by simp [Thread.Owns]) ?_ ?_
      · simpa [Thread.holder] using hh
      · simpa [Thread.repeatNr] using hr
    · rw [if_pos (by omega)]
      refine h.keep ho (by simp [hp]) rfl (by simp) ?_ (by simp [Thread.Owns]) ?_ ?_
      · exact ⟨Nat.pos_of_ne_zero hd, hf⟩
      · simpa [Thread.holder] using hh
      · simpa [Thread.repeatNr] using hr
  | decRepeat =>
    simp only [hp] at hf
    have ho : (s.thread t).Owns := by simp [Thread.Owns, hp]
    have hown := h.ownedBy ho
    have hr : s.lock.holderRepeatNr = (s.thread t).depth + 1 := by
      simpa [Thread.repeatNr, hp] using hown.repeatNr
    refine ⟨_, by simp only [step, hp]; rfl, ?_⟩
    refine h.keep ho (by simp [hp]) rfl (by simp) ?_ (.inl hf.1) ?_ ?_
    · show (s.thread t).depth < 2 ^ 32
      omega
    · simpa [Thread.holder, hp] using hown.holder
    · show decRepeatNr s.lock.holderRepeatNr = (s.thread t).depth
      unfold decRepeatNr
      omega
  | assertOne =>
    simp only [hp] at hf
    have ho : (s.thread t).Owns := by simp [Thread.Owns, hp]
    have hown := h.ownedBy ho
    have hr : s.lock.holderRepeatNr = 1 := by simpa [Thread.repeatNr, hp, hf] using hown.repeatNr
    refine ⟨s.goto t .clearHolder, by simp [step, hp, hr, assert],
      h.keep ho (by simp [hp]) rfl (by simp) hf ?_ ?_ ?_⟩
    · simp [Thread.Owns]
    · simpa [Thread.holder, hp] using hown.holder
    · simpa [Thread.repeatNr, hf] using hr
  | clearHolder =>
    simp only [hp] at hf
    have ho : (s.thread t).Owns := by simp [Thread.Owns, hp]
    have hown := h.ownedBy ho
    refine ⟨_, by simp only [step, hp]; rfl, ?_⟩
    refine h.keep ho (by simp [hp]) rfl (by simp) hf ?_ ?_ ?_
    · simp [Thread.Owns]
    · simp [Thread.holder]
    · simpa [Thread.repeatNr, hp] using hown.repeatNr
  | clearRepeat =>
    simp only [hp] at hf
    have ho : (s.thread t).Owns := by simp [Thread.Owns, hp]
    have hown := h.ownedBy ho
    refine ⟨_, by simp only [step, hp]; rfl, ?_⟩
    refine h.keep ho (by simp [hp]) rfl (by simp) hf ?_ ?_ ?_
    · simp [Thread.Owns]
    · simpa [Thread.holder, hp] using hown.holder
    · simp [Thread.repeatNr]

theorem exec_total {e : Event T} (h : Invariant s) (he : Enabled e s ∧ Shallow e s) :
    ∃ s', exec e s = some s' ∧ Invariant s' := by
  cases e with
  | step t => exact step_total h
  | acquire t =>
    obtain ⟨hp, hd⟩ : (s.thread t).place = .outside ∧ (s.thread t).depth + 1 < 2 ^ 32 := he
    refine ⟨_, rfl, ?_⟩
    by_cases hz : (s.thread t).depth = 0
    · exact h.pass (by simp [hp]) (by simp [Thread.Owns, hp, hz]) (by simp)
        (by simpa [Thread.Fits] using hd) (by simp [Thread.Owns, hz])
    · have ho : (s.thread t).Owns := .inl (Nat.pos_of_ne_zero hz)
      have hown := h.ownedBy ho
      refine h.keep ho (by simp [hp]) rfl (by simp) hd (.inl (Nat.pos_of_ne_zero hz)) ?_ ?_
      · simpa [Thread.holder, hp] using hown.holder
      · simpa [Thread.repeatNr, hp] using hown.repeatNr
  | release t =>
    obtain ⟨hp, hd⟩ : (s.thread t).place = .outside ∧ 0 < (s.thread t).depth := he.1
    have hf := h.fits t
    simp only [Thread.Fits, hp] at hf
    have hown := h.ownedBy (.inl hd)
    refine ⟨_, rfl, h.keep (.inl hd) (by simp [hp]) rfl (by simp) ?_ (by simp [Thread.Owns]) ?_ ?_⟩
    · show (s.thread t).depth - 1 + 1 < 2 ^ 32
      omega
    · simpa [Thread.holder, hp] using hown.holder
    · have hr : s.lock.holderRepeatNr = (s.thread t).depth := by
        simpa [Thread.repeatNr, hp] using hown.repeatNr
      show s.lock.holderRepeatNr = (s.thread t).depth - 1 + 1
      omega

end Steps

/-! What a step of one thread means to a caller of the lock. -/

section Callers

variable {s s' : System T} {t : T}

/-- Only `sema_down` and `sema_up` touch the semaphore; only `sema_down` moves a thread that was
unblocked. -/
theorem step_cases (h : step t s = some s') :
    s' = s ∨ tryDown t s = some s' ∨ ((s.thread t).place = .up ∧ lastUp t s = some s') ∨
      ((s.thread t).place ≠ .awake ∧
        ∃ l c, l.semaphore = s.lock.semaphore ∧ s' = s.set l t c) := by
  cases hp : (s.thread t).place <;> simp only [step, hp] at h
  case outside | asleep =>
    exact .inl (Option.some.inj h).symm
  case down | awake =>
    exact .inr (.inl h)
  case up =>
    exact .inr (.inr (.inl ⟨rfl, h⟩))
  case assertFresh | assertHolder | assertOne =>
    obtain ⟨_, h⟩ := assert_bind.mp h
    exact .inr (.inr (.inr ⟨by simp, _, _, rfl, (Option.some.inj h).symm⟩))
  all_goals
    refine .inr (.inr (.inr ⟨by simp, _, _, ?_, (Option.some.inj h).symm⟩))
    rfl

theorem tryDown_other {u : T} (h : tryDown t s = some s') (hu : u ≠ t) :
    s'.thread u = s.thread u := by
  simp only [tryDown, bind_some_iff] at h
  obtain ⟨⟨x, passed⟩, _, h⟩ := h
  obtain rfl := Option.some.inj h
  exact System.set_other hu

theorem lastUp_other {u : T} (h : lastUp t s = some s') (hu : u ≠ t) :
    s'.thread u = s.thread u ∨
      ((s.thread u).place = .asleep ∧ s'.thread u = { s.thread u with place := .awake }) := by
  simp only [lastUp, bind_some_iff] at h
  obtain ⟨⟨x, a⟩, _, s₁, hwake, h⟩ := h
  obtain rfl := Option.some.inj h
  rw [System.set_other hu]
  cases a with
  | none =>
    obtain rfl := Option.some.inj hwake
    exact .inl rfl
  | some a =>
    obtain ⟨ha, hwake⟩ := assert_bind.mp hwake
    obtain rfl := Option.some.inj hwake
    by_cases hua : u = a
    · subst u
      exact .inr ⟨ha, by simp [System.goto]⟩
    · exact .inl (System.set_other hua)

/-- The other threads stay where they are, but for one that is woken. -/
theorem step_other {u : T} (h : step t s = some s') (hu : u ≠ t) :
    s'.thread u = s.thread u ∨
      ((s.thread u).place = .asleep ∧ s'.thread u = { s.thread u with place := .awake }) := by
  rcases step_cases h with rfl | hdown | ⟨_, hup⟩ | ⟨_, l, c, _, rfl⟩
  · exact .inl rfl
  · exact .inl (tryDown_other hdown hu)
  · exact lastUp_other hup hu
  · exact .inl (System.set_other hu)

/-- On the way into the outermost `lock_acquire`. -/
def Thread.Acquiring (c : Thread) : Prop :=
  c.depth = 0 ∧
    c.place ∈ [.testHolder, .down, .asleep, .awake, .setHolder, .assertFresh, .setRepeat]

/-- On the way out of the outermost `lock_release`. -/
def Thread.Releasing (c : Thread) : Prop :=
  c.depth = 0 ∧
    c.place ∈ [.assertHolder, .testRepeat, .assertOne, .clearHolder, .clearRepeat, .up]

theorem step_acquiring (h : Invariant s) (hs : step t s = some s')
    (hc : (s.thread t).Acquiring) :
    s'.thread t = ⟨.outside, 1⟩ ∨ (s'.thread t).Acquiring := by
  obtain ⟨hd, hp⟩ := hc
  have hdown : tryDown t s = some s' → (s'.thread t).Acquiring := by
    intro hdown
    simp only [tryDown, bind_some_iff] at hdown
    obtain ⟨⟨x, passed⟩, _, hdown⟩ := hdown
    obtain rfl := Option.some.inj hdown
    cases passed <;> simp [Thread.Acquiring, hd]
  simp only [List.mem_cons, List.not_mem_nil, or_false] at hp
  rcases hp with hp | hp | hp | hp | hp | hp | hp <;> simp only [step, hp] at hs
  · have hh : s.lock.holder ≠ some t := h.holder_ne (by simp [Thread.Owns, hp, hd])
    obtain rfl := Option.some.inj hs
    simp [Thread.Acquiring, System.goto, hh, hd]
  · exact .inr (hdown hs)
  · obtain rfl := Option.some.inj hs
    simp [Thread.Acquiring, hp, hd]
  · exact .inr (hdown hs)
  · obtain rfl := Option.some.inj hs
    simp [Thread.Acquiring, hd]
  · obtain ⟨_, hs⟩ := assert_bind.mp hs
    obtain rfl := Option.some.inj hs
    simp [Thread.Acquiring, System.goto, hd]
  · obtain rfl := Option.some.inj hs
    simp [hd]

theorem step_releasing (h : Invariant s) (hs : step t s = some s')
    (hc : (s.thread t).Releasing) :
    s'.thread t = ⟨.outside, 0⟩ ∨ (s'.thread t).Releasing := by
  obtain ⟨hd, hp⟩ := hc
  simp only [List.mem_cons, List.not_mem_nil, or_false] at hp
  rcases hp with hp | hp | hp | hp | hp | hp <;> simp only [step, hp] at hs
  · obtain ⟨_, hs⟩ := assert_bind.mp hs
    obtain rfl := Option.some.inj hs
    simp [Thread.Releasing, System.goto, hd]
  · have hown := h.ownedBy (t := t) (by simp [Thread.Owns, hp])
    have hr : s.lock.holderRepeatNr = 1 := by
      simpa [Thread.repeatNr, hp, hd] using hown.repeatNr
    obtain rfl := Option.some.inj hs
    simp [Thread.Releasing, System.goto, hr, hd]
  · obtain ⟨_, hs⟩ := assert_bind.mp hs
    obtain rfl := Option.some.inj hs
    simp [Thread.Releasing, System.goto, hd]
  · obtain rfl := Option.some.inj hs
    simp [Thread.Releasing, hd]
  · obtain rfl := Option.some.inj hs
    simp [Thread.Releasing, hd]
  · simp only [lastUp, bind_some_iff] at hs
    obtain ⟨⟨x, a⟩, _, s₁, hwake, hs⟩ := hs
    obtain rfl := Option.some.inj hs
    left
    cases a with
    | none =>
      obtain rfl := Option.some.inj hwake
      simp [hd]
    | some a =>
      obtain ⟨ha, hwake⟩ := assert_bind.mp hwake
      obtain rfl := Option.some.inj hwake
      have hat : t ≠ a := by
        rintro rfl
        rw [hp] at ha
        cases ha
      simp [System.goto, System.set_other hat, hd]

end Callers

section Uninterrupted

variable {s s' : System T} {t : T}

theorem finish_total (h : Invariant s) (n : ℕ) : ∃ s', finish t n s = some s' ∧ Invariant s' := by
  induction n generalizing s with
  | zero => exact ⟨s, rfl, h⟩
  | succ n ih =>
    obtain ⟨s₁, hs, h₁⟩ := step_total (t := t) h
    obtain ⟨s', hf, h'⟩ := ih h₁
    exact ⟨s', bind_some_iff.mpr ⟨s₁, hs, hf⟩, h'⟩

theorem lockAcquire_total (h : Invariant s) (ht : s.thread t = ⟨.outside, 0⟩) :
    ∃ s', lockAcquire t s = some s' ∧ Invariant s' := by
  have hd : (s.thread t).depth + 1 < 2 ^ 32 := by simp [ht]
  obtain ⟨s₁, hs, h₁⟩ := exec_total (e := .acquire t) h ⟨by simp [Enabled, ht], hd⟩
  obtain ⟨s', hf, h'⟩ := finish_total (t := t) h₁ 6
  exact ⟨s', bind_some_iff.mpr ⟨s₁, hs, hf⟩, h'⟩

theorem lockRelease_total (h : Invariant s) (ht : s.thread t = ⟨.outside, 1⟩) :
    ∃ s', lockRelease t s = some s' ∧ Invariant s' := by
  have hen : Enabled (.release t) s := by simp [Enabled, ht]
  obtain ⟨s₁, hs, h₁⟩ := exec_total (e := .release t) h ⟨hen, trivial⟩
  obtain ⟨s', hf, h'⟩ := finish_total (t := t) h₁ 6
  exact ⟨s', bind_some_iff.mpr ⟨s₁, hs, hf⟩, h'⟩

theorem lockAcquire_free (h : Invariant s) (ht : s.thread t = ⟨.outside, 0⟩)
    (hv : s.lock.semaphore.value ≠ 0) :
    lockAcquire t s = some (s.set ⟨some t, { s.lock.semaphore with value := 0 }, 1⟩ t
      ⟨.outside, 1⟩) := by
  obtain ⟨hone, hh, hr, -⟩ := h.value_one hv
  simp [lockAcquire, exec, finish, step, System.goto, tryDown, semaDown, assert, ht, hone, hh, hr]

theorem lockAcquire_taken (h : Invariant s) (ht : s.thread t = ⟨.outside, 0⟩)
    (hv : s.lock.semaphore.value = 0) :
    lockAcquire t s = some (s.set { s.lock with semaphore :=
      { s.lock.semaphore with waiters := s.lock.semaphore.waiters ++ [t] } } t ⟨.asleep, 0⟩) := by
  have hh : s.lock.holder ≠ some t := h.holder_ne (by simp [Thread.Owns, ht])
  have hw : t ∉ s.lock.semaphore.waiters := by simp [h.asleep t, ht]
  simp [lockAcquire, exec, finish, step, System.goto, tryDown, semaDown, assert, ht, hv, hh, hw]

theorem lockResume_free (h : Invariant s) (ht : s.thread t = ⟨.awake, 0⟩)
    (hv : s.lock.semaphore.value ≠ 0) :
    lockResume t s = some (s.set ⟨some t, { s.lock.semaphore with value := 0 }, 1⟩ t
      ⟨.outside, 1⟩) := by
  obtain ⟨hone, -, hr, -⟩ := h.value_one hv
  simp [lockResume, finish, step, System.goto, tryDown, semaDown, assert, ht, hone, hr]

theorem lockResume_taken (h : Invariant s) (ht : s.thread t = ⟨.awake, 0⟩)
    (hv : s.lock.semaphore.value = 0) :
    lockResume t s = some (s.set { s.lock with semaphore :=
      { s.lock.semaphore with waiters := s.lock.semaphore.waiters ++ [t] } } t ⟨.asleep, 0⟩) := by
  have hw : t ∉ s.lock.semaphore.waiters := by simp [h.asleep t, ht]
  simp [lockResume, finish, step, tryDown, semaDown, assert, ht, hv, hw]

/-- The last release wakes the first sleeper and nobody else. -/
theorem lockRelease_last (h : Invariant s) (ht : s.thread t = ⟨.outside, 1⟩) :
    ∃ s', lockRelease t s = some s' ∧ s'.thread t = ⟨.outside, 0⟩ ∧
      s'.lock.semaphore.value = 1 ∧ ∀ u, u ≠ t → s'.thread u = s.thread u ∨
        (s.thread u = ⟨.asleep, 0⟩ ∧ s'.thread u = ⟨.awake, 0⟩) := by
  have hown := h.ownedBy (t := t) (by simp [Thread.Owns, ht])
  have hh : s.lock.holder = some t := by simpa [Thread.holder, ht] using hown.holder
  have hr : s.lock.holderRepeatNr = 1 := by simpa [Thread.repeatNr, ht] using hown.repeatNr
  have hv := hown.value
  cases hw : s.lock.semaphore.waiters with
  | nil =>
    refine ⟨s.set ⟨none, ⟨1, []⟩, 0⟩ t ⟨.outside, 0⟩, ?_, by simp, rfl, fun u hu => .inl ?_⟩
    · simp [lockRelease, exec, finish, step, System.goto, lastUp, wake, semaUp, assert, ht, hh, hr,
        hv, hw]
    · exact System.set_other hu
  | cons a rest =>
    have ha : (s.thread a).place = .asleep := by
      rw [← h.asleep a, hw]
      exact List.mem_cons_self
    have hd : (s.thread a).depth = 0 := by simpa [Thread.Fits, ha] using h.fits a
    have hat : a ≠ t := by
      rintro rfl
      rw [ht] at ha
      cases ha
    have hother : ∀ l c, (s.set l t c).thread a = s.thread a := fun _ _ => System.set_other hat
    refine ⟨(s.set s.lock a ⟨.awake, 0⟩).set ⟨none, ⟨1, rest⟩, 0⟩ t ⟨.outside, 0⟩, ?_, by simp, rfl,
      fun u hu => ?_⟩
    · simp [lockRelease, exec, finish, step, System.goto, lastUp, wake, semaUp, assert, ht, hh, hr,
        hv, hw, hother, ha, hd, System.set_other hat.symm, System.set_around hat _ _ s.lock]
    · by_cases hua : u = a
      · subst u
        right
        refine ⟨?_, by rw [System.set_other hu, System.set_self]⟩
        rw [← ha, ← hd]
      · left
        rw [System.set_other hu, System.set_other hua]

end Uninterrupted

/-- Between the return of the outermost `lock_acquire` and the call of its `lock_release`. -/
def Inside (s : System T) (t : T) : Prop := 0 < (s.thread t).depth

structure Exclusive (s : System T) : Prop where
  one_inside : ∀ t u, Inside s t → Inside s u → t = u
  value_le_one : s.lock.semaphore.value ≤ 1
  free : s.lock.semaphore.value = 1 → s.lock.holder = none ∧ s.lock.holderRepeatNr = 0
  holder_inside : ∀ t, Inside s t → s.lock.holder = some t
  repeat_depth : ∀ t, Inside s t → (s.thread t).place = .outside →
    s.lock.holderRepeatNr = (s.thread t).depth

theorem Invariant.exclusive {s : System T} (h : Invariant s) : Exclusive s := by
  have hfree : s.lock.semaphore.value = 1 → Free s := by
    intro hv
    rcases h.owner with hfree | ⟨t, ht⟩
    · exact hfree
    · rw [ht.value] at hv
      cases hv
  refine ⟨fun t u ht hu => ?_, ?_, fun hv => ⟨(hfree hv).2.1, (hfree hv).2.2.1⟩, fun t ht => ?_,
    fun t ht hp => ?_⟩
  · by_contra hne
    exact (h.ownedBy (.inl hu)).only t hne (.inl ht)
  · rcases h.owner with hfree | ⟨t, ht⟩
    · exact Nat.le_of_eq hfree.1
    · simp [ht.value]
  · rw [(h.ownedBy (.inl ht)).holder]
    exact Thread.holder_inside (h.fits t) ht t
  · simpa [Thread.repeatNr, hp] using (h.ownedBy (.inl ht)).repeatNr

theorem run_exclusive (l : List (Event T))
    (h : AllMeet exec (fun e s => Enabled e s ∧ Shallow e s) l (System.initial : System T)) :
    ∃ s, runAll exec l System.initial = some s ∧ Exclusive s := by
  obtain ⟨s, hr, hi⟩ := runAll_total Invariant (fun e s hi he => exec_total hi he)
    initial_invariant h
  exact ⟨s, hr, hi.exclusive⟩

/-- One thread nests twice and comes out again while another waits for it. -/
theorem run_exclusive_two_threads :
    ∃ s, runAll exec ([.acquire 0, .step 0, .step 0, .step 0, .step 0, .step 0, .acquire 0, .step 0,
        .step 0, .acquire 1, .step 1, .step 1, .release 0, .step 0, .step 0, .step 0] :
        List (Event ℕ)) System.initial = some s ∧ Exclusive s :=
  run_exclusive _ (by decide +kernel)

section Overflow

def firstAcquire : List (Event Unit) :=
  [.acquire (), .step (), .step (), .step (), .step (), .step ()]

def againAcquire : List (Event Unit) := [.acquire (), .step (), .step ()]

/-- One thread calls `lock_acquire` `n + 1` times. -/
def nested : ℕ → List (Event Unit)
  | 0 => firstAcquire
  | n + 1 => nested n ++ againAcquire

/-- The thread holds the lock, out of every call. -/
def holding (repeatNr depth : ℕ) : System Unit :=
  ⟨⟨some (), ⟨0, []⟩, repeatNr⟩, fun _ => ⟨.outside, depth⟩⟩

theorem System.set_unit (s : System Unit) (l : Lock Unit) (c : Thread) :
    s.set l () c = ⟨l, fun _ => c⟩ := by
  rw [System.set]
  congr 1

theorem run_againAcquire (r n : ℕ) :
    runAll exec againAcquire (holding r n) = some (holding (incRepeatNr r) (n + 1)) := rfl

theorem run_nested (n : ℕ) :
    ∃ r, r = (n + 1) % 2 ^ 32 ∧
      runAll exec (nested n) System.initial = some (holding r (n + 1)) := by
  induction n with
  | zero => exact ⟨1, (Nat.mod_eq_of_lt (by decide)).symm, rfl⟩
  | succ n ih =>
    obtain ⟨r, hr, hrun⟩ := ih
    refine ⟨incRepeatNr r, ?_, ?_⟩
    · rw [incRepeatNr, hr, Nat.mod_add_mod]
    · rw [nested, runAll_append, hrun]
      exact run_againAcquire r (n + 1)

theorem againAcquire_enabled (r n : ℕ) : AllMeet exec Enabled againAcquire (holding r n) := by
  refine ⟨rfl, fun s hs => ?_⟩
  obtain rfl := Option.some.inj hs
  refine ⟨⟨show Place.testHolder ≠ .outside by decide, show Place.testHolder ≠ .asleep by decide⟩,
    fun s hs => ?_⟩
  obtain rfl := Option.some.inj hs
  exact ⟨⟨show Place.incRepeat ≠ .outside by decide, show Place.incRepeat ≠ .asleep by decide⟩,
    fun _ _ => trivial⟩

theorem nested_enabled (n : ℕ) : AllMeet exec Enabled (nested n) System.initial := by
  induction n with
  | zero => decide +kernel
  | succ n ih =>
    refine allMeet_append ih fun s hs => ?_
    obtain ⟨r, _, hrun⟩ := run_nested n
    obtain rfl := Option.some.inj (hrun.symm.trans hs)
    exact againAcquire_enabled r (n + 1)

/-- A release asserts that `holder_repeat_nr` is 1 when it is not more. -/
theorem release_holding_zero (n : ℕ) :
    runAll exec [.release (), .step (), .step (), .step ()] (holding 0 n) = none := by
  simp only [runAll, exec, step, System.goto, System.set_unit, holding]
  rfl

/-- After `2 ^ 32` nested calls `holder_repeat_nr` is 0 again, and the next release fails. -/
theorem nested_overflows :
    AllMeet exec Enabled (nested (2 ^ 32 - 1)) System.initial ∧
    (∃ s, runAll exec (nested (2 ^ 32 - 1)) System.initial = some s ∧ Inside s () ∧
      (s.thread ()).depth = 2 ^ 32 ∧ s.lock.holderRepeatNr = 0 ∧ ¬ Exclusive s) ∧
    runAll exec (nested (2 ^ 32 - 1) ++ [.release (), .step (), .step (), .step ()])
      System.initial = none := by
  -- the number stays a variable, so that no step counts up to it
  obtain ⟨n, hn⟩ : ∃ n, n = 2 ^ 32 - 1 := ⟨_, rfl⟩
  obtain ⟨m, hm⟩ : ∃ m, m = 2 ^ 32 := ⟨_, rfl⟩
  have hlast : n + 1 = m := by omega
  have hpos : 0 < m := hm ▸ Nat.two_pow_pos 32
  obtain ⟨r, hr, hrun⟩ := run_nested n
  rw [hlast] at hr hrun
  rw [hm, Nat.mod_self] at hr
  subst r
  rw [← hn, ← hm]
  refine ⟨nested_enabled n, ⟨holding 0 m, hrun, hpos, rfl, rfl, fun h => ?_⟩, ?_⟩
  · have hr : 0 = m := h.repeat_depth () hpos rfl
    exact absurd hr (Nat.ne_of_lt hpos)
  · rw [runAll_append, hrun]
    exact release_holding_zero m

end Overflow

section Waiters

variable {s s' : System T} {t : T}

/-- A thread that `sema_up` unblocked has not tested the value again. -/
def Attended (s : System T) : Prop :=
  s.lock.semaphore.value = 1 → s.lock.semaphore.waiters ≠ [] → ∃ t, (s.thread t).place = .awake

theorem Attended.set (h : Attended s) {l : Lock T} {c : Thread}
    (hl : l.semaphore = s.lock.semaphore) (ht : (s.thread t).place ≠ .awake) :
    Attended (s.set l t c) := by
  intro hv hw
  rw [System.set_lock, hl] at hv hw
  obtain ⟨u, hu⟩ := h hv hw
  refine ⟨u, ?_⟩
  have hut : u ≠ t := by
    rintro rfl
    exact ht hu
  rwa [System.set_other hut]

/-- After `sema_down` has tested the value it is 0, whoever took it. -/
theorem tryDown_value (h : tryDown t s = some s') : s'.lock.semaphore.value = 0 := by
  simp only [tryDown, bind_some_iff] at h
  obtain ⟨⟨x, passed⟩, hd, h⟩ := h
  obtain rfl := Option.some.inj h
  unfold semaDown at hd
  split at hd
  · next hv =>
    obtain ⟨_, hd⟩ := assert_bind.mp hd
    obtain ⟨rfl, _⟩ := Prod.mk.inj (Option.some.inj hd)
    exact hv
  · obtain ⟨hv, hd⟩ := assert_bind.mp hd
    obtain ⟨rfl, _⟩ := Prod.mk.inj (Option.some.inj hd)
    exact hv

/-- `sema_up` wakes the first of the waiters. -/
theorem lastUp_attended (h : lastUp t s = some s') (ht : (s.thread t).place = .up) :
    Attended s' := by
  intro _ hw
  simp only [lastUp, semaUp, bind_some_iff] at h
  obtain ⟨⟨x, a⟩, ⟨_, _, _, _, hup⟩, s₁, hwake, h⟩ := h
  obtain rfl := Option.some.inj h
  cases hws : s.lock.semaphore.waiters with
  | nil =>
    simp only [hws] at hup
    obtain ⟨rfl, _⟩ := Prod.mk.inj (Option.some.inj hup)
    exact absurd rfl hw
  | cons b rest =>
    simp only [hws] at hup
    obtain ⟨rfl, rfl⟩ := Prod.mk.inj (Option.some.inj hup)
    obtain ⟨hb, hwake⟩ := assert_bind.mp hwake
    obtain rfl := Option.some.inj hwake
    have hbt : b ≠ t := by
      rintro rfl
      rw [ht] at hb
      cases hb
    refine ⟨b, ?_⟩
    rw [System.set_other hbt]
    simp [System.goto]

theorem exec_attended {e : Event T} (h : Attended s) (he : Enabled e s)
    (hs : exec e s = some s') : Attended s' := by
  cases e with
  | acquire t =>
    obtain rfl := Option.some.inj hs
    have hp : (s.thread t).place = .outside := he
    exact h.set rfl (by simp [hp])
  | release t =>
    obtain rfl := Option.some.inj hs
    exact h.set rfl (by simp [he.1])
  | step t =>
    rcases step_cases hs with rfl | hdown | ⟨hp, hup⟩ | ⟨hp, l, c, hl, rfl⟩
    · exact h
    · intro hv _
      rw [tryDown_value hdown] at hv
      cases hv
    · exact lastUp_attended hup hp
    · exact h.set hl hp

theorem run_no_stranded_waiter (l : List (Event T)) (hl : AllMeet exec Enabled l System.initial)
    (s : System T) (hr : runAll exec l System.initial = some s)
    (hv : s.lock.semaphore.value = 1) (hw : s.lock.semaphore.waiters ≠ []) :
    ∃ t, (s.thread t).place = .awake := by
  have hinit : Attended (System.initial : System T) := fun _ h => absurd rfl h
  exact runAll_invariant Attended (fun e s s' h he hs => exec_attended h he hs) hinit hl hr hv hw

def twoSleepers : List (Event ℕ) :=
  [.acquire 0, .step 0, .step 0, .step 0, .step 0, .step 0, .acquire 1, .step 1, .step 1,
    .acquire 2, .step 2, .step 2, .release 0, .step 0, .step 0, .step 0, .step 0, .step 0, .step 0]

/-- The first of two sleepers is awake when the holder has released the lock. -/
theorem run_no_stranded_waiter_two_sleepers :
    ∃ s, runAll exec twoSleepers System.initial = some s ∧ s.lock.semaphore = ⟨1, [2]⟩ ∧
      ∃ t, (s.thread t).place = .awake :=
  ⟨_, rfl, rfl, run_no_stranded_waiter twoSleepers (by decide +kernel) _ rfl rfl
    (List.cons_ne_nil _ _)⟩

end Waiters

end SyncLock
