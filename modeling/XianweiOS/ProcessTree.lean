import XianweiOS.ProcessMemory

/-! Processes as a tree: `sys_fork`, `sys_wait` and `sys_exit` of `userprog/`, `thread_exit` and the
pids of `thread/thread.c`. A task is named by a number of its own, since pages of a `task_struct`
and pids are used again. A system call runs with interrupts off; it is cut where it may be blocked
on the lock of a memory pool or on the disk, and any task that is not blocked may go on. What else a
system call does to memory and files is left out. -/
namespace ProcessTree

open ByteStore HaltingProgram KernelBitmap ProcessMemory

/-- `active` is `TASK_RUNNING`, `TASK_READY` or `TASK_BLOCKED`. -/
inductive Status where
  | active
  | waiting
  | hanging
  | died
  deriving DecidableEq, Repr

/-- Where a task goes on: in `sys_fork` before and after the child has its pid, at the top of the
loop of `sys_wait`, in `thread_exit` of a child before and after it is off `thread_all_list`, in
`release_prog_resource`, or nowhere. -/
inductive Place where
  | user
  | fork
  | build (child : ℕ)
  | wait
  | reap (child : ℕ)
  | release (child : ℕ)
  | exit
  | ended
  deriving DecidableEq, Repr

/-- `none` is the `parent_pid` -1. -/
structure Task where
  pid : ℕ
  parentPid : Option ℕ
  status : Status
  place : Place
  deriving DecidableEq, Repr

/-- `returned` are the children that calls of `sys_wait` returned. -/
structure State where
  tasks : ℕ → Option Task
  threadAllList : List ℕ
  pidBits : Bytes
  next : ℕ
  returned : List ℕ
  halted : Bool

def State.modify (s : State) (x : ℕ) (f : Task → Task) : State :=
  { s with tasks := Function.update s.tasks x ((s.tasks x).map f) }

def State.goto (s : State) (x : ℕ) (p : Place) : State := s.modify x fun t => { t with place := p }

/-- The numbers of the tasks that the boot makes. -/
def initTask : ℕ := 0
def mainTask : ℕ := 1
def idleTask : ℕ := 2

/-- After `thread_init`: `init`, `main` and `idle`. -/
def State.initial : State where
  tasks := fun x =>
    if x ≤ idleTask then some ⟨x + 1, none, .active, .user⟩ else none
  threadAllList := [initTask, mainTask, idleTask]
  pidBits := (setBits (pidBitmap fun _ => 0#8) 0 true 3).bits
  next := 3
  returned := []
  halted := false

def isChild (s : State) (pid x : ℕ) : Bool :=
  match s.tasks x with
  | none => false
  | some t => t.parentPid = some pid

def isHangingChild (s : State) (pid x : ℕ) : Bool :=
  match s.tasks x with
  | none => false
  | some t => t.parentPid = some pid ∧ t.status = .hanging

def pidOf (s : State) (x : ℕ) : Option ℕ := (s.tasks x).map Task.pid

def pid2thread (s : State) (pid : ℕ) : Option ℕ :=
  s.threadAllList.find? fun x => pidOf s x = some pid

def initAdoptAChild (s : State) (pid x : ℕ) (t : Task) : Task :=
  if x ∈ s.threadAllList ∧ t.parentPid = some pid then { t with parentPid := some 1 } else t

/-- The children of an exiting process go to `init`. -/
def initAdoptChildren (pid : ℕ) (s : State) : State :=
  { s with tasks := fun x => (s.tasks x).map (initAdoptAChild s pid x) }

/-- `sys_fork` up to the child's pid; `ok` says whether there are pages. A scan that finds no free
pid stops the machine. -/
def forkPid (x : ℕ) (ok : Bool) (s : State) : Option State := do
  let t ← s.tasks x
  if ok then
    match allocatePid s.pidBits with
    | none => return { s with halted := true }
    | some (bits, pid) =>
      let s := s.goto x (.build s.next)
      return { s with
        tasks := Function.update s.tasks s.next (some ⟨pid, some t.pid, .active, .user⟩)
        pidBits := bits
        next := s.next + 1 }
  else return s.goto x .user

/-- The end of `sys_fork`; a child that could not be built keeps its pid for ever. -/
def forkEnd (x child : ℕ) (ok : Bool) (s : State) : Option State :=
  if ok then do
    assert (child ∉ s.threadAllList)
    return { s.goto x .user with threadAllList := s.threadAllList ++ [child] }
  else some { s.goto x .user with tasks := Function.update (s.goto x .user).tasks child none }

/-- The loop of `sys_wait` once, up to `status = TASK_DIED` in `thread_exit` of the child. -/
def sysWait (x : ℕ) (s : State) : Option State := do
  let t ← s.tasks x
  match s.threadAllList.find? (isHangingChild s t.pid) with
  | some child =>
    return (s.modify child fun c => { c with status := .died }).goto x (.reap child)
  | none =>
    match s.threadAllList.find? (isChild s t.pid) with
    | none => return s.goto x .user
    | some _ => return s.modify x fun t => { t with status := .waiting }

/-- `thread_exit` takes the child off the list. -/
def threadExitList (x child : ℕ) (s : State) : State :=
  { s.goto x (.release child) with threadAllList := s.threadAllList.erase child }

/-- The end of `thread_exit`, and of `sys_wait`. -/
def threadExitPid (x child : ℕ) (s : State) : Option State := do
  let c ← s.tasks child
  let s := s.goto x .user
  return { s with
    tasks := Function.update s.tasks child none
    pidBits := releasePid s.pidBits c.pid
    returned := s.returned ++ [child] }

/-- The beginning of `sys_exit`. -/
def sysExitAdopt (x : ℕ) (s : State) : Option State := do
  let t ← s.tasks x
  assert (t.parentPid ≠ none)
  return (initAdoptChildren t.pid s).goto x .exit

/-- `thread_unblock` of a parent in `TASK_WAITING`. -/
def wakeParent (p : ℕ) (s : State) : State :=
  s.modify p fun u => if u.status = .waiting then { u with status := .active } else u

/-- The end of `sys_exit`; `none` is a parent that `pid2thread` does not find. -/
def sysExitEnd (x : ℕ) (s : State) : Option State := do
  let t ← s.tasks x
  let pid ← t.parentPid
  let p ← pid2thread s pid
  return (wakeParent p s).modify x fun t => { t with status := .hanging, place := .ended }

/-- `blocks` says whether `release_prog_resource` is blocked on its way. -/
def sysExit (x : ℕ) (blocks : Bool) (s : State) : Option State := do
  let s ← sysExitAdopt x s
  if blocks then return s else sysExitEnd x s

/-- `thread_exit(running_thread(), true)` at the end of `main`. -/
def mainExit (s : State) : Option State := do
  let t ← s.tasks mainTask
  return { s with
    tasks := Function.update s.tasks mainTask none
    threadAllList := s.threadAllList.erase mainTask
    pidBits := releasePid s.pidBits t.pid }

/-- A task that was switched out goes on; `ok` says whether there are pages. -/
def goOn (x : ℕ) (ok : Bool) (s : State) : Option State := do
  let t ← s.tasks x
  match t.place with
  | .user | .ended => return s
  | .fork => forkPid x ok s
  | .build child => forkEnd x child ok s
  | .wait => sysWait x s
  | .reap child => return threadExitList x child s
  | .release child => threadExitPid x child s
  | .exit => sysExitEnd x s

inductive Event where
  | fork (x : ℕ)
  | wait (x : ℕ)
  | exit (x : ℕ) (blocks : Bool)
  | goOn (x : ℕ) (ok : Bool)
  | mainExit
  deriving DecidableEq, Repr

/-- `none` is a failed `ASSERT`, a `PANIC` or a null pointer. -/
def exec : Event → State → Option State
  | .fork x, s => some (s.goto x .fork)
  | .wait x, s => some (s.goto x .wait)
  | .exit x blocks, s => sysExit x blocks s
  | .goOn x ok, s => goOn x ok s
  | .mainExit, s => mainExit s

/-- A user process that runs outside system calls: `init` or a child that was forked. -/
def Calls (x : ℕ) (s : State) : Prop :=
  x ∈ s.threadAllList ∧ ∃ t, s.tasks x = some t ∧ t.status = .active ∧ t.place = .user ∧
    (x = initTask ∨ t.parentPid ≠ none)

/-- `init` does not exit; `main` ends once. -/
def May : Event → State → Prop
  | .fork x, s | .wait x, s => Calls x s
  | .exit x _, s => Calls x s ∧ x ≠ initTask
  | .goOn x _, s => ∃ t, s.tasks x = some t ∧ t.status = .active
  | .mainExit, s => mainTask ∈ s.threadAllList

def Enabled (e : Event) (s : State) : Prop := s.halted = false ∧ May e s

instance (x : ℕ) (s : State) : Decidable (Calls x s) := by
  unfold Calls
  cases h : s.tasks x with
  | none => exact .isFalse (by simp)
  | some t =>
    exact decidable_of_iff (x ∈ s.threadAllList ∧ t.status = .active ∧ t.place = .user ∧
      (x = initTask ∨ t.parentPid ≠ none)) (by simp)

instance (e : Event) (s : State) : Decidable (May e s) :=
  match e with
  | .fork x => inferInstanceAs (Decidable (Calls x s))
  | .wait x => inferInstanceAs (Decidable (Calls x s))
  | .exit x _ => inferInstanceAs (Decidable (Calls x s ∧ x ≠ initTask))
  | .mainExit => inferInstanceAs (Decidable (mainTask ∈ s.threadAllList))
  | .goOn x _ =>
    match h : s.tasks x with
    | none => .isFalse (by simp [May, h])
    | some t => decidable_of_iff (t.status = .active) (by simp [May, h])

instance (e : Event) (s : State) : Decidable (Enabled e s) :=
  inferInstanceAs (Decidable (s.halted = false ∧ May e s))

/-- A child of this pid has exited and was not waited for. -/
def HasHanging (s : State) (pid : ℕ) : Prop :=
  ∃ c ∈ s.threadAllList, ∃ d, s.tasks c = some d ∧ d.parentPid = some pid ∧ d.status = .hanging

/-- Nobody is blocked in `sys_wait` who has a child to return. -/
def NoLostWait (s : State) : Prop :=
  ∀ x t, s.tasks x = some t → t.status = .waiting → ¬ HasHanging s t.pid

/-- The child a task is busy with. -/
def Place.child : Place → Option ℕ
  | .build c | .reap c | .release c => some c
  | _ => none

/-- The task has not begun to exit. -/
def Task.Alive (t : Task) : Prop := t.place ≠ .exit ∧ t.place ≠ .ended

/-- Which statuses go with a place. -/
structure Task.Fits (t : Task) : Prop where
  waiting : t.status = .waiting → t.place = .wait
  ended : t.place = .ended ↔ t.status = .hanging ∨ t.status = .died

/-- What a task that is busy with a child knows of it. -/
def Busy (s : State) (p : Place) (c : ℕ) (t : Task) : Prop :=
  match p with
  | .build _ => c ∉ s.threadAllList ∧ t.status = .active ∧ t.place = .user
  | .reap _ => c ∈ s.threadAllList ∧ t.status = .died
  | _ => c ∉ s.threadAllList ∧ t.status = .died

def pidUsed (s : State) (pid : ℕ) : Prop :=
  0 < pid ∧ bitmapScanTest (pidBitmap s.pidBits) (pid - 1) = true

/-- Pids are in use and each belongs to one task; a child that was returned is gone. -/
structure Numbers (s : State) : Prop where
  fresh : ∀ x t, s.tasks x = some t → x < s.next
  used : ∀ x t, s.tasks x = some t → pidUsed s t.pid
  inj : ∀ x y t u, s.tasks x = some t → s.tasks y = some u → t.pid = u.pid → x = y
  own : ∀ x t, s.tasks x = some t → t.parentPid ≠ some t.pid
  main : ∀ t, s.tasks mainTask = some t → t.parentPid = none
  booted : mainTask < s.next
  once : s.returned.Nodup
  gone : ∀ x ∈ s.returned, x < s.next ∧ s.tasks x = none

/-- A task that others may have as their parent. -/
def Parents (s : State) (p : ℕ) (u : Task) : Prop :=
  p ∈ s.threadAllList ∧ s.tasks p = some u ∧ u.Alive ∧ (p = initTask ∨ u.parentPid ≠ none)

structure Invariant (s : State) : Prop where
  numbers : Numbers s
  nodup : s.threadAllList.Nodup
  listed : ∀ x ∈ s.threadAllList, ∃ t, s.tasks x = some t
  fits : ∀ x t, s.tasks x = some t → t.Fits
  callers : ∀ x t, s.tasks x = some t → t.place ≠ .user → x = initTask ∨ t.parentPid ≠ none
  parent : ∀ x t q, s.tasks x = some t → t.parentPid = some q → ∃ p u, Parents s p u ∧ u.pid = q
  busy : ∀ p u c, s.tasks p = some u → u.place.child = some c →
    u.status = .active ∧ ∃ t, s.tasks c = some t ∧ t.parentPid = some u.pid ∧ Busy s u.place c t
  offList : ∀ x t, s.tasks x = some t → x ∉ s.threadAllList →
    ∃ p u, s.tasks p = some u ∧ u.place.child = some x
  died : ∀ x t, s.tasks x = some t → t.status = .died →
    ∃ p u, s.tasks p = some u ∧ u.place.child = some x
  init : ∃ t, Parents s initTask t ∧ t.pid = 1 ∧ t.parentPid = none

def State.put (s : State) (x : ℕ) (t : Task) : State :=
  { s with tasks := Function.update s.tasks x (some t) }

@[simp] theorem State.put_self (s : State) (x : ℕ) (t : Task) :
    (s.put x t).tasks x = some t := Function.update_self ..

theorem State.put_other {s : State} {x y : ℕ} {t : Task} (h : y ≠ x) :
    (s.put x t).tasks y = s.tasks y := Function.update_of_ne h ..

theorem State.put_same {s : State} {x : ℕ} {t : Task} (h : s.tasks x = some t) : s.put x t = s := by
  rw [State.put, ← h, Function.update_eq_self]

theorem State.modify_eq {s : State} {x : ℕ} {t : Task} (h : s.tasks x = some t) (f : Task → Task) :
    s.modify x f = s.put x (f t) := by
  rw [State.modify, h]
  rfl

theorem State.goto_eq {s : State} {x : ℕ} {t : Task} (h : s.tasks x = some t) (p : Place) :
    s.goto x p = s.put x { t with place := p } := State.modify_eq h _

section Invariance

variable {s s' : State} {x : ℕ} {t t' : Task}

/-- What a task is called, whatever it does. -/
def named (s : State) (x : ℕ) : Option (ℕ × Option ℕ) := (s.tasks x).map fun t => (t.pid, t.parentPid)

theorem named_eq_some {q : ℕ × Option ℕ} :
    named s x = some q ↔ ∃ t, s.tasks x = some t ∧ t.pid = q.1 ∧ t.parentPid = q.2 := by
  simp [named, Prod.ext_iff]

/-- The numbers are right as long as tasks keep their names. -/
theorem Numbers.congr (h : Numbers s) (hn : ∀ y, named s' y = named s y)
    (hnext : s'.next = s.next) (hbits : s'.pidBits = s.pidBits)
    (hret : s'.returned = s.returned) : Numbers s' := by
  have hold : ∀ y u', s'.tasks y = some u' → ∃ u, s.tasks y = some u ∧ u.pid = u'.pid ∧
      u.parentPid = u'.parentPid := by
    intro y u' hy
    have : named s y = some (u'.pid, u'.parentPid) := by rw [← hn y, named, hy]; rfl
    exact named_eq_some.mp this
  refine ⟨fun y u' hy => ?_, fun y u' hy => ?_, fun y z u' v' hy hz he => ?_, fun y u' hy => ?_,
    fun u' hy => ?_, hnext ▸ h.booted, hret ▸ h.once, fun y hy => ?_⟩
  · obtain ⟨u, hu, -⟩ := hold y u' hy
    exact hnext ▸ h.fresh y u hu
  · obtain ⟨u, hu, hp, -⟩ := hold y u' hy
    rw [pidUsed, hbits, ← hp]
    exact h.used y u hu
  · obtain ⟨u, hu, hp, -⟩ := hold y u' hy
    obtain ⟨v, hv, hpv, -⟩ := hold z v' hz
    exact h.inj y z u v hu hv (hp.trans (he.trans hpv.symm))
  · obtain ⟨u, hu, hp, hpar⟩ := hold y u' hy
    rw [← hp, ← hpar]
    exact h.own y u hu
  · obtain ⟨u, hu, -, hpar⟩ := hold mainTask u' hy
    exact hpar ▸ h.main u hu
  · obtain ⟨hlt, hnone⟩ := h.gone y (hret ▸ hy)
    refine ⟨hnext ▸ hlt, ?_⟩
    have : named s' y = none := by rw [hn y, named, hnone]; rfl
    simpa [named] using this

/-- Another pid stays in use. -/
theorem releasePid_keeps {pid q : ℕ} (hq : 0 < q) (hne : pid ≠ q) (h : pidUsed s pid)
    (hbits : s'.pidBits = releasePid s.pidBits q) : pidUsed s' pid := by
  obtain ⟨hpos, hb⟩ := h
  refine ⟨hpos, ?_⟩
  rw [hbits]
  show bitmapScanTest (bitmapSet (pidBitmap s.pidBits) (q - 1) false) (pid - 1) = true
  rw [bitmapScanTest_set, if_neg (by omega)]
  exact hb

/-- A listed task that is not being reaped is nobody's business. -/
theorem Invariant.not_child (h : Invariant s) (hx : s.tasks x = some t)
    (hl : x ∈ s.threadAllList) (hd : t.status ≠ .died) {p : ℕ} {u : Task}
    (hp : s.tasks p = some u) : u.place.child ≠ some x := by
  intro hc
  obtain ⟨_, t₁, ht₁, _, hb⟩ := h.busy p u x hp hc
  obtain rfl := Option.some.inj (hx.symm.trans ht₁)
  cases hpl : u.place <;> simp only [hpl, Place.child, Busy, reduceCtorEq] at hc hb
  · exact hb.1 hl
  · exact hd hb.2
  · exact hb.1 hl

/-- A task inside a system call is on the list. -/
theorem Invariant.listed_of_place (h : Invariant s) (hx : s.tasks x = some t)
    (hu : t.place ≠ .user) (he : t.place ≠ .ended) : x ∈ s.threadAllList := by
  by_contra hl
  obtain ⟨p, u, hp, hc⟩ := h.offList x t hx hl
  obtain ⟨_, t₁, ht₁, _, hb⟩ := h.busy p u x hp hc
  obtain rfl := Option.some.inj (hx.symm.trans ht₁)
  have hdied : t.status ≠ .died := fun hd => he ((h.fits x t hx).ended.mpr (.inr hd))
  cases hpl : u.place <;> simp only [hpl, Place.child, Busy, reduceCtorEq] at hc hb
  · exact hu hb.2.2
  · exact hdied hb.2
  · exact hdied hb.2

/-- A task is busy with at most one child, and nobody else is with it. -/
theorem Invariant.busy_unique (h : Invariant s) {p q c : ℕ} {u v : Task}
    (hp : s.tasks p = some u) (hq : s.tasks q = some v) (hu : u.place.child = some c)
    (hv : v.place.child = some c) : p = q := by
  obtain ⟨_, t₁, ht₁, hpar₁, _⟩ := h.busy p u c hp hu
  obtain ⟨_, t₂, ht₂, hpar₂, _⟩ := h.busy q v c hq hv
  obtain rfl := Option.some.inj (ht₁.symm.trans ht₂)
  exact h.numbers.inj p q u v hp hq (Option.some.inj (hpar₁.symm.trans hpar₂))

theorem named_put (hx : s.tasks x = some t) (hpid : t'.pid = t.pid)
    (hpp : t'.parentPid = t.parentPid) (y : ℕ) : named (s.put x t') y = named s y := by
  by_cases hyx : y = x
  · subst y
    simp [named, hx, hpid, hpp]
  · rw [named, State.put_other hyx, named]

/-- A task moves on by itself: it keeps its pid and its parent, and has no business with a
child before or after. -/
theorem Invariant.relabel (h : Invariant s) (hx : s.tasks x = some t)
    (hl : x ∈ s.threadAllList) (hd : t.status ≠ .died) (hc : t.place.child = none)
    (hpid : t'.pid = t.pid) (hpp : t'.parentPid = t.parentPid) (hc' : t'.place.child = none)
    (hf : t'.Fits) (hd' : t'.status ≠ .died)
    (hcall : t'.place ≠ .user → x = initTask ∨ t.parentPid ≠ none)
    (ha : t.Alive → t'.Alive ∨
      x ≠ initTask ∧ ∀ y u, s.tasks y = some u → u.parentPid ≠ some t.pid) :
    Invariant (s.put x t') := by
  have hkeep : ∀ y u, s.tasks y = some u → y ≠ x → (s.put x t').tasks y = some u := by
    intro y u hy hyx
    rwa [State.put_other hyx]
  have hbusy : ∀ p u c, s.tasks p = some u → u.place.child = some c → p ≠ x := by
    rintro p u c hp hcp rfl
    obtain rfl := Option.some.inj (hx.symm.trans hp)
    rw [hc] at hcp
    cases hcp
  have hparents : ∀ p u, Parents s p u → (p = initTask ∨ ∃ y w, s.tasks y = some w ∧
      w.parentPid = some u.pid) → ∃ u', Parents (s.put x t') p u' ∧ u'.pid = u.pid ∧
      u'.parentPid = u.parentPid := by
    rintro p u ⟨hpl, hp, hpa, hpc⟩ hwhy
    by_cases hpx : p = x
    · subst p
      obtain rfl := Option.some.inj (hx.symm.trans hp)
      have hta : t'.Alive := by
        refine (ha hpa).resolve_right fun ⟨hni, hno⟩ => ?_
        rcases hwhy with hi | ⟨y, w, hy, hw⟩
        · exact hni hi
        · exact hno y w hy hw
      exact ⟨t', ⟨hl, State.put_self .., hta, hpp ▸ hpc⟩, hpid, hpp⟩
    · exact ⟨u, ⟨hpl, hkeep p u hp hpx, hpa, hpc⟩, rfl, rfl⟩
  refine ⟨h.numbers.congr (named_put hx hpid hpp) rfl rfl rfl, h.nodup, fun y hy => ?_,
    fun y u hy => ?_, fun y u hy hyu => ?_, fun y u q hy hq => ?_, fun p u c hp hcp => ?_,
    fun y u hy hny => ?_, fun y u hy hdy => ?_, ?_⟩
  · by_cases hyx : y = x
    · subst y
      exact ⟨t', State.put_self ..⟩
    · obtain ⟨u, hu⟩ := h.listed y hy
      exact ⟨u, hkeep y u hu hyx⟩
  · by_cases hyx : y = x
    · subst y
      obtain rfl := Option.some.inj ((State.put_self ..).symm.trans hy)
      exact hf
    · rw [State.put_other hyx] at hy
      exact h.fits y u hy
  · by_cases hyx : y = x
    · subst y
      obtain rfl := Option.some.inj ((State.put_self ..).symm.trans hy)
      exact hpp ▸ hcall hyu
    · rw [State.put_other hyx] at hy
      exact h.callers y u hy hyu
  · have hq' : ∃ w, s.tasks y = some w ∧ w.parentPid = some q := by
      by_cases hyx : y = x
      · subst y
        obtain rfl := Option.some.inj ((State.put_self ..).symm.trans hy)
        exact ⟨t, hx, hpp.symm.trans hq⟩
      · rw [State.put_other hyx] at hy
        exact ⟨u, hy, hq⟩
    obtain ⟨w, hw, hwq⟩ := hq'
    obtain ⟨p, v, hpv, rfl⟩ := h.parent y w q hw hwq
    obtain ⟨v', hv', hvpid, -⟩ := hparents p v hpv (.inr ⟨y, w, hw, hwq⟩)
    exact ⟨p, v', hv', hvpid⟩
  · have hpx : p ≠ x := by
      rintro rfl
      obtain rfl := Option.some.inj ((State.put_self ..).symm.trans hp)
      rw [hc'] at hcp
      cases hcp
    rw [State.put_other hpx] at hp
    obtain ⟨hact, v, hv, hvp, hb⟩ := h.busy p u c hp hcp
    have hcx : c ≠ x := by
      rintro rfl
      exact h.not_child hx hl hd hp hcp
    exact ⟨hact, v, hkeep c v hv hcx, hvp, hb⟩
  · have hyx : y ≠ x := by
      rintro rfl
      exact hny hl
    rw [State.put_other hyx] at hy
    obtain ⟨p, v, hv, hcv⟩ := h.offList y u hy hny
    exact ⟨p, v, hkeep p v hv (hbusy p v y hv hcv), hcv⟩
  · have hyx : y ≠ x := by
      rintro rfl
      obtain rfl := Option.some.inj ((State.put_self ..).symm.trans hy)
      exact hd' hdy
    rw [State.put_other hyx] at hy
    obtain ⟨p, v, hv, hcv⟩ := h.died y u hy hdy
    exact ⟨p, v, hkeep p v hv (hbusy p v y hv hcv), hcv⟩
  · obtain ⟨v, hv, hv1, hvp⟩ := h.init
    obtain ⟨v', hv', hvpid, hvpp⟩ := hparents initTask v hv (.inl rfl)
    exact ⟨v', hv', hvpid.trans hv1, hvpp.trans hvp⟩

variable {c : ℕ} {d d' : Task}

/-- A task goes on with its child, which comes onto the list, dies or leaves the list. -/
theorem Invariant.handle (h : Invariant s) (hx : s.tasks x = some t) (hc : s.tasks c = some d)
    (hxc : c ≠ x) (hxl : x ∈ s.threadAllList) (hxp : t.place ≠ .user) (hact : t.status = .active)
    (hold : t.place.child = none ∨ t.place.child = some c) (hpar : d.parentPid = some t.pid)
    {p : Place} (hp : p ≠ .exit ∧ p ≠ .ended ∧ p ≠ .wait) {l : List ℕ} (hnd : l.Nodup)
    (hl : ∀ y, y ≠ c → (y ∈ l ↔ y ∈ s.threadAllList)) (hd' : d'.Fits) (hpid : d'.pid = d.pid)
    (hpp : d'.parentPid = d.parentPid) (hplace : d'.place = d.place) (hdc : d.place.child = none)
    (halive : c ∈ s.threadAllList → d.Alive → False)
    {s' : State} (hs' : s' = { (s.put x { t with place := p }).put c d' with threadAllList := l })
    (hnew : p.child = some c ∧ Busy s' p c d' ∨ p.child = none ∧ c ∈ l ∧ d'.status ≠ .died) :
    Invariant s' := by
  have hself : s'.tasks c = some d' := by rw [hs']; exact State.put_self ..
  have hgo : s'.tasks x = some { t with place := p } := by
    rw [hs']
    exact (State.put_other hxc.symm).trans (State.put_self ..)
  have hother : ∀ y, y ≠ x → y ≠ c → s'.tasks y = s.tasks y := by
    intro y hyx hyc
    rw [hs']
    exact (State.put_other hyc).trans (State.put_other hyx)
  have hlist : s'.threadAllList = l := by rw [hs']
  have hfitx : ({ t with place := p } : Task).Fits := by
    refine ⟨fun hw => ?_, fun he => absurd he hp.2.1, fun hs => ?_⟩
    · rw [hact] at hw
      cases hw
    · rw [hact] at hs
      rcases hs with hs | hs <;> cases hs
  have hnames : ∀ y, named s' y = named s y := by
    intro y
    by_cases hyc : y = c
    · subst y
      simp [named, hself, hc, hpid, hpp]
    · by_cases hyx : y = x
      · subst y
        simp [named, hgo, hx]
      · rw [named, hother y hyx hyc, named]
  -- nobody else is busy with the child
  have hmine : ∀ q u, s.tasks q = some u → u.place.child = some c → q = x := by
    intro q u hq hqc
    obtain ⟨_, e, he, hep, _⟩ := h.busy q u c hq hqc
    obtain rfl := Option.some.inj (hc.symm.trans he)
    exact h.numbers.inj q x u t hq hx (Option.some.inj (hep.symm.trans hpar))
  have hothers : ∀ y, y ≠ c → ∀ q u, s.tasks q = some u → u.place.child = some y →
      s'.tasks q = some u := by
    intro y hyc q u hq hqy
    refine (hother q ?_ ?_).trans hq
    · rintro rfl
      obtain rfl := Option.some.inj (hx.symm.trans hq)
      rcases hold with ho | ho
      · exact Option.some_ne_none y (hqy.symm.trans ho)
      · exact hyc (Option.some.inj (hqy.symm.trans ho))
    · rintro rfl
      obtain rfl := Option.some.inj (hc.symm.trans hq)
      exact Option.some_ne_none y (hqy.symm.trans hdc)
  have hxdied : t.status ≠ .died := by
    rw [hact]
    exact Status.noConfusion
  have hparents : ∀ q u, Parents s q u → ∃ u', Parents s' q u' ∧ u'.pid = u.pid ∧
      u'.parentPid = u.parentPid := by
    rintro q u ⟨hql, hq, hqa, hqc⟩
    have hqc' : q ≠ c := by
      rintro rfl
      obtain rfl := Option.some.inj (hc.symm.trans hq)
      exact halive hql hqa
    have hql' : q ∈ s'.threadAllList := by
      rw [hlist]
      exact (hl q hqc').mpr hql
    by_cases hqx : q = x
    · subst q
      obtain rfl := Option.some.inj (hx.symm.trans hq)
      exact ⟨_, ⟨hql', hgo, ⟨hp.1, hp.2.1⟩, hqc⟩, rfl, rfl⟩
    · exact ⟨u, ⟨hql', (hother q hqx hqc').trans hq, hqa, hqc⟩, rfl, rfl⟩
  refine ⟨h.numbers.congr hnames (by rw [hs']; rfl) (by rw [hs']; rfl) (by rw [hs']; rfl),
    hlist ▸ hnd, fun y hy => ?_, fun y u hy => ?_, fun y u hy hyu => ?_, fun y u q hy hq => ?_,
    fun q u y hq hqy => ?_, fun y u hy hny => ?_, fun y u hy hdy => ?_, ?_⟩
  · rw [hlist] at hy
    by_cases hyc : y = c
    · exact ⟨d', hyc ▸ hself⟩
    · by_cases hyx : y = x
      · exact ⟨_, hyx ▸ hgo⟩
      · obtain ⟨u, hu⟩ := h.listed y ((hl y hyc).mp hy)
        exact ⟨u, (hother y hyx hyc).trans hu⟩
  · by_cases hyc : y = c
    · subst y
      obtain rfl := Option.some.inj (hself.symm.trans hy)
      exact hd'
    · by_cases hyx : y = x
      · subst y
        obtain rfl := Option.some.inj (hgo.symm.trans hy)
        exact hfitx
      · exact h.fits y u ((hother y hyx hyc).symm.trans hy)
  · by_cases hyc : y = c
    · subst y
      obtain rfl := Option.some.inj (hself.symm.trans hy)
      right
      rw [hpp, hpar]
      exact Option.some_ne_none _
    · by_cases hyx : y = x
      · subst y
        obtain rfl := Option.some.inj (hgo.symm.trans hy)
        exact h.callers x t hx hxp
      · exact h.callers y u ((hother y hyx hyc).symm.trans hy) hyu
  · have hname : named s y = some (u.pid, some q) := by
      rw [← hnames y, named, hy, ← hq]
      rfl
    obtain ⟨w, hw, -, hwq⟩ := named_eq_some.mp hname
    obtain ⟨r, v, hrv, rfl⟩ := h.parent y w q hw hwq
    obtain ⟨v', hv', hvpid, -⟩ := hparents r v hrv
    exact ⟨r, v', hv', hvpid⟩
  · by_cases hqx : q = x
    · subst q
      obtain rfl := Option.some.inj (hgo.symm.trans hq)
      rcases hnew with ⟨hpc, hb⟩ | ⟨hpc, -, -⟩
      · obtain rfl := Option.some.inj (hpc.symm.trans hqy)
        exact ⟨hact, d', hself, hpp.trans hpar, hb⟩
      · rw [show ({ t with place := p } : Task).place = p from rfl, hpc] at hqy
        cases hqy
    · have hqc : q ≠ c := by
        rintro rfl
        obtain rfl := Option.some.inj (hself.symm.trans hq)
        rw [hplace, hdc] at hqy
        cases hqy
      rw [hother q hqx hqc] at hq
      obtain ⟨hqact, v, hv, hvp, hb⟩ := h.busy q u y hq hqy
      have hyc : y ≠ c := by
        rintro rfl
        exact hqx (hmine q u hq hqy)
      have hyx : y ≠ x := by
        rintro rfl
        exact h.not_child hx hxl hxdied hq hqy
      refine ⟨hqact, v, (hother y hyx hyc).trans hv, hvp, ?_⟩
      have hmem : y ∈ s'.threadAllList ↔ y ∈ s.threadAllList := by
        rw [hlist]
        exact hl y hyc
      cases hpl : u.place <;> rw [hpl] at hb <;> simpa [Busy, hmem] using hb
  · rw [hlist] at hny
    by_cases hyc : y = c
    · subst y
      rcases hnew with ⟨hpc, -⟩ | ⟨-, hcl, -⟩
      · exact ⟨x, _, hgo, hpc⟩
      · exact absurd hcl hny
    · have hyx : y ≠ x := by
        rintro rfl
        exact hny ((hl y hyc).mpr hxl)
      rw [hother y hyx hyc] at hy
      obtain ⟨q, v, hq, hqy⟩ := h.offList y u hy fun hin => hny ((hl y hyc).mpr hin)
      exact ⟨q, v, hothers y hyc q v hq hqy, hqy⟩
  · by_cases hyc : y = c
    · subst y
      obtain rfl := Option.some.inj (hself.symm.trans hy)
      rcases hnew with ⟨hpc, -⟩ | ⟨-, -, hnd⟩
      · exact ⟨x, _, hgo, hpc⟩
      · exact absurd hdy hnd
    · have hyx : y ≠ x := by
        rintro rfl
        obtain rfl := Option.some.inj (hgo.symm.trans hy)
        exact hxdied hdy
      rw [hother y hyx hyc] at hy
      obtain ⟨q, v, hq, hqy⟩ := h.died y u hy hdy
      exact ⟨q, v, hothers y hyc q v hq hqy, hqy⟩
  · obtain ⟨v, hv, hv1, hvp⟩ := h.init
    obtain ⟨v', hv', hvpid, hvpp⟩ := hparents initTask v hv
    exact ⟨v', hv', hvpid.trans hv1, hvpp.trans hvp⟩

/-- What becomes of a task that was busy with `c`. -/
def leave (c : ℕ) (u : Task) : Task :=
  if u.place.child = some c then { u with place := .user } else u

@[simp] theorem leave_pid (c : ℕ) (u : Task) : (leave c u).pid = u.pid := by
  unfold leave
  split <;> rfl

@[simp] theorem leave_parentPid (c : ℕ) (u : Task) : (leave c u).parentPid = u.parentPid := by
  unfold leave
  split <;> rfl

@[simp] theorem leave_status (c : ℕ) (u : Task) : (leave c u).status = u.status := by
  unfold leave
  split <;> rfl

theorem leave_child {y : ℕ} {u : Task} (h : (leave c u).place.child = some y) :
    u.place.child = some y ∧ leave c u = u := by
  unfold leave at h ⊢
  split at h
  · cases h
  · next hne => exact ⟨h, if_neg hne⟩

theorem leave_alive {u : Task} (h : u.Alive) : (leave c u).Alive := by
  unfold leave
  split
  · exact ⟨Place.noConfusion, Place.noConfusion⟩
  · exact h

/-- A task that nobody has as a parent goes away. -/
theorem Invariant.remove (h : Invariant s) (hc : s.tasks c = some d)
    (hno : ∀ y u, s.tasks y = some u → u.parentPid ≠ some d.pid) (hdc : d.place.child = none)
    (hci : c ≠ initTask)
    (htasks : ∀ y, s'.tasks y = if y = c then none else (s.tasks y).map (leave c))
    (hnd : s'.threadAllList.Nodup)
    (hl : ∀ y, y ∈ s'.threadAllList ↔ y ∈ s.threadAllList ∧ y ≠ c) (hnext : s'.next = s.next)
    (hbits : ∀ pid, pid ≠ d.pid → pidUsed s pid → pidUsed s' pid)
    (hret : s'.returned = s.returned ∨ s'.returned = s.returned ++ [c]) : Invariant s' := by
  have hold : ∀ y u', s'.tasks y = some u' → y ≠ c ∧ ∃ u, s.tasks y = some u ∧ u' = leave c u := by
    intro y u' hy
    rw [htasks y] at hy
    split at hy
    · cases hy
    · next hyc =>
      obtain ⟨u, hu, rfl⟩ := Option.map_eq_some_iff.mp hy
      exact ⟨hyc, u, hu, rfl⟩
  have hkeep : ∀ y u, s.tasks y = some u → y ≠ c → s'.tasks y = some (leave c u) := by
    intro y u hy hyc
    rw [htasks y, if_neg hyc, hy]
    rfl
  have hparents : ∀ q u, Parents s q u → q ≠ c → Parents s' q (leave c u) := by
    rintro q u ⟨hql, hq, hqa, hqc⟩ hne
    exact ⟨(hl q).mpr ⟨hql, hne⟩, hkeep q u hq hne, leave_alive hqa, by simpa using hqc⟩
  have hbusy : ∀ q u y, s.tasks q = some u → u.place.child = some y → y ≠ c →
      q ≠ c ∧ leave c u = u := by
    intro q u y hq hqy hyc
    refine ⟨?_, if_neg fun he => hyc (Option.some.inj (hqy.symm.trans he))⟩
    rintro rfl
    obtain rfl := Option.some.inj (hc.symm.trans hq)
    rw [hdc] at hqy
    cases hqy
  refine ⟨⟨fun y u' hy => ?_, fun y u' hy => ?_, fun y z u' v' hy hz he => ?_, fun y u' hy => ?_,
    fun u' hy => ?_, hnext ▸ h.numbers.booted, ?_, fun y hy => ?_⟩, hnd, fun y hy => ?_,
    fun y u' hy => ?_, fun y u' hy hyu => ?_, fun y u' q hy hq => ?_, fun q u' y hq hqy => ?_,
    fun y u' hy hny => ?_, fun y u' hy hdy => ?_, ?_⟩
  · obtain ⟨-, u, hu, -⟩ := hold y u' hy
    exact hnext ▸ h.numbers.fresh y u hu
  · obtain ⟨hyc, u, hu, rfl⟩ := hold y u' hy
    rw [leave_pid]
    refine hbits _ (fun he => hyc ?_) (h.numbers.used y u hu)
    exact h.numbers.inj y c u d hu hc he
  · obtain ⟨-, u, hu, rfl⟩ := hold y u' hy
    obtain ⟨-, v, hv, rfl⟩ := hold z v' hz
    exact h.numbers.inj y z u v hu hv (by simpa using he)
  · obtain ⟨-, u, hu, rfl⟩ := hold y u' hy
    simpa using h.numbers.own y u hu
  · obtain ⟨-, u, hu, rfl⟩ := hold mainTask u' hy
    simpa using h.numbers.main u hu
  · have hnew : c ∉ s.returned := by
      intro hin
      rw [(h.numbers.gone c hin).2] at hc
      cases hc
    rcases hret with hret | hret <;> rw [hret]
    · exact h.numbers.once
    · exact List.nodup_append.mpr ⟨h.numbers.once, List.nodup_singleton c, fun a ha b hb => by
        obtain rfl := List.mem_singleton.mp hb
        rintro rfl
        exact hnew ha⟩
  · have hy' : y ∈ s.returned ∨ y = c := by
      rcases hret with hret | hret <;> rw [hret] at hy
      · exact .inl hy
      · simpa using hy
    rcases hy' with hy' | rfl
    · obtain ⟨hlt, hnone⟩ := h.numbers.gone y hy'
      refine ⟨hnext ▸ hlt, ?_⟩
      rw [htasks y, hnone]
      simp
    · refine ⟨hnext ▸ h.numbers.fresh y d hc, ?_⟩
      rw [htasks y, if_pos rfl]
  · obtain ⟨hyl, hyc⟩ := (hl y).mp hy
    obtain ⟨u, hu⟩ := h.listed y hyl
    exact ⟨_, hkeep y u hu hyc⟩
  · obtain ⟨-, u, hu, rfl⟩ := hold y u' hy
    obtain ⟨hw, he⟩ := h.fits y u hu
    by_cases hb : u.place.child = some c
    · have hact := (h.busy y u c hu hb).1
      refine ⟨fun hws => ?_, fun hpe => ?_, fun hs => ?_⟩
      · rw [leave_status, hact] at hws
        cases hws
      · rw [leave, if_pos hb] at hpe
        cases hpe
      · rw [leave_status, hact] at hs
        rcases hs with hs | hs <;> cases hs
    · rw [leave, if_neg hb]
      exact ⟨hw, he⟩
  · obtain ⟨-, u, hu, rfl⟩ := hold y u' hy
    rw [leave_parentPid]
    refine h.callers y u hu fun hpu => hyu ?_
    rw [leave, if_neg (by rw [hpu]; exact (Option.some_ne_none c).symm)]
    exact hpu
  · obtain ⟨-, u, hu, rfl⟩ := hold y u' hy
    rw [leave_parentPid] at hq
    obtain ⟨p, v, hpv, rfl⟩ := h.parent y u q hu hq
    have hpc : p ≠ c := by
      rintro rfl
      obtain rfl := Option.some.inj (hc.symm.trans hpv.2.1)
      exact hno y u hu hq
    exact ⟨p, _, hparents p v hpv hpc, leave_pid c v⟩
  · obtain ⟨hqc, u, hu, rfl⟩ := hold q u' hq
    obtain ⟨hqy', hsame⟩ := leave_child hqy
    rw [hsame]
    obtain ⟨hact, v, hv, hvp, hb⟩ := h.busy q u y hu hqy'
    have hyc : y ≠ c := by
      rintro rfl
      rw [leave, if_pos hqy'] at hqy
      cases hqy
    have hvact : v.status = .active ∧ v.place = .user ∨ v.status = .died := by
      cases hpl : u.place <;> simp only [hpl, Place.child, Busy, reduceCtorEq] at hqy' hb
      · exact .inl hb.2
      · exact .inr hb.2
      · exact .inr hb.2
    have hvleave : leave c v = v := by
      refine if_neg fun hvc => ?_
      rcases hvact with ⟨-, hvu⟩ | hvd
      · rw [hvu] at hvc
        cases hvc
      · rw [(h.busy y v c hv hvc).1] at hvd
        cases hvd
    refine ⟨hact, v, hvleave ▸ hkeep y v hv hyc, hvp, ?_⟩
    have hmem : y ∈ s'.threadAllList ↔ y ∈ s.threadAllList := by simp [hl y, hyc]
    cases hpl : u.place <;> rw [hpl] at hb <;> simpa [Busy, hmem] using hb
  · obtain ⟨hyc, u, hu, rfl⟩ := hold y u' hy
    obtain ⟨q, v, hq, hqy⟩ := h.offList y u hu fun hin => hny ((hl y).mpr ⟨hin, hyc⟩)
    obtain ⟨hqc, hsame⟩ := hbusy q v y hq hqy hyc
    exact ⟨q, v, hsame ▸ hkeep q v hq hqc, hqy⟩
  · obtain ⟨hyc, u, hu, rfl⟩ := hold y u' hy
    rw [leave_status] at hdy
    obtain ⟨q, v, hq, hqy⟩ := h.died y u hu hdy
    obtain ⟨hqc, hsame⟩ := hbusy q v y hq hqy hyc
    exact ⟨q, v, hsame ▸ hkeep q v hq hqc, hqy⟩
  · obtain ⟨v, hv, hv1, hvp⟩ := h.init
    exact ⟨_, hparents initTask v hv hci.symm, (leave_pid c v).trans hv1,
      (leave_parentPid c v).trans hvp⟩

/-- A task in `sys_fork` gets a child with a pid of its own. -/
theorem Invariant.create (h : Invariant s) (hx : s.tasks x = some t) (hp : t.place = .fork)
    (hact : t.status = .active) {bits : Bytes} {pid : ℕ}
    (ha : allocatePid s.pidBits = some (bits, pid)) :
    Invariant { s.goto x (.build s.next) with
      tasks := Function.update (s.goto x (.build s.next)).tasks s.next
        (some ⟨pid, some t.pid, .active, .user⟩)
      pidBits := bits
      next := s.next + 1 } := by
  have hxl : x ∈ s.threadAllList := h.listed_of_place hx (by simp [hp]) (by simp [hp])
  have hfresh : ∀ y u, s.tasks y = some u → y ≠ s.next :=
    fun y u hy => Nat.ne_of_lt (h.numbers.fresh y u hy)
  have hxn : x ≠ s.next := hfresh x t hx
  obtain ⟨i, rfl, hclear, hset⟩ := allocatePid_some ha
  rw [State.goto_eq hx]
  generalize hs' : ({ s.put x { t with place := .build s.next } with
      tasks := Function.update (s.put x { t with place := .build s.next }).tasks s.next
        (some ⟨i + 1, some t.pid, .active, .user⟩)
      pidBits := bits
      next := s.next + 1 } : State) = s'
  have hnew : s'.tasks s.next = some ⟨i + 1, some t.pid, .active, .user⟩ := by
    rw [← hs']
    exact Function.update_self ..
  have hgo : s'.tasks x = some { t with place := .build s.next } := by
    rw [← hs']
    exact (Function.update_of_ne hxn ..).trans (State.put_self ..)
  have hother : ∀ y, y ≠ x → y ≠ s.next → s'.tasks y = s.tasks y := by
    intro y hyx hyn
    rw [← hs']
    exact (Function.update_of_ne hyn ..).trans (State.put_other hyx)
  have hlist : s'.threadAllList = s.threadAllList := by rw [← hs']; rfl
  have hbits : s'.pidBits = bits := by rw [← hs']
  -- every other task is an old one, under the same name
  have hold : ∀ y u', s'.tasks y = some u' → y ≠ s.next → ∃ u, s.tasks y = some u ∧
      u'.pid = u.pid ∧ u'.parentPid = u.parentPid ∧ u'.status = u.status ∧
      (y = x → u = t ∧ u'.place = .build s.next) ∧ (y ≠ x → u' = u) := by
    intro y u' hy hyn
    by_cases hyx : y = x
    · subst y
      obtain rfl := Option.some.inj (hgo.symm.trans hy)
      exact ⟨t, hx, rfl, rfl, rfl, fun _ => ⟨rfl, rfl⟩, fun hne => absurd rfl hne⟩
    · exact ⟨u', (hother y hyx hyn).symm.trans hy, rfl, rfl, rfl, fun he => absurd he hyx,
        fun _ => rfl⟩
  have hused : ∀ y u, s.tasks y = some u → pidUsed s' u.pid ∧ u.pid ≠ i + 1 := by
    intro y u hy
    obtain ⟨hpos, hb⟩ := h.numbers.used y u hy
    have hne : u.pid - 1 ≠ i := by
      intro he
      rw [he, hclear] at hb
      cases hb
    refine ⟨⟨hpos, ?_⟩, fun he => hne (by omega)⟩
    rw [hbits, hset, if_neg hne]
    exact hb
  have hparents : ∀ q u, Parents s q u → ∃ u', Parents s' q u' ∧ u'.pid = u.pid ∧
      u'.parentPid = u.parentPid := by
    rintro q u ⟨hql, hq, hqa, hqc⟩
    by_cases hqx : q = x
    · subst q
      obtain rfl := Option.some.inj (hx.symm.trans hq)
      exact ⟨_, ⟨hlist ▸ hql, hgo, ⟨Place.noConfusion, Place.noConfusion⟩, hqc⟩, rfl, rfl⟩
    · exact ⟨u, ⟨hlist ▸ hql, (hother q hqx (hfresh q u hq)).trans hq, hqa, hqc⟩, rfl, rfl⟩
  have hbusy : ∀ q u y, s.tasks q = some u → u.place.child = some y → s'.tasks q = some u := by
    intro q u y hq hqy
    refine (hother q ?_ (hfresh q u hq)).trans hq
    rintro rfl
    obtain rfl := Option.some.inj (hx.symm.trans hq)
    rw [hp] at hqy
    cases hqy
  refine ⟨⟨fun y u' hy => ?_, fun y u' hy => ?_, fun y z u' v' hy hz he => ?_, fun y u' hy => ?_,
    fun u' hy => ?_, ?_, ?_, fun y hy => ?_⟩, hlist ▸ h.nodup, fun y hy => ?_,
    fun y u' hy => ?_, fun y u' hy hyu => ?_, fun y u' q hy hq => ?_, fun q u' y hq hqy => ?_,
    fun y u' hy hny => ?_, fun y u' hy hdy => ?_, ?_⟩
  · rw [show s'.next = s.next + 1 by rw [← hs']]
    by_cases hyn : y = s.next
    · omega
    · obtain ⟨u, hu, -⟩ := hold y u' hy hyn
      exact Nat.lt_succ_of_lt (h.numbers.fresh y u hu)
  · by_cases hyn : y = s.next
    · subst y
      obtain rfl := Option.some.inj (hnew.symm.trans hy)
      refine ⟨Nat.succ_pos i, ?_⟩
      rw [hbits, hset]
      simp
    · obtain ⟨u, hu, hpid, -⟩ := hold y u' hy hyn
      exact hpid ▸ (hused y u hu).1
  · by_cases hyn : y = s.next
    · by_cases hzn : z = s.next
      · exact hyn.trans hzn.symm
      · subst y
        obtain rfl := Option.some.inj (hnew.symm.trans hy)
        obtain ⟨v, hv, hpid, -⟩ := hold z v' hz hzn
        exact absurd (hpid.symm.trans he.symm) (hused z v hv).2
    · obtain ⟨u, hu, hpid, -⟩ := hold y u' hy hyn
      by_cases hzn : z = s.next
      · subst z
        obtain rfl := Option.some.inj (hnew.symm.trans hz)
        exact absurd (hpid.symm.trans he) (hused y u hu).2
      · obtain ⟨v, hv, hpid', -⟩ := hold z v' hz hzn
        exact h.numbers.inj y z u v hu hv (hpid.symm.trans (he.trans hpid'))
  · by_cases hyn : y = s.next
    · subst y
      obtain rfl := Option.some.inj (hnew.symm.trans hy)
      exact fun he => (hused x t hx).2 (Option.some.inj he)
    · obtain ⟨u, hu, hpid, hpar, -⟩ := hold y u' hy hyn
      rw [hpid, hpar]
      exact h.numbers.own y u hu
  · obtain ⟨u, hu, -, hpar, -⟩ := hold mainTask u' hy (Nat.ne_of_lt h.numbers.booted)
    exact hpar.trans (h.numbers.main u hu)
  · rw [show s'.next = s.next + 1 by rw [← hs']]
    exact Nat.lt_succ_of_lt h.numbers.booted
  · rw [show s'.returned = s.returned by rw [← hs']; rfl]
    exact h.numbers.once
  · rw [show s'.returned = s.returned by rw [← hs']; rfl] at hy
    obtain ⟨hlt, hnone⟩ := h.numbers.gone y hy
    rw [show s'.next = s.next + 1 by rw [← hs']]
    refine ⟨Nat.lt_succ_of_lt hlt, (hother y ?_ (Nat.ne_of_lt hlt)).trans hnone⟩
    rintro rfl
    rw [hnone] at hx
    cases hx
  · rw [hlist] at hy
    obtain ⟨u, hu⟩ := h.listed y hy
    by_cases hyx : y = x
    · exact ⟨_, hyx ▸ hgo⟩
    · exact ⟨u, (hother y hyx (hfresh y u hu)).trans hu⟩
  · by_cases hyn : y = s.next
    · subst y
      obtain rfl := Option.some.inj (hnew.symm.trans hy)
      exact ⟨Status.noConfusion, Place.noConfusion, fun hs => by rcases hs with hs | hs <;> cases hs⟩
    · obtain ⟨u, hu, -, -, hst, hself, hne⟩ := hold y u' hy hyn
      by_cases hyx : y = x
      · obtain ⟨rfl, hpl⟩ := hself hyx
        rw [hact] at hst
        refine ⟨fun hs => ?_, fun hs => ?_, fun hs => ?_⟩
        · rw [hst] at hs
          cases hs
        · rw [hpl] at hs
          cases hs
        · rw [hst] at hs
          rcases hs with hs | hs <;> cases hs
      · exact hne hyx ▸ h.fits y u hu
  · by_cases hyn : y = s.next
    · subst y
      obtain rfl := Option.some.inj (hnew.symm.trans hy)
      exact absurd rfl hyu
    · obtain ⟨u, hu, -, hpar, -, hself, hne⟩ := hold y u' hy hyn
      rw [hpar]
      refine h.callers y u hu fun hpu => ?_
      by_cases hyx : y = x
      · obtain ⟨rfl, -⟩ := hself hyx
        rw [hp] at hpu
        cases hpu
      · exact hyu (hne hyx ▸ hpu)
  · have hwhy : ∃ p u, Parents s p u ∧ u.pid = q := by
      by_cases hyn : y = s.next
      · subst y
        obtain rfl := Option.some.inj (hnew.symm.trans hy)
        refine ⟨x, t, ⟨hxl, hx, ?_, h.callers x t hx (by simp [hp])⟩, Option.some.inj hq⟩
        exact ⟨by simp [hp], by simp [hp]⟩
      · obtain ⟨u, hu, -, hpar, -⟩ := hold y u' hy hyn
        exact h.parent y u q hu (hpar.symm.trans hq)
    obtain ⟨p, v, hpv, rfl⟩ := hwhy
    obtain ⟨v', hv', hvpid, -⟩ := hparents p v hpv
    exact ⟨p, v', hv', hvpid⟩
  · by_cases hqn : q = s.next
    · subst q
      obtain rfl := Option.some.inj (hnew.symm.trans hq)
      cases hqy
    · by_cases hqx : q = x
      · subst q
        obtain rfl := Option.some.inj (hgo.symm.trans hq)
        obtain rfl := Option.some.inj hqy
        refine ⟨hact, _, hnew, rfl, ?_, rfl, rfl⟩
        intro hin
        obtain ⟨u, hu⟩ := h.listed s.next (hlist ▸ hin)
        exact hfresh s.next u hu rfl
      · rw [hother q hqx hqn] at hq
        obtain ⟨hqact, v, hv, hvp, hb⟩ := h.busy q u' y hq hqy
        have hyx : y ≠ x := by
          rintro rfl
          exact h.not_child hx hxl (by simp [hact]) hq hqy
        refine ⟨hqact, v, (hother y hyx (hfresh y v hv)).trans hv, hvp, ?_⟩
        cases hpl : u'.place <;> rw [hpl] at hb <;> simpa [Busy, hlist] using hb
  · by_cases hyn : y = s.next
    · exact ⟨x, _, hgo, congrArg some hyn.symm⟩
    · obtain ⟨u, hu, -⟩ := hold y u' hy hyn
      obtain ⟨q, v, hq, hqy⟩ := h.offList y u hu (hlist ▸ hny)
      exact ⟨q, v, hbusy q v y hq hqy, hqy⟩
  · by_cases hyn : y = s.next
    · exact ⟨x, _, hgo, congrArg some hyn.symm⟩
    · obtain ⟨u, hu, -, -, hst, -⟩ := hold y u' hy hyn
      obtain ⟨q, v, hq, hqy⟩ := h.died y u hu (hst.symm.trans hdy)
      exact ⟨q, v, hbusy q v y hq hqy, hqy⟩
  · obtain ⟨v, hv, hv1, hvp⟩ := h.init
    obtain ⟨v', hv', hvpid, hvpp⟩ := hparents initTask v hv
    exact ⟨v', hv', hvpid.trans hv1, hvpp.trans hvp⟩

/-- What adoption makes of a task. -/
theorem initAdoptChildren_tasks {q y : ℕ} {u' : Task}
    (hy : (initAdoptChildren q s).tasks y = some u') :
    ∃ u, s.tasks y = some u ∧ u'.pid = u.pid ∧ u'.status = u.status ∧ u'.place = u.place ∧
      (y ∈ s.threadAllList ∧ u.parentPid = some q ∧ u'.parentPid = some 1 ∨
        ¬ (y ∈ s.threadAllList ∧ u.parentPid = some q) ∧ u' = u) := by
  obtain ⟨u, hu, rfl⟩ := Option.map_eq_some_iff.mp hy
  refine ⟨u, hu, ?_⟩
  unfold initAdoptAChild
  split
  · next hif => exact ⟨rfl, rfl, rfl, .inl ⟨hif.1, hif.2, rfl⟩⟩
  · next hif => exact ⟨rfl, rfl, rfl, .inr ⟨hif, rfl⟩⟩

theorem initAdoptChildren_keeps {q y : ℕ} {u : Task} (hy : s.tasks y = some u) :
    ∃ u', (initAdoptChildren q s).tasks y = some u' ∧ u'.pid = u.pid ∧ u'.status = u.status ∧
      u'.place = u.place ∧ (u.parentPid ≠ some q → u' = u) ∧
      (u.parentPid ≠ none → u'.parentPid ≠ none) := by
  refine ⟨initAdoptAChild s q y u, by simp [initAdoptChildren, hy], ?_⟩
  unfold initAdoptAChild
  split
  · next hif =>
    exact ⟨rfl, rfl, rfl, fun hne => absurd hif.2 hne, fun _ => Option.some_ne_none 1⟩
  · exact ⟨rfl, rfl, rfl, fun _ => rfl, id⟩

/-- `init` gets the children of a task that has no business with one; none are left behind. -/
theorem Invariant.adopt (h : Invariant s) (hx : s.tasks x = some t) (hxi : x ≠ initTask)
    (hc : t.place.child = none) :
    Invariant (initAdoptChildren t.pid s) ∧
      ∀ y u, (initAdoptChildren t.pid s).tasks y = some u → u.parentPid ≠ some t.pid := by
  obtain ⟨v, hv, hv1, hvp⟩ := h.init
  have hpid1 : t.pid ≠ 1 := by
    intro he
    exact hxi (h.numbers.inj x initTask t v hx hv.2.1 (he.trans hv1.symm))
  -- a child in the hands of its parent is not adopted
  have hbusy : ∀ p u c d, s.tasks p = some u → u.place.child = some c → s.tasks c = some d →
      d.parentPid ≠ some t.pid := by
    intro p u c d hp hcp hd hdp
    obtain ⟨_, d', hd', hpar, _⟩ := h.busy p u c hp hcp
    obtain rfl := Option.some.inj (hd.symm.trans hd')
    have hpx : p = x :=
      h.numbers.inj p x u t hp hx (Option.some.inj (hpar.symm.trans hdp))
    subst p
    obtain rfl := Option.some.inj (hx.symm.trans hp)
    rw [hc] at hcp
    cases hcp
  have hparents : ∀ p u, Parents s p u → ∃ u', Parents (initAdoptChildren t.pid s) p u' ∧
      u'.pid = u.pid ∧ (u.parentPid = none → u'.parentPid = none) := by
    rintro p u ⟨hpl, hp, hpa, hpc⟩
    obtain ⟨u', hu', hpid, -, hplace, hsame, hsome⟩ := initAdoptChildren_keeps (q := t.pid) hp
    refine ⟨u', ⟨hpl, hu', ⟨?_, ?_⟩, hpc.imp_right hsome⟩, hpid, fun hnone => ?_⟩
    · rw [hplace]
      exact hpa.1
    · rw [hplace]
      exact hpa.2
    · rw [hsame (by rw [hnone]; exact (Option.some_ne_none _).symm)]
      exact hnone
  have hleft : ∀ y u, (initAdoptChildren t.pid s).tasks y = some u →
      u.parentPid ≠ some t.pid := by
    intro y u' hy hpar
    obtain ⟨u, hu, -, -, -, ⟨-, -, h1⟩ | ⟨hnot, rfl⟩⟩ := initAdoptChildren_tasks hy
    · exact hpid1 (Option.some.inj (hpar.symm.trans h1))
    · obtain ⟨p, w, hp, hcp⟩ := h.offList y u' hu fun hl => hnot ⟨hl, hpar⟩
      exact hbusy p w y u' hp hcp hu hpar
  refine ⟨⟨⟨fun y u' hy => ?_, fun y u' hy => ?_, fun y z u' w' hy hz he => ?_, fun y u' hy => ?_,
    fun u' hy => ?_, h.numbers.booted, h.numbers.once, fun y hy => ?_⟩, h.nodup, fun y hy => ?_,
    fun y u' hy => ?_, fun y u' hy hyu => ?_, fun y u' q hy hq => ?_, fun p u' c hp hcp => ?_,
    fun y u' hy hny => ?_, fun y u' hy hdy => ?_, ?_⟩, hleft⟩
  · obtain ⟨u, hu, -⟩ := initAdoptChildren_tasks hy
    exact h.numbers.fresh y u hu
  · obtain ⟨u, hu, hpid, -⟩ := initAdoptChildren_tasks hy
    exact hpid ▸ h.numbers.used y u hu
  · obtain ⟨u, hu, hpid, -⟩ := initAdoptChildren_tasks hy
    obtain ⟨w, hw, hpid', -⟩ := initAdoptChildren_tasks hz
    exact h.numbers.inj y z u w hu hw (hpid.symm.trans (he.trans hpid'))
  · obtain ⟨u, hu, hpid, -, -, ⟨-, hpar, h1⟩ | ⟨-, rfl⟩⟩ := initAdoptChildren_tasks hy
    · rw [h1, hpid]
      intro he
      obtain rfl := h.numbers.inj initTask y v u hv.2.1 hu (hv1.trans (Option.some.inj he))
      obtain rfl := Option.some.inj (hu.symm.trans hv.2.1)
      rw [hvp] at hpar
      cases hpar
    · exact h.numbers.own y u' hu
  · obtain ⟨u, hu, -, -, -, ⟨-, hpar, -⟩ | ⟨-, rfl⟩⟩ := initAdoptChildren_tasks hy
    · rw [h.numbers.main u hu] at hpar
      cases hpar
    · exact h.numbers.main u' hu
  · obtain ⟨hlt, hnone⟩ := h.numbers.gone y hy
    exact ⟨hlt, by simp [initAdoptChildren, hnone]⟩
  · obtain ⟨u, hu⟩ := h.listed y hy
    obtain ⟨u', hu', -⟩ := initAdoptChildren_keeps (q := t.pid) hu
    exact ⟨u', hu'⟩
  · obtain ⟨u, hu, -, hst, hpl, -⟩ := initAdoptChildren_tasks hy
    obtain ⟨hw, he⟩ := h.fits y u hu
    exact ⟨by rwa [hst, hpl], by rwa [hst, hpl]⟩
  · obtain ⟨u, hu, -, -, hpl, hpar⟩ := initAdoptChildren_tasks hy
    rcases hpar with ⟨-, -, h1⟩ | ⟨-, rfl⟩
    · exact .inr (by rw [h1]; exact Option.some_ne_none 1)
    · exact h.callers y u' hu hyu
  · obtain ⟨u, hu, -, -, -, ⟨-, -, h1⟩ | ⟨-, rfl⟩⟩ := initAdoptChildren_tasks hy
    · obtain ⟨v', hv', hvpid, -⟩ := hparents initTask v hv
      exact ⟨initTask, v', hv', hvpid.trans (hv1.trans (Option.some.inj (h1.symm.trans hq)))⟩
    · obtain ⟨p, w, hpw, rfl⟩ := h.parent y u' q hu hq
      obtain ⟨w', hw', hwpid, -⟩ := hparents p w hpw
      exact ⟨p, w', hw', hwpid⟩
  · obtain ⟨u, hu, hpid, hst, hpl, -⟩ := initAdoptChildren_tasks hp
    rw [hpl] at hcp
    obtain ⟨hact, d, hd, hdp, hb⟩ := h.busy p u c hu hcp
    obtain ⟨d', hd', -, -, -, hsame, -⟩ := initAdoptChildren_keeps (q := t.pid) hd
    obtain rfl := hsame (hbusy p u c d hu hcp hd)
    refine ⟨hst.trans hact, d', hd', hpid ▸ hdp, ?_⟩
    rw [hpl]
    cases hq : u.place <;> rw [hq] at hb <;> exact hb
  · obtain ⟨u, hu, -⟩ := initAdoptChildren_tasks hy
    obtain ⟨p, w, hp, hcp⟩ := h.offList y u hu hny
    obtain ⟨w', hw', -, -, hwpl, -⟩ := initAdoptChildren_keeps (q := t.pid) hp
    exact ⟨p, w', hw', hwpl ▸ hcp⟩
  · obtain ⟨u, hu, -, hst, -⟩ := initAdoptChildren_tasks hy
    obtain ⟨p, w, hp, hcp⟩ := h.died y u hu (hst.symm.trans hdy)
    obtain ⟨w', hw', -, -, hwpl, -⟩ := initAdoptChildren_keeps (q := t.pid) hp
    exact ⟨p, w', hw', hwpl ▸ hcp⟩
  · obtain ⟨v', hv', hvpid, hnone⟩ := hparents initTask v hv
    exact ⟨v', hv', hvpid.trans hv1, hnone hvp⟩

end Invariance

theorem initial_invariant : Invariant State.initial := by
  have htask : ∀ x t, State.initial.tasks x = some t →
      x ≤ idleTask ∧ t = ⟨x + 1, none, .active, .user⟩ := by
    intro x t hx
    simp only [State.initial] at hx
    split at hx
    · next hle => exact ⟨hle, (Option.some.inj hx).symm⟩
    · cases hx
  refine ⟨⟨fun x t hx => ?_, fun x t hx => ?_, fun x y t u hx hy he => ?_, fun x t hx => ?_,
    fun t hx => ?_, by decide,
    List.nodup_nil, fun x hx => ?_⟩, by decide, fun x hx => ?_, fun x t hx => ?_,
    fun x t hx hp => ?_, fun x t q hx hq => ?_, fun p u c hp hc => ?_, fun x t hx hl => ?_,
    fun x t hx hd => ?_, ?_⟩
  · exact Nat.lt_succ_of_le (htask x t hx).1
  · obtain ⟨hle, rfl⟩ := htask x t hx
    refine ⟨Nat.succ_pos x, ?_⟩
    have hlt : x < 3 := Nat.lt_succ_of_le hle
    show bitmapScanTest (setBits (pidBitmap fun _ => 0#8) 0 true 3) x = true
    rw [bitmapScanTest_setBits]
    simp [hlt]
  · obtain ⟨-, rfl⟩ := htask x t hx
    obtain ⟨-, rfl⟩ := htask y u hy
    exact Nat.succ.inj he
  · obtain ⟨-, rfl⟩ := htask x t hx
    exact (Option.some_ne_none _).symm
  · obtain ⟨-, rfl⟩ := htask mainTask t hx
    rfl
  · cases hx
  · have hle : x ≤ idleTask := by
      simp only [State.initial, List.mem_cons, List.not_mem_nil, or_false] at hx
      rcases hx with rfl | rfl | rfl <;> decide
    exact ⟨_, by simp only [State.initial, if_pos hle]; rfl⟩
  · obtain ⟨-, rfl⟩ := htask x t hx
    exact ⟨Status.noConfusion, Place.noConfusion, fun hs => by rcases hs with hs | hs <;> cases hs⟩
  · obtain ⟨-, rfl⟩ := htask x t hx
    exact absurd rfl hp
  · obtain ⟨-, rfl⟩ := htask x t hx
    cases hq
  · obtain ⟨-, rfl⟩ := htask p u hp
    cases hc
  · obtain ⟨hle, -⟩ := htask x t hx
    refine absurd ?_ hl
    have hcases : x = 0 ∨ x = 1 ∨ x = 2 := by
      unfold idleTask at hle
      omega
    rcases hcases with rfl | rfl | rfl <;> decide
  · obtain ⟨-, rfl⟩ := htask x t hx
    cases hd
  · exact ⟨_, ⟨by decide, rfl, ⟨Place.noConfusion, Place.noConfusion⟩, .inl rfl⟩, rfl, rfl⟩

section Waits

variable {s s' : State} {x : ℕ} {t t' : Task}

/-- Fewer waiting tasks and fewer hanging children. -/
theorem NoLostWait.mono (h : NoLostWait s)
    (hw : ∀ y u', s'.tasks y = some u' → u'.status = .waiting →
      ∃ z u, s.tasks z = some u ∧ u.status = .waiting ∧ u.pid = u'.pid)
    (hh : ∀ pid, HasHanging s' pid → HasHanging s pid) : NoLostWait s' := by
  intro y u' hy hyw hc
  obtain ⟨z, u, hz, hzw, hpid⟩ := hw y u' hy hyw
  exact h z u hz hzw (hpid ▸ hh _ hc)

theorem noLostWait_put (h : NoLostWait s) (hst : t'.status ≠ .waiting)
    (hsh : t'.status ≠ .hanging) : NoLostWait (s.put x t') := by
  refine h.mono (fun y u' hy hw => ?_) fun pid hc => ?_
  · by_cases hyx : y = x
    · subst y
      obtain rfl := Option.some.inj ((State.put_self ..).symm.trans hy)
      exact absurd hw hst
    · rw [State.put_other hyx] at hy
      exact ⟨y, u', hy, hw, rfl⟩
  · obtain ⟨c, hc, d, hd, hdp, hdh⟩ := hc
    by_cases hcx : c = x
    · subst c
      obtain rfl := Option.some.inj ((State.put_self ..).symm.trans hd)
      exact absurd hdh hsh
    · rw [State.put_other hcx] at hd
      exact ⟨c, hc, d, hd, hdp, hdh⟩

theorem NoLostWait.remove (h : NoLostWait s) {c : ℕ}
    (htasks : ∀ y, s'.tasks y = if y = c then none else (s.tasks y).map (leave c))
    (hl : ∀ y ∈ s'.threadAllList, y ∈ s.threadAllList) : NoLostWait s' := by
  have hold : ∀ y u', s'.tasks y = some u' → ∃ u, s.tasks y = some u ∧ u' = leave c u := by
    intro y u' hy
    rw [htasks y] at hy
    split at hy
    · cases hy
    · obtain ⟨u, hu, rfl⟩ := Option.map_eq_some_iff.mp hy
      exact ⟨u, hu, rfl⟩
  refine h.mono (fun y u' hy hw => ?_) ?_
  · obtain ⟨u, hu, rfl⟩ := hold y u' hy
    exact ⟨y, u, hu, by simpa using hw, by simp⟩
  · rintro pid ⟨y, hy, u', hu', hup, huh⟩
    obtain ⟨u, hu, rfl⟩ := hold y u' hu'
    exact ⟨y, hl y hy, u, hu, by simpa using hup, by simpa using huh⟩

/-- Everything but the machine's last word is the same. -/
theorem Invariant.halt (h : Invariant s) : Invariant { s with halted := true } :=
  ⟨h.numbers.congr (fun _ => rfl) rfl rfl rfl, h.nodup, h.listed, h.fits, h.callers, h.parent,
    h.busy, h.offList, h.died, h.init⟩

theorem fits_of_active {p : Place} (hp : p ≠ .ended) (hact : t.status = .active) :
    ({ t with place := p } : Task).Fits := by
  refine ⟨fun hw => ?_, fun he => absurd he hp, fun hs => ?_⟩
  · rw [hact] at hw
    cases hw
  · rw [hact] at hs
    rcases hs with hs | hs <;> cases hs

/-- An active task moves on to a place where it has no business with a child. -/
theorem Invariant.goto (h : Invariant s) (hx : s.tasks x = some t) (hl : x ∈ s.threadAllList)
    (hact : t.status = .active) (hc : t.place.child = none) {p : Place} (hp : p.child = none)
    (ha : p ≠ .exit ∧ p ≠ .ended) (hcall : p ≠ .user → x = initTask ∨ t.parentPid ≠ none) :
    Invariant (s.goto x p) ∧ (NoLostWait s → NoLostWait (s.goto x p)) := by
  rw [State.goto_eq hx]
  refine ⟨h.relabel hx hl (by simp [hact]) hc rfl rfl hp (fits_of_active ha.2 hact)
    (by simp [hact]) hcall fun _ => .inl ha, fun hn => ?_⟩
  exact noLostWait_put hn (by simp [hact]) (by simp [hact])

theorem forkPid_total (h : Invariant s) (hx : s.tasks x = some t) (hp : t.place = .fork)
    (hact : t.status = .active) (ok : Bool) :
    ∃ s', forkPid x ok s = some s' ∧ Invariant s' ∧ (NoLostWait s → NoLostWait s') := by
  have hl : x ∈ s.threadAllList := h.listed_of_place hx (by simp [hp]) (by simp [hp])
  cases ok with
  | false =>
    refine ⟨s.goto x .user, by simp [forkPid, hx], ?_⟩
    exact h.goto hx hl hact (by simp [hp, Place.child]) rfl (by simp) (by simp)
  | true =>
    cases ha : allocatePid s.pidBits with
    | none => exact ⟨{ s with halted := true }, by simp [forkPid, hx, ha], h.halt, id⟩
    | some r =>
      obtain ⟨bits, pid⟩ := r
      refine ⟨_, by
        simp only [forkPid, hx, ha, Option.bind_eq_bind, Option.bind_some, ↓reduceIte]
        rfl, h.create hx hp hact ha, fun hn => ?_⟩
      rw [State.goto_eq hx]
      have hput : NoLostWait ((s.put x { t with place := .build s.next }).put s.next
          ⟨pid, some t.pid, .active, .user⟩) :=
        noLostWait_put (noLostWait_put hn (by simp [hact]) (by simp [hact])) Status.noConfusion
          Status.noConfusion
      exact hput.mono (fun y u hy hw => ⟨y, u, hy, hw, rfl⟩) fun _ hc => hc

/-- The child a task is in the middle of building. -/
theorem Invariant.built (h : Invariant s) (hx : s.tasks x = some t) {c : ℕ}
    (hp : t.place = .build c) : t.status = .active ∧ x ∈ s.threadAllList ∧ c ≠ x ∧
      ∃ d, s.tasks c = some d ∧ d.parentPid = some t.pid ∧ c ∉ s.threadAllList ∧
        d.status = .active ∧ d.place = .user := by
  have hl : x ∈ s.threadAllList := h.listed_of_place hx (by simp [hp]) (by simp [hp])
  obtain ⟨hact, d, hd, hdp, hb⟩ := h.busy x t c hx (by rw [hp]; rfl)
  rw [hp] at hb
  refine ⟨hact, hl, ?_, d, hd, hdp, hb⟩
  rintro rfl
  exact hb.1 hl

theorem Invariant.no_children_offList (h : Invariant s) {c : ℕ} {d : Task}
    (hc : s.tasks c = some d) (hl : c ∉ s.threadAllList) {y : ℕ} {u : Task}
    (hy : s.tasks y = some u) : u.parentPid ≠ some d.pid := by
  intro hpar
  obtain ⟨p, v, hpv, hpid⟩ := h.parent y u d.pid hy hpar
  obtain rfl := h.numbers.inj p c v d hpv.2.1 hc hpid
  exact hl hpv.1

/-- What is left when `x` has let go of `c` and `c` is gone. -/
theorem tasks_without (h : Invariant s) (hx : s.tasks x = some t) {c : ℕ}
    (hc : t.place.child = some c) (y : ℕ) :
    Function.update (s.goto x .user).tasks c none y =
      if y = c then none else (s.tasks y).map (leave c) := by
  by_cases hyc : y = c
  · subst y
    simp
  · rw [Function.update_of_ne hyc, if_neg hyc, State.goto_eq hx]
    by_cases hyx : y = x
    · subst y
      rw [State.put_self, hx, Option.map_some, leave, if_pos hc]
    · rw [State.put_other hyx]
      cases hy : s.tasks y with
      | none => rfl
      | some u =>
        have hne : u.place.child ≠ some c := fun hu => hyx (h.busy_unique hy hx hu hc)
        rw [Option.map_some, leave, if_neg hne]

theorem forkEnd_total (h : Invariant s) (hx : s.tasks x = some t) {c : ℕ}
    (hp : t.place = .build c) (ok : Bool) :
    ∃ s', forkEnd x c ok s = some s' ∧ Invariant s' ∧ (NoLostWait s → NoLostWait s') := by
  obtain ⟨hact, hl, hcx, d, hd, hdp, hcl, hdact, hdu⟩ := h.built hx hp
  have hchild : t.place.child = some c := by rw [hp]; rfl
  have hnone : d.place.child = none := by rw [hdu]; rfl
  cases ok with
  | true =>
    have hs' : ({ s.goto x .user with threadAllList := s.threadAllList ++ [c] } : State) =
        { (s.put x { t with place := .user }).put c d with
          threadAllList := s.threadAllList ++ [c] } := by
      rw [State.goto_eq hx]
      have hsame : (s.put x { t with place := .user }).tasks c = some d := by
        rw [State.put_other hcx, hd]
      rw [State.put_same hsame]
    refine ⟨_, by simp only [forkEnd, ↓reduceIte, assert_pos hcl]; rfl, ?_, fun hn => ?_⟩
    · refine h.handle hx hd hcx hl (by simp [hp]) hact (.inr hchild) hdp (p := .user) (by simp)
        (l := s.threadAllList ++ [c]) ?_ (fun y hy => by simp [hy]) (h.fits c d hd) rfl rfl rfl
        hnone (fun hin => absurd hin hcl) hs' (.inr ⟨rfl, by simp, by simp [hdact]⟩)
      exact List.nodup_append.mpr ⟨h.nodup, List.nodup_singleton c, fun a ha b hb => by
        obtain rfl := List.mem_singleton.mp hb
        rintro rfl
        exact hcl ha⟩
    · have hgo : NoLostWait (s.goto x .user) := by
        rw [State.goto_eq hx]
        exact noLostWait_put hn (by simp [hact]) (by simp [hact])
      refine hgo.mono (fun y u hy hw => ⟨y, u, hy, hw, rfl⟩) ?_
      rintro pid ⟨y, hy, u, hu, hup, huh⟩
      rcases List.mem_append.mp hy with hin | hin
      · exact ⟨y, hin, u, hu, hup, huh⟩
      · obtain rfl := List.mem_singleton.mp hin
        have hu' : (s.goto x .user).tasks y = some u := hu
        rw [State.goto_eq hx, State.put_other hcx, hd] at hu'
        obtain rfl := Option.some.inj hu'
        rw [hdact] at huh
        cases huh
  | false =>
    have htasks := tasks_without h hx hchild
    refine ⟨_, by simp only [forkEnd, Bool.false_eq_true, ↓reduceIte]; rfl, ?_, fun hn => ?_⟩
    · refine h.remove hd (fun y u hy => h.no_children_offList hd hcl hy) hnone ?_ htasks h.nodup
        (fun y => ?_) rfl (fun _ _ hused => hused) (.inl rfl)
      · rintro rfl
        obtain ⟨v, hv, -, hvp⟩ := h.init
        obtain rfl := Option.some.inj (hd.symm.trans hv.2.1)
        rw [hdp] at hvp
        cases hvp
      · refine ⟨fun hy => ⟨hy, ?_⟩, fun hy => hy.1⟩
        rintro rfl
        exact hcl hy
    · exact hn.remove htasks fun _ hy => hy

theorem isHangingChild_iff {pid c : ℕ} : isHangingChild s pid c = true ↔
    ∃ d, s.tasks c = some d ∧ d.parentPid = some pid ∧ d.status = .hanging := by
  unfold isHangingChild
  cases hc : s.tasks c <;> simp

theorem hasHanging_iff {pid : ℕ} :
    HasHanging s pid ↔ (s.threadAllList.find? (isHangingChild s pid)).isSome := by
  rw [List.find?_isSome]
  simp only [HasHanging, isHangingChild_iff]

instance (s : State) (pid : ℕ) : Decidable (HasHanging s pid) :=
  decidable_of_iff (s.threadAllList.find? (isHangingChild s pid)).isSome hasHanging_iff.symm

theorem sysWait_total (h : Invariant s) (hx : s.tasks x = some t) (hp : t.place = .wait)
    (hact : t.status = .active) :
    ∃ s', sysWait x s = some s' ∧ Invariant s' ∧ (NoLostWait s → NoLostWait s') := by
  have hl : x ∈ s.threadAllList := h.listed_of_place hx (by simp [hp]) (by simp [hp])
  have hchild : t.place.child = none := by rw [hp]; rfl
  cases hf : s.threadAllList.find? (isHangingChild s t.pid) with
  | some c =>
    have hcl := List.mem_of_find?_eq_some hf
    obtain ⟨d, hd, hdp, hdh⟩ := isHangingChild_iff.mp (List.find?_some hf)
    have hde : d.place = .ended := (h.fits c d hd).ended.mpr (.inl hdh)
    have hcx : c ≠ x := by
      rintro rfl
      obtain rfl := Option.some.inj (hx.symm.trans hd)
      rw [hact] at hdh
      cases hdh
    have hmod : s.modify c (fun c => { c with status := .died }) =
        s.put c { d with status := .died } := State.modify_eq hd _
    have hx' : (s.put c { d with status := .died }).tasks x = some t := by
      rwa [State.put_other hcx.symm]
    have hswap : (s.put c { d with status := .died }).put x { t with place := .reap c } =
        { (s.put x { t with place := .reap c }).put c { d with status := .died } with
          threadAllList := s.threadAllList } := by
      simp only [State.put]
      rw [Function.update_comm hcx]
    refine ⟨_, by simp only [sysWait, hx, hf, Option.bind_eq_bind, Option.bind_some]; rfl, ?_,
      fun hn => ?_⟩
    · rw [hmod, State.goto_eq hx']
      refine h.handle (p := .reap c) hx hd hcx hl (by simp [hp]) hact (.inl hchild) hdp
        (by simp) h.nodup (fun y hy => Iff.rfl) (?_ : Task.Fits { d with status := .died }) rfl rfl
        rfl (by rw [hde]; rfl) (fun _ ha => ha.2 hde) hswap ?_
      · exact ⟨Status.noConfusion, fun _ => .inr rfl, fun _ => hde⟩
      · rw [hswap]
        exact .inl ⟨rfl, hcl, rfl⟩
    · rw [hmod, State.goto_eq hx']
      exact noLostWait_put (noLostWait_put hn Status.noConfusion Status.noConfusion)
        (by simp [hact]) (by simp [hact])
  | none =>
    cases hg : s.threadAllList.find? (isChild s t.pid) with
    | none =>
      refine ⟨s.goto x .user, by simp [sysWait, hx, hf, hg], ?_⟩
      exact h.goto hx hl hact hchild rfl (by simp) (by simp)
    | some c =>
      refine ⟨s.modify x fun t => { t with status := .waiting }, by simp [sysWait, hx, hf, hg], ?_,
        fun hn => ?_⟩
      · rw [State.modify_eq hx]
        refine h.relabel hx hl (by simp [hact]) hchild rfl rfl hchild ?_ Status.noConfusion
          (h.callers x t hx) fun ha => .inl ha
        refine ⟨fun _ => hp, fun he => ?_, fun hs => by rcases hs with hs | hs <;> cases hs⟩
        rw [show ({ t with status := .waiting } : Task).place = t.place from rfl, hp] at he
        cases he
      · rw [State.modify_eq hx]
        have hno : ¬ HasHanging s t.pid := by
          rw [hasHanging_iff, hf]
          exact Bool.false_ne_true
        have hh : ∀ pid, HasHanging (s.put x { t with status := .waiting }) pid →
            HasHanging s pid := by
          rintro pid ⟨c, hc, d, hd, hdp, hdh⟩
          by_cases hcx : c = x
          · subst c
            obtain rfl := Option.some.inj ((State.put_self ..).symm.trans hd)
            cases hdh
          · rw [State.put_other hcx] at hd
            exact ⟨c, hc, d, hd, hdp, hdh⟩
        intro y u hy hw hc
        by_cases hyx : y = x
        · subst y
          obtain rfl := Option.some.inj ((State.put_self ..).symm.trans hy)
          exact hno (hh _ hc)
        · rw [State.put_other hyx] at hy
          exact hn y u hy hw (hh _ hc)

theorem threadExitList_invariant (h : Invariant s) (hx : s.tasks x = some t) {c : ℕ}
    (hp : t.place = .reap c) :
    Invariant (threadExitList x c s) ∧ (NoLostWait s → NoLostWait (threadExitList x c s)) := by
  have hl : x ∈ s.threadAllList := h.listed_of_place hx (by simp [hp]) (by simp [hp])
  have hchild : t.place.child = some c := by rw [hp]; rfl
  obtain ⟨hact, d, hd, hdp, hb⟩ := h.busy x t c hx hchild
  rw [hp] at hb
  obtain ⟨hcl, hdied⟩ : c ∈ s.threadAllList ∧ d.status = .died := hb
  have hde : d.place = .ended := (h.fits c d hd).ended.mpr (.inr hdied)
  have hcx : c ≠ x := by
    rintro rfl
    obtain rfl := Option.some.inj (hx.symm.trans hd)
    rw [hact] at hdied
    cases hdied
  have hs' : threadExitList x c s =
      { (s.put x { t with place := .release c }).put c d with
        threadAllList := s.threadAllList.erase c } := by
    have hsame : (s.put x { t with place := .release c }).tasks c = some d := by
      rw [State.put_other hcx, hd]
    rw [threadExitList, State.goto_eq hx, State.put_same hsame]
  refine ⟨?_, fun hn => ?_⟩
  · refine h.handle hx hd hcx hl (by simp [hp]) hact (.inr hchild) hdp (p := .release c) (by simp)
      (h.nodup.erase c) (fun y hy => List.mem_erase_of_ne hy) (h.fits c d hd) rfl rfl rfl
      (by rw [hde]; rfl) (fun _ ha => ha.2 hde) hs' (.inl ⟨rfl, ?_⟩)
    exact ⟨h.nodup.not_mem_erase, hdied⟩
  · have hgo : NoLostWait (s.goto x (.release c)) := by
      rw [State.goto_eq hx]
      exact noLostWait_put hn (by simp [hact]) (by simp [hact])
    refine hgo.mono (fun y u hy hw => ⟨y, u, hy, hw, rfl⟩) ?_
    rintro pid ⟨y, hy, u, hu, hup, huh⟩
    exact ⟨y, List.mem_of_mem_erase hy, u, hu, hup, huh⟩

theorem threadExitPid_total (h : Invariant s) (hx : s.tasks x = some t) {c : ℕ}
    (hp : t.place = .release c) :
    ∃ s', threadExitPid x c s = some s' ∧ Invariant s' ∧ (NoLostWait s → NoLostWait s') := by
  have hchild : t.place.child = some c := by rw [hp]; rfl
  obtain ⟨hact, d, hd, hdp, hb⟩ := h.busy x t c hx hchild
  rw [hp] at hb
  obtain ⟨hcl, hdied⟩ : c ∉ s.threadAllList ∧ d.status = .died := hb
  have hde : d.place = .ended := (h.fits c d hd).ended.mpr (.inr hdied)
  have htasks := tasks_without h hx hchild
  refine ⟨_, by simp only [threadExitPid, hd, Option.bind_eq_bind, Option.bind_some]; rfl, ?_, ?_⟩
  · refine h.remove hd (fun y u hy => h.no_children_offList hd hcl hy) (by rw [hde]; rfl) ?_ htasks
      h.nodup (fun y => ?_) rfl (fun pid hne hused => ?_) (.inr rfl)
    · rintro rfl
      obtain ⟨v, hv, -⟩ := h.init
      exact hcl hv.1
    · refine ⟨fun hy => ⟨hy, ?_⟩, fun hy => hy.1⟩
      rintro rfl
      exact hcl hy
    · exact releasePid_keeps (h.numbers.used c d hd).1 hne hused rfl
  · intro hn
    exact hn.remove htasks fun _ hy => hy

/-- `main` is nobody's parent and nobody's child. -/
theorem mainExit_total (h : Invariant s) (hl : mainTask ∈ s.threadAllList) :
    ∃ s', mainExit s = some s' ∧ Invariant s' ∧ (NoLostWait s → NoLostWait s') := by
  obtain ⟨d, hd⟩ := h.listed mainTask hl
  have hpar := h.numbers.main d hd
  have huser : d.place = .user := by
    by_contra hne
    rcases h.callers mainTask d hd hne with hm | hm
    · cases hm
    · exact hm hpar
  have hno : ∀ y u, s.tasks y = some u → u.parentPid ≠ some d.pid := by
    intro y u hy hup
    obtain ⟨p, v, hpv, hpid⟩ := h.parent y u d.pid hy hup
    obtain rfl := h.numbers.inj p mainTask v d hpv.2.1 hd hpid
    obtain rfl := Option.some.inj (hd.symm.trans hpv.2.1)
    rcases hpv.2.2.2 with hm | hm
    · cases hm
    · exact hm hpar
  have hfree : ∀ y u, s.tasks y = some u → u.place.child ≠ some mainTask := by
    intro y u hy hc
    obtain ⟨_, e, he, hep, _⟩ := h.busy y u mainTask hy hc
    obtain rfl := Option.some.inj (hd.symm.trans he)
    rw [hpar] at hep
    cases hep
  have htasks : ∀ y, Function.update s.tasks mainTask none y =
      if y = mainTask then none else (s.tasks y).map (leave mainTask) := by
    intro y
    by_cases hym : y = mainTask
    · subst y
      simp
    · rw [Function.update_of_ne hym, if_neg hym]
      cases hy : s.tasks y with
      | none => rfl
      | some u => rw [Option.map_some, leave, if_neg (hfree y u hy)]
  refine ⟨_, by simp only [mainExit, hd, Option.bind_eq_bind, Option.bind_some]; rfl, ?_, ?_⟩
  · refine h.remove hd hno (by rw [huser]; rfl) (by decide) htasks (h.nodup.erase _) (fun y => ?_)
      rfl (fun pid hne hused => ?_) (.inl rfl)
    · rw [h.nodup.mem_erase_iff, and_comm]
    · exact releasePid_keeps (h.numbers.used mainTask d hd).1 hne hused rfl
  · intro hn
    exact hn.remove htasks fun y hy => List.mem_of_mem_erase hy

/-- `pid2thread` finds the parent. -/
theorem Invariant.pid2thread (h : Invariant s) (hx : s.tasks x = some t) {q : ℕ}
    (hq : t.parentPid = some q) :
    ∃ p u, ProcessTree.pid2thread s q = some p ∧ Parents s p u ∧ u.pid = q := by
  obtain ⟨p, u, hp, hpid⟩ := h.parent x t q hx hq
  have hmatch : pidOf s p = some q := by simp [pidOf, hp.2.1, hpid]
  cases hf : ProcessTree.pid2thread s q with
  | none =>
    have hnot := List.find?_eq_none.mp hf p hp.1
    simp [hmatch] at hnot
  | some p' =>
    have hp' : pidOf s p' = some q := by simpa using List.find?_some hf
    obtain ⟨v, hv, hvq⟩ := Option.map_eq_some_iff.mp hp'
    obtain rfl := h.numbers.inj p' p v u hv hp.2.1 (hvq.trans hpid.symm)
    exact ⟨p', u, rfl, hp, hpid⟩

/-- The waiting tasks but for those with one pid have no hanging children. -/
def NoLostWaitBut (s : State) (q : ℕ) : Prop :=
  ∀ y u, s.tasks y = some u → u.status = .waiting → u.pid ≠ q → ¬ HasHanging s u.pid

/-- The end of `sys_exit` wakes the parent, who gets one more hanging child. -/
theorem sysExitEnd_total (h : Invariant s) (hx : s.tasks x = some t) (hp : t.place = .exit) {q : ℕ}
    (hq : t.parentPid = some q) :
    ∃ s', sysExitEnd x s = some s' ∧ Invariant s' ∧ (NoLostWait s' ↔ NoLostWaitBut s q) := by
  have hl : x ∈ s.threadAllList := h.listed_of_place hx (by simp [hp]) (by simp [hp])
  have hnd : t.status ≠ .died := fun hd => by
    have := (h.fits x t hx).ended.mpr (.inr hd)
    rw [hp] at this
    cases this
  obtain ⟨p, u, hfind, hpar, hpid⟩ := h.pid2thread hx hq
  have hxp : x ≠ p := by
    rintro rfl
    obtain rfl := Option.some.inj (hx.symm.trans hpar.2.1)
    exact hpar.2.2.1.1 hp
  -- the parent is woken if it waits, and left alone otherwise
  obtain ⟨u', hwake, hi, hu'w, hu'h, hu'p⟩ : ∃ u', wakeParent p s = s.put p u' ∧
      Invariant (s.put p u') ∧ u'.status ≠ .waiting ∧ u'.status ≠ .hanging ∧ u'.pid = q := by
    have hmod := State.modify_eq hpar.2.1
      fun u => if u.status = .waiting then { u with status := .active } else u
    by_cases hw : u.status = .waiting
    · have hwait := (h.fits p u hpar.2.1).waiting hw
      refine ⟨{ u with status := .active }, ?_, ?_, Status.noConfusion, Status.noConfusion, hpid⟩
      · simpa [wakeParent, hw] using hmod
      · refine h.relabel hpar.2.1 hpar.1 (by simp [hw]) (by rw [hwait]; rfl) rfl rfl
          (by rw [hwait]; rfl) ?_ Status.noConfusion (fun _ => hpar.2.2.2) fun ha => .inl ha
        refine ⟨Status.noConfusion, fun he => ?_, fun hs => by rcases hs with hs | hs <;> cases hs⟩
        exact absurd he hpar.2.2.1.2
    · refine ⟨u, ?_, ?_, hw, fun hh => ?_, hpid⟩
      · simpa [wakeParent, hw] using hmod
      · rwa [State.put_same hpar.2.1]
      · exact hpar.2.2.1.2 ((h.fits p u hpar.2.1).ended.mpr (.inl hh))
  have hx' : (s.put p u').tasks x = some t := by rwa [State.put_other hxp]
  refine ⟨(s.put p u').put x { t with status := .hanging, place := .ended }, ?_, ?_, ?_⟩
  · have hend : sysExitEnd x s = some ((wakeParent p s).modify x fun t =>
        { t with status := .hanging, place := .ended }) := by
      simp [sysExitEnd, hx, hq, hfind]
    rw [hend, hwake, State.modify_eq hx']
  · refine hi.relabel hx' hl hnd (by rw [hp]; rfl) rfl rfl rfl ?_ Status.noConfusion
      (fun _ => h.callers x t hx (by simp [hp])) fun ha => absurd hp ha.1
    exact ⟨Status.noConfusion, fun _ => .inl rfl, fun _ => rfl⟩
  · have hother : ∀ y, y ≠ x → y ≠ p →
        ((s.put p u').put x { t with status := .hanging, place := .ended }).tasks y =
          s.tasks y := by
      intro y hyx hyp
      rw [State.put_other hyx, State.put_other hyp]
    have hofq : ∀ y w, s.tasks y = some w → w.pid = q → y = p :=
      fun y w hy hw => h.numbers.inj y p w u hy hpar.2.1 (hw.trans hpid.symm)
    constructor
    · rintro hn y w hy hw hwq ⟨c, hc, d, hd, hdp, hdh⟩
      have hyp : y ≠ p := by
        rintro rfl
        obtain rfl := Option.some.inj (hpar.2.1.symm.trans hy)
        exact hwq hpid
      have hyx : y ≠ x := by
        rintro rfl
        obtain rfl := Option.some.inj (hx.symm.trans hy)
        rw [(h.fits y t hx).waiting hw] at hp
        cases hp
      have hde := (h.fits c d hd).ended.mpr (.inl hdh)
      have hcx : c ≠ x := by
        rintro rfl
        obtain rfl := Option.some.inj (hx.symm.trans hd)
        rw [hp] at hde
        cases hde
      have hcp : c ≠ p := by
        rintro rfl
        obtain rfl := Option.some.inj (hpar.2.1.symm.trans hd)
        exact hpar.2.2.1.2 hde
      exact hn y w ((hother y hyx hyp).trans hy) hw
        ⟨c, hc, d, (hother c hcx hcp).trans hd, hdp, hdh⟩
    · rintro hn y w hy hw ⟨c, hc, d, hd, hdp, hdh⟩
      have hyx : y ≠ x := by
        rintro rfl
        obtain rfl := Option.some.inj ((State.put_self ..).symm.trans hy)
        cases hw
      have hyp : y ≠ p := by
        rintro rfl
        rw [State.put_other hyx] at hy
        obtain rfl := Option.some.inj ((State.put_self ..).symm.trans hy)
        exact hu'w hw
      rw [hother y hyx hyp] at hy
      have hwq : w.pid ≠ q := fun he => hyp (hofq y w hy he)
      by_cases hcx : c = x
      · subst c
        obtain rfl := Option.some.inj ((State.put_self ..).symm.trans hd)
        exact hwq (Option.some.inj (hdp.symm.trans hq))
      · by_cases hcp : c = p
        · subst c
          rw [State.put_other hcx] at hd
          obtain rfl := Option.some.inj ((State.put_self ..).symm.trans hd)
          exact hu'h hdh
        · exact hn y w hy hw hwq ⟨c, hc, d, (hother c hcx hcp).symm.trans hd, hdp, hdh⟩

/-- No task has the pid 0. -/
theorem noLostWait_iff_but (h : Invariant s) : NoLostWait s ↔ NoLostWaitBut s 0 := by
  constructor
  · intro hn y u hy hw _
    exact hn y u hy hw
  · intro hn y u hy hw
    exact hn y u hy hw (h.numbers.used y u hy).1.ne'

/-- A task that exits hands a hanging child to `init` while `init` waits. -/
def HandsOver (s : State) (t : Task) : Prop :=
  HasHanging s t.pid ∧ ∃ u, s.tasks initTask = some u ∧ u.status = .waiting

instance (s : State) (t : Task) : Decidable (HandsOver s t) :=
  match h : s.tasks initTask with
  | none => .isFalse (by simp [HandsOver, h])
  | some u => decidable_of_iff (HasHanging s t.pid ∧ u.status = .waiting) (by simp [HandsOver, h])

/-- After adoption `init` has the hanging children of the exiting task, and nobody else has more
than before. -/
theorem hasHanging_adopt (hx : s.tasks x = some t) (hact : t.status = .active) (pid : ℕ) :
    (HasHanging ((initAdoptChildren t.pid s).put x { t with place := .exit }) pid →
      HasHanging s pid ∨ pid = 1 ∧ HasHanging s t.pid) ∧
    (HasHanging s t.pid →
      HasHanging ((initAdoptChildren t.pid s).put x { t with place := .exit }) 1) := by
  constructor
  · rintro ⟨c, hc, d', hd', hdp, hdh⟩
    have hcx : c ≠ x := by
      rintro rfl
      obtain rfl := Option.some.inj ((State.put_self ..).symm.trans hd')
      rw [show ({ t with place := .exit } : Task).status = t.status from rfl, hact] at hdh
      cases hdh
    rw [State.put_other hcx] at hd'
    obtain ⟨d, hd, -, hst, -, ⟨hcl, hpar, h1⟩ | ⟨-, rfl⟩⟩ := initAdoptChildren_tasks hd'
    · exact .inr ⟨Option.some.inj (hdp.symm.trans h1), c, hcl, d, hd, hpar, hst.symm.trans hdh⟩
    · exact .inl ⟨c, hc, d', hd, hdp, hdh⟩
  · rintro ⟨c, hc, d, hd, hdp, hdh⟩
    have hcx : c ≠ x := by
      rintro rfl
      obtain rfl := Option.some.inj (hx.symm.trans hd)
      rw [hact] at hdh
      cases hdh
    refine ⟨c, hc, { d with parentPid := some 1 }, ?_, rfl, hdh⟩
    rw [State.put_other hcx]
    simp [initAdoptChildren, initAdoptAChild, hd, hc, hdp]

/-- The beginning of `sys_exit`. Among the waiting tasks only `init` gets more children. -/
theorem sysExitAdopt_total (h : Invariant s) (hc : Calls x s) (hxi : x ≠ initTask)
    (hx : s.tasks x = some t) :
    ∃ s', sysExitAdopt x s = some s' ∧ Invariant s' ∧
      s'.tasks x = some { t with place := .exit } ∧ t.parentPid ≠ none ∧
      (NoLostWait s → ∀ q, NoLostWaitBut s' q ↔ q = 1 ∨ ¬ HandsOver s t) := by
  obtain ⟨hl, t₀, hx₀, hact, hu, hpp⟩ := hc
  obtain rfl := Option.some.inj (hx.symm.trans hx₀)
  have hpp : t.parentPid ≠ none := hpp.resolve_left hxi
  have hchild : t.place.child = none := by rw [hu]; rfl
  obtain ⟨hi, hleft⟩ := h.adopt hx hxi hchild
  obtain ⟨t₁, ht₁, hpid, hst, hpl, hsame, -⟩ := initAdoptChildren_keeps (q := t.pid) hx
  obtain rfl := hsame (h.numbers.own x t hx)
  have hs' : (initAdoptChildren t₁.pid s).goto x .exit =
      (initAdoptChildren t₁.pid s).put x { t₁ with place := .exit } := State.goto_eq ht₁ _
  refine ⟨(initAdoptChildren t₁.pid s).put x { t₁ with place := .exit }, ?_, ?_,
    State.put_self .., hpp, fun hn q => ?_⟩
  · simp [sysExitAdopt, hx, assert_pos hpp, hs']
  · refine hi.relabel ht₁ hl (by simp [hact]) hchild rfl rfl rfl
      (fits_of_active Place.noConfusion hact) (by simp [hact]) (fun _ => .inr hpp)
      fun _ => .inr ⟨hxi, hleft⟩
  · obtain ⟨v, hv, hv1, -⟩ := h.init
    constructor
    · intro hn'
      by_contra hnot
      obtain ⟨hq, hhands⟩ := not_or.mp hnot
      obtain ⟨hkids, u, hu, huw⟩ := not_not.mp hhands
      obtain rfl := Option.some.inj (hv.2.1.symm.trans hu)
      obtain ⟨v', hv', hvpid, hvst, -⟩ := initAdoptChildren_keeps (q := t₁.pid) hv.2.1
      have hput : ((initAdoptChildren t₁.pid s).put x { t₁ with place := .exit }).tasks initTask =
          some v' := (State.put_other hxi.symm).trans hv'
      have hone : v'.pid = 1 := hvpid.trans hv1
      refine hn' initTask v' hput (hvst.trans huw) (by rw [hone]; exact Ne.symm hq) ?_
      rw [hone]
      have hadopt := hasHanging_adopt (s := s) hx hact 1
      exact hadopt.2 hkids
    · intro hq y w hy hw hwq hc
      have hyx : y ≠ x := by
        rintro rfl
        obtain rfl := Option.some.inj ((State.put_self ..).symm.trans hy)
        rw [show ({ t₁ with place := .exit } : Task).status = t₁.status from rfl, hact] at hw
        cases hw
      rw [State.put_other hyx] at hy
      obtain ⟨u, hu, hupid, hust, -⟩ := initAdoptChildren_tasks hy
      rcases (hasHanging_adopt hx hact _).1 hc with hold | ⟨hone, hkids⟩
      · exact hn y u hu (hust.symm.trans hw) (hupid ▸ hold)
      · have hyi : y = initTask :=
          h.numbers.inj y initTask u v hu hv.2.1 (hupid.symm.trans (hone.trans hv1.symm))
        subst y
        refine (hq.resolve_left fun he => hwq (hone.trans he.symm)) ⟨hkids, u, hu, ?_⟩
        exact hust.symm.trans hw

/-- `sys_exit` leaves nobody waiting in vain if it hands no hanging child to a waiting `init`, or
wakes `init` itself before anybody else runs. -/
theorem sysExit_total (h : Invariant s) (hc : Calls x s) (hxi : x ≠ initTask)
    (hx : s.tasks x = some t) (blocks : Bool) :
    ∃ s', sysExit x blocks s = some s' ∧ Invariant s' ∧ (NoLostWait s →
      (NoLostWait s' ↔ (HandsOver s t → blocks = false ∧ t.parentPid = some 1))) := by
  obtain ⟨s₁, hs₁, h₁, hx₁, hpp, hbut⟩ := sysExitAdopt_total h hc hxi hx
  cases blocks with
  | true =>
    refine ⟨s₁, by simp [sysExit, hs₁], h₁, fun hn => ?_⟩
    rw [noLostWait_iff_but h₁, hbut hn 0]
    simp
  | false =>
    obtain ⟨q, hq⟩ := Option.ne_none_iff_exists'.mp hpp
    obtain ⟨s₂, hs₂, h₂, hiff⟩ := sysExitEnd_total h₁ hx₁ rfl hq
    refine ⟨s₂, by simp [sysExit, hs₁, hs₂], h₂, fun hn => ?_⟩
    rw [hiff, hbut hn q, hq]
    by_cases hq1 : q = 1 <;> simp [hq1]

end Waits

/-- No `sys_exit` hands a hanging child to `init` while `init` waits, but for one that wakes `init`
without being blocked on its way. -/
def HandsOverInTime : Event → State → Prop
  | .exit x blocks, s =>
    match s.tasks x with
    | none => True
    | some t => HandsOver s t → blocks = false ∧ t.parentPid = some 1
  | _, _ => True

instance (e : Event) (s : State) : Decidable (HandsOverInTime e s) :=
  match e with
  | .exit x blocks =>
    match h : s.tasks x with
    | none => .isTrue (by simp [HandsOverInTime, h])
    | some t => decidable_of_iff (HandsOver s t → blocks = false ∧ t.parentPid = some 1)
        (by simp [HandsOverInTime, h])
  | .fork _ | .wait _ | .goOn _ _ | .mainExit => .isTrue trivial

theorem goOn_total {s : State} (h : Invariant s) {x : ℕ} {t : Task} (hx : s.tasks x = some t)
    (hact : t.status = .active) (ok : Bool) :
    ∃ s', goOn x ok s = some s' ∧ Invariant s' ∧ (NoLostWait s → NoLostWait s') := by
  have hgo : goOn x ok s = match t.place with
      | .user | .ended => some s
      | .fork => forkPid x ok s
      | .build child => forkEnd x child ok s
      | .wait => sysWait x s
      | .reap child => some (threadExitList x child s)
      | .release child => threadExitPid x child s
      | .exit => sysExitEnd x s := by
    simp only [goOn, hx, Option.bind_eq_bind, Option.bind_some]
    rfl
  rw [hgo]
  cases hp : t.place with
  | user => exact ⟨s, rfl, h, id⟩
  | ended => exact ⟨s, rfl, h, id⟩
  | fork => exact forkPid_total h hx hp hact ok
  | build c => exact forkEnd_total h hx hp ok
  | wait => exact sysWait_total h hx hp hact
  | reap c => exact ⟨_, rfl, threadExitList_invariant h hx hp⟩
  | release c => exact threadExitPid_total h hx hp
  | exit =>
    have hcall := h.callers x t hx (by simp [hp])
    have hpp : t.parentPid ≠ none := by
      refine hcall.resolve_left ?_
      rintro rfl
      obtain ⟨v, hv, -⟩ := h.init
      obtain rfl := Option.some.inj (hx.symm.trans hv.2.1)
      exact hv.2.2.1.1 hp
    obtain ⟨q, hq⟩ := Option.ne_none_iff_exists'.mp hpp
    obtain ⟨s', hs', h', hiff⟩ := sysExitEnd_total h hx hp hq
    exact ⟨s', hs', h', fun hn => hiff.mpr fun y u hy hw _ => hn y u hy hw⟩

theorem exec_total {s : State} (h : Invariant s) {e : Event} (he : Enabled e s) :
    ∃ s', exec e s = some s' ∧ Invariant s' ∧
      (NoLostWait s → (NoLostWait s' ↔ HandsOverInTime e s)) := by
  obtain ⟨-, he⟩ := he
  cases e with
  | fork x =>
    obtain ⟨hl, t, hx, hact, hu, hcall⟩ := he
    obtain ⟨hi, hn⟩ := h.goto hx hl hact (by rw [hu]; rfl) (p := .fork) rfl (by simp)
      fun _ => hcall
    exact ⟨_, rfl, hi, fun hw => iff_of_true (hn hw) trivial⟩
  | wait x =>
    obtain ⟨hl, t, hx, hact, hu, hcall⟩ := he
    obtain ⟨hi, hn⟩ := h.goto hx hl hact (by rw [hu]; rfl) (p := .wait) rfl (by simp)
      fun _ => hcall
    exact ⟨_, rfl, hi, fun hw => iff_of_true (hn hw) trivial⟩
  | exit x blocks =>
    obtain ⟨⟨hl, t, hx, hrest⟩, hxi⟩ := he
    obtain ⟨s', hs', h', hiff⟩ := sysExit_total h ⟨hl, t, hx, hrest⟩ hxi hx blocks
    refine ⟨s', hs', h', fun hn => (hiff hn).trans ?_⟩
    simp only [HandsOverInTime, hx]
  | goOn x ok =>
    obtain ⟨t, hx, hact⟩ := he
    obtain ⟨s', hs', h', hn⟩ := goOn_total h hx hact ok
    exact ⟨s', hs', h', fun hw => iff_of_true (hn hw) trivial⟩
  | mainExit =>
    obtain ⟨s', hs', h', hn⟩ := mainExit_total h he
    exact ⟨s', hs', h', fun hw => iff_of_true (hn hw) trivial⟩

/-- The tasks of `thread_all_list` have pids of their own that are in use, the parent of each that
was forked is one of them and has not exited, and no child is returned twice. -/
structure Tree (s : State) : Prop where
  nodup : s.threadAllList.Nodup
  listed : ∀ x ∈ s.threadAllList, ∃ t, s.tasks x = some t
  distinct : ∀ x ∈ s.threadAllList, ∀ y ∈ s.threadAllList, ∀ t u, s.tasks x = some t →
    s.tasks y = some u → t.pid = u.pid → x = y
  used : ∀ x ∈ s.threadAllList, ∀ t, s.tasks x = some t → pidUsed s t.pid
  parent : ∀ x t q, s.tasks x = some t → t.parentPid = some q →
    ∃ p ∈ s.threadAllList, ∃ u, s.tasks p = some u ∧ u.pid = q ∧ u.status ≠ .hanging ∧
      u.status ≠ .died ∧ pid2thread s q = some p
  once : s.returned.Nodup
  gone : ∀ x ∈ s.returned, x ∉ s.threadAllList

theorem Invariant.tree {s : State} (h : Invariant s) : Tree s := by
  refine ⟨h.nodup, h.listed, fun x _ y _ t u hx hy he => h.numbers.inj x y t u hx hy he,
    fun x _ t hx => h.numbers.used x t hx, fun x t q hx hq => ?_, h.numbers.once,
    fun x hx hl => ?_⟩
  · obtain ⟨p, u, hfind, ⟨hpl, hp, hpa, -⟩, hpid⟩ := h.pid2thread hx hq
    have hends := (h.fits p u hp).ended
    exact ⟨p, hpl, u, hp, hpid, fun hh => hpa.2 (hends.mpr (.inl hh)),
      fun hd => hpa.2 (hends.mpr (.inr hd)), hfind⟩
  · obtain ⟨t, ht⟩ := h.listed x hl
    rw [(h.numbers.gone x hx).2] at ht
    cases ht

theorem run_tree (l : List Event) (hl : AllMeet exec Enabled l State.initial) :
    ∃ s, runAll exec l State.initial = some s ∧ Tree s := by
  obtain ⟨s, hr, hi⟩ := runAll_total Invariant (fun e s hi he => by
    obtain ⟨s', hs', h', -⟩ := exec_total hi he
    exact ⟨s', hs', h'⟩) initial_invariant hl
  exact ⟨s, hr, hi.tree⟩

/-- `x` forks: the child has the next number. -/
def forks (x : ℕ) : List Event := [.fork x, .goOn x true, .goOn x true]

def waits (x : ℕ) : List Event := [.wait x, .goOn x true]

/-- A child exits, `init` waits for it, and its pid is given to the next child. -/
def oneChild : List Event :=
  forks 0 ++ [.exit 3 false] ++ waits 0 ++ [.goOn 0 true, .goOn 0 true] ++ forks 0

theorem run_tree_one_child :
    ∃ s, runAll exec oneChild State.initial = some s ∧ s.returned = [3] ∧ Tree s := by
  obtain ⟨s, hr, ht⟩ := run_tree oneChild (by decide +kernel)
  refine ⟨s, hr, ?_, ht⟩
  have hret : (runAll exec oneChild State.initial).map State.returned = some [3] := by
    decide +kernel
  rw [hr] at hret
  exact Option.some.inj hret

theorem no_lost_wait_iff_in_time (l : List Event) (hl : AllMeet exec Enabled l State.initial) :
    AllMeet exec HandsOverInTime l State.initial ↔
      ∀ l', l' <+: l → ∀ s, runAll exec l' State.initial = some s → NoLostWait s := by
  refine allMeet_iff_prefixes Invariant NoLostWait (fun e s hi hn he => ?_) initial_invariant
    (fun x t hx hw => ?_) hl
  · obtain ⟨s', hs', h', hiff⟩ := exec_total hi he
    exact ⟨s', hs', h', hiff hn⟩
  · have hfit := (initial_invariant.fits x t hx).waiting hw
    simp only [State.initial] at hx
    split at hx
    · obtain rfl := Option.some.inj hx
      cases hw
    · cases hx


/-- Task 3 exits and hands its hanging child 4 to `init`, its parent, that waits and is woken. -/
def handOver : List Event :=
  forks 0 ++ forks 3 ++ waits 0 ++ [.exit 4 false, .exit 3 false] ++
    List.replicate 6 (.goOn 0 true)

theorem no_lost_wait_hand_over : (runAll exec handOver State.initial).isSome ∧
    ∀ l', l' <+: handOver → ∀ s, runAll exec l' State.initial = some s → NoLostWait s :=
  ⟨by decide +kernel,
    (no_lost_wait_iff_in_time handOver (by decide +kernel)).mp (by decide +kernel)⟩

/-- Task 3 forks 4, and 4 forks 5; `init` waits for 3; 5 exits, and then 4. -/
def orphan : List Event :=
  forks 0 ++ forks 3 ++ forks 4 ++ waits 0 ++ [.exit 5 false, .exit 4 false]

/-- `init` waits with the hanging child 5 that it was given, and nobody wakes it. -/
theorem lost_wait_orphan :
    AllMeet exec Enabled orphan State.initial ∧
      ∃ s, runAll exec orphan State.initial = some s ∧ s.threadAllList = [0, 1, 2, 3, 4, 5] ∧
        s.tasks initTask = some ⟨1, none, .waiting, .wait⟩ ∧
        s.tasks 5 = some ⟨6, some 1, .hanging, .ended⟩ ∧ ¬ NoLostWait s := by
  refine ⟨by decide +kernel, ?_⟩
  have hend : (runAll exec orphan State.initial).map
      (fun s => (s.threadAllList, s.tasks initTask, s.tasks 5)) =
      some ([0, 1, 2, 3, 4, 5], some ⟨1, none, .waiting, .wait⟩,
        some ⟨6, some 1, .hanging, .ended⟩) := by decide +kernel
  obtain ⟨s, hr, hs⟩ := Option.map_eq_some_iff.mp hend
  obtain ⟨hl, hs⟩ := Prod.mk.inj hs
  obtain ⟨hi, h5⟩ := Prod.mk.inj hs
  refine ⟨s, hr, hl, hi, h5, fun hn => ?_⟩
  exact hn initTask _ hi rfl ⟨5, by simp [hl], _, h5, rfl, rfl⟩

end ProcessTree
