import Mathlib.Data.Int.Notation
import Mathlib.Data.List.Basic
import Mathlib.Data.List.Nodup
import Mathlib.Logic.Function.Basic
import Mathlib.Tactic.Common

/-! Threads and the scheduler: `thread/thread.c`, `thread/sync.c`, the waiters of
`device/ioqueue.c`, the timer interrupt, and `sys_fork`, `sys_wait` and `sys_exit` as far as
they schedule. A task is named by the address of its `task_struct`; a list of tags is the list
of their tasks. An operation runs with interrupts off up to the next switch, so it is one step;
what a thread does when it comes back (the loops of `sema_down` and `sys_wait`) is a step of its
own. `pid_lock` is never held when another thread gets to run and is left out. -/
namespace ThreadScheduler

inductive TaskStatus where
  | running
  | ready
  | blocked
  | waiting
  | hanging
  | died
  deriving DecidableEq, Repr

structure TaskStruct where
  pid : ℤ
  status : TaskStatus
  priority : ℕ
  ticks : ℕ
  parentPid : ℤ

structure Semaphore where
  value : ℕ
  waiters : List ℕ

/-- `waiter` holds the `producer` and `consumer` of every ring buffer, `intr` is the interrupt
flag, and `saved` the flag a thread gets back when it runs again. -/
structure State where
  tasks : ℕ → Option TaskStruct
  cur : ℕ
  mainThread : ℕ
  idleThread : ℕ
  threadReadyList : List ℕ
  threadAllList : List ℕ
  semas : ℕ → Semaphore
  waiter : ℕ → Option ℕ
  intr : Bool
  saved : ℕ → Bool

/-- Why a step does not end: an `ASSERT` of `schedule`, `thread_yield`, `thread_unblock` or
`sema_down`, or any other `ASSERT`, a `PANIC` or a null pointer. -/
inductive Fault where
  | assertion
  | halt
  deriving DecidableEq, Repr

def check (p : Prop) [Decidable p] : Except Fault Unit := if p then .ok () else .error .assertion

def demand (p : Prop) [Decidable p] : Except Fault Unit := if p then .ok () else .error .halt

def State.task (s : State) (a : ℕ) : Except Fault TaskStruct :=
  match s.tasks a with
  | none => .error .halt
  | some t => .ok t

def State.setTask (s : State) (a : ℕ) (t : TaskStruct) : State :=
  { s with tasks := Function.update s.tasks a (some t) }

def State.setSema (s : State) (i : ℕ) (x : Semaphore) : State :=
  { s with semas := Function.update s.semas i x }

/-- `intr_disable`; the thread gets its flag back when the operation ends. -/
def State.intrDisable (s : State) : State :=
  { s with intr := false, saved := Function.update s.saved s.cur s.intr }

def State.intrRestore (s : State) : State := { s with intr := s.saved s.cur }

def threadUnblock (a : ℕ) (s : State) : Except Fault State := do
  let t ← s.task a
  check (t.status = .blocked ∨ t.status = .hanging ∨ t.status = .waiting)
  if t.status ≠ .ready then
    check (a ∉ s.threadReadyList)
    return { s.setTask a { t with status := .ready } with threadReadyList := a :: s.threadReadyList }
  else return s

/-- A task that is still running is appended to the ready list. -/
def schedulePark (s : State) : Except Fault State := do
  let t ← s.task s.cur
  if t.status = .running then
    check (s.cur ∉ s.threadReadyList)
    return { s.setTask s.cur { t with ticks := t.priority, status := .ready } with
      threadReadyList := s.threadReadyList ++ [s.cur] }
  else return s

/-- `list_pop` and the switch. -/
def switchTo (s : State) : Except Fault State :=
  match s.threadReadyList with
  | [] => .error .halt
  | next :: rest => do
    let t ← s.task next
    let s := { s.setTask next { t with status := .running } with threadReadyList := rest, cur := next }
    return s.intrRestore

/-- The ready list must not be empty. -/
def scheduleIdle (s : State) : Except Fault State :=
  if s.threadReadyList = [] then threadUnblock s.idleThread s else .ok s

def schedule (s : State) : Except Fault State := do
  check (s.intr = false)
  let s ← schedulePark s
  let s ← scheduleIdle s
  switchTo s

def threadBlock (stat : TaskStatus) (s : State) : Except Fault State := do
  let s := s.intrDisable
  let t ← s.task s.cur
  schedule (s.setTask s.cur { t with status := stat })

def threadYield (s : State) : Except Fault State := do
  let s := s.intrDisable
  check (s.cur ∉ s.threadReadyList)
  let t ← s.task s.cur
  schedule { s.setTask s.cur { t with status := .ready } with
    threadReadyList := s.threadReadyList ++ [s.cur] }

/-- The loop of `sema_down` once: the thread is blocked, or it gets the semaphore. -/
def semaDown (i : ℕ) (s : State) : Except Fault State := do
  let s := s.intrDisable
  let x := s.semas i
  if x.value = 0 then
    check (s.cur ∉ x.waiters)
    threadBlock .blocked (s.setSema i { x with waiters := x.waiters ++ [s.cur] })
  else
    check (x.value - 1 = 0)
    return (s.setSema i { x with value := x.value - 1 }).intrRestore

/-- The first waiter, if there is one, is popped and unblocked. -/
def semaWake (i : ℕ) (s : State) : Except Fault State :=
  match (s.semas i).waiters with
  | [] => .ok s
  | a :: rest => threadUnblock a (s.setSema i { s.semas i with waiters := rest })

def semaUp (i : ℕ) (s : State) : Except Fault State := do
  let s := s.intrDisable
  demand ((s.semas i).value = 0)
  let s ← semaWake i s
  let x : Semaphore := { s.semas i with value := (s.semas i).value + 1 }
  demand (x.value = 1)
  return (s.setSema i x).intrRestore

def ioqWait (w : ℕ) (s : State) : Except Fault State := do
  demand (s.waiter w = none)
  threadBlock .blocked { s with waiter := Function.update s.waiter w (some s.cur) }

/-- The callers have seen that there is a waiter. -/
def weakup (w : ℕ) (s : State) : Except Fault State :=
  match s.waiter w with
  | none => .error .halt
  | some a => do
    let s ← threadUnblock a s
    return { s with waiter := Function.update s.waiter w none }

def intrTimerHandler (s : State) : Except Fault State := do
  let s := s.intrDisable
  let t ← s.task s.cur
  if t.ticks = 0 then schedule s
  else return (s.setTask s.cur { t with ticks := t.ticks - 1 }).intrRestore

/-- The last lines of `sys_fork`: the child that has been built at `child` becomes a task. -/
def sysFork (child : ℕ) (pid : ℤ) (s : State) : Except Fault State := do
  let t ← s.task s.cur
  demand (child ∉ s.threadReadyList ∧ child ∉ s.threadAllList)
  return { s.setTask child ⟨pid, .ready, t.priority, t.priority, t.pid⟩ with
    threadReadyList := s.threadReadyList ++ [child]
    threadAllList := s.threadAllList ++ [child]
    saved := Function.update s.saved child true }

def pidOf (s : State) (a : ℕ) : Option ℤ := (s.tasks a).map TaskStruct.pid

def pid2thread (s : State) (pid : ℤ) : Option ℕ := s.threadAllList.find? fun a => pidOf s a = some pid

/-- The children of an exiting process go to `init`. -/
def initAdoptChildren (pid : ℤ) (s : State) : State :=
  { s with tasks := fun a => (s.tasks a).map fun t =>
      if a ∈ s.threadAllList ∧ t.parentPid = pid then { t with parentPid := 1 } else t }

/-- The beginning of `sys_exit`; `release_prog_resource` follows and may block. -/
def sysExitAdopt (s : State) : Except Fault State := do
  let t ← s.task s.cur
  demand (t.parentPid ≠ -1)
  return initAdoptChildren t.pid s

def wakeParent (p : ℕ) (s : State) : Except Fault State := do
  let t ← s.task p
  if t.status = .waiting then threadUnblock p s else return s

/-- The end of `sys_exit`. -/
def sysExit (s : State) : Except Fault State := do
  let t ← s.task s.cur
  demand (t.parentPid ≠ -1)
  match pid2thread s t.parentPid with
  | none => .error .halt
  | some p =>
    let s ← wakeParent p s
    threadBlock .hanging s

/-- `thread_exit` up to `need_schedule`; the `task_struct` of `main` is not given back. -/
def threadExit (a : ℕ) (s : State) : Except Fault State := do
  let t ← s.task a
  let s := { s.setTask a { t with status := .died } with
    threadReadyList := s.threadReadyList.erase a
    threadAllList := s.threadAllList.erase a }
  if a ≠ s.mainThread then return { s with tasks := Function.update s.tasks a none }
  else return s

def isHangingChild (s : State) (pid : ℤ) (a : ℕ) : Bool :=
  match s.tasks a with
  | none => false
  | some t => t.parentPid = pid ∧ t.status = .hanging

def isChild (s : State) (pid : ℤ) (a : ℕ) : Bool :=
  match s.tasks a with
  | none => false
  | some t => t.parentPid = pid

/-- The loop of `sys_wait` once. -/
def sysWait (s : State) : Except Fault State := do
  let t ← s.task s.cur
  match s.threadAllList.find? (isHangingChild s t.pid) with
  | some child => threadExit child s
  | none =>
    match s.threadAllList.find? (isChild s t.pid) with
    | none => return s
    | some _ => threadBlock .waiting s

/-- `thread_exit(running_thread(), true)` at the end of `main`. -/
def mainExit (s : State) : Except Fault State := do
  let s ← threadExit s.cur s.intrDisable
  schedule s

inductive Action where
  | tick
  | yield
  | semaDown (i : ℕ)
  | semaUp (i : ℕ)
  | ioqWait (w : ℕ)
  | weakup (w : ℕ)
  | fork (child : ℕ) (pid : ℤ)
  | exitAdopt
  | exit
  | wait
  | mainExit
  | idleBlock
  | setIntr (on : Bool)

/-- What a thread may do: `idle` blocks itself and is interrupted, where an interrupt handler may
wake other threads; `main` ends with `thread_exit`; a child is built on a page that is not in
use. -/
def Enabled (s : State) : Action → Prop
  | .tick => s.intr = true
  | .semaUp _ | .weakup _ | .setIntr _ => True
  | .idleBlock => s.cur = s.idleThread
  | .mainExit => s.cur = s.mainThread ∧ s.cur ≠ s.idleThread
  | .fork child _ => s.cur ≠ s.idleThread ∧ s.tasks child = none
  | _ => s.cur ≠ s.idleThread

def exec : Action → State → Except Fault State
  | .tick, s => intrTimerHandler s
  | .yield, s => threadYield s
  | .semaDown i, s => semaDown i s
  | .semaUp i, s => semaUp i s
  | .ioqWait w, s => ioqWait w s
  | .weakup w, s => weakup w s
  | .fork child pid, s => sysFork child pid s
  | .exitAdopt, s => sysExitAdopt s
  | .exit, s => sysExit s
  | .wait, s => sysWait s
  | .mainExit, s => mainExit s
  | .idleBlock, s => threadBlock .blocked s
  | .setIntr on, s => .ok { s with intr := on }

@[simp] theorem setTask_self (s : State) (a : ℕ) (t : TaskStruct) :
    (s.setTask a t).tasks a = some t := Function.update_self _ _ _

theorem setTask_ne (s : State) {a b : ℕ} (t : TaskStruct) (h : b ≠ a) :
    (s.setTask a t).tasks b = s.tasks b := Function.update_of_ne h _ _

@[simp] theorem setSema_self (s : State) (i : ℕ) (x : Semaphore) : (s.setSema i x).semas i = x :=
  Function.update_self _ _ _

theorem setSema_ne (s : State) {i j : ℕ} (x : Semaphore) (h : j ≠ i) :
    (s.setSema i x).semas j = s.semas j := Function.update_of_ne h _ _

/-- Where the first three tasks are, and semaphores that have been initialised to 0 or 1. -/
structure Boot where
  init : ℕ
  main : ℕ
  idle : ℕ
  semas : ℕ → Semaphore
  distinct : init ≠ main ∧ init ≠ idle ∧ main ≠ idle
  fresh : ∀ i, (semas i).waiters = [] ∧ (semas i).value ≤ 1

def initThread (a : ℕ) (pid : ℤ) (prio : ℕ) (s : State) : State :=
  s.setTask a ⟨pid, if a = s.mainThread then .running else .ready, prio, prio, -1⟩

/-- `process_execute` and `thread_start`. -/
def threadStart (a : ℕ) (pid : ℤ) (prio : ℕ) (s : State) : State :=
  { initThread a pid prio s with
    threadReadyList := s.threadReadyList ++ [a]
    threadAllList := s.threadAllList ++ [a] }

def makeMainThread (pid : ℤ) (s : State) : State :=
  { initThread s.mainThread pid 31 s with threadAllList := s.threadAllList ++ [s.mainThread] }

/-- The boot code becomes `main`; a new thread starts with interrupts on. -/
def threadInit (b : Boot) : State :=
  let s : State := ⟨fun _ => none, b.main, b.main, b.idle, [], [], b.semas, fun _ => none, false,
    fun _ => true⟩
  threadStart b.idle 3 10 (makeMainThread 2 (threadStart b.init 1 31 s))

end ThreadScheduler
