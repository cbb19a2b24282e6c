import XianweiOS.ContextSwitch

/-! The kernel's threads on one processor, each with its own page for task_struct and
kernel stack. Interrupts, system calls and switches interleave with any other work of the
kernel and of the user programs, of which only this is used: it leaves the task_struct
pointers and the stacks of other threads alone, and on its own stack what lies above the
frames of the calls in progress. -/
namespace KernelStacks

open StackMachine ContextSwitch

def sizeof_task_struct : ℕ := 276

/-- Where the linker placed the two pieces of code whose addresses the kernel stores. -/
structure Image where
  kernel_thread : ℕ
  intr_exit : ℕ

/-- What a kernel stack keeps: an interrupted program, of the user or of the kernel, the
frame a forked child starts from, the registers of a thread switched out, or those a new
thread starts with. -/
inductive Saved where
  | user (f : intr_stack)
  | kernel (f : intr_stack)
  | child (f : intr_stack)
  | switched (ebp ebx edi esi eip : ℕ)
  | created (t : thread_stack)
  deriving DecidableEq, Repr

def Saved.words : Saved → List ℕ
  | .user f => f.words
  | .kernel f => f.inner
  | .child f => f.words
  | .switched ebp ebx edi esi eip => [ebp, ebx, edi, esi, eip]
  | .created t => t.words

/-- The part that switch_to leaves or takes. -/
def Saved.parked : Saved → Bool
  | .switched .. => true
  | .created _ => true
  | _ => false

/-- What ends with the jump to intr_exit alone: anything but a system call in progress. -/
def Saved.leaves : Saved → Bool
  | .user f => f.vec_no != 0x80
  | .kernel _ => true
  | .child _ => true
  | _ => false

/-- `saved` is the history of each stack, the newest part first, each with its address. -/
structure System where
  cpu : Cpu
  cur : ℕ
  live : List ℕ
  pgdir : ℕ → Bool
  esp0 : ℕ
  saved : ℕ → List (ℕ × Saved)

def lowest (p : ℕ) : List (ℕ × Saved) → ℕ
  | [] => p + PG_SIZE
  | (a, _) :: _ => a

/-- What a thread's stack must keep starts here. -/
def System.guard (s : System) (p : ℕ) : ℕ := lowest p (s.saved p)

def User (c : Cpu) : Prop := ring (c.seg .cs) = 3

instance (c : Cpu) : Decidable (User c) := inferInstanceAs (Decidable (_ = _))

def System.esp (s : System) : ℕ := s.cpu.reg .esp

def Fresh (s : System) (p : ℕ) : Prop :=
  p + PG_SIZE < 2 ^ 32 ∧ ∀ q ∈ s.live, p + PG_SIZE ≤ q ∨ q + PG_SIZE ≤ p

inductive Event where
  | compute (c : Cpu)
  | interrupt (vec handler back : ℕ)
  | call (handler back : ℕ)
  | leave
  | finish
  | schedule (next ret : ℕ)
  | create (p function func_arg : ℕ) (pgdir : Bool)
  | start (function esp : ℕ)
  | fork (p : ℕ)
  | execv (argv argc entry_point : ℕ)
  | release (p : ℕ)

/-- The pointer in task_struct and the stack from the guard up. -/
def Kept (s : System) (p x : ℕ) : Prop := x = p ∨ s.guard p ≤ x ∧ x < p + PG_SIZE

/-- Hardware interrupts come on the vectors of the two controllers and need the interrupt
flag. A handler returns with the stack as it was called with, and no stack overflows.
A new process runs start_process before it is switched out for the first time. -/
def Enabled (s : System) : Event → Prop
  | .compute c => c.seg .cs = s.cpu.seg .cs ∧
      (¬ User s.cpu → s.cur + sizeof_task_struct ≤ c.reg .esp ∧ c.reg .esp ≤ s.guard s.cur) ∧
      ∀ p ∈ s.live, ∀ x, Kept s p x → c.mem x = s.cpu.mem x
  | .interrupt vec _ _ => 0x20 ≤ vec ∧ vec < 0x30 ∧ interruptFlag s.cpu.eflags = true ∧
      (¬ User s.cpu → s.cur + sizeof_task_struct + 72 ≤ s.esp)
  | .call _ _ => User s.cpu
  | .leave => ¬ User s.cpu ∧ ∃ v fs, s.saved s.cur = (s.esp, v) :: fs ∧ v.leaves = true
  | .finish => ¬ User s.cpu ∧ ∃ f fs, f.vec_no = 0x80 ∧
      s.saved s.cur = (s.esp + 12, .user f) :: fs
  | .schedule next ret => ¬ User s.cpu ∧ next ∈ s.live ∧
      Frame s.cpu.mem s.esp [ret, s.cur, next] ∧
      s.cur + sizeof_task_struct + 16 ≤ s.esp ∧ s.esp + 12 ≤ s.guard s.cur
  | .create p _ _ _ => ¬ User s.cpu ∧ Fresh s p
  | .start _ _ => ¬ User s.cpu ∧ s.saved s.cur = [] ∧ s.pgdir s.cur = true ∧
      s.cpu.mem s.cur = s.cur + 3664
  | .fork p => ¬ User s.cpu ∧ Fresh s p ∧
      ∃ f, f.vec_no = 0x80 ∧ s.saved s.cur = [(s.cur + 4020, .user f)]
  | .execv _ _ _ => ¬ User s.cpu ∧
      ∃ f, f.vec_no = 0x80 ∧ s.saved s.cur = [(s.cur + 4020, .user f)]
  | .release p => ¬ User s.cpu ∧ p ∈ s.live ∧ p ≠ s.cur

def System.goOn (s : System) (c : Cpu) : System := { s with cpu := c }

def System.save (s : System) (p a : ℕ) (v : Saved) : System :=
  { s with saved := Function.update s.saved p ((a, v) :: s.saved p) }

def System.restore (s : System) (p : ℕ) : System :=
  { s with saved := Function.update s.saved p (s.saved p).tail }

/-- The interrupted program, of the user or of the kernel. -/
def System.interrupted (s : System) (vec : ℕ) : Saved :=
  let f := ContextSwitch.interrupted s.cpu vec ((delivered s.cpu s.esp0).reg .esp)
  if User s.cpu then .user f else .kernel f

/-- The frame of the parent's system call, with the result of the child's fork. -/
def forked : List (ℕ × Saved) → Saved
  | (_, .user f) :: _ => .child { f with eax := 0 }
  | _ => .switched 0 0 0 0 0

def System.onto (s : System) (m : Memory) (sp : ℕ) : Cpu :=
  { s.cpu with mem := m }.set .esp sp

/-- The running thread with its registers on its stack, before the other one is taken. -/
def System.parking (s : System) (ret : ℕ) : System :=
  s.save s.cur (s.esp - 16)
    (.switched (s.cpu.reg .ebp) (s.cpu.reg .ebx) (s.cpu.reg .edi) (s.cpu.reg .esi) ret)

def next (k : Image) (s : System) : Event → System
  | .compute c => s.goOn c
  | .interrupt vec handler back =>
    let c := run (VECTOR vec handler back) (delivered s.cpu s.esp0)
    (s.save s.cur (c.reg .esp + 4) (s.interrupted vec)).goOn c
  | .call handler back =>
    let c := run (syscall_handler handler back) (delivered s.cpu s.esp0)
    (s.save s.cur (c.reg .esp + 16) (s.interrupted 0x80)).goOn c
  | .leave => (s.restore s.cur).goOn (run ContextSwitch.intr_exit s.cpu)
  | .finish =>
    (s.restore s.cur).goOn (run ContextSwitch.intr_exit (run syscall_return s.cpu))
  | .schedule next ret =>
    { ((s.parking ret).restore next).goOn (run switch_to s.cpu) with
      cur := next
      esp0 := if s.pgdir next then next + PG_SIZE else s.esp0 }
  | .create p function func_arg pgdir =>
    let m := thread_create (init_kstack s.cpu.mem p) p k.kernel_thread function func_arg
    let t := ⟨0, 0, 0, 0, k.kernel_thread, s.cpu.mem (p + 3684), function, func_arg⟩
    { s with
      cpu := { s.cpu with mem := m }
      live := p :: s.live
      pgdir := Function.update s.pgdir p pgdir
      saved := Function.update s.saved p [(p + 3664, .created t)] }
  | .start function esp =>
    let m := start_process s.cpu.mem s.cur function esp
    s.goOn (run ContextSwitch.intr_exit (s.onto m (m s.cur)))
  | .fork p =>
    let m := build_child_stack (copy_pcb s.cpu.mem p s.cur) p k.intr_exit
    { s with
      cpu := { s.cpu with mem := m }
      live := p :: s.live
      pgdir := Function.update s.pgdir p true
      saved := Function.update s.saved p
        [(p + 4000, .switched 0 0 0 0 k.intr_exit), (p + 4020, forked (s.saved s.cur))] }
  | .execv argv argc entry_point =>
    let m := sys_execv s.cpu.mem s.cur argv argc entry_point
    (s.restore s.cur).goOn
      (run ContextSwitch.intr_exit (s.onto m (s.cur + PG_SIZE - sizeof_intr_stack)))
  | .release p => { s with live := s.live.filter (· ≠ p) }

/-- The parts of a stack lie one above the other, within the page and above task_struct. -/
def Stacked (m : Memory) (p : ℕ) : List (ℕ × Saved) → Prop
  | [] => True
  | (a, v) :: fs => p + sizeof_task_struct ≤ a ∧ a + 4 * v.words.length ≤ lowest p fs ∧
      Frame m a v.words ∧ Stacked m p fs

/-- The interrupted programs of one thread: the kernel's, and below them at most one of the
user, whose frame is at the top of the page. -/
inductive Nested (p : ℕ) (pgdir : Bool) : List (ℕ × Saved) → Prop where
  | nil : Nested p pgdir []
  | user {f : intr_stack} : pgdir = true → ring f.cs = 3 →
      Nested p pgdir [(p + 4020, .user f)]
  | child {f : intr_stack} : pgdir = true → ring f.cs = 3 →
      Nested p pgdir [(p + 4020, .child f)]
  | kernel {a : ℕ} {f : intr_stack} {fs : List (ℕ × Saved)} : ring f.cs = 0 →
      Nested p pgdir fs → Nested p pgdir ((a, .kernel f) :: fs)

section nesting

variable {p a : ℕ} {pgdir : Bool} {f : intr_stack} {fs : List (ℕ × Saved)}

theorem Nested.of_kernel (h : Nested p pgdir ((a, .kernel f) :: fs)) :
    ring f.cs = 0 ∧ Nested p pgdir fs := by
  cases h with
  | kernel hr hn => exact ⟨hr, hn⟩

theorem Nested.of_user (h : Nested p pgdir ((a, .user f) :: fs)) :
    a = p + 4020 ∧ fs = [] ∧ pgdir = true ∧ ring f.cs = 3 := by
  cases h with
  | user hp hr => exact ⟨rfl, rfl, hp, hr⟩

theorem Nested.of_child (h : Nested p pgdir ((a, .child f) :: fs)) :
    a = p + 4020 ∧ fs = [] ∧ pgdir = true ∧ ring f.cs = 3 := by
  cases h with
  | child hp hr => exact ⟨rfl, rfl, hp, hr⟩

end nesting

/-- In user mode the kernel stack is empty; in the kernel its free part is below the guard. -/
inductive Mode (s : System) : Prop where
  | user : User s.cpu → s.saved s.cur = [] → s.pgdir s.cur = true → Mode s
  | kernel : ring (s.cpu.seg .cs) = 0 → s.cur + sizeof_task_struct ≤ s.esp →
      s.esp ≤ s.guard s.cur → Mode s

structure Held (s : System) : Prop where
  bound : ∀ p ∈ s.live, p + PG_SIZE < 2 ^ 32
  apart : ∀ p ∈ s.live, ∀ q ∈ s.live, p ≠ q → p + PG_SIZE ≤ q ∨ q + PG_SIZE ≤ p
  cur : s.cur ∈ s.live
  stacked : ∀ p ∈ s.live, Stacked s.cpu.mem p (s.saved p)
  running : Nested s.cur (s.pgdir s.cur) (s.saved s.cur)
  waiting : ∀ p ∈ s.live, p ≠ s.cur → ∃ v fs, s.saved p = (s.cpu.mem p, v) :: fs ∧
    v.parked = true ∧ Nested p (s.pgdir p) fs
  tss : s.pgdir s.cur = true → s.esp0 = s.cur + PG_SIZE
  mode : Mode s

section StackFrames

variable {m m' : Memory} {p : ℕ} {fs : List (ℕ × Saved)} {v : Saved} {a : ℕ}

theorem Stacked.le_lowest (h : Stacked m p fs) : p + sizeof_task_struct ≤ lowest p fs := by
  cases fs with
  | nil => exact Nat.add_le_add_left (by decide) p
  | cons x fs => exact h.1

theorem Stacked.lowest_le (h : Stacked m p fs) : lowest p fs ≤ p + PG_SIZE := by
  induction fs with
  | nil => exact Nat.le_refl _
  | cons x fs ih =>
    have hl := ih h.2.2.2
    have ha := h.2.1
    show x.1 ≤ p + PG_SIZE
    omega

theorem Stacked.congr (h : Stacked m p fs)
    (hm : ∀ x, lowest p fs ≤ x → x < p + PG_SIZE → m' x = m x) : Stacked m' p fs := by
  induction fs with
  | nil => exact trivial
  | cons x fs ih =>
    obtain ⟨hlo, hhi, hf, hs⟩ := h
    have hl := hs.lowest_le
    have hm' : ∀ y, x.1 ≤ y → y < p + PG_SIZE → m' y = m y := hm
    refine ⟨hlo, hhi, hf.congr fun y hy hyl => ?_, ih hs fun y hy => ?_⟩
    · exact hm' y hy (by omega)
    · exact hm' y (by omega)

theorem Stacked.tail (h : Stacked m p fs) : Stacked m p fs.tail := by
  cases fs with
  | nil => exact h
  | cons x fs => exact h.2.2.2

end StackFrames

theorem not_user_of_kernel {c : Cpu} (h : ring (c.seg .cs) = 0) : ¬ User c := by
  unfold User
  omega

theorem Held.kernel {s : System} (h : Held s) (hu : ¬ User s.cpu) :
    ring (s.cpu.seg .cs) = 0 ∧ s.cur + sizeof_task_struct ≤ s.esp ∧ s.esp ≤ s.guard s.cur := by
  cases h.mode with
  | user hm => exact absurd hm hu
  | kernel hr hlo hhi => exact ⟨hr, hlo, hhi⟩

theorem Held.empty {s : System} (h : Held s) (hu : User s.cpu) :
    s.saved s.cur = [] ∧ s.pgdir s.cur = true ∧ s.esp0 = s.cur + PG_SIZE := by
  cases h.mode with
  | user _ hs hp => exact ⟨hs, hp, h.tss hp⟩
  | kernel hr => exact absurd hu (not_user_of_kernel hr)

/-- A page holds its own thread's pointer and stack and no other's. -/
theorem Held.kept_outside {s : System} (h : Held s) {p q x : ℕ} (hp : p ∈ s.live)
    (hq : p + PG_SIZE ≤ q ∨ q + PG_SIZE ≤ p) (hx : Kept s p x) :
    x < q ∨ q + PG_SIZE ≤ x := by
  have hlo : p + sizeof_task_struct ≤ s.guard p := (h.stacked p hp).le_lowest
  have hhi : s.guard p ≤ p + PG_SIZE := (h.stacked p hp).lowest_le
  have hP : PG_SIZE = 4096 := rfl
  have hT : sizeof_task_struct = 276 := rfl
  rcases hx with rfl | hx <;> omega

/-- A step of the running thread that leaves the others' pointers and stacks alone. -/
theorem Held.stay {s s' : System} (h : Held s) (hlive : s'.live = s.live)
    (hcur : s'.cur = s.cur) (hpg : s'.pgdir = s.pgdir) (hesp : s'.esp0 = s.esp0)
    (hsaved : ∀ p, p ≠ s.cur → s'.saved p = s.saved p)
    (hmem : ∀ p ∈ s.live, p ≠ s.cur → ∀ x, Kept s p x → s'.cpu.mem x = s.cpu.mem x)
    (hstk : Stacked s'.cpu.mem s.cur (s'.saved s.cur))
    (hrun : Nested s.cur (s.pgdir s.cur) (s'.saved s.cur)) (hmode : Mode s') : Held s' where
  bound := by rw [hlive]; exact h.bound
  apart := by rw [hlive]; exact h.apart
  cur := by rw [hlive, hcur]; exact h.cur
  stacked := by
    rw [hlive]
    intro p hp
    by_cases hc : p = s.cur
    · rw [hc]
      exact hstk
    · rw [hsaved p hc]
      exact (h.stacked p hp).congr fun x hx hl => hmem p hp hc x (Or.inr ⟨hx, hl⟩)
  running := by rw [hcur, hpg]; exact hrun
  waiting := by
    rw [hlive, hcur, hpg]
    intro p hp hc
    rw [hsaved p hc, hmem p hp hc p (Or.inl rfl)]
    exact h.waiting p hp hc
  tss := by rw [hcur, hpg, hesp]; exact h.tss
  mode := hmode

/-- Stores within the page of the running thread. -/
theorem Held.own_page {s : System} (h : Held s) {m : Memory}
    (hm : ∀ x, x < s.cur ∨ s.cur + PG_SIZE ≤ x → m x = s.cpu.mem x) :
    ∀ p ∈ s.live, p ≠ s.cur → ∀ x, Kept s p x → m x = s.cpu.mem x :=
  fun p hp hc _ hx => hm _ (h.kept_outside hp (h.apart p hp s.cur h.cur hc) hx)

section entering

variable {s : System} {c' : Cpu} {vec : ℕ} {rest : List ℕ}

theorem delivered_user (h : Held s) (hu : User s.cpu) :
    (delivered s.cpu s.esp0).reg .esp = s.cur + 4076 := by
  have hP : PG_SIZE = 4096 := rfl
  have he := (h.empty hu).2.2
  have hb : (s.cpu.set .esp s.esp0).reg .esp = s.cur + 4096 := by simp [he, hP]
  rw [(delivered_outer _ hu).esp, pushes_esp _ _ (by rw [hb]; simp), hb]
  rfl

theorem interrupted_user (h : Held s) (hu : User s.cpu) (vec : ℕ) :
    s.interrupted vec = .user (ContextSwitch.interrupted s.cpu vec (s.cur + 4076)) := by
  rw [System.interrupted, delivered_user h hu]
  exact if_pos hu

theorem interrupted_kernel (hu : ¬ User s.cpu) (vec : ℕ) : s.interrupted vec =
    .kernel (ContextSwitch.interrupted s.cpu vec ((delivered s.cpu s.esp0).reg .esp)) :=
  if_neg hu

@[simp] theorem goOn_saved (s : System) (c : Cpu) : (s.goOn c).saved = s.saved := rfl
@[simp] theorem goOn_cpu (s : System) (c : Cpu) : (s.goOn c).cpu = c := rfl
@[simp] theorem goOn_cur (s : System) (c : Cpu) : (s.goOn c).cur = s.cur := rfl
@[simp] theorem goOn_live (s : System) (c : Cpu) : (s.goOn c).live = s.live := rfl
@[simp] theorem goOn_guard (s : System) (c : Cpu) : (s.goOn c).guard = s.guard := rfl

@[simp] theorem save_cur (s : System) (p a : ℕ) (v : Saved) : (s.save p a v).cur = s.cur := rfl
@[simp] theorem save_live (s : System) (p a : ℕ) (v : Saved) :
    (s.save p a v).live = s.live := rfl

@[simp] theorem restore_cur (s : System) (p : ℕ) : (s.restore p).cur = s.cur := rfl
@[simp] theorem restore_live (s : System) (p : ℕ) : (s.restore p).live = s.live := rfl

theorem save_self (s : System) (p a : ℕ) (v : Saved) :
    (s.save p a v).saved p = (a, v) :: s.saved p := Function.update_self ..

theorem save_other (s : System) {p q : ℕ} (a : ℕ) (v : Saved) (h : q ≠ p) :
    (s.save p a v).saved q = s.saved q := Function.update_of_ne h ..

theorem save_guard (s : System) (p a : ℕ) (v : Saved) : (s.save p a v).guard p = a := by
  rw [System.guard, save_self]
  rfl

/-- A stub that runs on the stack of the task state: what it pushes after the registers
takes at most the five words of a system call. -/
theorem enter_user (h : Held s) (hu : User s.cpu)
    (hs : SameStack c' (((delivered s.cpu s.esp0).pushes
      (pushed (delivered s.cpu s.esp0))).pushes (vec :: rest)))
    (hcs : ring (c'.seg .cs) = 0) (hl : rest.length ≤ 4) :
    c'.reg .esp + 4 * rest.length = s.cur + 4020 ∧
      (∀ x, x < s.cur ∨ s.cur + PG_SIZE ≤ x → c'.mem x = s.cpu.mem x) ∧
      Held ((s.save s.cur (c'.reg .esp + 4 * rest.length) (s.interrupted vec)).goOn c') := by
  have hP : PG_SIZE = 4096 := rfl
  have hT : sizeof_task_struct = 276 := rfl
  obtain ⟨hsv, hpg, he⟩ := h.empty hu
  have hdel := delivered_user h hu
  obtain ⟨hesp, hst⟩ := saves_outer hu vec hs (by rw [he, List.length_cons]; omega)
  rw [he, hP, List.length_cons] at hesp hst
  have ha : c'.reg .esp + 4 * rest.length = s.cur + 4020 := by omega
  have hmem : ∀ x, x < s.cur ∨ s.cur + PG_SIZE ≤ x → c'.mem x = s.cpu.mem x := by
    intro x hx
    refine hst.outside x ?_
    have hw : (interrupted s.cpu vec (s.cur + 4096 - 20)).words.tail.length = 18 := rfl
    rw [List.length_append, List.length_reverse, List.length_cons, hw]
    omega
  refine ⟨ha, hmem, ?_⟩
  rw [ha, interrupted_user h hu]
  have hframe : Frame c'.mem (s.cur + 4020) (interrupted s.cpu vec (s.cur + 4076)).words := by
    have hf := hst.frame
    rw [List.reverse_cons, List.append_assoc, frame_append, List.length_reverse] at hf
    have h2 := hf.2
    rw [show s.cur + 4096 - (72 + 4 * (rest.length + 1)) + 4 * rest.length = s.cur + 4020 by
      omega] at h2
    exact h2
  refine h.stay rfl rfl rfl rfl (fun p hp => save_other s _ _ hp) (h.own_page hmem) ?_ ?_ ?_
  · rw [goOn_saved, save_self, hsv]
    exact ⟨by omega, Nat.le_of_eq rfl, hframe, trivial⟩
  · rw [goOn_saved, save_self, hsv]
    exact .user hpg hu
  · refine .kernel hcs ?_ ?_
    · show s.cur + sizeof_task_struct ≤ c'.reg .esp
      omega
    · rw [goOn_guard, goOn_cur, save_cur, save_guard]
      exact Nat.le_trans (Nat.le_add_right _ _) (Nat.le_of_eq ha)

/-- A stub that interrupts the kernel pushes below the stack pointer. -/
theorem enter_kernel (h : Held s) (hu : ¬ User s.cpu)
    (hs : SameStack c' (((delivered s.cpu s.esp0).pushes
      (pushed (delivered s.cpu s.esp0))).pushes (vec :: rest)))
    (hcs : ring (c'.seg .cs) = 0)
    (room : s.cur + sizeof_task_struct + (68 + 4 * rest.length) ≤ s.esp) :
    c'.reg .esp + 4 * rest.length = s.esp - 68 ∧
      (∀ x, x < s.esp - (68 + 4 * rest.length) ∨ s.esp ≤ x → c'.mem x = s.cpu.mem x) ∧
      Held ((s.save s.cur (c'.reg .esp + 4 * rest.length) (s.interrupted vec)).goOn c') := by
  have hP : PG_SIZE = 4096 := rfl
  have hT : sizeof_task_struct = 276 := rfl
  obtain ⟨hr, hlo, hhi⟩ := h.kernel hu
  have hg : s.guard s.cur ≤ s.cur + PG_SIZE := (h.stacked _ h.cur).lowest_le
  have hdel : (delivered s.cpu s.esp0).reg .esp = s.esp - 12 := by
    rw [(delivered_inner _ hr).esp, pushes_esp _ _ (by simp [System.esp] at *; omega)]
    rfl
  obtain ⟨hesp, hst⟩ := saves_inner hr vec hs
    (by rw [List.length_cons]; simp only [System.esp] at *; omega)
  change c'.reg .esp = s.esp - (64 + 4 * (rest.length + 1)) at hesp
  change Stored s.cpu.mem c'.mem (s.esp - (64 + 4 * (rest.length + 1))) _ at hst
  have ha : c'.reg .esp + 4 * rest.length = s.esp - 68 := by omega
  have hmem : ∀ x, x < s.esp - (68 + 4 * rest.length) ∨ s.esp ≤ x → c'.mem x = s.cpu.mem x := by
    intro x hx
    refine hst.outside x ?_
    have hw : (interrupted s.cpu vec (s.cpu.reg .esp - 12)).inner.tail.length = 16 := rfl
    rw [List.length_append, List.length_reverse, List.length_cons, hw]
    omega
  have hpage : ∀ x, x < s.cur ∨ s.cur + PG_SIZE ≤ x → c'.mem x = s.cpu.mem x :=
    fun x hx => hmem x (by omega)
  refine ⟨ha, hmem, ?_⟩
  rw [ha, interrupted_kernel hu, hdel]
  have hframe : Frame c'.mem (s.esp - 68) (interrupted s.cpu vec (s.esp - 12)).inner := by
    have hf := hst.frame
    rw [List.reverse_cons, List.append_assoc, frame_append, List.length_reverse] at hf
    have h2 := hf.2
    rw [show s.esp - (64 + 4 * (rest.length + 1)) + 4 * rest.length = s.esp - 68 by omega] at h2
    exact h2
  have hrest : Stacked c'.mem s.cur (s.saved s.cur) :=
    (h.stacked _ h.cur).congr fun x hx hl => hmem x (Or.inr (Nat.le_trans hhi hx))
  refine h.stay rfl rfl rfl rfl (fun p hp => save_other s _ _ hp) (h.own_page hpage) ?_ ?_ ?_
  · rw [goOn_saved, save_self]
    refine ⟨by omega, ?_, hframe, hrest⟩
    show s.esp - 68 + 4 * 17 ≤ s.guard s.cur
    omega
  · rw [goOn_saved, save_self]
    exact .kernel hr h.running
  · refine .kernel hcs ?_ ?_
    · show s.cur + sizeof_task_struct ≤ c'.reg .esp
      omega
    · rw [goOn_guard, goOn_cur, save_cur, save_guard]
      exact Nat.le_trans (Nat.le_add_right _ _) (Nat.le_of_eq ha)

end entering

section leaving

variable {s : System} {c : Cpu} {f : intr_stack}

theorem restore_self (s : System) (p : ℕ) : (s.restore p).saved p = (s.saved p).tail :=
  Function.update_self ..

theorem restore_other (s : System) {p q : ℕ} (h : q ≠ p) :
    (s.restore p).saved q = s.saved q := Function.update_of_ne h ..

/-- The way back to user mode, from a stack that keeps nothing but the frame. -/
theorem leave_user (h : Held s) (s' : System) (hlive : s'.live = s.live) (hcur : s'.cur = s.cur)
    (hpgdir : s'.pgdir = s.pgdir) (hesp0 : s'.esp0 = s.esp0)
    (hsaved : ∀ p, p ≠ s.cur → s'.saved p = s.saved p) (hnone : s'.saved s.cur = [])
    (hpg : s.pgdir s.cur = true) (hcs : ring (c.seg .cs) = 0)
    (hf : Frame c.mem (c.reg .esp) f.words) (hb : c.reg .esp + 76 ≤ 2 ^ 32)
    (hr : ring f.cs = 3)
    (hm : ∀ x, x < s.cur ∨ s.cur + PG_SIZE ≤ x → c.mem x = s.cpu.mem x) :
    Resumed f (run ContextSwitch.intr_exit c) ∧ User (run ContextSwitch.intr_exit c) ∧
      Held (s'.goOn (run ContextSwitch.intr_exit c)) := by
  obtain ⟨hres, hmem⟩ := intr_exit_outer hf hb (by omega)
  have hu : User (run ContextSwitch.intr_exit c) := by
    rw [User, hres.code.2.1, hr]
  have hm' : ∀ x, x < s.cur ∨ s.cur + PG_SIZE ≤ x →
      (run ContextSwitch.intr_exit c).mem x = s.cpu.mem x := fun x hx => by
    rw [hmem]
    exact hm x hx
  refine ⟨hres, hu, h.stay hlive hcur hpgdir hesp0 hsaved (h.own_page hm') ?_ ?_ ?_⟩
  · rw [goOn_saved, hnone]
    exact trivial
  · rw [goOn_saved, hnone]
    exact .nil
  · refine .user hu ?_ ?_
    · rw [goOn_saved, goOn_cur, hcur, hnone]
    · rw [goOn_cur, hcur]
      show s'.pgdir s.cur = true
      rw [hpgdir, hpg]

/-- A kernel frame's program goes on below the frames that were there before. -/
theorem leave_kernel (h : Held s) (hu : ¬ User s.cpu) {fs : List (ℕ × Saved)}
    (hs : s.saved s.cur = (s.esp, .kernel f) :: fs) :
    Resumed { f with esp := s.esp + 68, ss := s.cpu.seg .ss }
        (run ContextSwitch.intr_exit s.cpu) ∧
      (run ContextSwitch.intr_exit s.cpu).mem = s.cpu.mem ∧
      Held ((s.restore s.cur).goOn (run ContextSwitch.intr_exit s.cpu)) := by
  have hT : sizeof_task_struct = 276 := rfl
  have hk := h.kernel hu
  have hbound := h.bound _ h.cur
  have hstk := h.stacked _ h.cur
  have hrun := h.running
  rw [hs] at hstk hrun
  obtain ⟨hlo, hhi, hf, hrest⟩ := hstk
  have hl := hrest.lowest_le
  have hlen : 4 * (Saved.kernel f).words.length = 68 := rfl
  obtain ⟨hr, hn⟩ := hrun.of_kernel
  have hb : s.cpu.reg .esp + 68 < 2 ^ 32 := by
    have he : s.esp = s.cpu.reg .esp := rfl
    omega
  obtain ⟨hres, hmem⟩ := intr_exit_inner hf hb (by omega)
  have ht : (s.restore s.cur).saved s.cur = fs := by rw [restore_self, hs, List.tail_cons]
  have hesp : (run ContextSwitch.intr_exit s.cpu).reg .esp = s.esp + 68 := hres.stack.1
  refine ⟨hres, hmem, h.stay rfl rfl rfl rfl (fun p hp => restore_other s hp) ?_ ?_ ?_ ?_⟩
  · exact fun p _ _ x _ => congrFun hmem x
  · rw [goOn_saved, ht]
    show Stacked (run ContextSwitch.intr_exit s.cpu).mem s.cur fs
    rw [hmem]
    exact hrest
  · rw [goOn_saved, ht]
    exact hn
  · refine .kernel ?_ ?_ ?_
    · show ring ((run ContextSwitch.intr_exit s.cpu).seg .cs) = 0
      rw [hres.code.2.1, hr]
    · show s.cur + sizeof_task_struct ≤ (run ContextSwitch.intr_exit s.cpu).reg .esp
      omega
    · have hg : (s.restore s.cur).guard s.cur = lowest s.cur fs := by rw [System.guard, ht]
      rw [goOn_guard]
      show (run ContextSwitch.intr_exit s.cpu).reg .esp ≤ (s.restore s.cur).guard s.cur
      rw [hg, hesp]
      omega

end leaving

section switching

variable {s : System} {next ret : ℕ}

/-- The registers a thread continues with when switch_to takes `v` from address `a`. -/
def Saved.continues (a : ℕ) (c : Cpu) : Saved → Prop
  | .switched ebp ebx edi esi eip => Continues c ebp ebx edi esi eip (a + 20)
  | .created t => Continues c t.ebp t.ebx t.edi t.esi t.eip (a + 20)
  | _ => False

theorem switchedOut_stored (s : System) (room : 16 ≤ s.esp) {x : ℕ} (hx : x ≠ s.cur)
    (ho : x < s.esp - 16 ∨ s.esp ≤ x) : switchedOut s.cpu s.cur x = s.cpu.mem x := by
  have hst := pushes_stored s.cpu
    [s.cpu.reg .esi, s.cpu.reg .edi, s.cpu.reg .ebx, s.cpu.reg .ebp] room
  rw [switchedOut, store_ne hx]
  refine hst.outside x ?_
  have he : s.cpu.reg .esp = s.esp := rfl
  simp only [List.length_cons, List.length_nil, List.length_reverse, he]
  omega

theorem switchedOut_frame (he : Enabled s (.schedule next ret)) :
    Frame (switchedOut s.cpu s.cur) (s.esp - 16)
      [s.cpu.reg .ebp, s.cpu.reg .ebx, s.cpu.reg .edi, s.cpu.reg .esi, ret] := by
  obtain ⟨-, -, hf, hlo, -⟩ := he
  have hT : sizeof_task_struct = 276 := rfl
  have hret : Frame s.cpu.mem s.esp [ret] := ⟨hf.1, trivial⟩
  have hp := pushes_frame s.cpu [s.cpu.reg .esi, s.cpu.reg .edi, s.cpu.reg .ebx, s.cpu.reg .ebp]
    (show 16 ≤ s.esp by omega) hret
  exact hp.store_outside _ (Or.inl (show s.cur < s.esp - 16 by omega))

/-- After the registers are pushed every thread but those that run has its stack as it was,
and the one to be taken shows the part of its stack that switch_to will pop. -/
theorem parking_stacked (h : Held s) (he : Enabled s (.schedule next ret)) {p : ℕ}
    (hp : p ∈ s.live) : Stacked (switchedOut s.cpu s.cur) p ((s.parking ret).saved p) := by
  have hT : sizeof_task_struct = 276 := rfl
  have hframe := switchedOut_frame he
  obtain ⟨-, -, -, hlo, hhi⟩ := he
  by_cases hc : p = s.cur
  · subst hc
    rw [System.parking, save_self]
    refine ⟨by omega, ?_, hframe, (h.stacked _ hp).congr fun x hx hl => ?_⟩
    · show s.esp - 16 + 20 ≤ s.guard s.cur
      omega
    · have hg : s.guard s.cur ≤ x := hx
      have := (h.stacked _ hp).le_lowest
      exact switchedOut_stored s (by omega) (by omega) (by omega)
  · rw [System.parking, save_other s _ _ hc]
    refine (h.stacked p hp).congr fun x hx hl => ?_
    have hk := h.kept_outside hp (h.apart p hp _ h.cur hc) (Or.inr ⟨hx, hl⟩)
    have hg : s.guard s.cur ≤ s.cur + PG_SIZE := (h.stacked _ h.cur).lowest_le
    have hP : PG_SIZE = 4096 := rfl
    exact switchedOut_stored s (by omega) (by omega) (by omega)

theorem parking_waiting (h : Held s) (he : Enabled s (.schedule next ret)) {p : ℕ}
    (hp : p ∈ s.live) : ∃ v fs, (s.parking ret).saved p = (switchedOut s.cpu s.cur p, v) :: fs ∧
      v.parked = true ∧ Nested p (s.pgdir p) fs := by
  have hT : sizeof_task_struct = 276 := rfl
  have hP : PG_SIZE = 4096 := rfl
  obtain ⟨-, -, -, hlo, hhi⟩ := he
  by_cases hc : p = s.cur
  · subst hc
    have hm : switchedOut s.cpu s.cur s.cur = s.esp - 16 := store_self _ _ _
    rw [System.parking, save_self, hm]
    exact ⟨_, _, rfl, rfl, h.running⟩
  · have hk := h.kept_outside hp (h.apart p hp _ h.cur hc) (Or.inl rfl)
    have hg : s.guard s.cur ≤ s.cur + PG_SIZE := (h.stacked _ h.cur).lowest_le
    rw [System.parking, save_other s _ _ hc,
      switchedOut_stored s (by omega) (by omega) (by omega)]
    exact h.waiting p hp hc

theorem parked_frame {m : Memory} {a : ℕ} {v : Saved} (h : Frame m a v.words)
    (hv : v.parked = true) : ∃ ebp ebx edi esi eip, Frame m a [ebp, ebx, edi, esi, eip] ∧
      20 ≤ 4 * v.words.length ∧
      ∀ c, Continues c ebp ebx edi esi eip (a + 20) → v.continues a c := by
  cases v with
  | switched ebp ebx edi esi eip =>
    exact ⟨ebp, ebx, edi, esi, eip, h, Nat.le_refl _, fun c hc => hc⟩
  | created t =>
    obtain ⟨h0, h1, h2, h3, h4, -⟩ := h
    exact ⟨t.ebp, t.ebx, t.edi, t.esi, t.eip, ⟨h0, h1, h2, h3, h4, trivial⟩,
      (by decide : 20 ≤ 4 * 8), fun c hc => hc⟩
  | user f => cases hv
  | kernel f => cases hv
  | child f => cases hv

end switching

end KernelStacks
