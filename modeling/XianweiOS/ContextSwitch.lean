import XianweiOS.StackMachine

/-! The context switch of thread/switch.s, the interrupt and system call stubs of
kernel/kernel.s, and the stacks that thread_create, build_child_stack, start_process and
sys_execv lay out for them. A thread is named by the address of its page: its task_struct
lies at the bottom, `self_kstack` first, and its kernel stack grows down from the top. -/
namespace ContextSwitch

open StackMachine

def PG_SIZE : ℕ := 4096

/-- The saved registers of an interrupted program, from low to high addresses. -/
structure intr_stack where
  vec_no : ℕ
  edi : ℕ
  esi : ℕ
  ebp : ℕ
  esp_dummy : ℕ
  ebx : ℕ
  edx : ℕ
  ecx : ℕ
  eax : ℕ
  gs : ℕ
  fs : ℕ
  es : ℕ
  ds : ℕ
  err_code : ℕ
  eip : ℕ
  cs : ℕ
  eflags : ℕ
  esp : ℕ
  ss : ℕ
  deriving DecidableEq, Repr

structure thread_stack where
  ebp : ℕ
  ebx : ℕ
  edi : ℕ
  esi : ℕ
  eip : ℕ
  unused_retaddr : ℕ
  function : ℕ
  func_arg : ℕ
  deriving DecidableEq, Repr

/-- What an interrupt in the kernel saves: the stack stays, so esp and ss are not pushed. -/
def intr_stack.inner (f : intr_stack) : List ℕ :=
  [f.vec_no, f.edi, f.esi, f.ebp, f.esp_dummy, f.ebx, f.edx, f.ecx, f.eax, f.gs, f.fs, f.es,
    f.ds, f.err_code, f.eip, f.cs, f.eflags]

def intr_stack.words (f : intr_stack) : List ℕ := f.inner ++ [f.esp, f.ss]

def thread_stack.words (t : thread_stack) : List ℕ :=
  [t.ebp, t.ebx, t.edi, t.esi, t.eip, t.unused_retaddr, t.function, t.func_arg]

def sizeof_intr_stack : ℕ := 76

def sizeof_thread_stack : ℕ := 32

theorem words_length (f : intr_stack) : 4 * f.words.length = sizeof_intr_stack := rfl

theorem thread_words_length (t : thread_stack) : 4 * t.words.length = sizeof_thread_stack := rfl

/-- thread/switch.s. -/
def switch_to : List Instr :=
  [.push .esi, .push .edi, .push .ebx, .push .ebp,
    .load .eax .esp 20, .store .eax 0 .esp,
    .load .eax .esp 24, .load .esp .eax 0,
    .pop .ebp, .pop .ebx, .pop .edi, .pop .esi, .ret]

/-- The vectors whose stub is built with ERROR_CODE: the processor pushes a word itself. -/
def ERROR_CODE : List ℕ := [0x08, 0x0a, 0x0b, 0x0d, 0x0e, 0x11, 0x18, 0x1a, 0x1b, 0x1d,
  0x1e]

/-- The macro VECTOR: the handler is the entry of idt_table, `back` the jump after the call. -/
def VECTOR (vec handler back : ℕ) : List Instr :=
  [if vec ∈ ERROR_CODE then .nop else .pushImm 0,
    .pushSeg .ds, .pushSeg .es, .pushSeg .fs, .pushSeg .gs, .pushad,
    .movLow .eax 0x20, .out 0xa0, .out 0x20,
    .pushImm vec, .call handler back]

def intr_exit : List Instr :=
  [.addEsp 4, .popad, .popSeg .gs, .popSeg .fs, .popSeg .es, .popSeg .ds, .addEsp 4, .iretd]

/-- The arguments of the system call are pushed above the frame. -/
def syscall_handler (handler back : ℕ) : List Instr :=
  [.pushImm 0, .pushSeg .ds, .pushSeg .es, .pushSeg .fs, .pushSeg .gs, .pushad,
    .pushImm 0x80, .push .edx, .push .ecx, .push .ebx, .call handler back]

/-- What follows the call in syscall_handler, up to the jump. -/
def syscall_return : List Instr := [.addEsp 12, .store .esp (8 * 4) .eax]

def SELECTOR_K_CODE : ℕ := 1 * 8

def SELECTOR_K_STACK : ℕ := 2 * 8

def SELECTOR_U_CODE : ℕ := 5 * 8 + 3

def SELECTOR_U_DATA : ℕ := 6 * 8 + 3

/-- The registers of `c` are the ones the frame holds, those of the stack included. -/
structure Resumed (f : intr_stack) (c : Cpu) : Prop where
  general : c.reg .edi = f.edi ∧ c.reg .esi = f.esi ∧ c.reg .ebp = f.ebp ∧
    c.reg .ebx = f.ebx ∧ c.reg .edx = f.edx ∧ c.reg .ecx = f.ecx ∧ c.reg .eax = f.eax
  segments : c.seg .gs = f.gs ∧ c.seg .fs = f.fs ∧ c.seg .es = f.es ∧ c.seg .ds = f.ds
  code : c.eip = f.eip ∧ c.seg .cs = f.cs ∧ c.eflags = f.eflags
  stack : c.reg .esp = f.esp ∧ c.seg .ss = f.ss

/-- init_thread's and thread_create's stores; `self_kstack` is a pointer to words, so the
sizes subtracted from it count four bytes each. -/
def init_kstack (m : Memory) (pthread : ℕ) : Memory := m.store pthread (pthread + PG_SIZE)

def thread_create (m : Memory) (pthread kernel_thread function func_arg : ℕ) : Memory :=
  let m := m.store pthread (m pthread - 4 * sizeof_intr_stack)
  let m := m.store pthread (m pthread - 4 * sizeof_thread_stack)
  let kthread_stack := m pthread
  let m := m.store (kthread_stack + 16) kernel_thread
  let m := m.store (kthread_stack + 24) function
  let m := m.store (kthread_stack + 28) func_arg
  let m := m.store (kthread_stack + 12) 0
  let m := m.store (kthread_stack + 8) 0
  let m := m.store (kthread_stack + 4) 0
  m.store kthread_stack 0

/-- The copy of the parent's page, its task_struct and its kernel stack. -/
def copy_pcb (m : Memory) (child parent : ℕ) : Memory :=
  fun x => if child ≤ x ∧ x < child + PG_SIZE then m (parent + (x - child)) else m x

def build_child_stack (m : Memory) (child intr_exit : ℕ) : Memory :=
  let intr_0_stack := child + PG_SIZE - sizeof_intr_stack
  let m := m.store (intr_0_stack + 32) 0
  let m := m.store (intr_0_stack - 4) intr_exit
  let m := m.store (intr_0_stack - 8) 0
  let m := m.store (intr_0_stack - 12) 0
  let m := m.store (intr_0_stack - 16) 0
  let m := m.store (intr_0_stack - 20) 0
  m.store child (intr_0_stack - 20)

/-- The frame start_process fills for the program at `function`, its stack ending at `esp`. -/
def first_frame (m : Memory) (proc_stack function esp : ℕ) : intr_stack where
  vec_no := m proc_stack
  edi := 0
  esi := 0
  ebp := 0
  esp_dummy := 0
  ebx := 0
  edx := 0
  ecx := 0
  eax := 0
  gs := 0
  fs := SELECTOR_U_DATA
  es := SELECTOR_U_DATA
  ds := SELECTOR_U_DATA
  err_code := m (proc_stack + 52)
  eip := function
  cs := SELECTOR_U_CODE
  eflags := 0x202
  esp := esp
  ss := SELECTOR_U_DATA

/-- The stores of start_process; the fields vec_no and err_code keep what they held. -/
def start_process (m : Memory) (cur function esp : ℕ) : Memory :=
  let m := m.store cur (m cur + 4 * sizeof_thread_stack)
  storeAll m (m cur) (first_frame m (m cur) function esp).words

/-- The stores of sys_execv into the frame of its own system call. -/
def sys_execv (m : Memory) (cur argv argc entry_point : ℕ) : Memory :=
  let intr_0_stack := cur + PG_SIZE - sizeof_intr_stack
  let m := m.store (intr_0_stack + 20) argv
  let m := m.store (intr_0_stack + 28) argc
  let m := m.store (intr_0_stack + 56) entry_point
  m.store (intr_0_stack + 68) 0xc0000000

/-- What both stubs push above the code's own words, in the order of the pushes. -/
def pushed (c : Cpu) : List ℕ :=
  let sp := (c.pushes [0, c.seg .ds, c.seg .es, c.seg .fs, c.seg .gs]).reg .esp
  [0, c.seg .ds, c.seg .es, c.seg .fs, c.seg .gs, c.reg .eax, c.reg .ecx, c.reg .edx,
    c.reg .ebx, sp, c.reg .ebp, c.reg .esi, c.reg .edi]

theorem run_pushed (c : Cpu) :
    run [.pushImm 0, .pushSeg .ds, .pushSeg .es, .pushSeg .fs, .pushSeg .gs, .pushad] c =
      c.pushes (pushed c) := by
  simp [exec, pushed]

theorem pushed_reg (c : Cpu) {r : Reg} (h : r ≠ .esp) :
    (c.pushes (pushed c)).reg r = c.reg r := pushes_reg c _ h

/-- eax changes between the pushes, for the byte that ends the interrupt, and is no longer
needed then. -/
theorem VECTOR_run {vec : ℕ} (hv : vec ∉ ERROR_CODE) (c : Cpu) (handler back : ℕ) :
    run (VECTOR vec handler back) c =
      (((c.pushes (pushed c)).set .eax (c.reg .eax / 256 * 256 + 0x20)).pushes
        [vec, back]).jump handler := by
  have hs : VECTOR vec handler back =
      [.pushImm 0, .pushSeg .ds, .pushSeg .es, .pushSeg .fs, .pushSeg .gs, .pushad] ++
        [.movLow .eax 0x20, .out 0xa0, .out 0x20, .pushImm vec, .call handler back] := by
    simp [VECTOR, hv]
  rw [hs, run_append, run_pushed]
  simp [exec, pushed_reg]

theorem VECTOR_same {vec : ℕ} (hv : vec ∉ ERROR_CODE) (c : Cpu) (handler back : ℕ) :
    SameStack (run (VECTOR vec handler back) c) ((c.pushes (pushed c)).pushes [vec, back]) := by
  have he : SameStack ((c.pushes (pushed c)).set .eax (c.reg .eax / 256 * 256 + 0x20))
      (c.pushes (pushed c)) := ⟨by simp, set_mem _ _ _⟩
  have hp := he.pushes [vec, back]
  rw [VECTOR_run hv]
  constructor
  · rw [jump_reg]
    exact hp.esp
  · rw [jump_mem]
    exact hp.mem

theorem syscall_run (c : Cpu) (handler back : ℕ) :
    run (syscall_handler handler back) c =
      ((c.pushes (pushed c)).pushes
        [0x80, c.reg .edx, c.reg .ecx, c.reg .ebx, back]).jump handler := by
  have hs : syscall_handler handler back =
      [.pushImm 0, .pushSeg .ds, .pushSeg .es, .pushSeg .fs, .pushSeg .gs, .pushad] ++
        [.pushImm 0x80, .push .edx, .push .ecx, .push .ebx, .call handler back] := rfl
  rw [hs, run_append, run_pushed]
  simp [exec, pushed_reg]

/-- The frame an interrupt of `c` leaves when the stub starts at the stack pointer `sp`. -/
def interrupted (c : Cpu) (vec sp : ℕ) : intr_stack where
  vec_no := vec
  edi := c.reg .edi
  esi := c.reg .esi
  ebp := c.reg .ebp
  esp_dummy := sp - 20
  ebx := c.reg .ebx
  edx := c.reg .edx
  ecx := c.reg .ecx
  eax := c.reg .eax
  gs := c.seg .gs
  fs := c.seg .fs
  es := c.seg .es
  ds := c.seg .ds
  err_code := 0
  eip := c.eip
  cs := c.seg .cs
  eflags := c.eflags
  esp := c.reg .esp
  ss := c.seg .ss

section entry

variable {c : Cpu} {vec handler back esp0 : ℕ}

/-- The gates of the interrupt table lead to the kernel's code segment. -/
def delivered (c : Cpu) (esp0 : ℕ) : Cpu := c.deliver SELECTOR_K_CODE SELECTOR_K_STACK esp0

/-- Where the stub starts pushing: above the words the processor pushed. -/
theorem delivered_outer (esp0 : ℕ) (h : ring (c.seg .cs) = 3) :
    SameStack (delivered c esp0)
      ((c.set .esp esp0).pushes [c.seg .ss, c.reg .esp, c.eflags, c.seg .cs, c.eip]) := by
  have hr : ring SELECTOR_K_CODE < ring (c.seg .cs) := by
    rw [h]
    decide
  constructor
  · simp [delivered, Cpu.deliver, hr]
  · simp [delivered, Cpu.deliver, hr, Cpu.push]

theorem delivered_inner (esp0 : ℕ) (h : ring (c.seg .cs) = 0) :
    SameStack (delivered c esp0) (c.pushes [c.eflags, c.seg .cs, c.eip]) := by
  have hr : ¬ ring SELECTOR_K_CODE < ring (c.seg .cs) := by
    rw [h]
    decide
  constructor
  · simp [delivered, Cpu.deliver, hr]
  · simp [delivered, Cpu.deliver, hr]

/-- The delivery changes none of the registers the stub pushes. -/
theorem delivered_pushed (c : Cpu) (esp0 : ℕ) (h : 20 ≤ (delivered c esp0).reg .esp) (vec : ℕ) :
    (pushed (delivered c esp0)).reverse =
      ((interrupted c vec ((delivered c esp0).reg .esp)).inner.take 14).drop 1 := by
  have hsp : ((delivered c esp0).pushes [0, (delivered c esp0).seg .ds,
      (delivered c esp0).seg .es, (delivered c esp0).seg .fs,
      (delivered c esp0).seg .gs]).reg .esp = (delivered c esp0).reg .esp - 20 := pushes_esp _ _ h
  rw [pushed, hsp]
  by_cases hr : ring SELECTOR_K_CODE < ring (c.seg .cs)
  · simp [delivered, Cpu.deliver, hr, interrupted, intr_stack.inner]
  · simp [delivered, Cpu.deliver, hr, interrupted, intr_stack.inner]

/-- What the processor and the stub push, one after the other, on the stack of `b`. -/
theorem stub_saves {b d c' : Cpu} {code ws : List ℕ} (hd : SameStack d (b.pushes code))
    (hs : SameStack c' ((d.pushes (pushed d)).pushes ws))
    (room : 4 * (code.length + 13 + ws.length) ≤ b.reg .esp) :
    c'.reg .esp = b.reg .esp - 4 * (code.length + 13 + ws.length) ∧
      Stored b.mem c'.mem (b.reg .esp - 4 * (code.length + 13 + ws.length))
        (ws.reverse ++ ((pushed d).reverse ++ code.reverse)) := by
  have hc : SameStack c' (b.pushes (code ++ pushed d ++ ws)) := by
    rw [pushes_append, pushes_append]
    exact hs.trans ((hd.pushes _).pushes ws)
  have hl : (code ++ pushed d ++ ws).length = code.length + 13 + ws.length := by
    rw [List.length_append, List.length_append]
    rfl
  have hst := pushes_stored b (code ++ pushed d ++ ws) (by rw [hl]; exact room)
  have he := pushes_esp b (code ++ pushed d ++ ws) (by rw [hl]; exact room)
  rw [hl, List.reverse_append, List.reverse_append, ← hc.mem] at hst
  rw [hl] at he
  exact ⟨hc.esp.trans he, hst⟩

/-- The stub's frame above `ws`, on the stack of the task state. -/
theorem saves_outer {c' : Cpu} {ws : List ℕ} (h : ring (c.seg .cs) = 3) (vec : ℕ)
    (hs : SameStack c' (((delivered c esp0).pushes (pushed (delivered c esp0))).pushes ws))
    (room : 72 + 4 * ws.length ≤ esp0) :
    c'.reg .esp = esp0 - (72 + 4 * ws.length) ∧
      Stored c.mem c'.mem (esp0 - (72 + 4 * ws.length))
        (ws.reverse ++ (interrupted c vec (esp0 - 20)).words.tail) := by
  have hd := delivered_outer esp0 h
  have hb : (c.set .esp esp0).reg .esp = esp0 := by simp
  have he : (delivered c esp0).reg .esp = esp0 - 20 := by
    rw [hd.esp, pushes_esp _ _ (by simp; omega), hb]
    rfl
  have hp := delivered_pushed c esp0 (by omega) vec
  have hst := stub_saves hd hs (by rw [hb]; simp; omega)
  rw [hb, hp, he, show 4 * ([c.seg .ss, c.reg .esp, c.eflags, c.seg .cs, c.eip].length + 13 +
    ws.length) = 72 + 4 * ws.length by simp; omega] at hst
  exact hst

/-- The same on the stack the kernel was interrupted on. -/
theorem saves_inner {c' : Cpu} {ws : List ℕ} (h : ring (c.seg .cs) = 0) (vec : ℕ)
    (hs : SameStack c' (((delivered c esp0).pushes (pushed (delivered c esp0))).pushes ws))
    (room : 64 + 4 * ws.length ≤ c.reg .esp) :
    c'.reg .esp = c.reg .esp - (64 + 4 * ws.length) ∧
      Stored c.mem c'.mem (c.reg .esp - (64 + 4 * ws.length))
        (ws.reverse ++ (interrupted c vec (c.reg .esp - 12)).inner.tail) := by
  have hd := delivered_inner esp0 h
  have he : (delivered c esp0).reg .esp = c.reg .esp - 12 := by
    rw [hd.esp, pushes_esp _ _ (by simp; omega)]
    rfl
  have hp := delivered_pushed c esp0 (by omega) vec
  have hst := stub_saves hd hs (by simp; omega)
  rw [hp, he, show 4 * ([c.eflags, c.seg .cs, c.eip].length + 13 + ws.length) =
    64 + 4 * ws.length by simp; omega] at hst
  exact hst

end entry

theorem exec_addEsp (c : Cpu) : exec c (.addEsp 4) = c.drop 1 := rfl

/-- The frame's words as the stack shows them, the top one first. -/
structure Topped (c : Cpu) (f : intr_stack) : Prop where
  edi : c.word 1 = f.edi
  esi : c.word 2 = f.esi
  ebp : c.word 3 = f.ebp
  ebx : c.word 5 = f.ebx
  edx : c.word 6 = f.edx
  ecx : c.word 7 = f.ecx
  eax : c.word 8 = f.eax
  gs : c.word 9 = f.gs
  fs : c.word 10 = f.fs
  es : c.word 11 = f.es
  ds : c.word 12 = f.ds
  eip : c.word 14 = f.eip
  cs : c.word 15 = f.cs
  eflags : c.word 16 = f.eflags

theorem topped {c : Cpu} {f : intr_stack} (h : Frame c.mem (c.reg .esp) f.inner)
    (hi : c.reg .esp + 68 ≤ 2 ^ 32) : Topped c f := by
  have w {i : ℕ} (hl : i < 17) : c.word i = f.inner.get ⟨i, hl⟩ := h.top hi hl
  constructor
  all_goals exact w (by omega)

/-- Back to the ring the frame was pushed in: its last three words are the code's. -/
theorem intr_exit_inner {c : Cpu} {f : intr_stack} (h : Frame c.mem (c.reg .esp) f.inner)
    (hi : c.reg .esp + 68 < 2 ^ 32) (hr : ring f.cs ≤ ring (c.seg .cs)) :
    Resumed { f with esp := c.reg .esp + 68, ss := c.seg .ss } (run intr_exit c) ∧
      (run intr_exit c).mem = c.mem := by
  have w := topped h (by omega)
  have hn : ¬ ring (c.seg .cs) < ring f.cs := by omega
  simp only [intr_exit, run_cons, run_nil, exec_addEsp]
  constructor
  · constructor <;> simp [exec, Cpu.iretd, word_set, word_setSeg, word_drop, w.edi, w.esi, w.ebp,
      w.ebx, w.edx, w.ecx, w.eax, w.gs, w.fs, w.es, w.ds, w.eip, w.cs, w.eflags, hn]
    omega
  · simp [exec, Cpu.iretd, word_set, word_setSeg, word_drop, w.cs, hn]

/-- Out to the ring of the interrupted program: the frame holds its stack as well. -/
theorem intr_exit_outer {c : Cpu} {f : intr_stack} (h : Frame c.mem (c.reg .esp) f.words)
    (hi : c.reg .esp + 76 ≤ 2 ^ 32) (hr : ring (c.seg .cs) < ring f.cs) :
    Resumed f (run intr_exit c) ∧ (run intr_exit c).mem = c.mem := by
  have w := topped (frame_append.mp h).1 (by omega)
  have w17 : c.word 17 = f.esp := h.top hi (by simp [intr_stack.words, intr_stack.inner])
  have w18 : c.word 18 = f.ss := h.top hi (by simp [intr_stack.words, intr_stack.inner])
  simp only [intr_exit, run_cons, run_nil, exec_addEsp]
  constructor
  · constructor <;> simp [exec, Cpu.iretd, word_set, word_setSeg, word_drop, w.edi, w.esi, w.ebp,
      w.ebx, w.edx, w.ecx, w.eax, w.gs, w.fs, w.es, w.ds, w.eip, w.cs, w.eflags, w17, w18, hr]
  · simp [exec, Cpu.iretd, word_set, word_setSeg, word_drop, w.cs, w17, hr]

/-- The memory that switch_to leaves: the registers on the stack of `cur`, and where they
are in the first field of its task_struct. -/
def switchedOut (c : Cpu) (cur : ℕ) : Memory :=
  (c.pushes [c.reg .esi, c.reg .edi, c.reg .ebx, c.reg .ebp]).mem.store cur (c.reg .esp - 16)

/-- The registers a C function keeps for its caller, its return address and its stack. -/
structure Continues (c : Cpu) (ebp ebx edi esi eip esp : ℕ) : Prop where
  ebp : c.reg .ebp = ebp
  ebx : c.reg .ebx = ebx
  edi : c.reg .edi = edi
  esi : c.reg .esi = esi
  eip : c.eip = eip
  esp : c.reg .esp = esp

/-- The result of the handler goes into the frame under its arguments. -/
theorem syscall_return_spec {c : Cpu} (h : c.reg .esp + 44 < 2 ^ 32) :
    (run syscall_return c).reg .esp = c.reg .esp + 12 ∧
      (run syscall_return c).mem = c.mem.store (c.reg .esp + 12 + 4 * 8) (c.reg .eax) ∧
      (run syscall_return c).seg = c.seg := by
  have h12 : (c.reg .esp + 12) % 2 ^ 32 = c.reg .esp + 12 := by omega
  have h44 : (c.reg .esp + 12 + 8 * 4) % 2 ^ 32 = c.reg .esp + 12 + 4 * 8 := by omega
  simp only [syscall_return, run_cons, run_nil, exec, write_mem, write_reg, write_seg, set_reg,
    set_mem, set_seg, if_true, reduceCtorEq, if_false, h12, h44, and_self]

section switching

variable {c : Cpu} {ret cur next : ℕ}

theorem pops_spec {ebp ebx edi esi eip : ℕ}
    (h : Frame c.mem (c.reg .esp) [ebp, ebx, edi, esi, eip]) (hi : c.reg .esp + 20 < 2 ^ 32) :
    Continues (run [.pop .ebp, .pop .ebx, .pop .edi, .pop .esi, .ret] c) ebp ebx edi esi eip
      (c.reg .esp + 20) := by
  have w {i : ℕ} (hl : i < 5) := h.top (by simp; omega) hl
  have w0 : c.word 0 = ebp := w (i := 0) (by omega)
  have w1 : c.word 1 = ebx := w (i := 1) (by omega)
  have w2 : c.word 2 = edi := w (i := 2) (by omega)
  have w3 : c.word 3 = esi := w (i := 3) (by omega)
  have w4 : c.word 4 = eip := w (i := 4) (by omega)
  constructor <;> simp [exec, word_set, word_drop, w0, w1, w2, w3, w4]
  omega

theorem pops_rest (c : Cpu) :
    (run [.pop .ebp, .pop .ebx, .pop .edi, .pop .esi, .ret] c).mem = c.mem ∧
      (run [.pop .ebp, .pop .ebx, .pop .edi, .pop .esi, .ret] c).seg = c.seg := by
  simp [exec]

/-- The four loads and stores between the pushes and the pops move the stack pointer. -/
theorem swap_spec (d : Cpu) (h : Frame d.mem (d.reg .esp + 20) [cur, next])
    (hi : d.reg .esp + 28 ≤ 2 ^ 32) (hcur : cur < d.reg .esp) (hnext : next < 2 ^ 32) :
    let e := run [.load .eax .esp 20, .store .eax 0 .esp, .load .eax .esp 24,
      .load .esp .eax 0] d
    e.mem = d.mem.store cur (d.reg .esp) ∧
      e.reg .esp = d.mem.store cur (d.reg .esp) next ∧ e.seg = d.seg ∧
      ∀ r, r ≠ .eax → r ≠ .esp → e.reg r = d.reg r := by
  obtain ⟨h0, h1, -⟩ := h
  have hc : d.mem ((d.reg .esp + 20) % 2 ^ 32) = cur := by
    rw [Nat.mod_eq_of_lt (by omega)]
    exact h0
  have hn : d.mem.store cur (d.reg .esp) ((d.reg .esp + 24) % 2 ^ 32) = next := by
    rw [Nat.mod_eq_of_lt (by omega), store_ne (by omega)]
    exact h1
  have hcm : cur % 2 ^ 32 = cur := Nat.mod_eq_of_lt (by omega)
  have hnm : next % 2 ^ 32 = next := Nat.mod_eq_of_lt hnext
  simp only [run_cons, run_nil, exec, set_reg, set_mem, write_mem, write_reg, hc, Nat.add_zero,
    hcm, hn, hnm, set_seg, write_seg, reduceCtorEq, if_true, if_false]
  refine ⟨trivial, trivial, trivial, fun r ha hs => ?_⟩
  rw [if_neg hs, if_neg ha, if_neg ha]

/-- switch_to continues the thread whose saved registers stand where `next` says. -/
theorem switch_to_spec {ebp ebx edi esi eip : ℕ}
    (h : Frame c.mem (c.reg .esp) [ret, cur, next]) (room : 16 ≤ c.reg .esp)
    (hi : c.reg .esp + 12 ≤ 2 ^ 32) (hcur : cur < c.reg .esp - 16) (hnext : next < 2 ^ 32)
    (hf : Frame (switchedOut c cur) (switchedOut c cur next) [ebp, ebx, edi, esi, eip])
    (ht : switchedOut c cur next + 20 < 2 ^ 32) :
    Continues (run switch_to c) ebp ebx edi esi eip (switchedOut c cur next + 20) ∧
      (run switch_to c).mem = switchedOut c cur ∧ (run switch_to c).seg = c.seg := by
  have hs : switch_to = [.push .esi, .push .edi, .push .ebx, .push .ebp] ++
      ([.load .eax .esp 20, .store .eax 0 .esp, .load .eax .esp 24, .load .esp .eax 0] ++
        [.pop .ebp, .pop .ebx, .pop .edi, .pop .esi, .ret]) := rfl
  have hp : run [.push .esi, .push .edi, .push .ebx, .push .ebp] c =
      c.pushes [c.reg .esi, c.reg .edi, c.reg .ebx, c.reg .ebp] := by simp [exec]
  have he : (c.pushes [c.reg .esi, c.reg .edi, c.reg .ebx, c.reg .ebp]).reg .esp =
      c.reg .esp - 16 := pushes_esp _ _ room
  have hst := pushes_frame c [c.reg .esi, c.reg .edi, c.reg .ebx, c.reg .ebp] room h
  have hargs := (frame_append.mp hst).2
  obtain ⟨hm, hsp, hseg, -⟩ := swap_spec (c.pushes _)
    (by rw [he]; exact hargs.2) (by omega) (by omega) hnext
  rw [he] at hm hsp
  rw [hs, run_append, run_append, hp]
  have hc := pops_spec (c := run [.load .eax .esp 20, .store .eax 0 .esp, .load .eax .esp 24,
    .load .esp .eax 0] (c.pushes _)) (by rw [hm, hsp]; exact hf) (by rw [hsp]; exact ht)
  rw [hsp] at hc
  refine ⟨hc, (pops_rest _).1.trans hm, (pops_rest _).2.trans (hseg.trans ?_)⟩
  rw [pushes_seg]

end switching

section layout

variable {m : Memory} {p parent kernel_thread function func_arg back : ℕ}

/-- Of a new page, the address 3664 = 4096 - 4 * (76 + 32) is the new thread's stack. -/
theorem thread_create_spec (m : Memory) (p kernel_thread function func_arg : ℕ) :
    let m' := thread_create (init_kstack m p) p kernel_thread function func_arg
    m' p = p + 3664 ∧
      Frame m' (p + 3664) [0, 0, 0, 0, kernel_thread, m (p + 3684), function, func_arg] ∧
      ∀ x, x ≠ p → x < p + 3664 ∨ p + 3696 ≤ x → m' x = m x := by
  have hk : p + PG_SIZE - 4 * sizeof_intr_stack - 4 * sizeof_thread_stack = p + 3664 := by
    unfold PG_SIZE sizeof_intr_stack sizeof_thread_stack
    omega
  simp only [thread_create, init_kstack, store_self, hk]
  refine ⟨?_, by simp [Memory.store, Nat.add_assoc], fun x hx hr => ?_⟩
  · rw [store_ne (by omega), store_ne (by omega), store_ne (by omega), store_ne (by omega),
      store_ne (by omega), store_ne (by omega), store_ne (by omega), store_self]
  · rw [store_ne (by omega), store_ne (by omega), store_ne (by omega), store_ne (by omega),
      store_ne (by omega), store_ne (by omega), store_ne (by omega), store_ne hx, store_ne hx,
      store_ne hx]

theorem copy_pcb_frame {ws : List ℕ} {k : ℕ} (h : Frame m (parent + k) ws)
    (hk : k + 4 * ws.length ≤ PG_SIZE) : Frame (copy_pcb m p parent) (p + k) ws := by
  refine h.moved fun i hi => ?_
  have hl : 4 * i < 4 * ws.length := by omega
  have hs : parent + (p + k + 4 * i - p) = parent + k + 4 * i := by omega
  rw [copy_pcb, if_pos ⟨by omega, by omega⟩, hs]

/-- The child's frame is the parent's with eax cleared; under it stand the registers that
switch_to takes and the address it returns to. -/
theorem build_child_stack_spec {f : intr_stack} (h : Frame m (parent + 4020) f.words)
    (back : ℕ) :
    let m' := build_child_stack (copy_pcb m p parent) p back
    m' p = p + 4000 ∧ Frame m' (p + 4000) [0, 0, 0, 0, back] ∧
      Frame m' (p + 4020) { f with eax := 0 }.words ∧
      ∀ x, x < p ∨ p + PG_SIZE ≤ x → m' x = m x := by
  have hi : p + PG_SIZE - sizeof_intr_stack = p + 4020 := by
    unfold PG_SIZE sizeof_intr_stack
    omega
  have hf := (copy_pcb_frame (p := p) h (Nat.le_of_eq rfl)).store_inside 0 8
  have hl : (f.words.set 8 0).length = 19 := rfl
  simp only [build_child_stack, hi]
  refine ⟨by simp [Memory.store], by simp [Memory.store, Nat.add_assoc], ?_, fun x hx => ?_⟩
  · exact (((((hf.store_outside _ (by omega)).store_outside _ (by omega)).store_outside _
      (by omega)).store_outside _ (by omega)).store_outside _ (by omega)).store_outside _
      (by omega)
  · have hc : copy_pcb m p parent x = m x := if_neg (by omega)
    unfold PG_SIZE at hx
    rw [store_ne (by omega), store_ne (by omega), store_ne (by omega), store_ne (by omega),
      store_ne (by omega), store_ne (by omega), store_ne (by omega), hc]

theorem start_process_spec (m : Memory) (cur function esp : ℕ) (h : cur < m cur + 128) :
    let m' := start_process m cur function esp
    m' cur = m cur + 128 ∧
      Frame m' (m cur + 128) (first_frame m (m cur + 128) function esp).words ∧
      ∀ x, x ≠ cur → x < m cur + 128 ∨ m cur + 204 ≤ x → m' x = m x := by
  have hf : first_frame (m.store cur (m cur + 128)) (m cur + 128) function esp =
      first_frame m (m cur + 128) function esp := by
    rw [first_frame, store_ne (by omega), store_ne (by omega)]
    rfl
  have hl (f : intr_stack) : 4 * f.words.length = 76 := rfl
  simp only [start_process, store_self, show 4 * sizeof_thread_stack = 128 from rfl, hf]
  refine ⟨?_, storeAll_frame _ _ _, fun x hx hr => ?_⟩
  · rw [storeAll_outside (Or.inl h), store_self]
  · rw [storeAll_outside (by rw [hl]; omega), store_ne hx]

theorem sys_execv_spec {cur : ℕ} {f : intr_stack} (argv argc entry_point : ℕ)
    (h : Frame m (cur + 4020) f.words) :
    let m' := sys_execv m cur argv argc entry_point
    Frame m' (cur + 4020)
        { f with ebx := argv, ecx := argc, eip := entry_point, esp := 0xc0000000 }.words ∧
      ∀ x, x < cur + 4020 ∨ cur + PG_SIZE ≤ x → m' x = m x := by
  have hi : cur + PG_SIZE - sizeof_intr_stack = cur + 4020 := by
    unfold PG_SIZE sizeof_intr_stack
    omega
  have hf := (((h.store_inside argv 5).store_inside argc 7).store_inside entry_point
    14).store_inside 0xc0000000 17
  simp only [sys_execv, hi]
  refine ⟨hf, fun x hx => ?_⟩
  unfold PG_SIZE at hx
  rw [store_ne (by omega), store_ne (by omega), store_ne (by omega), store_ne (by omega)]

end layout

end ContextSwitch
