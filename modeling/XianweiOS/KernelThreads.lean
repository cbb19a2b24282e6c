import XianweiOS.KernelStacks

/-! Every step of the kernel's threads keeps their stacks: what each step does to the
registers, and that its memory is the threads' own. -/
namespace KernelStacks

open StackMachine ContextSwitch

variable {k : Image} {s : System}

section events

theorem compute_held (h : Held s) {c : Cpu} (he : Enabled s (.compute c)) :
    Held (next k s (.compute c)) := by
  obtain ⟨hcs, hesp, hkept⟩ := he
  refine h.stay rfl rfl rfl rfl (fun _ _ => rfl) (fun p hp _ x hx => hkept p hp x hx) ?_
    h.running ?_
  · exact (h.stacked _ h.cur).congr fun x hx hl => hkept _ h.cur x (Or.inr ⟨hx, hl⟩)
  · cases h.mode with
    | user hu hs hp =>
      refine .user ?_ hs hp
      show ring (c.seg .cs) = 3
      rw [hcs]
      exact hu
    | kernel hr hlo hhi =>
      obtain ⟨hlo', hhi'⟩ := hesp (not_user_of_kernel hr)
      refine .kernel ?_ hlo' hhi'
      show ring (c.seg .cs) = 0
      rw [hcs]
      exact hr

theorem kernel_ring : ring SELECTOR_K_CODE = 0 := rfl

theorem delivered_cs (c : Cpu) (esp0 : ℕ) :
    (delivered c esp0).seg .cs = SELECTOR_K_CODE := by
  simp [delivered, Cpu.deliver]

theorem hardware_vector {vec : ℕ} (hlo : 0x20 ≤ vec) : vec ∉ ERROR_CODE := by
  simp only [ERROR_CODE, List.mem_cons, List.not_mem_nil, or_false]
  omega

theorem VECTOR_cs {vec : ℕ} (hv : vec ∉ ERROR_CODE) (c : Cpu) (handler back : ℕ) :
    (run (VECTOR vec handler back) c).seg .cs = c.seg .cs := by
  rw [VECTOR_run hv]
  simp

theorem syscall_cs (c : Cpu) (handler back : ℕ) :
    (run (syscall_handler handler back) c).seg .cs = c.seg .cs := by
  rw [syscall_run]
  simp

theorem syscall_same (c : Cpu) (handler back : ℕ) :
    SameStack (run (syscall_handler handler back) c) ((c.pushes (pushed c)).pushes
      [0x80, c.reg .edx, c.reg .ecx, c.reg .ebx, back]) := by
  rw [syscall_run]
  constructor
  · rw [jump_reg]
  · rw [jump_mem]

/-- The running thread's history after a stub, and memory outside its page. -/
theorem interrupt_held (h : Held s) {vec handler back : ℕ}
    (he : Enabled s (.interrupt vec handler back)) :
    (User s.cpu → (next k s (.interrupt vec handler back)).saved s.cur =
      [(s.cur + 4020, .user (ContextSwitch.interrupted s.cpu vec (s.cur + 4076)))]) ∧
    (¬ User s.cpu → ∃ f, (next k s (.interrupt vec handler back)).saved s.cur =
      (s.esp - 68, .kernel f) :: s.saved s.cur) ∧
    (∀ x, x < s.cur ∨ s.cur + PG_SIZE ≤ x →
      (next k s (.interrupt vec handler back)).cpu.mem x = s.cpu.mem x) ∧
    Held (next k s (.interrupt vec handler back)) := by
  obtain ⟨hv, -, -, hroom⟩ := he
  have hsame := VECTOR_same (hardware_vector hv) (delivered s.cpu s.esp0) handler back
  have hcs : ring ((run (VECTOR vec handler back) (delivered s.cpu s.esp0)).seg .cs) = 0 := by
    rw [VECTOR_cs (hardware_vector hv), delivered_cs, kernel_ring]
  have hn : (next k s (.interrupt vec handler back)).saved s.cur =
      ((run (VECTOR vec handler back) (delivered s.cpu s.esp0)).reg .esp + 4,
        s.interrupted vec) :: s.saved s.cur := save_self ..
  by_cases hu : User s.cpu
  · obtain ⟨ha, hm, hh⟩ := enter_user h hu hsame hcs (by simp)
    refine ⟨fun _ => ?_, fun hk => absurd hu hk, hm, hh⟩
    rw [hn, interrupted_user h hu, (h.empty hu).1]
    exact congrArg (fun a => [(a, _)]) ha
  · have hg : s.guard s.cur ≤ s.cur + PG_SIZE := (h.stacked _ h.cur).lowest_le
    have hk := h.kernel hu
    obtain ⟨ha, hm, hh⟩ := enter_kernel h hu hsame hcs (hroom hu)
    have hr := hroom hu
    refine ⟨fun hk => absurd hk hu, fun _ => ?_, fun x hx => hm x ?_, hh⟩
    · refine ⟨ContextSwitch.interrupted s.cpu vec ((delivered s.cpu s.esp0).reg .esp), ?_⟩
      rw [hn, interrupted_kernel hu]
      exact congrArg (fun a => (a, _) :: s.saved s.cur) ha
    · simp only [List.length_cons, List.length_nil]
      omega

theorem call_held (h : Held s) {handler back : ℕ} (he : Enabled s (.call handler back)) :
    (next k s (.call handler back)).saved s.cur =
      [(s.cur + 4020, .user (ContextSwitch.interrupted s.cpu 0x80 (s.cur + 4076)))] ∧
    (∀ x, x < s.cur ∨ s.cur + PG_SIZE ≤ x →
      (next k s (.call handler back)).cpu.mem x = s.cpu.mem x) ∧
    Held (next k s (.call handler back)) := by
  have hu : User s.cpu := he
  have hsame := syscall_same (delivered s.cpu s.esp0) handler back
  have hcs : ring ((run (syscall_handler handler back) (delivered s.cpu s.esp0)).seg .cs) =
      0 := by
    rw [syscall_cs, delivered_cs, kernel_ring]
  obtain ⟨ha, hm, hh⟩ := enter_user h hu hsame hcs (by simp)
  have hn : (next k s (.call handler back)).saved s.cur =
      ((run (syscall_handler handler back) (delivered s.cpu s.esp0)).reg .esp + 16,
        s.interrupted 0x80) :: s.saved s.cur := save_self ..
  refine ⟨?_, hm, hh⟩
  rw [hn, interrupted_user h hu, (h.empty hu).1]
  exact congrArg (fun a => [(a, _)]) ha

end events

/-- The registers a program goes on with when intr_exit takes `v` from address `a`. -/
def Saved.resumes (a : ℕ) (c : Cpu) : Saved → Prop
  | .user f => Resumed f c
  | .child f => Resumed f c
  | .kernel f => Resumed { f with esp := a + 68, ss := c.seg .ss } c
  | _ => False

section returns

theorem restored {a : ℕ} {v : Saved} {fs : List (ℕ × Saved)}
    (hs : s.saved s.cur = (a, v) :: fs) : (s.restore s.cur).saved s.cur = fs := by
  rw [restore_self, hs, List.tail_cons]

/-- The frame of a user program, on an otherwise empty stack. -/
theorem user_frame (h : Held s) {v : Saved} {a : ℕ} {f : intr_stack} {fs : List (ℕ × Saved)}
    (hs : s.saved s.cur = (a, v) :: fs) (hv : v = .user f ∨ v = .child f) :
    a = s.cur + 4020 ∧ fs = [] ∧ s.pgdir s.cur = true ∧ ring f.cs = 3 ∧
      Frame s.cpu.mem a f.words ∧ a + 76 ≤ 2 ^ 32 := by
  have hP : PG_SIZE = 4096 := rfl
  have hrun := h.running
  have hstk := h.stacked _ h.cur
  have hb := h.bound _ h.cur
  rw [hs] at hrun hstk
  rcases hv with rfl | rfl
  · obtain ⟨ha, hfs, hpg, hr⟩ := hrun.of_user
    exact ⟨ha, hfs, hpg, hr, hstk.2.2.1, by omega⟩
  · obtain ⟨ha, hfs, hpg, hr⟩ := hrun.of_child
    exact ⟨ha, hfs, hpg, hr, hstk.2.2.1, by omega⟩

theorem leave_user_frame (h : Held s) (hu : ¬ User s.cpu) {v : Saved} {f : intr_stack}
    {fs : List (ℕ × Saved)} (hs : s.saved s.cur = (s.esp, v) :: fs)
    (hv : v = .user f ∨ v = .child f) :
    Resumed f (next k s .leave).cpu ∧ User (next k s .leave).cpu ∧ fs = [] ∧
      (∀ x, x < s.cur ∨ s.cur + PG_SIZE ≤ x → (next k s .leave).cpu.mem x = s.cpu.mem x) ∧
      Held (next k s .leave) := by
  obtain ⟨-, hfs, hpg, hr, hf, hb⟩ := user_frame h hs hv
  have hnone : (s.restore s.cur).saved s.cur = [] := by
    rw [restored hs, hfs]
  have hmem := (intr_exit_outer hf hb (by rw [(h.kernel hu).1, hr]; decide)).2
  obtain ⟨hres, huser, hh⟩ := leave_user h (s.restore s.cur) rfl rfl rfl rfl
    (fun p hp => restore_other s hp) hnone hpg (h.kernel hu).1 hf hb hr (fun _ _ => rfl)
  exact ⟨hres, huser, hfs, fun x _ => congrFun hmem x, hh⟩

theorem leave_held (h : Held s) (he : Enabled s .leave) : ∃ v fs,
    s.saved s.cur = (s.esp, v) :: fs ∧ v.leaves = true ∧ (next k s .leave).saved s.cur = fs ∧
    v.resumes s.esp (next k s .leave).cpu ∧
    (∀ x, x < s.cur ∨ s.cur + PG_SIZE ≤ x → (next k s .leave).cpu.mem x = s.cpu.mem x) ∧
    Held (next k s .leave) := by
  obtain ⟨hu, v, fs, hs, hl⟩ := he
  refine ⟨v, fs, hs, hl, restored hs, ?_⟩
  cases v with
  | user f =>
    obtain ⟨hres, -, -, hm, hh⟩ := leave_user_frame (k := k) h hu hs (.inl rfl)
    exact ⟨hres, hm, hh⟩
  | child f =>
    obtain ⟨hres, -, -, hm, hh⟩ := leave_user_frame (k := k) h hu hs (.inr rfl)
    exact ⟨hres, hm, hh⟩
  | kernel f =>
    obtain ⟨hres, hmem, hh⟩ := leave_kernel h hu hs
    refine ⟨?_, fun x _ => congrFun hmem x, hh⟩
    exact ⟨hres.general, hres.segments, hres.code, hres.stack.1, rfl⟩
  | switched => cases hl
  | created => cases hl

/-- The result of the system call goes into the frame, and from there into eax. -/
theorem finish_held (h : Held s) (he : Enabled s .finish) : ∃ f, f.vec_no = 0x80 ∧
    s.saved s.cur = [(s.cur + 4020, .user f)] ∧ (next k s .finish).saved s.cur = [] ∧
    Resumed { f with eax := s.cpu.reg .eax } (next k s .finish).cpu ∧
    User (next k s .finish).cpu ∧
    (∀ x, x < s.cur ∨ s.cur + PG_SIZE ≤ x → (next k s .finish).cpu.mem x = s.cpu.mem x) ∧
    Held (next k s .finish) := by
  obtain ⟨hu, f, fs, hvec, hs⟩ := he
  have hP : PG_SIZE = 4096 := rfl
  obtain ⟨ha, hfs, hpg, hr, hf, hb⟩ := user_frame h hs (.inl rfl)
  have hnone : (s.restore s.cur).saved s.cur = [] := by
    rw [restored hs, hfs]
  obtain ⟨hsp, hmem, hseg⟩ := syscall_return_spec (show s.cpu.reg .esp + 44 < 2 ^ 32 from
    (by omega : s.esp + 44 < 2 ^ 32))
  have hesp : s.cpu.reg .esp = s.esp := rfl
  rw [hesp] at hsp hmem
  have hf' : Frame (run syscall_return s.cpu).mem ((run syscall_return s.cpu).reg .esp)
      { f with eax := s.cpu.reg .eax }.words := by
    rw [hmem, hsp]
    exact hf.store_inside (s.cpu.reg .eax) 8
  have hpage : ∀ x, x < s.cur ∨ s.cur + PG_SIZE ≤ x →
      (run syscall_return s.cpu).mem x = s.cpu.mem x := by
    intro x hx
    rw [hmem]
    exact store_ne (by omega)
  have hexit := (intr_exit_outer hf' (by rw [hsp]; exact hb)
    (by rw [hseg, (h.kernel hu).1]; show 0 < ring f.cs; omega)).2
  obtain ⟨hres, huser, hh⟩ := leave_user h (s.restore s.cur) rfl rfl rfl rfl
    (fun p hp => restore_other s hp) hnone hpg
    (by rw [hseg]; exact (h.kernel hu).1) hf' (by rw [hsp]; exact hb) hr hpage
  have hn : next k s .finish = (s.restore s.cur).goOn
      (run ContextSwitch.intr_exit (run syscall_return s.cpu)) := by rw [next]
  rw [hn, goOn_saved, goOn_cpu]
  refine ⟨f, hvec, ?_, hnone, hres, huser, fun x hx => ?_, hh⟩
  · rw [hs, ha, hfs]
  · rw [hexit]
    exact hpage x hx

/-- The image of the new program is entered from the frame of the system call. -/
theorem execv_held (h : Held s) {argv argc entry_point : ℕ}
    (he : Enabled s (.execv argv argc entry_point)) : ∃ f, f.vec_no = 0x80 ∧
    s.saved s.cur = [(s.cur + 4020, .user f)] ∧
    (next k s (.execv argv argc entry_point)).saved s.cur = [] ∧
    Resumed { f with ebx := argv, ecx := argc, eip := entry_point, esp := 0xc0000000 }
      (next k s (.execv argv argc entry_point)).cpu ∧
    User (next k s (.execv argv argc entry_point)).cpu ∧
    (∀ x, x < s.cur ∨ s.cur + PG_SIZE ≤ x →
      (next k s (.execv argv argc entry_point)).cpu.mem x = s.cpu.mem x) ∧
    Held (next k s (.execv argv argc entry_point)) := by
  obtain ⟨hu, f, hvec, hs⟩ := he
  obtain ⟨-, -, hpg, hr, hf, hb⟩ := user_frame h hs (.inl rfl)
  have hnone : (s.restore s.cur).saved s.cur = [] := restored hs
  obtain ⟨hframe, hpage⟩ := sys_execv_spec argv argc entry_point hf
  have hP : PG_SIZE = 4096 := rfl
  have hsp : (s.onto (sys_execv s.cpu.mem s.cur argv argc entry_point)
      (s.cur + PG_SIZE - sizeof_intr_stack)).reg .esp = s.cur + 4020 := by
    simp [System.onto, PG_SIZE, sizeof_intr_stack]
  have hf' : Frame (s.onto (sys_execv s.cpu.mem s.cur argv argc entry_point)
      (s.cur + PG_SIZE - sizeof_intr_stack)).mem ((s.onto (sys_execv s.cpu.mem s.cur argv argc
      entry_point) (s.cur + PG_SIZE - sizeof_intr_stack)).reg .esp)
      { f with ebx := argv, ecx := argc, eip := entry_point, esp := 0xc0000000 }.words := by
    rw [hsp]
    exact hframe
  have hcs : ring ((s.onto (sys_execv s.cpu.mem s.cur argv argc entry_point)
      (s.cur + PG_SIZE - sizeof_intr_stack)).seg .cs) = 0 := (h.kernel hu).1
  have hexit := (intr_exit_outer hf' (by rw [hsp]; exact hb)
    (by rw [hcs]; show 0 < ring f.cs; omega)).2
  have hout : ∀ x, x < s.cur ∨ s.cur + PG_SIZE ≤ x →
      sys_execv s.cpu.mem s.cur argv argc entry_point x = s.cpu.mem x :=
    fun x hx => hpage x (by omega)
  obtain ⟨hres, huser, hh⟩ := leave_user h (s.restore s.cur) rfl rfl rfl rfl
    (fun p hp => restore_other s hp) hnone hpg hcs hf' (by rw [hsp]; exact hb) hr hout
  have hn : next k s (.execv argv argc entry_point) = (s.restore s.cur).goOn
      (run ContextSwitch.intr_exit (s.onto (sys_execv s.cpu.mem s.cur argv argc entry_point)
        (s.cur + PG_SIZE - sizeof_intr_stack))) := by rw [next]
  rw [hn, goOn_saved, goOn_cpu]
  refine ⟨f, hvec, hs, hnone, hres, huser, fun x hx => ?_, hh⟩
  rw [hexit]
  exact hout x hx

/-- The first entry of a new process, of which nothing but its entry point is set. -/
theorem start_held (h : Held s) {function esp : ℕ} (he : Enabled s (.start function esp)) :
    Resumed (first_frame s.cpu.mem (s.cur + 3792) function esp)
      (next k s (.start function esp)).cpu ∧
    (next k s (.start function esp)).saved = s.saved ∧
    User (next k s (.start function esp)).cpu ∧
    (∀ x, x < s.cur ∨ s.cur + PG_SIZE ≤ x →
      (next k s (.start function esp)).cpu.mem x = s.cpu.mem x) ∧
    Held (next k s (.start function esp)) := by
  obtain ⟨hu, hnone, hpg, hk⟩ := he
  have hP : PG_SIZE = 4096 := rfl
  have hb := h.bound _ h.cur
  obtain ⟨hm, hf, hout⟩ := start_process_spec s.cpu.mem s.cur function esp (by omega)
  rw [hk, show s.cur + 3664 + 128 = s.cur + 3792 from rfl,
    show s.cur + 3664 + 204 = s.cur + 3868 from rfl] at hout
  rw [hk, show s.cur + 3664 + 128 = s.cur + 3792 from rfl] at hm hf
  generalize hmem : start_process s.cpu.mem s.cur function esp = m at hm hf hout
  have hsp : (s.onto m (m s.cur)).reg .esp = s.cur + 3792 := by simp [System.onto, hm]
  have hf' : Frame (s.onto m (m s.cur)).mem ((s.onto m (m s.cur)).reg .esp)
      (first_frame s.cpu.mem (s.cur + 3792) function esp).words := by
    rw [hsp]
    exact hf
  have hcs : ring ((s.onto m (m s.cur)).seg .cs) = 0 := (h.kernel hu).1
  have hpage : ∀ x, x < s.cur ∨ s.cur + PG_SIZE ≤ x → m x = s.cpu.mem x :=
    fun x hx => hout x (by omega) (by omega)
  have hr : ring (first_frame s.cpu.mem (s.cur + 3792) function esp).cs = 3 :=
    (by decide : ring SELECTOR_U_CODE = 3)
  have hexit := (intr_exit_outer hf' (by rw [hsp]; omega) (by rw [hcs, hr]; decide)).2
  obtain ⟨hres, huser, hh⟩ := leave_user h s rfl rfl rfl rfl (fun _ _ => rfl) hnone hpg hcs hf'
    (by rw [hsp]; omega) hr hpage
  have hn : next k s (.start function esp) =
      s.goOn (run ContextSwitch.intr_exit (s.onto m (m s.cur))) := by rw [next, hmem]
  rw [hn, goOn_saved, goOn_cpu]
  refine ⟨hres, rfl, huser, fun x hx => ?_, hh⟩
  rw [hexit]
  exact hpage x hx

end returns

section threads

variable {ret p : ℕ}

@[simp] theorem parking_live (s : System) (ret : ℕ) : (s.parking ret).live = s.live := rfl

/-- A thread stays in the list until it is released. -/
theorem next_live {e : Event} {t : ℕ} (ht : t ∈ s.live) (hrel : e ≠ .release t) :
    t ∈ (next k s e).live := by
  cases e with
  | create p function func_arg pgdir => exact List.mem_cons_of_mem _ ht
  | fork p => exact List.mem_cons_of_mem _ ht
  | release p => exact List.mem_filter.mpr ⟨ht, decide_eq_true fun hp => hrel (hp ▸ rfl)⟩
  | compute c => exact ht
  | interrupt vec handler back =>
    rw [next, goOn_live, save_live]
    exact ht
  | call handler back =>
    rw [next, goOn_live, save_live]
    exact ht
  | leave =>
    rw [next, goOn_live, restore_live]
    exact ht
  | finish =>
    rw [next, goOn_live, restore_live]
    exact ht
  | schedule nxt ret =>
    rw [next, goOn_live, restore_live, parking_live]
    exact ht
  | start function esp =>
    rw [next, goOn_live]
    exact ht
  | execv argv argc entry_point =>
    rw [next, goOn_live, restore_live]
    exact ht

/-- The thread taken goes on with what it left on its stack; the one that ran has the
registers it called with on its own. -/
theorem schedule_held (h : Held s) {nxt : ℕ} (he : Enabled s (.schedule nxt ret)) :
    ∃ a v fs, (s.parking ret).saved nxt = (a, v) :: fs ∧ v.parked = true ∧
    v.continues a (next k s (.schedule nxt ret)).cpu ∧
    (next k s (.schedule nxt ret)).saved nxt = fs ∧
    (∀ p, p ≠ nxt → (next k s (.schedule nxt ret)).saved p = (s.parking ret).saved p) ∧
    (next k s (.schedule nxt ret)).cpu.mem = switchedOut s.cpu s.cur ∧
    Held (next k s (.schedule nxt ret)) := by
  have hT : sizeof_task_struct = 276 := rfl
  have hP : PG_SIZE = 4096 := rfl
  have hstk (p : ℕ) (hp : p ∈ s.live) := parking_stacked h he hp
  have hwait (p : ℕ) (hp : p ∈ s.live) := parking_waiting h he hp
  obtain ⟨hu, hn, hf, hlo, hhi⟩ := he
  obtain ⟨v, fs, hs, hv, hnest⟩ := hwait nxt hn
  have hnstk := hstk nxt hn
  have hbc := h.bound _ h.cur
  have hbn := h.bound _ hn
  have hgc : s.guard s.cur ≤ s.cur + PG_SIZE := (h.stacked _ h.cur).lowest_le
  rw [hs] at hnstk
  obtain ⟨halo, hahi, hframe, hrest⟩ := hnstk
  have hl := hrest.lowest_le
  obtain ⟨ebp, ebx, edi, esi, eip, hfive, hlen, hcont⟩ := parked_frame hframe hv
  have hesp : s.cpu.reg .esp = s.esp := rfl
  obtain ⟨hc, hm, hseg⟩ := switch_to_spec hf (by omega) (by omega) (by omega) (by omega) hfive
    (by omega)
  have hnx : next k s (.schedule nxt ret) =
      { ((s.parking ret).restore nxt).goOn (run switch_to s.cpu) with
        cur := nxt
        esp0 := if s.pgdir nxt then nxt + PG_SIZE else s.esp0 } := by rw [next]
  have hself : (next k s (.schedule nxt ret)).saved nxt = fs := by
    rw [hnx]
    show ((s.parking ret).restore nxt).saved nxt = fs
    rw [restore_self, hs, List.tail_cons]
  have hother : ∀ p, p ≠ nxt →
      (next k s (.schedule nxt ret)).saved p = (s.parking ret).saved p := fun p hp => by
    rw [hnx]
    exact restore_other _ hp
  have hcpu : (next k s (.schedule nxt ret)).cpu = run switch_to s.cpu := by rw [hnx, goOn_cpu]
  have hmem : (next k s (.schedule nxt ret)).cpu.mem = switchedOut s.cpu s.cur := by
    rw [hcpu, hm]
  have hcur : (next k s (.schedule nxt ret)).cur = nxt := by rw [hnx]
  have hlive : (next k s (.schedule nxt ret)).live = s.live := by rw [hnx]; rfl
  have hpgdir : (next k s (.schedule nxt ret)).pgdir = s.pgdir := by rw [hnx]; rfl
  have hesp0 : (next k s (.schedule nxt ret)).esp0 =
      if s.pgdir nxt then nxt + PG_SIZE else s.esp0 := by rw [hnx]
  refine ⟨_, v, fs, hs, hv, ?_, hself, hother, hmem, ?_⟩
  · rw [hcpu]
    exact hcont _ hc
  · constructor
    · rw [hlive]
      exact h.bound
    · rw [hlive]
      exact h.apart
    · rw [hlive, hcur]
      exact hn
    · rw [hlive, hmem]
      intro p hp
      by_cases hpn : p = nxt
      · rw [hpn, hself]
        exact hrest
      · rw [hother p hpn]
        exact hstk p hp
    · rw [hcur, hself, hpgdir]
      exact hnest
    · rw [hlive, hcur, hmem, hpgdir]
      intro p hp hpn
      rw [hother p hpn]
      exact hwait p hp
    · rw [hcur, hesp0, hpgdir]
      intro hpg
      exact if_pos hpg
    · have hce : (next k s (.schedule nxt ret)).esp = switchedOut s.cpu s.cur nxt + 20 := by
        rw [System.esp, hcpu, hc.esp]
      refine .kernel ?_ ?_ ?_
      · rw [hcpu, hseg]
        exact (h.kernel hu).1
      · rw [hcur, hce]
        omega
      · rw [hcur, hce, System.guard, hself]
        omega

/-- A new thread in a fresh page, its stack laid out to be taken by switch_to. -/
theorem spawn_held {s' : System} (h : Held s) (hu : ¬ User s.cpu) (hp : Fresh s p)
    (hcur : s'.cur = s.cur) (hlive : s'.live = p :: s.live) (hesp0 : s'.esp0 = s.esp0)
    (hpgdir : ∀ q, q ≠ p → s'.pgdir q = s.pgdir q)
    (hsaved : ∀ q, q ≠ p → s'.saved q = s.saved q)
    (hregs : s'.cpu.reg = s.cpu.reg ∧ s'.cpu.seg = s.cpu.seg)
    (hmem : ∀ x, x < p ∨ p + PG_SIZE ≤ x → s'.cpu.mem x = s.cpu.mem x)
    (hstk : Stacked s'.cpu.mem p (s'.saved p))
    (hwait : ∃ v fs, s'.saved p = (s'.cpu.mem p, v) :: fs ∧ v.parked = true ∧
      Nested p (s'.pgdir p) fs) : Held s' := by
  have hT : sizeof_task_struct = 276 := rfl
  have hP : PG_SIZE = 4096 := rfl
  have hne : ∀ q ∈ s.live, q ≠ p := fun q hq he => by
    have := hp.2 q hq
    omega
  have hk : ∀ q ∈ s.live, ∀ x, Kept s q x → s'.cpu.mem x = s.cpu.mem x := fun q hq x hx =>
    hmem x (h.kept_outside hq ((hp.2 q hq).symm) hx)
  have hcp := hne _ h.cur
  obtain ⟨hr, hlo, hhi⟩ := h.kernel hu
  constructor
  · rw [hlive]
    intro q hq
    rcases List.mem_cons.mp hq with rfl | hq
    · exact hp.1
    · exact h.bound q hq
  · rw [hlive]
    intro q hq r hr' hqr
    rcases List.mem_cons.mp hq with hqp | hq <;> rcases List.mem_cons.mp hr' with hrp | hr'
    · exact absurd (hqp.trans hrp.symm) hqr
    · rw [hqp]
      exact hp.2 r hr'
    · rw [hrp]
      exact (hp.2 q hq).symm
    · exact h.apart q hq r hr' hqr
  · rw [hlive, hcur]
    exact List.mem_cons_of_mem _ h.cur
  · rw [hlive]
    intro q hq
    rcases List.mem_cons.mp hq with rfl | hq
    · exact hstk
    · rw [hsaved q (hne q hq)]
      exact (h.stacked q hq).congr fun x hx hl => hk q hq x (Or.inr ⟨hx, hl⟩)
  · rw [hcur, hpgdir _ hcp, hsaved _ hcp]
    exact h.running
  · rw [hlive, hcur]
    intro q hq hqc
    rcases List.mem_cons.mp hq with rfl | hq
    · exact hwait
    · rw [hsaved q (hne q hq), hpgdir q (hne q hq), hk q hq q (Or.inl rfl)]
      exact h.waiting q hq hqc
  · rw [hcur, hpgdir _ hcp, hesp0]
    exact h.tss
  · refine .kernel ?_ ?_ ?_
    · rw [hregs.2]
      exact hr
    · rw [hcur, System.esp, hregs.1]
      exact hlo
    · rw [hcur, System.guard, hsaved _ hcp, System.esp, hregs.1]
      exact hhi

theorem create_held (h : Held s) {function func_arg : ℕ} {pgdir : Bool}
    (he : Enabled s (.create p function func_arg pgdir)) :
    (next k s (.create p function func_arg pgdir)).saved p = [(p + 3664, .created
      ⟨0, 0, 0, 0, k.kernel_thread, s.cpu.mem (p + 3684), function, func_arg⟩)] ∧
    (∀ x, x < p ∨ p + PG_SIZE ≤ x →
      (next k s (.create p function func_arg pgdir)).cpu.mem x = s.cpu.mem x) ∧
    Held (next k s (.create p function func_arg pgdir)) := by
  obtain ⟨hu, hp⟩ := he
  have hP : PG_SIZE = 4096 := rfl
  obtain ⟨hk, hf, hout⟩ := thread_create_spec s.cpu.mem p k.kernel_thread function func_arg
  have hs : (next k s (.create p function func_arg pgdir)).saved p = [(p + 3664, .created
      ⟨0, 0, 0, 0, k.kernel_thread, s.cpu.mem (p + 3684), function, func_arg⟩)] :=
    Function.update_self ..
  have hmem : ∀ x, x < p ∨ p + PG_SIZE ≤ x →
      (next k s (.create p function func_arg pgdir)).cpu.mem x = s.cpu.mem x :=
    fun x hx => hout x (by omega) (by omega)
  refine ⟨hs, hmem, spawn_held h hu hp rfl rfl rfl (fun q hq => Function.update_of_ne hq ..)
    (fun q hq => Function.update_of_ne hq ..) ⟨rfl, rfl⟩ hmem ?_ ?_⟩
  · rw [hs]
    refine ⟨Nat.add_le_add_left (by decide) p, ?_, hf, trivial⟩
    show p + 3664 + 32 ≤ p + PG_SIZE
    omega
  · rw [hs]
    have hkm : (next k s (.create p function func_arg pgdir)).cpu.mem p = p + 3664 := hk
    exact ⟨.created _, [], by rw [hkm], rfl, .nil⟩

theorem fork_held (h : Held s) (he : Enabled s (.fork p)) : ∃ f,
    s.saved s.cur = [(s.cur + 4020, .user f)] ∧ f.vec_no = 0x80 ∧
    (next k s (.fork p)).saved p = [(p + 4000, .switched 0 0 0 0 k.intr_exit),
      (p + 4020, .child { f with eax := 0 })] ∧
    (∀ x, x < p ∨ p + PG_SIZE ≤ x → (next k s (.fork p)).cpu.mem x = s.cpu.mem x) ∧
    Held (next k s (.fork p)) := by
  obtain ⟨hu, hp, f, hvec, hs⟩ := he
  obtain ⟨-, -, -, hr, hframe, -⟩ := user_frame h hs (.inl rfl)
  obtain ⟨hk, hf5, hf19, hout⟩ := build_child_stack_spec (p := p) hframe k.intr_exit
  have hsv : (next k s (.fork p)).saved p = [(p + 4000, .switched 0 0 0 0 k.intr_exit),
      (p + 4020, .child { f with eax := 0 })] := by
    have hfk : forked (s.saved s.cur) = .child { f with eax := 0 } := by rw [hs, forked]
    rw [← hfk]
    exact Function.update_self ..
  have hpg : (next k s (.fork p)).pgdir p = true := Function.update_self ..
  refine ⟨f, hs, hvec, hsv, hout, spawn_held h hu hp rfl rfl rfl
    (fun q hq => Function.update_of_ne hq ..) (fun q hq => Function.update_of_ne hq ..)
    ⟨rfl, rfl⟩ hout ?_ ?_⟩
  · rw [hsv]
    exact ⟨Nat.add_le_add_left (by decide) p, Nat.le_refl _, hf5,
      Nat.add_le_add_left (by decide) p, Nat.le_refl _, hf19, trivial⟩
  · rw [hsv, hpg]
    have hkm : (next k s (.fork p)).cpu.mem p = p + 4000 := hk
    exact ⟨.switched 0 0 0 0 k.intr_exit, [(p + 4020, .child { f with eax := 0 })],
      by rw [hkm], rfl, .child rfl hr⟩

theorem release_held (h : Held s) (he : Enabled s (.release p)) :
    Held (next k s (.release p)) := by
  obtain ⟨hu, hp, hpc⟩ := he
  have hsub : ∀ q ∈ s.live.filter (· ≠ p), q ∈ s.live := fun q hq => (List.mem_filter.mp hq).1
  exact
    { bound := fun q hq => h.bound q (hsub q hq)
      apart := fun q hq r hr => h.apart q (hsub q hq) r (hsub r hr)
      cur := List.mem_filter.mpr ⟨h.cur, decide_eq_true hpc.symm⟩
      stacked := fun q hq => h.stacked q (hsub q hq)
      running := h.running
      waiting := fun q hq => h.waiting q (hsub q hq)
      tss := h.tss
      mode := by
        obtain ⟨hr, hlo, hhi⟩ := h.kernel hu
        exact .kernel hr hlo hhi }

theorem next_held (h : Held s) {e : Event} (he : Enabled s e) : Held (next k s e) := by
  cases e with
  | compute c => exact compute_held h he
  | interrupt vec handler back => exact (interrupt_held h he).2.2.2
  | call handler back => exact (call_held h he).2.2
  | leave =>
    obtain ⟨_, _, _, _, _, _, _, hh⟩ := leave_held (k := k) h he
    exact hh
  | finish =>
    obtain ⟨_, _, _, _, _, _, _, hh⟩ := finish_held (k := k) h he
    exact hh
  | schedule nxt ret =>
    obtain ⟨_, _, _, _, _, _, _, _, _, hh⟩ := schedule_held (k := k) h he
    exact hh
  | create p function func_arg pgdir => exact (create_held h he).2.2
  | start function esp => exact (start_held h he).2.2.2.2
  | fork p =>
    obtain ⟨_, _, _, _, _, hh⟩ := fork_held (k := k) h he
    exact hh
  | execv argv argc entry_point =>
    obtain ⟨_, _, _, _, _, _, _, hh⟩ := execv_held (k := k) h he
    exact hh
  | release p => exact release_held h he

end threads

end KernelStacks
