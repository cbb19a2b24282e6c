import XianweiOS.KernelThreads

/-! Whole runs of the kernel's threads. A thread that was switched out goes on where it
called switch_to, an interrupted program goes on with the registers it was interrupted
with, and a system call changes no register but eax, whatever the other threads did in
between. -/
namespace KernelStacks

open StackMachine ContextSwitch

/-- thread_init's own thread: the boot code's stack, and no page directory of its own. -/
structure Booted (s : System) : Prop where
  ring : ring (s.cpu.seg .cs) = 0
  live : s.live = [s.cur]
  saved : s.saved s.cur = []
  pgdir : s.pgdir s.cur = false
  bound : s.cur + PG_SIZE < 2 ^ 32
  low : s.cur + sizeof_task_struct ≤ s.esp
  high : s.esp ≤ s.cur + PG_SIZE

inductive Reachable (k : Image) : System → Prop where
  | boot {s : System} : Booted s → Reachable k s
  | step {s : System} {e : Event} : Reachable k s → Enabled s e → Reachable k (next k s e)

variable {k : Image} {s u : System} {e : Event} {t : ℕ}

theorem booted_held (h : Booted s) : Held s := by
  have hP : PG_SIZE = 4096 := rfl
  have hl : ∀ p ∈ s.live, p = s.cur := fun p hp => by
    rw [h.live] at hp
    exact List.mem_singleton.mp hp
  constructor
  · intro p hp
    rw [hl p hp]
    exact h.bound
  · intro p hp q hq hpq
    exact absurd ((hl p hp).trans (hl q hq).symm) hpq
  · rw [h.live]
    exact List.mem_singleton.mpr rfl
  · intro p hp
    rw [hl p hp, h.saved]
    exact trivial
  · rw [h.saved]
    exact .nil
  · intro p hp hc
    exact absurd (hl p hp) hc
  · rw [h.pgdir]
    exact fun hp => absurd hp Bool.false_ne_true
  · refine .kernel h.ring h.low ?_
    rw [System.guard, h.saved]
    exact h.high

theorem reachable_held (h : Reachable k s) : Held s := by
  induction h with
  | boot hb => exact booted_held hb
  | step _ he ih => exact next_held ih he

/-- A step of another thread that does not switch to `t` leaves its stack alone. -/
theorem others_kept (h : Held s) (he : Enabled s e) (ht : t ∈ s.live) (hc : s.cur ≠ t)
    (hsch : ∀ ret, e ≠ .schedule t ret) :
    (next k s e).saved t = s.saved t ∧
      ∀ x, Kept s t x → (next k s e).cpu.mem x = s.cpu.mem x := by
  have hct : t ≠ s.cur := Ne.symm hc
  have hpage {m : Memory} (hm : ∀ x, x < s.cur ∨ s.cur + PG_SIZE ≤ x → m x = s.cpu.mem x) :
      ∀ x, Kept s t x → m x = s.cpu.mem x := h.own_page hm t ht hct
  have hfresh {p : ℕ} (hp : Fresh s p) : t ≠ p ∧ ∀ x, Kept s t x → x < p ∨ p + PG_SIZE ≤ x := by
    have hP : PG_SIZE = 4096 := rfl
    have hf := hp.2 t ht
    exact ⟨by omega, fun x hx => h.kept_outside ht hf.symm hx⟩
  cases e with
  | compute c => exact ⟨rfl, fun x hx => he.2.2 t ht x hx⟩
  | interrupt vec handler back =>
    refine ⟨?_, hpage (interrupt_held h he).2.2.1⟩
    rw [next, goOn_saved]
    exact save_other _ _ _ hct
  | call handler back =>
    refine ⟨?_, hpage (call_held h he).2.1⟩
    rw [next, goOn_saved]
    exact save_other _ _ _ hct
  | leave =>
    obtain ⟨_, _, _, _, _, _, hm, _⟩ := leave_held (k := k) h he
    refine ⟨?_, hpage hm⟩
    rw [next, goOn_saved]
    exact restore_other _ hct
  | finish =>
    obtain ⟨_, _, _, _, _, _, hm, _⟩ := finish_held (k := k) h he
    refine ⟨?_, hpage hm⟩
    rw [next, goOn_saved]
    exact restore_other _ hct
  | schedule nxt ret =>
    have hn : t ≠ nxt := fun hn => hsch ret (hn ▸ rfl)
    have hk := parking_waiting h he ht
    obtain ⟨_, _, _, _, _, _, _, ho, hm, _⟩ := schedule_held (k := k) h he
    obtain ⟨-, -, -, hlo, hhi⟩ := he
    have hT : sizeof_task_struct = 276 := rfl
    have hg : s.guard s.cur ≤ s.cur + PG_SIZE := (h.stacked _ h.cur).lowest_le
    refine ⟨(ho t hn).trans (save_other _ _ _ hct), fun x hx => ?_⟩
    have hx' := h.kept_outside ht (h.apart t ht _ h.cur hct) hx
    have hP : PG_SIZE = 4096 := rfl
    rw [hm]
    exact switchedOut_stored s (by omega) (by omega) (by omega)
  | create p function func_arg pgdir =>
    obtain ⟨hp, hx⟩ := hfresh he.2
    exact ⟨Function.update_of_ne hp ..,
      fun x hk => (create_held h he).2.1 x (hx x hk)⟩
  | start function esp =>
    obtain ⟨_, hs, _, hm, _⟩ := start_held (k := k) h he
    exact ⟨congrFun hs t, hpage hm⟩
  | fork p =>
    obtain ⟨hp, hx⟩ := hfresh he.2.1
    obtain ⟨_, _, _, _, hm, _⟩ := fork_held (k := k) h he
    exact ⟨Function.update_of_ne hp .., fun x hk => hm x (hx x hk)⟩
  | execv argv argc entry_point =>
    obtain ⟨_, _, _, _, _, _, hm, _⟩ := execv_held (k := k) h he
    refine ⟨?_, hpage hm⟩
    rw [next, goOn_saved]
    exact restore_other _ hct
  | release p => exact ⟨rfl, fun _ _ => rfl⟩

/-- Runs in which the thread `t` neither runs nor ends. -/
inductive Waits (k : Image) (t : ℕ) : System → System → Prop where
  | refl (s : System) : Waits k t s s
  | step {s u : System} {e : Event} : Waits k t s u → u.cur ≠ t → (next k u e).cur ≠ t →
      Enabled u e → e ≠ .release t → Waits k t s (next k u e)

theorem Waits.kept (hr : Reachable k s) (hw : Waits k t s u) (ht : t ∈ s.live) :
    Reachable k u ∧ t ∈ u.live ∧ u.saved t = s.saved t ∧
      ∀ x, Kept s t x → u.cpu.mem x = s.cpu.mem x := by
  induction hw with
  | refl => exact ⟨hr, ht, rfl, fun _ _ => rfl⟩
  | step _ hc hn he hrel ih =>
    obtain ⟨hru, htu, hsu, hmu⟩ := ih
    obtain ⟨hs, hm⟩ := others_kept (k := k) (reachable_held hru) he htu hc fun ret he' => by
      rw [he'] at hn
      exact hn rfl
    refine ⟨.step hru he, next_live htu hrel, hs.trans hsu, fun x hx => ?_⟩
    refine (hm x ?_).trans (hmu x hx)
    rw [Kept, System.guard, hsu]
    exact hx

/-- A thread that waited is taken from the place and with the registers it was left with,
and the rest of its stack is as it was. -/
theorem waited (hr : Reachable k s) (ht : t ∈ s.live) {a : ℕ} {v : Saved}
    {fs : List (ℕ × Saved)} (hs : s.saved t = (a, v) :: fs) (hw : Waits k t s u)
    (hc : u.cur ≠ t) {ret : ℕ} (he : Enabled u (.schedule t ret)) :
    v.continues a (next k u (.schedule t ret)).cpu ∧
      ∀ x, a ≤ x → x < t + PG_SIZE →
        (next k u (.schedule t ret)).cpu.mem x = s.cpu.mem x := by
  have hP : PG_SIZE = 4096 := rfl
  have hT : sizeof_task_struct = 276 := rfl
  obtain ⟨hru, htu, hsu, hmu⟩ := hw.kept hr ht
  have h := reachable_held hru
  obtain ⟨a', v', fs', hp, -, hcont, -, -, hm, -⟩ := schedule_held (k := k) h he
  have hpark : (u.parking ret).saved t = (a, v) :: fs := by
    rw [System.parking, save_other u _ _ (Ne.symm hc), hsu, hs]
  obtain ⟨hav, -⟩ := List.cons.inj (hp.symm.trans hpark)
  obtain ⟨rfl, rfl⟩ := Prod.mk.inj hav
  obtain ⟨-, -, -, hlo, hhi⟩ := he
  have hg : u.guard u.cur ≤ u.cur + PG_SIZE := (h.stacked _ h.cur).lowest_le
  refine ⟨hcont, fun x hx hl => ?_⟩
  have hks : Kept s t x := by
    rw [Kept, System.guard, hs]
    exact Or.inr ⟨hx, hl⟩
  have hku : Kept u t x := by
    rw [Kept, System.guard, hsu]
    exact hks
  have ho := h.kept_outside htu (h.apart t htu _ h.cur (Ne.symm hc)) hku
  rw [hm, switchedOut_stored u (by omega) (by omega) (by omega)]
  exact hmu x hks

/-- A C function of the kernel returned, or the user program went on: only registers change. -/
theorem compute_registers (hs : s.cpu.seg .cs = 8) {c : Cpu} (hcs : c.seg .cs = 8)
    (hm : c.mem = s.cpu.mem)
    (hesp : s.cur + sizeof_task_struct ≤ c.reg .esp ∧ c.reg .esp ≤ s.guard s.cur) :
    Enabled s (.compute c) :=
  ⟨hcs.trans hs.symm, fun _ => hesp, fun _ _ x _ => congrFun hm x⟩

namespace Sample

def image : Image := ⟨0x1500, 0x1600⟩

def main : ℕ := 0xc009e000

def proc : ℕ := 0xc0100000

def boot : System where
  cpu :=
    { reg := fun r => if r = .esp then main + 4000 else 0
      seg := fun g => if g = .cs then 8 else 0x10
      eip := 0x1700
      eflags := 2
      mem := fun x => if x = main + 4004 then main else if x = main + 4008 then proc else 0 }
  cur := main
  live := [main]
  pgdir := fun _ => false
  esp0 := 0
  saved := fun _ => []

theorem booted : Booted boot := by
  constructor <;> decide

def created : System := next image boot (.create proc proc main true)

theorem created_enabled : Enabled boot (.create proc proc main true) :=
  ⟨by decide, by decide, by decide⟩

theorem schedule_enabled : Enabled created (.schedule proc 0) :=
  ⟨by decide, by decide, ⟨by decide, by decide, by decide, trivial⟩, by decide, by decide⟩

def running : System := next image created (.schedule proc 0)

theorem back_enabled : Enabled running (.schedule main 0) :=
  ⟨by decide, by decide, ⟨by decide, by decide, by decide, trivial⟩, by decide, by decide⟩

def user : System := next image running (.start 0x5000 0xc0000000)

theorem start_enabled : Enabled running (.start 0x5000 0xc0000000) :=
  ⟨by decide, rfl, rfl, by decide⟩

theorem running_reachable : Reachable image running :=
  .step (.step (.boot booted) created_enabled) schedule_enabled

def ticked : System := next image user (.interrupt 0x20 0x1800 0x1900)

theorem tick_enabled : Enabled user (.interrupt 0x20 0x1800 0x1900) :=
  ⟨by decide, by decide, by decide, fun h => absurd (by decide) h⟩

/-- A handler's return: eax holds its result, and the stack is as it was called with. -/
def back (s : System) (sp : ℕ) : Cpu := (s.cpu.set .eax 7).set .esp sp

def handled : System := next image ticked (.compute (back ticked (proc + 4020)))

theorem handled_enabled : Enabled ticked (.compute (back ticked (proc + 4020))) :=
  compute_registers (by decide) rfl rfl (by decide)

theorem leave_enabled : Enabled handled .leave :=
  ⟨by decide, .user (ContextSwitch.interrupted user.cpu 0x20 (user.cur + 4076)), [], by decide,
    by decide⟩

/-- The program sets the arguments of its system call. -/
def calling : System := next image user (.compute ((user.cpu.set .ebx proc).set .ecx 0xc0200000))

theorem calling_enabled :
    Enabled user (.compute ((user.cpu.set .ebx proc).set .ecx 0xc0200000)) :=
  ⟨by rw [set_seg, set_seg], fun h => absurd (by decide) h,
    fun _ _ _ _ => by rw [set_mem, set_mem]⟩

def called : System := next image calling (.call 0x1800 0x1900)

theorem call_enabled : Enabled calling (.call 0x1800 0x1900) := by
  show User calling.cpu
  decide

def answered : System := next image called (.compute (back called (proc + 4008)))

theorem answered_enabled : Enabled called (.compute (back called (proc + 4008))) :=
  compute_registers (by decide +kernel) rfl rfl (by decide +kernel)

theorem finish_enabled : Enabled answered .finish :=
  ⟨by decide +kernel, ContextSwitch.interrupted calling.cpu 0x80 (calling.cur + 4076), [],
    by decide +kernel, by decide +kernel⟩

theorem calling_reachable : Reachable image calling :=
  .step (.step running_reachable start_enabled) calling_enabled

def child : ℕ := 0xc0200000

theorem fork_enabled : Enabled called (.fork child) :=
  ⟨by decide +kernel, ⟨by decide +kernel, by decide +kernel⟩,
    ContextSwitch.interrupted calling.cpu 0x80 (calling.cur + 4076), by decide +kernel,
    by decide +kernel⟩

def forkedSystem : System := next image called (.fork child)

theorem switch_enabled : Enabled forkedSystem (.schedule child 0x1900) :=
  ⟨by decide +kernel, by decide +kernel, ⟨by decide +kernel, by decide +kernel, by decide +kernel,
    trivial⟩, by decide +kernel, by decide +kernel⟩

def childSystem : System := next image forkedSystem (.schedule child 0x1900)

theorem child_enabled : Enabled childSystem .leave :=
  ⟨by decide +kernel, .child { ContextSwitch.interrupted calling.cpu 0x80 (calling.cur + 4076) with
    eax := 0 }, [], by decide +kernel, by decide +kernel⟩

end Sample

/-- However long the thread waits, and whatever the others do, switch_to returns to it with
the registers and the stack it was called with. -/
theorem switched_thread_continues (hr : Reachable k s) {nxt ret ret' : ℕ}
    (he : Enabled s (.schedule nxt ret)) (hn : nxt ≠ s.cur)
    (hw : Waits k s.cur (next k s (.schedule nxt ret)) u) (hc : u.cur ≠ s.cur)
    (hb : Enabled u (.schedule s.cur ret')) :
    Continues (next k u (.schedule s.cur ret')).cpu (s.cpu.reg .ebp) (s.cpu.reg .ebx)
        (s.cpu.reg .edi) (s.cpu.reg .esi) ret (s.esp + 4) ∧
      ∀ x, s.esp + 4 ≤ x → x < s.cur + PG_SIZE →
        (next k u (.schedule s.cur ret')).cpu.mem x = s.cpu.mem x := by
  have hT : sizeof_task_struct = 276 := rfl
  have h := reachable_held hr
  obtain ⟨_, _, _, _, _, _, _, ho, hm, _⟩ := schedule_held (k := k) h he
  have hsv : (next k s (.schedule nxt ret)).saved s.cur = (s.esp - 16, .switched
      (s.cpu.reg .ebp) (s.cpu.reg .ebx) (s.cpu.reg .edi) (s.cpu.reg .esi) ret) ::
        s.saved s.cur := (ho _ (Ne.symm hn)).trans (save_self ..)
  obtain ⟨hcont, hmem⟩ := waited (.step hr he) h.cur hsv hw hc hb
  obtain ⟨-, -, -, hlo, -⟩ := he
  rw [Saved.continues, show s.esp - 16 + 20 = s.esp + 4 by omega] at hcont
  refine ⟨hcont, fun x hx hl => ?_⟩
  rw [hmem x (by omega) hl, hm]
  exact switchedOut_stored s (by omega) (by omega) (by omega)

open Sample in
theorem switched_thread_continues_main :
    Continues (next image running (.schedule main 0)).cpu 0 0 0 0 0 (main + 4004) :=
  (switched_thread_continues (.step (.boot booted) created_enabled) schedule_enabled
    (by decide +kernel) (.refl _) (by decide +kernel) back_enabled).1

/-- kernel_thread finds its two arguments above the return address it never uses. -/
theorem new_thread_starts (hr : Reachable k s) {p function func_arg ret : ℕ} {pgdir : Bool}
    (he : Enabled s (.create p function func_arg pgdir))
    (hw : Waits k p (next k s (.create p function func_arg pgdir)) u) (hc : u.cur ≠ p)
    (hb : Enabled u (.schedule p ret)) :
    Continues (next k u (.schedule p ret)).cpu 0 0 0 0 k.kernel_thread (p + 3684) ∧
      (next k u (.schedule p ret)).cpu.mem (p + 3684 + 4) = function ∧
      (next k u (.schedule p ret)).cpu.mem (p + 3684 + 8) = func_arg := by
  have hP : PG_SIZE = 4096 := rfl
  have h := reachable_held hr
  obtain ⟨hsv, -, hh⟩ := create_held (k := k) h he
  have hlive : p ∈ (next k s (.create p function func_arg pgdir)).live := List.mem_cons_self
  obtain ⟨hcont, hmem⟩ := waited (.step hr he) hlive hsv hw hc hb
  have hstk := hh.stacked p hlive
  rw [hsv] at hstk
  obtain ⟨-, -, hf, -⟩ := hstk
  have w {i : ℕ} (hi : i < 8) := hf.word (i := i) hi
  refine ⟨hcont, ?_, ?_⟩
  · rw [hmem _ (by omega) (by omega)]
    exact w (i := 6) (by omega)
  · rw [hmem _ (by omega) (by omega)]
    exact w (i := 7) (by omega)

open Sample in
theorem new_thread_starts_proc :
    Continues (next image created (.schedule proc 0)).cpu 0 0 0 0 0x1500 (proc + 3684) :=
  (new_thread_starts (.boot booted) created_enabled (.refl _) (by decide +kernel)
    schedule_enabled).1

/-- The thread `t` has a program waiting on its stack, `v` at address `a`, perhaps under
others that were interrupted later. -/
def Pending (t a : ℕ) (v : Saved) (s : System) : Prop :=
  ∃ gs, s.saved t = gs ++ [(a, v)]

theorem Pending.push {a b : ℕ} {v w : Saved} {s' : System} (h : Pending t a v s)
    (hs : s'.saved t = (b, w) :: s.saved t) : Pending t a v s' := by
  obtain ⟨gs, hg⟩ := h
  exact ⟨(b, w) :: gs, by rw [hs, hg, List.cons_append]⟩

theorem Pending.keep {a : ℕ} {v : Saved} {s' : System} (h : Pending t a v s)
    (hs : s'.saved t = s.saved t) : Pending t a v s' := by
  obtain ⟨gs, hg⟩ := h
  exact ⟨gs, hs.trans hg⟩

/-- What is taken off the stack is either the program itself or something above it. -/
theorem Pending.pop {a b : ℕ} {v w : Saved} {fs : List (ℕ × Saved)} {s' : System}
    (h : Pending t a v s) (hs : s.saved t = (b, w) :: fs) (hs' : s'.saved t = fs) :
    Pending t a v s' ∨ b = a ∧ w = v ∧ fs = [] := by
  obtain ⟨gs, hg⟩ := h
  rw [hs] at hg
  cases gs with
  | nil =>
    obtain ⟨hbw, hfs⟩ := List.cons.inj hg
    obtain ⟨hb, hw⟩ := Prod.mk.inj hbw
    exact Or.inr ⟨hb, hw, hfs⟩
  | cons g gs => exact Or.inl ⟨gs, hs'.trans (List.cons.inj hg).2⟩

theorem Pending.ne_nil {a : ℕ} {v : Saved} (h : Pending t a v s) : s.saved t ≠ [] := by
  obtain ⟨gs, hg⟩ := h
  rw [hg]
  exact List.append_ne_nil_of_right_ne_nil _ (List.cons_ne_nil _ _)

/-- The steps of `t` itself that take its last frame: it ends an interrupt handler or a
system call, or enters a new image. -/
inductive Takes (a : ℕ) (v : Saved) (s : System) : Event → Prop where
  | leave : s.saved s.cur = [(a, v)] → s.esp = a → v.leaves = true → Takes a v s .leave
  | finish {f : intr_stack} : s.saved s.cur = [(a, v)] → v = .user f → f.vec_no = 0x80 →
      Takes a v s .finish
  | execv {f : intr_stack} {argv argc entry_point : ℕ} : s.saved s.cur = [(a, v)] →
      v = .user f → f.vec_no = 0x80 → Takes a v s (.execv argv argc entry_point)

theorem pending_step (h : Held s) (he : Enabled s e) (ht : t ∈ s.live) {a : ℕ} {v : Saved}
    (hv : v.parked = false) (hp : Pending t a v s) :
    Pending t a v (next k s e) ∨ s.cur = t ∧ Takes a v s e := by
  by_cases hc : s.cur = t
  · subst hc
    cases e with
    | compute c => exact Or.inl (hp.keep rfl)
    | interrupt vec handler back =>
      by_cases hu : User s.cpu
      · exact absurd (h.empty hu).1 hp.ne_nil
      · obtain ⟨f, hs⟩ := (interrupt_held (k := k) h he).2.1 hu
        exact Or.inl (hp.push hs)
    | call handler back => exact absurd (h.empty he).1 hp.ne_nil
    | leave =>
      obtain ⟨w, fs, hs, hl, hn, -, -, -⟩ := leave_held (k := k) h he
      rcases hp.pop hs hn with hk | ⟨ha, rfl, hfs⟩
      · exact Or.inl hk
      · exact Or.inr ⟨rfl, .leave (by rw [hs, ha, hfs]) ha hl⟩
    | finish =>
      obtain ⟨f, hvec, hs, hn, -, -, -, -⟩ := finish_held (k := k) h he
      rcases hp.pop hs hn with hk | ⟨ha, hw, -⟩
      · exact Or.inl hk
      · exact Or.inr ⟨rfl, .finish (by rw [hs, ha, hw]) hw.symm hvec⟩
    | schedule nxt ret =>
      obtain ⟨b, w, fs, hs, hw, -, hn, ho, -, -⟩ := schedule_held (k := k) h he
      by_cases hnc : s.cur = nxt
      · subst hnc
        have hpark : (s.parking ret).saved s.cur = _ := save_self ..
        rw [hpark] at hs
        exact Or.inl (hp.keep (hn.trans (List.cons.inj hs).2.symm))
      · exact Or.inl (hp.push ((ho _ hnc).trans (save_self ..)))
    | create p function func_arg pgdir =>
      have hne : s.cur ≠ p := fun hcp => by
        have hP : PG_SIZE = 4096 := rfl
        have := he.2.2 _ h.cur
        omega
      exact Or.inl (hp.keep (Function.update_of_ne hne ..))
    | start function esp => exact absurd he.2.1 hp.ne_nil
    | fork p =>
      have hne : s.cur ≠ p := fun hcp => by
        have hP : PG_SIZE = 4096 := rfl
        have := he.2.1.2 _ h.cur
        omega
      exact Or.inl (hp.keep (Function.update_of_ne hne ..))
    | execv argv argc entry_point =>
      obtain ⟨f, hvec, hs, hn, -, -, -, -⟩ := execv_held (k := k) h he
      rcases hp.pop hs hn with hk | ⟨ha, hw, -⟩
      · exact Or.inl hk
      · exact Or.inr ⟨rfl, .execv (by rw [hs, ha, hw]) hw.symm hvec⟩
    | release p => exact Or.inl (hp.keep rfl)
  · left
    by_cases hsch : ∃ ret, e = .schedule t ret
    · obtain ⟨ret, rfl⟩ := hsch
      obtain ⟨b, w, fs, hs, hw, -, hn, -, -, -⟩ := schedule_held (k := k) h he
      have hpark : (s.parking ret).saved t = s.saved t := save_other _ _ _ (Ne.symm hc)
      rcases hp.pop (hpark.symm.trans hs) hn with hk | ⟨-, rfl, -⟩
      · exact hk
      · rw [hv] at hw
        exact absurd hw Bool.false_ne_true
    · have hsch' : ∀ ret, e ≠ .schedule t ret := fun ret he' => hsch ⟨ret, he'⟩
      exact hp.keep (others_kept (k := k) h he ht hc hsch').1

/-- Runs in which `t` does not end and is not in user mode, whatever else it does. -/
inductive Busy (k : Image) (t : ℕ) : System → System → Prop where
  | refl (s : System) : Busy k t s s
  | step {s u : System} {e : Event} : Busy k t s u → Enabled u e → e ≠ .release t →
      ¬ ((next k u e).cur = t ∧ User (next k u e).cpu) → Busy k t s (next k u e)

theorem Takes.user (h : Held s) (he : Enabled s e) {a : ℕ} {v : Saved} (ht : Takes a v s e)
    (hv : ∃ f, v = .user f ∨ v = .child f) :
    (next k s e).cur = s.cur ∧ User (next k s e).cpu := by
  cases ht with
  | leave hs ha hl =>
    obtain ⟨f, hf⟩ := hv
    have hs' : s.saved s.cur = [(s.esp, v)] := by rw [hs, ha]
    refine ⟨?_, (leave_user_frame (k := k) h he.1 hs' hf).2.1⟩
    rw [next, goOn_cur, restore_cur]
  | finish =>
    obtain ⟨_, _, _, _, _, hu, _⟩ := finish_held (k := k) h he
    refine ⟨?_, hu⟩
    rw [next, goOn_cur, restore_cur]
  | execv =>
    obtain ⟨_, _, _, _, _, hu, _⟩ := execv_held (k := k) h he
    refine ⟨?_, hu⟩
    rw [next, goOn_cur, restore_cur]

/-- The user program of a thread stays on its stack as long as the thread is busy. -/
theorem Busy.pending (hr : Reachable k s) (hb : Busy k t s u) (ht : t ∈ s.live) {a : ℕ}
    {v : Saved} (hv : ∃ f, v = .user f ∨ v = .child f) (hp : Pending t a v s) :
    Reachable k u ∧ t ∈ u.live ∧ Pending t a v u := by
  have hpark : v.parked = false := by
    obtain ⟨f, rfl | rfl⟩ := hv <;> rfl
  induction hb with
  | refl => exact ⟨hr, ht, hp⟩
  | step _ he hrel hn ih =>
    obtain ⟨hru, htu, hpu⟩ := ih
    have h := reachable_held hru
    refine ⟨.step hru he, next_live htu hrel, ?_⟩
    rcases pending_step (k := k) h he htu hpark hpu with hk | ⟨hc, htakes⟩
    · exact hk
    · obtain ⟨hcur, hu⟩ := htakes.user (k := k) h he hv
      exact absurd ⟨hcur.trans hc, hu⟩ hn

/-- The step that brings the thread back to user mode takes its last frame. -/
theorem Busy.takes (hr : Reachable k s) (hb : Busy k t s u) (ht : t ∈ s.live) {a : ℕ}
    {v : Saved} (hv : ∃ f, v = .user f ∨ v = .child f) (hp : Pending t a v s)
    (he : Enabled u e) (hc : (next k u e).cur = t)
    (hu : User (next k u e).cpu) : u.cur = t ∧ Takes a v u e ∧ Held u := by
  obtain ⟨hru, htu, hpu⟩ := hb.pending hr ht hv hp
  have h := reachable_held hru
  have hpark : v.parked = false := by
    obtain ⟨f, rfl | rfl⟩ := hv <;> rfl
  rcases pending_step (k := k) h he htu hpark hpu with hk | ⟨hcu, htakes⟩
  · have hn := (next_held (k := k) h he).empty hu
    rw [hc] at hn
    exact absurd hn.1 hk.ne_nil
  · exact ⟨hcu, htakes, h⟩

/-- The registers a new image is entered with: its arguments, its entry point and an empty
stack below the kernel. -/
def entering (c : Cpu) (argv argc entry_point : ℕ) : Cpu :=
  (((c.set .ebx argv).set .ecx argc).set .esp 0xc0000000).jump entry_point

/-- All registers of the two are the same but eax, in which they may differ. -/
structure SameBut (eax : ℕ) (c d : Cpu) : Prop where
  eax : d.reg .eax = eax
  reg : ∀ r, r ≠ .eax → d.reg r = c.reg r
  seg : d.seg = c.seg
  eip : d.eip = c.eip
  eflags : d.eflags = c.eflags

theorem resumed_same {c d : Cpu} {vec sp w : ℕ}
    (h : Resumed { ContextSwitch.interrupted c vec sp with eax := w } d) : SameBut w c d := by
  obtain ⟨⟨hedi, hesi, hebp, hebx, hedx, hecx, heax⟩, ⟨hgs, hfs, hes, hds⟩,
    ⟨heip, hcs, hfl⟩, hesp, hss⟩ := h
  refine ⟨heax, fun r hr => ?_, funext fun g => ?_, heip, hfl⟩
  · cases r with
    | eax => exact absurd rfl hr
    | ecx => exact hecx
    | edx => exact hedx
    | ebx => exact hebx
    | esp => exact hesp
    | ebp => exact hebp
    | esi => exact hesi
    | edi => exact hedi
  · cases g with
    | cs => exact hcs
    | ss => exact hss
    | ds => exact hds
    | es => exact hes
    | fs => exact hfs
    | gs => exact hgs

/-- A user program does not notice that it was interrupted: the next time its process is in
user mode, every register is as it was, however many threads ran in between. -/
theorem interrupted_program_resumes (hr : Reachable k s) (hu : User s.cpu)
    {vec handler back : ℕ} (hi : Enabled s (.interrupt vec handler back))
    (hb : Busy k s.cur (next k s (.interrupt vec handler back)) u) (he : Enabled u e)
    (hc : (next k u e).cur = s.cur) (hw : User (next k u e).cpu) :
    (next k u e).cpu.reg = s.cpu.reg ∧ (next k u e).cpu.seg = s.cpu.seg ∧
      (next k u e).cpu.eip = s.cpu.eip ∧ (next k u e).cpu.eflags = s.cpu.eflags := by
  have h := reachable_held hr
  have hsv := (interrupt_held (k := k) h hi).1 hu
  have hlt := hi.2.1
  obtain ⟨hcu, htakes, hh⟩ := hb.takes (.step hr hi) (next_live h.cur (by simp)) ⟨_, .inl rfl⟩
    ⟨[], hsv⟩ he hc hw
  have hvec : ∀ f, (Saved.user (ContextSwitch.interrupted s.cpu vec (s.cur + 4076))) = .user f →
      f.vec_no ≠ 0x80 := fun f hf => by
    rw [← Saved.user.inj hf]
    show vec ≠ 0x80
    omega
  cases htakes with
  | leave hs ha hl =>
    have hs' : u.saved u.cur = [(u.esp, _)] := hs.trans (by rw [ha])
    have hres := (leave_user_frame (k := k) hh he.1 hs' (.inl rfl)).1
    have hsame := resumed_same (w := s.cpu.reg .eax) hres
    refine ⟨funext fun r => ?_, hsame.seg, hsame.eip, hsame.eflags⟩
    by_cases hr : r = .eax
    · rw [hr]
      exact hsame.eax
    · exact hsame.reg r hr
  | finish _ hf h80 => exact absurd h80 (hvec _ hf)
  | execv _ hf h80 => exact absurd h80 (hvec _ hf)

open Sample in
theorem interrupted_program_resumes_tick :
    (next image handled .leave).cpu.reg = user.cpu.reg :=
  (interrupted_program_resumes (.step running_reachable start_enabled) (by decide +kernel)
    tick_enabled (.step (.refl _) handled_enabled (by simp) (by decide +kernel)) leave_enabled
    (by decide +kernel) (by decide +kernel)).1

/-- A system call changes eax alone, to the value its handler returned, unless it enters the
image of another program. -/
theorem system_call_returns (hr : Reachable k s) {handler back : ℕ}
    (hi : Enabled s (.call handler back))
    (hb : Busy k s.cur (next k s (.call handler back)) u) (he : Enabled u e)
    (hc : (next k u e).cur = s.cur) (hw : User (next k u e).cpu) :
    (e = .finish ∧ SameBut (u.cpu.reg .eax) s.cpu (next k u e).cpu) ∨
      ∃ argv argc entry_point, e = .execv argv argc entry_point ∧
        SameBut (s.cpu.reg .eax) (entering s.cpu argv argc entry_point) (next k u e).cpu := by
  have h := reachable_held hr
  have hsv := (call_held (k := k) h hi).1
  obtain ⟨hcu, htakes, hh⟩ := hb.takes (.step hr hi) (next_live h.cur (by simp)) ⟨_, .inl rfl⟩
    ⟨[], hsv⟩ he hc hw
  cases htakes with
  | leave hs ha hl => exact absurd hl Bool.false_ne_true
  | finish hs hf h80 =>
    obtain ⟨f, -, hs', -, hres, -⟩ := finish_held (k := k) hh he
    have heq := Saved.user.inj (Prod.mk.inj (List.cons.inj (hs'.symm.trans hs)).1).2
    rw [heq] at hres
    exact Or.inl ⟨rfl, resumed_same hres⟩
  | @execv f argv argc entry_point hs hf h80 =>
    obtain ⟨f, -, hs', -, hres, -⟩ := execv_held (k := k) hh he
    have heq := Saved.user.inj (Prod.mk.inj (List.cons.inj (hs'.symm.trans hs)).1).2
    have himage : { ContextSwitch.interrupted s.cpu 0x80 (s.cur + 4076) with
        ebx := argv, ecx := argc, eip := entry_point, esp := 0xc0000000 } =
        { ContextSwitch.interrupted (entering s.cpu argv argc entry_point) 0x80
          (s.cur + 4076) with eax := s.cpu.reg .eax } := by
      simp [ContextSwitch.interrupted, entering]
    rw [heq, himage] at hres
    exact Or.inr ⟨argv, argc, entry_point, rfl, resumed_same hres⟩

open Sample in
theorem system_call_returns_seven :
    (Event.finish = .finish ∧ SameBut 7 calling.cpu (next image answered .finish).cpu) ∨
      ∃ argv argc entry_point, Event.finish = .execv argv argc entry_point ∧
        SameBut (calling.cpu.reg .eax) (entering calling.cpu argv argc entry_point)
          (next image answered .finish).cpu :=
  system_call_returns calling_reachable call_enabled
    (.step (.refl _) answered_enabled (by simp) (by decide +kernel)) finish_enabled
    (by decide +kernel) (by decide +kernel)

/-- A forked child first goes on where its parent made the system call, with the parent's
registers and 0 for the result. -/
theorem forked_child_resumes (hr : Reachable k s) {handler back p : ℕ}
    (hi : Enabled s (.call handler back))
    (hb : Busy k s.cur (next k s (.call handler back)) u) (hcu : u.cur = s.cur)
    (hf : Enabled u (.fork p)) {w : System} (hb' : Busy k p (next k u (.fork p)) w)
    (he : Enabled w e) (hc : (next k w e).cur = p) (hw : User (next k w e).cpu) :
    SameBut 0 s.cpu (next k w e).cpu := by
  have h := reachable_held hr
  have hsv := (call_held (k := k) h hi).1
  obtain ⟨hru, -, hpu⟩ := hb.pending (.step hr hi) (next_live h.cur (by simp)) ⟨_, .inl rfl⟩
    ⟨[], hsv⟩
  obtain ⟨f, hs, -, hsp, -, -⟩ := fork_held (k := k) (reachable_held hru) hf
  rw [hcu] at hs
  have heq : f = ContextSwitch.interrupted s.cpu 0x80 (s.cur + 4076) := by
    obtain ⟨gs, hg⟩ := hpu
    rw [hs] at hg
    cases gs with
    | nil => exact Saved.user.inj (Prod.mk.inj (List.cons.inj hg).1).2
    | cons g gs => exact absurd (List.cons.inj hg).2 (by simp)
  obtain ⟨-, htakes, hh⟩ := hb'.takes (.step hru hf) List.mem_cons_self ⟨_, .inr rfl⟩
    ⟨[(p + 4000, .switched 0 0 0 0 k.intr_exit)], hsp⟩ he hc hw
  cases htakes with
  | leave hs' ha hl =>
    have hs'' : w.saved w.cur = [(w.esp, _)] := hs'.trans (by rw [ha])
    have hres := (leave_user_frame (k := k) hh he.1 hs'' (.inr rfl)).1
    rw [heq] at hres
    exact resumed_same hres
  | finish _ hf' => cases hf'
  | execv _ hf' => cases hf'

open Sample in
theorem forked_child_resumes_sample :
    SameBut 0 calling.cpu (next image childSystem .leave).cpu :=
  forked_child_resumes calling_reachable call_enabled (.refl _) (by decide +kernel)
    fork_enabled (.step (.refl _) switch_enabled (by simp) (by decide +kernel)) child_enabled
    (by decide +kernel) (by decide +kernel)

end KernelStacks
