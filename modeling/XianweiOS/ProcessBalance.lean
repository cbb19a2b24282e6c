import XianweiOS.ProcessMemory

/-! What is left of a child process when its parent has waited for it. The bitmap of its virtual
addresses fills 23 pages, of which `release_prog_resource` gives back 22. -/
namespace ProcessBalance

open ByteStore HaltingProgram KernelBitmap MemoryPages MemoryHeap ProcessMemory

/-- Ways for a running process to obtain and give back memory of its own. -/
inductive ChildCall where
  | malloc (size : ℕ)
  | free (ptr : ℕ)
  | page (v : ℕ)
  deriving DecidableEq, Repr

def childStep (mc : Machine) (child : ℕ) : ChildCall → Kernel → Option Kernel
  | .malloc size, k => do
    let (h, _) ← sysMalloc mc k.heap (some child) size
    return k.setHeap h
  | .free ptr, k => do
    let h ← sysFree mc k.heap (some child) ptr
    return k.setHeap h
  | .page v, k => do
    let m ← getAPage mc k.heap.memory (some child) v
    return k.setHeap (k.heap.setMemory m)

structure Restored (k k' : Kernel) : Prop where
  kernelPool : k'.heap.memory.pool .kernel = k.heap.memory.pool .kernel
  userPool : k'.heap.memory.pool .user = k.heap.memory.pool .user
  kernelVaddr : (k'.heap.memory.space none).vaddr = (k.heap.memory.space none).vaddr
  pids : k'.pidBits = k.pidBits

section Vaddr

variable {mc : Machine} {m m' : Memory} {h h' : Heap} {p v n size : ℕ}

theorem takeBlock_memory {i : ℕ} {c : Ctx} {r : Option ℕ} (ht : takeBlock h c i = some (h', r)) :
    h'.memory = h.memory := by
  unfold takeBlock at ht
  split at ht
  · cases ht
  · simp only [Option.some.injEq, Prod.mk.injEq] at ht
    exact ht.1 ▸ rfl

theorem newArena_kernelVaddr {i : ℕ} {ok : Bool} (hn : newArena mc h (some p) i = some (h', ok)) :
    (h'.memory.space none).vaddr = (h.memory.space none).vaddr := by
  simp only [newArena, bind_some_iff] at hn
  obtain ⟨⟨m, r⟩, hm, hn⟩ := hn
  rw [← mallocPage_vaddr hm (Option.some_ne_none p).symm]
  cases r with
  | none =>
    simp only [Option.pure_def, Option.some.injEq, Prod.mk.injEq] at hn
    exact hn.1 ▸ rfl
  | some a =>
    simp only [bind_some_iff, Option.pure_def, Option.some.injEq, Prod.mk.injEq] at hn
    obtain ⟨l, -, rfl, -⟩ := hn
    rfl

theorem sysMalloc_kernelVaddr {r : Option ℕ} (hm : sysMalloc mc h (some p) size = some (h', r)) :
    (h'.memory.space none).vaddr = (h.memory.space none).vaddr := by
  unfold sysMalloc at hm
  split at hm
  · split at hm
    · simp only [mallocLarge, bind_some_iff] at hm
      obtain ⟨⟨m, r'⟩, hp, hm⟩ := hm
      rw [← mallocPage_vaddr hp (Option.some_ne_none p).symm]
      cases r' with
      | none =>
        simp only [Option.pure_def, Option.some.injEq, Prod.mk.injEq] at hm
        exact hm.1 ▸ rfl
      | some a =>
        simp only [Option.pure_def, Option.some.injEq, Prod.mk.injEq] at hm
        exact hm.1 ▸ rfl
    · simp only [mallocSmall] at hm
      split at hm
      · simp only [bind_some_iff] at hm
        obtain ⟨⟨h₁, ok⟩, hn, hm⟩ := hm
        rw [← newArena_kernelVaddr hn]
        cases ok with
        | false =>
          simp only [Bool.false_eq_true, if_false, Option.pure_def, Option.some.injEq,
            Prod.mk.injEq] at hm
          exact hm.1 ▸ rfl
        | true =>
          simp only [if_true] at hm
          rw [takeBlock_memory hm]
      · rw [takeBlock_memory hm]
  · simp only [Option.some.injEq, Prod.mk.injEq] at hm
    exact hm.1 ▸ rfl

theorem sysFree_kernelVaddr (hf : sysFree mc h (some p) v = some h') :
    (h'.memory.space none).vaddr = (h.memory.space none).vaddr := by
  simp only [sysFree, bind_some_iff, assert_eq_some] at hf
  obtain ⟨_, -, hf⟩ := hf
  split at hf
  · rename_i o i large hdesc
    simp only [freeSmall] at hf
    split at hf
    · simp only [bind_some_iff, Option.pure_def, Option.some.injEq] at hf
      obtain ⟨l, -, m, hm, rfl⟩ := hf
      exact mfreePage_vaddr hm (Option.some_ne_none p).symm
    · exact Option.some.inj hf ▸ rfl
  · simp only [bind_some_iff, Option.pure_def, Option.some.injEq] at hf
    obtain ⟨m, hm, rfl⟩ := hf
    exact mfreePage_vaddr hm (Option.some_ne_none p).symm
  · cases hf

end Vaddr

section Leak

variable {mc : Machine} {k k₁ k₂ k₃ k₄ : Kernel} {parent child : ℕ} {calls : List ChildCall}

theorem childStep_kept {call : ChildCall} (hs : childStep mc child call k = some k₁) :
    (k₁.heap.memory.space none).vaddr = (k.heap.memory.space none).vaddr ∧ k₁.proc = k.proc := by
  cases call with
  | malloc size =>
    simp only [childStep, bind_some_iff, Option.pure_def, Option.some.injEq] at hs
    obtain ⟨⟨h, r⟩, hm, rfl⟩ := hs
    exact ⟨sysMalloc_kernelVaddr hm, rfl⟩
  | free ptr =>
    simp only [childStep, bind_some_iff, Option.pure_def, Option.some.injEq] at hs
    obtain ⟨h, hf, rfl⟩ := hs
    exact ⟨sysFree_kernelVaddr hf, rfl⟩
  | page v =>
    simp only [childStep, bind_some_iff, Option.pure_def, Option.some.injEq] at hs
    obtain ⟨m, hg, rfl⟩ := hs
    exact ⟨(getAPage_vaddr hg).trans (if_neg (Option.some_ne_none child).symm), rfl⟩

theorem childRun_kept (hr : runAll (childStep mc child) calls k = some k₁) :
    (k₁.heap.memory.space none).vaddr = (k.heap.memory.space none).vaddr ∧ k₁.proc = k.proc := by
  refine runAll_invariant_mem (fun k₁ => (k₁.heap.memory.space none).vaddr =
    (k.heap.memory.space none).vaddr ∧ k₁.proc = k.proc) ?_ ⟨rfl, rfl⟩ hr
  rintro call - k k' ⟨hv, hp⟩ hs
  obtain ⟨hv', hp'⟩ := childStep_kept hs
  exact ⟨hv'.trans hv, hp'.trans hp⟩

/-- The last page of the child's bitmap, which only the fork touches. -/
structure Leaked (mc : Machine) (k k₁ : Kernel) (child w : ℕ) : Prop where
  start : vaddrStart none ≤ w
  before : ¬Reserved mc k.heap.memory none w
  after : Reserved mc k₁.heap.memory none w
  proc : ∃ r, k₁.proc child = some r ∧ w = r.bitmap + userBtmpLen / pgSize ∧
    vaddrStart none ≤ r.bitmap ∧ vaddrStart none ≤ r.pgdir ∧ vaddrStart none ≤ r.pcb ∧
    w ≠ r.pgdir ∧ w ≠ r.pcb

theorem fork_leaked (hf : sysFork mc k parent = some (k₁, some child)) :
    ∃ w, Leaked mc k k₁ child w := by
  obtain ⟨k₄, ⟨pcb, buf, bitmap, pgdir, pid⟩, h₅, -, hp, hcopied, rfl, rfl⟩ := sysFork_some hf
  obtain ⟨h₁, h₂, h₃, ht⟩ := forkPages_some hp
  have g₁ := getKernelPages_memory ht.gotPcb
  have g₂ := getKernelPages_memory ht.gotBuf
  have g₃ := getKernelPages_memory ht.gotBitmap
  have g₄ := getKernelPages_memory ht.gotPgdir
  set w := bitmap + userBtmpLen / pgSize with hw
  have hmem : w ∈ span bitmap bitmapPgCnt := by
    have hlt : userBtmpLen / pgSize < bitmapPgCnt := by decide
    exact ⟨Nat.le_add_right _ _, Nat.add_lt_add_left hlt _⟩
  have hstart : vaddrStart none ≤ w := le_trans g₃.start hmem.1
  have hone : ∀ a : ℕ, a ∈ span a 1 := fun a => by simp
  -- what is reserved on the way stays reserved until it is freed
  have r₁ : Reserved mc h₁.memory none pcb :=
    (g₁.reserved none pcb g₁.start).mpr (.inl ⟨rfl, hone pcb⟩)
  have r₂ : Reserved mc h₂.memory none pcb := (g₂.reserved none pcb g₁.start).mpr (.inr r₁)
  have r₂' : Reserved mc h₂.memory none buf :=
    (g₂.reserved none buf g₂.start).mpr (.inl ⟨rfl, hone buf⟩)
  have r₃ : Reserved mc h₃.memory none w := (g₃.reserved none w hstart).mpr (.inl ⟨rfl, hmem⟩)
  have r₄ : Reserved mc k₄.heap.memory none w := (g₄.reserved none w hstart).mpr (.inr r₃)
  have hnew : ¬Reserved mc h₂.memory none w := g₃.free w hmem
  obtain ⟨h₆, m, hcopy, hfree, rfl⟩ := copyProcess_some hcopied
  have hlost := mfreePage_lost hfree g₂.start (.inl rfl)
  have hv := copyBodyStack3_vaddr hcopy none
  have r₆ : Reserved mc h₆.memory none w := by
    refine (reserved_congr ?_).mpr r₄
    rw [hv]
    rfl
  refine ⟨w, hstart, fun hres => ?_, ?_, ?_⟩
  · exact hnew ((g₂.reserved none w hstart).mpr
      (.inr ((g₁.reserved none w hstart).mpr (.inr hres))))
  · refine (hlost.reserved none w hstart).mpr ⟨?_, r₆⟩
    rintro ⟨-, hin⟩
    have hwb : w = buf := Nat.le_antisymm (Nat.lt_succ_iff.mp hin.2) hin.1
    exact hnew (hwb ▸ r₂')
  · refine ⟨_, Function.update_self .., hw, g₃.start, g₄.start, g₁.start, ?_, ?_⟩
    · rintro he
      exact g₄.free w (he ▸ hone w) r₃
    · rintro he
      exact hnew (he ▸ r₂)

theorem Leaked.childRun {w : ℕ} (hl : Leaked mc k k₁ child w)
    (hr : runAll (childStep mc child) calls k₁ = some k₂) : Leaked mc k k₂ child w := by
  obtain ⟨hv, hp⟩ := childRun_kept hr
  exact ⟨hl.start, hl.before, (reserved_congr hv).mpr hl.after, by rw [hp]; exact hl.proc⟩

theorem Leaked.exit {w : ℕ} (hl : Leaked mc k k₂ child w) (he : sysExit mc k₂ child = some k₃) :
    Leaked mc k k₃ child w := by
  simp only [sysExit, bind_some_iff, assert_eq_some, Option.pure_def, Option.some.injEq] at he
  obtain ⟨r, hr, _, -, m, hm, rfl⟩ := he
  obtain ⟨r', hr', hw, hb, hd, hc, hne, hne'⟩ := hl.proc
  obtain rfl : r = r' := Option.some.inj (hr.symm.trans hr')
  have hlost := mfreePage_lost hm hb (.inl rfl)
  refine ⟨hl.start, hl.before, (hlost.reserved none w hl.start).mpr ⟨?_, ?_⟩, ?_⟩
  · rintro ⟨-, hin⟩
    rw [mem_span] at hin
    omega
  · refine (reserved_congr ?_).mpr hl.after
    rw [freeTables_space]
  · exact ⟨_, Function.update_self .., hw, hb, hd, hc, hne, hne'⟩

theorem Leaked.wait {w : ℕ} (hl : Leaked mc k k₃ child w)
    (hw : sysWait mc k₃ parent child = some k₄) : Reserved mc k₄.heap.memory none w := by
  simp only [sysWait, threadExit, bind_some_iff, assert_eq_some, Option.pure_def,
    Option.some.injEq] at hw
  obtain ⟨r, hr, _, -, m₁, h₁, m₂, h₂, rfl⟩ := hw
  obtain ⟨r', hr', -, -, hd, hc, hne, hne'⟩ := hl.proc
  obtain rfl : r = r' := Option.some.inj (hr.symm.trans hr')
  have hone : ∀ a : ℕ, w ∈ span a 1 → w = a := by
    intro a ha
    rw [mem_span] at ha
    omega
  have l₁ := mfreePage_lost h₁ hd (.inl rfl)
  have l₂ := mfreePage_lost h₂ hc (.inl rfl)
  refine (l₂.reserved none w hl.start).mpr ⟨fun hin => hne' (hone _ hin.2), ?_⟩
  exact (l₁.reserved none w hl.start).mpr ⟨fun hin => hne (hone _ hin.2), hl.after⟩

/-- A child that has come and gone leaves a kernel page reserved. -/
theorem fork_exit_wait_leaks (hf : sysFork mc k parent = some (k₁, some child))
    (hr : runAll (childStep mc child) calls k₁ = some k₂) (he : sysExit mc k₂ child = some k₃)
    (hw : sysWait mc k₃ parent child = some k₄) : ¬Restored k k₄ := by
  intro hres
  obtain ⟨w, hl⟩ := fork_leaked hf
  exact hl.before ((reserved_congr hres.kernelVaddr).mp (((hl.childRun hr).exit he).wait hw))

end Leak

section Stack

variable {k : Kernel}

/-- The first process forks, the child allocates a little and exits, the parent waits for it. The
copy is cut short. -/
def stackRun : Option (Kernel × Kernel) := do
  let (k, p) ← firstProcess
  assert (∃ r ∈ k.proc p, r.hanging = false)
  let (k₀, q) ← forkPages smallMachine k
  let q ← q
  assert (q.pid ≠ p)
  let h ← copyEnds k₀.heap p q.pid q.buf
  let k₁ := (k₀.setHeap h).setProc q.pid (some ⟨q.pcb, q.pgdir, q.bitmap, p, false⟩)
  let k₂ ← runAll (childStep smallMachine q.pid) [.malloc 100] k₁
  let k₃ ← sysExit smallMachine k₂ q.pid
  let k₄ ← sysWait smallMachine k₃ p q.pid
  return (k, k₄)

/-- A completed run of the four calls. -/
structure Completed (k : Kernel) (p : ℕ) (k₁ : Kernel) (q : ℕ) (k₂ k₃ k₄ : Kernel) : Prop where
  first : firstProcess = some (k, p)
  forked : sysFork smallMachine k p = some (k₁, some q)
  used : runAll (childStep smallMachine q) [.malloc 100] k₁ = some k₂
  exited : sysExit smallMachine k₂ q = some k₃
  waited : sysWait smallMachine k₃ p q = some k₄

theorem stackRun_completed {k₄ : Kernel} (hs : stackRun = some (k, k₄)) :
    ∃ p k₁ q k₂ k₃, Completed k p k₁ q k₂ k₃ k₄ := by
  simp only [stackRun, bind_some_iff, assert_eq_some, Option.pure_def, Option.some.injEq] at hs
  obtain ⟨⟨k', p⟩, hfirst, _, hrun, ⟨k₀, r⟩, hpages, q, rfl, _, hne, h, hcopy, k₂, hused, k₃, hexit,
    k₄', hwait, hk⟩ := hs
  obtain ⟨rfl, rfl⟩ := Prod.mk.inj hk
  exact ⟨p, _, q.pid, k₂, k₃, hfirst, sysFork_ends hrun (firstProcess_ends hfirst) hpages hne hcopy,
    hused, hexit, hwait⟩

/-- Bit 49 of the kernel's address bitmap is clear before and set after. -/
theorem stackRun_bit : (stackRun.map fun s => ((s.1.heap.memory.space none).vaddr 6,
    (s.2.heap.memory.space none).vaddr 6)) = some (0, 2) := by decide +kernel

theorem first_child_leaks : ∃ k p k₁ q k₂ k₃ k₄, Completed k p k₁ q k₂ k₃ k₄ ∧
    (k.heap.memory.space none).vaddr 6 = 0 ∧ (k₄.heap.memory.space none).vaddr 6 = 2 ∧
    ¬Restored k k₄ := by
  obtain ⟨⟨k, k₄⟩, hs, hbit⟩ := Option.map_eq_some_iff.mp stackRun_bit
  simp only [Prod.mk.injEq] at hbit
  obtain ⟨p, k₁, q, k₂, k₃, hc⟩ := stackRun_completed hs
  refine ⟨k, p, k₁, q, k₂, k₃, k₄, hc, hbit.1, hbit.2, fun hres => ?_⟩
  have := congrFun hres.kernelVaddr 6
  rw [hbit.1, hbit.2] at this
  exact absurd this (by decide)

theorem fork_exit_wait_leaks_first : ∃ k p k₁ q k₂ k₃ k₄, Completed k p k₁ q k₂ k₃ k₄ ∧
    ¬Restored k k₄ := by
  obtain ⟨⟨k, k₄⟩, hs, -⟩ := Option.map_eq_some_iff.mp stackRun_bit
  obtain ⟨p, k₁, q, k₂, k₃, hc⟩ := stackRun_completed hs
  exact ⟨k, p, k₁, q, k₂, k₃, k₄, hc,
    fork_exit_wait_leaks hc.forked hc.used hc.exited hc.waited⟩

end Stack

end ProcessBalance
