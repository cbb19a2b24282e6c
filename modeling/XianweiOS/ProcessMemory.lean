import XianweiOS.MemoryHeap

/-! The memory of processes: `userprog/process.c`, `userprog/fork.c`, `userprog/wait_exit.c` and
the end of a thread in `thread/thread.c`. A process is named by its pid. Descriptors are closed
elsewhere, so that the page of a pipe is given back by a call of `mfree_page` of its own. -/
namespace ProcessMemory

open ByteStore HaltingProgram KernelBitmap MemoryPages MemoryHeap

/-- The kernel pages of a process: its `task_struct`, its page directory and the bits of
`userprog_vaddr`. -/
structure Proc where
  pcb : ℕ
  pgdir : ℕ
  bitmap : ℕ
  parentPid : ℕ
  hanging : Bool
  deriving DecidableEq, Repr

structure Kernel where
  heap : Heap
  pidBits : Bytes
  proc : ℕ → Option Proc

def Kernel.setHeap (k : Kernel) (h : Heap) : Kernel := { k with heap := h }

def Kernel.setProc (k : Kernel) (p : ℕ) (r : Option Proc) : Kernel :=
  { k with proc := Function.update k.proc p r }

@[simp] theorem Kernel.setProc_self (k : Kernel) (p : ℕ) (r : Option Proc) :
    (k.setProc p r).proc p = r := Function.update_self ..

theorem Kernel.setProc_ne (k : Kernel) {p q : ℕ} (r : Option Proc) (hq : q ≠ p) :
    (k.setProc p r).proc q = k.proc q := Function.update_of_ne hq ..

def pidBitmap (bits : Bytes) : Bitmap := ⟨128, bits⟩

/-- The pids start at one. A scan for one bit halts when there is none. -/
def allocatePid (bits : Bytes) : Option (Bytes × ℕ) := do
  let r ← bitmapScan (pidBitmap bits) 1
  let i ← r
  return ((bitmapSet (pidBitmap bits) i true).bits, i + 1)

def releasePid (bits : Bytes) (pid : ℕ) : Bytes := (bitmapSet (pidBitmap bits) (pid - 1) false).bits

theorem allocatePid_some {bits bits' : Bytes} {pid : ℕ}
    (ha : allocatePid bits = some (bits', pid)) :
    ∃ i, pid = i + 1 ∧ bitmapScanTest (pidBitmap bits) i = false ∧
      ∀ j, bitmapScanTest (pidBitmap bits') j =
        if j = i then true else bitmapScanTest (pidBitmap bits) j := by
  simp only [allocatePid, bind_some_iff, Option.pure_def, Option.some.injEq, Prod.mk.injEq] at ha
  obtain ⟨r, hr, i, hi, rfl, rfl⟩ := ha
  obtain ⟨i', rfl, -, hclear, -⟩ := bitmapScan_one hr
  obtain rfl := Option.some.inj hi
  exact ⟨i', rfl, hclear, fun j => bitmapScanTest_set _ i' j true⟩

theorem allocatePid_keeps {bits bits' : Bytes} {pid i : ℕ}
    (ha : allocatePid bits = some (bits', pid)) (hi : bitmapScanTest (pidBitmap bits) i = true) :
    bitmapScanTest (pidBitmap bits') i = true := by
  obtain ⟨j, -, -, hbits⟩ := allocatePid_some ha
  rw [hbits i, hi, ite_self]

/-- The bytes of `userprog_vaddr`, and the pages they are kept in. -/
def userBtmpLen : ℕ := (0xc0000 - 0x8048) / 8

def bitmapPgCnt : ℕ := (userBtmpLen + pgSize - 1) / pgSize

section Functions

variable (mc : Machine)

def getKernelPages (h : Heap) (pgCnt : ℕ) : Option (Heap × Option ℕ) := do
  match ← mallocPage mc h.memory none pgCnt with
  | (m, none) => return (h.setMemory m, none)
  | (m, some a) => return ((h.setMemory m).clearPages none a pgCnt, some a)

/-- The page of the directory; its kernel half is the kernel's. -/
def createPageDir (h : Heap) : Option (Heap × Option ℕ) := getKernelPages mc h 1

/-- The address space of a page directory whose user half is empty. -/
def Heap.freshSpace (h : Heap) (p : ℕ) (vaddr : Bytes) : Heap :=
  h.setMemory (h.memory.setSpace (some p) ⟨vaddr, fun _ => none, fun _ => ⟨0, false⟩⟩)

/-- `block_desc_init` on `u_block_desc`. -/
def Heap.blockDescInit (h : Heap) (p : ℕ) : Heap :=
  { h with freeList := Function.update h.freeList (some p) fun _ => [] }

/-- The caller does not look for `NULL`. -/
def processExecute (k : Kernel) : Option (Kernel × ℕ) := do
  let (h, pcb) ← getKernelPages mc k.heap 1
  let pcb ← pcb
  let (bits, pid) ← allocatePid k.pidBits
  let (h, bitmap) ← getKernelPages mc h bitmapPgCnt
  let bitmap ← bitmap
  let (h, pgdir) ← createPageDir mc h
  let pgdir ← pgdir
  let h := Heap.blockDescInit (Heap.freshSpace h pid zeroes) pid
  return ({ heap := h, pidBits := bits,
            proc := Function.update k.proc pid (some ⟨pcb, pgdir, bitmap, 0, false⟩) }, pid)

/-- The page of the user stack. -/
def startProcess (k : Kernel) (p : ℕ) : Option Kernel := do
  let m ← getAPage mc k.heap.memory (some p) 0xbffff
  return k.setHeap (k.heap.setMemory m)

/-- A page of the parent is copied, its arena header with it. The parent's page is read before
the child's is mapped. -/
def copyPage (parent child : ℕ) (h : Heap) (v : ℕ) : Option Heap := do
  assert ((h.memory.frameAt (some parent) v).isSome)
  let (m, _) ← getAPageWithoutOpvaddrbitmap mc h.memory (some child) v
  return (h.setMemory m).setHeader (some child) v (h.header (some parent) v)

def copyBit (parent child idxByte idxBit : ℕ) (h : Heap) : Option Heap :=
  if bitmapMask idxBit &&& (h.memory.space (some parent)).vaddr idxByte != 0 then
    copyPage mc parent child h (vaddrStart (some parent) + (idxBit + idxByte * 8))
  else some h

def copyByte (parent child idxByte : ℕ) (h : Heap) : Option Heap :=
  if (h.memory.space (some parent)).vaddr idxByte != 0 then
    runAll (copyBit mc parent child idxByte) (List.range 8) h
  else some h

def copyBodyStack3 (parent child : ℕ) (h : Heap) : Option Heap :=
  runAll (copyByte mc parent child) (List.range userBtmpLen) h

/-- `copy_process` behind the kernel pages it asks for. -/
def copyProcess (h : Heap) (parent child buf : ℕ) : Option Heap := do
  let vaddr := (h.memory.space (some parent)).vaddr
  let h := Heap.blockDescInit (Heap.freshSpace h child vaddr) child
  let h ← copyBodyStack3 mc parent child h
  let m ← mfreePage mc h.memory none buf 1
  return h.setMemory m

/-- What a fork takes before it copies the parent. -/
structure ChildPages where
  pcb : ℕ
  buf : ℕ
  bitmap : ℕ
  pgdir : ℕ
  pid : ℕ
  deriving DecidableEq, Repr

/-- Without a kernel page it ends here, and keeps what it has. -/
def forkPages (k : Kernel) : Option (Kernel × Option ChildPages) := do
  match ← getKernelPages mc k.heap 1 with
  | (h, none) => return (k.setHeap h, none)
  | (h, some pcb) =>
    match ← getKernelPages mc h 1 with
    | (h, none) => return (k.setHeap h, none)
    | (h, some buf) =>
      let (bits, pid) ← allocatePid k.pidBits
      let k := { k with pidBits := bits }
      match ← getKernelPages mc h bitmapPgCnt with
      | (h, none) => return (k.setHeap h, none)
      | (h, some bitmap) =>
        match ← createPageDir mc h with
        | (h, none) => return (k.setHeap h, none)
        | (h, some pgdir) => return (k.setHeap h, some ⟨pcb, buf, bitmap, pgdir, pid⟩)

/-- `none` beside the state is the return value `-1`. -/
def sysFork (k : Kernel) (parent : ℕ) : Option (Kernel × Option ℕ) := do
  assert (∃ r ∈ k.proc parent, r.hanging = false)
  match ← forkPages mc k with
  | (k, none) => return (k, none)
  | (k, some q) =>
    let h ← copyProcess mc k.heap parent q.pid q.buf
    return ((k.setHeap h).setProc q.pid (some ⟨q.pcb, q.pgdir, q.bitmap, parent, false⟩),
      some q.pid)

def freePte (sp : Space) (pdeIdx : ℕ) (m : Memory) (pteIdx : ℕ) : Memory :=
  if (sp.pte (pdeIdx * 1024 + pteIdx)).present then
    freeAPhyPage mc m (sp.pte (pdeIdx * 1024 + pteIdx)).frame
  else m

/-- A second-level table behind the pages it maps. -/
def freeTable (sp : Space) (m : Memory) (pdeIdx : ℕ) : Memory :=
  match sp.pde pdeIdx with
  | some t => freeAPhyPage mc ((List.range 1024).foldl (freePte mc sp pdeIdx) m) t
  | none => m

/-- The walk over the user half of the page directory. -/
def freeTables (sp : Space) (m : Memory) : Memory := (List.range 768).foldl (freeTable mc sp) m

/-- The number of bitmap pages is rounded down here. -/
def releaseProgResource (k : Kernel) (p : ℕ) (r : Proc) : Option Memory :=
  mfreePage mc (freeTables mc (k.heap.memory.space (some p)) k.heap.memory) none r.bitmap
    (userBtmpLen / pgSize)

def sysExit (k : Kernel) (p : ℕ) : Option Kernel := do
  let r ← k.proc p
  assert (r.hanging = false)
  let m ← releaseProgResource mc k p r
  return (k.setHeap (k.heap.setMemory m)).setProc p (some { r with hanging := true })

def threadExit (k : Kernel) (p : ℕ) (r : Proc) : Option Kernel := do
  let m ← mfreePage mc k.heap.memory none r.pgdir 1
  let m ← mfreePage mc m none r.pcb 1
  return { k with
    heap := k.heap.setMemory m
    pidBits := releasePid k.pidBits p
    proc := Function.update k.proc p none }

/-- `child` is the hanging child the traversal finds. -/
def sysWait (k : Kernel) (parent child : ℕ) : Option Kernel := do
  let r ← k.proc child
  assert (r.parentPid = parent ∧ r.hanging = true)
  threadExit mc k child r

end Functions

section KernelPages

variable {mc : Machine} {h h' : Heap} {n a : ℕ}

theorem getKernelPages_gained (hg : getKernelPages mc h n = some (h', some a)) :
    ∃ m, mallocPage mc h.memory none n = some (m, some a) ∧
      h' = (h.setMemory m).clearPages none a n := by
  simp only [getKernelPages, bind_some_iff] at hg
  obtain ⟨⟨m, r⟩, hm, hg⟩ := hg
  cases r with
  | none =>
    simp only [Option.pure_def, Option.some.injEq, Prod.mk.injEq] at hg
    cases hg.2
  | some b =>
    simp only [Option.pure_def, Option.some.injEq, Prod.mk.injEq] at hg
    obtain ⟨rfl, rfl⟩ := hg
    exact ⟨m, hm, rfl⟩

theorem getKernelPages_none (hg : getKernelPages mc h n = some (h', none)) : h' = h := by
  simp only [getKernelPages, bind_some_iff] at hg
  obtain ⟨⟨m, r⟩, hm, hg⟩ := hg
  cases r with
  | none =>
    simp only [Option.pure_def, Option.some.injEq, Prod.mk.injEq] at hg
    obtain ⟨-, ⟨-, rfl⟩ | ⟨v, m₁, hr, -⟩⟩ := mallocPage_cases hm
    · exact hg.1.symm
    · cases hr
  | some b =>
    simp only [Option.pure_def, Option.some.injEq, Prod.mk.injEq] at hg
    cases hg.2

end KernelPages

/-- The kernel pages of a fork, one after the other. -/
structure Taken (mc : Machine) (k k' : Kernel) (q : ChildPages) (h₁ h₂ h₃ : Heap) : Prop where
  gotPcb : getKernelPages mc k.heap 1 = some (h₁, some q.pcb)
  gotBuf : getKernelPages mc h₁ 1 = some (h₂, some q.buf)
  gotPid : allocatePid k.pidBits = some (k'.pidBits, q.pid)
  gotBitmap : getKernelPages mc h₂ bitmapPgCnt = some (h₃, some q.bitmap)
  gotPgdir : createPageDir mc h₃ = some (k'.heap, some q.pgdir)
  proc : k'.proc = k.proc

section Fork

variable {mc : Machine} {k k' : Kernel} {h h' : Heap} {parent child pid v : ℕ} {c : Ctx}

theorem forkPages_some {q : ChildPages} (hf : forkPages mc k = some (k', some q)) :
    ∃ h₁ h₂ h₃, Taken mc k k' q h₁ h₂ h₃ := by
  simp only [forkPages, bind_some_iff] at hf
  obtain ⟨⟨h₁, r₁⟩, hpcb, hf⟩ := hf
  cases r₁ with
  | none => simp at hf
  | some pcb =>
    simp only [bind_some_iff] at hf
    obtain ⟨⟨h₂, r₂⟩, hbuf, hf⟩ := hf
    cases r₂ with
    | none => simp at hf
    | some buf =>
      simp only [bind_some_iff] at hf
      obtain ⟨⟨bits, pid⟩, hpid, ⟨h₃, r₃⟩, hbm, hf⟩ := hf
      cases r₃ with
      | none => simp at hf
      | some bitmap =>
        simp only [bind_some_iff] at hf
        obtain ⟨⟨h₄, r₄⟩, hpd, hf⟩ := hf
        cases r₄ with
        | none => simp at hf
        | some pgdir =>
          simp only [Option.pure_def, Option.some.injEq, Prod.mk.injEq] at hf
          obtain ⟨rfl, rfl⟩ := hf
          exact ⟨h₁, h₂, h₃, hpcb, hbuf, hpid, hbm, hpd, rfl⟩

/-- Failed or not, a fork takes kernel pages only. -/
theorem forkPages_invariant (Inv : Heap → Prop) {r : Option ChildPages}
    (hstep : ∀ h h' n a, Inv h → getKernelPages mc h n = some (h', some a) → Inv h')
    (hinv : Inv k.heap) (hf : forkPages mc k = some (k', r)) : Inv k'.heap ∧ k'.proc = k.proc := by
  have hall : ∀ h h' n a, Inv h → getKernelPages mc h n = some (h', a) → Inv h' := by
    intro h h' n a hi hg
    cases a with
    | none => exact getKernelPages_none hg ▸ hi
    | some a => exact hstep h h' n a hi hg
  simp only [forkPages, bind_some_iff] at hf
  obtain ⟨⟨h₁, r₁⟩, hpcb, hf⟩ := hf
  have i₁ := hall _ _ _ _ hinv hpcb
  cases r₁ with
  | none =>
    simp only [Option.pure_def, Option.some.injEq, Prod.mk.injEq] at hf
    exact hf.1 ▸ ⟨i₁, rfl⟩
  | some pcb =>
    simp only [bind_some_iff] at hf
    obtain ⟨⟨h₂, r₂⟩, hbuf, hf⟩ := hf
    have i₂ := hall _ _ _ _ i₁ hbuf
    cases r₂ with
    | none =>
      simp only [Option.pure_def, Option.some.injEq, Prod.mk.injEq] at hf
      exact hf.1 ▸ ⟨i₂, rfl⟩
    | some buf =>
      simp only [bind_some_iff] at hf
      obtain ⟨⟨bits, pid⟩, -, ⟨h₃, r₃⟩, hbm, hf⟩ := hf
      have i₃ := hall _ _ _ _ i₂ hbm
      cases r₃ with
      | none =>
        simp only [Option.pure_def, Option.some.injEq, Prod.mk.injEq] at hf
        exact hf.1 ▸ ⟨i₃, rfl⟩
      | some bitmap =>
        simp only [bind_some_iff] at hf
        obtain ⟨⟨h₄, r₄⟩, hpd, hf⟩ := hf
        have i₄ := hall _ _ _ _ i₃ hpd
        cases r₄ with
        | none =>
          simp only [Option.pure_def, Option.some.injEq, Prod.mk.injEq] at hf
          exact hf.1 ▸ ⟨i₄, rfl⟩
        | some pgdir =>
          simp only [Option.pure_def, Option.some.injEq, Prod.mk.injEq] at hf
          exact hf.1 ▸ ⟨i₄, rfl⟩

theorem sysFork_none (hf : sysFork mc k parent = some (k', none)) :
    forkPages mc k = some (k', none) := by
  simp only [sysFork, assert_eq_some, bind_some_iff] at hf
  obtain ⟨_, -, ⟨k₁, r⟩, hp, hf⟩ := hf
  cases r with
  | none =>
    simp only [Option.pure_def, Option.some.injEq, Prod.mk.injEq, and_true] at hf
    exact hf ▸ hp
  | some q =>
    simp only [bind_some_iff, Option.pure_def, Option.some.injEq, Prod.mk.injEq] at hf
    obtain ⟨h₁, -, -, hr⟩ := hf
    cases hr

theorem sysFork_some (hf : sysFork mc k parent = some (k', some pid)) :
    ∃ k₁ q h₁, (∃ r, k.proc parent = some r ∧ r.hanging = false) ∧
      forkPages mc k = some (k₁, some q) ∧ copyProcess mc k₁.heap parent q.pid q.buf = some h₁ ∧
      k' = (k₁.setHeap h₁).setProc q.pid (some ⟨q.pcb, q.pgdir, q.bitmap, parent, false⟩) ∧
      pid = q.pid := by
  simp only [sysFork, assert_eq_some, bind_some_iff] at hf
  obtain ⟨_, hrun, ⟨k₁, r⟩, hp, hf⟩ := hf
  cases r with
  | none => simp at hf
  | some q =>
    simp only [bind_some_iff, Option.pure_def, Option.some.injEq, Prod.mk.injEq] at hf
    obtain ⟨h₁, hcopy, rfl, rfl⟩ := hf
    exact ⟨k₁, q, h₁, hrun, hp, hcopy, rfl, rfl⟩

theorem copyPage_some (hc : copyPage mc parent child h v = some h') :
    ∃ m₁ m₂ f, (∃ g, h.memory.frameAt (some parent) v = some g) ∧
      palloc mc h.memory .user = some (m₁, some f) ∧
      pageTableAdd mc m₁ (some child) v f = some m₂ ∧
      h' = (h.setMemory m₂).setHeader (some child) v (h.header (some parent) v) := by
  simp only [copyPage, assert_eq_some, bind_some_iff, getAPageWithoutOpvaddrbitmap] at hc
  obtain ⟨_, hread, ⟨m₂, ok⟩, ⟨⟨m₁, r⟩, hp, hadd⟩, hh⟩ := hc
  obtain ⟨f, rfl, -⟩ := palloc_taken hp
  simp only [bind_some_iff, Option.pure_def, Option.some.injEq, Prod.mk.injEq] at hadd
  obtain ⟨m₃, ha, rfl, -⟩ := hadd
  exact ⟨m₁, m₃, f, Option.isSome_iff_exists.mp hread, hp, ha, (Option.some.inj hh).symm⟩

/-- The loops of `copy_body_stack_3` keep what each page they copy keeps. -/
theorem copyBodyStack3_invariant (Inv : Heap → Prop)
    (hstep : ∀ h h' v, v < 0xc0000 → Inv h → copyPage mc parent child h v = some h' → Inv h')
    (hinv : Inv h) (hc : copyBodyStack3 mc parent child h = some h') : Inv h' := by
  have hlen : userBtmpLen = 94199 := rfl
  have hbit : ∀ idxByte < userBtmpLen, ∀ idxBit < 8, ∀ h h', Inv h →
      copyBit mc parent child idxByte idxBit h = some h' → Inv h' := by
    intro idxByte hb idxBit hlt h h' hi hc
    unfold copyBit at hc
    split at hc
    · refine hstep h h' _ ?_ hi hc
      simp only [vaddrStart]
      omega
    · exact Option.some.inj hc ▸ hi
  have hbyte : ∀ idxByte ∈ List.range userBtmpLen, ∀ h h', Inv h →
      copyByte mc parent child idxByte h = some h' → Inv h' := by
    intro idxByte hb h h' hi hc
    unfold copyByte at hc
    split at hc
    · exact runAll_invariant_mem Inv
        (fun idxBit hlt => hbit idxByte (List.mem_range.mp hb) idxBit (List.mem_range.mp hlt)) hi hc
    · exact Option.some.inj hc ▸ hi
  unfold copyBodyStack3 at hc
  exact runAll_invariant_mem Inv hbyte hinv hc

theorem copyPage_vaddr (hc : copyPage mc parent child h v = some h') :
    (h'.memory.space c).vaddr = (h.memory.space c).vaddr := by
  obtain ⟨m₁, m₂, f, -, hp, ha, rfl⟩ := copyPage_some hc
  rw [setHeader_memory, setMemory_memory, pageTableAdd_vaddr ha, palloc_space hp]

theorem copyBodyStack3_vaddr (hc : copyBodyStack3 mc parent child h = some h') (c : Ctx) :
    (h'.memory.space c).vaddr = (h.memory.space c).vaddr := by
  refine copyBodyStack3_invariant (fun h₁ => (h₁.memory.space c).vaddr = (h.memory.space c).vaddr)
    ?_ rfl hc
  intro h₁ h₂ w _ hinv hcopy
  rw [copyPage_vaddr hcopy, hinv]

theorem copyProcess_some {buf : ℕ} (hc : copyProcess mc h parent child buf = some h') :
    ∃ h₁ m, copyBodyStack3 mc parent child (Heap.blockDescInit (Heap.freshSpace h child
        (h.memory.space (some parent)).vaddr) child) = some h₁ ∧
      mfreePage mc h₁.memory none buf 1 = some m ∧ h' = h₁.setMemory m := by
  simp only [copyProcess, bind_some_iff, Option.pure_def, Option.some.injEq] at hc
  obtain ⟨h₁, hcopy, m, hm, rfl⟩ := hc
  exact ⟨h₁, m, hcopy, hm, rfl⟩

theorem getKernelPages_memory {n a : ℕ} (hg : getKernelPages mc h n = some (h', some a)) :
    Gained mc h.memory h'.memory none a n := by
  obtain ⟨m, hm, rfl⟩ := getKernelPages_gained hg
  exact mallocPage_gained hm

/-- The walk over the page tables keeps what giving back a frame of theirs keeps. -/
theorem freeTables_invariant (Inv : Memory → Prop) {sp : Space} {m : Memory}
    (hpage : ∀ m v, v < 0xc0000 → sp.tablePresent (v / 1024) = true → (sp.pte v).present = true →
      Inv m → Inv (pfree mc m (sp.pte v).frame))
    (htable : ∀ m k t, k < 768 → sp.pde k = some t → Inv m → Inv (pfree mc m t)) (hm : Inv m) :
    Inv (freeTables mc sp m) := by
  unfold freeTables
  refine List.foldlRecOn _ _ hm fun m₁ hm₁ k hk => ?_
  have hk : k < 768 := List.mem_range.mp hk
  unfold freeTable
  split
  · rename_i t ht
    refine htable _ k t hk ht (List.foldlRecOn _ _ hm₁ fun m₂ hm₂ j hj => ?_)
    have hj : j < 1024 := List.mem_range.mp hj
    unfold freePte
    split
    · rename_i hpres
      have hdiv : (k * 1024 + j) / 1024 = k := by omega
      refine hpage m₂ (k * 1024 + j) (by omega) ?_ hpres hm₂
      rw [hdiv, Space.tablePresent, ht]
      simp
    · exact hm₂
  · exact hm₁

theorem freeTables_space (sp : Space) (m : Memory) : (freeTables mc sp m).space = m.space :=
  freeTables_invariant (fun m₁ => m₁.space = m.space) (fun _ _ _ _ _ h => h)
    (fun _ _ _ _ _ h => h) rfl

end Fork

/-- The machine after `mem_init` and `pid_pool_init`. -/
def bootKernel : Kernel := ⟨memInit, zeroes, fun _ => none⟩

/-- The first process, with the page of its stack. -/
def firstProcess : Option (Kernel × ℕ) := do
  let (k, p) ← processExecute smallMachine bootKernel
  let k ← startProcess smallMachine k p
  return (k, p)

/-- `copy_process` of a parent whose pages are in the first and the last byte of its bitmap. -/
def copyEnds (h : Heap) (parent child buf : ℕ) : Option Heap := do
  let vaddr := (h.memory.space (some parent)).vaddr
  let h := Heap.blockDescInit (Heap.freshSpace h child vaddr) child
  let h ← copyByte smallMachine parent child 0 h
  let h ← copyByte smallMachine parent child (userBtmpLen - 1) h
  let m ← mfreePage smallMachine h.memory none buf 1
  return h.setMemory m

section Ends

variable {mc : Machine} {k k' : Kernel} {h h' : Heap} {parent child p : ℕ}

/-- Only the first and the last byte of the bitmap have pages. -/
def EndsOnly (h : Heap) (p : ℕ) : Prop :=
  ∀ j, 0 < j → j < userBtmpLen - 1 → (h.memory.space (some p)).vaddr j = 0

theorem copyByte_vaddr {idxByte : ℕ} (hc : copyByte mc parent child idxByte h = some h')
    (c : Ctx) : (h'.memory.space c).vaddr = (h.memory.space c).vaddr := by
  unfold copyByte at hc
  split at hc
  · refine runAll_invariant_mem (fun h₁ => (h₁.memory.space c).vaddr = (h.memory.space c).vaddr)
      ?_ rfl hc
    intro i _ h₁ h₂ hinv hs
    unfold copyBit at hs
    split at hs
    · rw [copyPage_vaddr hs, hinv]
    · exact Option.some.inj hs ▸ hinv
  · exact Option.some.inj hc ▸ rfl

theorem copyBodyStack3_ends (hz : EndsOnly h parent) :
    copyBodyStack3 mc parent child h =
      copyByte mc parent child 0 h >>= copyByte mc parent child (userBtmpLen - 1) := by
  have hrange : List.range userBtmpLen =
      [0] ++ (List.range' 1 (userBtmpLen - 2) ++ [userBtmpLen - 1]) := by
    have hlen : userBtmpLen = (userBtmpLen - 2 + 1) + 1 := rfl
    conv_lhs => rw [hlen]
    rw [List.range_eq_range', List.range'_succ, List.range'_concat]
    simp
    rfl
  rw [copyBodyStack3, hrange, runAll_append]
  cases h₀ : copyByte mc parent child 0 h with
  | none => simp [runAll, h₀]
  | some h₁ =>
    have hidle : runAll (copyByte mc parent child) (List.range' 1 (userBtmpLen - 2)) h₁ =
        some h₁ := by
      refine runAll_idle fun j hj => ?_
      rw [List.mem_range'_1] at hj
      have hlen : userBtmpLen = 94199 := rfl
      have hzero : (h₁.memory.space (some parent)).vaddr j = 0 := by
        rw [copyByte_vaddr h₀]
        exact hz j (by omega) (by omega)
      rw [copyByte, hzero]
      rfl
    cases hl : copyByte mc parent child (userBtmpLen - 1) h₁ with
    | none => simp [runAll, h₀, runAll_append, hidle, hl]
    | some h₂ => simp [runAll, h₀, runAll_append, hidle, hl]

theorem copyProcess_ends {buf : ℕ} (hne : child ≠ parent) (hz : EndsOnly h parent) :
    copyProcess smallMachine h parent child buf = copyEnds h parent child buf := by
  have hsp : ((Heap.blockDescInit (Heap.freshSpace h child
      (h.memory.space (some parent)).vaddr) child).memory.space (some parent)) =
      h.memory.space (some parent) :=
    setSpace_ne _ fun he => hne (Option.some.inj he).symm
  have hz' : EndsOnly (Heap.blockDescInit (Heap.freshSpace h child
      (h.memory.space (some parent)).vaddr) child) parent := by
    intro j hj hlt
    rw [hsp]
    exact hz j hj hlt
  simp only [copyProcess, copyEnds]
  rw [copyBodyStack3_ends hz', bind_assoc]

theorem getKernelPages_vaddr {n a : ℕ} (hg : getKernelPages mc h n = some (h', some a)) :
    (h'.memory.space (some p)).vaddr = (h.memory.space (some p)).vaddr := by
  obtain ⟨m, hm, rfl⟩ := getKernelPages_gained hg
  exact mallocPage_vaddr hm (Option.some_ne_none p)

/-- The fork of such a process, with the copy cut short. -/
theorem sysFork_ends {q : ChildPages} (hrun : ∃ r ∈ k.proc p, r.hanging = false)
    (hz : EndsOnly k.heap p) (hp : forkPages smallMachine k = some (k', some q)) (hne : q.pid ≠ p)
    (hc : copyEnds k'.heap p q.pid q.buf = some h) :
    sysFork smallMachine k p = some ((k'.setHeap h).setProc q.pid
      (some ⟨q.pcb, q.pgdir, q.bitmap, p, false⟩), some q.pid) := by
  have hvaddr : (k'.heap.memory.space (some p)).vaddr = (k.heap.memory.space (some p)).vaddr := by
    obtain ⟨h₁, h₂, h₃, ht⟩ := forkPages_some hp
    rw [getKernelPages_vaddr ht.gotPgdir, getKernelPages_vaddr ht.gotBitmap,
      getKernelPages_vaddr ht.gotBuf, getKernelPages_vaddr ht.gotPcb]
  have hz' : EndsOnly k'.heap p := by
    intro j hj hlt
    rw [hvaddr]
    exact hz j hj hlt
  simp only [sysFork, bind_some_iff, assert_eq_some]
  refine ⟨(), hrun, _, hp, ?_⟩
  simp only [bind_some_iff]
  exact ⟨h, by rw [copyProcess_ends hne hz']; exact hc, rfl⟩

theorem processExecute_vaddr (he : processExecute mc k = some (k', p)) :
    (k'.heap.memory.space (some p)).vaddr = zeroes := by
  simp only [processExecute, bind_some_iff, Option.pure_def, Option.some.injEq,
    Prod.mk.injEq] at he
  obtain ⟨⟨h₁, r₁⟩, -, pcb, -, ⟨bits, pid⟩, -, ⟨h₂, r₂⟩, -, bitmap, -, ⟨h₃, r₃⟩, -, pgdir, -, rfl,
    rfl⟩ := he
  simp [Heap.blockDescInit, Heap.freshSpace]

theorem startProcess_vaddr (hs : startProcess mc k p = some k') {j : ℕ} (hj : j ≠ 94198) :
    (k'.heap.memory.space (some p)).vaddr j = (k.heap.memory.space (some p)).vaddr j := by
  simp only [startProcess, bind_some_iff, Option.pure_def, Option.some.injEq] at hs
  obtain ⟨m, hm, rfl⟩ := hs
  have hv := getAPage_vaddr (h := some p) hm
  rw [if_pos rfl] at hv
  have hbyte : j ≠ (0xbffff - vaddrStart (some p)) / 8 := by
    have hstart : vaddrStart (some p) = 0x8048 := rfl
    rw [hstart]
    exact hj
  exact (congrFun hv j).trans (bitmapSet_bits_ne hbyte)

theorem firstProcess_ends (hf : firstProcess = some (k, p)) : EndsOnly k.heap p := by
  unfold firstProcess at hf
  obtain ⟨⟨k₀, p₀⟩, hexec, hf⟩ := bind_some_iff.mp hf
  obtain ⟨k₁, hstart, hk⟩ := bind_some_iff.mp hf
  obtain ⟨rfl, rfl⟩ := Prod.mk.inj (Option.some.inj hk)
  intro j _ hj
  have hlen : userBtmpLen - 1 = 94198 := by decide
  rw [startProcess_vaddr hstart (hlen ▸ hj.ne), processExecute_vaddr hexec]
  rfl

end Ends

end ProcessMemory
