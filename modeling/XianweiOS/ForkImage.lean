import XianweiOS.FrameExclusive

/-! What a fork does to the bytes in memory. Under the page tables of `ProcessMemory` lies physical
memory, which the running process reaches through the page directory in `cr3`. The second-level
tables of a process and its page directory are bytes in frames like the pages; the tables of the
kernel half lie below the pools and are left out. -/
namespace ForkCopy

open ByteStore HaltingProgram KernelBitmap MemoryPages MemoryHeap ProcessMemory FrameExclusive

/-- `cr3` is the frame of a page directory, `running` the process whose it is. -/
structure Image where
  kernel : Kernel
  phys : Bytes
  running : Ctx
  cr3 : ℕ

namespace Image

def heap (s : Image) : Heap := s.kernel.heap

def memory (s : Image) : Memory := s.kernel.heap.memory

def setKernel (s : Image) (k : Kernel) : Image := { s with kernel := k }

def setHeap (s : Image) (h : Heap) : Image := s.setKernel (s.kernel.setHeap h)

def setMemory (s : Image) (m : Memory) : Image := s.setHeap (s.heap.setMemory m)

def setPhys (s : Image) (b : Bytes) : Image := { s with phys := b }

/-- The frame the processor finds behind a page. -/
def frame (s : Image) (v : ℕ) : Option ℕ := s.memory.frameAt (home s.running v) v

/-- `n` bytes are written at offset `o` of a page. -/
def store (s : Image) (v o n : ℕ) (b : Bytes) : Option Image := do
  let f ← s.frame v
  return s.setPhys (patch s.phys (f * pgSize + o) n b)

end Image

/-- The bytes in a frame. -/
def frameBytes (m : Bytes) (f : ℕ) : Fin pgSize → Byte := fun i => m (f * pgSize + i)

/-- `PG_US_U | PG_RW_W | PG_P_1` -/
def entry (f : ℕ) : Bytes := ofWords fun _ => f * pgSize + 7

/-- The stores of `page_table_add`, after which the tables are those of `m`. -/
def tableStores (s : Image) (m : Memory) (v frame : ℕ) : Bytes :=
  let c := home s.running v
  match (m.space c).pde (v / 1024) with
  | none => s.phys
  | some t =>
    let phys := if (s.memory.space c).tablePresent (v / 1024) then s.phys else
      patch (patch s.phys (s.cr3 * pgSize + v / 1024 * 4) 4 (entry t)) (t * pgSize) pgSize zeroes
    patch phys (t * pgSize + v % 1024 * 4) 4 (entry frame)

def memcpyPage (dst src : ℕ) (s : Image) : Option Image := do
  let f ← s.frame src
  s.store dst 0 pgSize (window s.phys (f * pgSize))

def memcpyPages (dst src n : ℕ) (s : Image) : Option Image :=
  runAll (fun i => memcpyPage (dst + i) (src + i)) (List.range n) s

def memsetPages (a n : ℕ) (s : Image) : Option Image :=
  runAll (fun i s => s.store (a + i) 0 pgSize zeroes) (List.range n) s

/-- Stores into one page. -/
def editPage (v : ℕ) (edit : Bytes → Bytes) (s : Image) : Option Image := do
  let f ← s.frame v
  s.store v 0 pgSize (edit (window s.phys (f * pgSize)))

def pageDirActivate (p : Ctx) (pgdir : ℕ) (s : Image) : Option Image := do
  let f ← addrV2p s.memory s.running pgdir
  return { s with running := p, cr3 := f }

section Functions

variable (mc : Machine)

def getKernelPages (pgCnt : ℕ) (s : Image) : Option (Image × Option ℕ) := do
  match ← ProcessMemory.getKernelPages mc s.heap pgCnt with
  | (h, none) => return (s.setHeap h, none)
  | (h, some a) => return (← memsetPages a pgCnt (s.setHeap h), some a)

/-- The kernel half of the running directory is copied, and the last entry leads back. -/
def createPageDir (s : Image) : Option (Image × Option ℕ) := do
  match ← getKernelPages mc 1 s with
  | (s, none) => return (s, none)
  | (s, some a) =>
    let s ← s.store a 0xc00 1020 (window s.phys (s.cr3 * pgSize + 0xc00))
    let f ← addrV2p s.memory s.running a
    let s ← s.store a 0xffc 4 (entry f)
    return (s, some a)

def pageTableAdd (v frame : ℕ) (s : Image) : Option Image := do
  let m ← MemoryPages.pageTableAdd mc s.memory s.running v frame
  return (s.setMemory m).setPhys (tableStores s m v frame)

def getAPageWithoutOpvaddrbitmap (v : ℕ) (s : Image) : Option (Image × Bool) := do
  match ← palloc mc s.memory .user with
  | (m, none) => return (s.setMemory m, false)
  | (m, some f) => return (← pageTableAdd mc v f (s.setMemory m), true)

/-- A page goes from the parent to the child by way of `buf_page`. An arena header, if the page
starts with one, goes with it. -/
def copyPage (parent : ℕ) (r : Proc) (q : ChildPages) (s : Image) (v : ℕ) : Option Image := do
  let s ← memcpyPage q.buf v s
  let s ← pageDirActivate (some q.pid) q.pgdir s
  let (s, _) ← getAPageWithoutOpvaddrbitmap mc v s
  let s ← memcpyPage v q.buf s
  let s := s.setHeap (s.heap.setHeader (some q.pid) v (s.heap.header (some parent) v))
  pageDirActivate (some parent) r.pgdir s

def copyBit (parent : ℕ) (r : Proc) (q : ChildPages) (idxByte idxBit : ℕ) (s : Image) :
    Option Image :=
  if bitmapMask idxBit &&& (s.memory.space (some parent)).vaddr idxByte != 0 then
    copyPage mc parent r q s (vaddrStart (some parent) + (idxBit + idxByte * 8))
  else some s

def copyByte (parent : ℕ) (r : Proc) (q : ChildPages) (idxByte : ℕ) (s : Image) : Option Image :=
  if (s.memory.space (some parent)).vaddr idxByte != 0 then
    runAll (copyBit mc parent r q idxByte) (List.range 8) s
  else some s

def copyBodyStack3 (parent : ℕ) (r : Proc) (q : ChildPages) (s : Image) : Option Image :=
  runAll (copyByte mc parent r q) (List.range userBtmpLen) s

/-- What the stores into the `task_struct` of the child and the stack above it make of their page:
those behind its `memcpy`, the one of `pgdir`, and those of `build_child_stack`. -/
structure PcbEdits where
  fields : ℕ → Bytes → Bytes
  bits : ℕ → Bytes → Bytes
  pgdir : ℕ → Bytes → Bytes
  stack : Bytes → Bytes

variable (ed : PcbEdits)

/-- `copy_pcb_vaddrbitmap_stack0`, of which the bytes of the parent's `task_struct` and of its
bitmap are read. -/
def copyPcbVaddrbitmapStack0 (r : Proc) (pcb : ℕ) (s : Image) :
    Option (Image × ℕ × Option ℕ) := do
  let s ← memcpyPage pcb r.pcb s
  let (bits, pid) ← allocatePid s.kernel.pidBits
  let s := s.setKernel { s.kernel with pidBits := bits }
  let s ← editPage pcb (ed.fields pid) s
  match ← getKernelPages mc bitmapPgCnt s with
  | (s, none) => return (s, pid, none)
  | (s, some bitmap) =>
    let s ← memcpyPages bitmap r.bitmap bitmapPgCnt s
    let s ← editPage pcb (ed.bits bitmap) s
    return (s, pid, some bitmap)

/-- Without a kernel page it ends here, and keeps what it has. -/
def forkPages (r : Proc) (s : Image) : Option (Image × Option ChildPages) := do
  match ← getKernelPages mc 1 s with
  | (s, none) => return (s, none)
  | (s, some pcb) =>
    match ← getKernelPages mc 1 s with
    | (s, none) => return (s, none)
    | (s, some buf) =>
      match ← copyPcbVaddrbitmapStack0 mc ed r pcb s with
      | (s, _, none) => return (s, none)
      | (s, pid, some bitmap) =>
        match ← createPageDir mc s with
        | (s, none) => return (s, none)
        | (s, some pgdir) =>
          let s ← editPage pcb (ed.pgdir pgdir) s
          return (s, some ⟨pcb, buf, bitmap, pgdir, pid⟩)

/-- `copy_process` behind the kernel pages it asks for. -/
def copyProcess (parent : ℕ) (r : Proc) (q : ChildPages) (s : Image) : Option Image := do
  let vaddr := (s.memory.space (some parent)).vaddr
  let s := s.setHeap (Heap.blockDescInit (Heap.freshSpace s.heap q.pid vaddr) q.pid)
  let s ← copyBodyStack3 mc parent r q s
  let s ← editPage q.pcb ed.stack s
  let m ← mfreePage mc s.memory none q.buf 1
  return s.setMemory m

/-- The process that runs is the parent. `none` beside the state is the return value `-1`. -/
def sysFork (s : Image) (parent : ℕ) : Option (Image × Option ℕ) := do
  assert (s.running = some parent)
  let r ← s.kernel.proc parent
  assert (r.hanging = false)
  match ← forkPages mc ed r s with
  | (s, none) => return (s, none)
  | (s, some q) =>
    let s ← copyProcess mc ed parent r q s
    return (s.setKernel (s.kernel.setProc q.pid
      (some ⟨q.pcb, q.pgdir, q.bitmap, parent, false⟩)), some q.pid)

end Functions

section Bytes

variable {m b : Bytes} {f g o n : ℕ}

theorem frameBytes_patch_ne (hne : f ≠ g) (hle : o + n ≤ pgSize) :
    frameBytes (patch m (g * pgSize + o) n b) f = frameBytes m f := by
  funext i
  have hi := i.isLt
  apply patch_out
  unfold pgSize at *
  omega

theorem frameBytes_patch_self :
    frameBytes (patch m (g * pgSize + 0) pgSize b) g = fun i => b i.val := by
  funext i
  have hi := i.isLt
  have hin : g * pgSize + 0 ≤ g * pgSize + i.val ∧
      g * pgSize + i.val < g * pgSize + 0 + pgSize := by
    omega
  rw [frameBytes, patch_in hin]
  congr 1
  omega

end Bytes

/-- From `s` to `s'` the places of `Q` keep their frames and these their bytes, no frame is given
back, and the page tables of the parent are not touched. -/
structure Keeps (mc : Machine) (parent : ℕ) (Q : Place → Prop) (s s' : Image) : Prop where
  places : ∀ pl f, Q pl → frameOf s.memory pl = some f →
    frameOf s'.memory pl = some f ∧ frameBytes s'.phys f = frameBytes s.phys f
  marked : ∀ f, mc.phyStart .kernel ≤ f → taken mc s.memory f = true →
    taken mc s'.memory f = true
  space : s'.memory.space (some parent) = s.memory.space (some parent)

/-- A page of the kernel half that is mapped, in whichever page directory. -/
structure KernelPage (s : Image) (v : ℕ) : Prop where
  high : 0xc0000 ≤ v
  mapped : ∃ f, s.memory.frameAt none v = some f

/-- From `s` to `s'` there are only stores into the pages `W` of the running process. -/
structure Stored (W : Set ℕ) (s s' : Image) : Prop where
  kernel : s'.kernel = s.kernel
  running : s'.running = s.running
  cr3 : s'.cr3 = s.cr3
  bytes : ∀ f, (∀ w ∈ W, s.frame w ≠ some f) → frameBytes s'.phys f = frameBytes s.phys f

section Stores

variable {mc : Machine} {s s' s'' : Image} {A : ℕ → Prop} {Q : Place → Prop} {parent v o n : ℕ}
  {b : Bytes} {c : Ctx}

@[simp] theorem setPhys_kernel : (s.setPhys b).kernel = s.kernel := rfl

@[simp] theorem setPhys_memory : (s.setPhys b).memory = s.memory := rfl

@[simp] theorem setPhys_heap : (s.setPhys b).heap = s.heap := rfl

@[simp] theorem setPhys_running : (s.setPhys b).running = s.running := rfl

@[simp] theorem setPhys_cr3 : (s.setPhys b).cr3 = s.cr3 := rfl

@[simp] theorem setPhys_phys : (s.setPhys b).phys = b := rfl

theorem frame_kernel (hv : 0xc0000 ≤ v) : s.frame v = s.memory.frameAt none v := by
  rw [Image.frame, home, if_pos hv]

theorem frame_user (hr : s.running = c) (hv : v < 0xc0000) : s.frame v = s.memory.frameAt c v := by
  rw [Image.frame, hr, home_user hv]

theorem Keeps.refl : Keeps mc parent Q s s :=
  ⟨fun _ _ _ hf => ⟨hf, rfl⟩, fun _ _ h => h, rfl⟩

theorem Keeps.of_same (hm : s'.memory = s.memory) (hp : s'.phys = s.phys) :
    Keeps mc parent Q s s' := by
  refine ⟨fun pl f _ hf => ?_, fun f _ ht => ?_, by rw [hm]⟩
  · rw [hm, hp]
    exact ⟨hf, rfl⟩
  · rw [hm]
    exact ht

theorem Keeps.trans (h : Keeps mc parent Q s s') (h' : Keeps mc parent Q s' s'') :
    Keeps mc parent Q s s'' := by
  constructor
  case places =>
    intro pl f hpl hf
    obtain ⟨hf', hb⟩ := h.places pl f hpl hf
    obtain ⟨hf'', hb'⟩ := h'.places pl f hpl hf'
    exact ⟨hf'', hb'.trans hb⟩
  case marked => exact fun f hlow ht => h'.marked f hlow (h.marked f hlow ht)
  case space => exact h'.space.trans h.space

theorem Keeps.mono {R : Place → Prop} (h : Keeps mc parent Q s s') (hR : ∀ pl, R pl → Q pl) :
    Keeps mc parent R s s' :=
  ⟨fun pl f hpl => h.places pl f (hR pl hpl), h.marked, h.space⟩

theorem store_some (hs : s.store v o n b = some s') :
    ∃ g, s.frame v = some g ∧ s' = s.setPhys (patch s.phys (g * pgSize + o) n b) := by
  simp only [Image.store, bind_some_iff, Option.pure_def, Option.some.injEq] at hs
  obtain ⟨g, hg, rfl⟩ := hs
  exact ⟨g, hg, rfl⟩

theorem stored_store (hle : o + n ≤ pgSize) (hs : s.store v o n b = some s') :
    Stored {v} s s' := by
  obtain ⟨g, hg, rfl⟩ := store_some hs
  refine ⟨rfl, rfl, rfl, fun f hf => frameBytes_patch_ne (fun hfg => ?_) hle⟩
  exact hf v rfl (hfg ▸ hg)

theorem Stored.memory {W : Set ℕ} (h : Stored W s s') : s'.memory = s.memory := by
  rw [Image.memory, h.kernel, Image.memory]

theorem Stored.frame {W : Set ℕ} (h : Stored W s s') : s'.frame v = s.frame v := by
  rw [Image.frame, h.memory, h.running, Image.frame]

theorem Stored.refl {W : Set ℕ} : Stored W s s := ⟨rfl, rfl, rfl, fun _ _ => rfl⟩

theorem Stored.trans {W : Set ℕ} (h : Stored W s s') (h' : Stored W s' s'') : Stored W s s'' := by
  refine ⟨h'.kernel.trans h.kernel, h'.running.trans h.running, h'.cr3.trans h.cr3,
    fun f hf => ?_⟩
  rw [h'.bytes f fun w hw => by rw [h.frame]; exact hf w hw, h.bytes f hf]

theorem Stored.mono {W X : Set ℕ} (h : Stored W s s') (hX : W ⊆ X) : Stored X s s' :=
  ⟨h.kernel, h.running, h.cr3, fun f hf => h.bytes f fun w hw => hf w (hX hw)⟩

/-- Stores into pages keep the places with other frames. -/
theorem Stored.keeps {W : Set ℕ} (h : Stored W s s') (hx : Exclusive mc s.memory A)
    (hW : ∀ w ∈ W, Counts A (.page (home s.running w) w))
    (hQ : ∀ pl, Q pl → Counts A pl ∧ ∀ w ∈ W, pl ≠ .page (home s.running w) w) :
    Keeps mc parent Q s s' := by
  constructor
  case places =>
    intro pl f hpl hf
    obtain ⟨hcount, hne⟩ := hQ pl hpl
    refine ⟨by rw [h.memory, hf], h.bytes f fun w hw hfw => hne w hw ?_⟩
    exact hx.once pl _ f hcount (hW w hw) hf hfw
  case marked =>
    intro f _ ht
    rw [h.memory, ht]
  case space => rw [h.memory]

theorem memcpyPage_some {dst src : ℕ} (hs : memcpyPage dst src s = some s') :
    Stored {dst} s s' ∧ ∃ f g, s.frame src = some f ∧ s.frame dst = some g ∧
      frameBytes s'.phys g = frameBytes s.phys f := by
  simp only [memcpyPage, bind_some_iff] at hs
  obtain ⟨f, hf, hs⟩ := hs
  refine ⟨stored_store (by omega) hs, f, ?_⟩
  obtain ⟨g, hg, rfl⟩ := store_some hs
  exact ⟨g, hf, hg, frameBytes_patch_self⟩

theorem editPage_stored {edit : Bytes → Bytes} (hs : editPage v edit s = some s') :
    Stored {v} s s' := by
  simp only [editPage, bind_some_iff] at hs
  obtain ⟨f, hf, hs⟩ := hs
  exact stored_store (by omega) hs

theorem memsetPages_stored {a : ℕ} (hs : memsetPages a n s = some s') :
    Stored (span a n) s s' := by
  refine runAll_invariant_mem (Stored (span a n) s) ?_ .refl hs
  intro i hi t t' ht hstep
  have hin : a + i ∈ span a n := ⟨Nat.le_add_right a i, by rw [List.mem_range] at hi; omega⟩
  exact ht.trans ((stored_store (by omega) hstep).mono (Set.singleton_subset_iff.mpr hin))

theorem pageDirActivate_some {p : Ctx} {pgdir : ℕ} (hp : pageDirActivate p pgdir s = some s') :
    ∃ f, addrV2p s.memory s.running pgdir = some f ∧ s' = { s with running := p, cr3 := f } := by
  simp only [pageDirActivate, bind_some_iff, Option.pure_def, Option.some.injEq] at hp
  obtain ⟨f, hf, rfl⟩ := hp
  exact ⟨f, hf, rfl⟩

theorem memcpyPages_stored {dst src : ℕ} (hs : memcpyPages dst src n s = some s') :
    Stored (span dst n) s s' := by
  refine runAll_invariant_mem (Stored (span dst n) s) ?_ .refl hs
  intro i hi t t' ht hstep
  have hin : dst + i ∈ span dst n :=
    ⟨Nat.le_add_right dst i, by rw [List.mem_range] at hi; omega⟩
  exact ht.trans ((memcpyPage_some hstep).1.mono (Set.singleton_subset_iff.mpr hin))

theorem store_exists (hv : ∃ f, s.frame v = some f) : ∃ s', s.store v o n b = some s' := by
  obtain ⟨f, hf⟩ := hv
  exact ⟨_, by rw [Image.store, hf]; rfl⟩

theorem memcpyPage_exists (dst src : ℕ) (hdst : ∃ f, s.frame dst = some f)
    (hsrc : ∃ f, s.frame src = some f) : ∃ s', memcpyPage dst src s = some s' := by
  obtain ⟨f, hf⟩ := hsrc
  obtain ⟨s', hs⟩ := store_exists hdst
  exact ⟨s', by rw [memcpyPage, hf]; exact hs⟩

theorem editPage_exists (edit : Bytes → Bytes) (hv : ∃ f, s.frame v = some f) :
    ∃ s', editPage v edit s = some s' := by
  obtain ⟨f, hf⟩ := hv
  obtain ⟨s', hs⟩ := store_exists ⟨f, hf⟩
  exact ⟨s', by rw [editPage, hf]; exact hs⟩

theorem memsetPages_exists {a : ℕ} (ha : ∀ w ∈ span a n, ∃ f, s.frame w = some f) :
    ∃ s', memsetPages a n s = some s' := by
  have hstep : ∀ i t, Stored Set.univ s t → i ∈ List.range n →
      ∃ t', t.store (a + i) 0 pgSize zeroes = some t' ∧ Stored Set.univ s t' := by
    intro i t ht hi
    rw [List.mem_range] at hi
    obtain ⟨t', ht'⟩ := store_exists (by rw [ht.frame]; exact ha (a + i) ⟨by omega, by omega⟩)
    exact ⟨t', ht', ht.trans ((stored_store (by omega) ht').mono (Set.subset_univ _))⟩
  obtain ⟨s', hs, -⟩ := runAll_total _ hstep .refl (allMeet_of_forall fun _ hi _ => hi)
  exact ⟨s', hs⟩

theorem memcpyPages_exists {dst src : ℕ} (hdst : ∀ w ∈ span dst n, ∃ f, s.frame w = some f)
    (hsrc : ∀ w ∈ span src n, ∃ f, s.frame w = some f) :
    ∃ s', memcpyPages dst src n s = some s' := by
  have hstep : ∀ i t, Stored Set.univ s t → i ∈ List.range n →
      ∃ t', memcpyPage (dst + i) (src + i) t = some t' ∧ Stored Set.univ s t' := by
    intro i t ht hi
    rw [List.mem_range] at hi
    obtain ⟨t', ht'⟩ := memcpyPage_exists (dst + i) (src + i)
      (by rw [ht.frame]; exact hdst (dst + i) ⟨by omega, by omega⟩)
      (by rw [ht.frame]; exact hsrc (src + i) ⟨by omega, by omega⟩)
    exact ⟨t', ht', ht.trans ((memcpyPage_some ht').1.mono (Set.subset_univ _))⟩
  obtain ⟨s', hs, -⟩ := runAll_total _ hstep .refl (allMeet_of_forall fun _ hi _ => hi)
  exact ⟨s', hs⟩

theorem KernelPage.frame (h : KernelPage s v) : ∃ f, s.frame v = some f := by
  rw [frame_kernel h.high]
  exact h.mapped

theorem KernelPage.of_memory (h : KernelPage s v) (hm : s'.memory = s.memory) : KernelPage s' v :=
  ⟨h.high, by rw [hm]; exact h.mapped⟩

theorem pageDirActivate_exists {p : Ctx} {pgdir : ℕ} (h : KernelPage s pgdir) :
    ∃ s', pageDirActivate p pgdir s = some s' := by
  obtain ⟨f, hf⟩ := h.mapped
  have hhome : home s.running pgdir = none := if_pos h.high
  have ha : addrV2p s.memory s.running pgdir = some f := addrV2p_of_mapped (hhome ▸ hf)
  exact ⟨_, by rw [pageDirActivate, ha]; rfl⟩

theorem Stored.keeps_kernel {W : Set ℕ} (h : Stored W s s') (hx : Exclusive mc s.memory A)
    (hW : ∀ w ∈ W, 0xc0000 ≤ w) :
    Keeps mc parent (fun pl => Counts A pl ∧ ∀ w ∈ W, pl ≠ .page none w) s s' := by
  have hhome : ∀ w ∈ W, home s.running w = none := fun w hw => if_pos (hW w hw)
  refine h.keeps hx (fun w hw => ?_) fun pl hpl => ⟨hpl.1, fun w hw => ?_⟩
  · rw [hhome w hw]
    trivial
  · rw [hhome w hw]
    exact hpl.2 w hw

/-- Only places that are taken count. -/
theorem Keeps.of_mapped (h : Keeps mc parent (fun pl => Q pl ∧ frameOf s.memory pl ≠ none) s s') :
    Keeps mc parent Q s s' := by
  refine ⟨fun pl f hpl hf => h.places pl f ⟨hpl, ?_⟩ hf, h.marked, h.space⟩
  rw [hf]
  exact Option.some_ne_none f

end Stores

section Tables

variable {mc : Machine} {m m' : Memory} {c h : Ctx} {s : Image} {B : ℕ → Prop} {v e f g n p : ℕ}
  {pl : Place}

theorem palloc_marked {pf : PoolFlag} {r : Option ℕ} (hp : palloc mc m pf = some (m', r))
    (hlow : mc.phyStart .kernel ≤ f) (ht : taken mc m f = true) : taken mc m' f = true := by
  obtain ⟨g, -, -, -, -, hafter⟩ := palloc_taken hp
  rw [hafter f hlow, ht, Bool.or_true]

theorem pageTableAdd_marked (ha : MemoryPages.pageTableAdd mc m c v g = some m')
    (hlow : mc.phyStart .kernel ≤ f) (ht : taken mc m f = true) : taken mc m' f = true := by
  obtain ⟨-, ⟨-, -, rfl⟩ | ⟨-, m₁, t, hp, rfl⟩⟩ := pageTableAdd_cases ha
  · exact (taken_congr rfl).trans ht
  · have hm₁ : taken mc m₁ f = true := palloc_marked hp hlow ht
    exact (taken_congr rfl).trans hm₁

theorem pageTableAdd_space (ha : MemoryPages.pageTableAdd mc m c v g = some m')
    (hh : h ≠ home c v) : m'.space h = m.space h := by
  obtain ⟨-, ⟨-, -, rfl⟩ | ⟨-, m₁, t, hp, rfl⟩⟩ := pageTableAdd_cases ha
  · rw [setPte_space, if_neg hh]
  · rw [setPte_space, if_neg hh, setTable_space, if_neg hh, palloc_space hp]

theorem pageTableAdd_frameOf (ha : MemoryPages.pageTableAdd mc m c v g = some m')
    (hpl : frameOf m pl = some e) : frameOf m' pl = some e := by
  cases pl with
  | page h w =>
    obtain ⟨hnone, hadd⟩ := pageTableAdd_frameAt ha
    refine (hadd h w).trans ?_
    rw [if_neg]
    · exact hpl
    · rintro ⟨rfl, rfl⟩
      rw [frameOf, hnone] at hpl
      cases hpl
  | table p k =>
    obtain ⟨-, ⟨-, -, rfl⟩ | ⟨ht, m₁, t, hp, rfl⟩⟩ := pageTableAdd_cases ha
    · simpa only [frameOf, setPte_pde] using hpl
    · simp only [frameOf, setPte_pde, setTable_pde, palloc_space hp] at hpl ⊢
      rw [if_neg]
      · exact hpl
      · rintro ⟨hc, rfl⟩
        rw [← hc, Space.tablePresent, hpl] at ht
        simp at ht

/-- The stores of `page_table_add` stay in the page directory and the tables of the process. -/
theorem tableStores_keeps (hr : s.running = some p) (hp : B p) (hx : Exclusive mc s.memory B)
    (hv : v < 0xc0000) {pgdir : ℕ} (hdir : s.memory.frameAt none pgdir = some s.cr3)
    (ha : MemoryPages.pageTableAdd mc s.memory s.running v g = some m) (hpl : Counts B pl)
    (hne : pl ≠ .page none pgdir) (htab : ∀ k, pl ≠ .table p k)
    (he : frameOf s.memory pl = some e) :
    frameBytes (tableStores s m v g) e = frameBytes s.phys e := by
  have hhome : home s.running v = some p := by rw [hr, home_user hv]
  have hk : v / 1024 < 768 := by omega
  have hlow : v % 1024 * 4 + 4 ≤ pgSize := by
    unfold pgSize
    omega
  have hcr3 : e ≠ s.cr3 := fun h =>
    hne (hx.once pl (.page none pgdir) e hpl trivial he (h ▸ hdir))
  obtain ⟨-, ⟨ht, -, rfl⟩ | ⟨ht, m₁, t, hpal, rfl⟩⟩ := pageTableAdd_cases ha
  · rw [hhome] at ht
    have hsome : ((s.memory.space (some p)).pde (v / 1024)).isSome := by
      rw [Space.tablePresent, decide_eq_false (by omega), Bool.false_or] at ht
      exact ht
    obtain ⟨t, hpde⟩ := Option.isSome_iff_exists.mp hsome
    have het : e ≠ t := fun h =>
      htab (v / 1024) (hx.once pl (.table p (v / 1024)) e hpl ⟨hp, hk⟩ he (h ▸ hpde))
    simp only [tableStores, hhome, setPte_pde, hpde, ht, if_true]
    exact frameBytes_patch_ne het hlow
  · rw [hhome] at ht
    obtain ⟨t', ht', -, -, hclear, -⟩ := palloc_taken hpal
    obtain rfl := Option.some.inj ht'
    have het : e ≠ t := by
      rintro rfl
      have := (hx.marked pl e hpl he).2
      rw [hclear] at this
      cases this
    have hdirEntry : v / 1024 * 4 + 4 ≤ pgSize := by
      unfold pgSize
      omega
    simp only [tableStores, hhome, setPte_pde, setTable_pde, and_self, if_true, ht,
      Bool.false_eq_true, if_false]
    rw [frameBytes_patch_ne het hlow]
    have htable := frameBytes_patch_ne (m := patch s.phys (s.cr3 * pgSize + v / 1024 * 4) 4
      (entry t)) (b := zeroes) (o := 0) (n := pgSize) het (by omega)
    rw [Nat.add_zero] at htable
    rw [htable, frameBytes_patch_ne hcr3 hdirEntry]

end Tables

end ForkCopy
