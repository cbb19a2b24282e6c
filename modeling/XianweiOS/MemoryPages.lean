import XianweiOS.KernelBitmap

/-! Virtual pages and physical frames of `kernel/memory.c`. Pages and frames are numbers, an
address is `4096` times its page. A failed `ASSERT` and a page fault are `none`; inside it
`none` stands for the pointer `NULL`. -/
namespace MemoryPages

open ByteStore HaltingProgram KernelBitmap

def pgSize : ℕ := 4096

inductive PoolFlag where
  | kernel
  | user
  deriving DecidableEq, Repr

/-- The memory `mem_pool_init` finds, of which the low two megabytes are in use. -/
structure Machine where
  memBytesTotal : ℕ

namespace Machine

def usedMem : ℕ := pgSize * 256 + 0x100000

def allFreePage (mc : Machine) : ℕ :=
  (mc.memBytesTotal + 2 ^ 32 - usedMem) % 2 ^ 32 / pgSize % 2 ^ 16

def freePage (mc : Machine) : PoolFlag → ℕ
  | .kernel => mc.allFreePage / 2
  | .user => mc.allFreePage - mc.allFreePage / 2

/-- `phy_addr_start` as a frame. -/
def phyStart (mc : Machine) : PoolFlag → ℕ
  | .kernel => usedMem / pgSize
  | .user => usedMem / pgSize + mc.freePage .kernel

def phySize (mc : Machine) (pf : PoolFlag) : ℕ := mc.freePage pf * pgSize

def btmpLen (mc : Machine) (pf : PoolFlag) : ℕ := mc.freePage pf / 8

end Machine

/-- Thirty-two megabytes. -/
def smallMachine : Machine := ⟨0x2000000⟩

/-- Whose virtual addresses are handed out: `none` for `PF_KERNEL`, a process for `PF_USER`. -/
abbrev Ctx := Option ℕ

def flagOf : Ctx → PoolFlag
  | none => .kernel
  | some _ => .user

def vaddrStart : Ctx → ℕ
  | none => 0xc0100
  | some _ => 0x8048

def vaddrLen (mc : Machine) : Ctx → ℕ
  | none => mc.btmpLen .kernel
  | some _ => (0xc0000 - 0x8048) / 8

structure Pte where
  frame : ℕ
  present : Bool
  deriving DecidableEq, Repr

/-- An address space: the bitmap of its virtual pages, its second-level tables and their
entries. -/
structure Space where
  vaddr : Bytes
  pde : ℕ → Option ℕ
  pte : ℕ → Pte

/-- The page directory has an entry for table `k`. The loader fills those of the kernel half. -/
def Space.tablePresent (sp : Space) (k : ℕ) : Bool := decide (768 ≤ k) || (sp.pde k).isSome

/-- The loader maps the low megabyte at `0xc0000000` for good. -/
def Space.ptePresent (sp : Space) (v : ℕ) : Bool :=
  decide (0xc0000 ≤ v ∧ v < 0xc0100) || (sp.pte v).present

structure Memory where
  pool : PoolFlag → Bytes
  space : Ctx → Space

/-- The kernel half of every page directory is the kernel's. -/
def home (c : Ctx) (v : ℕ) : Ctx := if 0xc0000 ≤ v then none else c

namespace Memory

def setPool (m : Memory) (pf : PoolFlag) (b : Bytes) : Memory :=
  { m with pool := Function.update m.pool pf b }

def setSpace (m : Memory) (c : Ctx) (sp : Space) : Memory :=
  { m with space := Function.update m.space c sp }

def setVaddr (m : Memory) (c : Ctx) (b : Bytes) : Memory :=
  m.setSpace c { m.space c with vaddr := b }

def setPte (m : Memory) (c : Ctx) (v : ℕ) (e : Pte) : Memory :=
  m.setSpace c { m.space c with pte := Function.update (m.space c).pte v e }

/-- A new second-level table, cleared. -/
def setTable (m : Memory) (c : Ctx) (k frame : ℕ) : Memory :=
  m.setSpace c { m.space c with
    pde := Function.update (m.space c).pde k (some frame)
    pte := fun v => if v / 1024 = k then ⟨0, false⟩ else (m.space c).pte v }

/-- The frame a page is mapped to. -/
def frameAt (m : Memory) (c : Ctx) (v : ℕ) : Option ℕ :=
  if (m.space c).tablePresent (v / 1024) ∧ ((m.space c).pte v).present then
    some ((m.space c).pte v).frame
  else none

end Memory

section Functions

variable (mc : Machine)

def poolBitmap (m : Memory) (pf : PoolFlag) : Bitmap := ⟨mc.btmpLen pf, m.pool pf⟩

def vaddrBitmap (m : Memory) (c : Ctx) : Bitmap := ⟨vaddrLen mc c, (m.space c).vaddr⟩

def vaddrGet (m : Memory) (c : Ctx) (pgCnt : ℕ) : Option (Memory × Option ℕ) := do
  match ← bitmapScan (vaddrBitmap mc m c) pgCnt with
  | none => return (m, none)
  | some i =>
    assert (c = none ∨ vaddrStart c + i < 0xbffff)
    return (m.setVaddr c (setBits (vaddrBitmap mc m c) i true pgCnt).bits,
      some (vaddrStart c + i))

def palloc (m : Memory) (pf : PoolFlag) : Option (Memory × Option ℕ) := do
  match ← bitmapScan (poolBitmap mc m pf) 1 with
  | none => return (m, none)
  | some i =>
    return (m.setPool pf (bitmapSet (poolBitmap mc m pf) i true).bits, some (mc.phyStart pf + i))

def pageTableAdd (m : Memory) (c : Ctx) (v frame : ℕ) : Option Memory :=
  let h := home c v
  if (m.space h).tablePresent (v / 1024) then do
    assert (!(m.space h).ptePresent v)
    return m.setPte h v ⟨frame, true⟩
  else do
    let (m, t) ← palloc mc m .kernel
    let m := m.setTable h (v / 1024) (t.getD 0)
    assert (!(m.space h).ptePresent v)
    return m.setPte h v ⟨frame, true⟩

/-- The loop of `malloc_page`; `false` when `palloc` returns `NULL`. -/
def mapPages (c : Ctx) : (cnt : ℕ) → Memory → (v : ℕ) → Option (Memory × Bool)
  | 0, m, _ => some (m, true)
  | cnt + 1, m, v => do
    match ← palloc mc m (flagOf c) with
    | (m, none) => return (m, false)
    | (m, some f) =>
      let m ← pageTableAdd mc m c v f
      mapPages c cnt m (v + 1)

def mallocPage (m : Memory) (c : Ctx) (pgCnt : ℕ) : Option (Memory × Option ℕ) := do
  assert (0 < pgCnt ∧ pgCnt < 3840)
  match ← vaddrGet mc m c pgCnt with
  | (m, none) => return (m, none)
  | (m, some v) =>
    let (m, ok) ← mapPages mc c pgCnt m v
    return (m, if ok then some v else none)

/-- The pool `pfree` takes a frame to be of. -/
def poolOf (f : ℕ) : PoolFlag := if mc.phyStart .user ≤ f then .user else .kernel

def pfree (m : Memory) (f : ℕ) : Memory :=
  m.setPool (poolOf mc f)
    (bitmapSet (poolBitmap mc m (poolOf mc f)) (f - mc.phyStart (poolOf mc f)) false).bits

/-- `free_a_phy_page` has the text of `pfree`. -/
def freeAPhyPage (m : Memory) (f : ℕ) : Memory := pfree mc m f

/-- The entry is read whether its page is present or not; without its table the read faults. -/
def addrV2p (m : Memory) (c : Ctx) (v : ℕ) : Option ℕ :=
  let sp := m.space (home c v)
  if sp.tablePresent (v / 1024) then some (sp.pte v).frame else none

def pageTablePteRemove (m : Memory) (c : Ctx) (v : ℕ) : Memory :=
  let h := home c v
  m.setPte h v { (m.space h).pte v with present := false }

def vaddrRemove (m : Memory) (c : Ctx) (v pgCnt : ℕ) : Memory :=
  m.setVaddr c (setBits (vaddrBitmap mc m c) (v - vaddrStart c) false pgCnt).bits

/-- The addresses a loop of `mfree_page` accepts, which the frame of the first page decides. -/
def accepts (first f : ℕ) : Bool :=
  if mc.phyStart .user ≤ first then mc.phyStart .user ≤ f
  else mc.phyStart .kernel ≤ f ∧ f < mc.phyStart .user

def unmapPages (c : Ctx) (first : ℕ) : (cnt : ℕ) → Memory → (v : ℕ) → Option Memory
  | 0, m, _ => some m
  | cnt + 1, m, v => do
    let f ← addrV2p m c v
    assert (accepts mc first f)
    unmapPages c first cnt (pageTablePteRemove (pfree mc m f) c v) (v + 1)

def mfreePage (m : Memory) (c : Ctx) (v pgCnt : ℕ) : Option Memory := do
  assert (1 ≤ pgCnt)
  let first ← addrV2p m c v
  let m ← unmapPages mc c first pgCnt m v
  return vaddrRemove mc m c v pgCnt

def getAPage (m : Memory) (c : Ctx) (v : ℕ) : Option Memory := do
  assert (c.isSome ∨ 0 < v - vaddrStart c)
  let m := m.setVaddr c (bitmapSet (vaddrBitmap mc m c) (v - vaddrStart c) true).bits
  let (m, f) ← palloc mc m (flagOf c)
  pageTableAdd mc m c v (f.getD 0)

def getAPageWithoutOpvaddrbitmap (m : Memory) (c : Ctx) (v : ℕ) : Option (Memory × Bool) := do
  match ← palloc mc m (flagOf c) with
  | (m, none) => return (m, false)
  | (m, some f) => return (← pageTableAdd mc m c v f, true)

end Functions

section Memory

variable {m : Memory} {c h : Ctx} {pf : PoolFlag} {v w k f : ℕ}

@[simp] theorem home_none : home none v = none := by
  unfold home
  split <;> rfl

theorem home_user (hv : v < 0xc0000) : home c v = c := if_neg (by omega)

@[simp] theorem setPool_space (b : Bytes) : (m.setPool pf b).space = m.space := rfl

@[simp] theorem setPool_frameAt (b : Bytes) : (m.setPool pf b).frameAt c v = m.frameAt c v := rfl

@[simp] theorem setPool_pool (b : Bytes) : (m.setPool pf b).pool pf = b :=
  Function.update_self ..

@[simp] theorem setSpace_pool (sp : Space) : (m.setSpace c sp).pool = m.pool := rfl

@[simp] theorem setSpace_self (sp : Space) : (m.setSpace c sp).space c = sp :=
  Function.update_self ..

theorem setSpace_ne (sp : Space) (hc : h ≠ c) : (m.setSpace c sp).space h = m.space h :=
  Function.update_of_ne hc ..

@[simp] theorem setVaddr_pool (b : Bytes) : (m.setVaddr c b).pool = m.pool := rfl

@[simp] theorem setPte_pool (e : Pte) : (m.setPte c v e).pool = m.pool := rfl

@[simp] theorem setTable_pool : (m.setTable c k f).pool = m.pool := rfl

theorem setVaddr_space (b : Bytes) :
    (m.setVaddr c b).space h = if h = c then { m.space c with vaddr := b } else m.space h := by
  by_cases hc : h = c
  · subst h
    simp [Memory.setVaddr]
  · simp [Memory.setVaddr, setSpace_ne _ hc, hc]

@[simp] theorem setVaddr_pde (b : Bytes) : ((m.setVaddr c b).space h).pde = (m.space h).pde := by
  rw [setVaddr_space]
  split <;> simp [*]

@[simp] theorem setVaddr_pte (b : Bytes) : ((m.setVaddr c b).space h).pte = (m.space h).pte := by
  rw [setVaddr_space]
  split <;> simp [*]

@[simp] theorem setVaddr_vaddr (b : Bytes) :
    ((m.setVaddr c b).space h).vaddr = if h = c then b else (m.space h).vaddr := by
  rw [setVaddr_space]
  split <;> simp [*]

theorem frameAt_congr {m' : Memory} (hd : (m'.space c).pde = (m.space c).pde)
    (ht : (m'.space c).pte = (m.space c).pte) : m'.frameAt c v = m.frameAt c v := by
  unfold Memory.frameAt Space.tablePresent
  rw [hd, ht]

@[simp] theorem setVaddr_frameAt (b : Bytes) : (m.setVaddr c b).frameAt h v = m.frameAt h v :=
  frameAt_congr (setVaddr_pde b) (setVaddr_pte b)

theorem setPte_space (e : Pte) :
    (m.setPte c v e).space h =
      if h = c then { m.space c with pte := Function.update (m.space c).pte v e }
      else m.space h := by
  by_cases hc : h = c
  · subst h
    simp [Memory.setPte]
  · simp [Memory.setPte, setSpace_ne _ hc, hc]

@[simp] theorem setPte_vaddr (e : Pte) :
    ((m.setPte c v e).space h).vaddr = (m.space h).vaddr := by
  rw [setPte_space]
  split <;> simp [*]

@[simp] theorem setPte_pde (e : Pte) : ((m.setPte c v e).space h).pde = (m.space h).pde := by
  rw [setPte_space]
  split <;> simp [*]

theorem setPte_pte (e : Pte) :
    ((m.setPte c v e).space h).pte w = if h = c ∧ w = v then e else (m.space h).pte w := by
  rw [setPte_space]
  by_cases hc : h = c
  · subst h
    by_cases hw : w = v
    · subst w
      simp
    · simp [hw]
  · simp [hc]

theorem setPte_tablePresent (e : Pte) :
    ((m.setPte c v e).space h).tablePresent k = (m.space h).tablePresent k := by
  simp only [Space.tablePresent, setPte_pde]

theorem frameAt_setPte {e : Pte} (ht : (m.space c).tablePresent (v / 1024)) :
    (m.setPte c v e).frameAt h w =
      if h = c ∧ w = v then (if e.present then some e.frame else none) else m.frameAt h w := by
  simp only [Memory.frameAt, setPte_tablePresent, setPte_pte]
  by_cases hc : h = c ∧ w = v
  · obtain ⟨rfl, rfl⟩ := hc
    simp [ht]
  · simp [hc]

theorem setTable_space :
    (m.setTable c k f).space h =
      if h = c then { m.space c with
        pde := Function.update (m.space c).pde k (some f)
        pte := fun v => if v / 1024 = k then ⟨0, false⟩ else (m.space c).pte v }
      else m.space h := by
  by_cases hc : h = c
  · subst h
    simp [Memory.setTable]
  · simp [Memory.setTable, setSpace_ne _ hc, hc]

@[simp] theorem setTable_vaddr : ((m.setTable c k f).space h).vaddr = (m.space h).vaddr := by
  rw [setTable_space]
  split <;> simp [*]

theorem setTable_pde :
    ((m.setTable c k f).space h).pde w = if h = c ∧ w = k then some f else (m.space h).pde w := by
  rw [setTable_space]
  by_cases hc : h = c
  · subst h
    by_cases hw : w = k
    · subst w
      simp
    · simp [hw]
  · simp [hc]

theorem setTable_present : ((m.setTable c k f).space c).tablePresent k = true := by
  simp [Space.tablePresent, setTable_pde]

/-- A cleared table maps nothing, and nothing was mapped without it. -/
theorem frameAt_setTable (hk : (m.space c).tablePresent k = false) :
    (m.setTable c k f).frameAt h v = m.frameAt h v := by
  by_cases hc : h = c
  · subst h
    by_cases hv : v / 1024 = k
    · have hpte : (((m.setTable c k f).space c).pte v).present = false := by
        simp [setTable_space, hv]
      simp [Memory.frameAt, hpte, hv, hk]
    · have hpte : ((m.setTable c k f).space c).pte v = (m.space c).pte v := by
        simp [setTable_space, hv]
      simp [Memory.frameAt, hpte, Space.tablePresent, setTable_pde, hv]
  · simp [Memory.frameAt, setTable_space, hc]

end Memory

section Frames

variable {mc : Machine} {m m' : Memory} {c h : Ctx} {pf : PoolFlag} {v w n f : ℕ}

theorem btmpLen_le (mc : Machine) (pf : PoolFlag) : 8 * mc.btmpLen pf ≤ mc.freePage pf :=
  Nat.mul_div_le ..

/-- Allocation takes a clear bit; `NULL` is not returned, a full pool halts. -/
theorem palloc_some {r : Option ℕ} (hp : palloc mc m pf = some (m', r)) :
    ∃ i, r = some (mc.phyStart pf + i) ∧ i < 8 * mc.btmpLen pf ∧
      bitmapScanTest (poolBitmap mc m pf) i = false ∧
      m' = m.setPool pf (bitmapSet (poolBitmap mc m pf) i true).bits := by
  simp only [palloc, bind_some_iff] at hp
  obtain ⟨s, hs, hp⟩ := hp
  obtain ⟨i, rfl, hi, hclear, -⟩ := bitmapScan_one hs
  simp only [Option.pure_def, Option.some.injEq, Prod.mk.injEq] at hp
  exact ⟨i, hp.2.symm, hi, hclear, hp.1.symm⟩

theorem palloc_space {r : Option ℕ} (hp : palloc mc m pf = some (m', r)) :
    m'.space = m.space := by
  obtain ⟨i, -, -, -, rfl⟩ := palloc_some hp
  rfl

theorem palloc_frameAt {r : Option ℕ} (hp : palloc mc m pf = some (m', r)) :
    m'.frameAt c v = m.frameAt c v := by
  obtain ⟨i, -, -, -, rfl⟩ := palloc_some hp
  rfl

theorem poolOf_phyStart {i : ℕ} (hi : i < 8 * mc.btmpLen pf) :
    poolOf mc (mc.phyStart pf + i) = pf := by
  have := btmpLen_le mc pf
  cases pf with
  | kernel =>
    apply if_neg
    simp only [Machine.phyStart]
    omega
  | user => exact if_pos (by omega)

/-- A frame's bit in its pool. -/
def taken (mc : Machine) (m : Memory) (f : ℕ) : Bool :=
  bitmapScanTest (poolBitmap mc m (poolOf mc f)) (f - mc.phyStart (poolOf mc f))

theorem phyStart_poolOf_le (hf : mc.phyStart .kernel ≤ f) : mc.phyStart (poolOf mc f) ≤ f := by
  unfold poolOf
  split
  · assumption
  · exact hf

theorem poolBitmap_setPool (b : Bytes) {pf' : PoolFlag} :
    poolBitmap mc (m.setPool pf b) pf' =
      if pf' = pf then ⟨mc.btmpLen pf, b⟩ else poolBitmap mc m pf' := by
  by_cases hpf : pf' = pf
  · subst pf'
    simp [poolBitmap]
  · simp [poolBitmap, Memory.setPool, hpf]

theorem test_setPool_bitmapSet {pf' : PoolFlag} {i j : ℕ} {b : Bool} :
    bitmapScanTest (poolBitmap mc (m.setPool pf (bitmapSet (poolBitmap mc m pf) i b).bits) pf') j =
      if pf' = pf ∧ j = i then b else bitmapScanTest (poolBitmap mc m pf') j := by
  rw [poolBitmap_setPool]
  by_cases hpf : pf' = pf
  · subst pf'
    rw [if_pos rfl]
    have hset : (⟨mc.btmpLen pf, (bitmapSet (poolBitmap mc m pf) i b).bits⟩ : Bitmap) =
        bitmapSet (poolBitmap mc m pf) i b := rfl
    rw [hset, bitmapScanTest_set]
    simp
  · simp [hpf]

theorem taken_setPool {g : ℕ} {b : Bool} (hf : mc.phyStart .kernel ≤ f)
    (hg : mc.phyStart .kernel ≤ g) :
    taken mc (m.setPool (poolOf mc f) (bitmapSet (poolBitmap mc m (poolOf mc f))
      (f - mc.phyStart (poolOf mc f)) b).bits) g = if g = f then b else taken mc m g := by
  rw [taken, test_setPool_bitmapSet]
  have h1 := phyStart_poolOf_le hf
  have h2 := phyStart_poolOf_le hg
  by_cases hgf : g = f
  · subst g
    simp
  · rw [if_neg hgf, if_neg]
    · rfl
    · rintro ⟨hp, hi⟩
      rw [hp] at h2 hi
      omega

theorem taken_pfree {g : ℕ} (hf : mc.phyStart .kernel ≤ f) (hg : mc.phyStart .kernel ≤ g) :
    taken mc (pfree mc m f) g = if g = f then false else taken mc m g :=
  taken_setPool hf hg

theorem phyStart_kernel_le : mc.phyStart .kernel ≤ mc.phyStart pf := by
  cases pf with
  | kernel => exact le_rfl
  | user => exact Nat.le_add_right _ _

/-- The same in terms of frames. -/
theorem palloc_taken {r : Option ℕ} (hp : palloc mc m pf = some (m', r)) :
    ∃ f, r = some f ∧ mc.phyStart .kernel ≤ f ∧ poolOf mc f = pf ∧ taken mc m f = false ∧
      ∀ g, mc.phyStart .kernel ≤ g → taken mc m' g = (decide (g = f) || taken mc m g) := by
  obtain ⟨i, rfl, hi, hclear, rfl⟩ := palloc_some hp
  have hpool : poolOf mc (mc.phyStart pf + i) = pf := poolOf_phyStart hi
  have hle : mc.phyStart .kernel ≤ mc.phyStart pf + i :=
    le_trans phyStart_kernel_le (Nat.le_add_right _ _)
  have hidx : mc.phyStart pf + i - mc.phyStart pf = i := by omega
  refine ⟨_, rfl, hle, hpool, ?_, fun g hg => ?_⟩
  · rw [taken, hpool, hidx, hclear]
  · have := taken_setPool (m := m) (b := true) hle hg
    rw [hpool, hidx] at this
    rw [this]
    by_cases hgf : g = mc.phyStart pf + i <;> simp [hgf]

theorem pageTableAdd_cases (ha : pageTableAdd mc m c v f = some m') :
    ¬(0xc0000 ≤ v ∧ v < 0xc0100) ∧
    (((m.space (home c v)).tablePresent (v / 1024) = true ∧
        ((m.space (home c v)).pte v).present = false ∧ m' = m.setPte (home c v) v ⟨f, true⟩) ∨
      ((m.space (home c v)).tablePresent (v / 1024) = false ∧
        ∃ m₁ t, palloc mc m .kernel = some (m₁, some t) ∧
          m' = (m₁.setTable (home c v) (v / 1024) t).setPte (home c v) v ⟨f, true⟩)) := by
  simp only [pageTableAdd] at ha
  split at ha
  · rename_i ht
    simp only [assert_bind, Option.pure_def, Option.some.injEq, Space.ptePresent,
      Bool.not_eq_true', Bool.or_eq_false_iff, decide_eq_false_iff_not] at ha
    exact ⟨ha.1.1, .inl ⟨ht, ha.1.2, ha.2.symm⟩⟩
  · rename_i ht
    simp only [bind_some_iff, assert_eq_some] at ha
    obtain ⟨⟨m₁, r⟩, hp, _, hassert, hm⟩ := ha
    obtain ⟨t, rfl, -⟩ := palloc_taken hp
    simp only [Space.ptePresent, Bool.not_eq_true', Bool.or_eq_false_iff,
      decide_eq_false_iff_not] at hassert
    exact ⟨hassert.1, .inr ⟨by simpa using ht, m₁, t, hp, (Option.some.inj hm).symm⟩⟩

/-- The page was not mapped and is now, and no other mapping changes. -/
theorem pageTableAdd_frameAt (ha : pageTableAdd mc m c v f = some m') :
    m.frameAt (home c v) v = none ∧
      ∀ h w, m'.frameAt h w = if h = home c v ∧ w = v then some f else m.frameAt h w := by
  obtain ⟨-, ⟨ht, hpte, rfl⟩ | ⟨ht, m₁, t, hp, rfl⟩⟩ := pageTableAdd_cases ha
  · refine ⟨by simp [Memory.frameAt, hpte], fun h w => ?_⟩
    rw [frameAt_setPte ht]
    simp
  · refine ⟨by simp [Memory.frameAt, ht], fun h w => ?_⟩
    rw [frameAt_setPte setTable_present, frameAt_setTable (by rw [palloc_space hp, ht]),
      palloc_frameAt hp]
    simp

theorem pageTableAdd_vaddr (ha : pageTableAdd mc m c v f = some m') :
    (m'.space h).vaddr = (m.space h).vaddr := by
  obtain ⟨-, ⟨ht, hpte, rfl⟩ | ⟨ht, m₁, t, hp, rfl⟩⟩ := pageTableAdd_cases ha
  · rw [setPte_vaddr]
  · rw [setPte_vaddr, setTable_vaddr, palloc_space hp]

end Frames

/-- The page is marked in the bitmap of the context's virtual addresses. -/
def Reserved (mc : Machine) (m : Memory) (c : Ctx) (v : ℕ) : Prop :=
  bitmapScanTest (vaddrBitmap mc m c) (v - vaddrStart c) = true

/-- What a context has gained: the pages of the run were free, and are reserved and mapped. -/
structure Gained (mc : Machine) (m m' : Memory) (c : Ctx) (v n : ℕ) : Prop where
  start : vaddrStart c ≤ v
  own : c = none ∨ v + n ≤ 0xc0000
  free : ∀ w ∈ span v n, ¬Reserved mc m c w
  unmapped : ∀ w ∈ span v n, m.frameAt c w = none
  mapped : ∀ w ∈ span v n, ∃ f, m'.frameAt c w = some f
  reserved : ∀ h w, vaddrStart h ≤ w →
    (Reserved mc m' h w ↔ (h = c ∧ w ∈ span v n) ∨ Reserved mc m h w)
  others : ∀ h w, ¬(h = c ∧ w ∈ span v n) → m'.frameAt h w = m.frameAt h w

/-- What a context has given back. -/
structure Lost (mc : Machine) (m m' : Memory) (c : Ctx) (v n : ℕ) : Prop where
  unmapped : ∀ w ∈ span v n, m'.frameAt c w = none
  reserved : ∀ h w, vaddrStart h ≤ w →
    (Reserved mc m' h w ↔ ¬(h = c ∧ w ∈ span v n) ∧ Reserved mc m h w)
  others : ∀ h w, ¬(h = c ∧ w ∈ span v n) → m'.frameAt h w = m.frameAt h w

section Runs

variable {mc : Machine} {m m' : Memory} {c h : Ctx} {v w n f : ℕ}

theorem reserved_congr (hv : (m'.space h).vaddr = (m.space h).vaddr) :
    Reserved mc m' h w ↔ Reserved mc m h w := by
  simp only [Reserved, vaddrBitmap, hv]

theorem vaddrBitmap_setVaddr {b : Bitmap} (hb : b.btmpBytesLen = vaddrLen mc c) :
    vaddrBitmap mc (m.setVaddr c b.bits) c = b := by
  obtain ⟨len, bits⟩ := b
  obtain rfl : len = vaddrLen mc c := hb
  simp [vaddrBitmap]

theorem reserved_setBits {i : ℕ} {b : Bool} (hw : vaddrStart h ≤ w) :
    Reserved mc (m.setVaddr c (setBits (vaddrBitmap mc m c) i b n).bits) h w ↔
      (b = true ∧ h = c ∧ w ∈ span (vaddrStart c + i) n) ∨
      (¬(h = c ∧ w ∈ span (vaddrStart c + i) n) ∧ Reserved mc m h w) := by
  by_cases hc : h = c
  · subst h
    have hiff : w ∈ span (vaddrStart c + i) n ↔
        i ≤ w - vaddrStart c ∧ w - vaddrStart c < i + n := by
      simp only [mem_span]
      omega
    unfold Reserved
    rw [vaddrBitmap_setVaddr (by rw [setBits_len]; rfl), bitmapScanTest_setBits]
    by_cases hin : i ≤ w - vaddrStart c ∧ w - vaddrStart c < i + n
    · simp [hin, hiff.mpr hin]
    · simp [hin, hiff]
  · simp only [hc, false_and, and_false, not_false_eq_true, true_and, false_or]
    exact reserved_congr (by rw [setVaddr_vaddr, if_neg hc])

theorem vaddrGet_cases {r : Option ℕ} (hg : vaddrGet mc m c n = some (m', r)) (hn : 0 < n) :
    (r = none ∧ m' = m) ∨
      ∃ i, r = some (vaddrStart c + i) ∧
        (∀ k < n, bitmapScanTest (vaddrBitmap mc m c) (i + k) = false) ∧
        i + n ≤ 8 * vaddrLen mc c + 1 ∧
        m' = m.setVaddr c (setBits (vaddrBitmap mc m c) i true n).bits := by
  simp only [vaddrGet, bind_some_iff] at hg
  obtain ⟨s, hs, hg⟩ := hg
  cases s with
  | none =>
    simp only [Option.pure_def, Option.some.injEq, Prod.mk.injEq] at hg
    exact .inl ⟨hg.2.symm, hg.1.symm⟩
  | some i =>
    simp only [assert_bind, Option.pure_def, Option.some.injEq, Prod.mk.injEq] at hg
    obtain ⟨hclear, hle⟩ := bitmapScan_clear hn hs
    exact .inr ⟨i, hg.2.2.symm, hclear, hle, hg.2.1.symm⟩

/-- A page is mapped by taking a frame and entering it in the table. -/
theorem mapPages_succ {ok : Bool} (hm : mapPages mc c (n + 1) m v = some (m', ok)) :
    ∃ m₁ m₂ f, palloc mc m (flagOf c) = some (m₁, some f) ∧
      pageTableAdd mc m₁ c v f = some m₂ ∧ mapPages mc c n m₂ (v + 1) = some (m', ok) := by
  simp only [mapPages, bind_some_iff] at hm
  obtain ⟨⟨m₁, r⟩, hp, hm⟩ := hm
  obtain ⟨f, rfl, -⟩ := palloc_taken hp
  simp only [bind_some_iff] at hm
  obtain ⟨m₂, ha, hm⟩ := hm
  exact ⟨m₁, m₂, f, hp, ha, hm⟩

/-- The loop of `malloc_page` keeps what each page it maps keeps. -/
theorem mapPages_invariant (Inv : Memory → Prop)
    (hstep : ∀ m m₁ m₂ w f, w ∈ span v n → Inv m → palloc mc m (flagOf c) = some (m₁, some f) →
      pageTableAdd mc m₁ c w f = some m₂ → Inv m₂) {ok : Bool} (hinv : Inv m)
    (hm : mapPages mc c n m v = some (m', ok)) : Inv m' := by
  induction n generalizing m v with
  | zero =>
    simp only [mapPages, Option.some.injEq, Prod.mk.injEq] at hm
    exact hm.1 ▸ hinv
  | succ n ih =>
    obtain ⟨m₁, m₂, f, hp, ha, hm⟩ := mapPages_succ hm
    have hstep' : ∀ m m₁ m₂ w f, w ∈ span (v + 1) n → Inv m →
        palloc mc m (flagOf c) = some (m₁, some f) → pageTableAdd mc m₁ c w f = some m₂ →
        Inv m₂ := by
      intro m m₁ m₂ w f hw
      have hw' : w ∈ span v (n + 1) := by
        simp only [mem_span] at hw ⊢
        omega
      exact hstep m m₁ m₂ w f hw'
    exact ih hstep' (hstep m m₁ m₂ v f (by simp) hinv hp ha) hm

/-- A run of user pages that reaches the kernel half runs into the low megabyte. -/
theorem pageTableAdd_home (ha : pageTableAdd mc m c v f = some m') (hv : c = none ∨ v ≤ 0xc0000) :
    home c v = c ∧ (c = none ∨ v < 0xc0000) := by
  rcases hv with rfl | hv
  · simp
  · have := (pageTableAdd_cases ha).1
    have hlt : v < 0xc0000 := by omega
    exact ⟨home_user hlt, .inr hlt⟩

theorem mapPages_vaddr {ok : Bool} (hm : mapPages mc c n m v = some (m', ok)) :
    ∀ h, (m'.space h).vaddr = (m.space h).vaddr := by
  refine mapPages_invariant (fun m₁ => ∀ h, (m₁.space h).vaddr = (m.space h).vaddr) ?_
    (fun _ => rfl) hm
  intro m₀ m₁ m₂ w f _ hinv hp ha h
  rw [pageTableAdd_vaddr ha, palloc_space hp, hinv h]

theorem mapPages_mapped {ok : Bool} (hm : mapPages mc c n m v = some (m', ok))
    (hv : c = none ∨ v + n ≤ 0xc0001) :
    ok = true ∧ (c = none ∨ n = 0 ∨ v + n ≤ 0xc0000) ∧ (∀ w ∈ span v n, m.frameAt c w = none) ∧
      (∀ w ∈ span v n, ∃ f, m'.frameAt c w = some f) ∧
      ∀ h w, ¬(h = c ∧ w ∈ span v n) → m'.frameAt h w = m.frameAt h w := by
  induction n generalizing m v with
  | zero =>
    simp only [mapPages, Option.some.injEq, Prod.mk.injEq] at hm
    obtain ⟨rfl, rfl⟩ := hm
    simp
  | succ n ih =>
    obtain ⟨m₁, m₂, f, hp, ha, hm⟩ := mapPages_succ hm
    obtain ⟨hhome, hlt⟩ := pageTableAdd_home ha (hv.imp_right fun h => by omega)
    obtain ⟨hnone, hadd⟩ := pageTableAdd_frameAt ha
    rw [hhome] at hnone hadd
    have hp' : ∀ h w, m₁.frameAt h w = m.frameAt h w := fun h w => palloc_frameAt hp
    obtain ⟨hok, hown, hfree, hmapped, hothers⟩ := ih hm (hv.imp_right fun h => by omega)
    refine ⟨hok, ?_, ?_, ?_, ?_⟩
    · rcases hown with hc | hn | hle
      · exact .inl hc
      · exact hlt.imp_right fun hlt => .inr (by omega)
      · exact .inr (.inr (by omega))
    · intro w hw
      by_cases hwv : w = v
      · subst w
        rw [← hp', hnone]
      · have hw' : w ∈ span (v + 1) n := by
          simp only [mem_span] at hw ⊢
          omega
        have := hfree w hw'
        rwa [hadd, if_neg (fun h => hwv h.2), hp'] at this
    · intro w hw
      by_cases hwv : w = v
      · subst w
        refine ⟨f, ?_⟩
        rw [hothers c v (by simp), hadd, if_pos ⟨rfl, rfl⟩]
      · refine hmapped w ?_
        simp only [mem_span] at hw ⊢
        omega
    · intro h w hw
      have hne : ¬(h = c ∧ w = v) := by
        rintro ⟨rfl, rfl⟩
        exact hw ⟨rfl, by simp⟩
      rw [hothers h w ?_, hadd, if_neg hne, hp']
      rintro ⟨rfl, hin⟩
      refine hw ⟨rfl, ?_⟩
      simp only [mem_span] at hin ⊢
      omega

theorem mallocPage_cases {r : Option ℕ} (hm : mallocPage mc m c n = some (m', r)) :
    0 < n ∧ ((r = none ∧ m' = m) ∨ ∃ v m₁, r = some v ∧ vaddrGet mc m c n = some (m₁, some v) ∧
      mapPages mc c n m₁ v = some (m', true)) := by
  simp only [mallocPage, bind_some_iff, assert_eq_some] at hm
  obtain ⟨_, hn, ⟨m₁, s⟩, hg, hm⟩ := hm
  refine ⟨hn.1, ?_⟩
  rcases vaddrGet_cases hg hn.1 with ⟨rfl, rfl⟩ | ⟨i, rfl, -, hle, -⟩
  · simp only [Option.pure_def, Option.some.injEq, Prod.mk.injEq] at hm
    exact .inl ⟨hm.2.symm, hm.1.symm⟩
  · simp only [bind_some_iff] at hm
    obtain ⟨⟨m₂, ok⟩, hmap, hm⟩ := hm
    have hv : c = none ∨ vaddrStart c + i + n ≤ 0xc0001 := by
      cases c with
      | none => exact .inl rfl
      | some p =>
        simp only [vaddrLen, vaddrStart] at hle ⊢
        omega
    have hok := (mapPages_mapped hmap hv).1
    subst ok
    simp only [Option.pure_def, Option.some.injEq, Prod.mk.injEq, if_true] at hm
    exact .inr ⟨_, m₁, hm.2.symm, hg, hm.1 ▸ hmap⟩

theorem vaddrGet_run (hg : vaddrGet mc m c n = some (m', some v)) (hn : 0 < n) :
    vaddrStart c ≤ v ∧ (c = none ∨ v + n ≤ 0xc0001) ∧ (∀ w ∈ span v n, ¬Reserved mc m c w) ∧
      (∀ h w, m'.frameAt h w = m.frameAt h w) ∧
      ∀ h w, vaddrStart h ≤ w →
        (Reserved mc m' h w ↔ (h = c ∧ w ∈ span v n) ∨ Reserved mc m h w) := by
  rcases vaddrGet_cases hg hn with ⟨hr, -⟩ | ⟨i, hr, hclear, hle, rfl⟩
  · cases hr
  obtain rfl := Option.some.inj hr
  refine ⟨Nat.le_add_right _ _, ?_, ?_, fun h w => setVaddr_frameAt _, ?_⟩
  · cases c with
    | none => exact .inl rfl
    | some p =>
      simp only [vaddrLen, vaddrStart] at hle ⊢
      omega
  · intro w hw
    rw [mem_span] at hw
    have hk := hclear (w - vaddrStart c - i) (by omega)
    rw [show i + (w - vaddrStart c - i) = w - vaddrStart c by omega] at hk
    simp [Reserved, hk]
  · intro h w hw
    rw [reserved_setBits hw]
    by_cases hin : h = c ∧ w ∈ span (vaddrStart c + i) n
    · simp only [hin, true_and, true_or, not_true_eq_false, false_and, or_false]
    · simp only [hin, and_false, false_or, not_false_eq_true, true_and]

theorem mallocPage_gained (hm : mallocPage mc m c n = some (m', some v)) :
    Gained mc m m' c v n := by
  obtain ⟨hn, ⟨hr, -⟩ | ⟨v', m₁, hr, hg, hmap⟩⟩ := mallocPage_cases hm
  · cases hr
  obtain rfl := Option.some.inj hr
  obtain ⟨hstart, hle, hfree, hframe, hres⟩ := vaddrGet_run hg hn
  obtain ⟨-, hown, hunmapped, hmapped, hothers⟩ := mapPages_mapped hmap hle
  constructor
  case start => exact hstart
  case own => exact hown.imp_right fun h => by omega
  case free => exact hfree
  case unmapped =>
    intro w hw
    rw [← hframe, hunmapped w hw]
  case mapped => exact hmapped
  case reserved =>
    intro h w hw
    rw [reserved_congr (mapPages_vaddr hmap h), hres h w hw]
  case others =>
    intro h w hw
    rw [hothers h w hw, hframe]

theorem pfree_space : (pfree mc m f).space = m.space := rfl

theorem unmapPages_succ {first : ℕ} (hu : unmapPages mc c first (n + 1) m v = some m') :
    ∃ f, addrV2p m c v = some f ∧ accepts mc first f = true ∧
      unmapPages mc c first n (pageTablePteRemove (pfree mc m f) c v) (v + 1) = some m' := by
  simp only [unmapPages, bind_some_iff, assert_eq_some] at hu
  obtain ⟨f, hf, _, ha, hu⟩ := hu
  exact ⟨f, hf, ha, hu⟩

theorem addrV2p_of_mapped (hf : m.frameAt (home c v) v = some f) : addrV2p m c v = some f := by
  unfold Memory.frameAt at hf
  split at hf
  · rename_i ht
    simp only [addrV2p, ht.1, if_true]
    exact hf
  · cases hf

theorem addrV2p_table (ha : addrV2p m c v = some f) :
    (m.space (home c v)).tablePresent (v / 1024) = true ∧
      ((m.space (home c v)).pte v).frame = f := by
  simp only [addrV2p] at ha
  split at ha
  · rename_i ht
    exact ⟨ht, Option.some.inj ha⟩
  · cases ha

theorem pageTablePteRemove_frameAt (ha : addrV2p m c v = some f) :
    (pageTablePteRemove (pfree mc m f) c v).frameAt h w =
      if h = home c v ∧ w = v then none else m.frameAt h w := by
  have ht : ((pfree mc m f).space (home c v)).tablePresent (v / 1024) = true :=
    (addrV2p_table ha).1
  rw [pageTablePteRemove, frameAt_setPte ht]
  rfl

theorem pageTablePteRemove_vaddr :
    ((pageTablePteRemove m c v).space h).vaddr = (m.space h).vaddr := setPte_vaddr _

/-- The loops of `mfree_page` keep what each page they give back keeps. -/
theorem unmapPages_invariant (Inv : Memory → Prop) {first : ℕ}
    (hstep : ∀ m w f, w ∈ span v n → Inv m → addrV2p m c w = some f → accepts mc first f = true →
      Inv (pageTablePteRemove (pfree mc m f) c w)) (hinv : Inv m)
    (hu : unmapPages mc c first n m v = some m') : Inv m' := by
  induction n generalizing m v with
  | zero => exact Option.some.inj hu ▸ hinv
  | succ n ih =>
    obtain ⟨f, hf, hacc, hu⟩ := unmapPages_succ hu
    have hstep' : ∀ m w f, w ∈ span (v + 1) n → Inv m → addrV2p m c w = some f →
        accepts mc first f = true → Inv (pageTablePteRemove (pfree mc m f) c w) := by
      intro m w f hw
      have hw' : w ∈ span v (n + 1) := by
        simp only [mem_span] at hw ⊢
        omega
      exact hstep m w f hw'
    exact ih hstep' (hstep m v f (by simp) hinv hf hacc) hu

theorem unmapPages_frameAt {first : ℕ} (hu : unmapPages mc c first n m v = some m')
    (hv : c = none ∨ v + n ≤ 0xc0000) :
    (∀ w ∈ span v n, m'.frameAt c w = none) ∧
      ∀ h w, ¬(h = c ∧ w ∈ span v n) → m'.frameAt h w = m.frameAt h w := by
  induction n generalizing m v with
  | zero =>
    obtain rfl := Option.some.inj hu
    simp
  | succ n ih =>
    obtain ⟨f, hf, -, hu⟩ := unmapPages_succ hu
    have hhome : home c v = c := by
      rcases hv with rfl | hv
      · simp
      · exact home_user (by omega)
    have hone : ∀ h w, (pageTablePteRemove (pfree mc m f) c v).frameAt h w =
        if h = c ∧ w = v then none else m.frameAt h w := by
      intro h w
      rw [pageTablePteRemove_frameAt hf, hhome]
    obtain ⟨hun, hothers⟩ := ih hu (hv.imp_right fun h => by omega)
    constructor
    · intro w hw
      by_cases hwv : w = v
      · subst w
        rw [hothers c v (by simp), hone, if_pos ⟨rfl, rfl⟩]
      · refine hun w ?_
        simp only [mem_span] at hw ⊢
        omega
    · intro h w hw
      have hne : ¬(h = c ∧ w = v) := by
        rintro ⟨rfl, rfl⟩
        exact hw ⟨rfl, by simp⟩
      rw [hothers h w ?_, hone, if_neg hne]
      rintro ⟨rfl, hin⟩
      refine hw ⟨rfl, ?_⟩
      simp only [mem_span] at hin ⊢
      omega

theorem unmapPages_vaddr {first : ℕ} (hu : unmapPages mc c first n m v = some m') :
    ∀ h, (m'.space h).vaddr = (m.space h).vaddr := by
  refine unmapPages_invariant (fun m₁ => ∀ h, (m₁.space h).vaddr = (m.space h).vaddr) ?_
    (fun _ => rfl) hu
  intro m₁ w f _ hinv _ _ h
  rw [pageTablePteRemove_vaddr, pfree_space, hinv h]

theorem mfreePage_cases (hf : mfreePage mc m c v n = some m') :
    0 < n ∧ ∃ first m₁, addrV2p m c v = some first ∧
      unmapPages mc c first n m v = some m₁ ∧ m' = vaddrRemove mc m₁ c v n := by
  simp only [mfreePage, bind_some_iff, assert_eq_some] at hf
  obtain ⟨_, hn, first, ha, m₁, hu, hm⟩ := hf
  exact ⟨hn, first, m₁, ha, hu, (Option.some.inj hm).symm⟩

theorem mfreePage_lost (hf : mfreePage mc m c v n = some m') (hstart : vaddrStart c ≤ v)
    (hv : c = none ∨ v + n ≤ 0xc0000) : Lost mc m m' c v n := by
  obtain ⟨-, first, m₁, -, hu, rfl⟩ := mfreePage_cases hf
  obtain ⟨hun, hothers⟩ := unmapPages_frameAt hu hv
  constructor
  case unmapped =>
    intro w hw
    rw [vaddrRemove, setVaddr_frameAt, hun w hw]
  case reserved =>
    intro h w hw
    rw [vaddrRemove, reserved_setBits hw, reserved_congr (unmapPages_vaddr hu h),
      show vaddrStart c + (v - vaddrStart c) = v by omega]
    simp
  case others =>
    intro h w hw
    rw [vaddrRemove, setVaddr_frameAt, hothers h w hw]

/-- The other contexts keep their addresses. -/
theorem mallocPage_vaddr {r : Option ℕ} (hm : mallocPage mc m c n = some (m', r)) (hc : h ≠ c) :
    (m'.space h).vaddr = (m.space h).vaddr := by
  obtain ⟨hn, ⟨-, rfl⟩ | ⟨v, m₁, -, hg, hmap⟩⟩ := mallocPage_cases hm
  · rfl
  · rw [mapPages_vaddr hmap]
    rcases vaddrGet_cases hg hn with ⟨-, rfl⟩ | ⟨i, -, -, -, rfl⟩
    · rfl
    · rw [setVaddr_vaddr, if_neg hc]

/-- The byte of the bitmap a single page is marked in. -/
theorem mallocPage_one_vaddr {a j : ℕ} (hm : mallocPage mc m c 1 = some (m', some a))
    (hj : j ≠ (a - vaddrStart c) / 8) : (m'.space c).vaddr j = (m.space c).vaddr j := by
  obtain ⟨hn, ⟨hr, -⟩ | ⟨v, m₁, hr, hg, hmap⟩⟩ := mallocPage_cases hm
  · cases hr
  obtain rfl := Option.some.inj hr
  rw [mapPages_vaddr hmap]
  rcases vaddrGet_cases hg hn with ⟨hr, -⟩ | ⟨i, hr, -, -, rfl⟩
  · cases hr
  · obtain rfl := Option.some.inj hr
    rw [Nat.add_sub_cancel_left] at hj
    rw [setVaddr_vaddr, if_pos rfl]
    exact bitmapSet_bits_ne hj

theorem mfreePage_vaddr (hm : mfreePage mc m c v n = some m') (hc : h ≠ c) :
    (m'.space h).vaddr = (m.space h).vaddr := by
  obtain ⟨-, first, m₁, -, hu, rfl⟩ := mfreePage_cases hm
  rw [vaddrRemove, setVaddr_vaddr, if_neg hc, unmapPages_vaddr hu]

theorem getAPage_cases (hg : getAPage mc m c v = some m') :
    ∃ m₁ f, palloc mc (m.setVaddr c (bitmapSet (vaddrBitmap mc m c) (v - vaddrStart c) true).bits)
        (flagOf c) = some (m₁, some f) ∧ pageTableAdd mc m₁ c v f = some m' := by
  simp only [getAPage, bind_some_iff, assert_eq_some] at hg
  obtain ⟨_, -, ⟨m₁, r⟩, hp, ha⟩ := hg
  obtain ⟨f, rfl, -⟩ := palloc_taken hp
  exact ⟨m₁, f, hp, ha⟩

theorem getAPage_vaddr (hg : getAPage mc m c v = some m') :
    (m'.space h).vaddr = if h = c then (bitmapSet (vaddrBitmap mc m c) (v - vaddrStart c) true).bits
      else (m.space h).vaddr := by
  obtain ⟨m₁, f, hp, ha⟩ := getAPage_cases hg
  rw [pageTableAdd_vaddr ha, palloc_space hp, setVaddr_vaddr]

end Runs

end MemoryPages
