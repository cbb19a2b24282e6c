import XianweiOS.MemoryPages
import Mathlib.Data.Set.BooleanAlgebra
import Mathlib.Order.CompletePartialOrder
import Mathlib.Order.Interval.Finset.Nat

/-! The pools that `mem_pool_init` sets up, down to the addresses of their bitmaps. Sizes are
computed in 32 bits, counts of pages in 16. Memory is the bytes at their addresses. -/
namespace MemoryPools

open ByteStore HaltingProgram KernelBitmap

open MemoryPages (PoolFlag Machine pgSize)

def memBitmapBase : ℕ := 0xc009a000
def kHeapStart : ℕ := 0xc0100000
/-- The page of the main thread's `task_struct`. -/
def mainThreadPage : ℕ := 0xc009e000

/-- `struct bitmap` -/
structure BitmapDesc where
  btmpBytesLen : ℕ
  bits : ℕ

/-- `struct pool` -/
structure Pool where
  poolBitmap : BitmapDesc
  phyAddrStart : ℕ
  phySize : ℕ

/-- `struct virtual_addr` -/
structure VirtualAddr where
  vaddrBitmap : BitmapDesc
  vaddrStart : ℕ

/-- The globals of `memory.c`. -/
structure Pools where
  kernelPool : Pool
  userPool : Pool
  kernelVaddr : VirtualAddr

def Pools.pool (ps : Pools) : PoolFlag → Pool
  | .kernel => ps.kernelPool
  | .user => ps.userPool

def bitmapInit (btmp : BitmapDesc) (mem : Bytes) : Bytes :=
  patch mem btmp.bits btmp.btmpBytesLen zeroes

def memPoolInit (allMem : ℕ) (mem : Bytes) : Pools × Bytes :=
  let pageTableSize := pgSize * 256
  let usedMem := pageTableSize + 0x100000
  let freeMem := (allMem + 2 ^ 32 - usedMem) % 2 ^ 32
  let allFreePage := freeMem / pgSize % 2 ^ 16
  let kernelFreePage := allFreePage / 2
  let userFreePage := allFreePage - kernelFreePage
  let kbmLength := kernelFreePage / 8
  let ubmLength := userFreePage / 8
  let kpStart := usedMem
  let upStart := (kpStart + kernelFreePage * pgSize) % 2 ^ 32
  let kernelPool : Pool :=
    { poolBitmap := { btmpBytesLen := kbmLength, bits := memBitmapBase }
      phyAddrStart := kpStart
      phySize := kernelFreePage * pgSize }
  let userPool : Pool :=
    { poolBitmap := { btmpBytesLen := ubmLength, bits := memBitmapBase + kbmLength }
      phyAddrStart := upStart
      phySize := userFreePage * pgSize }
  let mem := bitmapInit kernelPool.poolBitmap mem
  let mem := bitmapInit userPool.poolBitmap mem
  let kernelVaddr : VirtualAddr :=
    { vaddrBitmap :=
        { btmpBytesLen := kbmLength, bits := memBitmapBase + kbmLength + ubmLength }
      vaddrStart := kHeapStart }
  let mem := bitmapInit kernelVaddr.vaddrBitmap mem
  ({ kernelPool, userPool, kernelVaddr }, mem)

/-- The bitmap as it stands in memory. -/
def bitmapAt (mem : Bytes) (btmp : BitmapDesc) : Bitmap := ⟨btmp.btmpBytesLen, window mem btmp.bits⟩

/-- `bitmap_set` on a bitmap in memory: one byte is written. -/
def setBit (btmp : BitmapDesc) (bitIdx : ℕ) (value : Bool) (mem : Bytes) : Bytes :=
  Function.update mem (btmp.bits + bitIdx / 8)
    ((bitmapSet (bitmapAt mem btmp) bitIdx value).bits (bitIdx / 8))

/-- `none` inside stands for `NULL`. -/
def palloc (mPool : Pool) (mem : Bytes) : Option (Bytes × Option ℕ) := do
  match ← bitmapScan (bitmapAt mem mPool.poolBitmap) 1 with
  | none => return (mem, none)
  | some bitIdx =>
    return (setBit mPool.poolBitmap bitIdx true mem,
      some ((mPool.phyAddrStart + bitIdx * pgSize) % 2 ^ 32))

def pfree (ps : Pools) (pgPhyAddr : ℕ) (mem : Bytes) : Bytes :=
  if ps.userPool.phyAddrStart ≤ pgPhyAddr then
    let bitIdx := (pgPhyAddr - ps.userPool.phyAddrStart) / pgSize
    setBit ps.userPool.poolBitmap bitIdx false mem
  else
    let bitIdx := (pgPhyAddr + 2 ^ 32 - ps.kernelPool.phyAddrStart) % 2 ^ 32 / pgSize
    setBit ps.kernelPool.poolBitmap bitIdx false mem

/-- `free_a_phy_page` has the text of `pfree`. -/
def freeAPhyPage (ps : Pools) (pgPhyAddr : ℕ) (mem : Bytes) : Bytes := pfree ps pgPhyAddr mem

variable {allMem f a i : ℕ} {pf : PoolFlag} {mem mem' : Bytes} {btmp : BitmapDesc} {p : Pool}
  {ps : Pools} {mc : Machine}

/-! ### Sizes -/

/-- The pools of the machine that `MemoryPages` starts from. -/
def machinePools (mc : Machine) : Pools where
  kernelPool := ⟨⟨mc.btmpLen .kernel, memBitmapBase⟩, mc.phyStart .kernel * pgSize,
    mc.phySize .kernel⟩
  userPool := ⟨⟨mc.btmpLen .user, memBitmapBase + mc.btmpLen .kernel⟩, mc.phyStart .user * pgSize,
    mc.phySize .user⟩
  kernelVaddr := ⟨⟨mc.btmpLen .kernel, memBitmapBase + mc.btmpLen .kernel + mc.btmpLen .user⟩,
    kHeapStart⟩

/-- Less than `2 ^ 16` pages are given to the pools. -/
theorem freePage_le (mc : Machine) : mc.freePage .kernel ≤ 32767 ∧ mc.freePage .user ≤ 32768 := by
  have hlt : mc.allFreePage < 2 ^ 16 := Nat.mod_lt _ (by omega)
  rw [Machine.freePage, Machine.freePage]
  omega

theorem memPoolInit_machine (allMem : ℕ) (mem : Bytes) :
    (memPoolInit allMem mem).1 = machinePools ⟨allMem⟩ := by
  obtain ⟨hk, -⟩ := freePage_le ⟨allMem⟩
  have hall : (allMem + 2 ^ 32 - (pgSize * 256 + 0x100000)) % 2 ^ 32 / pgSize % 2 ^ 16 =
      Machine.allFreePage ⟨allMem⟩ := rfl
  have hkernel : Machine.allFreePage ⟨allMem⟩ / 2 = Machine.freePage ⟨allMem⟩ .kernel := rfl
  have huser : Machine.allFreePage ⟨allMem⟩ - Machine.freePage ⟨allMem⟩ .kernel =
      Machine.freePage ⟨allMem⟩ .user := rfl
  have hused : pgSize * 256 + 0x100000 = 512 * pgSize := rfl
  have hstart : (512 * pgSize + Machine.freePage ⟨allMem⟩ .kernel * pgSize) % 2 ^ 32 =
      (512 + Machine.freePage ⟨allMem⟩ .kernel) * pgSize := by
    rw [pgSize]
    omega
  simp only [memPoolInit, hall, hkernel, huser]
  rw [hused, hstart]
  rfl

/-- The free pages, all of them. -/
def freeFrames (allMem : ℕ) : ℕ := (allMem - 0x200000) / pgSize

/-- The counts of the pages for a memory that has its low two megabytes. -/
theorem freePage_sum (hlow : 0x200000 ≤ allMem) (hhigh : allMem < 2 ^ 32) :
    Machine.freePage ⟨allMem⟩ .kernel + Machine.freePage ⟨allMem⟩ .user =
      freeFrames allMem % 2 ^ 16 := by
  have hfree : (allMem + 2 ^ 32 - Machine.usedMem) % 2 ^ 32 = allMem - 0x200000 := by
    rw [show Machine.usedMem = 0x200000 from rfl]
    omega
  have hall : Machine.allFreePage ⟨allMem⟩ = freeFrames allMem % 2 ^ 16 := by
    rw [Machine.allFreePage, hfree, freeFrames]
  rw [← hall, Machine.freePage, Machine.freePage]
  omega

/-! ### What the bitmaps stand for -/

/-- Some bit of the pool is for the frame. -/
def HasBit (p : Pool) (f : ℕ) : Prop :=
  ∃ bitIdx < 8 * p.poolBitmap.btmpBytesLen, p.phyAddrStart + bitIdx * pgSize = f * pgSize

theorem hasBit_machine : HasBit ((machinePools mc).pool pf) f ↔
    mc.phyStart pf ≤ f ∧ f < mc.phyStart pf + 8 * mc.btmpLen pf := by
  have hpool : ((machinePools mc).pool pf).phyAddrStart = mc.phyStart pf * pgSize ∧
      ((machinePools mc).pool pf).poolBitmap.btmpBytesLen = mc.btmpLen pf := by
    cases pf <;> exact ⟨rfl, rfl⟩
  rw [HasBit, hpool.1, hpool.2, pgSize]
  constructor
  · rintro ⟨i, hi, he⟩
    omega
  · rintro ⟨hle, hlt⟩
    exact ⟨f - mc.phyStart pf, by omega, by omega⟩

/-- Every frame that lies in the memory above the low two megabytes has a bit in one of the pools,
except for at most seven in each pool. -/
def Covers (ps : Pools) (allMem : ℕ) : Prop :=
  ∃ lost : PoolFlag → Finset ℕ,
    (∀ pf, (lost pf).card ≤ 7 ∧ ∀ f ∈ lost pf, (ps.pool pf).phyAddrStart ≤ f * pgSize ∧
      f * pgSize < (ps.pool pf).phyAddrStart + (ps.pool pf).phySize) ∧
    ∀ f, 0x200000 ≤ f * pgSize → (f + 1) * pgSize ≤ allMem →
      (∃! pf, HasBit (ps.pool pf) f) ∨ ∃ pf, f ∈ lost pf

theorem covers_of_counts (hlow : 0x200000 ≤ allMem)
    (hsum : Machine.freePage ⟨allMem⟩ .kernel + Machine.freePage ⟨allMem⟩ .user =
      freeFrames allMem) : Covers (machinePools ⟨allMem⟩) allMem := by
  have hk : Machine.phyStart ⟨allMem⟩ .kernel = 512 := rfl
  have hu : Machine.phyStart ⟨allMem⟩ .user = 512 + Machine.freePage ⟨allMem⟩ .kernel := rfl
  -- the pages of a pool behind its last whole byte
  refine ⟨fun pf => Finset.Ico (Machine.phyStart ⟨allMem⟩ pf + 8 * Machine.btmpLen ⟨allMem⟩ pf)
    (Machine.phyStart ⟨allMem⟩ pf + Machine.freePage ⟨allMem⟩ pf), fun pf => ⟨?_, ?_⟩, ?_⟩
  · rw [Nat.card_Ico, Machine.btmpLen]
    omega
  · intro f hf
    rw [Finset.mem_Ico, Machine.btmpLen] at hf
    cases pf <;> simp only [Pools.pool, machinePools, Machine.phySize, pgSize] <;> omega
  · intro f hfrom hto
    rw [freeFrames] at hsum
    rw [pgSize] at hfrom hto hsum
    have hrange : 512 ≤ f ∧
        f < 512 + Machine.freePage ⟨allMem⟩ .kernel + Machine.freePage ⟨allMem⟩ .user := by omega
    simp only [hasBit_machine, Finset.mem_Ico, Machine.btmpLen]
    by_cases hpool : f < Machine.phyStart ⟨allMem⟩ .user
    · by_cases hbit : f < 512 + 8 * (Machine.freePage ⟨allMem⟩ .kernel / 8)
      · refine .inl ⟨.kernel, ⟨hrange.1, hbit⟩, fun pf hpf => ?_⟩
        cases pf with
        | kernel => rfl
        | user => omega
      · exact .inr ⟨.kernel, by omega, by omega⟩
    · by_cases hbit : f < Machine.phyStart ⟨allMem⟩ .user +
          8 * (Machine.freePage ⟨allMem⟩ .user / 8)
      · refine .inl ⟨.user, ⟨by omega, hbit⟩, fun pf hpf => ?_⟩
        cases pf with
        | kernel => omega
        | user => rfl
      · exact .inr ⟨.user, by omega, by omega⟩

/-- Pages that no pool counts are more than rounding loses. -/
theorem not_covers_of_counts (hlow : 0x200000 ≤ allMem)
    (hsum : Machine.freePage ⟨allMem⟩ .kernel + Machine.freePage ⟨allMem⟩ .user + 15 ≤
      freeFrames allMem) : ¬Covers (machinePools ⟨allMem⟩) allMem := by
  rintro ⟨lost, hlost, hcover⟩
  have hu : Machine.phyStart ⟨allMem⟩ .user = 512 + Machine.freePage ⟨allMem⟩ .kernel := rfl
  -- the last fifteen frames
  have hsub : Finset.Ico (512 + freeFrames allMem - 15) (512 + freeFrames allMem) ⊆
      lost .kernel ∪ lost .user := by
    intro f hf
    rw [Finset.mem_Ico] at hf
    rw [freeFrames, pgSize] at hf hsum
    rw [Finset.mem_union]
    rcases hcover f (by rw [pgSize]; omega) (by rw [pgSize]; omega) with ⟨pf, hpf, -⟩ | ⟨pf, hpf⟩
    · rw [hasBit_machine, Machine.btmpLen] at hpf
      have hk : Machine.phyStart ⟨allMem⟩ .kernel = 512 := rfl
      cases pf <;> omega
    · cases pf with
      | kernel => exact .inl hpf
      | user => exact .inr hpf
  have hcard := (Finset.card_le_card hsub).trans (Finset.card_union_le _ _)
  rw [Nat.card_Ico] at hcard
  have hk7 := (hlost .kernel).1
  have hu7 := (hlost .user).1
  omega

/-- The counts of the pages have 16 bits. -/
theorem pools_cover_iff (hlow : 0x200000 ≤ allMem) (hhigh : allMem < 2 ^ 32) (mem : Bytes) :
    Covers (memPoolInit allMem mem).1 allMem ↔ allMem < 0x10200000 := by
  have hsum := freePage_sum hlow hhigh
  rw [memPoolInit_machine]
  constructor
  · intro hcovers
    by_contra hlarge
    refine not_covers_of_counts hlow ?_ hcovers
    rw [hsum]
    have hframes : 2 ^ 16 ≤ freeFrames allMem := by
      rw [freeFrames, pgSize]
      omega
    have hlt : freeFrames allMem % 2 ^ 16 < 2 ^ 16 := Nat.mod_lt _ (by omega)
    omega
  · intro hsmall
    apply covers_of_counts hlow
    rw [hsum]
    apply Nat.mod_eq_of_lt
    rw [freeFrames, pgSize]
    omega

theorem pools_cover_iff_small : Covers (memPoolInit 0x2000000 zeroes).1 0x2000000 :=
  (pools_cover_iff (by decide) (by decide) zeroes).mpr (by decide)

/-- With 258 megabytes the count wraps to no page at all. -/
theorem wrapped_pools_empty : ¬Covers (memPoolInit 0x10200000 zeroes).1 0x10200000 := by
  rw [memPoolInit_machine]
  apply not_covers_of_counts (by decide)
  decide

/-! ### Allocation -/

theorem bitmapAt_setBit (btmp : BitmapDesc) (i : ℕ) (v : Bool) (mem : Bytes) :
    bitmapAt (setBit btmp i v mem) btmp = bitmapSet (bitmapAt mem btmp) i v := by
  rw [bitmapAt, bitmapSet, Bitmap.mk.injEq]
  refine ⟨rfl, ?_⟩
  funext k
  rw [window, setBit]
  by_cases hk : k = i / 8
  · rw [hk, Function.update_self, Function.update_self]
    exact Function.update_self _ _ _
  · rw [Function.update_of_ne (by omega), Function.update_of_ne hk]
    rfl

/-- A bit that was clear is set and cleared again. -/
theorem setBit_undo (hclear : bitmapScanTest (bitmapAt mem btmp) i = false) :
    setBit btmp i false (setBit btmp i true mem) = mem := by
  have hbitmap : bitmapSet (bitmapSet (bitmapAt mem btmp) i true) i false = bitmapAt mem btmp := by
    apply bitmap_ext
    · rfl
    intro j
    rw [bitmapScanTest_set, bitmapScanTest_set]
    by_cases hj : j = i
    · rw [if_pos hj, hj, hclear]
    · rw [if_neg hj, if_neg hj]
  funext x
  rw [setBit, bitmapAt_setBit, hbitmap]
  by_cases hx : x = btmp.bits + i / 8
  · rw [hx, Function.update_self]
    rfl
  · rw [Function.update_of_ne hx, setBit, Function.update_of_ne hx]

/-- A frame that is handed out has had a clear bit. -/
theorem palloc_some (h : palloc p mem = some (mem', some a)) :
    ∃ i < 8 * p.poolBitmap.btmpBytesLen, bitmapScanTest (bitmapAt mem p.poolBitmap) i = false ∧
      mem' = setBit p.poolBitmap i true mem ∧ a = (p.phyAddrStart + i * pgSize) % 2 ^ 32 := by
  obtain ⟨r, hscan, hr⟩ := bind_some_iff.mp h
  obtain ⟨i, rfl, hlt, hclear, -⟩ := bitmapScan_one hscan
  obtain ⟨rfl, ha⟩ := Prod.mk.inj (Option.some.inj hr)
  exact ⟨i, hlt, hclear, rfl, (Option.some.inj ha).symm⟩

/-- When all bits below are set, the frame of bit `i` is handed out. -/
theorem palloc_first (hlt : i < 8 * p.poolBitmap.btmpBytesLen)
    (hclear : bitmapScanTest (bitmapAt mem p.poolBitmap) i = false)
    (hbelow : ∀ j < i, bitmapScanTest (bitmapAt mem p.poolBitmap) j = true) :
    palloc p mem = some (setBit p.poolBitmap i true mem,
      some ((p.phyAddrStart + i * pgSize) % 2 ^ 32)) := by
  obtain ⟨r, hscan⟩ := bitmapScan_one_exists (b := bitmapAt mem p.poolBitmap) hlt hclear
  obtain ⟨j, rfl, -, hj, hfirst⟩ := bitmapScan_one hscan
  have hij : j = i := by
    rcases Nat.lt_trichotomy j i with hl | he | hg
    · have := hbelow j hl
      rw [hj] at this
      cases this
    · exact he
    · have := hfirst i hg
      rw [hclear] at this
      cases this
  rw [palloc, hscan, hij]
  rfl

/-- The addresses of the frames that a bitmap has bits for. -/
def frames (p : Pool) : Set ℕ :=
  span p.phyAddrStart (8 * p.poolBitmap.btmpBytesLen * pgSize)

/-- The bytes of a bitmap. -/
def bytes (btmp : BitmapDesc) : Set ℕ := span btmp.bits btmp.btmpBytesLen

/-- The frame of a bit of a pool. -/
def frameOf (p : Pool) (i : ℕ) : ℕ := p.phyAddrStart + i * pgSize

structure Sound (ps : Pools) (allMem : ℕ) : Prop where
  frames_disjoint : Disjoint (frames ps.kernelPool) (frames ps.userPool)
  frames_inside : ∀ pf, frames (ps.pool pf) ⊆ {a | 0x200000 ≤ a ∧ a < allMem}
  -- whatever `palloc` returns goes back
  returned : ∀ pf mem mem' a, palloc (ps.pool pf) mem = some (mem', some a) →
    (∃ i < 8 * (ps.pool pf).poolBitmap.btmpBytesLen, a = frameOf (ps.pool pf) i) ∧
      pfree ps a mem' = mem ∧ freeAPhyPage ps a mem' = mem
  -- and it returns every frame, when those below are taken
  every : ∀ pf, ∀ i < 8 * (ps.pool pf).poolBitmap.btmpBytesLen, ∀ mem,
    bitmapScanTest (bitmapAt mem (ps.pool pf).poolBitmap) i = false →
    (∀ j < i, bitmapScanTest (bitmapAt mem (ps.pool pf).poolBitmap) j = true) →
    ∃ mem', palloc (ps.pool pf) mem = some (mem', some (frameOf (ps.pool pf) i))
  bitmaps_disjoint : Disjoint (bytes ps.kernelPool.poolBitmap) (bytes ps.userPool.poolBitmap) ∧
    Disjoint (bytes ps.kernelPool.poolBitmap) (bytes ps.kernelVaddr.vaddrBitmap) ∧
    Disjoint (bytes ps.userPool.poolBitmap) (bytes ps.kernelVaddr.vaddrBitmap)
  bitmaps_below : ∀ btmp ∈ [ps.kernelPool.poolBitmap, ps.userPool.poolBitmap,
    ps.kernelVaddr.vaddrBitmap], memBitmapBase ≤ btmp.bits ∧
      btmp.bits + btmp.btmpBytesLen ≤ mainThreadPage

theorem disjoint_span {m n b : ℕ} (h : a + m ≤ b) : Disjoint (span a m) (span b n) := by
  apply Set.disjoint_left.mpr
  intro x hx hx'
  rw [mem_span] at hx hx'
  omega

/-- Where the frames of the pools are. -/
theorem machine_frames (hlow : 0x200000 ≤ allMem) (hhigh : allMem < 2 ^ 32) (pf : PoolFlag) :
    0x200000 ≤ ((machinePools ⟨allMem⟩).pool pf).phyAddrStart ∧
      ((machinePools ⟨allMem⟩).pool pf).phyAddrStart +
        8 * ((machinePools ⟨allMem⟩).pool pf).poolBitmap.btmpBytesLen * pgSize ≤ allMem := by
  have hsum := freePage_sum hlow hhigh
  have hmod : freeFrames allMem % 2 ^ 16 ≤ freeFrames allMem := Nat.mod_le _ _
  rw [freeFrames, pgSize] at hmod
  rw [freeFrames, pgSize] at hsum
  have hk : Machine.phyStart ⟨allMem⟩ .kernel = 512 := rfl
  have hu : Machine.phyStart ⟨allMem⟩ .user = 512 + Machine.freePage ⟨allMem⟩ .kernel := rfl
  cases pf with
  | kernel =>
    simp only [Pools.pool, machinePools, Machine.btmpLen, pgSize, hk]
    omega
  | user =>
    simp only [Pools.pool, machinePools, Machine.btmpLen, pgSize, hu]
    omega

/-- `pfree` finds the bit of a frame again. -/
theorem pfree_frame (hlow : 0x200000 ≤ allMem) (hhigh : allMem < 2 ^ 32)
    (hi : i < 8 * ((machinePools ⟨allMem⟩).pool pf).poolBitmap.btmpBytesLen) :
    pfree (machinePools ⟨allMem⟩) (frameOf ((machinePools ⟨allMem⟩).pool pf) i) mem =
      setBit ((machinePools ⟨allMem⟩).pool pf).poolBitmap i false mem := by
  have hinside := (machine_frames hlow hhigh pf).2
  have hu : Machine.phyStart ⟨allMem⟩ .user = 512 + Machine.freePage ⟨allMem⟩ .kernel := rfl
  have hk : Machine.phyStart ⟨allMem⟩ .kernel = 512 := rfl
  cases pf with
  | kernel =>
    simp only [Pools.pool, machinePools, Machine.btmpLen, pgSize] at hi hinside
    have hbelow : ¬(machinePools ⟨allMem⟩).userPool.phyAddrStart ≤
        frameOf (machinePools ⟨allMem⟩).kernelPool i := by
      simp only [frameOf, machinePools, pgSize]
      omega
    have hidx : (frameOf (machinePools ⟨allMem⟩).kernelPool i + 2 ^ 32 -
        (machinePools ⟨allMem⟩).kernelPool.phyAddrStart) % 2 ^ 32 / pgSize = i := by
      simp only [frameOf, machinePools, pgSize]
      omega
    rw [Pools.pool, pfree, if_neg hbelow]
    exact congrArg (setBit _ · false mem) hidx
  | user =>
    have habove : (machinePools ⟨allMem⟩).userPool.phyAddrStart ≤
        frameOf (machinePools ⟨allMem⟩).userPool i := Nat.le_add_right _ _
    have hidx : (frameOf (machinePools ⟨allMem⟩).userPool i -
        (machinePools ⟨allMem⟩).userPool.phyAddrStart) / pgSize = i := by
      simp only [frameOf, pgSize]
      omega
    rw [Pools.pool, pfree, if_pos habove]
    exact congrArg (setBit _ · false mem) hidx

/-- The frame of a bit is not wrapped. -/
theorem frameOf_mod (hlow : 0x200000 ≤ allMem) (hhigh : allMem < 2 ^ 32)
    (hi : i < 8 * ((machinePools ⟨allMem⟩).pool pf).poolBitmap.btmpBytesLen) :
    (((machinePools ⟨allMem⟩).pool pf).phyAddrStart + i * pgSize) % 2 ^ 32 =
      frameOf ((machinePools ⟨allMem⟩).pool pf) i := by
  have hinside := (machine_frames hlow hhigh pf).2
  apply Nat.mod_eq_of_lt
  rw [pgSize] at hinside ⊢
  omega

theorem pools_sound (hlow : 0x200000 ≤ allMem) (hhigh : allMem < 2 ^ 32) (mem : Bytes) :
    Sound (memPoolInit allMem mem).1 allMem := by
  have hk : Machine.phyStart ⟨allMem⟩ .kernel = 512 := rfl
  have hu : Machine.phyStart ⟨allMem⟩ .user = 512 + Machine.freePage ⟨allMem⟩ .kernel := rfl
  obtain ⟨hkpages, hupages⟩ := freePage_le ⟨allMem⟩
  rw [memPoolInit_machine]
  constructor
  · apply disjoint_span
    simp only [machinePools, Machine.btmpLen, pgSize]
    omega
  · intro pf a ha
    have hinside := machine_frames hlow hhigh pf
    rw [frames, mem_span] at ha
    exact ⟨hinside.1.trans ha.1, ha.2.trans_le hinside.2⟩
  · intro pf mem mem' a ha
    obtain ⟨i, hlt, hclear, rfl, rfl⟩ := palloc_some ha
    rw [frameOf_mod hlow hhigh hlt, freeAPhyPage, pfree_frame hlow hhigh hlt]
    exact ⟨⟨i, hlt, rfl⟩, setBit_undo hclear, setBit_undo hclear⟩
  · intro pf i hlt mem hclear hbelow
    have halloc := palloc_first hlt hclear hbelow
    rw [frameOf_mod hlow hhigh hlt] at halloc
    exact ⟨_, halloc⟩
  · refine ⟨disjoint_span le_rfl, disjoint_span ?_, disjoint_span le_rfl⟩
    exact Nat.le_add_right _ _
  · intro btmp hmem
    simp only [List.mem_cons, List.not_mem_nil, or_false] at hmem
    rcases hmem with rfl | rfl | rfl <;>
      simp only [machinePools, Machine.btmpLen, memBitmapBase, mainThreadPage] <;> omega

theorem pools_sound_small : Sound (memPoolInit 0x2000000 zeroes).1 0x2000000 :=
  pools_sound (by decide) (by decide) zeroes

end MemoryPools
