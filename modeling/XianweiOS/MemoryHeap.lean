import XianweiOS.MemoryPages
import Mathlib.Data.List.Nodup
import Mathlib.Data.Finset.Card

/-! `sys_malloc` and `sys_free` of `kernel/memory.c`. An arena header lies at the start of its
page in the address space of its context, the free lists belong to the descriptors of a
context (`k_block_descs` of the kernel, `u_block_desc` of a process). A list is the sequence of its
blocks, as it is where one address space writes the pointers. -/
namespace MemoryHeap

open ByteStore HaltingProgram KernelBitmap MemoryPages

def descCnt : ℕ := 7

/-- `sizeof(struct arena)` -/
def arenaSize : ℕ := 12

/-- A descriptor is named by its owner and its index. -/
structure Arena where
  desc : Option (Ctx × ℕ)
  cnt : ℕ
  large : Bool

/-- `block_size` and `blocks_per_arena` as `block_desc_init` sets them. -/
def blockSize (i : ℕ) : ℕ := 16 * 2 ^ i

def blocksPerArena (i : ℕ) : ℕ := (pgSize - arenaSize) / blockSize i

def arena2block (a i idx : ℕ) : ℕ := a * pgSize + arenaSize + idx * blockSize i

def block2arena (b : ℕ) : ℕ := b / pgSize

structure Heap where
  memory : Memory
  header : Ctx → ℕ → Arena
  freeList : Ctx → ℕ → List ℕ

namespace Heap

def setMemory (h : Heap) (m : Memory) : Heap := { h with memory := m }

def setHeader (h : Heap) (c : Ctx) (a : ℕ) (e : Arena) : Heap :=
  { h with header := Function.update h.header c (Function.update (h.header c) a e) }

def setFreeList (h : Heap) (c : Ctx) (i : ℕ) (l : List ℕ) : Heap :=
  { h with freeList := Function.update h.freeList c (Function.update (h.freeList c) i l) }

/-- What `memset` leaves of the headers in `n` pages. -/
def clearPages (h : Heap) (c : Ctx) (a n : ℕ) : Heap :=
  { h with header := Function.update h.header c fun v =>
      if a ≤ v ∧ v < a + n then ⟨none, 0, false⟩ else h.header c v }

end Heap

/-- The heap `mem_init` sets up: every bitmap clear, every list empty. -/
def memInit : Heap :=
  ⟨⟨fun _ => zeroes, fun _ => ⟨zeroes, fun _ => none, fun _ => ⟨0, false⟩⟩⟩,
    fun _ _ => ⟨none, 0, false⟩, fun _ _ => []⟩

/-- The first descriptor whose blocks are large enough. -/
def descIndex (size : ℕ) : ℕ :=
  ((List.range descCnt).find? fun i => size ≤ blockSize i).getD descCnt

/-- The loop that puts the blocks of a new arena on the free list. -/
def appendBlocks (a i : ℕ) : (cnt idx : ℕ) → List ℕ → Option (List ℕ)
  | 0, _, l => some l
  | cnt + 1, idx, l => do
    let b := arena2block a i idx
    assert (b ∉ l)
    appendBlocks a i cnt (idx + 1) (l ++ [b])

/-- The loop that takes the blocks of an arena off it again. -/
def removeBlocks (a i : ℕ) : (cnt idx : ℕ) → List ℕ → Option (List ℕ)
  | 0, _, l => some l
  | cnt + 1, idx, l => do
    let b := arena2block a i idx
    assert (b ∈ l)
    removeBlocks a i cnt (idx + 1) (l.erase b)

section Calls

variable (mc : Machine)

def mallocLarge (h : Heap) (c : Ctx) (size : ℕ) : Option (Heap × Option ℕ) := do
  let pgCnt := (size + arenaSize + pgSize - 1) / pgSize
  match ← mallocPage mc h.memory c pgCnt with
  | (m, none) => return (h.setMemory m, none)
  | (m, some a) =>
    return (((h.setMemory m).clearPages c a pgCnt).setHeader c a ⟨none, pgCnt, true⟩,
      some (a * pgSize + arenaSize))

/-- A page is cut into blocks; `false` when there is none. -/
def newArena (h : Heap) (c : Ctx) (i : ℕ) : Option (Heap × Bool) := do
  match ← mallocPage mc h.memory c 1 with
  | (m, none) => return (h.setMemory m, false)
  | (m, some a) =>
    let l ← appendBlocks a i (blocksPerArena i) 0 (h.freeList c i)
    return (((h.setMemory m).setHeader c a ⟨some (c, i), blocksPerArena i, true⟩).setFreeList c i l,
      true)

/-- `list_pop`, which has nothing to take from an empty list, and the header's count. -/
def takeBlock (h : Heap) (c : Ctx) (i : ℕ) : Option (Heap × Option ℕ) :=
  match h.freeList c i with
  | [] => none
  | b :: l =>
    let a := block2arena b
    let e := h.header c a
    some ((h.setFreeList c i l).setHeader c a { e with cnt := e.cnt - 1 }, some b)

def mallocSmall (h : Heap) (c : Ctx) (size : ℕ) : Option (Heap × Option ℕ) :=
  let i := descIndex size
  if h.freeList c i = [] then do
    let (h, ok) ← newArena mc h c i
    if ok then takeBlock h c i else return (h, none)
  else takeBlock h c i

def sysMalloc (h : Heap) (c : Ctx) (size : ℕ) : Option (Heap × Option ℕ) :=
  if 0 < size ∧ size < mc.phySize (flagOf c) then
    if 1024 < size then mallocLarge mc h c size else mallocSmall mc h c size
  else some (h, none)

/-- A block goes back on the list of the descriptor its header names. -/
def freeSmall (h : Heap) (c o : Ctx) (i ptr : ℕ) : Option Heap :=
  let a := block2arena ptr
  let e := h.header c a
  let l := h.freeList o i ++ [ptr]
  let h := h.setHeader c a { e with cnt := e.cnt + 1 }
  if e.cnt + 1 = blocksPerArena i then do
    let l ← removeBlocks a i (blocksPerArena i) 0 l
    let m ← mfreePage mc h.memory c a 1
    return (h.setFreeList o i l).setMemory m
  else some (h.setFreeList o i l)

/-- The third case reads through the `NULL` descriptor. -/
def sysFree (h : Heap) (c : Ctx) (ptr : ℕ) : Option Heap := do
  assert (ptr ≠ 0)
  let a := block2arena ptr
  match (h.header c a).desc, (h.header c a).large with
  | some (o, i), _ => freeSmall mc h c o i ptr
  | none, true => return h.setMemory (← mfreePage mc h.memory c a (h.header c a).cnt)
  | none, false => none

end Calls

section Setters

variable {h : Heap} {c c' : Ctx} {a a' i j n : ℕ}

@[simp] theorem setMemory_memory (m : Memory) : (h.setMemory m).memory = m := rfl

@[simp] theorem setMemory_header (m : Memory) : (h.setMemory m).header = h.header := rfl

@[simp] theorem setMemory_freeList (m : Memory) : (h.setMemory m).freeList = h.freeList := rfl

@[simp] theorem setHeader_memory (e : Arena) : (h.setHeader c a e).memory = h.memory := rfl

@[simp] theorem setHeader_freeList (e : Arena) : (h.setHeader c a e).freeList = h.freeList := rfl

@[simp] theorem setFreeList_memory (l : List ℕ) : (h.setFreeList c i l).memory = h.memory := rfl

@[simp] theorem setFreeList_header (l : List ℕ) : (h.setFreeList c i l).header = h.header := rfl

@[simp] theorem clearPages_memory : (h.clearPages c a n).memory = h.memory := rfl

@[simp] theorem clearPages_freeList : (h.clearPages c a n).freeList = h.freeList := rfl

theorem setHeader_header (e : Arena) :
    (h.setHeader c a e).header c' a' = if c' = c ∧ a' = a then e else h.header c' a' := by
  by_cases hc : c' = c
  · subst c'
    by_cases ha : a' = a
    · subst a'
      simp [Heap.setHeader]
    · simp [Heap.setHeader, ha]
  · simp [Heap.setHeader, hc]

theorem setFreeList_list (l : List ℕ) :
    (h.setFreeList c i l).freeList c' j = if c' = c ∧ j = i then l else h.freeList c' j := by
  by_cases hc : c' = c
  · subst c'
    by_cases hj : j = i
    · subst j
      simp [Heap.setFreeList]
    · simp [Heap.setFreeList, hj]
  · simp [Heap.setFreeList, hc]

theorem clearPages_header (ha : ¬(c' = c ∧ a' ∈ span a n)) :
    (h.clearPages c a n).header c' a' = h.header c' a' := by
  by_cases hc : c' = c
  · subst c'
    have ha' : ¬(a ≤ a' ∧ a' < a + n) := fun hh => ha ⟨rfl, hh⟩
    simp only [Heap.clearPages, Function.update_self, if_neg ha']
  · simp [Heap.clearPages, hc]

end Setters

section Blocks

variable {a a' i i' k k' : ℕ}

theorem blockSize_pos (i : ℕ) : 0 < blockSize i := Nat.mul_pos (by omega) (Nat.two_pow_pos i)

/-- A block lies behind the header and inside the page. -/
theorem block_bound (hk : k < blocksPerArena i) :
    arenaSize + k * blockSize i + blockSize i ≤ pgSize := by
  have hmul : (k + 1) * blockSize i ≤ pgSize - arenaSize :=
    le_trans (Nat.mul_le_mul_right _ hk) (Nat.div_mul_le_self _ _)
  rw [Nat.add_mul, Nat.one_mul] at hmul
  simp only [pgSize, arenaSize] at hmul ⊢
  omega

theorem block2arena_arena2block (hk : k < blocksPerArena i) :
    block2arena (arena2block a i k) = a := by
  have := block_bound hk
  have := blockSize_pos i
  unfold block2arena arena2block
  simp only [pgSize] at *
  omega

theorem block2arena_large : block2arena (a * pgSize + arenaSize) = a := by
  simp only [block2arena, pgSize, arenaSize]
  omega

/-- A block names its arena. -/
theorem arena_eq {i' : ℕ} (hk : k < blocksPerArena i) (hk' : k' < blocksPerArena i')
    (he : arena2block a i k = arena2block a' i' k') : a = a' := by
  rw [← block2arena_arena2block (a := a) hk, he, block2arena_arena2block hk']

theorem arena2block_inj (hk : k < blocksPerArena i) (hk' : k' < blocksPerArena i)
    (he : arena2block a i k = arena2block a' i k') : a = a' ∧ k = k' := by
  obtain rfl := arena_eq hk hk' he
  refine ⟨rfl, ?_⟩
  have hmul : k * blockSize i = k' * blockSize i := by
    unfold arena2block at he
    omega
  exact Nat.eq_of_mul_eq_mul_right (blockSize_pos i) hmul

theorem appendBlocks_eq {cnt idx : ℕ} {l l' : List ℕ}
    (h : appendBlocks a i cnt idx l = some l') :
    l' = l ++ (List.range' idx cnt).map (arena2block a i) := by
  induction cnt generalizing idx l with
  | zero =>
    obtain rfl := Option.some.inj h
    simp
  | succ cnt ih =>
    simp only [appendBlocks, assert_bind] at h
    rw [ih h.2, List.range'_succ]
    simp

theorem removeBlocks_mem {cnt idx : ℕ} {l l' : List ℕ}
    (h : removeBlocks a i cnt idx l = some l') (hl : l.Nodup) :
    l'.Nodup ∧ ∀ x, x ∈ l' ↔ x ∈ l ∧ ∀ k ∈ span idx cnt, x ≠ arena2block a i k := by
  induction cnt generalizing idx l with
  | zero =>
    obtain rfl := Option.some.inj h
    refine ⟨hl, fun x => ⟨fun hx => ⟨hx, fun k hk => ?_⟩, fun hx => hx.1⟩⟩
    rw [mem_span] at hk
    omega
  | succ cnt ih =>
    simp only [removeBlocks, assert_bind] at h
    obtain ⟨hnd, hmem⟩ := ih h.2 (hl.erase _)
    refine ⟨hnd, fun x => ?_⟩
    rw [hmem x, hl.mem_erase_iff]
    constructor
    · rintro ⟨⟨hne, hx⟩, hout⟩
      refine ⟨hx, fun k hk => ?_⟩
      by_cases hki : k = idx
      · exact hki ▸ hne
      · refine hout k ?_
        simp only [mem_span] at hk ⊢
        omega
    · rintro ⟨hx, hout⟩
      refine ⟨⟨hout idx (by simp), hx⟩, fun k hk => hout k ?_⟩
      simp only [mem_span] at hk ⊢
      omega

theorem descIndex_spec {size : ℕ} (hs : size ≤ 1024) :
    descIndex size < descCnt ∧ size ≤ blockSize (descIndex size) := by
  unfold descIndex
  cases hf : (List.range descCnt).find? fun i => decide (size ≤ blockSize i) with
  | none =>
    have := List.find?_eq_none.mp hf 6 (by decide)
    rw [decide_eq_true_eq] at this
    exact absurd hs this
  | some i =>
    exact ⟨List.mem_range.mp (List.mem_of_find?_eq_some hf), by
      simpa using List.find?_some hf⟩

end Blocks

/-- How many blocks of an arena are on the free list. -/
def freeCnt (h : Heap) (c : Ctx) (a i : ℕ) : ℕ :=
  ((Finset.range (blocksPerArena i)).filter fun k => arena2block a i k ∈ h.freeList c i).card

section FreeCnt

variable {h h' : Heap} {c : Ctx} {a i k : ℕ}

theorem freeCnt_eq_all (he : freeCnt h c a i = blocksPerArena i) (hk : k < blocksPerArena i) :
    arena2block a i k ∈ h.freeList c i := by
  have hall := Finset.eq_of_subset_of_card_le (Finset.filter_subset
    (fun k => arena2block a i k ∈ h.freeList c i) (Finset.range (blocksPerArena i)))
    (by rw [Finset.card_range]; exact he.ge)
  have hmem : k ∈ Finset.range (blocksPerArena i) := Finset.mem_range.mpr hk
  rw [← hall] at hmem
  exact (Finset.mem_filter.mp hmem).2

theorem freeCnt_all (hall : ∀ k < blocksPerArena i, arena2block a i k ∈ h.freeList c i) :
    freeCnt h c a i = blocksPerArena i := by
  unfold freeCnt
  rw [Finset.filter_true_of_mem fun k hk => hall k (Finset.mem_range.mp hk), Finset.card_range]

theorem freeCnt_congr
    (hk : ∀ k < blocksPerArena i,
      (arena2block a i k ∈ h'.freeList c i ↔ arena2block a i k ∈ h.freeList c i)) :
    freeCnt h' c a i = freeCnt h c a i := by
  unfold freeCnt
  congr 1
  exact Finset.filter_congr fun k hk' => hk k (Finset.mem_range.mp hk')

/-- One block more on the list. -/
theorem freeCnt_add (hk : k < blocksPerArena i) (hout : arena2block a i k ∉ h.freeList c i)
    (hmem : ∀ x, x ∈ h'.freeList c i ↔ x ∈ h.freeList c i ∨ x = arena2block a i k) :
    freeCnt h' c a i = freeCnt h c a i + 1 := by
  have hset : ((Finset.range (blocksPerArena i)).filter
        fun j => arena2block a i j ∈ h'.freeList c i) =
      insert k ((Finset.range (blocksPerArena i)).filter
        fun j => arena2block a i j ∈ h.freeList c i) := by
    ext j
    simp only [Finset.mem_filter, Finset.mem_range, Finset.mem_insert, hmem]
    constructor
    · rintro ⟨hj, hin | heq⟩
      · exact .inr ⟨hj, hin⟩
      · exact .inl (arena2block_inj hj hk heq).2
    · rintro (rfl | ⟨hj, hin⟩)
      · exact ⟨hk, .inr rfl⟩
      · exact ⟨hj, .inl hin⟩
  unfold freeCnt
  rw [hset, Finset.card_insert_of_notMem]
  simp [hout]

end FreeCnt

end MemoryHeap
