import XianweiOS.FsFullDisk
import XianweiOS.FsFilePosition
import XianweiOS.HeapLoan

/-! `file_read` for a process, whose heap lends the two buffers. Physical memory is a byte store.
What is read has to keep off the blocks that the heap hands out for them and off the words that
the heap keeps in its pages: beyond that the call is not followed. -/
namespace FsReadMemory

open ByteStore HaltingProgram KernelBitmap MemoryPages FsVolume FsInodeTable FsBlockMap FsFileWrite
  FsFileAppend FsFileRead MemoryHeap HeapInvariant FrameExclusive HeapLoan

/-- A process that reads: its heap and its pages, what they hold, and the position of its file. -/
structure Image where
  heap : Heap
  phys : Bytes
  fdPos : ℕ

abbrev Image.memory (s : Image) : Memory := s.heap.memory

/-- Where address `a` of the process is. The kernel's half is none of the process. -/
def physAddr (m : Memory) (p a : ℕ) : Option ℕ :=
  if a / pgSize < 0xc0000 then
    (m.frameAt (some p) (a / pgSize)).map fun f => pgSize * f + a % pgSize
  else none

def userByte (p : ℕ) (s : Image) (a : ℕ) : Option Byte := (physAddr s.memory p a).map s.phys

/-- Block `b` of size class `i` with the header of its arena, and all of a page that is new. -/
def blockBytes (m : Memory) (p i b : ℕ) : List ℕ :=
  if (m.frameAt (some p) (block2arena b)).isSome then
    List.range' b (blockSize i) ++ List.range' (block2arena b * pgSize) arenaSize
  else List.range' (block2arena b * pgSize) pgSize

/-- The bytes that `sys_malloc`, `sys_free` and `file_read` use for themselves: the buffers, and
the free blocks of their lists. `m` is the memory before the call. -/
def ownBytes (m : Memory) (p : ℕ) (h : Heap) (ioBuf allBlocks : ℕ) : List ℕ :=
  (ioBuf :: h.freeList (some p) (descIndex 512)).flatMap (blockBytes m p (descIndex 512)) ++
    (allBlocks :: h.freeList (some p) (descIndex (512 + 48))).flatMap
      (blockBytes m p (descIndex (512 + 48)))

/-- What is not followed: the values that are left in the call's own bytes, and a call whose
destination reaches into them. -/
structure Inside where
  left : Image → Bytes
  clash : (dst : Option ℕ) → (count : ℕ) → Image → Option (ReadResult × Image)

section Functions

variable (mc : Machine) (inside : Inside) (p : ℕ) (disk : Bytes) (inode : Inode)

/-- `memcpy` to address `vaddr` of the process, byte by byte; a page that is not mapped faults. -/
def copyOut (m : Memory) (vaddr : ℕ) (buf : Bytes) : (n : ℕ) → Bytes → Option Bytes
  | 0, phys => some phys
  | n + 1, phys => do
    let phys ← copyOut m vaddr buf n phys
    let x ← physAddr m p (vaddr + n)
    return Function.update phys x (buf n)

/-- The stack of the kernel is no memory of the process. -/
def copyTo (m : Memory) (dst : Option ℕ) (buf : Bytes) (n : ℕ) (phys : Bytes) : Option Bytes :=
  match dst with
  | none => some phys
  | some vaddr => copyOut p m vaddr buf n phys

/-- The bytes at the addresses `own` get other values. -/
def overwrite (m : Memory) (own : List ℕ) (left phys : Bytes) : Bytes := fun x =>
  if x ∈ own.filterMap (physAddr m p) then left x else phys x

/-- The destination is an address of the process, or `none` for the stack of the kernel. -/
def fileReadHeap (dst : Option ℕ) (count : ℕ) (s : Image) : Option (ReadResult × Image) :=
  let clamped := (s.fdPos + count) % 2 ^ 32 > inode.iSize
  let size := if clamped then (inode.iSize + 2 ^ 32 - s.fdPos) % 2 ^ 32 else count
  if clamped ∧ size = 0 then some (⟨-1, s.fdPos, zeroes⟩, s)
  else do
    match ← sysMalloc mc s.heap (some p) 512 with
    | (h, none) => return (⟨-1, s.fdPos, zeroes⟩, { s with heap := h })
    | (h, some ioBuf) =>
      match ← sysMalloc mc h (some p) (512 + 48) with
      | (h, none) => return (⟨-1, s.fdPos, zeroes⟩, { s with heap := h })
      | (h, some allBlocks) =>
        let own := ownBytes s.memory p h ioBuf allBlocks
        if ∀ a ∈ dst, ∀ k < size, a + k ∉ own then
          let res ← fileRead true true s.fdPos inode disk zeroes count
          let phys ← copyTo p h.memory dst res.buf size s.phys
          let phys := overwrite p h.memory own (inside.left s) phys
          let h ← sysFree mc h (some p) allBlocks
          let h ← sysFree mc h (some p) ioBuf
          return (res, ⟨h, phys, res.fdPos⟩)
        else inside.clash dst count s

end Functions

section Bytes

variable {mc : Machine} {p : ℕ} {m : Memory} {vaddr a a' x n : ℕ} {buf phys phys' : Bytes}

theorem physAddr_some : physAddr m p a = some x ↔ a / pgSize < 0xc0000 ∧
    ∃ f, m.frameAt (some p) (a / pgSize) = some f ∧ pgSize * f + a % pgSize = x := by
  unfold physAddr
  split
  · rename_i hlt
    simp [hlt, Option.map_eq_some_iff]
  · rename_i hlt
    simp [hlt]

/-- With no frame in two places no byte has two addresses. -/
theorem physAddr_inj (he : Exclusive mc m (· = p)) (h : physAddr m p a = some x)
    (h' : physAddr m p a' = some x) : a = a' := by
  obtain ⟨hlt, f, hf, hx⟩ := physAddr_some.mp h
  obtain ⟨hlt', f', hf', hx'⟩ := physAddr_some.mp h'
  unfold pgSize at *
  obtain rfl : f = f' := by omega
  have hpage := he.once (.page (some p) (a / 4096)) (.page (some p) (a' / 4096)) f
    ⟨rfl, hlt⟩ ⟨rfl, hlt'⟩ hf hf'
  obtain ⟨-, hpage⟩ := Place.page.inj hpage
  omega

theorem copyOut_succ (h : copyOut p m vaddr buf (n + 1) phys = some phys') :
    ∃ phys₁, copyOut p m vaddr buf n phys = some phys₁ ∧
      ∃ x, physAddr m p (vaddr + n) = some x ∧ Function.update phys₁ x (buf n) = phys' := by
  simp only [copyOut, bind_some_iff, Option.pure_def, Option.some.injEq] at h
  exact h

theorem copyOut_exists (h : ∀ k < n, ∃ x, physAddr m p (vaddr + k) = some x) :
    ∃ phys', copyOut p m vaddr buf n phys = some phys' := by
  induction n with
  | zero => exact ⟨phys, rfl⟩
  | succ n ih =>
    obtain ⟨phys₁, h₁⟩ := ih fun k hk => h k (by omega)
    obtain ⟨x, hx⟩ := h n (by omega)
    refine ⟨Function.update phys₁ x (buf n), ?_⟩
    simp only [copyOut, h₁, hx, Option.bind_eq_bind, Option.bind_some, Option.pure_def]

theorem copyOut_mapped (h : copyOut p m vaddr buf n phys = some phys') :
    ∀ k < n, ∃ x, physAddr m p (vaddr + k) = some x := by
  induction n generalizing phys' with
  | zero =>
    intro k hk
    omega
  | succ n ih =>
    intro k hk
    obtain ⟨phys₁, h₁, x, hx, -⟩ := copyOut_succ h
    rcases Nat.lt_succ_iff_lt_or_eq.mp hk with hlt | rfl
    · exact ih h₁ k hlt
    · exact ⟨x, hx⟩

/-- The copy is at its addresses, and the other bytes of the process are as they were. -/
theorem copyOut_byte (he : Exclusive mc m (· = p))
    (h : copyOut p m vaddr buf n phys = some phys') (ha : physAddr m p a = some x) :
    phys' x = if vaddr ≤ a ∧ a < vaddr + n then buf (a - vaddr) else phys x := by
  induction n generalizing phys' with
  | zero =>
    obtain rfl := Option.some.inj h
    rw [if_neg (by omega)]
  | succ n ih =>
    obtain ⟨phys₁, h₁, y, hy, rfl⟩ := copyOut_succ h
    by_cases hxy : x = y
    · obtain rfl : a = vaddr + n := physAddr_inj he ha (hxy ▸ hy)
      rw [hxy, Function.update_self, if_pos (by omega), Nat.add_sub_cancel_left]
    · have hne : a ≠ vaddr + n := by
        rintro rfl
        exact hxy (Option.some.inj (ha.symm.trans hy))
      rw [Function.update_of_ne hxy, ih h₁]
      by_cases hin : vaddr ≤ a ∧ a < vaddr + n
      · rw [if_pos hin, if_pos (by omega)]
      · rw [if_neg hin, if_neg (by omega)]

/-- Only bytes of the process change. -/
theorem copyOut_other (h : copyOut p m vaddr buf n phys = some phys')
    (hx : ∀ a, physAddr m p a ≠ some x) : phys' x = phys x := by
  induction n generalizing phys' with
  | zero => exact congrFun (Option.some.inj h).symm x
  | succ n ih =>
    obtain ⟨phys₁, h₁, y, hy, rfl⟩ := copyOut_succ h
    rw [Function.update_of_ne, ih h₁]
    rintro rfl
    exact hx _ hy

end Bytes

section Own

variable {mc : Machine} {p : ℕ} {h h' : Heap} {kind : Layout} {live : Live} {m : Memory}
  {own : List ℕ} {left phys : Bytes} {a b i x : ℕ}

/-- Address `a` is in block `b` or in the header of its arena. -/
def InBlock (i b a : ℕ) : Prop :=
  (b ≤ a ∧ a < b + blockSize i) ∨
    (block2arena b * pgSize ≤ a ∧ a < block2arena b * pgSize + arenaSize)

/-- Address `a` is neither in a free block of the two lists nor in the header of its arena. -/
def Off (h : Heap) (p a : ℕ) : Prop :=
  ∀ i ∈ [descIndex 512, descIndex (512 + 48)], ∀ b ∈ h.freeList (some p) i, ¬InBlock i b a

/-- A byte that can be read into: off the free blocks, and in a page that is mapped. -/
structure Clear (s : Image) (p a : ℕ) : Prop where
  off : Off s.heap p a
  mapped : a / pgSize < 0xc0000 → ∃ f, s.memory.frameAt (some p) (a / pgSize) = some f

/-- Which blocks are free is a matter of the arenas and the allocations. -/
theorem off_congr (hs : Sound mc (some p) h kind live) (hs' : Sound mc (some p) h' kind live) :
    Off h' p a ↔ Off h p a := by
  simp only [Off, mem_freeList_iff hs, mem_freeList_iff hs']

theorem mem_blockBytes_mapped {f : ℕ} (hf : m.frameAt (some p) (block2arena b) = some f) :
    a ∈ blockBytes m p i b ↔ InBlock i b a := by
  simp only [blockBytes, hf, Option.isSome_some, if_true, List.mem_append, List.mem_range'_1,
    InBlock]

theorem mem_blockBytes_new (hnone : m.frameAt (some p) (block2arena b) = none)
    (ha : a ∈ blockBytes m p i b) : a / pgSize = block2arena b := by
  simp only [blockBytes, hnone, Option.isSome_none, Bool.false_eq_true, if_false,
    List.mem_range'_1] at ha
  unfold pgSize at *
  omega

theorem overwrite_other (h : ∀ a ∈ own, physAddr m p a ≠ some x) :
    overwrite p m own left phys x = phys x := by
  rw [overwrite, if_neg]
  rw [List.mem_filterMap]
  rintro ⟨a, ha, hx⟩
  exact h a ha hx

end Own

/-- A heap that has lent the two buffers. -/
inductive Buffered (mc : Machine) (p : ℕ) (h h₂ : Heap) (kind : Layout) (live : Live) :
    (ioBuf allBlocks : ℕ) → Prop where
  | intro {h₁ : Heap} {kind₁ kind₂ : Layout} {a₁ k₁ a₂ k₂ : ℕ} :
      live (arena2block a₁ (descIndex 512) k₁) = none →
      Lent mc (some p) h.memory h₁.memory kind (descIndex 512) a₁ k₁ kind₁ →
      Sound mc (some p) h₁ kind₁
        (Function.update live (arena2block a₁ (descIndex 512) k₁) (some 512)) →
      Function.update live (arena2block a₁ (descIndex 512) k₁) (some 512)
        (arena2block a₂ (descIndex (512 + 48)) k₂) = none →
      Lent mc (some p) h₁.memory h₂.memory kind₁ (descIndex (512 + 48)) a₂ k₂ kind₂ →
      Sound mc (some p) h₂ kind₂ (Function.update
        (Function.update live (arena2block a₁ (descIndex 512) k₁) (some 512))
        (arena2block a₂ (descIndex (512 + 48)) k₂) (some (512 + 48))) →
      Buffered mc p h h₂ kind live (arena2block a₁ (descIndex 512) k₁)
        (arena2block a₂ (descIndex (512 + 48)) k₂)

section Buffers

variable {mc : Machine} {p : ℕ} {h h₁ h₂ h₃ h₄ : Heap} {kind : Layout} {live : Live}
  {ioBuf allBlocks a f w : ℕ} {d : Ctx}

theorem buffered_mallocs (hs : Sound mc (some p) h kind live)
    (h₁m : sysMalloc mc h (some p) 512 = some (h₁, some ioBuf))
    (h₂m : sysMalloc mc h₁ (some p) (512 + 48) = some (h₂, some allBlocks)) :
    Buffered mc p h h₂ kind live ioBuf allBlocks := by
  obtain ⟨a₁, k₁, kind₁, rfl, hdead, hl₁, hs₁⟩ := sysMalloc_lent hs (by decide) h₁m
  obtain ⟨a₂, k₂, kind₂, rfl, hdead₂, hl₂, hs₂⟩ := sysMalloc_lent hs₁ (by decide) h₂m
  exact .intro hdead hl₁ hs₁ hdead₂ hl₂ hs₂

theorem Buffered.frameAt (hb : Buffered mc p h h₂ kind live ioBuf allBlocks)
    (hf : h.memory.frameAt d w = some f) : h₂.memory.frameAt d w = some f := by
  obtain ⟨-, hl₁, -, -, hl₂, -⟩ := hb
  exact lent_frameAt hl₂ (lent_frameAt hl₁ hf)

theorem Buffered.keeps {x : ℕ} (hb : Buffered mc p h h₂ kind live ioBuf allBlocks)
    (hx : physAddr h.memory p a = some x) : physAddr h₂.memory p a = some x := by
  obtain ⟨hlt, f, hf, hx⟩ := physAddr_some.mp hx
  exact physAddr_some.mpr ⟨hlt, f, hb.frameAt hf, hx⟩

theorem Buffered.exclusive (hb : Buffered mc p h h₂ kind live ioBuf allBlocks)
    (he : Exclusive mc h.memory (· = p)) : Exclusive mc h₂.memory (· = p) := by
  obtain ⟨-, hl₁, -, -, hl₂, -⟩ := hb
  exact lent_exclusive hl₂ (lent_exclusive hl₁ he)

/-- The pages of a process's arenas are its own. -/
theorem small_counts {i : ℕ} (hs : Sound mc (some p) h kind live) (ha : kind a = some (.small i)) :
    home (some p) a = some p ∧ Counts (· = p) (.page (some p) a) := by
  have hle : a + 1 ≤ 0xc0000 := (hs.core.pages.own a _ ha).resolve_left (by simp)
  exact ⟨home_user (by omega), rfl, by omega⟩

/-- A byte that can be read into is none of those that the call uses for itself. -/
theorem Buffered.own {s : Image} (hb : Buffered mc p s.heap h₂ kind live ioBuf allBlocks)
    (hs : Sound mc (some p) s.heap kind live) (ha : Clear s p a) :
    a ∉ ownBytes s.memory p h₂ ioBuf allBlocks := by
  obtain @⟨h₁, kind₁, kind₂, a₁, k₁, a₂, k₂, hdead₁, hl₁, hs₁, hdead₂, hl₂, hs₂⟩ := hb
  -- a block that is free or has just been taken, in an arena that may be new
  have hout : ∀ i ∈ [descIndex 512, descIndex (512 + 48)], ∀ b e k, kind₂ e = some (.small i) →
      k < blocksPerArena i → b = arena2block e i k → live b = none →
      a ∉ blockBytes s.memory p i b := by
    intro i hi b e k he hk hb hlive hin
    cases hframe : s.memory.frameAt (some p) (block2arena b) with
    | none =>
      have hpage := mem_blockBytes_new hframe hin
      have hlt : a / pgSize < 0xc0000 := by
        rw [hpage, hb, block2arena_arena2block hk]
        exact (small_counts hs₂ he).2.2
      obtain ⟨f, hf⟩ := ha.mapped hlt
      rw [hpage, hframe] at hf
      cases hf
    | some g =>
      rw [mem_blockBytes_mapped hframe] at hin
      rw [hb, block2arena_arena2block hk] at hframe
      have hold := lent_kind hl₁ (lent_kind hl₂ he (lent_frameAt hl₁ hframe)) hframe
      exact ha.off i hi b ((mem_freeList_iff hs).mpr ⟨e, k, hold, hk, hb, hlive⟩) hin
  have hdead : ∀ {l : Live} {b q size : ℕ}, Function.update l q (some size) b = none →
      l b = none := by
    intro l b q size hb
    rw [Function.update_apply] at hb
    split at hb
    · cases hb
    · exact hb
  have hlist : ∀ i ∈ [descIndex 512, descIndex (512 + 48)], ∀ b ∈ h₂.freeList (some p) i,
      a ∉ blockBytes s.memory p i b := by
    intro i hi b hb
    obtain ⟨e, k, he, hk, hb, hnone⟩ := (mem_freeList_iff hs₂).mp hb
    exact hout i hi b e k he hk hb (hdead (hdead hnone))
  obtain ⟨hk₁, hlt₁⟩ := lent_block hl₁
  obtain ⟨hk₂, hlt₂⟩ := lent_block hl₂
  rw [ownBytes, List.mem_append, List.mem_flatMap, List.mem_flatMap]
  rintro (⟨b, hb, hin⟩ | ⟨b, hb, hin⟩)
  · rcases List.mem_cons.mp hb with rfl | hb
    · exact hout _ List.mem_cons_self _ a₁ k₁ (lent_mono hl₂ hk₁) hlt₁ rfl hdead₁ hin
    · exact hlist _ List.mem_cons_self b hb hin
  · have hi : descIndex (512 + 48) ∈ [descIndex 512, descIndex (512 + 48)] :=
      List.mem_cons_of_mem _ List.mem_cons_self
    rcases List.mem_cons.mp hb with rfl | hb
    · exact hout _ hi _ a₂ k₂ hk₂ hlt₂ rfl (hdead hdead₂) hin
    · exact hlist _ hi b hb hin

/-- Given back, the buffers have left no trace in the heap and in the page tables. -/
theorem Buffered.returned (hb : Buffered mc p h h₂ kind live ioBuf allBlocks)
    (hs : Sound mc (some p) h kind live) (he : Exclusive mc h.memory (· = p))
    (hf₁ : sysFree mc h₂ (some p) allBlocks = some h₃)
    (hf₂ : sysFree mc h₃ (some p) ioBuf = some h₄) :
    Sound mc (some p) h₄ kind live ∧ Exclusive mc h₄.memory (· = p) ∧
      (∀ d w, h₄.memory.frameAt d w = h.memory.frameAt d w) ∧
      ∀ n, Spare mc h.memory p (n + 2) → Spare mc h₄.memory p n := by
  have he₂ := hb.exclusive he
  obtain ⟨hdead₁, hl₁, hs₁, hdead₂, hl₂, hs₂⟩ := hb
  obtain ⟨hk₁, hlt₁⟩ := lent_block hl₁
  obtain ⟨hk₂, hlt₂⟩ := lent_block hl₂
  obtain ⟨hs₃, hsame₃⟩ := lent_returned hl₂ hs₁ hdead₂ hs₂ (fun _ _ => rfl) hf₁
  have he₃ := sysFree_exclusive hs₂ he₂ (small_counts hs₂ hk₂) hk₂ hlt₂ hf₁
  obtain ⟨hs₄, hsame₄⟩ := lent_returned hl₁ hs hdead₁ hs₃ hsame₃ hf₂
  refine ⟨hs₄, sysFree_exclusive hs₃ he₃ (small_counts hs₃ hk₁) hk₁ hlt₁ hf₂, hsame₄, ?_⟩
  intro n hspare
  exact sysFree_spare hs₃ hk₁ hlt₁
    (sysFree_spare hs₂ hk₂ hlt₂ (lent_spare (lent_spare hspare hl₁) hl₂) hf₁) hf₂

theorem Buffered.frees_exist (hb : Buffered mc p h h₂ kind live ioBuf allBlocks)
    (he : Exclusive mc h.memory (· = p)) :
    ∃ h₃ h₄, sysFree mc h₂ (some p) allBlocks = some h₃ ∧
      sysFree mc h₃ (some p) ioBuf = some h₄ := by
  have he₂ := hb.exclusive he
  obtain ⟨hdead₁, hl₁, hs₁, hdead₂, hl₂, hs₂⟩ := hb
  obtain ⟨hk₁, hlt₁⟩ := lent_block hl₁
  obtain ⟨hk₂, hlt₂⟩ := lent_block hl₂
  obtain ⟨h₃, hf₁⟩ := freeSmall_exists hs₂ he₂ (small_counts hs₂ hk₂) hk₂ hlt₂ (by simp)
  rw [← sysFree_small hs₂ hk₂ hlt₂] at hf₁
  obtain ⟨hs₃, -⟩ := lent_returned hl₂ hs₁ hdead₂ hs₂ (fun _ _ => rfl) hf₁
  have he₃ := sysFree_exclusive hs₂ he₂ (small_counts hs₂ hk₂) hk₂ hlt₂ hf₁
  obtain ⟨h₄, hf₂⟩ := freeSmall_exists hs₃ he₃ (small_counts hs₃ hk₁) hk₁ hlt₁ (by simp)
  rw [← sysFree_small hs₃ hk₁ hlt₁] at hf₂
  exact ⟨h₃, h₄, hf₁, hf₂⟩

/-- With two frames and two addresses left there are two buffers. -/
theorem mallocs_exist (hs : Sound mc (some p) h kind live) (hspare : Spare mc h.memory p 2) :
    ∃ h₁ ioBuf h₂ allBlocks, sysMalloc mc h (some p) 512 = some (h₁, some ioBuf) ∧
      sysMalloc mc h₁ (some p) (512 + 48) = some (h₂, some allBlocks) := by
  obtain ⟨h₁, ioBuf, hm₁⟩ := hspare.sysMalloc_exists (show 0 < 512 by decide) (by decide)
  obtain ⟨a, k, kind₁, rfl, -, hl, -⟩ := sysMalloc_lent hs (by decide) hm₁
  obtain ⟨h₂, allBlocks, hm₂⟩ := (lent_spare hspare hl).sysMalloc_exists
    (show 0 < 512 + 48 by decide) (by decide)
  exact ⟨h₁, _, h₂, allBlocks, hm₁, hm₂⟩

end Buffers

section Reading

variable {part : Partition} {v : Volume part} {ino : Inode} {c : List Byte} {pos count : ℕ}
  {buf : Bytes} {res : ReadResult}

theorem fileRead_eof (hsize : ino.iSize < 2 ^ 32) (hcount : 0 < count)
    (hlt : ino.iSize + count < 2 ^ 32) (disk : Bytes) :
    fileRead true true ino.iSize ino disk buf count = some ⟨-1, ino.iSize, buf⟩ := by
  have hmod : (ino.iSize + count) % 2 ^ 32 = ino.iSize + count := Nat.mod_eq_of_lt hlt
  have hclamp : (ino.iSize + count) % 2 ^ 32 > ino.iSize := by omega
  have hzero : (ino.iSize + 2 ^ 32 - ino.iSize) % 2 ^ 32 = 0 := by omega
  simp only [fileRead, if_pos hclamp, hzero]
  exact if_pos ⟨hclamp, trivial⟩

/-- A read that returns has delivered what there is from its position on. -/
theorem fileRead_some (hr : Readable v ino c) (hpos : pos ≤ ino.iSize) (hcount : count < 2 ^ 32)
    (h : fileRead true true pos ino v.disk buf count = some res) :
    pos + count < 2 ^ 32 ∧
      (¬(0 < count ∧ pos = ino.iSize) → (pos + available ino pos count) / 512 < 139) ∧
      res = ⟨if 0 < count ∧ pos = ino.iSize then -1 else available ino pos count,
        pos + available ino pos count,
        patch buf 0 (available ino pos count) fun j =>
          v.disk (byteAddr (ref v.disk ino) (pos + j))⟩ := by
  have hsize := hr.layout.size
  have hlast : (¬(0 < count ∧ pos = ino.iSize) ∨ 2 ^ 32 ≤ pos + count) →
      pos + count < 2 ^ 32 ∧ (pos + available ino pos count) / 512 < 139 := by
    intro hne
    have h' := h
    simp only [fileRead] at h'
    generalize hsz : (if (pos + count) % 2 ^ 32 > ino.iSize then
      (ino.iSize + 2 ^ 32 - pos) % 2 ^ 32 else count) = size at h'
    rw [if_neg (by split at hsz <;> omega)] at h'
    simp only [Bool.true_eq_false, ↓reduceIte, bind_some_iff, assert_eq_some] at h'
    obtain ⟨-, hblocks, ab, -, ⟨br, pos', buf'⟩, hloop, -⟩ := h'
    obtain ⟨hp, hle⟩ := FsFilePosition.readLoop_moves _ hloop (by omega) (by omega)
    -- no read gets behind the last block, so the sum has not wrapped around
    unfold available
    split at hsz <;> omega
  by_cases hwrap : 2 ^ 32 ≤ pos + count
  · exact absurd (hlast (.inr hwrap)).1 (by omega)
  refine ⟨by omega, fun hne => (hlast (.inl hne)).2, ?_⟩
  by_cases heof : 0 < count ∧ pos = ino.iSize
  · obtain ⟨hc, rfl⟩ := heof
    have hnone : available ino ino.iSize count = 0 := by
      unfold available
      omega
    rw [fileRead_eof (by omega) hc (by omega)] at h
    rw [if_pos ⟨hc, rfl⟩, hnone, patch_zero, Nat.add_zero]
    exact (Option.some.inj h).symm
  · rw [fileRead_eq hr pos count hpos (by omega) (hlast (.inl heof)).2] at h
    exact (Option.some.inj h).symm

theorem content_at {k : ℕ} (hk : k < ino.iSize) :
    (content v.disk ino)[k]? = some (v.disk (byteAddr (ref v.disk ino) k)) := by
  simp [FsFileWrite.content, hk]

end Reading

/-- What a read of `n` bytes has left: they are at the destination, and the process, its heap and
every byte off the free blocks are as they were. -/
structure Delivered (mc : Machine) (p : ℕ) (kind : Layout) (live : Live) (dst : Option ℕ) (n : ℕ)
    (buf : Bytes) (s s' : Image) : Prop where
  sound : Sound mc (some p) s'.heap kind live
  exclusive : Exclusive mc s'.memory (· = p)
  frames : ∀ d w, s'.memory.frameAt d w = s.memory.frameAt d w
  spare : ∀ m, Spare mc s.memory p (m + 2) → Spare mc s'.memory p m
  mapped : ∀ a ∈ dst, ∀ k < n, ∃ x, physAddr s.memory p (a + k) = some x
  copied : ∀ a ∈ dst, ∀ k < n, ∀ x, physAddr s.memory p (a + k) = some x → s'.phys x = buf k
  kept : ∀ y x, physAddr s.memory p y = some x → Off s.heap p y →
    (∀ a ∈ dst, ¬(a ≤ y ∧ y < a + n)) → s'.phys x = s.phys x

section Call

variable {mc : Machine} {inside : Inside} {p : ℕ} {part : Partition} {v : Volume part} {ino : Inode}
  {c : List Byte} {kind : Layout} {live : Live} {dst : Option ℕ} {count : ℕ} {s s' : Image}
  {res : ReadResult}

/-- The bytes that the loop delivers. -/
theorem readSize_eq {pos : ℕ} (ino : Inode) (hsize : ino.iSize < 2 ^ 32) (hpos : pos ≤ ino.iSize)
    (hcount : pos + count < 2 ^ 32) :
    (if (pos + count) % 2 ^ 32 > ino.iSize then (ino.iSize + 2 ^ 32 - pos) % 2 ^ 32 else count) =
      available ino pos count := by
  rw [Nat.mod_eq_of_lt hcount]
  unfold available
  split <;> omega

theorem physAddr_frames {m m' : Memory} {a : ℕ} (h : ∀ d w, m'.frameAt d w = m.frameAt d w) :
    physAddr m' p a = physAddr m p a := by
  unfold physAddr
  rw [h]

/-- The bytes of the process when the buffers have been given back. -/
theorem Buffered.delivered {h₂ h₃ h₄ : Heap} {ioBuf allBlocks n : ℕ} {buf phys : Bytes}
    {pos : ℕ} (hb : Buffered mc p s.heap h₂ kind live ioBuf allBlocks)
    (hs : Sound mc (some p) s.heap kind live) (he : Exclusive mc s.memory (· = p))
    (hdst : ∀ a ∈ dst, ∀ k < n, Clear s p (a + k))
    (hcopy : copyTo p h₂.memory dst buf n s.phys = some phys)
    (hf₁ : sysFree mc h₂ (some p) allBlocks = some h₃)
    (hf₂ : sysFree mc h₃ (some p) ioBuf = some h₄) :
    Delivered mc p kind live dst n buf s ⟨h₄, overwrite p h₂.memory
      (ownBytes s.memory p h₂ ioBuf allBlocks) (inside.left s) phys, pos⟩ := by
  obtain ⟨hs₄, he₄, hsame, hspare⟩ := hb.returned hs he hf₁ hf₂
  have he₂ := hb.exclusive he
  have hclear : ∀ y x, physAddr s.memory p y = some x → Off s.heap p y → Clear s p y := by
    intro y x hx hoff
    obtain ⟨-, f, hf, -⟩ := physAddr_some.mp hx
    exact ⟨hoff, fun _ => ⟨f, hf⟩⟩
  -- the values left in the call's own bytes are elsewhere
  have hown : ∀ y x, physAddr s.memory p y = some x → Clear s p y →
      overwrite p h₂.memory (ownBytes s.memory p h₂ ioBuf allBlocks) (inside.left s) phys x =
        phys x := by
    intro y x hx hy
    apply overwrite_other
    intro o ho hxo
    obtain rfl := physAddr_inj he₂ (hb.keeps hx) hxo
    exact hb.own hs hy ho
  constructor
  case sound => exact hs₄
  case exclusive => exact he₄
  case frames => exact hsame
  case spare => exact hspare
  case mapped =>
    rintro a ha k hk
    obtain rfl : dst = some a := ha
    obtain ⟨x, hx⟩ := copyOut_mapped hcopy k hk
    obtain ⟨hlt, -⟩ := physAddr_some.mp hx
    obtain ⟨f, hf⟩ := (hdst a rfl k hk).mapped hlt
    exact ⟨_, physAddr_some.mpr ⟨hlt, f, hf, rfl⟩⟩
  case copied =>
    rintro a ha k hk x hx
    obtain rfl : dst = some a := ha
    refine (hown _ x hx (hdst a rfl k hk)).trans ?_
    rw [copyOut_byte he₂ hcopy (hb.keeps hx), if_pos (by omega), Nat.add_sub_cancel_left]
  case kept =>
    intro y x hx hoff hout
    refine (hown y x hx (hclear y x hx hoff)).trans ?_
    cases dst with
    | none => exact congrFun (Option.some.inj hcopy).symm x
    | some a => rw [copyOut_byte he₂ hcopy (hb.keeps hx), if_neg (hout a rfl)]

/-- The read finds the end of the file, and asks for no buffers. -/
def AtEnd (ino : Inode) (pos count : ℕ) : Prop :=
  (pos + count) % 2 ^ 32 > ino.iSize ∧ available ino pos count = 0

theorem fileReadHeap_end {disk : Bytes}
    (havail : (if (s.fdPos + count) % 2 ^ 32 > ino.iSize then
      (ino.iSize + 2 ^ 32 - s.fdPos) % 2 ^ 32 else count) = available ino s.fdPos count)
    (heof : AtEnd ino s.fdPos count) :
    fileReadHeap mc inside p disk ino dst count s = some (⟨-1, s.fdPos, zeroes⟩, s) := by
  unfold fileReadHeap
  simp only [havail]
  exact if_pos heof

theorem fileRead_end {disk : Bytes} {pos : ℕ}
    (havail : (if (pos + count) % 2 ^ 32 > ino.iSize then
      (ino.iSize + 2 ^ 32 - pos) % 2 ^ 32 else count) = available ino pos count)
    (heof : AtEnd ino pos count) :
    fileRead true true pos ino disk zeroes count = some ⟨-1, pos, zeroes⟩ := by
  unfold fileRead
  simp only [havail]
  exact if_pos heof

/-- A call with both buffers that keeps off its own bytes. -/
theorem fileReadHeap_eq {disk : Bytes} {h₁ h₂ h₃ h₄ : Heap} {ioBuf allBlocks : ℕ} {phys : Bytes}
    (havail : (if (s.fdPos + count) % 2 ^ 32 > ino.iSize then
      (ino.iSize + 2 ^ 32 - s.fdPos) % 2 ^ 32 else count) = available ino s.fdPos count)
    (hne : ¬AtEnd ino s.fdPos count)
    (hm₁ : sysMalloc mc s.heap (some p) 512 = some (h₁, some ioBuf))
    (hm₂ : sysMalloc mc h₁ (some p) (512 + 48) = some (h₂, some allBlocks))
    (hclear : ∀ a ∈ dst, ∀ k < available ino s.fdPos count,
      a + k ∉ ownBytes s.memory p h₂ ioBuf allBlocks)
    (hres : fileRead true true s.fdPos ino disk zeroes count = some res)
    (hcopy : copyTo p h₂.memory dst res.buf (available ino s.fdPos count) s.phys = some phys)
    (hf₁ : sysFree mc h₂ (some p) allBlocks = some h₃)
    (hf₂ : sysFree mc h₃ (some p) ioBuf = some h₄) :
    fileReadHeap mc inside p disk ino dst count s = some (res, ⟨h₄, overwrite p h₂.memory
      (ownBytes s.memory p h₂ ioBuf allBlocks) (inside.left s) phys, res.fdPos⟩) := by
  unfold fileReadHeap
  simp only [havail]
  refine (if_neg hne).trans ?_
  rw [hm₁, Option.bind_eq_bind, Option.bind_some]
  dsimp only
  rw [hm₂, Option.bind_eq_bind, Option.bind_some]
  dsimp only
  rw [if_pos hclear]
  simp only [hres, hcopy, hf₁, hf₂, Option.bind_eq_bind, Option.bind_some, Option.pure_def]

/-- A call that returns, on a machine with a pool. -/
theorem fileReadHeap_cases {disk : Bytes} (hphys : mc.phySize .user ≠ 0)
    (havail : (if (s.fdPos + count) % 2 ^ 32 > ino.iSize then
      (ino.iSize + 2 ^ 32 - s.fdPos) % 2 ^ 32 else count) = available ino s.fdPos count)
    (hs : Sound mc (some p) s.heap kind live)
    (hdst : ∀ a ∈ dst, ∀ k < available ino s.fdPos count, Clear s p (a + k))
    (h : fileReadHeap mc inside p disk ino dst count s = some (res, s')) :
    AtEnd ino s.fdPos count ∧ res = ⟨-1, s.fdPos, zeroes⟩ ∧ s' = s ∨
    ¬AtEnd ino s.fdPos count ∧ ∃ h₁ ioBuf h₂ allBlocks h₃ h₄ phys,
      sysMalloc mc s.heap (some p) 512 = some (h₁, some ioBuf) ∧
      sysMalloc mc h₁ (some p) (512 + 48) = some (h₂, some allBlocks) ∧
      (∀ a ∈ dst, ∀ k < available ino s.fdPos count,
        a + k ∉ ownBytes s.memory p h₂ ioBuf allBlocks) ∧
      fileRead true true s.fdPos ino disk zeroes count = some res ∧
      copyTo p h₂.memory dst res.buf (available ino s.fdPos count) s.phys = some phys ∧
      sysFree mc h₂ (some p) allBlocks = some h₃ ∧ sysFree mc h₃ (some p) ioBuf = some h₄ ∧
      s' = ⟨h₄, overwrite p h₂.memory (ownBytes s.memory p h₂ ioBuf allBlocks) (inside.left s)
        phys, res.fdPos⟩ := by
  unfold fileReadHeap at h
  simp only [havail] at h
  split at h
  · rename_i heof
    obtain ⟨rfl, rfl⟩ := Prod.mk.inj (Option.some.inj h)
    exact .inl ⟨heof, rfl, rfl⟩
  · rename_i hne
    rw [bind_some_iff] at h
    obtain ⟨⟨h₁, ioBuf⟩, hm₁, h⟩ := h
    cases ioBuf with
    | none => exact absurd (FsFullDisk.sysMalloc_small (by decide) (by decide) hm₁).1 hphys
    | some ioBuf =>
      rw [bind_some_iff] at h
      obtain ⟨⟨h₂, allBlocks⟩, hm₂, h⟩ := h
      cases allBlocks with
      | none => exact absurd (FsFullDisk.sysMalloc_small (by decide) (by decide) hm₂).1 hphys
      | some allBlocks =>
        have hb := buffered_mallocs hs hm₁ hm₂
        have hclear : ∀ a ∈ dst, ∀ k < available ino s.fdPos count,
            a + k ∉ ownBytes s.memory p h₂ ioBuf allBlocks := fun a ha k hk =>
          hb.own hs (hdst a ha k hk)
        simp only at h
        rw [if_pos hclear] at h
        simp only [bind_some_iff, Option.pure_def, Option.some.injEq, Prod.mk.injEq] at h
        obtain ⟨res, hres, phys, hcopy, h₃, hf₁, h₄, hf₂, rfl, rfl⟩ := h
        exact .inr ⟨hne, h₁, ioBuf, h₂, allBlocks, h₃, h₄, phys, hm₁, hm₂, hclear, hres, hcopy, hf₁,
          hf₂, rfl⟩

/-- A call that returns has read what there is, and has given its buffers back. -/
theorem fileReadHeap_some (hr : Readable v ino c) (hpos : s.fdPos ≤ ino.iSize)
    (hcount : s.fdPos + count < 2 ^ 32) (hphys : mc.phySize .user ≠ 0)
    (hs : Sound mc (some p) s.heap kind live) (he : Exclusive mc s.memory (· = p))
    (hdst : ∀ a ∈ dst, ∀ k < available ino s.fdPos count, Clear s p (a + k))
    (h : fileReadHeap mc inside p v.disk ino dst count s = some (res, s')) :
    fileRead true true s.fdPos ino v.disk zeroes count = some res ∧ s'.fdPos = res.fdPos ∧
      Delivered mc p kind live dst (available ino s.fdPos count) res.buf s s' := by
  have hsize := hr.layout.size
  have havail := readSize_eq ino (by omega) hpos hcount
  rcases fileReadHeap_cases hphys havail hs hdst h with ⟨heof, rfl, rfl⟩ |
    ⟨-, h₁, ioBuf, h₂, allBlocks, h₃, h₄, phys, hm₁, hm₂, -, hres, hcopy, hf₁, hf₂, rfl⟩
  · refine ⟨fileRead_end havail heof, rfl, ?_⟩
    rw [heof.2]
    exact ⟨hs, he, fun _ _ => rfl, fun m hm => hm.mono (Nat.le_add_right m 2),
      fun _ _ k hk => absurd hk (Nat.not_lt_zero k),
      fun _ _ k hk => absurd hk (Nat.not_lt_zero k), fun _ _ _ _ _ => rfl⟩
  · exact ⟨hres, rfl, (buffered_mallocs hs hm₁ hm₂).delivered hs he hdst hcopy hf₁ hf₂⟩

/-- With frames and addresses for the buffers, and the destination mapped, the call returns. -/
theorem fileReadHeap_exists (inside : Inside) (hr : Readable v ino c) (hpos : s.fdPos ≤ ino.iSize)
    (hcount : s.fdPos + count < 2 ^ 32) (hspare : Spare mc s.memory p 2)
    (hs : Sound mc (some p) s.heap kind live) (he : Exclusive mc s.memory (· = p))
    (hdst : ∀ a ∈ dst, ∀ k < available ino s.fdPos count, Clear s p (a + k))
    (hmapped : ∀ a ∈ dst, ∀ k < available ino s.fdPos count,
      ∃ x, physAddr s.memory p (a + k) = some x)
    (hres : fileRead true true s.fdPos ino v.disk zeroes count = some res) :
    ∃ s', fileReadHeap mc inside p v.disk ino dst count s = some (res, s') := by
  have hsize := hr.layout.size
  have havail := readSize_eq ino (by omega) hpos hcount
  by_cases heof : AtEnd ino s.fdPos count
  · obtain rfl := Option.some.inj ((fileRead_end havail heof).symm.trans hres)
    exact ⟨s, fileReadHeap_end havail heof⟩
  · obtain ⟨h₁, ioBuf, h₂, allBlocks, hm₁, hm₂⟩ := mallocs_exist hs hspare
    have hb := buffered_mallocs hs hm₁ hm₂
    obtain ⟨h₃, h₄, hf₁, hf₂⟩ := hb.frees_exist he
    obtain ⟨phys, hcopy⟩ : ∃ phys, copyTo p h₂.memory dst res.buf (available ino s.fdPos count)
        s.phys = some phys := by
      cases dst with
      | none => exact ⟨s.phys, rfl⟩
      | some a =>
        apply copyOut_exists
        intro k hk
        obtain ⟨x, hx⟩ := hmapped a rfl k hk
        exact ⟨x, hb.keeps hx⟩
    exact ⟨_, fileReadHeap_eq havail heof hm₁ hm₂ (fun a ha k hk => hb.own hs (hdst a ha k hk)) hres
      hcopy hf₁ hf₂⟩

end Call

end FsReadMemory
