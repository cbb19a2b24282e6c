import XianweiOS.HeapFork
import XianweiOS.KernelList

/-! The free lists of `kernel/memory.c` as pointers. The ends of a list lie in its descriptor, in the
memory of the kernel that all address spaces share; the pointers of a block lie in its page, of
which every address space has its own. The lists of `MemoryHeap` are what the pointers spell as long
as a process frees blocks of its own arenas only. -/
namespace HeapLinks

open HaltingProgram MemoryPages MemoryHeap HeapInvariant LinkedChain KernelList

/-- What a pointer of a free list holds: `NULL`, the address of an end, or that of a block. -/
inductive Addr where
  | null
  | head (c : Ctx) (i : ℕ)
  | tail (c : Ctx) (i : ℕ)
  | block (b : ℕ)
  deriving DecidableEq, Repr

def Addr.inKernel : Addr → Bool
  | .head _ _ | .tail _ _ => true
  | _ => false

/-- The pointers in the descriptors, and those in the pages of each context. -/
structure Pointers where
  ends : Links Addr
  pages : Ctx → Links Addr

/-- What context `c` reads. -/
def Pointers.view (p : Pointers) (c : Ctx) : Links Addr where
  prev x := if x.inKernel then p.ends.prev x else (p.pages c).prev x
  next x := if x.inKernel then p.ends.next x else (p.pages c).next x

/-- What context `c` has written. -/
def Pointers.store (p : Pointers) (c : Ctx) (m : Links Addr) : Pointers :=
  ⟨m, Function.update p.pages c m⟩

/-- `free_list` of descriptor `i`. -/
def descList (c : Ctx) (i : ℕ) : KList Addr := ⟨.head c i, .tail c i⟩

/-- What `memset` leaves of the pointers of a block. -/
def clearBlock (b : ℕ) (m : Links Addr) : Links Addr :=
  setPrev (setNext m (.block b) .null) (.block b) .null

/-! ### The functions of the heap

They work on the pointers, and on the pages and arena headers of the heap; the lists that the heap
itself has are neither read nor written. -/

section Functions

variable (mc : Machine) (fuel : ℕ)

def appendBlocks (c : Ctx) (a i : ℕ) : (cnt idx : ℕ) → Links Addr → Option (Links Addr)
  | 0, _, m => some m
  | cnt + 1, idx, m => do
    let b := Addr.block (arena2block a i idx)
    let found ← elemFind fuel (descList c i) b m
    assert (found = false)
    appendBlocks c a i cnt (idx + 1) (listAppend (descList c i) b m)

def removeBlocks (c : Ctx) (a i : ℕ) : (cnt idx : ℕ) → Links Addr → Option (Links Addr)
  | 0, _, m => some m
  | cnt + 1, idx, m => do
    let b := Addr.block (arena2block a i idx)
    let found ← elemFind fuel (descList c i) b m
    assert (found = true)
    removeBlocks c a i cnt (idx + 1) (listRemove b m)

def newArena (h : Heap) (m : Links Addr) (c : Ctx) (i : ℕ) : Option ((Heap × Links Addr) × Bool) := do
  match ← mallocPage mc h.memory c 1 with
  | (mem, none) => return ((h.setMemory mem, m), false)
  | (mem, some a) =>
    let m ← appendBlocks fuel c a i (blocksPerArena i) 0 m
    return (((h.setMemory mem).setHeader c a ⟨some (c, i), blocksPerArena i, true⟩, m), true)

/-- Behind `NULL` or an end there is no arena to count in. -/
def takeBlock (h : Heap) (m : Links Addr) (c : Ctx) (i : ℕ) :
    Option ((Heap × Links Addr) × Option ℕ) :=
  match listPop (descList c i) m with
  | (.block b, m) =>
    let a := block2arena b
    let e := h.header c a
    some ((h.setHeader c a { e with cnt := e.cnt - 1 }, clearBlock b m), some b)
  | _ => none

def mallocSmall (h : Heap) (m : Links Addr) (c : Ctx) (size : ℕ) :
    Option ((Heap × Links Addr) × Option ℕ) :=
  let i := descIndex size
  if listEmpty (descList c i) m then do
    let ((h, m), ok) ← newArena mc fuel h m c i
    if ok then takeBlock h m c i else return ((h, m), none)
  else takeBlock h m c i

def sysMalloc (h : Heap) (m : Links Addr) (c : Ctx) (size : ℕ) :
    Option ((Heap × Links Addr) × Option ℕ) :=
  if 0 < size ∧ size < mc.phySize (flagOf c) then
    if 1024 < size then do
      let (h, r) ← mallocLarge mc h c size
      return ((h, m), r)
    else mallocSmall mc fuel h m c size
  else some ((h, m), none)

/-- The block is appended in the address space that runs, whoever owns the descriptor. -/
def freeSmall (h : Heap) (m : Links Addr) (c o : Ctx) (i ptr : ℕ) : Option (Heap × Links Addr) :=
  let a := block2arena ptr
  let e := h.header c a
  let m := listAppend (descList o i) (.block ptr) m
  let h := h.setHeader c a { e with cnt := e.cnt + 1 }
  if e.cnt + 1 = blocksPerArena i then do
    let m ← removeBlocks fuel o a i (blocksPerArena i) 0 m
    let mem ← mfreePage mc h.memory c a 1
    return (h.setMemory mem, m)
  else some (h, m)

def sysFree (h : Heap) (m : Links Addr) (c : Ctx) (ptr : ℕ) : Option (Heap × Links Addr) := do
  assert (ptr ≠ 0)
  let a := block2arena ptr
  match (h.header c a).desc, (h.header c a).large with
  | some (o, i), _ => freeSmall mc fuel h m c o i ptr
  | none, true =>
    let mem ← mfreePage mc h.memory c a (h.header c a).cnt
    return (h.setMemory mem, m)
  | none, false => none

end Functions

section Views

variable {p : Pointers} {c c' : Ctx} {m : Links Addr}

@[simp] theorem view_store_self : (p.store c m).view c = m := by
  simp only [Pointers.view, Pointers.store, Function.update_self, ite_self]

theorem view_store_kernel (p : Pointers) (c c' : Ctx) (m : Links Addr) {x : Addr}
    (hx : x.inKernel = true) :
    ((p.store c m).view c').next x = m.next x ∧ ((p.store c m).view c').prev x = m.prev x := by
  simp only [Pointers.view, Pointers.store, hx, ↓reduceIte, and_self]

theorem view_store_block (hc : c' ≠ c) {x : Addr} (hx : x.inKernel = false) :
    ((p.store c m).view c').next x = (p.view c').next x ∧
      ((p.store c m).view c').prev x = (p.view c').prev x := by
  simp only [Pointers.view, Pointers.store, hx, Function.update_of_ne hc, Bool.false_eq_true,
    ↓reduceIte, and_self]

end Views

/-- The pointers that `c` reads spell the lists `l` of its descriptors. -/
def Spells (m : Links Addr) (c : Ctx) (l : ℕ → List ℕ) : Prop :=
  Represents m (descList c) fun i => (l i).map Addr.block

/-- The descriptors of the other contexts are not written. -/
def Within (c : Ctx) (m m' : Links Addr) : Prop :=
  ∀ c' ≠ c, ∀ i, ∀ x ∈ [Addr.head c' i, Addr.tail c' i], m'.next x = m.next x ∧ m'.prev x = m.prev x

section Spells

variable {m m' m'' : Links Addr} {c c' : Ctx} {l : ℕ → List ℕ} {i j b : ℕ} {t : List ℕ}

theorem Within.refl : Within c m m := fun _ _ _ _ _ => ⟨rfl, rfl⟩

theorem Within.trans (h : Within c m m') (h' : Within c m' m'') : Within c m m'' := by
  intro c' hc i x hx
  obtain ⟨hn, hp⟩ := h c' hc i x hx
  obtain ⟨hn', hp'⟩ := h' c' hc i x hx
  exact ⟨hn'.trans hn, hp'.trans hp⟩

theorem map_update (l : ℕ → List ℕ) (i : ℕ) (t : List ℕ) :
    (fun j => (Function.update l i t j).map Addr.block) =
      Function.update (fun j => (l j).map Addr.block) i (t.map Addr.block) := by
  funext j
  by_cases hj : j = i
  · subst j
    simp only [Function.update_self]
  · simp only [Function.update_of_ne hj]

theorem block_notMem_nodes (hb : b ∉ t) :
    Addr.block b ∉ nodes (descList c i) (t.map Addr.block) := by
  simpa [nodes, descList] using hb

theorem fresh_block (hb : ∀ j, b ∉ l j) :
    Fresh (descList c) (fun j => (l j).map Addr.block) (.block b) :=
  fun j => block_notMem_nodes (hb j)

/-- The ends of another context are on no list of this one. -/
theorem end_notMem_nodes (hc : c' ≠ c) {x : Addr} (hx : x ∈ [Addr.head c' j, Addr.tail c' j]) :
    x ∉ nodes (descList c i) (t.map Addr.block) ∧ x ≠ Addr.block b := by
  simp only [List.mem_cons, List.not_mem_nil, or_false] at hx
  rcases hx with rfl | rfl <;> simp [nodes, descList, hc]

theorem Spells.append (h : Spells m c l) (hb : ∀ j, b ∉ l j) (i : ℕ) :
    Spells (listAppend (descList c i) (.block b) m) c (Function.update l i (l i ++ [b])) ∧
      Within c m (listAppend (descList c i) (.block b) m) := by
  constructor
  · rw [Spells, map_update, List.map_append]
    exact represents_append h i (fresh_block hb)
  · intro c' hc j x hx
    obtain ⟨hout, hne⟩ := end_notMem_nodes (i := i) (t := l i) (b := b) hc hx
    exact (h.holds i).append_frame hout hne

theorem Spells.remove (h : Spells m c l) (hb : b ∈ l i) :
    Spells (listRemove (.block b) m) c (Function.update l i ((l i).erase b)) ∧
      Within c m (listRemove (.block b) m) := by
  have hmem : Addr.block b ∈ (l i).map Addr.block := List.mem_map_of_mem hb
  have hinj : Function.Injective Addr.block := fun _ _ he => Addr.block.inj he
  constructor
  · rw [Spells, map_update, List.map_erase hinj]
    exact represents_remove h hmem
  · intro c' hc j x hx
    obtain ⟨hout, -⟩ := end_notMem_nodes (i := i) (t := l i) (b := b) hc hx
    exact (h.holds i).remove_frame hmem hout

theorem Spells.pop (h : Spells m c l) (hl : l i = b :: t) :
    (listPop (descList c i) m).1 = .block b ∧
      Spells (listPop (descList c i) m).2 c (Function.update l i t) ∧
      Within c m (listPop (descList c i) m).2 := by
  have hcons : (fun j => (l j).map Addr.block) i = .block b :: t.map Addr.block := by
    simp only [hl, List.map_cons]
  obtain ⟨hret, hpop⟩ := represents_pop h hcons
  refine ⟨hret, ?_, ?_⟩
  · rw [Spells, map_update]
    exact hpop
  · have hfirst : m.next (descList c i).head = .block b := hret
    rw [listPop, hfirst]
    exact (h.remove (i := i) (b := b) (by rw [hl]; exact List.mem_cons_self)).2

theorem Spells.clear (h : Spells m c l) (hb : ∀ j, b ∉ l j) :
    Spells (clearBlock b m) c l ∧ Within c m (clearBlock b m) := by
  have hkeep : ∀ x, x ≠ Addr.block b →
      (clearBlock b m).next x = m.next x ∧ (clearBlock b m).prev x = m.prev x := by
    intro x hx
    simp only [clearBlock, setPrev, setNext, Function.update_of_ne hx, and_self]
  have hne : ∀ j, ∀ x ∈ nodes (descList c j) ((l j).map Addr.block), x ≠ Addr.block b :=
    fun j x hx he => block_notMem_nodes (hb j) (he ▸ hx)
  refine ⟨h.frame (fun j x hx => (hkeep x (hne j x hx)).1) fun j x hx => (hkeep x (hne j x hx)).2,
    fun c' hc j x hx => hkeep x ?_⟩
  exact (end_notMem_nodes (c := c) (i := j) (t := []) hc hx).2

/-- What another context has written is not on the lists of this one. -/
theorem Spells.view_store {p : Pointers} (h : Spells (p.view c') c' l) (hc : c' ≠ c)
    (hw : Within c (p.view c) m) : Spells ((p.store c m).view c') c' l := by
  have hkeep : ∀ j, ∀ x ∈ nodes (descList c' j) ((l j).map Addr.block),
      ((p.store c m).view c').next x = (p.view c').next x ∧
        ((p.store c m).view c').prev x = (p.view c').prev x := by
    intro j x hx
    simp only [nodes, descList, List.mem_cons, List.mem_append, List.mem_map, List.not_mem_nil,
      or_false] at hx
    have hend : x ∈ [Addr.head c' j, Addr.tail c' j] → x.inKernel = true →
        ((p.store c m).view c').next x = (p.view c').next x ∧
          ((p.store c m).view c').prev x = (p.view c').prev x := by
      intro hmem hk
      obtain ⟨hn, hp⟩ := view_store_kernel p c c' m hk
      obtain ⟨hn', hp'⟩ := hw c' hc j x hmem
      rw [hn, hp, hn', hp']
      simp only [Pointers.view, hk, ↓reduceIte, and_self]
    rcases hx with rfl | ⟨b, -, rfl⟩ | rfl
    · exact hend (by simp) rfl
    · exact view_store_block hc rfl
    · exact hend (by simp) rfl
  exact h.frame (fun j x hx => (hkeep j x hx).1) fun j x hx => (hkeep j x hx).2

end Spells

/-! ### The lists of `MemoryHeap` -/

/-- A heap with the lists `l`. -/
def withLists (h : Heap) (l : Ctx → ℕ → List ℕ) : Heap := { h with freeList := l }

/-- Context `c` has gone from the lists `l` to `l'`. -/
structure Respells (c : Ctx) (m m' : Links Addr) (l l' : Ctx → ℕ → List ℕ) : Prop where
  spells : Spells m' c (l' c)
  within : Within c m m'
  others : ∀ c' ≠ c, l' c' = l c'

section Simulation

variable {mc : Machine} {fuel : ℕ} {g g' : Heap} {m m' m'' : Links Addr} {c c' : Ctx}
  {L L' L'' : Ctx → ℕ → List ℕ} {l : ℕ → List ℕ} {a b i j cnt idx ptr size : ℕ} {t : List ℕ}

@[simp] theorem withLists_header : (withLists g L).header = g.header := rfl

@[simp] theorem withLists_memory : (withLists g L).memory = g.memory := rfl

@[simp] theorem withLists_freeList : (withLists g L).freeList = L := rfl

theorem Respells.refl (h : Spells m c (L c)) : Respells c m m L L := ⟨h, .refl, fun _ _ => rfl⟩

theorem Respells.trans (h : Respells c m m' L L') (h' : Respells c m' m'' L' L'') :
    Respells c m m'' L L'' :=
  ⟨h'.spells, h.within.trans h'.within, fun c' hc => (h'.others c' hc).trans (h.others c' hc)⟩

/-- One list of the context is written. -/
theorem Respells.set (h : Spells m' c (Function.update (L c) i t)) (hw : Within c m m') :
    Respells c m m' L (Function.update L c (Function.update (L c) i t)) := by
  refine ⟨?_, hw, fun c' hc => Function.update_of_ne hc ..⟩
  rwa [Function.update_self]

theorem Spells.found (h : Spells m c l) {found : Bool}
    (hf : elemFind fuel (descList c i) (.block b) m = some found) : found = decide (b ∈ l i) := by
  rw [(h.holds i).elemFind_some hf, decide_eq_decide, List.mem_map]
  exact ⟨fun ⟨b', hb, he⟩ => Addr.block.inj he ▸ hb, fun hb => ⟨b, hb, rfl⟩⟩

/-- A block that was taken off its list is on no other one. -/
theorem Spells.popped (h : Spells m c l) (hl : l i = b :: t) (j : ℕ) :
    b ∉ Function.update l i t j := by
  have hnodup := (h.holds i).nodup
  have hmem : Addr.block b ∈ nodes (descList c i) ((l i).map Addr.block) := by
    simp [nodes, hl]
  intro hb
  by_cases hj : j = i
  · subst j
    rw [Function.update_self] at hb
    rw [nodes, hl, List.map_cons, List.cons_append, List.nodup_cons, List.nodup_cons] at hnodup
    exact hnodup.2.1 (List.mem_append_left _ (List.mem_map_of_mem hb))
  · rw [Function.update_of_ne hj] at hb
    have hother : Addr.block b ∈ nodes (descList c j) ((l j).map Addr.block) := by
      simp [nodes, hb]
    exact h.apart j i hj hother hmem

theorem Spells.first (h : Spells m c l) :
    m.next (.head c i) = (match l i with | [] => Addr.tail c i | b :: _ => Addr.block b) := by
  cases hl : l i with
  | nil =>
    have hlinked := (h.holds i).linked
    simp only [nodes, hl, List.map_nil, List.nil_append] at hlinked
    exact (List.isChain_cons_cons.mp hlinked).1.1
  | cons b t => exact (h.pop hl).1

theorem listEmpty_spells (h : Spells m c l) : listEmpty (descList c i) m = true ↔ l i = [] := by
  rw [listEmpty, decide_eq_true_eq, descList, h.first]
  cases l i with
  | nil => simp
  | cons b t => simp

theorem appendBlocks_spells (h : Spells m c l) (hcnt : idx + cnt ≤ blocksPerArena i)
    (hout : ∀ k, idx ≤ k → k < idx + cnt → ∀ j, arena2block a i k ∉ l j)
    (ha : appendBlocks fuel c a i cnt idx m = some m') :
    ∃ t, MemoryHeap.appendBlocks a i cnt idx (l i) = some t ∧
      Spells m' c (Function.update l i t) ∧ Within c m m' := by
  induction cnt generalizing idx m l with
  | zero =>
    obtain rfl := Option.some.inj ha
    exact ⟨l i, rfl, (Function.update_eq_self i l).symm ▸ h, .refl⟩
  | succ cnt ih =>
    simp only [appendBlocks, bind_some_iff, assert_eq_some] at ha
    obtain ⟨found, hfound, _, rfl, ha⟩ := ha
    have hnot : arena2block a i idx ∉ l i := of_decide_eq_false (h.found hfound).symm
    obtain ⟨hs, hw⟩ := h.append (hout idx le_rfl (by omega)) i
    -- the blocks of an arena differ from each other
    have hlater : ∀ k, idx + 1 ≤ k → k < idx + 1 + cnt → ∀ j,
        arena2block a i k ∉ Function.update l i (l i ++ [arena2block a i idx]) j := by
      intro k hk hlt j hmem
      have hold := hout k (by omega) (by omega)
      by_cases hj : j = i
      · subst j
        rw [Function.update_self, List.mem_append, List.mem_singleton] at hmem
        rcases hmem with hmem | he
        · exact hold i hmem
        · have := (arena2block_inj (by omega) (by omega) he).2
          omega
      · rw [Function.update_of_ne hj] at hmem
        exact hold j hmem
    obtain ⟨t, hrest, hs', hw'⟩ := ih hs (by omega) hlater ha
    rw [Function.update_self] at hrest
    rw [Function.update_idem] at hs'
    refine ⟨t, ?_, hs', hw.trans hw'⟩
    simp only [MemoryHeap.appendBlocks, assert_pos hnot, Option.bind_eq_bind, Option.bind_some,
      hrest]

theorem removeBlocks_spells (h : Spells m c l)
    (hr : removeBlocks fuel c a i cnt idx m = some m') :
    ∃ t, MemoryHeap.removeBlocks a i cnt idx (l i) = some t ∧
      Spells m' c (Function.update l i t) ∧ Within c m m' := by
  induction cnt generalizing idx m l with
  | zero =>
    obtain rfl := Option.some.inj hr
    exact ⟨l i, rfl, (Function.update_eq_self i l).symm ▸ h, .refl⟩
  | succ cnt ih =>
    simp only [removeBlocks, bind_some_iff, assert_eq_some] at hr
    obtain ⟨found, hfound, _, rfl, hr⟩ := hr
    have hmem : arena2block a i idx ∈ l i := of_decide_eq_true (h.found hfound).symm
    obtain ⟨hs, hw⟩ := h.remove hmem
    obtain ⟨t, hrest, hs', hw'⟩ := ih hs hr
    rw [Function.update_self] at hrest
    rw [Function.update_idem] at hs'
    refine ⟨t, ?_, hs', hw.trans hw'⟩
    simp only [MemoryHeap.removeBlocks, assert_pos hmem, Option.bind_eq_bind, Option.bind_some,
      hrest]

theorem newArena_spells (h : Spells m c (L c)) {ok : Bool}
    (hout : ∀ mem a, mallocPage mc g.memory c 1 = some (mem, some a) →
      ∀ j, ∀ b ∈ L c j, block2arena b ≠ a)
    (hn : newArena mc fuel g m c i = some ((g', m'), ok)) :
    ∃ L', MemoryHeap.newArena mc (withLists g L) c i = some (withLists g' L', ok) ∧
      Respells c m m' L L' := by
  simp only [newArena, bind_some_iff] at hn
  obtain ⟨⟨mem, r⟩, hp, hn⟩ := hn
  have hp' : mallocPage mc (withLists g L).memory c 1 = some (mem, r) := hp
  cases r with
  | none =>
    simp only [Option.pure_def, Option.some.injEq, Prod.mk.injEq] at hn
    obtain ⟨⟨rfl, rfl⟩, rfl⟩ := hn
    refine ⟨L, ?_, .refl h⟩
    simp only [MemoryHeap.newArena, hp', Option.bind_eq_bind, Option.bind_some]
    rfl
  | some a =>
    simp only [bind_some_iff, Option.pure_def, Option.some.injEq, Prod.mk.injEq] at hn
    obtain ⟨m₁, ha, ⟨rfl, rfl⟩, rfl⟩ := hn
    obtain ⟨t, happend, hs, hw⟩ := appendBlocks_spells h (Nat.zero_add _).le
      (fun k _ hk j hmem => hout mem a hp j _ hmem (block2arena_arena2block (by omega))) ha
    have happend : MemoryHeap.appendBlocks a i (blocksPerArena i) 0 ((withLists g L).freeList c i) =
        some t := happend
    refine ⟨_, ?_, .set hs hw⟩
    simp only [MemoryHeap.newArena, hp', happend, Option.bind_eq_bind, Option.bind_some]
    rfl

theorem takeBlock_spells (h : Spells m c (L c)) {r : Option ℕ}
    (ht : takeBlock g m c i = some ((g', m'), r)) :
    ∃ L', MemoryHeap.takeBlock (withLists g L) c i = some (withLists g' L', r) ∧
      Respells c m m' L L' := by
  cases hl : L c i with
  | nil =>
    have hpop : (listPop (descList c i) m).1 = .tail c i := by
      have hfirst := h.first (i := i)
      rwa [hl] at hfirst
    rw [takeBlock] at ht
    split at ht
    · rename_i b m₁ he
      rw [he] at hpop
      cases hpop
    · cases ht
  | cons b t =>
    obtain ⟨hret, hs, hw⟩ := h.pop hl
    obtain ⟨hs', hw'⟩ := hs.clear (h.popped hl)
    have he : listPop (descList c i) m = (.block b, (listPop (descList c i) m).2) :=
      Prod.ext hret rfl
    rw [takeBlock, he] at ht
    simp only [Option.some.injEq, Prod.mk.injEq] at ht
    obtain ⟨⟨rfl, rfl⟩, rfl⟩ := ht
    have hl' : (withLists g L).freeList c i = b :: t := hl
    refine ⟨_, ?_, .set hs' (hw.trans hw')⟩
    simp only [MemoryHeap.takeBlock, hl']
    rfl

theorem mallocSmall_spells (h : Spells m c (L c)) {r : Option ℕ}
    (hout : ∀ mem a, mallocPage mc g.memory c 1 = some (mem, some a) →
      ∀ j, ∀ b ∈ L c j, block2arena b ≠ a)
    (hm : mallocSmall mc fuel g m c size = some ((g', m'), r)) :
    ∃ L', MemoryHeap.mallocSmall mc (withLists g L) c size = some (withLists g' L', r) ∧
      Respells c m m' L L' := by
  simp only [mallocSmall, listEmpty_spells h] at hm
  rw [MemoryHeap.mallocSmall, withLists_freeList]
  split at hm
  · rename_i hl
    simp only [if_pos hl, bind_some_iff] at hm ⊢
    obtain ⟨⟨⟨g₁, m₁⟩, ok⟩, hn, hm⟩ := hm
    obtain ⟨L₁, hn', hr₁⟩ := newArena_spells h hout hn
    cases ok with
    | false =>
      simp only [Bool.false_eq_true, ↓reduceIte, Option.pure_def, Option.some.injEq,
        Prod.mk.injEq] at hm
      obtain ⟨⟨rfl, rfl⟩, rfl⟩ := hm
      exact ⟨L₁, ⟨_, hn', rfl⟩, hr₁⟩
    | true =>
      obtain ⟨L₂, ht, hr₂⟩ := takeBlock_spells hr₁.spells hm
      exact ⟨L₂, ⟨_, hn', ht⟩, hr₁.trans hr₂⟩
  · rename_i hl
    rw [if_neg hl]
    exact takeBlock_spells h hm

theorem mallocLarge_lists {r : Option ℕ} (hm : mallocLarge mc g c size = some (g', r)) :
    mallocLarge mc (withLists g L) c size = some (withLists g' L, r) := by
  simp only [mallocLarge, bind_some_iff] at hm ⊢
  obtain ⟨⟨mem, a⟩, hp, hm⟩ := hm
  refine ⟨_, hp, ?_⟩
  cases a with
  | none =>
    simp only [Option.pure_def, Option.some.injEq, Prod.mk.injEq] at hm
    obtain ⟨rfl, rfl⟩ := hm
    rfl
  | some a =>
    simp only [Option.pure_def, Option.some.injEq, Prod.mk.injEq] at hm
    obtain ⟨rfl, rfl⟩ := hm
    rfl

theorem sysMalloc_spells (h : Spells m c (L c)) {r : Option ℕ}
    (hout : ∀ mem a, mallocPage mc g.memory c 1 = some (mem, some a) →
      ∀ j, ∀ b ∈ L c j, block2arena b ≠ a)
    (hm : sysMalloc mc fuel g m c size = some ((g', m'), r)) :
    ∃ L', MemoryHeap.sysMalloc mc (withLists g L) c size = some (withLists g' L', r) ∧
      Respells c m m' L L' := by
  rw [sysMalloc] at hm
  rw [MemoryHeap.sysMalloc]
  split_ifs at hm ⊢
  · simp only [bind_some_iff, Option.pure_def, Option.some.injEq, Prod.mk.injEq] at hm
    obtain ⟨⟨g₁, r₁⟩, hlarge, ⟨rfl, rfl⟩, rfl⟩ := hm
    exact ⟨L, mallocLarge_lists hlarge, .refl h⟩
  · exact mallocSmall_spells h hout hm
  · simp only [Option.some.injEq, Prod.mk.injEq] at hm
    obtain ⟨⟨rfl, rfl⟩, rfl⟩ := hm
    exact ⟨L, rfl, .refl h⟩

theorem freeSmall_spells (h : Spells m c (L c)) (hout : ∀ j, ptr ∉ L c j)
    (hf : freeSmall mc fuel g m c c i ptr = some (g', m')) :
    ∃ L', MemoryHeap.freeSmall mc (withLists g L) c c i ptr = some (withLists g' L') ∧
      Respells c m m' L L' := by
  obtain ⟨hs, hw⟩ := h.append hout i
  simp only [freeSmall] at hf
  simp only [MemoryHeap.freeSmall]
  split at hf
  · rename_i hfull
    simp only [bind_some_iff, Option.pure_def, Option.some.injEq, Prod.mk.injEq] at hf
    obtain ⟨m₁, hrem, mem, hfree, rfl, rfl⟩ := hf
    obtain ⟨t, hrem', hs', hw'⟩ := removeBlocks_spells hs hrem
    rw [Function.update_self] at hrem'
    rw [Function.update_idem] at hs'
    refine ⟨_, ?_, .set hs' (hw.trans hw')⟩
    refine (if_pos hfull).trans ?_
    simp only [bind_some_iff]
    exact ⟨t, hrem', mem, hfree, rfl⟩
  · rename_i hfull
    obtain ⟨rfl, rfl⟩ := Prod.mk.inj (Option.some.inj hf)
    refine ⟨_, ?_, .set hs hw⟩
    exact if_neg hfull

/-- A process that frees a block of its own arena. -/
theorem sysFree_spells (h : Spells m c (L c)) (hout : ∀ j, ptr ∉ L c j)
    (hown : ∀ o i, (g.header c (block2arena ptr)).desc = some (o, i) → o = c)
    (hf : sysFree mc fuel g m c ptr = some (g', m')) :
    ∃ L', MemoryHeap.sysFree mc (withLists g L) c ptr = some (withLists g' L') ∧
      Respells c m m' L L' := by
  simp only [sysFree, bind_some_iff, assert_eq_some] at hf
  obtain ⟨_, hptr, hf⟩ := hf
  simp only [MemoryHeap.sysFree, assert_pos hptr, withLists_header, Option.bind_eq_bind,
    Option.bind_some]
  rcases hdesc : (g.header c (block2arena ptr)).desc with _ | ⟨o, i⟩
  · rw [hdesc] at hf
    split at hf
    · rename_i hnone
      cases hnone
    · rename_i hlarge
      simp only [bind_some_iff, Option.pure_def, Option.some.injEq, Prod.mk.injEq] at hf
      obtain ⟨mem, hfree, rfl, rfl⟩ := hf
      refine ⟨L, ?_, .refl h⟩
      have hfree : mfreePage mc (withLists g L).memory c (block2arena ptr)
        (g.header c (block2arena ptr)).cnt = some mem := hfree
      simp only [hlarge, hfree, Option.bind_some]
      rfl
    · cases hf
  · obtain rfl := hown o i hdesc
    rw [hdesc] at hf
    exact freeSmall_spells h hout hf

end Simulation

end HeapLinks
