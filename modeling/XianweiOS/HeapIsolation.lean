import XianweiOS.HeapLinks

/-! The heaps of a tree of processes with the pointers of their free lists. A fork copies the pages
with the pointers and arena headers in them, and sets the child's descriptors up anew; the headers
go on naming the descriptors of the parent. -/
namespace HeapIsolation

open ByteStore HaltingProgram KernelBitmap MemoryPages MemoryHeap HeapInvariant ProcessMemory
  LinkedChain KernelList HeapLinks
open HeapFork (Call Separate)

structure World where
  kernel : Kernel
  pointers : Pointers
  live : ℕ → Live

/-- `list_init` on the lists of process `p`. -/
def blockDescInit (p : ℕ) (m : Links Addr) : Links Addr where
  prev
    | .head c i => if c = some p then .null else m.prev (.head c i)
    | .tail c i => if c = some p then .head c i else m.prev (.tail c i)
    | x => m.prev x
  next
    | .head c i => if c = some p then .tail c i else m.next (.head c i)
    | .tail c i => if c = some p then .null else m.next (.tail c i)
    | x => m.next x

/-- The child has what the parent has in its pages. -/
def forkPointers (parent child : ℕ) (p : Pointers) : Pointers :=
  ⟨blockDescInit child p.ends, Function.update p.pages (some child) (p.pages (some parent))⟩

/-- A child holds what its parent held. -/
def step (mc : Machine) (fuel : ℕ) : Call → World → Option World
  | .malloc p size, w => do
    assert (∃ r ∈ w.kernel.proc p, r.hanging = false)
    let ((h, m), r) ← HeapLinks.sysMalloc mc fuel w.kernel.heap (w.pointers.view (some p)) (some p)
      size
    return ⟨w.kernel.setHeap h, w.pointers.store (some p) m,
      Function.update w.live p (allocated (w.live p) size r)⟩
  | .free p ptr, w => do
    assert (∃ r ∈ w.kernel.proc p, r.hanging = false)
    let (h, m) ← HeapLinks.sysFree mc fuel w.kernel.heap (w.pointers.view (some p)) (some p) ptr
    return ⟨w.kernel.setHeap h, w.pointers.store (some p) m,
      Function.update w.live p (Function.update (w.live p) ptr none)⟩
  | .fork p, w => do
    let (k, r) ← sysFork mc w.kernel p
    match r with
    | none => return { w with kernel := k }
    | some q => return ⟨k, forkPointers p q w.pointers, Function.update w.live q (w.live p)⟩

/-- A process frees what it holds, and no block of an arena that was there when it was forked:
its header still names the descriptor of the process that made it. -/
def FreesOwn : Call → World → Prop
  | .free p ptr, w => w.live p ptr ≠ none ∧
      ∀ o i, (w.kernel.heap.header (some p) (block2arena ptr)).desc = some (o, i) → o = some p
  | _, _ => True

def Running (k : Kernel) (p : ℕ) : Prop := ∃ r ∈ k.proc p, r.hanging = false

/-- The lists of a process are well formed in its address space, and their blocks are free there. -/
def Isolated (w : World) : Prop :=
  ∀ p, Running w.kernel p → ∀ i, ∃ l : List ℕ,
    Holds (w.pointers.view (some p)) (descList (some p) i) (l.map Addr.block) ∧ ∀ b ∈ l,
      w.live p b = none ∧ (∃ f, w.kernel.heap.memory.frameAt (some p) (block2arena b) = some f) ∧
      (w.kernel.heap.header (some p) (block2arena b)).desc = some (some p, i)

/-- Process `q` reads the same pointers in its descriptors and in its pages. -/
def Untouched (q : ℕ) (w w' : World) : Prop :=
  ∀ i x, x ∈ [Addr.head (some q) i, Addr.tail (some q) i] ∨ x.inKernel = false →
    (w'.pointers.view (some q)).next x = (w.pointers.view (some q)).next x ∧
    (w'.pointers.view (some q)).prev x = (w.pointers.view (some q)).prev x

/-- One process, before its first allocation. -/
structure Fresh (w : World) (root : ℕ) : Prop where
  only : ∀ p, Running w.kernel p → p = root
  pid : ∃ i, root = i + 1 ∧ bitmapScanTest (pidBitmap w.kernel.pidBits) i = true
  unused : ∀ i, Holds (w.pointers.view (some root)) (descList (some root) i) []
  live : ∀ ptr, w.live root ptr = none

/-! ### A fork with other lists -/

section Lists

variable {mc : Machine} {k k' : Kernel} {h h' : Heap} {L : Ctx → ℕ → List ℕ}
  {parent child v n : ℕ} {a : Option ℕ}

theorem getKernelPages_lists (hg : getKernelPages mc h n = some (h', a)) :
    getKernelPages mc (withLists h L) n = some (withLists h' L, a) := by
  simp only [getKernelPages, bind_some_iff] at hg ⊢
  obtain ⟨⟨m, r⟩, hm, hg⟩ := hg
  refine ⟨_, hm, ?_⟩
  cases r with
  | none =>
    obtain ⟨rfl, rfl⟩ := Prod.mk.inj (Option.some.inj hg)
    rfl
  | some r =>
    obtain ⟨rfl, rfl⟩ := Prod.mk.inj (Option.some.inj hg)
    rfl

theorem copyPage_lists (hc : copyPage mc parent child h v = some h') :
    copyPage mc parent child (withLists h L) v = some (withLists h' L) := by
  simp only [copyPage, bind_some_iff] at hc ⊢
  obtain ⟨u, hread, r, hp, hc⟩ := hc
  obtain rfl := Option.some.inj hc
  exact ⟨u, hread, r, hp, rfl⟩

theorem copyBit_lists {idxByte idxBit : ℕ}
    (hc : copyBit mc parent child idxByte idxBit h = some h') :
    copyBit mc parent child idxByte idxBit (withLists h L) = some (withLists h' L) := by
  unfold copyBit at hc ⊢
  split at hc
  · rename_i hbit
    rw [withLists_memory, if_pos hbit]
    exact copyPage_lists hc
  · rename_i hbit
    obtain rfl := Option.some.inj hc
    rw [withLists_memory, if_neg hbit]

theorem copyByte_lists {idxByte : ℕ} (hc : copyByte mc parent child idxByte h = some h') :
    copyByte mc parent child idxByte (withLists h L) = some (withLists h' L) := by
  unfold copyByte at hc ⊢
  split at hc
  · rename_i hbyte
    rw [withLists_memory, if_pos hbyte]
    exact runAll_through (fun h => withLists h L) (fun _ _ _ hs => copyBit_lists hs) hc
  · rename_i hbyte
    obtain rfl := Option.some.inj hc
    rw [withLists_memory, if_neg hbyte]

theorem copyBodyStack3_lists (hc : copyBodyStack3 mc parent child h = some h') :
    copyBodyStack3 mc parent child (withLists h L) = some (withLists h' L) := by
  unfold copyBodyStack3 at hc ⊢
  exact runAll_through (fun h => withLists h L) (fun _ _ _ hs => copyByte_lists hs) hc

/-- The child's lists are empty, whatever the others are. -/
theorem freshSpace_lists (vaddr : Bytes) :
    Heap.blockDescInit (Heap.freshSpace (withLists h L) child vaddr) child =
      withLists (Heap.blockDescInit (Heap.freshSpace h child vaddr) child)
        (Function.update L (some child) fun _ => []) := rfl

theorem copyProcess_lists {buf : ℕ} (hc : copyProcess mc h parent child buf = some h') :
    copyProcess mc (withLists h L) parent child buf =
      some (withLists h' (Function.update L (some child) fun _ => [])) := by
  obtain ⟨h₁, m, hcopy, hm, rfl⟩ := copyProcess_some hc
  have hcopy := copyBodyStack3_lists (L := Function.update L (some child) fun _ => []) hcopy
  simp only [copyProcess, freshSpace_lists, withLists_memory, hcopy, hm, Option.bind_eq_bind,
    Option.bind_some]
  rfl

/-- The kernel with the lists `L`. -/
def kernelWithLists (k : Kernel) (L : Ctx → ℕ → List ℕ) : Kernel := k.setHeap (withLists k.heap L)

theorem forkPages_lists {r : Option ChildPages} (hf : forkPages mc k = some (k', r)) :
    forkPages mc (kernelWithLists k L) = some (kernelWithLists k' L, r) := by
  simp only [forkPages, bind_some_iff] at hf ⊢
  obtain ⟨⟨h₁, r₁⟩, hpcb, hf⟩ := hf
  refine ⟨_, getKernelPages_lists hpcb, ?_⟩
  cases r₁ with
  | none =>
    obtain ⟨rfl, rfl⟩ := Prod.mk.inj (Option.some.inj hf)
    rfl
  | some pcb =>
    simp only [bind_some_iff] at hf ⊢
    obtain ⟨⟨h₂, r₂⟩, hbuf, hf⟩ := hf
    refine ⟨_, getKernelPages_lists hbuf, ?_⟩
    cases r₂ with
    | none =>
      obtain ⟨rfl, rfl⟩ := Prod.mk.inj (Option.some.inj hf)
      rfl
    | some buf =>
      simp only [bind_some_iff] at hf ⊢
      obtain ⟨⟨bits, pid⟩, hpid, ⟨h₃, r₃⟩, hbm, hf⟩ := hf
      refine ⟨_, hpid, _, getKernelPages_lists hbm, ?_⟩
      cases r₃ with
      | none =>
        obtain ⟨rfl, rfl⟩ := Prod.mk.inj (Option.some.inj hf)
        rfl
      | some bitmap =>
        simp only [bind_some_iff] at hf ⊢
        obtain ⟨⟨h₄, r₄⟩, hpd, hf⟩ := hf
        refine ⟨_, getKernelPages_lists hpd, ?_⟩
        cases r₄ with
        | none =>
          obtain ⟨rfl, rfl⟩ := Prod.mk.inj (Option.some.inj hf)
          rfl
        | some pgdir =>
          obtain ⟨rfl, rfl⟩ := Prod.mk.inj (Option.some.inj hf)
          rfl

end Lists

/-! ### Runs -/

/-- The world of `HeapFork` that the pointers stand for. -/
def World.withLists (w : World) (L : Ctx → ℕ → List ℕ) : HeapFork.World :=
  ⟨kernelWithLists w.kernel L, w.live⟩

/-- The pointers that each process reads spell its lists. -/
def Spelled (w : World) (L : Ctx → ℕ → List ℕ) : Prop :=
  ∀ p, Running w.kernel p → Spells (w.pointers.view (some p)) (some p) (L (some p))

/-- The world stands for one whose heaps are separate. -/
structure Stands (mc : Machine) (w : World) (L : Ctx → ℕ → List ℕ) : Prop where
  spelled : Spelled w L
  separate : ∃ kinds, Separate mc (w.withLists L) kinds

section Runs

variable {mc : Machine} {fuel : ℕ} {w w' w'' : World} {L : Ctx → ℕ → List ℕ} {kind : Layout}
  {live : Live} {c : Ctx} {g : Heap} {p q child size ptr i : ℕ}

/-- The page that a new arena takes has no free block in it. -/
theorem free_outside (hc : Core mc c (withLists g L) kind live) {mem : Memory} {a : ℕ}
    (hp : mallocPage mc g.memory c 1 = some (mem, some a)) (j : ℕ) :
    ∀ b ∈ L c j, block2arena b ≠ a := by
  intro b hb he
  obtain ⟨a', k, ha, hk, rfl⟩ := hc.free j b hb
  rw [block2arena_arena2block hk] at he
  subst he
  exact not_held_of_gained hc.pages (mallocPage_gained hp) (hc.pages.first ha)
    (mem_span.mpr ⟨le_rfl, Nat.lt_succ_self _⟩)

/-- What is allocated is on no list. -/
theorem live_outside (hc : Core mc c (withLists g L) kind live) (hlive : live ptr ≠ none) (j : ℕ) :
    ptr ∉ L c j := by
  intro hmem
  obtain ⟨a, k, ha, hk, rfl⟩ := hc.free j ptr hmem
  exact hlive ((hc.block a j k ha hk).mp hmem)

/-- After a call of `p` the other processes read their lists as before. -/
theorem Spelled.store (hs : Spelled w L) {L' : Ctx → ℕ → List ℕ} {m : Links Addr} {h : Heap}
    {live : ℕ → Live} (hr : Respells (some p) (w.pointers.view (some p)) m L L') :
    Spelled ⟨w.kernel.setHeap h, w.pointers.store (some p) m, live⟩ L' := by
  intro q hq
  by_cases hqp : q = p
  · subst q
    simp only [view_store_self]
    exact hr.spells
  · have hne : (some q : Ctx) ≠ some p := fun he => hqp (Option.some.inj he)
    rw [hr.others _ hne]
    exact (hs q hq).view_store hne hr.within

theorem Stands.malloc (hs : Stands mc w L) (hstep : step mc fuel (.malloc p size) w = some w') :
    ∃ L', Stands mc w' L' := by
  obtain ⟨kinds, hsep⟩ := hs.separate
  simp only [step, bind_some_iff, assert_eq_some, Option.pure_def, Option.some.injEq] at hstep
  obtain ⟨_, hp, ⟨⟨h, m⟩, r⟩, hm, rfl⟩ := hstep
  obtain ⟨L', hm', hr⟩ := sysMalloc_spells (hs.spelled p hp)
    (fun mem a hg => free_outside (hsep.sound p hp).core hg) hm
  refine ⟨L', hs.spelled.store hr,
    hsep.malloc (show HeapFork.step mc (.malloc p size) _ = some _ from ?_)⟩
  simp only [HeapFork.step, bind_some_iff, assert_eq_some]
  exact ⟨(), hp, _, hm', rfl⟩

theorem free_respells (hs : Stands mc w L) (hok : FreesOwn (.free p ptr) w)
    (hstep : step mc fuel (.free p ptr) w = some w') : ∃ h m L',
    w' = ⟨w.kernel.setHeap h, w.pointers.store (some p) m,
      Function.update w.live p (Function.update (w.live p) ptr none)⟩ ∧
    HeapFork.step mc (.free p ptr) (w.withLists L) = some (w'.withLists L') ∧
    Respells (some p) (w.pointers.view (some p)) m L L' := by
  obtain ⟨kinds, hsep⟩ := hs.separate
  simp only [step, bind_some_iff, assert_eq_some, Option.pure_def, Option.some.injEq] at hstep
  obtain ⟨_, hp, ⟨h, m⟩, hf, rfl⟩ := hstep
  obtain ⟨L', hf', hr⟩ := sysFree_spells (hs.spelled p hp)
    (live_outside (hsep.sound p hp).core hok.1) hok.2 hf
  refine ⟨h, m, L', rfl, ?_, hr⟩
  simp only [HeapFork.step, bind_some_iff, assert_eq_some]
  exact ⟨(), hp, _, hf', rfl⟩

theorem Stands.free (hs : Stands mc w L) (hok : FreesOwn (.free p ptr) w)
    (hstep : step mc fuel (.free p ptr) w = some w') : ∃ L', Stands mc w' L' := by
  obtain ⟨kinds, hsep⟩ := hs.separate
  obtain ⟨h, m, L', rfl, hstep', hr⟩ := free_respells hs hok hstep
  exact ⟨L', hs.spelled.store hr, hsep.free hok hstep'⟩

/-- In a new process every list is empty. -/
theorem spells_init {pages : Ctx → Links Addr} {m : Links Addr} :
    Spells (Pointers.view ⟨blockDescInit p m, pages⟩ (some p)) (some p) fun _ => [] := by
  constructor
  · intro i
    refine ⟨List.isChain_cons_cons.mpr ⟨⟨?_, ?_⟩, .singleton _⟩, ?_⟩
    · simp [Pointers.view, descList, Addr.inKernel, blockDescInit]
    · simp [Pointers.view, descList, Addr.inKernel, blockDescInit]
    · simp [nodes, descList]
  · intro i j hij
    simp [nodes, descList, hij.symm]

/-- A fork writes the descriptors of the child only. -/
theorem fork_view (hne : q ≠ child) {x : Addr}
    (hx : (∃ i, x = .head (some q) i ∨ x = .tail (some q) i) ∨ x.inKernel = false) :
    ((forkPointers p child w.pointers).view (some q)).next x = (w.pointers.view (some q)).next x ∧
    ((forkPointers p child w.pointers).view (some q)).prev x = (w.pointers.view (some q)).prev x := by
  have hctx : (some q : Ctx) ≠ some child := fun he => hne (Option.some.inj he)
  rcases hx with ⟨i, rfl | rfl⟩ | hx
  · simp [Pointers.view, forkPointers, blockDescInit, Addr.inKernel, hne]
  · simp [Pointers.view, forkPointers, blockDescInit, Addr.inKernel, hne]
  · simp [Pointers.view, forkPointers, hx, hctx]

theorem Spelled.fork (hs : Spelled w L) (hold : ∀ q, q ≠ child → Running w'.kernel q →
    Running w.kernel q) (hp : w'.pointers = forkPointers p child w.pointers) :
    Spelled w' (Function.update L (some child) fun _ => []) := by
  intro q hq
  rw [hp]
  by_cases hqc : q = child
  · subst q
    rw [Function.update_self]
    exact spells_init
  · rw [Function.update_of_ne fun he => hqc (Option.some.inj he)]
    have hview : ∀ j, ∀ x ∈ nodes (descList (some q) j) ((L (some q) j).map Addr.block),
        (∃ i, x = Addr.head (some q) i ∨ x = Addr.tail (some q) i) ∨ x.inKernel = false := by
      intro j x hx
      simp only [nodes, descList, List.mem_cons, List.mem_append, List.mem_map, List.not_mem_nil,
        or_false] at hx
      rcases hx with rfl | ⟨b, -, rfl⟩ | rfl
      · exact Or.inl ⟨j, Or.inl rfl⟩
      · exact Or.inr rfl
      · exact Or.inl ⟨j, Or.inr rfl⟩
    exact (hs q (hold q hqc hq)).frame (fun j x hx => (fork_view hqc (hview j x hx)).1)
      fun j x hx => (fork_view hqc (hview j x hx)).2

theorem sysFork_lists {k : Kernel} {r : Option ℕ} (hf : sysFork mc w.kernel p = some (k, r)) :
    sysFork mc (kernelWithLists w.kernel L) p = some (kernelWithLists k
      (match r with | none => L | some q => Function.update L (some q) fun _ => []), r) := by
  simp only [sysFork, bind_some_iff, assert_eq_some] at hf ⊢
  obtain ⟨u, hrun, ⟨k₁, r₁⟩, hpages, hf⟩ := hf
  refine ⟨u, hrun, _, forkPages_lists hpages, ?_⟩
  cases r₁ with
  | none =>
    obtain ⟨rfl, rfl⟩ := Prod.mk.inj (Option.some.inj hf)
    rfl
  | some q =>
    simp only [bind_some_iff] at hf ⊢
    obtain ⟨h, hcopy, hf⟩ := hf
    obtain ⟨rfl, rfl⟩ := Prod.mk.inj (Option.some.inj hf)
    exact ⟨_, copyProcess_lists hcopy, rfl⟩

theorem Stands.fork (hs : Stands mc w L) (hstep : step mc fuel (.fork p) w = some w') :
    ∃ L', Stands mc w' L' := by
  obtain ⟨kinds, hsep⟩ := hs.separate
  simp only [step, bind_some_iff] at hstep
  obtain ⟨⟨k, r⟩, hf, hstep⟩ := hstep
  have hlists := sysFork_lists (L := L) hf
  cases r with
  | none =>
    obtain rfl := Option.some.inj hstep
    have hproc : k.proc = w.kernel.proc :=
      (forkPages_invariant (fun _ => True) (fun _ _ _ _ _ _ => trivial) trivial
        (sysFork_none hf)).2
    refine ⟨L, fun q hq => hs.spelled q ?_, hsep.fork (p := p) ?_⟩
    · rwa [Running, ← hproc]
    · simp only [HeapFork.step, bind_some_iff]
      exact ⟨_, hlists, rfl⟩
  | some child =>
    obtain rfl := Option.some.inj hstep
    refine ⟨_, Spelled.fork hs.spelled (show ∀ q, q ≠ child → _ from fun q hq hrun => ?_) rfl,
      hsep.fork (p := p) ?_⟩
    · obtain ⟨k₁, r, h₁, -, hpages, -, rfl, rfl⟩ := sysFork_some hf
      obtain ⟨_, _, _, ht⟩ := forkPages_some hpages
      rw [Running, Kernel.setProc_ne _ _ hq] at hrun
      rwa [Running, ← ht.proc]
    · simp only [HeapFork.step, bind_some_iff]
      exact ⟨_, hlists, rfl⟩

theorem step_stands {call : Call} (hs : ∃ L, Stands mc w L) (hok : FreesOwn call w)
    (hstep : step mc fuel call w = some w') : ∃ L, Stands mc w' L := by
  obtain ⟨L, hs⟩ := hs
  cases call with
  | malloc p size => exact hs.malloc hstep
  | free p ptr => exact hs.free hok hstep
  | fork p => exact hs.fork hstep

theorem Stands.isolated (hs : Stands mc w L) : Isolated w := by
  obtain ⟨kinds, hsep⟩ := hs.separate
  exact fun p hp i => ⟨L (some p) i, (hs.spelled p hp).holds i, hsep.isolated p hp i⟩

/-- A free writes its own descriptors and its own pages. -/
theorem free_untouched (hs : Stands mc w L) (hok : FreesOwn (.free p ptr) w)
    (hstep : step mc fuel (.free p ptr) w = some w') (hq : q ≠ p) : Untouched q w w' := by
  obtain ⟨h, m, L', rfl, -, hr⟩ := free_respells hs hok hstep
  have hne : (some q : Ctx) ≠ some p := fun he => hq (Option.some.inj he)
  rintro i x (hx | hx)
  · have hk : x.inKernel = true := by
      simp only [List.mem_cons, List.not_mem_nil, or_false] at hx
      rcases hx with rfl | rfl <;> rfl
    obtain ⟨hn, hp⟩ := view_store_kernel w.pointers (some p) (some q) m hk
    obtain ⟨hn', hp'⟩ := hr.within (some q) hne i x hx
    refine ⟨hn.trans (hn'.trans ?_), hp.trans (hp'.trans ?_)⟩ <;>
      simp only [Pointers.view, hk, ↓reduceIte]
  · exact view_store_block hne hx

theorem Fresh.stands {root : ℕ} (hf : Fresh w root) : Stands mc w fun _ _ => [] := by
  constructor
  · intro p hp
    obtain rfl := hf.only p hp
    refine ⟨fun i => hf.unused i, fun i j hij => ?_⟩
    simp [nodes, descList, hij.symm]
  · have hfresh : HeapFork.Fresh (w.withLists fun _ _ => []) root :=
      ⟨hf.only, hf.pid, fun _ => rfl, hf.live⟩
    exact ⟨_, hfresh.separate⟩

/-- The heaps of a tree of processes whose frees stay in their own arenas. -/
theorem run_heaps_isolated {root : ℕ} {calls : List Call} (hfresh : Fresh w root)
    (hok : AllMeet (step mc fuel) FreesOwn calls w)
    (hrun : runAll (step mc fuel) calls w = some w') :
    Isolated w' ∧ ∀ p ptr w'', FreesOwn (.free p ptr) w' →
      step mc fuel (.free p ptr) w' = some w'' → ∀ q ≠ p, Untouched q w' w'' := by
  obtain ⟨L, hs⟩ := runAll_invariant (fun w => ∃ L, Stands mc w L)
    (fun call w w' => step_stands) ⟨_, hfresh.stands⟩ hok hrun
  exact ⟨hs.isolated, fun p ptr w'' hok hstep q hq => free_untouched hs hok hstep hq⟩

end Runs

section Inherited

variable {mc : Machine} {k : Kernel} {w w' : World} {fuel p q size j : ℕ}

/-- A small block comes with at most one page. -/
theorem newArena_memory {g g' : Heap} {m m' : Links Addr} {c : Ctx} {i : ℕ} {ok : Bool}
    (hn : HeapLinks.newArena mc fuel g m c i = some ((g', m'), ok)) :
    ∃ r, mallocPage mc g.memory c 1 = some (g'.memory, r) := by
  simp only [HeapLinks.newArena, bind_some_iff] at hn
  obtain ⟨⟨mem, r⟩, hp, hn⟩ := hn
  cases r with
  | none =>
    simp only [Option.pure_def, Option.some.injEq, Prod.mk.injEq] at hn
    obtain ⟨⟨rfl, -⟩, -⟩ := hn
    exact ⟨none, hp⟩
  | some a =>
    simp only [bind_some_iff, Option.pure_def, Option.some.injEq, Prod.mk.injEq] at hn
    obtain ⟨m₁, -, ⟨rfl, -⟩, -⟩ := hn
    exact ⟨some a, hp⟩

theorem takeBlock_memory {g g' : Heap} {m m' : Links Addr} {c : Ctx} {i : ℕ} {r : Option ℕ}
    (ht : HeapLinks.takeBlock g m c i = some ((g', m'), r)) : g'.memory = g.memory := by
  rw [HeapLinks.takeBlock] at ht
  split at ht
  · simp only [Option.some.injEq, Prod.mk.injEq] at ht
    obtain ⟨⟨rfl, -⟩, -⟩ := ht
    rfl
  · cases ht

theorem sysMalloc_memory {g g' : Heap} {m m' : Links Addr} {c : Ctx} {r : Option ℕ}
    (hsize : size ≤ 1024) (hm : HeapLinks.sysMalloc mc fuel g m c size = some ((g', m'), r)) :
    g'.memory = g.memory ∨ ∃ a, mallocPage mc g.memory c 1 = some (g'.memory, a) := by
  rw [HeapLinks.sysMalloc, if_neg (by omega : ¬1024 < size)] at hm
  split at hm
  · simp only [HeapLinks.mallocSmall] at hm
    split at hm
    · simp only [bind_some_iff] at hm
      obtain ⟨⟨⟨g₁, m₁⟩, ok⟩, hn, hm⟩ := hm
      obtain ⟨a, hp⟩ := newArena_memory hn
      cases ok with
      | false =>
        simp only [Bool.false_eq_true, ↓reduceIte, Option.pure_def, Option.some.injEq,
          Prod.mk.injEq] at hm
        obtain ⟨⟨rfl, -⟩, -⟩ := hm
        exact Or.inr ⟨a, hp⟩
      | true => exact Or.inr ⟨a, takeBlock_memory hm ▸ hp⟩
    · exact Or.inl (takeBlock_memory hm)
  · simp only [Option.some.injEq, Prod.mk.injEq] at hm
    obtain ⟨⟨rfl, -⟩, -⟩ := hm
    exact Or.inl rfl

/-- The pointers of a machine on which only process `p` has its descriptors. -/
def firstWorld (k : Kernel) (p : ℕ) : World :=
  ⟨k, ⟨blockDescInit p ⟨fun _ => .null, fun _ => .null⟩, fun _ => ⟨fun _ => .null, fun _ => .null⟩⟩,
    fun _ _ => none⟩

theorem firstProcess_fresh (hf : firstProcess = some (k, p)) : Fresh (firstWorld k p) p := by
  unfold firstProcess at hf
  obtain ⟨⟨k₀, p₀⟩, hexec, hf⟩ := bind_some_iff.mp hf
  obtain ⟨k₁, hstart, hk⟩ := bind_some_iff.mp hf
  obtain ⟨rfl, rfl⟩ := Prod.mk.inj (Option.some.inj hk)
  simp only [processExecute, bind_some_iff, Option.pure_def, Option.some.injEq,
    Prod.mk.injEq] at hexec
  obtain ⟨⟨h₁, r₁⟩, -, pcb, -, ⟨bits, pid⟩, hpid, ⟨h₂, r₂⟩, -, bitmap, -, ⟨h₃, r₃⟩, -, pgdir, -, rfl,
    rfl⟩ := hexec
  simp only [startProcess, bind_some_iff, Option.pure_def, Option.some.injEq] at hstart
  obtain ⟨m, -, rfl⟩ := hstart
  obtain ⟨i, hi, -, hbits⟩ := allocatePid_some hpid
  refine ⟨?_, ⟨i, hi, ?_⟩, spells_init.holds, fun _ => rfl⟩
  · rintro q ⟨r, hr, -⟩
    by_contra hq
    change Function.update (fun _ => none) pid _ q = some r at hr
    rw [Function.update_of_ne hq] at hr
    cases hr
  · exact (hbits i).trans (if_pos rfl)

/-- A small allocation of a process whose new page is in the first byte of its bitmap. -/
def mallocLow (w : World) (p size : ℕ) : Option World := do
  assert (size ≤ 1024 ∧ ((mallocPage smallMachine w.kernel.heap.memory (some p) 1).bind
    Prod.snd).all (fun a => decide (a < 0x8050)) = true)
  step smallMachine 8 (.malloc p size) w

theorem mallocLow_step (hm : mallocLow w p size = some w') (hz : EndsOnly w.kernel.heap p) :
    step smallMachine 8 (.malloc p size) w = some w' ∧ EndsOnly w'.kernel.heap p := by
  simp only [mallocLow, bind_some_iff, assert_eq_some] at hm
  obtain ⟨_, ⟨hsize, hlow⟩, hstep⟩ := hm
  refine ⟨hstep, fun j hj hlt => ?_⟩
  simp only [step, bind_some_iff, assert_eq_some, Option.pure_def, Option.some.injEq] at hstep
  obtain ⟨_, -, ⟨⟨h, m⟩, r⟩, hs, rfl⟩ := hstep
  rw [← hz j hj hlt]
  change (h.memory.space (some p)).vaddr j = _
  rcases sysMalloc_memory hsize hs with hmem | ⟨_ | a, hp⟩
  · rw [hmem]
  · obtain ⟨-, ⟨-, hmem⟩ | ⟨v, m₁, hr, -⟩⟩ := mallocPage_cases hp
    · rw [hmem]
    · cases hr
  · rw [hp, Option.bind_some, Option.all_some, decide_eq_true_eq] at hlow
    refine mallocPage_one_vaddr hp ?_
    have hstart : vaddrStart (some p) = 0x8048 := rfl
    rw [hstart]
    omega

/-- All three blocks of an arena are allocated before the fork. -/
def heldCalls (p : ℕ) : List Call := [.malloc p 1000, .malloc p 1000, .malloc p 1000, .fork p]

/-- The run of these calls, with the copy cut short. -/
def inheritedRun : Option (World × World × ℕ × ℕ) := do
  let (k, p) ← firstProcess
  let w₁ ← mallocLow (firstWorld k p) p 1000
  let w₂ ← mallocLow w₁ p 1000
  let w₃ ← mallocLow w₂ p 1000
  assert (∃ r ∈ w₃.kernel.proc p, r.hanging = false)
  let (k', r) ← forkPages smallMachine w₃.kernel
  let q ← r
  assert (q.pid ≠ p)
  let h ← copyEnds k'.heap p q.pid q.buf
  return (firstWorld k p, ⟨(k'.setHeap h).setProc q.pid
    (some ⟨q.pcb, q.pgdir, q.bitmap, p, false⟩), forkPointers p q.pid w₃.pointers,
    Function.update w₃.live q.pid (w₃.live p)⟩, p, q.pid)

theorem inheritedRun_steps (hr : inheritedRun = some (w, w', p, q)) :
    Fresh w p ∧ runAll (step smallMachine 8) (heldCalls p) w = some w' := by
  simp only [inheritedRun, bind_some_iff, assert_eq_some, Option.pure_def, Option.some.injEq,
    Prod.mk.injEq] at hr
  obtain ⟨⟨k, p'⟩, hfirst, w₁, hm₁, w₂, hm₂, w₃, hm₃, _, hrun, ⟨k', r⟩, hpages, q', rfl, _, hne, h,
    hcopy, rfl, rfl, rfl, rfl⟩ := hr
  obtain ⟨hs₁, hz₁⟩ := mallocLow_step hm₁ (firstProcess_ends hfirst)
  obtain ⟨hs₂, hz₂⟩ := mallocLow_step hm₂ hz₁
  obtain ⟨hs₃, hz₃⟩ := mallocLow_step hm₃ hz₂
  refine ⟨firstProcess_fresh hfirst, runAll_cons.mpr ⟨w₁, hs₁, runAll_cons.mpr ⟨w₂, hs₂,
    runAll_cons.mpr ⟨w₃, hs₃, runAll_cons.mpr ⟨_, ?_, rfl⟩⟩⟩⟩⟩
  simp only [step, bind_some_iff]
  exact ⟨_, sysFork_ends hrun hz₃ hpages hne hcopy, rfl⟩

/-- Who holds the first block, and where the parent's list of blocks of 1024 bytes begins, before and
after the child frees the block. -/
structure Seen where
  pids : ℕ × ℕ
  held : Option ℕ × Option ℕ
  heldAfter : Option ℕ
  before : Addr
  after : Addr
  deriving DecidableEq

def inheritedSeen : Option Seen := do
  let (_, w, p, q) ← inheritedRun
  let w' ← step smallMachine 8 (.free q 0x804800c) w
  assert (∃ r ∈ w'.kernel.proc p, r.hanging = false)
  return ⟨(p, q), (w.live p 0x804800c, w.live q 0x804800c), w'.live p 0x804800c,
    (w.pointers.view (some p)).next (.head (some p) 6),
    (w'.pointers.view (some p)).next (.head (some p) 6)⟩

theorem inheritedSeen_eq : inheritedSeen = some ⟨(1, 2), (some 1000, some 1000), some 1000,
    .tail (some 1) 6, .block 0x804800c⟩ := by
  decide +kernel

/-- The child frees a block it holds, and the empty list of the parent begins with it, where it is
still in use. -/
theorem child_frees_into_parent : ∃ w w₁ w₂, Fresh w 1 ∧
    runAll (step smallMachine 8) (heldCalls 1) w = some w₁ ∧
    w₁.live 1 0x804800c = some 1000 ∧ w₁.live 2 0x804800c = some 1000 ∧
    step smallMachine 8 (.free 2 0x804800c) w₁ = some w₂ ∧
    (w₁.pointers.view (some 1)).next (.head (some 1) 6) = .tail (some 1) 6 ∧
    (w₂.pointers.view (some 1)).next (.head (some 1) 6) = .block 0x804800c ∧
    ¬Untouched 1 w₁ w₂ ∧ ¬Isolated w₂ := by
  have hseen := inheritedSeen_eq
  simp only [inheritedSeen, bind_some_iff, assert_eq_some, Option.pure_def, Option.some.injEq,
    Seen.mk.injEq, Prod.mk.injEq] at hseen
  obtain ⟨⟨w, w₁, p, q⟩, hr, w₂, hfree, _, hrun, ⟨rfl, rfl⟩, ⟨hlive, hheld⟩, hstill, hbefore,
    hafter⟩ := hseen
  obtain ⟨hfresh, hsteps⟩ := inheritedRun_steps hr
  refine ⟨w, w₁, w₂, hfresh, hsteps, hlive, hheld, hfree, hbefore, hafter, fun hu => ?_, fun hi => ?_⟩
  · have hsame := (hu 6 _ (Or.inl List.mem_cons_self)).1
    rw [hbefore, hafter] at hsame
    cases hsame
  · obtain ⟨l, hl, hall⟩ := hi 1 hrun 6
    have hlinked := hl.linked
    cases l with
    | nil =>
      have hfirst : _ = Addr.tail (some 1) 6 := (List.isChain_cons_cons.mp hlinked).1.1
      rw [show (descList (some 1) 6).head = .head (some 1) 6 from rfl, hafter] at hfirst
      cases hfirst
    | cons b l =>
      have hfirst : _ = Addr.block b := (List.isChain_cons_cons.mp hlinked).1.1
      rw [show (descList (some 1) 6).head = .head (some 1) 6 from rfl, hafter] at hfirst
      obtain rfl := Addr.block.inj hfirst
      have hnone := (hall _ List.mem_cons_self).1
      rw [hstill] at hnone
      cases hnone

instance (call : Call) (w : World) : Decidable (FreesOwn call w) := by
  cases call with
  | malloc p size => exact .isTrue trivial
  | fork p => exact .isTrue trivial
  | free p ptr =>
    exact decidable_of_iff (w.live p ptr ≠ none ∧
        ((w.kernel.heap.header (some p) (block2arena ptr)).desc.all fun d => d.1 = some p) = true) (by
      rw [FreesOwn, Option.all_eq_true]
      simp)

/-- The child allocates a block and frees it with its arena, and the parent frees one of its own and
allocates it again. -/
def ownCalls : List Call :=
  [.malloc 2 1000, .free 2 0x804900c, .free 1 0x804840c, .malloc 1 1000]

theorem run_heaps_isolated_forked : ∃ w w₁, Fresh w 1 ∧
    runAll (step smallMachine 8) (heldCalls 1 ++ ownCalls) w = some w₁ ∧ Isolated w₁ := by
  have hrun : (inheritedRun.bind fun r => (runAll (step smallMachine 8) ownCalls r.2.1).map fun _ =>
      (r.2.2.1, decide (AllMeet (step smallMachine 8) FreesOwn ownCalls r.2.1))) = some (1, true) := by
    decide +kernel
  obtain ⟨⟨w, w₁, p, q⟩, hr, hrun⟩ := Option.bind_eq_some_iff.mp hrun
  obtain ⟨w₂, hown, he⟩ := Option.map_eq_some_iff.mp hrun
  obtain ⟨rfl, hok⟩ := Prod.mk.inj he
  obtain ⟨hfresh, hsteps⟩ := inheritedRun_steps hr
  have hall : runAll (step smallMachine 8) (heldCalls 1 ++ ownCalls) w = some w₂ := by
    rw [runAll_append, hsteps]
    exact hown
  refine ⟨w, w₂, hfresh, hall, (run_heaps_isolated hfresh (allMeet_append ?_ fun s hs => ?_) hall).1⟩
  · exact ⟨trivial, fun _ _ => ⟨trivial, fun _ _ => ⟨trivial, fun _ _ => ⟨trivial, fun _ _ => trivial⟩⟩⟩⟩
  · obtain rfl := Option.some.inj (hsteps.symm.trans hs)
    exact of_decide_eq_true hok

end Inherited

end HeapIsolation
