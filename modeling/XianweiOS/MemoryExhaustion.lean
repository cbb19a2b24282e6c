import XianweiOS.ForkRoom
import XianweiOS.HeapInvariant

/-! When `malloc_page` and `sys_malloc` return. A pool without a clear bit stops the kernel in
`bitmap_scan`, before `palloc` could return `NULL`; only a scan of the virtual addresses for
several pages answers `-1`. -/
namespace MemoryExhaustion

open ByteStore HaltingProgram KernelBitmap MemoryPages MemoryHeap HeapInvariant ProcessMemory ForkRoom

/-- `n` pages from `v` on can be mapped: there are frames for them and for the tables they need, and
none of them is mapped. -/
structure Fits (mc : Machine) (m : Memory) (c : Ctx) (v n : ℕ) : Prop where
  frames : n ≤ freeFrames mc m (flagOf c)
  tables : ∀ p, c = some p → (missing m p (List.range' v n)).card ≤ freeFrames mc m .kernel
  own : ∀ w ∈ span v n, c = none ∨ w < 0xc0000
  unmapped : ∀ w ∈ span v n, m.frameAt c w = none

section Pages

variable {mc : Machine} {m m₁ m₂ m' : Memory} {c : Ctx} {pf : PoolFlag} {v n p f : ℕ}

theorem mappable_of (hstart : vaddrStart c ≤ v) (hown : c = none ∨ v < 0xc0000) :
    Mappable c v := by
  rcases hown with rfl | hlt
  · exact .inr ⟨rfl, hstart⟩
  · exact .inl hlt

/-- The kernel's tables are all there. -/
theorem tablePresent_kernel (hv : 0xc0100 ≤ v) : (m.space none).tablePresent (v / 1024) = true := by
  have : 768 ≤ v / 1024 := by omega
  simp [Space.tablePresent, this]

theorem missing_succ (hv : v < 0xc0000) (hp : palloc mc m .user = some (m₁, some f))
    (ha : pageTableAdd mc m₁ (some p) v f = some m₂) :
    missing m₂ p (List.range' (v + 1) n) = (missing m p (List.range' v (n + 1))).erase (v / 1024) := by
  ext k
  have htab := pageTableAdd_tables (.inl hv) ha k
  rw [palloc_space hp] at htab
  simp only [missing, Finset.mem_filter, List.mem_toFinset, htab, Bool.or_eq_false_iff,
    decide_eq_false_iff_not, Finset.mem_erase, List.range'_succ, List.map_cons, List.mem_cons]
  constructor
  · rintro ⟨hin, hne, habsent⟩
    exact ⟨hne, .inr hin, habsent⟩
  · rintro ⟨hne, hin, habsent⟩
    exact ⟨hin.resolve_left hne, hne, habsent⟩

theorem forall_span_succ {P : ℕ → Prop} :
    (∀ w ∈ span v (n + 1), P w) ↔ P v ∧ ∀ w ∈ span (v + 1) n, P w := by
  constructor
  · intro h
    refine ⟨h v (by simp), fun w hw => h w ?_⟩
    simp only [mem_span] at hw ⊢
    omega
  · rintro ⟨hv, h⟩ w hw
    by_cases hwv : w = v
    · exact hwv ▸ hv
    · refine h w ?_
      simp only [mem_span] at hw ⊢
      omega

/-- What is left to map fits if and only if all of it did. -/
theorem fits_next (hstart : vaddrStart c ≤ v) (hown : c = none ∨ v < 0xc0000)
    (hp : palloc mc m (flagOf c) = some (m₁, some f)) (ha : pageTableAdd mc m₁ c v f = some m₂) :
    Fits mc m₂ c (v + 1) n ↔ Fits mc m c v (n + 1) := by
  have hm := mappable_of hstart hown
  obtain ⟨hnone, hadd⟩ := pageTableAdd_frameAt ha
  rw [hm.home] at hnone hadd
  obtain ⟨hfree, hother⟩ := palloc_freeFrames hp
  obtain ⟨huser, hkernel⟩ := pageTableAdd_freeFrames hm ha
  rw [palloc_space hp] at hkernel
  have hun : (∀ w ∈ span (v + 1) n, m₂.frameAt c w = none) ↔
      ∀ w ∈ span v (n + 1), m.frameAt c w = none := by
    rw [forall_span_succ, and_iff_right ((palloc_frameAt hp).symm.trans hnone)]
    refine forall_congr' fun w => forall_congr' fun hw => ?_
    have hne : w ≠ v := by
      rw [mem_span] at hw
      omega
    rw [hadd, if_neg fun h => hne h.2, palloc_frameAt hp]
  have how : (∀ w ∈ span (v + 1) n, c = none ∨ w < 0xc0000) ↔
      ∀ w ∈ span v (n + 1), c = none ∨ w < 0xc0000 := by
    rw [forall_span_succ, and_iff_right hown]
  have hfr : n ≤ freeFrames mc m₂ (flagOf c) ↔ n + 1 ≤ freeFrames mc m (flagOf c) := by
    cases c with
    | none =>
      rw [tablePresent_kernel hstart, if_neg (by simp)] at hkernel
      change n ≤ freeFrames mc m₂ .kernel ↔ n + 1 ≤ freeFrames mc m .kernel
      change freeFrames mc m₁ .kernel + 1 = freeFrames mc m .kernel at hfree
      omega
    | some p =>
      change n ≤ freeFrames mc m₂ .user ↔ n + 1 ≤ freeFrames mc m .user
      change freeFrames mc m₁ .user + 1 = freeFrames mc m .user at hfree
      omega
  have htab : (∀ p, c = some p → (missing m₂ p (List.range' (v + 1) n)).card ≤
        freeFrames mc m₂ .kernel) ↔
      ∀ p, c = some p → (missing m p (List.range' v (n + 1))).card ≤ freeFrames mc m .kernel := by
    refine forall_congr' fun p => forall_congr' fun hc => ?_
    subst hc
    have hv : v < 0xc0000 := hown.resolve_left (by simp)
    have hk : freeFrames mc m₁ .kernel = freeFrames mc m .kernel := hother .kernel (by simp [flagOf])
    have hmem : v / 1024 ∈ missing m p (List.range' v (n + 1)) ↔
        (m.space (some p)).tablePresent (v / 1024) = false := by
      simp [missing, List.range'_succ]
    rw [missing_succ hv hp ha]
    by_cases habsent : (m.space (some p)).tablePresent (v / 1024) = false
    · have hpos := Finset.card_pos.mpr ⟨_, hmem.mpr habsent⟩
      rw [if_pos habsent] at hkernel
      rw [Finset.card_erase_of_mem (hmem.mpr habsent)]
      omega
    · rw [if_neg habsent] at hkernel
      rw [Finset.erase_eq_of_notMem (hmem.not.mpr habsent)]
      omega
  constructor
  · rintro ⟨h1, h2, h3, h4⟩
    exact ⟨hfr.mp h1, htab.mp h2, how.mp h3, hun.mp h4⟩
  · rintro ⟨h1, h2, h3, h4⟩
    exact ⟨hfr.mpr h1, htab.mpr h2, how.mpr h3, hun.mpr h4⟩

/-- The next page of a run that fits is mapped. -/
theorem Fits.step (hstart : vaddrStart c ≤ v) (hf : Fits mc m c v (n + 1)) :
    ∃ m₁ f m₂, palloc mc m (flagOf c) = some (m₁, some f) ∧ pageTableAdd mc m₁ c v f = some m₂ := by
  have hv : v ∈ span v (n + 1) := mem_span.mpr (by omega)
  obtain ⟨m₁, f, hp⟩ := palloc_exists (flagOf c) (Nat.lt_of_lt_of_le (Nat.succ_pos n) hf.frames)
  have htable : (m₁.space c).tablePresent (v / 1024) = false → 0 < freeFrames mc m₁ .kernel := by
    intro habsent
    rw [palloc_space hp] at habsent
    cases c with
    | none =>
      rw [tablePresent_kernel hstart] at habsent
      cases habsent
    | some p =>
      rw [(palloc_freeFrames hp).2 .kernel PoolFlag.noConfusion]
      refine lt_of_lt_of_le (Finset.card_pos.mpr ⟨v / 1024, ?_⟩) (hf.tables p rfl)
      simp [missing, List.range'_succ, habsent]
  obtain ⟨m₂, ha⟩ := pageTableAdd_exists f (mappable_of hstart (hf.own v hv))
    ((palloc_frameAt hp).trans (hf.unmapped v hv)) htable
  exact ⟨m₁, f, m₂, hp, ha⟩

theorem mapPages_iff (hstart : vaddrStart c ≤ v) (hle : c = none ∨ v + n ≤ 0xc0001) :
    (∃ r, mapPages mc c n m v = some r) ↔ Fits mc m c v n := by
  induction n generalizing m v with
  | zero =>
    refine iff_of_true ⟨_, rfl⟩ ⟨Nat.zero_le _, fun p _ => ?_, ?_, ?_⟩
    · simp [missing]
    · intro w hw
      rw [mem_span] at hw
      omega
    · intro w hw
      rw [mem_span] at hw
      omega
  | succ n ih =>
    have hle' : c = none ∨ v + 1 + n ≤ 0xc0001 := hle.imp_right fun h => by omega
    constructor
    · rintro ⟨⟨m', ok⟩, hm⟩
      obtain ⟨m₁, m₂, f, hp, ha, hm⟩ := mapPages_succ hm
      have hown := (pageTableAdd_home ha (hle.imp_right fun h => by omega)).2
      exact (fits_next hstart hown hp ha).mp ((ih (by omega) hle').mp ⟨_, hm⟩)
    · intro hf
      obtain ⟨m₁, f, m₂, hp, ha⟩ := hf.step hstart
      obtain ⟨r, hm⟩ := (ih (by omega) hle').mpr
        ((fits_next hstart (hf.own v (by simp)) hp ha).mpr hf)
      refine ⟨r, ?_⟩
      simp only [mapPages, hp, ha, hm, Option.bind_eq_bind, Option.bind_some]

/-- Reserving addresses takes no frame and maps nothing. -/
theorem fits_setVaddr (b : Bytes) : Fits mc (m.setVaddr c b) c v n ↔ Fits mc m c v n := by
  have hf : ∀ pf, freeFrames mc (m.setVaddr c b) pf = freeFrames mc m pf := fun pf =>
    freeFrames_congr rfl
  have ht : ∀ p, missing (m.setVaddr c b) p (List.range' v n) = missing m p (List.range' v n) := by
    intro p
    unfold missing Space.tablePresent
    rw [setVaddr_pde]
  constructor
  · rintro ⟨h1, h2, h3, h4⟩
    simp only [hf, ht, setVaddr_frameAt] at h1 h2 h4
    exact ⟨h1, h2, h3, h4⟩
  · rintro ⟨h1, h2, h3, h4⟩
    refine ⟨?_, ?_, h3, ?_⟩ <;> simp only [hf, ht, setVaddr_frameAt]
    · exact h1
    · exact h2
    · exact h4

/-- The scan of the virtual addresses finds a run, at which the pages fit. -/
def Obtainable (mc : Machine) (m : Memory) (c : Ctx) (n : ℕ) : Prop :=
  ∃ i, bitmapScan (vaddrBitmap mc m c) n = some (some i) ∧
    (c = none ∨ vaddrStart c + i < 0xbffff) ∧ Fits mc m c (vaddrStart c + i) n

/-- A run that a scan finds ends at most one page behind the addresses of its context. -/
theorem scan_end {i : ℕ} (h0 : 0 < n) (hs : bitmapScan (vaddrBitmap mc m c) n = some (some i)) :
    c = none ∨ vaddrStart c + i + n ≤ 0xc0001 := by
  obtain ⟨-, hle⟩ := bitmapScan_clear h0 hs
  cases c with
  | none => exact .inl rfl
  | some p =>
    refine .inr ?_
    simp only [vaddrBitmap, vaddrStart, vaddrLen] at hle ⊢
    omega

/-- Without a run of addresses it answers `NULL`. -/
theorem mallocPage_refused (h0 : 0 < n) (hlt : n < 3840)
    (hs : bitmapScan (vaddrBitmap mc m c) n = some none) : mallocPage mc m c n = some (m, none) := by
  simp only [mallocPage, vaddrGet, hs, assert_pos (And.intro h0 hlt), Option.bind_eq_bind,
    Option.bind_some, Option.pure_def]

/-- `malloc_page` returns a run of pages that fits, or `NULL` when there are addresses left but no
run of them. -/
theorem mallocPage_iff : (∃ r, mallocPage mc m c n = some r) ↔ 0 < n ∧ n < 3840 ∧
    (bitmapScan (vaddrBitmap mc m c) n = some none ∨ Obtainable mc m c n) := by
  constructor
  · rintro ⟨⟨m', r⟩, hm⟩
    rw [mallocPage, assert_bind] at hm
    obtain ⟨⟨h0, hlt⟩, hm⟩ := hm
    refine ⟨h0, hlt, ?_⟩
    rw [bind_some_iff] at hm
    obtain ⟨⟨m₁, s⟩, hg, hm⟩ := hm
    rw [vaddrGet, bind_some_iff] at hg
    obtain ⟨s', hs, hg⟩ := hg
    cases s' with
    | none => exact .inl hs
    | some i =>
      simp only [assert_bind, Option.pure_def, Option.some.injEq, Prod.mk.injEq] at hg
      obtain ⟨hassert, rfl, rfl⟩ := hg
      simp only [bind_some_iff] at hm
      obtain ⟨r', hmap, -⟩ := hm
      have hfits := (mapPages_iff (Nat.le_add_right _ _) (scan_end h0 hs)).mp ⟨r', hmap⟩
      exact .inr ⟨i, hs, hassert, (fits_setVaddr _).mp hfits⟩
  · rintro ⟨h0, hlt, hs | ⟨i, hs, hassert, hfits⟩⟩
    · exact ⟨(m, none), mallocPage_refused h0 hlt hs⟩
    · obtain ⟨⟨m', ok⟩, hmap⟩ := (mapPages_iff (Nat.le_add_right _ _) (scan_end h0 hs)).mpr
        ((fits_setVaddr (setBits (vaddrBitmap mc m c) i true n).bits).mpr hfits)
      refine ⟨(m', if ok then some (vaddrStart c + i) else none), ?_⟩
      simp only [mallocPage, vaddrGet, hs, assert_pos (And.intro h0 hlt), assert_pos hassert, hmap,
        Option.bind_eq_bind, Option.bind_some, Option.pure_def]

/-- `NULL` comes from the scan only. -/
theorem mallocPage_none (hm : mallocPage mc m c n = some (m', none)) :
    bitmapScan (vaddrBitmap mc m c) n = some none := by
  rw [mallocPage, assert_bind, bind_some_iff] at hm
  obtain ⟨⟨h0, -⟩, ⟨m₁, s⟩, hg, hm⟩ := hm
  rw [vaddrGet, bind_some_iff] at hg
  obtain ⟨s', hs, hg⟩ := hg
  cases s' with
  | none => exact hs
  | some i =>
    simp only [assert_bind, Option.pure_def, Option.some.injEq, Prod.mk.injEq] at hg
    obtain ⟨-, rfl, rfl⟩ := hg
    rw [bind_some_iff] at hm
    obtain ⟨⟨m₂, ok⟩, hmap, hm⟩ := hm
    obtain ⟨rfl, -⟩ := mapPages_mapped hmap (scan_end h0 hs)
    cases (Prod.mk.inj (Option.some.inj hm)).2

end Pages

/-- The pages that `sys_malloc` asks for. -/
def pagesFor (size : ℕ) : ℕ := if 1024 < size then (size + arenaSize + pgSize - 1) / pgSize else 1

/-- `sys_malloc` answers: the size is refused, a block is on the free list, or `malloc_page`
returns. -/
def Answered (mc : Machine) (h : Heap) (c : Ctx) (size : ℕ) : Prop :=
  size = 0 ∨ mc.phySize (flagOf c) ≤ size ∨
    (size ≤ 1024 ∧ h.freeList c (descIndex size) ≠ []) ∨
    (pagesFor size < 3840 ∧ (bitmapScan (vaddrBitmap mc h.memory c) (pagesFor size) = some none ∨
      Obtainable mc h.memory c (pagesFor size)))

/-- A block, or `NULL` and nothing has changed. -/
def MallocClean (mc : Machine) (h : Heap) (c : Ctx) (size : ℕ) : Prop :=
  ∃ h' r, sysMalloc mc h c size = some (h', r) ∧ (r = none → h' = h)

section Heap

variable {mc : Machine} {h h' : Heap} {c : Ctx} {a i size : ℕ}

theorem appendBlocks_exists {cnt idx : ℕ} {l : List ℕ} (hle : idx + cnt ≤ blocksPerArena i)
    (hl : ∀ k, idx ≤ k → k < blocksPerArena i → arena2block a i k ∉ l) :
    ∃ l', appendBlocks a i cnt idx l = some l' := by
  induction cnt generalizing idx l with
  | zero => exact ⟨l, rfl⟩
  | succ cnt ih =>
    have hnext : ∀ k, idx + 1 ≤ k → k < blocksPerArena i →
        arena2block a i k ∉ l ++ [arena2block a i idx] := by
      intro k hk hlt
      rw [List.mem_append, List.mem_singleton, not_or]
      refine ⟨hl k (by omega) hlt, fun he => ?_⟩
      have := (arena2block_inj hlt (by omega) he).2
      omega
    obtain ⟨l', hl'⟩ := ih (by omega) hnext
    refine ⟨l', ?_⟩
    rw [appendBlocks, assert_pos (hl idx le_rfl (by omega)), Option.bind_eq_bind,
      Option.bind_some, hl']

theorem blocksPerArena_pos (hi : i < descCnt) : 0 < blocksPerArena i := by
  unfold descCnt at hi
  interval_cases i <;> decide

/-- The blocks of a new arena go on an empty list, and the first one is taken. -/
theorem newArena_takes {m : Memory} (hi : i < descCnt) (hl : h.freeList c i = [])
    (hp : mallocPage mc h.memory c 1 = some (m, some a)) :
    ∃ h₁ r, newArena mc h c i = some (h₁, true) ∧ takeBlock h₁ c i = some r := by
  have happ : ∃ l, appendBlocks a i (blocksPerArena i) 0 (h.freeList c i) = some l := by
    apply appendBlocks_exists (Nat.zero_add _).le
    intro k _ _
    rw [hl]
    exact List.not_mem_nil
  obtain ⟨l, happ⟩ := happ
  refine ⟨((h.setMemory m).setHeader c a ⟨some (c, i), blocksPerArena i, true⟩).setFreeList c i l,
    ?_⟩
  have hlist : l = (List.range' 0 (blocksPerArena i)).map (arena2block a i) := by
    rw [appendBlocks_eq happ, hl, List.nil_append]
  obtain ⟨n, hn⟩ := Nat.exists_eq_add_one_of_ne_zero (blocksPerArena_pos hi).ne'
  rw [hn, List.range'_succ, List.map_cons] at hlist
  refine ⟨_, by simp only [newArena, hp, happ, Option.bind_eq_bind, Option.bind_some,
    Option.pure_def], by simp only [takeBlock, setFreeList_list, and_self, if_true, hlist]; rfl⟩

/-- What is answered leaves the heap alone or hands out a block. -/
theorem sysMalloc_none (hm : sysMalloc mc h c size = some (h', none)) : h' = h := by
  unfold sysMalloc at hm
  split at hm
  · split at hm
    · rcases mallocLarge_cases hm with ⟨-, rfl⟩ | ⟨n, m, a, -, -, -, hr, -⟩
      · rfl
      · cases hr
    · rcases mallocSmall_cases hm with ⟨-, rfl⟩ | ⟨-, ht⟩ | ⟨-, h₁, -, ht⟩
      · rfl
      · obtain ⟨b, l, -, hr, -⟩ := takeBlock_cases ht
        cases hr
      · obtain ⟨b, l, -, hr, -⟩ := takeBlock_cases ht
        cases hr
  · exact (Prod.mk.inj (Option.some.inj hm)).1.symm

theorem mallocLarge_iff : (∃ r, mallocLarge mc h c size = some r) ↔
    ∃ r, mallocPage mc h.memory c ((size + arenaSize + pgSize - 1) / pgSize) = some r := by
  constructor
  · rintro ⟨r, hm⟩
    rw [mallocLarge, bind_some_iff] at hm
    obtain ⟨r', hp, -⟩ := hm
    exact ⟨r', hp⟩
  · rintro ⟨⟨m, r⟩, hp⟩
    cases r with
    | none => exact ⟨_, by simp only [mallocLarge, hp, Option.bind_eq_bind, Option.bind_some]; rfl⟩
    | some a => exact ⟨_, by simp only [mallocLarge, hp, Option.bind_eq_bind, Option.bind_some]; rfl⟩

theorem mallocSmall_iff (hi : descIndex size < descCnt) : (∃ r, mallocSmall mc h c size = some r) ↔
    h.freeList c (descIndex size) ≠ [] ∨ ∃ r, mallocPage mc h.memory c 1 = some r := by
  unfold mallocSmall
  dsimp only
  split
  · rename_i hl
    rw [or_iff_right (not_not.mpr hl)]
    constructor
    · rintro ⟨r, hm⟩
      rw [bind_some_iff] at hm
      obtain ⟨⟨h₁, ok⟩, hn, -⟩ := hm
      rw [newArena, bind_some_iff] at hn
      obtain ⟨r', hp, -⟩ := hn
      exact ⟨r', hp⟩
    · rintro ⟨⟨m, r⟩, hp⟩
      cases r with
      | none => exact ⟨_, by simp only [newArena, hp, Option.bind_eq_bind, Option.bind_some]; rfl⟩
      | some a =>
        obtain ⟨h₁, r, hn, ht⟩ := newArena_takes hi hl hp
        exact ⟨r, by simp only [hn, Option.bind_eq_bind, Option.bind_some, if_true, ht]⟩
  · rename_i hl
    refine iff_of_true ?_ (.inl hl)
    obtain ⟨b, l, hl⟩ := List.exists_cons_of_ne_nil hl
    exact ⟨_, by simp only [takeBlock, hl]; rfl⟩

theorem sysMalloc_iff : (∃ r, sysMalloc mc h c size = some r) ↔ Answered mc h c size := by
  unfold sysMalloc Answered
  by_cases hin : 0 < size ∧ size < mc.phySize (flagOf c)
  · rw [if_pos hin]
    have h0 : size ≠ 0 := by omega
    have hp : ¬ mc.phySize (flagOf c) ≤ size := by omega
    rw [or_iff_right h0, or_iff_right hp]
    by_cases hlarge : 1024 < size
    · have hle : ¬ size ≤ 1024 := by omega
      have hpos : 0 < (size + arenaSize + pgSize - 1) / pgSize :=
        Nat.div_pos (by unfold pgSize; omega) (by decide)
      rw [if_pos hlarge, mallocLarge_iff, mallocPage_iff, pagesFor, if_pos hlarge]
      simp only [hle, false_and, false_or, hpos, true_and]
    · have hle : size ≤ 1024 := by omega
      rw [if_neg hlarge, mallocSmall_iff (descIndex_spec hle).1, mallocPage_iff, pagesFor,
        if_neg hlarge]
      simp only [hle, true_and, Nat.zero_lt_one]
  · rw [if_neg hin]
    refine iff_of_true ⟨_, rfl⟩ ?_
    rcases Nat.eq_zero_or_pos size with h0 | h0
    · exact .inl h0
    · exact .inr (.inl (by omega))

/-- An allocation that fails is clean whenever the kernel does not stop in it. -/
theorem mallocClean_iff : MallocClean mc h c size ↔ Answered mc h c size := by
  rw [← sysMalloc_iff]
  constructor
  · rintro ⟨h', r, hm, -⟩
    exact ⟨_, hm⟩
  · rintro ⟨⟨h', r⟩, hm⟩
    refine ⟨h', r, hm, ?_⟩
    rintro rfl
    exact sysMalloc_none hm

end Heap

section KernelPages

variable {mc : Machine} {h h' : Heap} {n : ℕ}

theorem getKernelPages_iff : (∃ r, getKernelPages mc h n = some r) ↔
    ∃ r, mallocPage mc h.memory none n = some r := by
  constructor
  · rintro ⟨r, hg⟩
    rw [getKernelPages, bind_some_iff] at hg
    obtain ⟨r', hp, -⟩ := hg
    exact ⟨r', hp⟩
  · rintro ⟨⟨m, r⟩, hp⟩
    cases r with
    | none => exact ⟨_, by simp only [getKernelPages, hp, Option.bind_eq_bind, Option.bind_some]; rfl⟩
    | some a =>
      exact ⟨_, by simp only [getKernelPages, hp, Option.bind_eq_bind, Option.bind_some]; rfl⟩

theorem getKernelPages_none_of_scan (h0 : 0 < n) (hlt : n < 3840)
    (hs : bitmapScan (vaddrBitmap mc h.memory none) n = some none) :
    getKernelPages mc h n = some (h, none) := by
  rw [getKernelPages, mallocPage_refused h0 hlt hs]
  rfl

/-- `NULL` is a failed scan, and nothing has changed. -/
theorem getKernelPages_refused (hg : getKernelPages mc h n = some (h', none)) :
    h' = h ∧ bitmapScan (vaddrBitmap mc h.memory none) n = some none := by
  refine ⟨getKernelPages_none hg, ?_⟩
  rw [getKernelPages, bind_some_iff] at hg
  obtain ⟨⟨m, r⟩, hp, hg⟩ := hg
  cases r with
  | none => exact mallocPage_none hp
  | some a => cases (Prod.mk.inj (Option.some.inj hg)).2

/-- One page is never refused: there is one, or the kernel stops. -/
theorem getKernelPages_one {r : Option ℕ} (hg : getKernelPages mc h 1 = some (h', r)) :
    ∃ a, r = some a := by
  cases r with
  | some a => exact ⟨a, rfl⟩
  | none =>
    obtain ⟨i, hi, -⟩ := bitmapScan_one (getKernelPages_refused hg).2
    cases hi

theorem getKernelPages_one_iff : (∃ h' a, getKernelPages mc h 1 = some (h', some a)) ↔
    Obtainable mc h.memory none 1 := by
  constructor
  · rintro ⟨h', a, hg⟩
    obtain ⟨-, -, hs | ho⟩ := mallocPage_iff.mp (getKernelPages_iff.mp ⟨_, hg⟩)
    · obtain ⟨i, hi, -⟩ := bitmapScan_one hs
      cases hi
    · exact ho
  · intro ho
    obtain ⟨⟨h', r⟩, hg⟩ :=
      getKernelPages_iff.mpr (mallocPage_iff.mpr ⟨by decide, by decide, .inr ho⟩)
    obtain ⟨a, rfl⟩ := getKernelPages_one hg
    exact ⟨h', a, hg⟩

end KernelPages

/-- No frame is left. -/
def exhausted : Heap :=
  memInit.setMemory { memInit.memory with pool := fun _ _ => 0xff#8 }

theorem exhausted_freeFrames (mc : Machine) (pf : PoolFlag) :
    freeFrames mc exhausted.memory pf = 0 := by
  rw [freeFrames, Finset.card_eq_zero, Finset.filter_eq_empty_iff]
  intro i _
  have hset : ∀ j < 8, (0xff#8).getLsbD j = true := by decide
  rw [bitmapScanTest_eq]
  exact (hset _ (Nat.mod_lt _ (by omega))).symm ▸ Bool.noConfusion

/-- A small request does not come back from it, whoever asks. -/
theorem exhausted_halts {c : Ctx} {size : ℕ} (h0 : 0 < size) (h1 : size ≤ 1024) :
    sysMalloc smallMachine exhausted c size = none := by
  have hpool : 1024 < smallMachine.phySize (flagOf c) := by
    have hboth : ∀ pf, 1024 < smallMachine.phySize pf := by
      intro pf
      cases pf <;> decide
    exact hboth _
  have hnot : ¬ ∃ r, sysMalloc smallMachine exhausted c size = some r := by
    rw [sysMalloc_iff]
    rintro (h | h | ⟨-, h⟩ | ⟨-, h | ⟨i, -, -, hfits⟩⟩)
    · omega
    · omega
    · exact h rfl
    · rw [pagesFor, if_neg (by omega)] at h
      obtain ⟨i, hi, -⟩ := bitmapScan_one h
      cases hi
    · have := hfits.frames
      rw [exhausted_freeFrames, pagesFor, if_neg (by omega)] at this
      omega
  exact Option.eq_none_iff_forall_ne_some.mpr fun r hr => hnot ⟨r, hr⟩

/-- The kernel asks for a block when its pool is full. -/
theorem malloc_exhausted_halts :
    sysMalloc smallMachine exhausted none 16 = none ∧
      ¬ MallocClean smallMachine exhausted none 16 := by
  have hhalt := exhausted_halts (c := none) (show 0 < 16 by decide) (by decide)
  refine ⟨hhalt, ?_⟩
  rintro ⟨h', r, hm, -⟩
  rw [hhalt] at hm
  cases hm

end MemoryExhaustion
