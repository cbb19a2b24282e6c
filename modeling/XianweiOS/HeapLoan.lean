import XianweiOS.MemoryExhaustion

/-! A small block that is taken and freed again: the heap has the blocks it had, and every page is
mapped where it was. With frames and addresses left, both calls return. -/
namespace HeapLoan

open ByteStore HaltingProgram KernelBitmap MemoryPages MemoryHeap HeapInvariant FrameExclusive
  ForkRoom MemoryExhaustion

section Blocks

variable {mc : Machine} {c : Ctx} {h h₁ h₂ h₃ h' : Heap} {kind kind₁ : Layout} {live : Live}
  {A : ℕ → Prop} {m m' : Memory} {a b i k size : ℕ}

theorem removeBlocks_exists {cnt idx : ℕ} {l : List ℕ} (hle : idx + cnt ≤ blocksPerArena i)
    (hl : ∀ k, idx ≤ k → k < idx + cnt → arena2block a i k ∈ l) :
    ∃ l', removeBlocks a i cnt idx l = some l' := by
  induction cnt generalizing idx l with
  | zero => exact ⟨l, rfl⟩
  | succ cnt ih =>
    have hrest : ∀ k, idx + 1 ≤ k → k < idx + 1 + cnt →
        arena2block a i k ∈ l.erase (arena2block a i idx) := by
      intro k hk hlt
      refine (List.mem_erase_of_ne fun he => ?_).mpr (hl k (by omega) (by omega))
      have := (arena2block_inj (by omega) (by omega) he).2
      omega
    obtain ⟨l', hl'⟩ := ih (by omega) hrest
    refine ⟨l', ?_⟩
    rw [removeBlocks, assert_pos (hl idx le_rfl (by omega)), Option.bind_eq_bind,
      Option.bind_some, hl']

/-- The header of a small arena names the descriptor of its context. -/
theorem sysFree_small (hs : Sound mc c h kind live) (ha : kind a = some (.small i))
    (hk : k < blocksPerArena i) :
    sysFree mc h c (arena2block a i k) = freeSmall mc h c c i (arena2block a i k) := by
  have hne : arena2block a i k ≠ 0 := by
    unfold arena2block arenaSize
    omega
  rw [sysFree, assert_pos hne]
  simp only [Option.bind_eq_bind, Option.bind_some, block2arena_arena2block hk,
    (hs.core.small a i ha).1]

theorem freeSmall_pages (hk : k < blocksPerArena i)
    (hf : freeSmall mc h c c i (arena2block a i k) = some h') :
    h'.memory = h.memory ∨ mfreePage mc h.memory c a 1 = some h'.memory := by
  simp only [freeSmall, block2arena_arena2block hk] at hf
  split at hf
  · simp only [bind_some_iff, Option.pure_def, Option.some.injEq] at hf
    obtain ⟨l, -, m, hm, rfl⟩ := hf
    exact .inr hm
  · obtain rfl := Option.some.inj hf
    exact .inl rfl

/-- A live block of a small arena can be freed. -/
theorem freeSmall_exists (hs : Sound mc c h kind live) (he : Exclusive mc h.memory A)
    (hcount : home c a = c ∧ Counts A (.page c a)) (ha : kind a = some (.small i))
    (hk : k < blocksPerArena i) (hlive : live (arena2block a i k) ≠ none) :
    ∃ h', freeSmall mc h c c i (arena2block a i k) = some h' := by
  simp only [freeSmall, block2arena_arena2block hk]
  split
  · rename_i hfull
    have hput := hs.core.put ha hk hlive
    have hcnt := hs.core.put_cnt ha hk hlive
    have hall : ∀ k' < blocksPerArena i,
        arena2block a i k' ∈ h.freeList c i ++ [arena2block a i k] := by
      intro k' hk'
      have hin := freeCnt_eq_all (hcnt.symm.trans hfull) hk'
      rwa [setFreeList_list, if_pos ⟨rfl, rfl⟩] at hin
    obtain ⟨l, hl⟩ := removeBlocks_exists (a := a) (i := i) (Nat.zero_add _).le
      fun k' _ hk' => hall k' (by omega)
    obtain ⟨f, hf⟩ := (hs.core.pages.held a (hs.core.pages.first ha)).2
    obtain ⟨m, hm⟩ := mfreePage_one_exists hcount.1 (he.marked (.page c a) f hcount.2 hf).1 hf
    simp only [setHeader_memory, hl, hm, Option.bind_eq_bind, Option.bind_some, Option.pure_def,
      Option.some.injEq, exists_eq']
  · exact ⟨_, rfl⟩

theorem sysMalloc_lent (hs : Sound mc c h kind live) (hsize : size ≤ 1024)
    (hm : sysMalloc mc h c size = some (h', some b)) :
    ∃ a k kind', b = arena2block a (descIndex size) k ∧ live b = none ∧
      Lent mc c h.memory h'.memory kind (descIndex size) a k kind' ∧
      Sound mc c h' kind' (Function.update live b (some size)) := by
  unfold sysMalloc at hm
  split at hm
  · rw [if_neg (by omega)] at hm
    exact mallocSmall_lent hs hsize hm
  · cases hm

theorem lent_exclusive (hl : Lent mc c m m' kind i a k kind₁) (he : Exclusive mc m A) :
    Exclusive mc m' A := by
  cases hl with
  | free _ _ hm => exact hm ▸ he
  | fresh _ _ hp => exact he.mallocPage hp

theorem lent_block (hl : Lent mc c m m' kind i a k kind₁) :
    kind₁ a = some (.small i) ∧ k < blocksPerArena i := by
  cases hl with
  | free ha hk _ => exact ⟨ha, hk⟩
  | fresh _ hk _ => exact ⟨Function.update_self .., hk⟩

theorem lent_mono {d : ℕ} {x : Kind} (hl : Lent mc c m m' kind i a k kind₁)
    (hd : kind d = some x) : kind₁ d = some x := by
  cases hl with
  | free _ _ _ => exact hd
  | fresh hnone _ _ => exact update_some_iff.mpr (.inr ⟨ne_of_kind hnone hd, hd⟩)

/-- What was mapped stays mapped. -/
theorem lent_frameAt {d : Ctx} {w f : ℕ} (hl : Lent mc c m m' kind i a k kind₁)
    (hf : m.frameAt d w = some f) : m'.frameAt d w = some f := by
  cases hl with
  | free _ _ hm => rw [hm, hf]
  | fresh _ _ hp => exact gained_keeps (mallocPage_gained hp) hf

/-- A page that was not mapped before is the page of the block. -/
theorem lent_page {d : Ctx} {w : ℕ} (hl : Lent mc c m m' kind i a k kind₁)
    (hw : ¬(d = c ∧ w = a)) : m'.frameAt d w = m.frameAt d w := by
  cases hl with
  | free _ _ hm => rw [hm]
  | fresh _ _ hp =>
    apply (mallocPage_gained hp).others
    rintro ⟨hd, hin⟩
    rw [mem_span] at hin
    exact hw ⟨hd, by omega⟩

/-- An arena in a page that was mapped is an old one. -/
theorem lent_kind {d f : ℕ} {x : Kind} (hl : Lent mc c m m' kind i a k kind₁)
    (hd : kind₁ d = some x) (hf : m.frameAt c d = some f) : kind d = some x := by
  cases hl with
  | free _ _ _ => exact hd
  | fresh _ _ hp =>
    obtain ⟨rfl, -⟩ | ⟨-, hd⟩ := update_some_iff.mp hd
    · rw [(mallocPage_gained hp).unmapped d (by simp)] at hf
      cases hf
    · exact hd

/-- The free blocks are those of the small arenas that are no allocations. -/
theorem mem_freeList_iff (hs : Sound mc c h kind live) : b ∈ h.freeList c i ↔
    ∃ a k, kind a = some (.small i) ∧ k < blocksPerArena i ∧ b = arena2block a i k ∧
      live b = none := by
  constructor
  · intro hb
    obtain ⟨a, k, ha, hk, rfl⟩ := hs.core.free i b hb
    exact ⟨a, k, ha, hk, rfl, (hs.core.block a i k ha hk).mp hb⟩
  · rintro ⟨a, k, ha, hk, rfl, hlive⟩
    exact (hs.core.block a i k ha hk).mpr hlive

theorem sysFree_exclusive (hs : Sound mc c h kind live) (he : Exclusive mc h.memory A)
    (hcount : home c a = c ∧ Counts A (.page c a)) (ha : kind a = some (.small i))
    (hk : k < blocksPerArena i) (hf : sysFree mc h c (arena2block a i k) = some h') :
    Exclusive mc h'.memory A := by
  rw [sysFree_small hs ha hk] at hf
  rcases freeSmall_pages hk hf with hm | hm
  · rw [hm]
    exact he
  · refine he.mfreePage (fun w hw => ?_) (fun w hw => ?_) hm
    · obtain rfl : w = a := by
        rw [mem_span] at hw
        omega
      exact hcount
    · exact (hs.core.pages.held w ⟨a, _, ha, hw⟩).2

/-- Taking a block and giving it back, whatever has happened in between to other blocks. -/
theorem lent_returned (hl : Lent mc c h.memory h₁.memory kind i a k kind₁)
    (hs : Sound mc c h kind live) (hdead : live (arena2block a i k) = none)
    (hs₂ : Sound mc c h₂ kind₁ (Function.update live (arena2block a i k) (some size)))
    (hsame : ∀ d w, h₂.memory.frameAt d w = h₁.memory.frameAt d w)
    (hf : sysFree mc h₂ c (arena2block a i k) = some h₃) :
    Sound mc c h₃ kind live ∧ ∀ d w, h₃.memory.frameAt d w = h.memory.frameAt d w := by
  obtain ⟨ha, hk⟩ := lent_block hl
  rw [sysFree_small hs₂ ha hk] at hf
  have hlive : Function.update live (arena2block a i k) (some size) (arena2block a i k) ≠ none := by
    rw [Function.update_self]
    exact Option.some_ne_none _
  have hback : Function.update (Function.update live (arena2block a i k) (some size))
      (arena2block a i k) none = live := by
    rw [Function.update_idem, ← hdead, Function.update_eq_self]
  have hother : ∀ k', k' < blocksPerArena i → k' ≠ k →
      Function.update live (arena2block a i k) (some size) (arena2block a i k') =
        live (arena2block a i k') := by
    intro k' hk' hne
    rw [Function.update_of_ne]
    exact fun he => hne (arena2block_inj hk' hk he).2
  cases hl with
  | free hold _ hm =>
    -- the arena had a live block before, which is not the one that was taken
    obtain ⟨k', hk', hl'⟩ := hs.busy.small a i hold
    have hne : k' ≠ k := by
      rintro rfl
      exact hl' hdead
    obtain ⟨hs₃, hmem⟩ := freeSmall_shared hs₂ ha hk hlive
      ⟨k', hk', hne, by rwa [hother k' hk' hne]⟩ hf
    rw [hback] at hs₃
    refine ⟨hs₃, fun d w => ?_⟩
    rw [hmem, hsame, hm]
  | fresh hnone _ hp =>
    have hempty : ∀ k' < blocksPerArena i, k' ≠ k →
        Function.update live (arena2block a i k) (some size) (arena2block a i k') = none := by
      intro k' hk' hne
      rw [hother k' hk' hne]
      cases hq : live (arena2block a i k') with
      | none => rfl
      | some sz =>
        obtain ⟨x, hx⟩ := (hs.core.placed _ _ hq).page
        rw [block2arena_arena2block hk', hnone] at hx
        cases hx
    obtain ⟨hs₃, hfree⟩ := freeSmall_last hs₂ ha hk hlive hempty hf
    rw [hback, Function.update_idem, ← hnone, Function.update_eq_self] at hs₃
    have hg := mallocPage_gained hp
    have hlost := mfreePage_lost hfree hg.start hg.own
    refine ⟨hs₃, fun d w => ?_⟩
    by_cases hin : d = c ∧ w ∈ span a 1
    · obtain ⟨rfl, hin⟩ := hin
      rw [hlost.unmapped w hin, hg.unmapped w hin]
    · rw [hlost.others d w hin, hsame, hg.others d w hin]

end Blocks

/-- The addresses that `vaddr_get` can hand out to a process. -/
def freeAddresses (mc : Machine) (m : Memory) (p : ℕ) : ℕ :=
  ((Finset.range (0xbffff - 0x8048)).filter
    fun i => bitmapScanTest (vaddrBitmap mc m (some p)) i = false).card

/-- `n` frames of each pool and `n` addresses are left, and no address that is left is mapped. -/
structure Spare (mc : Machine) (m : Memory) (p n : ℕ) : Prop where
  frames : ∀ pf, n ≤ freeFrames mc m pf
  addresses : n ≤ freeAddresses mc m p
  unmapped : ∀ v, 0x8048 ≤ v → v < 0xc0000 → ¬Reserved mc m (some p) v →
    m.frameAt (some p) v = none

section Spare

variable {mc : Machine} {m m₁ m' : Memory} {h : Heap} {p v f n size : ℕ}

theorem Spare.mono {n' : ℕ} (hs : Spare mc m p n) (hle : n' ≤ n) : Spare mc m p n' :=
  ⟨fun pf => le_trans hle (hs.frames pf), le_trans hle hs.addresses, hs.unmapped⟩

/-- A page takes one frame of a pool at most. -/
theorem mapOne_freeFrames (hv : v < 0xc0000) (hp : palloc mc m .user = some (m₁, some f))
    (ha : pageTableAdd mc m₁ (some p) v f = some m') (pf : PoolFlag) :
    freeFrames mc m pf ≤ freeFrames mc m' pf + 1 := by
  obtain ⟨huser, hkernel⟩ := pageTableAdd_freeFrames (.inl hv) ha
  obtain ⟨hfree, hother⟩ := palloc_freeFrames hp
  cases pf with
  | user => omega
  | kernel =>
    have hsame := hother .kernel PoolFlag.noConfusion
    split at hkernel <;> omega

/-- One address more is taken, and its page is the only one whose mapping changes. -/
theorem Spare.takes (hs : Spare mc m p (n + 1))
    (hframes : ∀ pf, freeFrames mc m pf ≤ freeFrames mc m' pf + 1)
    (hres : ∀ w, 0x8048 ≤ w → w < 0xc0000 →
      (Reserved mc m' (some p) w ↔ w = v ∨ Reserved mc m (some p) w))
    (hframe : ∀ w, w ≠ v → m'.frameAt (some p) w = m.frameAt (some p) w) : Spare mc m' p n := by
  constructor
  case frames =>
    intro pf
    have h₁ := hs.frames pf
    have h₂ := hframes pf
    omega
  case addresses =>
    have hsub : ((Finset.range (0xbffff - 0x8048)).filter
          fun i => bitmapScanTest (vaddrBitmap mc m (some p)) i = false).erase (v - 0x8048) ⊆
        (Finset.range (0xbffff - 0x8048)).filter
          fun i => bitmapScanTest (vaddrBitmap mc m' (some p)) i = false := by
      intro i hi
      rw [Finset.mem_erase, Finset.mem_filter, Finset.mem_range] at hi
      rw [Finset.mem_filter, Finset.mem_range]
      refine ⟨hi.2.1, ?_⟩
      have hbit := hres (0x8048 + i) (by omega) (by omega)
      simp only [Reserved, vaddrStart, Nat.add_sub_cancel_left, hi.2.2, Bool.false_eq_true,
        or_false] at hbit
      rw [← Bool.not_eq_true, hbit]
      omega
    have hcard := Finset.card_le_card hsub
    have herase := Finset.pred_card_le_card_erase (a := v - 0x8048)
      (s := (Finset.range (0xbffff - 0x8048)).filter
        fun i => bitmapScanTest (vaddrBitmap mc m (some p)) i = false)
    have := hs.addresses
    unfold freeAddresses at *
    omega
  case unmapped =>
    intro w hlow hlt hnot
    rw [hres w hlow hlt, not_or] at hnot
    rw [hframe w hnot.1]
    exact hs.unmapped w hlow hlt hnot.2

theorem Spare.mallocPage_exists (hs : Spare mc m p (n + 1)) :
    ∃ m' a, mallocPage mc m (some p) 1 = some (m', some a) := by
  have hpos : 0 < freeAddresses mc m p := Nat.lt_of_lt_of_le (Nat.succ_pos n) hs.addresses
  obtain ⟨j, hj⟩ := Finset.card_pos.mp hpos
  rw [Finset.mem_filter, Finset.mem_range] at hj
  obtain ⟨hlt, hclear⟩ := hj
  obtain ⟨r, hr⟩ := bitmapScan_one_exists (b := vaddrBitmap mc m (some p)) (i := j)
    (by simp only [vaddrBitmap, vaddrLen]; omega) hclear
  obtain ⟨i, rfl, -, hi, hbelow⟩ := bitmapScan_one hr
  have hle : i ≤ j := by
    by_contra hgt
    rw [hbelow _ (not_le.mp hgt)] at hclear
    cases hclear
  have hfree : ¬Reserved mc m (some p) (0x8048 + i) := by
    rw [Reserved, vaddrStart, Nat.add_sub_cancel_left, hi]
    exact Bool.false_ne_true
  have hfits : Fits mc m (some p) (0x8048 + i) 1 := by
    constructor
    case frames => exact le_trans (Nat.le_add_left 1 n) (hs.frames .user)
    case tables =>
      intro q _
      refine le_trans (Finset.card_filter_le _ _) ?_
      exact le_trans (by simp) (hs.frames .kernel)
    case own =>
      intro w hw
      rw [mem_span] at hw
      exact .inr (by omega)
    case unmapped =>
      intro w hw
      rw [mem_span] at hw
      obtain rfl : w = 0x8048 + i := by omega
      exact hs.unmapped _ (by omega) (by omega) hfree
  obtain ⟨⟨m', r⟩, hm⟩ := mallocPage_iff.mpr ⟨Nat.one_pos, by decide,
    .inr ⟨i, hr, .inr (by rw [vaddrStart]; omega), hfits⟩⟩
  cases r with
  | none =>
    obtain ⟨j, hj, -⟩ := bitmapScan_one (mallocPage_none hm)
    cases hj
  | some a => exact ⟨m', a, hm⟩

theorem Spare.mallocPage {a : ℕ} (hs : Spare mc m p (n + 1))
    (hm : MemoryPages.mallocPage mc m (some p) 1 = some (m', some a)) : Spare mc m' p n := by
  have hg := mallocPage_gained hm
  have hown : a + 1 ≤ 0xc0000 := hg.own.resolve_left (by simp)
  obtain ⟨hn, ⟨hr, -⟩ | ⟨v, m₁, hr, hget, hmap⟩⟩ := mallocPage_cases hm
  · cases hr
  obtain rfl := Option.some.inj hr
  obtain ⟨m₂, m₃, f, hp, ha, hend⟩ := mapPages_succ hmap
  obtain ⟨rfl, -⟩ := Prod.mk.inj (Option.some.inj hend)
  have hpool : ∀ pf, freeFrames mc m₁ pf = freeFrames mc m pf := by
    intro pf
    rcases vaddrGet_cases hget hn with ⟨hr, -⟩ | ⟨i, -, -, -, rfl⟩
    · cases hr
    · exact freeFrames_congr rfl
  refine hs.takes (v := a) (fun pf => ?_) (fun w hlow _ => ?_) (fun w hne => ?_)
  · rw [← hpool]
    exact mapOne_freeFrames (by omega) hp ha pf
  · rw [hg.reserved (some p) w hlow, mem_span]
    simp only [true_and]
    exact or_congr_left (by omega)
  · apply hg.others
    rw [mem_span]
    omega

/-- A pool with a free frame has a page at least. -/
theorem Spare.phySize (hs : Spare mc m p (n + 1)) : pgSize ≤ mc.phySize .user := by
  have hframes : 1 ≤ freeFrames mc m .user := le_trans (Nat.le_add_left 1 n) (hs.frames _)
  have hcard := Finset.card_filter_le (Finset.range (8 * mc.btmpLen .user))
    fun i => bitmapScanTest (poolBitmap mc m .user) i = false
  rw [Finset.card_range] at hcard
  unfold freeFrames at hframes
  unfold Machine.btmpLen at hcard hframes
  unfold Machine.phySize pgSize
  omega

/-- A small request of a process is answered with a block. -/
theorem Spare.sysMalloc_exists (hs : Spare mc h.memory p (n + 1)) (h0 : 0 < size)
    (hsize : size ≤ 1024) : ∃ h' b, sysMalloc mc h (some p) size = some (h', some b) := by
  have hphys : size < mc.phySize .user :=
    Nat.lt_of_le_of_lt hsize (Nat.lt_of_lt_of_le (by decide) hs.phySize)
  have hi := (descIndex_spec hsize).1
  rw [sysMalloc, if_pos ⟨h0, hphys⟩, if_neg (by omega), mallocSmall]
  dsimp only
  split
  · rename_i hl
    obtain ⟨m', a, hp⟩ := hs.mallocPage_exists
    obtain ⟨h₁, r, hn, ht⟩ := newArena_takes hi hl hp
    obtain ⟨b, l, -, hr, -⟩ := takeBlock_cases (show takeBlock _ _ _ = some (r.1, r.2) from ht)
    refine ⟨r.1, b, ?_⟩
    rw [hn, Option.bind_eq_bind, Option.bind_some]
    simp only [if_true, ht, ← hr]
  · rename_i hl
    obtain ⟨b, l, hl⟩ := List.exists_cons_of_ne_nil hl
    exact ⟨_, b, by rw [takeBlock, hl]⟩

/-- Giving a page back takes no frame and no address. -/
theorem Spare.mfreePage {a : ℕ} (hs : Spare mc m p n) (hstart : 0x8048 ≤ a) (hlt : a + 1 ≤ 0xc0000)
    (hm : MemoryPages.mfreePage mc m (some p) a 1 = some m') : Spare mc m' p n := by
  have hlost := mfreePage_lost hm hstart (.inr hlt)
  constructor
  case frames =>
    intro pf
    refine le_trans (hs.frames pf) (Finset.card_le_card fun i hi => ?_)
    obtain ⟨-, first, m₁, -, hu, rfl⟩ := mfreePage_cases hm
    obtain ⟨f, -, -, hend⟩ := unmapPages_succ hu
    obtain rfl := Option.some.inj hend
    rw [Finset.mem_filter] at hi ⊢
    refine ⟨hi.1, ?_⟩
    have hpool : bitmapScanTest (poolBitmap mc (pfree mc m f) pf) i = false := by
      rw [pfree, test_setPool_bitmapSet]
      split
      · rfl
      · exact hi.2
    exact hpool
  case addresses =>
    refine le_trans hs.addresses (Finset.card_le_card fun i hi => ?_)
    rw [Finset.mem_filter, Finset.mem_range] at hi ⊢
    refine ⟨hi.1, ?_⟩
    have hbit := hlost.reserved (some p) (0x8048 + i) (by rw [vaddrStart]; omega)
    simp only [Reserved, vaddrStart, Nat.add_sub_cancel_left, hi.2, Bool.false_eq_true,
      and_false, iff_false, Bool.not_eq_true] at hbit
    exact hbit
  case unmapped =>
    intro w hlow hlt' hnot
    by_cases hin : some p = some p ∧ w ∈ span a 1
    · exact hlost.unmapped w hin.2
    · rw [hlost.others _ w hin]
      apply hs.unmapped w hlow hlt'
      rwa [hlost.reserved (some p) w hlow, not_and, imp_iff_right hin] at hnot

/-- A block takes one frame of each pool and one address at most. -/
theorem lent_spare {kind kind₁ : Layout} {i a k : ℕ} (hs : Spare mc m p (n + 1))
    (hl : Lent mc (some p) m m' kind i a k kind₁) : Spare mc m' p n := by
  cases hl with
  | free _ _ hm => exact hm ▸ hs.mono (Nat.le_succ n)
  | fresh _ _ hp => exact hs.mallocPage hp

theorem sysFree_spare {h' : Heap} {kind : Layout} {live : Live} {i a k : ℕ}
    (hs : Sound mc (some p) h kind live) (ha : kind a = some (.small i))
    (hk : k < blocksPerArena i) (hspare : Spare mc h.memory p n)
    (hf : sysFree mc h (some p) (arena2block a i k) = some h') : Spare mc h'.memory p n := by
  rw [sysFree_small hs ha hk] at hf
  rcases freeSmall_pages hk hf with hm | hm
  · exact hm ▸ hspare
  · exact hspare.mfreePage (hs.core.pages.start a _ ha)
      ((hs.core.pages.own a _ ha).resolve_left (by simp)) hm

end Spare

end HeapLoan
