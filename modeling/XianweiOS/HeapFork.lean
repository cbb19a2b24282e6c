import XianweiOS.HeapSafety
import XianweiOS.ProcessMemory

/-! The heaps of a tree of processes, with the free lists as sequences. A fork copies the arenas with
their headers, which go on naming the descriptors of the parent. -/
namespace HeapFork

open ByteStore HaltingProgram KernelBitmap MemoryPages MemoryHeap HeapInvariant ProcessMemory
open HeapSafety (Unused sound_unused)

/-- What a context sees of the heap does not change. -/
structure SameView (mc : Machine) (c : Ctx) (h h' : Heap) : Prop where
  reserved : ∀ v, vaddrStart c ≤ v →
    (Reserved mc h'.memory c v ↔ Reserved mc h.memory c v)
  frameAt : ∀ v, h'.memory.frameAt c v = h.memory.frameAt c v
  header : h'.header c = h.header c
  freeList : h'.freeList c = h.freeList c

section View

variable {mc : Machine} {c c' : Ctx} {h h' h'' : Heap} {kind : Layout} {live : Live}
  {p q v n size : ℕ}

theorem SameView.refl : SameView mc c h h := ⟨fun _ _ => Iff.rfl, fun _ => rfl, rfl, rfl⟩

theorem SameView.trans (h1 : SameView mc c h h') (h2 : SameView mc c h' h'') :
    SameView mc c h h'' :=
  ⟨fun v hv => (h2.reserved v hv).trans (h1.reserved v hv),
    fun v => (h2.frameAt v).trans (h1.frameAt v), h2.header.trans h1.header,
    h2.freeList.trans h1.freeList⟩

theorem Core.view (hc : Core mc c h kind live) (hv : SameView mc c h h') :
    Core mc c h' kind live := by
  have hcnt : ∀ a i, freeCnt h' c a i = freeCnt h c a i :=
    fun a i => freeCnt_congr fun k _ => by rw [hv.freeList]
  constructor
  case pages => exact hc.pages.congr hv.reserved hv.frameAt
  case small =>
    intro a i ha
    rw [hv.header, hcnt]
    exact hc.small a i ha
  case large =>
    intro a n ha
    rw [hv.header]
    exact hc.large a n ha
  case inherited =>
    intro a ha
    rw [hv.header]
    exact hc.inherited a ha
  case block =>
    intro a i k ha hk
    rw [hv.freeList]
    exact hc.block a i k ha hk
  case free =>
    intro i b hb
    rw [hv.freeList] at hb
    exact hc.free i b hb
  case nodup =>
    intro i
    rw [hv.freeList]
    exact hc.nodup i
  case placed => exact hc.placed

theorem setMemory_view {m : Memory} (hr : ∀ v, vaddrStart c ≤ v →
    (Reserved mc m c v ↔ Reserved mc h.memory c v))
    (hf : ∀ v, m.frameAt c v = h.memory.frameAt c v) : SameView mc c h (h.setMemory m) :=
  ⟨hr, hf, rfl, rfl⟩

theorem gained_view {m : Memory} {a : ℕ} (hc : c' ≠ c) (hg : Gained mc h.memory m c a n) :
    SameView mc c' h (h.setMemory m) := by
  refine setMemory_view (fun v hv => ?_) fun v => hg.others c' v fun hh => hc hh.1
  rw [hg.reserved c' v hv]
  exact or_iff_right fun hh => hc hh.1

theorem setHeader_view {a : ℕ} (hc : c' ≠ c) (e : Arena) :
    SameView mc c' h (h.setHeader c a e) := by
  refine ⟨fun _ _ => Iff.rfl, fun _ => rfl, ?_, rfl⟩
  funext b
  rw [setHeader_header, if_neg fun hh => hc hh.1]

theorem clearPages_view {a : ℕ} (hc : c' ≠ c) : SameView mc c' h (h.clearPages c a n) := by
  refine ⟨fun _ _ => Iff.rfl, fun _ => rfl, ?_, rfl⟩
  funext b
  exact clearPages_header fun hh => hc hh.1

theorem setFreeList_view {i : ℕ} (hc : c' ≠ c) (l : List ℕ) :
    SameView mc c' h (h.setFreeList c i l) := by
  refine ⟨fun _ _ => Iff.rfl, fun _ => rfl, rfl, ?_⟩
  funext j
  rw [setFreeList_list, if_neg fun hh => hc hh.1]

theorem takeBlock_view {i : ℕ} {r : Option ℕ} (hc : c' ≠ c)
    (ht : takeBlock h c i = some (h', r)) : SameView mc c' h h' := by
  obtain ⟨b, l, -, -, rfl⟩ := takeBlock_cases ht
  exact (setFreeList_view hc l).trans (setHeader_view hc _)

/-- Other contexts do not notice an allocation. -/
theorem sysMalloc_view {r : Option ℕ} (hc : c' ≠ c) (hm : sysMalloc mc h c size = some (h', r)) :
    SameView mc c' h h' := by
  unfold sysMalloc at hm
  split at hm
  · split at hm
    · rcases mallocLarge_cases hm with ⟨-, rfl⟩ | ⟨n, m, a, -, -, hp, -, rfl⟩
      · exact .refl
      · exact ((gained_view hc (mallocPage_gained hp)).trans (clearPages_view hc)).trans
          (setHeader_view hc _)
    · rcases mallocSmall_cases hm with ⟨-, rfl⟩ | ⟨-, ht⟩ | ⟨-, h₁, hn, ht⟩
      · exact .refl
      · exact takeBlock_view hc ht
      · refine SameView.trans ?_ (takeBlock_view hc ht)
        rcases newArena_cases hn with ⟨-, rfl⟩ | ⟨m, a, l, -, hp, -, rfl⟩
        · exact .refl
        · exact ((gained_view hc (mallocPage_gained hp)).trans (setHeader_view hc _)).trans
            (setFreeList_view hc l)
  · simp only [Option.some.injEq, Prod.mk.injEq] at hm
    exact hm.1 ▸ .refl

/-- Pages given back by one context are not those of another process. -/
theorem mfreePage_view {m : Memory} (hc : some q ≠ c)
    (hm : mfreePage mc h.memory c v n = some m) : SameView mc (some q) h (h.setMemory m) := by
  refine setMemory_view (fun w _ => reserved_congr (mfreePage_vaddr hm hc)) fun w => ?_
  obtain ⟨-, first, m₁, -, hu, rfl⟩ := mfreePage_cases hm
  rw [vaddrRemove, setVaddr_frameAt]
  refine unmapPages_invariant (fun m₁ => m₁.frameAt (some q) w = h.memory.frameAt (some q) w) ?_
    rfl hu
  intro m₂ u f _ hinv ha _
  rw [pageTablePteRemove_frameAt ha, if_neg, hinv]
  rintro ⟨hhome, -⟩
  unfold home at hhome
  split at hhome
  · cases hhome
  · exact hc hhome

/-- A block freed in an arena of its own context. -/
theorem sysFree_view {ptr : ℕ} (hc : some q ≠ c)
    (hown : ∀ o i, (h.header c (block2arena ptr)).desc = some (o, i) → o = c)
    (hf : sysFree mc h c ptr = some h') : SameView mc (some q) h h' := by
  simp only [sysFree, bind_some_iff, assert_eq_some] at hf
  obtain ⟨_, -, hf⟩ := hf
  rcases hdesc : (h.header c (block2arena ptr)).desc with _ | ⟨o, i⟩
  · rw [hdesc] at hf
    split at hf
    · rename_i hnone
      cases hnone
    · simp only [bind_some_iff, Option.pure_def, Option.some.injEq] at hf
      obtain ⟨m, hm, rfl⟩ := hf
      exact mfreePage_view hc hm
    · cases hf
  · obtain rfl := hown o i hdesc
    simp only [hdesc, freeSmall] at hf
    split at hf
    · simp only [bind_some_iff, Option.pure_def, Option.some.injEq] at hf
      obtain ⟨l, -, m, hm, rfl⟩ := hf
      exact ((setHeader_view hc _).trans (setFreeList_view hc l)).trans (mfreePage_view hc hm)
    · obtain rfl := Option.some.inj hf
      exact (setHeader_view hc _).trans (setFreeList_view hc _)

theorem takeBlock_desc {i a : ℕ} {r : Option ℕ} (ht : takeBlock h c i = some (h', r)) :
    (h'.header c a).desc = (h.header c a).desc := by
  obtain ⟨b, l, -, -, rfl⟩ := takeBlock_cases ht
  rw [setHeader_header]
  split
  · rename_i hh
    rw [hh.2]
  · rfl

/-- The arenas that are there keep their descriptors. -/
theorem sysMalloc_desc (hc : Core mc c h kind live) {a : ℕ} {x : Kind} (ha : kind a = some x)
    {r : Option ℕ} (hm : sysMalloc mc h c size = some (h', r)) :
    (h'.header c a).desc = (h.header c a).desc := by
  have hheld := hc.pages.first ha
  unfold sysMalloc at hm
  split at hm
  · split at hm
    · rcases mallocLarge_cases hm with ⟨-, rfl⟩ | ⟨n, m, b, hn, -, hp, -, rfl⟩
      · rfl
      · have hout := not_held_of_gained hc.pages (mallocPage_gained hp) hheld
        rw [setHeader_header, if_neg, clearPages_header fun hh => hout hh.2]
        · rfl
        · rintro ⟨-, rfl⟩
          exact hout ⟨le_refl _, by omega⟩
    · rcases mallocSmall_cases hm with ⟨-, rfl⟩ | ⟨-, ht⟩ | ⟨-, h₁, hn, ht⟩
      · rfl
      · exact takeBlock_desc ht
      · rw [takeBlock_desc ht]
        rcases newArena_cases hn with ⟨-, rfl⟩ | ⟨m, b, l, -, hp, -, rfl⟩
        · rfl
        · have hout := not_held_of_gained hc.pages (mallocPage_gained hp) hheld
          rw [setFreeList_header, setHeader_header, if_neg]
          · rfl
          · rintro ⟨-, rfl⟩
            exact hout ⟨le_refl _, by omega⟩
  · simp only [Option.some.injEq, Prod.mk.injEq] at hm
    rw [hm.1]

theorem sysFree_desc {ptr a : ℕ} (hf : sysFree mc h c ptr = some h') :
    (h'.header c a).desc = (h.header c a).desc := by
  have hset : ∀ e : Arena, e.desc = (h.header c (block2arena ptr)).desc →
      ((h.setHeader c (block2arena ptr) e).header c a).desc = (h.header c a).desc := by
    intro e he
    rw [setHeader_header]
    split
    · rename_i hh
      rw [he, hh.2]
    · rfl
  simp only [sysFree, bind_some_iff, assert_eq_some] at hf
  obtain ⟨_, -, hf⟩ := hf
  split at hf
  · unfold freeSmall at hf
    simp only at hf
    split at hf
    · simp only [bind_some_iff, Option.pure_def, Option.some.injEq] at hf
      obtain ⟨l, -, m, -, rfl⟩ := hf
      exact hset _ rfl
    · obtain rfl := Option.some.inj hf
      exact hset _ rfl
  · simp only [bind_some_iff, Option.pure_def, Option.some.injEq] at hf
    obtain ⟨m, -, rfl⟩ := hf
    rfl
  · cases hf

end View

section Copy

variable {mc : Machine} {k k' : Kernel} {h h' : Heap} {parent child q v : ℕ}

theorem copyPage_view (hv : v < 0xc0000) (hq : q ≠ child)
    (hc : copyPage mc parent child h v = some h') : SameView mc (some q) h h' := by
  have hne : (some q : Ctx) ≠ some child := fun he => hq (Option.some.inj he)
  obtain ⟨m₁, m₂, f, -, hp, ha, rfl⟩ := copyPage_some hc
  refine (setMemory_view (fun w _ => ?_) fun w => ?_).trans (setHeader_view hne _)
  · exact reserved_congr (by rw [pageTableAdd_vaddr ha, palloc_space hp])
  · rw [(pageTableAdd_frameAt ha).2, home_user hv, if_neg fun hh => hne hh.1, palloc_frameAt hp]

theorem copyBodyStack3_view (hq : q ≠ child) (hc : copyBodyStack3 mc parent child h = some h') :
    SameView mc (some q) h h' :=
  copyBodyStack3_invariant (fun h₁ => SameView mc (some q) h h₁)
    (fun _ _ _ hv hi hp => hi.trans (copyPage_view hv hq hp)) .refl hc

theorem getKernelPages_view {n a : ℕ} (hg : getKernelPages mc h n = some (h', some a)) :
    SameView mc (some q) h h' := by
  obtain ⟨m, hm, rfl⟩ := getKernelPages_gained hg
  exact (gained_view (Option.some_ne_none q) (mallocPage_gained hm)).trans
    (clearPages_view (Option.some_ne_none q))

theorem forkPages_view {r : Option ChildPages} (hf : forkPages mc k = some (k', r)) :
    SameView mc (some q) k.heap k'.heap :=
  (forkPages_invariant (fun h => SameView mc (some q) k.heap h)
    (fun _ _ _ _ hi hg => hi.trans (getKernelPages_view hg)) .refl hf).1

/-- The heap of a child before the copy: no free block, the parent's addresses. -/
theorem freshSpace_view {vaddr : Bytes} (hq : q ≠ child) :
    SameView mc (some q) h (Heap.blockDescInit (Heap.freshSpace h child vaddr) child) := by
  have hne : (some q : Ctx) ≠ some child := fun he => hq (Option.some.inj he)
  have hspace : (Heap.blockDescInit (Heap.freshSpace h child vaddr) child).memory.space (some q) =
      h.memory.space (some q) := setSpace_ne _ hne
  constructor
  case reserved => exact fun v _ => reserved_congr (by rw [hspace])
  case frameAt =>
    intro v
    simp only [Memory.frameAt, hspace]
  case header => rfl
  case freeList => exact Function.update_of_ne hne ..

theorem copyProcess_view {buf : ℕ} (hq : q ≠ child)
    (hc : copyProcess mc h parent child buf = some h') : SameView mc (some q) h h' := by
  obtain ⟨h₁, m, hcopy, hm, rfl⟩ := copyProcess_some hc
  exact ((freshSpace_view hq).trans (copyBodyStack3_view hq hcopy)).trans
    (mfreePage_view (Option.some_ne_none q) hm)

/-- The page is in the child as it is in the parent. -/
structure Copied (h : Heap) (parent child v : ℕ) : Prop where
  mapped : ∃ f, h.memory.frameAt (some child) v = some f
  header : h.header (some child) v = h.header (some parent) v

theorem copyPage_copied (hv : v < 0xc0000) (hne : parent ≠ child)
    (hc : copyPage mc parent child h v = some h') : Copied h' parent child v := by
  obtain ⟨m₁, m₂, f, -, hp, ha, rfl⟩ := copyPage_some hc
  constructor
  · refine ⟨f, ?_⟩
    rw [setHeader_memory, setMemory_memory, (pageTableAdd_frameAt ha).2, home_user hv,
      if_pos ⟨rfl, rfl⟩]
  · rw [setHeader_header, if_pos ⟨rfl, rfl⟩, setHeader_header, if_neg]
    · rfl
    · rintro ⟨he, -⟩
      exact hne (Option.some.inj he)

theorem Copied.copyPage {w : ℕ} (hw : Copied h parent child w) (hv : v < 0xc0000)
    (hne : parent ≠ child) (hc : copyPage mc parent child h v = some h') :
    Copied h' parent child w := by
  by_cases hwv : w = v
  · exact hwv ▸ copyPage_copied hv hne hc
  obtain ⟨m₁, m₂, f, -, hp, ha, rfl⟩ := copyPage_some hc
  obtain ⟨g, hg⟩ := hw.mapped
  constructor
  · refine ⟨g, ?_⟩
    rw [setHeader_memory, setMemory_memory, (pageTableAdd_frameAt ha).2, if_neg fun hh => hwv hh.2,
      palloc_frameAt hp, hg]
  · rw [setHeader_header, if_neg fun hh => hwv hh.2, setHeader_header, if_neg fun hh => hwv hh.2]
    exact hw.header

/-- The pages of byte `idxByte` of the bitmap that are in use. -/
def PagesOf (vaddr : Bytes) (idxByte idxBit v : ℕ) : Prop :=
  v = 0x8048 + (idxBit + idxByte * 8) ∧ bitmapMask idxBit &&& vaddr idxByte ≠ 0

theorem copyBit_copied {idxByte idxBit : ℕ} (hb : idxByte < userBtmpLen) (hlt : idxBit < 8)
    (hne : parent ≠ child) (hc : copyBit mc parent child idxByte idxBit h = some h') :
    (∀ v, PagesOf (h.memory.space (some parent)).vaddr idxByte idxBit v →
      Copied h' parent child v) ∧
    (∀ v, Copied h parent child v → Copied h' parent child v) ∧
    (h'.memory.space (some parent)).vaddr = (h.memory.space (some parent)).vaddr := by
  have hlow : 0x8048 + (idxBit + idxByte * 8) < 0xc0000 := by
    have hlen : userBtmpLen = 94199 := rfl
    omega
  unfold copyBit at hc
  split at hc
  · refine ⟨?_, fun v hv => hv.copyPage hlow hne hc, copyPage_vaddr hc⟩
    rintro v ⟨rfl, -⟩
    exact copyPage_copied hlow hne hc
  · rename_i hz
    obtain rfl := Option.some.inj hc
    refine ⟨fun v hv => absurd hv.2 ?_, fun v hv => hv, rfl⟩
    simpa using hz

theorem copyByte_copied {idxByte : ℕ} (hb : idxByte < userBtmpLen) (hne : parent ≠ child)
    (hc : copyByte mc parent child idxByte h = some h') :
    (∀ idxBit < 8, ∀ v, PagesOf (h.memory.space (some parent)).vaddr idxByte idxBit v →
      Copied h' parent child v) ∧
    (∀ v, Copied h parent child v → Copied h' parent child v) ∧
    (h'.memory.space (some parent)).vaddr = (h.memory.space (some parent)).vaddr := by
  unfold copyByte at hc
  split at hc
  · set vaddr := (h.memory.space (some parent)).vaddr with hvaddr
    have hkept : (h'.memory.space (some parent)).vaddr = vaddr :=
      runAll_invariant_mem (fun h₁ => (h₁.memory.space (some parent)).vaddr = vaddr)
        (fun i hi h₁ h₂ hinv hs =>
          ((copyBit_copied hb (List.mem_range.mp hi) hne hs).2.2).trans hinv) rfl hc
    refine ⟨?_, fun v hv => ?_, hkept⟩
    · -- each bit is copied in its turn and not undone by the others
      have heach : ∀ i ∈ List.range 8, i < 8 → ∀ v, PagesOf vaddr idxByte i v →
          Copied h' parent child v := by
        refine runAll_each_mem (fun h₁ => (h₁.memory.space (some parent)).vaddr = vaddr)
          (fun i h₁ => i < 8 → ∀ v, PagesOf vaddr idxByte i v → Copied h₁ parent child v)
          ?_ ?_ ?_ rfl hc
        · exact fun i hi h₁ h₂ hinv hs =>
            ((copyBit_copied hb (List.mem_range.mp hi) hne hs).2.2).trans hinv
        · intro i hi h₁ h₂ hinv hs _ v hv
          exact (copyBit_copied hb (List.mem_range.mp hi) hne hs).1 v (hinv ▸ hv)
        · intro i hi j h₁ h₂ _ hj hs hlt v hv
          exact (copyBit_copied hb (List.mem_range.mp hi) hne hs).2.1 v (hj hlt v hv)
      exact fun i hi v hv => heach i (List.mem_range.mpr hi) hi v hv
    · exact runAll_invariant_mem (fun h₁ => Copied h₁ parent child v)
        (fun i hi h₁ h₂ hinv hs => (copyBit_copied hb (List.mem_range.mp hi) hne hs).2.1 v hinv)
        hv hc
  · rename_i hz
    obtain rfl := Option.some.inj hc
    refine ⟨fun i _ v hv => absurd hv.2 ?_, fun v hv => hv, rfl⟩
    simp only [bne_iff_ne, ne_eq, not_not] at hz
    simp [hz]

theorem copyBodyStack3_copied (hne : parent ≠ child)
    (hc : copyBodyStack3 mc parent child h = some h') (hstart : 0x8048 ≤ v) (hv : v < 0xc0000)
    (hres : Reserved mc h.memory (some parent) v) : Copied h' parent child v := by
  set vaddr := (h.memory.space (some parent)).vaddr with hvaddr
  have hlen : userBtmpLen = 94199 := rfl
  unfold copyBodyStack3 at hc
  have heach : ∀ i ∈ List.range userBtmpLen, ∀ j < 8, ∀ v, PagesOf vaddr i j v →
      Copied h' parent child v := by
    refine runAll_each_mem (fun h₁ => (h₁.memory.space (some parent)).vaddr = vaddr)
      (fun i h₁ => ∀ j < 8, ∀ v, PagesOf vaddr i j v → Copied h₁ parent child v) ?_ ?_ ?_ rfl hc
    · exact fun i hi h₁ h₂ hinv hs =>
        ((copyByte_copied (List.mem_range.mp hi) hne hs).2.2).trans hinv
    · intro i hi h₁ h₂ hinv hs j hj v hv
      exact (copyByte_copied (List.mem_range.mp hi) hne hs).1 j hj v (hinv ▸ hv)
    · intro i hi b h₁ h₂ _ hb hs j hj v hv
      exact (copyByte_copied (List.mem_range.mp hi) hne hs).2.1 v (hb j hj v hv)
  refine heach ((v - 0x8048) / 8) (List.mem_range.mpr (by omega)) ((v - 0x8048) % 8) (by omega) v
    ⟨by omega, ?_⟩
  have hbit : bitmapScanTest ⟨vaddrLen mc (some parent), vaddr⟩ (v - 0x8048) = true := hres
  unfold bitmapScanTest at hbit
  rw [BitVec.and_comm]
  simpa using hbit

theorem copyBodyStack3_freeList (hc : copyBodyStack3 mc parent child h = some h') :
    h'.freeList = h.freeList := by
  refine copyBodyStack3_invariant (fun h₁ => h₁.freeList = h.freeList) ?_ rfl hc
  intro h₁ h₂ v _ hinv hp
  obtain ⟨m₁, m₂, f, -, -, -, rfl⟩ := copyPage_some hp
  exact hinv

/-- The child of a completed copy. -/
theorem copyProcess_child {buf : ℕ} (hne : parent ≠ child)
    (hc : copyProcess mc h parent child buf = some h') :
    (∀ i, h'.freeList (some child) i = []) ∧
    (∀ v, Reserved mc h'.memory (some child) v ↔ Reserved mc h.memory (some parent) v) ∧
    ∀ v, 0x8048 ≤ v → v < 0xc0000 → Reserved mc h.memory (some parent) v →
      (∃ f, h'.memory.frameAt (some child) v = some f) ∧
      h'.header (some child) v = h.header (some parent) v := by
  obtain ⟨h₁, m, hcopy, hm, rfl⟩ := copyProcess_some hc
  set h₀ := Heap.blockDescInit (Heap.freshSpace h child
    (h.memory.space (some parent)).vaddr) child with hh₀
  have hlast := mfreePage_view (h := h₁) (Option.some_ne_none child) hm
  have hparent : SameView mc (some parent) h h₀ := freshSpace_view hne
  refine ⟨fun i => ?_, fun v => ?_, fun v hstart hv hres => ?_⟩
  · rw [hlast.freeList, copyBodyStack3_freeList hcopy, hh₀]
    simp [Heap.blockDescInit]
  · have hvaddr : (m.space (some child)).vaddr = (h.memory.space (some parent)).vaddr := by
      rw [mfreePage_vaddr hm (Option.some_ne_none child), copyBodyStack3_vaddr hcopy, hh₀]
      simp [Heap.blockDescInit, Heap.freshSpace]
    simp only [Reserved, vaddrBitmap, setMemory_memory, hvaddr]
    rfl
  · have hcopied := copyBodyStack3_copied hne hcopy hstart hv ((hparent.reserved v hstart).mpr hres)
    have hold : SameView mc (some parent) h₀ h₁ := copyBodyStack3_view hne hcopy
    obtain ⟨f, hf⟩ := hcopied.mapped
    refine ⟨⟨f, (hlast.frameAt v).trans hf⟩, ?_⟩
    rw [hlast.header, hcopied.header, hold.header, hparent.header]

/-- A pid in use stays in use, also when the fork fails behind `allocate_pid`. -/
theorem forkPages_keeps {r : Option ChildPages} {i : ℕ} (hf : forkPages mc k = some (k', r))
    (hi : bitmapScanTest (pidBitmap k.pidBits) i = true) :
    bitmapScanTest (pidBitmap k'.pidBits) i = true := by
  simp only [forkPages, bind_some_iff] at hf
  obtain ⟨⟨h₁, r₁⟩, -, hf⟩ := hf
  cases r₁ with
  | none =>
    simp only [Option.pure_def, Option.some.injEq, Prod.mk.injEq] at hf
    exact hf.1 ▸ hi
  | some pcb =>
    simp only [bind_some_iff] at hf
    obtain ⟨⟨h₂, r₂⟩, -, hf⟩ := hf
    cases r₂ with
    | none =>
      simp only [Option.pure_def, Option.some.injEq, Prod.mk.injEq] at hf
      exact hf.1 ▸ hi
    | some buf =>
      simp only [bind_some_iff] at hf
      obtain ⟨⟨bits, pid⟩, hpid, ⟨h₃, r₃⟩, -, hf⟩ := hf
      have hkeep := allocatePid_keeps hpid hi
      cases r₃ with
      | none =>
        simp only [Option.pure_def, Option.some.injEq, Prod.mk.injEq] at hf
        exact hf.1 ▸ hkeep
      | some bitmap =>
        simp only [bind_some_iff] at hf
        obtain ⟨⟨h₄, r₄⟩, -, hf⟩ := hf
        cases r₄ with
        | none =>
          simp only [Option.pure_def, Option.some.injEq, Prod.mk.injEq] at hf
          exact hf.1 ▸ hkeep
        | some pgdir =>
          simp only [Option.pure_def, Option.some.injEq, Prod.mk.injEq] at hf
          exact hf.1 ▸ hkeep

end Copy

/-- Processes and the allocations each of them holds. -/
structure World where
  kernel : Kernel
  live : ℕ → Live

inductive Call where
  | malloc (p size : ℕ)
  | free (p ptr : ℕ)
  | fork (p : ℕ)
  deriving DecidableEq, Repr

/-- A child holds what its parent held. -/
def step (mc : Machine) : Call → World → Option World
  | .malloc p size, w => do
    assert (∃ r ∈ w.kernel.proc p, r.hanging = false)
    let (h, r) ← sysMalloc mc w.kernel.heap (some p) size
    return ⟨w.kernel.setHeap h, Function.update w.live p (allocated (w.live p) size r)⟩
  | .free p ptr, w => do
    assert (∃ r ∈ w.kernel.proc p, r.hanging = false)
    let h ← sysFree mc w.kernel.heap (some p) ptr
    return ⟨w.kernel.setHeap h, Function.update w.live p (Function.update (w.live p) ptr none)⟩
  | .fork p, w => do
    let (k, r) ← sysFork mc w.kernel p
    match r with
    | none => return ⟨k, w.live⟩
    | some q => return ⟨k, Function.update w.live q (w.live p)⟩

/-- A process frees what it holds, and no block of an arena that was there when it was forked:
its header still names the descriptor of the process that made it. -/
def FreesOwn : Call → World → Prop
  | .free p ptr, w => w.live p ptr ≠ none ∧
      ∀ o i, (w.kernel.heap.header (some p) (block2arena ptr)).desc = some (o, i) → o = some p
  | _, _ => True

def Running (k : Kernel) (p : ℕ) : Prop := ∃ r ∈ k.proc p, r.hanging = false

/-- The blocks on the lists of a process are free in its own address space. -/
def Isolated (w : World) : Prop :=
  ∀ p, Running w.kernel p → ∀ i, ∀ b ∈ w.kernel.heap.freeList (some p) i,
    w.live p b = none ∧ (∃ f, w.kernel.heap.memory.frameAt (some p) (block2arena b) = some f) ∧
    (w.kernel.heap.header (some p) (block2arena b)).desc = some (some p, i)

/-- The heaps of all processes, with the pids in use. -/
structure Separate (mc : Machine) (w : World) (kinds : ℕ → Layout) : Prop where
  sound : ∀ p, Running w.kernel p → Sound mc (some p) w.kernel.heap (kinds p) (w.live p)
  owner : ∀ p a o i, Running w.kernel p → kinds p a = some .inherited →
    (w.kernel.heap.header (some p) a).desc = some (o, i) → ∃ q, o = some q ∧ Running w.kernel q
  pid : ∀ p, Running w.kernel p →
    ∃ i, p = i + 1 ∧ bitmapScanTest (pidBitmap w.kernel.pidBits) i = true

section Runs

variable {mc : Machine} {w w' : World} {kinds : ℕ → Layout} {p q size ptr : ℕ}

theorem Separate.isolated (hs : Separate mc w kinds) : Isolated w := by
  intro p hp i b hb
  have hc := (hs.sound p hp).core
  obtain ⟨a, k, ha, hk, rfl⟩ := hc.free i b hb
  rw [block2arena_arena2block hk]
  exact ⟨(hc.block a i k ha hk).mp hb, (hc.pages.held a (hc.pages.first ha)).2, (hc.small a i ha).1⟩

/-- A call of one process that leaves the view of the others alone. -/
theorem Separate.own_call (hs : Separate mc w kinds) {h : Heap} {live : Live}
    (hview : ∀ q ≠ p, SameView mc (some q) w.kernel.heap h)
    (hm : Moves mc (some p) w.kernel.heap h (kinds p) live)
    (hhead : ∀ a o i, kinds p a = some .inherited →
      (h.header (some p) a).desc = some (o, i) →
      (w.kernel.heap.header (some p) a).desc = some (o, i)) :
    ∃ kinds', Separate mc ⟨w.kernel.setHeap h, Function.update w.live p live⟩ kinds' := by
  obtain ⟨kind', hsound, -, hinh⟩ := hm
  refine ⟨Function.update kinds p kind', ?_, ?_, hs.pid⟩
  · intro q hq
    by_cases hqp : q = p
    · subst q
      simp only [Function.update_self]
      exact hsound
    · simp only [Function.update_of_ne hqp]
      exact ⟨Core.view (hs.sound q hq).core (hview q hqp), (hs.sound q hq).busy⟩
  · intro q a o i hq ha hdesc
    by_cases hqp : q = p
    · subst q
      rw [Function.update_self] at ha
      have hold := hinh a ha
      exact hs.owner p a o i hq hold (hhead a o i hold hdesc)
    · rw [Function.update_of_ne hqp] at ha
      have hv := (hview q hqp).header
      change (h.header (some q) a).desc = some (o, i) at hdesc
      rw [hv] at hdesc
      exact hs.owner q a o i hq ha hdesc

theorem Separate.malloc (hs : Separate mc w kinds)
    (hstep : step mc (.malloc p size) w = some w') : ∃ kinds', Separate mc w' kinds' := by
  simp only [step, bind_some_iff, assert_eq_some, Option.pure_def, Option.some.injEq] at hstep
  obtain ⟨_, hp, ⟨h, r⟩, hm, rfl⟩ := hstep
  refine hs.own_call (fun q hq => ?_) (sysMalloc_moves (hs.sound p hp) hm) ?_
  · exact sysMalloc_view (fun he => hq (Option.some.inj he)) hm
  · intro a o i ha hdesc
    rwa [sysMalloc_desc (hs.sound p hp).core ha hm] at hdesc

theorem Separate.free (hs : Separate mc w kinds) (hok : FreesOwn (.free p ptr) w)
    (hstep : step mc (.free p ptr) w = some w') : ∃ kinds', Separate mc w' kinds' := by
  simp only [step, bind_some_iff, assert_eq_some, Option.pure_def, Option.some.injEq] at hstep
  obtain ⟨_, hp, h, hf, rfl⟩ := hstep
  refine hs.own_call (fun q hq => ?_) (sysFree_moves (hs.sound p hp) hok.1 hok.2 hf) ?_
  · exact sysFree_view (fun he => hq (Option.some.inj he)) hok.2 hf
  · intro a o i _ hdesc
    rwa [sysFree_desc hf] at hdesc

/-- The arenas of a parent as its child has them. -/
def inherit (kind : Layout) : Layout := fun a => (kind a).map fun
  | .small _ => .inherited
  | .large n => .large n
  | .inherited => .inherited

theorem inherit_cases {kind : Layout} {a : ℕ} {x : Kind} (ha : inherit kind a = some x) :
    ∃ y, kind a = some y ∧ x.pages = y.pages ∧
      ((x = .inherited ∧ ((∃ i, y = .small i) ∨ y = .inherited)) ∨ ∃ n, x = .large n ∧ y = x) := by
  obtain ⟨y, hy, rfl⟩ := Option.map_eq_some_iff.mp ha
  refine ⟨y, hy, ?_⟩
  cases y with
  | small i => exact ⟨rfl, .inl ⟨rfl, .inl ⟨i, rfl⟩⟩⟩
  | large n => exact ⟨rfl, .inr ⟨n, rfl, rfl⟩⟩
  | inherited => exact ⟨rfl, .inl ⟨rfl, .inr rfl⟩⟩

theorem held_inherit {kind : Layout} {v : ℕ} (hv : Held (inherit kind) v) : Held kind v := by
  obtain ⟨a, x, ha, hin⟩ := hv
  obtain ⟨y, hy, hpages, -⟩ := inherit_cases ha
  exact ⟨a, y, hy, hpages ▸ hin⟩

theorem placed_inherit {kind : Layout} (hp : Placed kind ptr size) :
    Placed (inherit kind) ptr size := by
  cases hp with
  | small a i k ha hk he hfit =>
    refine .inherited ?_
    rw [he, block2arena_arena2block hk, inherit, ha]
    rfl
  | large a n ha he hfit =>
    refine .large a n ?_ he hfit
    rw [inherit, ha]
    rfl
  | inherited ha =>
    refine .inherited ?_
    rw [inherit, ha]
    rfl

theorem pages_inherit {kind : Layout} {h h' : Heap} {parent child buf : ℕ}
    (hp : Pages mc (some parent) h.memory kind) (hne : parent ≠ child)
    (hc : copyProcess mc h parent child buf = some h') :
    Pages mc (some child) h'.memory (inherit kind) := by
  obtain ⟨-, hres, hcopied⟩ := copyProcess_child hne hc
  constructor
  case pos =>
    intro a x ha
    obtain ⟨y, hy, hpages, -⟩ := inherit_cases ha
    exact hpages ▸ hp.pos a y hy
  case start =>
    intro a x ha
    obtain ⟨y, hy, -⟩ := inherit_cases ha
    exact hp.start a y hy
  case own =>
    intro a x ha
    obtain ⟨y, hy, hpages, -⟩ := inherit_cases ha
    exact .inr (hpages ▸ (hp.own a y hy).resolve_left (Option.some_ne_none parent))
  case apart =>
    intro a b x x' v ha hb hva hvb
    obtain ⟨y, hy, hpages, -⟩ := inherit_cases ha
    obtain ⟨y', hy', hpages', -⟩ := inherit_cases hb
    exact hp.apart a b y y' v hy hy' (hpages ▸ hva) (hpages' ▸ hvb)
  case held =>
    intro v hv
    have hold := held_inherit hv
    obtain ⟨a, y, hy, hin⟩ := hold
    have hhigh := (hp.own a y hy).resolve_left (Option.some_ne_none parent)
    have hlow : 0x8048 ≤ v := held_start hp (held_inherit hv)
    have hr := (hp.held v (held_inherit hv)).1
    rw [mem_span] at hin
    exact ⟨(hres v).mpr hr, (hcopied v hlow (by omega) hr).1⟩

/-- The heap of a child: every small arena is its parent's or came to the parent that way. -/
theorem child_sound {kind : Layout} {live : Live} {h h' : Heap} {parent child buf : ℕ}
    (hs : Sound mc (some parent) h kind live) (hne : parent ≠ child)
    (howner : ∀ a o i, kind a = some .inherited →
      (h.header (some parent) a).desc = some (o, i) → o ≠ some child)
    (hc : copyProcess mc h parent child buf = some h') :
    Sound mc (some child) h' (inherit kind) live := by
  obtain ⟨hempty, -, hcopied⟩ := copyProcess_child hne hc
  have hpages := hs.core.pages
  have hnosmall : ∀ a i, inherit kind a ≠ some (.small i) := by
    intro a i ha
    obtain ⟨y, -, -, ⟨hx, -⟩ | ⟨n, hx, -⟩⟩ := inherit_cases ha
    · cases hx
    · cases hx
  have hlarge : ∀ a n, inherit kind a = some (.large n) → kind a = some (.large n) := by
    intro a n ha
    obtain ⟨y, hy, -, ⟨hx, -⟩ | ⟨l, -, hyx⟩⟩ := inherit_cases ha
    · cases hx
    · exact hyx ▸ hy
  have hheader : ∀ a x, kind a = some x →
      h'.header (some child) a = h.header (some parent) a := by
    intro a x ha
    have hheld := hpages.first ha
    have hhigh := (hpages.own a x ha).resolve_left (Option.some_ne_none parent)
    have hpos := hpages.pos a x ha
    exact (hcopied a (held_start hpages hheld) (by omega) (hpages.held a hheld).1).2
  refine ⟨?_, ?_⟩
  · constructor
    case pages => exact pages_inherit hpages hne hc
    case small => exact fun a i ha => absurd ha (hnosmall a i)
    case large =>
      intro a n ha
      rw [hheader a _ (hlarge a n ha)]
      exact hs.core.large a n (hlarge a n ha)
    case inherited =>
      intro a ha
      obtain ⟨y, hy, -, ⟨-, ⟨i, rfl⟩ | rfl⟩ | ⟨n, hx, -⟩⟩ := inherit_cases ha
      · refine ⟨some parent, i, ?_, fun he => hne (Option.some.inj he)⟩
        rw [hheader a _ hy]
        exact (hs.core.small a i hy).1
      · obtain ⟨o, i, hdesc, -⟩ := hs.core.inherited a hy
        refine ⟨o, i, ?_, howner a o i hy hdesc⟩
        rw [hheader a _ hy]
        exact hdesc
      · cases hx
    case block => exact fun a i k ha => absurd ha (hnosmall a i)
    case free =>
      intro i b hb
      rw [hempty i] at hb
      cases hb
    case nodup =>
      intro i
      rw [hempty i]
      exact List.nodup_nil
    case placed => exact fun ptr size hptr => placed_inherit (hs.core.placed ptr size hptr)
  · exact ⟨fun a i ha => absurd ha (hnosmall a i),
      fun a n ha => hs.busy.large a n (hlarge a n ha)⟩

theorem Separate.fork_failed (hs : Separate mc w kinds) {k : Kernel}
    (hf : forkPages mc w.kernel = some (k, none)) : Separate mc ⟨k, w.live⟩ kinds := by
  have hview : ∀ q, SameView mc (some q) w.kernel.heap k.heap := fun q => forkPages_view hf
  have hproc : k.proc = w.kernel.proc :=
    (forkPages_invariant (fun _ => True) (fun _ _ _ _ _ _ => trivial) trivial hf).2
  have hold : ∀ p, Running k p → Running w.kernel p := by
    intro p hp
    rwa [Running, hproc] at hp
  constructor
  case sound =>
    intro p hp
    have hsp := hs.sound p (hold p hp)
    exact ⟨Core.view hsp.core (hview p), hsp.busy⟩
  case owner =>
    intro p a o i hp ha hdesc
    rw [(hview p).header] at hdesc
    obtain ⟨q, hq, hrun⟩ := hs.owner p a o i (hold p hp) ha hdesc
    refine ⟨q, hq, ?_⟩
    rwa [Running, hproc]
  case pid =>
    intro p hp
    obtain ⟨i, hi, hbit⟩ := hs.pid p (hold p hp)
    exact ⟨i, hi, forkPages_keeps hf hbit⟩

theorem Separate.forked (hs : Separate mc w kinds) {k : Kernel} {child : ℕ}
    (hf : sysFork mc w.kernel p = some (k, some child)) :
    ∃ kinds', Separate mc ⟨k, Function.update w.live child (w.live p)⟩ kinds' := by
  obtain ⟨k₁, q, h₁, hp, hpages, hcopy, rfl, rfl⟩ := sysFork_some hf
  obtain ⟨_, _, _, ht⟩ := forkPages_some hpages
  obtain ⟨n, hpid, hclear, hbits⟩ := allocatePid_some ht.gotPid
  have hproc := ht.proc
  -- the pid of the child was free
  have hnew : ∀ r, Running w.kernel r → r ≠ q.pid := by
    rintro r hr rfl
    obtain ⟨i, hi, hbit⟩ := hs.pid q.pid hr
    obtain rfl : i = n := by omega
    rw [hclear] at hbit
    cases hbit
  have hold : ∀ r, r ≠ q.pid → Running ((k₁.setHeap h₁).setProc q.pid
      (some ⟨q.pcb, q.pgdir, q.bitmap, p, false⟩)) r → Running w.kernel r := by
    intro r hr hrun
    rw [Running, Kernel.setProc_ne _ _ hr] at hrun
    rwa [Running, ← hproc]
  have hkeep : ∀ r, Running w.kernel r → Running ((k₁.setHeap h₁).setProc q.pid
      (some ⟨q.pcb, q.pgdir, q.bitmap, p, false⟩)) r := by
    intro r hr
    rw [Running, Kernel.setProc_ne _ _ (hnew r hr)]
    rwa [Running, ← hproc] at hr
  have hview : ∀ r, r ≠ q.pid → SameView mc (some r) w.kernel.heap h₁ :=
    fun r hr => (forkPages_view hpages).trans (copyProcess_view hr hcopy)
  have hparent : SameView mc (some p) w.kernel.heap k₁.heap := forkPages_view hpages
  have hsp := hs.sound p hp
  have hchild : Sound mc (some q.pid) h₁ (inherit (kinds p)) (w.live p) := by
    refine child_sound ⟨Core.view hsp.core hparent, hsp.busy⟩ (hnew p hp) ?_ hcopy
    rintro a o i ha hdesc rfl
    rw [hparent.header] at hdesc
    obtain ⟨r, hr, hrun⟩ := hs.owner p a _ i hp ha hdesc
    exact hnew r hrun (Option.some.inj hr).symm
  refine ⟨Function.update kinds q.pid (inherit (kinds p)), ?_, ?_, ?_⟩
  · intro r hrun
    by_cases hr : r = q.pid
    · subst r
      simp only [Function.update_self]
      exact hchild
    · simp only [Function.update_of_ne hr]
      have hsr := hs.sound r (hold r hr hrun)
      exact ⟨Core.view hsr.core (hview r hr), hsr.busy⟩
  · intro r a o i hrun ha hdesc
    change (h₁.header (some r) a).desc = some (o, i) at hdesc
    by_cases hr : r = q.pid
    · subst r
      rw [Function.update_self] at ha
      obtain ⟨y, hy, -, hxy⟩ := inherit_cases ha
      have hheld := hsp.core.pages.first hy
      have hstart := held_start hsp.core.pages hheld
      have hhigh := (hsp.core.pages.own a y hy).resolve_left (Option.some_ne_none p)
      have hpos := hsp.core.pages.pos a y hy
      have hres := (hparent.reserved a hstart).mpr (hsp.core.pages.held a hheld).1
      rw [((copyProcess_child (hnew p hp) hcopy).2.2 a hstart (by omega) hres).2,
        hparent.header] at hdesc
      obtain ⟨-, ⟨j, rfl⟩ | rfl⟩ | ⟨l, hx, -⟩ := hxy
      · rw [(hsp.core.small a j hy).1] at hdesc
        obtain ⟨rfl, -⟩ := Prod.mk.inj (Option.some.inj hdesc)
        exact ⟨p, rfl, hkeep p hp⟩
      · obtain ⟨r, hr, hrun'⟩ := hs.owner p a o i hp hy hdesc
        exact ⟨r, hr, hkeep r hrun'⟩
      · cases hx
    · rw [Function.update_of_ne hr] at ha
      rw [(hview r hr).header] at hdesc
      obtain ⟨s, hs', hrun'⟩ := hs.owner r a o i (hold r hr hrun) ha hdesc
      exact ⟨s, hs', hkeep s hrun'⟩
  · intro r hrun
    by_cases hr : r = q.pid
    · refine ⟨n, hr.trans hpid, ?_⟩
      change bitmapScanTest (pidBitmap k₁.pidBits) n = true
      rw [hbits n, if_pos rfl]
    · obtain ⟨i, hi, hbit⟩ := hs.pid r (hold r hr hrun)
      exact ⟨i, hi, allocatePid_keeps ht.gotPid hbit⟩

theorem Separate.fork (hs : Separate mc w kinds) (hstep : step mc (.fork p) w = some w') :
    ∃ kinds', Separate mc w' kinds' := by
  simp only [step, bind_some_iff] at hstep
  obtain ⟨⟨k, r⟩, hf, hstep⟩ := hstep
  cases r with
  | none =>
    obtain rfl := Option.some.inj hstep
    exact ⟨kinds, hs.fork_failed (sysFork_none hf)⟩
  | some child =>
    obtain rfl := Option.some.inj hstep
    exact hs.forked hf

/-- One process, before its first allocation. -/
structure Fresh (w : World) (root : ℕ) : Prop where
  only : ∀ p, Running w.kernel p → p = root
  pid : ∃ i, root = i + 1 ∧ bitmapScanTest (pidBitmap w.kernel.pidBits) i = true
  unused : Unused w.kernel.heap (some root)
  live : ∀ ptr, w.live root ptr = none

theorem Fresh.separate {root : ℕ} (hf : Fresh w root) : Separate mc w fun _ _ => none := by
  constructor
  case sound =>
    intro p hp
    obtain rfl := hf.only p hp
    have hnone : w.live p = fun _ => none := funext hf.live
    rw [hnone]
    exact sound_unused hf.unused
  case owner =>
    intro p a o i _ ha
    cases ha
  case pid =>
    intro p hp
    obtain rfl := hf.only p hp
    exact hf.pid

theorem step_separate {call : Call} (hs : ∃ kinds, Separate mc w kinds) (hok : FreesOwn call w)
    (hstep : step mc call w = some w') : ∃ kinds, Separate mc w' kinds := by
  obtain ⟨kinds, hs⟩ := hs
  cases call with
  | malloc p size => exact hs.malloc hstep
  | free p ptr => exact hs.free hok hstep
  | fork p => exact hs.fork hstep

end Runs

end HeapFork
