import XianweiOS.FrameExclusive
import Mathlib.Data.Finset.Card

/-! Enough free frames for a fork. `palloc` halts on a full pool, so that a fork returns only if the
pages of the parent and the second-level tables of the child find room. -/
namespace ForkRoom

open ByteStore HaltingProgram KernelBitmap MemoryPages MemoryHeap ProcessMemory

/-- The free frames of a pool. -/
def freeFrames (mc : Machine) (m : Memory) (pf : PoolFlag) : ℕ :=
  ((Finset.range (8 * mc.btmpLen pf)).filter
    fun i => bitmapScanTest (poolBitmap mc m pf) i = false).card

/-- The pages that have a bit, in the order `copy_body_stack_3` comes to them. -/
def pagesOf (vaddr : Bytes) : List ℕ :=
  (List.range userBtmpLen).flatMap fun j => (List.range 8).flatMap fun i =>
    if bitmapMask i &&& vaddr j != 0 then [0x8048 + (i + j * 8)] else []

/-- The second-level tables that pages still need. -/
def missing (m : Memory) (p : ℕ) (pages : List ℕ) : Finset ℕ :=
  (pages.map (· / 1024)).toFinset.filter fun k => (m.space (some p)).tablePresent k = false

/-- Pages that a context may map: those of a process, and the kernel's above the low megabyte. -/
def Mappable (c : Ctx) (v : ℕ) : Prop := v < 0xc0000 ∨ (c = none ∧ 0xc0100 ≤ v)

section Pools

variable {mc : Machine} {m m' : Memory} {c : Ctx} {pf pf' : PoolFlag} {v f : ℕ}

theorem palloc_exists (pf : PoolFlag) (hfree : 0 < freeFrames mc m pf) :
    ∃ m' f, palloc mc m pf = some (m', some f) := by
  obtain ⟨i, hi⟩ := Finset.card_pos.mp hfree
  rw [Finset.mem_filter, Finset.mem_range] at hi
  obtain ⟨r, hr⟩ := bitmapScan_one_exists (b := poolBitmap mc m pf) hi.1 hi.2
  obtain ⟨j, rfl, -⟩ := bitmapScan_one hr
  refine ⟨m.setPool pf (bitmapSet (poolBitmap mc m pf) j true).bits, mc.phyStart pf + j, ?_⟩
  simp only [palloc, hr, Option.bind_eq_bind, Option.bind_some, Option.pure_def]

theorem palloc_freeFrames {r : Option ℕ} (hp : palloc mc m pf = some (m', r)) :
    freeFrames mc m' pf + 1 = freeFrames mc m pf ∧
      ∀ pf', pf' ≠ pf → freeFrames mc m' pf' = freeFrames mc m pf' := by
  obtain ⟨i, -, hi, hclear, rfl⟩ := palloc_some hp
  constructor
  · have hin : i ∈ (Finset.range (8 * mc.btmpLen pf)).filter
        fun i => bitmapScanTest (poolBitmap mc m pf) i = false :=
      Finset.mem_filter.mpr ⟨Finset.mem_range.mpr hi, hclear⟩
    have herase : (Finset.range (8 * mc.btmpLen pf)).filter (fun j => bitmapScanTest (poolBitmap mc
        (m.setPool pf (bitmapSet (poolBitmap mc m pf) i true).bits) pf) j = false) =
        ((Finset.range (8 * mc.btmpLen pf)).filter
          fun i => bitmapScanTest (poolBitmap mc m pf) i = false).erase i := by
      ext j
      rw [Finset.mem_filter, Finset.mem_erase, Finset.mem_filter, test_setPool_bitmapSet]
      by_cases hj : j = i <;> simp [hj]
    rw [freeFrames, herase, Finset.card_erase_add_one hin, freeFrames]
  · intro pf' hpf
    unfold freeFrames
    congr 1
    ext j
    rw [Finset.mem_filter, Finset.mem_filter, test_setPool_bitmapSet]
    simp [hpf]

theorem freeFrames_congr (hp : m'.pool = m.pool) : freeFrames mc m' pf = freeFrames mc m pf := by
  have hb : poolBitmap mc m' pf = poolBitmap mc m pf := by rw [poolBitmap, hp, poolBitmap]
  unfold freeFrames
  rw [hb]

theorem Mappable.home (hv : Mappable c v) : home c v = c := by
  rcases hv with hv | ⟨rfl, -⟩
  · exact home_user hv
  · exact home_none

theorem Mappable.not_low (hv : Mappable c v) : ¬(0xc0000 ≤ v ∧ v < 0xc0100) := by
  rcases hv with hv | ⟨-, hv⟩ <;> omega

/-- A page is mapped where it was not, if its table is there or a frame for it. -/
theorem pageTableAdd_exists (f : ℕ) (hv : Mappable c v) (hnone : m.frameAt c v = none)
    (hroom : (m.space c).tablePresent (v / 1024) = false → 0 < freeFrames mc m .kernel) :
    ∃ m', pageTableAdd mc m c v f = some m' := by
  have hhome : home c v = c := hv.home
  have hlow : decide (0xc0000 ≤ v ∧ v < 0xc0100) = false := decide_eq_false_iff_not.mpr hv.not_low
  simp only [pageTableAdd, hhome]
  split
  · rename_i ht
    have hpte : (m.space c).ptePresent v = false := by
      by_contra hp
      rw [Bool.not_eq_false, Space.ptePresent, hlow, Bool.false_or] at hp
      simp [Memory.frameAt, ht, hp] at hnone
    exact ⟨m.setPte c v ⟨f, true⟩, by simp only [hpte, Bool.not_false, assert_pos,
      Option.bind_eq_bind, Option.bind_some, Option.pure_def]⟩
  · rename_i ht
    obtain ⟨m₁, t, hp⟩ := palloc_exists .kernel (hroom (by simpa using ht))
    have hpte : ((m₁.setTable c (v / 1024) t).space c).ptePresent v = false := by
      simp [Space.ptePresent, hlow, setTable_space]
    refine ⟨(m₁.setTable c (v / 1024) t).setPte c v ⟨f, true⟩, ?_⟩
    simp only [hp, Option.getD_some, hpte, Bool.not_false, assert_pos, Option.bind_eq_bind,
      Option.bind_some, Option.pure_def]

theorem pageTableAdd_tables (hv : Mappable c v) (ha : pageTableAdd mc m c v f = some m') (k : ℕ) :
    (m'.space c).tablePresent k = (decide (k = v / 1024) || (m.space c).tablePresent k) := by
  have hhome : home c v = c := hv.home
  obtain ⟨-, ⟨ht, -, rfl⟩ | ⟨-, m₁, t, hp, rfl⟩⟩ := pageTableAdd_cases ha
  · rw [hhome] at ht ⊢
    rw [setPte_tablePresent]
    by_cases hk : k = v / 1024
    · rw [hk, ht, Bool.or_true]
    · rw [decide_eq_false hk, Bool.false_or]
  · rw [hhome, setPte_tablePresent]
    by_cases hk : k = v / 1024
    · rw [hk, setTable_present, decide_eq_true rfl, Bool.true_or]
    · rw [decide_eq_false hk, Bool.false_or]
      simp only [Space.tablePresent, setTable_pde, hk, and_false, if_false, palloc_space hp]

/-- Only a new table takes a frame, one of the kernel's. -/
theorem pageTableAdd_freeFrames (hv : Mappable c v) (ha : pageTableAdd mc m c v f = some m') :
    freeFrames mc m' .user = freeFrames mc m .user ∧
      freeFrames mc m .kernel = freeFrames mc m' .kernel +
        if (m.space c).tablePresent (v / 1024) = false then 1 else 0 := by
  have hhome : home c v = c := hv.home
  obtain ⟨-, ⟨ht, -, rfl⟩ | ⟨ht, m₁, t, hp, rfl⟩⟩ := pageTableAdd_cases ha
  · rw [hhome] at ht
    have hm' : ∀ pf, freeFrames mc (m.setPte (home c v) v ⟨f, true⟩) pf = freeFrames mc m pf :=
      fun pf => freeFrames_congr rfl
    rw [ht, if_neg (by simp), hm', hm', Nat.add_zero]
    exact ⟨rfl, rfl⟩
  · rw [hhome] at ht
    obtain ⟨htaken, hother⟩ := palloc_freeFrames hp
    have huser : freeFrames mc m₁ .user = freeFrames mc m .user := hother .user (by simp)
    have hm' : ∀ pf, freeFrames mc ((m₁.setTable (home c v) (v / 1024) t).setPte (home c v) v
        ⟨f, true⟩) pf = freeFrames mc m₁ pf := fun pf => freeFrames_congr rfl
    rw [if_pos ht, hm', hm', huser]
    exact ⟨rfl, htaken.symm⟩

end Pools

/-- Room for the pages that are still to be copied. -/
structure Room (mc : Machine) (parent child : ℕ) (pages : List ℕ) (m : Memory) : Prop where
  distinct : pages.Nodup
  mapped : ∀ v ∈ pages, v < 0xc0000 ∧ ∃ f, m.frameAt (some parent) v = some f
  unmapped : ∀ v ∈ pages, m.frameAt (some child) v = none
  user : pages.length ≤ freeFrames mc m .user
  tables : (missing m child pages).card ≤ freeFrames mc m .kernel

section Copy

variable {mc : Machine} {m m' : Memory} {h h' : Heap} {parent child v : ℕ} {pages : List ℕ}

theorem copyPage_exists (hr : Room mc parent child (v :: pages) h.memory) :
    ∃ h', copyPage mc parent child h v = some h' := by
  obtain ⟨hv, f, hf⟩ := hr.mapped v List.mem_cons_self
  obtain ⟨m₁, g, hp⟩ := palloc_exists .user (lt_of_lt_of_le (by simp) hr.user)
  obtain ⟨-, hkernel⟩ := palloc_freeFrames hp
  obtain ⟨m₂, ha⟩ := pageTableAdd_exists g (.inl hv)
    ((palloc_frameAt hp).trans (hr.unmapped v List.mem_cons_self)) (fun ht => by
      rw [palloc_space hp] at ht
      rw [hkernel .kernel (by simp)]
      refine lt_of_lt_of_le (Finset.card_pos.mpr ⟨v / 1024, ?_⟩) hr.tables
      simp [missing, ht])
  refine ⟨(h.setMemory m₂).setHeader (some child) v (h.header (some parent) v), ?_⟩
  have hsome : (h.memory.frameAt (some parent) v).isSome := Option.isSome_iff_exists.mpr ⟨f, hf⟩
  have hp' : palloc mc h.memory (flagOf (some child)) = some (m₁, some g) := hp
  simp only [copyPage, getAPageWithoutOpvaddrbitmap, hsome, hp', ha, assert_pos,
    Option.bind_eq_bind, Option.bind_some, Option.pure_def]

theorem missing_next (hv : Mappable (some child) v) (ha : pageTableAdd mc m (some child) v f = some m') :
    missing m' child pages ⊆ (missing m child (v :: pages)).erase (v / 1024) := by
  intro k hk
  simp only [missing, Finset.mem_filter, List.mem_toFinset, pageTableAdd_tables hv ha,
    Bool.or_eq_false_iff, decide_eq_false_iff_not] at hk
  obtain ⟨hin, hne, habsent⟩ := hk
  simp only [missing, Finset.mem_erase, Finset.mem_filter, List.mem_toFinset, List.map_cons,
    List.mem_cons]
  exact ⟨hne, .inr hin, habsent⟩

theorem Room.next (hne : child ≠ parent) (hr : Room mc parent child (v :: pages) h.memory)
    (hc : copyPage mc parent child h v = some h') : Room mc parent child pages h'.memory := by
  obtain ⟨m₁, m₂, g, -, hp, ha, rfl⟩ := copyPage_some hc
  have hv : v < 0xc0000 := (hr.mapped v List.mem_cons_self).1
  obtain ⟨hout, hnodup⟩ := List.nodup_cons.mp hr.distinct
  have hframe : ∀ c w, ¬(c = some child ∧ w = v) → m₂.frameAt c w = h.memory.frameAt c w := by
    intro c w hcw
    rw [(pageTableAdd_frameAt ha).2, home_user hv, if_neg hcw, palloc_frameAt hp]
  obtain ⟨huser₁, hkernel₁⟩ := palloc_freeFrames hp
  obtain ⟨huser₂, hkernel₂⟩ := pageTableAdd_freeFrames (.inl hv) ha
  constructor
  case distinct => exact hnodup
  case mapped =>
    intro w hw
    obtain ⟨hlt, f, hf⟩ := hr.mapped w (List.mem_cons_of_mem v hw)
    exact ⟨hlt, f, (hframe _ w fun hh => hne (Option.some.inj hh.1).symm).trans hf⟩
  case unmapped =>
    intro w hw
    refine (hframe _ w ?_).trans (hr.unmapped w (List.mem_cons_of_mem v hw))
    rintro ⟨-, rfl⟩
    exact hout hw
  case user =>
    have hroom := hr.user
    rw [List.length_cons] at hroom
    change pages.length ≤ freeFrames mc m₂ .user
    omega
  case tables =>
    change (missing m₂ child pages).card ≤ freeFrames mc m₂ .kernel
    have hroom := hr.tables
    rw [hkernel₁ .kernel (by simp)] at hkernel₂
    rw [palloc_space hp] at hkernel₂
    have hsub : missing m₂ child pages ⊆
        (missing h.memory child (v :: pages)).erase (v / 1024) := by
      have hm₁ : missing m₁ child (v :: pages) = missing h.memory child (v :: pages) := by
        rw [missing, palloc_space hp, missing]
      exact hm₁ ▸ missing_next (.inl hv) ha
    have hcard := Finset.card_le_card hsub
    split at hkernel₂
    · rename_i habsent
      have hin : v / 1024 ∈ missing h.memory child (v :: pages) := by
        simp [missing, habsent]
      rw [Finset.card_erase_of_mem hin] at hcard
      omega
    · have hle := Finset.card_erase_le (s := missing h.memory child (v :: pages)) (a := v / 1024)
      omega

/-- With room for its pages the copying does not end early. -/
theorem copyPages_exists (hne : child ≠ parent) (hr : Room mc parent child pages h.memory) :
    ∃ h', runAll (fun v h => copyPage mc parent child h v) pages h = some h' := by
  induction pages generalizing h with
  | nil => exact ⟨h, rfl⟩
  | cons v pages ih =>
    obtain ⟨h₁, hc⟩ := copyPage_exists hr
    obtain ⟨h', hrun⟩ := ih (hr.next hne hc)
    exact ⟨h', runAll_cons.mpr ⟨h₁, hc, hrun⟩⟩

end Copy

section Pages

variable {mc : Machine} {h h' : Heap} {parent child v : ℕ} {vaddr : Bytes}

theorem mem_pagesOf : v ∈ pagesOf vaddr ↔ ∃ j < userBtmpLen, ∃ i < 8,
    bitmapMask i &&& vaddr j ≠ 0 ∧ v = 0x8048 + (i + j * 8) := by
  simp only [pagesOf, List.mem_flatMap, List.mem_range]
  constructor
  · rintro ⟨j, hj, i, hi, hv⟩
    split at hv
    · rename_i hbit
      exact ⟨j, hj, i, hi, by simpa using hbit, by simpa using hv⟩
    · cases hv
  · rintro ⟨j, hj, i, hi, hbit, rfl⟩
    refine ⟨j, hj, i, hi, ?_⟩
    rw [if_pos (bne_iff_ne.mpr hbit)]
    exact List.mem_singleton_self _

theorem pagesOf_nodup : (pagesOf vaddr).Nodup := by
  have hbit : ∀ j i w, w ∈ (if bitmapMask i &&& vaddr j != 0 then [0x8048 + (i + j * 8)] else []) →
      w = 0x8048 + (i + j * 8) := by
    intro j i w hw
    split at hw
    · simpa using hw
    · cases hw
  refine List.nodup_flatMap.mpr ⟨fun j _ => List.nodup_flatMap.mpr ⟨fun i _ => ?_, ?_⟩, ?_⟩
  · split
    · exact List.nodup_singleton _
    · exact List.nodup_nil
  · refine List.nodup_range.imp fun {i i'} hne w hw hw' => hne ?_
    have h₁ := hbit j i w hw
    have h₂ := hbit j i' w hw'
    omega
  · refine List.nodup_range.imp fun {j j'} hne w hw hw' => hne ?_
    obtain ⟨i, hi, hwi⟩ := List.mem_flatMap.mp hw
    obtain ⟨i', hi', hwi'⟩ := List.mem_flatMap.mp hw'
    have h₁ := hbit j i w hwi
    have h₂ := hbit j' i' w hwi'
    rw [List.mem_range] at hi hi'
    omega

/-- The two loops over the bitmap go through the pages one by one. -/
theorem copyBodyStack3_pages : copyBodyStack3 mc parent child h =
    runAll (fun v h => copyPage mc parent child h v)
      (pagesOf (h.memory.space (some parent)).vaddr) h := by
  have hkeep : ∀ v t t',
      (t.memory.space (some parent)).vaddr = (h.memory.space (some parent)).vaddr →
      copyPage mc parent child t v = some t' →
      (t'.memory.space (some parent)).vaddr = (h.memory.space (some parent)).vaddr :=
    fun v t t' ht hc => (copyPage_vaddr hc).trans ht
  refine runAll_flatMap _ (fun t => (t.memory.space (some parent)).vaddr =
    (h.memory.space (some parent)).vaddr) hkeep (fun j hj t ht => ?_) rfl
  unfold copyByte
  by_cases hbyte : (t.memory.space (some parent)).vaddr j != 0
  · rw [if_pos hbyte]
    refine runAll_flatMap _ (fun t => (t.memory.space (some parent)).vaddr =
      (h.memory.space (some parent)).vaddr) hkeep (fun i hi u hu => ?_) ht
    unfold copyBit
    rw [hu]
    split
    · exact (bind_pure _).symm
    · rfl
  · have hzero : (h.memory.space (some parent)).vaddr j = 0 := by
      rw [← ht]
      simpa using hbyte
    have hnil : ((List.range 8).flatMap fun i =>
        if bitmapMask i &&& (h.memory.space (some parent)).vaddr j != 0 then
          [0x8048 + (i + j * 8)] else []) = [] := by
      rw [hzero]
      simp
    rw [if_neg hbyte, hnil]
    rfl

end Pages

/-- The kernel pages of the fork are to be had, and the pools then hold a frame for every page of
the parent and for every second-level table the child needs for them. -/
def Enough (mc : Machine) (k : Kernel) (parent : ℕ) : Prop :=
  ∃ k' q, forkPages mc k = some (k', some q) ∧
    (pagesOf (k.heap.memory.space (some parent)).vaddr).length ≤
      freeFrames mc k'.heap.memory .user ∧
    ((pagesOf (k.heap.memory.space (some parent)).vaddr).map (· / 1024)).toFinset.card ≤
      freeFrames mc k'.heap.memory .kernel

section Fork

open FrameExclusive

variable {mc : Machine} {m : Memory} {k k' : Kernel} {h h' : Heap} {parent child v f : ℕ}
  {q : ChildPages}

theorem mfreePage_one_exists {c : Ctx} (hhome : home c v = c) (hlow : mc.phyStart .kernel ≤ f)
    (hf : m.frameAt c v = some f) : ∃ m', mfreePage mc m c v 1 = some m' := by
  have ha : addrV2p m c v = some f := addrV2p_of_mapped (by rw [hhome, hf])
  have hacc : accepts mc f f = true := by
    by_cases huser : mc.phyStart .user ≤ f
    · exact (if_pos huser).trans (decide_eq_true huser)
    · exact (if_neg huser).trans (decide_eq_true ⟨hlow, not_le.mp huser⟩)
  refine ⟨vaddrRemove mc (pageTablePteRemove (pfree mc m f) c v) c v 1, ?_⟩
  simp only [mfreePage, bind_some_iff, assert_eq_some, unmapPages]
  exact ⟨(), le_rfl, f, ha, _, ⟨f, ha, (), hacc, rfl⟩, rfl⟩

/-- With an empty user half the child needs all its tables. -/
theorem room_start {pages : List ℕ} {vaddr : Bytes} (hne : child ≠ parent) (hnodup : pages.Nodup)
    (hmapped : ∀ v ∈ pages, v < 0xc0000 ∧ ∃ f, m.frameAt (some parent) v = some f)
    (huser : pages.length ≤ freeFrames mc m .user)
    (htables : (pages.map (· / 1024)).toFinset.card ≤ freeFrames mc m .kernel) :
    Room mc parent child pages
      (m.setSpace (some child) ⟨vaddr, fun _ => none, fun _ => ⟨0, false⟩⟩) := by
  have hspace : (m.setSpace (some child) ⟨vaddr, fun _ => none, fun _ => ⟨0, false⟩⟩).space
      (some parent) = m.space (some parent) :=
    setSpace_ne _ fun he => hne (Option.some.inj he).symm
  have hfree : ∀ pf, freeFrames mc (m.setSpace (some child)
      ⟨vaddr, fun _ => none, fun _ => ⟨0, false⟩⟩) pf = freeFrames mc m pf :=
    fun pf => freeFrames_congr (setSpace_pool _)
  constructor
  case distinct => exact hnodup
  case mapped =>
    intro v hv
    obtain ⟨hlt, f, hf⟩ := hmapped v hv
    exact ⟨hlt, f, (frameAt_congr (by rw [hspace]) (by rw [hspace])).trans hf⟩
  case unmapped =>
    intro v _
    simp [Memory.frameAt]
  case user =>
    rw [hfree]
    exact huser
  case tables =>
    rw [hfree]
    exact le_trans (Finset.card_le_card (Finset.filter_subset _ _)) htables

theorem forkPages_keeps (parent : ℕ) (hf : forkPages mc k = some (k', some q)) :
    (k'.heap.memory.space (some parent)).vaddr = (k.heap.memory.space (some parent)).vaddr ∧
      ∀ v f, k.heap.memory.frameAt (some parent) v = some f →
        k'.heap.memory.frameAt (some parent) v = some f := by
  obtain ⟨h₁, h₂, h₃, ht⟩ := forkPages_some hf
  refine ⟨?_, fun v f hv => ?_⟩
  · rw [getKernelPages_vaddr ht.gotPgdir, getKernelPages_vaddr ht.gotBitmap,
      getKernelPages_vaddr ht.gotBuf, getKernelPages_vaddr ht.gotPcb]
  · exact gained_keeps (getKernelPages_memory ht.gotPgdir)
      (gained_keeps (getKernelPages_memory ht.gotBitmap)
        (gained_keeps (getKernelPages_memory ht.gotBuf)
          (gained_keeps (getKernelPages_memory ht.gotPcb) hv)))

/-- With enough free frames a fork returns the pid of the child. -/
theorem sysFork_exists (hs : Sound mc k) (hpar : Active k parent) (hpid : ∀ k' q,
      forkPages mc k = some (k', some q) → q.pid ≠ parent)
    (hmapped : ∀ v ∈ pagesOf (k.heap.memory.space (some parent)).vaddr,
      ∃ f, k.heap.memory.frameAt (some parent) v = some f)
    (henough : Enough mc k parent) : ∃ k' child, sysFork mc k parent = some (k', some child) := by
  obtain ⟨k₁, q, hp, huser, htables⟩ := henough
  obtain ⟨hvaddr, hkeep⟩ := forkPages_keeps parent hp
  obtain ⟨hx, -, -, ⟨fb, hfb⟩, -⟩ := forkPages_structures parent hs hp
  have hne := hpid k₁ q hp
  set vaddr := (k₁.heap.memory.space (some parent)).vaddr with hv
  set h₀ := Heap.blockDescInit (Heap.freshSpace k₁.heap q.pid vaddr) q.pid with hh₀
  have hparent : h₀.memory.space (some parent) = k₁.heap.memory.space (some parent) :=
    setSpace_ne _ fun he => hne (Option.some.inj he).symm
  have hroom : Room mc parent q.pid (pagesOf vaddr) h₀.memory := by
    rw [← hvaddr] at huser htables
    refine room_start hne pagesOf_nodup (fun v hin => ?_) huser htables
    obtain ⟨f, hf⟩ := hmapped v (hvaddr ▸ hin)
    refine ⟨?_, f, hkeep v f hf⟩
    obtain ⟨j, hj, i, hi, -, rfl⟩ := mem_pagesOf.mp hin
    have hlen : userBtmpLen = 94199 := rfl
    omega
  obtain ⟨h₁, hcopy⟩ := copyPages_exists hne hroom
  have hloop : copyBodyStack3 mc parent q.pid h₀ = some h₁ := by
    rw [copyBodyStack3_pages, hparent]
    exact hcopy
  have hbuf : h₁.memory.frameAt none q.buf = some fb := by
    refine copyBodyStack3_invariant (fun h => h.memory.frameAt none q.buf = some fb)
      (fun h₂ h₃ v hv hi hc => (copyPage_frameAt hv hc q.buf).trans hi) ?_ hloop
    simpa [hh₀, Heap.blockDescInit, Heap.freshSpace, Memory.frameAt, setSpace_ne] using hfb
  obtain ⟨m, hm⟩ := mfreePage_one_exists home_none (hx.marked (.page none q.buf) fb trivial hfb).1 hbuf
  have hend : copyProcess mc k₁.heap parent q.pid q.buf = some (h₁.setMemory m) := by
    simp only [copyProcess, bind_some_iff]
    exact ⟨h₁, hloop, m, hm, rfl⟩
  refine ⟨(k₁.setHeap (h₁.setMemory m)).setProc q.pid
    (some ⟨q.pcb, q.pgdir, q.bitmap, parent, false⟩), q.pid, ?_⟩
  simp only [sysFork, bind_some_iff, assert_eq_some]
  refine ⟨(), ?_, _, hp, ?_⟩
  · obtain ⟨r, hr, hhang⟩ := hpar
    exact ⟨r, hr, hhang⟩
  · simp only [bind_some_iff]
    exact ⟨_, hend, rfl⟩

end Fork

end ForkRoom
