import XianweiOS.ForkImage

/-! The loop of `copy_body_stack_3`. Every page goes through one kernel page, and the page tables
of the child are changed on the way; neither touches the pages of the parent nor those the child
has already. -/
namespace ForkCopy

open ByteStore HaltingProgram KernelBitmap MemoryPages MemoryHeap ProcessMemory FrameExclusive

/-- The two processes whose places a fork deals with. -/
def Both (parent : ℕ) (q : ChildPages) (p : ℕ) : Prop := p = parent ∨ p = q.pid

/-- The places whose frames the copying does not write. -/
def Guarded (parent : ℕ) (q : ChildPages) (pl : Place) : Prop :=
  Counts (Both parent q) pl ∧ pl ≠ .page none q.buf ∧ pl ≠ .page none q.pgdir ∧
    ∀ k, pl ≠ .table q.pid k

/-- The state between two pages of the copying. -/
structure Copying (mc : Machine) (parent : ℕ) (q : ChildPages) (s : Image) : Prop where
  running : s.running = some parent
  frames : Exclusive mc s.memory (Both parent q)
  buf : ∃ f, s.memory.frameAt none q.buf = some f
  pgdir : ∃ f, s.memory.frameAt none q.pgdir = some f

/-- The kernel pages of the child, as `vaddr_get` hands them out. -/
structure Apart (q : ChildPages) : Prop where
  buf : 0xc0000 ≤ q.buf
  pgdir : 0xc0000 ≤ q.pgdir
  bufPgdir : q.buf ≠ q.pgdir

/-- The child has the page `v` the parent had in `s`, in a frame that was free then. -/
def HasCopy (mc : Machine) (parent child : ℕ) (s s' : Image) (v : ℕ) : Prop :=
  ∃ f g, s.memory.frameAt (some parent) v = some f ∧ s'.memory.frameAt (some child) v = some g ∧
    mc.phyStart .kernel ≤ g ∧ taken mc s.memory g = false ∧
    frameBytes s'.phys g = frameBytes s.phys f

/-- What the copying of page `v` does. -/
structure PageCopied (mc : Machine) (parent : ℕ) (q : ChildPages) (s s' : Image) (v : ℕ) :
    Prop where
  kernel : s'.kernel = s.kernel.setHeap s'.heap
  heap : ProcessMemory.copyPage mc parent q.pid s.heap v = some s'.heap
  running : s'.running = some parent
  keeps : Keeps mc parent (Guarded parent q) s s'
  copied : HasCopy mc parent q.pid s s' v

section Copy

variable {mc : Machine} {s s' : Image} {parent v : ℕ} {r : Proc} {q : ChildPages}

theorem getAPage_some {ok : Bool} (hg : getAPageWithoutOpvaddrbitmap mc v s = some (s', ok)) :
    ∃ m₁ m₂ g, palloc mc s.memory .user = some (m₁, some g) ∧
      MemoryPages.pageTableAdd mc m₁ s.running v g = some m₂ ∧
      s' = (s.setMemory m₂).setPhys (tableStores (s.setMemory m₁) m₂ v g) := by
  simp only [getAPageWithoutOpvaddrbitmap, bind_some_iff] at hg
  obtain ⟨⟨m₁, r⟩, hp, hg⟩ := hg
  obtain ⟨g, rfl, -⟩ := palloc_taken hp
  simp only [pageTableAdd, bind_some_iff, Option.pure_def, Option.some.injEq, Prod.mk.injEq] at hg
  obtain ⟨s₁, ⟨m₂, ha, rfl⟩, rfl, -⟩ := hg
  exact ⟨m₁, m₂, g, hp, ha, rfl⟩

/-- With the page directory of the child active, a page is mapped there. -/
theorem getAPage_keeps {m₁ m₂ : Memory} {g : ℕ} (hne : q.pid ≠ parent)
    (hx : Exclusive mc s.memory (Both parent q)) (hr : s.running = some q.pid)
    (hdir : s.memory.frameAt none q.pgdir = some s.cr3) (hv : v < 0xc0000)
    (hp : palloc mc s.memory .user = some (m₁, some g))
    (ha : MemoryPages.pageTableAdd mc m₁ s.running v g = some m₂)
    (hs : s' = (s.setMemory m₂).setPhys (tableStores (s.setMemory m₁) m₂ v g)) :
    Exclusive mc s'.memory (Both parent q) ∧ Keeps mc parent (fun pl => Counts (Both parent q) pl ∧
      pl ≠ .page none q.pgdir ∧ ∀ k, pl ≠ .table q.pid k) s s' := by
  subst hs
  obtain ⟨hx₁, -, -⟩ := hx.palloc hp
  have hframe : ∀ pl e, frameOf s.memory pl = some e → frameOf m₁ pl = some e := by
    intro pl e he
    rw [palloc_frameOf hp]
    exact he
  refine ⟨hx.mapOne hp ha, fun pl e hpl he => ⟨?_, ?_⟩, fun e hlow ht => ?_, ?_⟩
  · exact pageTableAdd_frameOf ha (hframe pl e he)
  · obtain ⟨hcount, hpgdir, htab⟩ := hpl
    have hdir₁ : (s.setMemory m₁).memory.frameAt none q.pgdir = some (s.setMemory m₁).cr3 :=
      hframe (.page none q.pgdir) _ hdir
    exact tableStores_keeps (s := s.setMemory m₁) hr (.inr rfl) hx₁ hv hdir₁ ha hcount hpgdir htab
      (hframe pl e he)
  · exact pageTableAdd_marked ha hlow (palloc_marked hp hlow ht)
  · have hspace : m₂.space (some parent) = m₁.space (some parent) := by
      refine pageTableAdd_space ha ?_
      rw [hr, home_user hv]
      exact fun h => hne (Option.some.inj h).symm
    exact hspace.trans (by rw [palloc_space hp])

theorem copyPage_copied (hs : Copying mc parent q s) (hq : Apart q) (hne : q.pid ≠ parent)
    (hv : v < 0xc0000) (hc : copyPage mc parent r q s v = some s') :
    PageCopied mc parent q s s' v := by
  simp only [copyPage, bind_some_iff] at hc
  obtain ⟨s₁, hread, s₂, hchild, ⟨s₃, ok⟩, hget, s₄, hwrite, hback⟩ := hc
  have hhome : ∀ c, home c q.buf = none ∧ home c q.pgdir = none := fun c =>
    ⟨if_pos hq.buf, if_pos hq.pgdir⟩
  obtain ⟨hstore₁, f, fb, hf, hfb, hbytes₁⟩ := memcpyPage_some hread
  rw [frame_user hs.running hv] at hf
  rw [frame_kernel hq.buf] at hfb
  have k₁ : Keeps mc parent (fun pl => Counts (Both parent q) pl ∧ pl ≠ .page none q.buf) s s₁ := by
    refine (hstore₁.keeps_kernel hs.frames ?_).mono fun pl hpl => ⟨hpl.1, ?_⟩
    · rintro _ rfl
      exact hq.buf
    · rintro _ rfl
      exact hpl.2
  have hm₁ : s₁.memory = s.memory := hstore₁.memory
  obtain ⟨fd, hfd, hs₂⟩ := pageDirActivate_some hchild
  have hm₂ : s₂.memory = s.memory := by rw [← hm₁, hs₂]; rfl
  have hr₂ : s₂.running = some q.pid := by rw [hs₂]
  have hdir : s₂.memory.frameAt none q.pgdir = some s₂.cr3 := by
    obtain ⟨fd', hfd'⟩ := hs.pgdir
    have hmapped : s₁.memory.frameAt (home s₁.running q.pgdir) q.pgdir = some fd' := by
      rw [(hhome _).2, hm₁, hfd']
    obtain rfl := Option.some.inj ((addrV2p_of_mapped hmapped).symm.trans hfd)
    rw [hm₂, hfd', hs₂]
  obtain ⟨m₁, m₂, g, hp, ha, hs₃⟩ := getAPage_some hget
  obtain ⟨hx₃, k₃⟩ := getAPage_keeps hne (hm₂ ▸ hs.frames) hr₂ hdir hv hp ha hs₃
  rw [hm₂] at hp
  obtain ⟨hnone, hmaps⟩ := pageTableAdd_frameAt ha
  rw [hr₂, home_user hv, palloc_frameAt hp] at hnone
  have hm₃ : s₃.memory = m₂ := by rw [hs₃]; rfl
  have hr₃ : s₃.running = some q.pid := by rw [hs₃]; exact hr₂
  have hg : s₃.memory.frameAt (some q.pid) v = some g := by
    rw [hm₃, hmaps, hr₂, home_user hv, if_pos ⟨rfl, rfl⟩]
  obtain ⟨g', hg', hlow, -, hclear, -⟩ := palloc_taken hp
  obtain rfl := Option.some.inj hg'
  -- the buffer still holds the parent's page
  have k₂₃ : Keeps mc parent (fun pl => Counts (Both parent q) pl ∧ pl ≠ .page none q.pgdir ∧
      ∀ k, pl ≠ .table q.pid k) s₁ s₃ :=
    (Keeps.of_same (hm₂.trans hm₁.symm) (by rw [hs₂])).trans k₃
  have hbufPlace : frameOf s₁.memory (.page none q.buf) = some fb := by
    rw [frameOf, hm₁, hfb]
  obtain ⟨hfb₃, hbytes₃⟩ := k₂₃.places (.page none q.buf) fb
    ⟨trivial, by simp [hq.bufPgdir], by simp⟩ hbufPlace
  obtain ⟨hstore₄, fb', g', hfb', hg', hbytes₄⟩ := memcpyPage_some hwrite
  rw [frame_kernel hq.buf] at hfb'
  rw [frame_user hr₃ hv] at hg'
  obtain rfl : fb' = fb := Option.some.inj (hfb'.symm.trans hfb₃)
  obtain rfl : g' = g := Option.some.inj (hg'.symm.trans hg)
  have hm₄ : s₄.memory = s₃.memory := hstore₄.memory
  have k₄ : Keeps mc parent (fun pl => Counts (Both parent q) pl ∧ pl ≠ .page (some q.pid) v)
      s₃ s₄ := by
    refine hstore₄.keeps hx₃ ?_ fun pl hpl => ⟨hpl.1, ?_⟩
    · rintro _ rfl
      rw [hr₃, home_user hv]
      exact ⟨.inr rfl, hv⟩
    · rintro _ rfl
      rw [hr₃, home_user hv]
      exact hpl.2
  obtain ⟨fp, -, hs'⟩ := pageDirActivate_some hback
  have hm' : s'.memory = s₄.memory := by rw [hs']; rfl
  have hk₄ : s₄.kernel = s.kernel.setHeap (s.heap.setMemory m₂) := by
    have hk₂ : s₂.kernel = s.kernel := by rw [← hstore₁.kernel, hs₂]
    have hk₃ : s₃.kernel = s₂.kernel.setHeap (s₂.kernel.heap.setMemory m₂) := by rw [hs₃]; rfl
    rw [hstore₄.kernel, hk₃, hk₂]
    rfl
  constructor
  case kernel =>
    have hset : ∀ h, s₄.kernel.setHeap h = s.kernel.setHeap h := fun h => by rw [hk₄]; rfl
    rw [hs']
    exact hset _
  case heap =>
    have hget : MemoryPages.getAPageWithoutOpvaddrbitmap mc s.heap.memory (some q.pid) v =
        some (m₂, true) := by
      rw [hr₂] at ha
      simp only [MemoryPages.getAPageWithoutOpvaddrbitmap, bind_some_iff, Option.pure_def]
      exact ⟨_, hp, by simp only [ha, Option.bind_eq_bind, Option.bind_some]⟩
    have hread : (s.heap.memory.frameAt (some parent) v).isSome :=
      Option.isSome_iff_exists.mpr ⟨f, hf⟩
    simp only [ProcessMemory.copyPage, bind_some_iff, assert_eq_some]
    refine ⟨(), hread, _, hget, ?_⟩
    have hheap : s₄.heap = s.heap.setMemory m₂ := by rw [Image.heap, hk₄]; rfl
    have hlast : s'.heap = s₄.heap.setHeader (some q.pid) v (s₄.heap.header (some parent) v) := by
      rw [hs']
      rfl
    rw [hlast, hheap]
    rfl
  case running => rw [hs']
  case keeps =>
    refine Keeps.of_mapped ((((k₁.mono ?_).trans (k₂₃.mono ?_)).trans (k₄.mono ?_)).trans
      (Keeps.of_same hm' (by rw [hs']; rfl)))
    · exact fun pl hpl => ⟨hpl.1.1, hpl.1.2.1⟩
    · exact fun pl hpl => ⟨hpl.1.1, hpl.1.2.2⟩
    · rintro pl ⟨hpl, hmapped⟩
      refine ⟨hpl.1, ?_⟩
      rintro rfl
      exact hmapped hnone
  case copied =>
    refine ⟨f, g', hf, ?_, hlow, hclear, ?_⟩
    · rw [hm', hm₄, hg]
    · have hphys : s'.phys = s₄.phys := by rw [hs']; rfl
      rw [hphys, hbytes₄, hbytes₃, hbytes₁]

end Copy

/-- How far the copying has come from `s` to `s'`. -/
structure Progress (mc : Machine) (parent : ℕ) (q : ChildPages) (s s' : Image) : Prop where
  copying : Copying mc parent q s'
  keeps : Keeps mc parent (Guarded parent q) s s'
  kernel : s'.kernel = s.kernel.setHeap s'.heap
  vaddr : ∀ c, (s'.memory.space c).vaddr = (s.memory.space c).vaddr
  pages : ∀ w, s'.memory.frameAt none w = s.memory.frameAt none w

/-- The page of a bit of the bitmap. -/
def pageOfBit (idxByte idxBit : ℕ) : ℕ := 0x8048 + (idxBit + idxByte * 8)

section Loop

variable {mc : Machine} {s s' s₀ : Image} {parent v j : ℕ} {r : Proc} {q : ChildPages}

theorem pageOfBit_lt {i : ℕ} (hj : j < userBtmpLen) (hi : i < 8) : pageOfBit j i < 0xc0000 := by
  have hlen : userBtmpLen = 94199 := rfl
  unfold pageOfBit
  omega

theorem guarded_user {p : ℕ} (hp : Both parent q p) (hv : v < 0xc0000) :
    Guarded parent q (.page (some p) v) := ⟨⟨hp, hv⟩, by simp, by simp, by simp⟩

theorem Progress.refl (hs : Copying mc parent q s) : Progress mc parent q s s :=
  ⟨hs, Keeps.refl, rfl, fun _ => rfl, fun _ => rfl⟩

theorem Progress.trans (h : Progress mc parent q s₀ s) (h' : Progress mc parent q s s') :
    Progress mc parent q s₀ s' := by
  refine ⟨h'.copying, h.keeps.trans h'.keeps, ?_, fun c => (h'.vaddr c).trans (h.vaddr c),
    fun w => (h'.pages w).trans (h.pages w)⟩
  rw [h'.kernel, h.kernel]
  rfl

theorem PageCopied.progress (hs : Copying mc parent q s) (hv : v < 0xc0000)
    (hc : PageCopied mc parent q s s' v) : Progress mc parent q s s' := by
  have hframe : ∀ w, s'.memory.frameAt none w = s.memory.frameAt none w :=
    copyPage_frameAt hv hc.heap
  refine ⟨⟨hc.running, ?_, ?_, ?_⟩, hc.keeps, hc.kernel, fun _ => copyPage_vaddr hc.heap, hframe⟩
  · obtain ⟨m₁, m₂, f, -, hp, ha, hheap⟩ := copyPage_some hc.heap
    have hm : s'.memory = m₂ := congrArg Heap.memory hheap
    rw [hm]
    exact hs.frames.mapOne hp ha
  · rw [hframe]
    exact hs.buf
  · rw [hframe]
    exact hs.pgdir

theorem HasCopy.keep {child : ℕ} {Q : Place → Prop} (h : HasCopy mc parent child s₀ s v)
    (hk : Keeps mc parent Q s s') (hQ : Q (.page (some child) v)) :
    HasCopy mc parent child s₀ s' v := by
  obtain ⟨f, g, hf, hg, hlow, hfree, hbytes⟩ := h
  obtain ⟨hg', hb⟩ := hk.places (.page (some child) v) g hQ hg
  exact ⟨f, g, hf, hg', hlow, hfree, hb.trans hbytes⟩

/-- The parent's page was there before, and a frame that is free later was free before. -/
theorem HasCopy.since {child : ℕ} {Q : Place → Prop} (h : HasCopy mc parent child s s' v)
    (hk : Keeps mc parent Q s₀ s) (hQ : Q (.page (some parent) v)) :
    HasCopy mc parent child s₀ s' v := by
  obtain ⟨f, g, hf, hg, hlow, hfree, hbytes⟩ := h
  have hf₀ : s₀.memory.frameAt (some parent) v = some f := by
    rw [← hf]
    exact frameAt_congr (by rw [hk.space]) (by rw [hk.space])
  obtain ⟨-, hb⟩ := hk.places (.page (some parent) v) f hQ hf₀
  refine ⟨f, g, hf₀, hg, hlow, ?_, hbytes.trans hb⟩
  by_contra ht
  rw [Bool.not_eq_false] at ht
  rw [hk.marked g hlow ht] at hfree
  cases hfree

theorem copyBit_progress {i : ℕ} (hq : Apart q) (hne : q.pid ≠ parent) (hj : j < userBtmpLen)
    (hi : i < 8) (hs : Copying mc parent q s) (hc : copyBit mc parent r q j i s = some s') :
    Progress mc parent q s s' ∧
      (bitmapMask i &&& (s.memory.space (some parent)).vaddr j ≠ 0 →
        PageCopied mc parent q s s' (pageOfBit j i)) := by
  unfold copyBit at hc
  split at hc
  · have hpage := copyPage_copied hs hq hne (pageOfBit_lt hj hi) hc
    exact ⟨hpage.progress hs (pageOfBit_lt hj hi), fun _ => hpage⟩
  · rename_i hclear
    obtain rfl := Option.some.inj hc
    refine ⟨.refl hs, fun hset => absurd ?_ hclear⟩
    simpa using hset

/-- The bit of a page in the bitmap of a process. -/
def PageBit (s : Image) (p j i : ℕ) : Prop :=
  bitmapMask i &&& (s.memory.space (some p)).vaddr j ≠ 0

theorem copyByte_progress (hq : Apart q) (hne : q.pid ≠ parent) (hj : j < userBtmpLen)
    (hs : Copying mc parent q s) (hc : copyByte mc parent r q j s = some s') :
    Progress mc parent q s s' ∧
      ∀ i < 8, PageBit s parent j i → HasCopy mc parent q.pid s s' (pageOfBit j i) := by
  unfold copyByte at hc
  split at hc
  · have hstep : ∀ i ∈ List.range 8, ∀ t t', Progress mc parent q s t →
        copyBit mc parent r q j i t = some t' → Progress mc parent q s t' ∧
          Keeps mc parent (Guarded parent q) t t' ∧
          (PageBit s parent j i → HasCopy mc parent q.pid s t' (pageOfBit j i)) := by
      intro i hi t t' ht hbit
      have hi : i < 8 := List.mem_range.mp hi
      obtain ⟨hp, hpage⟩ := copyBit_progress hq hne hj hi ht.copying hbit
      refine ⟨ht.trans hp, hp.keeps, fun hset => ?_⟩
      refine (hpage ?_).copied.since ht.keeps (guarded_user (.inl rfl) (pageOfBit_lt hj hi))
      rw [ht.keeps.space]
      exact hset
    refine ⟨runAll_invariant_mem _ (fun i hi t t' ht hbit => (hstep i hi t t' ht hbit).1)
      (.refl hs) hc, fun i hi => ?_⟩
    refine runAll_each_mem (Progress mc parent q s)
      (fun i t => i < 8 → PageBit s parent j i → HasCopy mc parent q.pid s t (pageOfBit j i))
      (fun i hi t t' ht hbit => (hstep i hi t t' ht hbit).1)
      (fun i hi t t' ht hbit _ => (hstep i hi t t' ht hbit).2.2)
      (fun i hi i' t t' ht hdone hbit hi' hset => ?_) (.refl hs) hc i (List.mem_range.mpr hi) hi
    exact (hdone hi' hset).keep (hstep i hi t t' ht hbit).2.1
      (guarded_user (.inr rfl) (pageOfBit_lt hj hi'))
  · rename_i hzero
    obtain rfl := Option.some.inj hc
    refine ⟨.refl hs, fun i _ hset => absurd ?_ hset⟩
    have hbyte : (s.memory.space (some parent)).vaddr j = 0 := by simpa using hzero
    rw [hbyte]
    simp

/-- The loop over the bitmap copies every page that has a bit. -/
theorem copyBodyStack3_progress (hq : Apart q) (hne : q.pid ≠ parent) (hs : Copying mc parent q s)
    (hc : copyBodyStack3 mc parent r q s = some s') :
    Progress mc parent q s s' ∧ ∀ j < userBtmpLen, ∀ i < 8, PageBit s parent j i →
      HasCopy mc parent q.pid s s' (pageOfBit j i) := by
  have hstep : ∀ j ∈ List.range userBtmpLen, ∀ t t', Progress mc parent q s t →
      copyByte mc parent r q j t = some t' → Progress mc parent q s t' ∧
        Keeps mc parent (Guarded parent q) t t' ∧
        ∀ i < 8, PageBit s parent j i → HasCopy mc parent q.pid s t' (pageOfBit j i) := by
    intro j hj t t' ht hbyte
    have hj : j < userBtmpLen := List.mem_range.mp hj
    obtain ⟨hp, hpages⟩ := copyByte_progress hq hne hj ht.copying hbyte
    refine ⟨ht.trans hp, hp.keeps, fun i hi hset => ?_⟩
    refine (hpages i hi ?_).since ht.keeps (guarded_user (.inl rfl) (pageOfBit_lt hj hi))
    rw [PageBit, ht.keeps.space]
    exact hset
  refine ⟨runAll_invariant_mem _ (fun j hj t t' ht hbyte => (hstep j hj t t' ht hbyte).1)
    (.refl hs) hc, fun j hj => ?_⟩
  refine runAll_each_mem (Progress mc parent q s)
    (fun j t => j < userBtmpLen → ∀ i < 8, PageBit s parent j i →
      HasCopy mc parent q.pid s t (pageOfBit j i))
    (fun j hj t t' ht hbyte => (hstep j hj t t' ht hbyte).1)
    (fun j hj t t' ht hbyte _ => (hstep j hj t t' ht hbyte).2.2)
    (fun j hj j' t t' ht hdone hbyte hj' i hi hset => ?_) (.refl hs) hc j (List.mem_range.mpr hj) hj
  exact (hdone hj' i hi hset).keep (hstep j hj t t' ht hbyte).2.1
    (guarded_user (.inr rfl) (pageOfBit_lt hj' hi))

end Loop

section Lift

variable {mc : Machine} {s s' : Image} {parent v j : ℕ} {r : Proc} {q : ChildPages} {h' : Heap}

/-- No access of the copying faults where the page tables allow it. -/
theorem copyPage_exists (hs : Copying mc parent q s) (hq : Apart q) (hr : KernelPage s r.pgdir)
    (hv : v < 0xc0000) (hc : ProcessMemory.copyPage mc parent q.pid s.heap v = some h') :
    ∃ s', copyPage mc parent r q s v = some s' := by
  obtain ⟨m₁, m₂, g, ⟨f, hf⟩, hp, ha, -⟩ := copyPage_some hc
  obtain ⟨fb, hfb⟩ := hs.buf
  obtain ⟨fr, hfr⟩ := hr.mapped
  obtain ⟨s₁, hread⟩ := memcpyPage_exists (s := s) q.buf v
    ⟨fb, by rw [frame_kernel hq.buf, hfb]⟩ ⟨f, by rw [frame_user hs.running hv]; exact hf⟩
  have hst₁ := (memcpyPage_some hread).1
  have hpgdir : KernelPage s q.pgdir := ⟨hq.pgdir, hs.pgdir⟩
  obtain ⟨s₂, hchild⟩ := pageDirActivate_exists (p := some q.pid) (hpgdir.of_memory hst₁.memory)
  obtain ⟨fd, -, hs₂⟩ := pageDirActivate_some hchild
  have hm₂ : s₂.memory = s.memory := by rw [← hst₁.memory, hs₂]; rfl
  have hr₂ : s₂.running = some q.pid := by rw [hs₂]
  obtain ⟨s₃, hget, hm₃, hr₃⟩ : ∃ s₃, getAPageWithoutOpvaddrbitmap mc v s₂ = some (s₃, true) ∧
      s₃.memory = m₂ ∧ s₃.running = some q.pid := by
    have hp₂ : palloc mc s₂.memory .user = some (m₁, some g) := by
      rw [hm₂]
      exact hp
    have ha₂ : MemoryPages.pageTableAdd mc (s₂.setMemory m₁).memory (s₂.setMemory m₁).running v g =
        some m₂ := by
      rw [← hr₂] at ha
      exact ha
    refine ⟨((s₂.setMemory m₁).setMemory m₂).setPhys (tableStores (s₂.setMemory m₁) m₂ v g), ?_,
      rfl, hr₂⟩
    simp only [getAPageWithoutOpvaddrbitmap, hp₂, pageTableAdd, ha₂, Option.bind_eq_bind,
      Option.bind_some, Option.pure_def]
  have hkernel : ∀ w f, s.memory.frameAt none w = some f → m₂.frameAt none w = some f := by
    intro w f hw
    have hm₁ : frameOf m₁ (.page none w) = some f := (palloc_frameOf hp).trans hw
    exact pageTableAdd_frameOf ha hm₁
  have hmapped : m₂.frameAt (some q.pid) v = some g := by
    rw [(pageTableAdd_frameAt ha).2, if_pos ⟨(home_user hv).symm, rfl⟩]
  obtain ⟨s₄, hwrite⟩ := memcpyPage_exists (s := s₃) v q.buf
    ⟨g, by rw [frame_user hr₃ hv, hm₃, hmapped]⟩
    ⟨fb, by rw [frame_kernel hq.buf, hm₃, hkernel _ _ hfb]⟩
  have hm₄ : s₄.memory = m₂ := by rw [(memcpyPage_some hwrite).1.memory, hm₃]
  obtain ⟨s₅, hback⟩ := pageDirActivate_exists (p := some parent)
    (s := s₄.setHeap (s₄.heap.setHeader (some q.pid) v (s₄.heap.header (some parent) v)))
    ⟨hr.high, fr, by rw [← hm₄] at hkernel; exact hkernel _ _ hfr⟩
  refine ⟨s₅, ?_⟩
  simp only [copyPage, bind_some_iff]
  exact ⟨s₁, hread, s₂, hchild, _, hget, s₄, hwrite, hback⟩

theorem copyPage_map (hs : Copying mc parent q s) (hq : Apart q) (hne : q.pid ≠ parent)
    (hr : KernelPage s r.pgdir) (hv : v < 0xc0000) :
    (copyPage mc parent r q s v).map Image.heap =
      ProcessMemory.copyPage mc parent q.pid s.heap v := by
  cases hc : copyPage mc parent r q s v with
  | some s' => exact (copyPage_copied hs hq hne hv hc).heap.symm
  | none =>
    cases hh : ProcessMemory.copyPage mc parent q.pid s.heap v with
    | none => rfl
    | some h' =>
      obtain ⟨s', hs'⟩ := copyPage_exists hs hq hr hv hh
      rw [hc] at hs'
      cases hs'

theorem copyBit_map {i : ℕ} (hs : Copying mc parent q s) (hq : Apart q) (hne : q.pid ≠ parent)
    (hr : KernelPage s r.pgdir) (hj : j < userBtmpLen) (hi : i < 8) :
    (copyBit mc parent r q j i s).map Image.heap =
      ProcessMemory.copyBit mc parent q.pid j i s.heap := by
  unfold copyBit ProcessMemory.copyBit
  by_cases hbit : bitmapMask i &&& (s.memory.space (some parent)).vaddr j != 0
  · rw [if_pos hbit]
    refine (copyPage_map hs hq hne hr (pageOfBit_lt hj hi)).trans ?_
    exact (if_pos hbit).symm
  · rw [if_neg hbit]
    exact (if_neg hbit).symm

theorem KernelPage.progress (h : KernelPage s v) (hp : Progress mc parent q s s') :
    KernelPage s' v :=
  ⟨h.high, by rw [hp.pages]; exact h.mapped⟩

theorem copyByte_map (hs : Copying mc parent q s) (hq : Apart q) (hne : q.pid ≠ parent)
    (hr : KernelPage s r.pgdir) (hj : j < userBtmpLen) :
    (copyByte mc parent r q j s).map Image.heap =
      ProcessMemory.copyByte mc parent q.pid j s.heap := by
  unfold copyByte ProcessMemory.copyByte
  by_cases hbyte : (s.memory.space (some parent)).vaddr j != 0
  · rw [if_pos hbyte]
    refine Eq.trans ?_ (if_pos hbyte).symm
    refine runAll_map Image.heap (fun t => Copying mc parent q t ∧ KernelPage t r.pgdir) ?_ ?_
      ⟨hs, hr⟩
    · rintro i hi t t' ⟨ht, hrt⟩ hstep
      have hp := (copyBit_progress hq hne hj (List.mem_range.mp hi) ht hstep).1
      exact ⟨hp.copying, hrt.progress hp⟩
    · rintro i hi t ⟨ht, hrt⟩
      exact copyBit_map ht hq hne hrt hj (List.mem_range.mp hi)
  · rw [if_neg hbyte]
    exact (if_neg hbyte).symm

/-- Seen without the bytes, the loop is that of `ProcessMemory`. -/
theorem copyBodyStack3_map (hs : Copying mc parent q s) (hq : Apart q) (hne : q.pid ≠ parent)
    (hr : KernelPage s r.pgdir) :
    (copyBodyStack3 mc parent r q s).map Image.heap =
      ProcessMemory.copyBodyStack3 mc parent q.pid s.heap := by
  refine runAll_map Image.heap (fun t => Copying mc parent q t ∧ KernelPage t r.pgdir) ?_ ?_
    ⟨hs, hr⟩
  · rintro j hj t t' ⟨ht, hrt⟩ hstep
    have hp := (copyByte_progress hq hne (List.mem_range.mp hj) ht hstep).1
    exact ⟨hp.copying, hrt.progress hp⟩
  · rintro j hj t ⟨ht, hrt⟩
    exact copyByte_map ht hq hne hrt (List.mem_range.mp hj)

end Lift

end ForkCopy
