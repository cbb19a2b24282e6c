import XianweiOS.ForkCopy
import XianweiOS.ForkRoom
import XianweiOS.ProcessBalance

/-! A whole fork: the kernel pages of the child, the copying of the pages, and what the child has
of its parent in the end. -/
namespace ForkCopy

open ByteStore HaltingProgram KernelBitmap MemoryPages MemoryHeap ProcessMemory FrameExclusive

/-- Kernel pages have been taken; what had a place before is as it was. -/
structure Took (mc : Machine) (parent : ℕ) (A : ℕ → Prop) (s s' : Image) (a n : ℕ) : Prop where
  got : ProcessMemory.getKernelPages mc s.heap n = some (s'.heap, some a)
  kernel : s'.kernel = s.kernel.setHeap s'.heap
  running : s'.running = s.running
  keeps : Keeps mc parent (Counts A) s s'

section KernelPages

variable {mc : Machine} {m m' : Memory} {s s' s₁ : Image} {A : ℕ → Prop} {a f n p parent : ℕ}
  {pl : Place} {r : Option ℕ}

theorem mallocPage_marked {c : Ctx} (hm : mallocPage mc m c n = some (m', r))
    (hlow : mc.phyStart .kernel ≤ f) (ht : taken mc m f = true) : taken mc m' f = true := by
  obtain ⟨hn, ⟨-, rfl⟩ | ⟨v, m₁, -, hg, hmap⟩⟩ := mallocPage_cases hm
  · exact ht
  · refine mapPages_invariant (fun m => taken mc m f = true)
      (fun m₂ m₃ m₄ w g _ ht hp ha => pageTableAdd_marked ha hlow (palloc_marked hp hlow ht)) ?_
      hmap
    rcases vaddrGet_cases hg hn with ⟨-, rfl⟩ | ⟨i, -, -, -, rfl⟩
    · exact ht
    · exact (taken_congr rfl).trans ht

theorem kernelPages_space (hm : mallocPage mc m none n = some (m', r)) :
    m'.space (some p) = m.space (some p) := by
  obtain ⟨hn, ⟨-, rfl⟩ | ⟨v, m₁, -, hg, hmap⟩⟩ := mallocPage_cases hm
  · rfl
  · have hm₁ : m₁.space (some p) = m.space (some p) := by
      rcases vaddrGet_cases hg hn with ⟨-, rfl⟩ | ⟨i, -, -, -, rfl⟩
      · rfl
      · rw [setVaddr_space, if_neg (Option.some_ne_none p)]
    refine mapPages_invariant (fun m' => m'.space (some p) = m.space (some p))
      (fun m₂ m₃ m₄ w g _ hi hp ha => ?_) hm₁ hmap
    rw [pageTableAdd_space ha (by simp), palloc_space hp, hi]

theorem Took.exclusive (hx : Exclusive mc s.memory A) (h : Took mc parent A s s' a n) :
    Exclusive mc s'.memory A := getKernelPages_exclusive hx h.got

theorem Took.gained (h : Took mc parent A s s' a n) : Gained mc s.memory s'.memory none a n :=
  getKernelPages_memory h.got

theorem Took.heap_eq {h : Heap} (ht : Took mc parent A s s' a n)
    (hg : ProcessMemory.getKernelPages mc s.heap n = some (h, some a)) : s'.heap = h := by
  have heq := ht.got.symm.trans hg
  simpa using heq

/-- The pages that were taken are written. -/
theorem Took.stored (hx : Exclusive mc s.memory A) (h : Took mc parent A s s₁ a n)
    (hs : Stored (span a n) s₁ s') : Took mc parent A s s' a n := by
  have hheap : s'.heap = s₁.heap := by rw [Image.heap, hs.kernel, Image.heap]
  have hstart : 0xc0100 ≤ a := h.gained.start
  have hspan : ∀ w ∈ span a n, 0xc0000 ≤ w := fun w hw => le_trans (by omega) hw.1
  refine ⟨hheap ▸ h.got, ?_, hs.running.trans h.running, Keeps.of_mapped ?_⟩
  · rw [hs.kernel, hheap, h.kernel]
  · refine (h.keeps.mono fun pl hpl => hpl.1).trans
      ((hs.keeps_kernel (h.exclusive hx) hspan).mono fun pl hpl => ⟨hpl.1, fun w hw => ?_⟩)
    rintro rfl
    exact hpl.2 (h.gained.unmapped w hw)

theorem getKernelPages_took (hx : Exclusive mc s.memory A)
    (hg : getKernelPages mc n s = some (s', some a)) : Took mc parent A s s' a n := by
  simp only [getKernelPages, bind_some_iff] at hg
  obtain ⟨⟨h, r⟩, hgot, hg⟩ := hg
  cases r with
  | none => simp at hg
  | some b =>
    simp only [bind_some_iff, Option.pure_def, Option.some.injEq, Prod.mk.injEq] at hg
    obtain ⟨s₁, hset, rfl, rfl⟩ := hg
    suffices hkeeps : Keeps mc parent (Counts A) s (s.setHeap h) by
      have htook : Took mc parent A s (s.setHeap h) b n := ⟨hgot, rfl, rfl, hkeeps⟩
      exact htook.stored hx (memsetPages_stored hset)
    obtain ⟨m, hm, hh⟩ := getKernelPages_gained hgot
    have hmem : (s.setHeap h).memory = m := congrArg Heap.memory hh
    have hspace : ∀ p, m.space (some p) = s.memory.space (some p) := fun p => kernelPages_space hm
    refine ⟨fun pl f _ hf => ⟨?_, rfl⟩, fun f hlow ht => ?_, ?_⟩
    · rw [hmem]
      cases pl with
      | page c v => exact gained_keeps (mallocPage_gained hm) hf
      | table p k => rw [frameOf, hspace, ← hf, frameOf]
    · rw [hmem]
      exact mallocPage_marked hm hlow ht
    · rw [hmem, hspace]

theorem createPageDir_took (hx : Exclusive mc s.memory A)
    (hg : createPageDir mc s = some (s', some a)) : Took mc parent A s s' a 1 := by
  simp only [createPageDir, bind_some_iff] at hg
  obtain ⟨⟨s₁, r⟩, hgot, hg⟩ := hg
  cases r with
  | none => simp at hg
  | some b =>
    simp only [bind_some_iff, Option.pure_def, Option.some.injEq, Prod.mk.injEq] at hg
    obtain ⟨s₂, hcopy, f, -, s₃, hself, rfl, rfl⟩ := hg
    have hin : ({b} : Set ℕ) ⊆ span b 1 := by
      rintro _ rfl
      simp
    have hlast : 0xc00 + 1020 ≤ pgSize ∧ 0xffc + 4 ≤ pgSize := by decide
    refine (getKernelPages_took hx hgot).stored hx ?_
    exact ((stored_store hlast.1 hcopy).trans (stored_store hlast.2 hself)).mono hin

/-- The memory that is taken is mapped when it is cleared. -/
theorem getKernelPages_exists {h : Heap}
    (hg : ProcessMemory.getKernelPages mc s.heap n = some (h, some a)) :
    ∃ s', getKernelPages mc n s = some (s', some a) := by
  have hgain := getKernelPages_memory hg
  have hstart : 0xc0100 ≤ a := hgain.start
  obtain ⟨s', hs⟩ := memsetPages_exists (s := s.setHeap h) (a := a) (n := n) fun w hw => by
    obtain ⟨f, hf⟩ := hgain.mapped w hw
    exact ⟨f, by rw [frame_kernel (le_trans (by omega) hw.1)]; exact hf⟩
  exact ⟨s', by simp only [getKernelPages, hg, hs, Option.bind_eq_bind, Option.bind_some,
    Option.pure_def]⟩

theorem createPageDir_exists {h : Heap} (hx : Exclusive mc s.memory A)
    (hg : ProcessMemory.createPageDir mc s.heap = some (h, some a)) :
    ∃ s', createPageDir mc s = some (s', some a) := by
  obtain ⟨s₁, hs₁⟩ := getKernelPages_exists hg
  have t₁ : Took mc 0 A s s₁ a 1 := getKernelPages_took hx hs₁
  have hstart : 0xc0100 ≤ a := t₁.gained.start
  obtain ⟨f, hf⟩ := t₁.gained.mapped a (by simp)
  have hframe : s₁.frame a = some f := by rw [frame_kernel (by omega), hf]
  obtain ⟨s₂, hs₂⟩ := store_exists (s := s₁) (v := a) (o := 0xc00) (n := 1020)
    (b := window s₁.phys (s₁.cr3 * pgSize + 0xc00)) ⟨f, hframe⟩
  have hlast : 0xc00 + 1020 ≤ pgSize := by decide
  have st₂ := stored_store hlast hs₂
  obtain ⟨s₃, hs₃⟩ := store_exists (s := s₂) (v := a) (o := 0xffc) (n := 4) (b := entry f)
    ⟨f, by rw [st₂.frame, hframe]⟩
  have ha : addrV2p s₂.memory s₂.running a = some f := by
    rw [st₂.memory, st₂.running]
    exact addrV2p_of_mapped hframe
  exact ⟨s₃, by simp only [createPageDir, hs₁, hs₂, ha, hs₃, Option.bind_eq_bind, Option.bind_some,
    Option.pure_def]⟩

end KernelPages

/-- The kernel pages from `dst` hold in `s'` the bytes of those from `src` in `s`. -/
def SamePages (s s' : Image) (dst src n : ℕ) : Prop :=
  ∀ i < n, ∃ f g, s.memory.frameAt none (src + i) = some f ∧
    s'.memory.frameAt none (dst + i) = some g ∧ frameBytes s'.phys g = frameBytes s.phys f

section Bitmap

variable {mc : Machine} {s s' s₀ : Image} {A : ℕ → Prop} {dst src n parent : ℕ} {Q : Place → Prop}

theorem SamePages.keep (h : SamePages s₀ s dst src n) (hk : Keeps mc parent Q s s')
    (hQ : ∀ w ∈ span dst n, Q (.page none w)) : SamePages s₀ s' dst src n := by
  intro i hi
  obtain ⟨f, g, hf, hg, hbytes⟩ := h i hi
  obtain ⟨hg', hb⟩ := hk.places (.page none (dst + i)) g (hQ _ ⟨by omega, by omega⟩) hg
  exact ⟨f, g, hf, hg', hb.trans hbytes⟩

theorem SamePages.since (h : SamePages s s' dst src n) (hk : Keeps mc parent Q s₀ s)
    (hQ : ∀ w ∈ span src n, Q (.page none w) ∧ ∃ f, s₀.memory.frameAt none w = some f) :
    SamePages s₀ s' dst src n := by
  intro i hi
  obtain ⟨f, g, hf, hg, hbytes⟩ := h i hi
  obtain ⟨hq, f₀, hf₀⟩ := hQ (src + i) ⟨by omega, by omega⟩
  obtain ⟨hf', hb⟩ := hk.places (.page none (src + i)) f₀ hq hf₀
  obtain rfl := Option.some.inj (hf.symm.trans hf')
  exact ⟨f, g, hf₀, hg, hbytes.trans hb⟩

theorem memcpyPages_same (hx : Exclusive mc s.memory A) (hdst : 0xc0000 ≤ dst)
    (hsrc : 0xc0000 ≤ src) (hapart : ∀ w ∈ span dst n, w ∉ span src n)
    (hc : memcpyPages dst src n s = some s') :
    Stored (span dst n) s s' ∧ SamePages s s' dst src n := by
  have hin : ∀ i ∈ List.range n, ({dst + i} : Set ℕ) ⊆ span dst n := by
    rintro i hi _ rfl
    rw [List.mem_range] at hi
    exact ⟨by omega, by omega⟩
  have hstored : ∀ i ∈ List.range n, ∀ t t', Stored (span dst n) s t →
      memcpyPage (dst + i) (src + i) t = some t' → Stored (span dst n) s t' :=
    fun i hi t t' ht hstep => ht.trans ((memcpyPage_some hstep).1.mono (hin i hi))
  have hkernel : ∀ t w, Stored (span dst n) s t → 0xc0000 ≤ w →
      t.frame w = s.memory.frameAt none w := by
    intro t w ht hw
    rw [ht.frame, frame_kernel hw]
  -- one frame is not that of two kernel pages
  have honce : ∀ v w f, s.memory.frameAt none v = some f → s.memory.frameAt none w = some f →
      v = w := by
    intro v w f hv hw
    have := hx.once (.page none v) (.page none w) f trivial trivial hv hw
    simpa using this
  have hdone : ∀ i ∈ List.range n, ∀ t t', Stored (span dst n) s t →
      memcpyPage (dst + i) (src + i) t = some t' → ∃ f g,
        s.memory.frameAt none (src + i) = some f ∧ s.memory.frameAt none (dst + i) = some g ∧
        frameBytes t'.phys g = frameBytes s.phys f := by
    intro i hi t t' ht hstep
    obtain ⟨-, f, g, hf, hg, hbytes⟩ := memcpyPage_some hstep
    rw [hkernel t _ ht (by omega)] at hf hg
    refine ⟨f, g, hf, hg, hbytes.trans (ht.bytes f fun w hw hfw => ?_)⟩
    rw [frame_kernel (le_trans hdst hw.1)] at hfw
    rw [List.mem_range] at hi
    obtain rfl := honce w (src + i) f hfw hf
    exact hapart _ hw ⟨by omega, by omega⟩
  have hcopied := runAll_each_mem (Stored (span dst n) s)
    (fun i t => ∃ f g, s.memory.frameAt none (src + i) = some f ∧
      s.memory.frameAt none (dst + i) = some g ∧ frameBytes t.phys g = frameBytes s.phys f)
    hstored hdone (fun i hi j t t' ht hj hstep => by
      by_cases hij : j = i
      · subst j
        exact hdone i hi t t' ht hstep
      · obtain ⟨f, g, hf, hg, hbytes⟩ := hj
        refine ⟨f, g, hf, hg, ((memcpyPage_some hstep).1.bytes g ?_).trans hbytes⟩
        rintro _ rfl hgi
        rw [hkernel t _ ht (by omega)] at hgi
        have := honce _ _ g hgi hg
        omega) .refl hc
  refine ⟨runAll_invariant_mem _ hstored .refl hc, fun i hi => ?_⟩
  obtain ⟨f, g, hf, hg, hbytes⟩ := hcopied i (List.mem_range.mpr hi)
  refine ⟨f, g, hf, ?_, hbytes⟩
  rw [(runAll_invariant_mem _ hstored .refl hc).memory, hg]

end Bitmap

/-- The pages of a process's bitmap, in the kernel half. -/
structure BitmapMapped (s : Image) (r : Proc) : Prop where
  high : 0xc0000 ≤ r.bitmap
  mapped : ∀ w ∈ span r.bitmap bitmapPgCnt, ∃ f, s.memory.frameAt none w = some f

/-- The copy of the parent's `task_struct`, in which only the page `pcb` is written, and of its
bitmap. -/
structure PcbCopied (mc : Machine) (parent : ℕ) (A : ℕ → Prop) (r : Proc) (pcb : ℕ) (s s' : Image)
    (pid bitmap : ℕ) : Prop where
  pid : allocatePid s.kernel.pidBits = some (s'.kernel.pidBits, pid)
  got : ProcessMemory.getKernelPages mc s.heap bitmapPgCnt = some (s'.heap, some bitmap)
  proc : s'.kernel.proc = s.kernel.proc
  running : s'.running = s.running
  keeps : Keeps mc parent (fun pl => Counts A pl ∧ pl ≠ .page none pcb) s s'
  same : SamePages s s' bitmap r.bitmap bitmapPgCnt

section ForkPages

variable {mc : Machine} {ed : PcbEdits} {s s' : Image} {A : ℕ → Prop} {pcb parent : ℕ} {r : Proc}
  {q : ChildPages}

theorem copyPcb_copied {pid bitmap : ℕ} (hx : Exclusive mc s.memory A) (hpcb : 0xc0000 ≤ pcb)
    (hmapped : ∃ f, s.memory.frameAt none pcb = some f) (hr : BitmapMapped s r)
    (hout : pcb ∉ span r.bitmap bitmapPgCnt)
    (hc : copyPcbVaddrbitmapStack0 mc ed r pcb s = some (s', pid, some bitmap)) :
    PcbCopied mc parent A r pcb s s' pid bitmap := by
  simp only [copyPcbVaddrbitmapStack0, bind_some_iff] at hc
  obtain ⟨s₁, hcopy, ⟨bits, pid'⟩, hpid, s₃, hfields, ⟨s₄, g⟩, hgot, hc⟩ := hc
  cases g with
  | none => simp at hc
  | some b =>
    simp only [bind_some_iff, Option.pure_def, Option.some.injEq, Prod.mk.injEq] at hc
    obtain ⟨s₅, hbits, s₆, hlast, rfl, rfl, rfl⟩ := hc
    set Q : Place → Prop := fun pl => Counts A pl ∧ pl ≠ .page none pcb with hQ
    have hone : ∀ t t', Exclusive mc t.memory A → Stored {pcb} t t' → Keeps mc parent Q t t' := by
      intro t t' ht hst
      refine (hst.keeps_kernel ht ?_).mono fun pl hpl => ⟨hpl.1, ?_⟩
      · rintro _ rfl
        exact hpcb
      · rintro _ rfl
        exact hpl.2
    set s₂ := s₁.setKernel { s₁.kernel with pidBits := bits } with hs₂
    have st₁ := (memcpyPage_some hcopy).1
    have st₃ : Stored {pcb} s₂ s₃ := editPage_stored hfields
    have st₆ : Stored {pcb} s₅ s₆ := editPage_stored hlast
    have hm₂ : s₂.memory = s.memory := st₁.memory
    have hx₂ : Exclusive mc s₂.memory A := hm₂ ▸ hx
    have hm₃ : s₃.memory = s.memory := st₃.memory.trans hm₂
    have hx₃ : Exclusive mc s₃.memory A := hm₃ ▸ hx
    have k₃ : Keeps mc parent Q s s₃ :=
      ((hone s s₁ hx st₁).trans (Keeps.of_same (hm₂.trans st₁.memory.symm) rfl)).trans
        (hone s₂ s₃ hx₂ st₃)
    have t₄ : Took mc parent A s₃ s₄ b bitmapPgCnt := getKernelPages_took hx₃ hgot
    have hx₄ := t₄.exclusive hx₃
    have hstart : 0xc0100 ≤ b := t₄.gained.start
    have hfresh : ∀ w ∈ span b bitmapPgCnt, s.memory.frameAt none w = none := by
      intro w hw
      rw [← hm₃, t₄.gained.unmapped w hw]
    have hbpcb : ∀ w ∈ span b bitmapPgCnt, w ≠ pcb := by
      rintro w hw rfl
      obtain ⟨f, hf⟩ := hmapped
      rw [hfresh w hw] at hf
      cases hf
    obtain ⟨st₅, same₅⟩ := memcpyPages_same hx₄ (by omega) hr.high (fun w hw hin => by
      obtain ⟨f, hf⟩ := hr.mapped w hin
      rw [hfresh w hw] at hf
      cases hf) hbits
    have t₅ := t₄.stored hx₃ st₅
    have hkernel₅ : s₆.kernel = s₄.kernel := by rw [st₆.kernel, st₅.kernel]
    have hheap₃ : s₃.heap = s.heap := by
      have hk₁ : s₁.kernel.heap = s.kernel.heap := by rw [st₁.kernel]
      rw [Image.heap, st₃.kernel]
      exact hk₁
    have hpidBits : s₆.kernel.pidBits = bits ∧ s₆.kernel.proc = s.kernel.proc := by
      have hk₁ : s₁.kernel.proc = s.kernel.proc := by rw [st₁.kernel]
      rw [hkernel₅, t₄.kernel, st₃.kernel]
      exact ⟨rfl, hk₁⟩
    constructor
    case pid =>
      rw [hpidBits.1, ← hpid, st₁.kernel]
    case got =>
      rw [← hheap₃, t₄.got, Image.heap, Image.heap, hkernel₅]
    case proc => exact hpidBits.2
    case running =>
      rw [st₆.running, t₅.running, st₃.running]
      exact st₁.running
    case keeps =>
      exact (k₃.trans (t₅.keeps.mono fun pl hpl => hpl.1)).trans
        (hone s₅ s₆ (t₅.exclusive hx₃) st₆)
    case same =>
      refine (same₅.since (k₃.trans (t₄.keeps.mono fun pl hpl => hpl.1)) fun w hw => ?_).keep
        (hone s₅ s₆ (t₅.exclusive hx₃) st₆) fun w hw => ?_
      · refine ⟨⟨trivial, ?_⟩, hr.mapped w hw⟩
        intro he
        simp only [Place.page.injEq, true_and] at he
        exact hout (he ▸ hw)
      · refine ⟨trivial, ?_⟩
        intro he
        simp only [Place.page.injEq, true_and] at he
        exact hbpcb w hw he

/-- The kernel pages of a fork and what is in them. -/
structure PagesForked (mc : Machine) (parent : ℕ) (A : ℕ → Prop) (r : Proc) (q : ChildPages)
    (s s' : Image) : Prop where
  pages : ProcessMemory.forkPages mc s.kernel = some (s'.kernel, some q)
  running : s'.running = s.running
  keeps : Keeps mc parent (Counts A) s s'
  pcb : 0xc0000 ≤ q.pcb
  apart : Apart q
  same : SamePages s s' q.bitmap r.bitmap bitmapPgCnt

theorem BitmapMapped.keep {a n : ℕ} (h : BitmapMapped s r) (ht : Took mc parent A s s' a n) :
    BitmapMapped s' r := by
  refine ⟨h.high, fun w hw => ?_⟩
  obtain ⟨f, hf⟩ := h.mapped w hw
  exact ⟨f, gained_keeps ht.gained hf⟩

theorem forkPages_some (hf : forkPages mc ed r s = some (s', some q)) :
    ∃ s₁ s₂ s₃ s₄, getKernelPages mc 1 s = some (s₁, some q.pcb) ∧
      getKernelPages mc 1 s₁ = some (s₂, some q.buf) ∧
      copyPcbVaddrbitmapStack0 mc ed r q.pcb s₂ = some (s₃, q.pid, some q.bitmap) ∧
      createPageDir mc s₃ = some (s₄, some q.pgdir) ∧
      editPage q.pcb (ed.pgdir q.pgdir) s₄ = some s' := by
  simp only [forkPages, bind_some_iff] at hf
  obtain ⟨⟨s₁, g₁⟩, hgot₁, hf⟩ := hf
  cases g₁ with
  | none => simp at hf
  | some pcb =>
    simp only [bind_some_iff] at hf
    obtain ⟨⟨s₂, g₂⟩, hgot₂, hf⟩ := hf
    cases g₂ with
    | none => simp at hf
    | some buf =>
      simp only [bind_some_iff] at hf
      obtain ⟨⟨s₃, pid, g₃⟩, hcopy, hf⟩ := hf
      cases g₃ with
      | none => simp at hf
      | some bitmap =>
        simp only [bind_some_iff] at hf
        obtain ⟨⟨s₄, g₄⟩, hgot₄, hf⟩ := hf
        cases g₄ with
        | none => simp at hf
        | some pgdir =>
          simp only [bind_some_iff, Option.pure_def, Option.some.injEq, Prod.mk.injEq] at hf
          obtain ⟨s₅, hedit, rfl, rfl⟩ := hf
          exact ⟨s₁, s₂, s₃, s₄, hgot₁, hgot₂, hcopy, hgot₄, hedit⟩

theorem forkPages_forked (hx : Exclusive mc s.memory A) (hr : BitmapMapped s r)
    (hf : forkPages mc ed r s = some (s', some q)) : PagesForked mc parent A r q s s' := by
  obtain ⟨s₁, s₂, s₃, s₄, hgot₁, hgot₂, hcopy, hgot₄, hedit⟩ := forkPages_some hf
  have t₁ : Took mc parent A s s₁ q.pcb 1 := getKernelPages_took hx hgot₁
  have hx₁ := t₁.exclusive hx
  have t₂ : Took mc parent A s₁ s₂ q.buf 1 := getKernelPages_took hx₁ hgot₂
  have hx₂ := t₂.exclusive hx₁
  have hpcb : 0xc0100 ≤ q.pcb := t₁.gained.start
  have hbuf : 0xc0100 ≤ q.buf := t₂.gained.start
  have hr₂ : BitmapMapped s₂ r := (hr.keep t₁).keep t₂
  have hself : ∀ a : ℕ, a ∈ span a 1 := fun a => by simp
  -- the page of the `task_struct` was not mapped before, and is now
  have hunmapped := t₁.gained.unmapped q.pcb (hself _)
  obtain ⟨fp, hfp₁⟩ := t₁.gained.mapped q.pcb (hself _)
  have hfp₂ := gained_keeps t₂.gained hfp₁
  have hout : q.pcb ∉ span r.bitmap bitmapPgCnt := by
    intro hin
    obtain ⟨f, hf⟩ := hr.mapped _ hin
    rw [hunmapped] at hf
    cases hf
  have c₃ : PcbCopied mc parent A r q.pcb s₂ s₃ q.pid q.bitmap :=
    copyPcb_copied hx₂ (by omega) ⟨fp, hfp₂⟩ hr₂ hout hcopy
  have hx₃ : Exclusive mc s₃.memory A := getKernelPages_exclusive hx₂ c₃.got
  have t₄ : Took mc parent A s₃ s₄ q.pgdir 1 := createPageDir_took hx₃ hgot₄
  have hx₄ := t₄.exclusive hx₃
  have st₅ := editPage_stored hedit
  have hpgdir : 0xc0100 ≤ q.pgdir := t₄.gained.start
  set Q : Place → Prop := fun pl => Counts A pl ∧ pl ≠ .page none q.pcb with hQ
  have k₅ : Keeps mc parent Q s₄ s' := by
    refine (st₅.keeps_kernel hx₄ ?_).mono fun pl hpl => ⟨hpl.1, ?_⟩
    · rintro _ rfl
      omega
    · rintro _ rfl
      exact hpl.2
  have k₄ : Keeps mc parent Q s₃ s' := (t₄.keeps.mono fun pl hpl => hpl.1).trans k₅
  have hbufPgdir : q.buf ≠ q.pgdir := by
    intro he
    obtain ⟨fb, hfb⟩ := t₂.gained.mapped q.buf (hself _)
    have hfb₃ := gained_keeps (getKernelPages_memory c₃.got) hfb
    have hnone := t₄.gained.unmapped q.pgdir (hself _)
    have hsame : s₃.memory.frameAt none q.buf = some fb := hfb₃
    rw [he, hnone] at hsame
    cases hsame
  constructor
  case pages =>
    have hpid : allocatePid s.kernel.pidBits = some (s₃.kernel.pidBits, q.pid) := by
      rw [← c₃.pid, t₂.kernel, t₁.kernel]
      rfl
    have hproc : s₃.kernel.proc = s.kernel.proc := by
      rw [c₃.proc, t₂.kernel, t₁.kernel]
      rfl
    have hkernel : s'.kernel = ⟨s₄.heap, s₃.kernel.pidBits, s.kernel.proc⟩ := by
      rw [st₅.kernel, t₄.kernel, ← hproc]
      rfl
    simp only [ProcessMemory.forkPages, bind_some_iff]
    refine ⟨_, t₁.got, ?_⟩
    simp only [bind_some_iff]
    refine ⟨_, t₂.got, ?_⟩
    simp only [bind_some_iff]
    refine ⟨_, hpid, _, c₃.got, ?_⟩
    simp only [bind_some_iff]
    refine ⟨_, t₄.got, ?_⟩
    rw [hkernel]
    rfl
  case running =>
    rw [st₅.running, t₄.running, c₃.running, t₂.running, t₁.running]
  case keeps =>
    have k₂ : Keeps mc parent (Counts A) s s₂ := t₁.keeps.trans t₂.keeps
    refine Keeps.of_mapped ((k₂.mono fun pl hpl => hpl.1).trans ((c₃.keeps.trans k₄).mono
      fun pl hpl => ⟨hpl.1, ?_⟩))
    rintro rfl
    exact hpl.2 hunmapped
  case pcb => omega
  case apart => exact ⟨by omega, by omega, hbufPgdir⟩
  case same =>
    have hspan : ∀ w ∈ span q.bitmap bitmapPgCnt, w ≠ q.pcb := by
      rintro w hw rfl
      have hg := (getKernelPages_memory c₃.got).unmapped _ hw
      have hfp : s₂.heap.memory.frameAt none q.pcb = some fp := hfp₂
      rw [hg] at hfp
      cases hfp
    have hsince : SamePages s s₃ q.bitmap r.bitmap bitmapPgCnt :=
      c₃.same.since (Keeps.trans t₁.keeps t₂.keeps) fun w hw => ⟨trivial, hr.mapped w hw⟩
    refine hsince.keep k₄ fun w hw => ⟨trivial, ?_⟩
    intro he
    simp only [Place.page.injEq, true_and] at he
    exact hspan w hw he

theorem KernelPage.took {a n v : ℕ} (h : KernelPage s v) (ht : Took mc parent A s s' a n) :
    KernelPage s' v := by
  obtain ⟨f, hf⟩ := h.mapped
  exact ⟨h.high, f, gained_keeps ht.gained hf⟩

theorem BitmapMapped.frame {w : ℕ} (h : BitmapMapped s r) (hw : w ∈ span r.bitmap bitmapPgCnt) :
    ∃ f, s.frame w = some f := by
  rw [frame_kernel (le_trans h.high hw.1)]
  exact h.mapped w hw

theorem copyPcb_exists (ed : PcbEdits) {h : Heap} {bits : Bytes} {pid bitmap : ℕ}
    (hx : Exclusive mc s.memory A)
    (hpid : allocatePid s.kernel.pidBits = some (bits, pid))
    (hg : ProcessMemory.getKernelPages mc s.heap bitmapPgCnt = some (h, some bitmap))
    (hpcb : KernelPage s pcb) (hself : KernelPage s r.pcb) (hr : BitmapMapped s r) :
    ∃ s', copyPcbVaddrbitmapStack0 mc ed r pcb s = some (s', pid, some bitmap) := by
  obtain ⟨s₁, hs₁⟩ := memcpyPage_exists pcb r.pcb hpcb.frame hself.frame
  have st₁ := (memcpyPage_some hs₁).1
  set s₂ := s₁.setKernel { s₁.kernel with pidBits := bits } with hs₂
  have hm₂ : s₂.memory = s.memory := st₁.memory
  obtain ⟨s₃, hs₃⟩ := editPage_exists (ed.fields pid) (hpcb.of_memory hm₂).frame
  have st₃ := editPage_stored hs₃
  have hm₃ : s₃.memory = s.memory := st₃.memory.trans hm₂
  have hh₃ : s₃.heap = s.heap := by
    have hk₁ : s₁.kernel.heap = s.kernel.heap := by rw [st₁.kernel]
    rw [Image.heap, st₃.kernel]
    exact hk₁
  obtain ⟨s₄, hs₄⟩ := getKernelPages_exists (hh₃ ▸ hg)
  have t₄ : Took mc 0 A s₃ s₄ bitmap bitmapPgCnt := getKernelPages_took (hm₃ ▸ hx) hs₄
  have hr₄ : BitmapMapped s₄ r :=
    BitmapMapped.keep ⟨hr.high, fun w hw => by rw [hm₃]; exact hr.mapped w hw⟩ t₄
  have hstart : 0xc0100 ≤ bitmap := t₄.gained.start
  obtain ⟨s₅, hs₅⟩ := memcpyPages_exists (n := bitmapPgCnt) (fun w hw => KernelPage.frame
    ⟨le_trans (by omega) hw.1, t₄.gained.mapped w hw⟩) fun w hw => hr₄.frame hw
  have st₅ := memcpyPages_stored hs₅
  have hpcb₅ := ((hpcb.of_memory hm₃).took t₄).of_memory st₅.memory
  obtain ⟨s₆, hs₆⟩ := editPage_exists (ed.bits bitmap) hpcb₅.frame
  have hpid₁ : allocatePid s₁.kernel.pidBits = some (bits, pid) := by
    rw [st₁.kernel, hpid]
  refine ⟨s₆, ?_⟩
  simp only [copyPcbVaddrbitmapStack0, bind_some_iff]
  refine ⟨s₁, hs₁, (bits, pid), hpid₁, s₃, hs₃, (s₄, some bitmap), hs₄, ?_⟩
  simp only [bind_some_iff]
  exact ⟨s₅, hs₅, s₆, hs₆, rfl⟩

/-- The kernel pages a fork gets are written without a fault. -/
theorem forkPages_exists (ed : PcbEdits) {k : Kernel} (hx : Exclusive mc s.memory A)
    (hself : KernelPage s r.pcb) (hr : BitmapMapped s r)
    (hp : ProcessMemory.forkPages mc s.kernel = some (k, some q)) :
    ∃ s', forkPages mc ed r s = some (s', some q) := by
  obtain ⟨h₁, h₂, h₃, ht⟩ := ProcessMemory.forkPages_some hp
  obtain ⟨s₁, hs₁⟩ := getKernelPages_exists (s := s) ht.gotPcb
  have t₁ : Took mc 0 A s s₁ q.pcb 1 := getKernelPages_took hx hs₁
  have hx₁ := t₁.exclusive hx
  have hh₁ : s₁.heap = h₁ := t₁.heap_eq ht.gotPcb
  obtain ⟨s₂, hs₂⟩ := getKernelPages_exists (s := s₁) (hh₁ ▸ ht.gotBuf)
  have t₂ : Took mc 0 A s₁ s₂ q.buf 1 := getKernelPages_took hx₁ hs₂
  have hx₂ := t₂.exclusive hx₁
  have hh₂ : s₂.heap = h₂ := t₂.heap_eq (hh₁ ▸ ht.gotBuf)
  have hpcb : KernelPage s₂ q.pcb := by
    have hstart : 0xc0100 ≤ q.pcb := t₁.gained.start
    exact KernelPage.took ⟨by omega, t₁.gained.mapped q.pcb (by simp)⟩ t₂
  have hr₂ : BitmapMapped s₂ r := (hr.keep t₁).keep t₂
  have hpid : allocatePid s₂.kernel.pidBits = some (k.pidBits, q.pid) := by
    rw [t₂.kernel, t₁.kernel]
    exact ht.gotPid
  obtain ⟨s₃, hs₃⟩ := copyPcb_exists ed hx₂ hpid (hh₂ ▸ ht.gotBitmap) hpcb
    ((hself.took t₁).took t₂) hr₂
  have hout : q.pcb ∉ span r.bitmap bitmapPgCnt := by
    intro hin
    obtain ⟨f, hf⟩ := hr.mapped _ hin
    rw [t₁.gained.unmapped q.pcb (by simp)] at hf
    cases hf
  have c₃ : PcbCopied mc 0 A r q.pcb s₂ s₃ q.pid q.bitmap :=
    copyPcb_copied hx₂ hpcb.high hpcb.mapped hr₂ hout hs₃
  have hh₃ : s₃.heap = h₃ := by
    have := (hh₂ ▸ ht.gotBitmap : ProcessMemory.getKernelPages mc s₂.heap _ = _).symm.trans c₃.got
    simpa using this.symm
  have hx₃ : Exclusive mc s₃.memory A := getKernelPages_exclusive hx₂ c₃.got
  obtain ⟨s₄, hs₄⟩ := createPageDir_exists hx₃ (hh₃ ▸ ht.gotPgdir)
  have t₄ : Took mc 0 A s₃ s₄ q.pgdir 1 := createPageDir_took hx₃ hs₄
  have hpcb₃ : KernelPage s₃ q.pcb := by
    obtain ⟨f, hf⟩ := hpcb.mapped
    exact ⟨hpcb.high, f, gained_keeps (getKernelPages_memory c₃.got) hf⟩
  obtain ⟨s₅, hs₅⟩ := editPage_exists (ed.pgdir q.pgdir) (hpcb₃.took t₄).frame
  refine ⟨s₅, ?_⟩
  simp only [forkPages, bind_some_iff]
  refine ⟨(s₁, some q.pcb), hs₁, ?_⟩
  simp only [bind_some_iff]
  refine ⟨(s₂, some q.buf), hs₂, ?_⟩
  simp only [bind_some_iff]
  refine ⟨(s₃, q.pid, some q.bitmap), hs₃, ?_⟩
  simp only [bind_some_iff]
  refine ⟨(s₄, some q.pgdir), hs₄, ?_⟩
  simp only [bind_some_iff]
  exact ⟨s₅, hs₅, rfl⟩

end ForkPages

/-- Every process has its kernel pages in the kernel half, and its pid is in use. -/
structure Named (k : Kernel) : Prop where
  high : ∀ p r, k.proc p = some r → 0xc0100 ≤ r.pcb ∧ 0xc0100 ≤ r.pgdir ∧ 0xc0100 ≤ r.bitmap
  pid : ∀ p r, k.proc p = some r →
    ∃ i, p = i + 1 ∧ bitmapScanTest (pidBitmap k.pidBits) i = true

/-- What the child has of its parent after a fork, and that the parent is as it was. -/
structure Forked (mc : Machine) (parent child : ℕ) (s s' : Image) : Prop where
  bitmap : (s'.memory.space (some child)).vaddr = (s.memory.space (some parent)).vaddr
  bitmapPages : ∃ r r', s.kernel.proc parent = some r ∧ s'.kernel.proc child = some r' ∧
    SamePages s s' r'.bitmap r.bitmap bitmapPgCnt
  pages : ∀ v, 0x8048 ≤ v → v < 0xc0000 → Reserved mc s.memory (some parent) v →
    HasCopy mc parent child s s' v
  distinct : ∀ v w g, v < 0xc0000 → w < 0xc0000 → s'.memory.frameAt (some child) v = some g →
    s'.memory.frameAt (some child) w = some g → v = w
  tables : s'.memory.space (some parent) = s.memory.space (some parent)
  contents : ∀ v f, v < 0xc0000 → s.memory.frameAt (some parent) v = some f →
    frameBytes s'.phys f = frameBytes s.phys f

theorem counts_mono {A B : ℕ → Prop} {pl : Place} (hAB : ∀ p, B p → A p) (hpl : Counts B pl) :
    Counts A pl := by
  match pl, hpl with
  | .page none _, _ => trivial
  | .page (some q) v, hpl => exact ⟨hAB q hpl.1, hpl.2⟩
  | .table q k, hpl => exact ⟨hAB q hpl.1, hpl.2⟩

section Fork

variable {mc : Machine} {ed : PcbEdits} {s s' s₁ : Image} {A : ℕ → Prop} {parent child : ℕ}
  {r : Proc} {q : ChildPages}

theorem sysFork_some (hf : sysFork mc ed s parent = some (s', some child)) :
    ∃ r q s₁ s₂, s.running = some parent ∧ s.kernel.proc parent = some r ∧ r.hanging = false ∧
      forkPages mc ed r s = some (s₁, some q) ∧ copyProcess mc ed parent r q s₁ = some s₂ ∧
      s' = s₂.setKernel (s₂.kernel.setProc q.pid
        (some ⟨q.pcb, q.pgdir, q.bitmap, parent, false⟩)) ∧ child = q.pid := by
  simp only [sysFork, assert_eq_some, bind_some_iff] at hf
  obtain ⟨_, hrun, r, hr, _, hhang, ⟨s₁, g⟩, hpages, hf⟩ := hf
  cases g with
  | none => simp at hf
  | some q =>
    simp only [bind_some_iff, Option.pure_def, Option.some.injEq, Prod.mk.injEq] at hf
    obtain ⟨s₂, hcopy, rfl, rfl⟩ := hf
    exact ⟨r, q, s₁, s₂, hrun, hr, hhang, hpages, hcopy, rfl, rfl⟩

/-- The image with the empty user half of the child. -/
def startCopy (parent : ℕ) (q : ChildPages) (s : Image) : Image :=
  s.setHeap (Heap.blockDescInit (Heap.freshSpace s.heap q.pid
    (s.memory.space (some parent)).vaddr) q.pid)

theorem startCopy_space {c : Ctx} (hc : c ≠ some q.pid) :
    (startCopy parent q s).memory.space c = s.memory.space c := setSpace_ne _ hc

theorem startCopy_keeps (hne : q.pid ≠ parent) :
    Keeps mc parent (Counts (· = parent)) s (startCopy parent q s) := by
  have hspace : ∀ c, c ≠ some q.pid → (startCopy parent q s).memory.space c = s.memory.space c :=
    fun c => startCopy_space
  have hparent : some parent ≠ some q.pid := fun h => hne (Option.some.inj h).symm
  refine ⟨fun pl f hpl hf => ⟨?_, rfl⟩, fun f _ ht => ?_, hspace _ hparent⟩
  · match pl, hpl with
    | .page none v, _ =>
      rw [← hf]
      exact frameAt_congr (by rw [hspace _ (Option.some_ne_none _).symm])
        (by rw [hspace _ (Option.some_ne_none _).symm])
    | .page (some p) v, hpl =>
      obtain rfl : p = parent := hpl.1
      rw [← hf]
      exact frameAt_congr (by rw [hspace _ hparent]) (by rw [hspace _ hparent])
    | .table p k, hpl =>
      obtain rfl : p = parent := hpl.1
      rw [← hf, frameOf, hspace _ hparent, frameOf]
  · exact (taken_congr rfl).trans ht

theorem mfreePage_space {m m' : Memory} {a n p : ℕ} (hm : mfreePage mc m none a n = some m') :
    m'.space (some p) = m.space (some p) := by
  obtain ⟨-, first, m₁, -, hu, rfl⟩ := mfreePage_cases hm
  have hm₁ : m₁.space (some p) = m.space (some p) := by
    refine unmapPages_invariant (fun m₁ => m₁.space (some p) = m.space (some p)) ?_ rfl hu
    intro m₂ w f _ hi _ _
    rw [pageTablePteRemove, setPte_space, if_neg (by simp), pfree_space, hi]
  rw [vaddrRemove, setVaddr_space, if_neg (Option.some_ne_none p), hm₁]

/-- The end of `copy_process`, with the child's stack built and the buffer given back. -/
structure Finished (q : ChildPages) (s s' : Image) : Prop where
  kernel : s'.kernel.proc = s.kernel.proc ∧ s'.kernel.pidBits = s.kernel.pidBits
  space : ∀ p, s'.memory.space (some p) = s.memory.space (some p)
  pages : ∀ w, w ≠ q.buf → s'.memory.frameAt none w = s.memory.frameAt none w
  bytes : ∀ f, s.memory.frameAt none q.pcb ≠ some f → frameBytes s'.phys f = frameBytes s.phys f

theorem copyProcess_some (hpcb : 0xc0000 ≤ q.pcb) (hc : copyProcess mc ed parent r q s = some s') :
    ∃ s₁, copyBodyStack3 mc parent r q (startCopy parent q s) = some s₁ ∧ Finished q s₁ s' := by
  simp only [copyProcess, bind_some_iff, Option.pure_def, Option.some.injEq] at hc
  obtain ⟨s₁, hcopy, s₂, hstack, m, hm, rfl⟩ := hc
  have hst : Stored {q.pcb} s₁ s₂ := editPage_stored hstack
  refine ⟨s₁, hcopy, ?_, fun p => ?_, fun w hw => ?_, fun f hf => hst.bytes f ?_⟩
  · rw [← hst.kernel]
    exact ⟨rfl, rfl⟩
  · rw [← hst.memory]
    exact mfreePage_space hm
  · rw [← hst.memory]
    refine (unmapped_one hm).2 none w ?_
    rintro ⟨-, hin⟩
    rw [mem_span] at hin
    omega
  · rintro _ rfl
    rw [frame_kernel hpcb]
    exact hf

theorem reserved_pageBit {v : ℕ} (hv : 0x8048 ≤ v) (hlt : v < 0xc0000)
    (hres : Reserved mc s.memory (some parent) v) :
    ∃ j < userBtmpLen, ∃ i < 8, v = pageOfBit j i ∧ PageBit s parent j i := by
  have hlen : userBtmpLen = 94199 := rfl
  refine ⟨(v - 0x8048) / 8, by omega, (v - 0x8048) % 8, by omega, ?_, ?_⟩
  · unfold pageOfBit
    omega
  · unfold Reserved bitmapScanTest at hres
    rw [PageBit, BitVec.and_comm]
    exact bne_iff_ne.mp hres

/-- The copying starts with the frames of the two processes apart. -/
theorem startCopy_copying (hs : Sound mc s.kernel) (hpar : Active s.kernel parent)
    (hrun : s₁.running = some parent)
    (hp : ProcessMemory.forkPages mc s.kernel = some (s₁.kernel, some q)) :
    Copying mc parent q (startCopy parent q s₁) := by
  obtain ⟨hx, -, -, hbuf, hnew, -⟩ := forkPages_structures parent hs hp
  have hframe : ∀ w, (startCopy parent q s₁).memory.frameAt none w = s₁.memory.frameAt none w :=
    fun w => frameAt_congr (by rw [startCopy_space (Option.some_ne_none _).symm])
      (by rw [startCopy_space (Option.some_ne_none _).symm])
  refine ⟨hrun, hx.freshSpace fun p hp => ?_, ?_, ?_⟩
  · rcases hp with rfl | rfl
    · exact .inl hpar
    · exact .inr rfl
  · rw [hframe]
    exact hbuf
  · rw [hframe]
    exact (hnew q.pgdir (.inr (.inl rfl))).2.1

theorem Named.fresh_pid {k : Kernel} {bits : Bytes} {pid : ℕ} (hn : Named k)
    (hr : k.proc parent = some r) (hp : allocatePid k.pidBits = some (bits, pid)) :
    pid ≠ parent := by
  obtain ⟨i, hi, hclear, -⟩ := allocatePid_some hp
  obtain ⟨j, rfl, hset⟩ := hn.pid parent r hr
  rw [hi]
  rintro he
  obtain rfl : i = j := by omega
  rw [hclear] at hset
  cases hset

theorem Named.fresh (hn : Named s.kernel) (hr : s.kernel.proc parent = some r)
    (hp : ProcessMemory.forkPages mc s.kernel = some (s₁.kernel, some q)) : q.pid ≠ parent := by
  obtain ⟨h₁, h₂, h₃, ht⟩ := ProcessMemory.forkPages_some hp
  exact hn.fresh_pid hr ht.gotPid

theorem startCopy_page {v f : ℕ} (hf : s.memory.frameAt none v = some f) (hv : 0xc0000 ≤ v) :
    KernelPage (startCopy parent q s) v := by
  have hspace : (startCopy parent q s).memory.space none = s.memory.space none :=
    startCopy_space (Option.some_ne_none _).symm
  exact ⟨hv, f, (frameAt_congr (by rw [hspace]) (by rw [hspace])).trans hf⟩

/-- Where the page tables allow a fork, none of its accesses faults. -/
theorem sysFork_exists (ed : PcbEdits) {k : Kernel} (hs : Sound mc s.kernel) (hn : Named s.kernel)
    (hrun : s.running = some parent)
    (hf : ProcessMemory.sysFork mc s.kernel parent = some (k, some child)) :
    ∃ s', sysFork mc ed s parent = some (s', some child) := by
  obtain ⟨k₁, q, h₁, ⟨r, hr, hhang⟩, hp, hcopy, -, rfl⟩ := ProcessMemory.sysFork_some hf
  have hpar : Active s.kernel parent := ⟨r, hr, hhang⟩
  obtain ⟨hhigh, hdirHigh, hmapHigh⟩ := hn.high parent r hr
  have hbitmap : BitmapMapped s r := ⟨by omega, fun w hw =>
    hs.structures.mapped parent r w hr (.inr (.inr ⟨hhang, hw⟩))⟩
  have hself : KernelPage s r.pcb := ⟨by omega, hs.structures.mapped parent r _ hr (.inl rfl)⟩
  obtain ⟨s₁, hs₁⟩ := forkPages_exists ed hs.frames hself hbitmap hp
  have hpf : PagesForked mc parent (Active s.kernel) r q s s₁ :=
    forkPages_forked hs.frames hbitmap hs₁
  have hk₁ : s₁.kernel = k₁ := by
    have := hpf.pages.symm.trans hp
    simpa using this
  subst hk₁
  have hne := hn.fresh hr hp
  have hstart := startCopy_copying hs hpar (hpf.running.trans hrun) hp
  obtain ⟨-, hst, -, -, hnew, -⟩ := forkPages_structures parent hs hp
  obtain ⟨fd, hfd⟩ := hst.mapped parent r r.pgdir hr (.inr (.inl rfl))
  obtain ⟨fp, hfp⟩ := (hnew q.pcb (.inl rfl)).2.1
  -- the loop runs as the one without bytes does
  obtain ⟨h₂, m, hloop, hfree, -⟩ := ProcessMemory.copyProcess_some hcopy
  have hmap := copyBodyStack3_map hstart hpf.apart hne
    (startCopy_page hfd (by omega) : KernelPage (startCopy parent q s₁) r.pgdir)
  obtain ⟨s₂, hs₂, rfl⟩ := Option.map_eq_some_iff.mp (hmap.trans hloop)
  have hprog := (copyBodyStack3_progress hpf.apart hne hstart hs₂).1
  have hpcb : KernelPage s₂ q.pcb :=
    KernelPage.progress (startCopy_page hfp hpf.pcb) hprog
  obtain ⟨s₃, hs₃⟩ := editPage_exists ed.stack hpcb.frame
  have hm₃ : s₃.memory = s₂.memory := (editPage_stored hs₃).memory
  have hend : copyProcess mc ed parent r q s₁ = some (s₃.setMemory m) := by
    simp only [copyProcess, bind_some_iff]
    exact ⟨s₂, hs₂, s₃, hs₃, m, hm₃ ▸ hfree, rfl⟩
  refine ⟨(s₃.setMemory m).setKernel ((s₃.setMemory m).kernel.setProc q.pid
    (some ⟨q.pcb, q.pgdir, q.bitmap, parent, false⟩)), ?_⟩
  simp only [sysFork, bind_some_iff, assert_eq_some]
  refine ⟨(), hrun, r, hr, (), hhang, (s₁, some q), hs₁, ?_⟩
  simp only [bind_some_iff]
  exact ⟨_, hend, rfl⟩

theorem sysFork_forked (hs : Sound mc s.kernel) (hn : Named s.kernel)
    (hf : sysFork mc ed s parent = some (s', some child)) : Forked mc parent child s s' := by
  obtain ⟨r, q, s₁, s₃, hrun, hr, hhang, hpages, hcopy, rfl, rfl⟩ := sysFork_some hf
  have hpar : Active s.kernel parent := ⟨r, hr, hhang⟩
  have hbitmap : BitmapMapped s r := by
    refine ⟨by have := (hn.high parent r hr).2.2; omega, fun w hw => ?_⟩
    exact hs.structures.mapped parent r w hr (.inr (.inr ⟨hhang, hw⟩))
  have hpf : PagesForked mc parent (Active s.kernel) r q s s₁ :=
    forkPages_forked hs.frames hbitmap hpages
  have hne := hn.fresh hr hpf.pages
  have hstart := startCopy_copying hs hpar (hpf.running.trans hrun) hpf.pages
  obtain ⟨s₂, hloop, hfin⟩ := copyProcess_some hpf.pcb hcopy
  obtain ⟨hprog, hdone⟩ := copyBodyStack3_progress hpf.apart hne hstart hloop
  -- up to the start of the copying the parent's and the kernel's places keep their bytes
  have k₀ : Keeps mc parent (Counts (· = parent)) s (startCopy parent q s₁) :=
    (hpf.keeps.mono fun pl => counts_mono fun p (hp : p = parent) => hp ▸ hpar).trans
      (startCopy_keeps hne)
  obtain ⟨-, -, -, -, hnew, -, -, hpcbOut, hpgdirOut⟩ :=
    forkPages_structures parent hs hpf.pages
  have hx := hprog.copying.frames
  have hspace : ∀ p v, s₃.memory.frameAt (some p) v = s₂.memory.frameAt (some p) v := fun p v =>
    frameAt_congr (by rw [hfin.space]) (by rw [hfin.space])
  -- the page of the `task_struct` has a frame of its own
  have hbytes : ∀ pl f, Counts (Both parent q) pl → pl ≠ .page none q.pcb →
      frameOf s₂.memory pl = some f → frameBytes s₃.phys f = frameBytes s₂.phys f := by
    intro pl f hpl hpcb hf
    refine hfin.bytes f fun hfp => hpcb ?_
    exact hx.once pl (.page none q.pcb) f hpl trivial hf hfp
  constructor
  case bitmap =>
    have hbits : (s₂.memory.space (some q.pid)).vaddr = (s₁.memory.space (some parent)).vaddr := by
      rw [hprog.vaddr]
      simp [startCopy, Image.setHeap, Image.setKernel, Image.memory, Kernel.setHeap,
        Heap.blockDescInit, Heap.freshSpace, Heap.setMemory, Image.heap]
    have hs₃ : s₃.memory.space (some q.pid) = s₂.memory.space (some q.pid) := hfin.space q.pid
    rw [← hpf.keeps.space, ← hbits, ← hs₃]
    rfl
  case bitmapPages =>
    refine ⟨r, _, hr, Kernel.setProc_self .., fun i hi => ?_⟩
    have hin : q.bitmap + i ∈ span q.bitmap bitmapPgCnt := ⟨by omega, by omega⟩
    have hguard : ∀ w ∈ span q.bitmap bitmapPgCnt, Guarded parent q (.page none w) := by
      intro w hw
      refine ⟨trivial, ?_, ?_, by simp⟩
      · simpa using (hnew w (.inr (.inr ⟨rfl, hw⟩))).1
      · rintro he
        simp only [Place.page.injEq, true_and] at he
        exact hpgdirOut (he ▸ hw)
    have hsame : SamePages s (startCopy parent q s₁) q.bitmap r.bitmap bitmapPgCnt :=
      hpf.same.keep (startCopy_keeps hne : Keeps mc parent _ s₁ _) fun w _ => trivial
    obtain ⟨f, g, hf, hg, hb⟩ := (hsame.keep hprog.keeps hguard) i hi
    refine ⟨f, g, hf, (hfin.pages _ ?_).trans hg, (hbytes (.page none (q.bitmap + i)) g trivial ?_
      hg).trans hb⟩
    · exact (hnew _ (.inr (.inr ⟨rfl, hin⟩))).1
    · rintro he
      simp only [Place.page.injEq, true_and] at he
      exact hpcbOut (he ▸ hin)
  case pages =>
    intro v hv hlt hres
    obtain ⟨j, hj, i, hi, rfl, hset⟩ := reserved_pageBit hv hlt hres
    have hset' : PageBit (startCopy parent q s₁) parent j i := by
      rw [PageBit, k₀.space]
      exact hset
    obtain ⟨f, g, hf, hg, hlow, hfree, hb⟩ := (hdone j hj i hi hset').since k₀ ⟨rfl, hlt⟩
    exact ⟨f, g, hf, (hspace _ _).trans hg, hlow, hfree,
      (hbytes (.page (some q.pid) _) g ⟨.inr rfl, hlt⟩ (by simp) hg).trans hb⟩
  case distinct =>
    intro v w g hv hw hg hg'
    have := hx.once (.page (some q.pid) v) (.page (some q.pid) w) g ⟨.inr rfl, hv⟩ ⟨.inr rfl, hw⟩
      ((hspace _ _).symm.trans hg) ((hspace _ _).symm.trans hg')
    simpa using this
  case tables =>
    have hs₃ : s₃.memory.space (some parent) = s₂.memory.space (some parent) := hfin.space parent
    exact hs₃.trans (hprog.keeps.space.trans k₀.space)
  case contents =>
    intro v f hv hf
    obtain ⟨hf₁, hb₁⟩ := k₀.places (.page (some parent) v) f ⟨rfl, hv⟩ hf
    obtain ⟨hf₂, hb₂⟩ := hprog.keeps.places _ f (guarded_user (.inl rfl) hv) hf₁
    exact (hbytes (.page (some parent) v) f ⟨.inl rfl, hv⟩ (by simp) hf₂).trans (hb₂.trans hb₁)

/-- The parent runs, its pages are mapped, and there is room for their copies. -/
structure Forkable (mc : Machine) (s : Image) (parent : ℕ) : Prop where
  running : s.running = some parent
  active : Active s.kernel parent
  mapped : ∀ v, 0x8048 ≤ v → v < 0xc0000 → Reserved mc s.memory (some parent) v →
    ∃ f, s.memory.frameAt (some parent) v = some f
  enough : ForkRoom.Enough mc s.kernel parent

theorem Forkable.returns (hs : Sound mc s.kernel) (hn : Named s.kernel)
    (h : Forkable mc s parent) : ∃ s' child, sysFork mc ed s parent = some (s', some child) := by
  obtain ⟨r, hr, hhang⟩ := h.active
  obtain ⟨k, child, hf⟩ := ForkRoom.sysFork_exists hs h.active (fun k' q hp => by
    obtain ⟨h₁, h₂, h₃, ht⟩ := ProcessMemory.forkPages_some hp
    exact hn.fresh_pid hr ht.gotPid) (fun v hv => by
    have hlen : userBtmpLen = 94199 := rfl
    obtain ⟨j, hj, i, hi, hbit, rfl⟩ := ForkRoom.mem_pagesOf.mp hv
    refine h.mapped _ (by omega) (by omega) ?_
    have hidx : (0x8048 + (i + j * 8) - vaddrStart (some parent)) = i + j * 8 := by
      simp only [vaddrStart]
      omega
    have hdiv : (i + j * 8) / 8 = j := by omega
    have hmod : (i + j * 8) % 8 = i := by omega
    rw [Reserved, hidx, bitmapScanTest, hdiv, hmod, BitVec.and_comm]
    exact bne_iff_ne.mpr hbit) h.enough
  obtain ⟨s', hs'⟩ := sysFork_exists ed hs hn h.running hf
  exact ⟨s', child, hs'⟩

/-- After a fork the child has its parent's memory, in frames that were free; and with room enough
the fork returns. -/
theorem sys_fork_copies_memory (hs : Sound mc s.kernel) (hn : Named s.kernel) :
    (∀ s' child, sysFork mc ed s parent = some (s', some child) → Forked mc parent child s s') ∧
      (Forkable mc s parent → ∃ s' child, sysFork mc ed s parent = some (s', some child)) :=
  ⟨fun _ _ hf => sysFork_forked hs hn hf, fun h => h.returns hs hn⟩

end Fork

section Runs

variable {mc : Machine} {k k' : Kernel} {bits : Bytes} {p pid parent child : ℕ} {r : Proc}

theorem Named.congr (hn : Named k) (hp : k'.proc = k.proc) (hb : k'.pidBits = k.pidBits) :
    Named k' := by
  refine ⟨fun p r hr => hn.high p r ?_, fun p r hr => ?_⟩
  · rw [← hp]
    exact hr
  · rw [hb]
    exact hn.pid p r (by rw [← hp]; exact hr)

/-- The pid of a process stays in use when another is handed out. -/
theorem Named.allocate (hn : Named k) (ha : allocatePid k.pidBits = some (bits, pid))
    (hp : k'.proc = k.proc) (hb : k'.pidBits = bits) : Named k' := by
  refine ⟨fun p r hr => hn.high p r (by rw [← hp]; exact hr), fun p r hr => ?_⟩
  obtain ⟨i, rfl, hi⟩ := hn.pid p r (by rw [← hp]; exact hr)
  exact ⟨i, rfl, by rw [hb]; exact allocatePid_keeps ha hi⟩

theorem Named.insert (hn : Named k) (ha : allocatePid k.pidBits = some (bits, pid))
    (hp : k'.proc = Function.update k.proc pid (some r)) (hb : k'.pidBits = bits)
    (hhigh : 0xc0100 ≤ r.pcb ∧ 0xc0100 ≤ r.pgdir ∧ 0xc0100 ≤ r.bitmap) : Named k' := by
  have hcases : ∀ p r', k'.proc p = some r' → (p = pid ∧ r' = r) ∨ k.proc p = some r' := by
    intro p r' hr
    rw [hp] at hr
    by_cases hpid : p = pid
    · subst hpid
      rw [Function.update_self] at hr
      exact .inl ⟨rfl, (Option.some.inj hr).symm⟩
    · rw [Function.update_of_ne hpid] at hr
      exact .inr hr
  constructor
  case high =>
    intro p r' hr
    rcases hcases p r' hr with ⟨-, rfl⟩ | hr
    · exact hhigh
    · exact hn.high p r' hr
  case pid =>
    intro p r' hr
    rw [hb]
    rcases hcases p r' hr with ⟨rfl, -⟩ | hr
    · obtain ⟨i, hi, -, hbits⟩ := allocatePid_some ha
      exact ⟨i, hi, by rw [hbits, if_pos rfl]⟩
    · obtain ⟨i, rfl, hi⟩ := hn.pid p r' hr
      exact ⟨i, rfl, allocatePid_keeps ha hi⟩

theorem processExecute_named (hn : Named k) (hx : processExecute mc k = some (k', p)) :
    Named k' := by
  simp only [processExecute, ProcessMemory.createPageDir, bind_some_iff, Option.pure_def,
    Option.some.injEq, Prod.mk.injEq] at hx
  obtain ⟨⟨h₁, r₁⟩, hpcb, pcb, rfl, ⟨bits, pid⟩, hpid, ⟨h₂, r₂⟩, hbm, bitmap, rfl, ⟨h₃, r₃⟩, hpd,
    pgdir, rfl, rfl, rfl⟩ := hx
  exact hn.insert hpid rfl rfl ⟨(getKernelPages_memory hpcb).start,
    (getKernelPages_memory hpd).start, (getKernelPages_memory hbm).start⟩

/-- Failed or not, a fork hands out one pid at most. -/
theorem forkPages_pids {q : Option ChildPages}
    (hf : ProcessMemory.forkPages mc k = some (k', q)) : k'.proc = k.proc ∧
      (k'.pidBits = k.pidBits ∨ ∃ pid, allocatePid k.pidBits = some (k'.pidBits, pid)) := by
  simp only [ProcessMemory.forkPages, bind_some_iff] at hf
  obtain ⟨⟨h₁, r₁⟩, -, hf⟩ := hf
  cases r₁ with
  | none =>
    simp only [Option.pure_def, Option.some.injEq, Prod.mk.injEq] at hf
    exact hf.1 ▸ ⟨rfl, .inl rfl⟩
  | some pcb =>
    simp only [bind_some_iff] at hf
    obtain ⟨⟨h₂, r₂⟩, -, hf⟩ := hf
    cases r₂ with
    | none =>
      simp only [Option.pure_def, Option.some.injEq, Prod.mk.injEq] at hf
      exact hf.1 ▸ ⟨rfl, .inl rfl⟩
    | some buf =>
      simp only [bind_some_iff] at hf
      obtain ⟨⟨bits, pid⟩, hpid, ⟨h₃, r₃⟩, -, hf⟩ := hf
      cases r₃ with
      | none =>
        simp only [Option.pure_def, Option.some.injEq, Prod.mk.injEq] at hf
        exact hf.1 ▸ ⟨rfl, .inr ⟨pid, hpid⟩⟩
      | some bitmap =>
        simp only [bind_some_iff] at hf
        obtain ⟨⟨h₄, r₄⟩, -, hf⟩ := hf
        cases r₄ with
        | none =>
          simp only [Option.pure_def, Option.some.injEq, Prod.mk.injEq] at hf
          exact hf.1 ▸ ⟨rfl, .inr ⟨pid, hpid⟩⟩
        | some pgdir =>
          simp only [Option.pure_def, Option.some.injEq, Prod.mk.injEq] at hf
          exact hf.1 ▸ ⟨rfl, .inr ⟨pid, hpid⟩⟩

theorem sysFork_named (hn : Named k) {c : Option ℕ}
    (hf : ProcessMemory.sysFork mc k parent = some (k', c)) : Named k' := by
  cases c with
  | none =>
    obtain ⟨hproc, hbits | ⟨pid, hpid⟩⟩ := forkPages_pids (sysFork_none hf)
    · exact hn.congr hproc hbits
    · exact hn.allocate hpid hproc rfl
  | some child =>
    obtain ⟨k₁, q, h₁, -, hp, -, rfl, rfl⟩ := ProcessMemory.sysFork_some hf
    obtain ⟨h₂, h₃, h₄, ht⟩ := ProcessMemory.forkPages_some hp
    refine hn.insert ht.gotPid (r := ⟨q.pcb, q.pgdir, q.bitmap, parent, false⟩) ?_ rfl
      ⟨(getKernelPages_memory ht.gotPcb).start, (getKernelPages_memory ht.gotPgdir).start,
        (getKernelPages_memory ht.gotBitmap).start⟩
    rw [← ht.proc]
    rfl

theorem sysExit_named (hn : Named k) (hx : sysExit mc k p = some k') : Named k' := by
  simp only [sysExit, bind_some_iff, assert_eq_some, Option.pure_def, Option.some.injEq] at hx
  obtain ⟨r, hr, _, -, m, -, rfl⟩ := hx
  have hcases : ∀ q r', ((k.setHeap (k.heap.setMemory m)).setProc p
      (some { r with hanging := true })).proc q = some r' →
      ∃ r₀, k.proc q = some r₀ ∧ r'.pcb = r₀.pcb ∧ r'.pgdir = r₀.pgdir ∧ r'.bitmap = r₀.bitmap := by
    intro q r' hq
    by_cases hqp : q = p
    · subst hqp
      rw [Kernel.setProc_self] at hq
      obtain rfl := Option.some.inj hq
      exact ⟨r, hr, rfl, rfl, rfl⟩
    · rw [Kernel.setProc_ne _ _ hqp] at hq
      exact ⟨r', hq, rfl, rfl, rfl⟩
  constructor
  case high =>
    intro q r' hq
    obtain ⟨r₀, hq₀, h1, h2, h3⟩ := hcases q r' hq
    rw [h1, h2, h3]
    exact hn.high q r₀ hq₀
  case pid =>
    intro q r' hq
    obtain ⟨r₀, hq₀, -⟩ := hcases q r' hq
    exact hn.pid q r₀ hq₀

theorem sysWait_named (hn : Named k) (hw : sysWait mc k parent child = some k') : Named k' := by
  simp only [sysWait, threadExit, bind_some_iff, assert_eq_some, Option.pure_def,
    Option.some.injEq] at hw
  obtain ⟨r, hr, _, -, m₁, -, m₂, -, rfl⟩ := hw
  obtain ⟨i, hchild, -⟩ := hn.pid child r hr
  have hcases : ∀ q r', Function.update k.proc child none q = some r' →
      q ≠ child ∧ k.proc q = some r' := by
    intro q r' hq
    by_cases hqc : q = child
    · subst hqc
      simp at hq
    · rw [Function.update_of_ne hqc] at hq
      exact ⟨hqc, hq⟩
  constructor
  case high =>
    intro q r' hq
    exact hn.high q r' (hcases q r' hq).2
  case pid =>
    intro q r' hq
    obtain ⟨hne, hq⟩ := hcases q r' hq
    obtain ⟨j, rfl, hj⟩ := hn.pid q r' hq
    refine ⟨j, rfl, ?_⟩
    have hij : j ≠ child - 1 := by omega
    have hbit := bitmapScanTest_set (pidBitmap k.pidBits) (child - 1) j false
    rw [if_neg hij, hj] at hbit
    exact hbit

theorem step_named {e : Event} (hn : Named k) (hstep : step mc e k = some k') : Named k' := by
  cases e with
  | malloc c n =>
    simp only [step, bind_some_iff, Option.pure_def, Option.some.injEq] at hstep
    obtain ⟨⟨m, r⟩, -, rfl⟩ := hstep
    exact hn.congr rfl rfl
  | mfree c v n =>
    simp only [step, bind_some_iff, Option.pure_def, Option.some.injEq] at hstep
    obtain ⟨m, -, rfl⟩ := hstep
    exact hn.congr rfl rfl
  | page c v =>
    simp only [step, bind_some_iff, Option.pure_def, Option.some.injEq] at hstep
    obtain ⟨m, -, rfl⟩ := hstep
    exact hn.congr rfl rfl
  | createPageDir =>
    simp only [step, bind_some_iff, Option.pure_def, Option.some.injEq] at hstep
    obtain ⟨⟨h, r⟩, -, rfl⟩ := hstep
    exact hn.congr rfl rfl
  | execute =>
    simp only [step, bind_some_iff, Option.pure_def, Option.some.injEq] at hstep
    obtain ⟨⟨k₁, p⟩, hx, rfl⟩ := hstep
    exact processExecute_named hn hx
  | fork parent =>
    simp only [step, bind_some_iff, Option.pure_def, Option.some.injEq] at hstep
    obtain ⟨⟨k₁, c⟩, hf, rfl⟩ := hstep
    exact sysFork_named hn hf
  | exit p => exact sysExit_named hn hstep
  | wait parent child => exact sysWait_named hn hstep

/-- What a fork relies on holds in every state the system reaches. -/
theorem run_sound_named {events : List Event} (hok : AllMeet (step mc) Holds events bootKernel)
    (hrun : runAll (step mc) events bootKernel = some k) : Sound mc k ∧ Named k := by
  refine runAll_invariant (fun k => Sound mc k ∧ Named k)
    (fun _ _ _ hs hok hstep => ⟨step_sound hs.1 hok hstep, step_named hs.2 hstep⟩)
    ⟨bootKernel_sound, ?_⟩ hok hrun
  constructor <;> simp [bootKernel]

/-- Without the stores into the `task_struct`. -/
def noEdits : PcbEdits := ⟨fun _ b => b, fun _ b => b, fun _ b => b, fun b => b⟩

/-- The first process forks. -/
theorem sys_fork_copies_memory_first : ∃ k p s' child, firstProcess = some (k, p) ∧
    sysFork smallMachine noEdits ⟨k, zeroes, some p, 0⟩ p = some (s', some child) ∧
    Forked smallMachine p child ⟨k, zeroes, some p, 0⟩ s' := by
  obtain ⟨k, p, k₁, q, k₂, k₃, k₄, hc, -⟩ := ProcessBalance.first_child_leaks
  have hfirst := hc.first
  simp only [firstProcess, bind_some_iff, Option.pure_def, Option.some.injEq] at hfirst
  obtain ⟨⟨k₀, p₀⟩, hexec, k₅, hstart, hk⟩ := hfirst
  obtain ⟨rfl, rfl⟩ := Prod.mk.inj hk
  have hsound : Sound smallMachine k₅ := by
    simp only [startProcess, bind_some_iff, Option.pure_def, Option.some.injEq] at hstart
    obtain ⟨m, hm, rfl⟩ := hstart
    exact page_sound (processExecute_sound bootKernel_sound hexec) hm
  have hnamed : Named k₅ := by
    have hboot : Named bootKernel := by constructor <;> simp [bootKernel]
    simp only [startProcess, bind_some_iff, Option.pure_def, Option.some.injEq] at hstart
    obtain ⟨m, -, rfl⟩ := hstart
    exact (processExecute_named hboot hexec).congr rfl rfl
  obtain ⟨s', hs'⟩ := sysFork_exists noEdits (s := ⟨k₅, zeroes, some p₀, 0⟩) hsound hnamed rfl
    hc.forked
  exact ⟨k₅, p₀, s', q, hc.first, hs', (sys_fork_copies_memory hsound hnamed).1 s' q hs'⟩

end Runs

end ForkCopy
