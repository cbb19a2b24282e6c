import XianweiOS.ProcessMemory

/-! Every frame has one user. The places that use frames are the pages of the kernel, the pages of
the processes that have not exited and the second-level tables of these. -/
namespace FrameExclusive

open ByteStore HaltingProgram KernelBitmap MemoryPages MemoryHeap ProcessMemory

inductive Place where
  | page (c : Ctx) (v : ℕ)
  | table (p k : ℕ)
  deriving DecidableEq, Repr

def frameOf (m : Memory) : Place → Option ℕ
  | .page c v => m.frameAt c v
  | .table p k => (m.space (some p)).pde k

/-- The places that count while the processes `A` have not exited. -/
def Counts (A : ℕ → Prop) : Place → Prop
  | .page none _ => True
  | .page (some p) v => A p ∧ v < 0xc0000
  | .table p k => A p ∧ k < 768

structure Exclusive (mc : Machine) (m : Memory) (A : ℕ → Prop) : Prop where
  marked : ∀ pl f, Counts A pl → frameOf m pl = some f →
    mc.phyStart .kernel ≤ f ∧ taken mc m f = true
  once : ∀ pl pl' f, Counts A pl → Counts A pl' → frameOf m pl = some f →
    frameOf m pl' = some f → pl = pl'

/-- A frame that is taken and has no place yet. -/
structure Loose (mc : Machine) (m : Memory) (A : ℕ → Prop) (f : ℕ) : Prop where
  low : mc.phyStart .kernel ≤ f
  marked : taken mc m f = true
  nowhere : ∀ pl, Counts A pl → frameOf m pl ≠ some f

section Frames

variable {mc : Machine} {m m' : Memory} {A B : ℕ → Prop} {c : Ctx} {v w n f g : ℕ} {pl : Place}

theorem taken_congr (hp : m'.pool = m.pool) : taken mc m' f = taken mc m f := by
  simp only [MemoryPages.taken, poolBitmap, hp]

theorem palloc_frameOf {pf : PoolFlag} {r : Option ℕ} (hp : palloc mc m pf = some (m', r)) :
    frameOf m' pl = frameOf m pl := by
  cases pl with
  | page c v => exact palloc_frameAt hp
  | table p k => simp only [frameOf, palloc_space hp]

/-- A frame just taken is loose, and the loose ones stay so. -/
theorem Exclusive.palloc (he : Exclusive mc m A) {pf : PoolFlag}
    (hp : palloc mc m pf = some (m', some f)) :
    Exclusive mc m' A ∧ Loose mc m' A f ∧
      ∀ g, Loose mc m A g → Loose mc m' A g ∧ g ≠ f := by
  obtain ⟨f', hf', hlow, -, hclear, hafter⟩ := palloc_taken hp
  obtain rfl := Option.some.inj hf'
  have hframe : ∀ pl, frameOf m' pl = frameOf m pl := fun pl => palloc_frameOf hp
  have hnowhere : ∀ pl, Counts A pl → frameOf m pl ≠ some f := by
    intro pl hpl hf
    have := (he.marked pl f hpl hf).2
    rw [hclear] at this
    cases this
  refine ⟨⟨?_, ?_⟩, ⟨hlow, ?_, ?_⟩, fun g hg => ⟨⟨hg.low, ?_, ?_⟩, ?_⟩⟩
  · intro pl g hpl hg
    rw [hframe] at hg
    obtain ⟨hlow', htaken⟩ := he.marked pl g hpl hg
    exact ⟨hlow', by rw [hafter g hlow', htaken, Bool.or_true]⟩
  · intro pl pl' g hpl hpl' hg hg'
    rw [hframe] at hg hg'
    exact he.once pl pl' g hpl hpl' hg hg'
  · rw [hafter f hlow, decide_eq_true rfl, Bool.true_or]
  · intro pl hpl
    rw [hframe]
    exact hnowhere pl hpl
  · rw [hafter g hg.low, hg.marked, Bool.or_true]
  · intro pl hpl
    rw [hframe]
    exact hg.nowhere pl hpl
  · rintro rfl
    have := hg.marked
    rw [hclear] at this
    cases this

/-- A loose frame is put in a place. -/
theorem Exclusive.put (pl₀ : Place) (he : Exclusive mc m A) (hf : Loose mc m A f)
    (hpool : m'.pool = m.pool)
    (hframe : ∀ pl, Counts A pl → frameOf m' pl = if pl = pl₀ then some f else frameOf m pl) :
    Exclusive mc m' A := by
  constructor
  case marked =>
    intro pl g hpl hg
    rw [hframe pl hpl] at hg
    rw [taken_congr hpool]
    split at hg
    · obtain rfl := Option.some.inj hg
      exact ⟨hf.low, hf.marked⟩
    · exact he.marked pl g hpl hg
  case once =>
    intro pl pl' g hpl hpl' hg hg'
    rw [hframe pl hpl] at hg
    rw [hframe pl' hpl'] at hg'
    split at hg
    · rename_i heq
      split at hg'
      · rename_i heq'
        rw [heq, heq']
      · rw [← hg] at hg'
        exact absurd hg' (hf.nowhere pl' hpl')
    · split at hg'
      · rw [← hg'] at hg
        exact absurd hg (hf.nowhere pl hpl)
      · exact he.once pl pl' g hpl hpl' hg hg'

theorem Exclusive.congr (he : Exclusive mc m A) (hpool : m'.pool = m.pool)
    (hframe : ∀ pl, Counts A pl → frameOf m' pl = frameOf m pl) : Exclusive mc m' A := by
  constructor
  case marked =>
    intro pl g hpl hg
    rw [hframe pl hpl] at hg
    rw [taken_congr hpool]
    exact he.marked pl g hpl hg
  case once =>
    intro pl pl' g hpl hpl' hg hg'
    rw [hframe pl hpl] at hg
    rw [hframe pl' hpl'] at hg'
    exact he.once pl pl' g hpl hpl' hg hg'

theorem Counts.mono (hAB : ∀ p, B p → A p) (h : Counts B pl) : Counts A pl := by
  match pl, h with
  | .page none _, _ => trivial
  | .page (some q) v, h => exact ⟨hAB q h.1, h.2⟩
  | .table q k, h => exact ⟨hAB q h.1, h.2⟩

theorem Exclusive.mono (he : Exclusive mc m A) (hAB : ∀ p, B p → A p) : Exclusive mc m B := by
  constructor
  · exact fun pl f hpl => he.marked pl f (hpl.mono hAB)
  · exact fun pl pl' f hpl hpl' => he.once pl pl' f (hpl.mono hAB) (hpl'.mono hAB)

theorem frameOf_setPte {e : Pte} (ht : (m.space c).tablePresent (v / 1024) = true) :
    frameOf (m.setPte c v e) pl =
      if pl = .page c v then (if e.present then some e.frame else none) else frameOf m pl := by
  cases pl with
  | page h w =>
    simp only [frameOf, frameAt_setPte ht, Place.page.injEq]
  | table p k => simp [frameOf]

/-- A new table that maps nothing. -/
theorem Exclusive.setTable (he : Exclusive mc m A) (hf : Loose mc m A f) {k : ℕ}
    (hk : (m.space c).tablePresent k = false) : Exclusive mc (m.setTable c k f) A := by
  have hpages : ∀ h w, frameOf (m.setTable c k f) (.page h w) = frameOf m (.page h w) :=
    fun h w => frameAt_setTable hk
  cases c with
  | none =>
    refine he.congr rfl fun pl _ => ?_
    cases pl with
    | page h w => exact hpages h w
    | table p j => simp [frameOf, setTable_pde]
  | some p =>
    refine he.put (.table p k) hf rfl fun pl _ => ?_
    cases pl with
    | page h w => simpa using hpages h w
    | table q j => simp [frameOf, setTable_pde]

theorem Loose.setTable (hg : Loose mc m A g) (hne : g ≠ f) {k : ℕ}
    (hk : (m.space c).tablePresent k = false) : Loose mc (m.setTable c k f) A g := by
  refine ⟨hg.low, (taken_congr rfl).trans hg.marked, fun pl hpl => ?_⟩
  cases pl with
  | page h w =>
    have hpage : frameOf (m.setTable c k f) (.page h w) = frameOf m (.page h w) :=
      frameAt_setTable hk
    rw [hpage]
    exact hg.nowhere _ hpl
  | table q j =>
    simp only [frameOf, setTable_pde]
    split
    · intro he
      exact hne (Option.some.inj he).symm
    · exact hg.nowhere (.table q j) hpl

theorem Exclusive.pageTableAdd (he : Exclusive mc m A) (hf : Loose mc m A f)
    (ha : pageTableAdd mc m c v f = some m') : Exclusive mc m' A := by
  obtain ⟨-, ⟨ht, -, rfl⟩ | ⟨ht, m₁, t, hp, rfl⟩⟩ := pageTableAdd_cases ha
  · refine he.put (.page (home c v) v) hf rfl fun pl _ => ?_
    rw [frameOf_setPte ht]
    simp
  · obtain ⟨he₁, ht₁, hloose⟩ := he.palloc hp
    obtain ⟨hf₁, hne⟩ := hloose f hf
    have hk : (m₁.space (home c v)).tablePresent (v / 1024) = false := by
      rw [palloc_space hp, ht]
    refine (he₁.setTable ht₁ hk).put (.page (home c v) v) (hf₁.setTable hne hk) rfl
      fun pl _ => ?_
    rw [frameOf_setPte setTable_present]
    simp

theorem Exclusive.mapOne (he : Exclusive mc m A) {m₁ : Memory} {pf : PoolFlag}
    (hp : MemoryPages.palloc mc m pf = some (m₁, some f))
    (ha : MemoryPages.pageTableAdd mc m₁ c v f = some m') : Exclusive mc m' A := by
  obtain ⟨he₁, hf, -⟩ := he.palloc hp
  exact he₁.pageTableAdd hf ha

theorem Exclusive.setVaddr (he : Exclusive mc m A) (b : Bytes) :
    Exclusive mc (m.setVaddr c b) A := by
  refine he.congr rfl fun pl _ => ?_
  cases pl with
  | page h w => exact setVaddr_frameAt b
  | table p k => simp [frameOf]

theorem Exclusive.mallocPage (he : Exclusive mc m A) {r : Option ℕ}
    (hm : mallocPage mc m c n = some (m', r)) : Exclusive mc m' A := by
  obtain ⟨hn, ⟨-, rfl⟩ | ⟨v, m₁, -, hg, hmap⟩⟩ := mallocPage_cases hm
  · exact he
  · refine mapPages_invariant (Exclusive mc · A)
      (fun m₂ m₃ m₄ w f _ he₂ hp ha => he₂.mapOne hp ha) ?_ hmap
    rcases vaddrGet_cases hg hn with ⟨-, rfl⟩ | ⟨i, -, -, -, rfl⟩
    · exact he
    · exact he.setVaddr _

theorem Exclusive.getAPage (he : Exclusive mc m A) (hg : getAPage mc m c v = some m') :
    Exclusive mc m' A := by
  obtain ⟨m₁, f, hp, ha⟩ := getAPage_cases hg
  exact (he.setVaddr _).mapOne hp ha

/-- A page is given back with its frame. -/
theorem Exclusive.unmapOne (he : Exclusive mc m A) (hcount : Counts A (.page (home c v) v))
    (hf : m.frameAt (home c v) v = some f) (ha : addrV2p m c v = some f) :
    Exclusive mc (pageTablePteRemove (pfree mc m f) c v) A := by
  have hlow := (he.marked _ f hcount hf).1
  have htable : ((pfree mc m f).space (home c v)).tablePresent (v / 1024) = true :=
    (addrV2p_table ha).1
  have hframe : ∀ pl, frameOf (pageTablePteRemove (pfree mc m f) c v) pl =
      if pl = .page (home c v) v then none else frameOf m pl := by
    intro pl
    rw [pageTablePteRemove, frameOf_setPte htable]
    cases pl <;> rfl
  have htaken : ∀ g, mc.phyStart .kernel ≤ g →
      taken mc (pageTablePteRemove (pfree mc m f) c v) g = if g = f then false else taken mc m g := by
    intro g hg
    rw [← taken_pfree hlow hg]
    exact taken_congr rfl
  constructor
  case marked =>
    intro pl g hpl hg
    rw [hframe] at hg
    split at hg
    · cases hg
    · rename_i hne
      obtain ⟨hlow', ht⟩ := he.marked pl g hpl hg
      refine ⟨hlow', ?_⟩
      rw [htaken g hlow', if_neg, ht]
      rintro rfl
      exact hne (he.once pl _ g hpl hcount hg hf)
  case once =>
    intro pl pl' g hpl hpl' hg hg'
    rw [hframe] at hg hg'
    split at hg
    · cases hg
    · split at hg'
      · cases hg'
      · exact he.once pl pl' g hpl hpl' hg hg'

theorem Exclusive.unmapPages {first : ℕ} (he : Exclusive mc m A)
    (hcount : ∀ w ∈ span v n, home c w = c ∧ Counts A (.page c w))
    (hmapped : ∀ w ∈ span v n, ∃ f, m.frameAt c w = some f)
    (hu : unmapPages mc c first n m v = some m') : Exclusive mc m' A := by
  induction n generalizing m v with
  | zero => exact Option.some.inj hu ▸ he
  | succ n ih =>
    obtain ⟨f, ha, -, hu⟩ := unmapPages_succ hu
    obtain ⟨g, hg⟩ := hmapped v (by simp)
    obtain ⟨hhome, hcv⟩ := hcount v (by simp)
    rw [← hhome] at hg hcv
    obtain rfl : g = f := Option.some.inj ((addrV2p_of_mapped hg).symm.trans ha)
    have hin : ∀ w ∈ span (v + 1) n, w ∈ span v (n + 1) ∧ w ≠ v := by
      intro w hw
      simp only [mem_span] at hw ⊢
      omega
    refine ih (he.unmapOne hcv hg ha) (fun w hw => hcount w (hin w hw).1) (fun w hw => ?_) hu
    obtain ⟨g', hg'⟩ := hmapped w (hin w hw).1
    refine ⟨g', ?_⟩
    rw [pageTablePteRemove_frameAt ha, if_neg (fun hh => (hin w hw).2 hh.2), hg']

theorem Exclusive.mfreePage (he : Exclusive mc m A)
    (hcount : ∀ w ∈ span v n, home c w = c ∧ Counts A (.page c w))
    (hmapped : ∀ w ∈ span v n, ∃ f, m.frameAt c w = some f)
    (hm : mfreePage mc m c v n = some m') : Exclusive mc m' A := by
  obtain ⟨-, first, m₁, -, hu, rfl⟩ := mfreePage_cases hm
  exact (he.unmapPages hcount hmapped hu).setVaddr _

/-- A process that exits gives back all its frames. -/
theorem Exclusive.freeTables (he : Exclusive mc m A) {p : ℕ} (hA : A p)
    (hB : ∀ q, B q → A q ∧ q ≠ p) :
    Exclusive mc (freeTables mc (m.space (some p)) m) B := by
  have hcounts : ∀ pl, Counts B pl → Counts A pl :=
    fun pl hpl => hpl.mono fun q hq => (hB q hq).1
  -- no place that counts on is one of the process
  have hother : ∀ pl, Counts B pl → (∀ v, pl ≠ .page (some p) v) ∧ ∀ k, pl ≠ .table p k := by
    intro pl hpl
    constructor
    · rintro v rfl
      exact (hB p hpl.1).2 rfl
    · rintro k rfl
      exact (hB p hpl.1).2 rfl
  have hfreed : ∀ pl pl' f g, Counts B pl → Counts A pl' → pl ≠ pl' → frameOf m pl = some f →
      frameOf m pl' = some g → f ≠ g := by
    rintro pl pl' f g hpl hpl' hne hf hg rfl
    exact hne (he.once pl pl' f (hcounts pl hpl) hpl' hf hg)
  set Inv : Memory → Prop := fun m₁ => m₁.space = m.space ∧ ∀ pl f, Counts B pl →
    frameOf m pl = some f → mc.phyStart .kernel ≤ f ∧ taken mc m₁ f = true with hInv
  have hpage : ∀ m₁ v, v < 0xc0000 → (m.space (some p)).tablePresent (v / 1024) = true →
      ((m.space (some p)).pte v).present = true → Inv m₁ →
      Inv (pfree mc m₁ ((m.space (some p)).pte v).frame) := by
    rintro m₁ v hv ht hpres ⟨hspace, htaken⟩
    refine ⟨hspace, fun pl f hpl hf => ?_⟩
    obtain ⟨hlow, htk⟩ := htaken pl f hpl hf
    have hplace : frameOf m (.page (some p) v) = some ((m.space (some p)).pte v).frame := by
      simp [frameOf, Memory.frameAt, ht, hpres]
    have hcount : Counts A (.page (some p) v) := ⟨hA, hv⟩
    refine ⟨hlow, ?_⟩
    rw [taken_pfree (he.marked _ _ hcount hplace).1 hlow, if_neg, htk]
    exact hfreed pl _ f _ hpl hcount ((hother pl hpl).1 v) hf hplace
  have htable : ∀ m₁ k t, k < 768 → (m.space (some p)).pde k = some t → Inv m₁ →
      Inv (pfree mc m₁ t) := by
    rintro m₁ k t hk hpde ⟨hspace, htaken⟩
    refine ⟨hspace, fun pl f hpl hf => ?_⟩
    obtain ⟨hlow, htk⟩ := htaken pl f hpl hf
    have hcount : Counts A (.table p k) := ⟨hA, hk⟩
    refine ⟨hlow, ?_⟩
    rw [taken_pfree (he.marked _ t hcount hpde).1 hlow, if_neg, htk]
    exact hfreed pl _ f t hpl hcount ((hother pl hpl).2 k) hf hpde
  obtain ⟨hspace, htaken⟩ := freeTables_invariant Inv hpage htable
    ⟨rfl, fun pl f hpl hf => he.marked pl f (hcounts pl hpl) hf⟩
  have hframe : ∀ pl, frameOf (ProcessMemory.freeTables mc (m.space (some p)) m) pl =
      frameOf m pl := by
    intro pl
    cases pl with
    | page c v => simp only [frameOf, Memory.frameAt, hspace]
    | table q k => simp only [frameOf, hspace]
  constructor
  case marked =>
    intro pl f hpl hf
    rw [hframe] at hf
    exact htaken pl f hpl hf
  case once =>
    intro pl pl' f hpl hpl' hf hf'
    rw [hframe] at hf hf'
    exact he.once pl pl' f (hcounts pl hpl) (hcounts pl' hpl') hf hf'

/-- A process that starts with an empty user half has no places yet. -/
theorem Exclusive.freshSpace (he : Exclusive mc m A) {p : ℕ} {vaddr : Bytes}
    (hB : ∀ q, B q → A q ∨ q = p) :
    Exclusive mc (m.setSpace (some p) ⟨vaddr, fun _ => none, fun _ => ⟨0, false⟩⟩) B := by
  set m₁ := m.setSpace (some p) ⟨vaddr, fun _ => none, fun _ => ⟨0, false⟩⟩ with hm₁
  have hnew : ∀ pl f, Counts B pl → frameOf m₁ pl = some f → Counts A pl ∧ frameOf m pl = some f := by
    intro pl f hpl hf
    match pl, hpl with
    | .page none v, _ =>
      refine ⟨trivial, ?_⟩
      simpa [frameOf, Memory.frameAt, hm₁, setSpace_ne] using hf
    | .page (some q) v, hpl =>
      by_cases hqp : q = p
      · subst q
        simp [frameOf, Memory.frameAt, hm₁] at hf
      · refine ⟨⟨(hB q hpl.1).resolve_right hqp, hpl.2⟩, ?_⟩
        have hne : (some q : Ctx) ≠ some p := fun h => hqp (Option.some.inj h)
        simpa [frameOf, Memory.frameAt, hm₁, setSpace_ne _ hne] using hf
    | .table q k, hpl =>
      by_cases hqp : q = p
      · subst q
        simp [frameOf, hm₁] at hf
      · refine ⟨⟨(hB q hpl.1).resolve_right hqp, hpl.2⟩, ?_⟩
        have hne : (some q : Ctx) ≠ some p := fun h => hqp (Option.some.inj h)
        simpa [frameOf, hm₁, setSpace_ne _ hne] using hf
  constructor
  case marked =>
    intro pl f hpl hf
    obtain ⟨hpl', hf'⟩ := hnew pl f hpl hf
    have hpool : m₁.pool = m.pool := rfl
    rw [taken_congr hpool]
    exact he.marked pl f hpl' hf'
  case once =>
    intro pl pl' f hpl hpl' hf hf'
    obtain ⟨hc, hg⟩ := hnew pl f hpl hf
    obtain ⟨hc', hg'⟩ := hnew pl' f hpl' hf'
    exact he.once pl pl' f hc hc' hg hg'

end Frames

def Active (k : Kernel) (p : ℕ) : Prop := ∃ r, k.proc p = some r ∧ r.hanging = false

/-- The kernel pages a process keeps until it is reaped, or until it exits. -/
def structPages (r : Proc) : Set ℕ :=
  {v | v = r.pcb ∨ v = r.pgdir ∨ (r.hanging = false ∧ v ∈ span r.bitmap bitmapPgCnt)}

structure Structures (m : Memory) (proc : ℕ → Option Proc) : Prop where
  mapped : ∀ p r v, proc p = some r → v ∈ structPages r → ∃ f, m.frameAt none v = some f
  apart : ∀ p q r r' v, proc p = some r → proc q = some r' → v ∈ structPages r →
    v ∈ structPages r' → p = q
  distinct : ∀ p r, proc p = some r → r.pcb ≠ r.pgdir ∧ (r.hanging = false →
    r.pcb ∉ span r.bitmap bitmapPgCnt ∧ r.pgdir ∉ span r.bitmap bitmapPgCnt)

section Structures

variable {mc : Machine} {m m' : Memory} {proc : ℕ → Option Proc} {p v a n f : ℕ} {r : Proc} {c : Ctx}

theorem Structures.remap (hs : Structures m proc) (hm : ∀ p r v, proc p = some r →
    v ∈ structPages r → ∃ f, m'.frameAt none v = some f) : Structures m' proc :=
  ⟨hm, hs.apart, hs.distinct⟩

theorem gained_keeps (hg : Gained mc m m' c a n) {h : Ctx} (hv : m.frameAt h v = some f) :
    m'.frameAt h v = some f := by
  rw [hg.others h v, hv]
  rintro ⟨rfl, hin⟩
  rw [hg.unmapped v hin] at hv
  cases hv

theorem Structures.gain (hs : Structures m proc) (hg : Gained mc m m' c a n) :
    Structures m' proc := by
  refine hs.remap fun p r v hp hv => ?_
  obtain ⟨f, hf⟩ := hs.mapped p r v hp hv
  exact ⟨f, gained_keeps hg hf⟩

theorem Structures.not_unmapped (hs : Structures m proc) (hp : proc p = some r)
    (hv : v ∈ structPages r) : m.frameAt none v ≠ none := by
  obtain ⟨f, hf⟩ := hs.mapped p r v hp hv
  rw [hf]
  exact Option.some_ne_none f

theorem Structures.insert (hs : Structures m proc)
    (hmapped : ∀ v ∈ structPages r, ∃ f, m.frameAt none v = some f)
    (hnew : ∀ q r' v, proc q = some r' → v ∈ structPages r' → v ∉ structPages r)
    (hdistinct : r.pcb ≠ r.pgdir ∧ (r.hanging = false →
      r.pcb ∉ span r.bitmap bitmapPgCnt ∧ r.pgdir ∉ span r.bitmap bitmapPgCnt)) :
    Structures m (Function.update proc p (some r)) := by
  have hcases : ∀ q r', Function.update proc p (some r) q = some r' →
      (q = p ∧ r' = r) ∨ proc q = some r' := by
    intro q r' hq
    by_cases hqp : q = p
    · subst q
      rw [Function.update_self] at hq
      exact .inl ⟨rfl, (Option.some.inj hq).symm⟩
    · rw [Function.update_of_ne hqp] at hq
      exact .inr hq
  constructor
  case mapped =>
    intro q r' v hq hv
    rcases hcases q r' hq with ⟨-, rfl⟩ | hq
    · exact hmapped v hv
    · exact hs.mapped q r' v hq hv
  case apart =>
    intro q q' r₁ r₂ v hq hq' hv hv'
    rcases hcases q r₁ hq with ⟨rfl, rfl⟩ | hq₁
    · rcases hcases q' r₂ hq' with ⟨rfl, -⟩ | hq₂
      · rfl
      · exact absurd hv (hnew q' r₂ v hq₂ hv')
    · rcases hcases q' r₂ hq' with ⟨rfl, rfl⟩ | hq₂
      · exact absurd hv' (hnew q r₁ v hq₁ hv)
      · exact hs.apart q q' r₁ r₂ v hq₁ hq₂ hv hv'
  case distinct =>
    intro q r' hq
    rcases hcases q r' hq with ⟨-, rfl⟩ | hq
    · exact hdistinct
    · exact hs.distinct q r' hq

/-- A record that needs no page it did not need before, or none at all. -/
theorem Structures.shrink (hs : Structures m proc) {r₁ : Option Proc} (hp : proc p = some r)
    (hsub : ∀ r', r₁ = some r' → structPages r' ⊆ structPages r ∧ r'.pcb = r.pcb ∧
      r'.pgdir = r.pgdir ∧ r'.hanging = true) :
    Structures m (Function.update proc p r₁) := by
  have hcases : ∀ q r', Function.update proc p r₁ q = some r' →
      ∃ r₂, proc q = some r₂ ∧ structPages r' ⊆ structPages r₂ ∧
        r'.pcb = r₂.pcb ∧ r'.pgdir = r₂.pgdir ∧ (r'.hanging = true ∨ r' = r₂) := by
    intro q r' hq
    by_cases hqp : q = p
    · subst q
      rw [Function.update_self] at hq
      obtain ⟨h1, h2, h3, h4⟩ := hsub r' hq
      exact ⟨r, hp, h1, h2, h3, .inl h4⟩
    · rw [Function.update_of_ne hqp] at hq
      exact ⟨r', hq, subset_rfl, rfl, rfl, .inr rfl⟩
  constructor
  case mapped =>
    intro q r' v hq hv
    obtain ⟨r₂, hq, hsub, -⟩ := hcases q r' hq
    exact hs.mapped q r₂ v hq (hsub hv)
  case apart =>
    intro q q' r₁ r₂ v hq hq' hv hv'
    obtain ⟨r₃, hq, hsub, -⟩ := hcases q r₁ hq
    obtain ⟨r₄, hq', hsub', -⟩ := hcases q' r₂ hq'
    exact hs.apart q q' r₃ r₄ v hq hq' (hsub hv) (hsub' hv')
  case distinct =>
    intro q r' hq
    obtain ⟨r₂, hq, -, h2, h3, h4⟩ := hcases q r' hq
    obtain ⟨hne, hout⟩ := hs.distinct q r₂ hq
    rcases h4 with h4 | rfl
    · refine ⟨by rw [h2, h3]; exact hne, fun hh => ?_⟩
      rw [h4] at hh
      cases hh
    · exact ⟨hne, hout⟩

theorem unmapped_one {m m' : Memory} (hm : mfreePage mc m none a n = some m') :
    (∀ w ∈ span a n, m'.frameAt none w = none) ∧
      ∀ h w, ¬(h = none ∧ w ∈ span a n) → m'.frameAt h w = m.frameAt h w := by
  obtain ⟨-, first, m₁, -, hu, rfl⟩ := mfreePage_cases hm
  obtain ⟨h1, h2⟩ := unmapPages_frameAt hu (.inl rfl)
  refine ⟨fun w hw => ?_, fun h w hw => ?_⟩
  · rw [vaddrRemove, setVaddr_frameAt, h1 w hw]
  · rw [vaddrRemove, setVaddr_frameAt, h2 h w hw]

end Structures

/-- What holds of the memory of all processes together. -/
structure Sound (mc : Machine) (k : Kernel) : Prop where
  frames : Exclusive mc k.heap.memory (Active k)
  structures : Structures k.heap.memory k.proc

section Fork

variable {mc : Machine} {k k' : Kernel} {h h' : Heap} {A B : ℕ → Prop} {parent child buf v : ℕ}

theorem copyPage_frameAt (hv : v < 0xc0000) (hc : copyPage mc parent child h v = some h') (w : ℕ) :
    h'.memory.frameAt none w = h.memory.frameAt none w := by
  obtain ⟨m₁, m₂, f, -, hp, ha, rfl⟩ := copyPage_some hc
  rw [setHeader_memory, setMemory_memory, (pageTableAdd_frameAt ha).2 none w, home_user hv]
  simp [palloc_frameAt hp]

theorem copyProcess_kernel (hc : copyProcess mc h parent child buf = some h') :
    ∀ w, h'.memory.frameAt none w = if w = buf then none else h.memory.frameAt none w := by
  obtain ⟨h₁, m, hcopy, hm, rfl⟩ := copyProcess_some hc
  intro w
  have hkeep := copyBodyStack3_invariant
    (fun h₁ => h₁.memory.frameAt none w = h.memory.frameAt none w)
    (fun h₂ h₃ v hv hi hc => (copyPage_frameAt hv hc w).trans hi)
    (by simp [Heap.blockDescInit, Heap.freshSpace, Memory.frameAt, setSpace_ne]) hcopy
  obtain ⟨hnone, hothers⟩ := unmapped_one hm
  rw [setMemory_memory]
  by_cases hw : w = buf
  · subst w
    rw [if_pos rfl, hnone buf (by simp)]
  · rw [if_neg hw, hothers none w, hkeep]
    rintro ⟨-, hin⟩
    rw [mem_span] at hin
    omega

theorem Exclusive.copyProcess (he : Exclusive mc h.memory A) (hB : ∀ q, B q → A q ∨ q = child)
    (hbuf : ∃ f, h.memory.frameAt none buf = some f)
    (hc : copyProcess mc h parent child buf = some h') : Exclusive mc h'.memory B := by
  obtain ⟨h₁, m, hcopy, hm, rfl⟩ := copyProcess_some hc
  have he₁ : Exclusive mc h₁.memory B := by
    refine copyBodyStack3_invariant (fun h₁ => Exclusive mc h₁.memory B) ?_
      (he.freshSpace hB) hcopy
    intro h₂ h₃ v _ hi hpage
    obtain ⟨m₁, m₂, f, -, hp, ha, rfl⟩ := copyPage_some hpage
    exact hi.mapOne hp ha
  have hmapped : ∃ f, h₁.memory.frameAt none buf = some f := by
    have hkeep := copyBodyStack3_invariant
      (fun h₁ => h₁.memory.frameAt none buf = h.memory.frameAt none buf)
      (fun h₂ h₃ v hv hi hc => (copyPage_frameAt hv hc buf).trans hi)
      (by simp [Heap.blockDescInit, Heap.freshSpace, Memory.frameAt, setSpace_ne]) hcopy
    rw [hkeep]
    exact hbuf
  have hone : ∀ w ∈ span buf 1, w = buf := by
    intro w hw
    rw [mem_span] at hw
    omega
  exact he₁.mfreePage (fun w _ => ⟨home_none, trivial⟩) (fun w hw => hone w hw ▸ hmapped) hm

theorem getKernelPages_exclusive {n a : ℕ} (he : Exclusive mc h.memory A)
    (hg : getKernelPages mc h n = some (h', some a)) : Exclusive mc h'.memory A := by
  obtain ⟨m, hm, rfl⟩ := getKernelPages_gained hg
  exact he.mallocPage hm

/-- The kernel pages of the new process are mapped, and no other process needs them. -/
theorem forkPages_structures (parent : ℕ) {q : ChildPages} (hs : Sound mc k)
    (hf : forkPages mc k = some (k', some q)) :
    Exclusive mc k'.heap.memory (Active k) ∧ Structures k'.heap.memory k.proc ∧
      k'.proc = k.proc ∧ (∃ f, k'.heap.memory.frameAt none q.buf = some f) ∧
      (∀ v ∈ structPages ⟨q.pcb, q.pgdir, q.bitmap, parent, false⟩, v ≠ q.buf ∧
        (∃ f, k'.heap.memory.frameAt none v = some f) ∧
        ∀ p r, k.proc p = some r → v ∉ structPages r) ∧
      (∀ p r, k.proc p = some r → q.buf ∉ structPages r) ∧
      q.pcb ≠ q.pgdir ∧ q.pcb ∉ span q.bitmap bitmapPgCnt ∧
      q.pgdir ∉ span q.bitmap bitmapPgCnt := by
  obtain ⟨h₁, h₂, h₃, ht⟩ := forkPages_some hf
  have g₁ := getKernelPages_memory ht.gotPcb
  have g₂ := getKernelPages_memory ht.gotBuf
  have g₃ := getKernelPages_memory ht.gotBitmap
  have g₄ := getKernelPages_memory ht.gotPgdir
  have s₁ := hs.structures.gain g₁
  have s₂ := s₁.gain g₂
  have s₃ := s₂.gain g₃
  have hone : ∀ a : ℕ, a ∈ span a 1 := fun a => by simp
  -- where each page is mapped, and where it was not yet
  obtain ⟨fp, hp₁⟩ := g₁.mapped q.pcb (hone _)
  obtain ⟨fb, hb₂⟩ := g₂.mapped q.buf (hone _)
  obtain ⟨fd, hd₄⟩ := g₄.mapped q.pgdir (hone _)
  have hp₂ := gained_keeps g₂ hp₁
  have hp₃ := gained_keeps g₃ hp₂
  have hp₄ := gained_keeps g₄ hp₃
  have hb₃ := gained_keeps g₃ hb₂
  have hb₄ := gained_keeps g₄ hb₃
  have hm₃ := g₃.mapped
  have u₀ := g₁.unmapped q.pcb (hone _)
  have u₁ := g₂.unmapped q.buf (hone _)
  have u₂ := g₃.unmapped
  have u₃ := g₄.unmapped q.pgdir (hone _)
  have hpb : q.pcb ≠ q.buf := fun he => by rw [← he, hp₁] at u₁; cases u₁
  have hpd : q.pcb ≠ q.pgdir := fun he => by rw [← he, hp₃] at u₃; cases u₃
  have hbd : q.buf ≠ q.pgdir := fun he => by rw [← he, hb₃] at u₃; cases u₃
  have hpm : q.pcb ∉ span q.bitmap bitmapPgCnt := fun hin => by
    have := u₂ _ hin
    rw [hp₂] at this
    cases this
  have hbm : q.buf ∉ span q.bitmap bitmapPgCnt := fun hin => by
    have := u₂ _ hin
    rw [hb₂] at this
    cases this
  have hdm : q.pgdir ∉ span q.bitmap bitmapPgCnt := fun hin => by
    obtain ⟨f, hf⟩ := hm₃ _ hin
    rw [u₃] at hf
    cases hf
  refine ⟨?_, s₃.gain g₄, ht.proc, ⟨fb, hb₄⟩, ?_, ?_, hpd, hpm, hdm⟩
  · exact getKernelPages_exclusive (getKernelPages_exclusive (getKernelPages_exclusive
      (getKernelPages_exclusive hs.frames ht.gotPcb) ht.gotBuf) ht.gotBitmap) ht.gotPgdir
  · rintro v (rfl | rfl | ⟨-, hv⟩)
    · exact ⟨hpb, ⟨fp, hp₄⟩, fun p r hp hv => hs.structures.not_unmapped hp hv u₀⟩
    · exact ⟨hbd.symm, ⟨fd, hd₄⟩, fun p r hp hv => s₃.not_unmapped hp hv u₃⟩
    · obtain ⟨f, hf⟩ := hm₃ v hv
      refine ⟨?_, ⟨f, gained_keeps g₄ hf⟩, fun p r hp hin => s₂.not_unmapped hp hin (u₂ v hv)⟩
      rintro rfl
      exact hbm hv
  · exact fun p r hp hin => s₁.not_unmapped hp hin u₁

theorem sysFork_sound (hs : Sound mc k) {r : Option ℕ} (hf : sysFork mc k parent = some (k', r)) :
    Sound mc k' := by
  cases r with
  | none =>
    obtain ⟨⟨he, hst⟩, hproc⟩ := forkPages_invariant
      (fun h => Exclusive mc h.memory (Active k) ∧ Structures h.memory k.proc)
      (fun h h' n a hi hg =>
        ⟨getKernelPages_exclusive hi.1 hg, hi.2.gain (getKernelPages_memory hg)⟩)
      ⟨hs.frames, hs.structures⟩ (sysFork_none hf)
    have hactive : Active k' = Active k := by
      funext p
      unfold Active
      rw [hproc]
    exact ⟨hactive ▸ he, hproc ▸ hst⟩
  | some pid =>
    obtain ⟨k₁, q, h₁, -, hp, hcopy, rfl, rfl⟩ := sysFork_some hf
    obtain ⟨he, hst, hproc, hbuf, hnew, hbs, hpd, hpm, hdm⟩ :=
      forkPages_structures parent hs hp
    have hkernel := copyProcess_kernel hcopy
    constructor
    case frames =>
      refine he.copyProcess (fun p hp => ?_) hbuf hcopy
      obtain ⟨r, hr, hrun⟩ := hp
      by_cases hpq : p = q.pid
      · exact .inr hpq
      · refine .inl ⟨r, ?_, hrun⟩
        have hr' : k₁.proc p = some r := by
          rw [← hr]
          exact (Function.update_of_ne hpq ..).symm
        rwa [hproc] at hr'
    case structures =>
      have hst₁ : Structures h₁.memory k₁.proc := by
        rw [hproc]
        refine hst.remap fun p r v hp hv => ?_
        rw [hkernel, if_neg]
        · exact hst.mapped p r v hp hv
        · rintro rfl
          exact hbs p r hp hv
      refine hst₁.insert (fun v hv => ?_) (fun p r v hp hv hin => ?_) ⟨hpd, fun _ => ⟨hpm, hdm⟩⟩
      · rw [hkernel, if_neg (hnew v hv).1]
        exact (hnew v hv).2.1
      · rw [hproc] at hp
        exact (hnew v hin).2.2 p r hp hv

theorem processExecute_sound (hs : Sound mc k) {p : ℕ}
    (hx : processExecute mc k = some (k', p)) : Sound mc k' := by
  simp only [processExecute, createPageDir, bind_some_iff, Option.pure_def, Option.some.injEq,
    Prod.mk.injEq] at hx
  obtain ⟨⟨h₁, r₁⟩, hpcb, pcb, rfl, ⟨bits, pid⟩, -, ⟨h₂, r₂⟩, hbm, bitmap, rfl, ⟨h₃, r₃⟩, hpd, pgdir,
    rfl, rfl, rfl⟩ := hx
  have g₁ := getKernelPages_memory hpcb
  have g₂ := getKernelPages_memory hbm
  have g₃ := getKernelPages_memory hpd
  have s₁ := hs.structures.gain g₁
  have s₂ := s₁.gain g₂
  have s₃ := s₂.gain g₃
  have hone : ∀ a : ℕ, a ∈ span a 1 := fun a => by simp
  obtain ⟨fp, hp₁⟩ := g₁.mapped pcb (hone _)
  obtain ⟨fd, hd₃⟩ := g₃.mapped pgdir (hone _)
  have hp₂ := gained_keeps g₂ hp₁
  have hp₃ := gained_keeps g₃ hp₂
  have u₀ := g₁.unmapped pcb (hone _)
  have u₁ := g₂.unmapped
  have u₂ := g₃.unmapped pgdir (hone _)
  have hpd : pcb ≠ pgdir := fun he => by rw [← he, hp₂] at u₂; cases u₂
  have hpm : pcb ∉ span bitmap bitmapPgCnt := fun hin => by
    have := u₁ _ hin
    rw [hp₁] at this
    cases this
  have hdm : pgdir ∉ span bitmap bitmapPgCnt := fun hin => by
    obtain ⟨f, hf⟩ := g₂.mapped _ hin
    rw [u₂] at hf
    cases hf
  have hframe : ∀ v, (Heap.blockDescInit (Heap.freshSpace h₃ pid zeroes) pid).memory.frameAt none v =
      h₃.memory.frameAt none v := by
    intro v
    simp [Heap.blockDescInit, Heap.freshSpace, Memory.frameAt, setSpace_ne]
  constructor
  case frames =>
    have he₃ := getKernelPages_exclusive (getKernelPages_exclusive
      (getKernelPages_exclusive hs.frames hpcb) hbm) (by assumption)
    refine he₃.freshSpace fun q hq => ?_
    obtain ⟨r, hr, hrun⟩ := hq
    by_cases hqp : q = pid
    · exact .inr hqp
    · exact .inl ⟨r, by rw [← hr]; exact (Function.update_of_ne hqp ..).symm, hrun⟩
  case structures =>
    have s₄ : Structures (Heap.blockDescInit (Heap.freshSpace h₃ pid zeroes) pid).memory k.proc := by
      refine s₃.remap fun p r v hp hv => ?_
      rw [hframe]
      exact s₃.mapped p r v hp hv
    refine s₄.insert (fun v hv => ?_) (fun p r v hp hv hin => ?_) ⟨hpd, fun _ => ⟨hpm, hdm⟩⟩
    · rw [hframe]
      rcases hv with rfl | rfl | ⟨-, hv⟩
      · exact ⟨fp, hp₃⟩
      · exact ⟨fd, hd₃⟩
      · obtain ⟨f, hf⟩ := g₂.mapped v hv
        exact ⟨f, gained_keeps g₃ hf⟩
    · rcases hin with rfl | rfl | ⟨-, hin⟩
      · exact hs.structures.not_unmapped hp hv u₀
      · exact s₂.not_unmapped hp hv u₂
      · exact s₁.not_unmapped hp hv (u₁ v hin)

theorem sysExit_sound (hs : Sound mc k) {p : ℕ} (hx : sysExit mc k p = some k') :
    Sound mc k' := by
  simp only [sysExit, releaseProgResource, bind_some_iff, assert_eq_some, Option.pure_def,
    Option.some.injEq] at hx
  obtain ⟨r, hr, _, hrun, m, hm, rfl⟩ := hx
  set m₁ := freeTables mc (k.heap.memory.space (some p)) k.heap.memory with hm₁
  have hframe : ∀ v, m₁.frameAt none v = k.heap.memory.frameAt none v := by
    intro v
    simp only [Memory.frameAt, hm₁, freeTables_space]
  have hpages : ∀ w ∈ span r.bitmap (userBtmpLen / pgSize), w ∈ span r.bitmap bitmapPgCnt := by
    intro w hw
    have hle : userBtmpLen / pgSize ≤ bitmapPgCnt := by decide
    exact ⟨hw.1, lt_of_lt_of_le hw.2 (Nat.add_le_add_left hle _)⟩
  have hneeded : ∀ w ∈ span r.bitmap (userBtmpLen / pgSize), w ∈ structPages r :=
    fun w hw => .inr (.inr ⟨hrun, hpages w hw⟩)
  have hactive : ∀ q, Active ((k.setHeap (k.heap.setMemory m)).setProc p
      (some { r with hanging := true })) q → Active k q ∧ q ≠ p := by
    rintro q ⟨r', hr', hrun'⟩
    by_cases hqp : q = p
    · subst q
      rw [Kernel.setProc_self] at hr'
      obtain rfl := Option.some.inj hr'
      cases hrun'
    · rw [Kernel.setProc_ne _ _ hqp] at hr'
      exact ⟨⟨r', hr', hrun'⟩, hqp⟩
  constructor
  case frames =>
    refine (hs.frames.freeTables ⟨r, hr, hrun⟩ hactive).mfreePage
      (fun w _ => ⟨home_none, trivial⟩) (fun w hw => ?_) hm
    obtain ⟨f, hf⟩ := hs.structures.mapped p r w hr (hneeded w hw)
    exact ⟨f, (hframe w).trans hf⟩
  case structures =>
    obtain ⟨-, hothers⟩ := unmapped_one hm
    have hshrunk : Structures k.heap.memory (Function.update k.proc p
        (some { r with hanging := true })) := by
      refine hs.structures.shrink hr fun r' hr' => ?_
      obtain rfl := Option.some.inj hr'
      refine ⟨?_, rfl, rfl, rfl⟩
      rintro v (hv | hv | ⟨hh, -⟩)
      · exact .inl hv
      · exact .inr (.inl hv)
      · cases hh
    refine hshrunk.remap fun q r' v hq hv => ?_
    obtain ⟨f, hf⟩ := hshrunk.mapped q r' v hq hv
    refine ⟨f, ?_⟩
    change m.frameAt none v = some f
    rw [hothers none v, hframe, hf]
    rintro ⟨-, hin⟩
    -- the pages given back are the bitmap's, which the process needs no more
    by_cases hqp : q = p
    · subst q
      rw [Function.update_self] at hq
      obtain rfl := Option.some.inj hq
      obtain ⟨hpm, hdm⟩ := (hs.structures.distinct p r hr).2 hrun
      rcases hv with rfl | rfl | ⟨hh, -⟩
      · exact hpm (hpages _ hin)
      · exact hdm (hpages _ hin)
      · cases hh
    · rw [Function.update_of_ne hqp] at hq
      exact hqp (hs.structures.apart q p r' r v hq hr hv (hneeded v hin))

theorem sysWait_sound (hs : Sound mc k) (hw : sysWait mc k parent child = some k') :
    Sound mc k' := by
  simp only [sysWait, threadExit, bind_some_iff, assert_eq_some, Option.pure_def,
    Option.some.injEq] at hw
  obtain ⟨r, hr, _, ⟨-, hhang⟩, m₁, h₁, m₂, h₂, rfl⟩ := hw
  have hone : ∀ a w : ℕ, w ∈ span a 1 → w = a := by
    intro a w hw
    rw [mem_span] at hw
    omega
  have hpd := (hs.structures.distinct child r hr).1
  obtain ⟨-, o₁⟩ := unmapped_one h₁
  obtain ⟨-, o₂⟩ := unmapped_one h₂
  have hpgdir := hs.structures.mapped child r r.pgdir hr (.inr (.inl rfl))
  have hpcb : ∃ f, m₁.frameAt none r.pcb = some f := by
    obtain ⟨f, hf⟩ := hs.structures.mapped child r r.pcb hr (.inl rfl)
    refine ⟨f, ?_⟩
    rw [o₁ none r.pcb (fun hin => hpd (hone _ _ hin.2)), hf]
  have hactive : ∀ q, Active { k with
      heap := k.heap.setMemory m₂
      pidBits := releasePid k.pidBits child
      proc := Function.update k.proc child none } q → Active k q := by
    rintro q ⟨r', hr', hrun'⟩
    refine ⟨r', ?_, hrun'⟩
    by_cases hqp : q = child
    · subst q
      simp at hr'
    · rw [← hr']
      exact (Function.update_of_ne hqp ..).symm
  constructor
  case frames =>
    have he := hs.frames.mfreePage (fun w _ => ⟨home_none, trivial⟩)
      (fun w hw => hone _ w hw ▸ hpgdir) h₁
    exact (he.mfreePage (fun w _ => ⟨home_none, trivial⟩) (fun w hw => hone _ w hw ▸ hpcb) h₂).mono
      hactive
  case structures =>
    have hgone : Structures k.heap.memory (Function.update k.proc child none) :=
      hs.structures.shrink hr fun r' hr' => by cases hr'
    refine hgone.remap fun q r' v hq hv => ?_
    obtain ⟨f, hf⟩ := hgone.mapped q r' v hq hv
    have hqc : q ≠ child := by
      rintro rfl
      simp at hq
    rw [Function.update_of_ne hqc] at hq
    -- no other process needs the two pages
    have hout : v ∉ structPages r := fun hin => hqc (hs.structures.apart q child r' r v hq hr hv hin)
    refine ⟨f, ?_⟩
    change m₂.frameAt none v = some f
    rw [o₂ none v, o₁ none v, hf]
    · rintro ⟨-, hin⟩
      exact hout (.inr (.inl (hone _ _ hin)))
    · rintro ⟨-, hin⟩
      exact hout (.inl (hone _ _ hin))

end Fork

/-- What happens to pages and frames, in any order. -/
inductive Event where
  | malloc (c : Ctx) (n : ℕ)
  | mfree (c : Ctx) (v n : ℕ)
  | page (c : Ctx) (v : ℕ)
  | createPageDir
  | execute
  | fork (parent : ℕ)
  | exit (p : ℕ)
  | wait (parent child : ℕ)
  deriving DecidableEq, Repr

def step (mc : Machine) : Event → Kernel → Option Kernel
  | .malloc c n, k => do
    let (m, _) ← mallocPage mc k.heap.memory c n
    return k.setHeap (k.heap.setMemory m)
  | .mfree c v n, k => do
    let m ← mfreePage mc k.heap.memory c v n
    return k.setHeap (k.heap.setMemory m)
  | .page c v, k => do
    let m ← getAPage mc k.heap.memory c v
    return k.setHeap (k.heap.setMemory m)
  | .createPageDir, k => do
    let (h, _) ← ProcessMemory.createPageDir mc k.heap
    return k.setHeap h
  | .execute, k => do
    let (k, _) ← processExecute mc k
    return k
  | .fork parent, k => do
    let (k, _) ← sysFork mc k parent
    return k
  | .exit p, k => sysExit mc k p
  | .wait parent child, k => sysWait mc k parent child

/-- `mfree_page` is called for pages that the caller has mapped and that are no process's own
structure; `get_a_page` is called for an address in the caller's part. -/
def Holds : Event → Kernel → Prop
  | .mfree none v n, k => ∀ w ∈ span v n, (∃ f, k.heap.memory.frameAt none w = some f) ∧
      ∀ p r, k.proc p = some r → w ∉ structPages r
  | .mfree (some p) v n, k => Active k p ∧ v + n ≤ 0xc0000 ∧
      ∀ w ∈ span v n, ∃ f, k.heap.memory.frameAt (some p) w = some f
  | .page none v, _ => 0xc0100 ≤ v ∧ v < 0xffc00
  | .page (some _) v, _ => 0x8048 ≤ v ∧ v < 0xc0000
  | _, _ => True

section Runs

variable {mc : Machine} {k k' : Kernel} {c : Ctx} {v n : ℕ}

/-- Memory in which the kernel's pages stay mapped, under the same processes. -/
theorem Sound.setMemory (hs : Sound mc k) {m : Memory} (he : Exclusive mc m (Active k))
    (hkeep : ∀ p r v, k.proc p = some r → v ∈ structPages r →
      m.frameAt none v = k.heap.memory.frameAt none v) :
    Sound mc (k.setHeap (k.heap.setMemory m)) := by
  refine ⟨he, hs.structures.remap fun p r v hp hv => ?_⟩
  obtain ⟨f, hf⟩ := hs.structures.mapped p r v hp hv
  exact ⟨f, (hkeep p r v hp hv).trans hf⟩

theorem malloc_sound (hs : Sound mc k) {m : Memory} {r : Option ℕ}
    (hm : mallocPage mc k.heap.memory c n = some (m, r)) :
    Sound mc (k.setHeap (k.heap.setMemory m)) := by
  refine hs.setMemory (hs.frames.mallocPage hm) fun p pr v hp hv => ?_
  cases r with
  | none =>
    obtain ⟨-, ⟨-, rfl⟩ | ⟨v, m₁, hr, -⟩⟩ := mallocPage_cases hm
    · rfl
    · cases hr
  | some a =>
    obtain ⟨f, hf⟩ := hs.structures.mapped p pr v hp hv
    rw [hf]
    exact gained_keeps (mallocPage_gained hm) hf

theorem mfree_sound (hs : Sound mc k) {m : Memory} (hok : Holds (.mfree c v n) k)
    (hm : mfreePage mc k.heap.memory c v n = some m) :
    Sound mc (k.setHeap (k.heap.setMemory m)) := by
  cases c with
  | none =>
    refine hs.setMemory (hs.frames.mfreePage (fun w _ => ⟨home_none, trivial⟩)
      (fun w hw => (hok w hw).1) hm) fun p r w hp hw => ?_
    refine (unmapped_one hm).2 none w fun hin => ?_
    exact (hok w hin.2).2 p r hp hw
  | some p =>
    obtain ⟨hactive, hle, hmapped⟩ := hok
    have hlow : ∀ w ∈ span v n, w < 0xc0000 := fun w hw => lt_of_lt_of_le hw.2 hle
    have hcount : ∀ w ∈ span v n, home (some p) w = some p ∧ Counts (Active k) (.page (some p) w) :=
      fun w hw => ⟨home_user (hlow w hw), hactive, hlow w hw⟩
    refine hs.setMemory (hs.frames.mfreePage hcount hmapped hm) fun q r w hq hw => ?_
    obtain ⟨-, first, m₁, -, hu, rfl⟩ := mfreePage_cases hm
    rw [vaddrRemove, setVaddr_frameAt, (unmapPages_frameAt hu (.inr hle)).2 none w]
    rintro ⟨hc, -⟩
    cases hc

theorem page_sound (hs : Sound mc k) {m : Memory}
    (hg : getAPage mc k.heap.memory c v = some m) :
    Sound mc (k.setHeap (k.heap.setMemory m)) := by
  refine hs.setMemory (hs.frames.getAPage hg) fun p r w hp hw => ?_
  obtain ⟨m₁, f, hpal, ha⟩ := getAPage_cases hg
  obtain ⟨hnone, hadd⟩ := pageTableAdd_frameAt ha
  have hbefore : ∀ h w, m₁.frameAt h w = k.heap.memory.frameAt h w := by
    intro h w
    rw [palloc_frameAt hpal, setVaddr_frameAt]
  rw [hadd, if_neg, hbefore]
  rintro ⟨hc, rfl⟩
  rw [← hc, hbefore] at hnone
  exact hs.structures.not_unmapped hp hw hnone

theorem step_sound {e : Event} (hs : Sound mc k) (hok : Holds e k)
    (hstep : step mc e k = some k') : Sound mc k' := by
  cases e with
  | malloc c n =>
    simp only [step, bind_some_iff, Option.pure_def, Option.some.injEq] at hstep
    obtain ⟨⟨m, r⟩, hm, rfl⟩ := hstep
    exact malloc_sound hs hm
  | mfree c v n =>
    simp only [step, bind_some_iff, Option.pure_def, Option.some.injEq] at hstep
    obtain ⟨m, hm, rfl⟩ := hstep
    exact mfree_sound hs hok hm
  | page c v =>
    simp only [step, bind_some_iff, Option.pure_def, Option.some.injEq] at hstep
    obtain ⟨m, hg, rfl⟩ := hstep
    exact page_sound hs hg
  | createPageDir =>
    simp only [step, ProcessMemory.createPageDir, bind_some_iff, Option.pure_def,
      Option.some.injEq] at hstep
    obtain ⟨⟨h, r⟩, hg, rfl⟩ := hstep
    cases r with
    | none => exact getKernelPages_none hg ▸ hs
    | some a =>
      obtain ⟨m, hm, rfl⟩ := getKernelPages_gained hg
      have := malloc_sound hs hm
      exact ⟨this.frames, this.structures⟩
  | execute =>
    simp only [step, bind_some_iff, Option.pure_def, Option.some.injEq] at hstep
    obtain ⟨⟨k₁, p⟩, hx, rfl⟩ := hstep
    exact processExecute_sound hs hx
  | fork parent =>
    simp only [step, bind_some_iff, Option.pure_def, Option.some.injEq] at hstep
    obtain ⟨⟨k₁, p⟩, hf, rfl⟩ := hstep
    exact sysFork_sound hs hf
  | exit p => exact sysExit_sound hs hstep
  | wait parent child => exact sysWait_sound hs hstep

theorem bootKernel_sound : Sound mc bootKernel := by
  have hnone : ∀ pl, frameOf bootKernel.heap.memory pl = none := by
    intro pl
    cases pl with
    | page c v => simp [frameOf, Memory.frameAt, bootKernel, memInit]
    | table p k => rfl
  constructor
  case frames =>
    constructor
    case marked =>
      intro pl f _ hf
      rw [hnone] at hf
      cases hf
    case once =>
      intro pl pl' f _ _ hf
      rw [hnone] at hf
      cases hf
  case structures => constructor <;> simp [bootKernel]

/-- No frame is ever used in two places, and a frame in use is marked in its pool. -/
theorem run_frames_exclusive {events : List Event}
    (hok : AllMeet (step mc) Holds events bootKernel)
    (hrun : runAll (step mc) events bootKernel = some k) :
    Exclusive mc k.heap.memory (Active k) :=
  (runAll_invariant (Sound mc) (fun _ _ _ hs hok hstep => step_sound hs hok hstep)
    bootKernel_sound hok hrun).frames

/-- A process with its stack and a kernel page beside it, which then exits. -/
def shortLife : List Event := [.execute, .page (some 1) 0xbffff, .malloc none 2, .exit 1]

theorem run_frames_exclusive_shortLife :
    ∃ k, runAll (step smallMachine) shortLife bootKernel = some k ∧
      Exclusive smallMachine k.heap.memory (Active k) := by
  have hrun : (runAll (step smallMachine) shortLife bootKernel).isSome := by decide +kernel
  obtain ⟨k, hk⟩ := Option.isSome_iff_exists.mp hrun
  have hok : AllMeet (step smallMachine) Holds shortLife bootKernel := by
    refine allMeet_of_forall fun e he k => ?_
    simp only [shortLife, List.mem_cons, List.not_mem_nil, or_false] at he
    rcases he with rfl | rfl | rfl | rfl <;> simp [Holds]
  exact ⟨k, hk, run_frames_exclusive hok hk⟩

/-- A kernel page is given back twice; in between its frame has become a page table. -/
def givenTwice : List Event :=
  [.execute, .malloc none 1, .mfree none 0xc0119 1, .page (some 1) 0xbffff, .mfree none 0xc0119 1]

theorem given_twice_frees_table :
    ∃ k, runAll (step smallMachine) givenTwice bootKernel = some k ∧ Active k 1 ∧
      frameOf k.heap.memory (.table 1 767) = some 0x219 ∧
      taken smallMachine k.heap.memory 0x219 = false ∧
      ¬Exclusive smallMachine k.heap.memory (Active k) := by
  have hrun : ((runAll (step smallMachine) givenTwice bootKernel).map fun k =>
      ((k.proc 1).map Proc.hanging, frameOf k.heap.memory (.table 1 767),
        taken smallMachine k.heap.memory 0x219)) = some (some false, some 0x219, false) := by
    decide +kernel
  obtain ⟨k, hk, he⟩ := Option.map_eq_some_iff.mp hrun
  simp only [Prod.mk.injEq] at he
  obtain ⟨r, hr, hrun⟩ := Option.map_eq_some_iff.mp he.1
  have hactive : Active k 1 := ⟨r, hr, hrun⟩
  refine ⟨k, hk, hactive, he.2.1, he.2.2, fun hx => ?_⟩
  have := (hx.marked (.table 1 767) 0x219 ⟨hactive, by decide⟩ he.2.1).2
  rw [he.2.2] at this
  cases this

end Runs

end FrameExclusive
