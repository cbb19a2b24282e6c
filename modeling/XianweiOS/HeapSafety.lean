import Mathlib
import XianweiOS.HeapInvariant

/-! Runs of `sys_malloc` and `sys_free` in one context: where the allocations lie, and which
pages and frames the kernel heap holds. -/
namespace HeapSafety

open ByteStore HaltingProgram KernelBitmap MemoryPages MemoryHeap HeapInvariant

/-- A heap and what its clients hold. -/
structure Client where
  heap : Heap
  live : Live

inductive Call where
  | malloc (size : ℕ)
  | free (ptr : ℕ)
  deriving DecidableEq, Repr

def step (mc : Machine) (c : Ctx) : Call → Client → Option Client
  | .malloc size, s => do
    let (h, r) ← sysMalloc mc s.heap c size
    return ⟨h, allocated s.live size r⟩
  | .free ptr, s => do
    let h ← sysFree mc s.heap c ptr
    return ⟨h, Function.update s.live ptr none⟩

/-- A pointer is freed at most once after each time it is returned. -/
def FreesLive : Call → Client → Prop
  | .malloc _, _ => True
  | .free ptr, s => s.live ptr ≠ none

instance (call : Call) (s : Client) : Decidable (FreesLive call s) :=
  match call with
  | .malloc _ => .isTrue trivial
  | .free ptr => inferInstanceAs (Decidable (s.live ptr ≠ none))

/-- The bytes of a block or of a large allocation. -/
inductive Occupies (kind : Layout) : ℕ → ℕ → Prop where
  | block (a i k : ℕ) : kind a = some (.small i) → k < blocksPerArena i →
      Occupies kind (arena2block a i k) (blockSize i)
  | large (a n : ℕ) : kind a = some (.large n) →
      Occupies kind (a * pgSize + arenaSize) (n * pgSize - arenaSize)

section Bytes

variable {mc : Machine} {c : Ctx} {m : Memory} {h : Heap} {kind : Layout} {live : Live}
  {p q x n l : ℕ}

/-- They lie behind the header and in the pages of the arena. -/
theorem Occupies.bounds (ho : Occupies kind p l) (hx : x ∈ span p l) :
    ∃ kd, kind (block2arena p) = some kd ∧ x / pgSize ∈ span (block2arena p) kd.pages ∧
      block2arena p * pgSize + arenaSize ≤ x := by
  cases ho with
  | block a i k ha hk =>
    have hb := block_bound hk
    rw [block2arena_arena2block hk]
    refine ⟨_, ha, ?_⟩
    simp only [mem_span, arena2block, Kind.pages, pgSize, arenaSize] at *
    omega
  | large a n ha =>
    rw [block2arena_large]
    refine ⟨_, ha, ?_⟩
    simp only [mem_span, Kind.pages, pgSize, arenaSize] at *
    omega

/-- No arena of the heap came from a parent. -/
def Own (kind : Layout) : Prop := ∀ a, kind a ≠ some .inherited

end Bytes

section Runs

variable {mc : Machine} {c : Ctx} {h : Heap} {s s' : Client} {calls : List Call}

/-- A heap that has handed out nothing yet. -/
def Unused (h : Heap) (c : Ctx) : Prop := ∀ i, h.freeList c i = []

theorem sound_unused (hu : Unused h c) : Sound mc c h (fun _ => none) (fun _ => none) := by
  have hheld : ∀ v, ¬Held (fun _ => none) v := by
    rintro v ⟨a, k, ha, -⟩
    cases ha
  constructor
  case core =>
    constructor
    case pages =>
      constructor
      case held => exact fun v hv => absurd hv (hheld v)
      all_goals simp
    case free =>
      intro i b hb
      rw [hu i] at hb
      cases hb
    case nodup =>
      intro i
      rw [hu i]
      exact List.nodup_nil
    all_goals simp
  case busy => constructor <;> simp

theorem step_moves {kind : Layout} {call : Call} (hs : Sound mc c s.heap kind s.live)
    (hown : Own kind) (hok : FreesLive call s) (hstep : step mc c call s = some s') :
    Moves mc c s.heap s'.heap kind s'.live := by
  cases call with
  | malloc size =>
    simp only [step, bind_some_iff, Option.pure_def, Option.some.injEq] at hstep
    obtain ⟨⟨h, r⟩, hm, rfl⟩ := hstep
    exact sysMalloc_moves hs hm
  | free ptr =>
    simp only [step, bind_some_iff, Option.pure_def, Option.some.injEq] at hstep
    obtain ⟨h, hf, rfl⟩ := hstep
    refine sysFree_moves hs hok (fun o i hdesc => ?_) hf
    -- without inherited arenas a header names the context's own descriptor
    obtain ⟨sz, hsz⟩ := Option.ne_none_iff_exists'.mp hok
    cases hs.core.placed ptr sz hsz with
    | small a j k ha hk he _ =>
      rw [he, block2arena_arena2block hk, (hs.core.small a j ha).1] at hdesc
      cases hdesc
      rfl
    | large a n ha he _ =>
      rw [he, block2arena_large, hs.core.large a n ha] at hdesc
      cases hdesc
    | inherited ha => exact absurd ha (hown _)

end Runs

section Accounting

variable {mc : Machine} {m₀ m m' : Memory} {N N' : ℕ → Prop} {v w n f i : ℕ}

/-- The frames behind the pages `N` of the kernel, mapped since `m₀`: the kernel pool has their
bits set and otherwise the bits it had. -/
structure FramesOf (mc : Machine) (m₀ m : Memory) (N : ℕ → Prop) : Prop where
  frame : ∀ v f, N v → m.frameAt none v = some f → ∃ i, f = mc.phyStart .kernel + i ∧
    i < 8 * mc.btmpLen .kernel ∧ bitmapScanTest (poolBitmap mc m₀ .kernel) i = false
  apart : ∀ v w f, N v → N w → m.frameAt none v = some f → m.frameAt none w = some f → v = w
  bits : ∀ i, bitmapScanTest (poolBitmap mc m .kernel) i = true ↔
    bitmapScanTest (poolBitmap mc m₀ .kernel) i = true ∨
      ∃ v, N v ∧ m.frameAt none v = some (mc.phyStart .kernel + i)

theorem FramesOf.congr (hf : FramesOf mc m₀ m N) (hpool : m'.pool = m.pool)
    (hframe : ∀ v, m'.frameAt none v = m.frameAt none v) : FramesOf mc m₀ m' N := by
  have hbit : poolBitmap mc m' .kernel = poolBitmap mc m .kernel := by
    simp only [poolBitmap, hpool]
  constructor
  case frame =>
    intro v f hv hvf
    rw [hframe] at hvf
    exact hf.frame v f hv hvf
  case apart =>
    intro v w f hv hw hvf hwf
    rw [hframe] at hvf hwf
    exact hf.apart v w f hv hw hvf hwf
  case bits =>
    intro i
    rw [hbit, hf.bits i]
    simp only [hframe]

/-- Pages that are not mapped have no part in it. -/
theorem FramesOf.change (hf : FramesOf mc m₀ m N)
    (hN : ∀ v f, m.frameAt none v = some f → (N' v ↔ N v)) : FramesOf mc m₀ m N' := by
  constructor
  case frame => exact fun v f hv hvf => hf.frame v f ((hN v f hvf).mp hv) hvf
  case apart =>
    exact fun v w f hv hw hvf hwf =>
      hf.apart v w f ((hN v f hvf).mp hv) ((hN w f hwf).mp hw) hvf hwf
  case bits =>
    intro i
    rw [hf.bits i]
    refine or_congr_right (exists_congr fun v => ?_)
    exact and_congr_left fun hvf => (hN v _ hvf).symm

/-- A page of the kernel heap has its table, so only its own frame is taken. -/
theorem FramesOf.add (hf : FramesOf mc m₀ m N) {m₁ : Memory} (hw : N w) (hkernel : 0xc0000 ≤ w)
    (hp : palloc mc m .kernel = some (m₁, some f)) (ha : pageTableAdd mc m₁ none w f = some m') :
    FramesOf mc m₀ m' N := by
  obtain ⟨i, hfi, hi, hclear, rfl⟩ := palloc_some hp
  obtain rfl := Option.some.inj hfi
  obtain ⟨hnone, hadd⟩ := pageTableAdd_frameAt ha
  simp only [home_none, setPool_frameAt] at hnone hadd
  have hpool : m'.pool = (m.setPool .kernel (bitmapSet (poolBitmap mc m .kernel) i true).bits).pool := by
    obtain ⟨-, ⟨-, -, rfl⟩ | ⟨ht, -⟩⟩ := pageTableAdd_cases ha
    · rfl
    · simp only [Space.tablePresent, Bool.or_eq_false_iff, decide_eq_false_iff_not] at ht
      omega
  have hbit : ∀ j, bitmapScanTest (poolBitmap mc m' .kernel) j =
      if j = i then true else bitmapScanTest (poolBitmap mc m .kernel) j := by
    intro j
    have heq : poolBitmap mc m' .kernel = poolBitmap mc
        (m.setPool .kernel (bitmapSet (poolBitmap mc m .kernel) i true).bits) .kernel := by
      simp only [poolBitmap, hpool]
    rw [heq, test_setPool_bitmapSet]
    simp
  -- the frame was of none of the pages, its bit was clear
  have hnew : ∀ v, N v → m.frameAt none v ≠ some (mc.phyStart .kernel + i) := by
    intro v hv hvf
    have := (hf.bits i).mpr (.inr ⟨v, hv, hvf⟩)
    rw [hclear] at this
    cases this
  have hnot₀ : bitmapScanTest (poolBitmap mc m₀ .kernel) i = false := by
    by_contra hset
    have := (hf.bits i).mpr (.inl (by simpa using hset))
    rw [hclear] at this
    cases this
  constructor
  case frame =>
    intro v g hv hvf
    by_cases hvw : v = w
    · subst v
      rw [hadd, if_pos ⟨rfl, rfl⟩] at hvf
      exact ⟨i, (Option.some.inj hvf).symm, hi, hnot₀⟩
    · rw [hadd, if_neg (fun hh => hvw hh.2)] at hvf
      exact hf.frame v g hv hvf
  case apart =>
    intro v u g hv hu hvf huf
    by_cases hvw : v = w
    · by_cases huw : u = w
      · rw [hvw, huw]
      · rw [hvw, hadd, if_pos ⟨rfl, rfl⟩] at hvf
        rw [hadd, if_neg (fun hh => huw hh.2), ← hvf] at huf
        exact absurd huf (hnew u hu)
    · rw [hadd, if_neg (fun hh => hvw hh.2)] at hvf
      by_cases huw : u = w
      · rw [huw, hadd, if_pos ⟨rfl, rfl⟩] at huf
        rw [← huf] at hvf
        exact absurd hvf (hnew v hv)
      · rw [hadd, if_neg (fun hh => huw hh.2)] at huf
        exact hf.apart v u g hv hu hvf huf
  case bits =>
    intro j
    rw [hbit]
    by_cases hji : j = i
    · subst j
      simp only [if_true, true_iff]
      exact .inr ⟨w, hw, by rw [hadd, if_pos ⟨rfl, rfl⟩]⟩
    · rw [if_neg hji, hf.bits j]
      refine or_congr_right ⟨?_, ?_⟩
      · rintro ⟨v, hv, hvf⟩
        refine ⟨v, hv, ?_⟩
        rw [hadd, if_neg, hvf]
        rintro ⟨-, rfl⟩
        rw [hnone] at hvf
        cases hvf
      · rintro ⟨v, hv, hvf⟩
        by_cases hvw : v = w
        · rw [hvw, hadd, if_pos ⟨rfl, rfl⟩, Option.some.injEq] at hvf
          omega
        · rw [hadd, if_neg (fun hh => hvw hh.2)] at hvf
          exact ⟨v, hv, hvf⟩

theorem FramesOf.remove (hf : FramesOf mc m₀ m N) (hw : N w) (hwf : m.frameAt none w = some f)
    (ha : addrV2p m none w = some f) :
    FramesOf mc m₀ (pageTablePteRemove (pfree mc m f) none w) N := by
  obtain ⟨i, rfl, hi, hclear₀⟩ := hf.frame w f hw hwf
  have hframe : ∀ v, (pageTablePteRemove (pfree mc m (mc.phyStart .kernel + i)) none w).frameAt
      none v = if v = w then none else m.frameAt none v := by
    intro v
    rw [pageTablePteRemove_frameAt ha]
    simp
  have hbit : ∀ j, bitmapScanTest (poolBitmap mc (pageTablePteRemove
      (pfree mc m (mc.phyStart .kernel + i)) none w) .kernel) j =
      if j = i then false else bitmapScanTest (poolBitmap mc m .kernel) j := by
    intro j
    have hidx : mc.phyStart .kernel + i - mc.phyStart .kernel = i := by omega
    have heq : poolBitmap mc (pageTablePteRemove (pfree mc m (mc.phyStart .kernel + i)) none w)
        .kernel = poolBitmap mc (m.setPool .kernel
          (bitmapSet (poolBitmap mc m .kernel) i false).bits) .kernel := by
      simp only [pageTablePteRemove, pfree, poolOf_phyStart hi, hidx, poolBitmap, setPte_pool]
    rw [heq, test_setPool_bitmapSet]
    simp
  constructor
  case frame =>
    intro v g hv hvf
    rw [hframe] at hvf
    split at hvf
    · cases hvf
    · exact hf.frame v g hv hvf
  case apart =>
    intro v u g hv hu hvf huf
    rw [hframe] at hvf huf
    split at hvf
    · cases hvf
    · split at huf
      · cases huf
      · exact hf.apart v u g hv hu hvf huf
  case bits =>
    intro j
    rw [hbit]
    by_cases hji : j = i
    · subst j
      simp only [if_true, Bool.false_eq_true, false_iff, not_or, hclear₀, not_false_eq_true,
        true_and]
      rintro ⟨v, hv, hvf⟩
      rw [hframe] at hvf
      split at hvf
      · cases hvf
      · rename_i hvw
        exact hvw (hf.apart v w _ hv hw hvf hwf)
    · rw [if_neg hji, hf.bits j]
      refine or_congr_right (exists_congr fun v => and_congr_right fun _ => ?_)
      rw [hframe]
      by_cases hvw : v = w
      · subst v
        rw [hwf, if_pos rfl]
        simp only [Option.some.injEq, reduceCtorEq, iff_false]
        omega
      · rw [if_neg hvw]

theorem FramesOf.unmap {first : ℕ} (hf : FramesOf mc m₀ m N) (hN : ∀ w ∈ span v n, N w)
    (hmapped : ∀ w ∈ span v n, ∃ f, m.frameAt none w = some f)
    (hu : unmapPages mc none first n m v = some m') : FramesOf mc m₀ m' N := by
  induction n generalizing m v with
  | zero => exact Option.some.inj hu ▸ hf
  | succ n ih =>
    obtain ⟨f, ha, -, hu⟩ := unmapPages_succ hu
    obtain ⟨g, hg⟩ := hmapped v (by simp)
    have hhome : m.frameAt (home none v) v = some g := by rw [home_none, hg]
    obtain rfl : g = f := Option.some.inj ((addrV2p_of_mapped hhome).symm.trans ha)
    have hin : ∀ w ∈ span (v + 1) n, w ∈ span v (n + 1) ∧ w ≠ v := by
      intro w hw
      simp only [mem_span] at hw ⊢
      omega
    refine ih (hf.remove (hN v (by simp)) hg ha) (fun w hw => hN w (hin w hw).1) (fun w hw => ?_) hu
    obtain ⟨g', hg'⟩ := hmapped w (hin w hw).1
    refine ⟨g', ?_⟩
    rw [pageTablePteRemove_frameAt ha, if_neg (fun hh => (hin w hw).2 hh.2), hg']

/-- What the kernel heap holds beyond what was held in `m₀`. -/
structure Accounts (mc : Machine) (m₀ m : Memory) (held : ℕ → Prop) : Prop where
  start : ∀ v, held v → vaddrStart none ≤ v
  vaddr : ∀ v, vaddrStart none ≤ v →
    (Reserved mc m none v ↔ Reserved mc m₀ none v ∨ held v)
  fresh : ∀ v, held v → ¬Reserved mc m₀ none v
  frames : FramesOf mc m₀ m held

theorem accounts_nothing : Accounts mc m m (fun _ => False) := by
  constructor
  case frames => constructor <;> simp
  all_goals simp

theorem Accounts.gain {held held' : ℕ → Prop} (hacc : Accounts mc m₀ m held)
    (hp : mallocPage mc m none n = some (m', some v))
    (hheld : ∀ w, held' w ↔ held w ∨ w ∈ span v n) : Accounts mc m₀ m' held' := by
  have hg := mallocPage_gained hp
  constructor
  case start =>
    intro w hw
    rcases (hheld w).mp hw with hw | hw
    · exact hacc.start w hw
    · exact le_trans hg.start hw.1
  case vaddr =>
    intro w hw
    rw [hg.reserved none w hw, hacc.vaddr w hw, hheld]
    simp only [true_and]
    rw [or_comm, or_assoc]
  case fresh =>
    intro w hw h₀
    rcases (hheld w).mp hw with hw | hw
    · exact hacc.fresh w hw h₀
    · exact hg.free w hw ((hacc.vaddr w (le_trans hg.start hw.1)).mpr (.inl h₀))
  case frames =>
    obtain ⟨hn, ⟨hr, -⟩ | ⟨v', m₁, hr, hget, hmap⟩⟩ := mallocPage_cases hp
    · cases hr
    obtain rfl := Option.some.inj hr
    have hgrown : FramesOf mc m₀ m held' := by
      refine hacc.frames.change fun w f hwf => ?_
      rw [hheld]
      refine or_iff_left fun hin => ?_
      rw [hg.unmapped w hin] at hwf
      cases hwf
    have hframe := (vaddrGet_run hget hn).2.2.2.1
    have hpool : m₁.pool = m.pool := by
      rcases vaddrGet_cases hget hn with ⟨-, rfl⟩ | ⟨i, -, -, -, rfl⟩ <;> rfl
    refine mapPages_invariant (FramesOf mc m₀ · held') ?_
      (hgrown.congr hpool (fun w => hframe none w)) hmap
    intro m₂ m₃ m₄ w f hw hinv hpal hadd
    have hstart : 0xc0100 ≤ v := hg.start
    refine hinv.add ((hheld w).mpr (.inr hw)) ?_ hpal hadd
    rw [mem_span] at hw
    omega

theorem Accounts.lose {held held' : ℕ → Prop} (hacc : Accounts mc m₀ m held)
    (hp : mfreePage mc m none v n = some m') (hstart : vaddrStart none ≤ v)
    (hrun : ∀ w ∈ span v n, held w) (hmapped : ∀ w, held w → ∃ f, m.frameAt none w = some f)
    (hheld : ∀ w, held' w ↔ held w ∧ w ∉ span v n) : Accounts mc m₀ m' held' := by
  have hl := mfreePage_lost hp hstart (.inl rfl)
  constructor
  case start => exact fun w hw => hacc.start w ((hheld w).mp hw).1
  case vaddr =>
    intro w hw
    rw [hl.reserved none w hw, hacc.vaddr w hw, hheld]
    by_cases hin : w ∈ span v n
    · simp [hin, hacc.fresh w (hrun w hin)]
    · simp [hin]
  case fresh => exact fun w hw => hacc.fresh w ((hheld w).mp hw).1
  case frames =>
    obtain ⟨-, first, m₁, -, hu, rfl⟩ := mfreePage_cases hp
    have hun := hacc.frames.unmap hrun (fun w hw => hmapped w (hrun w hw)) hu
    have hcleared : FramesOf mc m₀ (vaddrRemove mc m₁ none v n) held :=
      hun.congr rfl fun w => setVaddr_frameAt _
    refine hcleared.change fun w f hwf => ?_
    rw [hheld]
    refine ⟨fun hh => hh.1, fun hw => ⟨hw, fun hin => ?_⟩⟩
    rw [hl.unmapped w hin] at hwf
    cases hwf

/-- The pages of the arena an allocation lies in, as its header gives them. -/
def arenaPages (h : Heap) (c : Ctx) (p : ℕ) : Set ℕ :=
  match (h.header c (block2arena p)).desc with
  | some _ => span (block2arena p) 1
  | none => span (block2arena p) (h.header c (block2arena p)).cnt

/-- The pages of large allocations and of small arenas with an allocation in them. -/
def heapPages (s : Client) (c : Ctx) : Set ℕ :=
  {v | ∃ p, s.live p ≠ none ∧ v ∈ arenaPages s.heap c p}

theorem held_iff_heapPages {c : Ctx} {kind : Layout} {s : Client}
    (hs : Sound mc c s.heap kind s.live) (hown : Own kind) : Held kind v ↔ v ∈ heapPages s c := by
  have hsmall : ∀ a i k, kind a = some (.small i) → k < blocksPerArena i →
      arenaPages s.heap c (arena2block a i k) = span a 1 := by
    intro a i k ha hk
    simp only [arenaPages, block2arena_arena2block hk, (hs.core.small a i ha).1]
  have hlarge : ∀ a n, kind a = some (.large n) →
      arenaPages s.heap c (a * pgSize + arenaSize) = span a n := by
    intro a n ha
    simp only [arenaPages, block2arena_large, hs.core.large a n ha]
  constructor
  · rintro ⟨a, kd, ha, hin⟩
    cases kd with
    | small i =>
      obtain ⟨k, hk, hlive⟩ := hs.busy.small a i ha
      exact ⟨_, hlive, by rw [hsmall a i k ha hk]; exact hin⟩
    | large n => exact ⟨_, hs.busy.large a n ha, by rw [hlarge a n ha]; exact hin⟩
    | inherited => exact absurd ha (hown a)
  · rintro ⟨p, hp, hin⟩
    obtain ⟨sz, hsz⟩ := Option.ne_none_iff_exists'.mp hp
    cases hs.core.placed p sz hsz with
    | small a i k ha hk he _ =>
      rw [he, hsmall a i k ha hk] at hin
      exact ⟨a, _, ha, hin⟩
    | large a n ha he _ =>
      rw [he, hlarge a n ha] at hin
      exact ⟨a, _, ha, hin⟩
    | inherited ha => exact absurd ha (hown _)

theorem Accounts.congr {held held' : ℕ → Prop} (hacc : Accounts mc m₀ m held)
    (hheld : ∀ w, held' w ↔ held w) : Accounts mc m₀ m held' := by
  have : held' = held := funext fun w => propext (hheld w)
  exact this ▸ hacc

theorem Accounts.effect {kind kind' : Layout} (hacc : Accounts mc m₀ m (Held kind))
    (hp : Pages mc none m kind) (he : PageEffect mc none m m' kind kind') :
    Accounts mc m₀ m' (Held kind') := by
  cases he with
  | same hm hheld => exact hm ▸ hacc.congr hheld
  | gain a n hm hheld => exact hacc.gain hm hheld
  | lose a n hm hstart _ hrun hheld =>
    exact hacc.lose hm hstart hrun (fun w hw => (hp.held w hw).2) hheld

/-- The kernel's page bitmaps as the heap finds them. -/
structure Balanced (mc : Machine) (h₀ : Heap) (s : Client) : Prop where
  pages : ∀ v, vaddrStart none ≤ v → (Reserved mc s.heap.memory none v ↔
    Reserved mc h₀.memory none v ∨ v ∈ heapPages s none)
  fresh : ∀ v ∈ heapPages s none, ¬Reserved mc h₀.memory none v
  frames : ∀ i, bitmapScanTest (poolBitmap mc s.heap.memory .kernel) i = true ↔
    bitmapScanTest (poolBitmap mc h₀.memory .kernel) i = true ∨
      ∃ v ∈ heapPages s none, s.heap.memory.frameAt none v = some (mc.phyStart .kernel + i)
  apart : ∀ v ∈ heapPages s none, ∀ w ∈ heapPages s none,
    s.heap.memory.frameAt none v = s.heap.memory.frameAt none w → v = w
  restored : (∀ p, s.live p = none) →
    s.heap.memory.pool .kernel = h₀.memory.pool .kernel ∧
    (s.heap.memory.space none).vaddr = (h₀.memory.space none).vaddr ∧
    ∀ i, s.heap.freeList none i = h₀.freeList none i

theorem accounts_balanced {h : Heap} {kind : Layout} {s : Client} (hu : Unused h none)
    (hs : Sound mc none s.heap kind s.live) (hown : Own kind)
    (hacc : Accounts mc h.memory s.heap.memory (Held kind)) : Balanced mc h s := by
  have hheld : ∀ v, Held kind v ↔ v ∈ heapPages s none := fun v => held_iff_heapPages hs hown
  have hfresh : ∀ v ∈ heapPages s none, ¬Reserved mc h.memory none v :=
    fun v hv => hacc.fresh v ((hheld v).mpr hv)
  have hpages : ∀ v, vaddrStart none ≤ v → (Reserved mc s.heap.memory none v ↔
      Reserved mc h.memory none v ∨ v ∈ heapPages s none) := by
    intro v hv
    rw [hacc.vaddr v hv, hheld]
  have hframes : ∀ i, bitmapScanTest (poolBitmap mc s.heap.memory .kernel) i = true ↔
      bitmapScanTest (poolBitmap mc h.memory .kernel) i = true ∨
        ∃ v ∈ heapPages s none, s.heap.memory.frameAt none v = some (mc.phyStart .kernel + i) := by
    intro i
    rw [hacc.frames.bits i]
    simp only [hheld]
  constructor
  case pages => exact hpages
  case fresh => exact hfresh
  case frames => exact hframes
  case apart =>
    intro v hv w hw he
    have hv' := (hheld v).mpr hv
    obtain ⟨f, hf⟩ := (hs.core.pages.held v hv').2
    exact hacc.frames.apart v w f hv' ((hheld w).mpr hw) hf (he ▸ hf)
  case restored =>
    intro hnone
    have hempty : ∀ v, v ∉ heapPages s none := by
      rintro v ⟨p, hp, -⟩
      exact hp (hnone p)
    refine ⟨?_, ?_, fun i => ?_⟩
    · have hbits : poolBitmap mc s.heap.memory .kernel = poolBitmap mc h.memory .kernel := by
        refine bitmap_ext rfl fun i => ?_
        rw [Bool.eq_iff_iff, hframes i]
        refine or_iff_left ?_
        rintro ⟨v, hv, -⟩
        exact hempty v hv
      exact congrArg Bitmap.bits hbits
    · have hbits : vaddrBitmap mc s.heap.memory none = vaddrBitmap mc h.memory none := by
        refine bitmap_ext rfl fun i => ?_
        have hi := hpages (vaddrStart none + i) (Nat.le_add_right _ _)
        rw [or_iff_left (hempty _)] at hi
        simp only [Reserved, Nat.add_sub_cancel_left] at hi
        rw [Bool.eq_iff_iff, hi]
      exact congrArg Bitmap.bits hbits
    · -- a block on a list would lie in an arena with an allocation
      rw [hu i, List.eq_nil_iff_forall_not_mem]
      intro b hb
      obtain ⟨a, k, ha, -, -⟩ := hs.core.free i b hb
      obtain ⟨k', -, hlive⟩ := hs.busy.small a i ha
      exact hlive (hnone _)

/-- The kernel heap holds the pages of what is allocated, and nothing once all is freed. -/
theorem run_heap_balanced (h : Heap) (hu : Unused h none) {calls : List Call} {s : Client}
    (hok : AllMeet (step mc none) FreesLive calls ⟨h, fun _ => none⟩)
    (hrun : runAll (step mc none) calls ⟨h, fun _ => none⟩ = some s) : Balanced mc h s := by
  have hkeep : ∀ call (s s' : Client), (∃ kind, Sound mc none s.heap kind s.live ∧ Own kind ∧
      Accounts mc h.memory s.heap.memory (Held kind)) → FreesLive call s →
      step mc none call s = some s' → ∃ kind, Sound mc none s'.heap kind s'.live ∧ Own kind ∧
      Accounts mc h.memory s'.heap.memory (Held kind) := by
    rintro call s s' ⟨kind, hs, hown, hacc⟩ hcall hstep
    obtain ⟨kind', hs', heff, hinh⟩ := step_moves hs hown hcall hstep
    exact ⟨kind', hs', fun a ha => hown a (hinh a ha), hacc.effect hs.core.pages heff⟩
  have hstart : Accounts mc h.memory h.memory (Held fun _ => none) := by
    refine accounts_nothing.congr fun v => ?_
    simp [Held]
  have hinv := runAll_invariant _ hkeep
    ⟨fun _ => none, sound_unused hu, by simp [Own], hstart⟩ hok hrun
  obtain ⟨kind, hs, hown, hacc⟩ := hinv
  exact accounts_balanced hu hs hown hacc

/-- Two allocations of different kinds, both freed. -/
def returnedCalls : List Call := [.malloc 20, .malloc 5000, .free 0xc010000c, .free 0xc010100c]

theorem run_heap_balanced_returned :
    ∃ s, runAll (step smallMachine none) returnedCalls ⟨memInit, fun _ => none⟩ = some s ∧
      Balanced smallMachine memInit s := by
  have hrun : (runAll (step smallMachine none) returnedCalls ⟨memInit, fun _ => none⟩).isSome := by
    decide +kernel
  obtain ⟨s, hs⟩ := Option.isSome_iff_exists.mp hrun
  have hok : AllMeet (step smallMachine none) FreesLive returnedCalls ⟨memInit, fun _ => none⟩ := by
    decide +kernel
  exact ⟨s, hs, run_heap_balanced memInit (fun _ => rfl) hok hs⟩

end Accounting

end HeapSafety
