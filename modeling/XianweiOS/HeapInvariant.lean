import XianweiOS.MemoryHeap

/-! The invariant of one context's heap and the two calls that keep it. Arenas are recorded by
page: small ones with their descriptor, large ones with their number of pages, and those that
came with the address space of a parent process. -/
namespace HeapInvariant

open ByteStore HaltingProgram KernelBitmap MemoryPages MemoryHeap

inductive Kind where
  | small (i : ℕ)
  | large (n : ℕ)
  | inherited
  deriving DecidableEq, Repr

def Kind.pages : Kind → ℕ
  | .small _ => 1
  | .large n => n
  | .inherited => 1

/-- The arenas by their first page. -/
abbrev Layout := ℕ → Option Kind

/-- The allocations a client holds, with the sizes it asked for. -/
abbrev Live := ℕ → Option ℕ

def Held (kind : Layout) (v : ℕ) : Prop := ∃ a k, kind a = some k ∧ v ∈ span a k.pages

/-- The arenas occupy pages of their own. -/
structure Pages (mc : Machine) (c : Ctx) (m : Memory) (kind : Layout) : Prop where
  pos : ∀ a k, kind a = some k → 0 < k.pages
  start : ∀ a k, kind a = some k → vaddrStart c ≤ a
  own : ∀ a k, kind a = some k → c = none ∨ a + k.pages ≤ 0xc0000
  apart : ∀ a b k l v, kind a = some k → kind b = some l → v ∈ span a k.pages →
    v ∈ span b l.pages → a = b
  held : ∀ v, Held kind v → Reserved mc m c v ∧ ∃ f, m.frameAt c v = some f

section Pages

variable {mc : Machine} {c : Ctx} {m m' : Memory} {kind : Layout} {a b v : ℕ} {k l : Kind}

theorem Pages.first (hp : Pages mc c m kind) (ha : kind a = some k) : Held kind a := by
  refine ⟨a, k, ha, ?_⟩
  have := hp.pos a k ha
  simp only [mem_span]
  omega

theorem held_start (hp : Pages mc c m kind) (hv : Held kind v) : vaddrStart c ≤ v := by
  obtain ⟨a, k, ha, hin⟩ := hv
  exact le_trans (hp.start a k ha) hin.1

theorem not_held_of_gained (hp : Pages mc c m kind) {n : ℕ} (hg : Gained mc m m' c a n)
    (hv : Held kind v) : v ∉ span a n := fun hin => hg.free v hin (hp.held v hv).1

theorem held_update_some (hnone : kind a = none) :
    Held (Function.update kind a (some k)) v ↔ Held kind v ∨ v ∈ span a k.pages := by
  constructor
  · rintro ⟨b, l, hb, hin⟩
    by_cases hba : b = a
    · subst b
      rw [Function.update_self] at hb
      obtain rfl := Option.some.inj hb
      exact .inr hin
    · rw [Function.update_of_ne hba] at hb
      exact .inl ⟨b, l, hb, hin⟩
  · rintro (⟨b, l, hb, hin⟩ | hin)
    · refine ⟨b, l, ?_, hin⟩
      rw [Function.update_of_ne, hb]
      rintro rfl
      rw [hnone] at hb
      cases hb
    · exact ⟨a, k, Function.update_self .., hin⟩

theorem held_update_none (hp : Pages mc c m kind) (ha : kind a = some k) :
    Held (Function.update kind a none) v ↔ Held kind v ∧ v ∉ span a k.pages := by
  constructor
  · rintro ⟨b, l, hb, hin⟩
    have hba : b ≠ a := by
      rintro rfl
      rw [Function.update_self] at hb
      cases hb
    rw [Function.update_of_ne hba] at hb
    exact ⟨⟨b, l, hb, hin⟩, fun hin' => hba (hp.apart b a l k v hb ha hin hin')⟩
  · rintro ⟨⟨b, l, hb, hin⟩, hout⟩
    refine ⟨b, l, ?_, hin⟩
    rw [Function.update_of_ne, hb]
    rintro rfl
    rw [ha] at hb
    obtain rfl := Option.some.inj hb
    exact hout hin

theorem Pages.none_of_gained (hp : Pages mc c m kind) (hpos : 0 < k.pages)
    (hg : Gained mc m m' c a k.pages) : kind a = none := by
  cases ha : kind a with
  | none => rfl
  | some l =>
    refine absurd ?_ (not_held_of_gained hp hg (hp.first ha))
    simp only [mem_span]
    omega

theorem Pages.gain (hp : Pages mc c m kind) (hpos : 0 < k.pages)
    (hg : Gained mc m m' c a k.pages) : Pages mc c m' (Function.update kind a (some k)) := by
  have hnone := hp.none_of_gained hpos hg
  have hout : ∀ b l v, kind b = some l → v ∈ span b l.pages → v ∉ span a k.pages :=
    fun b l v hb hin => not_held_of_gained hp hg ⟨b, l, hb, hin⟩
  constructor
  case pos =>
    intro b l hb
    by_cases hba : b = a
    · subst b
      rw [Function.update_self] at hb
      exact Option.some.inj hb ▸ hpos
    · exact hp.pos b l (by rwa [Function.update_of_ne hba] at hb)
  case start =>
    intro b l hb
    by_cases hba : b = a
    · exact hba ▸ hg.start
    · exact hp.start b l (by rwa [Function.update_of_ne hba] at hb)
  case own =>
    intro b l hb
    by_cases hba : b = a
    · subst b
      rw [Function.update_self] at hb
      exact Option.some.inj hb ▸ hg.own
    · exact hp.own b l (by rwa [Function.update_of_ne hba] at hb)
  case apart =>
    intro b d l l' v hb hd hvb hvd
    by_cases hba : b = a
    · subst b
      by_cases hda : d = a
      · exact hda.symm
      · rw [Function.update_self] at hb
        rw [Function.update_of_ne hda] at hd
        obtain rfl := Option.some.inj hb
        exact absurd hvb (hout d l' v hd hvd)
    · rw [Function.update_of_ne hba] at hb
      by_cases hda : d = a
      · subst d
        rw [Function.update_self] at hd
        obtain rfl := Option.some.inj hd
        exact absurd hvd (hout b l v hb hvb)
      · rw [Function.update_of_ne hda] at hd
        exact hp.apart b d l l' v hb hd hvb hvd
  case held =>
    intro v hv
    rcases (held_update_some hnone).mp hv with hv | hin
    · have hstart := held_start hp hv
      have hne : ¬(c = c ∧ v ∈ span a k.pages) := fun hh => not_held_of_gained hp hg hv hh.2
      rw [hg.reserved c v hstart, hg.others c v hne]
      exact ⟨.inr (hp.held v hv).1, (hp.held v hv).2⟩
    · have hstart : vaddrStart c ≤ v := le_trans hg.start hin.1
      rw [hg.reserved c v hstart]
      exact ⟨.inl ⟨rfl, hin⟩, hg.mapped v hin⟩

theorem Pages.lose (hp : Pages mc c m kind) (ha : kind a = some k)
    (hl : Lost mc m m' c a k.pages) : Pages mc c m' (Function.update kind a none) := by
  have hsub : ∀ b l, Function.update kind a none b = some l → kind b = some l := by
    intro b l hb
    rwa [Function.update_of_ne] at hb
    rintro rfl
    rw [Function.update_self] at hb
    cases hb
  constructor
  case pos => exact fun b l hb => hp.pos b l (hsub b l hb)
  case start => exact fun b l hb => hp.start b l (hsub b l hb)
  case own => exact fun b l hb => hp.own b l (hsub b l hb)
  case apart =>
    exact fun b d l l' v hb hd => hp.apart b d l l' v (hsub b l hb) (hsub d l' hd)
  case held =>
    intro v hv
    obtain ⟨hv, hout⟩ := (held_update_none hp ha).mp hv
    have hne : ¬(c = c ∧ v ∈ span a k.pages) := fun hh => hout hh.2
    rw [hl.reserved c v (held_start hp hv), hl.others c v hne]
    exact ⟨⟨hne, (hp.held v hv).1⟩, (hp.held v hv).2⟩

/-- Only the context's own pages matter. -/
theorem Pages.congr (hp : Pages mc c m kind)
    (hr : ∀ v, vaddrStart c ≤ v → (Reserved mc m' c v ↔ Reserved mc m c v))
    (hf : ∀ v, m'.frameAt c v = m.frameAt c v) : Pages mc c m' kind := by
  constructor
  case pos => exact hp.pos
  case start => exact hp.start
  case own => exact hp.own
  case apart => exact hp.apart
  case held =>
    intro v hv
    rw [hr v (held_start hp hv), hf]
    exact hp.held v hv

end Pages

/-- Where a live allocation lies. -/
inductive Placed (kind : Layout) (p size : ℕ) : Prop where
  | small (a i k : ℕ) : kind a = some (.small i) → k < blocksPerArena i →
      p = arena2block a i k → size ≤ blockSize i → Placed kind p size
  | large (a n : ℕ) : kind a = some (.large n) → p = a * pgSize + arenaSize →
      size + arenaSize ≤ n * pgSize → Placed kind p size
  | inherited : kind (block2arena p) = some .inherited → Placed kind p size

theorem Placed.mono {kind kind' : Layout} {p size : ℕ}
    (hkeep : ∀ a x, kind a = some x → block2arena p = a → kind' a = some x)
    (hp : Placed kind p size) : Placed kind' p size := by
  cases hp with
  | small a i k ha hk he hs =>
    exact .small a i k (hkeep a _ ha (by rw [he, block2arena_arena2block hk])) hk he hs
  | large a n ha he hs => exact .large a n (hkeep a _ ha (by rw [he, block2arena_large])) he hs
  | inherited ha => exact .inherited (hkeep _ _ ha rfl)

/-- The arena an allocation lies in. -/
theorem Placed.page {kind : Layout} {p size : ℕ} (hp : Placed kind p size) :
    ∃ x, kind (block2arena p) = some x := by
  cases hp with
  | small a i k ha hk he hs =>
    rw [he, block2arena_arena2block hk]
    exact ⟨_, ha⟩
  | large a n ha he hs =>
    rw [he, block2arena_large]
    exact ⟨_, ha⟩
  | inherited ha => exact ⟨_, ha⟩

structure Core (mc : Machine) (c : Ctx) (h : Heap) (kind : Layout) (live : Live) : Prop where
  pages : Pages mc c h.memory kind
  small : ∀ a i, kind a = some (.small i) →
    (h.header c a).desc = some (c, i) ∧ (h.header c a).cnt = freeCnt h c a i
  large : ∀ a n, kind a = some (.large n) → h.header c a = ⟨none, n, true⟩
  inherited : ∀ a, kind a = some .inherited → ∃ o i, (h.header c a).desc = some (o, i) ∧ o ≠ c
  block : ∀ a i k, kind a = some (.small i) → k < blocksPerArena i →
    (arena2block a i k ∈ h.freeList c i ↔ live (arena2block a i k) = none)
  free : ∀ i, ∀ b ∈ h.freeList c i, ∃ a k, kind a = some (.small i) ∧ k < blocksPerArena i ∧
    b = arena2block a i k
  nodup : ∀ i, (h.freeList c i).Nodup
  placed : ∀ p size, live p = some size → Placed kind p size

/-- No arena is kept without an allocation in it. -/
structure Busy (kind : Layout) (live : Live) : Prop where
  small : ∀ a i, kind a = some (.small i) →
    ∃ k < blocksPerArena i, live (arena2block a i k) ≠ none
  large : ∀ a n, kind a = some (.large n) → live (a * pgSize + arenaSize) ≠ none

section Calls

variable {mc : Machine} {c : Ctx} {h h' : Heap} {kind : Layout} {live : Live}
  {a b i j k n p size : ℕ}

theorem update_some_iff {x : Kind} {kd : Kind} :
    Function.update kind a (some kd) b = some x ↔
      (b = a ∧ x = kd) ∨ (b ≠ a ∧ kind b = some x) := by
  by_cases hb : b = a
  · subst b
    simp [eq_comm]
  · simp [hb]

theorem update_none_iff {x : Kind} :
    Function.update kind a none b = some x ↔ b ≠ a ∧ kind b = some x := by
  by_cases hb : b = a
  · subst b
    simp
  · simp [hb]

theorem ne_of_kind {x : Kind} (ha : kind a = none) (hb : kind b = some x) : b ≠ a := by
  rintro rfl
  rw [ha] at hb
  cases hb

theorem block_ne_large (hk : k < blocksPerArena i) (hne : b ≠ a) :
    arena2block b i k ≠ a * pgSize + arenaSize := by
  intro he
  have := congrArg block2arena he
  rw [block2arena_arena2block hk, block2arena_large] at this
  exact hne this

theorem mallocLarge_cases {r : Option ℕ} (hm : mallocLarge mc h c size = some (h', r)) :
    (r = none ∧ h' = h) ∨ ∃ n m a, 0 < n ∧ size + arenaSize ≤ n * pgSize ∧
      mallocPage mc h.memory c n = some (m, some a) ∧ r = some (a * pgSize + arenaSize) ∧
      h' = ((h.setMemory m).clearPages c a n).setHeader c a ⟨none, n, true⟩ := by
  simp only [mallocLarge, bind_some_iff] at hm
  obtain ⟨⟨m, r'⟩, hp, hm⟩ := hm
  cases r' with
  | none =>
    obtain ⟨-, ⟨-, rfl⟩ | ⟨v, m₁, hr, -⟩⟩ := mallocPage_cases hp
    · simp only [Option.pure_def, Option.some.injEq, Prod.mk.injEq] at hm
      exact .inl ⟨hm.2.symm, hm.1.symm⟩
    · cases hr
  | some a =>
    simp only [Option.pure_def, Option.some.injEq, Prod.mk.injEq] at hm
    refine .inr ⟨_, m, a, (mallocPage_cases hp).1, ?_, hp, hm.2.symm, hm.1.symm⟩
    simp only [arenaSize, pgSize]
    omega

/-- A large allocation is a new arena of its own. -/
theorem Core.newLarge (hc : Core mc c h kind live) {m : Memory} (hn : 0 < n)
    (hg : Gained mc h.memory m c a n) (hsize : size + arenaSize ≤ n * pgSize) :
    Core mc c (((h.setMemory m).clearPages c a n).setHeader c a ⟨none, n, true⟩)
      (Function.update kind a (some (.large n)))
      (Function.update live (a * pgSize + arenaSize) (some size)) := by
  have hnone : kind a = none := hc.pages.none_of_gained (k := .large n) hn hg
  -- no old arena starts in the new pages
  have hhead : ∀ b x, kind b = some x → ((((h.setMemory m).clearPages c a n).setHeader c a
      ⟨none, n, true⟩).header c b) = h.header c b := by
    intro b x hb
    have hout := not_held_of_gained hc.pages hg (hc.pages.first hb)
    rw [setHeader_header, if_neg (fun hh => ne_of_kind hnone hb hh.2),
      clearPages_header (fun hh => hout hh.2)]
    rfl
  constructor
  case pages => exact hc.pages.gain (k := .large n) hn hg
  case small =>
    intro b j hb
    obtain ⟨-, hx⟩ | ⟨-, hb⟩ := update_some_iff.mp hb
    · cases hx
    · rw [hhead b _ hb]
      exact hc.small b j hb
  case large =>
    intro b l hb
    obtain ⟨rfl, hx⟩ | ⟨-, hb⟩ := update_some_iff.mp hb
    · cases hx
      rw [setHeader_header, if_pos ⟨rfl, rfl⟩]
    · rw [hhead b _ hb]
      exact hc.large b l hb
  case inherited =>
    intro b hb
    obtain ⟨-, hx⟩ | ⟨-, hb⟩ := update_some_iff.mp hb
    · cases hx
    · rw [hhead b _ hb]
      exact hc.inherited b hb
  case block =>
    intro b j k hb hk
    obtain ⟨-, hx⟩ | ⟨hba, hb⟩ := update_some_iff.mp hb
    · cases hx
    · rw [Function.update_of_ne (block_ne_large hk hba)]
      exact hc.block b j k hb hk
  case free =>
    intro j x hx
    obtain ⟨b, k, hb, hk, rfl⟩ := hc.free j x hx
    exact ⟨b, k, update_some_iff.mpr (.inr ⟨ne_of_kind hnone hb, hb⟩), hk, rfl⟩
  case nodup => exact hc.nodup
  case placed =>
    intro q sz hq
    by_cases hqp : q = a * pgSize + arenaSize
    · subst q
      rw [Function.update_self] at hq
      obtain rfl := Option.some.inj hq
      exact .large a n (Function.update_self ..) rfl hsize
    · rw [Function.update_of_ne hqp] at hq
      exact (hc.placed q sz hq).mono fun b x hb _ =>
        update_some_iff.mpr (.inr ⟨ne_of_kind hnone hb, hb⟩)

theorem newArena_cases {ok : Bool} (hm : newArena mc h c i = some (h', ok)) :
    (ok = false ∧ h' = h) ∨ ∃ m a l, ok = true ∧ mallocPage mc h.memory c 1 = some (m, some a) ∧
      l = h.freeList c i ++ (List.range (blocksPerArena i)).map (arena2block a i) ∧
      h' = ((h.setMemory m).setHeader c a ⟨some (c, i), blocksPerArena i, true⟩).setFreeList c i l := by
  simp only [newArena, bind_some_iff] at hm
  obtain ⟨⟨m, r⟩, hp, hm⟩ := hm
  cases r with
  | none =>
    obtain ⟨-, ⟨-, rfl⟩ | ⟨v, m₁, hr, -⟩⟩ := mallocPage_cases hp
    · simp only [Option.pure_def, Option.some.injEq, Prod.mk.injEq] at hm
      exact .inl ⟨hm.2.symm, hm.1.symm⟩
    · cases hr
  | some a =>
    simp only [bind_some_iff, Option.pure_def, Option.some.injEq, Prod.mk.injEq] at hm
    obtain ⟨l, hl, hh, hok⟩ := hm
    refine .inr ⟨m, a, l, hok.symm, hp, ?_, hh.symm⟩
    rw [appendBlocks_eq hl, List.range_eq_range']

/-- An arena cut for an empty list; its blocks are then the whole list. -/
theorem Core.newSmall (hc : Core mc c h kind live) {m : Memory} (hempty : h.freeList c i = [])
    (hg : Gained mc h.memory m c a 1) :
    Core mc c (((h.setMemory m).setHeader c a ⟨some (c, i), blocksPerArena i, true⟩).setFreeList c i
        ((List.range (blocksPerArena i)).map (arena2block a i)))
      (Function.update kind a (some (.small i))) live := by
  have hnone : kind a = none := hc.pages.none_of_gained (k := .small i) Nat.one_pos hg
  have hold : ∀ b x, kind b = some x → b ≠ a := fun b x hb => ne_of_kind hnone hb
  have hlist : ∀ x, x ∈ (List.range (blocksPerArena i)).map (arena2block a i) ↔
      ∃ k < blocksPerArena i, x = arena2block a i k := by
    intro x
    simp only [List.mem_map, List.mem_range, eq_comm (a := x)]
  -- no allocation lies in the new page
  have hdead : ∀ k < blocksPerArena i, live (arena2block a i k) = none := by
    intro k hk
    cases hq : live (arena2block a i k) with
    | none => rfl
    | some sz =>
      obtain ⟨x, hx⟩ := (hc.placed _ _ hq).page
      rw [block2arena_arena2block hk] at hx
      exact absurd rfl (hold a x hx)
  set h₁ := ((h.setMemory m).setHeader c a ⟨some (c, i), blocksPerArena i, true⟩).setFreeList c i
    ((List.range (blocksPerArena i)).map (arena2block a i)) with hh₁
  have hhead : ∀ b x, kind b = some x → h₁.header c b = h.header c b := by
    intro b x hb
    rw [hh₁, setFreeList_header, setHeader_header, if_neg (fun hh => hold b x hb hh.2)]
    rfl
  have hfl : ∀ j, h₁.freeList c j = if j = i then
      (List.range (blocksPerArena i)).map (arena2block a i) else h.freeList c j := by
    intro j
    rw [hh₁, setFreeList_list]
    simp
  constructor
  case pages => exact hc.pages.gain (k := .small i) Nat.one_pos hg
  case small =>
    intro b j hb
    obtain ⟨rfl, hx⟩ | ⟨hba, hb⟩ := update_some_iff.mp hb
    · cases hx
      rw [hh₁, setFreeList_header, setHeader_header, if_pos ⟨rfl, rfl⟩]
      refine ⟨rfl, (freeCnt_all fun k hk => ?_).symm⟩
      rw [← hh₁, hfl, if_pos rfl, hlist]
      exact ⟨k, hk, rfl⟩
    · rw [hhead b _ hb]
      refine ⟨(hc.small b j hb).1, ?_⟩
      rw [(hc.small b j hb).2]
      refine (freeCnt_congr fun k hk => ?_).symm
      rw [hfl]
      by_cases hji : j = i
      · subst j
        rw [if_pos rfl, hempty, hlist]
        simp only [List.not_mem_nil, iff_false]
        rintro ⟨l, hl, he⟩
        exact hba (arena2block_inj hk hl he).1
      · rw [if_neg hji]
  case large =>
    intro b l hb
    obtain ⟨-, hx⟩ | ⟨-, hb⟩ := update_some_iff.mp hb
    · cases hx
    · rw [hhead b _ hb]
      exact hc.large b l hb
  case inherited =>
    intro b hb
    obtain ⟨-, hx⟩ | ⟨-, hb⟩ := update_some_iff.mp hb
    · cases hx
    · rw [hhead b _ hb]
      exact hc.inherited b hb
  case block =>
    intro b j k hb hk
    rw [hfl]
    obtain ⟨rfl, hx⟩ | ⟨hba, hb⟩ := update_some_iff.mp hb
    · cases hx
      rw [if_pos rfl, hlist]
      exact ⟨fun _ => hdead k hk, fun _ => ⟨k, hk, rfl⟩⟩
    · by_cases hji : j = i
      · subst j
        have hold' := hc.block b i k hb hk
        rw [hempty] at hold'
        rw [if_pos rfl, hlist, ← hold']
        simp only [List.not_mem_nil, iff_false]
        rintro ⟨l, hl, he⟩
        exact hba (arena2block_inj hk hl he).1
      · rw [if_neg hji]
        exact hc.block b j k hb hk
  case free =>
    intro j x hx
    rw [hfl] at hx
    by_cases hji : j = i
    · subst j
      rw [if_pos rfl, hlist] at hx
      obtain ⟨k, hk, rfl⟩ := hx
      exact ⟨a, k, Function.update_self .., hk, rfl⟩
    · rw [if_neg hji] at hx
      obtain ⟨b, k, hb, hk, rfl⟩ := hc.free j x hx
      exact ⟨b, k, update_some_iff.mpr (.inr ⟨hold b _ hb, hb⟩), hk, rfl⟩
  case nodup =>
    intro j
    rw [hfl]
    split
    · refine List.Nodup.map_on ?_ List.nodup_range
      intro x hx y hy he
      exact (arena2block_inj (List.mem_range.mp hx) (List.mem_range.mp hy) he).2
    · exact hc.nodup j
  case placed =>
    exact fun q sz hq => (hc.placed q sz hq).mono fun b x hb _ =>
      update_some_iff.mpr (.inr ⟨hold b x hb, hb⟩)

theorem takeBlock_cases {r : Option ℕ} (ht : takeBlock h c i = some (h', r)) :
    ∃ b l, h.freeList c i = b :: l ∧ r = some b ∧
      h' = (h.setFreeList c i l).setHeader c (block2arena b)
        { h.header c (block2arena b) with cnt := (h.header c (block2arena b)).cnt - 1 } := by
  unfold takeBlock at ht
  split at ht
  · cases ht
  · rename_i b l hl
    simp only [Option.some.injEq, Prod.mk.injEq] at ht
    exact ⟨b, l, hl, ht.2.symm, ht.1.symm⟩

/-- Two small arenas on one page have one descriptor. -/
theorem small_unique (ha : kind a = some (.small i)) (hb : kind a = some (.small j)) : j = i := by
  rw [ha] at hb
  cases hb
  rfl

/-- The large arenas and the inherited ones do not see a new header of a small one. -/
theorem Core.header_large (hc : Core mc c h kind live) (ha : kind a = some (.small i))
    (hhead : ∀ b, b ≠ a → h'.header c b = h.header c b) (hb : kind b = some (.large n)) :
    h'.header c b = ⟨none, n, true⟩ := by
  rw [hhead b]
  · exact hc.large b n hb
  · rintro rfl
    rw [ha] at hb
    cases hb

theorem Core.header_inherited (hc : Core mc c h kind live) (ha : kind a = some (.small i))
    (hhead : ∀ b, b ≠ a → h'.header c b = h.header c b) (hb : kind b = some .inherited) :
    ∃ o i, (h'.header c b).desc = some (o, i) ∧ o ≠ c := by
  rw [hhead b]
  · exact hc.inherited b hb
  · rintro rfl
    rw [ha] at hb
    cases hb

/-- The head of the list becomes an allocation. -/
theorem Core.take (hc : Core mc c h kind live) {l : List ℕ} (hl : h.freeList c i = b :: l)
    (hsize : size ≤ blockSize i) :
    Core mc c ((h.setFreeList c i l).setHeader c (block2arena b)
        { h.header c (block2arena b) with cnt := (h.header c (block2arena b)).cnt - 1 }) kind
      (Function.update live b (some size)) := by
  obtain ⟨a, k, ha, hk, rfl⟩ := hc.free i b (by rw [hl]; exact List.mem_cons_self)
  rw [block2arena_arena2block hk]
  set h₁ := (h.setFreeList c i l).setHeader c a
    { h.header c a with cnt := (h.header c a).cnt - 1 } with hh₁
  have hnd := hc.nodup i
  rw [hl, List.nodup_cons] at hnd
  have hfl : ∀ j, h₁.freeList c j = if j = i then l else h.freeList c j := by
    intro j
    rw [hh₁, setHeader_freeList, setFreeList_list]
    simp
  have hhead : ∀ b, b ≠ a → h₁.header c b = h.header c b := by
    intro b hba
    rw [hh₁, setHeader_header, if_neg (fun hh => hba hh.2)]
    rfl
  have hself : h₁.header c a = { h.header c a with cnt := (h.header c a).cnt - 1 } := by
    rw [hh₁, setHeader_header, if_pos ⟨rfl, rfl⟩]
  -- the list has lost the block and nothing else
  have hmem : ∀ j x, x ∈ h.freeList c j ↔
      x ∈ h₁.freeList c j ∨ (j = i ∧ x = arena2block a i k) := by
    intro j x
    rw [hfl]
    by_cases hji : j = i
    · subst j
      simp [hl, or_comm]
    · simp [hji]
  constructor
  case pages => exact hc.pages
  case small =>
    intro b j hb
    by_cases hba : b = a
    · subst b
      obtain rfl := small_unique ha hb
      rw [hself]
      refine ⟨(hc.small a j ha).1, ?_⟩
      have hadd : freeCnt h c a j = freeCnt h₁ c a j + 1 := by
        refine freeCnt_add hk ?_ fun x => ?_
        · rw [hfl, if_pos rfl]
          exact hnd.1
        · rw [hmem]
          simp
      have := (hc.small a j ha).2
      simp only
      omega
    · rw [hhead b hba]
      refine ⟨(hc.small b j hb).1, ?_⟩
      rw [(hc.small b j hb).2]
      refine (freeCnt_congr fun k' hk' => ?_).symm
      rw [hmem]
      refine ⟨.inl, fun hor => hor.resolve_right ?_⟩
      rintro ⟨rfl, he⟩
      exact hba (arena2block_inj hk' hk he).1
  case large => exact fun b n hb => hc.header_large ha hhead hb
  case inherited => exact fun b hb => hc.header_inherited ha hhead hb
  case block =>
    intro b j k' hb hk'
    by_cases he : arena2block b j k' = arena2block a i k
    · have hba : b = a := arena_eq hk' hk he
      subst b
      obtain rfl := small_unique ha hb
      rw [he, Function.update_self, hfl, if_pos rfl]
      simp [hnd.1]
    · rw [Function.update_of_ne he, ← hc.block b j k' hb hk', hmem]
      simp [he]
  case free => exact fun j x hx => hc.free j x ((hmem j x).mpr (.inl hx))
  case nodup =>
    intro j
    rw [hfl]
    split
    · exact hnd.2
    · exact hc.nodup j
  case placed =>
    intro q sz hq
    by_cases hqb : q = arena2block a i k
    · subst q
      rw [Function.update_self] at hq
      obtain rfl := Option.some.inj hq
      exact .small a i k ha hk rfl hsize
    · rw [Function.update_of_ne hqb] at hq
      exact hc.placed q sz hq

/-- An allocation goes back to the end of the list. -/
theorem Core.put (hc : Core mc c h kind live) (ha : kind a = some (.small i))
    (hk : k < blocksPerArena i) (hlive : live (arena2block a i k) ≠ none) :
    Core mc c ((h.setHeader c a { h.header c a with cnt := (h.header c a).cnt + 1 }).setFreeList c i
        (h.freeList c i ++ [arena2block a i k])) kind
      (Function.update live (arena2block a i k) none) := by
  set h₁ := (h.setHeader c a { h.header c a with cnt := (h.header c a).cnt + 1 }).setFreeList c i
    (h.freeList c i ++ [arena2block a i k]) with hh₁
  have hnew : arena2block a i k ∉ h.freeList c i := fun hin => hlive ((hc.block a i k ha hk).mp hin)
  have hfl : ∀ j, h₁.freeList c j =
      if j = i then h.freeList c i ++ [arena2block a i k] else h.freeList c j := by
    intro j
    rw [hh₁, setFreeList_list]
    simp
  have hhead : ∀ b, b ≠ a → h₁.header c b = h.header c b := by
    intro b hba
    rw [hh₁, setFreeList_header, setHeader_header, if_neg (fun hh => hba hh.2)]
  have hself : h₁.header c a = { h.header c a with cnt := (h.header c a).cnt + 1 } := by
    rw [hh₁, setFreeList_header, setHeader_header, if_pos ⟨rfl, rfl⟩]
  have hmem : ∀ j x, x ∈ h₁.freeList c j ↔
      x ∈ h.freeList c j ∨ (j = i ∧ x = arena2block a i k) := by
    intro j x
    rw [hfl]
    by_cases hji : j = i
    · subst j
      simp
    · simp [hji]
  constructor
  case pages => exact hc.pages
  case small =>
    intro b j hb
    by_cases hba : b = a
    · subst b
      obtain rfl := small_unique ha hb
      rw [hself]
      refine ⟨(hc.small a j ha).1, ?_⟩
      have hadd : freeCnt h₁ c a j = freeCnt h c a j + 1 := by
        refine freeCnt_add hk hnew fun x => ?_
        rw [hmem]
        simp
      have := (hc.small a j ha).2
      simp only
      omega
    · rw [hhead b hba]
      refine ⟨(hc.small b j hb).1, ?_⟩
      rw [(hc.small b j hb).2]
      refine (freeCnt_congr fun k' hk' => ?_).symm
      rw [hmem]
      refine ⟨fun hor => hor.resolve_right ?_, .inl⟩
      rintro ⟨rfl, he⟩
      exact hba (arena2block_inj hk' hk he).1
  case large => exact fun b n hb => hc.header_large ha hhead hb
  case inherited => exact fun b hb => hc.header_inherited ha hhead hb
  case block =>
    intro b j k' hb hk'
    by_cases he : arena2block b j k' = arena2block a i k
    · have hba : b = a := arena_eq hk' hk he
      subst b
      obtain rfl := small_unique ha hb
      rw [he, Function.update_self, hmem]
      simp
    · rw [Function.update_of_ne he, ← hc.block b j k' hb hk', hmem]
      simp [he]
  case free =>
    intro j x hx
    rcases (hmem j x).mp hx with hx | ⟨rfl, rfl⟩
    · exact hc.free j x hx
    · exact ⟨a, k, ha, hk, rfl⟩
  case nodup =>
    intro j
    rw [hfl]
    split
    · refine (hc.nodup i).append (by simp) ?_
      simpa using hnew
    · exact hc.nodup j
  case placed =>
    intro q sz hq
    by_cases hqb : q = arena2block a i k
    · subst q
      rw [Function.update_self] at hq
      cases hq
    · rw [Function.update_of_ne hqb] at hq
      exact hc.placed q sz hq

/-- An arena without allocations leaves the list and gives its page back. -/
theorem Core.dissolve (hc : Core mc c h kind live) {l : List ℕ} {m : Memory}
    (ha : kind a = some (.small i)) (hall : freeCnt h c a i = blocksPerArena i)
    (hl : removeBlocks a i (blocksPerArena i) 0 (h.freeList c i) = some l)
    (hm : Lost mc h.memory m c a 1) :
    Core mc c ((h.setFreeList c i l).setMemory m) (Function.update kind a none) live := by
  obtain ⟨hnd, hmem⟩ := removeBlocks_mem hl (hc.nodup i)
  set h₁ := (h.setFreeList c i l).setMemory m with hh₁
  have hfl : ∀ j, h₁.freeList c j = if j = i then l else h.freeList c j := by
    intro j
    rw [hh₁, setMemory_freeList, setFreeList_list]
    simp
  -- the blocks of other arenas stay where they are
  have hother : ∀ b j k, b ≠ a → k < blocksPerArena j →
      (arena2block b j k ∈ h₁.freeList c j ↔ arena2block b j k ∈ h.freeList c j) := by
    intro b j k hba hk
    rw [hfl]
    by_cases hji : j = i
    · subst j
      rw [if_pos rfl, hmem]
      refine ⟨fun hx => hx.1, fun hx => ⟨hx, fun k' hk' he => ?_⟩⟩
      rw [mem_span] at hk'
      exact hba (arena2block_inj hk (by omega) he).1
    · rw [if_neg hji]
  have hsub : ∀ j x, x ∈ h₁.freeList c j → x ∈ h.freeList c j := by
    intro j x hx
    rw [hfl] at hx
    by_cases hji : j = i
    · subst j
      rw [if_pos rfl] at hx
      exact ((hmem x).mp hx).1
    · rwa [if_neg hji] at hx
  constructor
  case pages => exact hc.pages.lose ha hm
  case small =>
    intro b j hb
    obtain ⟨hba, hb⟩ := update_none_iff.mp hb
    refine ⟨(hc.small b j hb).1, ?_⟩
    rw [freeCnt_congr fun k hk => hother b j k hba hk]
    exact (hc.small b j hb).2
  case large => exact fun b n hb => hc.large b n (update_none_iff.mp hb).2
  case inherited => exact fun b hb => hc.inherited b (update_none_iff.mp hb).2
  case block =>
    intro b j k hb hk
    obtain ⟨hba, hb⟩ := update_none_iff.mp hb
    rw [hother b j k hba hk]
    exact hc.block b j k hb hk
  case free =>
    intro j x hx
    obtain ⟨b, k, hb, hk, rfl⟩ := hc.free j x (hsub j x hx)
    refine ⟨b, k, update_none_iff.mpr ⟨?_, hb⟩, hk, rfl⟩
    rintro rfl
    obtain rfl := small_unique ha hb
    rw [hfl, if_pos rfl, hmem] at hx
    exact hx.2 k (by simpa using hk) rfl
  case nodup =>
    intro j
    rw [hfl]
    split
    · exact hnd
    · exact hc.nodup j
  case placed =>
    intro q sz hq
    refine (hc.placed q sz hq).mono fun b x hb hpage => update_none_iff.mpr ⟨?_, hb⟩
    rintro rfl
    -- an allocation in the arena would not be on the list
    cases hc.placed q sz hq with
    | small d j k hd hk he hs =>
      rw [he, block2arena_arena2block hk] at hpage
      subst d
      obtain rfl := small_unique ha hd
      have := (hc.block b j k hd hk).mp (freeCnt_eq_all hall hk)
      rw [← he, hq] at this
      cases this
    | large d n hd he hs =>
      rw [he, block2arena_large] at hpage
      subst d
      rw [ha] at hd
      cases hd
    | inherited hd =>
      rw [hpage, ha] at hd
      cases hd

theorem Core.freeLarge (hc : Core mc c h kind live) {m : Memory} (ha : kind a = some (.large n))
    (hm : Lost mc h.memory m c a n) :
    Core mc c (h.setMemory m) (Function.update kind a none)
      (Function.update live (a * pgSize + arenaSize) none) := by
  have hsmall : ∀ b i, kind b = some (.small i) → b ≠ a := by
    rintro b i hb rfl
    rw [ha] at hb
    cases hb
  constructor
  case pages => exact hc.pages.lose ha hm
  case small => exact fun b j hb => hc.small b j (update_none_iff.mp hb).2
  case large => exact fun b l hb => hc.large b l (update_none_iff.mp hb).2
  case inherited => exact fun b hb => hc.inherited b (update_none_iff.mp hb).2
  case block =>
    intro b j k hb hk
    obtain ⟨hba, hb⟩ := update_none_iff.mp hb
    rw [Function.update_of_ne (block_ne_large hk hba)]
    exact hc.block b j k hb hk
  case free =>
    intro j x hx
    obtain ⟨b, k, hb, hk, rfl⟩ := hc.free j x hx
    exact ⟨b, k, update_none_iff.mpr ⟨hsmall b j hb, hb⟩, hk, rfl⟩
  case nodup => exact hc.nodup
  case placed =>
    intro q sz hq
    by_cases hqp : q = a * pgSize + arenaSize
    · subst q
      rw [Function.update_self] at hq
      cases hq
    · rw [Function.update_of_ne hqp] at hq
      refine (hc.placed q sz hq).mono fun b x hb hpage => update_none_iff.mpr ⟨?_, hb⟩
      rintro rfl
      cases hc.placed q sz hq with
      | small d j k hd hk he hs =>
        rw [he, block2arena_arena2block hk] at hpage
        exact hsmall d j hd hpage
      | large d l hd he hs =>
        rw [he, block2arena_large] at hpage
        subst d
        exact hqp he
      | inherited hd =>
        rw [hpage, ha] at hd
        cases hd

end Calls

/-- What a call does to the pages behind the arenas. -/
inductive PageEffect (mc : Machine) (c : Ctx) (m m' : Memory) (kind kind' : Layout) : Prop where
  | same : m' = m → (∀ v, Held kind' v ↔ Held kind v) → PageEffect mc c m m' kind kind'
  | gain (a n : ℕ) : mallocPage mc m c n = some (m', some a) →
      (∀ v, Held kind' v ↔ Held kind v ∨ v ∈ span a n) → PageEffect mc c m m' kind kind'
  | lose (a n : ℕ) : mfreePage mc m c a n = some m' → vaddrStart c ≤ a →
      (c = none ∨ a + n ≤ 0xc0000) → (∀ v ∈ span a n, Held kind v) →
      (∀ v, Held kind' v ↔ Held kind v ∧ v ∉ span a n) → PageEffect mc c m m' kind kind'

/-- The state of a heap before or after a call, with what the call did to the pages. -/
structure Sound (mc : Machine) (c : Ctx) (h : Heap) (kind : Layout) (live : Live) : Prop where
  core : Core mc c h kind live
  busy : Busy kind live

/-- Block `k` of arena `a` has been taken: the arena was there, or its page is new. -/
inductive Lent (mc : Machine) (c : Ctx) (m m' : Memory) (kind : Layout) (i a k : ℕ) :
    Layout → Prop where
  | free : kind a = some (.small i) → k < blocksPerArena i → m' = m →
      Lent mc c m m' kind i a k kind
  | fresh : kind a = none → k < blocksPerArena i →
      mallocPage mc m c 1 = some (m', some a) →
      Lent mc c m m' kind i a k (Function.update kind a (some (.small i)))

def Moves (mc : Machine) (c : Ctx) (h h' : Heap) (kind : Layout) (live' : Live) : Prop :=
  ∃ kind', Sound mc c h' kind' live' ∧ PageEffect mc c h.memory h'.memory kind kind' ∧
    ∀ a, kind' a = some .inherited → kind a = some .inherited

section Sound

variable {mc : Machine} {c : Ctx} {h h' : Heap} {kind : Layout} {live : Live}
  {a b i j k n p size : ℕ}

theorem Moves.refl (hs : Sound mc c h kind live) : Moves mc c h h kind live :=
  ⟨kind, hs, .same rfl fun _ => Iff.rfl, fun _ ha => ha⟩

theorem Busy.update_live (hb : Busy kind live) : Busy kind (Function.update live p (some size)) := by
  constructor
  · intro a i ha
    obtain ⟨k, hk, hlive⟩ := hb.small a i ha
    refine ⟨k, hk, ?_⟩
    by_cases hp : arena2block a i k = p
    · simp [hp]
    · rwa [Function.update_of_ne hp]
  · intro a n ha
    by_cases hp : a * pgSize + arenaSize = p
    · simp [hp]
    · rw [Function.update_of_ne hp]
      exact hb.large a n ha

/-- What `sys_malloc` returns is a new live allocation. -/
def allocated (live : Live) (size : ℕ) : Option ℕ → Live
  | none => live
  | some p => Function.update live p (some size)

theorem mallocLarge_moves (hs : Sound mc c h kind live) {r : Option ℕ}
    (hm : mallocLarge mc h c size = some (h', r)) :
    Moves mc c h h' kind (allocated live size r) := by
  rcases mallocLarge_cases hm with ⟨rfl, rfl⟩ | ⟨n, m, a, hn, hsize, hp, rfl, rfl⟩
  · exact .refl hs
  have hg := mallocPage_gained hp
  have hnone : kind a = none := hs.core.pages.none_of_gained (k := .large n) hn hg
  have hbusy : Busy kind (allocated live size (some (a * pgSize + arenaSize))) :=
    hs.busy.update_live
  refine ⟨_, ⟨hs.core.newLarge hn hg hsize, ?_, ?_⟩, .gain a n hp fun v => ?_, ?_⟩
  · intro b i hb
    obtain ⟨-, hx⟩ | ⟨-, hb⟩ := update_some_iff.mp hb
    · cases hx
    · exact hbusy.small b i hb
  · intro b l hb
    obtain ⟨rfl, -⟩ | ⟨-, hb⟩ := update_some_iff.mp hb
    · simp [allocated]
    · exact hbusy.large b l hb
  · exact held_update_some (k := .large n) hnone
  · intro b hb
    obtain ⟨-, hx⟩ | ⟨-, hb⟩ := update_some_iff.mp hb
    · cases hx
    · exact hb

theorem mallocSmall_cases {r : Option ℕ} (hm : mallocSmall mc h c size = some (h', r)) :
    (r = none ∧ h' = h) ∨
    (h.freeList c (descIndex size) ≠ [] ∧ takeBlock h c (descIndex size) = some (h', r)) ∨
    (h.freeList c (descIndex size) = [] ∧ ∃ h₁, newArena mc h c (descIndex size) = some (h₁, true) ∧
      takeBlock h₁ c (descIndex size) = some (h', r)) := by
  simp only [mallocSmall] at hm
  split at hm
  · rename_i hl
    simp only [bind_some_iff] at hm
    obtain ⟨⟨h₁, ok⟩, hn, hm⟩ := hm
    cases ok with
    | false =>
      simp only [Bool.false_eq_true, if_false, Option.pure_def, Option.some.injEq,
        Prod.mk.injEq] at hm
      rcases newArena_cases hn with ⟨-, rfl⟩ | ⟨m, a, l, hok, -⟩
      · exact .inl ⟨hm.2.symm, hm.1.symm⟩
      · cases hok
    | true =>
      simp only [if_true] at hm
      exact .inr (.inr ⟨hl, h₁, hn, hm⟩)
  · rename_i hl
    exact .inr (.inl ⟨hl, hm⟩)

/-- A small block is a free one, or the first of a new arena. -/
theorem mallocSmall_lent (hs : Sound mc c h kind live) (hsize : size ≤ 1024)
    (hm : mallocSmall mc h c size = some (h', some b)) :
    ∃ a k kind', b = arena2block a (descIndex size) k ∧ live b = none ∧
      Lent mc c h.memory h'.memory kind (descIndex size) a k kind' ∧
      Sound mc c h' kind' (Function.update live b (some size)) := by
  have hfit := (descIndex_spec hsize).2
  rcases mallocSmall_cases hm with ⟨hr, -⟩ | ⟨-, ht⟩ | ⟨hl, h₁, hn, ht⟩
  · cases hr
  · obtain ⟨b, l, hl, hr, rfl⟩ := takeBlock_cases ht
    obtain rfl := Option.some.inj hr
    have hin : b ∈ h.freeList c (descIndex size) := by
      rw [hl]
      exact List.mem_cons_self
    obtain ⟨a, k, ha, hk, rfl⟩ := hs.core.free _ b hin
    exact ⟨a, k, kind, rfl, (hs.core.block a _ k ha hk).mp hin, .free ha hk rfl,
      hs.core.take hl hfit, hs.busy.update_live⟩
  · rcases newArena_cases hn with ⟨hok, -⟩ | ⟨m, a, l, -, hp, rfl, rfl⟩
    · cases hok
    have hg := mallocPage_gained hp
    have hnone : kind a = none := hs.core.pages.none_of_gained (k := .small (descIndex size))
      Nat.one_pos hg
    rw [hl, List.nil_append] at ht
    have hcore := hs.core.newSmall hl hg
    obtain ⟨b, l, hlist, hr, rfl⟩ := takeBlock_cases ht
    obtain rfl := Option.some.inj hr
    -- the block taken is one of the new arena, which is thereby in use
    have hin : b ∈ (List.range (blocksPerArena (descIndex size))).map
        (arena2block a (descIndex size)) := by
      rw [setFreeList_list, if_pos ⟨rfl, rfl⟩] at hlist
      rw [hlist]
      exact List.mem_cons_self
    obtain ⟨k, hk, rfl⟩ := List.mem_map.mp hin
    have hk := List.mem_range.mp hk
    have hdead : live (arena2block a (descIndex size) k) = none := by
      refine (hcore.block a _ k (Function.update_self ..) hk).mp ?_
      rw [hlist]
      exact List.mem_cons_self
    have hbusy : Busy kind (Function.update live (arena2block a (descIndex size) k) (some size)) :=
      hs.busy.update_live
    refine ⟨a, k, _, rfl, hdead, .fresh hnone hk hp, hcore.take hlist hfit, ?_, ?_⟩
    · intro d j hd
      obtain ⟨rfl, hx⟩ | ⟨-, hd⟩ := update_some_iff.mp hd
      · cases hx
        exact ⟨k, hk, by simp⟩
      · exact hbusy.small d j hd
    · intro d n hd
      obtain ⟨-, hx⟩ | ⟨-, hd⟩ := update_some_iff.mp hd
      · cases hx
      · exact hbusy.large d n hd

theorem mallocSmall_moves (hs : Sound mc c h kind live) (hsize : size ≤ 1024) {r : Option ℕ}
    (hm : mallocSmall mc h c size = some (h', r)) :
    Moves mc c h h' kind (allocated live size r) := by
  cases r with
  | none =>
    rcases mallocSmall_cases hm with ⟨-, rfl⟩ | ⟨-, ht⟩ | ⟨-, h₁, -, ht⟩
    · exact .refl hs
    · obtain ⟨b, l, -, hr, -⟩ := takeBlock_cases ht
      cases hr
    · obtain ⟨b, l, -, hr, -⟩ := takeBlock_cases ht
      cases hr
  | some b =>
    obtain ⟨a, k, kind', rfl, -, hl, hs'⟩ := mallocSmall_lent hs hsize hm
    refine ⟨kind', hs', ?_⟩
    cases hl with
    | free ha hk hmem => exact ⟨.same hmem fun _ => Iff.rfl, fun _ hd => hd⟩
    | fresh hnone hk hp =>
      refine ⟨.gain a 1 hp fun v => held_update_some (k := .small (descIndex size)) hnone, ?_⟩
      intro d hd
      obtain ⟨-, hx⟩ | ⟨-, hd⟩ := update_some_iff.mp hd
      · cases hx
      · exact hd

theorem sysMalloc_moves (hs : Sound mc c h kind live) {r : Option ℕ}
    (hm : sysMalloc mc h c size = some (h', r)) :
    Moves mc c h h' kind (allocated live size r) := by
  unfold sysMalloc at hm
  split at hm
  · split at hm
    · exact mallocLarge_moves hs hm
    · rename_i hsize
      exact mallocSmall_moves hs (by omega) hm
  · simp only [Option.some.injEq, Prod.mk.injEq] at hm
    obtain ⟨rfl, rfl⟩ := hm
    exact .refl hs

theorem Busy.update_kind (hb : Busy kind live) (hp : ∀ b x, b ≠ a → kind b = some x →
    block2arena p ≠ b) : Busy (Function.update kind a none) (Function.update live p none) := by
  constructor
  · intro b i hbk
    obtain ⟨hba, hbk⟩ := update_none_iff.mp hbk
    obtain ⟨k, hk, hlive⟩ := hb.small b i hbk
    refine ⟨k, hk, ?_⟩
    rw [Function.update_of_ne]
    · exact hlive
    · rintro rfl
      exact hp b _ hba hbk (block2arena_arena2block hk)
  · intro b n hbk
    obtain ⟨hba, hbk⟩ := update_none_iff.mp hbk
    rw [Function.update_of_ne]
    · exact hb.large b n hbk
    · rintro rfl
      exact hp b _ hba hbk block2arena_large

theorem setFreeList_setFreeList (l l' : List ℕ) :
    (h.setFreeList c i l).setFreeList c i l' = h.setFreeList c i l' := by
  simp [Heap.setFreeList]

/-- The header counts the blocks on the list. -/
theorem Core.put_cnt (hc : Core mc c h kind live) (ha : kind a = some (.small i))
    (hk : k < blocksPerArena i) (hlive : live (arena2block a i k) ≠ none) :
    (h.header c a).cnt + 1 = freeCnt ((h.setHeader c a
      { h.header c a with cnt := (h.header c a).cnt + 1 }).setFreeList c i
        (h.freeList c i ++ [arena2block a i k])) c a i := by
  have hcnt := ((hc.put ha hk hlive).small a i ha).2
  rwa [setFreeList_header, setHeader_header, if_pos ⟨rfl, rfl⟩] at hcnt

/-- While another block of the arena is in use, the arena stays. -/
theorem freeSmall_shared (hs : Sound mc c h kind live) (ha : kind a = some (.small i))
    (hk : k < blocksPerArena i) (hlive : live (arena2block a i k) ≠ none)
    (hother : ∃ k' < blocksPerArena i, k' ≠ k ∧ live (arena2block a i k') ≠ none)
    (hf : freeSmall mc h c c i (arena2block a i k) = some h') :
    Sound mc c h' kind (Function.update live (arena2block a i k) none) ∧ h'.memory = h.memory := by
  obtain ⟨k', hk', hne, hlive'⟩ := hother
  have hput := hs.core.put ha hk hlive
  have hcnt := hs.core.put_cnt ha hk hlive
  have hused : Function.update live (arena2block a i k) none (arena2block a i k') ≠ none := by
    rw [Function.update_of_ne]
    · exact hlive'
    · exact fun he => hne (arena2block_inj hk' hk he).2
  have hfull : ¬ (h.header c a).cnt + 1 = blocksPerArena i := by
    intro he
    exact hused ((hput.block a i k' ha hk').mp (freeCnt_eq_all (hcnt.symm.trans he) hk'))
  simp only [freeSmall, block2arena_arena2block hk, if_neg hfull] at hf
  obtain rfl := Option.some.inj hf
  refine ⟨⟨hput, ?_, ?_⟩, rfl⟩
  · intro b j hb
    by_cases hba : b = a
    · subst b
      obtain rfl := small_unique ha hb
      exact ⟨k', hk', hused⟩
    · obtain ⟨k₁, hk₁, hl⟩ := hs.busy.small b j hb
      refine ⟨k₁, hk₁, ?_⟩
      rw [Function.update_of_ne]
      · exact hl
      · exact fun he => hba (arena_eq hk₁ hk he)
  · intro b n hb
    rw [Function.update_of_ne]
    · exact hs.busy.large b n hb
    · intro he
      refine block_ne_large hk ?_ he.symm
      rintro rfl
      rw [ha] at hb
      cases hb

/-- With its last block the arena goes. -/
theorem freeSmall_last (hs : Sound mc c h kind live) (ha : kind a = some (.small i))
    (hk : k < blocksPerArena i) (hlive : live (arena2block a i k) ≠ none)
    (hnone : ∀ k' < blocksPerArena i, k' ≠ k → live (arena2block a i k') = none)
    (hf : freeSmall mc h c c i (arena2block a i k) = some h') :
    Sound mc c h' (Function.update kind a none) (Function.update live (arena2block a i k) none) ∧
      mfreePage mc h.memory c a 1 = some h'.memory := by
  have hput := hs.core.put ha hk hlive
  have hcnt := hs.core.put_cnt ha hk hlive
  have hfull : (h.header c a).cnt + 1 = blocksPerArena i := by
    rw [hcnt]
    refine freeCnt_all fun k' hk' => (hput.block a i k' ha hk').mpr ?_
    by_cases hkk : k' = k
    · rw [hkk, Function.update_self]
    · rw [Function.update_of_ne (fun he => hkk (arena2block_inj hk' hk he).2)]
      exact hnone k' hk' hkk
  simp only [freeSmall, block2arena_arena2block hk, if_pos hfull, bind_some_iff, Option.pure_def,
    Option.some.injEq] at hf
  obtain ⟨l, hl, m, hm, rfl⟩ := hf
  have hown : c = none ∨ a + 1 ≤ 0xc0000 := hs.core.pages.own a _ ha
  have hlost := mfreePage_lost hm (hs.core.pages.start a _ ha) hown
  have hlist : removeBlocks a i (blocksPerArena i) 0 (((h.setHeader c a
      { h.header c a with cnt := (h.header c a).cnt + 1 }).setFreeList c i
        (h.freeList c i ++ [arena2block a i k])).freeList c i) = some l := by
    rw [setFreeList_list, if_pos ⟨rfl, rfl⟩]
    exact hl
  have hcore := hput.dissolve ha (hcnt.symm.trans hfull) hlist hlost
  rw [setFreeList_setFreeList] at hcore
  refine ⟨⟨hcore, hs.busy.update_kind fun b x hba _ => ?_⟩, hm⟩
  rw [block2arena_arena2block hk]
  exact hba.symm

theorem freeSmall_moves (hs : Sound mc c h kind live) (ha : kind a = some (.small i))
    (hk : k < blocksPerArena i) (hlive : live (arena2block a i k) ≠ none)
    (hf : freeSmall mc h c c i (arena2block a i k) = some h') :
    Moves mc c h h' kind (Function.update live (arena2block a i k) none) := by
  by_cases hother : ∃ k' < blocksPerArena i, k' ≠ k ∧ live (arena2block a i k') ≠ none
  · obtain ⟨hs', hm⟩ := freeSmall_shared hs ha hk hlive hother hf
    exact ⟨kind, hs', .same hm fun _ => Iff.rfl, fun _ hd => hd⟩
  · push Not at hother
    obtain ⟨hs', hm⟩ := freeSmall_last hs ha hk hlive hother hf
    refine ⟨_, hs', .lose a 1 hm (hs.core.pages.start a _ ha) (hs.core.pages.own a _ ha)
      (fun v hv => ⟨a, _, ha, hv⟩) fun v => ?_, fun d hd => ?_⟩
    · exact held_update_none hs.core.pages ha
    · exact (update_none_iff.mp hd).2

/-- Freeing an allocation that does not lie in an arena of another process. -/
theorem sysFree_moves (hs : Sound mc c h kind live) (hlive : live p ≠ none)
    (hown : ∀ o i, (h.header c (block2arena p)).desc = some (o, i) → o = c)
    (hf : sysFree mc h c p = some h') :
    Moves mc c h h' kind (Function.update live p none) := by
  obtain ⟨sz, hsz⟩ := Option.ne_none_iff_exists'.mp hlive
  simp only [sysFree, assert_bind] at hf
  obtain ⟨-, hf⟩ := hf
  cases hs.core.placed p sz hsz with
  | small a i k ha hk he hfit =>
    subst p
    rw [block2arena_arena2block hk, (hs.core.small a i ha).1] at hf
    exact freeSmall_moves hs ha hk hlive hf
  | large a n ha he hfit =>
    subst p
    rw [block2arena_large, hs.core.large a n ha] at hf
    simp only [bind_some_iff, Option.pure_def, Option.some.injEq] at hf
    obtain ⟨m, hm, rfl⟩ := hf
    have hstart := hs.core.pages.start a _ ha
    have hown' : c = none ∨ a + n ≤ 0xc0000 := hs.core.pages.own a _ ha
    have hlost := mfreePage_lost hm hstart hown'
    refine ⟨_, ⟨hs.core.freeLarge ha hlost, hs.busy.update_kind fun b x hba _ => ?_⟩,
      .lose a n hm hstart hown' (fun v hv => ⟨a, _, ha, hv⟩) fun v => ?_, fun d hd => ?_⟩
    · rw [block2arena_large]
      exact hba.symm
    · exact held_update_none hs.core.pages ha
    · exact (update_none_iff.mp hd).2
  | inherited ha =>
    obtain ⟨o, i, hdesc, hne⟩ := hs.core.inherited _ ha
    exact absurd (hown o i hdesc) hne

end Sound

end HeapInvariant
