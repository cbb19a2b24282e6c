import Mathlib.Algebra.Order.BigOperators.Group.Finset
import XianweiOS.FsDescriptors

/-! The ring buffer of a pipe lives as long as descriptors refer to it. `fd_pos` of its slot
counts the descriptors from 3 on; `sys_close` and `sys_exit` give the page back when it reaches
zero. `sys_pipe` counts two descriptors whether it gets them or not, `sys_fd_redirect` counts
nothing, and `sys_lseek` may set `fd_pos`. -/
namespace FsPipes

open ByteStore HaltingProgram KernelBitmap DeviceIde FsVolume FsInodeTable FsOpenFiles FsSyscalls
  HolderCount FsReferenceCounts FsReferenceRuns FsFormat FsProcesses FsWriters
  FsDescriptors

variable {part : Partition} {s s' : Kernel part}

/-- The descriptors of every process. -/
def descriptors (procs : ℕ → Option Task) (p fd : ℕ) : Option ℕ := (procs p).bind fun t => t.fdTable fd

section Tables

variable {T : ℕ → ℕ → Option ℕ} {p fd k : ℕ}

def setFd (T : ℕ → ℕ → Option ℕ) (p fd : ℕ) (v : Option ℕ) : ℕ → ℕ → Option ℕ :=
  Function.update T p (Function.update (T p) fd v)

theorem setFd_self (v : Option ℕ) : setFd T p fd v p fd = v := by
  rw [setFd, Function.update_self, Function.update_self]

theorem setFd_ne {q fd' : ℕ} (v : Option ℕ) (h : ¬(q = p ∧ fd' = fd)) :
    setFd T p fd v q fd' = T q fd' := by
  rw [setFd]
  by_cases hq : q = p
  · subst q
    rw [Function.update_self, Function.update_of_ne fun hf => h ⟨rfl, hf⟩]
  · rw [Function.update_of_ne hq]

/-- Only descriptors from 3 on are counted. -/
def counted (row : ℕ → Option ℕ) (fd : ℕ) : Option ℕ := if 3 ≤ fd then row fd else none

def users (T : ℕ → ℕ → Option ℕ) (k : ℕ) : ℕ :=
  ∑ p ∈ Finset.range (maxPid + 1), occurs maxFilesOpenPerProc (counted (T p)) k

theorem users_setFd (hp : p ≤ maxPid) (h3 : 3 ≤ fd) (h8 : fd < maxFilesOpenPerProc)
    (v : Option ℕ) (k : ℕ) :
    users (setFd T p fd v) k + weight (T p fd) k = users T k + weight v k := by
  have hrow : counted (Function.update (T p) fd v) = Function.update (counted (T p)) fd v := by
    funext j
    by_cases hj : j = fd
    · subst j
      rw [counted, if_pos h3, Function.update_self, Function.update_self]
    · rw [counted, Function.update_of_ne hj, Function.update_of_ne hj, counted]
  have hsum := sum_update (show p < maxPid + 1 by omega)
    (fun row => occurs maxFilesOpenPerProc (counted row) k) T (Function.update (T p) fd v)
  have hone := occurs_update h8 (counted (T p)) v k
  rw [hrow] at hsum
  rw [show counted (T p) fd = T p fd from if_pos h3] at hone
  simp only [users, setFd]
  omega

theorem users_congr {T' : ℕ → ℕ → Option ℕ} (h : ∀ p fd, 3 ≤ fd → T' p fd = T p fd) (k : ℕ) :
    users T' k = users T k := by
  rw [users, users]
  refine Finset.sum_congr rfl fun q _ => ?_
  have hrow : counted (T' q) = counted (T q) := by
    funext j
    simp only [counted]
    split
    · exact h q j ‹_›
    · rfl
  rw [hrow]

/-- The standard descriptors are not counted. -/
theorem users_setFd_low (hfd : fd < 3) (v : Option ℕ) (k : ℕ) :
    users (setFd T p fd v) k = users T k := by
  refine users_congr (fun q j hj => setFd_ne v ?_) k
  rintro ⟨-, rfl⟩
  omega

theorem users_pos : 0 < users T k ↔
    ∃ p fd, p ≤ maxPid ∧ 3 ≤ fd ∧ fd < maxFilesOpenPerProc ∧ T p fd = some k := by
  rw [users, Finset.sum_pos_iff]
  constructor
  · rintro ⟨p, hp, hpos⟩
    obtain ⟨fd, h8, hk⟩ := occurs_pos.mp hpos
    by_cases h3 : 3 ≤ fd
    · rw [counted, if_pos h3] at hk
      exact ⟨p, fd, Nat.lt_succ_iff.mp (Finset.mem_range.mp hp), h3, h8, hk⟩
    · rw [counted, if_neg h3] at hk
      cases hk
  · rintro ⟨p, fd, hp, h3, h8, hk⟩
    exact ⟨p, Finset.mem_range.mpr (Nat.lt_succ_of_le hp),
      occurs_pos.mpr ⟨fd, h8, (if_pos h3).trans hk⟩⟩

theorem users_lt (T : ℕ → ℕ → Option ℕ) (k : ℕ) : users T k < 2 ^ 32 - 1 := by
  have h : users T k ≤ ∑ _p ∈ Finset.range (maxPid + 1), maxFilesOpenPerProc := by
    rw [users]
    exact Finset.sum_le_sum fun p _ => occurs_le _ _ _
  rw [Finset.sum_const, Finset.card_range] at h
  exact Nat.lt_of_le_of_lt h (by decide)

end Tables

attribute [irreducible] users

/-- Slots in use are pipes that count their descriptors; descriptors refer to standard slots
and to slots in use. `made` and `freed` are the pages allocated and given back so far. -/
structure Piping (s : Kernel part) (T : ℕ → ℕ → Option ℕ) (made freed : List ℕ) : Prop where
  std : ∀ k < 3, (s.fileTable k).fdInode = none ∧ (s.fileTable k).fdFlag ≠ pipeFlag
  pipe : ∀ k a, (s.fileTable k).fdInode = some a → (s.fileTable k).fdFlag = pipeFlag ∧
    (s.fileTable k).fdPos = users T k ∧ 0 < users T k
  entry : ∀ p fd k, T p fd = some k → p ≤ maxPid ∧ fd < maxFilesOpenPerProc ∧ k < maxFilesOpen ∧
    (k < 3 ∨ (s.fileTable k).fdInode ≠ none)
  below : ∀ a ∈ made, a < s.next
  page : ∀ a, (a ∈ made ∧ a ∉ freed) ↔ ∃ k, (s.fileTable k).fdInode = some a
  apart : ∀ k k' a, (s.fileTable k).fdInode = some a → (s.fileTable k').fdInode = some a → k = k'
  sub : ∀ a ∈ freed, a ∈ made
  once : freed.Nodup

/-- The page `pipe_close` gives back. -/
def pipePage (k : ℕ) (s : Kernel part) : List ℕ :=
  if ((s.fileTable k).fdPos + 2 ^ 32 - 1) % 2 ^ 32 = 0 then (s.fileTable k).fdInode.toList else []

section Steps

variable {T T' : ℕ → ℕ → Option ℕ} {made freed : List ℕ} {p fd k : ℕ}

theorem Piping.slot (h : Piping s T made freed) (hk : T p fd = some k) (h3 : 3 ≤ k) :
    ∃ a, (s.fileTable k).fdInode = some a := by
  obtain ⟨-, -, -, hlow | hne⟩ := h.entry p fd k hk
  · omega
  · exact Option.ne_none_iff_exists'.mp hne

theorem Piping.of_same (h : Piping s T made freed) (hf : s'.fileTable = s.fileTable)
    (hn : s.next ≤ s'.next) : Piping s' T made freed := by
  obtain ⟨hstd, hpipe, hentry, hbelow, hpage, hapart, hsub, honce⟩ := h
  refine ⟨?_, ?_, ?_, fun a ha => Nat.lt_of_lt_of_le (hbelow a ha) hn, ?_, ?_, hsub, honce⟩
  · rw [hf]
    exact hstd
  · rw [hf]
    exact hpipe
  · rw [hf]
    exact hentry
  · rw [hf]
    exact hpage
  · rw [hf]
    exact hapart

/-- Other descriptors, but none more or less that counts for a pipe. -/
theorem Piping.retable (h : Piping s T made freed) (hu : ∀ k, 3 ≤ k → users T' k = users T k)
    (he : ∀ p fd k, T' p fd = some k → p ≤ maxPid ∧ fd < maxFilesOpenPerProc ∧ k < maxFilesOpen ∧
      (k < 3 ∨ (s.fileTable k).fdInode ≠ none)) : Piping s T' made freed := by
  refine ⟨h.std, fun k a ha => ?_, he, h.below, h.page, h.apart, h.sub, h.once⟩
  have h3 : 3 ≤ k := by
    by_contra hlt
    rw [(h.std k (by omega)).1] at ha
    cases ha
  rw [hu k h3]
  exact h.pipe k a ha

/-- What may be written to a descriptor. -/
def Target (s : Kernel part) (v : Option ℕ) : Prop :=
  ∀ k, v = some k → k < maxFilesOpen ∧ (k < 3 ∨ (s.fileTable k).fdInode ≠ none)

theorem Piping.target (h : Piping s T made freed) (p fd : ℕ) : Target s (T p fd) := by
  intro k hk
  obtain ⟨-, -, hlt, hk⟩ := h.entry p fd k hk
  exact ⟨hlt, hk⟩

theorem Piping.setFd (h : Piping s T made freed) {v : Option ℕ} (hp : p ≤ maxPid)
    (h8 : fd < maxFilesOpenPerProc) (hv : Target s v)
    (hu : ∀ k, 3 ≤ k → users (setFd T p fd v) k = users T k) :
    Piping s (FsPipes.setFd T p fd v) made freed := by
  refine h.retable hu fun q fd' k hk => ?_
  by_cases hq : q = p ∧ fd' = fd
  · obtain ⟨rfl, rfl⟩ := hq
    rw [setFd_self] at hk
    exact ⟨hp, h8, hv k hk⟩
  · rw [setFd_ne v hq] at hk
    exact h.entry q fd' k hk

/-- A standard descriptor is redirected. -/
theorem Piping.setLow (h : Piping s T made freed) {v : Option ℕ} (hp : p ≤ maxPid) (hfd : fd < 3)
    (hv : Target s v) : Piping s (FsPipes.setFd T p fd v) made freed :=
  h.setFd hp (Nat.lt_trans hfd (by decide)) hv fun k _ => users_setFd_low hfd v k

/-- A descriptor that counts is redirected, but neither from nor to a pipe. -/
theorem Piping.setPlain (h : Piping s T made freed) {v : Option ℕ} (hp : p ≤ maxPid) (h3 : 3 ≤ fd)
    (h8 : fd < maxFilesOpenPerProc) (hv : Target s v)
    (hplain : T p fd = v ∨ ((∀ k, T p fd = some k → k < 3) ∧ ∀ k, v = some k → k < 3)) :
    Piping s (FsPipes.setFd T p fd v) made freed := by
  refine h.setFd hp h8 hv fun k hk => ?_
  have hset := users_setFd (T := T) hp h3 h8 v k
  have hw : weight (T p fd) k = weight v k := by
    rcases hplain with he | ⟨ho, hn⟩
    · rw [he]
    · have hz : ∀ w : Option ℕ, (∀ j, w = some j → j < 3) → weight w k = 0 := by
        intro w hw
        refine if_neg fun he => ?_
        have := hw k he
        omega
      rw [hz _ ho, hz _ hn]
  omega

/-- The position of a pipe follows its users. -/
theorem Piping.recount (h : Piping s T made freed) (h3 : 3 ≤ k) (hk : 0 < users T' k)
    (hu : ∀ j, j ≠ k → users T' j = users T j)
    (he : ∀ q fd' j, T' q fd' = some j → q ≤ maxPid ∧ fd' < maxFilesOpenPerProc ∧ j < maxFilesOpen ∧
      (j < 3 ∨ (s.fileTable j).fdInode ≠ none)) :
    Piping (s.setFile k { s.fileTable k with fdPos := users T' k }) T' made freed := by
  have hinode : ∀ j, ((s.setFile k { s.fileTable k with fdPos := users T' k }).fileTable j).fdInode =
      (s.fileTable j).fdInode := by
    intro j
    by_cases hj : j = k
    · subst j
      rw [s.setFile_self]
    · rw [s.setFile_ne _ hj]
  refine ⟨fun j hj => ?_, fun j b hb => ?_, fun q fd' j hj => ?_, h.below, fun b => ?_,
    fun j j' b hj hj' => ?_, h.sub, h.once⟩
  · have hjk : j ≠ k := by omega
    rw [s.setFile_ne _ hjk]
    exact h.std j hj
  · rw [hinode] at hb
    by_cases hj : j = k
    · subst j
      rw [s.setFile_self]
      exact ⟨(h.pipe k b hb).1, rfl, hk⟩
    · rw [s.setFile_ne _ hj, hu j hj]
      exact h.pipe j b hb
  · rw [hinode]
    exact he q fd' j hj
  · simp only [hinode]
    exact h.page b
  · rw [hinode] at hj hj'
    exact h.apart j j' b hj hj'

theorem setFd_none {q fd' j : ℕ} (hj : FsPipes.setFd T p fd none q fd' = some j) :
    T q fd' = some j := by
  by_cases hq : q = p ∧ fd' = fd
  · obtain ⟨rfl, rfl⟩ := hq
    rw [setFd_self] at hj
    cases hj
  · rwa [setFd_ne none hq] at hj

/-- A descriptor that counts is given up. When it is the last one, no standard descriptor may
still refer to the pipe. -/
theorem Piping.drop (h : Piping s T made freed) (hT : T p fd = some k) (h3 : 3 ≤ fd) (hk : 3 ≤ k)
    (hlow : (∃ q fd', fd' < 3 ∧ T q fd' = some k) →
      ∃ q fd', 3 ≤ fd' ∧ ¬(q = p ∧ fd' = fd) ∧ T q fd' = some k) :
    Piping (pipeClose k s) (FsPipes.setFd T p fd none) made (pipePage k s ++ freed) := by
  obtain ⟨a, ha⟩ := h.slot hT hk
  obtain ⟨hp, h8, -, -⟩ := h.entry p fd k hT
  obtain ⟨-, hpos, hpos'⟩ := h.pipe k a ha
  have hlt := users_lt T k
  have hset : ∀ j, users (FsPipes.setFd T p fd none) j + weight (some k) j = users T j := by
    intro j
    have := users_setFd (T := T) hp h3 h8 none j
    rw [hT, weight_none] at this
    omega
  have hother : ∀ j, j ≠ k → users (FsPipes.setFd T p fd none) j = users T j := by
    intro j hj
    have := hset j
    rw [weight_some, if_neg hj] at this
    omega
  have hself : users (FsPipes.setFd T p fd none) k + 1 = users T k := by
    have := hset k
    rwa [weight_some, if_pos rfl] at this
  have hnew : ((s.fileTable k).fdPos + 2 ^ 32 - 1) % 2 ^ 32 = users (FsPipes.setFd T p fd none) k := by
    rw [hpos, Nat.mod_eq_sub_mod (by omega), Nat.mod_eq_of_lt (by omega)]
    omega
  rw [pipePage, pipeClose]
  simp only [hnew]
  by_cases hz : users (FsPipes.setFd T p fd none) k = 0
  · -- the page goes back, and nothing refers to the slot
    have hgone : ∀ q fd', FsPipes.setFd T p fd none q fd' ≠ some k := by
      intro q fd' hq
      have hcount : ∀ q fd', 3 ≤ fd' → FsPipes.setFd T p fd none q fd' ≠ some k := by
        intro q fd' h3' hq
        obtain ⟨hp', h8', -, -⟩ := h.entry q fd' k (setFd_none hq)
        have := users_pos.mpr ⟨q, fd', hp', h3', h8', hq⟩
        omega
      by_cases h3' : 3 ≤ fd'
      · exact hcount q fd' h3' hq
      · obtain ⟨q', fd'', h3'', hne, hq'⟩ := hlow ⟨q, fd', by omega, setFd_none hq⟩
        exact hcount q' fd'' h3'' ((setFd_ne none hne).trans hq')
    obtain ⟨hmade, hfresh⟩ := (h.page a).mpr ⟨k, ha⟩
    have hne : ∀ j b, ((s.setFile k { s.fileTable k with fdPos := 0, fdInode := none }).fileTable
        j).fdInode = some b ↔ j ≠ k ∧ (s.fileTable j).fdInode = some b := by
      intro j b
      by_cases hj : j = k
      · subst j
        rw [s.setFile_self]
        simp
      · rw [s.setFile_ne _ hj]
        simp [hj]
    rw [hz, if_pos rfl, if_pos rfl, ha]
    refine ⟨fun j hj => ?_, fun j b hb => ?_, fun q fd' j hj => ?_, h.below, fun b => ?_,
      fun j j' b hj hj' => ?_, fun b hb => ?_, ?_⟩
    · rw [s.setFile_ne _ (by omega)]
      exact h.std j hj
    · obtain ⟨hj, hb⟩ := (hne j b).mp hb
      rw [s.setFile_ne _ hj, hother j hj]
      exact h.pipe j b hb
    · have hj' : j ≠ k := by
        rintro rfl
        exact hgone q fd' hj
      rw [s.setFile_ne _ hj']
      exact h.entry q fd' j (setFd_none hj)
    · simp only [hne, Option.toList_some, List.cons_append, List.nil_append, List.mem_cons, not_or]
      constructor
      · rintro ⟨hm, hba, hf⟩
        obtain ⟨j, hj⟩ := (h.page b).mp ⟨hm, hf⟩
        refine ⟨j, ?_, hj⟩
        rintro rfl
        rw [ha] at hj
        exact hba (Option.some.inj hj).symm
      · rintro ⟨j, hjk, hj⟩
        obtain ⟨hm, hf⟩ := (h.page b).mpr ⟨j, hj⟩
        refine ⟨hm, ?_, hf⟩
        rintro rfl
        exact hjk (h.apart j k b hj ha)
    · exact h.apart j j' b ((hne j b).mp hj).2 ((hne j' b).mp hj').2
    · simp only [Option.toList_some, List.cons_append, List.nil_append, List.mem_cons] at hb
      rcases hb with rfl | hb
      · exact hmade
      · exact h.sub b hb
    · exact List.nodup_cons.mpr ⟨hfresh, h.once⟩
  · rw [if_neg hz, if_neg hz]
    exact h.recount hk (Nat.pos_of_ne_zero hz) hother fun q fd' j hj =>
      h.entry q fd' j (setFd_none hj)

/-- One more descriptor that counts. -/
theorem Piping.add (h : Piping s T made freed) (hp : p ≤ maxPid) (h3 : 3 ≤ fd)
    (h8 : fd < maxFilesOpenPerProc) (hT : T p fd = none) {a : ℕ} (hk : k < maxFilesOpen)
    (ha : (s.fileTable k).fdInode = some a) :
    Piping (s.setFile k { s.fileTable k with fdPos := ((s.fileTable k).fdPos + 1) % 2 ^ 32 })
      (FsPipes.setFd T p fd (some k)) made freed := by
  have hset : ∀ j, users (FsPipes.setFd T p fd (some k)) j = users T j + weight (some k) j := by
    intro j
    have := users_setFd (T := T) hp h3 h8 (some k) j
    rw [hT, weight_none] at this
    omega
  have hself : users (FsPipes.setFd T p fd (some k)) k = users T k + 1 := by
    rw [hset, weight_some, if_pos rfl]
  have hlt := users_lt T k
  have hk3 : 3 ≤ k := by
    by_contra hlow
    rw [(h.std k (by omega)).1] at ha
    cases ha
  rw [(h.pipe k a ha).2.1, Nat.mod_eq_of_lt (by omega), ← hself]
  refine h.recount hk3 (by omega) (fun j hj => ?_) fun q fd' j hj => ?_
  · rw [hset, weight_some, if_neg hj]
    rfl
  · by_cases hq : q = p ∧ fd' = fd
    · obtain ⟨rfl, rfl⟩ := hq
      rw [setFd_self] at hj
      obtain rfl := Option.some.inj hj
      exact ⟨hp, h8, hk, Or.inr (ha ▸ Option.some_ne_none a)⟩
    · rw [setFd_ne _ hq] at hj
      exact h.entry q fd' j hj

/-- A free slot becomes a pipe with two descriptors. -/
theorem Piping.make (h : Piping s T made freed) {g j j' : ℕ} (hp : p ≤ maxPid) (hg : 3 ≤ g)
    (hg' : g < maxFilesOpen) (hfree : (s.fileTable g).fdInode = none)
    (hj : 3 ≤ j ∧ j < maxFilesOpenPerProc) (hj' : 3 ≤ j' ∧ j' < maxFilesOpenPerProc) (hne : j' ≠ j)
    (hT : T p j = none) (hT' : T p j' = none)
    (hf : s'.fileTable = Function.update s.fileTable g ⟨2, pipeFlag, some s.next⟩)
    (hn : s'.next = s.next + 1) :
    Piping s' (FsPipes.setFd (FsPipes.setFd T p j (some g)) p j' (some g)) (s.next :: made) freed := by
  have hfg : s'.fileTable g = ⟨2, pipeFlag, some s.next⟩ := by
    rw [hf, Function.update_self]
  have hfo : ∀ k, k ≠ g → s'.fileTable k = s.fileTable k := by
    intro k hk
    rw [hf, Function.update_of_ne hk]
  have hold : ∀ q fd' k, T q fd' = some k → k ≠ g := by
    rintro q fd' k hk rfl
    obtain ⟨a, ha⟩ := h.slot hk hg
    rw [hfree] at ha
    cases ha
  have hzero : users T g = 0 := by
    by_contra hpos
    obtain ⟨q, fd', -, -, -, hk⟩ := users_pos.mp (Nat.pos_of_ne_zero hpos)
    exact hold q fd' g hk rfl
  have husers : ∀ k, users (FsPipes.setFd (FsPipes.setFd T p j (some g)) p j' (some g)) k =
      users T k + 2 * weight (some g) k := by
    intro k
    have h1 := users_setFd (T := T) hp hj.1 hj.2 (some g) k
    have h2 := users_setFd (T := FsPipes.setFd T p j (some g)) hp hj'.1 hj'.2 (some g) k
    rw [setFd_ne _ fun he => hne he.2, hT', weight_none] at h2
    rw [hT, weight_none] at h1
    omega
  have hentry : ∀ q fd' k,
      FsPipes.setFd (FsPipes.setFd T p j (some g)) p j' (some g) q fd' = some k →
      (k = g ∧ q = p ∧ fd' < maxFilesOpenPerProc) ∨ (k ≠ g ∧ T q fd' = some k) := by
    intro q fd' k hk
    by_cases h2 : q = p ∧ fd' = j'
    · obtain ⟨rfl, rfl⟩ := h2
      rw [setFd_self] at hk
      exact Or.inl ⟨(Option.some.inj hk).symm, rfl, hj'.2⟩
    · rw [setFd_ne _ h2] at hk
      by_cases h1 : q = p ∧ fd' = j
      · obtain ⟨rfl, rfl⟩ := h1
        rw [setFd_self] at hk
        exact Or.inl ⟨(Option.some.inj hk).symm, rfl, hj.2⟩
      · rw [setFd_ne _ h1] at hk
        exact Or.inr ⟨hold q fd' k hk, hk⟩
  have hnew : ∀ k a, (s.fileTable k).fdInode = some a → a < s.next := by
    intro k a ha
    exact h.below a ((h.page a).mpr ⟨k, ha⟩).1
  refine ⟨fun k hk => ?_, fun k a ha => ?_, fun q fd' k hk => ?_, fun a ha => ?_, fun a => ?_,
    fun k k' a hk hk' => ?_, fun a ha => List.mem_cons_of_mem _ (h.sub a ha), h.once⟩
  · rw [hfo k (by omega)]
    exact h.std k hk
  · rw [husers, weight_some]
    by_cases hk : k = g
    · subst k
      rw [hfg, hzero, if_pos rfl]
      exact ⟨rfl, rfl, by omega⟩
    · rw [hfo k hk] at ha ⊢
      rw [if_neg hk]
      exact h.pipe k a ha
  · rcases hentry q fd' k hk with ⟨rfl, rfl, hfd'⟩ | ⟨hkg, hk⟩
    · rw [hfg]
      exact ⟨hp, hfd', hg', Or.inr (Option.some_ne_none _)⟩
    · rw [hfo k hkg]
      exact h.entry q fd' k hk
  · rw [hn]
    rcases List.mem_cons.mp ha with rfl | ha
    · exact Nat.lt_succ_self _
    · exact Nat.lt_succ_of_lt (h.below a ha)
  · constructor
    · rintro ⟨hm, hfr⟩
      rcases List.mem_cons.mp hm with rfl | hm
      · exact ⟨g, by rw [hfg]⟩
      · obtain ⟨k, hk⟩ := (h.page a).mp ⟨hm, hfr⟩
        refine ⟨k, ?_⟩
        rw [hfo k, hk]
        rintro rfl
        rw [hfree] at hk
        cases hk
    · rintro ⟨k, hk⟩
      by_cases hkg : k = g
      · rw [hkg, hfg] at hk
        obtain rfl := Option.some.inj hk
        exact ⟨List.mem_cons_self, fun hfr => absurd (h.below _ (h.sub _ hfr)) (lt_irrefl _)⟩
      · rw [hfo k hkg] at hk
        obtain ⟨hm, hfr⟩ := (h.page a).mpr ⟨k, hk⟩
        exact ⟨List.mem_cons_of_mem _ hm, hfr⟩
  · by_cases hkg : k = g
    · by_cases hkg' : k' = g
      · rw [hkg, hkg']
      · rw [hkg, hfg] at hk
        rw [hfo k' hkg'] at hk'
        obtain rfl := Option.some.inj hk
        exact absurd (hnew k' _ hk') (lt_irrefl _)
    · rw [hfo k hkg] at hk
      by_cases hkg' : k' = g
      · rw [hkg', hfg] at hk'
        obtain rfl := Option.some.inj hk'
        exact absurd (hnew k _ hk) (lt_irrefl _)
      · rw [hfo k' hkg'] at hk'
        exact h.apart k k' a hk hk'

end Steps

theorem getFreeSlotInGlobal_ge {k : ℕ} (h : getFreeSlotInGlobal s = some k) : 3 ≤ k := by
  have hp := List.find?_some h
  simp only [Bool.and_eq_true, decide_eq_true_eq] at hp
  exact hp.1

def Kernel.withFd (s : Kernel part) (fd : ℕ) (k : ℕ) : Kernel part :=
  { s with cur := { s.cur with fdTable := Function.update s.cur.fdTable fd (some k) } }

/-- There is a free descriptor, so one is handed out. -/
theorem pcbFdInstall_free (k : ℕ) {j : ℕ} (h3 : 3 ≤ j) (h8 : j < maxFilesOpenPerProc)
    (hj : s.cur.fdTable j = none) : ∃ i : ℕ, 3 ≤ i ∧ i < maxFilesOpenPerProc ∧
      s.cur.fdTable i = none ∧ pcbFdInstall k s = (↑i, Kernel.withFd s i k) := by
  rcases pcbFdInstall_cases k s with h | ⟨i, hi3, hi8, hi, h⟩
  · exfalso
    rw [pcbFdInstall] at h
    split at h
    · rename_i hnone
      have hall := List.find?_eq_none.mp hnone j (List.mem_range.mpr h8)
      simp [h3, hj] at hall
    · cases (Prod.mk.inj h).1
  · exact ⟨i, hi3, hi8, hi, h⟩

/-- Two descriptors are free. -/
def TwoFree (s : Kernel part) : Prop :=
  ∃ j j', 3 ≤ j ∧ j < j' ∧ j' < maxFilesOpenPerProc ∧ s.cur.fdTable j = none ∧
    s.cur.fdTable j' = none

/-- Two free descriptors, so two different ones are handed out. -/
theorem pcbFdInstall_two (k : ℕ) (hfree : TwoFree s) : ∃ j j' : ℕ,
    (3 ≤ j ∧ j < maxFilesOpenPerProc) ∧ (3 ≤ j' ∧ j' < maxFilesOpenPerProc) ∧ j' ≠ j ∧
      s.cur.fdTable j = none ∧ s.cur.fdTable j' = none ∧
      pcbFdInstall k s = (↑j, Kernel.withFd s j k) ∧
      pcbFdInstall k (Kernel.withFd s j k) = (↑j', Kernel.withFd (Kernel.withFd s j k) j' k) := by
  obtain ⟨i, i', hi3, hii, hi8, hi, hi'⟩ := hfree
  obtain ⟨j, hj3, hj8, hj, h1⟩ := pcbFdInstall_free k hi3 (hii.trans hi8) hi
  have hleft : ∃ n, 3 ≤ n ∧ n < maxFilesOpenPerProc ∧
      (Kernel.withFd s j k).cur.fdTable n = none := by
    by_cases hji : i = j
    · exact ⟨i', hi3.trans hii.le, hi8, (Function.update_of_ne (by omega) _ _).trans hi'⟩
    · exact ⟨i, hi3, hii.trans hi8, (Function.update_of_ne hji _ _).trans hi⟩
  obtain ⟨n, hn3, hn8, hn⟩ := hleft
  obtain ⟨j', hj3', hj8', hj', h2⟩ := pcbFdInstall_free k hn3 hn8 hn
  have hne : j' ≠ j := by
    rintro rfl
    rw [Kernel.withFd] at hj'
    simp only [Function.update_self] at hj'
    cases hj'
  exact ⟨j, j', ⟨hj3, hj8⟩, ⟨hj3', hj8'⟩, hne, hj, (Function.update_of_ne hne _ _).symm.trans hj',
    h1, h2⟩

theorem sysPipe_some {r : ℤ × ℤ} (h : sysPipe s = some (r, s')) (hfree : TwoFree s) :
    ∃ g j j', 3 ≤ g ∧ g < maxFilesOpen ∧ (s.fileTable g).fdInode = none ∧
      (3 ≤ j ∧ j < maxFilesOpenPerProc) ∧ (3 ≤ j' ∧ j' < maxFilesOpenPerProc) ∧ j' ≠ j ∧
      s.cur.fdTable j = none ∧ s.cur.fdTable j' = none ∧
      s'.fileTable = Function.update s.fileTable g ⟨2, pipeFlag, some s.next⟩ ∧
      s'.next = s.next + 1 ∧
      s'.cur.fdTable = Function.update (Function.update s.cur.fdTable j (some g)) j' (some g) := by
  simp only [sysPipe, bind_some_iff, assert_eq_some, Option.pure_def, Option.some.injEq,
    Prod.mk.injEq] at h
  obtain ⟨g, hg, -, -, -, rfl⟩ := h
  obtain ⟨hg32, hslot⟩ := getFreeSlotInGlobal_some hg
  let s1 : Kernel part := { (sysMalloc s).2.setFile g ⟨2, pipeFlag, some (sysMalloc s).2.next⟩ with
    next := (sysMalloc s).2.next + 1 }
  obtain ⟨j, j', hj, hj', hne, hfj, hfj', h1, h2⟩ := pcbFdInstall_two (s := s1) g hfree
  have hfinal : (pcbFdInstall g (pcbFdInstall g s1).2).2 =
      Kernel.withFd (Kernel.withFd s1 j g) j' g := by
    rw [h1, h2]
  rw [show _ = _ from hfinal]
  exact ⟨g, j, j', getFreeSlotInGlobal_ge hg, hg32, hslot, hj, hj', hne, hfj, hfj', rfl, rfl, rfl⟩

section Loops

variable {T : ℕ → ℕ → Option ℕ} {made freed : List ℕ} {p child : ℕ}

/-- A slot with the flag of a pipe that a descriptor refers to is a pipe. -/
theorem Piping.pipe_of_flag (h : Piping s T made freed) {fd k : ℕ} (hk : T p fd = some k)
    (hflag : (s.fileTable k).fdFlag = pipeFlag) :
    3 ≤ k ∧ k < maxFilesOpen ∧ ∃ a, (s.fileTable k).fdInode = some a := by
  have h3 : 3 ≤ k := by
    by_contra hlow
    exact (h.std k (by omega)).2 hflag
  exact ⟨h3, (h.entry p fd k hk).2.2.1, h.slot hk h3⟩

/-- A slot without the flag of a pipe is not in use. -/
theorem Piping.none_of_flag (h : Piping s T made freed) {k : ℕ}
    (hflag : (s.fileTable k).fdFlag ≠ pipeFlag) : (s.fileTable k).fdInode = none := by
  cases ha : (s.fileTable k).fdInode with
  | none => rfl
  | some a => exact absurd (h.pipe k a ha).1 hflag

/-- `update_inode_open_cnts` counts the descriptors of the child one after the other. -/
theorem updateInodeOpenCnts_piping : ∀ {left fd : ℕ} {s s' : Kernel part}
    {T : ℕ → ℕ → Option ℕ}, left + fd = maxFilesOpenPerProc → 3 ≤ fd →
    updateInodeOpenCnts left fd s = some s' → child ≤ maxPid → p ≠ child →
    T p = s.cur.fdTable → (∀ j, T child j = if 3 ≤ j ∧ j < fd then s.cur.fdTable j else none) →
    Piping s T made freed →
    ∃ T', Piping s' T' made freed ∧ (∀ q, q ≠ child → T' q = T q) ∧
      (∀ j, T' child j = if 3 ≤ j ∧ j < maxFilesOpenPerProc then s.cur.fdTable j else none) := by
  intro left
  induction left with
  | zero =>
    intro fd s s' T hfd _ h _ _ _ hrow hs
    obtain rfl := Option.some.inj h
    rw [Nat.zero_add] at hfd
    subst fd
    exact ⟨T, hs, fun _ _ => rfl, hrow⟩
  | succ left ih =>
    intro fd s s' T hfd h3 h hc hpc hp hrow hs
    rw [updateInodeOpenCnts] at h
    split at h
    · rename_i hnone
      refine ih (by omega) (by omega) h hc hpc hp (fun j => ?_) hs
      rw [hrow]
      by_cases hj : j = fd
      · subst j
        simp [hnone]
      · congr 1
        simp only [eq_iff_iff]
        omega
    · rename_i k hk
      rw [assert_bind] at h
      obtain ⟨hlt, h⟩ := h
      have hT : T p fd = some k := by rw [hp, hk]
      simp only at h
      split at h
      · rename_i hflag
        obtain ⟨hk3, -, a, ha⟩ := hs.pipe_of_flag hT hflag
        have hfree : T child fd = none := by
          rw [hrow, if_neg (by omega)]
        have hs1 := hs.add hc h3 (by omega) hfree hlt ha
        have hp1 : setFd T child fd (some k) p = s.cur.fdTable := by
          rw [setFd, Function.update_of_ne hpc, hp]
        have hrow1 : ∀ j, setFd T child fd (some k) child j =
            if 3 ≤ j ∧ j < fd + 1 then s.cur.fdTable j else none := by
          intro j
          by_cases hj : j = fd
          · subst j
            rw [setFd_self, if_pos (by omega), hk]
          · rw [setFd_ne _ fun he => hj he.2, hrow]
            congr 1
            simp only [eq_iff_iff]
            omega
        obtain ⟨T', hT', hsame, hrow'⟩ := ih (by omega) (by omega) h hc hpc hp1 hrow1 hs1
        refine ⟨T', hT', fun q hq => ?_, hrow'⟩
        rw [hsame q hq, setFd, Function.update_of_ne hq]
      · rename_i hflag
        rw [hs.none_of_flag hflag] at h
        cases h

/-- The pages `release_prog_resource` gives back, the last one first. -/
def releaseFrees : (left fdIdx : ℕ) → Kernel part → List ℕ
  | 0, _, _ => []
  | left + 1, fdIdx, s =>
    match s.cur.fdTable fdIdx with
    | none => releaseFrees left (fdIdx + 1) s
    | some k =>
      if (s.fileTable k).fdFlag = pipeFlag then
        releaseFrees left (fdIdx + 1) (pipeClose k s) ++ pipePage k s
      else
        match sysClose fdIdx s with
        | none => []
        | some (_, s) => releaseFrees left (fdIdx + 1) s

/-- A process that exits gives its descriptors up, one after the other. -/
theorem releaseFds_piping : ∀ {left fdIdx : ℕ} {s s' : Kernel part} {T : ℕ → ℕ → Option ℕ}
    {freed : List ℕ}, left + fdIdx = maxFilesOpenPerProc → 3 ≤ fdIdx →
    releaseFds left fdIdx s = some s' →
    (∀ j, T p j = if fdIdx ≤ j ∧ j < maxFilesOpenPerProc then s.cur.fdTable j else none) →
    (∀ k, 3 ≤ k → (∃ q fd, q ≠ p ∧ fd < 3 ∧ T q fd = some k) →
      ∃ q fd, q ≠ p ∧ 3 ≤ fd ∧ T q fd = some k) →
    Piping s T made freed →
    Piping s' (Function.update T p fun _ => none) made (releaseFrees left fdIdx s ++ freed) := by
  intro left
  induction left with
  | zero =>
    intro fdIdx s s' T freed hfd _ h hrow _ hs
    obtain rfl := Option.some.inj h
    have hp : T p = fun _ => none := by
      funext j
      rw [hrow, if_neg (by omega)]
    rw [← hp, Function.update_eq_self]
    exact hs
  | succ left ih =>
    intro fdIdx s s' T freed hfd h3 h hrow hlow hs
    rw [releaseFds] at h
    split at h
    · rename_i hnone
      rw [releaseFrees, hnone]
      refine ih (by omega) (by omega) h (fun j => ?_) hlow hs
      rw [hrow]
      by_cases hj : j = fdIdx
      · subst j
        simp [hnone]
      · congr 1
        simp only [eq_iff_iff]
        omega
    · rename_i k hk
      rw [releaseFrees, hk]
      rw [bind_some_iff] at h
      obtain ⟨k', hlocal, h⟩ := h
      obtain ⟨-, hk', -⟩ := fdLocal2global_some hlocal
      obtain rfl := Option.some.inj (hk.symm.trans hk')
      have hT : T p fdIdx = some k := by rw [hrow, if_pos (by omega), hk]
      simp only at h ⊢
      split at h
      · rename_i hflag
        rw [if_pos hflag, List.append_assoc]
        obtain ⟨hk3, -, -⟩ := hs.pipe_of_flag hT hflag
        have hs1 := hs.drop hT h3 hk3 (by
          rintro ⟨q, fd, hfd3, hq⟩
          have hqp : q ≠ p := by
            rintro rfl
            rw [hrow, if_neg (by omega)] at hq
            cases hq
          obtain ⟨q', fd', hq', h3', hT'⟩ := hlow k hk3 ⟨q, fd, hqp, hfd3, hq⟩
          exact ⟨q', fd', h3', fun he => hq' he.1, hT'⟩)
        have hsame : ∀ q, q ≠ p → setFd T p fdIdx none q = T q := fun q hq => by
          rw [setFd, Function.update_of_ne hq]
        have hrow1 : ∀ j, setFd T p fdIdx none p j =
            if fdIdx + 1 ≤ j ∧ j < maxFilesOpenPerProc then s.cur.fdTable j else none := by
          intro j
          by_cases hj : j = fdIdx
          · subst j
            rw [setFd_self, if_neg (by omega)]
          · rw [setFd_ne _ fun he => hj he.2, hrow]
            congr 1
            simp only [eq_iff_iff]
            omega
        have hlow1 : ∀ k, 3 ≤ k → (∃ q fd, q ≠ p ∧ fd < 3 ∧ setFd T p fdIdx none q fd = some k) →
            ∃ q fd, q ≠ p ∧ 3 ≤ fd ∧ setFd T p fdIdx none q fd = some k := by
          rintro j hj ⟨q, fd, hq, hfd, hTq⟩
          rw [hsame q hq] at hTq
          obtain ⟨q', fd', hq', h3', hT'⟩ := hlow j hj ⟨q, fd, hq, hfd, hTq⟩
          exact ⟨q', fd', hq', h3', by rw [hsame q' hq', hT']⟩
        have hs2 := ih (by omega) (by omega) h hrow1 hlow1 hs1
        rwa [setFd, Function.update_idem] at hs2
      · rename_i hflag
        rw [bind_some_iff] at h
        obtain ⟨⟨ret, s1⟩, hcl, -⟩ := h
        rcases sysClose_some hcl with ⟨hle, -⟩ | ⟨-, -, k0, -, hk0, ⟨hpipe, -⟩ | ⟨-, s2, hfc, -⟩⟩
        · omega
        · obtain rfl := Option.some.inj (hk.symm.trans hk0)
          exact absurd hpipe hflag
        · obtain rfl := Option.some.inj (hk.symm.trans hk0)
          rw [fileClose, hs.none_of_flag hflag] at hfc
          cases hfc

end Loops

/-- The page `sys_close` gives back. -/
def closeFrees (fd : ℕ) (s : Kernel part) : List ℕ :=
  if fd ≤ 2 then []
  else
    match s.cur.fdTable fd with
    | none => []
    | some k => if (s.fileTable k).fdFlag = pipeFlag then pipePage k s else []

/-- The processes, and the pages allocated for pipes and given back so far. -/
structure Piped (part : Partition) where
  world : World part
  made : List ℕ
  freed : List ℕ

inductive Call where
  | pipe (p : ℕ)
  | fork (p child : ℕ)
  | redirect (p oldLocalFd newLocalFd : ℕ)
  | lseek (p ioqWord fd : ℕ) (offset : ℤ) (whence : Whence)
  | close (p fd : ℕ)
  | exit (p : ℕ)

def Call.exec : Call → Piped part → Option (Piped part)
  | .pipe p, σ => do
    let (_, w) ← σ.world.call p sysPipe
    return ⟨w, σ.world.kernel.next :: σ.made, σ.freed⟩
  | .fork p child, σ => do
    let w ← sysFork p child σ.world
    return { σ with world := w }
  | .redirect p oldLocalFd newLocalFd, σ => do
    let (_, w) ← σ.world.call p (sysFdRedirect oldLocalFd newLocalFd)
    return { σ with world := w }
  | .lseek p ioqWord fd offset whence, σ => do
    let (_, w) ← σ.world.call p (sysLseek ioqWord fd offset whence)
    return { σ with world := w }
  | .close p fd, σ => do
    let t ← σ.world.procs p
    let (_, w) ← σ.world.call p (sysClose fd)
    return ⟨w, σ.made, closeFrees fd { σ.world.kernel with cur := t } ++ σ.freed⟩
  | .exit p, σ => do
    let t ← σ.world.procs p
    let w ← sysExit p σ.world
    return ⟨w, σ.made,
      releaseFrees (maxFilesOpenPerProc - 3) 3 { σ.world.kernel with cur := t } ++ σ.freed⟩

/-- The buffer of a slot is there exactly while some descriptor refers to the slot, and a page
that is gone was given back once. -/
def PipesExact (σ : Piped part) : Prop :=
  (∀ k, 3 ≤ k → k < maxFilesOpen → ((σ.world.kernel.fileTable k).fdInode ≠ none ↔
    ∃ p fd, descriptors σ.world.procs p fd = some k)) ∧
  σ.freed.Nodup ∧
  ∀ a, a ∈ σ.freed ↔ a ∈ σ.made ∧ ∀ k, (σ.world.kernel.fileTable k).fdInode ≠ some a

/-- Some standard descriptor of a process other than `p` refers to slot `k`. -/
def StdElsewhere (procs : ℕ → Option Task) (p k : ℕ) : Prop :=
  ∃ q fd, q ≠ p ∧ fd < 3 ∧ descriptors procs q fd = some k

/-- A pipe gets both descriptors; descriptors from 3 on are not redirected from or to a pipe;
the position of a pipe is not changed by seeking; and the last descriptor from 3 on that refers
to a pipe is not given up before the standard ones. -/
def Call.Fine : Call → Piped part → Prop
  | .pipe p, σ => ∀ t, σ.world.procs p = some t → ∃ j j', 3 ≤ j ∧ j < j' ∧
    j' < maxFilesOpenPerProc ∧ t.fdTable j = none ∧ t.fdTable j' = none
  | .fork _ _, _ => True
  | .redirect p oldLocalFd newLocalFd, σ => 3 ≤ oldLocalFd → ∀ t, σ.world.procs p = some t →
    t.fdTable oldLocalFd = (if newLocalFd < 3 then some newLocalFd else t.fdTable newLocalFd) ∨
    ((∀ k, t.fdTable oldLocalFd = some k → k < 3) ∧ ∀ k,
      (if newLocalFd < 3 then some newLocalFd else t.fdTable newLocalFd) = some k → k < 3)
  | .lseek p ioqWord fd offset whence, σ => ∀ k, descriptors σ.world.procs p fd = some k →
    seekable (σ.world.kernel.fileTable k).fdPos ioqWord offset whence = true →
    seekTarget (σ.world.kernel.fileTable k).fdPos ioqWord offset whence =
      (σ.world.kernel.fileTable k).fdPos
  | .close p fd, σ => 3 ≤ fd → ∀ k, descriptors σ.world.procs p fd = some k → 3 ≤ k →
    (∃ q fd', fd' < 3 ∧ descriptors σ.world.procs q fd' = some k) →
    ∃ q fd', 3 ≤ fd' ∧ ¬(q = p ∧ fd' = fd) ∧ descriptors σ.world.procs q fd' = some k
  | .exit p, σ => ∀ k, 3 ≤ k → StdElsewhere σ.world.procs p k →
    ∃ q fd, q ≠ p ∧ 3 ≤ fd ∧ descriptors σ.world.procs q fd = some k

/-- The invariant of a run. -/
def Sound (σ : Piped part) : Prop :=
  Piping σ.world.kernel (descriptors σ.world.procs) σ.made σ.freed ∧
    ∀ p t, σ.world.procs p = some t → p ≤ maxPid

theorem Sound.exact {σ : Piped part} (h : Sound σ) : PipesExact σ := by
  obtain ⟨h, -⟩ := h
  refine ⟨fun k h3 _ => ⟨fun hk => ?_, fun ⟨p, fd, hk⟩ => ?_⟩, h.once, fun a => ⟨fun ha => ?_,
    fun ⟨hm, hno⟩ => ?_⟩⟩
  · obtain ⟨a, ha⟩ := Option.ne_none_iff_exists'.mp hk
    obtain ⟨p, fd, -, -, -, hk⟩ := users_pos.mp (h.pipe k a ha).2.2
    exact ⟨p, fd, hk⟩
  · obtain ⟨a, ha⟩ := h.slot hk h3
    rw [ha]
    exact Option.some_ne_none a
  · exact ⟨h.sub a ha, fun k hk => ((h.page a).mpr ⟨k, hk⟩).2 ha⟩
  · by_contra hf
    obtain ⟨k, hk⟩ := (h.page a).mp ⟨hm, hf⟩
    exact hno k hk

theorem descriptors_update (procs : ℕ → Option Task) (p : ℕ) (t : Task) :
    descriptors (Function.update procs p (some t)) =
      Function.update (descriptors procs) p t.fdTable := by
  funext q fd
  by_cases hq : q = p
  · subst q
    simp only [descriptors, Function.update_self, Option.bind_some]
  · simp only [descriptors, Function.update_of_ne hq]

theorem descriptors_of {procs : ℕ → Option Task} {p : ℕ} {t : Task} (h : procs p = some t) :
    descriptors procs p = t.fdTable := by
  funext fd
  simp only [descriptors, h, Option.bind_some]

theorem descriptors_setFd {procs : ℕ → Option Task} {p fd : ℕ} {t t' : Task} {v : Option ℕ}
    (h : procs p = some t) (ht : t'.fdTable = Function.update t.fdTable fd v) :
    descriptors (Function.update procs p (some t')) = setFd (descriptors procs) p fd v := by
  rw [descriptors_update, setFd, descriptors_of h, ht]

theorem live_update {procs : ℕ → Option Task} {p : ℕ} {t t' : Task} (h : procs p = some t)
    (hlive : ∀ q u, procs q = some u → q ≤ maxPid) :
    ∀ q u, Function.update procs p (some t') q = some u → q ≤ maxPid := by
  intro q u hq
  by_cases hqp : q = p
  · subst q
    exact hlive p t h
  · rw [Function.update_of_ne hqp] at hq
    exact hlive q u hq

section Calls

variable {procs : ℕ → Option Task} {made freed : List ℕ} {p : ℕ}

theorem sysPipe_piping {r : ℤ × ℤ} (h : sysPipe s = some (r, s')) (hp : procs p = some s.cur)
    (hle : p ≤ maxPid) (hfree : ∃ j j', 3 ≤ j ∧ j < j' ∧ j' < maxFilesOpenPerProc ∧
      s.cur.fdTable j = none ∧ s.cur.fdTable j' = none)
    (hs : Piping s (descriptors procs) made freed) :
    Piping s' (descriptors (Function.update procs p (some s'.cur))) (s.next :: made) freed := by
  obtain ⟨g, j, j', hg3, hg, hgfree, hj, hj', hne, hTj, hTj', hf, hn, hcur⟩ := sysPipe_some h hfree
  have hrow := descriptors_of hp
  have hT : descriptors (Function.update procs p (some s'.cur)) =
      setFd (setFd (descriptors procs) p j (some g)) p j' (some g) := by
    rw [descriptors_update, hcur, setFd, setFd, hrow, Function.update_self, Function.update_idem]
  rw [hT]
  exact hs.make hle hg3 hg hgfree hj hj' hne (by rw [hrow, hTj]) (by rw [hrow, hTj']) hf hn

theorem sysFdRedirect_piping {oldLocalFd newLocalFd : ℕ} {r : Unit}
    (h : sysFdRedirect oldLocalFd newLocalFd s = some (r, s')) (hp : procs p = some s.cur)
    (hle : p ≤ maxPid)
    (hfine : 3 ≤ oldLocalFd →
      s.cur.fdTable oldLocalFd =
        (if newLocalFd < 3 then some newLocalFd else s.cur.fdTable newLocalFd) ∨
      ((∀ k, s.cur.fdTable oldLocalFd = some k → k < 3) ∧ ∀ k,
        (if newLocalFd < 3 then some newLocalFd else s.cur.fdTable newLocalFd) = some k → k < 3))
    (hs : Piping s (descriptors procs) made freed) :
    Piping s' (descriptors (Function.update procs p (some s'.cur))) made freed := by
  simp only [sysFdRedirect, bind_some_iff, assert_eq_some, Option.pure_def, Option.some.injEq,
    Prod.mk.injEq] at h
  obtain ⟨-, ⟨h8, -⟩, -, rfl⟩ := h
  have hrow := descriptors_of hp
  have htarget : Target s (if newLocalFd < 3 then some newLocalFd
      else s.cur.fdTable newLocalFd) := by
    split
    · rename_i hnew
      intro k hk
      obtain rfl := Option.some.inj hk
      exact ⟨Nat.lt_trans hnew (by decide), Or.inl hnew⟩
    · rw [← hrow]
      exact hs.target p newLocalFd
  rw [descriptors_setFd hp rfl]
  refine Piping.of_same (s := s) ?_ rfl le_rfl
  by_cases h3 : 3 ≤ oldLocalFd
  · refine hs.setPlain hle h3 h8 htarget ?_
    rw [hrow]
    exact hfine h3
  · exact hs.setLow hle (by omega) htarget

theorem sysLseek_piping {ioqWord fd : ℕ} {offset r : ℤ} {whence : Whence}
    (h : sysLseek ioqWord fd offset whence s = some (r, s')) (hp : procs p = some s.cur)
    (hfine : ∀ k, s.cur.fdTable fd = some k →
      seekable (s.fileTable k).fdPos ioqWord offset whence = true →
      seekTarget (s.fileTable k).fdPos ioqWord offset whence = (s.fileTable k).fdPos)
    (hs : Piping s (descriptors procs) made freed) :
    Piping s' (descriptors (Function.update procs p (some s'.cur))) made freed := by
  have hsame : s'.fileTable = s.fileTable ∧ s'.cur = s.cur ∧ s'.next = s.next := by
    rw [sysLseek, bind_some_iff] at h
    obtain ⟨k, hlocal, h⟩ := h
    obtain ⟨-, hk, -⟩ := fdLocal2global_some hlocal
    rw [bind_some_iff] at h
    obtain ⟨a, ha, h⟩ := h
    have hflag := (hs.pipe k a ha).1
    simp only [if_pos hflag, bind_some_iff, Option.some.injEq] at h
    obtain ⟨size, rfl, h⟩ := h
    split at h
    · obtain ⟨-, rfl⟩ := Prod.mk.inj (Option.some.inj h)
      exact ⟨rfl, rfl, rfl⟩
    · rename_i hseek
      obtain ⟨-, rfl⟩ := Prod.mk.inj (Option.some.inj h)
      have hpos := hfine k hk (by simpa using hseek)
      refine ⟨?_, rfl, rfl⟩
      rw [hpos, Int.toNat_natCast]
      exact Function.update_eq_self k s.fileTable
  rw [hsame.2.1, ← hp, Function.update_eq_self]
  exact hs.of_same hsame.1 hsame.2.2.ge

theorem sysClose_piping {fd : ℕ} {ret : ℤ} (h : sysClose fd s = some (ret, s'))
    (hp : procs p = some s.cur)
    (hfine : 3 ≤ fd → ∀ k, s.cur.fdTable fd = some k → 3 ≤ k →
      (∃ q fd', fd' < 3 ∧ descriptors procs q fd' = some k) →
      ∃ q fd', 3 ≤ fd' ∧ ¬(q = p ∧ fd' = fd) ∧ descriptors procs q fd' = some k)
    (hs : Piping s (descriptors procs) made freed) :
    Piping s' (descriptors (Function.update procs p (some s'.cur))) made
      (closeFrees fd s ++ freed) := by
  have hrow := descriptors_of hp
  rcases sysClose_some h with ⟨hlow, rfl⟩ | ⟨hfd, -, k, -, hk, ⟨hflag, rfl⟩ | ⟨hflag, s1, hcl, -⟩⟩
  · rw [closeFrees, if_pos hlow, ← hp, Function.update_eq_self]
    exact hs
  · have hT : descriptors procs p fd = some k := by rw [hrow, hk]
    obtain ⟨h3, -, -⟩ := hs.pipe_of_flag hT hflag
    have hdrop := hs.drop hT hfd h3 (hfine hfd k hk h3)
    rw [closeFrees, if_neg (by omega), hk]
    simp only [if_pos hflag]
    rw [descriptors_setFd hp (show (Kernel.clearFd fd (pipeClose k s)).cur.fdTable =
      Function.update s.cur.fdTable fd none from rfl)]
    exact hdrop.of_same rfl le_rfl
  · rw [fileClose, hs.none_of_flag hflag] at hcl
    cases hcl

/-- The child refers to what its parent refers to. -/
theorem sysFork_piping {child : ℕ} {w : World part}
    (h : sysFork p child ⟨s, procs⟩ = some w)
    (hs : Piping s (descriptors procs) made freed)
    (hlive : ∀ q u, procs q = some u → q ≤ maxPid) :
    Piping w.kernel (descriptors w.procs) made freed ∧ ∀ q u, w.procs q = some u → q ≤ maxPid := by
  simp only [sysFork, bind_some_iff, assert_eq_some, Option.pure_def, Option.some.injEq] at h
  obtain ⟨-, ⟨hz, -, hmax⟩, t, ht, s1, hcnt, rfl⟩ := h
  have hpc : p ≠ child := by
    rintro rfl
    rw [hz] at ht
    cases ht
  have hempty : ∀ j, descriptors procs child j =
      if 3 ≤ j ∧ j < 3 then t.fdTable j else none := by
    intro j
    rw [descriptors, hz, if_neg (by omega)]
    rfl
  obtain ⟨T, hT, hsame, hrow⟩ := updateInodeOpenCnts_piping (by decide) le_rfl hcnt hmax hpc
    (descriptors_of ht) hempty (hs.of_same rfl le_rfl)
  simp only at hrow
  have hparent : T p = t.fdTable := by rw [hsame p hpc, descriptors_of ht]
  refine ⟨hT.retable (fun k _ => users_congr (fun q fd hfd => ?_) k) fun q fd k hk => ?_,
    fun q u hq => ?_⟩
  · rw [descriptors_update]
    by_cases hq : q = child
    · subst q
      rw [Function.update_self, hrow]
      split
      · rfl
      · by_contra hne
        obtain ⟨k, hk⟩ := Option.ne_none_iff_exists'.mp hne
        have h8 := (hT.entry p fd k (by rw [hparent, hk])).2.1
        omega
    · rw [Function.update_of_ne hq, hsame q hq]
  · rw [descriptors_update] at hk
    by_cases hq : q = child
    · subst q
      rw [Function.update_self, ← hparent] at hk
      exact ⟨hmax, (hT.entry p fd k hk).2⟩
    · rw [Function.update_of_ne hq, ← hsame q hq] at hk
      exact hT.entry q fd k hk
  · by_cases hqc : q = child
    · subst q
      exact hmax
    · simp only [Function.update_of_ne hqc] at hq
      exact hlive q u hq

/-- The standard descriptors of a process do not count. -/
theorem Piping.mask {t : Task} (h : Piping s (descriptors procs) made freed) (hp : procs p = some t) :
    Piping s (Function.update (descriptors procs) p fun j =>
      if 3 ≤ j ∧ j < maxFilesOpenPerProc then t.fdTable j else none) made freed := by
  have hrow := descriptors_of hp
  refine h.retable (fun k _ => users_congr (fun q fd hfd => ?_) k) fun q fd k hk => ?_
  · by_cases hq : q = p
    · subst q
      rw [Function.update_self, hrow]
      split
      · rfl
      · by_contra hne
        obtain ⟨k, hk⟩ := Option.ne_none_iff_exists'.mp (Ne.symm hne)
        have h8 := (h.entry _ fd k (by rw [hrow, hk])).2.1
        omega
    · rw [Function.update_of_ne hq]
  · by_cases hq : q = p
    · subst q
      rw [Function.update_self] at hk
      split at hk
      · rw [← hrow] at hk
        exact h.entry _ fd k hk
      · cases hk
    · rw [Function.update_of_ne hq] at hk
      exact h.entry q fd k hk

theorem releaseAll_piping (h : releaseFds (maxFilesOpenPerProc - 3) 3 s = some s')
    (hp : procs p = some s.cur)
    (hfine : ∀ k, 3 ≤ k → StdElsewhere procs p k →
      ∃ q fd, q ≠ p ∧ 3 ≤ fd ∧ descriptors procs q fd = some k)
    (hs : Piping s (descriptors procs) made freed) :
    Piping s' (descriptors (Function.update procs p none)) made
      (releaseFrees (maxFilesOpenPerProc - 3) 3 s ++ freed) := by
  have hlow : ∀ k, 3 ≤ k → (∃ q fd, q ≠ p ∧ fd < 3 ∧ Function.update (descriptors procs) p
      (fun j => if 3 ≤ j ∧ j < maxFilesOpenPerProc then s.cur.fdTable j else none) q fd = some k) →
      ∃ q fd, q ≠ p ∧ 3 ≤ fd ∧ Function.update (descriptors procs) p
      (fun j => if 3 ≤ j ∧ j < maxFilesOpenPerProc then s.cur.fdTable j else none) q fd = some k := by
    rintro k hk ⟨q, fd, hq, hfd, hT⟩
    rw [Function.update_of_ne hq] at hT
    obtain ⟨q', fd', hq', h3', hT'⟩ := hfine k hk ⟨q, fd, hq, hfd, hT⟩
    refine ⟨q', fd', hq', h3', ?_⟩
    rw [Function.update_of_ne hq']
    exact hT'
  have hout := releaseFds_piping (by decide) le_rfl h
    (fun j => by rw [Function.update_self]) hlow (hs.mask hp)
  rw [Function.update_idem] at hout
  have hgone : descriptors (Function.update procs p none) =
      Function.update (descriptors procs) p fun _ => none := by
    funext q fd
    by_cases hq : q = p
    · subst q
      simp only [descriptors, Function.update_self, Option.bind_none]
    · simp only [descriptors, Function.update_of_ne hq]
  rw [hgone]
  exact hout

end Calls

theorem exec_sound {σ σ' : Piped part} {c : Call} (hs : Sound σ) (hc : c.Fine σ)
    (h : c.exec σ = some σ') : Sound σ' := by
  obtain ⟨⟨s, procs⟩, made, freed⟩ := σ
  obtain ⟨hpipe, hlive⟩ := hs
  have hcur : ∀ t, Piping { s with cur := t } (descriptors procs) made freed :=
    fun t => hpipe.of_same rfl le_rfl
  cases c with
  | pipe p =>
    simp only [Call.exec, bind_some_iff, Option.pure_def, Option.some.injEq] at h
    obtain ⟨⟨r, w⟩, hcall, rfl⟩ := h
    obtain ⟨t, ht, s1, hp, rfl⟩ := call_some hcall
    have hs1 := sysPipe_piping hp ht (hlive p t ht) (hc t ht) (hcur t)
    exact ⟨hs1, live_update ht hlive⟩
  | fork p child =>
    simp only [Call.exec, bind_some_iff, Option.pure_def, Option.some.injEq] at h
    obtain ⟨w, hfork, rfl⟩ := h
    exact sysFork_piping hfork hpipe hlive
  | redirect p oldLocalFd newLocalFd =>
    simp only [Call.exec, bind_some_iff, Option.pure_def, Option.some.injEq] at h
    obtain ⟨⟨r, w⟩, hcall, rfl⟩ := h
    obtain ⟨t, ht, s1, hr, rfl⟩ := call_some hcall
    exact ⟨sysFdRedirect_piping hr ht (hlive p t ht) (fun h3 => hc h3 t ht) (hcur t),
      live_update ht hlive⟩
  | lseek p ioqWord fd offset whence =>
    simp only [Call.exec, bind_some_iff, Option.pure_def, Option.some.injEq] at h
    obtain ⟨⟨r, w⟩, hcall, rfl⟩ := h
    obtain ⟨t, ht, s1, hl, rfl⟩ := call_some hcall
    refine ⟨sysLseek_piping hl ht (fun k hk => hc k ?_) (hcur t), live_update ht hlive⟩
    rw [descriptors_of ht, hk]
  | close p fd =>
    simp only [Call.exec, bind_some_iff, Option.pure_def, Option.some.injEq] at h
    obtain ⟨t, ht, ⟨r, w⟩, hcall, rfl⟩ := h
    obtain ⟨t', ht', s1, hcl, rfl⟩ := call_some hcall
    obtain rfl := Option.some.inj (ht.symm.trans ht')
    refine ⟨sysClose_piping hcl ht (fun h3 k hk => hc h3 k ?_) (hcur t), live_update ht hlive⟩
    rw [descriptors_of ht, hk]
  | exit p =>
    simp only [Call.exec, sysExit, bind_some_iff, Option.pure_def, Option.some.injEq] at h
    obtain ⟨t, ht, w, ⟨t', ht', s1, hrel, rfl⟩, rfl⟩ := h
    obtain rfl := Option.some.inj (ht.symm.trans ht')
    refine ⟨releaseAll_piping hrel ht hc (hcur t), fun q u hq => ?_⟩
    by_cases hqp : q = p
    · simp only [hqp, Function.update_self] at hq
      cases hq
    · simp only [Function.update_of_ne hqp] at hq
      exact hlive q u hq

/-- From the mounted file system on, with processes that have the standard descriptors only. -/
theorem run_pipes_exact {v : Volume part} {m : ℕ → Bool} {procs : ℕ → Option Task}
    {calls : List Call} {σ : Piped part} (h : openRootDir (mounted v m) = some s)
    (hp : ∀ p t, procs p = some t → p ≤ maxPid ∧ ∀ fd, t.fdTable fd = if fd < 3 then some fd else none)
    (hc : AllMeet Call.exec Call.Fine calls ⟨⟨s, procs⟩, [], []⟩)
    (hr : runAll Call.exec calls ⟨⟨s, procs⟩, [], []⟩ = some σ) : PipesExact σ := by
  have hfiles : ∀ k, s.fileTable k = ⟨0, 0, none⟩ := fun k => by rw [(openRootDir_some h).fileTable]
  have hentry : ∀ p fd k, descriptors procs p fd = some k → p ≤ maxPid ∧ fd = k ∧ k < 3 := by
    intro p fd k hk
    obtain ⟨t, ht, hk⟩ := Option.bind_eq_some_iff.mp hk
    obtain ⟨hle, hrow⟩ := hp p t ht
    rw [hrow] at hk
    split at hk
    · obtain rfl := Option.some.inj hk
      exact ⟨hle, rfl, ‹_›⟩
    · cases hk
  have hnone : ∀ k a, (s.fileTable k).fdInode ≠ some a := fun k a ha => by
    rw [hfiles] at ha
    cases ha
  have hstart : Sound ⟨⟨s, procs⟩, [], []⟩ := by
    refine ⟨⟨fun k _ => ?_, fun k a ha => absurd ha (hnone k a), fun p fd k hk => ?_,
      fun a ha => absurd ha List.not_mem_nil, fun a => ?_, fun k k' a ha _ => absurd ha (hnone k a),
      fun a ha => absurd ha List.not_mem_nil, List.nodup_nil⟩, fun p t ht => (hp p t ht).1⟩
    · rw [hfiles]
      exact ⟨rfl, Nat.ne_of_beq_eq_false rfl⟩
    · obtain ⟨hle, rfl, h3⟩ := hentry p fd k hk
      exact ⟨hle, Nat.lt_trans h3 (by decide), Nat.lt_trans h3 (by decide), Or.inl h3⟩
    · constructor
      · rintro ⟨ha, -⟩
        exact absurd ha List.not_mem_nil
      · rintro ⟨k, hk⟩
        exact absurd hk (hnone k a)
  exact (runAll_invariant Sound (fun _ _ _ hs hok he => exec_sound hs hok he) hstart hc hr).exact

/-- A pipe that is inherited. -/
def sharedPipe : List Call := [.pipe 1, .fork 1 3]

theorem run_pipes_exact_fork :
    ∃ w σ, smallWorld = some w ∧ runAll Call.exec sharedPipe ⟨w, [], []⟩ = some σ ∧ PipesExact σ := by
  have hrun : (smallWorld >>= fun w => runAll Call.exec sharedPipe ⟨w, [], []⟩).isSome := by
    decide +kernel
  obtain ⟨σ, hσ⟩ := Option.isSome_iff_exists.mp hrun
  obtain ⟨⟨s, procs⟩, hw, hr⟩ := bind_some_iff.mp hσ
  obtain ⟨v, -, hs, hprocs⟩ := smallWorld_some hw
  have hstart : ∀ p t, procs p = some t → p ≤ maxPid ∧ t = freshTask := by
    intro p t ht
    rw [show procs = _ from hprocs] at ht
    simp only at ht
    split at ht
    · rename_i hp
      rcases hp with rfl | rfl
      · exact ⟨by decide, (Option.some.inj ht).symm⟩
      · exact ⟨by decide, (Option.some.inj ht).symm⟩
    · cases ht
  have hfine : AllMeet Call.exec Call.Fine sharedPipe (⟨⟨s, procs⟩, [], []⟩ : Piped _) := by
    refine ⟨fun t ht => ?_, fun σ1 _ => ⟨trivial, fun _ _ => trivial⟩⟩
    rw [(hstart 1 t ht).2]
    exact ⟨3, 4, le_rfl, by decide, by decide, rfl, rfl⟩
  refine ⟨_, σ, hw, hr, run_pipes_exact hs (fun p t ht => ?_) hfine hr⟩
  obtain ⟨hle, rfl⟩ := hstart p t ht
  exact ⟨hle, fun fd => rfl⟩

/-- Standard input is redirected to a pipe, and then both its descriptors are closed. -/
def redirectedInput : List Call := [.pipe 1, .redirect 1 0 3, .close 1 3, .close 1 4]

/-- The buffer is gone, and standard input refers to its slot. -/
theorem redirected_input_outlives_pipe :
    ∃ w σ, smallWorld = some w ∧ runAll Call.exec redirectedInput ⟨w, [], []⟩ = some σ ∧
      ¬PipesExact σ := by
  have hrun : ((smallWorld >>= fun w => runAll Call.exec redirectedInput ⟨w, [], []⟩).map
      fun σ => (descriptors σ.world.procs 1 0, (σ.world.kernel.fileTable 3).fdInode)) =
      some (some 3, none) := by decide +kernel
  obtain ⟨σ, hσ, he⟩ := Option.map_eq_some_iff.mp hrun
  simp only [Prod.mk.injEq] at he
  obtain ⟨w, hw, hr⟩ := bind_some_iff.mp hσ
  refine ⟨w, σ, hw, hr, fun hx => ?_⟩
  exact (hx.1 3 le_rfl (by decide)).mpr ⟨1, 0, he.1⟩ he.2

end FsPipes
