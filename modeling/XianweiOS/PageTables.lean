import XianweiOS.TwoLevelPaging
import XianweiOS.KernelBitmap
import Mathlib.Tactic.IntervalCases

/-! `page_table_add` and `addr_v2p` of `kernel/memory.c`, on the physical memory that the hardware
walks. The tables are only reached through the last entry of the directory. -/
namespace PageTables

open TwoLevelPaging HaltingProgram KernelBitmap

def pdeIndex (addr : Word) : Word := (addr &&& 0xffc00000) >>> 22
def pteIndex (addr : Word) : Word := (addr &&& 0x003ff000) >>> 12

def ptePtr (vaddr : Word) : Word :=
  (0xffc00000 : Word) + ((0xffc00000 &&& vaddr) >>> 10) + pteIndex vaddr * 4

def pdePtr (vaddr : Word) : Word := 0xfffff000 + pdeIndex vaddr * 4

/-- `PG_US_U | PG_RW_W | PG_P_1` -/
def flags : Word := 4 ||| 2 ||| 1

/-- The bits of `kernel_pool` are kept apart: no page table lies there. -/
structure State where
  mem : Phys
  kernelPool : Bitmap

/-- `palloc(&kernel_pool)`, with its `phy_addr_start`. -/
def palloc (phyAddrStart : Word) (s : State) : Option (State × Word) := do
  match ← bitmapScan s.kernelPool 1 with
  | none => return (s, 0)
  | some bitIdx =>
    return ({ s with kernelPool := bitmapSet s.kernelPool bitIdx true },
      phyAddrStart + BitVec.ofNat 32 (bitIdx * 4096))

/-- `memset` with `0`, four bytes at a time. -/
def memset (cr3 : Frame) : (words : ℕ) → (dst : Word) → (mem : Phys) → Option Phys
  | 0, _, mem => some mem
  | words + 1, dst, mem => do
    let mem ← store cr3 mem dst 0
    memset cr3 words (dst + 4) mem

/-- A page fault and a failed `ASSERT` are `none`. -/
def pageTableAdd (phyAddrStart : Word) (cr3 : Frame) (vaddr pagePhyaddr : Word) (s : State) :
    Option State := do
  let pte := ptePtr vaddr
  let pde := pdePtr vaddr
  let entry ← load cr3 s.mem pde
  if entry &&& 1 ≠ 0 then
    let old ← load cr3 s.mem pte
    -- the test behind the assertion has nothing left to catch
    assert (old &&& 1 = 0)
    let mem ← store cr3 s.mem pte (pagePhyaddr ||| flags)
    return { s with mem }
  else
    let (s, pdePhyaddr) ← palloc phyAddrStart s
    let mem ← store cr3 s.mem pde (pdePhyaddr ||| flags)
    let mem ← memset cr3 1024 (pte &&& 0xfffff000) mem
    let old ← load cr3 mem pte
    assert (old &&& 1 = 0)
    let mem ← store cr3 mem pte (pagePhyaddr ||| flags)
    return { s with mem }

def addrV2p (cr3 : Frame) (mem : Phys) (vaddr : Word) : Option Word :=
  (load cr3 mem (ptePtr vaddr)).map fun pte => (pte &&& 0xfffff000) + (vaddr &&& 0x00000fff)

variable {cr3 f : Frame} {mem : Phys} {d : Index} {v p e : Word} {k : ℕ} {s : State}

/-! ### Addresses -/

/-- The address of word `k` of the table of entry `d`. -/
def tableWord (d : Index) (k : ℕ) : Word := BitVec.ofNat 32 (0xffc00000 + d.toNat * 4096 + k * 4)

theorem toNat_tableWord (hk : k < 1024) :
    (tableWord d k).toNat = 0xffc00000 + d.toNat * 4096 + k * 4 := by
  have := d.isLt
  rw [tableWord, BitVec.toNat_ofNat]
  omega

theorem dirIndex_toNat (a : Word) : (dirIndex a).toNat = a.toNat / 2 ^ 22 := by
  have := a.isLt
  rw [dirIndex, BitVec.extractLsb'_toNat, Nat.shiftRight_eq_div_pow]
  omega

theorem tableIndex_toNat (a : Word) : (tableIndex a).toNat = a.toNat / 2 ^ 12 % 2 ^ 10 := by
  rw [tableIndex, BitVec.extractLsb'_toNat, Nat.shiftRight_eq_div_pow]

theorem wordIndex_toNat (a : Word) : (wordIndex a).toNat = a.toNat / 2 ^ 2 % 2 ^ 10 := by
  rw [wordIndex, BitVec.extractLsb'_toNat, Nat.shiftRight_eq_div_pow]

theorem frameOf_toNat (a : Word) : (frameOf a).toNat = a.toNat / 2 ^ 12 := by
  have := a.isLt
  rw [frameOf, BitVec.extractLsb'_toNat, Nat.shiftRight_eq_div_pow]
  omega

theorem fields_tableWord (hk : k < 1024) : dirIndex (tableWord d k) = 1023 ∧
    tableIndex (tableWord d k) = d ∧ (wordIndex (tableWord d k)).toNat = k := by
  have := d.isLt
  refine ⟨BitVec.eq_of_toNat_eq ?_, BitVec.eq_of_toNat_eq ?_, ?_⟩
  · rw [dirIndex_toNat, toNat_tableWord hk]
    change _ = 1023
    omega
  · rw [tableIndex_toNat, toNat_tableWord hk]
    omega
  · rw [wordIndex_toNat, toNat_tableWord hk]
    omega

theorem and_high (e : Word) : e &&& (0xfffff000 : Word) = (e >>> 12) <<< 12 := by
  apply BitVec.eq_of_getLsbD_eq
  intro i hi
  interval_cases i <;> simp

theorem and_dir (v : Word) : (v &&& (0xffc00000 : Word)) >>> 22 = v >>> 22 := by
  apply BitVec.eq_of_getLsbD_eq
  intro i hi
  interval_cases i <;> simp

theorem dir_and (v : Word) : ((0xffc00000 : Word) &&& v) >>> 10 = (v >>> 22) <<< 12 := by
  apply BitVec.eq_of_getLsbD_eq
  intro i hi
  interval_cases i <;> simp

theorem and_table (v : Word) :
    (v &&& (0x003ff000 : Word)) >>> 12 = (v >>> 12) &&& (0x3ff : Word) := by
  apply BitVec.eq_of_getLsbD_eq
  intro i hi
  interval_cases i <;> simp

/-- The frame part of a word. -/
theorem toNat_and_high (e : Word) : (e &&& 0xfffff000).toNat = e.toNat / 2 ^ 12 * 2 ^ 12 := by
  have := e.isLt
  rw [and_high, BitVec.toNat_shiftLeft, BitVec.toNat_ushiftRight, Nat.shiftLeft_eq,
    Nat.shiftRight_eq_div_pow]
  omega

theorem toNat_and_low (v : Word) : (v &&& 0x00000fff).toNat = v.toNat % 2 ^ 12 := by
  rw [BitVec.toNat_and]
  exact Nat.and_two_pow_sub_one_eq_mod v.toNat 12

theorem toNat_pdeIndex (v : Word) : (pdeIndex v).toNat = (dirIndex v).toNat := by
  rw [pdeIndex, and_dir, BitVec.toNat_ushiftRight, Nat.shiftRight_eq_div_pow, dirIndex_toNat]

theorem toNat_pteIndex (v : Word) : (pteIndex v).toNat = (tableIndex v).toNat := by
  rw [pteIndex, and_table, BitVec.toNat_and, BitVec.toNat_ushiftRight, Nat.shiftRight_eq_div_pow,
    tableIndex_toNat]
  exact Nat.and_two_pow_sub_one_eq_mod _ 10

/-- `pde_ptr` is a word of the directory, which is the table of its own last entry. -/
theorem pdePtr_eq (v : Word) : pdePtr v = tableWord 1023 (dirIndex v).toNat := by
  have hd := (dirIndex v).isLt
  apply BitVec.eq_of_toNat_eq
  rw [toNat_tableWord hd, pdePtr, BitVec.toNat_add, BitVec.toNat_mul, toNat_pdeIndex]
  change (0xfffff000 + (dirIndex v).toNat * 4 % 2 ^ 32) % 2 ^ 32 =
    0xffc00000 + 1023 * 4096 + (dirIndex v).toNat * 4
  omega

/-- `pte_ptr` is a word of the table. -/
theorem ptePtr_eq (v : Word) : ptePtr v = tableWord (dirIndex v) (tableIndex v).toNat := by
  have hd := (dirIndex v).isLt
  have ht := (tableIndex v).isLt
  apply BitVec.eq_of_toNat_eq
  rw [toNat_tableWord ht, ptePtr, BitVec.toNat_add, BitVec.toNat_add, BitVec.toNat_mul,
    toNat_pteIndex, dir_and, BitVec.toNat_shiftLeft, BitVec.toNat_ushiftRight, Nat.shiftLeft_eq,
    Nat.shiftRight_eq_div_pow, ← dirIndex_toNat]
  change ((0xffc00000 + (dirIndex v).toNat * 2 ^ 12 % 2 ^ 32) % 2 ^ 32 +
    (tableIndex v).toNat * 4 % 2 ^ 32) % 2 ^ 32 = _
  omega

/-- Where `memset` begins. -/
theorem ptePtr_and_high (v : Word) : ptePtr v &&& 0xfffff000 = tableWord (dirIndex v) 0 := by
  have hd := (dirIndex v).isLt
  have ht := (tableIndex v).isLt
  apply BitVec.eq_of_toNat_eq
  rw [toNat_and_high, ptePtr_eq, toNat_tableWord ht, toNat_tableWord (by omega)]
  omega

/-! ### Entries -/

theorem and_one (e : Word) : e &&& 1 = 0 ↔ present e = false := by
  rw [present]
  constructor
  · intro h
    have := congrArg (fun x => x.getLsbD 0) h
    simpa using this
  · intro h
    apply BitVec.eq_of_getLsbD_eq
    intro i hi
    rw [BitVec.getLsbD_and]
    rcases Nat.eq_zero_or_pos i with rfl | hpos
    · rw [h]
      rfl
    · have hone : (1 : Word).getLsbD i = false := by
        interval_cases i <;> rfl
      rw [hone, Bool.and_false]
      exact BitVec.getLsbD_zero.symm

theorem present_flags (p : Word) : present (p ||| flags) = true := by
  rw [present, BitVec.getLsbD_or, flags]
  simp

theorem frameOf_flags (p : Word) : frameOf (p ||| flags) = frameOf p := by
  rw [frameOf, frameOf, flags]
  apply BitVec.eq_of_getLsbD_eq
  intro i hi
  interval_cases i <;> simp

/-- The frame of an entry and the offset of an address. -/
theorem frame_append (e v : Word) :
    (e &&& 0xfffff000) + (v &&& 0x00000fff) = frameOf e ++ pageOffset v := by
  have he := e.isLt
  have hoffset : (pageOffset v).toNat = v.toNat % 2 ^ 12 := by
    rw [pageOffset, BitVec.extractLsb'_toNat, Nat.shiftRight_zero]
  apply BitVec.eq_of_toNat_eq
  rw [BitVec.toNat_append, ← Nat.shiftLeft_add_eq_or_of_lt (pageOffset v).isLt, hoffset,
    frameOf_toNat, Nat.shiftLeft_eq, BitVec.toNat_add, toNat_and_high, toNat_and_low]
  omega

/-! ### Tables through the directory -/

variable {m m' : Phys}

theorem load_table (h : SelfMapped cr3 m) (hp : present (m cr3 d) = true) (hk : k < 1024) :
    load cr3 m (tableWord d k) = some (m (frameOf (m cr3 d)) (BitVec.ofNat 10 k)) := by
  obtain ⟨hdir, htable, hword⟩ := fields_tableWord (d := d) hk
  rw [load_self h hdir htable hp]
  congr 2
  apply BitVec.eq_of_toNat_eq
  rw [hword, BitVec.toNat_ofNat]
  omega

theorem store_table (h : SelfMapped cr3 m) (hp : present (m cr3 d) = true) (hk : k < 1024)
    (w : Word) : store cr3 m (tableWord d k) w =
      some (setWord m (frameOf (m cr3 d)) (BitVec.ofNat 10 k) w) := by
  obtain ⟨hdir, htable, hword⟩ := fields_tableWord (d := d) hk
  rw [store_self h hdir htable hp]
  congr 2
  apply BitVec.eq_of_toNat_eq
  rw [hword, BitVec.toNat_ofNat]
  omega

theorem ofNat_toNat (i : Index) : BitVec.ofNat 10 i.toNat = i := by
  apply BitVec.eq_of_toNat_eq
  rw [BitVec.toNat_ofNat]
  exact Nat.mod_eq_of_lt i.isLt

theorem load_pde (h : SelfMapped cr3 m) (v : Word) :
    load cr3 m (pdePtr v) = some (m cr3 (dirIndex v)) := by
  rw [pdePtr_eq, load_table h h.1 (dirIndex v).isLt, h.2, ofNat_toNat]

theorem store_pde (h : SelfMapped cr3 m) (v w : Word) :
    store cr3 m (pdePtr v) w = some (setWord m cr3 (dirIndex v) w) := by
  rw [pdePtr_eq, store_table h h.1 (dirIndex v).isLt, h.2, ofNat_toNat]

theorem load_pte (h : SelfMapped cr3 m) (hp : present (m cr3 (dirIndex v)) = true) :
    load cr3 m (ptePtr v) = some (m (frameOf (m cr3 (dirIndex v))) (tableIndex v)) := by
  rw [ptePtr_eq, load_table h hp (tableIndex v).isLt, ofNat_toNat]

theorem store_pte (h : SelfMapped cr3 m) (hp : present (m cr3 (dirIndex v)) = true) (w : Word) :
    store cr3 m (ptePtr v) w =
      some (setWord m (frameOf (m cr3 (dirIndex v))) (tableIndex v) w) := by
  rw [ptePtr_eq, store_table h hp (tableIndex v).isLt, ofNat_toNat]

/-- The words of a frame from `k` on are zero, and nothing else has changed. -/
structure Cleared (f : Frame) (k : ℕ) (m m' : Phys) : Prop where
  zero : ∀ i : Index, k ≤ i.toNat → m' f i = 0
  below : ∀ i : Index, i.toNat < k → m' f i = m f i
  other : ∀ g i, g ≠ f → m' g i = m g i

/-- The loop writes through the entry it was given, and the entry stays as it is. -/
theorem memset_table : ∀ (words k : ℕ) {m : Phys}, k + words = 1024 → SelfMapped cr3 m →
    present (m cr3 d) = true → frameOf (m cr3 d) ≠ cr3 →
    ∃ m', memset cr3 words (tableWord d k) m = some m' ∧ Cleared (frameOf (m cr3 d)) k m m'
  | 0, k, m, hk, _, _, _ =>
    ⟨m, rfl, fun i hi => absurd i.isLt (by omega), fun _ _ => rfl, fun _ _ _ => rfl⟩
  | words + 1, k, m, hk, h, hp, hne => by
    have hnext : tableWord d k + 4 = tableWord d (k + 1) := by
      have hfour : (4 : Word) = BitVec.ofNat 32 4 := rfl
      rw [tableWord, tableWord, hfour, ← BitVec.ofNat_add]
      congr 1
      omega
    have hdir : ∀ i, setWord m (frameOf (m cr3 d)) (BitVec.ofNat 10 k) 0 cr3 i = m cr3 i :=
      fun i => setWord_other fun he => hne he.1.symm
    have hself : SelfMapped cr3 (setWord m (frameOf (m cr3 d)) (BitVec.ofNat 10 k) 0) := by
      rw [SelfMapped, hdir]
      exact h
    obtain ⟨m', hrun, hclear⟩ := memset_table words (k + 1) (by omega) hself
      (by rwa [hdir]) (by rwa [hdir])
    rw [hdir] at hclear
    refine ⟨m', ?_, fun i hi => ?_, fun i hi => ?_, fun g i hg => ?_⟩
    · rw [memset, store_table h hp (by omega), hnext]
      exact hrun
    · by_cases hik : i.toNat = k
      · rw [hclear.below i (by omega), ← hik, ofNat_toNat, setWord_self]
      · exact hclear.zero i (by omega)
    · rw [hclear.below i (by omega)]
      apply setWord_other
      rintro ⟨-, rfl⟩
      rw [BitVec.toNat_ofNat] at hi
      omega
    · rw [hclear.other g i hg, setWord_other fun he => hg he.1]

/-! ### The update -/

/-- No other entry of the directory leads to the frame. -/
def OnlyEntry (cr3 : Frame) (m : Phys) (d : Index) (f : Frame) : Prop :=
  ∀ j, j ≠ d → present (m cr3 j) = true → frameOf (m cr3 j) ≠ f

/-- What `page_table_add` expects. If the table of `v` is there, it is not the directory; if not,
`palloc` has a frame for it that no entry leads to, and the directory is the table of its last entry
only. -/
structure Ready (start : Word) (cr3 : Frame) (v p : Word) (s : State) : Prop where
  self : SelfMapped cr3 s.mem
  below : v.toNat < 0xffc00000
  aligned : p.toNat % 4096 = 0
  unmapped : translation cr3 s.mem v = none
  table : present (s.mem cr3 (dirIndex v)) = true → frameOf (s.mem cr3 (dirIndex v)) ≠ cr3
  room : present (s.mem cr3 (dirIndex v)) = false → OnlyEntry cr3 s.mem 1023 cr3 ∧
    ∃ s' f, palloc start s = some (s', f) ∧ OnlyEntry cr3 s.mem (dirIndex v) (frameOf f)

/-- The page of an address. -/
def samePage (v w : Word) : Prop := v.toNat / 4096 = w.toNat / 4096

/-- Another entry of the directory leads to the table of `v`, and through it `w` has the entry of
`v`. -/
structure Alias (cr3 : Frame) (m : Phys) (v w : Word) : Prop where
  elsewhere : dirIndex w ≠ dirIndex v
  table : present (m cr3 (dirIndex v)) = true
  shared : present (m cr3 (dirIndex w)) = true
  frame : frameOf (m cr3 (dirIndex w)) = frameOf (m cr3 (dirIndex v))
  index : tableIndex w = tableIndex v

/-- The page of `v` leads to `p`, for the hardware and for `addr_v2p`. So do the pages that share its
entry, and no other page has changed. -/
structure Added (cr3 : Frame) (v p : Word) (m m' : Phys) : Prop where
  translated : translation cr3 m' v = some (p + (v &&& 0x00000fff))
  lookup : addrV2p cr3 m' v = some (p + (v &&& 0x00000fff))
  shared : ∀ w, Alias cr3 m v w → translation cr3 m' w = some (p + (w &&& 0x00000fff))
  others : ∀ w : Word, w.toNat < 0xffc00000 → ¬samePage v w → ¬Alias cr3 m v w →
    translation cr3 m' w = translation cr3 m w

theorem dirIndex_ne (hv : v.toNat < 0xffc00000) : dirIndex v ≠ 1023 := by
  intro he
  have := congrArg BitVec.toNat he
  rw [dirIndex_toNat] at this
  change v.toNat / 2 ^ 22 = 1023 at this
  omega

theorem samePage_of_indices {w : Word} (hd : dirIndex w = dirIndex v)
    (ht : tableIndex w = tableIndex v) : samePage v w := by
  have hd := congrArg BitVec.toNat hd
  have ht := congrArg BitVec.toNat ht
  rw [dirIndex_toNat, dirIndex_toNat] at hd
  rw [tableIndex_toNat, tableIndex_toNat] at ht
  rw [samePage]
  omega

/-- The last store, into a table that is not the directory. -/
theorem added_of_store (h : SelfMapped cr3 m) (hp : present (m cr3 (dirIndex v)) = true)
    (haligned : p.toNat % 4096 = 0) (htab : frameOf (m cr3 (dirIndex v)) ≠ cr3) :
    Added cr3 v p m (setWord m (frameOf (m cr3 (dirIndex v))) (tableIndex v) (p ||| flags)) := by
  have hne : cr3 ≠ frameOf (m cr3 (dirIndex v)) := htab.symm
  have hdir : ∀ i, setWord m (frameOf (m cr3 (dirIndex v))) (tableIndex v) (p ||| flags) cr3 i =
      m cr3 i := fun i => setWord_other fun he => hne he.1
  have hself : SelfMapped cr3
      (setWord m (frameOf (m cr3 (dirIndex v))) (tableIndex v) (p ||| flags)) := by
    rw [SelfMapped, hdir]
    exact h
  have hresult : ∀ w, frameOf (p ||| flags) ++ pageOffset w = p + (w &&& 0x00000fff) := by
    intro w
    have hframe : p &&& 0xfffff000 = p := by
      apply BitVec.eq_of_toNat_eq
      rw [toNat_and_high]
      omega
    rw [frameOf_flags, ← frame_append, hframe]
  -- every entry that leads to the table shows the new one
  have hwalk : ∀ w, present (m cr3 (dirIndex w)) = true →
      frameOf (m cr3 (dirIndex w)) = frameOf (m cr3 (dirIndex v)) → tableIndex w = tableIndex v →
      translation cr3 (setWord m (frameOf (m cr3 (dirIndex v))) (tableIndex v) (p ||| flags)) w =
        some (p + (w &&& 0x00000fff)) := by
    intro w hpw hframe htable
    have hdirectory : present (setWord m (frameOf (m cr3 (dirIndex v))) (tableIndex v)
        (p ||| flags) cr3 (dirIndex w)) = true := by rwa [hdir]
    rw [translation, walk_present hdirectory, hdir, hframe, htable, setWord_self, Option.map_some,
      hresult]
    rw [hdir, hframe, htable, setWord_self]
    exact present_flags p
  constructor
  · exact hwalk v hp rfl rfl
  · rw [addrV2p, load_pte hself (by rwa [hdir]), hdir, setWord_self, Option.map_some, frame_append,
      hresult]
  · exact fun w hw => hwalk w hw.shared hw.frame hw.index
  · intro w _ hpage halias
    rw [translation, translation]
    congr 1
    apply walk_congr (hdir _)
    intro hpw
    apply setWord_other
    rintro ⟨hframe, htable⟩
    by_cases hd : dirIndex w = dirIndex v
    · exact hpage (samePage_of_indices hd htable)
    · exact halias ⟨hd, hp, hpw, hframe, htable⟩

theorem palloc_mem {start w : Word} {s' : State} (h : palloc start s = some (s', w)) :
    s'.mem = s.mem := by
  rw [palloc] at h
  cases hscan : bitmapScan s.kernelPool 1 with
  | none =>
    rw [hscan] at h
    cases h
  | some found =>
    rw [hscan] at h
    cases found <;> cases h <;> rfl

/-- The entry of an address that is not mapped, in a table that is there. -/
theorem not_present_of_unmapped (hp : present (m cr3 (dirIndex v)) = true)
    (h : translation cr3 m v = none) :
    present (m (frameOf (m cr3 (dirIndex v))) (tableIndex v)) = false := by
  rw [Bool.eq_false_iff]
  intro hentry
  rw [translation, walk_present hp hentry] at h
  cases h

theorem run_present {start : Word} (h : Ready start cr3 v p s)
    (hp : present (s.mem cr3 (dirIndex v)) = true) :
    pageTableAdd start cr3 v p s = some { s with
      mem := setWord s.mem (frameOf (s.mem cr3 (dirIndex v))) (tableIndex v) (p ||| flags) } := by
  have hentry : s.mem cr3 (dirIndex v) &&& 1 ≠ 0 := by
    rw [ne_eq, and_one, hp]
    decide
  have hold := (and_one _).mpr (not_present_of_unmapped hp h.unmapped)
  simp only [pageTableAdd, load_pde h.self, Option.bind_eq_bind, Option.bind_some, hentry,
    load_pte h.self hp, hold, store_pte h.self hp, assert_pos, ne_eq, not_false_eq_true, if_true]
  rfl

/-- From `m` to `m'` the entry `d` has got a table, with zeros, in the frame of `f`. -/
structure NewTable (cr3 : Frame) (d : Index) (f : Word) (m m' : Phys) : Prop where
  entry : m' cr3 d = f ||| flags
  directory : ∀ i, i ≠ d → m' cr3 i = m cr3 i
  table : ∀ i, m' (frameOf f) i = 0
  other : ∀ g i, g ≠ cr3 → g ≠ frameOf f → m' g i = m g i

variable {t : Word}

/-- The entry is stored before `memset`, which finds the new table through it. -/
theorem memset_new (h : SelfMapped cr3 m) (hv : v.toNat < 0xffc00000) (hne : frameOf t ≠ cr3) :
    ∃ m', memset cr3 1024 (ptePtr v &&& 0xfffff000)
        (setWord m cr3 (dirIndex v) (t ||| flags)) = some m' ∧
      NewTable cr3 (dirIndex v) t m m' := by
  have hentry : setWord m cr3 (dirIndex v) (t ||| flags) cr3 (dirIndex v) = t ||| flags :=
    setWord_self
  have hdir : ∀ i, i ≠ dirIndex v →
      setWord m cr3 (dirIndex v) (t ||| flags) cr3 i = m cr3 i :=
    fun i hi => setWord_other fun he => hi he.2
  have hself : SelfMapped cr3 (setWord m cr3 (dirIndex v) (t ||| flags)) := by
    rw [SelfMapped, hdir 1023 (dirIndex_ne hv).symm]
    exact h
  have hframe : frameOf (setWord m cr3 (dirIndex v) (t ||| flags) cr3 (dirIndex v)) =
      frameOf t := by
    rw [hentry, frameOf_flags]
  have hrun := memset_table 1024 0 rfl hself (by rw [hentry]; exact present_flags t)
    (by rwa [hframe])
  rw [hframe] at hrun
  obtain ⟨m', hrun, hclear⟩ := hrun
  refine ⟨m', ?_, ?_, ?_, ?_, ?_⟩
  · rw [ptePtr_and_high]
    exact hrun
  · rw [hclear.other _ _ hne.symm, hentry]
  · intro i hi
    rw [hclear.other _ _ hne.symm, hdir i hi]
  · intro i
    exact hclear.zero i (Nat.zero_le _)
  · intro g i hg hgt
    rw [hclear.other g i hgt]
    exact setWord_other fun he => hg he.1

namespace NewTable

variable (hn : NewTable cr3 d t m m')

include hn

theorem selfMapped (h : SelfMapped cr3 m) (hd : d ≠ 1023) : SelfMapped cr3 m' := by
  rw [SelfMapped, hn.directory 1023 hd.symm]
  exact h

theorem frameOf_entry : frameOf (m' cr3 d) = frameOf t := by
  rw [hn.entry, frameOf_flags]

theorem present_entry : present (m' cr3 d) = true := by
  rw [hn.entry]
  exact present_flags t

/-- The pages of the new table are as unmapped as they were, and a walk through another entry meets
neither the table nor the directory. -/
theorem translation_eq (habsent : present (m cr3 d) = false) (hlast : OnlyEntry cr3 m 1023 cr3)
    (honly : OnlyEntry cr3 m d (frameOf t)) {w : Word} (hw : dirIndex w ≠ 1023) :
    translation cr3 m' w = translation cr3 m w := by
  rw [translation, translation]
  congr 1
  by_cases hd : dirIndex w = d
  · have hzero : present 0 = false := rfl
    rw [walk, walk, hd]
    simp only [hn.present_entry, hn.frameOf_entry, hn.table, habsent, hzero, if_true,
      Bool.false_eq_true, if_false]
  · apply walk_congr (hn.directory _ hd)
    intro hp
    exact hn.other _ _ (hlast _ hw hp) (honly _ hd hp)

end NewTable

theorem run_absent {start : Word} {s' : State} (h : SelfMapped cr3 s.mem)
    (hv : v.toNat < 0xffc00000) (hp : present (s.mem cr3 (dirIndex v)) = false)
    (hroom : palloc start s = some (s', t)) (hne : frameOf t ≠ cr3) :
    ∃ m', NewTable cr3 (dirIndex v) t s.mem m' ∧ pageTableAdd start cr3 v p s = some { s' with
      mem := setWord m' (frameOf t) (tableIndex v) (p ||| flags) } := by
  obtain ⟨m', hclear, hn⟩ := memset_new h hv hne
  have hself := hn.selfMapped h (dirIndex_ne hv)
  have hentry : s.mem cr3 (dirIndex v) &&& 1 = 0 := (and_one _).mpr hp
  have hold : (0 : Word) &&& 1 = 0 := rfl
  have hmem := palloc_mem hroom
  refine ⟨m', hn, ?_⟩
  simp only [pageTableAdd, load_pde h, Option.bind_eq_bind, Option.bind_some, hentry, hroom, hmem,
    store_pde h, hclear, load_pte hself hn.present_entry, store_pte hself hn.present_entry,
    hn.frameOf_entry, hn.table, hold, assert_pos, ne_eq, not_true_eq_false, if_false]
  rfl

/-- A second entry that leads to the directory shows the new table as one of its pages. -/
theorem directory_page_mapped {start : Word} {s' : State} {j : Index} (h : SelfMapped cr3 s.mem)
    (hv : v.toNat < 0xffc00000) (hp : present (s.mem cr3 (dirIndex v)) = false)
    (hroom : palloc start s = some (s', t)) (hne : frameOf t ≠ cr3) (hj : j ≠ dirIndex v)
    (hpj : present (s.mem cr3 j) = true) (hfj : frameOf (s.mem cr3 j) = cr3) :
    walk cr3 s.mem j (dirIndex v) = none ∧ ∃ s'', pageTableAdd start cr3 v p s = some s'' ∧
      walk cr3 s''.mem j (dirIndex v) = some (frameOf t) := by
  obtain ⟨m', hn, hrun⟩ := run_absent (p := p) h hv hp hroom hne
  have hdir : ∀ i, setWord m' (frameOf t) (tableIndex v) (p ||| flags) cr3 i = m' cr3 i :=
    fun i => setWord_other fun he => hne he.1.symm
  refine ⟨?_, _, hrun, ?_⟩
  · rw [walk]
    simp only [hpj, hfj, hp, if_true, Bool.false_eq_true, if_false]
  · rw [walk]
    simp only [hdir, hn.directory j hj, hpj, hfj, hn.present_entry, hn.frameOf_entry, if_true]

/-- Also when the table is new: no entry shares it then. -/
theorem page_table_add_ready {start : Word} (h : Ready start cr3 v p s) :
    ∃ s', pageTableAdd start cr3 v p s = some s' ∧ Added cr3 v p s.mem s'.mem := by
  have hd := dirIndex_ne h.below
  cases hp : present (s.mem cr3 (dirIndex v)) with
  | true => exact ⟨_, run_present h hp, added_of_store h.self hp h.aligned (h.table hp)⟩
  | false =>
    obtain ⟨hlast, s', f, hroom, honly⟩ := h.room hp
    have hne : frameOf f ≠ cr3 := by
      have := honly 1023 hd.symm h.self.1
      rw [h.self.2] at this
      exact this.symm
    obtain ⟨m', hn, hrun⟩ := run_absent (p := p) h.self h.below hp hroom hne
    have hadded := added_of_store (hn.selfMapped h.self hd) hn.present_entry h.aligned
      (by rw [hn.frameOf_entry]; exact hne)
    rw [hn.frameOf_entry] at hadded
    refine ⟨_, hrun, hadded.translated, hadded.lookup, ?_, ?_⟩
    · intro w hw
      rw [hw.table] at hp
      cases hp
    · intro w hw hpage _
      rw [hadded.others w hw hpage]
      · exact hn.translation_eq hp hlast honly (dirIndex_ne hw)
      · intro halias
        have hframe := halias.frame
        have hshared := halias.shared
        rw [hn.frameOf_entry, hn.directory _ halias.elsewhere] at hframe
        rw [hn.directory _ halias.elsewhere] at hshared
        exact honly _ halias.elsewhere hshared hframe

/-! ### The directory of the loader -/

/-- `setup_page` of `boot/loader.s`: the table of the first megabyte stands in entry 0 and, for the
kernel, in entry 768 too. -/
def setupPage : Phys := fun f i =>
  if f = 0x100 then
    if i = 0 ∨ i = 768 then 0x101007
    else if i = 1023 then 0x100007
    else if 769 ≤ i.toNat then BitVec.ofNat 32 (0x102007 + (i.toNat - 769) * 4096)
    else 0
  else if f = 0x101 ∧ i.toNat < 256 then BitVec.ofNat 32 (i.toNat * 4096 + 7)
  else 0

def freshPool : Bitmap := ⟨1, fun _ => 0⟩

/-- The first page of a user program gets a table of its own. -/
theorem page_table_add_ready_user :
    ∃ s', pageTableAdd 0x200000 0x100 0x08048000 0x300000 ⟨setupPage, freshPool⟩ = some s' ∧
      Added 0x100 0x08048000 0x300000 setupPage s'.mem :=
  page_table_add_ready
    { self := ⟨by decide, by decide⟩
      below := by decide
      aligned := by decide
      unmapped := by decide
      table := fun h => absurd h (by decide)
      room := fun _ => ⟨by unfold OnlyEntry; decide +kernel, _, _, rfl,
        by unfold OnlyEntry; decide +kernel⟩ }

/-- A page of the kernel's first table appears below as well. -/
theorem boot_table_shared :
    SelfMapped 0x100 setupPage ∧ (0xc0100000 : Word).toNat < 0xffc00000 ∧
      (0x300000 : Word).toNat % 4096 = 0 ∧ translation 0x100 setupPage 0xc0100000 = none ∧
      ¬∃ s', pageTableAdd 0x200000 0x100 0xc0100000 0x300000 ⟨setupPage, freshPool⟩ = some s' ∧
        ∀ w : Word, w.toNat < 0xffc00000 → ¬samePage 0xc0100000 w →
          translation 0x100 s'.mem w = translation 0x100 setupPage w := by
  refine ⟨⟨by decide, by decide⟩, by decide, by decide, by decide, ?_⟩
  rintro ⟨s', hrun, hothers⟩
  have hmapped : (pageTableAdd 0x200000 0x100 0xc0100000 0x300000
      ⟨setupPage, freshPool⟩).bind (fun s => translation 0x100 s.mem 0x00100000) =
      some 0x300000 := by decide
  have hbefore : translation 0x100 setupPage 0x00100000 = none := by decide
  rw [hrun, Option.bind_some, hothers _ (by decide) (by rw [samePage]; decide), hbefore]
    at hmapped
  cases hmapped

end PageTables
