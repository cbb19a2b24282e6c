import XianweiOS.FsDirectoryDelete
import XianweiOS.SlotTable

/-! The entries of a directory as a table of slots: lookup, insertion and deletion against
that table. Names may repeat in it, numbers may not. -/
namespace FsDirectoryTable

open ByteStore HaltingProgram KernelBitmap DeviceIde FsVolume FsInodeTable FsBlockMap FsOwnership
  FsFreeBlocks FsDirectory FsDirectorySlots FsDirectoryDelete SlotTable

variable {part : Partition}

/-- The record of a slot in use: its name, inode number and type. -/
def entryOf (m : Bytes) : Option (List Byte × ℕ × ℕ) :=
  if word m 20 = 0 then none else some (cstr m 0 16, word m 16, word m 20)

def dirTable (d : Bytes) (r : ℕ → ℕ) : Table (ℕ × ℕ) (List Byte) (ℕ × ℕ) := fun s =>
  if s.1 < 140 ∧ s.2 < 21 then entryOf (rawSlot d r s.1 s.2) else none

abbrev DirTable := Table (ℕ × ℕ) (List Byte) (ℕ × ℕ)

/-- One to fifteen characters. -/
structure ValidName (name : List Byte) : Prop where
  nonempty : name ≠ []
  short : name.length < 16
  string : (0 : Byte) ∉ name

/-- The entries of the directory are those of the table; `.` and `..` come first. -/
structure DirSlots (v : Volume part) (ino : Inode) (tab : DirTable) : Prop where
  owns : Owns v (ref v.disk ino)
  onDisk : OnDisk (ref v.disk ino)
  table : dirTable v.disk (ref v.disk ino) = tab
  size : ino.iSize = 24 * live tab
  clean : ∀ p < 140, ∀ i < 21, ¬IsLive (rawSlot v.disk (ref v.disk ino) p i) →
    rawSlot v.disk (ref v.disk ino) p i = zeroes
  names : ∀ s k x, tab s = some (k, x) → ValidName k
  self : ∃ x, tab (0, 0) = some (dot, x)
  parent : ∃ x, tab (0, 1) = some (dotdot, x)
  dots : ∀ s x, tab s = some (dot, x) → s = (0, 0)
  dotdots : ∀ s x, tab s = some (dotdot, x) → s = (0, 1)
  numbers : ∀ s s' k k' n x y, tab s = some (k, n, x) → tab s' = some (k', n, y) →
    k ≠ dot → k ≠ dotdot → k' ≠ dot → k' ≠ dotdot → s = s'

theorem cstr_congr {m m' : Bytes} : ∀ (n : ℕ) {a b : ℕ}, (∀ k < n, m (a + k) = m' (b + k)) →
    cstr m a n = cstr m' b n := by
  intro n
  induction n with
  | zero =>
    intro a b _
    rfl
  | succ n ih =>
    intro a b h
    have h0 : m a = m' b := h 0 (by omega)
    have hrest := ih (a := a + 1) (b := b + 1) fun k hk => by
      have := h (k + 1) (by omega)
      rwa [show a + (k + 1) = a + 1 + k by omega, show b + (k + 1) = b + 1 + k by omega] at this
    simp only [cstr, h0, hrest]

/-- A string that ends within `n` bytes is compared as a whole. -/
theorem strcmp_iff {m : Bytes} : ∀ (name : List Byte) (n a : ℕ), (0 : Byte) ∉ name →
    (cstr m a n).length < n → (strcmp name m a = true ↔ name = cstr m a n) := by
  intro name
  induction name with
  | nil =>
    intro n a _ hlen
    cases n with
    | zero => omega
    | succ n =>
      simp only [strcmp, cstr, beq_iff_eq]
      by_cases hz : m a = 0
      · rw [if_pos hz]
        exact iff_of_true hz rfl
      · rw [if_neg hz]
        exact iff_of_false hz (by simp)
  | cons c name ih =>
    intro n a hc hlen
    cases n with
    | zero => omega
    | succ n =>
      have hc0 : c ≠ 0 := fun h => hc (by simp [h])
      have hrest : (0 : Byte) ∉ name := fun h => hc (List.mem_cons_of_mem _ h)
      simp only [strcmp, Bool.and_eq_true, beq_iff_eq]
      by_cases hz : m a = 0
      · simp only [cstr, if_pos hz, reduceCtorEq, iff_false]
        rintro ⟨he, -⟩
        exact hc0 (he.trans hz)
      · rw [cstr, if_neg hz, List.length_cons] at hlen
        rw [cstr, if_neg hz, List.cons.injEq, ih n (a + 1) hrest (by omega)]

/-- Reading back a name that was stored with room for its end. -/
theorem cstr_of_getD {m : Bytes} : ∀ (l : List Byte) (n a : ℕ), (0 : Byte) ∉ l → l.length < n →
    (∀ k < n, m (a + k) = l.getD k 0) → cstr m a n = l := by
  intro l
  induction l with
  | nil =>
    intro n a _ hlen h
    cases n with
    | zero => omega
    | succ n =>
      have h0 : m a = 0 := h 0 (by omega)
      simp [cstr, h0]
  | cons c l ih =>
    intro n a hc hlen h
    cases n with
    | zero => omega
    | succ n =>
      have h0 : m a = c := h 0 (by omega)
      have hc0 : c ≠ 0 := fun he => hc (by simp [he])
      rw [cstr, h0, if_neg hc0, ih n (a + 1) (fun hl => hc (List.mem_cons_of_mem _ hl))
        (by simp only [List.length_cons] at hlen; omega)]
      intro k hk
      have := h (k + 1) (by omega)
      rwa [show a + (k + 1) = a + 1 + k by omega, List.getD_cons_succ] at this

theorem entryOf_toBytes {e : DirEntry} (hn : ValidName e.filename) (hi : e.iNo < 2 ^ 32)
    (ht : 0 < e.fType) (ht' : e.fType < 2 ^ 32) :
    entryOf (clip e.toBytes) = some (e.filename, e.iNo, e.fType) := by
  have hword : ∀ w, 4 ≤ w → w < 6 → word (clip e.toBytes) (4 * w) =
      (if w = 4 then e.iNo else e.fType) := by
    intro w h1 h2
    have := word_ofWords_of_lt (w := fun w => if w = 4 then e.iNo else e.fType) (k := w)
      (by split <;> omega)
    rw [← this]
    apply word_congr
    intro j hj
    simp only [clip, DirEntry.toBytes, if_pos (show 4 * w + j < 24 by omega),
      if_neg (show ¬4 * w + j < 16 by omega)]
  have h16 := hword 4 (by omega) (by omega)
  have h20 := hword 5 (by omega) (by omega)
  simp only [Nat.reduceMul, ↓reduceIte, Nat.reduceEqDiff] at h16 h20
  rw [entryOf, h16, h20, if_neg (by omega), cstr_of_getD e.filename 16 0 hn.string hn.short]
  intro k hk
  simp only [clip, DirEntry.toBytes, Nat.zero_add, if_pos hk, if_pos (show k < 24 by omega)]

theorem entryOf_zeroes : entryOf (clip zeroes) = none := by
  rw [clip_zeroes, entryOf, word_zeroes, if_pos rfl]

/-- Setting one slot of the directory sets one slot of its table. -/
theorem dirTable_setSlot {d d' : Bytes} {r r' : ℕ → ℕ} {p i : ℕ} {m : Bytes} (hp : p < 140)
    (hi : i < 21) (h : SetSlot d r d' r' p i m) :
    dirTable d' r' = Function.update (dirTable d r) (p, i) (entryOf (clip m)) := by
  funext s
  obtain ⟨q, j⟩ := s
  by_cases hs : (q, j) = (p, i)
  · obtain ⟨rfl, rfl⟩ := Prod.mk.inj hs
    rw [Function.update_self, dirTable]
    simp only [hp, hi, and_self, ↓reduceIte]
    rw [h q hp j hi, if_pos ⟨rfl, rfl⟩]
  · rw [Function.update_of_ne hs]
    simp only [dirTable]
    by_cases hin : q < 140 ∧ j < 21
    · have hne : ¬(q = p ∧ j = i) := fun he => hs (by rw [he.1, he.2])
      rw [if_pos hin, if_pos hin, h q hin.1 j hin.2, if_neg hne]
    · rw [if_neg hin, if_neg hin]

theorem dirTable_live {d : Bytes} {r : ℕ → ℕ} {p i : ℕ} (hp : p < 140) (hi : i < 21)
    (hl : IsLive (rawSlot d r p i)) :
    dirTable d r (p, i) =
      some (cstr (rawSlot d r p i) 0 16, word (rawSlot d r p i) 16, word (rawSlot d r p i) 20) := by
  rw [dirTable, if_pos ⟨hp, hi⟩, entryOf, if_neg hl]

theorem dirTable_within (d : Bytes) (r : ℕ → ℕ) : Within (dirTable d r) 140 21 := by
  intro p i h
  by_contra hs
  exact h (if_neg hs)

private theorem searchSector_spec (io : Bytes) (name : List Byte) (left idx : ℕ) :
    (∀ e, searchSector io name left idx = some e →
      ∃ i, idx ≤ i ∧ i < idx + left ∧ strcmp name io (24 * i) = true ∧
        e = DirEntry.ofBytes io (24 * i)) ∧
    (searchSector io name left idx = none →
      ∀ i, idx ≤ i → i < idx + left → ¬strcmp name io (24 * i) = true) :=
  first_slot (P := fun i => strcmp name io (24 * i) = true)
    (g := fun i => DirEntry.ofBytes io (24 * i)) (f := searchSector io name) (fun _ => rfl)
    (fun _ _ => rfl) left idx

/-- The first matching entry, or none in any block. -/
private theorem searchBlocks_spec (d : Bytes) {r ab : ℕ → ℕ} (name : List Byte) (hon : OnDisk r)
    (hab : ∀ k < 140, ab k = r k) : ∀ (left idx : ℕ), left + idx = 140 →
    ∃ res, searchBlocks true d ab name left idx = some res ∧
      match res with
      | some e => ∃ p i, p < 140 ∧ i < 21 ∧ r p ≠ 0 ∧
          strcmp name (sectorBuf d (r p)) (24 * i) = true ∧
          e = DirEntry.ofBytes (sectorBuf d (r p)) (24 * i)
      | none => ∀ p, idx ≤ p → p < 140 → ∀ i < 21, r p ≠ 0 →
          strcmp name (sectorBuf d (r p)) (24 * i) = false := by
  intro left
  induction left with
  | zero =>
    intro idx hlen
    exact ⟨none, rfl, fun p h1 h2 => by omega⟩
  | succ left ih =>
    intro idx hlen
    obtain ⟨res, hres, hspec⟩ := ih (idx + 1) (by omega)
    unfold searchBlocks
    rw [hab idx (by omega)]
    by_cases hz : r idx = 0
    · rw [if_pos hz]
      refine ⟨res, hres, ?_⟩
      cases res with
      | some e => exact hspec
      | none =>
        intro p h1 h2 i hi hne
        have hpi : p ≠ idx := by
          rintro rfl
          exact hne hz
        exact hspec p (by omega) h2 i hi hne
    · have hlba := hon idx (by omega)
      rw [if_neg hz, ideRead_eq (by omega) (by omega), Option.bind_eq_bind, Option.bind_some,
        assert_pos rfl, Option.bind_eq_bind, Option.bind_some]
      have hsec := searchSector_spec (sectorBuf d (r idx)) name dirEntrysPerSec 0
      have h21 : dirEntrysPerSec = 21 := rfl
      unfold sectorBuf at hsec
      cases hf : searchSector (patch zeroes 0 (512 * 1) (window d (512 * r idx))) name
          dirEntrysPerSec 0 with
      | some e =>
        obtain ⟨i, -, hi, hcmp, he⟩ := hsec.1 e hf
        exact ⟨some e, rfl, idx, i, by omega, by omega, hz, hcmp, he⟩
      | none =>
        refine ⟨res, hres, ?_⟩
        cases res with
        | some e => exact hspec
        | none =>
          intro p h1 h2 i hi hne
          by_cases hpi : p = idx
          · subst p
            exact Bool.eq_false_of_not_eq_true (hsec.2 hf i (by omega) (by omega))
          · exact hspec p (by omega) h2 i hi hne

section Lookup

variable {v : Volume part} {ino : Inode} {tab : DirTable}

theorem DirSlots.live_slot (h : DirSlots v ino tab) {p i : ℕ} (hp : p < 140) (hi : i < 21)
    (hl : IsLive (rawSlot v.disk (ref v.disk ino) p i)) :
    tab (p, i) = some (cstr (rawSlot v.disk (ref v.disk ino) p i) 0 16,
      word (rawSlot v.disk (ref v.disk ino) p i) 16,
      word (rawSlot v.disk (ref v.disk ino) p i) 20) := by
  rw [← h.table]
  exact dirTable_live hp hi hl

theorem DirSlots.within (h : DirSlots v ino tab) : Within tab 140 21 := by
  rw [← h.table]
  exact dirTable_within _ _

/-- Every slot of a block that is there ends its name in time, used or not. -/
private theorem slot_name (h : DirSlots v ino tab) {p i : ℕ} (hp : p < 140) (hi : i < 21) :
    (cstr (rawSlot v.disk (ref v.disk ino) p i) 0 16).length < 16 := by
  by_cases hl : IsLive (rawSlot v.disk (ref v.disk ino) p i)
  · exact (h.names _ _ _ (h.live_slot hp hi hl)).short
  · rw [h.clean p hp i hi hl]
    simp [cstr, zeroes]

/-- A slot in use answers to its name. -/
theorem strcmp_slot (h : DirSlots v ino tab) {p i : ℕ} (hp : p < 140) (hi : i < 21)
    {l : List Byte} (hn : (0 : Byte) ∉ l) :
    strcmp l (rawSlot v.disk (ref v.disk ino) p i) 0 = true ↔
      l = cstr (rawSlot v.disk (ref v.disk ino) p i) 0 16 :=
  strcmp_iff l 16 0 hn (slot_name h hp hi)

theorem cstr_sectorBuf {d : Bytes} {r : ℕ → ℕ} {p i : ℕ} (hz : r p ≠ 0) (hi : i < 21) :
    cstr (sectorBuf d (r p)) (24 * i) 16 = cstr (rawSlot d r p i) 0 16 := by
  apply cstr_congr
  intro k hk
  rw [sectorBuf, patch_in (by omega), rawSlot_present hz]
  simp only [clip, window, Nat.zero_add, if_pos (show k < 24 by omega)]
  congr 1
  omega

/-- A lookup returns an entry of that name, or there is none. -/
theorem DirSlots.search (h : DirSlots v ino tab) {name : List Byte} (hne : name ≠ [])
    (hn : (0 : Byte) ∉ name) :
    ∃ res, searchDirEntry true true v.disk ino name = some res ∧
      match res with
      | some e => e.filename = name ∧ ∃ s, tab s = some (name, e.iNo, e.fType)
      | none => ∀ s x, tab s ≠ some (name, x) := by
  have htab : ino.iSectors 12 ≤ maxLba := by
    rw [← ref_table v.disk ino]
    exact h.onDisk 140 (by omega)
  obtain ⟨ab, hab⟩ := loadAllBlocks_exists v.disk htab
  obtain ⟨res, hres, hspec⟩ := searchBlocks_spec v.disk name h.onDisk
    (fun k hk => (loadAllBlocks_some hab hk).trans (ref_of_lt hk).symm) 140 0 rfl
  refine ⟨res, ?_, ?_⟩
  · rw [searchDirEntry, if_neg (by decide), hab, Option.bind_eq_bind, Option.bind_some, hres]
  have hcmp : ∀ p < 140, ∀ i < 21, ref v.disk ino p ≠ 0 →
      (strcmp name (sectorBuf v.disk (ref v.disk ino p)) (24 * i) = true ↔
        name = cstr (rawSlot v.disk (ref v.disk ino) p i) 0 16) := by
    intro p hp i hi hz
    rw [← cstr_sectorBuf hz hi]
    exact strcmp_iff name 16 _ hn (by rw [cstr_sectorBuf hz hi]; exact slot_name h hp hi)
  cases res with
  | some e =>
    obtain ⟨p, i, hp, hi, hz, hc, rfl⟩ := hspec
    have hname := (hcmp p hp i hi hz).mp hc
    -- an empty slot has no name, so the slot is in use
    have hlive : IsLive (rawSlot v.disk (ref v.disk ino) p i) := by
      by_contra hd
      apply hne
      rw [hname, h.clean p hp i hi hd]
      simp [cstr, zeroes]
    have hslot := h.live_slot hp hi hlive
    rw [← hname] at hslot
    simp only [DirEntry.ofBytes]
    rw [cstr_sectorBuf hz hi, word_sectorBuf hz hi (by omega), word_sectorBuf hz hi (by omega)]
    exact ⟨hname.symm, (p, i), hslot⟩
  | none =>
    rintro ⟨p, i⟩ x ht
    obtain ⟨hp, hi⟩ := h.within p i (by rw [ht]; simp)
    rw [← h.table, dirTable, if_pos ⟨hp, hi⟩, entryOf] at ht
    split at ht
    · cases ht
    · rename_i hl
      have hz : ref v.disk ino p ≠ 0 := by
        intro h0
        rw [rawSlot_absent h0] at hl
        exact hl (word_zeroes 20)
      have hname := (Prod.mk.inj (Option.some.inj ht)).1
      have := hspec p (Nat.zero_le _) hp i hi hz
      rw [(hcmp p hp i hi hz).mpr hname.symm] at this
      cases this

end Lookup

/-- What may be put into a directory. -/
structure Placeable (tab : DirTable) (e : DirEntry) : Prop where
  name : ValidName e.filename
  not_dot : e.filename ≠ dot
  not_dotdot : e.filename ≠ dotdot
  number_lt : e.iNo < 2 ^ 32
  fresh : ∀ s k x, tab s = some (k, e.iNo, x) → k = dot ∨ k = dotdot
  type : e.fType = FileType.regular.code ∨ e.fType = FileType.directory.code

theorem placeable_entry {tab : DirTable} {e : DirEntry} (h : Placeable tab e) :
    entryOf (clip e.toBytes) = some (e.filename, e.iNo, e.fType) := by
  refine entryOf_toBytes h.name h.number_lt ?_ ?_ <;>
    rcases h.type with ht | ht <;> rw [ht] <;> decide

/-- A slot that is free in the table is free or absent in the directory. -/
theorem table_none {d : Bytes} {r : ℕ → ℕ} {p i : ℕ} (hw : word (rawSlot d r p i) 20 = 0) :
    dirTable d r (p, i) = none := by
  rw [dirTable]
  split
  · rw [entryOf, if_pos hw]
  · rfl

/-- Slots that are not in use are cleared, also after one of them has been written. -/
private theorem clean_setSlot {d d' : Bytes} {r r' : ℕ → ℕ} {p i : ℕ} {m : Bytes}
    (h : SetSlot d r d' r' p i m)
    (hc : ∀ q < 140, ∀ j < 21, ¬IsLive (rawSlot d r q j) → rawSlot d r q j = zeroes)
    (hm : ¬IsLive (clip m) → clip m = zeroes) :
    ∀ q < 140, ∀ j < 21, ¬IsLive (rawSlot d' r' q j) → rawSlot d' r' q j = zeroes := by
  intro q hq j hj
  rw [h q hq j hj]
  split
  · exact hm
  · exact hc q hq j hj

theorem DirSlots.insert {T : Prop} {v v' : Volume part} {ino ino' : Inode} {tab : DirTable}
    {e : DirEntry} (h : DirSlots v ino tab) (he : Placeable tab e) (hi : Inserted T v ino e v' ino') :
    ∃ s, tab s = none ∧
      DirSlots v' ino' (Function.update tab s (some (e.filename, e.iNo, e.fType))) := by
  obtain ⟨p, i, hp, hi21, hw, hset⟩ := hi.slot
  have hfree := table_none hw
  have htab := dirTable_setSlot hp hi21 hset
  rw [placeable_entry he, h.table] at htab
  rw [h.table] at hfree
  have hother : ∀ s x, tab s = some x →
      Function.update tab (p, i) (some (e.filename, e.iNo, e.fType)) s = some x := by
    intro s x hs
    rw [Function.update_of_ne, hs]
    rintro rfl
    rw [hfree] at hs
    cases hs
  have hcase : ∀ s k x, Function.update tab (p, i) (some (e.filename, e.iNo, e.fType)) s =
      some (k, x) → (s = (p, i) ∧ k = e.filename ∧ x = (e.iNo, e.fType)) ∨ tab s = some (k, x) := by
    intro s k x hs
    by_cases hsp : s = (p, i)
    · subst s
      rw [Function.update_self] at hs
      obtain ⟨rfl, rfl⟩ := Prod.mk.inj (Option.some.inj hs)
      exact Or.inl ⟨rfl, rfl, rfl⟩
    · rw [Function.update_of_ne hsp] at hs
      exact Or.inr hs
  refine ⟨(p, i), hfree, hi.rewrites.owns, hi.onDisk h.onDisk, htab, ?_, ?_, ?_, ?_, ?_, ?_, ?_, ?_⟩
  · have hsz := hi.head.size
    have hle := h.within.live_le
    rw [live_put h.within.finite hfree]
    simp only [grow, dirEntrySize, h.size] at hsz
    omega
  · refine clean_setSlot hset h.clean fun hd => ?_
    exfalso
    have := placeable_entry he
    rw [entryOf, if_pos (by simpa [IsLive] using hd)] at this
    cases this
  · intro s k x hs
    rcases hcase s k x hs with ⟨-, rfl, -⟩ | hold
    · exact he.name
    · exact h.names s k x hold
  · obtain ⟨x, hx⟩ := h.self
    exact ⟨x, hother _ _ hx⟩
  · obtain ⟨x, hx⟩ := h.parent
    exact ⟨x, hother _ _ hx⟩
  · intro s x hs
    rcases hcase s _ x hs with ⟨-, hk, -⟩ | hold
    · exact absurd hk.symm he.not_dot
    · exact h.dots s x hold
  · intro s x hs
    rcases hcase s _ x hs with ⟨-, hk, -⟩ | hold
    · exact absurd hk.symm he.not_dotdot
    · exact h.dotdots s x hold
  · intro s s' k k' n x y hs hs' hk1 hk2 hk1' hk2'
    rcases hcase s k _ hs with ⟨rfl, rfl, hx⟩ | hold
    · rcases hcase s' k' _ hs' with ⟨rfl, -, -⟩ | hold'
      · rfl
      · rw [(Prod.mk.inj hx).1] at hold'
        rcases he.fresh s' k' y hold' with hd | hd
        · exact absurd hd hk1'
        · exact absurd hd hk2'
    · rcases hcase s' k' _ hs' with ⟨rfl, rfl, hx⟩ | hold'
      · rw [(Prod.mk.inj hx).1] at hold
        rcases he.fresh s k x hold with hd | hd
        · exact absurd hd hk1
        · exact absurd hd hk2
      · exact h.numbers s s' k k' n x y hold hold' hk1 hk2 hk1' hk2'

/-- The slots depend on the blocks of the directory and its size. -/
theorem DirSlots.congr {v v' : Volume part} {ino ino' : Inode} {tab : DirTable}
    (h : DirSlots v ino tab) (ho : Owns v' (ref v'.disk ino')) (hon : OnDisk (ref v'.disk ino'))
    (hs : ino'.iSize = ino.iSize) (hraw : ∀ p < 140, ∀ i < 21,
      rawSlot v'.disk (ref v'.disk ino') p i = rawSlot v.disk (ref v.disk ino) p i) :
    DirSlots v' ino' tab := by
  have htab : dirTable v'.disk (ref v'.disk ino') = dirTable v.disk (ref v.disk ino) := by
    funext s
    simp only [dirTable]
    by_cases hin : s.1 < 140 ∧ s.2 < 21
    · rw [if_pos hin, if_pos hin, hraw _ hin.1 _ hin.2]
    · rw [if_neg hin, if_neg hin]
  refine ⟨ho, hon, htab.trans h.table, hs.trans h.size, ?_, h.names, h.self, h.parent, h.dots,
    h.dotdots, h.numbers⟩
  intro p hp i hi
  rw [hraw p hp i hi]
  exact h.clean p hp i hi

section Deletion

variable {v v' : Volume part} {ino ino' : Inode} {tab : DirTable} {n : ℕ}

/-- A slot in use that answers neither to `.` nor to `..` is a plain entry of the table. -/
theorem plain_iff (h : DirSlots v ino tab) {p i : ℕ} (hp : p < 140) (hi : i < 21) :
    Plain (rawSlot v.disk (ref v.disk ino) p i) ↔
      ∃ k x, tab (p, i) = some (k, x) ∧ k ≠ dot ∧ k ≠ dotdot := by
  have hdot := strcmp_slot h hp hi (l := dot) (by decide)
  have hdd := strcmp_slot h hp hi (l := dotdot) (by decide)
  constructor
  · intro hpl
    refine ⟨_, _, h.live_slot hp hi hpl.live, fun he => ?_, fun he => ?_⟩
    · have := hdot.mpr he.symm
      rw [hpl.not_dot] at this
      cases this
    · have := hdd.mpr he.symm
      rw [hpl.not_dotdot] at this
      cases this
  · rintro ⟨k, x, ht, hk1, hk2⟩
    rw [← h.table, dirTable, if_pos ⟨hp, hi⟩, entryOf] at ht
    split at ht
    · cases ht
    · rename_i hl
      obtain ⟨rfl, -⟩ := Prod.mk.inj (Option.some.inj ht)
      refine ⟨hl, ?_, ?_⟩
      · by_contra hc
        exact hk1 (hdot.mp (by simpa using hc)).symm
      · by_contra hc
        exact hk2 (hdd.mp (by simpa using hc)).symm

/-- `..` is the second entry of the first block, behind `.`. -/
theorem DirSlots.tidy (h : DirSlots v ino tab) : Tidy v.disk (ref v.disk ino) := by
  refine ⟨h.clean, fun p hp i hi hl hs => ?_⟩
  obtain ⟨y, hy⟩ := h.self
  have hname := (strcmp_slot h hp hi (by decide)).mp hs
  have ht := h.live_slot hp hi hl
  rw [← hname] at ht
  obtain ⟨rfl, rfl⟩ := Prod.mk.inj (h.dotdots _ _ ht)
  rw [← h.table, dirTable, if_pos ⟨hp, by omega⟩, entryOf] at hy
  split at hy
  · cases hy
  · rename_i hl0
    have hdot := (Prod.mk.inj (Option.some.inj hy)).1
    exact ⟨0, by omega, hl0, (strcmp_slot h hp (by omega) (by decide)).mpr hdot.symm⟩

theorem DirSlots.delete (h : DirSlots v ino tab) (hd : Deleted n v ino v' ino') :
    ∃ s k x, tab s = some (k, n, x) ∧ k ≠ dot ∧ k ≠ dotdot ∧
      DirSlots v' ino' (Function.update tab s none) := by
  obtain ⟨p, i, hp, hi, hpl, hno, hset⟩ := hd.slot
  have hset := hset h.tidy
  obtain ⟨k, ⟨n', x⟩, ht, hk1, hk2⟩ := (plain_iff h hp hi).mp hpl
  obtain rfl : n' = n := by
    rw [h.live_slot hp hi hpl.live] at ht
    have := (Prod.mk.inj (Prod.mk.inj (Option.some.inj ht)).2).1
    rw [← this, hno]
  have htab := dirTable_setSlot hp hi hset
  rw [entryOf_zeroes, h.table] at htab
  have hsub : ∀ s y, Function.update tab (p, i) none s = some y → tab s = some y := by
    intro s y hs
    by_cases hsp : s = (p, i)
    · subst s
      rw [Function.update_self] at hs
      cases hs
    · rwa [Function.update_of_ne hsp] at hs
  have hother : ∀ s k' y, tab s = some (k', y) → k' = dot ∨ k' = dotdot →
      Function.update tab (p, i) none s = some (k', y) := by
    intro s k' y hs hk
    rw [Function.update_of_ne, hs]
    rintro rfl
    rw [ht] at hs
    obtain ⟨rfl, -⟩ := Prod.mk.inj (Option.some.inj hs)
    rcases hk with hk | hk
    · exact hk1 hk
    · exact hk2 hk
  refine ⟨(p, i), k, x, ht, hk1, hk2, hd.rewrites.owns, hd.onDisk h.onDisk, htab, ?_, ?_, ?_, ?_, ?_,
    ?_, ?_, ?_⟩
  · have hsz := hd.head.size
    have hle := live_drop h.within.finite ht
    simp only [shrink, dirEntrySize, h.size] at hsz
    omega
  · exact clean_setSlot hset h.clean fun _ => clip_zeroes
  · exact fun s k' y hs => h.names s k' y (hsub s _ hs)
  · obtain ⟨y, hy⟩ := h.self
    exact ⟨y, hother _ _ _ hy (Or.inl rfl)⟩
  · obtain ⟨y, hy⟩ := h.parent
    exact ⟨y, hother _ _ _ hy (Or.inr rfl)⟩
  · exact fun s y hs => h.dots s y (hsub s _ hs)
  · exact fun s y hs => h.dotdots s y (hsub s _ hs)
  · intro s s' k1 k2 n1 x1 y1 hs hs'
    exact h.numbers s s' k1 k2 n1 x1 y1 (hsub s _ hs) (hsub s' _ hs')

/-- Writing an inode back touches no directory. -/
theorem DirSlots.synced (h : DirSlots v ino tab) {j : Inode} :
    DirSlots (syncedInode v j) ino tab := by
  have hc := changes_patch v.disk (slotAddr part (j.iNo % 256)) 76 j.pure.toBytes
  have hlow : ∀ a ∈ slot part (j.iNo % 256), a < 512 * part.sb.dataStartLba :=
    slot_below (n := j.iNo % 256) (by omega)
  have href : ∀ p < 141, ref (syncedInode v j).disk ino p = ref v.disk ino p :=
    fun p hp => h.owns.ref_eq hc hlow hp
  refine h.congr ((h.owns.withDisk _).congr href) (fun p hp => ?_) rfl (fun p hp i hi => ?_)
  · rw [href p hp]
    exact h.onDisk p hp
  · refine rawSlot_congr (href p (by omega)) hi fun hz a ha => hc a fun hin => ?_
    have := sector_inUse (h.owns.held p (by omega) hz) ha
    have := hlow a hin
    omega

/-- No plain entry has a number that the scan does not find. -/
theorem DirSlots.absent (h : DirSlots v ino tab) (hn : ∀ p < 140, ∀ i < 21,
    Plain (rawSlot v.disk (ref v.disk ino) p i) → word (rawSlot v.disk (ref v.disk ino) p i) 16 ≠ n)
    {s : ℕ × ℕ} {k : List Byte} {x : ℕ} (hs : tab s = some (k, n, x)) : k = dot ∨ k = dotdot := by
  obtain ⟨p, i⟩ := s
  obtain ⟨hp, hi⟩ := h.within p i (by rw [hs]; simp)
  by_contra hk
  rw [not_or] at hk
  have hpl := (plain_iff h hp hi).mpr ⟨_, _, hs, hk.1, hk.2⟩
  apply hn p hp i hi hpl
  rw [h.live_slot hp hi hpl.live] at hs
  exact (Prod.mk.inj (Prod.mk.inj (Option.some.inj hs)).2).1

end Deletion

end FsDirectoryTable
