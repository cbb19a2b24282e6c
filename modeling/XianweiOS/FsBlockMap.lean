import XianweiOS.FsInodeTable

/-! The block map of an inode: twelve direct blocks, an indirect table and the 128 blocks
it lists. The six functions of `fs/` that walk a file load the same `all_blocks` array
first; `loadAllBlocks` is that code. An inode refers to blocks at 141 places: places 0
to 139 are the entries of `all_blocks`, place 140 is the indirect table itself. -/
namespace FsBlockMap

open ByteStore HaltingProgram KernelBitmap DeviceIde FsVolume FsInodeTable

variable {part : Partition}

def loadAllBlocks (disk : Bytes) (inode : Inode) : Option (ℕ → ℕ) :=
  if inode.iSectors 12 ≠ 0 then do
    let table ← ideRead disk (inode.iSectors 12) zeroes 1
    return fun k => if k < 12 then inode.iSectors k else word table (4 * (k - 12))
  else return fun k => if k < 12 then inode.iSectors k else 0

/-- `all_blocks + 12` as the sector that is written to the disk. -/
def tableBytes (allBlocks : ℕ → ℕ) : Bytes := ofWords fun k => allBlocks (12 + k)

def blockMap (disk : Bytes) (inode : Inode) (k : ℕ) : ℕ :=
  if k < 12 then inode.iSectors k
  else if inode.iSectors 12 = 0 then 0
  else word disk (512 * inode.iSectors 12 + 4 * (k - 12))

/-- The block an inode refers to at place `p < 141`, 0 when there is none. -/
def ref (disk : Bytes) (inode : Inode) (p : ℕ) : ℕ :=
  if p < 140 then blockMap disk inode p else inode.iSectors 12

theorem loadAllBlocks_some {disk : Bytes} {inode : Inode} {f : ℕ → ℕ}
    (h : loadAllBlocks disk inode = some f) {k : ℕ} (hk : k < 140) :
    f k = blockMap disk inode k := by
  unfold loadAllBlocks at h
  split at h
  · rename_i ht
    obtain ⟨table, hr, h⟩ := bind_some_iff.mp h
    obtain ⟨rfl, -⟩ := ideRead_some hr
    obtain rfl := Option.some.inj h
    simp only [blockMap, if_neg ht]
    split
    · rfl
    · rw [word_patch_in (by omega), Nat.sub_zero, word_window]
  · rename_i ht
    obtain rfl := Option.some.inj h
    have ht : inode.iSectors 12 = 0 := by simpa using ht
    simp only [blockMap, ht, ↓reduceIte]

theorem loadAllBlocks_exists (disk : Bytes) {inode : Inode}
    (h : inode.iSectors 12 ≤ maxLba) : ∃ f, loadAllBlocks disk inode = some f := by
  unfold loadAllBlocks
  split
  · rw [ideRead_eq (by omega) (by omega)]
    exact ⟨_, rfl⟩
  · exact ⟨_, rfl⟩

theorem ref_of_lt {d : Bytes} {inode : Inode} {p : ℕ} (h : p < 140) :
    ref d inode p = blockMap d inode p := if_pos h

theorem ref_direct {d : Bytes} {inode : Inode} {p : ℕ} (h : p < 12) :
    ref d inode p = inode.iSectors p := by
  rw [ref_of_lt (by omega), blockMap, if_pos h]

@[simp] theorem ref_table (disk : Bytes) (inode : Inode) :
    ref disk inode 140 = inode.iSectors 12 := if_neg (by omega)

theorem ref_indirect {d : Bytes} {inode : Inode} {p : ℕ} (h : 12 ≤ p) (h' : p < 140) :
    ref d inode p = if inode.iSectors 12 = 0 then 0
      else word d (512 * inode.iSectors 12 + 4 * (p - 12)) := by
  rw [ref_of_lt h', blockMap, if_neg (by omega)]

/-- The map depends on the block pointers and on the sector of the table. -/
theorem ref_congr {d d' : Bytes} {i j : Inode} (hs : ∀ k < 13, i.iSectors k = j.iSectors k)
    (ht : j.iSectors 12 ≠ 0 → ∀ a ∈ sector (j.iSectors 12), d a = d' a) {p : ℕ} (hp : p < 141) :
    ref d i p = ref d' j p := by
  by_cases h12 : p < 12
  · rw [ref_direct h12, ref_direct h12, hs p (by omega)]
  by_cases h140 : p < 140
  · rw [ref_indirect (by omega) h140, ref_indirect (by omega) h140, hs 12 (by omega)]
    split
    · rfl
    · rename_i hz
      apply word_congr
      intro k hk
      apply ht hz
      simp only [mem_sector]
      omega
  · obtain rfl : p = 140 := by omega
    rw [ref_table, ref_table, hs 12 (by omega)]

theorem ref_same {i j : Inode} (h : i.Same j) (disk : Bytes) : ref disk i = ref disk j := by
  funext p
  have h12 := h.sectors 12 (by omega)
  simp only [ref, blockMap, h12]
  split
  · split
    · exact h.sectors p (by omega)
    · rfl
  · rfl

theorem ref_changes {S : Set ℕ} {d d' : Bytes} (h : Changes S d d') {i : Inode}
    (ht : i.iSectors 12 ≠ 0 → ∀ a ∈ sector (i.iSectors 12), a ∉ S) {p : ℕ} (hp : p < 141) :
    ref d' i p = ref d i p :=
  ref_congr (fun _ _ => rfl) (fun hz a ha => h a (ht hz a ha)) hp

theorem ref_setSector_direct (d : Bytes) (i : Inode) {k x p : ℕ} (hk : k < 12) (hp : p < 141) :
    ref d (i.setSector k x) p = if p = k then x else ref d i p := by
  by_cases h12 : p < 12
  · rw [ref_direct h12, ref_direct h12]
    by_cases hpk : p = k
    · subst p
      rw [if_pos rfl]
      exact Function.update_self _ _ _
    · rw [if_neg hpk]
      exact Function.update_of_ne hpk _ _
  · rw [if_neg (by omega)]
    have ht : (i.setSector k x).iSectors 12 = i.iSectors 12 :=
      Function.update_of_ne (by omega) _ _
    by_cases h140 : p < 140
    · rw [ref_indirect (by omega) h140, ref_indirect (by omega) h140, ht]
    · obtain rfl : p = 140 := by omega
      rw [ref_table, ref_table, ht]

/-- Writing a table to its sector installs its entries and nothing else. -/
theorem ref_write_table (d : Bytes) {i : Inode} {f : ℕ → ℕ} (ht : i.iSectors 12 ≠ 0)
    (hf : ∀ p, 12 ≤ p → p < 140 → f p < 2 ^ 32) {p : ℕ} (hp : p < 141) :
    ref (patch d (512 * i.iSectors 12) 512 (tableBytes f)) i p =
      if p < 12 then i.iSectors p else if p < 140 then f p else i.iSectors 12 := by
  by_cases h12 : p < 12
  · rw [ref_direct h12, if_pos h12]
  by_cases h140 : p < 140
  · rw [ref_indirect (by omega) h140, if_neg ht, if_neg h12, if_pos h140,
      word_patch_in (by omega), Nat.add_sub_cancel_left]
    have := word_ofWords_of_lt (w := fun k => f (12 + k)) (k := p - 12)
      (by simpa [show 12 + (p - 12) = p by omega] using hf p (by omega) h140)
    simpa [tableBytes, show 12 + (p - 12) = p by omega] using this
  · obtain rfl : p = 140 := by omega
    rw [ref_table, if_neg h12, if_neg h140]

/-- Block `x` of the data area, free or in use according to the bitmap in memory. -/
def Block (v : Volume part) (used : Bool) (x : ℕ) : Prop :=
  ∃ i, x = part.sb.dataStartLba + i ∧ i < 8 * v.blockBitmap.btmpBytesLen ∧ v.blockBit i = used

abbrev Free (v : Volume part) (x : ℕ) : Prop := Block v false x
abbrev InUse (v : Volume part) (x : ℕ) : Prop := Block v true x

theorem Block.data {v : Volume part} {b : Bool} {x : ℕ} (h : Block v b x) :
    part.sb.dataStartLba ≤ x ∧ 0 < x := by
  obtain ⟨i, rfl, -⟩ := h
  have := part.bounds
  omega

theorem Free.not_inUse {v : Volume part} {x : ℕ} (h : Free v x) : ¬InUse v x := by
  rintro ⟨j, hj, -, hb⟩
  obtain ⟨i, rfl, -, hc⟩ := h
  obtain rfl : i = j := by omega
  rw [hc] at hb
  cases hb

theorem block_setBlockBit {v : Volume part} {i : ℕ} {b c : Bool} {x : ℕ}
    (hi : i < 8 * v.blockBitmap.btmpBytesLen) :
    Block (v.setBlockBit i c) b x ↔
      if x = part.sb.dataStartLba + i then b = c else Block v b x := by
  by_cases hx : x = part.sb.dataStartLba + i
  · subst x
    rw [if_pos rfl]
    constructor
    · rintro ⟨j, hj, -, hb⟩
      obtain rfl : i = j := by omega
      simpa using hb.symm
    · rintro rfl
      exact ⟨i, rfl, hi, by simp⟩
  · rw [if_neg hx]
    constructor
    · rintro ⟨j, rfl, hj, hb⟩
      have hji : j ≠ i := fun h => hx (by rw [h])
      exact ⟨j, rfl, hj, by simpa [hji] using hb⟩
    · rintro ⟨j, rfl, hj, hb⟩
      have hji : j ≠ i := fun h => hx (by rw [h])
      exact ⟨j, rfl, hj, by simpa [hji] using hb⟩

theorem inUse_setBlockBit {v : Volume part} {i : ℕ} {c : Bool} {x : ℕ}
    (hi : i < 8 * v.blockBitmap.btmpBytesLen) :
    InUse (v.setBlockBit i c) x ↔ if x = part.sb.dataStartLba + i then true = c else InUse v x :=
  block_setBlockBit hi

theorem inUse_withDisk {v : Volume part} {d : Bytes} {x : ℕ} :
    InUse (v.withDisk d) x ↔ InUse v x := Iff.rfl

/-- The block map of an inode with one block. -/
theorem ref_single {d : Bytes} {ino : Inode} {y : ℕ}
    (hsec : ∀ k < 13, ino.iSectors k = if k = 0 then y else 0)
    {p : ℕ} (hp : p < 141) : ref d ino p = if p = 0 then y else 0 := by
  have ht : ino.iSectors 12 = 0 := hsec 12 (by omega)
  by_cases h12 : p < 12
  · rw [ref_direct h12, hsec p (by omega)]
  rw [if_neg (by omega)]
  by_cases h140 : p < 140
  · rw [ref_indirect (by omega) h140, if_pos ht]
  · obtain rfl : p = 140 := by omega
    rw [ref_table, ht]

end FsBlockMap
