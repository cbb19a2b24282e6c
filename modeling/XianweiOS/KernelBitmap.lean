import XianweiOS.ByteStore
import XianweiOS.HaltingProgram
import Mathlib.Data.List.Basic
import Mathlib.Tactic.IntervalCases

/-! The kernel bitmap of `lib/kernel/bitmap.c`. A failed `ASSERT` stops the kernel and is
`none`; inside it `none` stands for the return value `-1`. -/
namespace KernelBitmap

open ByteStore HaltingProgram

structure Bitmap where
  btmpBytesLen : ℕ
  bits : Bytes

def bitmapMask (k : ℕ) : Byte := 1#8 <<< k

def bitmapScanTest (btmp : Bitmap) (bitIdx : ℕ) : Bool :=
  btmp.bits (bitIdx / 8) &&& bitmapMask (bitIdx % 8) != 0

def bitmapSet (btmp : Bitmap) (bitIdx : ℕ) (value : Bool) : Bitmap :=
  let byteIdx := bitIdx / 8
  let old := btmp.bits byteIdx
  { btmp with
    bits := Function.update btmp.bits byteIdx
      (if value then old ||| bitmapMask (bitIdx % 8) else old &&& ~~~bitmapMask (bitIdx % 8)) }

/-- The loop of `bitmap_scan` for more than one bit: `bitLeft` rounds from `nextBit`. -/
def bitmapScanRun (btmp : Bitmap) (cnt : ℕ) : (bitLeft nextBit count : ℕ) → Option ℕ
  | 0, _, _ => none
  | bitLeft + 1, nextBit, count =>
    let count := if bitmapScanTest btmp nextBit then 0 else count + 1
    if count = cnt then some (nextBit + 1 - cnt)
    else bitmapScanRun btmp cnt bitLeft (nextBit + 1) count

def bitmapScan (btmp : Bitmap) (cnt : ℕ) : Option (Option ℕ) := do
  let idxByte := ((List.range btmp.btmpBytesLen).find?
    (fun k => btmp.bits k != 0xff#8)).getD btmp.btmpBytesLen
  assert (idxByte < btmp.btmpBytesLen)
  let idxBit := ((List.range 8).find? (fun k => bitmapMask k &&& btmp.bits idxByte == 0)).getD 8
  let bitIdxStart := idxByte * 8 + idxBit
  if cnt = 1 then return some bitIdxStart
  return bitmapScanRun btmp cnt (btmp.btmpBytesLen * 8 - bitIdxStart) (bitIdxStart + 1) 1

@[simp] theorem bitmapSet_len (b : Bitmap) (i : ℕ) (v : Bool) :
    (bitmapSet b i v).btmpBytesLen = b.btmpBytesLen := rfl

theorem bitmapSet_bits_ne {b : Bitmap} {i k : ℕ} {v : Bool} (h : k ≠ i / 8) :
    (bitmapSet b i v).bits k = b.bits k := Function.update_of_ne h _ _

private theorem and_mask_eq (x : Byte) {k : ℕ} (hk : k < 8) :
    (x &&& bitmapMask k != 0) = x.getLsbD k := by
  have cases : k = 0 ∨ k = 1 ∨ k = 2 ∨ k = 3 ∨ k = 4 ∨ k = 5 ∨ k = 6 ∨ k = 7 := by omega
  revert x
  rcases cases with rfl | rfl | rfl | rfl | rfl | rfl | rfl | rfl <;> decide

theorem bitmapScanTest_eq (b : Bitmap) (i : ℕ) :
    bitmapScanTest b i = (b.bits (i / 8)).getLsbD (i % 8) :=
  and_mask_eq _ (Nat.mod_lt _ (by omega))

private theorem getLsbD_mask {k j : ℕ} (hk : k < 8) (hj : j < 8) :
    (bitmapMask k).getLsbD j = decide (j = k) := by
  interval_cases k <;> interval_cases j <;> rfl

@[simp] theorem bitmapScanTest_set (b : Bitmap) (i j : ℕ) (v : Bool) :
    bitmapScanTest (bitmapSet b i v) j = if j = i then v else bitmapScanTest b j := by
  have hi : i % 8 < 8 := Nat.mod_lt _ (by omega)
  have hj : j % 8 < 8 := Nat.mod_lt _ (by omega)
  rw [bitmapScanTest_eq, bitmapScanTest_eq]
  by_cases hb : j / 8 = i / 8
  · simp only [bitmapSet, hb, Function.update_self]
    by_cases he : j % 8 = i % 8
    · have : j = i := by omega
      subst j
      cases v <;> simp [getLsbD_mask hi hi, hi]
    · have hne : j ≠ i := fun h => he (by rw [h])
      rw [if_neg hne]
      cases v
      · simp only [Bool.false_eq_true, ↓reduceIte, BitVec.getLsbD_and, BitVec.getLsbD_not,
          getLsbD_mask hi hj, he, decide_false, Bool.not_false, Bool.and_true, hj, decide_true]
      · simp only [↓reduceIte, BitVec.getLsbD_or, getLsbD_mask hi hj, he, decide_false,
          Bool.or_false]
  · have hne : j ≠ i := fun h => hb (by rw [h])
    rw [bitmapSet_bits_ne hb, if_neg hne]

private theorem full_byte {x : Byte} : x = 0xff#8 ↔ ∀ k < 8, x.getLsbD k = true := by
  constructor
  · rintro rfl k hk
    interval_cases k <;> rfl
  · intro h
    apply BitVec.eq_of_getLsbD_eq
    intro k hk
    rw [h k hk]
    interval_cases k <;> rfl

private theorem mask_and_eq (x : Byte) {k : ℕ} (hk : k < 8) :
    (bitmapMask k &&& x == 0) = !x.getLsbD k := by
  rw [← and_mask_eq x hk, BitVec.and_comm, bne, Bool.not_not]

/-- A byte below the first one that is not full holds only set bits. -/
private theorem bits_below {b : Bitmap} {n j : ℕ} (h : ∀ k < n, b.bits k = 0xff#8)
    (hj : j / 8 < n) : bitmapScanTest b j = true := by
  rw [bitmapScanTest_eq]
  exact full_byte.mp (h _ hj) _ (Nat.mod_lt _ (by omega))

/-- A one-bit scan that returns has found the lowest clear bit. -/
theorem bitmapScan_one {b : Bitmap} {r : Option ℕ} (h : bitmapScan b 1 = some r) :
    ∃ i, r = some i ∧ i < 8 * b.btmpBytesLen ∧ bitmapScanTest b i = false ∧
      ∀ j < i, bitmapScanTest b j = true := by
  simp only [bitmapScan, assert_bind, ↓reduceIte, Option.pure_def, Option.some.injEq] at h
  obtain ⟨hlt, rfl⟩ := h
  cases hf : (List.range b.btmpBytesLen).find? (fun k => b.bits k != 0xff#8) with
  | none => simp [hf] at hlt
  | some n =>
    simp only [hf, Option.getD_some] at hlt ⊢
    obtain ⟨hn, -, hbelow⟩ := List.find?_range_eq_some.mp hf
    have hfull : ∀ k < n, b.bits k = 0xff#8 := fun k hk => by simpa using hbelow k hk
    obtain ⟨k, hk, hclear⟩ : ∃ k < 8, (b.bits n).getLsbD k = false := by
      by_contra hc
      push Not at hc
      exact absurd (full_byte.mpr fun k hk => by simpa using hc k hk) (by simpa using hn)
    cases hg : (List.range 8).find? (fun k => bitmapMask k &&& b.bits n == 0) with
    | none =>
      have := List.find?_eq_none.mp hg k (List.mem_range.mpr hk)
      rw [mask_and_eq _ hk, hclear] at this
      simp at this
    | some m =>
      obtain ⟨hm, hm8, hlow⟩ := List.find?_range_eq_some.mp hg
      have hm8 : m < 8 := List.mem_range.mp hm8
      rw [mask_and_eq _ hm8] at hm
      refine ⟨_, rfl, ?_, ?_, ?_⟩
      · simp only [Option.getD_some]
        omega
      · rw [bitmapScanTest_eq, Option.getD_some, show (n * 8 + m) / 8 = n by omega,
          show (n * 8 + m) % 8 = m by omega]
        simpa using hm
      · intro j hj
        rw [Option.getD_some] at hj
        by_cases hjn : j / 8 < n
        · exact bits_below hfull hjn
        · have hj8 : j % 8 < m := by omega
          have := hlow _ hj8
          rw [mask_and_eq _ (by omega)] at this
          rw [bitmapScanTest_eq, show j / 8 = n by omega]
          simpa using this

/-- The scan returns as soon as some bit is clear. -/
theorem bitmapScan_one_exists {b : Bitmap} {i : ℕ} (hi : i < 8 * b.btmpBytesLen)
    (hc : bitmapScanTest b i = false) : ∃ r, bitmapScan b 1 = some r := by
  have hlt : ((List.range b.btmpBytesLen).find? (fun k => b.bits k != 0xff#8)).getD
      b.btmpBytesLen < b.btmpBytesLen := by
    cases hf : (List.range b.btmpBytesLen).find? (fun k => b.bits k != 0xff#8) with
    | none =>
      have hfull := List.find?_eq_none.mp hf (i / 8) (List.mem_range.mpr (by omega))
      rw [bitmapScanTest_eq, full_byte.mp (by simpa using hfull) _ (by omega)] at hc
      exact absurd hc (by simp)
    | some n =>
      exact List.mem_range.mp (List.mem_of_find?_eq_some hf)
  exact ⟨_, by simp only [bitmapScan, assert_pos hlt, ↓reduceIte]; rfl⟩

/-- The bits before `nextBit` that have been counted are clear. -/
private theorem bitmapScanRun_clear {b : Bitmap} {cnt i : ℕ} (hcnt : 0 < cnt) :
    ∀ {bitLeft nextBit count : ℕ},
    bitmapScanRun b cnt bitLeft nextBit count = some i → count ≤ nextBit →
    (∀ k < count, bitmapScanTest b (nextBit - count + k) = false) →
    (∀ k < cnt, bitmapScanTest b (i + k) = false) ∧ i + cnt ≤ nextBit + bitLeft := by
  intro bitLeft
  induction bitLeft with
  | zero =>
    intro nextBit count h
    cases h
  | succ bitLeft ih =>
    intro nextBit count h hle hclear
    rw [bitmapScanRun] at h
    by_cases ht : bitmapScanTest b nextBit = true
    · -- the count starts anew
      simp only [ht, if_true] at h
      have hz : ¬0 = cnt := by omega
      rw [if_neg hz] at h
      obtain ⟨h1, h2⟩ := ih h (Nat.zero_le _) fun k hk => absurd hk (Nat.not_lt_zero k)
      exact ⟨h1, by omega⟩
    · simp only [ht, if_false, Bool.false_eq_true] at h
      have hclear' : ∀ k < count + 1, bitmapScanTest b (nextBit + 1 - (count + 1) + k) = false := by
        intro k hk
        by_cases hkc : k = count
        · subst k
          rw [show nextBit + 1 - (count + 1) + count = nextBit by omega]
          simpa using ht
        · rw [show nextBit + 1 - (count + 1) + k = nextBit - count + k by omega]
          exact hclear k (by omega)
      by_cases hc : count + 1 = cnt
      · rw [if_pos hc] at h
        have hi : nextBit + 1 - cnt = i := Option.some.inj h
        refine ⟨fun k hk => ?_, by omega⟩
        have := hclear' k (by omega)
        rwa [show nextBit + 1 - (count + 1) + k = i + k by omega] at this
      · rw [if_neg hc] at h
        obtain ⟨h1, h2⟩ := ih h (by omega) hclear'
        exact ⟨h1, by omega⟩

/-- A scan finds clear bits, of which the last one may lie just behind the bitmap. -/
theorem bitmapScan_clear {b : Bitmap} {cnt i : ℕ} (hcnt : 0 < cnt)
    (h : bitmapScan b cnt = some (some i)) :
    (∀ k < cnt, bitmapScanTest b (i + k) = false) ∧ i + cnt ≤ 8 * b.btmpBytesLen + 1 := by
  by_cases hone : cnt = 1
  · subst cnt
    obtain ⟨j, hj, hlt, hclear, -⟩ := bitmapScan_one h
    obtain rfl := Option.some.inj hj
    refine ⟨fun k hk => ?_, by omega⟩
    rwa [show i + k = i by omega]
  · have hfirst : ∃ j, bitmapScan b 1 = some (some j) ∧
        bitmapScanRun b cnt (b.btmpBytesLen * 8 - j) (j + 1) 1 = some i := by
      simp only [bitmapScan, assert_bind, if_neg hone, Option.pure_def, Option.some.injEq] at h
      refine ⟨_, ?_, h.2⟩
      simp only [bitmapScan, assert_pos h.1, ↓reduceIte]
      rfl
    obtain ⟨j, hj, hrun⟩ := hfirst
    obtain ⟨j', hj', hlt, hclear, -⟩ := bitmapScan_one hj
    obtain rfl := Option.some.inj hj'
    obtain ⟨h1, h2⟩ := bitmapScanRun_clear hcnt hrun (by omega) fun k hk => by
      rwa [show j + 1 - 1 + k = j by omega]
    exact ⟨h1, by omega⟩

/-- Bits `i` to `i + n - 1`. -/
def setBits (b : Bitmap) (i : ℕ) (value : Bool) : (n : ℕ) → Bitmap
  | 0 => b
  | n + 1 => bitmapSet (setBits b i value n) (i + n) value

@[simp] theorem setBits_len (b : Bitmap) (i : ℕ) (v : Bool) (n : ℕ) :
    (setBits b i v n).btmpBytesLen = b.btmpBytesLen := by
  induction n with
  | zero => rfl
  | succ n ih => rw [setBits, bitmapSet_len, ih]

theorem bitmapScanTest_setBits (b : Bitmap) (i j : ℕ) (v : Bool) (n : ℕ) :
    bitmapScanTest (setBits b i v n) j =
      if i ≤ j ∧ j < i + n then v else bitmapScanTest b j := by
  induction n with
  | zero => rw [setBits, if_neg (by omega)]
  | succ n ih =>
    rw [setBits, bitmapScanTest_set, ih]
    by_cases hj : j = i + n
    · rw [if_pos hj, if_pos (by omega)]
    · rw [if_neg hj]
      congr 1
      simp only [eq_iff_iff]
      omega

/-- A bitmap is its bits. -/
theorem bitmap_ext {b b' : Bitmap} (hl : b.btmpBytesLen = b'.btmpBytesLen)
    (h : ∀ i, bitmapScanTest b i = bitmapScanTest b' i) : b = b' := by
  obtain ⟨len, bits⟩ := b
  obtain ⟨len', bits'⟩ := b'
  obtain rfl : len = len' := hl
  have hbits : bits = bits' := by
    funext k
    apply BitVec.eq_of_getLsbD_eq
    intro j hj
    have := h (k * 8 + j)
    rw [bitmapScanTest_eq, bitmapScanTest_eq] at this
    simpa only [show (k * 8 + j) / 8 = k by omega, show (k * 8 + j) % 8 = j by omega] using this
  rw [hbits]

end KernelBitmap
