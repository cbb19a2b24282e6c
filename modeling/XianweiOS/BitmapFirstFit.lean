import XianweiOS.KernelBitmap
import Mathlib.Order.Bounds.Basic

/-! `bitmap_scan` as first fit. Its loop goes one bit too far: it counts the bit behind the bitmap,
so that a run which is one bit short may be completed by whatever stands there. -/
namespace BitmapFirstFit

open ByteStore HaltingProgram KernelBitmap

variable {b b' : Bitmap} {cnt i j n : ℕ}

/-- `n` clear bits in a row, from bit `i` on. -/
def ClearRun (b : Bitmap) (i n : ℕ) : Prop := ∀ k < n, bitmapScanTest b (i + k) = false

/-- The run lies inside the bitmap. -/
structure Fits (b : Bitmap) (i n : ℕ) : Prop where
  clear : ClearRun b i n
  inside : i + n ≤ 8 * b.btmpBytesLen

/-- A part of a run is a run. -/
theorem ClearRun.part (h : ClearRun b i n) {m : ℕ} (hj : i ≤ j) (hm : j + m ≤ i + n) :
    ClearRun b j m := by
  intro k hk
  have := h (j - i + k) (by omega)
  rwa [show i + (j - i + k) = j + k by omega] at this

theorem clearRun_one : ClearRun b i 1 ↔ bitmapScanTest b i = false := by
  constructor
  · intro h
    exact h 0 (by omega)
  · intro h k hk
    obtain rfl : k = 0 := by omega
    exact h

/-- The loop has counted the clear bits right before `nextBit`, and no run has ended there yet. -/
structure Counting (b : Bitmap) (cnt nextBit count : ℕ) : Prop where
  le : count ≤ nextBit
  clear : ClearRun b (nextBit - count) count
  -- the run does not start earlier
  start : ∀ j, ClearRun b j (nextBit - j) → nextBit ≤ j + count
  none : ∀ j, ClearRun b j cnt → nextBit < j + cnt

theorem Counting.restart {nextBit count : ℕ} (h : Counting b cnt nextBit count) (hcnt : 0 < cnt)
    (hset : bitmapScanTest b nextBit = true) : Counting b cnt (nextBit + 1) 0 := by
  have hout : ∀ j m, ClearRun b j m → ¬(j ≤ nextBit ∧ nextBit < j + m) := by
    rintro j m hrun ⟨hle, hlt⟩
    have := hrun (nextBit - j) (by omega)
    rw [show j + (nextBit - j) = nextBit by omega, hset] at this
    cases this
  refine ⟨Nat.zero_le _, fun k hk => absurd hk (Nat.not_lt_zero k), fun j hrun => ?_,
    fun j hrun => ?_⟩
  · have := hout _ _ hrun
    omega
  · have := hout _ _ hrun
    have := h.none j hrun
    omega

/-- One clear bit more. -/
theorem ClearRun.snoc (h : ClearRun b i n) (hlast : bitmapScanTest b (i + n) = false) :
    ClearRun b i (n + 1) := by
  intro k hk
  by_cases hkn : k = n
  · rw [hkn]
    exact hlast
  · exact h k (by omega)

theorem Counting.next {nextBit count : ℕ} (h : Counting b cnt nextBit count)
    (hclear : bitmapScanTest b nextBit = false) (hne : count + 1 ≠ cnt) :
    Counting b cnt (nextBit + 1) (count + 1) := by
  have hle := h.le
  refine ⟨by omega, ?_, fun j hrun => ?_, fun j hrun => ?_⟩
  · rw [show nextBit + 1 - (count + 1) = nextBit - count by omega]
    refine h.clear.snoc ?_
    rwa [show nextBit - count + count = nextBit by omega]
  · have := h.start j (hrun.part le_rfl (by omega))
    omega
  · -- a run that ends here has the bits before it, which are counted
    have hend := h.none j hrun
    by_contra hlt
    have hfill := h.start j (hrun.part le_rfl (by omega))
    have hshort := h.none (nextBit - count)
    have hcount : count < cnt := by
      by_contra hge
      have := hshort (h.clear.part le_rfl (by omega))
      omega
    omega

/-- The loop finds the first run that ends at the last bit it looks at, or before. -/
theorem bitmapScanRun_spec (hcnt : 0 < cnt) : ∀ {bitLeft nextBit count : ℕ},
    Counting b cnt nextBit count →
    (∀ i, bitmapScanRun b cnt bitLeft nextBit count = some i →
      ClearRun b i cnt ∧ i + cnt ≤ nextBit + bitLeft ∧ ∀ j, ClearRun b j cnt → i ≤ j) ∧
    (bitmapScanRun b cnt bitLeft nextBit count = none →
      ∀ j, ClearRun b j cnt → nextBit + bitLeft < j + cnt) := by
  intro bitLeft
  induction bitLeft with
  | zero =>
    intro nextBit count h
    refine ⟨fun i hi => (nomatch hi), fun _ j hrun => ?_⟩
    exact h.none j hrun
  | succ bitLeft ih =>
    intro nextBit count h
    rw [bitmapScanRun]
    by_cases hset : bitmapScanTest b nextBit = true
    · simp only [hset, if_true]
      rw [if_neg (by omega)]
      obtain ⟨hsome, hnone⟩ := ih (h.restart hcnt hset)
      refine ⟨fun i hi => ?_, fun hn j hrun => ?_⟩
      · obtain ⟨h1, h2, h3⟩ := hsome i hi
        exact ⟨h1, by omega, h3⟩
      · have := hnone hn j hrun
        omega
    · have hclear : bitmapScanTest b nextBit = false := by simpa using hset
      simp only [hclear, Bool.false_eq_true, if_false]
      have hle := h.le
      by_cases hc : count + 1 = cnt
      · rw [if_pos hc]
        refine ⟨fun i hi => ?_, fun hn => by cases hn⟩
        obtain rfl := Option.some.inj hi
        refine ⟨?_, by omega, fun j hrun => ?_⟩
        · rw [show nextBit + 1 - cnt = nextBit - count by omega, ← hc]
          refine h.clear.snoc ?_
          rwa [show nextBit - count + count = nextBit by omega]
        · have := h.none j hrun
          omega
      · rw [if_neg hc]
        obtain ⟨hsome, hnone⟩ := ih (h.next hclear hc)
        refine ⟨fun i hi => ?_, fun hn j hrun => ?_⟩
        · obtain ⟨h1, h2, h3⟩ := hsome i hi
          exact ⟨h1, by omega, h3⟩
        · have := hnone hn j hrun
          omega

/-- A scan for several bits starts its loop behind the first clear bit. -/
theorem bitmapScan_many (hone : cnt ≠ 1) {r : Option ℕ} (h : bitmapScan b cnt = some r) :
    ∃ s, bitmapScan b 1 = some (some s) ∧
      r = bitmapScanRun b cnt (b.btmpBytesLen * 8 - s) (s + 1) 1 := by
  simp only [bitmapScan, assert_bind, if_neg hone, Option.pure_def, Option.some.injEq] at h
  refine ⟨_, ?_, h.2.symm⟩
  simp only [bitmapScan, assert_pos h.1, ↓reduceIte]
  rfl

/-- The scan returns if and only if some bit is clear. -/
theorem bitmapScan_returns : (∃ r, bitmapScan b cnt = some r) ↔
    ∃ i < 8 * b.btmpBytesLen, bitmapScanTest b i = false := by
  have hsame : (∃ r, bitmapScan b cnt = some r) ↔ ∃ r, bitmapScan b 1 = some r := by
    constructor
    · rintro ⟨r, h⟩
      simp only [bitmapScan, assert_bind] at h
      exact ⟨_, by simp only [bitmapScan, assert_pos h.1]; rfl⟩
    · rintro ⟨r, h⟩
      simp only [bitmapScan, assert_bind] at h
      by_cases hone : cnt = 1
      · exact ⟨_, by simp only [bitmapScan, assert_pos h.1, if_pos hone]; rfl⟩
      · exact ⟨_, by simp only [bitmapScan, assert_pos h.1, if_neg hone]; rfl⟩
  rw [hsame]
  constructor
  · rintro ⟨r, h⟩
    obtain ⟨i, -, hi, hclear, -⟩ := bitmapScan_one h
    exact ⟨i, hi, hclear⟩
  · rintro ⟨i, hi, hclear⟩
    exact bitmapScan_one_exists hi hclear

/-- The bits that a scan looks at: for more than one bit, one more than the bitmap has. -/
def scanEnd (b : Bitmap) (cnt : ℕ) : ℕ := 8 * b.btmpBytesLen + if cnt = 1 then 0 else 1

/-- A scan that returns has found the first run within the bits it looks at, if there is any. -/
theorem bitmapScan_spec (hcnt : 0 < cnt) {r : Option ℕ} (h : bitmapScan b cnt = some r) :
    (∀ i, r = some i → ClearRun b i cnt ∧ i + cnt ≤ scanEnd b cnt ∧
      ∀ j, ClearRun b j cnt → i ≤ j) ∧
    (r = none → ∀ j, ClearRun b j cnt → scanEnd b cnt < j + cnt) := by
  by_cases hone : cnt = 1
  · subst cnt
    obtain ⟨s, rfl, hs, hclear, hlow⟩ := bitmapScan_one h
    refine ⟨fun i hi => ?_, fun hn => by cases hn⟩
    obtain rfl := Option.some.inj hi
    refine ⟨clearRun_one.mpr hclear, by simp only [scanEnd, ↓reduceIte]; omega, fun j hrun => ?_⟩
    by_contra hlt
    have := hlow j (by omega)
    rw [clearRun_one.mp hrun] at this
    cases this
  · obtain ⟨s, hs, rfl⟩ := bitmapScan_many hone h
    obtain ⟨s', hs', hlt, hclear, hlow⟩ := bitmapScan_one hs
    obtain rfl := Option.some.inj hs'
    -- below the first clear bit no run starts
    have hfirst : ∀ j m, ClearRun b j m → 0 < m → s ≤ j := by
      intro j m hrun hm
      by_contra hjs
      have := hlow j (by omega)
      rw [show bitmapScanTest b j = false from hrun 0 hm] at this
      cases this
    have hcounting : Counting b cnt (s + 1) 1 := by
      refine ⟨by omega, clearRun_one.mpr (by rwa [Nat.add_sub_cancel]), fun j hrun => ?_,
        fun j hrun => ?_⟩
      · by_contra hlt
        have := hfirst j _ hrun (by omega)
        omega
      · have := hfirst j _ hrun hcnt
        omega
    have hend : s + 1 + (b.btmpBytesLen * 8 - s) = scanEnd b cnt := by
      simp only [scanEnd, if_neg hone]
      omega
    rw [← hend]
    exact bitmapScanRun_spec hcnt hcounting

/-- A run inside the bitmap is found: the first one. -/
theorem bitmap_scan_first_fit (hcnt : 0 < cnt) (h : ∃ i, Fits b i cnt) :
    ∃ i, bitmapScan b cnt = some (some i) ∧ IsLeast {j | Fits b j cnt} i := by
  obtain ⟨j, hj⟩ := h
  have hin := hj.inside
  have hend : 8 * b.btmpBytesLen ≤ scanEnd b cnt := Nat.le_add_right _ _
  obtain ⟨r, hr⟩ : ∃ r, bitmapScan b cnt = some r :=
    bitmapScan_returns.mpr ⟨j, by omega, hj.clear 0 hcnt⟩
  obtain ⟨hsome, hnone⟩ := bitmapScan_spec hcnt hr
  cases r with
  | none =>
    have := hnone rfl j hj.clear
    omega
  | some i =>
    obtain ⟨hclear, -, hleast⟩ := hsome i rfl
    have hij := hleast j hj.clear
    exact ⟨i, hr, ⟨hclear, by omega⟩, fun k hk => hleast k hk.clear⟩

/-- The bits of `0x91`: bits 1 to 3, 5 and 6 are clear. -/
def dottedBitmap : Bitmap := ⟨1, fun _ => 0x91⟩

theorem bitmap_scan_first_fit_dotted : (∃ i, Fits dottedBitmap i 2) ∧
    ∃ i, bitmapScan dottedBitmap 2 = some (some i) ∧ IsLeast {j | Fits dottedBitmap j 2} i := by
  have h : ∃ i, Fits dottedBitmap i 2 := ⟨5, by unfold ClearRun; decide, by decide⟩
  exact ⟨h, bitmap_scan_first_fit (by decide) h⟩

/-- The same bitmap, before other bytes. -/
structure SameBitmap (b b' : Bitmap) : Prop where
  len : b'.btmpBytesLen = b.btmpBytesLen
  bits : ∀ k < b.btmpBytesLen, b'.bits k = b.bits k

theorem SameBitmap.test (h : SameBitmap b b') (hi : i < 8 * b.btmpBytesLen) :
    bitmapScanTest b' i = bitmapScanTest b i := by
  rw [bitmapScanTest_eq, bitmapScanTest_eq, h.bits (i / 8) (by omega)]

/-- The bitmap before a byte without set bits. -/
def clearBehind (b : Bitmap) : Bitmap :=
  { b with bits := Function.update b.bits b.btmpBytesLen 0 }

theorem sameBitmap_clearBehind : SameBitmap b (clearBehind b) :=
  ⟨rfl, fun _ hk => Function.update_of_ne (Nat.ne_of_lt hk) _ _⟩

theorem clearBehind_test : bitmapScanTest (clearBehind b) (8 * b.btmpBytesLen) = false := by
  have hbyte : (clearBehind b).bits b.btmpBytesLen = 0 := Function.update_self _ _ _
  rw [bitmapScanTest_eq, show 8 * b.btmpBytesLen / 8 = b.btmpBytesLen by omega, hbyte]
  simp

/-- The scan says that there is no run, whatever stands behind the bitmap. -/
structure AnswersNone (b : Bitmap) (cnt : ℕ) : Prop where
  answer : bitmapScan b cnt = some none
  inside : ∀ b', SameBitmap b b' → bitmapScan b' cnt = bitmapScan b cnt

/-- The last bits of the bitmap are clear, all but one of those asked for. -/
def OneShort (b : Bitmap) (cnt : ℕ) : Prop :=
  cnt ≤ 8 * b.btmpBytesLen + 1 ∧ ClearRun b (8 * b.btmpBytesLen + 1 - cnt) (cnt - 1)

/-- Without a run, the scan says so exactly if some bit is clear and the bitmap does not end one bit
before a run would be complete. -/
theorem no_run_answered_iff (hcnt : 0 < cnt) (hno : ∀ i, ¬Fits b i cnt) : AnswersNone b cnt ↔
    (∃ i < 8 * b.btmpBytesLen, bitmapScanTest b i = false) ∧ ¬OneShort b cnt := by
  constructor
  · intro h
    have hclear : ∃ i < 8 * b.btmpBytesLen, bitmapScanTest b i = false :=
      bitmapScan_returns.mp ⟨none, h.answer⟩
    refine ⟨hclear, fun hshort => ?_⟩
    have hone : cnt ≠ 1 := by
      rintro rfl
      obtain ⟨i, hi, hc⟩ := hclear
      exact hno i ⟨clearRun_one.mpr hc, hi⟩
    obtain ⟨hle, htail⟩ := hshort
    have hrun : ClearRun (clearBehind b) (8 * b.btmpBytesLen + 1 - cnt) cnt := by
      intro k hk
      by_cases hlast : k = cnt - 1
      · rw [show 8 * b.btmpBytesLen + 1 - cnt + k = 8 * b.btmpBytesLen by omega]
        exact clearBehind_test
      · rw [sameBitmap_clearBehind.test (by omega)]
        exact htail k (by omega)
    have hnone := (bitmapScan_spec hcnt ((h.inside _ sameBitmap_clearBehind).trans h.answer)).2 rfl
      _ hrun
    have hlen : (clearBehind b).btmpBytesLen = b.btmpBytesLen := rfl
    simp only [scanEnd, if_neg hone, hlen] at hnone
    omega
  · rintro ⟨⟨i, hi, hclear⟩, hshort⟩
    have hall : ∀ b', SameBitmap b b' → bitmapScan b' cnt = some none := by
      intro b' hsame
      have hlen := hsame.len
      obtain ⟨r, hr⟩ : ∃ r, bitmapScan b' cnt = some r :=
        bitmapScan_returns.mpr ⟨i, by omega, (hsame.test hi).trans hclear⟩
      obtain ⟨hsome, -⟩ := bitmapScan_spec hcnt hr
      cases r with
      | none => exact hr
      | some j =>
        obtain ⟨hrun, hend, -⟩ := hsome j rfl
        simp only [scanEnd, hlen] at hend
        have hkeep : ∀ m, j + m ≤ 8 * b.btmpBytesLen → m ≤ cnt → ClearRun b j m := by
          intro m hm hmc k hk
          rw [← hsame.test (by omega)]
          exact hrun k (by omega)
        by_cases hin : j + cnt ≤ 8 * b.btmpBytesLen
        · exact absurd ⟨hkeep cnt hin le_rfl, hin⟩ (hno j)
        · -- the run ends with the bit behind the bitmap
          have hj : j + cnt = 8 * b.btmpBytesLen + 1 := by
            split at hend <;> omega
          refine absurd ⟨by omega, ?_⟩ hshort
          rw [show 8 * b.btmpBytesLen + 1 - cnt = j by omega]
          exact hkeep (cnt - 1) (by omega) (by omega)
    have hanswer := hall b ⟨rfl, fun _ _ => rfl⟩
    exact ⟨hanswer, fun b' hsame => (hall b' hsame).trans hanswer.symm⟩

theorem no_run_answered_iff_dotted : (∀ i, ¬Fits dottedBitmap i 4) ∧ AnswersNone dottedBitmap 4 := by
  have hno : ∀ i, ¬Fits dottedBitmap i 4 := by
    rintro i ⟨hclear, hin⟩
    have hset : ∀ i < 5, ∃ k < 4, bitmapScanTest dottedBitmap (i + k) = true := by decide
    have hlen : dottedBitmap.btmpBytesLen = 1 := rfl
    obtain ⟨k, hk, hbit⟩ := hset i (by omega)
    rw [hclear k hk] at hbit
    cases hbit
  exact ⟨hno, (no_run_answered_iff (by decide) hno).mpr
    ⟨⟨1, by decide, by decide⟩, fun h => absurd (h.2 2 (by decide)) (by decide)⟩⟩

def fullBitmap : Bitmap := ⟨1, fun _ => 0xff⟩

/-- A full bitmap stops the kernel. -/
theorem full_bitmap_halts : (∀ i, ¬Fits fullBitmap i 1) ∧ bitmapScan fullBitmap 1 = none ∧
    ¬AnswersNone fullBitmap 1 := by
  have hhalt : bitmapScan fullBitmap 1 = none := by decide
  refine ⟨?_, hhalt, fun h => ?_⟩
  · rintro i ⟨hclear, hin⟩
    have hset : ∀ i < 8, bitmapScanTest fullBitmap i = true := by decide
    have hlen : fullBitmap.btmpBytesLen = 1 := rfl
    have hbit := hset i (by omega)
    rw [clearRun_one.mp hclear] at hbit
    cases hbit
  · rw [h.answer] at hhalt
    cases hhalt

end BitmapFirstFit
