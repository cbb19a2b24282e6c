import XianweiOS.FsFormat

/-! The loop of `partition_format` that sizes the block bitmap. It iterates an order-reversing
map, which settles unless the free sectors are one more than a multiple of 4097: then two sizes
follow each other for ever. -/
namespace FsFormatSize

open ByteStore HaltingProgram DeviceIde FsVolume FsFormat

def freeSects (secCnt : ℕ) : ℕ := sub32 secCnt (1 + 1 + inodeBitmapSects + inodeTableSects)

/-- The loop as `partition_format` enters it. -/
def sizeBlockBitmap (fuel bitLen secCnt : ℕ) : Option (ℕ × ℕ) :=
  sizeLoop (freeSects secCnt) fuel 0 (divRoundUp (freeSects secCnt) bitPerSector) bitLen

theorem freeSects_eq {secCnt : ℕ} (h : 611 ≤ secCnt) (hw : secCnt < 2 ^ 32) :
    freeSects secCnt = secCnt - 611 := by
  have hused : 1 + 1 + inodeBitmapSects + inodeTableSects = 611 := rfl
  rw [freeSects, hused, sub32_eq h hw]

section Rounds

variable {total prev sects len fuel : ℕ}

/-- One round of the loop. -/
theorem sizeLoop_round (h : sects ≠ prev) :
    sizeLoop total (fuel + 1) prev sects len =
      sizeLoop total fuel sects (divRoundUp (sub32 total sects) bitPerSector)
        (sub32 total sects) := if_pos h

theorem sizeLoop_stop : sizeLoop total (fuel + 1) sects sects len = some (sects, len) :=
  if_neg (not_not.mpr rfl)

/-- Adding 4095 to the sectors left does not wrap. -/
theorem nextSects_eq (h : sects ≤ total) (hw : total + 4095 < 2 ^ 32) :
    divRoundUp (sub32 total sects) bitPerSector = (total - sects + 4095) / 4096 := by
  rw [sub32_eq h (by omega)]
  simp only [divRoundUp, bitPerSector]
  rw [Nat.mod_eq_of_lt (by omega)]
  rfl

/-- The loop ends where the next size is the last one. -/
theorem sizeLoop_fixed (hs : divRoundUp (sub32 total sects) bitPerSector = sects) (prev len : ℕ) :
    ∃ r, sizeLoop total (fuel + 2) prev sects len = some r := by
  by_cases h : sects = prev
  · subst prev
    exact ⟨_, sizeLoop_stop⟩
  · rw [sizeLoop_round h, hs]
    exact ⟨_, sizeLoop_stop⟩

/-- `4097 * q` or `4097 * q + r` sectors, `r` at least 2: the sizes settle at `q` or `q + 1`. -/
theorem sizeLoop_settles {q r : ℕ} (hr : r < 4097) (h1 : r ≠ 1) (hw : 4097 * q + r + 4095 < 2 ^ 32)
    (prev len : ℕ) :
    ∃ p, sizeLoop (4097 * q + r) 6 prev ((4097 * q + r + 4095) / 4096) len = some p := by
  have hfixed : divRoundUp (sub32 (4097 * q + r) (q + if r = 0 then 0 else 1)) bitPerSector =
      q + if r = 0 then 0 else 1 := by
    rw [nextSects_eq (by split <;> omega) hw]
    split <;> omega
  -- from `x`, at most 257 above `q`, one of the next two sizes is the fixed one
  have hround : ∀ x fuel p l, q ≤ x → x ≤ q + 257 → x ≤ 4097 * q + r →
      ∃ res, sizeLoop (4097 * q + r) (fuel + 4) p x l = some res := by
    intro x fuel p l hq hx hle
    by_cases he : x = p
    · subst p
      exact ⟨_, sizeLoop_stop⟩
    rw [sizeLoop_round he, nextSects_eq hle hw]
    by_cases hd : x - q < r ∨ r = 0
    · have : (4097 * q + r - x + 4095) / 4096 = q + if r = 0 then 0 else 1 := by
        split <;> omega
      rw [this]
      exact sizeLoop_fixed hfixed _ _
    · have hnext : (4097 * q + r - x + 4095) / 4096 = q := by omega
      rw [hnext]
      by_cases he' : q = x
      · subst x
        exact ⟨_, sizeLoop_stop⟩
      rw [sizeLoop_round he', nextSects_eq (by omega) hw]
      have : (4097 * q + r - q + 4095) / 4096 = q + if r = 0 then 0 else 1 := by
        split <;> omega
      rw [this]
      exact sizeLoop_fixed hfixed _ _
  exact hround _ 2 prev len (by omega) (by omega) (by omega)

/-- One sector more than a multiple of 4097: from `q` the loop goes above, from above to `q`. -/
theorem sizeLoop_runs_on {q : ℕ} (hw : 4097 * q + 1 + 4095 < 2 ^ 32) :
    ∀ {fuel prev x len : ℕ}, x ≠ prev → q ≤ x → x ≤ q + 257 → x ≤ 4097 * q + 1 →
      sizeLoop (4097 * q + 1) fuel prev x len = none := by
  intro fuel
  induction fuel with
  | zero =>
    intro prev x len _ _ _ _
    rfl
  | succ fuel ih =>
    intro prev x len hne hq hx hle
    rw [sizeLoop_round hne, nextSects_eq hle hw]
    by_cases h : x = q
    · have : (4097 * q + 1 - x + 4095) / 4096 = q + 1 := by omega
      rw [this]
      exact ih (by omega) (by omega) (by omega) (by omega)
    · have : (4097 * q + 1 - x + 4095) / 4096 = q := by omega
      rw [this]
      exact ih (by omega) (by omega) (by omega) (by omega)

end Rounds

/-- The loop of `partition_format` ends, whatever the length holds before it, unless the free
sectors are one more than a multiple of 4097; close below `2 ^ 32` the rounding up wraps to 0 and
the loop is not entered. -/
theorem size_loop_ends_iff {secCnt : ℕ} (h : 611 < secCnt) (hw : secCnt < 2 ^ 32) (bitLen : ℕ) :
    (∃ fuel r, sizeBlockBitmap fuel bitLen secCnt = some r) ↔
      (secCnt - 611) % 4097 ≠ 1 ∨ 2 ^ 32 ≤ secCnt - 611 + 4095 := by
  simp only [sizeBlockBitmap, freeSects_eq h.le hw]
  by_cases hwrap : 2 ^ 32 ≤ secCnt - 611 + 4095
  · have h0 : divRoundUp (secCnt - 611) bitPerSector = 0 := by
      simp only [divRoundUp, bitPerSector]
      omega
    rw [h0]
    exact iff_of_true ⟨1, _, sizeLoop_stop⟩ (.inr hwrap)
  have hfirst : divRoundUp (secCnt - 611) bitPerSector = (secCnt - 611 + 4095) / 4096 := by
    simp only [divRoundUp, bitPerSector]
    omega
  obtain ⟨q, r, hr, hsplit⟩ : ∃ q r, r < 4097 ∧ secCnt - 611 = 4097 * q + r :=
    ⟨(secCnt - 611) / 4097, (secCnt - 611) % 4097, Nat.mod_lt _ (by omega), by omega⟩
  rw [hfirst, hsplit]
  by_cases h1 : r = 1
  · subst r
    refine iff_of_false ?_ (by omega)
    rintro ⟨fuel, res, hres⟩
    rw [sizeLoop_runs_on (by omega) (by omega) (by omega) (by omega) (by omega)] at hres
    cases hres
  · exact iff_of_true ⟨6, sizeLoop_settles hr h1 (by omega) 0 bitLen⟩ (by omega)

theorem size_loop_ends_iff_small :
    (∃ fuel r, sizeBlockBitmap fuel 0 1000 = some r) ↔
      (1000 - 611) % 4097 ≠ 1 ∨ 2 ^ 32 ≤ 1000 - 611 + 4095 :=
  size_loop_ends_iff (by decide) (by decide) 0

/-- Without an end of the loop nothing is written. -/
theorem partitionFormat_none {fuel bitLen startLba secCnt : ℕ} {pad disk : Bytes}
    (h : sizeBlockBitmap fuel bitLen secCnt = none) :
    partitionFormat fuel pad bitLen startLba secCnt disk = none := by
  have h' : sizeLoop (sub32 secCnt (1 + 1 + inodeBitmapSects + inodeTableSects)) fuel 0
      (divRoundUp (sub32 secCnt (1 + 1 + inodeBitmapSects + inodeTableSects)) bitPerSector)
      bitLen = none := h
  simp only [partitionFormat, h', Option.bind_eq_bind, Option.bind_none]

/-- A partition of 4709 sectors is never formatted. -/
theorem size_loop_runs_on : (611 < 4709 ∧ 4709 < 2 ^ 32) ∧
    (∀ bitLen, ¬ ∃ fuel r, sizeBlockBitmap fuel bitLen 4709 = some r) ∧
    ∀ fuel pad bitLen startLba disk,
      partitionFormat fuel pad bitLen startLba 4709 disk = none := by
  have hnone : ∀ fuel bitLen, sizeBlockBitmap fuel bitLen 4709 = none := by
    intro fuel bitLen
    have hfree : freeSects 4709 = 4097 * 1 + 1 := by
      rw [freeSects_eq (by decide) (by decide)]
    have hfirst : divRoundUp (4097 * 1 + 1) bitPerSector = 2 := rfl
    rw [sizeBlockBitmap, hfree, hfirst]
    exact sizeLoop_runs_on (by decide) (by decide) (by decide) (by decide) (by decide)
  refine ⟨⟨by decide, by decide⟩, ?_, fun fuel pad bitLen startLba disk =>
    partitionFormat_none (hnone fuel bitLen)⟩
  rintro bitLen ⟨fuel, r, h⟩
  rw [hnone] at h
  cases h

end FsFormatSize
