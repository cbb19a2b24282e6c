import XianweiOS.ByteStore
import XianweiOS.HaltingProgram

/-! Sector transfers of `device/ide.c`. The drive is ready whenever it is asked, and a
command whose 8-bit count register holds `c` moves `c` sectors, 256 when `c` is 0. The
disk is one byte store, sector `lba` being its bytes from `512 * lba`. -/
namespace DeviceIde

open ByteStore HaltingProgram

def sectorSize : ℕ := 512

def maxLba : ℕ := 80 * 1024 * 1024 / 512 - 1

def secsMoved (secCnt : ℕ) : ℕ := if secCnt % 256 = 0 then 256 else secCnt % 256

def secsOp (secsDone secCnt : ℕ) : ℕ :=
  if secsDone + 256 ≤ secCnt then 256 else secCnt - secsDone

def ideReadLoop (disk : Bytes) (lba secCnt : ℕ) :
    (fuel secsDone : ℕ) → Bytes → Option Bytes
  | 0, _, buf => some buf
  | fuel + 1, secsDone, buf =>
    if secsDone < secCnt then do
      let op := secsOp secsDone secCnt
      assert (lba + secsDone ≤ maxLba)
      ideReadLoop disk lba secCnt fuel (secsDone + op)
        (patch buf (512 * secsDone) (512 * secsMoved op) (window disk (512 * (lba + secsDone))))
    else some buf

def ideWriteLoop (lba : ℕ) (buf : Bytes) (secCnt : ℕ) :
    (fuel secsDone : ℕ) → Bytes → Option Bytes
  | 0, _, disk => some disk
  | fuel + 1, secsDone, disk =>
    if secsDone < secCnt then do
      let op := secsOp secsDone secCnt
      assert (lba + secsDone ≤ maxLba)
      ideWriteLoop lba buf secCnt fuel (secsDone + op)
        (patch disk (512 * (lba + secsDone)) (512 * secsMoved op) (window buf (512 * secsDone)))
    else some disk

/-- The buffer after `secCnt` sectors were read into it. -/
def ideRead (disk : Bytes) (lba : ℕ) (buf : Bytes) (secCnt : ℕ) : Option Bytes := do
  assert (lba ≤ maxLba)
  assert (0 < secCnt)
  ideReadLoop disk lba secCnt secCnt 0 buf

/-- The disk after `secCnt` sectors of the buffer were written to it. -/
def ideWrite (disk : Bytes) (lba : ℕ) (buf : Bytes) (secCnt : ℕ) : Option Bytes := do
  assert (lba ≤ maxLba)
  assert (0 < secCnt)
  ideWriteLoop lba buf secCnt secCnt 0 disk

def sector (lba : ℕ) : Set ℕ := span (512 * lba) 512

@[simp] theorem mem_sector {lba i : ℕ} : i ∈ sector lba ↔ 512 * lba ≤ i ∧ i < 512 * lba + 512 :=
  Iff.rfl

/-- A round moves as many sectors as it says: 256 wraps to 0 in the register and back. -/
theorem secsMoved_secsOp {done cnt : ℕ} (h : done < cnt) :
    secsMoved (secsOp done cnt) = secsOp done cnt := by
  unfold secsMoved secsOp
  split
  · rfl
  · rw [if_neg (by omega)]
    omega

theorem secsOp_pos {done cnt : ℕ} (h : done < cnt) : 0 < secsOp done cnt := by
  unfold secsOp
  split <;> omega

theorem secsOp_le {done cnt : ℕ} (h : done < cnt) : done + secsOp done cnt ≤ cnt := by
  unfold secsOp
  split <;> omega

/-- One round of the read loop extends the part of the buffer already filled. -/
private theorem read_round (disk buf : Bytes) (lba done op : ℕ) :
    patch (patch buf 0 (512 * done) (window disk (512 * lba))) (512 * done) (512 * op)
      (window disk (512 * (lba + done))) =
    patch buf 0 (512 * (done + op)) (window disk (512 * lba)) := by
  have h := patch_append buf (window disk (512 * lba)) 0 (512 * done) (512 * op)
  rw [window_window, Nat.zero_add] at h
  rw [Nat.mul_add, h, Nat.mul_add]

private theorem write_round (disk buf : Bytes) (lba done op : ℕ) :
    patch (patch disk (512 * lba) (512 * done) buf) (512 * (lba + done)) (512 * op)
      (window buf (512 * done)) =
    patch disk (512 * lba) (512 * (done + op)) buf := by
  rw [Nat.mul_add, Nat.mul_add]
  exact patch_append disk buf (512 * lba) (512 * done) (512 * op)

/-- The loop of a transfer, whose rounds lead from `m done` to `m` of what is done then, ends with
`m cnt` or at a sector off the disk. -/
private theorem loop_spec {loop : ℕ → ℕ → Bytes → Option Bytes} {m : ℕ → Bytes} {lba cnt : ℕ}
    (hnil : ∀ done b, loop 0 done b = some b) (hend : ∀ fuel b, loop (fuel + 1) cnt b = some b)
    (hround : ∀ fuel done, done < cnt → loop (fuel + 1) done (m done) =
      (assert (lba + done ≤ maxLba)).bind fun _ =>
        loop fuel (done + secsOp done cnt) (m (done + secsOp done cnt))) :
    ∀ fuel done, done ≤ cnt → cnt - done ≤ fuel →
      (loop fuel done (m done) = none ∧ maxLba < lba + cnt - 1) ∨
        loop fuel done (m done) = some (m cnt) := by
  intro fuel
  induction fuel with
  | zero =>
    intro done hle hfuel
    have : done = cnt := by omega
    subst done
    exact Or.inr (hnil _ _)
  | succ fuel ih =>
    intro done hle hfuel
    by_cases hlt : done < cnt
    · rw [hround fuel done hlt]
      by_cases hlba : lba + done ≤ maxLba
      · have := secsOp_pos hlt
        rw [assert_pos hlba, Option.bind_some]
        exact ih _ (secsOp_le hlt) (by omega)
      · left
        rw [assert, if_neg hlba]
        exact ⟨rfl, by omega⟩
    · have : done = cnt := by omega
      subst done
      exact Or.inr (hend fuel _)

private theorem ideReadLoop_spec (disk : Bytes) (lba cnt : ℕ) (buf : Bytes) :
    ∀ fuel done, done ≤ cnt → cnt - done ≤ fuel →
      (ideReadLoop disk lba cnt fuel done
        (patch buf 0 (512 * done) (window disk (512 * lba))) = none ∧ maxLba < lba + cnt - 1) ∨
      ideReadLoop disk lba cnt fuel done (patch buf 0 (512 * done) (window disk (512 * lba))) =
        some (patch buf 0 (512 * cnt) (window disk (512 * lba))) := by
  refine loop_spec (m := fun done => patch buf 0 (512 * done) (window disk (512 * lba)))
    (fun _ _ => rfl) (fun fuel b => if_neg (lt_irrefl cnt)) fun fuel done hlt => ?_
  rw [ideReadLoop, if_pos hlt]
  simp only [secsMoved_secsOp hlt, read_round]
  rfl

private theorem ideWriteLoop_spec (lba cnt : ℕ) (buf disk : Bytes) :
    ∀ fuel done, done ≤ cnt → cnt - done ≤ fuel →
      (ideWriteLoop lba buf cnt fuel done (patch disk (512 * lba) (512 * done) buf) = none ∧
        maxLba < lba + cnt - 1) ∨
      ideWriteLoop lba buf cnt fuel done (patch disk (512 * lba) (512 * done) buf) =
        some (patch disk (512 * lba) (512 * cnt) buf) := by
  refine loop_spec (m := fun done => patch disk (512 * lba) (512 * done) buf)
    (fun _ _ => rfl) (fun fuel b => if_neg (lt_irrefl cnt)) fun fuel done hlt => ?_
  rw [ideWriteLoop, if_pos hlt]
  simp only [secsMoved_secsOp hlt, write_round]
  rfl

/-- A read that returns has filled the buffer with the sectors asked for. -/
theorem ideRead_some {disk buf buf' : Bytes} {lba cnt : ℕ}
    (h : ideRead disk lba buf cnt = some buf') :
    buf' = patch buf 0 (512 * cnt) (window disk (512 * lba)) ∧ lba ≤ maxLba := by
  simp only [ideRead, assert_bind] at h
  obtain ⟨hl, -, h⟩ := h
  have hs := ideReadLoop_spec disk lba cnt buf cnt 0 (by omega) (by omega)
  rw [Nat.mul_zero, patch_zero] at hs
  rcases hs with ⟨hn, -⟩ | hs
  · rw [hn] at h
    cases h
  · exact ⟨Option.some.inj (h.symm.trans hs), hl⟩

theorem ideRead_eq {disk buf : Bytes} {lba cnt : ℕ} (hc : 0 < cnt) (hl : lba + cnt ≤ maxLba + 1) :
    ideRead disk lba buf cnt = some (patch buf 0 (512 * cnt) (window disk (512 * lba))) := by
  have hs := ideReadLoop_spec disk lba cnt buf cnt 0 (by omega) (by omega)
  rw [Nat.mul_zero, patch_zero] at hs
  simp only [ideRead, assert_bind]
  exact ⟨by omega, hc, hs.resolve_left (fun hn => by omega)⟩

/-- A write that returns has replaced the sectors asked for and no other byte. -/
theorem ideWrite_some {disk disk' buf : Bytes} {lba cnt : ℕ}
    (h : ideWrite disk lba buf cnt = some disk') :
    disk' = patch disk (512 * lba) (512 * cnt) buf ∧ lba ≤ maxLba := by
  simp only [ideWrite, assert_bind] at h
  obtain ⟨hl, -, h⟩ := h
  have hs := ideWriteLoop_spec lba cnt buf disk cnt 0 (by omega) (by omega)
  rw [Nat.mul_zero, patch_zero] at hs
  rcases hs with ⟨hn, -⟩ | hs
  · rw [hn] at h
    cases h
  · exact ⟨Option.some.inj (h.symm.trans hs), hl⟩

theorem ideWrite_eq {disk buf : Bytes} {lba cnt : ℕ} (hc : 0 < cnt) (hl : lba + cnt ≤ maxLba + 1) :
    ideWrite disk lba buf cnt = some (patch disk (512 * lba) (512 * cnt) buf) := by
  have hs := ideWriteLoop_spec lba cnt buf disk cnt 0 (by omega) (by omega)
  rw [Nat.mul_zero, patch_zero] at hs
  simp only [ideWrite, assert_bind]
  exact ⟨by omega, hc, hs.resolve_left (fun hn => by omega)⟩

end DeviceIde
