import XianweiOS.DeviceIde

/-! The registers between `device/ide.c` and a drive. A `READ` or `WRITE` command moves as many
sectors as the count register says, 256 if it says 0, from the 28-bit address in the registers on;
the bytes go through the data port. A command with another transfer still going on, or more bytes
than were announced, have no meaning. The interrupt of a command always arrives (`IdeChannel` is about
waiting for it). -/
namespace IdeRegisters

open ByteStore HaltingProgram DeviceIde

inductive Reg where
  | sectCnt
  | lbaL
  | lbaM
  | lbaH
  | dev
  deriving DecidableEq, Repr

/-- What is left of the last command: `left` bytes of a device from `addr` on. -/
inductive Pending where
  | none
  | reading (dev : Bool) (addr left : ℕ)
  | writing (dev : Bool) (addr left : ℕ)
  deriving DecidableEq, Repr

/-- A channel with its devices 0 (`false`) and 1 (`true`). -/
structure Channel where
  reg : Reg → Byte
  disk : Bool → Bytes
  pending : Pending

def Channel.setReg (c : Channel) (r : Reg) (b : Byte) : Channel :=
  { c with reg := Function.update c.reg r b }

def Channel.setPending (c : Channel) (p : Pending) : Channel := { c with pending := p }

def Channel.setDisk (c : Channel) (dev : Bool) (disk : Bytes) : Channel :=
  { c with disk := Function.update c.disk dev disk }

/-- `outb` to a register other than the command. -/
def outb (r : Reg) (b : Byte) (c : Channel) : Option Channel := do
  assert (c.pending = .none)
  return c.setReg r b

/-- The address in the registers; four bits of it are in the device register. -/
def Channel.lba (c : Channel) : ℕ :=
  (c.reg .lbaL).toNat + 2 ^ 8 * (c.reg .lbaM).toNat + 2 ^ 16 * (c.reg .lbaH).toNat +
    2 ^ 24 * ((c.reg .dev).toNat % 16)

def Channel.secCnt (c : Channel) : ℕ :=
  if c.reg .sectCnt = 0 then 256 else (c.reg .sectCnt).toNat

/-- `BIT_DEV_DEV` -/
def Channel.device (c : Channel) : Bool := (c.reg .dev).getLsbD 4

def cmdReadSector : Byte := 0x20
def cmdWriteSector : Byte := 0x30

/-- `outb` to the command register. Without `BIT_DEV_LBA` the address would be one of cylinders. -/
def outCmd (cmd : Byte) (c : Channel) : Option Channel := do
  assert (c.pending = .none)
  assert ((c.reg .dev).getLsbD 6 = true)
  if cmd = cmdReadSector then
    return c.setPending (.reading c.device (512 * c.lba) (512 * c.secCnt))
  else if cmd = cmdWriteSector then
    return c.setPending (.writing c.device (512 * c.lba) (512 * c.secCnt))
  else none

/-- `insw` of some words to `buf + off`. -/
def insw (buf : Bytes) (off words : ℕ) (c : Channel) : Option (Bytes × Channel) :=
  match c.pending with
  | .reading dev addr left => do
    assert (2 * words ≤ left)
    return (patch buf off (2 * words) (window (c.disk dev) addr),
      c.setPending (if 2 * words = left then .none
        else .reading dev (addr + 2 * words) (left - 2 * words)))
  | _ => none

/-- `outsw` of some words from `buf + off`. -/
def outsw (buf : Bytes) (off words : ℕ) (c : Channel) : Option Channel :=
  match c.pending with
  | .writing dev addr left => do
    assert (2 * words ≤ left)
    let c := c.setDisk dev (patch (c.disk dev) addr (2 * words) (window buf off))
    return c.setPending (if 2 * words = left then .none
      else .writing dev (addr + 2 * words) (left - 2 * words))
  | _ => none

/-! ### The driver -/

def bitDev (dev : Bool) : Byte := if dev then 0x10 else 0

def selectDisk (dev : Bool) (c : Channel) : Option Channel :=
  outb .dev (0xa0 ||| 0x40 ||| bitDev dev) c

def selectSector (dev : Bool) (lba : ℕ) (secCnt : Byte) (c : Channel) : Option Channel := do
  assert (lba ≤ maxLba)
  let c ← outb .sectCnt secCnt c
  let c ← outb .lbaL (BitVec.ofNat 8 lba) c
  let c ← outb .lbaM (BitVec.ofNat 8 (lba >>> 8)) c
  let c ← outb .lbaH (BitVec.ofNat 8 (lba >>> 16)) c
  outb .dev (0x40 ||| 0xa0 ||| bitDev dev ||| BitVec.ofNat 8 (lba >>> 24)) c

/-- The drive is never busy for longer than `busy_wait` waits: it is asked whether it has data to
give or to take. -/
def busyWait (c : Channel) : Bool := c.pending ≠ .none

def sizeInByte (secCnt : Byte) : ℕ := if secCnt = 0 then 256 * 512 else secCnt.toNat * 512

def readFromSector (buf : Bytes) (off : ℕ) (secCnt : Byte) (c : Channel) : Option (Bytes × Channel) :=
  insw buf off (sizeInByte secCnt / 2) c

def write2sector (buf : Bytes) (off : ℕ) (secCnt : Byte) (c : Channel) : Option Channel :=
  outsw buf off (sizeInByte secCnt / 2) c

def ideReadLoop (dev : Bool) (lba secCnt secsDone : ℕ) (buf : Bytes) (c : Channel) :
    Option (Bytes × Channel) :=
  if secsDone < secCnt then do
    let op := secsOp secsDone secCnt
    let c ← selectSector dev (lba + secsDone) (BitVec.ofNat 8 op) c
    let c ← outCmd cmdReadSector c
    assert (busyWait c = true)
    let (buf, c) ← readFromSector buf (secsDone * 512) (BitVec.ofNat 8 op) c
    ideReadLoop dev lba secCnt (secsDone + op) buf c
  else return (buf, c)
termination_by secCnt - secsDone
decreasing_by
  have := secsOp_pos ‹secsDone < secCnt›
  omega

def ideWriteLoop (dev : Bool) (lba : ℕ) (buf : Bytes) (secCnt secsDone : ℕ) (c : Channel) :
    Option Channel :=
  if secsDone < secCnt then do
    let op := secsOp secsDone secCnt
    let c ← selectSector dev (lba + secsDone) (BitVec.ofNat 8 op) c
    let c ← outCmd cmdWriteSector c
    assert (busyWait c = true)
    let c ← write2sector buf (secsDone * 512) (BitVec.ofNat 8 op) c
    ideWriteLoop dev lba buf secCnt (secsDone + op) c
  else return c
termination_by secCnt - secsDone
decreasing_by
  have := secsOp_pos ‹secsDone < secCnt›
  omega

def ideRead (dev : Bool) (lba : ℕ) (buf : Bytes) (secCnt : ℕ) (c : Channel) :
    Option (Bytes × Channel) := do
  assert (lba ≤ maxLba)
  assert (secCnt > 0)
  let c ← selectDisk dev c
  ideReadLoop dev lba secCnt 0 buf c

def ideWrite (dev : Bool) (lba : ℕ) (buf : Bytes) (secCnt : ℕ) (c : Channel) : Option Channel := do
  assert (lba ≤ maxLba)
  assert (secCnt > 0)
  let c ← selectDisk dev c
  ideWriteLoop dev lba buf secCnt 0 c

/-! ### What the registers say -/

section Rounds

variable {c : Channel} {dev : Bool} {lba cnt done op : ℕ} {buf : Bytes}

/-- Between two transfers. -/
def Channel.Idle (c : Channel) : Prop := c.pending = .none

@[simp] theorem setReg_idle (r : Reg) (b : Byte) : (c.setReg r b).Idle ↔ c.Idle := Iff.rfl

@[simp] theorem setReg_self (r : Reg) (b : Byte) : (c.setReg r b).reg r = b :=
  Function.update_self ..

@[simp] theorem setReg_of_ne {r r' : Reg} (h : r' ≠ r) (b : Byte) :
    (c.setReg r b).reg r' = c.reg r' := Function.update_of_ne h ..

theorem outb_idle (h : c.Idle) (r : Reg) (b : Byte) :
    outb r b c = some (c.setReg r b) := by
  rw [outb, assert_pos (show c.pending = .none from h)]
  rfl

/-- The registers hold what was asked for. -/
structure Selected (dev : Bool) (lba cnt : ℕ) (c : Channel) : Prop where
  idle : c.Idle
  mode : (c.reg .dev).getLsbD 6 = true
  device : c.device = dev
  lba : c.lba = lba
  secCnt : c.secCnt = cnt

/-- The last bits of the device register are those of an address of at most 24 bits. -/
theorem deviceByte {dev : Bool} (h : lba ≤ maxLba) :
    0x40 ||| 0xa0 ||| bitDev dev ||| BitVec.ofNat 8 (lba >>> 24) = 0xe0 ||| bitDev dev := by
  have hzero : lba >>> 24 = 0 := by
    rw [Nat.shiftRight_eq_div_pow]
    exact Nat.div_eq_of_lt (lt_of_le_of_lt h (by decide))
  rw [hzero]
  cases dev
  · decide
  · decide

/-- A count of 256 is written as 0 and read as 256. -/
theorem secCnt_byte (h0 : 0 < op) (hop : op ≤ 256) :
    (if BitVec.ofNat 8 op = (0 : Byte) then 256 else (BitVec.ofNat 8 op).toNat) = op := by
  have hnat : (BitVec.ofNat 8 op).toNat = op % 256 := BitVec.toNat_ofNat op 8
  by_cases h : op = 256
  · subst h
    decide
  · have hne : BitVec.ofNat 8 op ≠ (0 : Byte) := by
      intro he
      rw [he] at hnat
      have : (0 : Byte).toNat = 0 := rfl
      omega
    rw [if_neg hne, hnat]
    omega

theorem sizeInByte_eq (h0 : 0 < op) (hop : op ≤ 256) : sizeInByte (BitVec.ofNat 8 op) = 512 * op := by
  have h := secCnt_byte h0 hop
  rw [sizeInByte]
  split
  · rename_i hz
    rw [if_pos hz] at h
    omega
  · rename_i hz
    rw [if_neg hz] at h
    omega

theorem selectDisk_spec (dev : Bool) (h : c.Idle) :
    ∃ c', selectDisk dev c = some c' ∧ c'.Idle ∧ c'.disk = c.disk :=
  ⟨_, outb_idle h _ _, h, rfl⟩

theorem selectSector_spec (dev : Bool) (h : c.Idle) (hl : lba ≤ maxLba) (h0 : 0 < op)
    (hop : op ≤ 256) : ∃ c', selectSector dev lba (BitVec.ofNat 8 op) c = some c' ∧
      Selected dev lba op c' ∧ c'.disk = c.disk := by
  have hlba : lba < 2 ^ 24 := lt_of_le_of_lt hl (by decide)
  refine ⟨((((c.setReg .sectCnt (BitVec.ofNat 8 op)).setReg .lbaL (BitVec.ofNat 8 lba)).setReg .lbaM
    (BitVec.ofNat 8 (lba >>> 8))).setReg .lbaH (BitVec.ofNat 8 (lba >>> 16))).setReg .dev
    (0xe0 ||| bitDev dev), ?_, ⟨h, ?_, ?_, ?_, ?_⟩, rfl⟩
  · rw [selectSector, assert_pos hl, deviceByte hl]
    simp only [outb_idle, setReg_idle, h, Option.bind_eq_bind, Option.bind_some]
  · rw [setReg_self]
    cases dev
    · decide
    · decide
  · rw [Channel.device, setReg_self]
    cases dev
    · decide
    · decide
  · have hdev : (0xe0 ||| bitDev dev).toNat % 16 = 0 := by
      cases dev
      · decide
      · decide
    simp only [Channel.lba, setReg_self, ne_eq, reduceCtorEq, not_false_eq_true, setReg_of_ne,
      BitVec.toNat_ofNat, Nat.shiftRight_eq_div_pow, hdev]
    omega
  · simp only [Channel.secCnt, setReg_self, ne_eq, reduceCtorEq, not_false_eq_true, setReg_of_ne]
    exact secCnt_byte h0 hop

theorem outCmd_read {c : Channel} (h : Selected dev lba op c) : outCmd cmdReadSector c =
    some (c.setPending (.reading dev (512 * lba) (512 * op))) := by
  rw [outCmd, assert_pos (show c.pending = .none from h.idle), assert_pos h.mode, if_pos rfl,
    h.device, h.lba, h.secCnt]
  rfl

theorem outCmd_write {c : Channel} (h : Selected dev lba op c) : outCmd cmdWriteSector c =
    some (c.setPending (.writing dev (512 * lba) (512 * op))) := by
  rw [outCmd, assert_pos (show c.pending = .none from h.idle), assert_pos h.mode,
    if_neg (by decide), if_pos rfl, h.device, h.lba, h.secCnt]
  rfl

theorem readFromSector_spec (dev : Bool) (a off : ℕ) (buf : Bytes) (c : Channel) (h0 : 0 < op)
    (hop : op ≤ 256) :
    readFromSector buf off (BitVec.ofNat 8 op) (c.setPending (.reading dev a (512 * op))) =
      some (patch buf off (512 * op) (window (c.disk dev) a), c.setPending .none) := by
  have hwords : 2 * (512 * op / 2) = 512 * op := by omega
  rw [readFromSector, sizeInByte_eq h0 hop, insw]
  simp only [Channel.setPending, hwords, assert_pos le_rfl, if_pos]
  rfl

theorem write2sector_spec (dev : Bool) (a off : ℕ) (buf : Bytes) (c : Channel) (h0 : 0 < op)
    (hop : op ≤ 256) :
    write2sector buf off (BitVec.ofNat 8 op) (c.setPending (.writing dev a (512 * op))) =
      some ((c.setDisk dev (patch (c.disk dev) a (512 * op) (window buf off))).setPending
        .none) := by
  have hwords : 2 * (512 * op / 2) = 512 * op := by omega
  rw [write2sector, sizeInByte_eq h0 hop, outsw]
  simp only [Channel.setPending, hwords, assert_pos le_rfl, if_pos]
  rfl

theorem busyWait_pending {p : Pending} (h : p ≠ .none) : busyWait (c.setPending p) = true :=
  decide_eq_true h

theorem secsOp_le_256 : secsOp done cnt ≤ 256 := by
  unfold secsOp
  split
  · exact le_rfl
  · omega

/-- One round of the read loop moves its part of the sectors. -/
theorem read_round (dev : Bool) (h : c.Idle) (hdone : done < cnt) (hl : lba + cnt ≤ maxLba + 1)
    (buf : Bytes) : ∃ c', c'.Idle ∧ c'.disk = c.disk ∧ ideReadLoop dev lba cnt done buf c =
      ideReadLoop dev lba cnt (done + secsOp done cnt)
        (patch buf (512 * done) (512 * secsOp done cnt)
          (window (c.disk dev) (512 * (lba + done)))) c' := by
  have h0 := secsOp_pos hdone
  obtain ⟨c₁, hsel, hs, hdisk⟩ :=
    selectSector_spec dev h (show lba + done ≤ maxLba by omega) h0 secsOp_le_256
  refine ⟨c₁.setPending .none, rfl, hdisk, ?_⟩
  conv_lhs => rw [ideReadLoop, if_pos hdone]
  simp only [hsel, outCmd_read hs, Option.bind_eq_bind, Option.bind_some,
    readFromSector_spec _ _ _ _ _ h0 secsOp_le_256]
  rw [assert_pos (busyWait_pending (by simp)), Option.bind_some, Nat.mul_comm done, hdisk]

theorem write_round (dev : Bool) (h : c.Idle) (hdone : done < cnt) (hl : lba + cnt ≤ maxLba + 1)
    (buf : Bytes) : ∃ c', c'.Idle ∧
      c'.disk = Function.update c.disk dev (patch (c.disk dev) (512 * (lba + done))
        (512 * secsOp done cnt) (window buf (512 * done))) ∧
      ideWriteLoop dev lba buf cnt done c =
        ideWriteLoop dev lba buf cnt (done + secsOp done cnt) c' := by
  have h0 := secsOp_pos hdone
  obtain ⟨c₁, hsel, hs, hdisk⟩ :=
    selectSector_spec dev h (show lba + done ≤ maxLba by omega) h0 secsOp_le_256
  refine ⟨(c₁.setDisk dev (patch (c₁.disk dev) (512 * (lba + done)) (512 * secsOp done cnt)
    (window buf (done * 512)))).setPending .none, rfl, ?_, ?_⟩
  · rw [← hdisk, Nat.mul_comm 512 done]
    rfl
  · conv_lhs => rw [ideWriteLoop, if_pos hdone]
    simp only [hsel, outCmd_write hs, Option.bind_eq_bind, Option.bind_some,
      write2sector_spec _ _ _ _ _ h0 secsOp_le_256]
    rw [assert_pos (busyWait_pending (by simp)), Option.bind_some]

/-- What is left to do of a read, by induction on it. -/
theorem ideReadLoop_spec (dev : Bool) (hl : lba + cnt ≤ maxLba + 1) (buf : Bytes) (h : c.Idle)
    (hdone : done ≤ cnt) : ∃ c', c'.Idle ∧ c'.disk = c.disk ∧
      ideReadLoop dev lba cnt done (patch buf 0 (512 * done) (window (c.disk dev) (512 * lba))) c =
        some (patch buf 0 (512 * cnt) (window (c.disk dev) (512 * lba)), c') := by
  induction hn : cnt - done using Nat.strong_induction_on generalizing done c with
  | h n ih =>
    by_cases hlt : done < cnt
    · have h0 := secsOp_pos hlt
      obtain ⟨c₁, h₁, hdisk₁, hround⟩ := read_round dev h hlt hl
        (patch buf 0 (512 * done) (window (c.disk dev) (512 * lba)))
      obtain ⟨c', h', hdisk', hrest⟩ := ih (cnt - (done + secsOp done cnt)) (by omega) h₁
        (secsOp_le hlt) rfl
      refine ⟨c', h', hdisk'.trans hdisk₁, ?_⟩
      rw [hdisk₁] at hrest
      have hadd := patch_append buf (window (c.disk dev) (512 * lba)) 0 (512 * done)
        (512 * secsOp done cnt)
      rw [window_window, Nat.zero_add, ← Nat.mul_add, ← Nat.mul_add] at hadd
      rw [hround, hadd, hrest]
    · obtain rfl : done = cnt := by omega
      refine ⟨c, h, rfl, ?_⟩
      rw [ideReadLoop, if_neg hlt]
      rfl

theorem ideWriteLoop_spec (dev : Bool) (hl : lba + cnt ≤ maxLba + 1) (buf disk : Bytes)
    (h : c.Idle) (hdone : done ≤ cnt)
    (hdisk : c.disk dev = patch disk (512 * lba) (512 * done) buf) : ∃ c', c'.Idle ∧
      c'.disk = Function.update c.disk dev (patch disk (512 * lba) (512 * cnt) buf) ∧
      ideWriteLoop dev lba buf cnt done c = some c' := by
  induction hn : cnt - done using Nat.strong_induction_on generalizing done c with
  | h n ih =>
    by_cases hlt : done < cnt
    · have h0 := secsOp_pos hlt
      obtain ⟨c₁, h₁, hdisk₁, hround⟩ := write_round dev h hlt hl buf
      have hadd := patch_append disk buf (512 * lba) (512 * done) (512 * secsOp done cnt)
      rw [← Nat.mul_add, ← Nat.mul_add] at hadd
      rw [hdisk, hadd] at hdisk₁
      obtain ⟨c', h', hdisk', hrest⟩ := ih (cnt - (done + secsOp done cnt)) (by omega) h₁
        (secsOp_le hlt) (by rw [hdisk₁, Function.update_self]) rfl
      refine ⟨c', h', ?_, hround.trans hrest⟩
      rw [hdisk', hdisk₁, Function.update_idem]
    · obtain rfl : done = cnt := by omega
      refine ⟨c, h, ?_, ?_⟩
      · rw [← hdisk, Function.update_eq_self]
      · rw [ideWriteLoop, if_neg hlt]
        rfl

/-- A read fills the buffer, and nothing else changes. -/
theorem ideRead_spec (dev : Bool) (h : c.Idle) (hcnt : 0 < cnt) (hl : lba + cnt ≤ maxLba + 1)
    (buf : Bytes) : ∃ c', c'.Idle ∧ c'.disk = c.disk ∧ ideRead dev lba buf cnt c =
      some (patch buf 0 (512 * cnt) (window (c.disk dev) (512 * lba)), c') := by
  obtain ⟨c₁, hsel, h₁, hdisk₁⟩ := selectDisk_spec dev h
  obtain ⟨c', h', hdisk', hrun⟩ := ideReadLoop_spec dev hl buf h₁ (Nat.zero_le cnt)
  refine ⟨c', h', hdisk'.trans hdisk₁, ?_⟩
  rw [Nat.mul_zero, patch_zero, hdisk₁] at hrun
  rw [ideRead, assert_pos (by omega), assert_pos hcnt, hsel]
  exact hrun

/-- A write replaces the sectors of one device. -/
theorem ideWrite_spec (dev : Bool) (h : c.Idle) (hcnt : 0 < cnt) (hl : lba + cnt ≤ maxLba + 1)
    (buf : Bytes) : ∃ c', c'.Idle ∧
      c'.disk = Function.update c.disk dev (patch (c.disk dev) (512 * lba) (512 * cnt) buf) ∧
      ideWrite dev lba buf cnt c = some c' := by
  obtain ⟨c₁, hsel, h₁, hdisk₁⟩ := selectDisk_spec dev h
  obtain ⟨c', h', hdisk', hrun⟩ := ideWriteLoop_spec dev hl buf (c.disk dev) h₁ (Nat.zero_le cnt)
    (by rw [hdisk₁, Nat.mul_zero, patch_zero])
  refine ⟨c', h', by rw [hdisk', hdisk₁], ?_⟩
  rw [ideWrite, assert_pos (by omega), assert_pos hcnt, hsel]
  exact hrun

/-- The driver over the registers has the effect that the file system is told. -/
theorem ideRead_refines (dev : Bool) (h : c.Idle) (hcnt : 0 < cnt) (hl : lba + cnt ≤ maxLba + 1)
    (buf : Bytes) :
    (ideRead dev lba buf cnt c).map Prod.fst = DeviceIde.ideRead (c.disk dev) lba buf cnt := by
  obtain ⟨c', -, -, hrun⟩ := ideRead_spec dev h hcnt hl buf
  rw [hrun, ideRead_eq hcnt hl]
  rfl

theorem ideWrite_refines (dev : Bool) (h : c.Idle) (hcnt : 0 < cnt) (hl : lba + cnt ≤ maxLba + 1)
    (buf : Bytes) : (ideWrite dev lba buf cnt c).map (fun c' => c'.disk dev) =
      DeviceIde.ideWrite (c.disk dev) lba buf cnt := by
  obtain ⟨c', -, hdisk, hrun⟩ := ideWrite_spec dev h hcnt hl buf
  rw [hrun, ideWrite_eq hcnt hl, Option.map_some, hdisk, Function.update_self]

/-- What was written is read back; the other sectors and the other device keep what they hold. -/
theorem write_read_round_trip (dev : Bool) (h : c.Idle) (hcnt : 0 < cnt)
    (hl : lba + cnt ≤ 163840) (buf buf' : Bytes) :
    ∃ c', ideWrite dev lba buf cnt c = some c' ∧ c'.Idle ∧
      (∀ s, s < lba ∨ lba + cnt ≤ s → ∀ a ∈ sector s, c'.disk dev a = c.disk dev a) ∧
      c'.disk (!dev) = c.disk (!dev) ∧
      ∃ read c'', ideRead dev lba buf' cnt c' = some (read, c'') ∧ c''.Idle ∧
        c''.disk = c'.disk ∧ (∀ i < 512 * cnt, read i = buf i) ∧
        ∀ i, 512 * cnt ≤ i → read i = buf' i := by
  have hmax : lba + cnt ≤ maxLba + 1 := hl
  obtain ⟨c', h', hdisk', hwrite⟩ := ideWrite_spec dev h hcnt hmax buf
  obtain ⟨c'', h'', hdisk'', hread⟩ := ideRead_spec dev h' hcnt hmax buf'
  refine ⟨c', hwrite, h', fun s hs a ha => ?_, ?_, _, c'', hread, h'', hdisk'', fun i hi => ?_,
    fun i hi => patch_out (by omega)⟩
  · rw [mem_sector] at ha
    rw [hdisk', Function.update_self]
    exact patch_out (by omega)
  · rw [hdisk', Function.update_of_ne (by simp)]
  · rw [patch_in (by omega), hdisk', Function.update_self, Nat.sub_zero, window,
      patch_in (by omega), Nat.add_sub_cancel_left]

end Rounds

/-- A channel at rest over empty disks. -/
def restingChannel : Channel := ⟨fun _ => 0, fun _ => zeroes, .none⟩

/-- The first byte of every sector is its number. -/
def numbered : Bytes := fun i => BitVec.ofNat 8 (i / 512)

/-- 300 sectors go in two commands, of which the first has the count 0. -/
theorem write_read_round_trip_two : ∃ c', ideWrite true 5 numbered 300 restingChannel = some c' ∧
    ∃ read c'', ideRead true 5 zeroes 300 c' = some (read, c'') ∧ read (512 * 256) = 0 ∧
      read (512 * 299) = 43 := by
  obtain ⟨c', hwrite, -, -, -, read, c'', hread, -, -, hsame, -⟩ := write_read_round_trip true
    (show restingChannel.Idle from rfl) (show 0 < 300 by decide)
    (show 5 + 300 ≤ 163840 by decide) numbered zeroes
  exact ⟨c', hwrite, read, c'', hread, (hsame _ (by decide)).trans (by decide),
    (hsame _ (by decide)).trans (by decide)⟩

end IdeRegisters
