import XianweiOS.PipeTransfer

/-! The four calls that take a descriptor, from the signed number of the caller on. What is no
descriptor reaches the table through `fd_local2global`, whose only check is an assertion on the entry
it has read; an access outside the table stops the machine here as well. Messages on the screen are
no part of the state. -/
namespace FsDescriptorChecks

open ByteStore HaltingProgram FsVolume FsOpenFiles FsSyscalls FsProcesses PipeTransfer

variable {T : Type} [DecidableEq T] {part : Partition} {t : T} {fd : ℤ} {σ : Session T part}

def sysClose (fd : ℤ) (σ : Session T part) : Option (ℤ × Session T part) :=
  if fd > 2 then do
    let (ret, s) ← FsSyscalls.sysClose fd.toNat σ.kernel
    return (ret, { σ with kernel := s })
  else return (-1, σ)

def sysWrite (t : T) (fd : ℤ) (buf : Bytes) (count : ℕ) (σ : Session T part) :
    Option (Option ℤ × Session T part) :=
  if fd < 0 then return (some (-1), σ) else PipeTransfer.sysWrite t fd.toNat buf count σ

/-- `buf` is `none` for a null pointer. -/
def sysRead (t : T) (fd : ℤ) (buf : Option Bytes) (count : ℕ) (σ : Session T part) :
    Option (Option (ℤ × Bytes) × Session T part) := do
  let buf ← buf
  if fd < 0 then return (some (-1, buf), σ) else PipeTransfer.sysRead t fd.toNat buf count σ

/-- `ASSERT(whence > 0 && whence < 4)` -/
def whenceOf : ℕ → Option Whence
  | 1 => some .seekSet
  | 2 => some .seekCur
  | 3 => some .seekEnd
  | _ => none

def sysLseek (ioqWord : ℕ) (fd offset : ℤ) (whence : ℕ) (σ : Session T part) :
    Option (ℤ × Session T part) :=
  if fd < 0 then return (-1, σ)
  else do
    let whence ← whenceOf whence
    let (pos, s) ← FsProcesses.sysLseek ioqWord fd.toNat offset whence σ.kernel
    return (pos, { σ with kernel := s })

/-- The calls with their other arguments. -/
inductive Call where
  | close
  | write (buf : Bytes) (count : ℕ)
  | read (buf : Option Bytes) (count : ℕ)
  | lseek (ioqWord : ℕ) (offset : ℤ) (whence : ℕ)

/-- The call returns `-1` and changes nothing, not even the buffer of the caller. -/
def Rejects (t : T) (fd : ℤ) (σ : Session T part) : Call → Prop
  | .close => sysClose fd σ = some (-1, σ)
  | .write buf count => sysWrite t fd buf count σ = some (some (-1), σ)
  | .read buf count => ∃ bytes, buf = some bytes ∧ sysRead t fd buf count σ = some (some (-1, bytes), σ)
  | .lseek ioqWord offset whence => sysLseek ioqWord fd offset whence σ = some (-1, σ)

/-- No descriptor of the process: outside the table, or a free entry of it. -/
def NoDescriptor (fd : ℤ) (σ : Session T part) : Prop :=
  fd < 0 ∨ maxFilesOpenPerProc ≤ fd ∨ σ.kernel.cur.fdTable fd.toNat = none

/-- When the call itself looks at the number. -/
def Checks (fd : ℤ) : Call → Prop
  | .close => fd ≤ 2
  | .write _ _ => fd < 0
  | .read buf _ => buf ≠ none ∧ (fd < 0 ∨ fd = 1 ∨ fd = 2)
  | .lseek _ _ _ => fd < 0

/-! A number that the call does not look at stops the machine. -/

section Tables

omit [DecidableEq T]

theorem fdLocal2global_none (h : NoDescriptor fd σ) (h0 : 0 ≤ fd) :
    fdLocal2global fd.toNat σ.kernel = none := by
  rw [fdLocal2global]
  rcases h with hneg | hge | hfree
  · omega
  · have hout : ¬fd.toNat < maxFilesOpenPerProc := by omega
    rw [assert, if_neg hout]
    rfl
  · rw [hfree]
    by_cases hin : fd.toNat < maxFilesOpenPerProc
    · rw [assert_pos hin]
      rfl
    · rw [assert, if_neg hin]
      rfl

theorem sysClose_halts (h : NoDescriptor fd σ) (h2 : 2 < fd) : sysClose fd σ = none := by
  rw [sysClose, if_pos h2, FsSyscalls.sysClose, if_neg (by omega), fdLocal2global_none h (by omega)]
  rfl

theorem sysLseek_halts (h : NoDescriptor fd σ) (h0 : 0 ≤ fd) (ioqWord : ℕ) (offset : ℤ)
    (whence : ℕ) : sysLseek ioqWord fd offset whence σ = none := by
  rw [sysLseek, if_neg (by omega)]
  cases whenceOf whence with
  | none => rfl
  | some w =>
    rw [Option.bind_eq_bind, Option.bind_some, FsProcesses.sysLseek, fdLocal2global_none h h0]
    rfl

end Tables

theorem sysWrite_halts (h : NoDescriptor fd σ) (h0 : 0 ≤ fd) (h12 : ¬(fd = 1 ∨ fd = 2))
    (buf : Bytes) (count : ℕ) : sysWrite t fd buf count σ = none := by
  rw [sysWrite, if_neg (by omega), PipeTransfer.sysWrite, if_neg (by omega),
    fdLocal2global_none h h0]
  rfl

theorem sysRead_halts (h : NoDescriptor fd σ) (h0 : 0 ≤ fd) (h12 : ¬(fd = 1 ∨ fd = 2))
    (buf : Option Bytes) (count : ℕ) : sysRead t fd buf count σ = none := by
  cases buf with
  | none => rfl
  | some bytes =>
    rw [sysRead, Option.bind_eq_bind, Option.bind_some, if_neg (by omega), PipeTransfer.sysRead,
      if_neg (by omega), fdLocal2global_none h h0]
    rfl

/-- What is written to a standard output is counted, whatever its entry says. -/
theorem sysWrite_standard {buf : Bytes} {count : ℕ} {r : Option ℤ} {σ' : Session T part}
    (h12 : fd = 1 ∨ fd = 2) (h : sysWrite t fd buf count σ = some (r, σ')) : r = some ↑count := by
  rw [sysWrite, if_neg (by omega), PipeTransfer.sysWrite, if_pos (by omega)] at h
  cases hstr : tmpString buf count with
  | none =>
    rw [hstr] at h
    cases h
  | some str =>
    rw [hstr] at h
    exact (Prod.mk.inj (Option.some.inj h)).1.symm

/-- A number that is no descriptor is refused where the call compares it before the table is
read. -/
theorem rejects_iff (h : NoDescriptor fd σ) (c : Call) : Rejects t fd σ c ↔ Checks fd c := by
  cases c with
  | close =>
    constructor
    · intro hr
      by_contra hgt
      rw [Rejects, sysClose_halts h (by simpa [Checks] using hgt)] at hr
      cases hr
    · intro hle
      exact if_neg (not_lt.mpr hle)
  | write buf count =>
    constructor
    · intro hr
      by_contra hneg
      have h0 : 0 ≤ fd := not_lt.mp hneg
      by_cases h12 : fd = 1 ∨ fd = 2
      · have hcount := Option.some.inj (sysWrite_standard h12 hr)
        omega
      · rw [Rejects, sysWrite_halts h h0 h12] at hr
        cases hr
    · exact fun hneg => if_pos hneg
  | read buf count =>
    constructor
    · rintro ⟨bytes, rfl, hr⟩
      refine ⟨Option.some_ne_none _, ?_⟩
      by_contra hnot
      rw [sysRead_halts h (by omega) (by omega)] at hr
      cases hr
    · rintro ⟨hbuf, hfd⟩
      obtain ⟨bytes, rfl⟩ := Option.ne_none_iff_exists'.mp hbuf
      refine ⟨bytes, rfl, ?_⟩
      rw [sysRead, Option.bind_eq_bind, Option.bind_some]
      split
      · rfl
      · rw [PipeTransfer.sysRead, if_pos (by omega)]
        rfl
  | lseek ioqWord offset whence =>
    constructor
    · intro hr
      by_contra hneg
      rw [Rejects, sysLseek_halts h (not_lt.mp hneg)] at hr
      cases hr
    · exact fun hneg => if_pos hneg

/-- `-1` is no descriptor, and no call accepts it. -/
theorem rejects_iff_minus_one : Rejects 0 (-1) (pipeSession 0 0) (.write zeroes 1) :=
  (rejects_iff (.inl (by decide)) _).mpr (show (-1 : ℤ) < 0 by decide)

/-- A free entry of the table: nothing is closed and the machine stops. -/
theorem free_entry_halts : (pipeSession 0 0).kernel.cur.fdTable 5 = none ∧
    sysClose 5 (pipeSession 0 0) = none ∧ ¬Rejects 0 5 (pipeSession 0 0) .close := by
  have hfree : (pipeSession 0 0).kernel.cur.fdTable 5 = none := rfl
  have hnone : sysClose 5 (pipeSession 0 0) = none := sysClose_halts (.inr (.inr hfree)) (by decide)
  refine ⟨hfree, hnone, fun h => ?_⟩
  rw [Rejects, hnone] at h
  cases h

end FsDescriptorChecks
