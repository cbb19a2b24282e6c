import XianweiOS.PipeTransfer

/-! `sys_write` on the standard output: the bytes are copied into a buffer of 1024 bytes on the
stack, and that is printed up to its first zero. Every access is made byte by byte, and one outside
the buffer stops the machine. -/
namespace ConsoleWrite

open ByteStore HaltingProgram FsVolume FsOpenFiles PipeTransfer

variable {T : Type} [DecidableEq T] {part : Partition} {t : T} {σ : Session T part} {buf : Bytes}
  {count : ℕ}

/-- `memcpy` into a buffer on the stack. -/
def memcpy (src : Bytes) : (size i : ℕ) → List Byte → Option (List Byte)
  | 0, _, dst => some dst
  | size + 1, i, dst => do
    assert (i < dst.length)
    memcpy src size (i + 1) (dst.set i (src i))

/-- `console_put_str`: what is printed. -/
def putStr : List Byte → Option (List Byte)
  | [] => none
  | c :: str =>
    if c = 0 then some []
    else do
      let str ← putStr str
      return c :: str

/-- `char tmp_buf[1024] = {0}`. -/
def tmpBuf : List Byte := List.replicate 1024 0

theorem memcpy_eq {src : Bytes} : ∀ {size i : ℕ} {done rest : List Byte}, done.length = i →
    memcpy src size i (done ++ rest) = if size ≤ rest.length
      then some (done ++ (List.range size).map (fun k => src (i + k)) ++ rest.drop size)
      else none := by
  intro size
  induction size with
  | zero =>
    intro i done rest _
    simp [memcpy]
  | succ size ih =>
    intro i done rest hi
    rw [memcpy]
    cases rest with
    | nil =>
      have hout : ¬i < done.length := by omega
      rw [List.append_nil, assert, if_neg hout]
      rfl
    | cons c rest =>
      have hin : i < (done ++ c :: rest).length := by
        rw [List.length_append, List.length_cons]
        omega
      have hset : (done ++ c :: rest).set i (src i) = done ++ [src i] ++ rest := by
        rw [List.set_append_right i (src i) (by omega), show i - done.length = 0 by omega,
          List.set_cons_zero]
        simp
      have hlen : (done ++ [src i]).length = i + 1 := by
        rw [List.length_append, List.length_singleton, hi]
      have hnext := @ih (i + 1) (done ++ [src i]) rest hlen
      rw [assert_pos hin, Option.bind_eq_bind, Option.bind_some, hset, hnext]
      have hbytes : (List.range (size + 1)).map (fun k => src (i + k)) =
          src i :: (List.range size).map fun k => src (i + 1 + k) := by
        rw [List.range_succ_eq_map, List.map_cons, List.map_map, Nat.add_zero]
        refine congrArg _ (List.map_congr_left fun k _ => congrArg src ?_)
        omega
      simp only [List.length_cons, Nat.succ_le_succ_iff, hbytes, List.drop_succ_cons]
      simp

theorem putStr_eq (str : List Byte) :
    putStr str = if 0 ∈ str then some (str.takeWhile (· ≠ 0)) else none := by
  induction str with
  | nil => rfl
  | cons c str ih =>
    rw [putStr, ih]
    by_cases hc : c = 0
    · subst c
      simp
    · have hmem : (0 : Byte) ∈ c :: str ↔ (0 : Byte) ∈ str :=
        ⟨fun h => (List.mem_cons.mp h).resolve_left (Ne.symm hc), List.mem_cons_of_mem c⟩
      have htake : (c :: str).takeWhile (· ≠ 0) = c :: str.takeWhile (· ≠ 0) :=
        List.takeWhile_cons_of_pos (decide_eq_true hc)
      rw [if_neg hc, htake]
      by_cases hz : (0 : Byte) ∈ str
      · rw [if_pos hz, if_pos (hmem.mpr hz)]
        rfl
      · rw [if_neg hz, if_neg (mt hmem.mp hz)]
        rfl

/-- The bytes that are copied fill the front of the buffer. -/
theorem memcpy_tmpBuf : memcpy buf count 0 tmpBuf = if count ≤ 1024
    then some ((List.range count).map buf ++ List.replicate (1024 - count) 0) else none := by
  have h := @memcpy_eq buf count 0 [] tmpBuf rfl
  rw [List.nil_append] at h
  rw [h, tmpBuf, List.length_replicate, List.drop_replicate]
  simp

/-- Copying and printing byte by byte has the effect of `tmpString`. -/
theorem tmpString_eq : tmpString buf count = (memcpy buf count 0 tmpBuf).bind putStr := by
  rw [memcpy_tmpBuf, tmpString]
  by_cases hle : count ≤ 1024
  · have hbytes : (List.range 1024).map (patch zeroes 0 count buf) =
        (List.range count).map buf ++ List.replicate (1024 - count) 0 := by
      rw [show 1024 = count + (1024 - count) by omega, List.range_add, List.map_append,
        List.map_map]
      refine congrArg₂ _ (List.map_congr_left fun k hk => ?_) ?_
      · have hk := List.mem_range.mp hk
        rw [patch_in (by omega), Nat.sub_zero]
      · refine List.eq_replicate_iff.mpr ⟨by simp, fun c hc => ?_⟩
        obtain ⟨k, -, rfl⟩ := List.mem_map.mp hc
        have hout : ¬(0 ≤ count + k ∧ count + k < 0 + count) := by omega
        exact patch_out hout
    rw [if_pos hle, assert_pos hle, Option.bind_eq_bind, Option.bind_some, Option.bind_some, hbytes,
      putStr_eq]
    simp only [assert]
    split
    · rfl
    · rfl
  · rw [if_neg hle, assert, if_neg hle]
    rfl

/-- The string is that of the buffer, if there is room for its end. -/
theorem tmpString_some_iff : tmpString buf count =
    some (((List.range count).map buf).takeWhile (· ≠ 0)) ↔
    count < 1024 ∨ count = 1024 ∧ ∃ k < 1024, buf k = 0 := by
  rw [tmpString_eq, memcpy_tmpBuf]
  constructor
  · intro h
    by_contra hnot
    obtain ⟨hge, hfull⟩ := not_or.mp hnot
    by_cases hle : count ≤ 1024
    · obtain rfl : count = 1024 := by omega
      rw [if_pos hle, Option.bind_some, Nat.sub_self, List.replicate_zero, List.append_nil, putStr_eq,
        if_neg] at h
      · cases h
      · intro hz
        obtain ⟨k, hk, hkz⟩ := List.mem_map.mp hz
        exact hfull ⟨rfl, k, List.mem_range.mp hk, hkz⟩
    · rw [if_neg hle] at h
      cases h
  · intro h
    have hle : count ≤ 1024 := by
      rcases h with h | ⟨rfl, -⟩
      · exact h.le
      · exact le_rfl
    rw [if_pos hle, Option.bind_some, putStr_eq]
    rcases h with hlt | ⟨rfl, k, hk, hkz⟩
    · obtain ⟨m, hm⟩ : ∃ m, 1024 - count = m + 1 := ⟨1023 - count, by omega⟩
      rw [hm, List.replicate_succ, if_pos (by simp), List.takeWhile_append]
      split
      · rw [List.takeWhile_cons_of_neg (by decide), List.append_nil]
        rename_i hall
        exact congrArg some (List.takeWhile_eq_self_iff.mpr
          (List.takeWhile_eq_self_iff.mp (List.IsPrefix.eq_of_length
            (List.takeWhile_prefix _) hall))).symm
      · rfl
    · have hz : (0 : Byte) ∈ (List.range 1024).map buf :=
        List.mem_map.mpr ⟨k, List.mem_range.mpr hk, hkz⟩
      rw [Nat.sub_self, List.replicate_zero, List.append_nil, if_pos hz]

/-- What the caller meant to be printed. -/
def text (buf : Bytes) (count : ℕ) : List Byte := ((List.range count).map buf).takeWhile (· ≠ 0)

/-- The buffer on the stack is never left, the bytes of the caller up to the first zero are printed,
`count` is returned, and nothing else happens. -/
structure Prints (t : T) (buf : Bytes) (count : ℕ) (σ : Session T part) : Prop where
  inside : (memcpy buf count 0 tmpBuf).bind putStr = some (text buf count)
  printed : sysWrite t 1 buf count σ = some (some ↑count, { σ with dev := { σ.dev with
    console := σ.dev.console ++ text buf count } })

/-- Standard output is printed right if it is shorter than the buffer, or just as long and has a
zero of its own. -/
theorem stdout_prints_iff :
    Prints t buf count σ ↔ count < 1024 ∨ count = 1024 ∧ ∃ k < 1024, buf k = 0 := by
  rw [← tmpString_some_iff]
  constructor
  · intro h
    rw [tmpString_eq, h.inside, text]
  · intro h
    have hin := h
    rw [tmpString_eq] at hin
    refine ⟨hin, ?_⟩
    rw [sysWrite, if_pos (.inl rfl), h]
    rfl

/-- 1024 bytes without a zero: the end of the string is looked for behind the buffer. -/
theorem full_buffer_halts : sysWrite 0 1 (fun _ => 0x41) 1024 (pipeSession 0 0) = none ∧
    ¬Prints 0 (fun _ => 0x41) 1024 (pipeSession 0 0) := by
  have hmem : (0 : Byte) ∉ (List.range 1024).map fun _ => (0x41 : Byte) := by
    intro h
    obtain ⟨k, -, hk⟩ := List.mem_map.mp h
    exact absurd hk (by decide)
  have hstr : tmpString (fun _ => 0x41) 1024 = none := by
    rw [tmpString_eq, memcpy_tmpBuf, if_pos le_rfl, Option.bind_some, Nat.sub_self,
      List.replicate_zero, List.append_nil, putStr_eq, if_neg hmem]
  have hnone : sysWrite 0 1 (fun _ => 0x41) 1024 (pipeSession 0 0) = none := by
    rw [sysWrite, if_pos (.inl rfl), hstr]
    rfl
  refine ⟨hnone, fun h => ?_⟩
  have := h.printed
  rw [hnone] at this
  cases this

end ConsoleWrite
