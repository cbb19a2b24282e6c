import XianweiOS.TextStore
import XianweiOS.HaltingProgram
import Mathlib.Data.Nat.Digits.Defs
import Mathlib.Tactic.IntervalCases

/-! `vsprintf` and `sprintf` of `lib/stdio.c`, with `strcpy` and `strlen` of `lib/string.c`. The
format, the strings and the buffer are bytes in one memory. -/
namespace StringFormat

open ByteStore HaltingProgram TextStore

abbrev Word := BitVec 32

def put (mem : Bytes) (a : ℕ) (b : Byte) : Bytes := Function.update mem a b

/-- `while (*p++)`: where `p` stands behind the loop. -/
def strlenLoop (mem : Bytes) : (fuel p : ℕ) → Option ℕ
  | 0, _ => none
  | fuel + 1, p => if mem p ≠ 0 then strlenLoop mem fuel (p + 1) else some (p + 1)

def strlen (fuel str : ℕ) (mem : Bytes) : Option ℕ := do
  assert (str ≠ 0)
  let p ← strlenLoop mem fuel str
  return (p - str - 1) % 2 ^ 32

/-- `while ((*dst_++ = *src_++))` -/
def strcpyLoop : (fuel dst src : ℕ) → (mem : Bytes) → Option Bytes
  | 0, _, _, _ => none
  | fuel + 1, dst, src, mem =>
    let b := mem src
    let mem := put mem dst b
    if b ≠ 0 then strcpyLoop fuel (dst + 1) (src + 1) mem else some mem

def strcpy (fuel dst src : ℕ) (mem : Bytes) : Option Bytes := do
  assert (src ≠ 0 ∧ dst ≠ 0)
  strcpyLoop fuel dst src mem

/-- `m + '0'` and `m - 10 + 'A'` -/
def digit (m : ℕ) : Byte := if m < 10 then BitVec.ofNat 8 (m + 48) else BitVec.ofNat 8 (m - 10 + 65)

/-- `*buf_ptr_addr` is passed on. -/
def itoa : (fuel value base : ℕ) → (mem : Bytes) → (bufPtr : ℕ) → Option (Bytes × ℕ)
  | 0, _, _, _, _ => none
  | fuel + 1, value, base, mem, bufPtr => do
    let m := value % base
    let i := value / base
    let (mem, bufPtr) ← if i ≠ 0 then itoa fuel i base mem bufPtr else some (mem, bufPtr)
    return (put mem bufPtr (digit m), bufPtr + 1)

/-- The variables of `vsprintf`. Of the arguments those that are still to come. -/
structure Printer where
  mem : Bytes
  bufPtr : ℕ
  indexPtr : ℕ
  indexChar : Byte
  ap : List Word

namespace Printer

/-- `*(buf_ptr++) = b` -/
def emit (s : Printer) (b : Byte) : Printer :=
  { s with mem := put s.mem s.bufPtr b, bufPtr := s.bufPtr + 1 }

/-- `index_char = *(++index_ptr)` -/
def next (s : Printer) : Printer :=
  { s with indexPtr := s.indexPtr + 1, indexChar := s.mem (s.indexPtr + 1) }

/-- An argument that was not passed has no meaning. -/
def vaArg (s : Printer) : Option (Word × Printer) :=
  match s.ap with
  | [] => none
  | arg :: ap => some (arg, { s with ap })

def itoa (s : Printer) (fuel value base : ℕ) : Option Printer := do
  let (mem, bufPtr) ← StringFormat.itoa fuel value base s.mem s.bufPtr
  return { s with mem, bufPtr }

end Printer

/-- `'%'` -/
def percent : Byte := 37

/-- The `switch` behind a `'%'`. A character without a case is left for the loop. -/
def directive (fuel : ℕ) (s : Printer) : Option Printer :=
  if s.indexChar = 115 then do -- 's'
    let (argStr, s) ← s.vaArg
    let mem ← strcpy fuel s.bufPtr argStr.toNat s.mem
    let n ← strlen fuel argStr.toNat mem
    return { s with mem, bufPtr := s.bufPtr + n }.next
  else if s.indexChar = 120 then do -- 'x'
    let (argInt, s) ← s.vaArg
    let s ← s.itoa fuel argInt.toNat 16
    return s.next
  else if s.indexChar = 99 then do -- 'c'
    let (arg, s) ← s.vaArg
    return (s.emit (arg.setWidth 8)).next
  else if s.indexChar = 100 then do -- 'd'
    let (argInt, s) ← s.vaArg
    let (argInt, s) := if argInt.toInt < 0 then (0 - argInt, s.emit 45) else (argInt, s)
    let s ← s.itoa fuel argInt.toNat 10
    return s.next
  else some s

def vsprintfLoop : (fuel : ℕ) → Printer → Option Printer
  | 0, _ => none
  | fuel + 1, s =>
    if s.indexChar ≠ 0 then
      if s.indexChar ≠ percent then vsprintfLoop fuel (s.emit s.indexChar).next
      else do
        let s ← directive fuel s.next
        vsprintfLoop fuel s
    else some s

def vsprintf (fuel str format : ℕ) (ap : List Word) (mem : Bytes) : Option (ℕ × Bytes) := do
  let s ← vsprintfLoop fuel ⟨mem, str, format, mem format, ap⟩
  let n ← strlen fuel str s.mem
  return (n, s.mem)

/-- The arguments behind `format` are on the stack, from where `va_arg` takes them. -/
def sprintf (fuel buf format : ℕ) (args : List Word) (mem : Bytes) : Option (ℕ × Bytes) := do
  let (retval, mem) ← vsprintf fuel buf format args mem
  return (retval, mem)

/-! ### Formats, arguments and their text -/

/-- A part of a format with the argument it takes. -/
inductive Piece
  | ordinary (b : Byte)
  | string (argStr : Word) (s : List Byte)
  | hexadecimal (argInt : Word)
  | decimal (argInt : Word)
  | character (arg : Word)
  deriving DecidableEq, Repr

/-- `0123456789ABCDEF` -/
def digitTable : List Byte := [48, 49, 50, 51, 52, 53, 54, 55, 56, 57, 65, 66, 67, 68, 69, 70]

def numeral (base value : ℕ) : List Byte :=
  if value = 0 then [48] else (base.digits value).reverse.map fun d => digitTable.getD d 0

namespace Piece

def format : Piece → List Byte
  | ordinary b => [b]
  | string _ _ => [percent, 115]
  | hexadecimal _ => [percent, 120]
  | decimal _ => [percent, 100]
  | character _ => [percent, 99]

def args : Piece → List Word
  | ordinary _ => []
  | string arg _ | hexadecimal arg | decimal arg | character arg => [arg]

def text : Piece → List Byte
  | ordinary b => [b]
  | string _ s => s
  | hexadecimal argInt => numeral 16 argInt.toNat
  | decimal argInt =>
    if argInt.toInt < 0 then 45 :: numeral 10 argInt.toInt.natAbs
    else numeral 10 argInt.toInt.natAbs
  | character arg => [arg.setWidth 8]

/-- Only a string brings its NUL along. -/
def nul : Piece → List Byte
  | string _ _ => [0]
  | _ => []

end Piece

def formatOf (pieces : List Piece) : List Byte := pieces.flatMap Piece.format
def argsOf (pieces : List Piece) : List Word := pieces.flatMap Piece.args
def textOf (pieces : List Piece) : List Byte := pieces.flatMap Piece.text

/-- Later characters cover a NUL, so that only that of a string at the end is left. -/
def nulOf (pieces : List Piece) : List Byte := (pieces.getLast?.map Piece.nul).getD []

/-- A call as it is meant: the format and the strings are there and apart from the bytes of the
buffer that the text and its NUL take. -/
structure Call (mem : Bytes) (buf format : ℕ) (pieces : List Piece) : Prop where
  spelled : Reads mem format (formatOf pieces ++ [0])
  ordinary : ∀ b, Piece.ordinary b ∈ pieces → b ≠ 0 ∧ b ≠ percent
  strings : ∀ arg s, Piece.string arg s ∈ pieces → arg ≠ 0 ∧ 0 ∉ s ∧
    Reads mem arg.toNat (s ++ [0]) ∧
    Disjoint (span buf ((textOf pieces).length + 1)) (span arg.toNat (s.length + 1))
  apart : Disjoint (span buf ((textOf pieces).length + 1))
    (span format ((formatOf pieces).length + 1))
  buf_ne : buf ≠ 0
  fits : buf + (textOf pieces).length < 2 ^ 32

variable {mem : Bytes} {a buf format fuel value base : ℕ} {s : List Byte} {p : Piece}
  {pieces : List Piece}

/-! ### Strings -/

theorem strlenLoop_spec : ∀ {s : List Byte} {a fuel : ℕ}, Reads mem a (s ++ [0]) → 0 ∉ s →
    s.length < fuel → strlenLoop mem fuel a = some (a + s.length + 1)
  | _, _, 0, _, _, hfuel => absurd hfuel (Nat.not_lt_zero _)
  | [], a, fuel + 1, h, _, _ => by
    have hzero : mem a = 0 := (reads_cons.mp h).1
    rw [strlenLoop, if_neg (not_not_intro hzero)]
    rfl
  | b :: s, a, fuel + 1, h, hs, hfuel => by
    obtain ⟨hb, hrest⟩ := reads_cons.mp h
    rw [List.mem_cons, not_or] at hs
    rw [List.length_cons] at hfuel ⊢
    rw [strlenLoop, if_pos (by rw [hb]; exact Ne.symm hs.1),
      strlenLoop_spec hrest hs.2 (by omega)]
    congr 1
    omega

theorem strlen_spec (ha : a ≠ 0) (h : Reads mem a (s ++ [0])) (hs : 0 ∉ s)
    (hlen : s.length < 2 ^ 32) (hfuel : s.length < fuel) : strlen fuel a mem = some s.length := by
  rw [strlen, assert_pos ha]
  change (strlenLoop mem fuel a >>= fun p => some ((p - a - 1) % 2 ^ 32)) = _
  rw [strlenLoop_spec h hs hfuel]
  change some ((a + s.length + 1 - a - 1) % 2 ^ 32) = _
  rw [show a + s.length + 1 - a - 1 = s.length by omega, Nat.mod_eq_of_lt hlen]

theorem strcpyLoop_spec : ∀ {s : List Byte} {mem : Bytes} {dst src fuel : ℕ},
    Reads mem src (s ++ [0]) → 0 ∉ s →
    Disjoint (span dst (s.length + 1)) (span src (s.length + 1)) → s.length < fuel →
    strcpyLoop fuel dst src mem = some (store mem dst (s ++ [0]))
  | _, _, _, _, 0, _, _, _, hfuel => absurd hfuel (Nat.not_lt_zero _)
  | [], mem, dst, src, fuel + 1, h, _, _, _ => by
    have hzero : mem src = 0 := (reads_cons.mp h).1
    rw [strcpyLoop, hzero]
    exact congrArg some (store_singleton mem dst 0).symm
  | b :: s, mem, dst, src, fuel + 1, h, hs, hdisj, hfuel => by
    obtain ⟨hb, hrest⟩ := reads_cons.mp h
    rw [List.mem_cons, not_or] at hs
    rw [List.length_cons] at hdisj hfuel
    have hdisj' : Disjoint (span dst ([b] : List Byte).length)
        (span (src + 1) (s ++ [0]).length) := by
      apply hdisj.mono
      · exact fun x hx => ⟨hx.1, by have := hx.2; rw [List.length_singleton] at this; omega⟩
      · intro x hx
        rw [List.length_append, List.length_singleton] at hx
        exact ⟨by have := hx.1; omega, by have := hx.2; omega⟩
    rw [strcpyLoop, hb, if_pos (Ne.symm hs.1), put, ← store_singleton,
      strcpyLoop_spec (hrest.frame (changes_store mem dst [b]) hdisj') hs.2 _ (by omega)]
    · exact congrArg some (store_append mem dst [b] (s ++ [0]))
    · apply hdisj.mono
      · exact fun x hx => ⟨by have := hx.1; omega, by have := hx.2; omega⟩
      · exact fun x hx => ⟨by have := hx.1; omega, by have := hx.2; omega⟩

theorem strcpy_spec {dst src : ℕ} (hdst : dst ≠ 0) (hsrc : src ≠ 0) (h : Reads mem src (s ++ [0]))
    (hs : 0 ∉ s) (hdisj : Disjoint (span dst (s.length + 1)) (span src (s.length + 1)))
    (hfuel : s.length < fuel) : strcpy fuel dst src mem = some (store mem dst (s ++ [0])) := by
  rw [strcpy, assert_pos ⟨hsrc, hdst⟩]
  exact strcpyLoop_spec h hs hdisj hfuel

/-! ### Numbers -/

theorem digit_eq {m : ℕ} (hm : m < 16) : digit m = digitTable.getD m 0 := by
  interval_cases m <;> rfl

theorem digit_ne_zero {m : ℕ} (hm : m < 16) : digit m ≠ 0 := by
  interval_cases m <;> decide

theorem numeral_of_lt (h : value < base) (hbase : base ≤ 16) :
    numeral base value = [digit value] := by
  by_cases hzero : value = 0
  · rw [hzero]
    rfl
  · rw [numeral, if_neg hzero, Nat.digits_of_lt base value hzero h, digit_eq (by omega)]
    rfl

theorem numeral_of_le (h : base ≤ value) (hone : 1 < base) (hbase : base ≤ 16) :
    numeral base value = numeral base (value / base) ++ [digit (value % base)] := by
  have hpos : 0 < value := by omega
  have hdiv : value / base ≠ 0 := Nat.div_ne_zero_iff.mpr ⟨by omega, h⟩
  have hmod : value % base < 16 := (Nat.mod_lt value (by omega)).trans_le hbase
  rw [numeral, numeral, if_neg hdiv, if_neg (Nat.pos_iff_ne_zero.mp hpos),
    Nat.digits_def' hone hpos, List.reverse_cons, List.map_append, digit_eq hmod]
  rfl

theorem itoa_spec (hone : 1 < base) (hbase : base ≤ 16) : ∀ {fuel value : ℕ} (mem : Bytes)
    (bufPtr : ℕ), value < 2 ^ fuel → 0 < fuel → itoa fuel value base mem bufPtr =
      some (store mem bufPtr (numeral base value), bufPtr + (numeral base value).length) := by
  intro fuel
  induction fuel with
  | zero =>
    intro value mem bufPtr _ hfuel
    exact absurd hfuel (Nat.lt_irrefl 0)
  | succ fuel ih =>
    intro value mem bufPtr hvalue _
    rw [itoa]
    by_cases hlt : value < base
    · rw [Nat.div_eq_of_lt hlt, Nat.mod_eq_of_lt hlt, numeral_of_lt hlt hbase, store_singleton]
      rfl
    · have hle : base ≤ value := by omega
      have hdiv : value / base ≠ 0 := Nat.div_ne_zero_iff.mpr ⟨by omega, hle⟩
      have hhalf : value / base < 2 ^ fuel := by
        rw [Nat.pow_succ] at hvalue
        calc value / base ≤ value / 2 := Nat.div_le_div_left hone Nat.zero_lt_two
          _ < 2 ^ fuel := Nat.div_lt_of_lt_mul (by omega)
      have hfuel : 0 < fuel := by
        rcases Nat.eq_zero_or_pos fuel with h0 | hpos
        · rw [h0, Nat.pow_zero] at hhalf
          exact absurd (Nat.lt_one_iff.mp hhalf) hdiv
        · exact hpos
      rw [numeral_of_le hle hone hbase, ← store_append, store_singleton]
      simp only [if_pos hdiv, ih mem bufPtr hhalf hfuel]
      rw [List.length_append, ← Nat.add_assoc]
      rfl

theorem zero_not_mem_numeral (hone : 1 < base) (hbase : base ≤ 16) (value : ℕ) :
    0 ∉ numeral base value := by
  induction value using Nat.strongRecOn with
  | ind value ih =>
    by_cases hlt : value < base
    · rw [numeral_of_lt hlt hbase, List.mem_singleton]
      exact (digit_ne_zero (hlt.trans_le hbase)).symm
    · have hmod : value % base < 16 := (Nat.mod_lt value (by omega)).trans_le hbase
      rw [numeral_of_le (by omega) hone hbase, List.mem_append, List.mem_singleton, not_or]
      exact ⟨ih _ (Nat.div_lt_self (by omega) hone), (digit_ne_zero hmod).symm⟩

theorem numeral_ne_nil (base value : ℕ) : numeral base value ≠ [] := by
  by_cases hzero : value = 0
  · rw [hzero]
    exact List.cons_ne_nil _ _
  · rw [numeral, if_neg hzero, Ne, List.map_eq_nil_iff, List.reverse_eq_nil_iff,
      Nat.digits_eq_nil_iff_eq_zero]
    exact hzero

/-! ### The pieces -/

theorem nul_length_le (p : Piece) : p.nul.length ≤ 1 := by
  cases p <;> simp [Piece.nul]

theorem textOf_cons : textOf (p :: pieces) = p.text ++ textOf pieces := List.flatMap_cons

theorem formatOf_cons : formatOf (p :: pieces) = p.format ++ formatOf pieces := List.flatMap_cons

/-- Every piece leaves at least one byte. -/
theorem text_nul_ne_nil (p : Piece) : p.text ++ p.nul ≠ [] := by
  cases p with
  | ordinary b => exact List.cons_ne_nil _ _
  | string arg s => exact List.append_ne_nil_of_right_ne_nil _ (List.cons_ne_nil _ _)
  | hexadecimal w => exact List.append_ne_nil_of_left_ne_nil (numeral_ne_nil _ _) _
  | decimal w =>
    apply List.append_ne_nil_of_left_ne_nil
    rw [Piece.text]
    split
    · exact List.cons_ne_nil _ _
    · exact numeral_ne_nil _ _
  | character w => exact List.cons_ne_nil _ _

theorem textOf_nulOf_ne_nil (p : Piece) (pieces : List Piece) :
    textOf (p :: pieces) ++ nulOf (p :: pieces) ≠ [] := by
  induction pieces generalizing p with
  | nil =>
    rw [textOf_cons, textOf, List.flatMap_nil, List.append_nil]
    exact text_nul_ne_nil p
  | cons q pieces ih =>
    rw [textOf_cons, List.append_assoc]
    apply List.append_ne_nil_of_right_ne_nil
    rw [nulOf, List.getLast?_cons_cons]
    exact ih q

/-- What the first piece leaves, and then the others. -/
theorem store_pieces (mem : Bytes) (buf : ℕ) (p : Piece) (pieces : List Piece) :
    store (store mem buf (p.text ++ p.nul)) (buf + p.text.length) (textOf pieces ++ nulOf pieces) =
      store mem buf (textOf (p :: pieces) ++ nulOf (p :: pieces)) := by
  rw [textOf_cons, List.append_assoc]
  cases pieces with
  | nil =>
    rw [textOf, List.flatMap_nil, nulOf, List.getLast?_nil, nulOf, List.getLast?_singleton]
    exact store_nil _ _
  | cons q pieces =>
    rw [nulOf, nulOf, List.getLast?_cons_cons]
    apply store_over
    exact (nul_length_le p).trans (List.length_pos_iff.mpr (textOf_nulOf_ne_nil q pieces))

/-- Behind the first piece the call is one with the others. -/
theorem Call.rest (h : Call mem buf format (p :: pieces)) :
    Call (store mem buf (p.text ++ p.nul)) (buf + p.text.length) (format + p.format.length)
      pieces := by
  have hnul := nul_length_le p
  have htext : (textOf (p :: pieces)).length = p.text.length + (textOf pieces).length := by
    rw [textOf_cons, List.length_append]
  have hformat : (formatOf (p :: pieces)).length = p.format.length + (formatOf pieces).length := by
    rw [formatOf_cons, List.length_append]
  have hbytes : span buf (p.text ++ p.nul).length ⊆
      span buf ((textOf (p :: pieces)).length + 1) := by
    intro x hx
    rw [List.length_append] at hx
    exact ⟨hx.1, by have := hx.2; omega⟩
  have hbehind : span (buf + p.text.length) ((textOf pieces).length + 1) ⊆
      span buf ((textOf (p :: pieces)).length + 1) :=
    fun x hx => ⟨by have := hx.1; omega, by have := hx.2; omega⟩
  have hspelled : span (format + p.format.length) ((formatOf pieces).length + 1) ⊆
      span format ((formatOf (p :: pieces)).length + 1) :=
    fun x hx => ⟨by have := hx.1; omega, by have := hx.2; omega⟩
  have hchange := changes_store mem buf (p.text ++ p.nul)
  have hend : ∀ l : List Byte, (l ++ [0]).length = l.length + 1 := fun l => List.length_append
  constructor
  · have hread := h.spelled
    rw [formatOf_cons, List.append_assoc, reads_append] at hread
    apply hread.2.frame hchange
    rw [hend]
    exact h.apart.mono hbytes hspelled
  · exact fun b hb => h.ordinary b (List.mem_cons_of_mem _ hb)
  · intro arg s hs
    obtain ⟨harg, hzero, hread, hdisj⟩ := h.strings arg s (List.mem_cons_of_mem _ hs)
    refine ⟨harg, hzero, hread.frame hchange ?_, hdisj.mono_left hbehind⟩
    rw [hend]
    exact hdisj.mono_left hbytes
  · exact h.apart.mono hbehind hspelled
  · have := h.buf_ne
    omega
  · have := h.fits
    omega

/-- The printer behind a piece. -/
def advance (s : Printer) (p : Piece) (pieces : List Piece) : Printer :=
  let mem := store s.mem s.bufPtr (p.text ++ p.nul)
  { mem, bufPtr := s.bufPtr + p.text.length, indexPtr := s.indexPtr + p.format.length
    indexChar := mem (s.indexPtr + p.format.length), ap := argsOf pieces }

/-- What the loop has done so far fits what is still to come. -/
structure Ready (s : Printer) (pieces : List Piece) : Prop where
  call : Call s.mem s.bufPtr s.indexPtr pieces
  indexChar : s.indexChar = s.mem s.indexPtr
  ap : s.ap = argsOf pieces

theorem Ready.advance {s : Printer} (h : Ready s (p :: pieces)) :
    Ready (advance s p pieces) pieces :=
  ⟨h.call.rest, rfl, rfl⟩

theorem printer_itoa {s : Printer} (hone : 1 < base) (hbase : base ≤ 16) (hvalue : value < 2 ^ 32)
    (hfuel : 32 ≤ fuel) : s.itoa fuel value base =
      some { s with mem := store s.mem s.bufPtr (numeral base value),
                    bufPtr := s.bufPtr + (numeral base value).length } := by
  have hlt : value < 2 ^ fuel := hvalue.trans_le (Nat.pow_le_pow_right (by omega) hfuel)
  rw [Printer.itoa, itoa_spec hone hbase _ _ hlt (by omega)]
  rfl

/-- The two characters of a directive. -/
theorem Ready.letter {s : Printer} {k : Byte} (h : Ready s (p :: pieces))
    (hp : p.format = [percent, k]) : s.indexChar = percent ∧ s.next.indexChar = k := by
  have hread := h.call.spelled
  rw [formatOf_cons, hp, List.append_assoc, List.cons_append, reads_cons, List.cons_append,
    reads_cons] at hread
  exact ⟨h.indexChar.trans hread.1, hread.2.1⟩

theorem natAbs_of_neg {w : Word} (h : w.toInt < 0) : w.toInt.natAbs = (0 - w).toNat := by
  rw [BitVec.toInt_eq_toNat_cond] at h ⊢
  rw [BitVec.toNat_sub]
  have := w.isLt
  split at h
  · omega
  · rw [if_neg ‹_›]
    change _ = (2 ^ 32 - w.toNat + 0) % 2 ^ 32
    omega

theorem natAbs_of_nonneg {w : Word} (h : ¬w.toInt < 0) : w.toInt.natAbs = w.toNat := by
  rw [BitVec.toInt_eq_toNat_cond] at h ⊢
  have := w.isLt
  split at h
  · rw [if_pos ‹_›, Int.natAbs_natCast]
  · omega

theorem directive_spec {s : Printer} (h : Ready s (p :: pieces))
    (hp : ∀ b, p ≠ .ordinary b) (hfuel : 32 + p.text.length ≤ fuel) :
    directive fuel s.next = some (advance s p pieces) := by
  have hap : s.next.ap = argsOf (p :: pieces) := h.ap
  rw [argsOf, List.flatMap_cons, ← argsOf] at hap
  cases p with
  | ordinary b => exact absurd rfl (hp b)
  | string arg t =>
    obtain ⟨-, hk⟩ := h.letter rfl
    obtain ⟨harg, hzero, hread, hdisj⟩ := h.call.strings arg t List.mem_cons_self
    have hne : arg.toNat ≠ 0 := fun h0 => harg (BitVec.eq_of_toNat_eq h0)
    have htext : t.length ≤ (textOf (.string arg t :: pieces)).length := by
      rw [textOf_cons, List.length_append]
      exact Nat.le_add_right _ _
    have hfits := h.call.fits
    have hsub : span s.bufPtr (t.length + 1) ⊆
        span s.bufPtr ((textOf (.string arg t :: pieces)).length + 1) :=
      fun x hx => ⟨hx.1, by have := hx.2; omega⟩
    have hbytes := hdisj.mono_left hsub
    rw [Piece.text] at hfuel
    have hshort : t.length < fuel := by omega
    have hcopy := strcpy_spec h.call.buf_ne hne hread hzero hbytes hshort
    have hkeep : Reads (store s.mem s.bufPtr (t ++ [0])) arg.toNat (t ++ [0]) := by
      apply hread.frame (changes_store _ _ _)
      rw [List.length_append]
      exact hbytes
    have hlen := strlen_spec hne hkeep hzero (by omega) hshort
    rw [directive, if_pos hk, Printer.vaArg, hap]
    change (strcpy fuel s.bufPtr arg.toNat s.mem >>= fun mem => strlen fuel arg.toNat mem >>=
      fun n => some _) = _
    rw [hcopy, Option.bind_eq_bind, Option.bind_some, hlen]
    rfl
  | hexadecimal arg =>
    obtain ⟨-, hk⟩ := h.letter rfl
    rw [directive, if_neg (by rw [hk]; decide), if_pos hk, Printer.vaArg, hap]
    change (Printer.itoa { s.next with ap := argsOf pieces } fuel arg.toNat 16 >>= fun s => _) = _
    rw [printer_itoa (by omega) (by omega) arg.isLt (by omega)]
    simp only [advance, Piece.text, Piece.nul, List.append_nil]
    rfl
  | decimal arg =>
    obtain ⟨-, hk⟩ := h.letter rfl
    rw [directive, if_neg (by rw [hk]; decide), if_neg (by rw [hk]; decide),
      if_neg (by rw [hk]; decide), if_pos hk, Printer.vaArg, hap]
    by_cases hneg : arg.toInt < 0
    · have htext : (Piece.decimal arg).text = [45] ++ numeral 10 (0 - arg).toNat := by
        rw [Piece.text, if_pos hneg, natAbs_of_neg hneg]
        rfl
      simp only [advance, htext, Piece.nul, List.append_nil]
      rw [← store_append, store_singleton, List.length_append, List.length_singleton,
        ← Nat.add_assoc]
      simp only [Piece.args, List.cons_append, List.nil_append, Option.bind_eq_bind,
        Option.bind_some, if_pos hneg]
      rw [printer_itoa (by omega) (by omega) (0 - arg).isLt (by omega)]
      rfl
    · have htext : (Piece.decimal arg).text = numeral 10 arg.toNat := by
        rw [Piece.text, if_neg hneg, natAbs_of_nonneg hneg]
      simp only [advance, htext, Piece.nul, List.append_nil]
      simp only [Piece.args, List.cons_append, List.nil_append, Option.bind_eq_bind,
        Option.bind_some, if_neg hneg]
      rw [printer_itoa (by omega) (by omega) arg.isLt (by omega)]
      rfl
  | character arg =>
    obtain ⟨-, hk⟩ := h.letter rfl
    rw [directive, if_neg (by rw [hk]; decide), if_neg (by rw [hk]; decide), if_pos hk,
      Printer.vaArg, hap]
    simp only [advance, Piece.text, Piece.nul, List.append_nil, store_singleton]
    rfl

/-- One round of the loop for a piece. -/
theorem loop_step {s : Printer} (h : Ready s (p :: pieces)) (hfuel : 32 + p.text.length ≤ fuel) :
    vsprintfLoop (fuel + 1) s = vsprintfLoop fuel (advance s p pieces) := by
  by_cases hp : ∃ b, p = .ordinary b
  · obtain ⟨b, rfl⟩ := hp
    obtain ⟨hzero, hpercent⟩ := h.call.ordinary b List.mem_cons_self
    have hb : s.indexChar = b := by
      have hread := h.call.spelled
      rw [formatOf_cons, List.append_assoc] at hread
      exact h.indexChar.trans (reads_cons.mp hread).1
    have hap : s.ap = argsOf pieces := h.ap
    rw [vsprintfLoop, hb, if_pos hzero, if_pos hpercent, advance, ← hap]
    simp only [Piece.text, Piece.nul, List.append_nil, store_singleton]
    rfl
  · have hpercent : s.indexChar = percent := by
      cases p with
      | ordinary b => exact absurd ⟨b, rfl⟩ hp
      | string arg t => exact (h.letter rfl).1
      | hexadecimal w => exact (h.letter rfl).1
      | decimal w => exact (h.letter rfl).1
      | character w => exact (h.letter rfl).1
    rw [vsprintfLoop, hpercent, if_pos (by decide), if_neg (not_not_intro rfl),
      directive_spec h (fun b hb => hp ⟨b, hb⟩) hfuel]
    rfl

theorem loop_run {s : Printer} (h : Ready s pieces)
    (hfuel : pieces.length + (textOf pieces).length + 33 ≤ fuel) :
    ∃ s', vsprintfLoop fuel s = some s' ∧
      s'.mem = store s.mem s.bufPtr (textOf pieces ++ nulOf pieces) := by
  induction pieces generalizing s fuel with
  | nil =>
    obtain ⟨fuel, rfl⟩ : ∃ n, fuel = n + 1 := ⟨fuel - 1, by omega⟩
    have hzero : s.indexChar = 0 := h.indexChar.trans (reads_cons.mp h.call.spelled).1
    refine ⟨s, ?_, (store_nil _ _).symm⟩
    rw [vsprintfLoop, if_neg (not_not_intro hzero)]
  | cons p pieces ih =>
    rw [textOf_cons, List.length_append, List.length_cons] at hfuel
    obtain ⟨fuel, rfl⟩ : ∃ n, fuel = n + 1 := ⟨fuel - 1, by omega⟩
    have hrest : pieces.length + (textOf pieces).length + 33 ≤ fuel := by omega
    obtain ⟨s', hrun, hmem⟩ := ih h.advance hrest
    refine ⟨s', ?_, hmem.trans (store_pieces _ _ _ _)⟩
    rw [loop_step h (by omega)]
    exact hrun

/-! ### The whole call -/

/-- The call returns the length of the text, and the text stands in the buffer with a NUL. -/
def Prints (mem : Bytes) (buf format : ℕ) (pieces : List Piece) : Prop :=
  ∃ mem', EndsWith (fun fuel => sprintf fuel buf format (argsOf pieces) mem)
      ((textOf pieces).length, mem') ∧
    Reads mem' buf (textOf pieces ++ [0]) ∧
    Changes (span buf ((textOf pieces).length + 1)) mem mem'

/-- What it takes: nothing but a string at the end of the format brings a NUL along. -/
structure Terminated (mem : Bytes) (buf : ℕ) (pieces : List Piece) : Prop where
  characters : ∀ arg : Word, Piece.character arg ∈ pieces → arg.setWidth 8 ≠ (0 : Byte)
  last : (∃ arg s, pieces.getLast? = some (.string arg s)) ∨ mem (buf + (textOf pieces).length) = 0

/-- What the loop leaves in memory. -/
def filled (mem : Bytes) (buf : ℕ) (pieces : List Piece) : Bytes :=
  store mem buf (textOf pieces ++ nulOf pieces)

theorem sprintf_run (h : Call mem buf format pieces) : ∃ n, ∀ fuel, n ≤ fuel →
    sprintf fuel buf format (argsOf pieces) mem =
      (strlen fuel buf (filled mem buf pieces)).map fun n => (n, filled mem buf pieces) := by
  refine ⟨pieces.length + (textOf pieces).length + 33, fun fuel hfuel => ?_⟩
  have hready : Ready ⟨mem, buf, format, mem format, argsOf pieces⟩ pieces := ⟨h, rfl, rfl⟩
  obtain ⟨s', hrun, hmem⟩ := loop_run hready hfuel
  have hfilled : s'.mem = filled mem buf pieces := hmem
  rw [sprintf, vsprintf, hrun]
  change (strlen fuel buf s'.mem >>= fun n => some (n, s'.mem)) >>= _ = _
  rw [hfilled]
  cases strlen fuel buf (filled mem buf pieces) <;> rfl

theorem nulOf_eq (pieces : List Piece) :
    (∃ arg s, pieces.getLast? = some (.string arg s)) ∧ nulOf pieces = [0] ∨
      (¬∃ arg s, pieces.getLast? = some (.string arg s)) ∧ nulOf pieces = [] := by
  rw [nulOf]
  cases hlast : pieces.getLast? with
  | none => exact .inr ⟨by simp, rfl⟩
  | some p =>
    cases p with
    | string arg s => exact .inl ⟨⟨arg, s, rfl⟩, rfl⟩
    | ordinary b => exact .inr ⟨by simp, rfl⟩
    | hexadecimal w => exact .inr ⟨by simp, rfl⟩
    | decimal w => exact .inr ⟨by simp, rfl⟩
    | character w => exact .inr ⟨by simp, rfl⟩

/-- The byte behind the text. -/
theorem filled_end : filled mem buf pieces (buf + (textOf pieces).length) = 0 ↔
    (∃ arg s, pieces.getLast? = some (.string arg s)) ∨
      mem (buf + (textOf pieces).length) = 0 := by
  rcases nulOf_eq pieces with ⟨hlast, hnul⟩ | ⟨hlast, hnul⟩
  · have hread := (reads_append.mp (reads_store mem buf (textOf pieces ++ [0]))).2
    rw [filled, hnul]
    exact iff_of_true (reads_cons.mp hread).1 (.inl hlast)
  · have hout : buf + (textOf pieces).length ∉ span buf (textOf pieces).length :=
      fun hin => Nat.lt_irrefl _ hin.2
    rw [filled, hnul, List.append_nil, changes_store mem buf _ _ hout, or_iff_right hlast]

theorem reads_filled (mem : Bytes) (buf : ℕ) (pieces : List Piece) :
    Reads (filled mem buf pieces) buf (textOf pieces) :=
  (reads_append.mp (reads_store mem buf _)).1

/-- A NUL in the text is the argument of a `%c`. -/
theorem zero_mem_textOf (h : Call mem buf format pieces) :
    0 ∈ textOf pieces ↔ ∃ arg, Piece.character arg ∈ pieces ∧ arg.setWidth 8 = (0 : Byte) := by
  rw [textOf, List.mem_flatMap]
  constructor
  · rintro ⟨p, hp, hzero⟩
    cases p with
    | ordinary b => exact absurd (List.mem_singleton.mp hzero).symm (h.ordinary b hp).1
    | string arg s => exact absurd hzero (h.strings arg s hp).2.1
    | hexadecimal w => exact absurd hzero (zero_not_mem_numeral (by omega) (by omega) _)
    | decimal w =>
      have hnumeral : 0 ∉ numeral 10 w.toInt.natAbs :=
        zero_not_mem_numeral (by omega) (by omega) _
      rw [Piece.text] at hzero
      split at hzero
      · exact absurd ((List.mem_cons.mp hzero).resolve_left (by decide)) hnumeral
      · exact absurd hzero hnumeral
    | character w => exact ⟨w, hp, (List.mem_singleton.mp hzero).symm⟩
  · rintro ⟨w, hw, hzero⟩
    exact ⟨_, hw, List.mem_singleton.mpr hzero.symm⟩

/-- The loop and the final `strlen` apart. -/
theorem sprintf_end {mem' : Bytes} {k : ℕ} (h : Call mem buf format pieces)
    (hend : EndsWith (fun fuel => sprintf fuel buf format (argsOf pieces) mem) (k, mem')) :
    mem' = filled mem buf pieces ∧
      EndsWith (fun fuel => strlen fuel buf (filled mem buf pieces)) k := by
  obtain ⟨n, hrun⟩ := sprintf_run h
  obtain ⟨n', hend⟩ := hend
  have hboth : ∀ fuel, n + n' ≤ fuel → mem' = filled mem buf pieces ∧
      strlen fuel buf (filled mem buf pieces) = some k := by
    intro fuel hfuel
    have heq := (hrun fuel (by omega)).symm.trans (hend fuel (by omega))
    obtain ⟨l, hl, hpair⟩ := Option.map_eq_some_iff.mp heq
    obtain ⟨rfl, rfl⟩ := Prod.mk.inj hpair
    exact ⟨rfl, hl⟩
  exact ⟨(hboth _ le_rfl).1, n + n', fun fuel hfuel => (hboth fuel hfuel).2⟩

/-- `strlen` stops at the first NUL. -/
theorem no_zero_of_strlen (h : Call mem buf format pieces)
    (hend : EndsWith (fun fuel => strlen fuel buf (filled mem buf pieces))
      (textOf pieces).length) : 0 ∉ textOf pieces := by
  intro hzero
  obtain ⟨u, v, huv, hu⟩ := List.eq_append_cons_of_mem hzero
  have hfits := h.fits
  have hshort : Reads (filled mem buf pieces) buf (u ++ [0]) := by
    have htext := reads_filled mem buf pieces
    rw [huv, ← List.singleton_append, ← List.append_assoc] at htext
    exact (reads_append.mp htext).1
  have hlt : u.length < (textOf pieces).length := by
    rw [huv, List.length_append, List.length_cons]
    omega
  have hstop : EndsWith (fun fuel => strlen fuel buf (filled mem buf pieces)) u.length :=
    ⟨u.length + 1, fun fuel hfuel => strlen_spec h.buf_ne hshort hu (by omega) hfuel⟩
  have := hstop.unique hend
  omega

theorem terminated_of_prints (h : Call mem buf format pieces)
    (hprints : Prints mem buf format pieces) : Terminated mem buf pieces := by
  obtain ⟨mem', hend, hread, -⟩ := hprints
  obtain ⟨rfl, hlen⟩ := sprintf_end h hend
  have hno := no_zero_of_strlen h hlen
  constructor
  · exact fun w hw hzero => hno ((zero_mem_textOf h).mpr ⟨w, hw, hzero⟩)
  · exact filled_end.mp (reads_cons.mp (reads_append.mp hread).2).1

theorem prints_of_terminated (h : Call mem buf format pieces) (hterm : Terminated mem buf pieces) :
    Prints mem buf format pieces := by
  obtain ⟨n, hrun⟩ := sprintf_run h
  have hfits := h.fits
  have hno : 0 ∉ textOf pieces := by
    intro hzero
    obtain ⟨w, hw, hlow⟩ := (zero_mem_textOf h).mp hzero
    exact hterm.characters w hw hlow
  have hread : Reads (filled mem buf pieces) buf (textOf pieces ++ [0]) := by
    apply reads_append.mpr
    exact ⟨reads_filled mem buf pieces, reads_cons.mpr ⟨filled_end.mpr hterm.last, reads_nil⟩⟩
  refine ⟨_, ⟨n + (textOf pieces).length + 1, fun fuel hfuel => ?_⟩, hread, ?_⟩
  · change sprintf fuel buf format (argsOf pieces) mem = _
    rw [hrun fuel (by omega), strlen_spec h.buf_ne hread hno (by omega) (by omega)]
    rfl
  · have hnul : (nulOf pieces).length ≤ 1 := by
      rcases nulOf_eq pieces with ⟨-, hnul⟩ | ⟨-, hnul⟩ <;> simp [hnul]
    apply (changes_store mem buf _).mono
    intro x hx
    rw [List.length_append] at hx
    exact ⟨hx.1, by have := hx.2; omega⟩

/-- `sprintf` writes no NUL of its own. -/
theorem sprintf_prints_iff (h : Call mem buf format pieces) :
    Prints mem buf format pieces ↔ Terminated mem buf pieces :=
  ⟨terminated_of_prints h, prints_of_terminated h⟩

/-- The format `n%s` with the string `hi`. -/
theorem sprintf_prints_iff_string : ∃ mem,
    Call mem 4096 16 [.ordinary 110, .string 64 [104, 105]] ∧
      Prints mem 4096 16 [.ordinary 110, .string 64 [104, 105]] := by
  let mem : Bytes := fun a => if a = 16 then 110 else if a = 17 then 37 else if a = 18 then 115
    else if a = 64 then 104 else if a = 65 then 105 else 0
  have hcall : Call mem 4096 16 [.ordinary 110, .string 64 [104, 105]] := by
    constructor
    · change Reads mem 16 [110, 37, 115, 0]
      simp only [reads_cons]
      exact ⟨rfl, rfl, rfl, rfl, reads_nil⟩
    · simp [percent]
    · intro arg s hs
      obtain ⟨rfl, rfl⟩ : arg = 64 ∧ s = [104, 105] := by simpa using hs
      have hread : Reads mem 64 [104, 105, 0] := by
        simp only [reads_cons]
        exact ⟨rfl, rfl, rfl, reads_nil⟩
      refine ⟨by decide, by decide, hread, ?_⟩
      exact Set.disjoint_left.mpr fun x hx hx' => by
        have h1 : 4096 ≤ x := hx.1
        have h2 : x < 64 + 3 := hx'.2
        omega
    · exact Set.disjoint_left.mpr fun x hx hx' => by
        have h1 : 4096 ≤ x := hx.1
        have h2 : x < 16 + 4 := hx'.2
        omega
    · decide
    · decide
  refine ⟨mem, hcall, (sprintf_prints_iff hcall).mpr ⟨?_, .inl ⟨64, [104, 105], rfl⟩⟩⟩
  intro arg harg
  simp at harg

/-- The format `a` for a buffer that is full of other bytes. -/
theorem text_unterminated : ∃ mem,
    Call mem 4096 16 [.ordinary 97] ∧ ¬Prints mem 4096 16 [.ordinary 97] := by
  let mem : Bytes := fun a => if a = 16 then 97 else if a = 17 then 0 else 255
  have hcall : Call mem 4096 16 [.ordinary 97] := by
    constructor
    · exact reads_cons.mpr ⟨rfl, reads_cons.mpr ⟨rfl, reads_nil⟩⟩
    · simp [percent]
    · simp
    · exact Set.disjoint_left.mpr fun x hx hx' => by
        have h1 : 4096 ≤ x := hx.1
        have h2 : x < 16 + 2 := hx'.2
        omega
    · decide
    · decide
  refine ⟨mem, hcall, fun hprints => ?_⟩
  rcases (terminated_of_prints hcall hprints).last with ⟨arg, s, hlast⟩ | hzero
  · simp at hlast
  · exact absurd hzero (by decide)

end StringFormat
