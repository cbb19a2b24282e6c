import XianweiOS.IoQueue
import Mathlib.Tactic.FinCases

/-! The keyboard driver (`device/keyboard.c`): five flags and the map from scan codes to characters.
An interrupt brings one byte. -/
namespace Keyboard

open RingBuffer IoQueue

variable {T : Type}

abbrev Scancode := BitVec 16

def shiftLMake : Scancode := 0x2a
def shiftRMake : Scancode := 0x36
def altLMake : Scancode := 0x38
def altRMake : Scancode := 0xe038
def ctrlLMake : Scancode := 0x1d
def ctrlRMake : Scancode := 0xe01d
def capsLockMake : Scancode := 0x3a

def ascii (c : Char) : UInt8 := c.toNat.toUInt8

/-- The character without and with shift, for the make codes from `0x00` to `0x3a`; `0` for none. -/
def keymap : List (UInt8 × UInt8) := [
  (0, 0), (27, 27), (ascii '1', ascii '!'), (ascii '2', ascii '@'), (ascii '3', ascii '#'),
  (ascii '4', ascii '$'), (ascii '5', ascii '%'), (ascii '6', ascii '^'), (ascii '7', ascii '&'),
  (ascii '8', ascii '*'), (ascii '9', ascii '('), (ascii '0', ascii ')'), (ascii '-', ascii '_'),
  (ascii '=', ascii '+'), (8, 8), (9, 9), (ascii 'q', ascii 'Q'), (ascii 'w', ascii 'W'),
  (ascii 'e', ascii 'E'), (ascii 'r', ascii 'R'), (ascii 't', ascii 'T'), (ascii 'y', ascii 'Y'),
  (ascii 'u', ascii 'U'), (ascii 'i', ascii 'I'), (ascii 'o', ascii 'O'), (ascii 'p', ascii 'P'),
  (0x5b, 0x7b), (0x5d, 0x7d), (13, 13), (0, 0), (ascii 'a', ascii 'A'), (ascii 's', ascii 'S'),
  (ascii 'd', ascii 'D'), (ascii 'f', ascii 'F'), (ascii 'g', ascii 'G'), (ascii 'h', ascii 'H'),
  (ascii 'j', ascii 'J'), (ascii 'k', ascii 'K'), (ascii 'l', ascii 'L'), (ascii ';', ascii ':'),
  (0x27, 0x22), (0x60, 0x7e), (0, 0), (0x5c, 0x7c), (ascii 'z', ascii 'Z'), (ascii 'x', ascii 'X'),
  (ascii 'c', ascii 'C'), (ascii 'v', ascii 'V'), (ascii 'b', ascii 'B'), (ascii 'n', ascii 'N'),
  (ascii 'm', ascii 'M'), (ascii ',', ascii '<'), (ascii '.', ascii '>'), (ascii '/', ascii '?'),
  (0, 0), (ascii '*', ascii '*'), (0, 0), (ascii ' ', ascii ' '), (0, 0)]

/-- The globals of the driver. -/
structure Driver (T : Type) where
  shiftStatus : Bool
  ctrlStatus : Bool
  altStatus : Bool
  capsLockStatus : Bool
  extScancode : Bool
  kbdBuf : IoQueue.Ring T

/-- `ioq_putchar` on a ring that is not full. A thread that waits for a character is woken. -/
def putchar (byte : UInt8) (q : IoQueue.Ring T) : IoQueue.Ring T :=
  { q with buf := Function.update q.buf q.head byte, head := nextPos q.head, consumer := none }

/-- The keys whose second character only shift selects. -/
def twoCharacters (scancode : Scancode) : Bool :=
  scancode < 0x0e || scancode = 0x29 || scancode = 0x1a || scancode = 0x1b || scancode = 0x2b ||
    scancode = 0x27 || scancode = 0x28 || scancode = 0x33 || scancode = 0x34 || scancode = 0x35

/-- `cur_char` as it comes from the map. -/
def curChar (scancode : Scancode) (shiftDownLast capsLockLast : Bool) : UInt8 :=
  let shift :=
    if twoCharacters scancode then shiftDownLast
    else if shiftDownLast && capsLockLast then false
    else if shiftDownLast || capsLockLast then true
    else false
  let entry := keymap.getD (scancode &&& 0x00ff).toNat (0, 0)
  if shift then entry.2 else entry.1

/-- `cur_char -= 'a'` -/
def control (ctrlStatus : Bool) (c : UInt8) : UInt8 :=
  if ctrlStatus ∧ (c = ascii 'l' ∨ c = ascii 'u') then c - ascii 'a' else c

def keyBreak (makeCode : Scancode) (s : Driver T) : Driver T :=
  let s := if makeCode = shiftLMake ∨ makeCode = shiftRMake then { s with shiftStatus := false }
    else s
  let s := if makeCode = altLMake ∨ makeCode = altRMake then { s with altStatus := false } else s
  if makeCode = ctrlLMake ∨ makeCode = ctrlRMake then { s with ctrlStatus := false } else s

def keyMake (scancode : Scancode) (s : Driver T) : Driver T :=
  if 0 < scancode ∧ scancode < 0x3b ∨ scancode = ctrlRMake ∨ scancode = altRMake then
    let c := curChar scancode s.shiftStatus s.capsLockStatus
    if c ≠ 0 then
      if ioqFull s.kbdBuf then s
      else { s with kbdBuf := putchar (control s.ctrlStatus c) s.kbdBuf }
    else if scancode = ctrlLMake ∨ scancode = ctrlRMake then { s with ctrlStatus := true }
    else if scancode = shiftLMake ∨ scancode = shiftRMake then { s with shiftStatus := true }
    else if scancode = altLMake ∨ scancode = altRMake then { s with altStatus := true }
    else if scancode = capsLockMake then { s with capsLockStatus := !s.capsLockStatus }
    else s
  else s -- unknown key

def intrKeyboardHandler (input : BitVec 8) (s : Driver T) : Driver T :=
  let scancode : Scancode := input.setWidth 16
  if scancode = 0xe0 then { s with extScancode := true }
  else
    let scancode := if s.extScancode then 0xe000 ||| scancode else scancode
    let s := { s with extScancode := false }
    if scancode &&& 0x0080 ≠ 0 then keyBreak (scancode &&& 0xff7f) s else keyMake scancode s

/-- After `keyboard_init`. -/
def init : Driver T := ⟨false, false, false, false, false, ⟨none, none, fun _ => 0, 0, 0⟩⟩

/-- The ring is filled as `IoQueue` has it. -/
theorem ioqPutcharEnd_queue [DecidableEq T] {byte : UInt8} {s s' : IoQueue.System T}
    (h : ioqPutcharEnd byte s = some s') : s'.queue = putchar byte s.queue := by
  rw [ioqPutcharEnd] at h
  dsimp only at h
  split at h
  · rw [weakup] at h
    split at h
    · cases h
    · split at h
      · cases h
        rfl
      · cases h
  · rename_i hnone
    cases h
    rw [putchar, ← not_not.mp hnone]

/-! ### The keyboard -/

/-- A key with a character. -/
inductive CharKey
  | letter (i : Fin 26)
  | symbol (i : Fin 21)
  | single (i : Fin 6)
  deriving DecidableEq, Repr

inductive Key
  | char (k : CharKey)
  | shiftL
  | shiftR
  | ctrlL
  | ctrlR
  | altL
  | altR
  | capsLock
  deriving DecidableEq, Repr

/-- The letters in rows, with their scan codes. -/
def letters : List (BitVec 8 × Char) := [
  (0x10, 'q'), (0x11, 'w'), (0x12, 'e'), (0x13, 'r'), (0x14, 't'), (0x15, 'y'), (0x16, 'u'),
  (0x17, 'i'), (0x18, 'o'), (0x19, 'p'), (0x1e, 'a'), (0x1f, 's'), (0x20, 'd'), (0x21, 'f'),
  (0x22, 'g'), (0x23, 'h'), (0x24, 'j'), (0x25, 'k'), (0x26, 'l'), (0x2c, 'z'), (0x2d, 'x'),
  (0x2e, 'c'), (0x2f, 'v'), (0x30, 'b'), (0x31, 'n'), (0x32, 'm')]

/-- Digits and signs: the character below and the one above. -/
def symbols : List (BitVec 8 × UInt8 × UInt8) := [
  (0x02, ascii '1', ascii '!'), (0x03, ascii '2', ascii '@'), (0x04, ascii '3', ascii '#'),
  (0x05, ascii '4', ascii '$'), (0x06, ascii '5', ascii '%'), (0x07, ascii '6', ascii '^'),
  (0x08, ascii '7', ascii '&'), (0x09, ascii '8', ascii '*'), (0x0a, ascii '9', ascii '('),
  (0x0b, ascii '0', ascii ')'), (0x0c, ascii '-', ascii '_'), (0x0d, ascii '=', ascii '+'),
  (0x1a, 0x5b, 0x7b), (0x1b, 0x5d, 0x7d), (0x27, ascii ';', ascii ':'), (0x28, 0x27, 0x22),
  (0x29, 0x60, 0x7e), (0x2b, 0x5c, 0x7c), (0x33, ascii ',', ascii '<'),
  (0x34, ascii '.', ascii '>'), (0x35, ascii '/', ascii '?')]

/-- Escape, backspace, tab, enter, the star of the number pad and the space bar. -/
def singles : List (BitVec 8 × UInt8) :=
  [(0x01, 27), (0x0e, 8), (0x0f, 9), (0x1c, 13), (0x37, ascii '*'), (0x39, ascii ' ')]

namespace CharKey

def code : CharKey → BitVec 8
  | letter i => (letters.get i).1
  | symbol i => (symbols.get i).1
  | single i => (singles.get i).1

/-- The character of the standard layout. -/
def char (shift capsLock : Bool) : CharKey → UInt8
  | letter i =>
    let c := (letters.get i).2
    ascii (if xor shift capsLock then c.toUpper else c)
  | symbol i => if shift then (symbols.get i).2.2 else (symbols.get i).2.1
  | single i => (singles.get i).2

end CharKey

namespace Key

/-- Whether the prefix `0xe0` comes first, and the make code. -/
def make : Key → Bool × BitVec 8
  | char k => (false, k.code)
  | shiftL => (false, 0x2a)
  | shiftR => (false, 0x36)
  | ctrlL => (false, 0x1d)
  | ctrlR => (true, 0x1d)
  | altL => (false, 0x38)
  | altR => (true, 0x38)
  | capsLock => (false, 0x3a)

def twin : Key → Option Key
  | shiftL => some shiftR
  | shiftR => some shiftL
  | ctrlL => some ctrlR
  | ctrlR => some ctrlL
  | _ => none

end Key

/-- A reader takes a character between two keys. -/
inductive Event
  | press (k : Key)
  | release (k : Key)
  | take
  deriving DecidableEq, Repr

/-- The bytes the keyboard sends. -/
def Event.bytes : Event → List (BitVec 8)
  | press k => (if k.make.1 then [0xe0] else []) ++ [k.make.2]
  | release k => (if k.make.1 then [0xe0] else []) ++ [k.make.2 ||| 0x80]
  | take => []

/-- `ioq_getchar` on a ring that is not empty; a reader of an empty one waits. -/
def getchar (q : IoQueue.Ring T) : IoQueue.Ring T :=
  if ioqEmpty q then q else { q with tail := nextPos q.tail, producer := none }

/-- The driver at an event: one interrupt for each byte. -/
def Driver.step (s : Driver T) (e : Event) : Driver T :=
  match e with
  | .take => { s with kbdBuf := getchar s.kbdBuf }
  | .press _ | .release _ => e.bytes.foldl (fun s input => intrKeyboardHandler input s) s

def Driver.run (s : Driver T) (events : List Event) : Driver T := events.foldl Driver.step s

/-- What a keyboard is: the keys that are down, caps lock, and the characters not taken yet. -/
structure Board where
  down : Key → Bool
  capsLock : Bool
  queue : List UInt8

namespace Board

def shift (b : Board) : Bool := b.down .shiftL || b.down .shiftR
def ctrl (b : Board) : Bool := b.down .ctrlL || b.down .ctrlR

/-- The character for the modifiers in force. -/
def char (b : Board) (k : CharKey) : UInt8 :=
  let c := k.char b.shift b.capsLock
  if b.ctrl ∧ (c = ascii 'l' ∨ c = ascii 'u') then c - ascii 'a' else c

def enqueue (b : Board) (c : UInt8) : Board :=
  if b.queue.length < bufsize - 1 then { b with queue := b.queue ++ [c] } else b

def step (b : Board) : Event → Board
  | .press (.char k) =>
    let b := b.enqueue (b.char k)
    { b with down := Function.update b.down (.char k) true }
  | .press .capsLock =>
    { b with down := Function.update b.down .capsLock true, capsLock := !b.capsLock }
  | .press k => { b with down := Function.update b.down k true }
  | .release k => { b with down := Function.update b.down k false }
  | .take => { b with queue := b.queue.tail }

def run (b : Board) (events : List Event) : Board := events.foldl Board.step b

def init : Board := ⟨fun _ => false, false, []⟩

end Board

/-- Of two keys that are held together none goes up before the other has been let go. -/
def Meets (b : Board) : Event → Prop
  | .release k => ∀ k', k.twin = some k' → b.down k' = false
  | _ => True

def AllMeet : List Event → Board → Prop
  | [], _ => True
  | e :: events, b => Meets b e ∧ AllMeet events (b.step e)

/-- The flags and the ring are those of the board. -/
structure Follows (s : Driver T) (b : Board) : Prop where
  shift : s.shiftStatus = b.shift
  ctrl : s.ctrlStatus = b.ctrl
  capsLock : s.capsLockStatus = b.capsLock
  ext : s.extScancode = false
  queue : contents bufsize s.kbdBuf.buf s.kbdBuf.head s.kbdBuf.tail = b.queue
  head_lt : s.kbdBuf.head < bufsize
  tail_lt : s.kbdBuf.tail < bufsize

variable {s : Driver T} {b : Board} {k : CharKey} {e : Event} {events : List Event}

/-! ### Scan codes -/

/-- The map and the layout agree. -/
theorem curChar_code (k : CharKey) (shift capsLock : Bool) :
    curChar (k.code.setWidth 16) shift capsLock = k.char shift capsLock := by
  cases k with
  | letter i => revert i shift capsLock; decide
  | symbol i => revert i shift capsLock; decide
  | single i => revert i shift capsLock; decide

/-- Everything `intr_keyboard_handler` asks about the make code of a character. -/
theorem code_facts (k : CharKey) (shift capsLock : Bool) :
    k.char shift capsLock ≠ 0 ∧ k.code.setWidth 16 ≠ (0xe0 : Scancode) ∧
      (k.code.setWidth 16 : Scancode) &&& 0x0080 = 0 ∧
      (0 : Scancode) < k.code.setWidth 16 ∧ (k.code.setWidth 16 : Scancode) < 0x3b := by
  cases k with
  | letter i => revert i shift capsLock; decide
  | symbol i => revert i shift capsLock; decide
  | single i => revert i shift capsLock; decide

/-- A modifier has no character. -/
theorem curChar_modifier {scancode : Scancode} (h : scancode ∈ [shiftLMake, shiftRMake, altLMake,
    altRMake, ctrlLMake, ctrlRMake, capsLockMake]) (shift capsLock : Bool) :
    curChar scancode shift capsLock = 0 := by
  simp only [List.mem_cons, List.not_mem_nil, or_false] at h
  rcases h with rfl | rfl | rfl | rfl | rfl | rfl | rfl <;> cases shift <;> cases capsLock <;>
    decide

/-! ### Interrupts -/

theorem withoutExt (h : s.extScancode = false) : { s with extScancode := false } = s := by
  cases s
  cases h
  rfl

theorem setWidth_ne_ext {input : BitVec 8} (hne : input ≠ 0xe0) :
    (input.setWidth 16 : Scancode) ≠ 0xe0 := by
  intro he
  apply hne
  have hinput := congrArg (BitVec.setWidth 8) he
  rwa [BitVec.setWidth_setWidth_of_le _ (by decide), BitVec.setWidth_eq] at hinput

/-- A key without the prefix. -/
theorem handler_plain {input : BitVec 8} (h : s.extScancode = false) (hne : input ≠ 0xe0) :
    intrKeyboardHandler input s =
      if input.setWidth 16 &&& (0x0080 : Scancode) ≠ 0 then
        keyBreak (input.setWidth 16 &&& 0xff7f) s
      else keyMake (input.setWidth 16) s := by
  rw [intrKeyboardHandler]
  dsimp only
  rw [if_neg (setWidth_ne_ext hne), h, withoutExt h]
  rfl

/-- A key with the prefix: two interrupts. -/
theorem handler_extended {input : BitVec 8} (h : s.extScancode = false) (hne : input ≠ 0xe0) :
    intrKeyboardHandler input (intrKeyboardHandler 0xe0 s) =
      if (0xe000 ||| input.setWidth 16) &&& (0x0080 : Scancode) ≠ 0 then
        keyBreak ((0xe000 ||| input.setWidth 16) &&& 0xff7f) s
      else keyMake (0xe000 ||| input.setWidth 16) s := by
  have hext : intrKeyboardHandler 0xe0 s = { s with extScancode := true } := rfl
  rw [hext, intrKeyboardHandler]
  dsimp only
  rw [if_neg (setWidth_ne_ext hne), if_pos rfl, withoutExt h]

/-- The make code with its prefix. -/
def Key.scancode (k : Key) : Scancode :=
  if k.make.1 then 0xe000 ||| k.make.2.setWidth 16 else k.make.2.setWidth 16

/-- What the handler asks about the bytes of a key. -/
theorem make_facts (k : Key) : k.make.2 ≠ 0xe0 ∧ k.make.2 ||| 0x80 ≠ 0xe0 ∧
    k.scancode &&& 0x0080 = 0 ∧
    (if k.make.1 then 0xe000 ||| (k.make.2 ||| 0x80).setWidth 16
      else (k.make.2 ||| 0x80).setWidth 16) = k.scancode ||| 0x0080 ∧
    (k.scancode ||| 0x0080) &&& 0x0080 ≠ 0 ∧
    (k.scancode ||| 0x0080) &&& 0xff7f = k.scancode := by
  cases k with
  | char k =>
    cases k with
    | letter i => revert i; decide
    | symbol i => revert i; decide
    | single i => revert i; decide
  | shiftL => decide
  | shiftR => decide
  | ctrlL => decide
  | ctrlR => decide
  | altL => decide
  | altR => decide
  | capsLock => decide

theorem step_press (h : s.extScancode = false) (k : Key) :
    s.step (.press k) = keyMake k.scancode s := by
  obtain ⟨hne, -, hmake, -⟩ := make_facts k
  rw [Key.scancode] at hmake ⊢
  rw [Driver.step, Event.bytes]
  cases hext : k.make.1 with
  | false =>
    rw [hext] at hmake
    exact (handler_plain h hne).trans (if_neg (not_not_intro hmake))
  | true =>
    rw [hext] at hmake
    exact (handler_extended h hne).trans (if_neg (not_not_intro hmake))

theorem step_release (h : s.extScancode = false) (k : Key) :
    s.step (.release k) = keyBreak k.scancode s := by
  obtain ⟨-, hne, -, hcode, hbreak, hstrip⟩ := make_facts k
  rw [Driver.step, Event.bytes]
  cases hext : k.make.1 with
  | false =>
    rw [hext, if_neg Bool.false_ne_true] at hcode
    refine (handler_plain h hne).trans ?_
    rw [hcode, if_pos hbreak, hstrip]
  | true =>
    rw [hext, if_pos rfl] at hcode
    refine (handler_extended h hne).trans ?_
    rw [hcode, if_pos hbreak, hstrip]

/-! ### One event -/

theorem Follows.full (h : Follows s b) :
    ioqFull s.kbdBuf = true ↔ ¬b.queue.length < bufsize - 1 := by
  have hfull := fill_eq_full h.head_lt h.tail_lt
  have hlt : fill bufsize s.kbdBuf.head s.kbdBuf.tail < bufsize := fill_lt h.head_lt
  have hlen : b.queue.length = fill bufsize s.kbdBuf.head s.kbdBuf.tail := by
    rw [← h.queue, length_contents]
  rw [hlen, ioqFull, decide_eq_true_iff]
  change next bufsize s.kbdBuf.head = s.kbdBuf.tail ↔ _
  rw [← hfull]
  omega

/-- A character goes behind those that wait. -/
theorem Follows.put (h : Follows s b) (c : UInt8) :
    Follows (if ioqFull s.kbdBuf then s else { s with kbdBuf := putchar c s.kbdBuf })
      (b.enqueue c) := by
  rw [Board.enqueue]
  by_cases hfull : ioqFull s.kbdBuf = true
  · rw [if_pos hfull, if_neg (h.full.mp hfull)]
    exact h
  · have hroom : b.queue.length < bufsize - 1 := not_not.mp fun hn => hfull (h.full.mpr hn)
    have hne : next bufsize s.kbdBuf.head ≠ s.kbdBuf.tail := fun he => hfull (decide_eq_true he)
    rw [if_neg hfull, if_pos hroom]
    refine ⟨h.shift, h.ctrl, h.capsLock, h.ext, ?_, next_lt h.head_lt, h.tail_lt⟩
    change contents bufsize (Function.update s.kbdBuf.buf s.kbdBuf.head c)
      (next bufsize s.kbdBuf.head) s.kbdBuf.tail = b.queue ++ [c]
    rw [contents_put h.head_lt h.tail_lt hne, h.queue]

theorem Follows.take (h : Follows s b) : Follows (s.step .take) (b.step .take) := by
  have hstep : s.step .take = { s with kbdBuf := getchar s.kbdBuf } := rfl
  have hqueue := h.queue
  rw [hstep, getchar]
  by_cases hempty : s.kbdBuf.head = s.kbdBuf.tail
  · have hdec : ioqEmpty s.kbdBuf = true := decide_eq_true hempty
    have hnil : b.queue = [] := by
      rw [← hqueue, ← List.length_eq_zero_iff, length_contents, fill_eq_zero h.tail_lt]
      exact hempty
    rw [if_pos hdec]
    refine ⟨h.shift, h.ctrl, h.capsLock, h.ext, ?_, h.head_lt, h.tail_lt⟩
    rw [hqueue, Board.step, hnil]
    rfl
  · have hdec : ¬ioqEmpty s.kbdBuf = true := fun he => hempty (of_decide_eq_true he)
    rw [if_neg hdec]
    refine ⟨h.shift, h.ctrl, h.capsLock, h.ext, ?_, h.head_lt, next_lt h.tail_lt⟩
    rw [contents_get h.head_lt h.tail_lt hempty] at hqueue
    rw [Board.step, ← hqueue]
    rfl

theorem follows_char (h : Follows s b) (k : CharKey) :
    Follows (s.step (.press (.char k))) (b.step (.press (.char k))) := by
  obtain ⟨hne, -, -, hpos, hlt⟩ := code_facts k s.shiftStatus s.capsLockStatus
  have hscan : (Key.char k).scancode = k.code.setWidth 16 := rfl
  have hchar : control s.ctrlStatus (curChar (k.code.setWidth 16) s.shiftStatus s.capsLockStatus) =
      b.char k := by
    rw [curChar_code, h.shift, h.capsLock, h.ctrl]
    rfl
  rw [step_press h.ext, hscan, keyMake, if_pos (.inl ⟨hpos, hlt⟩)]
  dsimp only
  rw [hchar, curChar_code, if_pos hne]
  have hput := h.put (b.char k)
  exact ⟨hput.shift, hput.ctrl, hput.capsLock, hput.ext, hput.queue, hput.head_lt, hput.tail_lt⟩

/-- A modifier is pressed: no character, and the flag it stands for. -/
theorem keyMake_modifier {scancode : Scancode} (h : scancode ∈ [shiftLMake, shiftRMake, altLMake,
    altRMake, ctrlLMake, ctrlRMake, capsLockMake]) (s : Driver T) : keyMake scancode s =
    { s with
      shiftStatus := if scancode = shiftLMake ∨ scancode = shiftRMake then true else s.shiftStatus
      altStatus := if scancode = altLMake ∨ scancode = altRMake then true else s.altStatus
      ctrlStatus := if scancode = ctrlLMake ∨ scancode = ctrlRMake then true else s.ctrlStatus
      capsLockStatus := if scancode = capsLockMake then !s.capsLockStatus
        else s.capsLockStatus } := by
  have hrange : 0 < scancode ∧ scancode < 0x3b ∨ scancode = ctrlRMake ∨ scancode = altRMake := by
    simp only [List.mem_cons, List.not_mem_nil, or_false] at h
    rcases h with rfl | rfl | rfl | rfl | rfl | rfl | rfl <;> decide
  rw [keyMake, if_pos hrange]
  dsimp only
  rw [curChar_modifier h, if_neg (not_not_intro rfl)]
  simp only [List.mem_cons, List.not_mem_nil, or_false] at h
  rcases h with rfl | rfl | rfl | rfl | rfl | rfl | rfl <;> rfl

/-- The flags a key clears when it goes up. -/
theorem keyBreak_eq (scancode : Scancode) (s : Driver T) : keyBreak scancode s =
    { s with
      shiftStatus := if scancode = shiftLMake ∨ scancode = shiftRMake then false else s.shiftStatus
      altStatus := if scancode = altLMake ∨ scancode = altRMake then false else s.altStatus
      ctrlStatus := if scancode = ctrlLMake ∨ scancode = ctrlRMake then false
        else s.ctrlStatus } := by
  rw [keyBreak]
  by_cases hshift : scancode = shiftLMake ∨ scancode = shiftRMake <;>
    by_cases halt : scancode = altLMake ∨ scancode = altRMake <;>
      by_cases hctrl : scancode = ctrlLMake ∨ scancode = ctrlRMake <;>
        simp only [hshift, halt, hctrl, if_true, if_false]

/-- Which keys the flags are for. -/
theorem scancode_flags (k : Key) :
    (k.scancode = shiftLMake ∨ k.scancode = shiftRMake ↔ k = .shiftL ∨ k = .shiftR) ∧
      (k.scancode = ctrlLMake ∨ k.scancode = ctrlRMake ↔ k = .ctrlL ∨ k = .ctrlR) ∧
      (k.scancode = capsLockMake ↔ k = .capsLock) := by
  cases k with
  | char k =>
    cases k with
    | letter i => revert i; decide
    | symbol i => revert i; decide
    | single i => revert i; decide
  | shiftL => decide
  | shiftR => decide
  | ctrlL => decide
  | ctrlR => decide
  | altL => decide
  | altR => decide
  | capsLock => decide

/-- Two keys, and a third one that moves. -/
theorem held_other (d : Key → Bool) (v : Bool) {k l r : Key} (hk : ¬(k = l ∨ k = r)) :
    (Function.update d k v l || Function.update d k v r) = (d l || d r) := by
  obtain ⟨hl, hr⟩ := not_or.mp hk
  rw [Function.update_of_ne (Ne.symm hl), Function.update_of_ne (Ne.symm hr)]

/-- A key goes down: the flag of two keys. -/
theorem held_down {v : Bool} {d : Key → Bool} {k l r : Key} (hv : v = (d l || d r)) :
    (if k = l ∨ k = r then true else v) =
      (Function.update d k true l || Function.update d k true r) := by
  by_cases hk : k = l ∨ k = r
  · rw [if_pos hk]
    rcases hk with rfl | rfl
    · rw [Function.update_self, Bool.true_or]
    · rw [Function.update_self, Bool.or_true]
  · rw [if_neg hk, held_other d true hk, hv]

/-- A key goes up: the flag of two keys of which the other one is not down. -/
theorem held_up {v : Bool} {d : Key → Bool} {k l r : Key} (hv : v = (d l || d r)) (hlr : l ≠ r)
    (hl : k = l → d r = false) (hr : k = r → d l = false) :
    (if k = l ∨ k = r then false else v) =
      (Function.update d k false l || Function.update d k false r) := by
  by_cases hk : k = l ∨ k = r
  · rw [if_pos hk]
    rcases hk with rfl | rfl
    · rw [Function.update_self, Function.update_of_ne hlr.symm, hl rfl, Bool.or_false]
    · rw [Function.update_self, Function.update_of_ne hlr, hr rfl, Bool.or_false]
  · rw [if_neg hk, held_other d false hk, hv]

theorem follows_modifier (h : Follows s b) {k : Key} (hk : k.scancode ∈ [shiftLMake, shiftRMake,
    altLMake, altRMake, ctrlLMake, ctrlRMake, capsLockMake])
    (hstep : b.step (.press k) = { b with
      down := Function.update b.down k true
      capsLock := if k = .capsLock then !b.capsLock else b.capsLock }) :
    Follows (s.step (.press k)) (b.step (.press k)) := by
  obtain ⟨hshift, hctrl, hcaps⟩ := scancode_flags k
  rw [hstep, step_press h.ext, keyMake_modifier hk]
  simp only [hshift, hctrl, hcaps]
  refine ⟨held_down h.shift, held_down h.ctrl, ?_, h.ext, h.queue, h.head_lt, h.tail_lt⟩
  dsimp only
  rw [h.capsLock]

theorem follows_press (h : Follows s b) (k : Key) :
    Follows (s.step (.press k)) (b.step (.press k)) := by
  cases k with
  | char k => exact follows_char h k
  | shiftL => exact follows_modifier h (by decide) rfl
  | shiftR => exact follows_modifier h (by decide) rfl
  | ctrlL => exact follows_modifier h (by decide) rfl
  | ctrlR => exact follows_modifier h (by decide) rfl
  | altL => exact follows_modifier h (by decide) rfl
  | altR => exact follows_modifier h (by decide) rfl
  | capsLock => exact follows_modifier h (by decide) rfl

theorem follows_release (h : Follows s b) {k : Key} (hmeets : Meets b (.release k)) :
    Follows (s.step (.release k)) (b.step (.release k)) := by
  obtain ⟨hshift, hctrl, -⟩ := scancode_flags k
  have htwin : ∀ l r, l.twin = some r → k = l → b.down r = false :=
    fun l r hl hk => hmeets r (hk ▸ hl)
  rw [step_release h.ext, keyBreak_eq]
  simp only [hshift, hctrl]
  exact ⟨held_up h.shift (by decide) (htwin _ _ rfl) (htwin _ _ rfl),
    held_up h.ctrl (by decide) (htwin _ _ rfl) (htwin _ _ rfl), h.capsLock, h.ext, h.queue,
    h.head_lt, h.tail_lt⟩

/-! ### All events -/

theorem follows_step (h : Follows s b) (hmeets : Meets b e) : Follows (s.step e) (b.step e) := by
  cases e with
  | press k => exact follows_press h k
  | release k => exact follows_release h hmeets
  | take => exact h.take

theorem follows_run (h : Follows s b) (hmeets : AllMeet events b) :
    Follows (s.run events) (b.run events) := by
  induction events generalizing s b with
  | nil => exact h
  | cons e events ih => exact ih (follows_step h hmeets.1) hmeets.2

theorem follows_init : Follows (init : Driver T) Board.init :=
  ⟨rfl, rfl, rfl, rfl, rfl, Nat.two_pow_pos 11, Nat.two_pow_pos 11⟩

/-- The characters that wait in `kbd_buf`. -/
def Driver.waiting (s : Driver T) : List UInt8 :=
  contents bufsize s.kbdBuf.buf s.kbdBuf.head s.kbdBuf.tail

/-- The flags stand for the keys that are held, as long as no key goes up while its twin is down. -/
theorem run_characters (hmeets : AllMeet events Board.init) :
    ((init : Driver T).run events).waiting = (Board.init.run events).queue :=
  (follows_run follows_init hmeets).queue

/-- The key of the letter a. -/
def keyA : Key := .char (.letter 10)

theorem run_characters_shift : ((init : Driver Unit).run
    [.press .shiftL, .press keyA, .release .shiftL]).waiting =
      (Board.init.run [.press .shiftL, .press keyA, .release .shiftL]).queue :=
  run_characters ⟨trivial, trivial, fun k hk => by cases hk; rfl, trivial⟩

/-- Both shift keys are down and one goes up: the flag is false. -/
theorem twin_release_lowers :
    ((init : Driver Unit).run
      [.press .shiftL, .press .shiftR, .release .shiftL, .press keyA]).waiting = [ascii 'a'] ∧
    (Board.init.run
      [.press .shiftL, .press .shiftR, .release .shiftL, .press keyA]).queue = [ascii 'A'] := by
  decide

end Keyboard
