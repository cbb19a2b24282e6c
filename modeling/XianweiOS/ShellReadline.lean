import XianweiOS.ByteStore
import Mathlib.Data.List.Infix
import Mathlib.Logic.Function.Basic

/-! `readline` of the shell (`shell/shell.c`) as a line editor. Addresses are offsets from `buf`; a
store in front of it or behind its `count` bytes is made like any other, and recorded. -/
namespace ShellReadline

open ByteStore

/-- `cmd_len` -/
def cmdLen : ℕ := 128

/-- What goes to the screen. -/
inductive Shown
  | putchar (b : Byte)
  | clear
  | prompt
  | string (s : List Byte)
  | message
  deriving DecidableEq, Repr

structure Reader where
  mem : ℤ → Byte
  pos : ℤ
  stores : List ℤ
  screen : List Shown

namespace Reader

def store (s : Reader) (b : Byte) : Reader :=
  { s with mem := Function.update s.mem s.pos b, stores := s.pos :: s.stores }

def move (s : Reader) (n : ℤ) : Reader := { s with pos := s.pos + n }

def output (s : Reader) (out : Shown) : Reader := { s with screen := out :: s.screen }

/-- `while (buf != pos)`, for the `n` characters between them. -/
def killLine : (n : ℕ) → Reader → Reader
  | 0, s => s
  | n + 1, s => killLine n (((s.output (.putchar 8)).store 0).move (-1))

/-- What `%s` prints of the buffer. -/
def string (s : Reader) (count : ℕ) : List Byte :=
  ((List.range count).map fun i => s.mem i).takeWhile (· ≠ 0)

end Reader

inductive Status
  | reading (s : Reader)
  | returned (s : Reader)

def Status.reader : Status → Reader
  | reading s | returned s => s

/-- One round of the loop: `read` stores the character at `pos` before anything else. -/
def readKey (count : ℕ) (input : Byte) (s : Reader) : Status :=
  let s := s.store input
  if s.pos < count then
    let key := s.mem s.pos
    if key = 10 ∨ key = 13 then -- '\n', '\r'
      .returned ((s.store 0).output (.putchar 10))
    else if key = 8 then -- '\b'
      if s.mem 0 ≠ 8 then .reading ((s.move (-1)).output (.putchar 8)) else .reading s
    else if key = 11 then -- 'l' - 'a'
      let s := s.store 0
      .reading (((s.output .clear).output .prompt).output (.string (s.string count)))
    else if key = 20 then -- 'u' - 'a'
      .reading (s.killLine s.pos.toNat)
    else .reading ((s.output (.putchar key)).move 1)
  else .returned (s.output .message)

/-- After the characters that have come so far. -/
def readline (count : ℕ) : List Byte → Reader → Status
  | [], s => .reading s
  | input :: rest, s =>
    match readKey count input s with
    | .reading s => readline count rest s
    | .returned s => .returned s

def start (mem : ℤ → Byte) : Reader := ⟨mem, 0, [], []⟩

/-! ### The edited line -/

/-- A character that stands for itself. -/
def Printing (b : Byte) : Prop := b ≠ 0 ∧ b ≠ 8 ∧ b ≠ 10 ∧ b ≠ 11 ∧ b ≠ 13 ∧ b ≠ 20

instance : DecidablePred Printing := fun b => by unfold Printing; infer_instance

inductive Key
  | char (b : Byte) (h : Printing b)
  | backspace
  | ctrlL
  | ctrlU
  | newline
  | carriageReturn

namespace Key

def code : Key → Byte
  | char b _ => b
  | backspace => 8
  | ctrlL => 11
  | ctrlU => 20
  | newline => 10
  | carriageReturn => 13

/-- `none` ends the line. -/
def edit (l : List Byte) : Key → Option (List Byte)
  | char b _ => some (l ++ [b])
  | backspace => some l.dropLast
  | ctrlL => some l
  | ctrlU => some []
  | newline | carriageReturn => none

end Key

/-- The line after the edits up to the first enter. -/
def lineOf : List Key → List Byte → List Byte
  | [], l => l
  | k :: keys, l =>
    match k.edit l with
    | some l => lineOf keys l
    | none => l

/-- The bytes of the string at `buf`. -/
def Holds (mem : ℤ → Byte) (l : List Byte) : Prop :=
  (∀ (i : ℕ) (h : i < l.length), mem i = l[i]) ∧ mem l.length = 0

/-- `pos` is in the buffer, nothing has been stored elsewhere, and what has been returned is the
line as far as it fits. -/
structure Good (count : ℕ) (st : Status) (l : List Byte) : Prop where
  pos : 0 ≤ st.reader.pos ∧ st.reader.pos < count
  stores : ∀ a ∈ st.reader.stores, 0 ≤ a ∧ a < count
  returned : ∀ s, st = .returned s → Holds s.mem (l.take (count - 1))

/-- At every moment. -/
def Correct (count : ℕ) (mem : ℤ → Byte) (keys : List Key) : Prop :=
  ∀ front, front <+: keys → Good count (readline count (front.map Key.code) (start mem))
    (lineOf front [])

/-- The edited line stays below `count` characters. -/
def StaysShort (count : ℕ) (keys : List Key) : Prop :=
  ∀ front, front <+: keys → (lineOf front []).length < count

variable {count : ℕ} {s s' : Reader} {l : List Byte} {k : Key} {keys : List Key} {mem : ℤ → Byte}

/-! ### One key -/

/-- The line stands between `buf` and `pos`. -/
structure Editing (count : ℕ) (s : Reader) (l : List Byte) : Prop where
  pos : s.pos = l.length
  text : ∀ (i : ℕ) (h : i < l.length), s.mem i = l[i]
  printing : ∀ b ∈ l, Printing b
  stores : ∀ a ∈ s.stores, 0 ≤ a ∧ a < count

/-- The character that comes in is stored behind the line. -/
theorem Editing.stored (h : Editing count s l) (hlt : l.length < count) (b : Byte) :
    Editing count (s.store b) l ∧ (s.store b).mem l.length = b := by
  have hpos := h.pos
  refine ⟨⟨hpos, fun i hi => ?_, h.printing, fun a ha => ?_⟩, ?_⟩
  · have hne : (i : ℤ) ≠ s.pos := by omega
    exact (Function.update_of_ne hne _ _).trans (h.text i hi)
  · rcases List.mem_cons.mp ha with rfl | ha
    · omega
    · exact h.stores a ha
  · rw [← hpos]
    exact Function.update_self _ _ _

theorem Editing.output (h : Editing count s l) (out : Shown) : Editing count (s.output out) l :=
  ⟨h.pos, h.text, h.printing, h.stores⟩

/-- The loop of ctrl-u stores between `buf` and the old `pos`. -/
theorem killLine_spec : ∀ {n : ℕ} {s : Reader}, s.pos = n → n < count →
    (∀ a ∈ s.stores, 0 ≤ a ∧ a < count) →
    (s.killLine n).pos = 0 ∧ ∀ a ∈ (s.killLine n).stores, 0 ≤ a ∧ a < count
  | 0, s, hpos, _, hstores => ⟨hpos, hstores⟩
  | n + 1, s, hpos, hlt, hstores => by
    rw [Reader.killLine]
    apply killLine_spec
    · change s.pos + -1 = n
      omega
    · omega
    · intro a ha
      rcases List.mem_cons.mp ha with rfl | ha
      · change 0 ≤ s.pos ∧ s.pos < count
        omega
      · exact hstores a ha

/-- A key that edits. -/
theorem readKey_edit {l' : List Byte} (h : Editing count s l) (hlt : l.length < count)
    (hk : k.edit l = some l') :
    ∃ s', readKey count k.code s = .reading s' ∧ Editing count s' l' := by
  obtain ⟨hstored, hkey⟩ := h.stored hlt k.code
  have hpos := hstored.pos
  have hin : (s.store k.code).pos < count := by omega
  have hread : (s.store k.code).mem (s.store k.code).pos = k.code := by rw [hpos, hkey]
  rw [readKey]
  dsimp only
  rw [if_pos hin, hread]
  generalize s.store k.code = s at hstored hkey hpos hread
  cases k with
  | char b hb =>
    obtain rfl := Option.some.inj hk
    obtain ⟨-, h8, h10, h11, h13, h20⟩ := id hb
    rw [Key.code, if_neg (not_or.mpr ⟨h10, h13⟩), if_neg h8, if_neg h11, if_neg h20]
    refine ⟨_, rfl, ?_, fun i hi => ?_, ?_, hstored.stores⟩
    · change s.pos + 1 = _
      rw [hpos, List.length_append, List.length_singleton]
      rfl
    · change s.mem i = _
      by_cases hil : i < l.length
      · rw [hstored.text i hil, List.getElem_append_left hil]
      · obtain rfl : i = l.length := by
          rw [List.length_append, List.length_singleton] at hi
          omega
        rw [hkey, List.getElem_concat_length rfl]
        rfl
    · intro c hc
      rcases List.mem_append.mp hc with hc | hc
      · exact hstored.printing c hc
      · exact List.mem_singleton.mp hc ▸ hb
  | backspace =>
    obtain rfl := Option.some.inj hk
    rw [Key.code, if_neg (by decide), if_pos rfl]
    cases l with
    | nil =>
      have hfirst : s.mem 0 = 8 := hkey
      rw [if_neg (not_not_intro hfirst)]
      exact ⟨_, rfl, hstored⟩
    | cons b l =>
      have hfirst : s.mem 0 = b := hstored.text 0 (Nat.succ_pos _)
      have hb := (hstored.printing b List.mem_cons_self).2.1
      rw [hfirst, if_pos hb]
      refine ⟨_, rfl, ?_, fun i hi => ?_, fun c hc => ?_, hstored.stores⟩
      · change s.pos + -1 = _
        rw [hpos, List.length_dropLast, List.length_cons]
        omega
      · rw [List.getElem_dropLast]
        exact hstored.text i _
      · exact hstored.printing c (List.dropLast_subset _ hc)
  | ctrlL =>
    obtain rfl := Option.some.inj hk
    rw [Key.code, if_neg (by decide), if_neg (by decide), if_pos rfl]
    exact ⟨_, rfl, (((hstored.stored hlt 0).1.output _).output _).output _⟩
  | ctrlU =>
    obtain rfl := Option.some.inj hk
    rw [Key.code, if_neg (by decide), if_neg (by decide), if_neg (by decide), if_pos rfl]
    have hpos : s.pos = s.pos.toNat := by omega
    obtain ⟨hzero, hstores⟩ := killLine_spec hpos (by omega) hstored.stores
    exact ⟨_, rfl, hzero, fun i hi => absurd hi (Nat.not_lt_zero i), by simp, hstores⟩
  | newline => cases hk
  | carriageReturn => cases hk

/-- Enter puts the NUL behind the line. -/
theorem readKey_enter (h : Editing count s l) (hlt : l.length < count) (hk : k.edit l = none) :
    ∃ s', readKey count k.code s = .returned s' ∧ Editing count s' l ∧ s'.mem l.length = 0 := by
  obtain ⟨hstored, hkey⟩ := h.stored hlt k.code
  have hpos := hstored.pos
  have hin : (s.store k.code).pos < count := by omega
  have hread : (s.store k.code).mem (s.store k.code).pos = k.code := by rw [hpos, hkey]
  have henter : k.code = 10 ∨ k.code = 13 := by
    cases k with
    | newline => exact .inl rfl
    | carriageReturn => exact .inr rfl
    | char => cases hk
    | backspace => cases hk
    | ctrlL => cases hk
    | ctrlU => cases hk
  rw [readKey]
  dsimp only
  rw [if_pos hin, hread, if_pos henter]
  obtain ⟨hended, hzero⟩ := hstored.stored hlt 0
  exact ⟨_, rfl, hended.output _, hzero⟩

/-! ### All keys -/

theorem Editing.good (h : Editing count s l) (hlt : l.length < count) :
    Good count (.reading s) l := by
  have hpos := h.pos
  refine ⟨⟨?_, ?_⟩, h.stores, fun s' hs => by cases hs⟩
  · change 0 ≤ s.pos
    omega
  · change s.pos < count
    omega

theorem Editing.returned (h : Editing count s l) (hlt : l.length < count)
    (hzero : s.mem l.length = 0) : Good count (.returned s) l := by
  obtain ⟨hpos, hstores, -⟩ := h.good hlt
  refine ⟨hpos, hstores, fun s' hs => ?_⟩
  cases hs
  rw [List.take_of_length_le (by omega)]
  exact ⟨h.text, hzero⟩

theorem forall_prefix_cons {P : List Key → Prop} :
    (∀ front, front <+: k :: keys → P front) ↔ P [] ∧ ∀ front, front <+: keys → P (k :: front) := by
  constructor
  · intro h
    exact ⟨h [] List.nil_prefix, fun front hf => h _ ((List.prefix_cons_inj k).mpr hf)⟩
  · rintro ⟨hnil, hcons⟩ front hf
    rcases List.prefix_cons_iff.mp hf with rfl | ⟨t, rfl, ht⟩
    · exact hnil
    · exact hcons t ht

/-- The line that is edited decides, from any moment on. -/
theorem good_iff_short (h : Editing count s l) (hlt : l.length < count) (keys : List Key) :
    (∀ front, front <+: keys →
      Good count (readline count (front.map Key.code) s) (lineOf front l)) ↔
    ∀ front, front <+: keys → (lineOf front l).length < count := by
  induction keys generalizing s l with
  | nil =>
    simp only [List.prefix_nil, forall_eq]
    exact iff_of_true (h.good hlt) hlt
  | cons k keys ih =>
    have hnow : Good count (readline count (List.map Key.code []) s) (lineOf [] l) := h.good hlt
    have hshort : (lineOf [] l).length < count := hlt
    rw [forall_prefix_cons, forall_prefix_cons, and_iff_right hnow, and_iff_right hshort]
    cases hk : k.edit l with
    | none =>
      obtain ⟨s', hstep, hend, hzero⟩ := readKey_enter h hlt hk
      simp only [List.map_cons, readline, lineOf, hstep, hk]
      exact iff_of_true (fun _ _ => hend.returned hlt hzero) fun _ _ => hlt
    | some l' =>
      obtain ⟨s', hstep, hnext⟩ := readKey_edit h hlt hk
      simp only [List.map_cons, readline, lineOf, hstep, hk]
      by_cases hlt' : l'.length < count
      · exact ih hnext hlt'
      · -- the line has just become too long
        have hpos := hnext.pos
        refine iff_of_false (fun hgood => ?_) fun hshort => hlt' (hshort [] List.nil_prefix)
        have hin : s'.pos < count := (hgood [] List.nil_prefix).pos.2
        omega

theorem editing_start (count : ℕ) (mem : ℤ → Byte) : Editing count (start mem) [] where
  pos := rfl
  text _ hi := absurd hi (Nat.not_lt_zero _)
  printing := by simp
  stores := by simp [start]

/-- The buffer is full before `readline` looks. -/
theorem readline_correct_iff (hcount : 0 < count) (mem : ℤ → Byte) (keys : List Key) :
    Correct count mem keys ↔ StaysShort count keys :=
  good_iff_short (editing_start count mem) hcount keys

theorem readline_correct_iff_hi :
    Correct cmdLen (fun _ => 0) [.char 104 (by decide), .char 105 (by decide), .newline] := by
  apply (readline_correct_iff (by decide) _ _).mpr
  intro front hfront
  rw [← List.mem_inits] at hfront
  simp only [List.inits, List.map_cons, List.map_nil, List.mem_cons, List.not_mem_nil,
    or_false] at hfront
  rcases hfront with rfl | rfl | rfl | rfl <;> decide

/-- A row of the same character. -/
theorem readline_type {b : Byte} (hb : Printing b) : ∀ (n : ℕ) {s : Reader} {l : List Byte},
    Editing count s l → l.length + n ≤ count →
    ∃ s', readline count ((List.replicate n (Key.char b hb)).map Key.code) s = .reading s' ∧
      Editing count s' (l ++ List.replicate n b)
  | 0, s, l, h, _ => ⟨s, rfl, by rwa [List.replicate_zero, List.append_nil]⟩
  | n + 1, s, l, h, hle => by
    obtain ⟨s', hstep, hnext⟩ := readKey_edit (k := .char b hb) h (by omega) rfl
    obtain ⟨s'', hrun, hend⟩ := readline_type hb n hnext (by
      rw [List.length_append, List.length_singleton]
      omega)
    refine ⟨s'', ?_, ?_⟩
    · rw [List.replicate_succ, List.map_cons, readline, hstep]
      exact hrun
    · rwa [List.append_assoc, List.singleton_append, ← List.replicate_succ] at hend

theorem readline_append {front back : List Byte} (h : readline count front s = .reading s') :
    readline count (front ++ back) s = readline count back s' := by
  induction front generalizing s with
  | nil =>
    cases h
    rfl
  | cons b front ih =>
    rw [List.cons_append, readline]
    rw [readline] at h
    cases hb : readKey count b s with
    | reading s₁ =>
      rw [hb] at h
      exact ih h
    | returned s₁ =>
      rw [hb] at h
      cases h

/-- In a full buffer the next character goes behind it, and the line is returned as it is. -/
theorem readKey_full (h : Editing count s l) (hfull : l.length = count) (input : Byte) :
    ∃ s', readKey count input s = .returned s' ∧ (count : ℤ) ∈ s'.stores := by
  have hpos : s.pos = count := hfull ▸ h.pos
  have hout : ¬(s.store input).pos < count := by
    change ¬s.pos < count
    omega
  rw [readKey]
  dsimp only
  rw [if_neg hout]
  exact ⟨_, rfl, List.mem_cons.mpr (.inl hpos.symm)⟩

/-- As many characters as the shell's line has bytes, and one more key. -/
theorem long_line_overruns :
    ¬Correct cmdLen (fun _ => 0) (List.replicate 128 (.char 97 (by decide))) ∧
      ∀ input, ∃ s', readline cmdLen
        ((List.replicate 128 (.char 97 (by decide))).map Key.code ++ [input]) (start fun _ => 0) =
          .returned s' ∧ 128 ∈ s'.stores := by
  obtain ⟨s', hrun, hend⟩ := readline_type (b := 97) (by decide) 128
    (editing_start cmdLen fun _ => 0) le_rfl
  constructor
  · intro hcorrect
    have hgood := hcorrect _ (List.prefix_refl _)
    rw [hrun] at hgood
    have hpos : s'.pos < cmdLen := hgood.pos.2
    have hfull : s'.pos = 128 := hend.pos
    rw [cmdLen] at hpos
    omega
  · intro input
    obtain ⟨s'', hstep, hmem⟩ := readKey_full hend List.length_replicate input
    refine ⟨s'', ?_, hmem⟩
    rw [readline_append hrun, readline, hstep]

end ShellReadline
