import Mathlib.Algebra.Group.Nat.Defs
import Mathlib.Data.Nat.Notation
import Mathlib.Logic.Function.Basic
import Mathlib.Tactic.Common

/-! A 32-bit stack machine: eight general registers, six segment registers, and memory
read and written in aligned words, each named by its byte address. The instructions are
the ones that save and restore a context; arithmetic on addresses wraps at 2^32. -/
namespace StackMachine

inductive Reg where
  | eax
  | ecx
  | edx
  | ebx
  | esp
  | ebp
  | esi
  | edi
  deriving DecidableEq, Repr

inductive Seg where
  | cs
  | ss
  | ds
  | es
  | fs
  | gs
  deriving DecidableEq, Repr

abbrev Memory := ℕ → ℕ

def Memory.store (m : Memory) (a w : ℕ) : Memory := fun x => if x = a then w else m x

structure Cpu where
  reg : Reg → ℕ
  seg : Seg → ℕ
  eip : ℕ
  eflags : ℕ
  mem : Memory

def Cpu.set (c : Cpu) (r : Reg) (w : ℕ) : Cpu := { c with reg := Function.update c.reg r w }

def Cpu.setSeg (c : Cpu) (s : Seg) (w : ℕ) : Cpu :=
  { c with seg := Function.update c.seg s w }

def Cpu.jump (c : Cpu) (a : ℕ) : Cpu := { c with eip := a }

def Cpu.setFlags (c : Cpu) (f : ℕ) : Cpu := { c with eflags := f }

def Cpu.write (c : Cpu) (a w : ℕ) : Cpu := { c with mem := c.mem.store a w }

/-- The address one word below `a`, wrapping at 0. -/
def wordBelow (a : ℕ) : ℕ := if a < 4 then a + 2 ^ 32 - 4 else a - 4

theorem wordBelow_eq {a : ℕ} (h : 4 ≤ a) : wordBelow a = a - 4 := if_neg (by omega)

def Cpu.push (c : Cpu) (w : ℕ) : Cpu :=
  (c.set .esp (wordBelow (c.reg .esp))).write (wordBelow (c.reg .esp)) w

def Cpu.pushes (c : Cpu) (ws : List ℕ) : Cpu := ws.foldl Cpu.push c

/-- The word `i` places above the top of the stack. -/
def Cpu.word (c : Cpu) (i : ℕ) : ℕ := c.mem ((c.reg .esp + 4 * i) % 2 ^ 32)

def Cpu.drop (c : Cpu) (n : ℕ) : Cpu := c.set .esp ((c.reg .esp + 4 * n) % 2 ^ 32)

inductive Instr where
  | nop
  | out (port : ℕ)
  | pushImm (w : ℕ)
  | push (r : Reg)
  | pushSeg (s : Seg)
  | pushad
  | pop (r : Reg)
  | popSeg (s : Seg)
  | popad
  | movLow (r : Reg) (b : ℕ)
  | load (r base : Reg) (off : ℕ)
  | store (base : Reg) (off : ℕ) (r : Reg)
  | addEsp (n : ℕ)
  | call (target back : ℕ)
  | ret
  | iretd
  deriving DecidableEq, Repr

/-- The two low bits of a selector; the running code's ring is that of `cs`. -/
def ring (selector : ℕ) : ℕ := selector % 4

/-- A return to an outer ring also takes back the stack of that ring. -/
def Cpu.iretd (c : Cpu) : Cpu :=
  let back := ((c.setSeg .cs (c.word 1)).setFlags (c.word 2)).jump (c.word 0)
  if ring (c.seg .cs) < ring (c.word 1) then (back.setSeg .ss (c.word 4)).set .esp (c.word 3)
  else back.drop 3

/-- A port takes the written byte and changes no register. `push esp` stores the value
from before the push, and `pushad` stores it between `ebx` and `ebp`. -/
def exec (c : Cpu) : Instr → Cpu
  | .nop => c
  | .out _ => c
  | .pushImm w => c.push w
  | .push r => c.push (c.reg r)
  | .pushSeg s => c.push (c.seg s)
  | .pushad => c.pushes [c.reg .eax, c.reg .ecx, c.reg .edx, c.reg .ebx, c.reg .esp,
      c.reg .ebp, c.reg .esi, c.reg .edi]
  | .pop r => (c.drop 1).set r (c.word 0)
  | .popSeg s => (c.drop 1).setSeg s (c.word 0)
  | .popad => ((((((((c.drop 8).set .edi (c.word 0)).set .esi (c.word 1)).set .ebp
      (c.word 2)).set .ebx (c.word 4)).set .edx (c.word 5)).set .ecx (c.word 6)).set .eax
      (c.word 7))
  | .movLow r b => c.set r (c.reg r / 256 * 256 + b)
  | .load r base off => c.set r (c.mem ((c.reg base + off) % 2 ^ 32))
  | .store base off r => c.write ((c.reg base + off) % 2 ^ 32) (c.reg r)
  | .addEsp n => c.set .esp ((c.reg .esp + n) % 2 ^ 32)
  | .call target back => (c.push back).jump target
  | .ret => (c.drop 1).jump (c.word 0)
  | .iretd => c.iretd

def run (code : List Instr) (c : Cpu) : Cpu := code.foldl exec c

@[simp] theorem run_nil (c : Cpu) : run [] c = c := rfl

@[simp] theorem run_cons (i : Instr) (code : List Instr) (c : Cpu) :
    run (i :: code) c = run code (exec c i) := rfl

theorem run_append (code code' : List Instr) (c : Cpu) :
    run (code ++ code') c = run code' (run code c) := List.foldl_append

/-- The interrupt flag, bit 9. -/
def interruptFlag (eflags : ℕ) : Bool := eflags.testBit 9

def maskInterrupts (eflags : ℕ) : ℕ := if interruptFlag eflags then eflags - 2 ^ 9 else eflags

/-- Delivery through an interrupt gate of the code segment `cs`: from an outer ring the
stack becomes `ss0:esp0` of the task state and the old one is pushed on it. -/
def Cpu.deliver (c : Cpu) (cs ss0 esp0 : ℕ) : Cpu :=
  let inner := if ring cs < ring (c.seg .cs) then
      ((c.setSeg .ss ss0).set .esp esp0).pushes [c.seg .ss, c.reg .esp] else c
  ((inner.pushes [c.eflags, c.seg .cs, c.eip]).setSeg .cs cs).setFlags
    (maskInterrupts c.eflags)

section registers

variable (c : Cpu)

@[simp] theorem set_reg (r q : Reg) (w : ℕ) :
    (c.set r w).reg q = if q = r then w else c.reg q := by
  simp [Cpu.set, Function.update_apply]

@[simp] theorem set_seg (r : Reg) (w : ℕ) : (c.set r w).seg = c.seg := rfl
@[simp] theorem set_mem (r : Reg) (w : ℕ) : (c.set r w).mem = c.mem := rfl
@[simp] theorem set_eip (r : Reg) (w : ℕ) : (c.set r w).eip = c.eip := rfl
@[simp] theorem set_eflags (r : Reg) (w : ℕ) : (c.set r w).eflags = c.eflags := rfl

@[simp] theorem setSeg_seg (s q : Seg) (w : ℕ) :
    (c.setSeg s w).seg q = if q = s then w else c.seg q := by
  simp [Cpu.setSeg, Function.update_apply]

@[simp] theorem setSeg_reg (s : Seg) (w : ℕ) : (c.setSeg s w).reg = c.reg := rfl
@[simp] theorem setSeg_mem (s : Seg) (w : ℕ) : (c.setSeg s w).mem = c.mem := rfl
@[simp] theorem setSeg_eip (s : Seg) (w : ℕ) : (c.setSeg s w).eip = c.eip := rfl
@[simp] theorem setSeg_eflags (s : Seg) (w : ℕ) : (c.setSeg s w).eflags = c.eflags := rfl

@[simp] theorem jump_reg (a : ℕ) : (c.jump a).reg = c.reg := rfl
@[simp] theorem jump_seg (a : ℕ) : (c.jump a).seg = c.seg := rfl
@[simp] theorem jump_mem (a : ℕ) : (c.jump a).mem = c.mem := rfl
@[simp] theorem jump_eip (a : ℕ) : (c.jump a).eip = a := rfl
@[simp] theorem jump_eflags (a : ℕ) : (c.jump a).eflags = c.eflags := rfl

@[simp] theorem setFlags_reg (f : ℕ) : (c.setFlags f).reg = c.reg := rfl
@[simp] theorem setFlags_seg (f : ℕ) : (c.setFlags f).seg = c.seg := rfl
@[simp] theorem setFlags_mem (f : ℕ) : (c.setFlags f).mem = c.mem := rfl
@[simp] theorem setFlags_eip (f : ℕ) : (c.setFlags f).eip = c.eip := rfl
@[simp] theorem setFlags_eflags (f : ℕ) : (c.setFlags f).eflags = f := rfl

@[simp] theorem write_reg (a w : ℕ) : (c.write a w).reg = c.reg := rfl
@[simp] theorem write_seg (a w : ℕ) : (c.write a w).seg = c.seg := rfl
@[simp] theorem write_eip (a w : ℕ) : (c.write a w).eip = c.eip := rfl
@[simp] theorem write_eflags (a w : ℕ) : (c.write a w).eflags = c.eflags := rfl
@[simp] theorem write_mem (a w : ℕ) : (c.write a w).mem = c.mem.store a w := rfl

@[simp] theorem store_self (m : Memory) (a w : ℕ) : m.store a w a = w := if_pos rfl

theorem store_ne {m : Memory} {a w x : ℕ} (h : x ≠ a) : m.store a w x = m x := if_neg h

@[simp] theorem drop_seg (n : ℕ) : (c.drop n).seg = c.seg := rfl
@[simp] theorem drop_mem (n : ℕ) : (c.drop n).mem = c.mem := rfl
@[simp] theorem drop_eip (n : ℕ) : (c.drop n).eip = c.eip := rfl
@[simp] theorem drop_eflags (n : ℕ) : (c.drop n).eflags = c.eflags := rfl

@[simp] theorem drop_reg (n : ℕ) (q : Reg) :
    (c.drop n).reg q = if q = .esp then (c.reg .esp + 4 * n) % 2 ^ 32 else c.reg q :=
  set_reg c .esp q _

@[simp] theorem push_seg (w : ℕ) : (c.push w).seg = c.seg := rfl
@[simp] theorem push_eip (w : ℕ) : (c.push w).eip = c.eip := rfl
@[simp] theorem push_eflags (w : ℕ) : (c.push w).eflags = c.eflags := rfl

@[simp] theorem push_reg (w : ℕ) (q : Reg) : (c.push w).reg q =
    if q = .esp then wordBelow (c.reg .esp) else c.reg q := by
  simp [Cpu.push]

end registers

section pushing

variable {c : Cpu} {ws : List ℕ}

@[simp] theorem pushes_nil (c : Cpu) : c.pushes [] = c := rfl

@[simp] theorem pushes_cons (c : Cpu) (w : ℕ) (ws : List ℕ) :
    c.pushes (w :: ws) = (c.push w).pushes ws := rfl

theorem pushes_append (c : Cpu) (ws us : List ℕ) :
    c.pushes (ws ++ us) = (c.pushes ws).pushes us := List.foldl_append

theorem pushes_reg (c : Cpu) (ws : List ℕ) {q : Reg} (hq : q ≠ .esp) :
    (c.pushes ws).reg q = c.reg q := by
  induction ws generalizing c with
  | nil => rfl
  | cons w ws ih => rw [pushes_cons, ih, push_reg, if_neg hq]

@[simp] theorem pushes_seg (c : Cpu) (ws : List ℕ) : (c.pushes ws).seg = c.seg := by
  induction ws generalizing c with
  | nil => rfl
  | cons w ws ih => rw [pushes_cons, ih, push_seg]

@[simp] theorem pushes_eip (c : Cpu) (ws : List ℕ) : (c.pushes ws).eip = c.eip := by
  induction ws generalizing c with
  | nil => rfl
  | cons w ws ih => rw [pushes_cons, ih, push_eip]

@[simp] theorem pushes_eflags (c : Cpu) (ws : List ℕ) : (c.pushes ws).eflags = c.eflags := by
  induction ws generalizing c with
  | nil => rfl
  | cons w ws ih => rw [pushes_cons, ih, push_eflags]

theorem push_esp {w : ℕ} (h : 4 ≤ c.reg .esp) :
    (c.push w).reg .esp = c.reg .esp - 4 := by
  rw [push_reg, if_pos rfl, wordBelow_eq h]

theorem pushes_esp (c : Cpu) (ws : List ℕ) (h : 4 * ws.length ≤ c.reg .esp) :
    (c.pushes ws).reg .esp = c.reg .esp - 4 * ws.length := by
  induction ws generalizing c with
  | nil => rfl
  | cons w ws ih =>
    rw [List.length_cons] at h ⊢
    have hp : (c.push w).reg .esp = c.reg .esp - 4 := push_esp (by omega)
    rw [pushes_cons, ih _ (by omega), hp]
    omega

end pushing

section words

variable (c : Cpu)

theorem word_set {r : Reg} (w i : ℕ) (h : r ≠ .esp) : (c.set r w).word i = c.word i := by
  simp [Cpu.word, Ne.symm h]

theorem word_setSeg (s : Seg) (w i : ℕ) : (c.setSeg s w).word i = c.word i := rfl

theorem word_drop (n i : ℕ) : (c.drop n).word i = c.word (n + i) := by
  have h : ((c.reg .esp + 4 * n) % 2 ^ 32 + 4 * i) % 2 ^ 32 =
      (c.reg .esp + 4 * (n + i)) % 2 ^ 32 := by omega
  rw [Cpu.word, Cpu.word, drop_mem, drop_reg, if_pos rfl, h]

end words

/-- The words `ws` stand in memory one above the other, the first at address `a`. -/
def Frame (m : Memory) (a : ℕ) : List ℕ → Prop
  | [] => True
  | w :: ws => m a = w ∧ Frame m (a + 4) ws

@[simp] theorem frame_nil (m : Memory) (a : ℕ) : Frame m a [] := trivial

@[simp] theorem frame_cons {m : Memory} {a w : ℕ} {ws : List ℕ} :
    Frame m a (w :: ws) ↔ m a = w ∧ Frame m (a + 4) ws := Iff.rfl

theorem frame_append {m : Memory} {a : ℕ} {ws us : List ℕ} :
    Frame m a (ws ++ us) ↔ Frame m a ws ∧ Frame m (a + 4 * ws.length) us := by
  induction ws generalizing a with
  | nil => simp
  | cons w ws ih =>
    have hl : a + 4 + 4 * ws.length = a + 4 * (w :: ws).length := by
      rw [List.length_cons]
      omega
    rw [List.cons_append, frame_cons, frame_cons, ih, hl, and_assoc]

theorem Frame.congr {m m' : Memory} {a : ℕ} {ws : List ℕ} (h : Frame m a ws)
    (hm : ∀ x, a ≤ x → x < a + 4 * ws.length → m' x = m x) : Frame m' a ws := by
  induction ws generalizing a with
  | nil => exact trivial
  | cons w ws ih =>
    rw [List.length_cons] at hm
    refine ⟨(hm a (Nat.le_refl a) (by omega)).trans h.1, ih h.2 fun x hx hl => ?_⟩
    exact hm x (by omega) (by omega)

theorem Frame.word {m : Memory} {a : ℕ} {ws : List ℕ} (h : Frame m a ws) {i : ℕ}
    (hi : i < ws.length) : m (a + 4 * i) = ws[i] := by
  induction ws generalizing a i with
  | nil => cases hi
  | cons w ws ih =>
    cases i with
    | zero => exact h.1
    | succ i =>
      have ha : a + 4 * (i + 1) = a + 4 + 4 * i := by omega
      rw [ha]
      exact ih h.2 (Nat.lt_of_succ_lt_succ hi)

/-- A memory copy: the words from `src` up are also those from `dst` up. -/
theorem Frame.moved {m m' : Memory} {a b : ℕ} {ws : List ℕ} (h : Frame m a ws)
    (hm : ∀ i < ws.length, m' (b + 4 * i) = m (a + 4 * i)) : Frame m' b ws := by
  induction ws generalizing a b with
  | nil => exact trivial
  | cons w ws ih =>
    refine ⟨(hm 0 (by simp)).trans h.1, ih h.2 fun i hi => ?_⟩
    have := hm (i + 1) (by simpa using hi)
    rwa [show b + 4 * (i + 1) = b + 4 + 4 * i by omega,
      show a + 4 * (i + 1) = a + 4 + 4 * i by omega] at this

theorem Frame.store_outside {m : Memory} {a x : ℕ} {ws : List ℕ} (h : Frame m a ws) (w : ℕ)
    (hx : x < a ∨ a + 4 * ws.length ≤ x) : Frame (m.store x w) a ws :=
  h.congr fun y hy hl => store_ne (by omega)

theorem Frame.store_inside {m : Memory} {a : ℕ} {ws : List ℕ} (h : Frame m a ws) (w i : ℕ) :
    Frame (m.store (a + 4 * i) w) a (ws.set i w) := by
  induction ws generalizing a i with
  | nil => exact trivial
  | cons u ws ih =>
    cases i with
    | zero =>
      refine ⟨store_self m a w, ?_⟩
      exact h.2.store_outside w (by omega)
    | succ i =>
      refine ⟨(store_ne (by omega)).trans h.1, ?_⟩
      have hi : a + 4 * (i + 1) = a + 4 + 4 * i := by omega
      rw [hi]
      exact ih h.2 i

/-- A structure stored field by field: the words `ws` from address `a` up. -/
def storeAll (m : Memory) (a : ℕ) : List ℕ → Memory
  | [] => m
  | w :: ws => storeAll (m.store a w) (a + 4) ws

theorem storeAll_outside {m : Memory} {a x : ℕ} {ws : List ℕ}
    (hx : x < a ∨ a + 4 * ws.length ≤ x) : storeAll m a ws x = m x := by
  induction ws generalizing m a with
  | nil => rfl
  | cons w ws ih =>
    rw [List.length_cons] at hx
    exact (ih (by omega)).trans (store_ne (by omega))

theorem storeAll_frame (m : Memory) (a : ℕ) (ws : List ℕ) : Frame (storeAll m a ws) a ws := by
  induction ws generalizing m a with
  | nil => exact trivial
  | cons w ws ih =>
    refine ⟨?_, ih _ _⟩
    have ho : storeAll (m.store a w) (a + 4) ws a = m.store a w a :=
      storeAll_outside (Or.inl (by omega))
    exact ho.trans (store_self m a w)

section frames

variable {c : Cpu} {ws us : List ℕ} {a : ℕ}

theorem pushes_outside (c : Cpu) (ws : List ℕ) (h : 4 * ws.length ≤ c.reg .esp) {x : ℕ}
    (hx : x < c.reg .esp - 4 * ws.length ∨ c.reg .esp ≤ x) : (c.pushes ws).mem x = c.mem x := by
  induction ws generalizing c with
  | nil => rfl
  | cons w ws ih =>
    rw [List.length_cons] at h hx
    have hp : (c.push w).reg .esp = c.reg .esp - 4 := push_esp (by omega)
    have hm : (c.push w).mem x = c.mem x := by
      have hs : (c.push w).mem = c.mem.store ((c.push w).reg .esp) w := by simp [Cpu.push]
      rw [hs, hp]
      exact store_ne (by omega)
    rw [pushes_cons, ih _ (by omega) (by omega), hm]

/-- What was pushed stands on the stack, the last word first, on top of what stood there. -/
theorem pushes_frame (c : Cpu) (ws : List ℕ) (h : 4 * ws.length ≤ c.reg .esp)
    (hf : Frame c.mem (c.reg .esp) us) :
    Frame (c.pushes ws).mem (c.reg .esp - 4 * ws.length) (ws.reverse ++ us) := by
  induction ws generalizing c us with
  | nil => exact hf
  | cons w ws ih =>
    rw [List.length_cons] at h ⊢
    have hp : (c.push w).reg .esp = c.reg .esp - 4 := push_esp (by omega)
    have hs : (c.push w).mem = c.mem.store (c.reg .esp - 4) w := by
      rw [← hp]
      simp [Cpu.push]
    have hw : Frame (c.push w).mem ((c.push w).reg .esp) (w :: us) := by
      rw [hp, hs, frame_cons, store_self]
      refine ⟨rfl, ?_⟩
      rw [show c.reg .esp - 4 + 4 = c.reg .esp by omega]
      exact hf.congr fun x hx _ => store_ne (by omega)
    have := ih _ (by omega) hw
    rw [hp, show c.reg .esp - 4 - 4 * ws.length = c.reg .esp - 4 * (ws.length + 1) by omega]
      at this
    rwa [pushes_cons, List.reverse_cons, List.append_assoc, List.singleton_append]

/-- Pushing looks at nothing but the stack. -/
structure SameStack (c d : Cpu) : Prop where
  esp : c.reg .esp = d.reg .esp
  mem : c.mem = d.mem

theorem SameStack.trans {d e : Cpu} (h : SameStack c d) (k : SameStack d e) : SameStack c e :=
  ⟨h.esp.trans k.esp, h.mem.trans k.mem⟩

theorem SameStack.push {d : Cpu} (h : SameStack c d) (w : ℕ) :
    SameStack (c.push w) (d.push w) := by
  constructor
  · simp [h.esp]
  · simp [Cpu.push, h.esp, h.mem]

theorem SameStack.pushes {d : Cpu} (h : SameStack c d) (ws : List ℕ) :
    SameStack (c.pushes ws) (d.pushes ws) := by
  induction ws generalizing c d with
  | nil => exact h
  | cons w ws ih => exact ih (h.push w)

/-- `m'` is `m` with the words `ws` stored from address `a` up. -/
structure Stored (m m' : Memory) (a : ℕ) (ws : List ℕ) : Prop where
  frame : Frame m' a ws
  outside : ∀ x, x < a ∨ a + 4 * ws.length ≤ x → m' x = m x

theorem pushes_stored (c : Cpu) (ws : List ℕ) (h : 4 * ws.length ≤ c.reg .esp) :
    Stored c.mem (c.pushes ws).mem (c.reg .esp - 4 * ws.length) ws.reverse where
  frame := by
    have hf := pushes_frame c ws h (frame_nil c.mem (c.reg .esp))
    rwa [List.append_nil] at hf
  outside := by
    intro x hx
    rw [List.length_reverse] at hx
    exact pushes_outside c ws h (by omega)

theorem Frame.top (hf : Frame c.mem (c.reg .esp) ws) (hi : c.reg .esp + 4 * ws.length ≤ 2 ^ 32)
    {i : ℕ} (h : i < ws.length) : c.word i = ws[i] := by
  rw [Cpu.word, Nat.mod_eq_of_lt (by omega)]
  exact hf.word h

end frames

end StackMachine
