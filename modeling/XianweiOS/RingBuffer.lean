import Mathlib.Logic.Function.Basic
import Mathlib.Tactic.Common

/-! A ring of `n` cells between two positions, one of which stays free. `tail` is the next cell to
read and `head` the next to write. -/
namespace RingBuffer

variable {α : Type} {n head tail : ℕ} {buf : ℕ → α}

def next (n pos : ℕ) : ℕ := (pos + 1) % n

/-- How many cells are between the two positions. -/
def fill (n head tail : ℕ) : ℕ := if head ≥ tail then head - tail else n - (tail - head)

/-- The cells in the order they are read in. -/
def contents (n : ℕ) (buf : ℕ → α) (head tail : ℕ) : List α :=
  (List.range (fill n head tail)).map fun i => buf ((tail + i) % n)

@[simp] theorem length_contents : (contents n buf head tail).length = fill n head tail := by
  simp [contents]

theorem next_eq {pos : ℕ} (h : pos < n) : next n pos = if pos + 1 = n then 0 else pos + 1 := by
  unfold next
  split
  · next he => rw [he, Nat.mod_self]
  · exact Nat.mod_eq_of_lt (by omega)

theorem next_lt {pos : ℕ} (h : pos < n) : next n pos < n := Nat.mod_lt _ (by omega)

/-- A position at most one round away from another. -/
theorem around {pos i : ℕ} (h : pos < n) (hi : i < n) :
    (pos + i) % n = if pos + i < n then pos + i else pos + i - n := by
  split
  · next hlt => exact Nat.mod_eq_of_lt hlt
  · rw [Nat.mod_eq_sub_mod (by omega), Nat.mod_eq_of_lt (by omega)]

theorem fill_lt (hh : head < n) : fill n head tail < n := by
  unfold fill
  split <;> omega

theorem fill_eq_zero (ht : tail < n) : fill n head tail = 0 ↔ head = tail := by
  unfold fill
  split <;> omega

section Positions

variable (hh : head < n) (ht : tail < n)
include hh ht

theorem fill_eq_full : fill n head tail = n - 1 ↔ next n head = tail := by
  rw [next_eq hh]
  unfold fill
  split_ifs <;> omega

theorem fill_put (h : next n head ≠ tail) : fill n (next n head) tail = fill n head tail + 1 := by
  rw [next_eq hh] at h ⊢
  unfold fill
  split_ifs at h ⊢ <;> omega

theorem fill_get (h : head ≠ tail) : fill n head tail = fill n head (next n tail) + 1 := by
  rw [next_eq ht]
  unfold fill
  split_ifs <;> omega

theorem contents_put (h : next n head ≠ tail) (b : α) :
    contents n (Function.update buf head b) (next n head) tail =
      contents n buf head tail ++ [b] := by
  have hfill : fill n head tail < n := fill_lt hh
  have hpos : (tail + fill n head tail) % n = head := by
    rw [around ht hfill]
    unfold fill
    split <;> split <;> omega
  rw [contents, fill_put hh ht h, List.range_succ, List.map_append, contents]
  congr 1
  · refine List.map_congr_left fun i hi => Function.update_of_ne ?_ ..
    have hlt := List.mem_range.mp hi
    rw [around ht (by omega)]
    rw [around ht hfill] at hpos
    split at hpos <;> split <;> omega
  · simp [hpos]

theorem contents_get (h : head ≠ tail) :
    contents n buf head tail = buf tail :: contents n buf head (next n tail) := by
  rw [contents, fill_get hh ht h, List.range_succ_eq_map, List.map_cons, List.map_map, contents]
  congr 1
  · rw [Nat.add_zero, Nat.mod_eq_of_lt ht]
  · refine List.map_congr_left fun i _ => ?_
    rw [Function.comp, next, Nat.mod_add_mod]
    congr 2
    omega

end Positions

/-! What a ring is for: a queue of bounded length, with all that was ever put and taken. -/

structure Fifo (α : Type) where
  content : List α
  stored : List α
  taken : List α

inductive Fifo.Step (cap : ℕ) : Fifo α → Fifo α → Prop where
  | idle (f) : Step cap f f
  | put (f b) (room : f.content.length < cap) :
      Step cap f ⟨f.content ++ [b], f.stored ++ [b], f.taken⟩
  | get (f b rest) (front : f.content = b :: rest) :
      Step cap f ⟨rest, f.stored, f.taken ++ [b]⟩

/-- A step that takes an element takes the first. -/
theorem Fifo.Step.of_taken {cap : ℕ} {f g : Fifo α} {b : α} (h : Fifo.Step cap f g)
    (ht : g.taken = f.taken ++ [b]) : f.content = b :: g.content := by
  cases h with
  | idle => simp at ht
  | put c room => simp at ht
  | get c rest front =>
    obtain rfl : c = b := by simpa using ht
    exact front

theorem Fifo.Step.of_stored {cap : ℕ} {f g : Fifo α} {b : α} (h : Fifo.Step cap f g)
    (hs : g.stored = f.stored ++ [b]) : g.content = f.content ++ [b] := by
  cases h with
  | idle => simp at hs
  | get c rest front => simp at hs
  | put c room =>
    obtain rfl : c = b := by simpa using hs
    rfl

inductive Fifo.Reachable (cap : ℕ) : Fifo α → Prop where
  | empty : Reachable cap ⟨[], [], []⟩
  | step {f g} : Reachable cap f → Fifo.Step cap f g → Reachable cap g

/-- What is taken out was put in, in order and once; the rest is still in the queue. -/
theorem Fifo.Reachable.in_order {cap : ℕ} {f : Fifo α} (h : f.Reachable cap) :
    f.stored = f.taken ++ f.content ∧ f.content.length ≤ cap := by
  induction h with
  | empty => exact ⟨rfl, Nat.zero_le _⟩
  | step _ hs ih =>
    obtain ⟨hlog, hlen⟩ := ih
    cases hs with
    | idle => exact ⟨hlog, hlen⟩
    | put b room => exact ⟨by simp [hlog], by simpa using Nat.succ_le_of_lt room⟩
    | get b rest front =>
      rw [front] at hlog hlen
      exact ⟨by simp [hlog], Nat.le_of_succ_le hlen⟩

end RingBuffer
