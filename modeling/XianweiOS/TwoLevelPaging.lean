import Mathlib.Logic.Function.Basic
import Mathlib.Tactic.Common

/-! Two-level translation of 32-bit addresses: a directory and page tables of 1024 words in physical
memory, and a directory whose last entry leads to itself. -/
namespace TwoLevelPaging

abbrev Word := BitVec 32
abbrev Frame := BitVec 20
abbrev Index := BitVec 10

/-- The words of each frame. -/
abbrev Phys := Frame → Index → Word

def dirIndex (a : Word) : Index := a.extractLsb' 22 10
def tableIndex (a : Word) : Index := a.extractLsb' 12 10
def wordIndex (a : Word) : Index := a.extractLsb' 2 10
def pageOffset (a : Word) : BitVec 12 := a.extractLsb' 0 12

/-- The frame an entry leads to. -/
def frameOf (e : Word) : Frame := e.extractLsb' 12 20

def present (e : Word) : Bool := e.getLsbD 0

/-- The frame of a page; `none` is a page fault. -/
def walk (cr3 : Frame) (mem : Phys) (d t : Index) : Option Frame :=
  let pde := mem cr3 d
  if present pde then
    let pte := mem (frameOf pde) t
    if present pte then some (frameOf pte) else none
  else none

def translation (cr3 : Frame) (mem : Phys) (a : Word) : Option Word :=
  (walk cr3 mem (dirIndex a) (tableIndex a)).map fun f => f ++ pageOffset a

def setWord (mem : Phys) (f : Frame) (i : Index) (w : Word) : Phys :=
  Function.update mem f (Function.update (mem f) i w)

/-- The word at a virtual address. -/
def load (cr3 : Frame) (mem : Phys) (a : Word) : Option Word :=
  (walk cr3 mem (dirIndex a) (tableIndex a)).map fun f => mem f (wordIndex a)

def store (cr3 : Frame) (mem : Phys) (a w : Word) : Option Phys :=
  (walk cr3 mem (dirIndex a) (tableIndex a)).map fun f => setWord mem f (wordIndex a) w

/-- The last entry of the directory leads to the directory. -/
def SelfMapped (cr3 : Frame) (mem : Phys) : Prop :=
  present (mem cr3 1023) = true ∧ frameOf (mem cr3 1023) = cr3

variable {cr3 f : Frame} {mem mem' : Phys} {d t i : Index} {a w : Word}

theorem setWord_self : setWord mem f i w f i = w := by
  rw [setWord, Function.update_self, Function.update_self]

theorem setWord_other {g : Frame} {j : Index} (h : ¬(g = f ∧ j = i)) :
    setWord mem f i w g j = mem g j := by
  rw [setWord]
  by_cases hg : g = f
  · subst hg
    rw [Function.update_self, Function.update_of_ne fun hj => h ⟨rfl, hj⟩]
  · rw [Function.update_of_ne hg]

/-- A walk reads one word of the directory and one of the table it leads to. -/
theorem walk_congr (hdir : mem' cr3 d = mem cr3 d)
    (htable : present (mem cr3 d) = true →
      mem' (frameOf (mem cr3 d)) t = mem (frameOf (mem cr3 d)) t) :
    walk cr3 mem' d t = walk cr3 mem d t := by
  rw [walk, walk, hdir]
  by_cases hp : present (mem cr3 d) = true
  · simp only [hp, if_true, htable hp]
  · simp only [hp, Bool.false_eq_true, if_false]

theorem walk_present (hdir : present (mem cr3 d) = true)
    (htable : present (mem (frameOf (mem cr3 d)) t) = true) :
    walk cr3 mem d t = some (frameOf (mem (frameOf (mem cr3 d)) t)) := by
  rw [walk]
  simp only [hdir, htable, if_true]

/-- Through the last entry the tables are pages, and the directory is one of them. -/
theorem walk_self (h : SelfMapped cr3 mem) (hd : present (mem cr3 d) = true) :
    walk cr3 mem 1023 d = some (frameOf (mem cr3 d)) := by
  obtain ⟨hlast, hframe⟩ := h
  rw [walk]
  simp only [hlast, if_true, hframe, hd]

theorem load_self (h : SelfMapped cr3 mem) (ha : dirIndex a = 1023) (hd : tableIndex a = d)
    (hp : present (mem cr3 d) = true) :
    load cr3 mem a = some (mem (frameOf (mem cr3 d)) (wordIndex a)) := by
  rw [load, ha, hd, walk_self h hp, Option.map_some]

theorem store_self (h : SelfMapped cr3 mem) (ha : dirIndex a = 1023) (hd : tableIndex a = d)
    (hp : present (mem cr3 d) = true) :
    store cr3 mem a w = some (setWord mem (frameOf (mem cr3 d)) (wordIndex a) w) := by
  rw [store, ha, hd, walk_self h hp, Option.map_some]

end TwoLevelPaging
