import XianweiOS.ByteStore
import Mathlib.Data.List.GetD
import Mathlib.Data.Set.BooleanAlgebra
import Mathlib.Order.CompletePartialOrder

/-! Lists of bytes in a store: what stands from an address on, and what it takes to put it there. -/
namespace TextStore

open ByteStore

/-- The bytes of `l` stand at `a`. -/
def Reads (m : Bytes) (a : ℕ) (l : List Byte) : Prop :=
  ∀ (i : ℕ) (h : i < l.length), m (a + i) = l[i]

/-- The bytes of `l`, written from `a` on. -/
def store (m : Bytes) (a : ℕ) (l : List Byte) : Bytes :=
  patch m a l.length fun i => l.getD i 0

variable {m m' : Bytes} {a i : ℕ} {b : Byte} {k l t : List Byte} {S : Set ℕ}

theorem reads_nil : Reads m a [] := fun _ hi => absurd hi (Nat.not_lt_zero _)

theorem reads_cons : Reads m a (b :: l) ↔ m a = b ∧ Reads m (a + 1) l := by
  constructor
  · intro h
    refine ⟨h 0 (Nat.succ_pos _), fun i hi => ?_⟩
    have hnext := h (i + 1) (Nat.succ_lt_succ hi)
    rwa [show a + (i + 1) = a + 1 + i by omega, List.getElem_cons_succ] at hnext
  · rintro ⟨hb, hl⟩ i hi
    cases i with
    | zero => exact hb
    | succ i =>
      rw [show a + (i + 1) = a + 1 + i by omega, List.getElem_cons_succ]
      exact hl i (Nat.lt_of_succ_lt_succ hi)

theorem reads_append : Reads m a (k ++ l) ↔ Reads m a k ∧ Reads m (a + k.length) l := by
  induction k generalizing a with
  | nil => exact (and_iff_right reads_nil).symm
  | cons b k ih =>
    rw [List.cons_append, reads_cons, reads_cons, ih, and_assoc, List.length_cons,
      show a + 1 + k.length = a + (k.length + 1) by omega]

/-- What is read stays when something else is written. -/
theorem Reads.frame (h : Reads m a l) (hm : Changes S m m') (hS : Disjoint S (span a l.length)) :
    Reads m' a l := by
  intro i hi
  have hout : a + i ∉ S := fun hin =>
    Set.disjoint_left.mp hS hin (mem_span.mpr ⟨by omega, by omega⟩)
  rw [hm _ hout, h i hi]

theorem reads_store (m : Bytes) (a : ℕ) (l : List Byte) : Reads (store m a l) a l := by
  intro i hi
  rw [store, patch_in (by omega), Nat.add_sub_cancel_left, List.getD_eq_getElem _ _ hi]

theorem changes_store (m : Bytes) (a : ℕ) (l : List Byte) :
    Changes (span a l.length) m (store m a l) := changes_patch m a l.length _

theorem store_nil (m : Bytes) (a : ℕ) : store m a [] = m := patch_zero m _ a

/-- What is written behind something may cover what stood there. -/
theorem store_over (m : Bytes) (a : ℕ) (h : t.length ≤ l.length) :
    store (store m a (k ++ t)) (a + k.length) l = store m a (k ++ l) := by
  funext i
  by_cases hl : a + k.length ≤ i ∧ i < a + k.length + l.length
  · rw [store, patch_in hl, store, patch_in (by rw [List.length_append]; omega),
      List.getD_append_right _ _ _ _ (by omega)]
    congr 1
    omega
  · rw [store, patch_out hl]
    by_cases hk : a ≤ i ∧ i < a + k.length
    · rw [store, patch_in (by rw [List.length_append]; omega), store,
        patch_in (by rw [List.length_append]; omega), List.getD_append _ _ _ _ (by omega),
        List.getD_append _ _ _ _ (by omega)]
    · rw [store, patch_out (by rw [List.length_append]; omega), store,
        patch_out (by rw [List.length_append]; omega)]

theorem store_append (m : Bytes) (a : ℕ) (k l : List Byte) :
    store (store m a k) (a + k.length) l = store m a (k ++ l) := by
  have hover := store_over (k := k) (l := l) (t := []) m a (Nat.zero_le _)
  rwa [List.append_nil] at hover

theorem store_singleton (m : Bytes) (a : ℕ) (b : Byte) : store m a [b] = Function.update m a b := by
  funext i
  by_cases hi : i = a
  · rw [hi, store, patch_in ⟨le_rfl, Nat.lt_succ_self a⟩, Nat.sub_self, Function.update_self]
    rfl
  · rw [store, patch_out (by rw [List.length_singleton]; omega), Function.update_of_ne hi]

end TextStore
