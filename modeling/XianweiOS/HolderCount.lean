import Mathlib.Algebra.BigOperators.Group.Finset.Piecewise
import Mathlib.Data.Finset.Card
import Mathlib.Logic.Function.Basic

/-! Counting the numbered slots that refer to an object: how filling, emptying and adding a
slot changes the count. -/
namespace HolderCount

variable {α : Type} [DecidableEq α]

/-- The slots below `n` that refer to `a`. -/
def occurs (n : ℕ) (f : ℕ → Option α) (a : α) : ℕ :=
  ((Finset.range n).filter fun k => f k = some a).card

/-- One for a reference to `a`, none for anything else. -/
def weight (x : Option α) (a : α) : ℕ := if x = some a then 1 else 0

@[simp] theorem weight_none (a : α) : weight none a = 0 := if_neg (by simp)

theorem weight_some (b a : α) : weight (some b) a = if a = b then 1 else 0 := by
  simp only [weight, Option.some.injEq, eq_comm]

theorem occurs_eq_sum (n : ℕ) (f : ℕ → Option α) (a : α) :
    occurs n f a = ∑ k ∈ Finset.range n, weight (f k) a := by
  simp only [occurs, Finset.card_filter, weight]

theorem occurs_succ (n : ℕ) (f : ℕ → Option α) (a : α) :
    occurs (n + 1) f a = occurs n f a + weight (f n) a := by
  rw [occurs_eq_sum, occurs_eq_sum, Finset.sum_range_succ]

/-- One term of a sum is replaced. -/
theorem sum_update {β : Type} {n k : ℕ} (hk : k < n) (g : β → ℕ) (f : ℕ → β) (x : β) :
    ∑ i ∈ Finset.range n, g (Function.update f k x i) + g (f k) =
      ∑ i ∈ Finset.range n, g (f i) + g x := by
  have hmem := Finset.mem_range.mpr hk
  rw [← Finset.add_sum_erase _ _ hmem,
    ← Finset.add_sum_erase (Finset.range n) (fun i => g (f i)) hmem, Function.update_self]
  have hrest : ∑ i ∈ (Finset.range n).erase k, g (Function.update f k x i) =
      ∑ i ∈ (Finset.range n).erase k, g (f i) := by
    refine Finset.sum_congr rfl fun i hi => ?_
    rw [Function.update_of_ne (Finset.ne_of_mem_erase hi)]
  rw [hrest]
  omega

theorem occurs_update {n k : ℕ} (hk : k < n) (f : ℕ → Option α) (x : Option α) (a : α) :
    occurs n (Function.update f k x) a + weight (f k) a = occurs n f a + weight x a := by
  rw [occurs_eq_sum, occurs_eq_sum]
  exact sum_update hk (fun y => weight y a) f x

theorem occurs_le (n : ℕ) (f : ℕ → Option α) (a : α) : occurs n f a ≤ n := by
  rw [occurs]
  exact (Finset.card_filter_le _ _).trans_eq (Finset.card_range n)

/-- A slot behind the last one becomes the last one. -/
theorem occurs_push (n : ℕ) (f : ℕ → Option α) (x : Option α) (a : α) :
    occurs (n + 1) (Function.update f n x) a = occurs n f a + weight x a := by
  have h := occurs_update (show n < n + 1 by omega) f x a
  have h' := occurs_succ n f a
  omega

theorem occurs_pos {n : ℕ} {f : ℕ → Option α} {a : α} :
    0 < occurs n f a ↔ ∃ k < n, f k = some a := by
  rw [occurs, Finset.card_pos]
  constructor
  · rintro ⟨k, hk⟩
    obtain ⟨h1, h2⟩ := Finset.mem_filter.mp hk
    exact ⟨k, Finset.mem_range.mp h1, h2⟩
  · rintro ⟨k, hk, he⟩
    exact ⟨k, Finset.mem_filter.mpr ⟨Finset.mem_range.mpr hk, he⟩⟩

end HolderCount
