import Mathlib.Algebra.BigOperators.Group.Finset.Basic
import Mathlib.Data.Finset.Card
import Mathlib.Data.Finset.Option
import Mathlib.Data.Finset.Prod
import Mathlib.Data.Set.Card
import Mathlib.Logic.Function.Basic

/-! Finite maps stored in slots. A slot holds one record under its key or nothing; as long
as no key stands in two slots, filling an empty slot inserts into the map and emptying a
slot erases from it. -/
namespace SlotTable

variable {σ κ ν : Type}

abbrev Table (σ κ ν : Type) := σ → Option (κ × ν)

/-- No key stands in two slots. -/
def Keyed (t : Table σ κ ν) : Prop :=
  ∀ s s' k v v', t s = some (k, v) → t s' = some (k, v') → s = s'

/-- The map a table stands for. -/
def Represents (t : Table σ κ ν) (m : κ → Option ν) : Prop :=
  ∀ k v, m k = some v ↔ ∃ s, t s = some (k, v)

/-- The number of occupied slots. -/
noncomputable def live (t : Table σ κ ν) : ℕ := {s | t s ≠ none}.ncard

/-- Only slots of the first `a` rows and `b` columns are occupied. -/
def Within (t : Table (ℕ × ℕ) κ ν) (a b : ℕ) : Prop := ∀ p i, t (p, i) ≠ none → p < a ∧ i < b

theorem Represents.none_iff {t : Table σ κ ν} {m : κ → Option ν} (h : Represents t m) (k : κ) :
    m k = none ↔ ∀ s v, t s ≠ some (k, v) := by
  constructor
  · intro hk s v hs
    have := (h k v).mpr ⟨s, hs⟩
    rw [hk] at this
    cases this
  · intro hall
    cases hm : m k with
    | none => rfl
    | some v =>
      obtain ⟨s, hs⟩ := (h k v).mp hm
      exact absurd hs (hall s v)

theorem Keyed.represents {t : Table σ κ ν} (h : Keyed t) : ∃ m, Represents t m := by
  classical
  refine ⟨fun k => if hk : ∃ v s, t s = some (k, v) then some hk.choose else none, fun k v => ?_⟩
  dsimp only
  constructor
  · intro hm
    split at hm
    · rename_i hk
      obtain rfl := Option.some.inj hm
      exact hk.choose_spec
    · cases hm
  · rintro ⟨s, hs⟩
    have hk : ∃ v s, t s = some (k, v) := ⟨v, s, hs⟩
    obtain ⟨s', hs'⟩ := hk.choose_spec
    obtain rfl := h s s' k _ _ hs hs'
    rw [hs] at hs'
    rw [dif_pos hk, (Prod.mk.inj (Option.some.inj hs')).2]

/-- A table with finitely many occupied slots holds as many keys. -/
theorem Represents.keys [DecidableEq κ] {t : Table σ κ ν} {m : κ → Option ν} (h : Represents t m)
    (hk : Keyed t) (hf : {s | t s ≠ none}.Finite) :
    ∃ keys : Finset κ, (∀ k, k ∈ keys ↔ m k ≠ none) ∧ keys.card = live t := by
  have hmem : ∀ s, s ∈ hf.toFinset ↔ t s ≠ none := fun s => hf.mem_toFinset
  refine ⟨hf.toFinset.biUnion fun s => ((t s).map Prod.fst).toFinset, fun k => ?_, ?_⟩
  · simp only [Finset.mem_biUnion, Option.mem_toFinset, Option.mem_def, Option.map_eq_some_iff]
    constructor
    · rintro ⟨s, -, ⟨k', v⟩, hs, rfl⟩
      rw [(h _ _).mpr ⟨s, hs⟩]
      simp
    · intro hm
      obtain ⟨v, hv⟩ := Option.ne_none_iff_exists'.mp hm
      obtain ⟨s, hs⟩ := (h k v).mp hv
      exact ⟨s, (hmem s).mpr (by simp [hs]), (k, v), hs, rfl⟩
  · rw [Finset.card_biUnion]
    · rw [Finset.sum_congr rfl (g := fun _ => 1)]
      · rw [live, Set.ncard_eq_toFinset_card _ hf]
        simp
      · intro s hs
        obtain ⟨x, hx⟩ := Option.ne_none_iff_exists'.mp ((hmem s).mp hs)
        simp [hx]
    · intro a ha b hb hab
      simp only [Finset.disjoint_left, Option.mem_toFinset, Option.mem_def, Option.map_eq_some_iff]
      rintro k ⟨⟨k1, v1⟩, h1, rfl⟩ ⟨⟨k2, v2⟩, h2, he⟩
      obtain rfl : k2 = k1 := he
      exact hab (hk a b k2 v1 v2 h1 h2)

private theorem within_subset {t : Table (ℕ × ℕ) κ ν} {a b : ℕ} (h : Within t a b) :
    {s | t s ≠ none} ⊆ (Finset.range a ×ˢ Finset.range b : Finset (ℕ × ℕ)) := by
  rintro ⟨p, i⟩ hs
  obtain ⟨hp, hi⟩ := h p i hs
  simp [hp, hi]

theorem Within.finite {t : Table (ℕ × ℕ) κ ν} {a b : ℕ} (h : Within t a b) :
    {s | t s ≠ none}.Finite := (Finset.finite_toSet _).subset (within_subset h)

theorem Within.live_le {t : Table (ℕ × ℕ) κ ν} {a b : ℕ} (h : Within t a b) :
    live t ≤ a * b := by
  have := Set.ncard_le_ncard (within_subset h) (Finset.finite_toSet _)
  rwa [Set.ncard_coe_finset, Finset.card_product, Finset.card_range, Finset.card_range] at this

/-- A table counts as many entries as it has slots just when none of them is empty. -/
theorem Within.live_eq_iff {t : Table (ℕ × ℕ) κ ν} {a b : ℕ} (h : Within t a b) :
    live t = a * b ↔ ∀ p < a, ∀ i < b, t (p, i) ≠ none := by
  have hslots : ((Finset.range a ×ˢ Finset.range b : Finset (ℕ × ℕ)) : Set (ℕ × ℕ)).ncard =
      a * b := by
    rw [Set.ncard_coe_finset, Finset.card_product, Finset.card_range, Finset.card_range]
  constructor
  · intro hlive p hp i hi
    have hall := Set.eq_of_subset_of_ncard_le (within_subset h) (hslots.trans hlive.symm).le
      (Finset.finite_toSet _)
    have hmem : (p, i) ∈ {s | t s ≠ none} := by
      rw [hall]
      simp [hp, hi]
    exact hmem
  · intro hall
    refine le_antisymm h.live_le ?_
    rw [← hslots]
    refine Set.ncard_le_ncard (fun s hs => ?_) h.finite
    obtain ⟨p, i⟩ := s
    obtain ⟨hp, hi⟩ : p < a ∧ i < b := by simpa using hs
    exact hall p hp i hi

section Put

variable [DecidableEq σ] {t : Table σ κ ν} {s : σ} {k : κ} {v : ν}

theorem keyed_put (h : Keyed t) (hk : ∀ s v, t s ≠ some (k, v)) :
    Keyed (Function.update t s (some (k, v))) := by
  intro a b k' x y ha hb
  by_cases has : a = s
  · subst a
    rw [Function.update_self] at ha
    obtain ⟨rfl, rfl⟩ := Prod.mk.inj (Option.some.inj ha)
    by_cases hbs : b = s
    · exact hbs.symm
    · rw [Function.update_of_ne hbs] at hb
      exact absurd hb (hk b y)
  · rw [Function.update_of_ne has] at ha
    by_cases hbs : b = s
    · subst b
      rw [Function.update_self] at hb
      obtain ⟨rfl, rfl⟩ := Prod.mk.inj (Option.some.inj hb)
      exact absurd ha (hk a x)
    · rw [Function.update_of_ne hbs] at hb
      exact h a b k' x y ha hb

theorem represents_put [DecidableEq κ] {m : κ → Option ν} (h : Represents t m) (hs : t s = none)
    (hk : m k = none) :
    Represents (Function.update t s (some (k, v))) (Function.update m k (some v)) := by
  intro k' v'
  by_cases hkk : k' = k
  · subst k'
    rw [Function.update_self]
    constructor
    · intro he
      exact ⟨s, by rw [Function.update_self, Option.some.inj he]⟩
    · rintro ⟨a, ha⟩
      by_cases has : a = s
      · subst a
        rw [Function.update_self] at ha
        rw [(Prod.mk.inj (Option.some.inj ha)).2]
      · rw [Function.update_of_ne has] at ha
        exact absurd ha ((h.none_iff k).mp hk a v')
  · rw [Function.update_of_ne hkk, h k' v']
    constructor
    · rintro ⟨a, ha⟩
      have has : a ≠ s := by
        rintro rfl
        rw [hs] at ha
        cases ha
      exact ⟨a, by rw [Function.update_of_ne has]; exact ha⟩
    · rintro ⟨a, ha⟩
      by_cases has : a = s
      · subst a
        rw [Function.update_self] at ha
        exact absurd (Prod.mk.inj (Option.some.inj ha)).1.symm hkk
      · rw [Function.update_of_ne has] at ha
        exact ⟨a, ha⟩

theorem live_put (hf : {a | t a ≠ none}.Finite) (hs : t s = none) :
    live (Function.update t s (some (k, v))) = live t + 1 := by
  have heq : {a | Function.update t s (some (k, v)) a ≠ none} = insert s {a | t a ≠ none} := by
    ext a
    by_cases has : a = s
    · subst a
      simp
    · simp [has]
  rw [live, heq, Set.ncard_insert_of_notMem (by simp [hs]) hf, live]

end Put

section Drop

variable [DecidableEq σ] {t : Table σ κ ν} {s : σ} {k : κ} {v : ν}

theorem keyed_drop (h : Keyed t) : Keyed (Function.update t s none) := by
  intro a b k' x y ha hb
  have has : a ≠ s := by
    rintro rfl
    rw [Function.update_self] at ha
    cases ha
  have hbs : b ≠ s := by
    rintro rfl
    rw [Function.update_self] at hb
    cases hb
  rw [Function.update_of_ne has] at ha
  rw [Function.update_of_ne hbs] at hb
  exact h a b k' x y ha hb

theorem represents_drop [DecidableEq κ] {m : κ → Option ν} (h : Represents t m) (hk : Keyed t)
    (hs : t s = some (k, v)) : Represents (Function.update t s none) (Function.update m k none) := by
  intro k' v'
  by_cases hkk : k' = k
  · subst k'
    rw [Function.update_self]
    constructor
    · intro he
      cases he
    · rintro ⟨a, ha⟩
      have has : a ≠ s := by
        rintro rfl
        rw [Function.update_self] at ha
        cases ha
      rw [Function.update_of_ne has] at ha
      exact absurd (hk a s k v' v ha hs) has
  · rw [Function.update_of_ne hkk, h k' v']
    constructor
    · rintro ⟨a, ha⟩
      have has : a ≠ s := by
        rintro rfl
        rw [hs] at ha
        exact hkk (Prod.mk.inj (Option.some.inj ha)).1.symm
      exact ⟨a, by rw [Function.update_of_ne has]; exact ha⟩
    · rintro ⟨a, ha⟩
      have has : a ≠ s := by
        rintro rfl
        rw [Function.update_self] at ha
        cases ha
      rw [Function.update_of_ne has] at ha
      exact ⟨a, ha⟩

theorem live_drop (hf : {a | t a ≠ none}.Finite) (hs : t s = some (k, v)) :
    live (Function.update t s none) + 1 = live t := by
  have hnone : Function.update t s none s = none := Function.update_self _ _ _
  have hsub : {a | Function.update t s none a ≠ none} ⊆ {a | t a ≠ none} := by
    intro a ha
    by_cases has : a = s
    · subst a
      exact absurd hnone ha
    · simpa [has] using ha
  have hput := live_put (k := k) (v := v) (hf.subset hsub) hnone
  rw [← hput, Function.update_idem, ← hs, Function.update_eq_self]

end Drop

/-- A loop over slots from `idx` on that stops at the first one with `P` finds it, or there is
none. -/
theorem first_slot {α : Type} {P : ℕ → Prop} [DecidablePred P] {g : ℕ → α} {f : ℕ → ℕ → Option α}
    (hnil : ∀ idx, f 0 idx = none)
    (hcons : ∀ left idx, f (left + 1) idx = if P idx then some (g idx) else f left (idx + 1)) :
    ∀ left idx, (∀ a, f left idx = some a → ∃ i, idx ≤ i ∧ i < idx + left ∧ P i ∧ a = g i) ∧
      (f left idx = none → ∀ i, idx ≤ i → i < idx + left → ¬P i) := by
  intro left
  induction left with
  | zero =>
    intro idx
    rw [hnil]
    exact ⟨fun a ha => (nomatch ha), fun _ i h1 h2 => by omega⟩
  | succ left ih =>
    intro idx
    obtain ⟨hsome, hnone⟩ := ih (idx + 1)
    rw [hcons]
    by_cases hidx : P idx
    · rw [if_pos hidx]
      refine ⟨fun a ha => ⟨idx, le_rfl, by omega, hidx, (Option.some.inj ha).symm⟩, ?_⟩
      exact fun ha => (nomatch ha)
    · rw [if_neg hidx]
      constructor
      · intro a ha
        obtain ⟨i, h1, h2, h3⟩ := hsome a ha
        exact ⟨i, by omega, by omega, h3⟩
      · intro ha i h1 h2
        by_cases hi : i = idx
        · rwa [hi]
        · exact hnone ha i (by omega) (by omega)

end SlotTable
