import Mathlib.Data.List.Chain
import Mathlib.Data.List.Nodup
import Mathlib.Logic.Function.Basic

/-! Chains of elements that point at each other: what a splice does to the chain it is made in, and
to the others. -/
namespace LinkedChain

structure Links (α : Type) where
  prev : α → α
  next : α → α

variable {α : Type} {m m' : Links α} {a b e x : α} {u w xs : List α}

/-- `a` and `b` point at each other. -/
def Link (m : Links α) (a b : α) : Prop := m.next a = b ∧ m.prev b = a

def Linked (m : Links α) (xs : List α) : Prop := xs.IsChain (Link m)

/-- A chain does not look at the `next` of its last element or the `prev` of its first one. -/
theorem Linked.congr (h : Linked m xs) (hnext : ∀ x ∈ xs.dropLast, m'.next x = m.next x)
    (hprev : ∀ x ∈ xs.tail, m'.prev x = m.prev x) : Linked m' xs := by
  induction xs with
  | nil => exact .nil
  | cons a xs ih =>
    cases xs with
    | nil => exact .singleton a
    | cons b xs =>
      obtain ⟨⟨hab, hba⟩, hrest⟩ := List.isChain_cons_cons.mp h
      refine List.isChain_cons_cons.mpr ⟨⟨?_, ?_⟩, ih hrest ?_ ?_⟩
      · exact (hnext a List.mem_cons_self).trans hab
      · exact (hprev b List.mem_cons_self).trans hba
      · exact fun x hx => hnext x (List.mem_cons_of_mem a hx)
      · exact fun x hx => hprev x (List.mem_cons_of_mem b hx)

/-- A chain in which nothing changes. -/
theorem Linked.frame (h : Linked m xs) (hnext : ∀ x ∈ xs, m'.next x = m.next x)
    (hprev : ∀ x ∈ xs, m'.prev x = m.prev x) : Linked m' xs := by
  apply h.congr
  · exact fun x hx => hnext x (List.dropLast_subset _ hx)
  · exact fun x hx => hprev x (List.mem_of_mem_tail hx)

/-- The part of a chain in front of `a`, when its elements keep their `next` and all up to `a` their
`prev`. -/
theorem Linked.front (h : Linked m (u ++ a :: w)) (hnext : ∀ x ∈ u, m'.next x = m.next x)
    (hprev : ∀ x ∈ u ++ [a], m'.prev x = m.prev x) : Linked m' (u ++ [a]) := by
  have hfront : Linked m (u ++ [a]) := (List.isChain_split.mp h).1
  apply hfront.congr
  · rwa [List.dropLast_concat]
  · exact fun x hx => hprev x (List.mem_of_mem_tail hx)

theorem Linked.back (h : Linked m (u ++ b :: w)) (hnext : ∀ x ∈ b :: w, m'.next x = m.next x)
    (hprev : ∀ x ∈ w, m'.prev x = m.prev x) : Linked m' (b :: w) := by
  have hback : Linked m (b :: w) := (List.isChain_split.mp h).2
  apply hback.congr
  · exact fun x hx => hnext x (List.dropLast_subset _ hx)
  · exact hprev

/-- A new element between two neighbours. -/
theorem Linked.insert (h : Linked m (u ++ a :: b :: w)) (hnodup : (u ++ a :: e :: b :: w).Nodup)
    (hnext : ∀ x, x ≠ a → x ≠ e → m'.next x = m.next x)
    (hprev : ∀ x, x ≠ b → x ≠ e → m'.prev x = m.prev x) (hae : Link m' a e) (heb : Link m' e b) :
    Linked m' (u ++ a :: e :: b :: w) := by
  obtain ⟨-, hmid, hu⟩ := List.nodup_append.mp hnodup
  obtain ⟨ha, he, hb, -⟩ : a ∉ e :: b :: w ∧ e ∉ b :: w ∧ b ∉ w ∧ w.Nodup := by
    simpa only [List.nodup_cons] using hmid
  have hfront : Linked m' (u ++ [a]) := by
    apply h.front
    · exact fun x hx => hnext x (hu x hx a (by simp)) (hu x hx e (by simp))
    · intro x hx
      rcases List.mem_append.mp hx with hx | hx
      · exact hprev x (hu x hx b (by simp)) (hu x hx e (by simp))
      · obtain rfl := List.mem_singleton.mp hx
        exact hprev x (fun hxb => ha (by simp [hxb])) (fun hxe => ha (by simp [hxe]))
  have hback : Linked m' (b :: w) := by
    have hsplit : u ++ a :: b :: w = (u ++ [a]) ++ b :: w := by simp
    rw [hsplit] at h
    apply h.back
    · exact fun x hx => hnext x (fun hxa => ha (hxa ▸ List.mem_cons_of_mem e hx))
        (fun hxe => he (hxe ▸ hx))
    · exact fun x hx => hprev x (fun hxb => hb (hxb ▸ hx))
        (fun hxe => he (hxe ▸ List.mem_cons_of_mem b hx))
  refine List.isChain_append_cons_cons.mpr ⟨hfront, hae, ?_⟩
  exact List.isChain_cons_cons.mpr ⟨heb, hback⟩

/-- An element is taken out between its neighbours. -/
theorem Linked.erase (h : Linked m (u ++ a :: e :: b :: w))
    (hnodup : (u ++ a :: e :: b :: w).Nodup) (hnext : ∀ x, x ≠ a → m'.next x = m.next x)
    (hprev : ∀ x, x ≠ b → m'.prev x = m.prev x) (hab : Link m' a b) :
    Linked m' (u ++ a :: b :: w) := by
  obtain ⟨-, hmid, hu⟩ := List.nodup_append.mp hnodup
  obtain ⟨ha, -, hb, -⟩ : a ∉ e :: b :: w ∧ e ∉ b :: w ∧ b ∉ w ∧ w.Nodup := by
    simpa only [List.nodup_cons] using hmid
  have hfront : Linked m' (u ++ [a]) := by
    apply h.front
    · exact fun x hx => hnext x (hu x hx a (by simp))
    · intro x hx
      rcases List.mem_append.mp hx with hx | hx
      · exact hprev x (hu x hx b (by simp))
      · obtain rfl := List.mem_singleton.mp hx
        exact hprev x (fun hxb => ha (by simp [hxb]))
  have hback : Linked m' (b :: w) := by
    have hsplit : u ++ a :: e :: b :: w = (u ++ [a, e]) ++ b :: w := by simp
    rw [hsplit] at h
    apply h.back
    · exact fun x hx => hnext x (fun hxa => ha (hxa ▸ List.mem_cons_of_mem e hx))
    · exact fun x hx => hprev x (fun hxb => hb (hxb ▸ hx))
  exact List.isChain_append_cons_cons.mpr ⟨hfront, hab, hback⟩

/-- Neighbours in a chain point at each other. -/
theorem Linked.neighbours (h : Linked m (u ++ a :: b :: w)) : Link m a b :=
  (List.isChain_append_cons_cons.mp h).2.1

end LinkedChain
