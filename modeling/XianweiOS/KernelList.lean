import Mathlib.Data.Fintype.Card
import Mathlib.Data.Fintype.Pi
import XianweiOS.LinkedChain
import XianweiOS.HaltingProgram

/-! The lists of `lib/kernel/list.c`. An element is the address of its two pointers, and the head
and the tail of a list are elements of their own. Interrupts are off while an operation writes. -/
namespace KernelList

open LinkedChain HaltingProgram

variable {α ι σ : Type}

/-- `struct list` -/
structure KList (α : Type) where
  head : α
  tail : α
  deriving DecidableEq, Repr

section Operations

variable [DecidableEq α]

def setPrev (m : Links α) (a x : α) : Links α := { m with prev := Function.update m.prev a x }
def setNext (m : Links α) (a x : α) : Links α := { m with next := Function.update m.next a x }

def listInit (null : α) (list : KList α) (m : Links α) : Links α :=
  let m := setPrev m list.head null
  let m := setNext m list.head list.tail
  let m := setNext m list.tail null
  setPrev m list.tail list.head

def listInsertBefore (before elem : α) (m : Links α) : Links α :=
  let m := setNext m (m.prev before) elem
  let m := setPrev m elem (m.prev before)
  let m := setNext m elem before
  setPrev m before elem

def listPush (plist : KList α) (elem : α) (m : Links α) : Links α :=
  listInsertBefore (m.next plist.head) elem m

def listAppend (plist : KList α) (elem : α) (m : Links α) : Links α :=
  listInsertBefore plist.tail elem m

def listRemove (pelem : α) (m : Links α) : Links α :=
  let m := setNext m (m.prev pelem) (m.next pelem)
  setPrev m (m.next pelem) (m.prev pelem)

def listPop (plist : KList α) (m : Links α) : α × Links α :=
  let ret := m.next plist.head
  (ret, listRemove ret m)

def listEmpty (plist : KList α) (m : Links α) : Bool := m.next plist.head = plist.tail

/-- The loop of `list_len`; `none` as long as it has not come to an end. -/
def lenLoop (m : Links α) (tail : α) : (fuel : ℕ) → (elem : α) → (len : ℕ) → Option ℕ
  | 0, _, _ => none
  | fuel + 1, elem, len =>
    if elem ≠ tail then lenLoop m tail fuel (m.next elem) ((len + 1) % 2 ^ 32) else some len

def listLen (fuel : ℕ) (plist : KList α) (m : Links α) : Option ℕ :=
  lenLoop m plist.tail fuel (m.next plist.head) 0

/-- The loop of `list_traversal`. The function may change what is not in the lists. -/
def traversalLoop (func : α → σ → Bool × σ) (m : Links α) (tail : α) :
    (fuel : ℕ) → (elem : α) → σ → Option (Option α × σ)
  | 0, _, _ => none
  | fuel + 1, elem, s =>
    if elem ≠ tail then
      match func elem s with
      | (true, s) => some (some elem, s)
      | (false, s) => traversalLoop func m tail fuel (m.next elem) s
    else some (none, s)

/-- `NULL` is `none`. -/
def listTraversal (func : α → σ → Bool × σ) (fuel : ℕ) (plist : KList α) (m : Links α) (s : σ) :
    Option (Option α × σ) :=
  if listEmpty plist m then some (none, s)
  else traversalLoop func m plist.tail fuel (m.next plist.head) s

/-- The loop of `elem_find`. -/
def findLoop (m : Links α) (tail objElem : α) : (fuel : ℕ) → (elem : α) → Option Bool
  | 0, _ => none
  | fuel + 1, elem =>
    if elem ≠ tail then
      if elem = objElem then some true else findLoop m tail objElem fuel (m.next elem)
    else some false

def elemFind (fuel : ℕ) (plist : KList α) (objElem : α) (m : Links α) : Option Bool :=
  findLoop m plist.tail objElem fuel (m.next plist.head)

variable {m : Links α} {b e x : α}

theorem listInsertBefore_next : (listInsertBefore b e m).next x =
    if x = e then b else if x = m.prev b then e else m.next x := by
  simp only [listInsertBefore, setNext, setPrev, Function.update_apply]

theorem listInsertBefore_prev : (listInsertBefore b e m).prev x =
    if x = b then e else if x = e then m.prev b else m.prev x := by
  simp only [listInsertBefore, setNext, setPrev, Function.update_apply]

theorem listRemove_next : (listRemove e m).next x =
    if x = m.prev e then m.next e else m.next x := by
  simp only [listRemove, setNext, setPrev, Function.update_apply]

theorem listRemove_prev (hne : m.prev e ≠ e) : (listRemove e m).prev x =
    if x = m.next e then m.prev e else m.prev x := by
  simp only [listRemove, setNext, setPrev, Function.update_apply, if_neg hne.symm]

end Operations

/-! ### Sequences -/

def nodes (l : KList α) (xs : List α) : List α := l.head :: (xs ++ [l.tail])

/-- The list is well formed and its elements are `xs`. -/
structure Holds (m : Links α) (l : KList α) (xs : List α) : Prop where
  linked : Linked m (nodes l xs)
  nodup : (nodes l xs).Nodup

/-- The lists are well formed and have no element in common. -/
structure Represents (m : Links α) (lists : ι → KList α) (seqs : ι → List α) : Prop where
  holds : ∀ i, Holds m (lists i) (seqs i)
  apart : ∀ i j, i ≠ j → (nodes (lists i) (seqs i)).Disjoint (nodes (lists j) (seqs j))

/-- The element is on no list. -/
def Fresh (lists : ι → KList α) (seqs : ι → List α) (e : α) : Prop :=
  ∀ i, e ∉ nodes (lists i) (seqs i)

section Init

variable [DecidableEq α] {m : Links α} {l l' : KList α} {null : α} {xs : List α}

/-- A new list is empty, whatever its pointers were. -/
theorem holds_init (hne : l.head ≠ l.tail) : Holds (listInit null l m) l [] := by
  constructor
  · refine List.isChain_cons_cons.mpr ⟨⟨?_, ?_⟩, .singleton _⟩
    · simp only [listInit, setNext, setPrev, Function.update_apply, if_neg hne, if_pos]
    · simp only [listInit, setPrev, Function.update_self]
  · exact List.nodup_cons.mpr ⟨fun he => hne (List.mem_singleton.mp he), List.nodup_singleton _⟩

/-- The lists that are there stay as they are. -/
theorem init_frame (h : Holds m l' xs) (hhead : l.head ∉ nodes l' xs)
    (htail : l.tail ∉ nodes l' xs) : Holds (listInit null l m) l' xs := by
  refine ⟨h.linked.frame ?_ ?_, h.nodup⟩ <;> intro x hx
  all_goals
    have hxh : x ≠ l.head := fun he => hhead (he ▸ hx)
    have hxt : x ≠ l.tail := fun he => htail (he ▸ hx)
    simp only [listInit, setNext, setPrev, Function.update_apply, if_neg hxh, if_neg hxt]

end Init

section Update

variable [DecidableEq ι] {m m' : Links α} {lists : ι → KList α} {seqs : ι → List α} {i : ι}
  {l : KList α}
  {a b e x : α} {u w xs ys : List α}

/-- A new sequence in one list. What is written belongs to it, or was on no list. -/
theorem Represents.set (h : Represents m lists seqs) (hi : Holds m' (lists i) ys)
    (hnew : ∀ x ∈ nodes (lists i) ys, x ∈ nodes (lists i) (seqs i) ∨ Fresh lists seqs x)
    (hnext : ∀ x, x ∉ nodes (lists i) (seqs i) → ¬Fresh lists seqs x → m'.next x = m.next x)
    (hprev : ∀ x, x ∉ nodes (lists i) (seqs i) → ¬Fresh lists seqs x → m'.prev x = m.prev x) :
    Represents m' lists (Function.update seqs i ys) := by
  have hother : ∀ j, j ≠ i → ∀ x ∈ nodes (lists j) (seqs j),
      x ∉ nodes (lists i) (seqs i) ∧ ¬Fresh lists seqs x :=
    fun j hj x hx => ⟨fun hxi => h.apart j i hj hx hxi, fun hfresh => hfresh j hx⟩
  have happart : ∀ j, j ≠ i → (nodes (lists i) ys).Disjoint (nodes (lists j) (seqs j)) := by
    intro j hj x hx hxj
    obtain ⟨hout, hold⟩ := hother j hj x hxj
    exact (hnew x hx).elim hout hold
  constructor
  · intro j
    by_cases hj : j = i
    · subst hj
      rwa [Function.update_self]
    · rw [Function.update_of_ne hj]
      have hkeep := hother j hj
      exact ⟨(h.holds j).linked.frame (fun x hx => hnext x (hkeep x hx).1 (hkeep x hx).2)
        (fun x hx => hprev x (hkeep x hx).1 (hkeep x hx).2), (h.holds j).nodup⟩
  · intro j k hjk
    by_cases hj : j = i
    · subst hj
      rw [Function.update_self, Function.update_of_ne (Ne.symm hjk)]
      exact happart k (Ne.symm hjk)
    · rw [Function.update_of_ne hj]
      by_cases hk : k = i
      · subst hk
        rw [Function.update_self]
        exact (happart j hj).symm
      · rw [Function.update_of_ne hk]
        exact h.apart j k hjk

variable [DecidableEq α]

/-- A fresh element goes in front of `b`. -/
theorem Represents.insertBefore (h : Represents m lists seqs) (he : Fresh lists seqs e)
    (hold : nodes (lists i) (seqs i) = u ++ a :: b :: w)
    (hys : nodes (lists i) ys = u ++ a :: e :: b :: w) :
    Represents (listInsertBefore b e m) lists (Function.update seqs i ys) := by
  have hlinked := (h.holds i).linked
  have hnodup := (h.holds i).nodup
  have hfresh := he i
  rw [hold] at hlinked hnodup hfresh
  have hprevb : m.prev b = a := hlinked.neighbours.2
  have hnew : (u ++ a :: e :: b :: w).Nodup := by
    have hsplit : u ++ a :: e :: b :: w = (u ++ [a]) ++ e :: b :: w := by simp
    rw [hsplit, List.nodup_middle, List.nodup_cons, List.append_assoc, List.singleton_append]
    exact ⟨hfresh, hnodup⟩
  have hea : e ≠ a := fun hea => hfresh (by simp [hea])
  have heb : e ≠ b := fun heb => hfresh (by simp [heb])
  have hab : a ≠ b := by
    rintro rfl
    exact (List.nodup_cons.mp (List.nodup_append.mp hnodup).2.1).1 List.mem_cons_self
  apply h.set
  · constructor
    · rw [hys]
      apply hlinked.insert hnew
      · intro x hxa hxe
        rw [listInsertBefore_next, if_neg hxe, if_neg (hprevb ▸ hxa)]
      · intro x hxb hxe
        rw [listInsertBefore_prev, if_neg hxb, if_neg hxe]
      · rw [Link, listInsertBefore_next, listInsertBefore_prev, if_neg hea.symm, hprevb,
          if_pos rfl, if_neg heb, if_pos rfl]
        exact ⟨rfl, rfl⟩
      · rw [Link, listInsertBefore_next, listInsertBefore_prev, if_pos rfl, if_pos rfl]
        exact ⟨rfl, rfl⟩
    · rwa [hys]
  · intro x hx
    by_cases hxe : x = e
    · exact .inr (hxe ▸ he)
    · rw [hys] at hx
      rw [hold]
      left
      simp only [List.mem_append, List.mem_cons] at hx ⊢
      tauto
  · intro x hx hxfresh
    have hxe : x ≠ e := fun hxe => hxfresh (hxe ▸ he)
    have hxa : x ≠ m.prev b := fun hxa => hx (by simp [hold, hxa, hprevb])
    rw [listInsertBefore_next, if_neg hxe, if_neg hxa]
  · intro x hx hxfresh
    have hxe : x ≠ e := fun hxe => hxfresh (hxe ▸ he)
    have hxb : x ≠ b := fun hxb => hx (by simp [hold, hxb])
    rw [listInsertBefore_prev, if_neg hxb, if_neg hxe]

/-- An element between `a` and `b` is taken out. -/
theorem Represents.remove (h : Represents m lists seqs)
    (hold : nodes (lists i) (seqs i) = u ++ a :: e :: b :: w)
    (hys : nodes (lists i) ys = u ++ a :: b :: w) :
    Represents (listRemove e m) lists (Function.update seqs i ys) := by
  have hlinked := (h.holds i).linked
  have hnodup := (h.holds i).nodup
  rw [hold] at hlinked hnodup
  have hprev : m.prev e = a := hlinked.neighbours.2
  have hnext : m.next e = b := by
    have hsplit : u ++ a :: e :: b :: w = (u ++ [a]) ++ e :: b :: w := by simp
    rw [hsplit] at hlinked
    exact hlinked.neighbours.1
  obtain ⟨hanot, -⟩ := List.nodup_cons.mp (List.nodup_append.mp hnodup).2.1
  have hae : m.prev e ≠ e := fun hae => hanot (by simp [← hprev, hae])
  apply h.set
  · constructor
    · rw [hys]
      apply hlinked.erase hnodup
      · intro x hxa
        rw [listRemove_next, if_neg (hprev ▸ hxa)]
      · intro x hxb
        rw [listRemove_prev hae, if_neg (hnext ▸ hxb)]
      · rw [Link, listRemove_next, listRemove_prev hae, if_pos hprev.symm, if_pos hnext.symm]
        exact ⟨hnext, hprev⟩
    · rw [hys]
      have hsplit : u ++ a :: e :: b :: w = (u ++ [a]) ++ e :: b :: w := by simp
      rw [hsplit, List.nodup_middle, List.nodup_cons, List.append_assoc, List.singleton_append]
        at hnodup
      exact hnodup.2
  · intro x hx
    rw [hys] at hx
    rw [hold]
    left
    simp only [List.mem_append, List.mem_cons] at hx ⊢
    tauto
  · intro x hx _
    rw [listRemove_next, if_neg]
    exact fun hxa => hx (by simp [hold, hxa, hprev])
  · intro x hx _
    rw [listRemove_prev hae, if_neg]
    exact fun hxb => hx (by simp [hold, hxb, hnext])

theorem represents_push (h : Represents m lists seqs) (i : ι) (he : Fresh lists seqs e) :
    Represents (listPush (lists i) e m) lists (Function.update seqs i (e :: seqs i)) := by
  obtain ⟨b, w, hb⟩ : ∃ b w, seqs i ++ [(lists i).tail] = b :: w :=
    List.exists_cons_of_ne_nil (by simp)
  have hold : nodes (lists i) (seqs i) = [] ++ (lists i).head :: b :: w := congrArg _ hb
  have hfirst : m.next (lists i).head = b := by
    have hlinked := (h.holds i).linked
    rw [hold] at hlinked
    exact hlinked.neighbours.1
  rw [listPush, hfirst]
  apply h.insertBefore he hold
  rw [nodes, List.cons_append, hb]
  rfl

theorem represents_append (h : Represents m lists seqs) (i : ι) (he : Fresh lists seqs e) :
    Represents (listAppend (lists i) e m) lists (Function.update seqs i (seqs i ++ [e])) := by
  obtain ⟨u, a, hu⟩ : ∃ u a, (lists i).head :: seqs i = u ++ [a] :=
    ⟨_, _, (List.dropLast_append_getLast (List.cons_ne_nil _ _)).symm⟩
  apply h.insertBefore he (u := u) (a := a) (w := [])
  · rw [nodes, ← List.cons_append, hu, List.append_assoc]
    rfl
  · rw [nodes, ← List.cons_append, ← List.cons_append, hu, List.append_assoc, List.append_assoc]
    rfl

theorem represents_remove (h : Represents m lists seqs) (he : e ∈ seqs i) :
    Represents (listRemove e m) lists (Function.update seqs i ((seqs i).erase e)) := by
  obtain ⟨s, t, hseq⟩ := List.append_of_mem he
  obtain ⟨u, a, hu⟩ : ∃ u a, (lists i).head :: s = u ++ [a] :=
    ⟨_, _, (List.dropLast_append_getLast (List.cons_ne_nil _ _)).symm⟩
  obtain ⟨b, w, hb⟩ : ∃ b w, t ++ [(lists i).tail] = b :: w :=
    List.exists_cons_of_ne_nil (by simp)
  have hnot : e ∉ s := by
    have hnodup := (h.holds i).nodup
    rw [nodes, hseq, List.nodup_cons, List.append_assoc, List.nodup_append] at hnodup
    exact fun hs => hnodup.2.2.2 e hs e (by simp) rfl
  apply h.remove (u := u) (a := a) (b := b) (w := w)
  · rw [nodes, hseq, List.append_assoc, List.cons_append, hb, ← List.cons_append, hu,
      List.append_assoc]
    rfl
  · rw [nodes, hseq, List.erase_append_right _ hnot, List.erase_cons_head, List.append_assoc, hb,
      ← List.cons_append, hu, List.append_assoc]
    rfl

theorem represents_pop (h : Represents m lists seqs) {i : ι} (hxs : seqs i = x :: xs) :
    (listPop (lists i) m).1 = x ∧
      Represents (listPop (lists i) m).2 lists (Function.update seqs i xs) := by
  have hlinked := (h.holds i).linked
  rw [nodes, hxs] at hlinked
  have hfirst : m.next (lists i).head = x := (List.isChain_cons_cons.mp hlinked).1.1
  refine ⟨hfirst, ?_⟩
  have hremove := represents_remove h (i := i) (e := x) (by simp [hxs])
  rw [hxs, List.erase_cons_head] at hremove
  rw [listPop, hfirst]
  exact hremove

end Update

/-! ### Frames -/

section Frame

variable {m m' : Links α} {lists : ι → KList α} {seqs : ι → List α} {l : KList α} {e x : α}
  {xs : List α}

/-- An element of a list has two neighbours. -/
theorem nodes_around (he : e ∈ xs) : ∃ u a b w, nodes l xs = u ++ a :: e :: b :: w := by
  obtain ⟨s, t, rfl⟩ := List.append_of_mem he
  obtain ⟨u, a, hu⟩ : ∃ u a, l.head :: s = u ++ [a] :=
    ⟨_, _, (List.dropLast_append_getLast (List.cons_ne_nil _ _)).symm⟩
  obtain ⟨b, w, hb⟩ : ∃ b w, t ++ [l.tail] = b :: w := List.exists_cons_of_ne_nil (by simp)
  refine ⟨u, a, b, w, ?_⟩
  rw [nodes, List.append_assoc, List.cons_append, hb, ← List.cons_append, hu, List.append_assoc]
  rfl

theorem Holds.prev_tail (h : Holds m l xs) : m.prev l.tail ∈ nodes l xs := by
  obtain ⟨u, a, hu⟩ : ∃ u a, l.head :: xs = u ++ [a] :=
    ⟨_, _, (List.dropLast_append_getLast (List.cons_ne_nil _ _)).symm⟩
  have hsplit : nodes l xs = u ++ a :: l.tail :: [] := by
    rw [nodes, ← List.cons_append, hu, List.append_assoc]
    rfl
  have hlinked := h.linked
  rw [hsplit] at hlinked ⊢
  rw [hlinked.neighbours.2]
  simp

theorem Holds.around (h : Holds m l xs) (he : e ∈ xs) :
    m.prev e ∈ nodes l xs ∧ m.next e ∈ nodes l xs ∧ m.prev e ≠ e := by
  obtain ⟨u, a, b, w, hsplit⟩ := nodes_around (l := l) he
  have hlinked := h.linked
  have hnodup := h.nodup
  rw [hsplit] at hlinked hnodup ⊢
  have hprev : m.prev e = a := hlinked.neighbours.2
  rw [List.append_cons] at hlinked
  have hnext : m.next e = b := hlinked.neighbours.1
  rw [hprev, hnext]
  refine ⟨by simp, by simp, ?_⟩
  rintro rfl
  exact (List.nodup_cons.mp (List.nodup_append.mp hnodup).2.1).1 List.mem_cons_self

/-- Lists on which nothing changes. -/
theorem Represents.frame (h : Represents m lists seqs)
    (hnext : ∀ i, ∀ x ∈ nodes (lists i) (seqs i), m'.next x = m.next x)
    (hprev : ∀ i, ∀ x ∈ nodes (lists i) (seqs i), m'.prev x = m.prev x) :
    Represents m' lists seqs :=
  ⟨fun i => ⟨(h.holds i).linked.frame (hnext i) (hprev i), (h.holds i).nodup⟩, h.apart⟩

variable [DecidableEq α]

/-- An append writes the list and the new element. -/
theorem Holds.append_frame (h : Holds m l xs) (hx : x ∉ nodes l xs) (hxe : x ≠ e) :
    (listAppend l e m).next x = m.next x ∧ (listAppend l e m).prev x = m.prev x := by
  have hlast : x ≠ m.prev l.tail := fun he => hx (he ▸ h.prev_tail)
  have htail : x ≠ l.tail := fun he => hx (by simp [he, nodes])
  constructor
  · rw [listAppend, listInsertBefore_next, if_neg hxe, if_neg hlast]
  · rw [listAppend, listInsertBefore_prev, if_neg htail, if_neg hxe]

/-- A removal writes the neighbours of the element. -/
theorem Holds.remove_frame (h : Holds m l xs) (he : e ∈ xs) (hx : x ∉ nodes l xs) :
    (listRemove e m).next x = m.next x ∧ (listRemove e m).prev x = m.prev x := by
  obtain ⟨hprev, hnext, hne⟩ := h.around he
  constructor
  · rw [listRemove_next, if_neg fun hxe : x = m.prev e => hx (hxe ▸ hprev)]
  · rw [listRemove_prev hne, if_neg fun hxe : x = m.next e => hx (hxe ▸ hnext)]

end Frame

/-! ### Walks -/

section Walks

/-- From `elem` the pointers lead along `xs` to the tail. -/
inductive Walk (m : Links α) (tail : α) : (elem : α) → List α → Prop
  | done : Walk m tail tail []
  | step {elem : α} {xs : List α} : elem ≠ tail → Walk m tail (m.next elem) xs →
      Walk m tail elem (elem :: xs)

variable {m : Links α} {l : KList α} {elem obj : α} {xs : List α}

theorem walk_of_linked : ∀ {xs : List α} {a : α}, Linked m (a :: (xs ++ [l.tail])) → l.tail ∉ xs →
    Walk m l.tail (m.next a) xs
  | [], a, h, _ => by
    obtain ⟨hlink, -⟩ := List.isChain_cons_cons.mp h
    rw [hlink.1]
    exact .done
  | x :: xs, a, h, hout => by
    obtain ⟨hlink, hrest⟩ := List.isChain_cons_cons.mp h
    rw [List.mem_cons, not_or] at hout
    rw [hlink.1]
    exact .step (Ne.symm hout.1) (walk_of_linked hrest hout.2)

theorem Holds.walk (h : Holds m l xs) : Walk m l.tail (m.next l.head) xs := by
  apply walk_of_linked h.linked
  have hnodup := h.nodup
  rw [nodes, List.nodup_cons, List.nodup_append] at hnodup
  exact fun hin => hnodup.2.2.2 _ hin _ (List.mem_singleton_self _) rfl

variable [DecidableEq α]

theorem lenLoop_walk (h : Walk m l.tail elem xs) : ∀ (len fuel : ℕ), len + xs.length < 2 ^ 32 →
    xs.length < fuel → lenLoop m l.tail fuel elem len = some (len + xs.length) := by
  induction h with
  | done =>
    intro len fuel _ hfuel
    obtain ⟨fuel, rfl⟩ := Nat.exists_eq_add_of_lt hfuel
    simp [lenLoop]
  | step hne _ ih =>
    intro len fuel hlen hfuel
    rw [List.length_cons] at hlen hfuel ⊢
    obtain ⟨fuel, rfl⟩ : ∃ n, fuel = n + 1 := ⟨fuel - 1, by omega⟩
    rw [lenLoop, if_pos hne, Nat.mod_eq_of_lt (by omega), ih (len + 1) fuel (by omega) (by omega)]
    congr 1
    omega

theorem findLoop_walk (h : Walk m l.tail elem xs) (obj : α) : ∀ fuel, xs.length < fuel →
    findLoop m l.tail obj fuel elem = some (decide (obj ∈ xs)) := by
  induction h with
  | done =>
    intro fuel hfuel
    obtain ⟨fuel, rfl⟩ := Nat.exists_eq_add_of_lt hfuel
    simp [findLoop]
  | @step elem xs hne _ ih =>
    intro fuel hfuel
    rw [List.length_cons] at hfuel
    obtain ⟨fuel, rfl⟩ : ∃ n, fuel = n + 1 := ⟨fuel - 1, by omega⟩
    rw [findLoop, if_pos hne]
    by_cases hobj : elem = obj
    · simp [hobj]
    · have hmem : obj ∈ elem :: xs ↔ obj ∈ xs := by simp [Ne.symm hobj]
      rw [if_neg hobj, ih fuel (by omega), decide_eq_decide.mpr hmem]

/-- What `elem_find` answers is right, whatever fuel it had. -/
theorem findLoop_some (h : Walk m l.tail elem xs) (obj : α) {fuel : ℕ} {r : Bool}
    (hr : findLoop m l.tail obj fuel elem = some r) : r = decide (obj ∈ xs) := by
  induction h generalizing fuel with
  | done =>
    cases fuel with
    | zero => cases hr
    | succ fuel =>
      rw [findLoop, if_neg (not_not.mpr rfl)] at hr
      simpa using (Option.some.inj hr).symm
  | @step elem xs hne _ ih =>
    cases fuel with
    | zero => cases hr
    | succ fuel =>
      rw [findLoop, if_pos hne] at hr
      by_cases hobj : elem = obj
      · rw [if_pos hobj] at hr
        simpa [hobj] using (Option.some.inj hr).symm
      · rw [if_neg hobj] at hr
        rw [ih hr, decide_eq_decide, List.mem_cons, or_iff_right (Ne.symm hobj)]

theorem Holds.elemFind_some (h : Holds m l xs) {fuel : ℕ} {r : Bool}
    (hr : elemFind fuel l obj m = some r) : r = decide (obj ∈ xs) :=
  findLoop_some h.walk obj hr

/-- The first element for which the function says yes, called on one element after the other. -/
def firstMatch (func : α → σ → Bool × σ) : List α → σ → Option α × σ
  | [], s => (none, s)
  | x :: xs, s =>
    match func x s with
    | (true, s) => (some x, s)
    | (false, s) => firstMatch func xs s

omit [DecidableEq α] in
/-- For a function of the element alone. -/
theorem firstMatch_pure (p : α → Bool) (xs : List α) (s : σ) :
    firstMatch (fun x s => (p x, s)) xs s = (xs.find? p, s) := by
  induction xs with
  | nil => rfl
  | cons x xs ih =>
    rw [firstMatch, List.find?_cons]
    cases p x with
    | true => rfl
    | false => exact ih

theorem traversalLoop_walk (func : α → σ → Bool × σ) (h : Walk m l.tail elem xs) :
    ∀ (s : σ) (fuel : ℕ), xs.length < fuel →
      traversalLoop func m l.tail fuel elem s = some (firstMatch func xs s) := by
  induction h with
  | done =>
    intro s fuel hfuel
    obtain ⟨fuel, rfl⟩ := Nat.exists_eq_add_of_lt hfuel
    simp [traversalLoop, firstMatch]
  | @step elem xs hne _ ih =>
    intro s fuel hfuel
    rw [List.length_cons] at hfuel
    obtain ⟨fuel, rfl⟩ : ∃ n, fuel = n + 1 := ⟨fuel - 1, by omega⟩
    rw [traversalLoop, if_pos hne, firstMatch]
    rcases func elem s with ⟨found, s'⟩
    cases found with
    | true => rfl
    | false => exact ih s' fuel (by omega)

end Walks

/-! ### The lists of the kernel -/

abbrev Ptr := BitVec 32

/-- The addresses of its elements bound the length of a list. -/
theorem Holds.length_lt {m : Links Ptr} {l : KList Ptr} {xs : List Ptr} (h : Holds m l xs) :
    xs.length < 2 ^ 32 := by
  have hnodup : ((nodes l xs).map BitVec.toFin).Nodup :=
    h.nodup.map fun _ _ he => BitVec.toFin_inj.mp he
  have hcard := hnodup.length_le_card
  rw [List.length_map, nodes, List.length_cons, List.length_append, List.length_singleton,
    Fintype.card_fin] at hcard
  omega

section Refinement

variable [DecidableEq ι] {m : Links Ptr} {lists : ι → KList Ptr} {seqs : ι → List Ptr}

/-- What the operations do to the sequences: an element that is put in has been on no list, and all
other sequences stay as they are. -/
structure RefinesSequences (m : Links Ptr) (lists : ι → KList Ptr) (seqs : ι → List Ptr) :
    Prop where
  push : ∀ i e, Represents (listPush (lists i) e m) lists (Function.update seqs i (e :: seqs i)) ↔
    Fresh lists seqs e
  append : ∀ i e,
    Represents (listAppend (lists i) e m) lists (Function.update seqs i (seqs i ++ [e])) ↔
      Fresh lists seqs e
  remove : ∀ i, ∀ e ∈ seqs i,
    Represents (listRemove e m) lists (Function.update seqs i ((seqs i).erase e))
  pop : ∀ i x xs, seqs i = x :: xs → (listPop (lists i) m).1 = x ∧
    Represents (listPop (lists i) m).2 lists (Function.update seqs i xs)
  empty : ∀ i, listEmpty (lists i) m = true ↔ seqs i = []
  find : ∀ i obj, EndsWith (fun fuel => elemFind fuel (lists i) obj m) (decide (obj ∈ seqs i))
  len : ∀ i, EndsWith (fun fuel => listLen fuel (lists i) m) (seqs i).length
  traversal : ∀ {σ : Type} (func : Ptr → σ → Bool × σ) i s,
    EndsWith (fun fuel => listTraversal func fuel (lists i) m s) (firstMatch func (seqs i) s)

/-- An element of a list stands in it once. -/
theorem fresh_of_represents {m' : Links Ptr} {i : ι} {e : Ptr} {ys : List Ptr}
    (h' : Represents m' lists (Function.update seqs i ys)) (hperm : ys.Perm (e :: seqs i)) :
    Fresh lists seqs e := by
  intro j
  by_cases hj : j = i
  · subst hj
    have hnodup := (h'.holds j).nodup
    rw [Function.update_self, nodes] at hnodup
    have hcons : ((lists j).head :: (ys ++ [(lists j).tail])).Perm
        (e :: nodes (lists j) (seqs j)) :=
      ((hperm.append_right _).cons _).trans (List.Perm.swap _ _ _)
    exact (List.nodup_cons.mp (hcons.nodup_iff.mp hnodup)).1
  · have hapart := h'.apart j i hj
    rw [Function.update_of_ne hj, Function.update_self] at hapart
    intro he
    apply hapart he
    rw [nodes]
    simp [hperm.mem_iff]

omit [DecidableEq ι] in
theorem listEmpty_iff (h : Represents m lists seqs) (i : ι) :
    listEmpty (lists i) m = true ↔ seqs i = [] := by
  have hwalk := (h.holds i).walk
  rw [listEmpty, decide_eq_true_iff]
  generalize m.next (lists i).head = elem, seqs i = xs at hwalk ⊢
  cases hwalk with
  | done => exact iff_of_true rfl rfl
  | step hne => exact iff_of_false hne (List.cons_ne_nil _ _)

theorem list_refines_sequences (h : Represents m lists seqs) : RefinesSequences m lists seqs where
  push i e := ⟨fun h' => fresh_of_represents h' (.refl _), represents_push h i⟩
  append i e := ⟨fun h' => fresh_of_represents h' (List.perm_append_singleton _ _),
    represents_append h i⟩
  remove i e he := represents_remove h he
  pop i x xs hxs := represents_pop h hxs
  empty := listEmpty_iff h
  find i obj :=
    ⟨(seqs i).length + 1, fun fuel hfuel => findLoop_walk (h.holds i).walk obj fuel hfuel⟩
  len i := by
    refine ⟨(seqs i).length + 1, fun fuel hfuel => ?_⟩
    have hlt := (h.holds i).length_lt
    have hloop := lenLoop_walk (h.holds i).walk 0 fuel (by omega) hfuel
    rwa [Nat.zero_add] at hloop
  traversal func i s := by
    refine ⟨(seqs i).length + 1, fun fuel hfuel => ?_⟩
    by_cases hempty : listEmpty (lists i) m = true
    · rw [(listEmpty_iff h i).mp hempty]
      exact if_pos hempty
    · exact (if_neg hempty).trans (traversalLoop_walk func (h.holds i).walk s fuel hfuel)

/-- Two lists, one of them empty, and an element on none. -/
theorem list_refines_sequences_two :
    ∃ (m : Links Ptr) (lists : Bool → KList Ptr) (seqs : Bool → List Ptr),
      Represents m lists seqs ∧ seqs true = [48, 64] ∧ seqs false = [] ∧ Fresh lists seqs 80 ∧
        RefinesSequences m lists seqs := by
  let lists : Bool → KList Ptr := fun i => if i then ⟨0, 8⟩ else ⟨16, 24⟩
  let seqs : Bool → List Ptr := fun i => if i then [48, 64] else []
  let m : Links Ptr :=
    { prev := fun x => if x = 48 then 0 else if x = 64 then 48 else if x = 8 then 64
        else if x = 24 then 16 else 0
      next := fun x => if x = 0 then 48 else if x = 48 then 64 else if x = 64 then 8
        else if x = 16 then 24 else 0 }
  have happart : (nodes (lists true) (seqs true)).Disjoint (nodes (lists false) (seqs false)) := by
    simp [List.disjoint_left, nodes, lists, seqs]
  have h : Represents m lists seqs := by
    constructor
    · intro i
      cases i with
      | false => exact ⟨.cons_cons ⟨by decide, by decide⟩ (.singleton _), by decide⟩
      | true =>
        exact ⟨.cons_cons ⟨by decide, by decide⟩ (.cons_cons ⟨by decide, by decide⟩
          (.cons_cons ⟨by decide, by decide⟩ (.singleton _))), by decide⟩
    · intro i j hij
      cases i with
      | false =>
        cases j with
        | false => exact absurd rfl hij
        | true => exact happart.symm
      | true =>
        cases j with
        | false => exact happart
        | true => exact absurd rfl hij
  exact ⟨m, lists, seqs, h, rfl, rfl, fun i => by cases i <;> decide, list_refines_sequences h⟩

end Refinement

end KernelList
