import Mathlib.Data.List.Induction
import Mathlib.Tactic.Common

/-! Paths through a tree of directories over identified objects. A directory has entries by name
and knows its parent; two more names lead from a directory to itself and to its parent, and need
not be entries. `normalise` removes them from a path without looking at a tree. -/
namespace PathTree

variable {ι κ : Type}

inductive Node (ι κ : Type) where
  | file
  | dir (parent : ι) (entries : κ → Option ι)

abbrev Tree (ι κ : Type) := ι → Option (Node ι κ)

def Tree.IsDir (t : Tree ι κ) (d : ι) : Prop := ∃ p E, t d = some (.dir p E)

/-- Directory `d` has an entry `k` for `c`. -/
def Tree.Names (t : Tree ι κ) (d : ι) (k : κ) (c : ι) : Prop :=
  ∃ p E, t d = some (.dir p E) ∧ E k = some c

/-- An object that may be an entry of directory `d`. -/
def Node.Under (N : Node ι κ) (d : ι) : Prop :=
  match N with
  | .file => True
  | .dir p _ => p = d

/-- Every object but the root has an entry, a directory in its parent. -/
structure WellFormed (root : ι) (t : Tree ι κ) : Prop where
  top : ∃ E, t root = some (.dir root E)
  child : ∀ d k c, t.Names d k c → c ≠ root ∧ ∃ N, t c = some N ∧ N.Under d
  named : ∀ c, t c ≠ none → c ≠ root → ∃ d k, t.Names d k c

/-- The names of a directory in itself and of its parent. -/
structure Dots (κ : Type) where
  self : κ
  parent : κ

section Walk

variable [DecidableEq κ] (w : Dots κ) (t : Tree ι κ)

def Tree.child (d : ι) (k : κ) : Option ι :=
  match t d with
  | some (.dir p E) => if k = w.self then some d else if k = w.parent then some p else E k
  | _ => none

/-- Where a path leads from `d`, `none` if one of its names is missing. -/
def Tree.walk : ι → List κ → Option ι
  | d, [] => some d
  | d, k :: ks => (t.child w d k).bind fun c => Tree.walk c ks

/-- Every name of the path but the last leads to a directory, if anywhere. -/
def Tree.NoFileBefore (d : ι) (ks : List κ) : Prop :=
  ∀ pre k post, ks = pre ++ k :: post → ∀ n, t.walk w d pre = some n → t.IsDir n

/-- Every name of the path but the last leads to a directory. -/
def Tree.DirsBefore (d : ι) (ks : List κ) : Prop :=
  ∀ pre k post, ks = pre ++ k :: post → ∃ n, t.walk w d pre = some n ∧ t.IsDir n

/-- One more name on a stack of names. -/
def push (st : List κ) (k : κ) : List κ :=
  if k = w.self then st else if k = w.parent then st.dropLast else st ++ [k]

def normalise (ks : List κ) : List κ := ks.foldl (push w) []

/-- Only names that may be entries. -/
def Plain (ks : List κ) : Prop := ∀ k ∈ ks, k ≠ w.self ∧ k ≠ w.parent

end Walk

variable [DecidableEq κ] {w : Dots κ} {t : Tree ι κ} {d n root : ι} {k : κ} {ks : List κ}

theorem child_dir {p : ι} {E : κ → Option ι} (h : t d = some (.dir p E)) :
    t.child w d k = if k = w.self then some d else if k = w.parent then some p else E k := by
  rw [Tree.child, h]

theorem child_self {p : ι} {E : κ → Option ι} (h : t d = some (.dir p E)) :
    t.child w d w.self = some d := by
  rw [child_dir h, if_pos rfl]

theorem child_up {p : ι} {E : κ → Option ι} (h : t d = some (.dir p E)) (hw : w.self ≠ w.parent) :
    t.child w d w.parent = some p := by
  rw [child_dir h, if_neg hw.symm, if_pos rfl]

theorem isDir_of_child {c : ι} (h : t.child w d k = some c) : t.IsDir d := by
  unfold Tree.child at h
  split at h
  · exact ⟨_, _, ‹_›⟩
  · cases h

theorem walk_append (d : ι) (ks ls : List κ) :
    t.walk w d (ks ++ ls) = (t.walk w d ks).bind fun c => t.walk w c ls := by
  induction ks generalizing d with
  | nil => rfl
  | cons k ks ih =>
    rw [List.cons_append, Tree.walk, Tree.walk, Option.bind_assoc]
    exact congrArg _ (funext fun c => ih c)

theorem walk_last (d : ι) (ks : List κ) (k : κ) :
    t.walk w d (ks ++ [k]) = (t.walk w d ks).bind fun c => t.child w c k := by
  rw [walk_append]
  exact congrArg _ (funext fun c => by simp [Tree.walk])

theorem Tree.DirsBefore.noFileBefore (h : t.DirsBefore w d ks) : t.NoFileBefore w d ks := by
  intro pre k post he n hn
  obtain ⟨m, hm, hdir⟩ := h pre k post he
  obtain rfl := Option.some.inj (hn.symm.trans hm)
  exact hdir

theorem Tree.DirsBefore.of_append {ls : List κ} (h : t.DirsBefore w d (ks ++ ls)) :
    t.DirsBefore w d ks := by
  rintro pre k post rfl
  exact h pre k (post ++ ls) (by simp)

omit [DecidableEq κ] in
theorem WellFormed.root_parent (h : WellFormed root t) {p : ι} {E : κ → Option ι}
    (hd : t root = some (.dir p E)) : p = root := by
  obtain ⟨E', hE⟩ := h.top
  exact (Node.dir.inj (Option.some.inj (hd.symm.trans hE))).1

omit [DecidableEq κ] in
/-- A directory is named by its parent. -/
theorem WellFormed.parent_names (h : WellFormed root t) {p : ι} {E : κ → Option ι}
    (hd : t d = some (.dir p E)) (hr : d ≠ root) : ∃ k, t.Names p k d := by
  obtain ⟨q, k, hq⟩ := h.named d (by simp [hd]) hr
  obtain ⟨-, N, hN, hu⟩ := h.child q k d hq
  obtain rfl := Option.some.inj (hd.symm.trans hN)
  obtain rfl : p = q := hu
  exact ⟨k, hq⟩

omit [DecidableEq κ] in
/-- The parent of a directory is one. -/
theorem WellFormed.parent (h : WellFormed root t) {p : ι} {E : κ → Option ι}
    (hd : t d = some (.dir p E)) : t.IsDir p := by
  by_cases hr : d = root
  · subst d
    obtain rfl := h.root_parent hd
    exact ⟨p, E, hd⟩
  · obtain ⟨k, p', E', hp, -⟩ := h.parent_names hd hr
    exact ⟨p', E', hp⟩

/-- Whatever a name leads to is there. -/
theorem WellFormed.child_some (h : WellFormed root t) {c : ι} (hc : t.child w d k = some c) :
    ∃ N, t c = some N := by
  obtain ⟨p, E, hd⟩ := isDir_of_child hc
  rw [child_dir hd] at hc
  split at hc
  · obtain rfl := Option.some.inj hc
    exact ⟨_, hd⟩
  split at hc
  · obtain rfl := Option.some.inj hc
    obtain ⟨q, E', hp⟩ := h.parent hd
    exact ⟨_, hp⟩
  · obtain ⟨-, N, hN, -⟩ := h.child d k c ⟨p, E, hd, hc⟩
    exact ⟨N, hN⟩

/-- Up again from an entry. -/
theorem WellFormed.child_parent (h : WellFormed root t) {c : ι} (hk : k ≠ w.self ∧ k ≠ w.parent)
    (hw : w.self ≠ w.parent) (hc : t.child w d k = some c) (hdir : t.IsDir c) :
    t.child w c w.parent = some d := by
  obtain ⟨p, E, hd⟩ := isDir_of_child hc
  rw [child_dir hd, if_neg hk.1, if_neg hk.2] at hc
  obtain ⟨-, N, hN, hu⟩ := h.child d k c ⟨p, E, hd, hc⟩
  obtain ⟨q, E', hc'⟩ := hdir
  obtain rfl := Option.some.inj (hN.symm.trans hc')
  obtain rfl : q = d := hu
  rw [child_dir hc', if_neg hw.symm, if_pos rfl]

theorem normalise_append (ks : List κ) (k : κ) :
    normalise w (ks ++ [k]) = push w (normalise w ks) k := by
  simp [normalise]

theorem normalise_plain (ks : List κ) : Plain w (normalise w ks) := by
  induction ks using List.reverseRecOn with
  | nil =>
    intro k hk
    cases hk
  | append_singleton ks k ih =>
    rw [normalise_append, push]
    split
    · exact ih
    split
    · exact fun x hx => ih x ((List.dropLast_sublist _).subset hx)
    · intro x hx
      rcases List.mem_append.mp hx with hx | hx
      · exact ih x hx
      · obtain rfl := List.mem_singleton.mp hx
        exact ⟨‹_›, ‹_›⟩

theorem normalise_subset (ks : List κ) : ∀ k ∈ normalise w ks, k ∈ ks := by
  induction ks using List.reverseRecOn with
  | nil =>
    intro k hk
    cases hk
  | append_singleton ks k ih =>
    intro x hx
    rw [normalise_append, push] at hx
    split at hx
    · exact List.mem_append_left _ (ih x hx)
    split at hx
    · exact List.mem_append_left _ (ih x ((List.dropLast_sublist _).subset hx))
    · rcases List.mem_append.mp hx with hx | hx
      · exact List.mem_append_left _ (ih x hx)
      · exact List.mem_append_right _ hx

theorem normalise_of_plain (h : Plain w ks) : normalise w ks = ks := by
  induction ks using List.reverseRecOn with
  | nil => rfl
  | append_singleton ks k ih =>
    obtain ⟨h1, h2⟩ := h k (by simp)
    rw [normalise_append, ih fun x hx => h x (by simp [hx]), push, if_neg h1, if_neg h2]

/-- Behind directories, a path leads where its normal form leads. The stack of names is the path
from the root to where the walk stands, and `w.parent` goes back along it. -/
theorem walk_normalise (h : WellFormed root t) (hw : w.self ≠ w.parent)
    (hks : t.DirsBefore w root ks) :
    t.walk w root (normalise w ks) = t.walk w root ks ∧ t.DirsBefore w root (normalise w ks) := by
  induction ks using List.reverseRecOn with
  | nil => exact ⟨rfl, hks⟩
  | append_singleton ks k ih =>
    obtain ⟨hwalk, hdirs⟩ := ih hks.of_append
    obtain ⟨n, hn, hdir⟩ := hks ks k [] rfl
    rw [hn] at hwalk
    rw [normalise_append, walk_last, hn, Option.bind_some, push]
    obtain ⟨p, E, hnode⟩ := hdir
    split
    · rename_i hself
      refine ⟨?_, hdirs⟩
      rw [hwalk, child_dir hnode, if_pos hself]
    split
    · rename_i hself hpar
      subst k
      rcases List.eq_nil_or_concat (normalise w ks) with hst | ⟨st, c, hst⟩
      · rw [hst] at hwalk ⊢
        obtain rfl := Option.some.inj hwalk
        obtain ⟨E', htop⟩ := h.top
        obtain ⟨rfl, -⟩ := Node.dir.inj (Option.some.inj (hnode.symm.trans htop))
        refine ⟨?_, fun pre k post he => by simp at he⟩
        rw [child_dir hnode, if_neg hself, if_pos rfl]
        rfl
      · rw [List.concat_eq_append] at hst
        have hplain := normalise_plain (w := w) ks c (by simp [hst])
        rw [hst] at hwalk hdirs ⊢
        rw [List.dropLast_concat]
        obtain ⟨m, hm, -⟩ := hdirs st c [] rfl
        rw [walk_last, hm, Option.bind_some] at hwalk
        refine ⟨?_, hdirs.of_append⟩
        rw [hm, h.child_parent hplain hw hwalk ⟨p, E, hnode⟩]
    · refine ⟨by rw [walk_last, hwalk, Option.bind_some], fun pre k' post he => ?_⟩
      rcases List.eq_nil_or_concat post with rfl | ⟨post, b, rfl⟩
      · obtain ⟨rfl, -⟩ := List.append_inj' he rfl
        exact ⟨n, hwalk, p, E, hnode⟩
      · rw [List.concat_eq_append, ← List.cons_append, ← List.append_assoc] at he
        obtain ⟨he, -⟩ := List.append_inj' he rfl
        exact hdirs pre k' post he

/-- A name that is no dot leads where the directory's entry says. -/
theorem child_plain {c : ι} (hk : k ≠ w.self ∧ k ≠ w.parent) :
    t.child w d k = some c ↔ t.Names d k c := by
  constructor
  · intro hc
    obtain ⟨p, E, hd⟩ := isDir_of_child hc
    rw [child_dir hd, if_neg hk.1, if_neg hk.2] at hc
    exact ⟨p, E, hd, hc⟩
  · rintro ⟨p, E, hd, hc⟩
    rw [child_dir hd, if_neg hk.1, if_neg hk.2]
    exact hc

/-- Where a path leads at all, all names but the last lead to directories. -/
theorem noFileBefore_of_walk {c : ι} (h : t.walk w d ks = some c) : t.NoFileBefore w d ks := by
  rintro pre k post rfl n hn
  rw [walk_append, hn, Option.bind_some, Tree.walk, Option.bind_eq_some_iff] at h
  obtain ⟨m, hm, -⟩ := h
  exact isDir_of_child hm

/-- The step that leads to a directory along an entry. -/
theorem walk_plain_last (h : WellFormed root t) {c : ι} (hks : Plain w (ks ++ [k]))
    (hc : t.walk w root (ks ++ [k]) = some c) {p : ι} {E : κ → Option ι}
    (hdir : t c = some (.dir p E)) : t.walk w root ks = some p ∧ t.Names p k c ∧ c ≠ root := by
  rw [walk_last, Option.bind_eq_some_iff] at hc
  obtain ⟨q, hq, hc⟩ := hc
  have hname := (child_plain (hks k (by simp))).mp hc
  obtain ⟨hroot, N, hN, hu⟩ := h.child q k c hname
  obtain rfl := Option.some.inj (hdir.symm.trans hN)
  obtain rfl : p = q := hu
  exact ⟨hq, hname, hroot⟩

omit [DecidableEq κ] in
theorem Plain.of_append {ls : List κ} (h : Plain w (ks ++ ls)) : Plain w ks :=
  fun k hk => h k (List.mem_append_left _ hk)

/-- Along entries a directory is reached at one depth only. -/
theorem walk_plain_length (h : WellFormed root t) {ls : List κ} (hks : Plain w ks)
    (hls : Plain w ls) (hk : t.walk w root ks = some d) (hl : t.walk w root ls = some d)
    (hdir : t.IsDir d) : ks.length = ls.length := by
  induction ks using List.reverseRecOn generalizing d ls with
  | nil =>
    obtain rfl := Option.some.inj hk
    obtain ⟨p, E, hdir⟩ := hdir
    rcases List.eq_nil_or_concat ls with rfl | ⟨ls, l, rfl⟩
    · rfl
    · rw [List.concat_eq_append] at hls hl
      exact absurd rfl (walk_plain_last h hls hl hdir).2.2
  | append_singleton ks k ih =>
    obtain ⟨p, E, hdir⟩ := hdir
    obtain ⟨hp, -, hroot⟩ := walk_plain_last h hks hk hdir
    rcases List.eq_nil_or_concat ls with rfl | ⟨ls, l, rfl⟩
    · exact absurd (Option.some.inj hl).symm hroot
    · rw [List.concat_eq_append] at hls hl ⊢
      have hq := (walk_plain_last h hls hl hdir).1
      have := ih hks.of_append hls.of_append hp hq (h.parent hdir)
      simp [this]

section Insert

variable [DecidableEq ι] {N : Node ι κ} {c : ι}

/-- A new object `c`, with the name `k` in directory `d`. -/
def Tree.insert (t : Tree ι κ) (d : ι) (k : κ) (c : ι) (N : Node ι κ) : Tree ι κ := fun x =>
  if x = c then some N
  else match t x with
    | some (.dir p E) => some (.dir p (if x = d then Function.update E k (some c) else E))
    | o => o

/-- A node without entries. -/
def Node.Bare (N : Node ι κ) : Prop := ∀ p E, N = .dir p E → ∀ k, E k = none

theorem insert_self : t.insert d k c N c = some N := if_pos rfl

theorem insert_dir {p : ι} {E : κ → Option ι} (hn : n ≠ c) (h : t n = some (.dir p E)) :
    t.insert d k c N n = some (.dir p (if n = d then Function.update E k (some c) else E)) := by
  rw [Tree.insert, if_neg hn, h]

theorem insert_file (hn : n ≠ c) (h : t n = some .file) : t.insert d k c N n = some .file := by
  rw [Tree.insert, if_neg hn, h]

theorem insert_none (hn : n ≠ c) (h : t n = none) : t.insert d k c N n = none := by
  rw [Tree.insert, if_neg hn, h]

/-- The objects of the larger tree. -/
theorem insert_ne_none : t.insert d k c N n ≠ none ↔ n = c ∨ t n ≠ none := by
  by_cases hn : n = c
  · subst n
    simp [insert_self]
  · cases hnode : t n with
    | none => simp [insert_none hn hnode, hn]
    | some M =>
      cases M with
      | file => simp [insert_file hn hnode]
      | dir p E => simp [insert_dir hn hnode]

theorem insert_isDir (hn : n ≠ c) : (t.insert d k c N).IsDir n ↔ t.IsDir n := by
  cases hnode : t n with
  | none => simp [Tree.IsDir, insert_none hn hnode, hnode]
  | some M =>
    cases M with
    | file => simp [Tree.IsDir, insert_file hn hnode, hnode]
    | dir p E => simp [Tree.IsDir, insert_dir hn hnode, hnode]

/-- The new name leads to the new object, all the others where they led. -/
theorem insert_child (hd : t.IsDir d) (hk : k ≠ w.self ∧ k ≠ w.parent) (hn : n ≠ c) (l : κ) :
    (t.insert d k c N).child w n l = if n = d ∧ l = k then some c else t.child w n l := by
  by_cases hdir : t.IsDir n
  · obtain ⟨p, E, hnode⟩ := hdir
    rw [child_dir (insert_dir hn hnode), child_dir hnode]
    by_cases hnd : n = d
    · by_cases hl : l = k
      · subst l
        simp [hk, hnd]
      · simp [hnd, hl]
    · simp [hnd]
  · have hnd : ¬(n = d ∧ l = k) := fun h => hdir (h.1 ▸ hd)
    have hnone : ∀ u : Tree ι κ, ¬u.IsDir n → u.child w n l = none := by
      intro u hu
      cases hc : u.child w n l with
      | none => rfl
      | some x => exact absurd (isDir_of_child hc) hu
    rw [if_neg hnd, hnone t hdir, hnone _ fun h => hdir ((insert_isDir hn).mp h)]

/-- What is named in the larger tree. -/
theorem insert_names (hN : N.Bare) {l : κ} {x : ι}
    (h : (t.insert d k c N).Names n l x) : t.Names n l x ∨ (n = d ∧ l = k ∧ x = c) := by
  obtain ⟨p, E, hn, hl⟩ := h
  by_cases hnc : n = c
  · subst n
    rw [hN p E (Option.some.inj (insert_self.symm.trans hn)) l] at hl
    cases hl
  cases hnode : t n with
  | none =>
    rw [insert_none hnc hnode] at hn
    cases hn
  | some M =>
    cases M with
    | file =>
      rw [insert_file hnc hnode] at hn
      cases hn
    | dir q F =>
      rw [insert_dir hnc hnode] at hn
      obtain ⟨rfl, rfl⟩ := Node.dir.inj (Option.some.inj hn)
      by_cases hd : n = d
      · subst n
        rw [if_pos rfl] at hl
        by_cases hlk : l = k
        · subst l
          rw [Function.update_self] at hl
          exact .inr ⟨rfl, rfl, (Option.some.inj hl).symm⟩
        · rw [Function.update_of_ne hlk] at hl
          exact .inl ⟨q, F, hnode, hl⟩
      · rw [if_neg hd] at hl
        exact .inl ⟨q, F, hnode, hl⟩

/-- A new object without entries, under a name that is free. -/
theorem WellFormed.insert (h : WellFormed root t) (hd : t.IsDir d) (hc : t c = none)
    (hfree : ∀ x, ¬t.Names d k x) (hu : N.Under d) (hN : N.Bare) :
    WellFormed root (t.insert d k c N) := by
  obtain ⟨E, htop⟩ := h.top
  have hroot : root ≠ c := by
    rintro rfl
    rw [hc] at htop
    cases htop
  have hdc : d ≠ c := by
    rintro rfl
    obtain ⟨p, E, hd⟩ := hd
    rw [hc] at hd
    cases hd
  refine ⟨⟨_, insert_dir hroot htop⟩, fun n l x hx => ?_, fun x hx hxr => ?_⟩
  · rcases insert_names hN hx with hx | ⟨rfl, rfl, rfl⟩
    · obtain ⟨hne, M, hM, hM'⟩ := h.child n l x hx
      have hxc : x ≠ c := by
        rintro rfl
        rw [hc] at hM
        cases hM
      refine ⟨hne, ?_⟩
      cases M with
      | file => exact ⟨.file, insert_file hxc hM, trivial⟩
      | dir p E => exact ⟨_, insert_dir hxc hM, hM'⟩
    · exact ⟨hroot.symm, N, insert_self, hu⟩
  · by_cases hxc : x = c
    · subst x
      obtain ⟨p, E, hd⟩ := hd
      refine ⟨d, k, p, _, insert_dir hdc hd, ?_⟩
      rw [if_pos rfl, Function.update_self]
    · obtain ⟨n, l, p, E, hn, hl⟩ := h.named x ((insert_ne_none.mp hx).resolve_left hxc) hxr
      have hnc : n ≠ c := by
        rintro rfl
        rw [hc] at hn
        cases hn
      refine ⟨n, l, p, _, insert_dir hnc hn, ?_⟩
      split
      · subst n
        have hlk : l ≠ k := by
          rintro rfl
          exact hfree x ⟨p, E, hn, hl⟩
        rw [Function.update_of_ne hlk]
        exact hl
      · exact hl

/-- Whatever was reached still is. -/
theorem walk_insert (hd : t.IsDir d) (hc : t c = none) (hk : k ≠ w.self ∧ k ≠ w.parent)
    (hfree : t.child w d k = none) {x : ι} (hx : t.walk w n ks = some x) :
    (t.insert d k c N).walk w n ks = some x := by
  induction ks generalizing n with
  | nil => exact hx
  | cons l ks ih =>
    rw [Tree.walk, Option.bind_eq_some_iff] at hx ⊢
    obtain ⟨y, hy, hx⟩ := hx
    have hnc : n ≠ c := by
      rintro rfl
      obtain ⟨p, E, hn⟩ := isDir_of_child hy
      rw [hc] at hn
      cases hn
    refine ⟨y, ?_, ih hx⟩
    rw [insert_child hd hk hnc, if_neg]
    · exact hy
    · rintro ⟨rfl, rfl⟩
      rw [hfree] at hy
      cases hy

end Insert

end PathTree
