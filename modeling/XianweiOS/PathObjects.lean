import XianweiOS.PathTree

/-! Trees of directories in which every object has one name and is reached from the root. Such a
tree is a map from paths to objects, and a new object, a lost one or other bytes of a file change
that map at one path. -/
namespace PathTree

variable {ι κ β : Type}

/-- What stands under a path. -/
inductive Object (β : Type) where
  | file (bytes : List β)
  | directory
  deriving DecidableEq, Repr

def Node.object (bytes : List β) : Node ι κ → Object β
  | .file => .file bytes
  | .dir .. => .directory

section Erase

variable [DecidableEq ι] [DecidableEq κ]

/-- The tree without the object `c`, the entry `k` of directory `d`. -/
def Tree.erase (t : Tree ι κ) (d : ι) (k : κ) (c : ι) : Tree ι κ := fun x =>
  if x = c then none
  else match t x with
    | some (.dir p E) => some (.dir p (if x = d then Function.update E k none else E))
    | o => o

variable {t : Tree ι κ} {d n c x : ι} {k l : κ}

theorem erase_self : t.erase d k c c = none := if_pos rfl

theorem erase_dir {p : ι} {E : κ → Option ι} (hn : n ≠ c) (h : t n = some (.dir p E)) :
    t.erase d k c n = some (.dir p (if n = d then Function.update E k none else E)) := by
  rw [Tree.erase, if_neg hn, h]

theorem erase_file (hn : n ≠ c) (h : t n = some .file) : t.erase d k c n = some .file := by
  rw [Tree.erase, if_neg hn, h]

theorem erase_none (h : t n = none) : t.erase d k c n = none := by
  unfold Tree.erase
  split
  · rfl
  · rw [h]

/-- The objects of the smaller tree. -/
theorem erase_ne_none : t.erase d k c n ≠ none ↔ n ≠ c ∧ t n ≠ none := by
  by_cases hn : n = c
  · subst n
    simp [erase_self]
  · cases hnode : t n with
    | none => simp [erase_none hnode]
    | some M =>
      cases M with
      | file => simp [erase_file hn hnode, hn]
      | dir p E => simp [erase_dir hn hnode, hn]

theorem erase_file_iff : t.erase d k c n = some .file ↔ n ≠ c ∧ t n = some .file := by
  by_cases hn : n = c
  · subst n
    simp [erase_self]
  · cases hnode : t n with
    | none => simp [erase_none hnode]
    | some M =>
      cases M with
      | file => simp [erase_file hn hnode, hn]
      | dir p E => simp [erase_dir hn hnode]

theorem erase_isDir (hn : n ≠ c) : (t.erase d k c).IsDir n ↔ t.IsDir n := by
  cases hnode : t n with
  | none => simp [Tree.IsDir, erase_none hnode, hnode]
  | some M =>
    cases M with
    | file => simp [Tree.IsDir, erase_file hn hnode, hnode]
    | dir p E => simp [Tree.IsDir, erase_dir hn hnode, hnode]

/-- What is named in the smaller tree. -/
theorem erase_names : (t.erase d k c).Names n l x ↔
    n ≠ c ∧ t.Names n l x ∧ ¬(n = d ∧ l = k) := by
  by_cases hn : n = c
  · subst n
    simp [Tree.Names, erase_self]
  cases hnode : t n with
  | none => simp [Tree.Names, erase_none hnode, hnode]
  | some M =>
    cases M with
    | file => simp [Tree.Names, erase_file hn hnode, hnode]
    | dir p E =>
      by_cases hd : n = d
      · subst n
        by_cases hl : l = k
        · subst l
          simp [Tree.Names, erase_dir hn hnode, hnode]
        · simp [Tree.Names, erase_dir hn hnode, hnode, hl, hn]
      · simp [Tree.Names, erase_dir hn hnode, hnode, hd, hn]

end Erase

/-- A tree in which every object but the root has one name, and a path of names leads to it. -/
structure Hierarchy [DecidableEq κ] (w : Dots κ) (root : ι) (t : Tree ι κ) : Prop where
  tree : WellFormed root t
  proper : ∀ d k c, t.Names d k c → k ≠ w.self ∧ k ≠ w.parent
  once : ∀ d d' k k' c, t.Names d k c → t.Names d' k' c → d = d' ∧ k = k'
  reached : ∀ c, t c ≠ none → ∃ ks, Plain w ks ∧ t.walk w root ks = some c

section Paths

variable [DecidableEq κ] {w : Dots κ} {t : Tree ι κ} {root d n c : ι} {k : κ} {ks ls : List κ}

omit [DecidableEq κ] in
theorem Plain.concat (h : Plain w ks) (hk : k ≠ w.self ∧ k ≠ w.parent) : Plain w (ks ++ [k]) := by
  intro l hl
  rcases List.mem_append.mp hl with hl | hl
  · exact h l hl
  · obtain rfl := List.mem_singleton.mp hl
    exact hk

omit [DecidableEq κ] in
theorem Plain.last (h : Plain w (ks ++ [k])) : k ≠ w.self ∧ k ≠ w.parent := h k (by simp)

/-- The last step of a path of names. -/
theorem walk_concat (hk : k ≠ w.self ∧ k ≠ w.parent) : t.walk w n (ks ++ [k]) = some c ↔
    ∃ m, t.walk w n ks = some m ∧ t.Names m k c := by
  rw [walk_last, Option.bind_eq_some_iff]
  exact exists_congr fun m => and_congr_right fun _ => child_plain hk

/-- What a path leads to is an object. -/
theorem WellFormed.walk_some (h : WellFormed root t) (hc : t.walk w root ks = some c) :
    t c ≠ none := by
  rcases List.eq_nil_or_concat ks with rfl | ⟨ks, k, rfl⟩
  · obtain rfl := Option.some.inj hc
    obtain ⟨E, h0⟩ := h.top
    simp [h0]
  · rw [List.concat_eq_append, walk_last, Option.bind_eq_some_iff] at hc
    obtain ⟨m, -, hc⟩ := hc
    obtain ⟨N, hN⟩ := h.child_some hc
    simp [hN]

/-- A path that leads somewhere goes through directories. -/
theorem dirsBefore_of_walk (hc : t.walk w d ks = some c) : t.DirsBefore w d ks := by
  intro pre k post hks
  rw [hks, walk_append, Option.bind_eq_some_iff] at hc
  obtain ⟨m, hm, hc⟩ := hc
  rw [Tree.walk, Option.bind_eq_some_iff] at hc
  obtain ⟨y, hy, -⟩ := hc
  exact ⟨m, hm, isDir_of_child hy⟩

theorem Hierarchy.top (h : Hierarchy w root t) : t root ≠ none := by
  obtain ⟨E, h0⟩ := h.tree.top
  simp [h0]

/-- No two paths of names lead to one object. -/
theorem Hierarchy.path_unique (h : Hierarchy w root t) (hks : Plain w ks) (hls : Plain w ls)
    (hk : t.walk w root ks = some c) (hl : t.walk w root ls = some c) : ks = ls := by
  induction ks using List.reverseRecOn generalizing c ls with
  | nil =>
    obtain rfl := Option.some.inj hk
    rcases List.eq_nil_or_concat ls with rfl | ⟨ls, l, rfl⟩
    · rfl
    · rw [List.concat_eq_append] at hls hl
      obtain ⟨m, -, hm⟩ := (walk_concat hls.last).mp hl
      exact absurd rfl (h.tree.child m l _ hm).1
  | append_singleton ks k ih =>
    obtain ⟨m, hm, hmk⟩ := (walk_concat hks.last).mp hk
    rcases List.eq_nil_or_concat ls with rfl | ⟨ls, l, rfl⟩
    · obtain rfl := Option.some.inj hl
      exact absurd rfl (h.tree.child m k _ hmk).1
    · rw [List.concat_eq_append] at hls hl ⊢
      obtain ⟨m', hm', hml⟩ := (walk_concat hls.last).mp hl
      obtain ⟨rfl, rfl⟩ := h.once m m' k l c hmk hml
      rw [ih hks.of_append hls.of_append hm hm']

/-- An object without entries is no directory on the way to another. -/
theorem walk_bare {N : Node ι κ} (hc : t c = some N) (hN : N.Bare) (hks : Plain w ks)
    (hw : t.walk w c ks = some n) : ks = [] ∧ n = c := by
  cases ks with
  | nil => exact ⟨rfl, (Option.some.inj hw).symm⟩
  | cons k ks =>
    rw [Tree.walk, Option.bind_eq_some_iff] at hw
    obtain ⟨m, hm, -⟩ := hw
    obtain ⟨p, E, hd, hE⟩ := (child_plain (hks k (by simp))).mp hm
    rw [hN p E (Option.some.inj (hc.symm.trans hd)) k] at hE
    cases hE

section Erase

variable [DecidableEq ι] {N : Node ι κ} {x : ι}

/-- Without the object `c`, the paths of names lead where they led but for the path to `c`. -/
theorem walk_erase (h : Hierarchy w root t) (hname : t.Names d k c) (hc : t c = some N)
    (hN : N.Bare) (hks : Plain w ks) (hn : n ≠ c) :
    (t.erase d k c).walk w n ks = some x ↔ t.walk w n ks = some x ∧ x ≠ c := by
  induction ks generalizing n with
  | nil =>
    constructor
    · intro hx
      obtain rfl := Option.some.inj hx
      exact ⟨rfl, hn⟩
    · exact fun hx => hx.1
  | cons l ks ih =>
    have hl := hks l (by simp)
    have hks' : Plain w ks := fun y hy => hks y (by simp [hy])
    simp only [Tree.walk, Option.bind_eq_some_iff, child_plain hl, erase_names]
    constructor
    · rintro ⟨y, ⟨-, hy, hne⟩, hx⟩
      have hyc : y ≠ c := by
        rintro rfl
        exact hne (h.once n d l k y hy hname)
      obtain ⟨hx, hxc⟩ := (ih hks' hyc).mp hx
      exact ⟨⟨y, hy, hx⟩, hxc⟩
    · rintro ⟨⟨y, hy, hx⟩, hxc⟩
      have hyc : y ≠ c := by
        rintro rfl
        exact hxc (walk_bare hc hN hks' hx).2
      refine ⟨y, ⟨hn, hy, ?_⟩, (ih hks' hyc).mpr ⟨hx, hxc⟩⟩
      rintro ⟨rfl, rfl⟩
      obtain ⟨p, E, hd, hE⟩ := hy
      obtain ⟨p', E', hd', hE'⟩ := hname
      obtain ⟨-, rfl⟩ := Node.dir.inj (Option.some.inj (hd.symm.trans hd'))
      exact hyc (Option.some.inj (hE.symm.trans hE'))

/-- An object without entries can be taken away. -/
theorem Hierarchy.erase (h : Hierarchy w root t) (hname : t.Names d k c) (hc : t c = some N)
    (hN : N.Bare) : Hierarchy w root (t.erase d k c) := by
  obtain ⟨hroot, -⟩ := h.tree.child d k c hname
  obtain ⟨E, htop⟩ := h.tree.top
  refine ⟨⟨⟨_, erase_dir hroot.symm htop⟩, fun n l x hx => ?_, fun x hx hxr => ?_⟩,
    fun n l x hx => ?_, fun n n' l l' x hx hx' => ?_, fun x hx => ?_⟩
  · obtain ⟨-, hnl, hne⟩ := erase_names.mp hx
    obtain ⟨hxr, M, hM, hu⟩ := h.tree.child n l x hnl
    have hxc : x ≠ c := by
      rintro rfl
      exact hne (h.once n d l k x hnl hname)
    refine ⟨hxr, ?_⟩
    cases M with
    | file => exact ⟨.file, erase_file hxc hM, trivial⟩
    | dir p F => exact ⟨_, erase_dir hxc hM, hu⟩
  · obtain ⟨hxc, hx⟩ := erase_ne_none.mp hx
    obtain ⟨n, l, hnl⟩ := h.tree.named x hx hxr
    refine ⟨n, l, erase_names.mpr ⟨?_, hnl, ?_⟩⟩
    · rintro rfl
      obtain ⟨p, F, hn, hF⟩ := hnl
      rw [hN p F (Option.some.inj (hc.symm.trans hn)) l] at hF
      cases hF
    · rintro ⟨rfl, rfl⟩
      obtain ⟨p, F, hn, hF⟩ := hnl
      obtain ⟨p', F', hn', hF'⟩ := hname
      obtain ⟨-, rfl⟩ := Node.dir.inj (Option.some.inj (hn.symm.trans hn'))
      exact hxc (Option.some.inj (hF.symm.trans hF'))
  · exact h.proper n l x (erase_names.mp hx).2.1
  · exact h.once n n' l l' x (erase_names.mp hx).2.1 (erase_names.mp hx').2.1
  · obtain ⟨hxc, hx⟩ := erase_ne_none.mp hx
    obtain ⟨ks, hks, hw⟩ := h.reached x hx
    exact ⟨ks, hks, (walk_erase h hname hc hN hks hroot.symm).mpr ⟨hw, hxc⟩⟩

end Erase

section Insert

variable [DecidableEq ι] {N : Node ι κ} {x : ι}

theorem insert_names_self (hd : t.IsDir d) (hdc : d ≠ c) : (t.insert d k c N).Names d k c := by
  obtain ⟨p, E, hd⟩ := hd
  refine ⟨p, _, insert_dir hdc hd, ?_⟩
  rw [if_pos rfl, Function.update_self]

/-- With a new object the tree stays a hierarchy. -/
theorem Hierarchy.insert (h : Hierarchy w root t) (hd : t.IsDir d) (hc : t c = none)
    (hk : k ≠ w.self ∧ k ≠ w.parent) (hfree : t.child w d k = none) (hu : N.Under d)
    (hN : N.Bare) : Hierarchy w root (t.insert d k c N) := by
  have hfree' : ∀ y, ¬t.Names d k y := by
    intro y hy
    rw [(child_plain hk).mpr hy] at hfree
    cases hfree
  have hnamed : ∀ n l, ¬t.Names n l c := by
    intro n l hnl
    obtain ⟨-, M, hM, -⟩ := h.tree.child n l c hnl
    rw [hc] at hM
    cases hM
  have hdc : d ≠ c := by
    rintro rfl
    obtain ⟨p, E, hd⟩ := hd
    rw [hc] at hd
    cases hd
  refine ⟨h.tree.insert hd hc hfree' hu hN, fun n l x hx => ?_, fun n n' l l' x hx hx' => ?_,
    fun x hx => ?_⟩
  · rcases insert_names hN hx with hx | ⟨-, rfl, -⟩
    · exact h.proper n l x hx
    · exact hk
  · rcases insert_names hN hx with hnl | ⟨rfl, rfl, rfl⟩
    · rcases insert_names hN hx' with hnl' | ⟨rfl, rfl, rfl⟩
      · exact h.once n n' l l' x hnl hnl'
      · exact absurd hnl (hnamed n l)
    · rcases insert_names hN hx' with hnl' | ⟨rfl, rfl, -⟩
      · exact absurd hnl' (hnamed n' l')
      · exact ⟨rfl, rfl⟩
  · rcases insert_ne_none.mp hx with rfl | hx
    · obtain ⟨p, E, hd'⟩ := hd
      obtain ⟨ks, hks, hw⟩ := h.reached d (by simp [hd'])
      refine ⟨ks ++ [k], hks.concat hk, (walk_concat hk).mpr ⟨d, ?_, ?_⟩⟩
      · exact walk_insert ⟨p, E, hd'⟩ hc hk hfree hw
      · exact insert_names_self ⟨p, E, hd'⟩ hdc
    · obtain ⟨ks, hks, hw⟩ := h.reached x hx
      exact ⟨ks, hks, walk_insert hd hc hk hfree hw⟩

/-- Taking the new object away again. -/
theorem erase_insert (hc : t c = none) (hfree : ∀ y, ¬t.Names d k y) :
    (t.insert d k c N).erase d k c = t := by
  funext n
  by_cases hn : n = c
  · subst n
    rw [erase_self, hc]
  cases hnode : t n with
  | none => rw [erase_none (insert_none hn hnode)]
  | some M =>
    cases M with
    | file => rw [erase_file hn (insert_file hn hnode)]
    | dir p E =>
      rw [erase_dir hn (insert_dir hn hnode)]
      by_cases hnd : n = d
      · subst n
        have hE : E k = none := by
          cases hE : E k with
          | none => rfl
          | some y => exact absurd ⟨p, E, hnode, hE⟩ (hfree y)
        rw [if_pos rfl, if_pos rfl, Function.update_idem, ← hE, Function.update_eq_self]
      · rw [if_neg hnd, if_neg hnd]

end Insert

/-- The objects by their paths. -/
def Tree.look (w : Dots κ) (root : ι) (t : Tree ι κ) (bytes : ι → List β) (ks : List κ) :
    Option (Object β) :=
  (t.walk w root ks).bind fun c => (t c).map (Node.object (bytes c))

variable {bytes bytes' : ι → List β}

theorem look_of_walk (hw : t.walk w root ks = some c) :
    t.look w root bytes ks = (t c).map (Node.object (bytes c)) := by
  rw [Tree.look, hw, Option.bind_some]

/-- Paths that lead to the same object of the same kind. -/
theorem look_congr {t' : Tree ι κ}
    (hw : ∀ c, t'.walk w root ks = some c ↔ t.walk w root ks = some c)
    (hsame : ∀ c, t.walk w root ks = some c →
      (t' c).map (Node.object (bytes' c)) = (t c).map (Node.object (bytes c))) :
    t'.look w root bytes' ks = t.look w root bytes ks := by
  cases hk : t.walk w root ks with
  | none =>
    have hnone : t'.walk w root ks = none :=
      Option.eq_none_iff_forall_ne_some.mpr fun c hc => by simp [hk] at hw; simp [hw] at hc
    rw [Tree.look, Tree.look, hk, hnone]
    rfl
  | some c => rw [look_of_walk ((hw c).mpr hk), look_of_walk hk, hsame c hk]

/-- Other bytes of one file. -/
theorem look_update [DecidableEq ι] (h : Hierarchy w root t) (hks : Plain w ks)
    (hls : Plain w ls) (hl : t.walk w root ls = some c) (hc : t c = some .file) (bs : List β) :
    t.look w root (Function.update bytes c bs) ks =
      if ks = ls then some (.file bs) else t.look w root bytes ks := by
  split
  · subst ks
    rw [look_of_walk hl, hc, Function.update_self]
    rfl
  · rename_i hne
    refine look_congr (fun _ => Iff.rfl) fun x hx => ?_
    have hxc : x ≠ c := by
      rintro rfl
      exact hne (h.path_unique hks hls hx hl)
    rw [Function.update_of_ne hxc]

section Changes

variable [DecidableEq ι] {N : Node ι κ}

/-- The map without the object. -/
theorem look_erase (h : Hierarchy w root t) (hls : Plain w (ls ++ [k]))
    (hl : t.walk w root (ls ++ [k]) = some c) (hname : t.Names d k c) (hc : t c = some N)
    (hN : N.Bare) (hbytes : ∀ x ≠ c, bytes' x = bytes x) (hks : Plain w ks) :
    (t.erase d k c).look w root bytes' ks =
      if ks = ls ++ [k] then none else t.look w root bytes ks := by
  have hroot := (h.tree.child d k c hname).1
  have hiff := fun x => walk_erase (x := x) h hname hc hN hks hroot.symm
  split
  · subst ks
    have hnone : (t.erase d k c).walk w root (ls ++ [k]) = none := by
      refine Option.eq_none_iff_forall_ne_some.mpr fun x hx => ?_
      obtain ⟨hx, hxc⟩ := (hiff x).mp hx
      exact hxc (Option.some.inj (hx.symm.trans hl))
    rw [Tree.look, hnone]
    rfl
  · rename_i hne
    have hxc : ∀ x, t.walk w root ks = some x → x ≠ c := by
      rintro x hx rfl
      exact hne (h.path_unique hks hls hx hl)
    refine look_congr (fun x => (hiff x).trans ⟨fun hx => hx.1, fun hx => ⟨hx, hxc x hx⟩⟩)
      fun x hx => ?_
    rw [hbytes x (hxc x hx)]
    cases hnode : t x with
    | none => rw [erase_none hnode]
    | some M =>
      cases M with
      | file => rw [erase_file (hxc x hx) hnode]
      | dir p E =>
        rw [erase_dir (hxc x hx) hnode]
        rfl

/-- The map with the new object. -/
theorem look_insert (h : Hierarchy w root t) (hd : t.IsDir d) (hc : t c = none)
    (hfree : t.child w d k = none) (hu : N.Under d) (hN : N.Bare)
    (hls : Plain w (ls ++ [k])) (hl : t.walk w root ls = some d)
    (hbytes : ∀ x ≠ c, bytes' x = bytes x) (hks : Plain w ks) :
    (t.insert d k c N).look w root bytes' ks =
      if ks = ls ++ [k] then some (N.object (bytes' c)) else t.look w root bytes ks := by
  have hk := hls.last
  have h' := h.insert hd hc hk hfree hu hN
  have hfree' : ∀ y, ¬t.Names d k y := by
    intro y hy
    rw [(child_plain hk).mpr hy] at hfree
    cases hfree
  have hdc : d ≠ c := by
    rintro rfl
    obtain ⟨p, E, hd⟩ := hd
    rw [hc] at hd
    cases hd
  have hname : (t.insert d k c N).Names d k c := insert_names_self hd hdc
  have hl' : (t.insert d k c N).walk w root (ls ++ [k]) = some c :=
    (walk_concat hk).mpr ⟨d, walk_insert hd hc hk hfree hl, hname⟩
  split
  · subst ks
    rw [look_of_walk hl', insert_self]
    rfl
  · rename_i hne
    have herase : ((t.insert d k c N).erase d k c).look w root bytes ks =
        if ks = ls ++ [k] then none else (t.insert d k c N).look w root bytes' ks :=
      look_erase h' hls hl' hname insert_self hN (fun x hx => (hbytes x hx).symm) hks
    rw [erase_insert hc hfree', if_neg hne] at herase
    exact herase.symm

end Changes

/-- A directory has no entries if nothing stands under its path. -/
theorem look_below (h : Hierarchy w root t) {p : ι} {E : κ → Option ι}
    (hw : t.walk w root ks = some d) (hd : t d = some (.dir p E)) :
    (∀ k, E k = none) ↔ ∀ k, k ≠ w.self → k ≠ w.parent → t.look w root bytes (ks ++ [k]) = none := by
  constructor
  · intro hE k h1 h2
    have hnone : t.walk w root (ks ++ [k]) = none := by
      rw [walk_last, hw, Option.bind_some, child_dir hd, if_neg h1, if_neg h2, hE]
    rw [Tree.look, hnone]
    rfl
  · intro hlook k
    cases hE : E k with
    | none => rfl
    | some c =>
      have hname : t.Names d k c := ⟨p, E, hd, hE⟩
      have hk := h.proper d k c hname
      have hc := (walk_concat hk).mpr ⟨d, hw, hname⟩
      have := hlook k hk.1 hk.2
      rw [look_of_walk hc, Option.map_eq_none_iff] at this
      exact absurd this (h.tree.walk_some hc)

end Paths

end PathTree
