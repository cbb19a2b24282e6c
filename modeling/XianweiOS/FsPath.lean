import XianweiOS.FsDirectory
import Mathlib.Data.List.Induction
import Mathlib.Data.List.TakeWhile

/-! Path names (`path_parse` and `path_depth_cnt` of `fs/fs.c`). The `name` buffer of a caller
has 16 bytes: a component of 16 characters fills it without a terminating zero, a longer one
runs over it and stops the machine. -/
namespace FsPath

open ByteStore HaltingProgram FsDirectory

def slash : Byte := 0x2f

/-- The next component, and the path behind it unless that is empty. -/
def pathParse (pathname : List Byte) : List Byte × Option (List Byte) :=
  let pathname := pathname.dropWhile (· == slash)
  let rest := pathname.dropWhile (· != slash)
  (pathname.takeWhile (· != slash), if rest = [] then none else some rest)

/-- What the loops over a path do between two components: clear the name, and parse on
unless the path has ended. -/
def nextName : Option (List Byte) → List Byte × Option (List Byte)
  | none => ([], none)
  | some p => pathParse p

/-- The bytes of the path a loop has still before it. -/
def pathLeft (name : List Byte) (p : Option (List Byte)) : ℕ :=
  name.length + p.elim 0 fun q => q.length + 1

private theorem length_dropWhile_le (f : Byte → Bool) (l : List Byte) :
    (l.dropWhile f).length ≤ l.length := by
  have := congrArg List.length (List.takeWhile_append_dropWhile (p := f) (l := l))
  rw [List.length_append] at this
  omega

theorem pathParse_length (q : List Byte) :
    (pathParse q).1.length + (pathParse q).2.elim 0 (fun r => r.length + 1) ≤ q.length + 1 := by
  have h1 := length_dropWhile_le (· == slash) q
  have h2 := congrArg List.length (List.takeWhile_append_dropWhile (p := (· != slash))
    (l := q.dropWhile (· == slash)))
  rw [List.length_append] at h2
  simp only [pathParse]
  split
  · simp only [Option.elim_none]
    omega
  · simp only [Option.elim_some]
    omega

theorem nextName_left {name : List Byte} {p : Option (List Byte)} (h : name ≠ []) :
    pathLeft (nextName p).1 (nextName p).2 < pathLeft name p := by
  have hpos := List.length_pos_iff.mpr h
  cases p with
  | none =>
    simp only [pathLeft, nextName, List.length_nil, Option.elim_none]
    omega
  | some q =>
    have := pathParse_length q
    simp only [pathLeft, nextName, Option.elim_some]
    omega

def depthLoop (name : List Byte) (p : Option (List Byte)) (depth : ℕ) : Option ℕ :=
  if name = [] then some depth
  else do
    assert (name.length ≤ 16)
    depthLoop (nextName p).1 (nextName p).2 (depth + 1)
  termination_by pathLeft name p
  decreasing_by exact nextName_left ‹_›

/-- `junk` is what the name buffer holds before anything is stored in it. -/
def pathDepthCnt (junk : Byte) (pathname : List Byte) : Option ℕ :=
  let (name, p) := pathParse pathname
  depthLoop (if name = [] ∧ junk ≠ 0 then [junk] else name) p 0

/-- The components of a path, in order. -/
def namesFrom (name : List Byte) (p : Option (List Byte)) : List (List Byte) :=
  if name = [] then [] else name :: namesFrom (nextName p).1 (nextName p).2
  termination_by pathLeft name p
  decreasing_by exact nextName_left ‹_›

def components (pathname : List Byte) : List (List Byte) :=
  namesFrom (pathParse pathname).1 (pathParse pathname).2

/-- What `strrchr(string, '/') + 1` points to, `none` when there is no slash. -/
def afterLastSlash : List Byte → Option (List Byte)
  | [] => none
  | c :: string =>
    match afterLastSlash string with
    | some last => some last
    | none => if c = slash then some string else none

/-- `searched_path` after the components `names` were appended to it. -/
def joinPath (names : List (List Byte)) : List Byte := names.flatMap fun name => slash :: name

theorem depthLoop_eq (name : List Byte) (p : Option (List Byte)) (depth : ℕ)
    (h : ∀ c ∈ namesFrom name p, c.length ≤ 16) :
    depthLoop name p depth = some (depth + (namesFrom name p).length) := by
  induction name, p, depth using depthLoop.induct with
  | case1 p depth => rw [depthLoop, if_pos rfl, namesFrom, if_pos rfl, List.length_nil, Nat.add_zero]
  | case2 name p depth hne ih =>
    rw [namesFrom, if_neg hne] at h ⊢
    rw [depthLoop, if_neg hne, assert_pos (h name (by simp)), Option.bind_eq_bind, Option.bind_some,
      ih fun c hc => h c (by simp [hc]), List.length_cons]
    congr 1
    omega

/-- The depth of a path whose components fit into the name buffer. -/
theorem pathDepthCnt_eq {junk : Byte} {pathname : List Byte} (hne : components pathname ≠ [])
    (h : ∀ c ∈ components pathname, c.length ≤ 16) :
    pathDepthCnt junk pathname = some (components pathname).length := by
  have hname : (pathParse pathname).1 ≠ [] := by
    intro hz
    apply hne
    rw [components, namesFrom, if_pos hz]
  rw [pathDepthCnt, components]
  dsimp only
  rw [if_neg fun hc => hname hc.1, depthLoop_eq _ _ _ h, Nat.zero_add]

/-- No component is empty or holds a slash. -/
theorem pathParse_name {q : List Byte} : slash ∉ (pathParse q).1 := by
  intro h
  have := List.mem_takeWhile_imp h
  simp at this

theorem namesFrom_valid (name : List Byte) (p : Option (List Byte)) (hn : slash ∉ name) :
    ∀ c ∈ namesFrom name p, c ≠ [] ∧ slash ∉ c := by
  induction name, p using namesFrom.induct with
  | case1 p =>
    intro c hc
    rw [namesFrom, if_pos rfl] at hc
    cases hc
  | case2 name p hne ih =>
    intro c hc
    rw [namesFrom, if_neg hne, List.mem_cons] at hc
    rcases hc with rfl | hc
    · exact ⟨hne, hn⟩
    · refine ih ?_ c hc
      cases p with
      | none => simp [nextName]
      | some q => exact pathParse_name

theorem components_valid {pathname : List Byte} : ∀ c ∈ components pathname, c ≠ [] ∧ slash ∉ c :=
  namesFrom_valid _ _ pathParse_name

section Split

variable {name q : List Byte}

private theorem takeWhile_name (h : slash ∉ name) (hq : q = [] ∨ ∃ r, q = slash :: r) :
    (name ++ q).takeWhile (· != slash) = name ∧ (name ++ q).dropWhile (· != slash) = q := by
  have hall : ∀ c ∈ name, (c != slash) = true := fun c hc => by
    simp only [bne_iff_ne]
    rintro rfl
    exact h hc
  rw [List.takeWhile_append_of_pos hall, List.dropWhile_append_of_pos hall]
  rcases hq with rfl | ⟨r, rfl⟩
  · simp
  · simp

private theorem dropSlashes_name (h : slash ∉ name) (hne : name ≠ []) :
    (name ++ q).dropWhile (· == slash) = name ++ q := by
  cases name with
  | nil => exact absurd rfl hne
  | cons c name =>
    have hc : c ≠ slash := fun he => h (by simp [he])
    simp [hc]

theorem components_nil : components [] = [] := by
  rw [components, namesFrom]
  rfl

theorem components_slash (q : List Byte) : components (slash :: q) = components q := by
  have : pathParse (slash :: q) = pathParse q := by
    simp only [pathParse, List.dropWhile_cons, beq_self_eq_true, ↓reduceIte]
  rw [components, components, this]

theorem components_last (h : slash ∉ name) (hne : name ≠ []) : components name = [name] := by
  obtain ⟨h1, h2⟩ := takeWhile_name (q := []) h (Or.inl rfl)
  have h3 := dropSlashes_name (q := []) h hne
  rw [List.append_nil] at h1 h2 h3
  have : pathParse name = (name, none) := by
    simp only [pathParse, h1, h2, h3, ↓reduceIte]
  rw [components, this, namesFrom, if_neg hne, namesFrom]
  rfl

theorem components_name (h : slash ∉ name) (hne : name ≠ []) :
    components (name ++ slash :: q) = name :: components q := by
  obtain ⟨h1, h2⟩ := takeWhile_name (q := slash :: q) h (Or.inr ⟨q, rfl⟩)
  have : pathParse (name ++ slash :: q) = (name, some (slash :: q)) := by
    simp only [pathParse, h1, h2, dropSlashes_name h hne, reduceCtorEq, ↓reduceIte]
  rw [components, this, namesFrom, if_neg hne, nextName, ← components_slash q]
  rfl

end Split

/-- The shapes of a path. -/
theorem path_cases (l : List Byte) : l = [] ∨ (∃ q, l = slash :: q) ∨
    ∃ name q, name ≠ [] ∧ slash ∉ name ∧ l = name ++ q ∧ (q = [] ∨ ∃ r, q = slash :: r) := by
  induction l with
  | nil => exact Or.inl rfl
  | cons c l ih =>
    by_cases hc : c = slash
    · subst c
      exact Or.inr (Or.inl ⟨l, rfl⟩)
    refine Or.inr (Or.inr ?_)
    rcases ih with rfl | ⟨q, rfl⟩ | ⟨name, q, -, hs, rfl, hq⟩
    · exact ⟨[c], [], by simp, by simpa using Ne.symm hc, by simp, Or.inl rfl⟩
    · exact ⟨[c], slash :: q, by simp, by simpa using Ne.symm hc, by simp, Or.inr ⟨q, rfl⟩⟩
    · exact ⟨c :: name, q, by simp, by simp [hs, Ne.symm hc], by simp, hq⟩

/-- A last component stands behind the others. -/
theorem components_append {c : List Byte} (hc : slash ∉ c) (hne : c ≠ []) :
    ∀ pre, components (pre ++ slash :: c) = components pre ++ [c] := by
  intro pre
  induction hn : pre.length using Nat.strongRecOn generalizing pre with
  | _ n ih =>
    subst hn
    rcases path_cases pre with rfl | ⟨q, rfl⟩ | ⟨name, q, hn, hs, rfl, rfl | ⟨r, rfl⟩⟩
    · rw [List.nil_append, components_slash, components_last hc hne, components_nil]
      rfl
    · rw [List.cons_append, components_slash, components_slash]
      exact ih q.length (by simp) q rfl
    · rw [List.append_nil, components_name hs hn, components_last hc hne, components_last hs hn]
      rfl
    · rw [List.append_assoc, List.cons_append, components_name hs hn, components_name hs hn,
        List.cons_append]
      rw [ih r.length (by simp; omega) r rfl]

theorem components_mem {pathname : List Byte} :
    ∀ c ∈ components pathname, ∀ b ∈ c, b ∈ pathname := by
  induction hn : pathname.length using Nat.strongRecOn generalizing pathname with
  | _ n ih =>
    subst hn
    rcases path_cases pathname with rfl | ⟨q, rfl⟩ | ⟨name, q, hn, hs, rfl, rfl | ⟨r, rfl⟩⟩
    · intro c hc
      rw [components_nil] at hc
      cases hc
    · intro c hc b hb
      rw [components_slash] at hc
      exact List.mem_cons_of_mem _ (ih q.length (by simp) rfl c hc b hb)
    · intro c hc b hb
      rw [List.append_nil, components_last hs hn, List.mem_singleton] at hc
      subst hc
      simpa using hb
    · intro c hc b hb
      rw [components_name hs hn, List.mem_cons] at hc
      rcases hc with rfl | hc
      · exact List.mem_append_left _ hb
      · have := ih r.length (by simp; omega) rfl c hc b hb
        exact List.mem_append_right _ (List.mem_cons_of_mem _ this)

theorem afterLastSlash_none {c : List Byte} (hc : slash ∉ c) : afterLastSlash c = none := by
  induction c with
  | nil => rfl
  | cons b c ih =>
    have hb : b ≠ slash := fun he => hc (by simp [he])
    rw [afterLastSlash, ih (fun h => hc (List.mem_cons_of_mem _ h)), if_neg hb]

theorem afterLastSlash_append {c : List Byte} (hc : slash ∉ c) (pre : List Byte) :
    afterLastSlash (pre ++ slash :: c) = some c := by
  induction pre with
  | nil => rw [List.nil_append, afterLastSlash, afterLastSlash_none hc, if_pos rfl]
  | cons b pre ih => rw [List.cons_append, afterLastSlash, ih]

theorem slash_split {l : List Byte} (h : slash ∈ l) :
    ∃ pre c, l = pre ++ slash :: c ∧ slash ∉ c := by
  induction l with
  | nil => cases h
  | cons b l ih =>
    by_cases hl : slash ∈ l
    · obtain ⟨pre, c, rfl, hc⟩ := ih hl
      exact ⟨b :: pre, c, rfl, hc⟩
    · rcases List.mem_cons.mp h with rfl | h
      · exact ⟨[], l, rfl, hl⟩
      · exact absurd h hl

/-- A path that does not end in a slash ends in its last component. -/
theorem afterLastSlash_last {pathname : List Byte} (h : slash ∈ pathname)
    (hl : pathname.getLast? ≠ some slash) :
    ∃ pre c, components pathname = pre ++ [c] ∧ afterLastSlash pathname = some c := by
  obtain ⟨pre, c, rfl, hc⟩ := slash_split h
  have hne : c ≠ [] := by
    rintro rfl
    exact hl (by simp)
  exact ⟨components pre, c, components_append hc hne pre, afterLastSlash_append hc pre⟩

theorem joinPath_append (l : List (List Byte)) (c : List Byte) :
    joinPath (l ++ [c]) = joinPath l ++ slash :: c := by
  simp [joinPath]

theorem components_joinPath {l : List (List Byte)} (h : ∀ c ∈ l, c ≠ [] ∧ slash ∉ c) :
    components (joinPath l) = l := by
  induction l using List.reverseRecOn with
  | nil => exact components_nil
  | append_singleton l c ih =>
    obtain ⟨hne, hc⟩ := h c (by simp)
    rw [joinPath_append, components_append hc hne, ih fun x hx => h x (by simp [hx])]

/-- Joined by single slashes, the components need no more room than the path. -/
theorem joinPath_components_length {pathname : List Byte} (h : pathname.head? = some slash) :
    (joinPath (components pathname)).length ≤ pathname.length := by
  have hany : ∀ q, (joinPath (components q)).length ≤ q.length + 1 := by
    intro q
    induction hn : q.length using Nat.strongRecOn generalizing q with
    | _ n ih =>
      subst hn
      rcases path_cases q with rfl | ⟨q, rfl⟩ | ⟨name, q, hn, hs, rfl, rfl | ⟨r, rfl⟩⟩
      · rw [components_nil]
        exact Nat.zero_le _
      · rw [components_slash]
        exact (ih q.length (by simp) q rfl).trans (by simp)
      · rw [List.append_nil, components_last hs hn]
        simp [joinPath]
      · have := ih r.length (by simp; omega) r rfl
        rw [components_name hs hn]
        simp only [joinPath, List.flatMap_cons, List.length_append, List.length_cons] at this ⊢
        omega
  cases pathname with
  | nil => cases h
  | cons c q =>
    obtain rfl := Option.some.inj h
    rw [components_slash]
    exact hany q

end FsPath
