import XianweiOS.FsSearch

/-! `wash_path` of `shell/buildin_cmd.c`, which rewrites a path in place before the kernel gets to
see it, against the normal form of its components. Both buffers have their size: a string that
does not fit stops the machine. -/
namespace ShellPath

open ByteStore HaltingProgram FsVolume FsDirectory FsPath FsOpenFiles FsSyscalls FsReferenceCounts
  PathTree FsTree FsSearch
open MemoryPages (smallMachine)
open MemoryExhaustion (exhausted exhausted_halts)

/-- The place of the last `ch`. -/
def strrchrLoop (ch : Byte) : List Byte → ℕ → Option ℕ → Option ℕ
  | [], _, lastChar => lastChar
  | c :: string, k, lastChar => strrchrLoop ch string (k + 1) (if c = ch then some k else lastChar)

def strrchr (string : List Byte) (ch : Byte) : Option ℕ := strrchrLoop ch string 0 none

/-- `..`: the last component is cut off. -/
def washUp (newAbsPath : List Byte) : Option (List Byte) := do
  let slashPtr ← strrchr newAbsPath slash
  if slashPtr ≠ 0 then return newAbsPath.take slashPtr
  else return newAbsPath.take (slashPtr + 1)

def washName (newAbsPath name : List Byte) : Option (List Byte) :=
  if dotdot = name then washUp newAbsPath
  else if dot ≠ name then
    some ((if newAbsPath ≠ rootPath then newAbsPath ++ rootPath else newAbsPath) ++ name)
  else some newAbsPath

def washLoop (name : List Byte) (subPath : Option (List Byte)) (newAbsPath : List Byte) :
    Option (List Byte) :=
  if name = [] then some newAbsPath
  else do
    assert (name.length < 16)
    let newAbsPath ← washName newAbsPath name
    assert (newAbsPath.length < maxPathLen)
    assert ((nextName subPath).1.length ≤ 16)
    washLoop (nextName subPath).1 (nextName subPath).2 newAbsPath
  termination_by pathLeft name subPath
  decreasing_by exact nextName_left ‹_›

def washPath (oldAbsPath : List Byte) : Option (List Byte) := do
  assert (oldAbsPath.head? = some slash)
  assert ((pathParse oldAbsPath).1.length ≤ 16)
  if (pathParse oldAbsPath).1 = [] then return rootPath
  else washLoop (pathParse oldAbsPath).1 (pathParse oldAbsPath).2 rootPath

/-- The path with these components and no slash too many. -/
def absPath (names : List (List Byte)) : List Byte :=
  if names = [] then rootPath else joinPath names

theorem strrchrLoop_append {ch : Byte} {c : List Byte} (hc : ch ∉ c) (pre : List Byte) :
    ∀ (k : ℕ) (last : Option ℕ), strrchrLoop ch (pre ++ ch :: c) k last = some (k + pre.length) := by
  have hrest : ∀ (k : ℕ) (last : Option ℕ), strrchrLoop ch c k last = last := by
    induction c with
    | nil => exact fun _ _ => rfl
    | cons b c ih =>
      intro k last
      have hb : b ≠ ch := fun he => hc (by simp [he])
      rw [strrchrLoop, if_neg hb, ih fun h => hc (List.mem_cons_of_mem _ h)]
  induction pre with
  | nil =>
    intro k last
    rw [List.nil_append, strrchrLoop, if_pos rfl, hrest]
    rfl
  | cons b pre ih =>
    intro k last
    rw [List.cons_append, strrchrLoop, ih, List.length_cons]
    congr 1
    omega

theorem strrchr_append {ch : Byte} {c : List Byte} (hc : ch ∉ c) (pre : List Byte) :
    strrchr (pre ++ ch :: c) ch = some pre.length := by
  rw [strrchr, strrchrLoop_append hc, Nat.zero_add]

theorem absPath_append (names : List (List Byte)) (c : List Byte) :
    absPath (names ++ [c]) = joinPath names ++ slash :: c := by
  rw [absPath, if_neg (by simp), joinPath_append]

theorem joinPath_ne_root {names : List (List Byte)} (h : ∀ c ∈ names, c ≠ []) :
    joinPath names ≠ rootPath := by
  cases names with
  | nil => simp [joinPath, rootPath]
  | cons c names =>
    obtain ⟨b, c, rfl⟩ := List.exists_cons_of_ne_nil (h c (by simp))
    simp [joinPath, rootPath]

/-- What one component does to the path that has been written. -/
theorem washName_eq {st : List (List Byte)} (hst : ∀ c ∈ st, c ≠ [] ∧ slash ∉ c)
    (name : List Byte) : washName (absPath st) name = some (absPath (push dots st name)) := by
  have hdots : dotdot ≠ dots.self := by decide
  rw [washName, push]
  by_cases hup : dotdot = name
  · subst name
    rw [if_pos rfl, if_neg hdots, if_pos (show dotdot = dots.parent from rfl)]
    rcases List.eq_nil_or_concat st with rfl | ⟨st, c, rfl⟩
    · rfl
    · rw [List.concat_eq_append] at hst ⊢
      rw [List.dropLast_concat, absPath_append, washUp,
        strrchr_append (hst c (by simp)).2, Option.bind_eq_bind, Option.bind_some]
      by_cases hnil : st = []
      · subst st
        rfl
      · have hpos : (joinPath st).length ≠ 0 := by
          obtain ⟨b, st, rfl⟩ := List.exists_cons_of_ne_nil hnil
          simp [joinPath]
        rw [if_pos hpos, List.take_left, absPath, if_neg hnil]
        rfl
  rw [if_neg hup]
  by_cases hself : dot = name
  · subst name
    rw [if_neg (by simp), if_pos (show dot = dots.self from rfl)]
  · have h1 : name ≠ dots.self := fun he => hself he.symm
    have h2 : name ≠ dots.parent := fun he => hup he.symm
    rw [if_pos hself, if_neg h1, if_neg h2, absPath_append]
    by_cases hnil : st = []
    · subst st
      rfl
    · have hroot : absPath st ≠ rootPath := by
        rw [absPath, if_neg hnil]
        exact joinPath_ne_root fun c hc => (hst c hc).1
      rw [if_pos hroot, absPath, if_neg hnil, List.append_assoc]
      rfl

/-- The normal form of a path needs no more room. -/
theorem joinPath_normalise_length (names : List (List Byte)) :
    (joinPath (normalise dots names)).length ≤ (joinPath names).length := by
  induction names using List.reverseRecOn with
  | nil => exact le_rfl
  | append_singleton names c ih =>
    have hdrop : ∀ l : List (List Byte), (joinPath l.dropLast).length ≤ (joinPath l).length := by
      intro l
      rcases List.eq_nil_or_concat l with rfl | ⟨l, b, rfl⟩
      · exact le_rfl
      · rw [List.concat_eq_append, List.dropLast_concat, joinPath_append]
        simp
    rw [normalise_append, joinPath_append, push, List.length_append]
    split
    · omega
    split
    · have := hdrop (normalise dots names)
      omega
    · rw [joinPath_append, List.length_append]
      omega

theorem absPath_short {names : List (List Byte)} (h : (joinPath names).length < maxPathLen) :
    (absPath (normalise dots names)).length < maxPathLen := by
  rw [absPath]
  split
  · decide
  · exact (joinPath_normalise_length names).trans_lt h

/-- The loop of `wash_path` behind the components `pre`. -/
theorem washLoop_eq (name : List Byte) (subPath : Option (List Byte)) :
    ∀ pre : List (List Byte), slash ∉ name → (∀ c ∈ pre, c ≠ [] ∧ slash ∉ c) →
    (∀ c ∈ namesFrom name subPath, c.length ≤ 15) →
    (joinPath (pre ++ namesFrom name subPath)).length < maxPathLen →
    washLoop name subPath (absPath (normalise dots pre)) =
      some (absPath (normalise dots (pre ++ namesFrom name subPath))) := by
  induction name, subPath using namesFrom.induct with
  | case1 subPath =>
    intro pre _ _ _ _
    rw [washLoop, if_pos rfl, namesFrom, if_pos rfl, List.append_nil]
  | case2 name subPath hne ih =>
    intro pre hs hpre hcomp hlen
    rw [namesFrom, if_neg hne] at hcomp hlen ⊢
    have hname := hcomp name (by simp)
    have hnext : (nextName subPath).1.length ≤ 16 := by
      by_cases hnil : (nextName subPath).1 = []
      · simp [hnil]
      · have := hcomp (nextName subPath).1 (by
          rw [namesFrom, if_neg hnil]
          simp)
        omega
    have hnexts : slash ∉ (nextName subPath).1 := by
      cases subPath with
      | none => simp [nextName]
      | some q => exact pathParse_name
    have hsplit : ∀ l : List (List Byte), pre ++ name :: l = pre ++ [name] ++ l := by simp
    rw [hsplit] at hlen ⊢
    have hroom : (absPath (push dots (normalise dots pre) name)).length < maxPathLen := by
      rw [← normalise_append]
      refine absPath_short (lt_of_le_of_lt ?_ hlen)
      simp only [joinPath, List.flatMap_append, List.length_append]
      omega
    have hst : ∀ c ∈ normalise dots pre, c ≠ [] ∧ slash ∉ c :=
      fun c hc => hpre c (normalise_subset pre c hc)
    rw [washLoop, if_neg hne]
    simp only [assert_pos (show name.length < 16 by omega), washName_eq hst, assert_pos hroom,
      assert_pos hnext, Option.bind_eq_bind, Option.bind_some]
    rw [← normalise_append]
    refine ih _ hnexts (fun c hc => ?_) (fun c hc => hcomp c (List.mem_cons_of_mem _ hc)) hlen
    rcases List.mem_append.mp hc with hc | hc
    · exact hpre c hc
    · obtain rfl := List.mem_singleton.mp hc
      exact ⟨hne, hs⟩

/-- `wash_path` writes the normal form of the components. -/
theorem washPath_eq {path : List Byte} (habs : path.head? = some slash)
    (hlen : path.length < maxPathLen) (hcomp : ∀ c ∈ components path, c.length ≤ 15) :
    washPath path = some (absPath (normalise dots (components path))) := by
  have hroom := (joinPath_components_length habs).trans_lt hlen
  rw [components] at hcomp hroom ⊢
  rw [washPath]
  simp only [assert_pos habs, Option.bind_eq_bind, Option.bind_some]
  by_cases hname : (pathParse path).1 = []
  · rw [assert_pos (by simp [hname]), Option.bind_some, if_pos hname, namesFrom, if_pos hname]
    rfl
  · have := hcomp (pathParse path).1 (by
      rw [namesFrom, if_neg hname]
      simp)
    rw [assert_pos (by omega), Option.bind_some, if_neg hname]
    exact washLoop_eq _ _ [] pathParse_name (by simp) hcomp hroom

theorem components_absPath {names : List (List Byte)} (h : ∀ c ∈ names, c ≠ [] ∧ slash ∉ c) :
    components (absPath names) = names := by
  rw [absPath]
  split
  · rename_i hnil
    rw [hnil]
    exact (components_slash []).trans components_nil
  · exact components_joinPath h

/-- A washed path that is not `/` may be asked for. -/
theorem washed_ok {path : List Byte} (hp : PathOk path)
    (hne : normalise dots (components path) ≠ []) :
    PathOk (absPath (normalise dots (components path))) := by
  have hvalid : ∀ c ∈ normalise dots (components path), c ≠ [] ∧ slash ∉ c :=
    fun c hc => components_valid c (normalise_subset _ c hc)
  have hnames := components_absPath hvalid
  refine ⟨?_, fun hz => ?_, ?_, by rwa [hnames], fun c hc => ?_⟩
  · obtain ⟨c, l, hl⟩ := List.exists_cons_of_ne_nil hne
    rw [absPath, if_neg hne, hl]
    rfl
  · rw [absPath, if_neg hne, joinPath] at hz
    obtain ⟨c, hc, hz⟩ := List.mem_flatMap.mp hz
    rcases List.mem_cons.mp hz with hz | hz
    · exact absurd hz (by decide)
    · exact hp.string (components_mem c (normalise_subset _ c hc) 0 hz)
  · exact absPath_short ((joinPath_components_length hp.absolute).trans_lt hp.short)
  · rw [hnames] at hc
    exact hp.names c (normalise_subset _ c hc)

/-- What `search_file` answers in a tree, in every state that serves it. -/
theorem search_answer {part : Partition} {t : FileTree} {s : Kernel part} (h : Serves s t)
    (hm : Plentiful s) (junk : Junk) {path : List Byte} (hp : PathOk path)
    (hfile : t.NoFileBefore dots 0 (components path)) :
    ∃ record s', searchFile junk path zeroRecord s =
      some (t.walk dots 0 (components path), record, s') ∧
      record.fileType = (t.walk dots 0 (components path)).elim .unknown (typeOf t) := by
  obtain ⟨r, record, s', hrun, -, rfl, hdots, hans⟩ := search_file_walks h hm junk hp hfile
  refine ⟨record, s', hrun, ?_⟩
  by_cases hd : path = rootDotPath ∨ path = rootDotdotPath
  · obtain ⟨E, hE⟩ := h.disk.tree.top
    rw [hdots hd, walk_rootDots h.disk.tree hd]
    simp [typeOf, hE]
  · obtain ⟨pre, k, post, m, -, hstop⟩ := hans hd
    exact hstop.type

/-- `wash_path` and `search_file` agree on paths: the washed path is the normal form of the
components, is washed already, and leads behind directories to the same inode. -/
theorem wash_path_agrees {path : List Byte} (hp : PathOk path) :
    ∃ names, names = normalise dots (components path) ∧
      (∀ c ∈ names, c ≠ [] ∧ c ≠ dot ∧ c ≠ dotdot ∧ slash ∉ c) ∧
      washPath path = some (absPath names) ∧ washPath (absPath names) = some (absPath names) ∧
      ∀ {part : Partition} (t : FileTree) (s s' : Kernel part) (junk junk' : Junk), Serves s t →
        Plentiful s → Serves s' t → Plentiful s' → t.DirsBefore dots 0 (components path) →
        ∃ r record record' u u', searchFile junk path zeroRecord s = some (r, record, u) ∧
          searchFile junk' (absPath names) zeroRecord s' = some (r, record', u') ∧
          record.fileType = record'.fileType := by
  have hvalid : ∀ c ∈ normalise dots (components path), c ≠ [] ∧ slash ∉ c :=
    fun c hc => components_valid c (normalise_subset _ c hc)
  have hplain := normalise_plain (w := dots) (components path)
  have hnames := components_absPath hvalid
  refine ⟨_, rfl, fun c hc => ⟨(hvalid c hc).1, (hplain c hc).1, (hplain c hc).2, (hvalid c hc).2⟩,
    washPath_eq hp.absolute hp.short hp.names, ?_, ?_⟩
  · by_cases hnil : normalise dots (components path) = []
    · rw [hnil]
      decide
    · have hq := washed_ok hp hnil
      rw [washPath_eq hq.absolute hq.short hq.names, hnames, normalise_of_plain hplain]
  · intro part t s s' junk junk' hs hm hs' hm' hdirs
    obtain ⟨hwalk, hbefore⟩ := walk_normalise hs.disk.tree (by decide) hdirs
    obtain ⟨record, u, hrun, htype⟩ := search_answer hs hm junk hp hdirs.noFileBefore
    by_cases hnil : normalise dots (components path) = []
    · rw [hnil] at hwalk ⊢
      obtain ⟨E, hE⟩ := hs.disk.tree.top
      rw [← hwalk] at hrun htype
      refine ⟨some 0, record, ⟨[], some .root, .directory⟩, u, s', hrun, if_pos (.inl rfl), ?_⟩
      rw [htype]
      simp [Tree.walk, typeOf, hE]
    · obtain ⟨record', u', hrun', htype'⟩ := search_answer hs' hm' junk' (washed_ok hp hnil) (by
        rw [hnames]
        exact hbefore.noFileBefore)
      rw [hnames, hwalk] at hrun' htype'
      exact ⟨_, record, record', u, u', hrun, hrun', htype.trans htype'.symm⟩

theorem nested_dirsBefore {names : List (List Byte)} (h : nestedTree.walk dots 0 names ≠ none) :
    nestedTree.DirsBefore dots 0 names := by
  rintro pre k post rfl
  rw [walk_append] at h
  obtain ⟨n, hn⟩ : ∃ n, nestedTree.walk dots 0 pre = some n := by
    cases hw : nestedTree.walk dots 0 pre with
    | none => exact absurd (by rw [hw]; rfl) h
    | some n => exact ⟨n, rfl⟩
  exact ⟨n, hn, nested_walk hn⟩

/-- `/d/../d` is washed to `/d`. -/
theorem wash_path_agrees_nested : ∃ s : Kernel smallPartition, Serves s nestedTree ∧
    washPath nestedPath = some (slash :: nestedName) ∧
    ∃ r record record' u u', searchFile ⟨[], 0, 0, 0⟩ nestedPath zeroRecord s = some (r, record, u) ∧
      searchFile ⟨[], 0, 0, 0⟩ (slash :: nestedName) zeroRecord s = some (r, record', u') ∧
      record.fileType = record'.fileType := by
  obtain ⟨s, hs, hmem⟩ := openRootDir_mounted nestedVolume (m := fun _ => true) rfl rfl
  have h := booted_serves (openRootDir_some hs) nested_onDisk
  have hm : Plentiful s := fun k => by rw [hmem]
  obtain ⟨names, hnames, -, hwash, -, hagree⟩ := wash_path_agrees nestedPath_ok.1
  rw [nestedPath_ok.2] at hnames
  obtain rfl : names = [nestedName] := hnames.trans (by decide)
  refine ⟨s, h, hwash, hagree nestedTree s s ⟨[], 0, 0, 0⟩ ⟨[], 0, 0, 0⟩ h hm h hm ?_⟩
  rw [nestedPath_ok.2]
  exact nested_dirsBefore (by decide)

/-- On a machine without a page that is free the search for `/d/..` does not return; that for `/`, to
which it is washed, needs none. -/
theorem wash_path_out_of_memory :
    (∀ c size, 0 < size → size ≤ 1024 → MemoryHeap.sysMalloc smallMachine exhausted c size = none) ∧
    ∃ s : Kernel smallPartition, Serves s nestedTree ∧ ∃ path, PathOk path ∧
      nestedTree.DirsBefore dots 0 (components path) ∧ washPath path = some rootPath ∧
      serving 0 (fun r => r.2.2) (searchFile ⟨[], 0, 0, 0⟩ path zeroRecord) s = none ∧
      ∃ record u, serving 0 (fun r => r.2.2) (searchFile ⟨[], 0, 0, 0⟩ rootPath zeroRecord) s =
        some (some 0, record, u) := by
  refine ⟨fun c size h0 h1 => exhausted_halts h0 h1, ?_⟩
  have hrun : ((openRootDir (mounted nestedVolume fun _ => true)).map fun s =>
      (serving 0 (fun r => r.2.2) (searchFile ⟨[], 0, 0, 0⟩
        (slash :: (nestedName ++ slash :: dotdot)) zeroRecord) s).isNone) = some true := by
    decide +kernel
  obtain ⟨s, hs, hhalt⟩ := Option.map_eq_some_iff.mp hrun
  have hc : components (slash :: (nestedName ++ slash :: dotdot)) = [nestedName, dotdot] := by
    rw [components_slash, components_name (by decide) (by decide),
      components_last (by decide) (by decide)]
  have hp : PathOk (slash :: (nestedName ++ slash :: dotdot)) := by
    refine ⟨rfl, by decide, by decide, by rw [hc]; simp, ?_⟩
    rw [hc]
    decide
  refine ⟨s, booted_serves (openRootDir_some hs) nested_onDisk, _, hp, ?_, ?_,
    Option.isNone_iff_eq_none.mp hhalt, _, _, rfl⟩
  · rw [hc]
    exact nested_dirsBefore (by decide)
  · rw [washPath_eq hp.absolute hp.short hp.names, hc]
    decide

end ShellPath
