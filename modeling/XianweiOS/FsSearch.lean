import XianweiOS.FsTree
import XianweiOS.MemoryExhaustion

/-! `search_file` over a directory tree: it finds what the walk along the components finds. -/
namespace FsSearch

open ByteStore HaltingProgram KernelBitmap DeviceIde FsVolume FsInodeTable FsBlockMap FsOwnership
  FsDirectory FsDirectoryMap FsPath FsOpenFiles FsSyscalls FsReferenceCounts PathTree FsTree
open MemoryPages (smallMachine)
open MemoryExhaustion (exhausted exhausted_halts)

variable {part : Partition} {t : FileTree}

/-- The search has looked up `pre` and then, in directory `m`, the name `k`. -/
structure StopsAt (t : FileTree) (pre : List (List Byte)) (k : List Byte)
    (post : List (List Byte)) (m : ℕ) (r : Option ℕ) (record : PathSearchRecord)
    (s : Kernel part) : Prop where
  reached : t.walk dots 0 pre = some m
  result : r = t.child dots m k
  last : r = none ∨ post = []
  path : record.searchedPath = joinPath (pre ++ [k])
  type : record.fileType = r.elim .unknown (typeOf t)
  parent : OpenOn s record.parentDir m

/-- The inode number, the record and the state that the walk along `names` asks for. -/
def Answers (t : FileTree) (names : List (List Byte)) (r : Option ℕ) (record : PathSearchRecord)
    (s : Kernel part) : Prop :=
  ∃ pre k post m, names = pre ++ k :: post ∧ StopsAt t pre k post m r record s

theorem Answers.walk {names : List (List Byte)} {r : Option ℕ} {record : PathSearchRecord}
    {s : Kernel part} (h : Answers t names r record s) : r = t.walk dots 0 names := by
  obtain ⟨pre, k, post, m, rfl, h⟩ := h
  rw [walk_append, h.reached, Option.bind_some, Tree.walk, ← h.result]
  rcases h.last with rfl | rfl
  · rfl
  · cases r with
    | none => rfl
    | some n => rfl

theorem asInt_eq {n : ℕ} (h : n < 4096) : asInt n = some n := if_neg (by omega)

/-- The search has looked up `pre` and then, in directory `m`, the name `k`. It goes on behind
directories alone: a file stops it wherever it stands in the path. -/
structure LookedUp (t : FileTree) (pre : List (List Byte)) (k : List Byte)
    (post : List (List Byte)) (m : ℕ) (r : Option ℕ) (record : PathSearchRecord)
    (s : Kernel part) : Prop where
  dir : t.IsDir m
  reached : t.walk dots 0 pre = some m
  result : r = t.child dots m k
  last : r = none ∨ post = [] ∨ ∃ n, r = some n ∧ t n = some .file
  path : record.searchedPath = joinPath (pre ++ [k])
  type : record.fileType = r.elim .unknown (typeOf t)
  parent : OpenOn s record.parentDir m

theorem LookedUp.stopsAt {pre post : List (List Byte)} {k : List Byte} {m : ℕ} {r : Option ℕ}
    {record : PathSearchRecord} {s : Kernel part} (h : LookedUp t pre k post m r record s)
    (hfile : t.NoFileBefore dots 0 (pre ++ k :: post)) : StopsAt t pre k post m r record s := by
  refine ⟨h.reached, h.result, ?_, h.path, h.type, h.parent⟩
  rcases h.last with hr | hp | ⟨n, hr, hn⟩
  · exact .inl hr
  · exact .inr hp
  · -- a file is only looked up last
    cases post with
    | nil => exact .inr rfl
    | cons c post =>
      have hwalk : t.walk dots 0 (pre ++ [k]) = some n := by
        rw [walk_last, h.reached, Option.bind_some, ← h.result, hr]
      obtain ⟨p, E, hdir⟩ := hfile (pre ++ [k]) c post (by simp) n hwalk
      rw [hn] at hdir
      cases hdir

/-- The names that are looked up fit into the buffer with their end, and the one that is parsed
behind a file fits without. -/
def NamesFit (t : FileTree) (d : ℕ) (names : List (List Byte)) : Prop :=
  ∀ l c post, names = l ++ c :: post → ∀ n, t.walk dots d l = some n →
    c.length ≤ 16 ∧ (t.IsDir n → c.length ≤ 15) ∧ (0 : Byte) ∉ c

theorem NamesFit.next {d c : ℕ} {name : List Byte} {names : List (List Byte)}
    (h : NamesFit t d (name :: names)) (hc : t.child dots d name = some c) : NamesFit t c names := by
  rintro l k post rfl n hn
  refine h (name :: l) k post rfl n ?_
  rw [Tree.walk, hc, Option.bind_some, hn]

theorem namesFit_of_short {names : List (List Byte)}
    (h : ∀ c ∈ names, c.length ≤ 15 ∧ (0 : Byte) ∉ c) (d : ℕ) : NamesFit t d names := by
  rintro l c post rfl n -
  obtain ⟨h15, hz⟩ := h c (by simp)
  exact ⟨h15.trans (by omega), fun _ => h15, hz⟩

/-- The loop of `search_file` in directory `d`, behind the names `pre`. When no name is left, the
last one has led from `q` to `d`. -/
theorem searchLoop_stops (name : List Byte) (subPath : Option (List Byte)) :
    ∀ (pre : List (List Byte)) (parentDir : Option DirPtr) (q e d : ℕ) {record : PathSearchRecord}
      {s : Kernel part},
    Serves s t → Plentiful s → OpenOn s parentDir d → t.IsDir d → t.walk dots 0 pre = some d →
    record = ⟨joinPath pre, parentDir, .unknown⟩ → NamesFit t d (namesFrom name subPath) →
    (joinPath (pre ++ namesFrom name subPath)).length < maxPathLen →
    (name = [] → ∃ pre' k, pre = pre' ++ [k] ∧ t.walk dots 0 pre' = some q ∧
      t.child dots q k = some d ∧ e = d) →
    ∃ r record' s', searchLoop name subPath parentDir q e record s = some (r, record', s') ∧
      Plentiful s' ∧ Serves s' t ∧ ∃ pre' k post m,
      pre ++ namesFrom name subPath = pre' ++ k :: post ∧ LookedUp t pre' k post m r record' s' := by
  induction name, subPath using namesFrom.induct with
  | case1 subPath =>
    intro pre parentDir q e d record s h hm ho hd hpre hrec _ _ hend
    obtain ⟨pre', k, rfl, hq, hk, rfl⟩ := hend rfl
    obtain ⟨s₁, hcl, hm₁, h₁⟩ := dirClose_serves h hm ho
    obtain ⟨dir, s₂, hop, hm₂, h₂, ho₂⟩ := dirOpen_serves h₁ hm₁ (isDir_of_child hk)
    obtain ⟨p, E, hnode⟩ := hd
    subst record
    refine ⟨some e, ⟨joinPath (pre' ++ [k]), dir, .directory⟩, s₂, ?_, hm₂, h₂, pre', k, [], q, ?_,
      isDir_of_child hk, hq, hk.symm, .inr (.inl rfl), rfl, ?_, ho₂⟩
    · simp only [searchLoop, ↓reduceIte, searchEnd, hcl, hop, Option.bind_eq_bind,
        Option.bind_some, asInt_eq (h.disk.lt ⟨p, E, hnode⟩)]
      rfl
    · rw [namesFrom, if_pos rfl, List.append_nil]
    · simp [typeOf, hnode]
  | case2 name subPath hne ih =>
    intro pre parentDir q e d record s h hm ho hd hpre hrec hfit hlen _
    rw [namesFrom, if_neg hne] at hfit hlen ⊢
    obtain ⟨-, hname, hz⟩ := hfit [] name _ rfl d rfl
    have hname := hname hd
    have hroom : (joinPath pre ++ slash :: name).length < maxPathLen := by
      rw [← joinPath_append]
      refine lt_of_le_of_lt ?_ hlen
      simp [joinPath]
    have hm₁ : Plentiful (sysMalloc (sysMalloc s).2).2 := hm.malloc.malloc
    have h₁ : Serves (sysMalloc (sysMalloc s).2).2 t := h.malloc.malloc
    have ho₁ : OpenOn (sysMalloc (sysMalloc s).2).2 parentDir d := ho
    subst record
    rw [searchLoop, if_neg hne]
    simp only [assert_pos (show name.length < 16 by omega), assert_pos hroom,
      searchDirEntryIn_serves h hm ho hd hne hz, Option.bind_eq_bind, Option.bind_some]
    cases hchild : t.child dots d name with
    | none =>
      exact ⟨_, _, _, rfl, hm₁, h₁, pre, name, _, d, rfl, hd, hpre, hchild.symm, .inl rfl,
        (joinPath_append pre name).symm, rfl, ho₁⟩
    | some c =>
      obtain ⟨N, hN⟩ := h.disk.tree.child_some hchild
      have hc : c < 4096 := h.disk.numbers c (by simp [hN])
      have hwalk : t.walk dots 0 (pre ++ [name]) = some c := by
        rw [walk_last, hpre, Option.bind_some, hchild]
      have hfit' := hfit.next hchild
      have hnext : (nextName subPath).1.length ≤ 16 := by
        by_cases hnil : (nextName subPath).1 = []
        · simp [hnil]
        · exact (hfit' [] _ _ (by rw [namesFrom, if_neg hnil, List.nil_append]) c rfl).1
      simp only [Option.map_some, assert_pos hnext, Option.bind_some]
      have hcodes : FileType.regular.code ≠ FileType.directory.code := by decide
      cases N with
      | file =>
        have htype : typeOf t c = .regular := by simp [typeOf, hN]
        simp only [htype, hcodes, ↓reduceIte, asInt_eq hc]
        exact ⟨_, _, _, rfl, hm₁, h₁, pre, name, _, d, rfl, hd, hpre, hchild.symm,
          .inr (.inr ⟨c, rfl, hN⟩), (joinPath_append pre name).symm, htype.symm, ho₁⟩
      | dir p E =>
        have htype : typeOf t c = .directory := by simp [typeOf, hN]
        obtain ⟨a, i, ha, -, hi, hno⟩ := id ho₁
        obtain ⟨s₂, hcl, hm₂, h₂⟩ := dirClose_serves h₁ hm₁ ho₁
        obtain ⟨dir, s₃, hop, hm₃, h₃, ho₃⟩ := dirOpen_serves h₂ hm₂ ⟨p, E, hN⟩
        simp only [htype, ↓reduceIte, ha, hi, hcl, hop, Option.bind_some, hno]
        have hsplit : ∀ l : List (List Byte), pre ++ name :: l = pre ++ [name] ++ l := by simp
        rw [hsplit] at hlen ⊢
        exact ih _ _ _ _ _ h₃ hm₃ ho₃ ⟨p, E, hN⟩ hwalk (by rw [joinPath_append]) hfit' hlen
          fun _ => ⟨pre, name, rfl, hpre, hchild, rfl⟩

/-- With memory, a search that returns from the directory `m` has looked up a name that fits. -/
theorem searchLoop_short {pre : List (List Byte)} {k : List Byte} {m : ℕ} (hm : t.IsDir m)
    (name : List Byte) (subPath : Option (List Byte)) :
    ∀ {parentDir : Option DirPtr} {q e d : ℕ} {record record' : PathSearchRecord}
      {s s' : Kernel part} {r : Option ℕ},
    Serves s t → Plentiful s → OpenOn s parentDir d → t.IsDir d →
    namesFrom name subPath = pre ++ [k] → t.walk dots d pre = some m →
    searchLoop name subPath parentDir q e record s = some (r, record', s') → k.length ≤ 15 := by
  induction name, subPath using namesFrom.induct generalizing pre with
  | case1 subPath =>
    intro parentDir q e d record record' s s' r _ _ _ _ hsplit
    rw [namesFrom, if_pos rfl] at hsplit
    simp at hsplit
  | case2 name subPath hne ih =>
    intro parentDir q e d record record' s s' r h hp ho hd hsplit hw hrun
    rw [namesFrom, if_neg hne] at hsplit
    rw [searchLoop, if_neg hne] at hrun
    simp only [assert_bind] at hrun
    obtain ⟨hshort, -, hrun⟩ := hrun
    cases pre with
    | nil =>
      obtain ⟨rfl, -⟩ := List.cons.inj hsplit
      exact Nat.le_of_lt_succ hshort
    | cons k₀ pre =>
      obtain ⟨rfl, hrest⟩ := List.cons.inj hsplit
      rw [Tree.walk, Option.bind_eq_some_iff] at hw
      obtain ⟨c, hc, hw⟩ := hw
      -- what comes before the last name leads to directories
      have hdir : t.IsDir c := by
        cases pre with
        | nil =>
          obtain rfl := Option.some.inj hw
          exact hm
        | cons k₁ pre =>
          rw [Tree.walk, Option.bind_eq_some_iff] at hw
          obtain ⟨y, hy, -⟩ := hw
          exact isDir_of_child hy
      have htype : typeOf t c = .directory := by
        obtain ⟨p, E, hN⟩ := hdir
        simp [typeOf, hN]
      rw [bind_some_iff] at hrun
      obtain ⟨⟨dirE, s₁⟩, hsearch, hrun⟩ := hrun
      rw [searchDirEntryIn_serves h hp ho hd hne (child_valid h.disk hc).string, hc,
        Option.map_some, htype] at hsearch
      obtain ⟨rfl, rfl⟩ := Prod.mk.inj (Option.some.inj hsearch)
      have hp₁ : Plentiful (sysMalloc (sysMalloc s).2).2 := hp.malloc.malloc
      have ho₁ : OpenOn (sysMalloc (sysMalloc s).2).2 parentDir d := ho
      obtain ⟨s₂, hcl, hp₂, h₂⟩ := dirClose_serves h.malloc.malloc hp₁ ho₁
      obtain ⟨dir, s₃, hop, hp₃, h₃, ho₃⟩ := dirOpen_serves h₂ hp₂ hdir
      simp only [assert_bind, ↓reduceIte] at hrun
      obtain ⟨-, hrun⟩ := hrun
      simp only [bind_some_iff] at hrun
      obtain ⟨a, -, i, -, s₂', hcl', ⟨dir', s₃'⟩, hop', hrun⟩ := hrun
      obtain rfl := Option.some.inj (hcl.symm.trans hcl')
      obtain ⟨rfl, rfl⟩ := Prod.mk.inj (Option.some.inj (hop.symm.trans hop'))
      exact ih h₃ hp₃ ho₃ hdir hrest hw hrun

/-- The object that was found: the last of the names leads to it, or it is a file on the way. -/
structure Found (t : FileTree) (names : List (List Byte)) (m n : ℕ) (record : PathSearchRecord) :
    Prop where
  split : ∃ pre k post, names = pre ++ k :: post ∧ t.walk dots 0 pre = some m ∧
    t.child dots m k = some n ∧ ∀ c ∈ post.head?, t n = some .file ∧ c.length ≤ 16
  type : record.fileType = typeOf t n

/-- A property of the kernel that a lookup in the tree does not change. -/
structure LookupStable (t : FileTree) (J : Kernel part → Prop) : Prop where
  malloc : ∀ {s}, J s → J (sysMalloc s).2
  closed : ∀ {d s s'}, dirClose d s = some s' → J s → J s'
  opened : ∀ {n d s s'}, Serves s t → t.IsDir n → dirOpen n s = some (d, s') → J s → J s'

/-- With memory or without, a search that returns has a handle on a directory of the tree, and what
it has found is there. -/
theorem searchLoop_kept {J : Kernel part → Prop} (hJ : LookupStable t J) (name : List Byte)
    (subPath : Option (List Byte)) :
    ∀ {pre : List (List Byte)} {parentDir : Option DirPtr} {q e d : ℕ}
      {record record' : PathSearchRecord} {s s' : Kernel part} {r : Option ℕ},
    Serves s t → (parentDir = none ∨ OpenOn s parentDir d) → t.IsDir d →
    t.walk dots 0 pre = some d → record.parentDir = parentDir → (name ≠ [] ∨ t.IsDir q) →
    (∀ c ∈ namesFrom name subPath, (0 : Byte) ∉ c) →
    searchLoop name subPath parentDir q e record s = some (r, record', s') →
    Serves s' t ∧ (J s → J s') ∧ ∃ m, t.IsDir m ∧
      (record'.parentDir = none ∨ OpenOn s' record'.parentDir m) ∧
      ((name = [] → ∃ pre' k, pre = pre' ++ [k] ∧ t.walk dots 0 pre' = some q ∧
        t.child dots q k = some d ∧ e = d) →
        ∀ n, r = some n → Found t (pre ++ namesFrom name subPath) m n record') := by
  induction name, subPath using namesFrom.induct with
  | case1 subPath =>
    intro pre parentDir q e d record record' s s' r h hd hdir hpre hrec hq _ hrun
    rw [searchLoop, if_pos rfl] at hrun
    simp only [searchEnd, bind_some_iff, Option.pure_def, Option.some.injEq, Prod.mk.injEq] at hrun
    obtain ⟨s₁, hcl, ⟨d', s₂⟩, hop, rfl, rfl, rfl⟩ := hrun
    rw [hrec] at hcl
    rcases hd with rfl | hon
    · cases hcl
    have hq := hq.resolve_left fun hne => hne rfl
    obtain ⟨h₂, hon₂⟩ := dirOpen_kept (dirClose_kept h hon hcl) hq hop
    have hkept := dirClose_kept h hon hcl
    refine ⟨h₂, fun hs => hJ.opened hkept hq hop (hJ.closed hcl hs), q, hq, hon₂, fun hend n hn => ?_⟩
    obtain ⟨pre', k, rfl, hpre', hk, rfl⟩ := hend rfl
    obtain ⟨p, E, hnode⟩ := id hdir
    rw [asInt_eq (h.disk.lt hdir)] at hn
    obtain rfl := Option.some.inj hn
    refine ⟨⟨pre', k, [], ?_, hpre', hk, by simp⟩, ?_⟩
    · rw [namesFrom, if_pos rfl, List.append_nil]
    · simp [typeOf, hnode]
  | case2 name subPath hne ih =>
    intro pre parentDir q e d record record' s s' r h hd hdir hpre hrec _ hz hrun
    rw [namesFrom, if_neg hne] at hz ⊢
    rw [searchLoop, if_neg hne] at hrun
    simp only [assert_bind] at hrun
    obtain ⟨-, -, hrun⟩ := hrun
    rw [bind_some_iff] at hrun
    obtain ⟨⟨dirE, s₁⟩, hsearch, hrun⟩ := hrun
    have hs₁ : Serves s₁ t ∧ (parentDir = none ∨ OpenOn s₁ parentDir d) ∧ (J s → J s₁) := by
      rcases searchDirEntryIn_some hsearch with rfl | rfl
      · exact ⟨h.malloc, hd, hJ.malloc⟩
      · exact ⟨h.malloc.malloc, hd, fun hs => hJ.malloc (hJ.malloc hs)⟩
    cases dirE with
    | none =>
      obtain ⟨rfl, rfl, rfl⟩ := by simpa using hrun
      refine ⟨hs₁.1, hs₁.2.2, d, hdir, hrec ▸ hs₁.2.1, fun _ n hn => ?_⟩
      cases hn
    | some dirE =>
      simp only [assert_bind] at hrun
      obtain ⟨hnext, hrun⟩ := hrun
      -- an entry has been found, so that the handle is there
      have hnull : parentDir ≠ none := by
        rintro rfl
        simp [searchDirEntryIn, dirInode] at hsearch
      have hon := hd.resolve_left hnull
      have hon₁ := hs₁.2.1.resolve_left hnull
      have hfound := (searchDirEntryIn_kept h hon hdir hne (hz name (by simp)) hsearch).resolve_left
        (Option.some_ne_none _)
      obtain ⟨c, hc, rfl⟩ := Option.map_eq_some_iff.mp hfound.symm
      obtain ⟨N, hN⟩ := h.disk.tree.child_some hc
      have hrest : ∀ c ∈ namesFrom (nextName subPath).1 (nextName subPath).2, (0 : Byte) ∉ c :=
        fun c hc => hz c (List.mem_cons_of_mem _ hc)
      cases N with
      | file =>
        have htype : typeOf t c = .regular := by simp [typeOf, hN]
        have hcodes : FileType.regular.code ≠ FileType.directory.code := by decide
        have hlt : c < 4096 := h.disk.numbers c (by simp [hN])
        simp only [htype, hcodes, ↓reduceIte, asInt_eq hlt] at hrun
        obtain ⟨rfl, rfl, rfl⟩ := by simpa using hrun
        refine ⟨hs₁.1, hs₁.2.2, d, hdir, hrec ▸ hs₁.2.1, fun _ n hn => ?_⟩
        obtain rfl := Option.some.inj hn
        refine ⟨⟨pre, name, _, rfl, hpre, hc, fun k hk => ⟨hN, ?_⟩⟩, htype.symm⟩
        rw [namesFrom] at hk
        split at hk
        · cases hk
        · obtain rfl := Option.some.inj hk
          exact hnext
      | dir p E =>
        have htype : typeOf t c = .directory := by simp [typeOf, hN]
        simp only [htype, ↓reduceIte, bind_some_iff] at hrun
        obtain ⟨a, ha, i, hi, s₂, hcl, ⟨d', s₃⟩, hop, hrun⟩ := hrun
        have hkept := dirClose_kept hs₁.1 hon₁ hcl
        obtain ⟨h₃, hon₃⟩ := dirOpen_kept hkept ⟨p, E, hN⟩ hop
        obtain ⟨a', i', ha', -, hi', hno⟩ := hon₁
        obtain rfl := Option.some.inj (ha.symm.trans ha')
        obtain rfl := Option.some.inj (hi.symm.trans hi')
        have hwalk : t.walk dots 0 (pre ++ [name]) = some c := by
          rw [walk_last, hpre, Option.bind_some, hc]
        obtain ⟨h', hJ', m, hm, hdm, hall⟩ :=
          ih h₃ hon₃ ⟨p, E, hN⟩ hwalk rfl (.inr (hno ▸ hdir)) hrest hrun
        refine ⟨h', fun hs => hJ' (hJ.opened hkept ⟨p, E, hN⟩ hop (hJ.closed hcl (hs₁.2.2 hs))),
          m, hm, hdm, fun _ n hn => ?_⟩
        have := hall (fun _ => ⟨pre, name, rfl, hno ▸ hpre, hno ▸ hc, rfl⟩) n hn
        rwa [show pre ++ name :: namesFrom (nextName subPath).1 (nextName subPath).2 =
          pre ++ [name] ++ namesFrom (nextName subPath).1 (nextName subPath).2 by simp]

theorem searchFile_stable {J : Kernel part → Prop} (hJ : LookupStable t J) {s s' : Kernel part}
    (h : Serves s t) {junk : Junk} {pathname : List Byte} (hz : (0 : Byte) ∉ pathname)
    {record record' : PathSearchRecord} {r : Option ℕ}
    (hrun : searchFile junk pathname record s = some (r, record', s')) :
    Serves s' t ∧ HandleOn s' t record'.parentDir ∧ (J s → J s') := by
  rw [searchFile] at hrun
  split at hrun
  · obtain ⟨-, rfl, rfl⟩ := by simpa using hrun
    exact ⟨h, .inr ⟨0, h.disk.root, h.openRoot⟩, id⟩
  · simp only [assert_bind] at hrun
    obtain ⟨h', hJ', m, hm, hdm, -⟩ := searchLoop_kept hJ _ _ h (.inr h.openRoot) h.disk.root
      (show t.walk dots 0 [] = some 0 from rfl) rfl (.inr h.disk.root)
      (fun c hc hzc => hz (components_mem c hc 0 hzc)) hrun.2.2
    exact ⟨h', hdm.imp_right fun ho => ⟨m, hm, ho⟩, hJ'⟩

theorem lookupStable_true : LookupStable t fun _ : Kernel part => True :=
  ⟨fun _ => trivial, fun _ _ => trivial, fun _ _ _ _ => trivial⟩

theorem searchFile_kept {s s' : Kernel part} (h : Serves s t) {junk : Junk} {pathname : List Byte}
    (hz : (0 : Byte) ∉ pathname) {record record' : PathSearchRecord} {r : Option ℕ}
    (hrun : searchFile junk pathname record s = some (r, record', s')) :
    Serves s' t ∧ HandleOn s' t record'.parentDir := by
  obtain ⟨h', hd, -⟩ := searchFile_stable lookupStable_true h hz hrun
  exact ⟨h', hd⟩

/-- What a search along at least one component has found. -/
theorem searchFile_found {s s' : Kernel part} (h : Serves s t) {junk : Junk} {pathname : List Byte}
    (hz : (0 : Byte) ∉ pathname) (hc : components pathname ≠ [])
    (hnot : ¬(pathname = rootPath ∨ pathname = rootDotPath ∨ pathname = rootDotdotPath))
    {record record' : PathSearchRecord} {n : ℕ}
    (hrun : searchFile junk pathname record s = some (some n, record', s')) :
    ∃ m, t.IsDir m ∧ (record'.parentDir = none ∨ OpenOn s' record'.parentDir m) ∧
      Found t (components pathname) m n record' := by
  rw [searchFile, if_neg hnot] at hrun
  simp only [assert_bind] at hrun
  obtain ⟨-, -, m, hm, hdm, hall⟩ := searchLoop_kept lookupStable_true _ _ h (.inr h.openRoot)
    h.disk.root
    (show t.walk dots 0 [] = some 0 from rfl) rfl (.inr h.disk.root)
    (fun c hc hzc => hz (components_mem c hc 0 hzc)) hrun.2.2
  refine ⟨m, hm, hdm, hall (fun he => ?_) n rfl⟩
  exact absurd (by rw [components, namesFrom, if_pos he]) hc

theorem searchFile_short {s s' : Kernel part} (h : Serves s t) (hp : Plentiful s) {junk : Junk}
    {pathname : List Byte}
    (hnot : ¬(pathname = rootPath ∨ pathname = rootDotPath ∨ pathname = rootDotdotPath))
    {pre : List (List Byte)} {k : List Byte} {m : ℕ} (hsplit : components pathname = pre ++ [k])
    (hw : t.walk dots 0 pre = some m) (hm : t.IsDir m) {record record' : PathSearchRecord}
    {r : Option ℕ} (hrun : searchFile junk pathname record s = some (r, record', s')) :
    k.length ≤ 15 := by
  rw [searchFile, if_neg hnot] at hrun
  simp only [assert_bind] at hrun
  exact searchLoop_short hm _ _ h hp h.openRoot h.disk.root hsplit hw hrun.2.2

/-- The paths that are asked for: absolute C strings with room for their components. -/
structure PathOk (pathname : List Byte) : Prop where
  absolute : pathname.head? = some slash
  string : (0 : Byte) ∉ pathname
  short : pathname.length < maxPathLen
  nonempty : components pathname ≠ []
  names : ∀ c ∈ components pathname, c.length ≤ 15

theorem components_rootDotPath : components rootDotPath = [dot] :=
  (components_slash dot).trans (components_last (by decide) (by decide))

theorem components_rootDotdotPath : components rootDotdotPath = [dotdot] :=
  (components_slash dotdot).trans (components_last (by decide) (by decide))

/-- `/.` and `/..` lead to the root. -/
theorem walk_rootDots {pathname : List Byte} (h : WellFormed 0 t)
    (hp : pathname = rootDotPath ∨ pathname = rootDotdotPath) :
    t.walk dots 0 (components pathname) = some 0 := by
  obtain ⟨E, hE⟩ := h.top
  rcases hp with rfl | rfl
  · rw [components_rootDotPath]
    simp only [Tree.walk, child_dir hE, dots, ↓reduceIte, Option.bind_some]
  · have hne : dotdot ≠ dot := by decide
    rw [components_rootDotdotPath]
    simp only [Tree.walk, child_dir hE, dots, hne, ↓reduceIte, Option.bind_some]

/-- `search_file` on a path with a component, with memory left. -/
theorem searchFile_stops {s : Kernel part} (h : Serves s t) (hm : Plentiful s) (junk : Junk)
    {pathname : List Byte} (habs : pathname.head? = some slash) (hlen : pathname.length < maxPathLen)
    (hnot : ¬(pathname = rootPath ∨ pathname = rootDotPath ∨ pathname = rootDotdotPath))
    (hne : components pathname ≠ []) (hfit : NamesFit t 0 (components pathname)) :
    ∃ r record s', searchFile junk pathname zeroRecord s = some (r, record, s') ∧ Plentiful s' ∧
      Serves s' t ∧ ∃ pre k post m, components pathname = pre ++ k :: post ∧
      LookedUp t pre k post m r record s' := by
  have hlong : 1 < pathname.length := by
    by_contra hle
    rcases pathname with _ | ⟨c, _ | ⟨_, _⟩⟩
    · cases habs
    · obtain rfl := Option.some.inj habs
      exact hnot (.inl rfl)
    · simp at hle
  have hname : (pathParse pathname).1 ≠ [] := fun he => hne (by
    rw [components, namesFrom, if_pos he])
  have hfirst : (pathParse pathname).1.length ≤ 16 :=
    (hfit [] _ _ (by rw [components, namesFrom, if_neg hname, List.nil_append]) 0 rfl).1
  rw [searchFile, if_neg hnot]
  simp only [assert_pos (show _ ∧ _ ∧ _ from ⟨habs, hlong, hlen⟩), assert_pos hfirst,
    Option.bind_eq_bind, Option.bind_some]
  exact searchLoop_stops _ _ [] (some .root) 0 junk.dirEntryNo 0 h hm h.openRoot h.disk.root rfl rfl
    hfit ((joinPath_components_length habs).trans_lt hlen) fun he => absurd he hname

/-- With memory left, `search_file` returns the inode that the walk along the components reaches,
and leaves in its record where the walk stopped. -/
theorem search_file_walks {s : Kernel part} (h : Serves s t) (hm : Plentiful s) (junk : Junk)
    {pathname : List Byte} (hp : PathOk pathname)
    (hfile : t.NoFileBefore dots 0 (components pathname)) :
    ∃ r record s', searchFile junk pathname zeroRecord s = some (r, record, s') ∧ Serves s' t ∧
      r = t.walk dots 0 (components pathname) ∧
      (pathname = rootDotPath ∨ pathname = rootDotdotPath →
        record = ⟨[], some .root, .directory⟩) ∧
      (¬ (pathname = rootDotPath ∨ pathname = rootDotdotPath) →
        Answers t (components pathname) r record s') := by
  have hroot : pathname ≠ rootPath := by
    rintro rfl
    exact hp.nonempty ((components_slash []).trans components_nil)
  by_cases hdots : pathname = rootDotPath ∨ pathname = rootDotdotPath
  · refine ⟨some 0, ⟨[], some .root, .directory⟩, s, if_pos (.inr hdots), h,
      (walk_rootDots h.disk.tree hdots).symm, fun _ => rfl, fun hn => absurd hdots hn⟩
  obtain ⟨r, record, s', hrun, -, h', pre, k, post, m, hsplit, hlook⟩ :=
    searchFile_stops h hm junk hp.absolute hp.short (fun he => he.elim hroot hdots) hp.nonempty
      (namesFit_of_short (fun c hc =>
        ⟨hp.names c hc, fun hz => hp.string (components_mem c hc 0 hz)⟩) 0)
  have hans : Answers t (components pathname) r record s' :=
    ⟨pre, k, post, m, hsplit, hlook.stopsAt (hsplit ▸ hfile)⟩
  exact ⟨r, record, s', hrun, h', hans.walk, fun hd => absurd hd hdots, fun _ => hans⟩

/-- The path `/d/../d`. -/
def nestedPath : List Byte := slash :: (nestedName ++ slash :: (dotdot ++ slash :: nestedName))

theorem nestedPath_ok :
    PathOk nestedPath ∧ components nestedPath = [nestedName, dotdot, nestedName] := by
  have h : components nestedPath = [nestedName, dotdot, nestedName] := by
    rw [nestedPath, components_slash, components_name (by decide) (by decide),
      components_name (by decide) (by decide), components_last (by decide) (by decide)]
  refine ⟨⟨rfl, by decide, by decide, by rw [h]; simp, ?_⟩, h⟩
  rw [h]
  decide

theorem search_file_walks_nested : ∃ s : Kernel smallPartition, Serves s nestedTree ∧
    ∃ record s', searchFile ⟨[], 0, 0, 0⟩ nestedPath zeroRecord s = some (some 1, record, s') ∧
      Answers nestedTree [nestedName, dotdot, nestedName] (some 1) record s' := by
  obtain ⟨s, hs, hmem⟩ := openRootDir_mounted nestedVolume (m := fun _ => true) rfl rfl
  have h := booted_serves (openRootDir_some hs) nested_onDisk
  obtain ⟨r, record, s', hrun, -, hr, -, hans⟩ := search_file_walks h (fun k => by rw [hmem])
    ⟨[], 0, 0, 0⟩ nestedPath_ok.1 fun pre k post _ n hn => nested_walk hn
  have hr1 : r = some 1 := by
    rw [hr, nestedPath_ok.2]
    decide
  subst hr1
  rw [nestedPath_ok.2] at hans
  exact ⟨s, h, record, s', hrun, hans (by decide)⟩

/-- On a machine without a page that is free the search for a name that is there does not return. -/
theorem search_file_out_of_memory :
    (∀ c size, 0 < size → size ≤ 1024 → MemoryHeap.sysMalloc smallMachine exhausted c size = none) ∧
    ∃ s : Kernel smallPartition, Serves s nestedTree ∧ ∃ path, PathOk path ∧
      nestedTree.NoFileBefore dots 0 (components path) ∧
      nestedTree.walk dots 0 (components path) = some 1 ∧
      serving 0 (fun r => r.2.2) (searchFile ⟨[], 0, 0, 0⟩ path zeroRecord) s = none := by
  refine ⟨fun c size h0 h1 => exhausted_halts h0 h1, ?_⟩
  have hrun : ((openRootDir (mounted nestedVolume fun _ => true)).map fun s =>
      (serving 0 (fun r => r.2.2) (searchFile ⟨[], 0, 0, 0⟩ (slash :: nestedName) zeroRecord)
        s).isNone) = some true := by decide +kernel
  obtain ⟨s, hs, hhalt⟩ := Option.map_eq_some_iff.mp hrun
  have h := booted_serves (openRootDir_some hs) nested_onDisk
  have hc : components (slash :: nestedName) = [nestedName] := by
    rw [components_slash, components_last (by decide) (by decide)]
  refine ⟨s, h, slash :: nestedName, ⟨rfl, by decide, by decide, by rw [hc]; simp, ?_⟩,
    fun pre k post _ n hn => nested_walk hn, ?_, Option.isNone_iff_eq_none.mp hhalt⟩
  · rw [hc]
    decide
  · rw [hc]
    decide

end FsSearch
