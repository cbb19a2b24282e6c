import XianweiOS.FsIntact
import XianweiOS.FsWholePath

/-! What a search that returns has looked up. Without memory for its buffers a name may be missed;
what it reports to be there is there, and its record tells how far it has come. -/
namespace FsLooked

open ByteStore HaltingProgram KernelBitmap DeviceIde FsVolume FsInodeTable FsBlockMap FsOwnership
  FsDirectory FsDirectoryMap FsPath FsOpenFiles FsSyscalls FsReferenceCounts FsReferenceRuns
  FsKernelFrame PathTree FsTree FsSearch FsIntact

variable {part : Partition} {S : Prop} {s s' : Kernel part} {t : FileTree} {x : ℕ → ℕ}

/-- The search has come along `pre` to directory `m` and looked for the name `k` there. The record
had the string `base` in it before. -/
structure Looked (t : FileTree) (base : List Byte) (pre : List (List Byte)) (k : List Byte)
    (post : List (List Byte)) (m : ℕ) (r : Option ℕ) (record : PathSearchRecord)
    (s : Kernel part) : Prop where
  dir : t.IsDir m
  reached : t.walk dots 0 pre = some m
  short : k.length ≤ 15
  found : ∀ n, r = some n → t.child dots m k = some n ∧ (post = [] ∨ t n = some .file)
  type : record.fileType = r.elim .unknown (typeOf t)
  path : record.searchedPath = base ++ joinPath (pre ++ [k])
  parent : record.parentDir = none ∨ OpenOn s record.parentDir m

/-- With memory nothing is missed. -/
structure Sure (t : FileTree) (k : List Byte) (m : ℕ) (r : Option ℕ) (record : PathSearchRecord)
    (s : Kernel part) : Prop where
  memory : Plentiful s
  missed : r = none → t.child dots m k = none
  parent : OpenOn s record.parentDir m

theorem dirOpen_plentiful {n : ℕ} {d : Option DirPtr} (h : Serves s t) (hm : Plentiful s)
    (hn : t.IsDir n) (ho : dirOpen n s = some (d, s')) : Plentiful s' ∧ OpenOn s' d n := by
  obtain ⟨d', s₁, hop, hm₁, -, ho₁⟩ := dirOpen_serves h hm hn
  obtain ⟨rfl, rfl⟩ := Prod.mk.inj (Option.some.inj (hop.symm.trans ho))
  exact ⟨hm₁, ho₁⟩

theorem dirClose_plentiful {n : ℕ} {d : Option DirPtr} (h : Serves s t) (hm : Plentiful s)
    (ho : OpenOn s d n) (hcl : dirClose d s = some s') : Plentiful s' := by
  obtain ⟨s₁, hcl', hm₁, -⟩ := dirClose_serves h hm ho
  obtain rfl := Option.some.inj (hcl'.symm.trans hcl)
  exact hm₁

/-- The loop of `search_file` in directory `d`, behind the names `pre`. When no name is left, the
last one has led from `q` to `d`. -/
theorem searchLoop_looked (base name : List Byte) (subPath : Option (List Byte)) :
    ∀ {pre : List (List Byte)} {parentDir : Option DirPtr} {q e d : ℕ}
      {record record' : PathSearchRecord} {s s' : Kernel part} {r : Option ℕ},
    Serves s t → (parentDir = none ∨ OpenOn s parentDir d) → t.IsDir d →
    t.walk dots 0 pre = some d → record = ⟨base ++ joinPath pre, parentDir, .unknown⟩ →
    (name = [] → ∃ pre' k, pre = pre' ++ [k] ∧ t.walk dots 0 pre' = some q ∧
      t.child dots q k = some d ∧ e = d) →
    (∀ c ∈ namesFrom name subPath, (0 : Byte) ∉ c) →
    searchLoop name subPath parentDir q e record s = some (r, record', s') →
    ∃ pre' k post m, pre ++ namesFrom name subPath = pre' ++ k :: post ∧
      Looked t base pre' k post m r record' s' ∧
      (Plentiful s → OpenOn s parentDir d → Sure t k m r record' s') := by
  induction name, subPath using namesFrom.induct with
  | case1 subPath =>
    intro pre parentDir q e d record record' s s' r h hd hdir _ hrec hend _ hrun
    subst record
    rw [searchLoop, if_pos rfl] at hrun
    simp only [searchEnd, bind_some_iff, Option.pure_def, Option.some.injEq, Prod.mk.injEq] at hrun
    obtain ⟨s₁, hcl, ⟨d', s₂⟩, hop, rfl, rfl, rfl⟩ := hrun
    rcases hd with rfl | hon
    · cases hcl
    obtain ⟨pre', k, rfl, hpre', hk, rfl⟩ := hend rfl
    have hq := isDir_of_child hk
    have hkept := dirClose_kept h hon hcl
    obtain ⟨-, hon₂⟩ := dirOpen_kept hkept hq hop
    have htype : typeOf t e = .directory := by
      obtain ⟨p, E, hnode⟩ := hdir
      simp [typeOf, hnode]
    rw [asInt_eq (h.disk.lt hdir)]
    have hshort := Nat.le_of_lt_succ (child_valid h.disk hk).short
    refine ⟨pre', k, [], q, ?_, ⟨hq, hpre', hshort, ?_, htype.symm, rfl, hon₂⟩, fun hm _ => ?_⟩
    · rw [namesFrom, if_pos rfl, List.append_nil]
    · intro n hn
      obtain rfl := Option.some.inj hn
      exact ⟨hk, .inl rfl⟩
    · obtain ⟨hm₂, hop₂⟩ := dirOpen_plentiful hkept (dirClose_plentiful h hm hon hcl) hq hop
      exact ⟨hm₂, (absurd · (Option.some_ne_none _)), hop₂⟩
  | case2 name subPath hne ih =>
    intro pre parentDir q e d record record' s s' r h hd hdir hpre hrec _ hz hrun
    subst record
    rw [namesFrom, if_neg hne] at hz ⊢
    rw [searchLoop, if_neg hne] at hrun
    simp only [assert_bind] at hrun
    obtain ⟨hshort, -, hrun⟩ := hrun
    rw [bind_some_iff] at hrun
    obtain ⟨⟨dirE, s₁⟩, hsearch, hrun⟩ := hrun
    have hs₁ : Serves s₁ t ∧ (parentDir = none ∨ OpenOn s₁ parentDir d) ∧
        (OpenOn s parentDir d → OpenOn s₁ parentDir d) ∧ (Plentiful s → Plentiful s₁) := by
      rcases searchDirEntryIn_some hsearch with rfl | rfl
      · exact ⟨h.malloc, hd, id, Plentiful.malloc⟩
      · exact ⟨h.malloc.malloc, hd, id, fun hm => hm.malloc.malloc⟩
    cases dirE with
    | none =>
      obtain ⟨rfl, rfl, rfl⟩ := by simpa using hrun
      refine ⟨pre, name, _, d, rfl, ⟨hdir, hpre, Nat.le_of_lt_succ hshort, ?_, rfl, ?_, hs₁.2.1⟩,
        fun hm ho => ⟨hs₁.2.2.2 hm, fun _ => ?_, hs₁.2.2.1 ho⟩⟩
      · intro n hn
        cases hn
      · simp [joinPath]
      · rw [searchDirEntryIn_serves h hm ho hdir hne (hz name (by simp))] at hsearch
        simpa using (Prod.mk.inj (Option.some.inj hsearch)).1
    | some dirE =>
      simp only [assert_bind] at hrun
      obtain ⟨-, hrun⟩ := hrun
      -- an entry has been found, so that the handle is there
      have hnull : parentDir ≠ none := by
        rintro rfl
        simp [searchDirEntryIn, dirInode] at hsearch
      have hon := hd.resolve_left hnull
      have hon₁ := hs₁.2.1.resolve_left hnull
      have hfound := (searchDirEntryIn_kept h hon hdir hne (hz name (by simp)) hsearch).resolve_left
        (Option.some_ne_none _)
      obtain ⟨c, hc, rfl⟩ := Option.map_eq_some_iff.mp hfound.symm
      obtain ⟨N, hN⟩ := h.disk.tree.child_some hc
      cases N with
      | file =>
        have htype : typeOf t c = .regular := by simp [typeOf, hN]
        have hcodes : FileType.regular.code ≠ FileType.directory.code := by decide
        have hlt : c < 4096 := h.disk.numbers c (by simp [hN])
        simp only [htype, hcodes, ↓reduceIte, asInt_eq hlt] at hrun
        obtain ⟨rfl, rfl, rfl⟩ := by simpa using hrun
        refine ⟨pre, name, _, d, rfl, ⟨hdir, hpre, Nat.le_of_lt_succ hshort, fun n hn => ?_,
          htype.symm, ?_, hs₁.2.1⟩,
          fun hm ho => ⟨hs₁.2.2.2 hm, (absurd · (Option.some_ne_none _)), hs₁.2.2.1 ho⟩⟩
        · obtain rfl := Option.some.inj hn
          exact ⟨hc, .inr hN⟩
        · simp [joinPath]
      | dir p E =>
        have htype : typeOf t c = .directory := by simp [typeOf, hN]
        simp only [htype, ↓reduceIte, bind_some_iff] at hrun
        obtain ⟨a, ha, i, hi, s₂, hcl, ⟨d', s₃⟩, hop, hrun⟩ := hrun
        have hkept := dirClose_kept hs₁.1 hon₁ hcl
        obtain ⟨h₃, hon₃⟩ := dirOpen_kept hkept ⟨p, E, hN⟩ hop
        obtain ⟨a', i', ha', -, hi', hno⟩ := id hon₁
        obtain rfl := Option.some.inj (ha.symm.trans ha')
        obtain rfl := Option.some.inj (hi.symm.trans hi')
        have hwalk : t.walk dots 0 (pre ++ [name]) = some c := by
          rw [walk_last, hpre, Option.bind_some, hc]
        have hsplit : ∀ l : List (List Byte), pre ++ name :: l = pre ++ [name] ++ l := by simp
        rw [hsplit]
        obtain ⟨pre', k, post, m, he, hl, hsure⟩ := ih h₃ hon₃ ⟨p, E, hN⟩ hwalk
          (by simp [joinPath]) (fun _ => ⟨pre, name, rfl, hno ▸ hpre, hno ▸ hc, rfl⟩)
          (fun c hc => hz c (List.mem_cons_of_mem _ hc)) hrun
        refine ⟨pre', k, post, m, he, hl, fun hm ho => ?_⟩
        have hm₂ := dirClose_plentiful hs₁.1 (hs₁.2.2.2 hm) hon₁ hcl
        obtain ⟨hm₃, hop₃⟩ := dirOpen_plentiful hkept hm₂ ⟨p, E, hN⟩ hop
        exact hsure hm₃ hop₃

/-- The paths for which `search_file` does not look into a directory. -/
abbrev Rooted (pathname : List Byte) : Prop :=
  pathname = rootPath ∨ pathname = rootDotPath ∨ pathname = rootDotdotPath

section Search

variable {junk : Junk} {pathname : List Byte} {record record' : PathSearchRecord} {r : Option ℕ}

theorem searchFile_rooted (h : Rooted pathname)
    (hrun : searchFile junk pathname record s = some (r, record', s')) :
    r = some 0 ∧ record' = ⟨[], some .root, .directory⟩ ∧ s' = s := by
  rw [searchFile, if_pos h] at hrun
  obtain ⟨rfl, rfl, rfl⟩ := by simpa using hrun
  exact ⟨rfl, rfl, rfl⟩

/-- Without a name the loop is not entered. -/
theorem searchFile_nameless (hc : components pathname = []) (hnot : ¬Rooted pathname)
    (hrun : searchFile junk pathname record s = some (r, record', s')) :
    record'.fileType = .directory ∧ record'.searchedPath = record.searchedPath := by
  have hnil : (pathParse pathname).1 = [] := by
    by_contra hne
    rw [components, namesFrom, if_neg hne] at hc
    cases hc
  rw [searchFile, if_neg hnot, hnil, searchLoop, if_pos rfl] at hrun
  simp only [searchEnd, bind_some_iff, Option.pure_def, Option.some.injEq, Prod.mk.injEq] at hrun
  obtain ⟨-, -, -, -, s₁, -, ⟨d, s₂⟩, -, -, rfl, rfl⟩ := hrun
  exact ⟨rfl, rfl⟩

/-- What a search along at least one name has looked up. -/
theorem searchFile_looked (h : Serves s t) (hz : (0 : Byte) ∉ pathname)
    (hc : components pathname ≠ []) (hnot : ¬Rooted pathname)
    (hrun : searchFile junk pathname record s = some (r, record', s')) :
    ∃ pre k post m, components pathname = pre ++ k :: post ∧
      Looked t record.searchedPath pre k post m r record' s' ∧
      (Plentiful s → Sure t k m r record' s') := by
  rw [searchFile, if_neg hnot] at hrun
  simp only [assert_bind] at hrun
  obtain ⟨pre, k, post, m, he, hl, hsure⟩ := searchLoop_looked record.searchedPath _ _ h
    (.inr h.openRoot) h.disk.root (show t.walk dots 0 [] = some 0 from rfl)
    (by simp [joinPath]) (fun hnil => absurd (by rw [components, namesFrom, if_pos hnil]) hc)
    (fun c hc hzc => hz (components_mem c hc 0 hzc)) hrun.2.2
  exact ⟨pre, k, post, m, he, hl, fun hm => hsure hm h.openRoot⟩

theorem searchFile_bounds (hnot : ¬Rooted pathname)
    (hrun : searchFile junk pathname record s = some (r, record', s')) :
    pathname.head? = some slash ∧ pathname.length < maxPathLen := by
  rw [searchFile, if_neg hnot] at hrun
  simp only [assert_bind] at hrun
  exact ⟨hrun.1.1, hrun.1.2.2⟩

end Search

section Depth

theorem depthLoop_some (name : List Byte) (p : Option (List Byte)) (depth : ℕ) {e : ℕ}
    (h : depthLoop name p depth = some e) : e = depth + (namesFrom name p).length := by
  induction name, p, depth using depthLoop.induct with
  | case1 p depth =>
    rw [depthLoop, if_pos rfl] at h
    rw [namesFrom, if_pos rfl]
    exact (Option.some.inj h).symm
  | case2 name p depth hne ih =>
    rw [depthLoop, if_neg hne, assert_bind] at h
    rw [namesFrom, if_neg hne, ih h.2, List.length_cons]
    omega

/-- The depth that is counted is the number of components, if there is one at all. -/
theorem pathDepthCnt_some {junk : Byte} {pathname : List Byte} (hne : components pathname ≠ [])
    {e : ℕ} (h : pathDepthCnt junk pathname = some e) : e = (components pathname).length := by
  have hname : (pathParse pathname).1 ≠ [] := fun hz => by
    apply hne
    rw [components, namesFrom, if_pos hz]
  rw [pathDepthCnt] at h
  dsimp only at h
  rw [if_neg fun hc => hname hc.1] at h
  rw [depthLoop_some _ _ _ h, Nat.zero_add, components]

/-- A search whose depth is that of the path has looked up the last name. -/
theorem Looked.last {pathname : List Byte} {pre post : List (List Byte)} {k : List Byte} {m : ℕ}
    {r : Option ℕ} {record : PathSearchRecord} (h : Looked t [] pre k post m r record s)
    (he : components pathname = pre ++ k :: post) {junk junk' : Byte} {depth depth' : ℕ}
    (hd : pathDepthCnt junk pathname = some depth)
    (hd' : pathDepthCnt junk' record.searchedPath = some depth') (heq : depth = depth') :
    post = [] := by
  have hvalid : ∀ c ∈ pre ++ [k], c ≠ [] ∧ slash ∉ c := fun c hc => by
    have hmem : c ∈ components pathname := by
      rw [he]
      simp only [List.mem_append, List.mem_cons] at hc ⊢
      tauto
    exact components_valid c hmem
  have hjoin := components_joinPath hvalid
  rw [h.path, List.nil_append] at hd'
  have h₁ := pathDepthCnt_some (by rw [he]; simp) hd
  have h₂ := pathDepthCnt_some (by rw [hjoin]; simp) hd'
  rw [he] at h₁
  rw [hjoin] at h₂
  simp only [List.length_append, List.length_cons, List.length_nil] at h₁ h₂
  exact List.eq_nil_of_length_eq_zero (by omega)

end Depth

end FsLooked
