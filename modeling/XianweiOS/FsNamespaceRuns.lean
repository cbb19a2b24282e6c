import XianweiOS.FsFileRuns

/-! Runs of the calls that change the files. Behind each of them only the file table and the root
directory hold inodes, so what is taken away is not open. The entries on the disk name every object
once, and nothing else. -/
namespace FsNamespaceRuns

open ByteStore HaltingProgram KernelBitmap DeviceIde FsVolume FsInodeTable FsBlockMap FsOwnership
  FsFileWrite FsStore FsDirectory FsDirectorySlots FsDirectoryTable FsDirectoryMap FsFormat FsPath
  FsOpenFiles FsSyscalls HolderCount FsReferenceCounts FsReferenceRuns FsProcesses PathTree FsTree
  FsSearch FsConsistentTree FsTreeRemove FsImage FsIntact FsNamespace FsShown FsFileCalls
  FsRemoveCalls LabelledRuns FsFileRuns SlotTable

variable {part : Partition} {S : Prop} {s s' s₁ : Kernel part} {σ : State} {v v' : Volume part}
  {t : FileTree} {n m d : ℕ} {k : List Byte} {i : ℕ × ℕ} {y : ℕ × ℕ} {r : Reply} {l : List Request}

section Entries

/-- What slot `i` of the directory says: a name, and the number and the type of an object. -/
def entry (v : Volume part) (d : ℕ) (i : ℕ × ℕ) : Option (List Byte × ℕ × ℕ) :=
  dirTable v.disk (diskRefs v d) i

/-- The root, and what a directory calls a directory. -/
inductive IsDirectory (v : Volume part) : ℕ → Prop where
  | root : IsDirectory v 0
  | child {d n : ℕ} {i : ℕ × ℕ} {k : List Byte} (hd : IsDirectory v d)
      (he : entry v d i = some (k, n, FileType.directory.code)) : IsDirectory v n

/-- Slot `i` of directory `d` names `n`, and is not one of the two that every directory has. -/
def NamedAt (v : Volume part) (n d : ℕ) (i : ℕ × ℕ) : Prop :=
  IsDirectory v d ∧ ∃ k x, entry v d i = some (k, n, x) ∧ k ≠ dot ∧ k ≠ dotdot

structure NamesKept (v : Volume part) : Prop where
  once : ∀ n, (diskStore v).Allocated n → n ≠ 0 → ∃! e : ℕ × ℕ × ℕ, NamedAt v n e.1 e.2
  allocated : ∀ d, IsDirectory v d → ∀ i k n x, entry v d i = some (k, n, x) →
    (diskStore v).Allocated n

/-- What named `n` is still a directory, and has no entry of that name. -/
structure EntryRemoved (v v' : Volume part) (n : ℕ) : Prop where
  entry : ∀ d i k x, IsDirectory v d → entry v d i = some (k, n, x) → k ≠ dot → k ≠ dotdot →
    IsDirectory v' d ∧ ∀ j y, FsNamespaceRuns.entry v' d j ≠ some (k, y)
  freed : ¬(diskStore v').Allocated n

/-- A directory of the tree says of its names what the tree says. -/
theorem entry_iff (h : Image S v t) (hd : t.IsDir d) :
    (∃ i, entry v d i = some (k, y)) ↔ entriesOf t d k = some y :=
  ((h.consistent.tree.directory d hd).represents k y).symm

theorem entry_child (h : Image S v t) (hd : t.IsDir d) {x : ℕ}
    (he : entry v d i = some (k, n, x)) : t.child dots d k = some n ∧ (typeOf t n).code = x := by
  have hk := (entry_iff h hd).mp ⟨i, he⟩
  obtain ⟨c, hc, he⟩ := Option.map_eq_some_iff.mp hk
  obtain ⟨rfl, hx⟩ := Prod.mk.inj he
  exact ⟨hc, hx⟩

theorem child_entry (h : Image S v t) (hc : t.child dots d k = some n) :
    ∃ i, entry v d i = some (k, n, (typeOf t n).code) := by
  refine (entry_iff h (isDir_of_child hc)).mpr ?_
  rw [entriesOf, hc]
  rfl

theorem isDir_of_code (hN : t n ≠ none) (hcode : (typeOf t n).code = FileType.directory.code) :
    t.IsDir n := by
  obtain ⟨N, hN⟩ := Option.ne_none_iff_exists'.mp hN
  cases N with
  | file =>
    rw [typeOf, hN] at hcode
    cases hcode
  | dir p E => exact ⟨p, E, hN⟩

/-- The directories on the disk are those of the tree. -/
theorem isDirectory_iff (h : Image S v t) : IsDirectory v d ↔ t.IsDir d := by
  have hhier := h.hierarchy
  constructor
  · intro hd
    induction hd with
    | root =>
      obtain ⟨E, hE⟩ := hhier.tree.top
      exact ⟨0, E, hE⟩
    | child _ he ih =>
      obtain ⟨hc, hcode⟩ := entry_child h ih he
      obtain ⟨N, hN⟩ := hhier.tree.child_some hc
      exact isDir_of_code (hN ▸ Option.some_ne_none N) hcode
  · rintro hdir
    obtain ⟨p, E, hd⟩ := id hdir
    obtain ⟨ks, -, hw⟩ := hhier.reached d (hd ▸ Option.some_ne_none _)
    -- along the path that leads to the directory
    induction ks using List.reverseRecOn generalizing d p E with
    | nil =>
      obtain rfl := Option.some.inj hw
      exact .root
    | append_singleton ks k ih =>
      rw [walk_last] at hw
      obtain ⟨c, hwalk, hc⟩ := Option.bind_eq_some_iff.mp hw
      obtain ⟨p', E', hc'⟩ := isDir_of_child hc
      obtain ⟨i, he⟩ := child_entry h hc
      have hcode : typeOf t d = .directory := by rw [typeOf, hd]
      rw [hcode] at he
      exact .child (ih ⟨p', E', hc'⟩ p' E' hc' hwalk) he

theorem namedAt_names (h : Image S v t) (hd : NamedAt v n d i) :
    ∃ k, t.Names d k n ∧ ∃ x, entry v d i = some (k, n, x) := by
  obtain ⟨hdir, k, x, he, hk⟩ := hd
  obtain ⟨hc, -⟩ := entry_child h ((isDirectory_iff h).mp hdir) he
  exact ⟨k, (child_plain (w := dots) hk).mp hc, x, he⟩

theorem image_names (h : Image S v t) : NamesKept v := by
  have hhier := h.hierarchy
  refine ⟨fun n hn h0 => ?_, fun d hd i k n x he => ?_⟩
  · obtain ⟨d, k, hname⟩ := hhier.tree.named n (h.allocated.mp hn) h0
    have hk := hhier.proper d k n hname
    obtain ⟨i, he⟩ := child_entry h ((child_plain (w := dots) hk).mpr hname)
    obtain ⟨p, E, hd, -⟩ := id hname
    refine ⟨(d, i), ⟨(isDirectory_iff h).mpr ⟨p, E, hd⟩, k, _, he, hk⟩, ?_⟩
    rintro ⟨d', i'⟩ hnamed
    obtain ⟨k', hname', x, he'⟩ := namedAt_names h hnamed
    obtain ⟨rfl, rfl⟩ := hhier.once d d' k k' n hname hname'
    have hkeyed := (h.consistent.tree.directory d ⟨p, E, hd⟩).keyed
    exact congrArg _ (hkeyed _ _ _ _ _ he' he)
  · obtain ⟨hc, -⟩ := entry_child h ((isDirectory_iff h).mp hd) he
    obtain ⟨N, hN⟩ := hhier.tree.child_some hc
    exact h.allocated.mpr (hN ▸ Option.some_ne_none N)

/-- One entry of the tree is taken away, with the object. -/
theorem erase_entryRemoved (h : Image S v t) (h' : Image S v' (t.erase m k n))
    (hname : t.Names m k n) (hne : m ≠ n) : EntryRemoved v v' n := by
  refine ⟨fun d i l x hd he h1 h2 => ?_, fun hn => h'.allocated.mp hn (erase_self)⟩
  obtain ⟨l', hname', x', he'⟩ := namedAt_names h ⟨hd, l, x, he, h1, h2⟩
  obtain ⟨rfl, -⟩ := Prod.mk.inj (Option.some.inj (he'.symm.trans he))
  obtain ⟨rfl, rfl⟩ := h.hierarchy.once m d k l' n hname hname'
  have hdir : (t.erase m k n).IsDir m := (erase_isDir hne).mpr ((isDirectory_iff h).mp hd)
  refine ⟨(isDirectory_iff h').mpr hdir, fun j y hj => ?_⟩
  obtain ⟨hc, -⟩ := entry_child h' hdir hj
  have hk := h.hierarchy.proper m k n hname
  have herased := (child_plain (w := dots) hk).mp hc
  rw [erase_names] at herased
  exact herased.2.2 ⟨rfl, rfl⟩

end Entries

section Alters

/-- The calls that make and remove objects, write files and close them. -/
def Alters : FsNamespace.Call → Prop
  | .open _ flags => creates flags = true
  | .close _ | .write .. | .mkdir _ | .unlink _ | .rmdir _ => True
  | _ => False

/-- Only the file table and the root directory hold inodes. -/
def Tidy (s : Kernel part) : Prop := Holding (fun _ => none) none s fun _ => 0

theorem Tidy.start (h : Tidy s) (q : Request) : Tidy (q.start s) :=
  ⟨h.counted.of_same rfl (fun _ => rfl) (fun _ _ i hi => ⟨i, hi, rfl⟩) le_rfl h.counted.fresh,
    h.handles.congr rfl, h.pipes⟩

theorem Tidy.tabled (h : Tidy s) (hroot : ∃ i, s.inodes s.rootInode = some i ∧ i.iNo = 0)
    (hn : n ≠ 0) : Tabled s n := by
  intro a ha i hi hno
  obtain ⟨j, hj, hcnt, hpos⟩ := h.counted.listed a ha
  have hdirs : occurs s.next (dirSlots s) a = 0 := by
    refine Nat.eq_zero_of_not_pos fun hp => ?_
    obtain ⟨p, -, hp⟩ := occurs_pos.mp hp
    rw [dirSlots, show s.dirs = fun _ => none from h.handles] at hp
    cases hp
  have hweight : weight (some s.rootInode) a = 0 := by
    rw [weight_some, if_neg]
    rintro rfl
    obtain ⟨i', hi', hno'⟩ := hroot
    obtain rfl := Option.some.inj (hi.symm.trans hi')
    exact hn (hno.symm.trans hno')
  rw [held, hdirs, hweight] at hcnt
  have hslots : 0 < occurs maxFilesOpen (fileSlots s) a := hpos.trans_eq hcnt
  exact occurs_pos.mp hslots

/-- A write keeps the count of its inode. -/
theorem sysWrite_tidy (h : Running S s σ) (ht : Tidy s) {fd count : ℕ} {buf : Bytes} {ret : ℤ}
    (hrun : sysWrite fd buf count s = some (ret, s')) : Tidy s' := by
  obtain ⟨t, x, hi, hs⟩ := h
  rw [sysWrite] at hrun
  split at hrun
  · simp only [bind_some_iff, Option.pure_def, Option.some.injEq, Prod.mk.injEq] at hrun
    obtain ⟨-, -, -, rfl⟩ := hrun
    exact ht
  simp only [fdLocal2global, bind_some_iff, assert_eq_some, Option.pure_def,
    Option.some.injEq] at hrun
  obtain ⟨_, ⟨-, -, k, -, -, hk, rfl⟩, -, -, hrun⟩ := hrun
  split at hrun
  · simp only [fileWriteTo, bind_some_iff, Option.pure_def, Option.some.injEq,
      Prod.mk.injEq] at hrun
    obtain ⟨a, ha, i, hi', res, hwrite, -, rfl⟩ := hrun
    obtain ⟨n, i₀, g, hslot⟩ := slot_open hi hs hk ha
    obtain rfl := Option.some.inj (hi'.symm.trans hslot.inode)
    have hcnt : res.inode.openCnts = i.openCnts := by
      rcases Image.write (S := False) { hi.image with blocks := False.elim } hslot.file hslot.same
        hwrite False.elim with hres | ⟨-, -, w, hg⟩
      · rw [hres]
      · exact hg.appended.head.cnts
    have hset := (ht.malloc.malloc.setInode hi' hcnt).withVol res.vol
    refine ⟨hset.counted.setFile hk _ fun b => rfl, hset.handles.congr rfl, fun l => ?_⟩
    by_cases hl : l = k
    · subst l
      rw [Kernel.setFile_self]
      exact ht.pipes k
    · rw [Kernel.setFile_ne _ _ hl]
      exact ht.pipes l
  · obtain ⟨-, rfl⟩ := Prod.mk.inj (Option.some.inj hrun)
    exact ht

theorem serve_tidy {q : Request} (hc : Alters q.call) (h : Running S s σ) (ht : Tidy s)
    (hrun : serve q s = some (r, s')) : Tidy s' := by
  obtain ⟨call, junk, ioqWord, mallocs⟩ := q
  cases call <;>
    (obtain ⟨⟨a, s₁⟩, hcall, he⟩ := Option.map_eq_some_iff.mp hrun
     obtain ⟨rfl, rfl⟩ := Prod.mk.inj he)
  case «open» pathname flags =>
    have hcreates : creates flags = true := hc
    exact sysOpen_holding hcall (fun hno => absurd hno (by simp [hcreates]))
      (fun hno => absurd hno (by simp [hcreates])) ht
  case close fd => exact sysClose_holding hcall ht
  case write fd buf count => exact sysWrite_tidy h ht hcall
  case mkdir pathname => exact sysMkdir_holding hcall ht
  case unlink pathname => exact sysUnlink_holding hcall ht
  case rmdir pathname => exact sysRmdir_holding hcall ht
  all_goals exact hc.elim

/-- What a run of such calls keeps. -/
def Steady (S : Prop) (s : Kernel part) : Prop := (∃ σ, Running S s σ) ∧ Tidy s

/-- A call that changes something. -/
def Altering (S : Prop) (q : Request) (s : Kernel part) : Prop := Alters q.call ∧ Fine S q s

theorem Altering.admits {q : Request} (hc : Altering S q s) (h : Steady S s) : Admits S q s := by
  obtain ⟨⟨σ, t, x, hi, -⟩, ht⟩ := h
  exact ⟨hc.2, fun n hn => ht.tabled hi.root hn.ne_root⟩

theorem exec_steady {q : Request} {b : FsNamespace.Call × Reply} (h : Steady S s)
    (hc : Altering S q s) (hrun : exec q s = some (b, s')) : Steady S s' := by
  have hok := hc.admits h
  obtain ⟨⟨σ, hr⟩, ht⟩ := h
  obtain ⟨σ', -, hr'⟩ := exec_running hr hok hrun
  obtain ⟨⟨r, s₁⟩, hserve, he⟩ := Option.map_eq_some_iff.mp hrun
  obtain ⟨-, rfl⟩ := Prod.mk.inj he
  obtain ⟨t, hstart⟩ := hr
  exact ⟨⟨σ', hr'⟩, serve_tidy hc.1 ⟨t, Serving.start hstart q⟩ (ht.start q) hserve⟩

theorem run_steady (h : Steady S s) (hok : AllMeet (next exec) (Altering S) l s)
    (hrun : runAll (next exec) l s = some s') : Steady S s' := by
  refine runAll_invariant (Steady S) (fun q s s' hk hc hs => ?_) h hok hrun
  obtain ⟨⟨b, s₁⟩, hexec, rfl⟩ := Option.map_eq_some_iff.mp hs
  exact exec_steady hk hc hexec

theorem booted_tidy (hb : Booted v s) : Tidy s := by
  refine ⟨hb.counted, hb.dirs, fun k => ?_⟩
  rw [hb.fileTable]
  exact Nat.ne_of_beq_eq_false rfl

/-- `rmdir` that reports success has taken the entry away by which the directory was found. -/
theorem exec_rmdir_removed {q : Request} {pathname : List Byte} (h : Steady S s)
    (hcall : q.call = .rmdir pathname) (hfine : Fine S q s)
    (hrun : exec q s = some ((q.call, .int 0), s')) :
    ∃ n, q.Removes s n ∧ EntryRemoved s.vol s'.vol n := by
  obtain ⟨call, junk, ioqWord, mallocs⟩ := q
  obtain rfl : call = .rmdir pathname := hcall
  obtain ⟨⟨σ, t, hserving⟩, ht⟩ := h
  obtain ⟨x, hi, hs⟩ := Serving.start hserving ⟨.rmdir pathname, junk, ioqWord, mallocs⟩
  obtain ⟨⟨r, s₁⟩, hserve, he⟩ := Option.map_eq_some_iff.mp hrun
  obtain ⟨hr, rfl⟩ := Prod.mk.inj he
  obtain ⟨⟨a, s₂⟩, hcall, he⟩ := Option.map_eq_some_iff.mp hserve
  obtain ⟨rfl, rfl⟩ := Prod.mk.inj he
  have htabled : ∀ n, RmdirFinds junk pathname { s with mallocs := mallocs } n →
      Tabled { s with mallocs := mallocs } n := fun n hn => by
    obtain ⟨-, -, -, hn0, -⟩ := hn
    exact (ht.start ⟨.rmdir pathname, junk, ioqWord, mallocs⟩).tabled hi.root hn0
  rcases sysRmdir_removed hi hs hfine.1 hfine.2 htabled hcall with
    ⟨rfl, -⟩ | ⟨-, k, m, n, hfound, hrem⟩
  · cases (Prod.mk.inj hr).2
  · obtain ⟨x', hi', -⟩ := hrem.serving
    exact ⟨n, hfound, erase_entryRemoved hi.image hi'.image hrem.name hrem.ne⟩

end Alters

section NewFileSystem

variable {fuel len : ℕ} {pad disk : Bytes} {memory : ℕ → Bool}

theorem new_steady (h8 : 8 ≤ dataBlocks part)
    (hs : bootNew part fuel pad len disk memory = some s) : Steady S s := by
  obtain ⟨disk', v, -, hb, -⟩ := bootNew_some hs
  exact ⟨⟨newFiles, new_running h8 hs⟩, booted_tidy (openRootDir_some hb)⟩

/-- From a new file system on, every object but the root has one entry, every entry names an object,
and what `rmdir` reports as removed has lost its entry. -/
theorem new_file_system_names (h8 : 8 ≤ dataBlocks part)
    (hs : bootNew part fuel pad len disk memory = some s)
    (hok : AllMeet (next exec) (Altering False) l s) (hrun : runAll (next exec) l s = some s') :
    NamesKept s'.vol ∧ ∀ q pathname s'', q.call = .rmdir pathname → Fine False q s' →
      exec q s' = some ((q.call, .int 0), s'') →
      ∃ n, q.Removes s' n ∧ EntryRemoved s'.vol s''.vol n := by
  have hsteady := run_steady (new_steady h8 hs) hok hrun
  refine ⟨?_, fun q pathname s'' hcall hfine hexec => exec_rmdir_removed hsteady hcall hfine hexec⟩
  obtain ⟨⟨σ, t, x, hi, -⟩, -⟩ := hsteady
  exact image_names hi.image

def dirName : List Byte := [0x64]

def dirPath : List Byte := slash :: dirName

/-- `/d` and `/d/f` are made, and the file is removed again. -/
def nestedRun : List Request :=
  [.mkdir dirPath, .open (dirPath ++ filePath) 6, .close 3, .unlink (dirPath ++ filePath)].map
    plainRequest

def dirRemoval : Request := plainRequest (.rmdir dirPath)

theorem dirRemoval_fine (s : Kernel part) : Fine S dirRemoval s := by
  have hcomponents : components dirPath = [dirName] := by
    rw [dirPath, components_slash, components_last (by decide) (by decide)]
  refine ⟨⟨by decide, .inr ?_⟩, fun hlast => ?_⟩
  · rw [hcomponents]
    exact List.cons_ne_nil _ _
  · rw [hcomponents] at hlast
    exact absurd hlast (by decide)

theorem new_file_system_names_nested : ∃ s s' s'',
    bootNew smallPartition 3 zeroes 0 zeroes (fun _ => true) = some s ∧
    runAll (next exec) nestedRun s = some s' ∧ NamesKept s'.vol ∧ NamedAt s'.vol 1 0 (0, 2) ∧
    exec dirRemoval s' = some ((dirRemoval.call, .int 0), s'') ∧
    EntryRemoved s'.vol s''.vol 1 := by
  have heval : ((bootNew smallPartition 3 zeroes 0 zeroes fun _ => true).bind fun s =>
      (next exec (plainRequest (.mkdir dirPath)) s).bind fun s₁ =>
        (runAll (next exec) (nestedRun.drop 1) s₁).bind fun s' =>
          (sysRmdir noJunk dirPath (dirRemoval.start s')).bind fun r =>
            (searchFile noJunk dirPath zeroRecord (dirRemoval.start s')).map fun found =>
              (s.vol.inodeBit 1, s₁.vol.inodeBit 2,
                decide (entry s'.vol 0 (0, 2) = some (dirName, 1, 2)), r.1, found.1)) =
      some (false, false, true, 0, some 1) := by
    decide +kernel
  obtain ⟨s, hs, heval⟩ := Option.bind_eq_some_iff.mp heval
  obtain ⟨s₁, h₁, heval⟩ := Option.bind_eq_some_iff.mp heval
  obtain ⟨s', hrest, heval⟩ := Option.bind_eq_some_iff.mp heval
  obtain ⟨⟨ret, s''⟩, hrmdir, heval⟩ := Option.bind_eq_some_iff.mp heval
  obtain ⟨⟨r, record, u⟩, hsearch, he⟩ := Option.map_eq_some_iff.mp heval
  obtain ⟨hbit, he⟩ := Prod.mk.inj he
  obtain ⟨hbit₁, he⟩ := Prod.mk.inj he
  obtain ⟨hentry, he⟩ := Prod.mk.inj he
  obtain ⟨rfl, rfl⟩ := Prod.mk.inj he
  have hrun : runAll (next exec) nestedRun s = some s' := runAll_cons.mpr ⟨s₁, h₁, hrest⟩
  have hok : AllMeet (next exec) (Altering False) nestedRun s := by
    have hstring : (0 : Byte) ∉ dirPath ++ filePath := by decide
    refine ⟨⟨trivial, by decide, fun _ => rfl, 1, by decide, hbit⟩, fun u hu => ?_⟩
    obtain rfl := Option.some.inj (h₁.symm.trans hu)
    exact ⟨⟨rfl, hstring, fun _ => ⟨fun _ => rfl, 2, by decide, hbit₁⟩⟩,
      fun _ _ => ⟨⟨trivial, trivial⟩, fun _ _ => ⟨⟨trivial, hstring⟩, fun _ _ => trivial⟩⟩⟩
  obtain ⟨hnames, hremoves⟩ := new_file_system_names (by decide) hs hok hrun
  have hexec : exec dirRemoval s' = some ((dirRemoval.call, .int 0), s'') := by
    simp only [exec, serve, dirRemoval, plainRequest] at hrmdir ⊢
    rw [hrmdir]
    rfl
  obtain ⟨n, ⟨record', u', hfound, -⟩, hremoved⟩ :=
    hremoves dirRemoval dirPath s'' rfl (dirRemoval_fine s') hexec
  obtain ⟨hn, -⟩ := Prod.mk.inj (Option.some.inj (hsearch.symm.trans hfound))
  obtain rfl := Option.some.inj hn
  exact ⟨s, s', s'', hs, hrun, hnames, ⟨.root, dirName, 2, of_decide_eq_true hentry, by decide,
    by decide⟩, hexec, hremoved⟩

theorem rmdir_dot_keeps_name : ∃ s s' calls,
    bootNew smallPartition 3 zeroes 0 zeroes (fun _ => true) = some s ∧
    runLabels exec ([.mkdir dirPath, .rmdir (dirPath ++ rootDotPath)].map plainRequest) s =
      some (calls, s') ∧
    calls.map (fun b => Reply.value b.2) = [some 0, some 0] ∧ NamedAt s'.vol 1 0 (0, 2) ∧
    ¬(diskStore s'.vol).Allocated 1 ∧ ¬NamesKept s'.vol := by
  have heval : ((bootNew smallPartition 3 zeroes 0 zeroes fun _ => true).bind fun s =>
      (runLabels exec ([.mkdir dirPath, .rmdir (dirPath ++ rootDotPath)].map plainRequest) s).map
        fun r => (r.1.map (fun b => Reply.value b.2), r.2.vol.inodeBit 1,
          decide (entry r.2.vol 0 (0, 2) = some (dirName, 1, 2)))) =
      some ([some 0, some 0], false, true) := by
    decide +kernel
  obtain ⟨s, hs, heval⟩ := Option.bind_eq_some_iff.mp heval
  obtain ⟨⟨calls, s'⟩, hrun, he⟩ := Option.map_eq_some_iff.mp heval
  obtain ⟨hcalls, he⟩ := Prod.mk.inj he
  obtain ⟨hbit, hentry⟩ := Prod.mk.inj he
  have hnamed := of_decide_eq_true hentry
  have hfree : ¬(diskStore s'.vol).Allocated 1 := fun hn => by
    have hbit' : s'.vol.inodeBit 1 = true := hn.2
    rw [hbit] at hbit'
    cases hbit'
  exact ⟨s, s', calls, hs, hrun, hcalls, ⟨.root, dirName, 2, hnamed, by decide, by decide⟩, hfree,
    fun hkept => hfree (hkept.allocated 0 .root (0, 2) dirName 1 2 hnamed)⟩

end NewFileSystem

end FsNamespaceRuns
