import XianweiOS.FsSyscalls

/-! Two runs of a system call that differ in what its locals hold at first. `search_file` reads the
number in `dir_e` when a path has no component at all, and looks at the length of `searched_path`,
which `sys_opendir` and `sys_unlink` do not clear. -/
namespace FsStackLocals

open ByteStore HaltingProgram FsVolume FsInodeTable FsDirectory FsPath FsOpenFiles FsSyscalls

variable {part : Partition} {pathname : List Byte}

/-- Whatever the locals hold, the same result and the same changes. -/
def LocalsUnread (part : Partition) {α : Type}
    (call : Junk → Kernel part → Option (α × Kernel part)) : Prop :=
  ∀ s junk junk', call junk s = call junk' s

/-- The paths that `search_file` answers before it starts. -/
def Special (pathname : List Byte) : Prop :=
  pathname = rootPath ∨ pathname = rootDotPath ∨ pathname = rootDotdotPath

theorem searchFile_special (h : Special pathname) (junk : Junk) (record : PathSearchRecord)
    (s : Kernel part) :
    searchFile junk pathname record s = some (some 0, ⟨[], some .root, .directory⟩, s) :=
  if_pos h

/-- The number in `dir_e` is only read behind the last component. -/
theorem searchLoop_dirEntryNo {name : List Byte} (hne : name ≠ []) (subPath : Option (List Byte))
    (d : Option DirPtr) (parentNo no no' : ℕ) (record : PathSearchRecord) (s : Kernel part) :
    searchLoop name subPath d parentNo no record s =
      searchLoop name subPath d parentNo no' record s := by
  rw [searchLoop, if_neg hne]
  conv_rhs => rw [searchLoop, if_neg hne]

theorem firstName_ne (h : components pathname ≠ []) : (pathParse pathname).1 ≠ [] := by
  intro he
  apply h
  rw [components, namesFrom, if_pos he]

/-- A path with a component does not make `search_file` read a local. -/
theorem searchFile_components (h : components pathname ≠ []) (junk junk' : Junk)
    (record : PathSearchRecord) (s : Kernel part) :
    searchFile junk pathname record s = searchFile junk' pathname record s := by
  rw [searchFile, searchFile, searchLoop_dirEntryNo (firstName_ne h) _ _ _ _ junk'.dirEntryNo]

theorem sysOpendir_special (h : Special pathname) :
    LocalsUnread part fun junk => sysOpendir junk pathname := by
  intro s junk junk'
  simp only [sysOpendir, searchFile_special h]

theorem sysUnlink_special (h : Special pathname) :
    LocalsUnread part fun junk => sysUnlink junk pathname := by
  intro s junk junk'
  simp only [sysUnlink, searchFile_special h]

theorem sysChdir_unread (h : Special pathname ∨ components pathname ≠ []) :
    LocalsUnread part fun junk => sysChdir junk pathname := by
  intro s junk junk'
  rcases h with h | h
  · simp only [sysChdir, searchFile_special h]
  · simp only [sysChdir, searchFile_components h junk junk']

theorem sysStat_unread (h : Special pathname ∨ components pathname ≠ []) :
    LocalsUnread part fun junk => sysStat junk pathname := by
  intro s junk junk'
  rcases h with h | h
  · simp only [sysStat, searchFile_special h]
  · simp only [sysStat, searchFile_components h junk junk']

section Read

variable (habs : pathname.head? = some slash) (hlen : pathname.length < maxPathLen)
  (hnot : ¬Special pathname)

include habs hnot in
theorem one_lt_length : 1 < pathname.length := by
  by_contra hle
  rcases pathname with _ | ⟨c, _ | ⟨_, _⟩⟩
  · cases habs
  · obtain rfl := Option.some.inj habs
    exact hnot (.inl rfl)
  · simp at hle

include habs hlen hnot in
theorem searchFile_run (hfirst : (pathParse pathname).1.length ≤ 16) (junk : Junk)
    (record : PathSearchRecord) (s : Kernel part) :
    searchFile junk pathname record s =
      searchLoop (pathParse pathname).1 (pathParse pathname).2 (some .root) 0 junk.dirEntryNo
        { record with parentDir := some .root, fileType := .unknown } s := by
  have hnot : ¬(pathname = rootPath ∨ pathname = rootDotPath ∨ pathname = rootDotdotPath) := hnot
  rw [searchFile, if_neg hnot, assert_pos ⟨habs, one_lt_length habs hnot, hlen⟩,
    assert_pos hfirst]
  rfl

include habs hlen hnot in
/-- Without memory for the first component the search ends there, if there is room for it. -/
theorem searchFile_noMemory (hc : components pathname ≠ [])
    (hnames : ∀ c ∈ components pathname, c.length ≤ 15) (junk : Junk) (record : PathSearchRecord)
    {s : Kernel part} (hm : s.mallocs 0 = false) :
    (searchFile junk pathname record s).map (fun r => (r.1, r.2.1.parentDir)) =
      if (record.searchedPath ++ slash :: (pathParse pathname).1).length < maxPathLen
      then some (none, some .root) else none := by
  have hne := firstName_ne hc
  have hfirst : (pathParse pathname).1.length ≤ 15 := hnames _ (by
    rw [components, namesFrom, if_neg hne]
    simp)
  have hlook : ∀ name, searchDirEntryIn (some .root) name s = some (none, (sysMalloc s).2) := by
    intro name
    simp only [searchDirEntryIn, show (sysMalloc s).1 = false from hm, ↓reduceIte]
    rfl
  rw [searchFile_run habs hlen hnot (by omega), searchLoop, if_neg hne]
  simp only [assert_pos (show (pathParse pathname).1.length < 16 by omega), Option.bind_eq_bind,
    Option.bind_some, hlook]
  split
  · rename_i hroom
    rw [assert_pos hroom]
    rfl
  · rename_i hroom
    rw [assert, if_neg hroom]
    rfl

include habs hlen hnot in
/-- Without a component the loop is not entered, and `dir_e` is returned. -/
theorem searchFile_noComponent (hc : components pathname = []) (junk : Junk)
    (record : PathSearchRecord) (s : Kernel part) :
    searchFile junk pathname record s = searchEnd 0 junk.dirEntryNo
      { record with parentDir := some .root, fileType := .unknown } s := by
  have hnil : (pathParse pathname).1 = [] := by
    by_contra hne
    rw [components, namesFrom, if_neg hne] at hc
    cases hc
  rw [searchFile_run habs hlen hnot (by simp [hnil]), hnil, searchLoop, if_pos rfl]

end Read

/-- A kernel that has the root directory open, with memory or without. -/
def rootOnly (part : Partition) (memory : Bool) : Kernel part :=
  { mounted (blankVolume part zeroes) fun _ => memory with
    inodes := fun a => if a = 0 then some (inodeInit 0) else none
    openInodes := [0]
    next := 1 }

/-- What the stack may hold: a long string, or some number. -/
def longString : Junk := ⟨List.replicate 512 0x61, 0, 0, 0⟩
def someNumber (n : ℕ) : Junk := ⟨[], n, 0, 0⟩

section Dependent

variable (habs : pathname.head? = some slash) (hlen : pathname.length < maxPathLen)
  (hnot : ¬Special pathname)

include habs hlen hnot in
/-- With a component, the two that do not clear the record depend on what it holds. -/
theorem searchFile_reads (part : Partition) (hc : components pathname ≠ [])
    (hnames : ∀ c ∈ components pathname, c.length ≤ 15) :
    searchFile longString pathname (junkRecord longString) (rootOnly part false) = none ∧
    ∃ record s', searchFile (someNumber 0) pathname (junkRecord (someNumber 0))
      (rootOnly part false) = some (none, record, s') ∧ record.parentDir = some .root := by
  have hfirst : (pathParse pathname).1.length ≤ 15 := hnames _ (by
    rw [components, namesFrom, if_neg (firstName_ne hc)]
    simp)
  constructor
  · have h := searchFile_noMemory habs hlen hnot hc hnames longString (junkRecord longString)
      (s := rootOnly part false) rfl
    have hfull : (junkRecord longString).searchedPath.length = 512 := List.length_replicate
    have hroom : ¬((junkRecord longString).searchedPath ++
        slash :: (pathParse pathname).1).length < maxPathLen := by
      rw [List.length_append, hfull, maxPathLen]
      omega
    rw [if_neg hroom] at h
    exact Option.map_eq_none_iff.mp h
  · have h := searchFile_noMemory habs hlen hnot hc hnames (someNumber 0)
      (junkRecord (someNumber 0)) (s := rootOnly part false) rfl
    rw [if_pos (by simp only [junkRecord, someNumber, maxPathLen, List.nil_append,
      List.length_cons]; omega)] at h
    obtain ⟨⟨r, record, s'⟩, hrun, he⟩ := Option.map_eq_some_iff.mp h
    obtain ⟨rfl, hd⟩ := Prod.mk.inj he
    exact ⟨record, s', hrun, hd⟩

include habs hlen hnot in
theorem sysOpendir_read (hnames : ∀ c ∈ components pathname, c.length ≤ 15) :
    ¬LocalsUnread part fun junk => sysOpendir junk pathname := by
  intro h
  have hroot : pathname ≠ rootPath := fun he => hnot (.inl he)
  by_cases hc : components pathname = []
  · have he := congrArg (Option.map Prod.fst) (h (rootOnly part true) (someNumber 0)
      (someNumber (2 ^ 32 - 1)))
    simp only [sysOpendir, searchFile_noComponent habs hlen hnot hc, assert_pos hlen,
      if_neg hroot] at he
    have h1 : some (some (DirPtr.heap 2)) = some none := he
    cases h1
  · obtain ⟨hlong, record, s', hshort, hd⟩ :=
      searchFile_reads habs hlen hnot part hc hnames
    have he := h (rootOnly part false) longString (someNumber 0)
    simp only [sysOpendir, assert_pos hlen, if_neg hroot, hlong, hshort, Option.bind_eq_bind,
      Option.bind_some, Option.bind_none, hd, dirClose] at he
    cases he

include habs hlen hnot in
theorem sysUnlink_read (hnames : ∀ c ∈ components pathname, c.length ≤ 15) :
    ¬LocalsUnread part fun junk => sysUnlink junk pathname := by
  intro h
  by_cases hc : components pathname = []
  · have he := congrArg (Option.map Prod.fst) (h (rootOnly part true) (someNumber 0) (someNumber 5))
    simp only [sysUnlink, searchFile_noComponent habs hlen hnot hc, assert_pos hlen] at he
    have h1 : none = some (-1 : ℤ) := he
    cases h1
  · obtain ⟨hlong, record, s', hshort, hd⟩ :=
      searchFile_reads habs hlen hnot part hc hnames
    have he := h (rootOnly part false) longString (someNumber 0)
    have hsome : assert (¬(none : Option ℕ) = some 0) = some () := assert_pos (by simp)
    simp only [sysUnlink, assert_pos hlen, hlong, hshort, Option.bind_eq_bind,
      Option.bind_some, Option.bind_none, hd, dirClose, ne_eq, hsome] at he
    cases he

include habs hlen hnot in
theorem sysChdir_read (hc : components pathname = []) :
    ¬LocalsUnread part fun junk => sysChdir junk pathname := by
  intro h
  have he := congrArg (Option.map fun r => r.2.cur.cwdInodeNr)
    (h (rootOnly part true) (someNumber 0) (someNumber 5))
  simp only [sysChdir, searchFile_noComponent habs hlen hnot hc] at he
  have h1 : some 0 = some 5 := he
  cases h1

include habs hlen hnot in
theorem sysStat_read (hc : components pathname = []) :
    ¬LocalsUnread part fun junk => sysStat junk pathname := by
  intro h
  have hspecial : ¬(pathname = rootPath ∨ pathname = rootDotPath ∨ pathname = rootDotdotPath) :=
    hnot
  have he := congrArg (Option.map fun r => r.1.map Stat.stIno)
    (h (rootOnly part true) (someNumber 0) (someNumber (2 ^ 32 - 1)))
  simp only [sysStat, if_neg hspecial, searchFile_noComponent habs hlen hnot hc] at he
  have h1 : some (some 0) = some none := he
  cases h1

end Dependent

/-- `sys_opendir` and `sys_unlink` depend on their locals unless the path is one of the three that
are answered at once, `sys_chdir` and `sys_stat` unless it is one of them or has a component. -/
theorem locals_unread_iff (habs : pathname.head? = some slash) (hlen : pathname.length < maxPathLen)
    (hnames : ∀ c ∈ components pathname, c.length ≤ 15) :
    ((LocalsUnread part fun junk => sysOpendir junk pathname) ↔ Special pathname) ∧
    ((LocalsUnread part fun junk => sysUnlink junk pathname) ↔ Special pathname) ∧
    ((LocalsUnread part fun junk => sysChdir junk pathname) ↔
      Special pathname ∨ components pathname ≠ []) ∧
    ((LocalsUnread part fun junk => sysStat junk pathname) ↔
      Special pathname ∨ components pathname ≠ []) := by
  refine ⟨⟨fun h => ?_, sysOpendir_special⟩, ⟨fun h => ?_, sysUnlink_special⟩,
    ⟨fun h => ?_, sysChdir_unread⟩, ⟨fun h => ?_, sysStat_unread⟩⟩
  · by_contra hnot
    exact sysOpendir_read habs hlen hnot hnames h
  · by_contra hnot
    exact sysUnlink_read habs hlen hnot hnames h
  · by_contra hnot
    rw [not_or, not_not] at hnot
    exact sysChdir_read habs hlen hnot.1 hnot.2 h
  · by_contra hnot
    rw [not_or, not_not] at hnot
    exact sysStat_read habs hlen hnot.1 hnot.2 h

theorem components_slashes : components [slash, slash] = [] := by
  rw [components_slash, components_slash, components_nil]

theorem locals_unread_iff_slashes :
    ¬(LocalsUnread smallPartition fun junk => sysOpendir junk [slash, slash]) ∧
    ¬(LocalsUnread smallPartition fun junk => sysUnlink junk [slash, slash]) ∧
    ¬(LocalsUnread smallPartition fun junk => sysChdir junk [slash, slash]) ∧
    ¬(LocalsUnread smallPartition fun junk => sysStat junk [slash, slash]) := by
  have hnot : ¬Special [slash, slash] := by
    unfold Special
    decide
  have habs : [slash, slash].head? = some slash := rfl
  obtain ⟨hopendir, hunlink, hchdir, hstat⟩ := locals_unread_iff habs (by decide)
    (by rw [components_slashes]; simp)
  rw [hopendir, hunlink, hchdir, hstat, components_slashes]
  exact ⟨hnot, hnot, by simp [hnot], by simp [hnot]⟩

/-- `chdir("//")` goes wherever `dir_e` says. -/
theorem chdir_slashes_reads : ∃ s s₁ s₂ : Kernel smallPartition,
    sysChdir (someNumber 0) [slash, slash] s = some (0, s₁) ∧ s₁.cur.cwdInodeNr = 0 ∧
    sysChdir (someNumber 5) [slash, slash] s = some (0, s₂) ∧ s₂.cur.cwdInodeNr = 5 := by
  have hnot : ¬Special [slash, slash] := by
    rintro (h | h | h)
    · cases h
    · revert h
      decide
    · cases h
  refine ⟨rootOnly smallPartition true, ?_⟩
  have hhead : [slash, slash].head? = some slash := rfl
  simp only [sysChdir, searchFile_noComponent hhead (by decide) hnot components_slashes]
  exact ⟨_, _, rfl, rfl, rfl, rfl⟩

end FsStackLocals
