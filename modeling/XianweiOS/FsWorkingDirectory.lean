import XianweiOS.FsSearch

/-! `sys_getcwd` turns an inode number back into a path. It climbs the `..` entries, looks each
number up in the directory above, appends the names from the last to the first, and at the end
moves the components over one by one. On a directory tree the result is the path along entries
from the root, which `search_file` leads back. -/
namespace FsWorkingDirectory

open ByteStore HaltingProgram DeviceIde FsVolume FsInodeTable FsBlockMap FsOwnership FsFreeBlocks
  FsDirectory FsDirectorySlots FsDirectoryDelete FsDirectoryTable FsDirectoryMap FsPath FsOpenFiles
  FsSyscalls FsReferenceCounts PathTree FsTree FsSearch SlotTable
open MemoryPages (smallMachine)
open MemoryExhaustion (exhausted exhausted_halts)

variable {part : Partition} {s : Kernel part} {t : FileTree}

/-- The names that lead along entries from the root to a directory. -/
structure Canonical (t : FileTree) (d : ℕ) (names : List (List Byte)) : Prop where
  plain : PathTree.Plain dots names
  walk : t.walk dots 0 names = some d
  dir : t.IsDir d

/-- The absolute path with these components. -/
def absolutePath (names : List (List Byte)) : List Byte :=
  if names = [] then rootPath else joinPath names

/-- Names of entries can be components of a path. -/
def NoSlash (t : FileTree) : Prop := ∀ d k c, t.Names d k c → slash ∉ k

section Block

variable {v : Volume part} {ino : Inode} {m : NameMap} {n : ℕ} {k : List Byte}

private theorem entryOfNumber_spec (io : Bytes) (left idx : ℕ) :
    (∀ e, entryOfNumber io n left idx = some e →
      ∃ i, idx ≤ i ∧ i < idx + left ∧ word io (24 * i + 16) = n ∧
        e = DirEntry.ofBytes io (24 * i)) ∧
    (entryOfNumber io n left idx = none →
      ∀ i, idx ≤ i → i < idx + left → word io (24 * i + 16) ≠ n) :=
  first_slot (P := fun i => word io (24 * i + 16) = n) (g := fun i => DirEntry.ofBytes io (24 * i))
    (f := entryOfNumber io n) (fun _ => rfl) (fun _ _ => rfl) left idx

/-- The number stands in one of the first blocks, and wherever it stands the name is `k`. -/
private theorem nameOfNumber_spec (d : Bytes) {r ab : ℕ → ℕ} (hon : OnDisk r)
    (hab : ∀ p < 140, ab p = r p)
    (honly : ∀ p < 140, ∀ i < 21, r p ≠ 0 → word (rawSlot d r p i) 16 = n →
      cstr (rawSlot d r p i) 0 16 = k) : ∀ (left idx : ℕ), idx + left ≤ 140 →
    (∃ p i, idx ≤ p ∧ p < idx + left ∧ i < 21 ∧ r p ≠ 0 ∧ word (rawSlot d r p i) 16 = n) →
    nameOfNumber d ab n left idx = some (some k) := by
  intro left
  induction left with
  | zero =>
    rintro idx - ⟨p, i, h1, h2, -⟩
    omega
  | succ left ih =>
    rintro idx hlen ⟨p, i, h1, h2, hi, hz, hw⟩
    unfold nameOfNumber
    rw [hab idx (by omega)]
    by_cases hzero : r idx = 0
    · have hne : p ≠ idx := by
        rintro rfl
        exact hz hzero
      rw [if_pos hzero]
      exact ih (idx + 1) (by omega) ⟨p, i, by omega, by omega, hi, hz, hw⟩
    · have hlba := hon idx (by omega)
      have hbuf : patch zeroes 0 (512 * 1) (window d (512 * r idx)) = sectorBuf d (r idx) := rfl
      have hsec := entryOfNumber_spec (n := n) (sectorBuf d (r idx)) dirEntrysPerSec 0
      have h21 : dirEntrysPerSec = 21 := rfl
      rw [if_neg hzero, ideRead_eq (by omega) (by omega), Option.bind_eq_bind, Option.bind_some, hbuf]
      cases hf : entryOfNumber (sectorBuf d (r idx)) n dirEntrysPerSec 0 with
      | some e =>
        obtain ⟨j, -, hj, hn, rfl⟩ := hsec.1 e hf
        rw [word_sectorBuf hzero (by omega) (by omega)] at hn
        have hname := honly idx (by omega) j (by omega) hzero hn
        rw [← cstr_sectorBuf hzero (by omega)] at hname
        exact congrArg (fun x => some (some x)) hname
      | none =>
        have hne : p ≠ idx := by
          rintro rfl
          exact hsec.2 hf i (by omega) (by omega) (by rw [word_sectorBuf hz hi (by omega)]; exact hw)
        exact ih (idx + 1) (by omega) ⟨p, i, by omega, by omega, hi, hz, hw⟩

/-- An entry whose number is neither that of `.` nor that of `..` is found by its number. -/
theorem nameOfNumber_entry (h : Directory v ino m) (h0 : n ≠ 0) {x : ℕ} (hk : m k = some (n, x))
    (hplain : k ≠ dot ∧ k ≠ dotdot) (hself : ∀ y, m dot ≠ some (n, y))
    (hparent : ∀ y, m dotdot ≠ some (n, y)) :
    ∃ ab, loadAllBlocks v.disk ino = some ab ∧
      nameOfNumber v.disk ab n (if ino.iSectors 12 = 0 then 12 else 140) 0 = some (some k) := by
  have htab : ino.iSectors 12 ≤ maxLba := by
    rw [← ref_table v.disk ino]
    exact h.onDisk 140 (by omega)
  obtain ⟨ab, hab⟩ := loadAllBlocks_exists v.disk htab
  refine ⟨ab, hab, ?_⟩
  obtain ⟨⟨p, i⟩, hs⟩ := (h.represents k (n, x)).mp hk
  obtain ⟨hp, hi⟩ := dirTable_within _ _ p i (by rw [hs]; exact Option.some_ne_none _)
  have hlive : IsLive (rawSlot v.disk (ref v.disk ino) p i) := by
    intro hdead
    rw [dirTable, if_pos ⟨hp, hi⟩, entryOf, if_pos hdead] at hs
    cases hs
  have hs' := hs
  rw [dirTable_live hp hi hlive] at hs'
  obtain ⟨-, he⟩ := Prod.mk.inj (Option.some.inj hs')
  have hz : ref v.disk ino p ≠ 0 := by
    intro hz
    apply hlive
    rw [rawSlot_absent hz, word_zeroes]
  apply nameOfNumber_spec v.disk h.onDisk
    (fun q hq => (loadAllBlocks_some hab hq).trans (ref_of_lt hq).symm)
  · intro q hq j hj _ hw
    by_cases hl : IsLive (rawSlot v.disk (ref v.disk ino) q j)
    · have ht := dirTable_live hq hj hl
      rw [hw] at ht
      have hm := (h.represents _ _).mpr ⟨_, ht⟩
      -- by its number the slot is the one of `k`
      have hslot := h.numbers _ _ _ k n _ x ht hs (fun hd => hself _ (hd ▸ hm))
        (fun hd => hparent _ (hd ▸ hm)) hplain.1 hplain.2
      rw [hslot, hs] at ht
      exact (Prod.mk.inj (Option.some.inj ht)).1.symm
    · rw [h.clean q hq j hj hl, word_zeroes] at hw
      exact absurd hw.symm h0
  · split
    · omega
    · omega
  · refine ⟨p, i, Nat.zero_le p, ?_, hi, hz, (Prod.mk.inj he).1⟩
    split
    · rename_i h12
      by_contra hge
      apply hz
      rw [ref_indirect (by omega) hp, if_pos h12]
    · omega

/-- The second entry of the first block is `..`. -/
theorem dotdotNumber_entry (h : Directory v ino m) {x : ℕ} (hm : m dotdot = some (n, x))
    (hn : n < 4096) (hx : x = FileType.directory.code) :
    part.sb.dataStartLba ≤ ino.iSectors 0 ∧ dotdotNumber v.disk (ino.iSectors 0) = some n := by
  have href : ref v.disk ino 0 = ino.iSectors 0 := ref_direct (by omega)
  obtain ⟨y, hy⟩ := h.parent
  have hmy := (h.represents dotdot y).mpr ⟨_, hy⟩
  obtain rfl := Option.some.inj (hm.symm.trans hmy)
  have hlive : IsLive (rawSlot v.disk (ref v.disk ino) 0 1) := by
    intro hdead
    rw [dirTable, if_pos (by decide), entryOf, if_pos hdead] at hy
    cases hy
  have hz : ref v.disk ino 0 ≠ 0 := by
    intro hz
    apply hlive
    rw [rawSlot_absent hz, word_zeroes]
  have hlba := h.onDisk 0 (by omega)
  have hdata := (h.owns.held 0 (by omega) hz).data.1
  have hbuf : patch zeroes 0 (512 * 1) (window v.disk (512 * ino.iSectors 0)) =
      sectorBuf v.disk (ref v.disk ino 0) := by
    rw [href]
    rfl
  rw [dirTable_live (by omega) (by omega) hlive] at hy
  obtain ⟨-, he⟩ := Prod.mk.inj (Option.some.inj hy)
  obtain ⟨hno, htype⟩ := Prod.mk.inj he
  rw [← word_sectorBuf hz (by omega) (by omega)] at hno htype
  rw [href] at hlba hdata
  refine ⟨hdata, ?_⟩
  have hentry : (DirEntry.ofBytes (sectorBuf v.disk (ref v.disk ino 0)) dirEntrySize).iNo < 4096 ∧
      (DirEntry.ofBytes (sectorBuf v.disk (ref v.disk ino 0)) dirEntrySize).fType =
        FileType.directory.code := ⟨lt_of_eq_of_lt hno hn, htype.trans hx⟩
  rw [dotdotNumber, ideRead_eq (by omega) (by omega), Option.bind_eq_bind, Option.bind_some, hbuf]
  simp only [assert_pos hentry, Option.bind_eq_bind, Option.bind_some]
  exact congrArg some hno

end Block

section Climb

variable {c d p : ℕ} {k : List Byte} {names : List (List Byte)}

theorem entriesOf_child (hc : t.child dots d k = some c) :
    entriesOf t d k = some (c, (typeOf t c).code) := by
  rw [entriesOf, hc, Option.map_some]

theorem typeOf_dir (h : t.IsDir d) : typeOf t d = .directory := by
  obtain ⟨p, E, h⟩ := h
  simp [typeOf, h]

/-- `..` holds the number of the directory above. -/
theorem getParentDirInodeNr_serves (h : Serves s t) (hm : Plentiful s) {E : List Byte → Option ℕ}
    (hd : t d = some (.dir p E)) :
    ∃ s', getParentDirInodeNr d s = some (p, s') ∧ Serves s' t ∧ Plentiful s' ∧
      SameFiles s s' := by
  have hdir : t.IsDir d := ⟨p, E, hd⟩
  have hp := h.disk.tree.parent hd
  have hchild : t.child dots d dotdot = some p := child_up (w := dots) hd (by decide)
  obtain ⟨a, s₁, i, s₂, ho, hi, hcl, hsame, hf₁, hf₂, hm₂, h₂⟩ := inodeLook_serves h hm hdir
  have hdisk : Directory s.vol i (entriesOf t d) :=
    directory_same (h.disk.directory d hdir) hsame.symm
  obtain ⟨hlba, hnumber⟩ := dotdotNumber_entry hdisk (entriesOf_child hchild) (h.disk.lt hp)
    (by rw [typeOf_dir hp])
  refine ⟨s₂, ?_, h₂, hm₂, hf₂⟩
  simp only [getParentDirInodeNr, ho, hi, hcl, assert_pos hlba, hf₂.vol, hnumber,
    Option.bind_eq_bind, Option.bind_some, Option.pure_def]

/-- The directory above has one entry for the number, behind the last name of the path. -/
theorem getChildDirName_serves (h : Serves s t) (hm : Plentiful s)
    (hc : Canonical t c (names ++ [k])) (hd : t.walk dots 0 names = some d) :
    ∃ s', getChildDirName d c s = some (some k, s') ∧ Serves s' t ∧ Plentiful s' ∧
      SameFiles s s' := by
  obtain ⟨p, E, hdir⟩ := hc.dir
  obtain ⟨hwalk, hname, hroot⟩ := walk_plain_last h.disk.tree hc.plain hc.walk hdir
  obtain rfl := Option.some.inj (hwalk.symm.trans hd)
  have hk := hc.plain k (by simp)
  have hp : t.IsDir p := h.disk.tree.parent hdir
  obtain ⟨a, s₁, i, s₂, ho, hi, hcl, hsame, hf₁, hf₂, hm₂, h₂⟩ := inodeLook_serves h hm hp
  have hdisk : Directory s.vol i (entriesOf t p) := directory_same (h.disk.directory p hp) hsame.symm
  have hentry := entriesOf_child ((child_plain (w := dots) hk).mpr hname)
  -- neither `.` nor `..` of the directory above is a way down: depths differ
  obtain ⟨q, E', hp'⟩ := id hp
  have hself : ∀ y, entriesOf t p dot ≠ some (c, y) := by
    intro y hy
    have hdot : t.child dots p dot = some p := child_self (w := dots) hp'
    rw [entriesOf_child hdot] at hy
    obtain ⟨rfl, -⟩ := Prod.mk.inj (Option.some.inj hy)
    have := walk_plain_length h.disk.tree hc.plain hc.plain.of_append hc.walk hwalk hc.dir
    simp at this
  have hparent : ∀ y, entriesOf t p dotdot ≠ some (c, y) := by
    intro y hy
    have hdd : t.child dots p dotdot = some q := child_up (w := dots) hp' (by decide)
    rw [entriesOf_child hdd] at hy
    obtain ⟨rfl, -⟩ := Prod.mk.inj (Option.some.inj hy)
    rcases List.eq_nil_or_concat names with rfl | ⟨pre, l, rfl⟩
    · obtain rfl := Option.some.inj hwalk
      obtain ⟨E₀, htop⟩ := h.disk.tree.top
      exact hroot (Node.dir.inj (Option.some.inj (hp'.symm.trans htop))).1
    · rw [List.concat_eq_append] at hwalk hc
      have hup := (walk_plain_last h.disk.tree hc.plain.of_append hwalk hp').1
      have := walk_plain_length h.disk.tree hc.plain hc.plain.of_append.of_append hc.walk hup hc.dir
      simp at this
  obtain ⟨ab, hab, hfound⟩ := nameOfNumber_entry hdisk hroot hentry hk hself hparent
  refine ⟨s₂, ?_, h₂, hm₂, hf₂⟩
  simp only [getChildDirName, ho, hi, hcl, hf₁.vol, hf₂.vol, hab, hfound, Option.bind_eq_bind,
    Option.bind_some, Option.pure_def]

/-- The climb appends the names of the path, the last one first. -/
theorem cwdLoop_climbs (hc : Canonical t c names) : ∀ {s : Kernel part} {path : List Byte}
    {fuel : ℕ}, Serves s t → Plentiful s → names.length < fuel →
    (path ++ joinPath names.reverse).length < maxPathLen →
    ∃ s', cwdLoop fuel c path s = some (some (path ++ joinPath names.reverse), s') ∧
      Serves s' t ∧ Plentiful s' := by
  induction names using List.reverseRecOn generalizing c with
  | nil =>
    intro s path fuel h hm hfuel _
    obtain rfl := Option.some.inj hc.walk
    obtain ⟨fuel, rfl⟩ : ∃ f, fuel = f + 1 := ⟨fuel - 1, by simp at hfuel; omega⟩
    refine ⟨s, ?_, h, hm⟩
    rw [cwdLoop, if_pos rfl]
    simp [joinPath]
  | append_singleton names k ih =>
    intro s path fuel h hm hfuel hlen
    obtain ⟨p, E, hdir⟩ := hc.dir
    obtain ⟨hwalk, -, hroot⟩ := walk_plain_last h.disk.tree hc.plain hc.walk hdir
    obtain ⟨fuel, rfl⟩ : ∃ f, fuel = f + 1 := ⟨fuel - 1, by omega⟩
    have hjoin : path ++ joinPath (names ++ [k]).reverse =
        path ++ slash :: k ++ joinPath names.reverse := by
      simp [joinPath]
    obtain ⟨s₁, hup, h₁, hm₁, -⟩ := getParentDirInodeNr_serves h hm hdir
    obtain ⟨s₂, hname, h₂, hm₂, -⟩ := getChildDirName_serves h₁ hm₁ hc hwalk
    rw [hjoin] at hlen ⊢
    have hroom : (path ++ slash :: k).length < maxPathLen := by
      rw [List.length_append] at hlen
      omega
    obtain ⟨s₃, hloop, h₃, hm₃⟩ :=
      ih ⟨hc.plain.of_append, hwalk, h.disk.tree.parent hdir⟩ h₂ hm₂ (by simp at hfuel; omega) hlen
    refine ⟨s₃, ?_, h₃, hm₃⟩
    rw [cwdLoop, if_neg hroot]
    simp only [hup, hname, assert_pos hroom, hloop, Option.bind_eq_bind, Option.bind_some]

end Climb

/-- Moving the last component over until none is left turns the path round. -/
theorem reverseLoop_joinPath {names : List (List Byte)} (hn : ∀ c ∈ names, slash ∉ c) :
    ∀ {fuel : ℕ} {buf : List Byte}, names.length ≤ fuel →
    reverseLoop fuel (joinPath names) buf = buf ++ joinPath names.reverse := by
  induction names using List.reverseRecOn with
  | nil =>
    intro fuel buf _
    cases fuel with
    | zero => simp [reverseLoop, joinPath]
    | succ fuel => simp [reverseLoop, joinPath, afterLastSlash]
  | append_singleton names k ih =>
    intro fuel buf hfuel
    obtain ⟨fuel, rfl⟩ : ∃ f, fuel = f + 1 := ⟨fuel - 1, by simp at hfuel; omega⟩
    have hlast : afterLastSlash (joinPath (names ++ [k])) = some k := by
      rw [joinPath_append]
      exact afterLastSlash_append (hn k (by simp)) _
    have htake : (joinPath (names ++ [k])).take ((joinPath (names ++ [k])).length - k.length - 1) =
        joinPath names := by
      rw [joinPath_append, List.length_append, List.length_cons]
      exact List.take_left' (by omega)
    rw [reverseLoop, hlast]
    dsimp only
    rw [htake, ih (fun c hc => hn c (by simp [hc])) (by simp at hfuel; omega)]
    simp [joinPath]

theorem joinPath_reverse_length (names : List (List Byte)) :
    (joinPath names.reverse).length = (joinPath names).length := by
  rw [joinPath, joinPath, List.length_flatMap, List.length_flatMap, List.map_reverse,
    List.sum_reverse]

theorem length_le_joinPath (names : List (List Byte)) : names.length ≤ (joinPath names).length := by
  induction names with
  | nil => exact Nat.zero_le _
  | cons k names ih =>
    simp only [joinPath, List.flatMap_cons, List.length_append, List.length_cons] at ih ⊢
    omega

section Path

variable {d c : ℕ} {k : List Byte} {names : List (List Byte)}

theorem entry_valid {v : Volume part} (h : OnDiskTree v t) (hk : k ≠ dots.self ∧ k ≠ dots.parent)
    (hn : t.Names d k c) : ValidName k := by
  have hm := entriesOf_child ((child_plain (w := dots) hk).mpr hn)
  obtain ⟨p, E, hd, -⟩ := hn
  have hdir := h.directory d ⟨p, E, hd⟩
  obtain ⟨i, hi⟩ := (hdir.represents _ _).mp hm
  exact hdir.names _ _ _ hi

/-- All names of a canonical path are names of entries. -/
theorem Canonical.valid {v : Volume part} (h : OnDiskTree v t) (hs : NoSlash t)
    (hc : Canonical t d names) : ∀ k ∈ names, ValidName k ∧ slash ∉ k := by
  induction names using List.reverseRecOn generalizing d with
  | nil =>
    intro k hk
    cases hk
  | append_singleton names l ih =>
    obtain ⟨p, E, hdir⟩ := hc.dir
    obtain ⟨hwalk, hname, -⟩ := walk_plain_last h.tree hc.plain hc.walk hdir
    intro k hk
    rcases List.mem_append.mp hk with hk | hk
    · exact ih ⟨hc.plain.of_append, hwalk, h.tree.parent hdir⟩ k hk
    · obtain rfl := List.mem_singleton.mp hk
      exact ⟨entry_valid h (hc.plain k (by simp)) hname, hs _ _ _ hname⟩

theorem Canonical.eq_nil_iff (h : WellFormed 0 t) (hc : Canonical t d names) :
    names = [] ↔ d = 0 := by
  constructor
  · rintro rfl
    exact (Option.some.inj hc.walk).symm
  · rintro rfl
    have h0 : t.walk dots 0 [] = some 0 := rfl
    have hnil : PathTree.Plain dots [] := fun k hk => by cases hk
    exact List.length_eq_zero_iff.mp (walk_plain_length h hc.plain hnil hc.walk h0 hc.dir)

theorem joinPath_ok (hne : names ≠ []) (hvalid : ∀ k ∈ names, ValidName k ∧ slash ∉ k)
    (hlen : (joinPath names).length < maxPathLen) :
    PathOk (joinPath names) ∧ components (joinPath names) = names := by
  have hcomp := components_joinPath fun k hk => ⟨(hvalid k hk).1.nonempty, (hvalid k hk).2⟩
  refine ⟨⟨?_, ?_, hlen, by rw [hcomp]; exact hne, ?_⟩, hcomp⟩
  · cases names with
    | nil => exact absurd rfl hne
    | cons k names => rfl
  · intro hz
    obtain ⟨k, hk, hz⟩ := List.mem_flatMap.mp hz
    rcases List.mem_cons.mp hz with hz | hz
    · exact absurd hz (by decide)
    · exact (hvalid k hk).1.string hz
  · rw [hcomp]
    intro k hk
    have := (hvalid k hk).1.short
    omega

/-- `sys_getcwd` returns the path along entries to the current directory, and `search_file` takes
it back there. -/
theorem getcwd_canonical (h : Serves s t) (hm : Plentiful s) (hs : NoSlash t)
    (hc : Canonical t s.cur.cwdInodeNr names) (hlen : (absolutePath names).length < maxPathLen)
    {fuel : ℕ} (hfuel : names.length < fuel) :
    ∃ s', sysGetcwd fuel maxPathLen s = some (some (absolutePath names), s') ∧
      ∀ junk, ∃ record s'', searchFile junk (absolutePath names) zeroRecord s' =
        some (some s.cur.cwdInodeNr, record, s'') := by
  have hlt : (sysMalloc s).2.cur.cwdInodeNr < 4096 := h.disk.lt hc.dir
  have hmem : (sysMalloc s).1 = true := hm 0
  by_cases hroot : s.cur.cwdInodeNr = 0
  · have hnil := (hc.eq_nil_iff h.disk.tree).mpr hroot
    subst names
    refine ⟨(sysMalloc s).2, ?_, fun junk =>
      ⟨⟨[], some .root, .directory⟩, (sysMalloc s).2, ?_⟩⟩
    · have hroot' : (sysMalloc s).2.cur.cwdInodeNr = 0 := hroot
      simp only [sysGetcwd, hmem, hroot', Bool.true_eq_false, ↓reduceIte, Option.bind_eq_bind]
      rfl
    · rw [hroot]
      exact if_pos (.inl rfl)
  · have hne : names ≠ [] := fun hnil => hroot ((hc.eq_nil_iff h.disk.tree).mp hnil)
    have hvalid := hc.valid h.disk hs
    rw [absolutePath, if_neg hne] at hlen ⊢
    have hrev := joinPath_reverse_length names
    have hshort : ([] ++ joinPath names.reverse).length < maxPathLen := by
      rw [List.nil_append, hrev]
      exact hlen
    obtain ⟨s₁, hloop, h₁, hm₁⟩ := cwdLoop_climbs hc h.malloc hm.malloc hfuel hshort
    rw [List.nil_append] at hloop
    have hsize : (joinPath names.reverse).length ≤ maxPathLen := by
      rw [hrev]
      exact hlen.le
    have hturn : reverseLoop (joinPath names.reverse).length (joinPath names.reverse) [] =
        joinPath names := by
      rw [reverseLoop_joinPath (fun k hk => (hvalid k (List.mem_reverse.mp hk)).2)
        (length_le_joinPath _), List.reverse_reverse, List.nil_append]
    refine ⟨s₁, ?_, fun junk => ?_⟩
    · have hroot' : ¬(sysMalloc s).2.cur.cwdInodeNr = 0 := hroot
      have hloop' : cwdLoop fuel (sysMalloc s).2.cur.cwdInodeNr [] (sysMalloc s).2 =
        some (some (joinPath names.reverse), s₁) := hloop
      simp only [sysGetcwd, hmem, assert_pos hlt, if_neg hroot', hloop', assert_pos hsize, hturn,
        Bool.true_eq_false, ↓reduceIte, Option.bind_eq_bind, Option.bind_some, Option.pure_def]
    · obtain ⟨hok, hcomp⟩ := joinPath_ok hne hvalid hlen
      obtain ⟨r, record, s', hrun, -, hr, -⟩ := search_file_walks h₁ hm₁ junk hok
        (by rw [hcomp]; exact noFileBefore_of_walk hc.walk)
      rw [hcomp, hc.walk] at hr
      exact ⟨record, s', by rw [hrun, hr]⟩

end Path

theorem nested_canonical : Canonical nestedTree 1 [nestedName] := by
  refine ⟨?_, by decide, 0, _, rfl⟩
  intro k hk
  obtain rfl := List.mem_singleton.mp hk
  decide

theorem nested_noSlash : NoSlash nestedTree := by
  rintro d k c ⟨p, E, hd, hE⟩
  simp only [nestedTree] at hd
  split at hd
  · obtain ⟨-, rfl⟩ := Node.dir.inj (Option.some.inj hd)
    dsimp only at hE
    split at hE
    · rename_i hk
      rw [hk]
      decide
    · cases hE
  split at hd
  · obtain ⟨-, rfl⟩ := Node.dir.inj (Option.some.inj hd)
    cases hE
  · cases hd

/-- A process in the directory `d` of the small volume. -/
theorem getcwd_canonical_nested : ∃ s s' : Kernel smallPartition, Serves s nestedTree ∧
    s.cur.cwdInodeNr = 1 ∧ sysGetcwd 2 maxPathLen s = some (some (slash :: nestedName), s') := by
  obtain ⟨s, hs, hmem⟩ := openRootDir_mounted nestedVolume (m := fun _ => true) rfl rfl
  have h := booted_serves (openRootDir_some hs) nested_onDisk
  obtain ⟨x, hx⟩ := h.counted
  have h' : Serves { s with cur := { s.cur with cwdInodeNr := 1 } } nestedTree :=
    h.step (hx.withCur _) rfl rfl fun b hb i hi => .inl ⟨i, hi, hb, Inode.Same.refl i⟩
  obtain ⟨s', hrun, -⟩ := getcwd_canonical h' (fun k => by rw [hmem]) nested_noSlash
    nested_canonical (by decide) (show 1 < 2 by omega)
  exact ⟨_, s', h', rfl, hrun⟩

/-- On a machine without a page that is free the call does not return. -/
theorem getcwd_out_of_memory :
    (∀ c size, 0 < size → size ≤ 1024 → MemoryHeap.sysMalloc smallMachine exhausted c size = none) ∧
    ∃ s : Kernel smallPartition, Serves s nestedTree ∧
      Canonical nestedTree s.cur.cwdInodeNr [] ∧
      ∀ fuel, serving 0 Prod.snd (sysGetcwd fuel maxPathLen) s = none := by
  refine ⟨fun c size h0 h1 => exhausted_halts h0 h1, ?_⟩
  obtain ⟨s, hs, -⟩ := openRootDir_mounted nestedVolume (m := fun _ => true) rfl rfl
  have h := booted_serves (openRootDir_some hs) nested_onDisk
  have hcwd : s.cur.cwdInodeNr = 0 := by
    rw [(openRootDir_some hs).cur]
  refine ⟨s, h, ?_, fun fuel => ?_⟩
  · rw [hcwd]
    exact ⟨fun k hk => absurd hk List.not_mem_nil, rfl, h.disk.root⟩
  · -- the one block there is was asked for
    simp only [serving, sysGetcwd, sysMalloc, hcwd]
    rfl

end FsWorkingDirectory
