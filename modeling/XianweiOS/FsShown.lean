import XianweiOS.FsLooked
import XianweiOS.FsNamespace

/-! The files as the kernel shows them: the objects of its tree by their paths, and the open files in
the table. Calls that only look leave them as they are. -/
namespace FsShown

open ByteStore HaltingProgram KernelBitmap DeviceIde FsVolume FsInodeTable FsBlockMap FsOwnership
  FsDirectory FsPath FsOpenFiles FsSyscalls FsReferenceCounts FsReferenceRuns FsKernelFrame
  FsProcesses PathTree FsTree FsSearch FsTreeRemove FsImage FsIntact FsLooked FsNamespace

variable {part : Partition} {S : Prop} {s s' s₁ s₂ : Kernel part} {t : FileTree} {x : ℕ → ℕ}
  {σ : State} {junk : Junk} {pathname : List Byte} {record record' : PathSearchRecord} {n k : ℕ}
  {f : File} {g : OpenFile} {y : ℕ → ℕ}

/-- The number of the inode that slot `k` is open on. -/
def fileNumber (s : Kernel part) (k : ℕ) : Option ℕ :=
  (s.fileTable k).fdInode.bind fun a => (s.inodes a).map Inode.iNo

/-- A slot that is open on inode `n`. A position is inside the file, or behind every file. -/
structure FileShown (v : Volume part) (t : FileTree) (file : File) (n : ℕ) (f : OpenFile) : Prop where
  plain : Plain dots f.path
  walk : t.walk dots 0 f.path = some n
  pos : f.pos = file.fdPos
  flags : f.flags = file.fdFlag
  near : f.pos ≤ (fileBytes v n).length ∨ 71680 ≤ f.pos

structure Shows (s : Kernel part) (t : FileTree) (σ : State) : Prop where
  objects : ∀ q, Plain dots q → σ.objects q = t.look dots 0 (fileBytes s.vol) q
  idle : ∀ k < maxFilesOpen, σ.files k = none ↔ (s.fileTable k).fdInode = none
  beyond : ∀ k f, σ.files k = some f → k < maxFilesOpen
  files : ∀ k < maxFilesOpen, ∀ f, σ.files k = some f →
    ∃ n, fileNumber s k = some n ∧ FileShown s.vol t (s.fileTable k) n f
  fds : σ.fds = s.cur.fdTable

/-- The kernel holds the files of `σ`, in the tree `t`. -/
def Serving (S : Prop) (s : Kernel part) (t : FileTree) (σ : State) : Prop :=
  ∃ x, Intact S s t x ∧ Shows s t σ

def Running (S : Prop) (s : Kernel part) (σ : State) : Prop := ∃ t, Serving S s t σ

/-- A call on `s`, which held the tree `t`, has left the kernel with the files of `σ`: what was a
directory still is one, and the process works where it worked before. -/
def RunsOn (S : Prop) (s : Kernel part) (t : FileTree) (s' : Kernel part) (σ : State) : Prop :=
  ∃ t', Serving S s' t' σ ∧ (∀ d, t.IsDir d → t'.IsDir d) ∧ s'.cur.cwdInodeNr = s.cur.cwdInodeNr

/-- A path that the calls are meant for: a C string that names the root or has a component. -/
structure PathFine (pathname : List Byte) : Prop where
  string : (0 : Byte) ∉ pathname
  named : Rooted pathname ∨ components pathname ≠ []

/-- A file has as many bytes as its inode says. -/
theorem fileBytes_length (v : Volume part) (n : ℕ) :
    (fileBytes v n).length = (diskInode part v.disk n).iSize := by
  simp [fileBytes, FsFileWrite.content]

section Frame

theorem Shows.same (h : Shows s t σ) (hv : s'.vol = s.vol) (hft : s'.fileTable = s.fileTable)
    (hno : ∀ k < maxFilesOpen, fileNumber s' k = fileNumber s k)
    (hcur : s'.cur.fdTable = s.cur.fdTable) : Shows s' t σ := by
  refine ⟨fun q hq => ?_, fun k hk => ?_, h.beyond, fun k hk f hf => ?_, ?_⟩
  · rw [hv]
    exact h.objects q hq
  · rw [hft]
    exact h.idle k hk
  · rw [hno k hk, hv, hft]
    exact h.files k hk f hf
  · rw [hcur]
    exact h.fds

/-- A slot that is open is open on an inode in memory. -/
theorem Intact.fileInode (h : Intact S s t x) (hk : k < maxFilesOpen) {a : ℕ}
    (ha : (s.fileTable k).fdInode = some a) :
    a ∈ s.openInodes ∧ ∃ i, s.inodes a = some i ∧ fileNumber s k = some i.iNo := by
  have hopen := h.counted.fileInode_open hk ha
  obtain ⟨i, hi, -⟩ := h.counted.listed a hopen
  refine ⟨hopen, i, hi, ?_⟩
  rw [fileNumber, ha, Option.bind_some, hi]
  rfl

/-- The number of an open inode does not change. -/
theorem fileNumber_setInode {a : ℕ} {i i' : Inode} (hi : s.inodes a = some i)
    (hno : i'.iNo = i.iNo) : fileNumber (s.setInode a i') k = fileNumber s k := by
  rw [fileNumber, fileNumber, Kernel.setInode_fileTable]
  congr 1
  funext b
  by_cases hb : b = a
  · subst b
    rw [Kernel.setInode_self, hi, Option.map_some, Option.map_some, hno]
  · rw [s.setInode_ne _ hb]

theorem Shows.setInode (hs : Shows s t σ) {a : ℕ} {i i' : Inode} (hi : s.inodes a = some i)
    (hno : i'.iNo = i.iNo) : Shows (s.setInode a i') t σ :=
  hs.same rfl rfl (fun _ _ => fileNumber_setInode hi hno) rfl

/-- Two kernels with the same table, the open inodes of which have the same numbers. -/
theorem fileNumber_congr (h : Intact S s t x) {t' : FileTree} {y : ℕ → ℕ} (h' : Intact S s' t' y)
    (hft : s'.fileTable = s.fileTable) (hno : ∀ a ∈ s.openInodes, ∀ i i', s.inodes a = some i →
      s'.inodes a = some i' → i'.iNo = i.iNo) (hk : k < maxFilesOpen) :
    fileNumber s' k = fileNumber s k := by
  cases ha : (s.fileTable k).fdInode with
  | none => rw [fileNumber, fileNumber, hft, ha, Option.bind_none, Option.bind_none]
  | some a =>
    obtain ⟨hopen, i, hi, hn⟩ := Intact.fileInode h hk ha
    obtain ⟨-, i', hi', hn'⟩ := Intact.fileInode h' hk (hft ▸ ha)
    rw [hn, hn', hno a hopen i i' hi hi']

theorem LookedAt.shows (hl : LookedAt S s t y s') (h : Intact S s t x) (hs : Shows s t σ) :
    Shows s' t σ := by
  refine hs.same hl.vol hl.keeps.fileTable (fun k hk => ?_) (by rw [hl.keeps.cur])
  refine fileNumber_congr h hl.intact hl.keeps.fileTable (fun a ha i i' hi hi' => ?_) hk
  obtain ⟨i₀, hi₀, hno⟩ := hl.keeps.moved a (h.counted.below a ha) i' hi'
  obtain rfl := Option.some.inj (hi.symm.trans hi₀)
  exact hno

theorem Serving.runsOn (h : Serving S s' t σ) (hcwd : s'.cur.cwdInodeNr = s.cur.cwdInodeNr) :
    RunsOn S s t s' σ := ⟨t, h, fun _ hd => hd, hcwd⟩

theorem RunsOn.running (h : RunsOn S s t s' σ) : Running S s' σ := by
  obtain ⟨t', ht, -⟩ := h
  exact ⟨t', ht⟩

/-- The call went through `s₁`, which held the tree `t₁`. -/
theorem RunsOn.after {s₁ : Kernel part} {t₁ : FileTree} (h : RunsOn S s₁ t₁ s' σ)
    (hd : ∀ d, t.IsDir d → t₁.IsDir d) (hcwd : s₁.cur.cwdInodeNr = s.cur.cwdInodeNr) :
    RunsOn S s t s' σ := by
  obtain ⟨t', ht, hdirs, hcwd'⟩ := h
  exact ⟨t', ht, fun d hdir => hdirs d (hd d hdir), hcwd'.trans hcwd⟩

theorem LookedAt.cwd (hl : LookedAt S s t y s') : s'.cur.cwdInodeNr = s.cur.cwdInodeNr :=
  congrArg Task.cwdInodeNr hl.keeps.cur

theorem LookedAt.serving (hl : LookedAt S s t y s') (h : Intact S s t x) (hs : Shows s t σ) :
    Serving S s' t σ := ⟨y, hl.intact, LookedAt.shows hl h hs⟩

theorem LookedAt.running (hl : LookedAt S s t y s') (h : Intact S s t x) (hs : Shows s t σ) :
    RunsOn S s t s' σ :=
  Serving.runsOn (LookedAt.serving hl h hs) (LookedAt.cwd hl)

/-- Another process runs; the directory it works in is not looked at. -/
theorem Serving.withCur (h : Serving S s t σ) (cur : Task) :
    Serving S { s with cur := cur } t { σ with fds := cur.fdTable } := by
  obtain ⟨x, hi, hs⟩ := h
  exact ⟨x, hi.withCur _, hs.objects, hs.idle, hs.beyond, hs.files, rfl⟩

end Frame

section Slots

theorem fileNumber_setFile {l : ℕ} (hl : l ≠ k) : fileNumber (s.setFile k f) l = fileNumber s l := by
  rw [fileNumber, fileNumber, s.setFile_ne f hl]
  rfl

/-- A slot that is open afterwards. -/
theorem Shows.setFile (hs : Shows s t σ) (hk : k < maxFilesOpen) (hidle : f.fdInode ≠ none)
    (hno : fileNumber (s.setFile k f) k = some n) (hf : FileShown s.vol t f n g) :
    Shows (s.setFile k f) t { σ with files := Function.update σ.files k (some g) } := by
  refine ⟨hs.objects, fun l hl => ?_, fun l g' hg => ?_, fun l hl g' hg => ?_, hs.fds⟩
  · by_cases hlk : l = k
    · subst l
      simp [hidle]
    · rw [s.setFile_ne f hlk]
      simp only [Function.update_of_ne hlk]
      exact hs.idle l hl
  · by_cases hlk : l = k
    · rwa [hlk]
    · exact hs.beyond l g' ((Function.update_of_ne hlk _ σ.files).symm.trans hg)
  · by_cases hlk : l = k
    · subst l
      obtain rfl := Option.some.inj ((Function.update_self _ _ σ.files).symm.trans hg)
      rw [Kernel.setFile_self]
      exact ⟨n, hno, hf⟩
    · rw [fileNumber_setFile hlk, s.setFile_ne f hlk]
      exact hs.files l hl g' ((Function.update_of_ne hlk _ σ.files).symm.trans hg)

/-- A slot that is not open afterwards. -/
theorem Shows.clearFile (hs : Shows s t σ) (hidle : f.fdInode = none) :
    Shows (s.setFile k f) t { σ with files := Function.update σ.files k none } := by
  refine ⟨hs.objects, fun l hl => ?_, fun l g' hg => ?_, fun l hl g' hg => ?_, hs.fds⟩
  · by_cases hlk : l = k
    · subst l
      simp [hidle]
    · rw [s.setFile_ne f hlk]
      simp only [Function.update_of_ne hlk]
      exact hs.idle l hl
  · by_cases hlk : l = k
    · subst l
      simp at hg
    · exact hs.beyond l g' ((Function.update_of_ne hlk _ σ.files).symm.trans hg)
  · by_cases hlk : l = k
    · subst l
      simp at hg
    · rw [fileNumber_setFile hlk, s.setFile_ne f hlk]
      exact hs.files l hl g' ((Function.update_of_ne hlk _ σ.files).symm.trans hg)

/-- A slot that was idle and still is. -/
theorem Shows.idleFile (hs : Shows s t σ) (hk : k < maxFilesOpen)
    (hold : (s.fileTable k).fdInode = none) (hidle : f.fdInode = none) :
    Shows (s.setFile k f) t σ := by
  have h := hs.clearFile (k := k) hidle
  rwa [← (hs.idle k hk).mpr hold, Function.update_eq_self] at h

/-- The slot gets the first descriptor that is free. -/
theorem pcbFdInstall_shows
    (hs : Shows s t { σ with files := Function.update σ.files k (some g) }) {fd : ℤ}
    (hp : pcbFdInstall k s = (fd, s')) : ∃ σ', Installs σ k g fd σ' ∧ Shows s' t σ' := by
  have hfds : σ.fds = s.cur.fdTable := hs.fds
  rw [pcbFdInstall] at hp
  split at hp
  · rename_i hnone
    obtain ⟨rfl, rfl⟩ := Prod.mk.inj hp
    refine ⟨_, .exhausted fun j h3 h8 => ?_, hs⟩
    have hj := List.find?_eq_none.mp hnone j (List.mem_range.mpr h8)
    rw [hfds]
    simpa [h3] using hj
  · rename_i j hsome
    obtain ⟨rfl, rfl⟩ := Prod.mk.inj hp
    have hj := List.find?_some hsome
    have h8 := List.mem_range.mp (List.mem_of_find?_eq_some hsome)
    simp only [Bool.and_eq_true, decide_eq_true_eq, Option.isNone_iff_eq_none] at hj
    refine ⟨_, .descriptor hj.1 h8 (hfds ▸ hj.2), hs.objects, hs.idle, hs.beyond, hs.files, ?_⟩
    rw [hfds]

end Slots

section Reached

/-- The object `n` that a path leads to. -/
structure Reached (t : FileTree) (v : Volume part) (O : Objects) (pathname : List Byte) (q : Path)
    (n : ℕ) (N : Node ℕ (List Byte)) : Prop where
  plain : Plain dots q
  walk : t.walk dots 0 q = some n
  node : t n = some N
  leads : Leads O pathname q (N.object (fileBytes v n))

theorem Shows.look (hs : Shows s t σ) {q : Path} (hq : Plain dots q) {N : Node ℕ (List Byte)}
    (hw : t.walk dots 0 q = some n) (hN : t n = some N) :
    σ.objects q = some (N.object (fileBytes s.vol n)) := by
  rw [hs.objects q hq, look_of_walk hw, hN]
  rfl

theorem target_rooted (h : Rooted pathname) : target pathname = [] := by
  rcases h with rfl | rfl | rfl
  · rw [target, rootPath, components_slash, components_nil]
    rfl
  · rw [target, components_rootDotPath]
    decide
  · rw [target, components_rootDotdotPath]
    decide

theorem dots_ne : dots.self ≠ dots.parent := by decide

/-- Where the names `ks` lead. -/
theorem normalise_reached (h : Intact S s t x) (hs : Shows s t σ) {ks : List (List Byte)}
    {N : Node ℕ (List Byte)} (hw : t.walk dots 0 ks = some n) (hN : t n = some N) :
    t.walk dots 0 (normalise dots ks) = some n ∧
      σ.objects (normalise dots ks) = some (N.object (fileBytes s.vol n)) := by
  have hnorm := (walk_normalise h.image.hierarchy.tree dots_ne (dirsBefore_of_walk hw)).1
  rw [hw] at hnorm
  exact ⟨hnorm, hs.look (normalise_plain ks) hnorm hN⟩

theorem Looked.reached {base : List Byte} {pre post : List (List Byte)} {name : List Byte} {m : ℕ}
    (h : Intact S s t x) (hs : Shows s t σ) (he : components pathname = pre ++ name :: post)
    (hl : Looked t base pre name post m (some n) record s') :
    ∃ q N, Reached t s.vol σ.objects pathname q n N := by
  obtain ⟨hc, hlast⟩ := hl.found n rfl
  obtain ⟨N, hN⟩ := h.image.hierarchy.tree.child_some hc
  have hw : t.walk dots 0 (pre ++ [name]) = some n := by
    rw [walk_last, hl.reached, Option.bind_some, hc]
  obtain ⟨hwalk, hobj⟩ := normalise_reached h hs hw hN
  refine ⟨_, N, normalise_plain _, hwalk, hN, hobj, ?_⟩
  rcases hlast with rfl | hfile
  · left
    rw [target, he]
  · right
    obtain rfl := Option.some.inj (hN.symm.trans hfile)
    refine ⟨by simp [Node.object], pre ++ [name], ?_, rfl⟩
    rw [he]
    exact ⟨post, by simp⟩

/-- What a search reports to be there is there. -/
theorem searchFile_reached (h : Intact S s t x) (hs : Shows s t σ) (hp : PathFine pathname)
    (hrun : searchFile junk pathname record s = some (some n, record', s')) :
    ∃ q N, Reached t s.vol σ.objects pathname q n N ∧ record'.fileType = typeOf t n := by
  by_cases hroot : Rooted pathname
  · obtain ⟨hr, rfl, -⟩ := searchFile_rooted hroot hrun
    obtain rfl := Option.some.inj hr
    obtain ⟨E, h0⟩ := h.image.hierarchy.tree.top
    have hplain : Plain dots ([] : Path) := by simp [Plain]
    refine ⟨[], _, ⟨hplain, rfl, h0, hs.look hplain rfl h0, .inl (target_rooted hroot).symm⟩, ?_⟩
    simp [typeOf, h0]
  · obtain ⟨pre, name, post, m, he, hl, -⟩ := searchFile_looked h.serves hp.string
      (hp.named.resolve_left hroot) hroot hrun
    obtain ⟨q, N, hr⟩ := Looked.reached h hs he hl
    exact ⟨q, N, hr, hl.type⟩

theorem Reached.directory {v : Volume part} {O : Objects} {q : Path} {N : Node ℕ (List Byte)}
    (h : Reached t v O pathname q n N) (hd : typeOf t n = .directory) :
    q = target pathname ∧ t.IsDir n ∧ O q = some .directory := by
  have hN := h.node
  cases N with
  | file => simp [typeOf, hN] at hd
  | dir p E =>
    refine ⟨?_, ⟨p, E, hN⟩, h.leads.object⟩
    rcases h.leads.path with hq | ⟨hne, -⟩
    · exact hq
    · exact absurd rfl hne

end Reached

section Open

variable {a : ℕ} {i i' : Inode}

/-- A slot that is open, as the files show it. -/
structure Slot (s : Kernel part) (t : FileTree) (σ : State) (k a n : ℕ) (i : Inode) (g : OpenFile) :
    Prop where
  lt : k < maxFilesOpen
  opened : a ∈ s.openInodes
  inode : s.inodes a = some i
  no : i.iNo = n
  file : t n = some .file
  number : fileNumber s k = some n
  listed : σ.files k = some g
  shown : FileShown s.vol t (s.fileTable k) n g
  same : i.Same (diskInode part s.vol.disk n)
  object : σ.objects g.path = some (.file (fileBytes s.vol n))

theorem slot_open (h : Intact S s t x) (hs : Shows s t σ) (hk : k < maxFilesOpen)
    (ha : (s.fileTable k).fdInode = some a) : ∃ n i g, Slot s t σ k a n i g := by
  obtain ⟨hopen, i, hi, hno⟩ := Intact.fileInode h hk ha
  have hfile := h.files k hk a i ha hi
  have hlisted : σ.files k ≠ none := fun hnone => by
    rw [(hs.idle k hk).mp hnone] at ha
    cases ha
  obtain ⟨g, hg⟩ := Option.ne_none_iff_exists'.mp hlisted
  obtain ⟨n, hn, hf⟩ := hs.files k hk g hg
  obtain rfl := Option.some.inj (hno.symm.trans hn)
  exact ⟨_, i, g, hk, hopen, hi, rfl, hfile, hno, hg, hf, (h.cached a hopen i hi).2,
    hs.look hf.plain hf.walk hfile⟩

/-- Only the position of a slot changes. -/
theorem Slot.move {n : ℕ} {i : Inode} (h : Slot s t σ k a n i g) (hi : Intact S s t x)
    (hs : Shows s t σ) (pos : ℕ) (hpos : pos ≤ (fileBytes s.vol n).length ∨ 71680 ≤ pos) :
    RunsOn S s t (s.setFile k { s.fileTable k with fdPos := pos })
      { σ with files := Function.update σ.files k (some { g with pos := pos }) } := by
  have ha : (s.fileTable k).fdInode ≠ none := fun hnone => by
    have := (hs.idle k h.lt).mpr hnone
    rw [h.listed] at this
    cases this
  refine Serving.runsOn ⟨x, hi.setFile h.lt (fun _ => rfl)
    (fun b j hb hj => hi.files k h.lt b j hb hj) (hi.pipes k), hs.setFile h.lt ha ?_
    ⟨h.shown.plain, h.shown.walk, rfl, h.shown.flags, hpos⟩⟩ rfl
  rw [fileNumber, Kernel.setFile_self]
  exact h.number

/-- The kernel with another inode, on another volume: what is open stands where it stood, and no file
that is open gets shorter. -/
theorem Shows.change (hs : Shows s t σ) (h : Intact S s t x) {v' : Volume part} {t' : FileTree}
    {O : Objects} (hi : s.inodes a = some i) (hno : i'.iNo = i.iNo)
    (hlook : ∀ q, Plain dots q → O q = t'.look dots 0 (fileBytes v') q)
    (hopen : ∀ k < maxFilesOpen, ∀ g, σ.files k = some g → ∀ c, t.walk dots 0 g.path = some c →
      t c = some .file → t'.walk dots 0 g.path = some c ∧
        (fileBytes s.vol c).length ≤ (fileBytes v' c).length) :
    Shows ((s.setInode a i').withVol v') t' { σ with objects := O } := by
  refine ⟨hlook, hs.idle, hs.beyond, fun k hk g hgk => ?_, hs.fds⟩
  obtain ⟨c, hc, hf⟩ := hs.files k hk g hgk
  have hbusy : (s.fileTable k).fdInode ≠ none := fun hnone => by
    rw [(hs.idle k hk).mpr hnone] at hgk
    cases hgk
  obtain ⟨b, hb⟩ := Option.ne_none_iff_exists'.mp hbusy
  obtain ⟨n, j, g', hslot⟩ := slot_open h hs hk hb
  obtain rfl := Option.some.inj (hslot.number.symm.trans hc)
  obtain ⟨hw, hle⟩ := hopen k hk g hgk _ hf.walk hslot.file
  exact ⟨_, (fileNumber_setInode hi hno).trans hc, hf.plain, hw, hf.pos, hf.flags,
    hf.near.imp_left fun hnear => hnear.trans hle⟩

end Open

end FsShown
