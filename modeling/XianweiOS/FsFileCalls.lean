import XianweiOS.FsLookCalls
import XianweiOS.FsFilePosition

/-! The calls on open files: opening a file that is there, `sys_close`, `sys_read`, `sys_write` and
`sys_lseek`. -/
namespace FsFileCalls

open ByteStore HaltingProgram KernelBitmap DeviceIde FsVolume FsInodeTable FsBlockMap FsOwnership
  FsFreeBlocks FsFileWrite FsFileAppend FsFileRead FsFilePosition FsStore FsStoreRuns FsDirectory
  FsPath FsOpenFiles FsSyscalls HolderCount FsReferenceCounts FsReferenceRuns FsKernelFrame
  FsProcesses PathTree FsTree FsSearch FsTreeRemove FsImage FsIntact FsLooked FsNamespace FsShown
  FsLookCalls

variable {part : Partition} {S : Prop} {s s' s₁ s₂ : Kernel part} {t : FileTree} {x y : ℕ → ℕ}
  {σ : State} {junk : Junk} {pathname : List Byte} {d : Option DirPtr} {n a k fd : ℕ} {f : File}
  {g : OpenFile}

section Open

theorem pcbFdInstall_cwd {fd : ℤ} (hp : pcbFdInstall k s = (fd, s')) :
    s'.cur.cwdInodeNr = s.cur.cwdInodeNr := by
  rw [pcbFdInstall] at hp
  split at hp <;>
    · obtain ⟨-, rfl⟩ := Prod.mk.inj hp
      rfl

/-- A file of the tree that gets a slot. -/
theorem openSlot_running (h : Intact S s t (bump x a)) (hs : Shows s t σ) {q : Path}
    (hq : Plain dots q) (hw : t.walk dots 0 q = some n) (hfile : t n = some .file) {i : Inode}
    (hi : s.inodes a = some i) (hno : i.iNo = n) (hk : k < maxFilesOpen)
    (hfree : (s.fileTable k).fdInode = none) {flag : ℕ} (hflag : flag ≤ 7) {fd : ℤ}
    (hp : pcbFdInstall k (s.setFile k ⟨0, flag, some a⟩) = (fd, s')) :
    ∃ σ', Installs σ k ⟨q, 0, flag⟩ fd σ' ∧ RunsOn S s t s' σ' := by
  have hint : Intact S (s.setFile k ⟨0, flag, some a⟩) t x := by
    refine h.setFile hk (fun b => ?_) (fun b j hb hj => ?_) ?_
    · rw [fileSlots, hfree, weight_none]
      rfl
    · obtain rfl := Option.some.inj hb
      obtain rfl := Option.some.inj (hi.symm.trans hj)
      rw [hno]
      exact hfile
    · have : flag < pipeFlag := by
        rw [pipeFlag]
        omega
      exact this.ne
  have hnumber : fileNumber (s.setFile k ⟨0, flag, some a⟩) k = some n := by
    rw [fileNumber, Kernel.setFile_self, Option.bind_some, Kernel.setFile_inodes, hi, ← hno]
    rfl
  have hshows := Shows.setFile (g := ⟨q, 0, flag⟩) hs (f := ⟨0, flag, some a⟩) hk
    (Option.some_ne_none a) hnumber ⟨hq, hw, rfl, rfl, .inl (Nat.zero_le _)⟩
  obtain ⟨σ', hin, hs'⟩ := pcbFdInstall_shows hshows hp
  have hint' := hint.pcbFdInstall k
  have hcwd := pcbFdInstall_cwd hp
  rw [hp] at hint'
  exact ⟨σ', hin, Serving.runsOn ⟨x, hint', hs'⟩ hcwd⟩

/-- What the task of the file says is not looked at. -/
theorem fileOpen_running (h : Intact S s t x) (hs : Shows s t σ) {q : Path} (hq : Plain dots q)
    (hw : t.walk dots 0 q = some n) (hfile : t n = some .file) {flag : ℕ} (hflag : flag ≤ 7)
    {fd : ℤ} (hrun : fileOpen n flag s = some (fd, s')) :
    (fd = -1 ∧ RunsOn S s t s' σ) ∨
      ∃ k σ', σ.files k = none ∧ Installs σ k ⟨q, 0, flag⟩ fd σ' ∧ RunsOn S s t s' σ' := by
  rw [fileOpen] at hrun
  split at hrun
  · obtain ⟨rfl, rfl⟩ := Prod.mk.inj (Option.some.inj hrun)
    exact .inl ⟨rfl, Serving.runsOn ⟨x, h, hs⟩ rfl⟩
  rename_i k hslot
  obtain ⟨hk, hfree⟩ := getFreeSlotInGlobal_some hslot
  simp only [bind_some_iff] at hrun
  obtain ⟨⟨a, s₁⟩, hop, i, hi, hrun⟩ := hrun
  have hl := LookedAt.inodeOpen (.refl h) (by simp [hfile]) hop
  obtain ⟨hint, -, j, hj, hno⟩ := inodeOpen_intact h (by simp [hfile]) hop
  obtain rfl := Option.some.inj (hi.symm.trans hj)
  have hs₁ := LookedAt.shows hl h hs
  have hcwd := LookedAt.cwd hl
  have hfree₁ : (s₁.fileTable k).fdInode = none := by
    rw [hl.keeps.fileTable]
    exact hfree
  have hidle := (hs.idle k hk).mpr hfree
  split at hrun
  · obtain ⟨σ', hin, hrun'⟩ := openSlot_running hint hs₁ hq hw hfile hi hno hk hfree₁ hflag
      (Option.some.inj hrun)
    exact .inr ⟨k, σ', hidle, hin, hrun'.after (fun _ hd => hd) hcwd⟩
  split at hrun
  · -- the first writer is noted in the inode
    have hint' : Intact S (s₁.setInode a { i with writeDeny := true }) t (bump x a) :=
      hint.setInode hi ⟨rfl, rfl, fun _ _ => rfl⟩ rfl
    obtain ⟨σ', hin, hrun'⟩ := openSlot_running hint' (hs₁.setInode hi rfl) hq hw hfile
      (s₁.setInode_self a _) hno hk hfree₁ hflag (Option.some.inj hrun)
    exact .inr ⟨k, σ', hidle, hin, hrun'.after (fun _ hd => hd) hcwd⟩
  · obtain ⟨rfl, rfl⟩ := Prod.mk.inj (Option.some.inj hrun)
    refine .inl ⟨rfl, Serving.runsOn ⟨bump x a, ?_, hs₁.idleFile hk hfree₁ rfl⟩ hcwd⟩
    refine hint.setFile hk (fun b => ?_) (fun b j hb _ => by cases hb) ?_
    · rw [fileSlots, hfree₁]
    · have : flag < pipeFlag := by
        rw [pipeFlag]
        omega
      exact this.ne

end Open

section Read

/-- What a completed read has done: nothing, or it has delivered what there is from its position
on. A position behind every file stops the machine. -/
theorem fileRead_some {v : Volume part} {i : Inode} {c : List Byte} (h : Readable v i c)
    {m₁ m₂ : Bool} {pos count : ℕ} {buf : Bytes} {res : ReadResult}
    (hpos : pos ≤ c.length ∨ 71680 ≤ pos)
    (hrun : fileRead m₁ m₂ pos i v.disk buf count = some res) :
    res = ⟨-1, pos, buf⟩ ∨ (pos ≤ c.length ∧ res.ret = (min count (c.length - pos) : ℕ) ∧
      res.fdPos = pos + min count (c.length - pos) ∧
      (List.range (min count (c.length - pos))).map res.buf =
        (c.drop pos).take (min count (c.length - pos)) ∧
      ∀ j, min count (c.length - pos) ≤ j → res.buf j = buf j) := by
  have hlen : c.length = i.iSize := by
    rw [← h.content]
    simp [content]
  have hsize := h.layout.size
  have hcopy := hrun
  simp only [fileRead] at hcopy
  generalize hs : (if (pos + count) % 2 ^ 32 > i.iSize then (i.iSize + 2 ^ 32 - pos) % 2 ^ 32
    else count) = size at hcopy
  split at hcopy
  · exact .inl (Option.some.inj hcopy).symm
  split at hcopy
  · exact .inl (Option.some.inj hcopy).symm
  split at hcopy
  · exact .inl (Option.some.inj hcopy).symm
  rename_i hm₁ hm₂
  simp only [bind_some_iff, assert_eq_some] at hcopy
  obtain ⟨-, ⟨hend, hstart⟩, ab, -, ⟨br, pos', buf'⟩, hloop, -⟩ := hcopy
  obtain ⟨hp, hle⟩ := readLoop_moves _ hloop (by omega) (by omega)
  have hpos : pos ≤ i.iSize := by omega
  -- a count that wraps around is cut off like one that does not
  have hsame : ∃ count', pos + count' < 2 ^ 32 ∧ available i pos count' = available i pos count ∧
      fileRead m₁ m₂ pos i v.disk buf count' = some res ∧
      (pos + available i pos count') / 512 < 139 ∧ (count' = 0 ↔ count = 0) := by
    by_cases hwrap : pos + count < 2 ^ 32
    · refine ⟨count, hwrap, rfl, hrun, ?_, Iff.rfl⟩
      have : size = available i pos count := by
        unfold available
        split at hs <;> omega
      omega
    · have hclamp : (pos + count) % 2 ^ 32 > i.iSize := by
        by_contra hno
        rw [if_neg hno] at hs
        omega
      have hclamp' : (pos + (i.iSize - pos + 1)) % 2 ^ 32 > i.iSize := by omega
      refine ⟨i.iSize - pos + 1, by omega, by unfold available; omega, ?_, ?_, by omega⟩
      · rw [← hrun]
        simp only [fileRead, hclamp, hclamp', ↓reduceIte, true_and]
      · rw [if_pos hclamp] at hs
        unfold available
        omega
  obtain ⟨count', hwrap, havail, hrun', hend', hzero⟩ := hsame
  have hm : m₁ = true ∧ m₂ = true := by simpa using And.intro hm₁ hm₂
  rw [hm.1, hm.2, fileRead_eq h pos count' hpos hwrap hend', havail] at hrun'
  obtain rfl := Option.some.inj hrun'
  have hn : available i pos count = min count (c.length - pos) := by rw [hlen]; rfl
  rw [hn]
  by_cases heof : 0 < count' ∧ pos = i.iSize
  · left
    rw [if_pos heof, show min count (c.length - pos) = 0 by omega, patch_zero]
    rfl
  · right
    rw [if_neg heof]
    refine ⟨by omega, rfl, rfl, ?_, fun j hj => ?_⟩
    · exact patched_slice h pos _ (by omega) buf
    · have hout : ¬(0 ≤ j ∧ j < 0 + min count (c.length - pos)) := fun hin => by
        rw [Nat.zero_add] at hin
        exact absurd hj (Nat.not_le.mpr hin.2)
      simp only [patch_out hout]

/-- A file of the tree can be read. -/
theorem Image.readable {v : Volume part} (h : Image S v t) (hn : t n = some .file) {i : Inode}
    (hi : i.Same (diskInode part v.disk n)) : Readable v i (fileBytes v n) := by
  have hne : t n ≠ none := by simp [hn]
  have hd : OnDisk (ref v.disk i) := by
    rw [ref_same hi]
    exact h.consistent.onDisk n hne
  have hl := h.layout_same hn hi
  refine ⟨hl, fun k hk => hd (k / 512) ?_, ?_, Growth.content_same _ hi⟩
  · have := hl.size
    omega
  · rw [← ref_table v.disk i]
    exact hd 140 (by omega)

theorem sysRead_running (h : Intact S s t x) (hs : Shows s t σ) {buf : Bytes} {count : ℕ}
    {r : ℤ × Bytes} (hrun : sysRead fd buf count s = some (r, s')) :
    ∃ σ', Step (.read fd buf count) (.bytes r.1 r.2) σ σ' ∧ RunsOn S s t s' σ' := by
  rw [sysRead] at hrun
  split at hrun
  · obtain ⟨rfl, rfl⟩ := Prod.mk.inj (Option.some.inj hrun)
    exact ⟨σ, .failed (.read fd buf count) σ, Serving.runsOn ⟨x, h, hs⟩ rfl⟩
  rw [assert_bind] at hrun
  obtain ⟨-, hrun⟩ := hrun
  rw [bind_some_iff] at hrun
  obtain ⟨k, hlocal, hrun⟩ := hrun
  obtain ⟨-, hfd, hk⟩ := fdLocal2global_some hlocal
  rw [assert_bind] at hrun
  obtain ⟨-, hrun⟩ := hrun
  simp only [fileReadFrom, bind_some_iff, Option.pure_def, Option.some.injEq, Prod.mk.injEq] at hrun
  obtain ⟨a, ha, i, hi, res, hread, rfl, rfl⟩ := hrun
  obtain ⟨n, i', g, hslot⟩ := slot_open h hs hk ha
  obtain rfl := Option.some.inj (hi.symm.trans hslot.inode)
  have hint : Intact S (sysMalloc (sysMalloc s).2).2 t x := h.malloc.malloc
  have hshows : Shows (sysMalloc (sysMalloc s).2).2 t σ := hs.same rfl rfl (fun _ _ => rfl) rfl
  have hslot' : Slot (sysMalloc (sysMalloc s).2).2 t σ k a n i g := { hslot with }
  have hnear := hslot.shown.near
  rw [hslot.shown.pos] at hnear
  rcases fileRead_some (Image.readable h.image hslot.file hslot.same) hnear hread with
    rfl | ⟨hpos, hret, hfdPos, hout, hrest⟩
  · refine ⟨σ, .failed (.read fd buf count) σ, ?_⟩
    have hmove := hslot'.move hint hshows (s.fileTable k).fdPos hnear
    rw [← hslot.shown.pos, show ({ g with pos := g.pos } : OpenFile) = g from rfl, ← hslot.listed,
      Function.update_eq_self] at hmove
    rw [← hslot.shown.pos]
    exact hmove
  · rw [← hslot.shown.pos] at hpos hret hfdPos hout hrest
    rw [hret, hfdPos]
    have hend : g.pos + min count ((fileBytes s.vol n).length - g.pos) ≤
        (fileBytes s.vol n).length := by omega
    refine ⟨_, .read (hs.fds ▸ hfd) hslot.listed hslot.object hpos rfl hout hrest, ?_⟩
    exact hslot'.move hint hshows _ (.inl hend)

end Read

section Seek

theorem sysLseek_running (h : Intact S s t x) (hs : Shows s t σ) {ioqWord : ℕ} {offset : ℤ}
    {whence : Whence} {ret : ℤ} (hrun : sysLseek ioqWord fd offset whence s = some (ret, s')) :
    ∃ σ', Step (.lseek fd offset whence) (.int ret) σ σ' ∧ RunsOn S s t s' σ' := by
  simp only [sysLseek, bind_some_iff] at hrun
  obtain ⟨k, hlocal, a, ha, hrun⟩ := hrun
  obtain ⟨-, hfd, hk⟩ := fdLocal2global_some hlocal
  obtain ⟨n, i, g, hslot⟩ := slot_open h hs hk ha
  rw [if_neg (h.pipes k), bind_some_iff] at hrun
  obtain ⟨size, hsize, hrun⟩ := hrun
  rw [hslot.inode] at hsize
  obtain rfl := Option.some.inj hsize
  have hlen : i.iSize = (fileBytes s.vol n).length := by
    rw [fileBytes_length]
    exact hslot.same.size
  rw [hlen, ← hslot.shown.pos] at hrun
  split at hrun
  · obtain ⟨rfl, rfl⟩ := Prod.mk.inj (Option.some.inj hrun)
    exact ⟨σ, .failed (.lseek fd offset whence) σ, Serving.runsOn ⟨x, h, hs⟩ rfl⟩
  · rename_i hseek
    obtain ⟨rfl, rfl⟩ := Prod.mk.inj (Option.some.inj hrun)
    have hseek := eq_true_of_ne_false hseek
    exact ⟨_, .sought (hs.fds ▸ hfd) hslot.listed hslot.object hseek,
      hslot.move h hs _ (.inl (seekTarget_le hseek))⟩

end Seek

section Close

/-- A slot gives up its file. -/
theorem fileClose_running (h : Intact S s t x) (hs : Shows s t σ) (hk : k < maxFilesOpen) {ret : ℤ}
    (hrun : fileClose k s = some (ret, s')) : ret = 0 ∧ s'.cur = s.cur ∧ ∃ g, σ.files k = some g ∧
      RunsOn S s t s' { σ with files := Function.update σ.files k none } := by
  simp only [fileClose, bind_some_iff, Option.pure_def, Option.some.injEq, Prod.mk.injEq] at hrun
  obtain ⟨a, ha, i, hi, s₁, hcl, rfl, rfl⟩ := hrun
  obtain ⟨n, i', g, hslot⟩ := slot_open h hs hk ha
  have hsame := (inodeClose_same hcl).1
  refine ⟨rfl, hsame.cur, g, hslot.listed,
    Serving.runsOn ?_ (congrArg Task.cwdInodeNr hsame.cur)⟩
  -- the slot gives its reference up before the inode is closed
  have hint : Intact S (s.setInode a { i with writeDeny := false }) t x :=
    h.setInode hi ⟨rfl, rfl, fun _ _ => rfl⟩ rfl
  have hshows : Shows (s.setInode a { i with writeDeny := false }) t σ := hs.setInode hi rfl
  have hint' : Intact S ((s.setInode a { i with writeDeny := false }).setFile k
      { s₁.fileTable k with fdInode := none }) t (bump x a) := by
    refine hint.setFile hk (fun b => ?_) (fun b j hb _ => by cases hb) ?_
    · rw [weight_none, show fileSlots (s.setInode a { i with writeDeny := false }) k = some a from ha,
        bump, Nat.add_zero]
    · rw [hsame.fileTable]
      exact h.pipes k
  have hclosed := inodeClose_setFile hcl k { s₁.fileTable k with fdInode := none }
  have hl := LookedAt.inodeClose (.refl hint') hclosed
  exact LookedAt.serving hl hint' (hshows.clearFile rfl)

/-- The descriptors of the running process are its own. -/
theorem RunsOn.withFds (h : RunsOn S s t s' σ) (fds : ℕ → Option ℕ) :
    RunsOn S s t { s' with cur := { s'.cur with fdTable := fds } } { σ with fds := fds } := by
  obtain ⟨t', ht, hd, hcwd⟩ := h
  exact ⟨t', Serving.withCur ht { s'.cur with fdTable := fds }, hd, hcwd⟩

/-- A descriptor behind the standard ones is closed together with its slot. -/
theorem sysClose_closed (h : Intact S s t x) (hs : Shows s t σ) (hfd : ¬fd ≤ 2) {ret : ℤ}
    (hrun : sysClose fd s = some (ret, s')) : ret = 0 ∧
      s'.cur.fdTable = Function.update σ.fds fd none ∧ ∃ k g, σ.fds fd = some k ∧
        σ.files k = some g ∧ RunsOn S s t s' { σ with
          files := Function.update σ.files k none
          fds := Function.update σ.fds fd none } := by
  rw [sysClose, if_neg hfd, bind_some_iff] at hrun
  obtain ⟨k, hlocal, hrun⟩ := hrun
  obtain ⟨-, hk, hlt⟩ := fdLocal2global_some hlocal
  simp only [if_neg (h.pipes k)] at hrun
  rw [bind_some_iff] at hrun
  obtain ⟨⟨ret', s₁⟩, hcl, hrun⟩ := hrun
  obtain ⟨rfl, rfl⟩ := Prod.mk.inj (Option.some.inj hrun)
  obtain ⟨rfl, hcur, g, hg, hrunning⟩ := fileClose_running h hs hlt hcl
  rw [hs.fds, ← hcur]
  rw [← hcur] at hk
  exact ⟨rfl, rfl, k, g, hk, hg, RunsOn.withFds hrunning _⟩

theorem sysClose_running (h : Intact S s t x) (hs : Shows s t σ) {ret : ℤ}
    (hrun : sysClose fd s = some (ret, s')) :
    ∃ σ', Step (.close fd) (.int ret) σ σ' ∧ RunsOn S s t s' σ' := by
  by_cases hfd : fd ≤ 2
  · rw [sysClose, if_pos hfd] at hrun
    obtain ⟨rfl, rfl⟩ := Prod.mk.inj (Option.some.inj hrun)
    exact ⟨σ, .failed (.close fd) σ, Serving.runsOn ⟨x, h, hs⟩ rfl⟩
  · obtain ⟨rfl, -, k, g, hk, hg, hrunning⟩ := sysClose_closed h hs hfd hrun
    exact ⟨_, .closed hk hg, hrunning⟩

end Close

section Write

variable {v : Volume part} {i i' : Inode} {w v' : Volume part} {buf : Bytes} {count : ℕ}

/-- The bytes of the files behind a write. -/
theorem Growth.look (hg : Growth S v t n i buf count w i' v') {p q : Path} (hp : Plain dots p)
    (hq : Plain dots q) (hw : t.walk dots 0 p = some n) : t.look dots 0 (fileBytes v') q =
      if q = p then some (.file (fileBytes v n ++ (List.range count).map buf))
      else t.look dots 0 (fileBytes v) q := by
  rw [← look_update hg.image.hierarchy hq hp hw hg.file]
  refine look_congr (fun _ => Iff.rfl) fun c _ => ?_
  by_cases hc : c = n
  · subst c
    rw [Function.update_self, hg.bytes]
  · rw [Function.update_of_ne hc]
    cases hnode : t c with
    | none => rfl
    | some N =>
      cases N with
      | file => rw [(hg.kept (by simp [hnode]) hc).bytes (hg.image.layout c hnode)]
      | dir p E => rfl

/-- No file gets shorter. -/
theorem Growth.longer (hg : Growth S v t n i buf count w i' v') {c : ℕ} (hc : t c = some .file) :
    (fileBytes v c).length ≤ (fileBytes v' c).length := by
  by_cases hn : c = n
  · subst c
    rw [hg.bytes, List.length_append]
    exact Nat.le_add_right _ _
  · rw [(hg.kept (by simp [hc]) hn).bytes (hg.image.layout c hc)]

/-- The kernel behind the write. -/
theorem Growth.intact (hg : Growth S s.vol t n i buf count w i' v') (h : Intact S s t x)
    (ha : a ∈ s.openInodes) (hi : s.inodes a = some i) (hno : i.iNo = n) :
    Intact S ((s.setInode a i').withVol v') t x := by
  refine h.moves ⟨hg.image', ha, hi, hg.no'.trans hno.symm, hg.appended.head.cnts, ?_,
    fun b hb j hj hne => ?_, fun _ _ _ _ hf => hf⟩
  · rw [hno]
    exact ⟨by simp [hg.file], hg.same'⟩
  · have hc := (h.cached b hb j hj).1
    exact ⟨hc, (hg.kept hc (hno ▸ hne)).same⟩

theorem Growth.shows (hg : Growth S s.vol t n i buf count w i' v') (h : Intact S s t x)
    (hs : Shows s t σ) (hi : s.inodes a = some i) (hno : i.iNo = n) {p : Path} (hp : Plain dots p)
    (hw : t.walk dots 0 p = some n) :
    Shows ((s.setInode a i').withVol v') t { σ with
      objects := Function.update σ.objects p
        (some (.file (fileBytes s.vol n ++ (List.range count).map buf))) } := by
  refine hs.change h hi (hg.no'.trans hno.symm) (fun q hq => ?_) fun k _ g _ c hw hc =>
    ⟨hw, Growth.longer hg hc⟩
  rw [Function.update_apply, hs.objects q hq, Growth.look hg hp hq hw]

theorem setInode_same (hi : s.inodes a = some i) : s.setInode a i = s := by
  rw [Kernel.setInode, ← hi, Function.update_eq_self]

/-- A write to `fd` catches up with every sector of the block bitmap that it changes. -/
def Masked (s : Kernel part) (fd count : ℕ) : Prop :=
  ∀ k a i, s.cur.fdTable fd = some k → (s.fileTable k).fdInode = some a → s.inodes a = some i →
    WriteMasked i count s.vol.blockBitmap

theorem fileWriteTo_running (h : Intact S s t x) (hs : Shows s t σ) (hk : k < maxFilesOpen)
    (hfd : σ.fds fd = some k) (hmode : writable (s.fileTable k).fdFlag = true)
    (hmask : S → Masked s fd count) {ret : ℤ} (hrun : fileWriteTo k buf count s = some (ret, s')) :
    ∃ σ', Step (.write fd buf count) (.int ret) σ σ' ∧ RunsOn S s t s' σ' := by
  simp only [fileWriteTo, bind_some_iff, Option.pure_def, Option.some.injEq, Prod.mk.injEq] at hrun
  obtain ⟨a, ha, i, hi, res, hwrite, rfl, rfl⟩ := hrun
  obtain ⟨n, i', g, hslot⟩ := slot_open h hs hk ha
  obtain rfl := Option.some.inj (hi.symm.trans hslot.inode)
  have hint : Intact S (sysMalloc (sysMalloc s).2).2 t x := h.malloc.malloc
  have hshows : Shows (sysMalloc (sysMalloc s).2).2 t σ := hs.same rfl rfl (fun _ _ => rfl) rfl
  have hslot' : Slot (sysMalloc (sysMalloc s).2).2 t σ k a n i g := { hslot with }
  have hnear := hslot.shown.near
  rcases Image.write h.image hslot.file hslot.same hwrite
    (fun hS => hmask hS k a i (hs.fds ▸ hfd) ha hi) with hres | ⟨hret, hpos, w, hg⟩
  · rw [hres]
    refine ⟨σ, .failed (.write fd buf count) σ, ?_⟩
    have hmove := hslot'.move hint hshows g.pos hnear
    rw [show ({ g with pos := g.pos } : OpenFile) = g from rfl, ← hslot.listed,
      Function.update_eq_self, hslot.shown.pos] at hmove
    rw [setInode_same (s := (sysMalloc (sysMalloc s).2).2) hi]
    exact hmove
  · have hlen : (fileBytes s.vol n).length = i.iSize := by
      rw [fileBytes_length]
      exact hslot.same.size.symm
    have hroom : (fileBytes s.vol n).length + count < 71680 := by
      rw [hlen]
      exact hg.short
    rw [hret]
    refine ⟨_, .written hfd hslot.listed (hslot.shown.flags ▸ hmode) hslot.object hroom, ?_⟩
    have hg' : Growth S (sysMalloc (sysMalloc s).2).2.vol t n i buf count w res.inode res.vol := hg
    have hint' := Growth.intact hg' hint hslot.opened hi hslot.no
    have hshows' := Growth.shows hg' hint hshows hi hslot.no hslot.shown.plain hslot.shown.walk
    have hno := hg.no'
    have hbytes := hg.bytes
    have hopen : Slot (((sysMalloc (sysMalloc s).2).2.setInode a res.inode).withVol res.vol) t
        { σ with
          objects := Function.update σ.objects g.path
            (some (.file (fileBytes s.vol n ++ (List.range count).map buf))) }
        k a n res.inode g := by
      refine ⟨hk, hslot.opened, Kernel.setInode_self _ _ _, hno, hslot.file, ?_, hslot.listed,
        ⟨hslot.shown.plain, hslot.shown.walk, hslot.shown.pos, hslot.shown.flags, ?_⟩, hg.same', ?_⟩
      · exact (fileNumber_setInode hi (hno.trans hslot.no.symm)).trans hslot.number
      · exact hnear.imp_left fun hle => hle.trans (Growth.longer hg hslot.file)
      · exact (Function.update_self _ _ _).trans (congrArg (some ∘ Object.file) hbytes.symm)
    have hmove := hopen.move hint' hshows' (behindWrite (fileBytes s.vol n).length count) ?_
    · rw [behindWrite, hlen] at hmove ⊢
      rw [hpos]
      exact hmove
    · have hlen' : (fileBytes res.vol n).length = (fileBytes s.vol n).length + count := by
        rw [hbytes]
        simp
      have : behindWrite (fileBytes s.vol n).length count ≤ (fileBytes res.vol n).length ∨
          71680 ≤ behindWrite (fileBytes s.vol n).length count := by
        rw [hlen', behindWrite]
        omega
      exact this

theorem sysWrite_running (h : Intact S s t x) (hs : Shows s t σ) (hmask : S → Masked s fd count)
    {ret : ℤ}
    (hrun : sysWrite fd buf count s = some (ret, s')) :
    ∃ σ', Step (.write fd buf count) (.int ret) σ σ' ∧ RunsOn S s t s' σ' := by
  rw [sysWrite] at hrun
  split at hrun
  · rename_i hfd
    rw [assert_bind] at hrun
    obtain ⟨-, hrun⟩ := hrun
    obtain ⟨rfl, rfl⟩ := Prod.mk.inj (Option.some.inj hrun)
    exact ⟨σ, .printed hfd, Serving.runsOn ⟨x, h, hs⟩ rfl⟩
  rw [bind_some_iff] at hrun
  obtain ⟨k, hlocal, hrun⟩ := hrun
  obtain ⟨-, hfd, hk⟩ := fdLocal2global_some hlocal
  rw [assert_bind] at hrun
  obtain ⟨-, hrun⟩ := hrun
  split at hrun
  · rename_i hmode
    exact fileWriteTo_running h hs hk (hs.fds ▸ hfd) hmode hmask hrun
  · obtain ⟨rfl, rfl⟩ := Prod.mk.inj (Option.some.inj hrun)
    exact ⟨σ, .failed (.write fd buf count) σ, Serving.runsOn ⟨x, h, hs⟩ rfl⟩

end Write

end FsFileCalls
