import XianweiOS.FsShown

/-! The calls that look at the files and change none of them: `sys_opendir`, `sys_closedir`,
`sys_stat` and `sys_chdir`. -/
namespace FsLookCalls

open ByteStore HaltingProgram KernelBitmap DeviceIde FsVolume FsInodeTable FsBlockMap FsOwnership
  FsFileWrite FsDirectory FsPath FsOpenFiles FsSyscalls FsReferenceCounts FsReferenceRuns
  FsKernelFrame FsProcesses PathTree FsTree FsSearch FsTreeRemove FsImage FsIntact FsLooked
  FsNamespace FsShown

variable {part : Partition} {S : Prop} {s s' s₁ s₂ : Kernel part} {t : FileTree} {x y : ℕ → ℕ}
  {σ : State} {junk : Junk} {pathname : List Byte} {d : Option DirPtr} {n a : ℕ}

/-- The last line of most branches. -/
theorem closeParent_lookedAt (h : LookedAt S s t x s₁) {α : Type} {r r' : α}
    (hrun : (dirClose d s₁ >>= fun u => some (r', u)) = some (r, s')) :
    r = r' ∧ LookedAt S s t x s' := by
  rw [bind_some_iff] at hrun
  obtain ⟨u, hcl, hrun⟩ := hrun
  obtain ⟨rfl, rfl⟩ := Prod.mk.inj (Option.some.inj hrun)
  exact ⟨rfl, h.dirClose hcl⟩

/-- A call that has failed and only looked. -/
theorem failed_running (h : Intact S s t x) (hs : Shows s t σ) (hl : LookedAt S s t x s')
    (c : FsNamespace.Call) :
    ∃ σ', Step c (failure c) σ σ' ∧ RunsOn S s t s' σ' :=
  ⟨σ, .failed c σ, LookedAt.running hl h hs⟩

theorem LookedAt.inodeOpen (h : LookedAt S s t x s₁) (hn : t n ≠ none)
    (ho : FsOpenFiles.inodeOpen n s₁ = some (a, s₂)) : LookedAt S s t (bump x a) s₂ :=
  h.trans ⟨(inodeOpen_intact h.intact hn ho).1,
    (inodeOpen_counted ho h.intact.counted).2.1.vol, inodeOpen_keeps sameNumber_countFree ho⟩

theorem LookedAt.inodeClose (h : LookedAt S s t (bump x a) s₁)
    (hcl : FsOpenFiles.inodeClose a s₁ = some s₂) : LookedAt S s t x s₂ :=
  h.trans ⟨inodeClose_intact h.intact hcl, (inodeClose_same hcl).1.vol,
    inodeClose_keeps sameNumber_countFree hcl⟩

theorem sysOpendir_running (h : Intact S s t x) (hs : Shows s t σ) (hp : PathFine pathname)
    {ret : Option DirPtr} (hrun : sysOpendir junk pathname s = some (ret, s')) :
    ∃ σ', Step (.opendir pathname) (.dir ret) σ σ' ∧ RunsOn S s t s' σ' := by
  simp only [sysOpendir, assert_bind] at hrun
  obtain ⟨-, hrun⟩ := hrun
  split at hrun
  · rename_i hroot
    obtain ⟨rfl, rfl⟩ := Prod.mk.inj (Option.some.inj hrun)
    refine ⟨σ, .openedDir _ ?_, Serving.runsOn ⟨x, h, hs⟩ rfl⟩
    obtain ⟨E, h0⟩ := h.image.hierarchy.tree.top
    rw [target_rooted (.inl hroot)]
    exact hs.look (n := 0) (by simp [Plain]) rfl h0
  · rw [bind_some_iff] at hrun
    obtain ⟨⟨r, record, s₁⟩, hsearch, hrun⟩ := hrun
    obtain ⟨hl, -⟩ := searchFile_lookedAt h hp.string hsearch
    split at hrun
    · rename_i n hno hdir
      simp only at hno hdir
      subst hno
      obtain ⟨q, N, hr, htype⟩ := searchFile_reached h hs hp hsearch
      obtain ⟨rfl, hisDir, hobj⟩ := hr.directory (htype ▸ hdir)
      rw [bind_some_iff] at hrun
      obtain ⟨⟨d, s₂⟩, hop, hrun⟩ := hrun
      obtain ⟨rfl, hl'⟩ := closeParent_lookedAt (hl.dirOpen hisDir hop) hrun
      exact ⟨σ, .openedDir _ hobj, LookedAt.running hl' h hs⟩
    · obtain ⟨rfl, hl'⟩ := closeParent_lookedAt hl hrun
      exact failed_running h hs hl' (.opendir pathname)

theorem sysClosedir_running (h : Intact S s t x) (hs : Shows s t σ) {dir : Option DirPtr} {ret : ℤ}
    (hrun : sysClosedir dir s = some (ret, s')) :
    ∃ σ', Step (.closedir dir) (.int ret) σ σ' ∧ RunsOn S s t s' σ' := by
  cases dir with
  | none =>
    obtain ⟨rfl, rfl⟩ := Prod.mk.inj (Option.some.inj hrun)
    exact failed_running h hs (.refl h) (.closedir none)
  | some d =>
    obtain ⟨rfl, hl⟩ := closeParent_lookedAt (.refl h) hrun
    exact ⟨σ, .closedDir _ σ, LookedAt.running hl h hs⟩

/-- Type and size of an object of the tree. -/
theorem describes {v : Volume part} {N : Node ℕ (List Byte)} (hN : t n = some N) {i : Inode}
    (hi : i.Same (diskInode part v.disk n)) :
    Describes ⟨n, i.iSize, typeOf t n⟩ (N.object (fileBytes v n)) := by
  cases N with
  | file => exact ⟨by simp [typeOf, hN], by rw [fileBytes_length]; exact hi.size⟩
  | dir p E => simp [Describes, Node.object, typeOf, hN]

theorem sysStat_running (h : Intact S s t x) (hs : Shows s t σ) (hp : PathFine pathname)
    {ret : Option Stat} (hrun : sysStat junk pathname s = some (ret, s')) :
    ∃ σ', Step (.stat pathname) (.stat ret) σ σ' ∧ RunsOn S s t s' σ' := by
  rw [sysStat] at hrun
  split at hrun
  · rename_i hroot
    rw [bind_some_iff] at hrun
    obtain ⟨i, -, hrun⟩ := hrun
    obtain ⟨rfl, rfl⟩ := Prod.mk.inj (Option.some.inj hrun)
    obtain ⟨E, h0⟩ := h.image.hierarchy.tree.top
    have hobj := hs.look (n := 0) (q := []) (by simp [Plain]) rfl h0
    exact ⟨σ, .described ⟨hobj, .inl (target_rooted hroot).symm⟩ rfl,
      Serving.runsOn ⟨x, h, hs⟩ rfl⟩
  · rw [bind_some_iff] at hrun
    obtain ⟨⟨r, record, s₁⟩, hsearch, hrun⟩ := hrun
    obtain ⟨hl, -⟩ := searchFile_lookedAt h hp.string hsearch
    cases r with
    | none =>
      obtain ⟨rfl, hl'⟩ := closeParent_lookedAt hl hrun
      exact failed_running h hs hl' (.stat pathname)
    | some n =>
      obtain ⟨q, N, hr, htype⟩ := searchFile_reached h hs hp hsearch
      simp only [bind_some_iff] at hrun
      obtain ⟨⟨a, s₂⟩, hop, i, hi, s₃, hcl, hrun⟩ := hrun
      have hn : t n ≠ none := by simp [hr.node]
      have hl₂ := LookedAt.inodeOpen hl hn hop
      obtain ⟨-, hopen, j, hj, hno⟩ := inodeOpen_intact hl.intact hn hop
      obtain rfl := Option.some.inj (hi.symm.trans hj)
      have hsame := (hl₂.intact.cached a hopen i hi).2
      rw [hno, hl₂.vol] at hsame
      have hrun' : (dirClose record.parentDir s₃ >>= fun u =>
        some (some (⟨n, i.iSize, record.fileType⟩ : Stat), u)) = some (ret, s') := by
        rw [bind_some_iff]
        exact hrun
      obtain ⟨rfl, hl'⟩ := closeParent_lookedAt (LookedAt.inodeClose hl₂ hcl) hrun'
      rw [htype]
      exact ⟨σ, .described hr.leads (describes hr.node hsame), LookedAt.running hl' h hs⟩

/-- The process works in a directory afterwards, or where it worked before. -/
theorem sysChdir_running (h : Intact S s t x) (hs : Shows s t σ) (hp : PathFine pathname)
    {ret : ℤ} (hrun : sysChdir junk pathname s = some (ret, s')) :
    ∃ σ', Step (.chdir pathname) (.int ret) σ σ' ∧ Serving S s' t σ' ∧
      (s'.cur.cwdInodeNr = s.cur.cwdInodeNr ∨ t.IsDir s'.cur.cwdInodeNr) := by
  rw [sysChdir, bind_some_iff] at hrun
  obtain ⟨⟨r, record, s₁⟩, hsearch, hrun⟩ := hrun
  obtain ⟨hl, -⟩ := searchFile_lookedAt h hp.string hsearch
  simp only at hrun
  split at hrun
  · rename_i n hdir
    obtain ⟨q, N, hr, htype⟩ := searchFile_reached h hs hp hsearch
    obtain ⟨rfl, hisDir, hobj⟩ := hr.directory (htype ▸ hdir)
    have hs₁ := LookedAt.shows hl h hs
    have hi₂ := hl.intact.withCur { s₁.cur with cwdInodeNr := n }
    have hs₂ : Shows { s₁ with cur := { s₁.cur with cwdInodeNr := n } } t σ :=
      hs₁.same rfl rfl (fun _ _ => rfl) rfl
    obtain ⟨rfl, hl'⟩ := closeParent_lookedAt (.refl hi₂) hrun
    refine ⟨σ, .moved hobj, LookedAt.serving hl' hi₂ hs₂, .inr ?_⟩
    rw [LookedAt.cwd hl']
    exact hisDir
  · obtain ⟨rfl, hl'⟩ := closeParent_lookedAt hl hrun
    exact ⟨σ, .failed (.chdir pathname) σ, LookedAt.serving hl' h hs, .inl (LookedAt.cwd hl')⟩

end FsLookCalls
