import XianweiOS.FsFileCalls
import XianweiOS.FsCreation

/-! The calls that add objects: `sys_open` with `O_CREAT`, and `sys_mkdir`. Their search has missed
the last name of the path in an open directory; with memory it is not there. -/
namespace FsTreeCalls

open ByteStore HaltingProgram KernelBitmap DeviceIde FsVolume FsInodeTable FsBlockMap FsOwnership
  FsFreeBlocks FsFileWrite FsStore FsDirectory FsDirectorySlots FsDirectoryTable FsDirectoryMap
  FsDirectoryRuns FsPath FsOpenFiles FsSyscalls HolderCount FsReferenceCounts FsReferenceRuns
  FsKernelFrame FsProcesses PathTree FsTree FsSearch FsConsistentTree FsTreeInsert FsTreeRemove
  FsImage FsIntact FsLooked FsNamespace FsShown FsLookCalls FsFileCalls

variable {part : Partition} {S : Prop} {s s' s₁ s₂ : Kernel part} {t : FileTree} {x y : ℕ → ℕ}
  {σ : State} {junk : Junk} {pathname : List Byte} {d : Option DirPtr} {n m a : ℕ} {k : List Byte}
  {i i' new : Inode} {v₁ v₂ v₃ : Volume part} {N : Node ℕ (List Byte)} {q : Path}

/-- The open directory `m`, under the path `q`, in which the name `k` is free. -/
structure Spot (S : Prop) (s : Kernel part) (t : FileTree) (x : ℕ → ℕ) (σ : State) (d : Option DirPtr)
    (q : Path) (k : List Byte) (a m : ℕ) (i : Inode) : Prop where
  intact : Intact S s t x
  shows : Shows s t σ
  dir : t.IsDir m
  handle : dirInode s d = some a
  opened : a ∈ s.openInodes
  inode : s.inodes a = some i
  no : i.iNo = m
  name : ValidName k
  absent : t.child dots m k = none
  plain : Plain dots q
  path : t.walk dots 0 q = some m
  number : ∃ n < 256, s.vol.inodeBit n = false

namespace Spot

variable (h : Spot S s t x σ d q k a m i)

include h

theorem fresh : k ≠ dot ∧ k ≠ dotdot := by
  obtain ⟨p, E, hd⟩ := h.dir
  have habsent := h.absent
  constructor
  · rintro rfl
    exact Option.some_ne_none m ((child_self (w := dots) hd).symm.trans habsent)
  · rintro rfl
    exact Option.some_ne_none p ((child_up (w := dots) hd dots_ne).symm.trans habsent)

theorem same : i.Same (diskInode part s.vol.disk m) := by
  rw [← h.no]
  exact (h.intact.cached a h.opened i h.inode).2

theorem near : m < 256 := by
  obtain ⟨p, E, hd⟩ := h.dir
  exact h.intact.image.near m (by simp [hd])

theorem directory : Directory s.vol i (entriesOf t m) :=
  directory_same (h.intact.image.consistent.tree.directory m h.dir) h.same.symm

/-- The name is free among the files that are shown. -/
theorem vacant : Vacant σ.objects q k := by
  obtain ⟨p, E, hd⟩ := h.dir
  refine ⟨h.fresh, h.shows.look h.plain h.path hd, ?_⟩
  have hnone : t.walk dots 0 (q ++ [k]) = none := by
    rw [walk_last, h.path, Option.bind_some, h.absent]
  rw [h.shows.objects _ (h.plain.concat h.fresh), Tree.look, hnone]
  rfl

/-- The number that is taken for a new object. -/
theorem alloc {r : Option ℕ} {v : Volume part} (hal : inodeBitmapAlloc s.vol = some (r, v)) :
    ∃ n < 256, r = some n ∧ v = s.vol.setInodeBit n true ∧ s.vol.inodeBit n = false ∧ t n = none := by
  obtain ⟨n, rfl, rfl, hlow⟩ := inodeBitmapAlloc_some hal
  obtain ⟨j, hj, hclear⟩ := h.number
  have hn : n < 256 := by
    by_contra hge
    exact Bool.false_ne_true (hclear.symm.trans (hlow.2.2 j (by omega)))
  refine ⟨n, hn, rfl, rfl, hlow.2.1, ?_⟩
  by_contra hnode
  exact Bool.false_ne_true (hlow.2.1.symm.trans (h.intact.image.consistent.allocated n hnode))

/-- The insertion of an object whose inode has been prepared. -/
theorem insertion (hn : n < 256) (hfree : t n = none) (hclear : s.vol.inodeBit n = false)
    (hp : Prepared s.vol n new v₁) (hu : N.Under m) (hN : N.Bare)
    (hfilled : ∀ p E, N = .dir p E → NewDirectory v₁ new n m)
    (hentered : syncDirEntry ⟨k, n, (typeOf (t.insert m k n N) n).code⟩ i v₁ = some (true, i', v₂))
    (hsynced : syncNewInode i' new v₂ = some v₃) : Insertion s.vol t m n k N i new i' v₁ v₂ v₃ :=
  ⟨h.intact.image.consistent, h.dir, h.near, h.same, h.name, h.fresh, h.absent, hfree, hclear, hn,
    hu, hN, hp, hfilled, hentered, hsynced⟩

end Spot

theorem insertion_dirs {v : Volume part} (hi : Insertion v t m n k N i new i' v₁ v₂ v₃) {d : ℕ}
    (hd : t.IsDir d) : (t.insert m k n N).IsDir d :=
  (insert_isDir (ne_of_isDir hi.free hd)).mpr hd

section Insert

variable {v : Volume part} (hi : Insertion v t m n k N i new i' v₁ v₂ v₃) (h : Image S v t)

include hi h

/-- The files of the smaller tree have the bytes they had. -/
theorem insertion_old {c : ℕ} (hc : t c = some .file) : fileBytes v₃ c = fileBytes v c := by
  have hne : t c ≠ none := by simp [hc]
  refine (insertion_kept hi (h.allocated.mpr hne) ?_ ?_).bytes (h.layout c hc)
  · rintro rfl
    obtain ⟨p, E, hd⟩ := hi.dir
    rw [hc] at hd
    cases hd
  · rintro rfl
    exact hne hi.free

/-- The objects behind an insertion. -/
theorem insertion_look (hnew : N = .file → new = inodeInit n) (hq : Plain dots q)
    (hw : t.walk dots 0 q = some m) {p : Path} (hp : Plain dots p) :
    (t.insert m k n N).look dots 0 (fileBytes v₃) p =
      if p = q ++ [k] then some (N.object []) else t.look dots 0 (fileBytes v) p := by
  have hbytes : (t.insert m k n N).look dots 0 (fileBytes v₃) p =
      (t.insert m k n N).look dots 0 (Function.update (fileBytes v) n (fileBytes v₃ n)) p := by
    refine look_congr (fun _ => Iff.rfl) fun c _ => ?_
    by_cases hc : c = n
    · subst c
      rw [Function.update_self]
    · rw [Function.update_of_ne hc]
      cases hnode : t c with
      | none => rw [insert_none hc hnode]; rfl
      | some M =>
        cases M with
        | file => rw [insertion_old hi h hnode]
        | dir p E => rw [insert_dir hc hnode]; rfl
  rw [hbytes, look_insert h.hierarchy hi.dir hi.free hi.absent hi.under hi.bare
    (hq.concat hi.plain) hw (fun x hx => Function.update_of_ne hx _ _) hp, Function.update_self]
  congr 2
  cases hN : N with
  | file => rw [insertion_bytes hi (hnew hN)]
  | dir p E => rfl

end Insert

section Kernel

variable (h : Spot S s t x σ d q k a m i) (hi : Insertion s.vol t m n k N i new i' v₁ v₂ v₃)
  (hnew : N = .file → new = inodeInit n)

include h hi

theorem insertion_no : i'.iNo = i.iNo := hi.no'.trans h.no.symm

include hnew

/-- The kernel behind an insertion. -/
theorem insertion_intact : Intact S ((s.setInode a i').withVol v₃) (t.insert m k n N) x := by
  have him := h.intact.image
  refine h.intact.moves ⟨him.insert hi hnew, h.opened, h.inode, insertion_no h hi,
    (syncDirEntry_entered hi.entered).cnts, ?_, fun b hb j hj hne => ?_, fun b hb j hj hf => ?_⟩
  · rw [h.no]
    refine ⟨insert_ne_none.mpr (.inr ?_), hi.parent₃⟩
    obtain ⟨p, E, hd⟩ := hi.dir
    simp [hd]
  · have hc := (h.intact.cached b hb j hj).1
    have hjn : j.iNo ≠ n := fun he => hc (he ▸ hi.free)
    exact ⟨insert_ne_none.mpr (.inr hc),
      (insertion_kept hi (him.allocated.mpr hc) (h.no ▸ hne) hjn).same⟩
  · have hjn : j.iNo ≠ n := fun he => by
      rw [he, hi.free] at hf
      cases hf
    exact insert_file hjn hf

theorem insertion_shows : Shows ((s.setInode a i').withVol v₃) (t.insert m k n N) { σ with
    objects := Function.update σ.objects (q ++ [k]) (some (N.object [])) } := by
  have him := h.intact.image
  refine h.shows.change h.intact h.inode (insertion_no h hi) (fun p hp => ?_) fun l _ g _ c hw hc =>
    ⟨walk_insert hi.dir hi.free hi.plain hi.absent hw, (insertion_old hi him hc).symm ▸ le_rfl⟩
  rw [Function.update_apply, h.shows.objects p hp, insertion_look hi him hnew h.plain h.path hp]

end Kernel

section Search

/-- A search that has not ended in a directory, or has a path behind it, was along a name. -/
theorem search_named (hz : (0 : Byte) ∉ pathname) {record record' : PathSearchRecord}
    {r : Option ℕ} (hrun : searchFile junk pathname record s = some (r, record', s₁))
    (hbehind : record'.fileType ≠ .directory ∨ record'.searchedPath ≠ record.searchedPath) :
    PathFine pathname := by
  refine ⟨hz, or_iff_not_imp_left.mpr fun hroot hc => ?_⟩
  obtain ⟨htype, hpath⟩ := searchFile_nameless hc hroot hrun
  exact hbehind.elim (absurd htype) (absurd hpath)

/-- A search that has missed the last name of a path has found the place for it. -/
theorem search_spot (h : Intact S s t x) (hs : Shows s t σ) (hp : PathFine pathname)
    (hm : Plentiful s) (hnumber : ∃ n < 256, s.vol.inodeBit n = false)
    {record : PathSearchRecord}
    (hrun : searchFile junk pathname zeroRecord s = some (none, record, s₁)) {c c' : Byte}
    {depth depth' : ℕ} (hd : pathDepthCnt c pathname = some depth)
    (hd' : pathDepthCnt c' record.searchedPath = some depth') (heq : depth = depth') :
    ∃ q k a m i, Spot S s₁ t x σ record.parentDir q k a m i ∧ target pathname = q ++ [k] ∧
      (∃ pre, components pathname = pre ++ [k]) ∧
      afterLastSlash record.searchedPath = some k := by
  have hroot : ¬Rooted pathname := fun hroot => by
    cases (searchFile_rooted hroot hrun).1
  obtain ⟨pre, k, post, m, he, hl, hsure⟩ := searchFile_looked h.serves hp.string
    (hp.named.resolve_left hroot) hroot hrun
  obtain rfl := hl.last he hd hd' heq
  have hsure := hsure hm
  obtain ⟨hlooked, -⟩ := searchFile_lookedAt h hp.string hrun
  obtain ⟨a, i, ha, hopen, hi, hno⟩ := hsure.parent
  have hmem : k ∈ components pathname := by
    rw [he]
    simp
  obtain ⟨hne, hslash⟩ := components_valid k hmem
  obtain ⟨p, E, hdir⟩ := hl.dir
  have hspot : Spot S s₁ t x σ record.parentDir (normalise dots pre) k a m i := by
    refine ⟨hlooked.intact, LookedAt.shows hlooked h hs, hl.dir, ha, hopen, hi, hno,
      ⟨hne, Nat.lt_succ_of_le hl.short, fun hz => hp.string (components_mem k hmem 0 hz)⟩,
      hsure.missed rfl, normalise_plain pre, (normalise_reached h hs hl.reached hdir).1, ?_⟩
    rw [hlooked.vol]
    exact hnumber
  have hfresh : k ≠ dots.self ∧ k ≠ dots.parent := hspot.fresh
  have hpath : record.searchedPath = joinPath (pre ++ [k]) := hl.path
  refine ⟨_, k, a, m, i, hspot, ?_, ⟨pre, he⟩, ?_⟩
  · rw [target, he, normalise_append, push, if_neg hfresh.1, if_neg hfresh.2]
  · rw [hpath, joinPath_append]
    exact afterLastSlash_append hslash _

end Search

section Mkdir

/-- The area of the inode bitmap is not that of the blocks. -/
theorem newDirectory_changes {n m : ℕ} {v : Volume part}
    (h : newDirectory n m v = some (some new, v₁)) :
    Changes (fun a => a ∉ inodeBitmapArea part) v.disk v₁.disk := by
  obtain ⟨new', l, -, hat⟩ := newDirectory_some h
  refine hat.frame.mono fun a ha hin => ?_
  have hb := part.bounds
  rcases ha with ha | ha
  · simp only [inodeBitmapArea, blockBitmapArea, mem_span] at hin ha
    omega
  · simp only [inodeBitmapArea, sector, mem_span] at hin ha
    omega

/-- What a directory that is given up leaves: a block that stays in use. -/
theorem giveUp_running (h : Spot S s t x σ d q k a m i) (hp : Prepared s.vol n new v₁)
    (hclear : s.vol.inodeBit n = false)
    (hsync : Changes (fun a => a ∉ inodeBitmapArea part) s.vol.disk v₁.disk) :
    Intact S ((s.setInode a i).withVol (v₁.setInodeBit n false)) t x ∧
      Shows ((s.setInode a i).withVol (v₁.setInodeBit n false)) t σ := by
  obtain ⟨him, hkept⟩ := h.intact.image.giveUp hp hclear hsync
  have hdir : t i.iNo ≠ none := (h.intact.cached a h.opened i h.inode).1
  constructor
  · refine h.intact.moves ⟨him, h.opened, h.inode, rfl, rfl, ⟨hdir, ?_⟩, fun b hb j hj _ => ?_,
      fun _ _ _ _ hf => hf⟩
    · exact (h.intact.cached a h.opened i h.inode).2.trans (hkept _ hdir).same.symm
    · have hc := (h.intact.cached b hb j hj).1
      exact ⟨hc, (hkept _ hc).same⟩
  · have hbytes : ∀ c, t c = some .file →
        fileBytes (v₁.setInodeBit n false) c = fileBytes s.vol c := fun c hc =>
      (hkept c (by simp [hc])).bytes (h.intact.image.layout c hc)
    refine h.shows.change h.intact h.inode rfl (fun p hp => ?_) fun l _ g _ c hw hc =>
      ⟨hw, (hbytes c hc).symm ▸ le_rfl⟩
    rw [h.shows.objects p hp]
    refine (look_congr (fun _ => Iff.rfl) fun c _ => ?_).symm
    cases hnode : t c with
    | none => rfl
    | some M =>
      cases M with
      | file => rw [hbytes c hnode]
      | dir p E => rfl

theorem mkdirIn_running (h : Spot S s t x σ d q k a m i) {ret : ℤ}
    (hrun : mkdirIn d k s = some (ret, s')) : (ret = -1 ∧ RunsOn S s t s' σ) ∨
      (ret = 0 ∧ RunsOn S s t s' { σ with
        objects := Function.update σ.objects (q ++ [k]) (some .directory) }) := by
  rw [mkdirIn, bind_some_iff] at hrun
  obtain ⟨⟨r, v⟩, hal, hrun⟩ := hrun
  obtain ⟨n, hn, rfl, rfl, hclear, hfree⟩ := h.alloc hal
  have hnear := h.near
  simp only [bind_some_iff] at hrun
  obtain ⟨a', ha, i₀, hi, ⟨r, v₁⟩, hnew, hrun⟩ := hrun
  obtain rfl := Option.some.inj (h.handle.symm.trans ha)
  obtain rfl := Option.some.inj (h.inode.symm.trans hi)
  rw [h.no] at hnew
  obtain ⟨new, -, rfl, -⟩ := newDirectory_some hnew
  obtain ⟨hprep, hdir⟩ := prepared_directory (by omega) (by omega) hnew
  have hchanges := newDirectory_changes hnew
  rw [setInodeBit_disk] at hchanges
  simp only [bind_some_iff] at hrun
  obtain ⟨e, he, ⟨ok, i', v₂⟩, hsync, hrun⟩ := hrun
  obtain rfl : (⟨k, n, FileType.directory.code⟩ : DirEntry) = e := by
    simp only [createDirEntry, assert_bind] at he
    exact Option.some.inj he.2
  cases ok with
  | false =>
    rcases syncDirEntry_some hsync (hprep.spared.directory h.directory).owns with
      ⟨-, rfl, rfl, -⟩ | ⟨hok, -⟩
    · obtain ⟨hint, hshows⟩ := giveUp_running h hprep hclear hchanges
      obtain ⟨rfl, hl⟩ := closeParent_lookedAt (.refl hint) hrun
      exact .inl ⟨rfl, (LookedAt.running hl hint hshows).after (fun _ hd => hd) rfl⟩
    · cases hok
  | true =>
    simp only [Bool.true_eq_false, ↓reduceIte] at hrun
    rw [bind_some_iff] at hrun
    obtain ⟨v₃, hsynced, hrun⟩ := hrun
    have hbare : (Node.dir m fun _ => none : Node ℕ (List Byte)).Bare := by
      intro p E he l
      obtain ⟨-, rfl⟩ := Node.dir.inj he
      rfl
    have hins := h.insertion hn hfree hclear hprep (N := .dir m fun _ => none) rfl hbare
      (fun _ _ _ => hdir) (by rw [typeOf, insert_self]; exact hsync) hsynced
    have hint := insertion_intact h hins (fun he => by cases he)
    have hshows := insertion_shows h hins (fun he => by cases he)
    obtain ⟨rfl, hl⟩ := closeParent_lookedAt (.refl hint) hrun
    exact .inr ⟨rfl, (LookedAt.running hl hint hshows).after (fun _ hd => insertion_dirs hins hd) rfl⟩

theorem sysMkdir_running (h : Intact S s t x) (hs : Shows s t σ) (hz : (0 : Byte) ∉ pathname)
    (hm : Plentiful s) (hnumber : ∃ n < 256, s.vol.inodeBit n = false) {ret : ℤ}
    (hrun : sysMkdir junk pathname s = some (ret, s')) :
    ∃ σ', Step (.mkdir pathname) (.int ret) σ σ' ∧ RunsOn S s t s' σ' := by
  have hint := h.malloc
  have hshows : Shows (sysMalloc s).2 t σ := hs.same rfl rfl (fun _ _ => rfl) rfl
  simp only [sysMkdir] at hrun
  split at hrun
  · obtain ⟨rfl, rfl⟩ := Prod.mk.inj (Option.some.inj hrun)
    exact ⟨σ, .failed (.mkdir pathname) σ, Serving.runsOn ⟨x, hint, hshows⟩ rfl⟩
  rw [bind_some_iff] at hrun
  obtain ⟨⟨r, record, s₁⟩, hsearch, hrun⟩ := hrun
  obtain ⟨hl, -⟩ := searchFile_lookedAt hint hz hsearch
  cases r with
  | some n =>
    obtain ⟨rfl, hl'⟩ := closeParent_lookedAt hl hrun
    exact failed_running hint hshows hl' (.mkdir pathname)
  | none =>
    simp only [bind_some_iff] at hrun
    obtain ⟨depth, hd, depth', hd', hrun⟩ := hrun
    split at hrun
    · obtain ⟨rfl, hl'⟩ := closeParent_lookedAt hl hrun
      exact failed_running hint hshows hl' (.mkdir pathname)
    · rename_i heq
      rw [bind_some_iff] at hrun
      obtain ⟨dirname, hname, hrun⟩ := hrun
      have hp : PathFine pathname := search_named hz hsearch (.inr fun hempty => by
        rw [hempty] at hname
        cases hname)
      obtain ⟨q, k, a, m, i, hspot, htarget, -, hlast⟩ := search_spot hint hshows hp hm.malloc
        hnumber hsearch hd hd' (not_not.mp heq)
      obtain rfl := Option.some.inj (hlast.symm.trans hname)
      have hcwd : s₁.cur.cwdInodeNr = s.cur.cwdInodeNr :=
        LookedAt.cwd (s := (sysMalloc s).2) hl
      rcases mkdirIn_running hspot hrun with ⟨rfl, hrunning⟩ | ⟨rfl, hrunning⟩
      · exact ⟨σ, .failed (.mkdir pathname) σ, hrunning.after (fun _ hd => hd) hcwd⟩
      · exact ⟨_, .madeDir htarget hspot.vacant, hrunning.after (fun _ hd => hd) hcwd⟩

end Mkdir

section Create

variable {j flag : ℕ}

section Fields

variable (s : Kernel part) (a : ℕ) (i' : Inode) (n j flag : ℕ) (v : Volume part)

theorem createdFile_new : (createdFile s a i' n j flag v).inodes s.next =
    some { inodeInit n with openCnts := 1 } := Function.update_self _ _ _

theorem createdFile_old {b : ℕ} (hb : b ≠ s.next) :
    (createdFile s a i' n j flag v).inodes b = (s.setInode a i').inodes b :=
  Function.update_of_ne hb _ _

theorem createdFile_slot : (createdFile s a i' n j flag v).fileTable j = ⟨0, flag, some s.next⟩ :=
  Function.update_self _ _ _

theorem createdFile_files {l : ℕ} (hl : l ≠ j) :
    (createdFile s a i' n j flag v).fileTable l = s.fileTable l := Function.update_of_ne hl _ _

end Fields

/-- The new file is open, in a slot of its own. -/
theorem createdFile_intact (h : Spot S s t x σ d q k a m i)
    (hi : Insertion s.vol t m n k .file i (inodeInit n) i' v₁ v₂ v₃) (hflag : flag ≤ 7)
    (hj : j < maxFilesOpen) (hslot : (s.fileTable j).fdInode = none) :
    Intact S (createdFile s a i' n j flag v₃) (t.insert m k n .file) x := by
  have h₀ := insertion_intact h hi fun _ => rfl
  have hc : Counted (createdFile s a i' n j flag v₃) x :=
    createdFile_counted h.intact.counted hj hslot h.inode (syncDirEntry_entered hi.entered).cnts
  have hne : a ≠ s.next := fun he => lt_irrefl _ (he ▸ h.intact.counted.below a h.opened)
  -- whatever is open is the new inode, or was open before
  have hopen : ∀ b ∈ s.next :: s.openInodes, ∀ l, (createdFile s a i' n j flag v₃).inodes b = some l →
      (b = s.next ∧ l.Same (inodeInit n) ∧ l.iNo = n) ∨ (b ≠ s.next ∧ b ∈ s.openInodes ∧
        (s.setInode a i').inodes b = some l ∧ l.iNo ≠ n) := by
    intro b hb l hl
    by_cases hbn : b = s.next
    · subst b
      rw [createdFile_new] at hl
      obtain rfl := Option.some.inj hl
      exact .inl ⟨rfl, ⟨rfl, rfl, fun _ _ => rfl⟩, rfl⟩
    · have hbs := (List.mem_cons.mp hb).resolve_left hbn
      have hl' := hl
      rw [createdFile_old _ _ _ _ _ _ _ hbn] at hl'
      refine .inr ⟨hbn, hbs, hl', fun he => ?_⟩
      by_cases hba : b = a
      · subst b
        obtain rfl := Option.some.inj ((s.setInode_self a i').symm.trans hl')
        exact hi.ne (hi.no'.symm.trans he)
      · rw [s.setInode_ne _ hba] at hl'
        exact (h.intact.cached b hbs l hl').1 (he ▸ hi.free)
  obtain ⟨r, hr, hr0⟩ := h₀.root
  have hrn : s.rootInode ≠ s.next := fun he =>
    lt_irrefl _ (he ▸ h.intact.counted.below _ (h.intact.counted.dirInode_open (d := some .root) rfl))
  have hself : (inodeInit n).Same (diskInode part v₃.disk n) := hi.syncedNew.self.symm
  have hfile : t.insert m k n .file n = some .file := insert_self
  refine ⟨h₀.image, hc, ⟨r, (createdFile_old _ _ _ _ _ _ _ hrn).trans hr, hr0⟩,
    fun b hb l hl => ?_,
    fun b hb c hc' l l' hl hl' he => ?_, fun l hl b o hf ho => ?_, fun l => ?_⟩
  · rcases hopen b hb l hl with ⟨rfl, hsame, hno⟩ | ⟨-, hbs, hl', -⟩
    · rw [hno]
      exact ⟨by simp [hfile], hsame.trans hself⟩
    · exact h₀.cached b hbs l hl'
  · rcases hopen b hb l hl with ⟨rfl, -, hno⟩ | ⟨-, hbs, hl₁, hno⟩ <;>
      rcases hopen c hc' l' hl' with ⟨rfl, -, hno'⟩ | ⟨-, hcs, hl₂, hno'⟩
    · rfl
    · exact absurd (he.symm.trans hno) hno'
    · exact absurd (he.trans hno') hno
    · exact h₀.single b hbs c hcs l l' hl₁ hl₂ he
  · by_cases hlj : l = j
    · subst l
      have hb : b = s.next := by
        rw [createdFile_slot] at hf
        exact (Option.some.inj hf).symm
      subst b
      rcases hopen _ List.mem_cons_self o ho with ⟨-, -, hno⟩ | ⟨hbn, -⟩
      · rw [hno]
        exact hfile
      · exact absurd rfl hbn
    · have hf' : (s.fileTable l).fdInode = some b := by
        rwa [createdFile_files _ _ _ _ _ _ _ hlj] at hf
      have hbs := h.intact.counted.fileInode_open hl hf'
      rcases hopen b (List.mem_cons_of_mem _ hbs) o ho with ⟨rfl, -⟩ | ⟨-, -, ho', -⟩
      · exact absurd (h.intact.counted.below _ hbs) (lt_irrefl _)
      · exact h₀.files l hl b o hf' ho'
  · by_cases hlj : l = j
    · subst l
      have hlt : flag < pipeFlag := by
        rw [pipeFlag]
        omega
      rw [createdFile_slot]
      exact hlt.ne
    · rw [createdFile_files _ _ _ _ _ _ _ hlj]
      exact h.intact.pipes l

theorem createdFile_shows (h : Spot S s t x σ d q k a m i)
    (hi : Insertion s.vol t m n k .file i (inodeInit n) i' v₁ v₂ v₃) (hj : j < maxFilesOpen) :
    Shows (createdFile s a i' n j flag v₃) (t.insert m k n .file) { σ with
      objects := Function.update σ.objects (q ++ [k]) (some (.file []))
      files := Function.update σ.files j (some ⟨q ++ [k], 0, flag⟩) } := by
  have hshows := insertion_shows h hi fun _ => rfl
  -- the kernel as it would be without the slot
  have hbefore : Shows { createdFile s a i' n j flag v₃ with fileTable := s.fileTable }
      (t.insert m k n .file) { σ with
        objects := Function.update σ.objects (q ++ [k]) (some (.file [])) } := by
    refine hshows.same rfl rfl (fun l hl => ?_) rfl
    simp only [fileNumber]
    refine Option.bind_congr fun b hb => ?_
    have hbs := h.intact.counted.fileInode_open hl hb
    have hbn : b ≠ s.next := fun he => lt_irrefl _ (he ▸ h.intact.counted.below b hbs)
    exact congrArg _ (createdFile_old _ _ _ _ _ _ _ hbn)
  have hwalk : (t.insert m k n .file).walk dots 0 (q ++ [k]) = some n :=
    (walk_concat hi.plain).mpr ⟨m, walk_insert hi.dir hi.free hi.plain hi.absent h.path,
      insert_names_self hi.dir hi.ne⟩
  refine hbefore.setFile (k := j) (f := ⟨0, flag, some s.next⟩) (g := ⟨q ++ [k], 0, flag⟩)
    hj (Option.some_ne_none _) (n := n) ?_
    ⟨h.plain.concat hi.plain, hwalk, rfl, rfl, .inl (Nat.zero_le _)⟩
  rw [fileNumber, Kernel.setFile_self, Option.bind_some, Kernel.setFile_inodes]
  exact congrArg (Option.map Inode.iNo) (createdFile_new s a i' n j flag v₃)

/-- A slot that was idle was taken and is given back. -/
theorem slotBack_running (h : Intact S s t x) (hs : Shows s t σ) (hc : Counted s' x) (hp : NoPipes s')
    (hv : s'.vol = s.vol) (hr : s'.rootInode = s.rootInode) (hcur : s'.cur = s.cur)
    (hopen : s'.openInodes = s.openInodes) (hi : ∀ b ∈ s.openInodes, s'.inodes b = s.inodes b)
    (hslot : (s.fileTable j).fdInode = none) (hback : (s'.fileTable j).fdInode = none)
    (hother : ∀ l, l ≠ j → s'.fileTable l = s.fileTable l) : RunsOn S s t s' σ := by
  have hft : ∀ l, (s'.fileTable l).fdInode = (s.fileTable l).fdInode := by
    intro l
    by_cases hlj : l = j
    · rw [hlj, hback, hslot]
    · rw [hother l hlj]
  have hnumber : ∀ l < maxFilesOpen, fileNumber s' l = fileNumber s l := by
    intro l hl
    rw [fileNumber, fileNumber, hft l]
    refine Option.bind_congr fun b hb => ?_
    rw [hi b (h.counted.fileInode_open hl hb)]
  refine Serving.runsOn ⟨x, h.keepFiles hc hv hr hp (fun l _ b hb => hft l ▸ hb) fun b hb l hl => ?_,
    fun p hp => ?_, fun l hl => ?_, hs.beyond, fun l hl g hg => ?_, ?_⟩
    (congrArg Task.cwdInodeNr hcur)
  · rw [hopen] at hb
    exact ⟨l, (hi b hb) ▸ hl, hb, Inode.Same.refl l⟩
  · rw [hv]
    exact hs.objects p hp
  · rw [hft l]
    exact hs.idle l hl
  · have hlj : l ≠ j := by
      rintro rfl
      have hnone := (hs.idle l hl).mpr hslot
      rw [hg] at hnone
      cases hnone
    rw [hnumber l hl, hv, hother l hlj]
    exact hs.files l hl g hg
  · rw [hcur]
    exact hs.fds

/-- `file_create` with a number for the file and a slot of the table. -/
theorem fileCreateAt_running (h : Spot S s t x σ d q k a m i) (hn : n < 256) (hfree : t n = none)
    (hclear : s.vol.inodeBit n = false) (hflag : flag ≤ 7) (hj : j < maxFilesOpen)
    (hslot : (s.fileTable j).fdInode = none) {fd : ℤ}
    (hrun : fileCreateAt d k n s.next j (((s.withVol (s.vol.setInodeBit n true)).newInode
      (inodeInit n)).setFile j ⟨0, flag, some s.next⟩) = some (fd, s')) :
    (fd = -1 ∧ RunsOn S s t s' σ) ∨ ∃ σ', Installs { σ with
      objects := Function.update σ.objects (q ++ [k]) (some (.file [])) } j
        ⟨q ++ [k], 0, flag⟩ fd σ' ∧ RunsOn S s t s' σ' := by
  have hcounted := (fileCreateAt_holding hrun hj hslot hflag
    (⟨h.intact.counted, rfl, h.intact.pipes⟩ : Holding s.dirs none s x)).counted
  have hpipes := (fileCreateAt_holding hrun hj hslot hflag
    (⟨h.intact.counted, rfl, h.intact.pipes⟩ : Holding s.dirs none s x)).pipes
  have hne : a ≠ s.next := fun he => lt_irrefl _ (he ▸ h.intact.counted.below a h.opened)
  have hprep : Prepared s.vol n (inodeInit n) (s.vol.setInodeBit n true) := prepared_file (by omega)
  simp only [fileCreateAt, bind_some_iff] at hrun
  obtain ⟨e, he, a', ha, i₀, hi, ⟨ok, i', v₂⟩, hsync, hrun⟩ := hrun
  obtain rfl : (⟨k, n, FileType.regular.code⟩ : DirEntry) = e := by
    simp only [createDirEntry, assert_bind] at he
    exact Option.some.inj he.2
  obtain rfl : a = a' := by
    have hhandle := h.handle
    rcases d with _ | _ | p <;> exact Option.some.inj (hhandle.symm.trans ha)
  obtain rfl : i = i₀ :=
    Option.some.inj (h.inode.symm.trans ((Function.update_of_ne hne _ _).symm.trans hi))
  have hsync : syncDirEntry ⟨k, n, FileType.regular.code⟩ i (s.vol.setInodeBit n true) =
      some (ok, i', v₂) := hsync
  cases ok with
  | false =>
    rcases syncDirEntry_some hsync (hprep.spared.directory h.directory).owns with
      ⟨-, rfl, rfl, -⟩ | ⟨hok, -⟩
    · simp only [↓reduceIte] at hrun
      obtain ⟨rfl, rfl⟩ := Prod.mk.inj (Option.some.inj hrun)
      refine .inl ⟨rfl, slotBack_running h.intact h.shows hcounted hpipes (setInodeBit_back hclear)
        rfl rfl rfl (fun b hb => ?_) hslot (congrArg File.fdInode (Kernel.setFile_self _ j _))
        fun l hl => (Kernel.setFile_ne _ _ hl).trans (Kernel.setFile_ne _ _ hl)⟩
      have hbn : b ≠ s.next := fun he => lt_irrefl _ (he ▸ h.intact.counted.below b hb)
      refine (Function.update_of_ne hbn _ _).trans ?_
      by_cases hba : b = a
      · subst b
        exact (Kernel.setInode_self _ a _).trans h.inode.symm
      · exact (Kernel.setInode_ne _ _ hba).trans (Function.update_of_ne hbn _ _)
    · cases hok
  | true =>
    simp only [Bool.true_eq_false, ↓reduceIte] at hrun
    rw [bind_some_iff] at hrun
    obtain ⟨v₃, hsynced, hrun⟩ := hrun
    have hins := h.insertion hn hfree hclear hprep (N := .file) trivial
      (fun _ _ he => by cases he) (fun _ _ he => by cases he)
      (by rw [typeOf, insert_self]; exact hsync) hsynced
    have hinstall : pcbFdInstall j (createdFile s a i' n j flag v₃) = (fd, s') := by
      rw [← createdFile_eq hne i' n j flag (s.vol.setInodeBit n true) v₃]
      exact Option.some.inj hrun
    obtain ⟨σ', hin, hs'⟩ := pcbFdInstall_shows
      (σ := { σ with objects := Function.update σ.objects (q ++ [k]) (some (.file [])) })
      (k := j) (g := ⟨q ++ [k], 0, flag⟩) (createdFile_shows h hins hj) hinstall
    have hint := (createdFile_intact h hins hflag hj hslot).pcbFdInstall j
    have hcwd := pcbFdInstall_cwd hinstall
    rw [hinstall] at hint
    exact .inr ⟨σ', hin, _, ⟨x, hint, hs'⟩, fun _ hd => insertion_dirs hins hd, hcwd⟩

theorem Spot.malloc (h : Spot S s t x σ d q k a m i) : Spot S (sysMalloc s).2 t x σ d q k a m i := by
  refine ⟨h.intact.malloc, h.shows.same rfl rfl (fun _ _ => rfl) rfl, h.dir, ?_, h.opened, h.inode,
    h.no, h.name, h.absent, h.plain, h.path, h.number⟩
  have hd := h.handle
  rcases d with _ | _ | p <;> exact hd

theorem fileCreate_running (h : Spot S s t x σ d q k a m i) (hflag : flag ≤ 7) {fd : ℤ}
    (hrun : fileCreate d k flag s = some (fd, s')) :
    (fd = -1 ∧ RunsOn S s t s' σ) ∨ ∃ j σ', σ.files j = none ∧ Installs { σ with
      objects := Function.update σ.objects (q ++ [k]) (some (.file [])) } j
        ⟨q ++ [k], 0, flag⟩ fd σ' ∧ RunsOn S s t s' σ' := by
  have h₁ := h.malloc
  simp only [fileCreate] at hrun
  split at hrun
  · obtain ⟨rfl, rfl⟩ := Prod.mk.inj (Option.some.inj hrun)
    exact .inl ⟨rfl, Serving.runsOn ⟨x, h₁.intact, h₁.shows⟩ rfl⟩
  rw [bind_some_iff] at hrun
  obtain ⟨⟨r, v⟩, hal, hrun⟩ := hrun
  obtain ⟨n, hn, rfl, rfl, hclear, hfree⟩ := h₁.alloc hal
  have h₂ := h₁.malloc
  -- the number that was taken is given back
  have hback : RunsOn S s t ((sysMalloc (sysMalloc s).2).2.withVol
      (((sysMalloc s).2.vol.setInodeBit n true).setInodeBit n false)) σ := by
    rw [setInodeBit_back hclear]
    exact Serving.runsOn ⟨x, h₂.intact, h₂.shows⟩ rfl
  simp only at hrun
  split at hrun
  · obtain ⟨rfl, rfl⟩ := Prod.mk.inj (Option.some.inj hrun)
    exact .inl ⟨rfl, hback⟩
  split at hrun
  · obtain ⟨rfl, rfl⟩ := Prod.mk.inj (Option.some.inj hrun)
    exact .inl ⟨rfl, hback⟩
  · rename_i j hslot
    obtain ⟨hj, hempty⟩ := getFreeSlotInGlobal_some hslot
    rcases fileCreateAt_running h₂ hn hfree hclear hflag hj hempty hrun with
      ⟨rfl, hfail⟩ | ⟨σ', hin, hs'⟩
    · exact .inl ⟨rfl, hfail.after (fun _ hd => hd) rfl⟩
    · exact .inr ⟨j, σ', (h₂.shows.idle j hj).mpr hempty, hin, hs'.after (fun _ hd => hd) rfl⟩

end Create

section Open

/-- Closing the handle behind the call. -/
theorem Serving.dirClose (h : Serving S s t σ) (hcl : FsOpenFiles.dirClose d s = some s') :
    Serving S s' t σ := by
  obtain ⟨x, hint, hs⟩ := h
  have hl := (LookedAt.refl hint).dirClose hcl
  exact ⟨x, hl.intact, LookedAt.shows hl hint hs⟩

theorem RunsOn.dirClose (h : RunsOn S s t s₁ σ) (hcl : FsOpenFiles.dirClose d s₁ = some s') :
    RunsOn S s t s' σ := by
  obtain ⟨t', ht, hd, hcwd⟩ := h
  refine ⟨t', Serving.dirClose ht hcl, hd, Eq.trans ?_ hcwd⟩
  exact congrArg Task.cwdInodeNr (dirClose_keeps sameNumber_countFree hcl).cur

/-- A search that has come to the last name of a path and found a file. -/
theorem search_file (h : Intact S s t x) (hs : Shows s t σ) (hp : PathFine pathname)
    {record : PathSearchRecord}
    (hrun : searchFile junk pathname zeroRecord s = some (some n, record, s₁)) {c c' : Byte}
    {depth depth' : ℕ} (hd : pathDepthCnt c pathname = some depth)
    (hd' : pathDepthCnt c' record.searchedPath = some depth') (heq : depth = depth')
    (htype : record.fileType ≠ .directory) : Plain dots (target pathname) ∧
      t.walk dots 0 (target pathname) = some n ∧ t n = some .file := by
  have hroot : ¬Rooted pathname := fun hroot => by
    obtain ⟨-, rfl, -⟩ := searchFile_rooted hroot hrun
    exact htype rfl
  obtain ⟨pre, k, post, m, he, hl, -⟩ := searchFile_looked h.serves hp.string
    (hp.named.resolve_left hroot) hroot hrun
  obtain rfl := hl.last he hd hd' heq
  obtain ⟨hc, -⟩ := hl.found n rfl
  obtain ⟨N, hN⟩ := h.image.hierarchy.tree.child_some hc
  have hw : t.walk dots 0 (components pathname) = some n := by
    rw [he, walk_last, hl.reached, Option.bind_some, hc]
  refine ⟨normalise_plain _, (normalise_reached h hs hw hN).1, ?_⟩
  have hne := htype
  rw [hl.type] at hne
  cases N with
  | file => exact hN
  | dir p E => exact absurd (by simp [typeOf, hN]) hne

/-- `sys_open`: a file that is there is opened, and one that is not is created. -/
theorem sysOpen_running (h : Intact S s t x) (hs : Shows s t σ) (hz : (0 : Byte) ∉ pathname)
    {flags : ℕ}
    (hcreate : creates flags = true → Plentiful s ∧ ∃ n < 256, s.vol.inodeBit n = false) {ret : ℤ}
    (hrun : sysOpen junk pathname flags s = some (ret, s')) :
    ∃ σ', Step (.open pathname flags) (.int ret) σ σ' ∧ RunsOn S s t s' σ' := by
  simp only [sysOpen, bind_some_iff] at hrun
  obtain ⟨last, hlast, hrun⟩ := hrun
  split at hrun
  · obtain ⟨rfl, rfl⟩ := Prod.mk.inj (Option.some.inj hrun)
    exact ⟨σ, .failed (.open pathname flags) σ, Serving.runsOn ⟨x, h, hs⟩ rfl⟩
  rename_i hslash
  rw [assert_bind] at hrun
  obtain ⟨hflag, hrun⟩ := hrun
  simp only [bind_some_iff] at hrun
  obtain ⟨depth, hd, ⟨r, record, s₁⟩, hsearch, hrun⟩ := hrun
  obtain ⟨hl, -⟩ := searchFile_lookedAt h hz hsearch
  have hfails : ∀ {ret' : ℤ} {u : Kernel part},
      (dirClose record.parentDir s₁ >>= fun u => some ((-1 : ℤ), u)) = some (ret', u) →
      ∃ σ', Step (.open pathname flags) (.int ret') σ σ' ∧ RunsOn S s t u σ' := by
    intro ret' u hcl
    obtain ⟨rfl, hl'⟩ := closeParent_lookedAt hl hcl
    exact failed_running h hs hl' (.open pathname flags)
  simp only [openFound] at hrun
  split at hrun
  · exact hfails hrun
  rename_i htype
  have hp := search_named hz hsearch (.inl htype)
  rw [bind_some_iff] at hrun
  obtain ⟨depth', hd', hrun⟩ := hrun
  split at hrun
  · exact hfails hrun
  rename_i heq
  have heq : depth = depth' := (not_not.mp heq).symm
  split at hrun
  · exact hfails hrun
  · exact hfails hrun
  · rename_i hflags
    obtain ⟨hm, hnumber⟩ := hcreate hflags
    obtain ⟨q, k, a, m, i, hspot, htarget, ⟨pre, he⟩, -⟩ := search_spot h hs hp hm hnumber hsearch hd
      hd' heq
    simp only [bind_some_iff] at hrun
    obtain ⟨filename, hname, ⟨fd, s₂⟩, hcr, s₃, hcl, hrun⟩ := hrun
    obtain ⟨rfl, rfl⟩ := Prod.mk.inj (Option.some.inj hrun)
    have hin : slash ∈ pathname := by
      by_contra hno
      rw [afterLastSlash_none hno] at hname
      cases hname
    obtain ⟨pre', c, hsplit, hafter⟩ := afterLastSlash_last hin (by
      rw [hlast]
      exact fun he => hslash (Option.some.inj he))
    obtain rfl := Option.some.inj (hname.symm.trans hafter)
    obtain rfl : filename = k := by
      rw [he] at hsplit
      exact (List.cons.inj (List.append_inj' hsplit rfl).2).1.symm
    have hback : ∀ {σ'}, RunsOn S s₁ t s₂ σ' → RunsOn S s t s₃ σ' := fun hr =>
      (RunsOn.dirClose hr hcl).after (fun _ hd => hd) (LookedAt.cwd hl)
    rcases fileCreate_running hspot hflag hcr with ⟨rfl, hr⟩ | ⟨j, σ', hslot, hin, hr⟩
    · exact ⟨σ, .failed (.open pathname flags) σ, hback hr⟩
    · exact ⟨σ', .created hflags htarget hspot.vacant hslot hin, hback hr⟩
  · rename_i n hflags
    obtain ⟨hplain, hw, hfile⟩ := search_file h hs hp hsearch hd hd' heq htype
    have hs₁ := LookedAt.shows hl h hs
    have hobj := hs.look hplain hw hfile
    rcases fileOpen_running hl.intact hs₁ hplain hw hfile hflag hrun with
      ⟨rfl, hr⟩ | ⟨k, σ', hslot, hin, hr⟩
    · exact ⟨σ, .failed (.open pathname flags) σ, hr.after (fun _ hd => hd) (LookedAt.cwd hl)⟩
    · exact ⟨σ', .opened hflags hobj hslot hin, hr.after (fun _ hd => hd) (LookedAt.cwd hl)⟩

end Open

end FsTreeCalls
