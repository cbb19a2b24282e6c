import XianweiOS.FsTreeCalls
import XianweiOS.FsDirectoryLayout

/-! The calls that take objects away, `sys_unlink` and `sys_rmdir`. Whatever has the object open
stands in the file table, where `sys_unlink` looks for it. -/
namespace FsRemoveCalls

open ByteStore HaltingProgram KernelBitmap DeviceIde FsVolume FsInodeTable FsBlockMap FsOwnership
  FsFreeBlocks FsFileWrite FsStore FsStoreRuns FsDirectory FsDirectorySlots FsDirectoryTable
  FsDirectoryMap FsDirectoryRuns FsInodeRelease FsPath FsOpenFiles FsSyscalls HolderCount
  FsReferenceCounts FsReferenceRuns FsLookupFrame FsKernelFrame FsProcesses PathTree FsTree FsSearch
  FsConsistentTree FsTreeInsert FsTreeRemove FsImage FsIntact FsLooked FsNamespace FsShown
  FsLookCalls FsFileCalls FsTreeCalls SlotTable

variable {part : Partition} {S : Prop} {s s' s₁ s₂ : Kernel part} {t : FileTree} {x y : ℕ → ℕ}
  {σ : State} {junk : Junk} {pathname : List Byte} {d : Option DirPtr} {n m a b : ℕ} {k : List Byte}
  {i i' j : Inode} {v v₁ v₂ : Volume part} {N : Node ℕ (List Byte)} {q : Path}

section Frame

/-- A kernel in which what is open is the same. -/
theorem Intact.sameOpen (h : Intact S s t x) (hs : SameOpen s s') (hc : Counted s' x) :
    Intact S s' t x := by
  refine h.keep hc hs.files.vol hs.files.rootInode hs.files.fileTable fun b hb j hj => ?_
  rw [hs.openInodes] at hb
  exact ⟨j, (hs.inodes b hb) ▸ hj, hb, Inode.Same.refl j⟩

theorem Shows.sameOpen (hs : Shows s t σ) (h : Intact S s t x) (ho : SameOpen s s') :
    Shows s' t σ := by
  refine hs.same ho.files.vol ho.files.fileTable (fun k hk => ?_) (by rw [ho.files.cur])
  rw [fileNumber, fileNumber, ho.files.fileTable]
  refine Option.bind_congr fun b hb => ?_
  rw [ho.inodes b (h.counted.fileInode_open hk hb)]

theorem WellOpen.withVol (h : WellOpen s) (v : Volume part) : WellOpen (s.withVol v) :=
  ⟨h.listed, h.below, h.root⟩

theorem OneMore.withVol (h : OneMore s a s₁) (v : Volume part) :
    OneMore (s.withVol v) a (s₁.withVol v) :=
  ⟨⟨rfl, h.files.fileTable, h.files.cur, h.files.rootInode⟩, h.next, h.below, h.others, h.held⟩

theorem OneMore.setInode (h : OneMore s a s₁) (hba : b ≠ a) (i : Inode) :
    OneMore (s.setInode b i) a (s₁.setInode b i) := by
  refine ⟨⟨h.files.vol, h.files.fileTable, h.files.cur, h.files.rootInode⟩, h.next, h.below,
    fun c hc hca => ?_, ?_⟩
  · by_cases hcb : c = b
    · subst c
      rw [Kernel.setInode_self, Kernel.setInode_self]
    · rw [s₁.setInode_ne _ hcb, s.setInode_ne _ hcb]
      exact h.others c hc hca
  · rw [s₁.setInode_ne _ hba.symm, s.setInode_ne _ hba.symm]
    exact h.held

/-- An inode is released under a reference of its own. -/
theorem inodeReleaseNo_sameOpen (hw : WellOpen s) (h : inodeReleaseNo n s = some s') :
    ∃ b s₁ j mem v₂, inodeOpen n s = some (b, s₁) ∧ s₁.inodes b = some j ∧
      inodeRelease mem j n s.vol = some v₂ ∧ SameOpen (s.withVol v₂) s' ∧ s'.dirs = s.dirs := by
  simp only [inodeReleaseNo, bind_some_iff] at h
  obtain ⟨⟨b, s₁⟩, hop, j, hj, v₂, hrel, hcl⟩ := h
  have hone := inodeOpen_oneMore hw (SameOpen.refl s) hop
  have hvol : (sysMalloc s₁).2.vol = s.vol := hone.files.vol
  have hdirs : s₁.dirs = s.dirs := by
    rcases inodeOpen_some hop with ⟨-, i, -, -, rfl⟩ | ⟨-, -, -, m, rfl⟩ <;> rfl
  refine ⟨b, s₁, j, _, v₂, hop, hj, hvol ▸ hrel, ?_, (inodeClose_same hcl).2.1.trans hdirs⟩
  exact inodeClose_oneMore (WellOpen.withVol hw v₂)
    (OneMore.withVol (hone.same (sameOpen_malloc s₁)) v₂) hcl

/-- A handle that is open stays where it is when another directory is opened. -/
theorem dirOpen_dirInode (h : Intact S s t x) {d' : Option DirPtr} (hop : dirOpen n s = some (d', s'))
    (ha : dirInode s d = some a) : dirInode s' d = some a := by
  obtain ⟨-, hsame, hd⟩ := dirOpen_counted hop h.counted
  rcases d with _ | _ | p
  · exact ha
  · exact (congrArg some hsame.rootInode).trans ha
  · rcases d' with _ | _ | p'
    · exact (congrArg (fun D => (D p).map Dir.inode) hd).trans ha
    · exact (congrArg (fun D => (D p).map Dir.inode) hd).trans ha
    · obtain ⟨hnone, dir, hd⟩ := hd
      have hne : p ≠ p' := by
        rintro rfl
        rw [dirInode, hnone] at ha
        cases ha
      rw [dirInode, hd, Function.update_of_ne hne]
      exact ha

end Frame

/-- A file that the table shows is in a slot that is open. -/
theorem listed_slot (h : Intact S s t x) (hs : Shows s t σ) {l : ℕ} (hl : l < maxFilesOpen)
    {g : OpenFile} (hg : σ.files l = some g) : ∃ b n i, Slot s t σ l b n i g := by
  have hbusy : (s.fileTable l).fdInode ≠ none := fun hnone => by
    rw [(hs.idle l hl).mpr hnone] at hg
    cases hg
  obtain ⟨b, hb⟩ := Option.ne_none_iff_exists'.mp hbusy
  obtain ⟨n, i, g', hslot⟩ := slot_open h hs hl hb
  obtain rfl := Option.some.inj (hslot.listed.symm.trans hg)
  exact ⟨b, n, i, hslot⟩

section Removal

/-- The object `n`, the entry `k` of directory `m`, that is to go. -/
structure Doomed (S : Prop) (s : Kernel part) (t : FileTree) (x : ℕ → ℕ) (σ : State) (q : Path)
    (k : List Byte) (m n : ℕ) (N : Node ℕ (List Byte)) : Prop where
  intact : Intact S s t x
  shows : Shows s t σ
  name : t.Names m k n
  node : t n = some N
  bare : N.Bare
  ne : m ≠ n
  plain : Plain dots (q ++ [k])
  path : t.walk dots 0 (q ++ [k]) = some n
  closed : ∀ b ∈ s.openInodes, ∀ j, s.inodes b = some j → j.iNo ≠ n

variable (h : Doomed S s t x σ q k m n N)

include h

theorem Doomed.near : m < 256 := by
  obtain ⟨p, E, hd, -⟩ := h.name
  exact h.intact.image.near m (by simp [hd])

theorem Doomed.extraction (ha : a ∈ s.openInodes) (hi : s.inodes a = some i) (hno : i.iNo = m)
    {ok : Bool} (hdel : deleteDirEntry i n s.vol = some (ok, i', v₁)) {mem : Bool}
    (hrel : inodeRelease mem j n v₁ = some v₂)
    (hj : j.Same (diskInode part s.vol.disk n) ∨ j.Same (diskInode part v₁.disk n)) :
    Extraction s.vol t m n k N i j i' v₁ v₂ := by
  have him := h.intact.image
  have hsame : i.Same (diskInode part s.vol.disk m) := hno ▸ (h.intact.cached a ha i hi).2
  have hn : (diskStore s.vol).Allocated n := him.allocated.mpr (by simp [h.node])
  refine ⟨him.consistent, him.hierarchy, h.name, h.node, h.bare, h.near, hsame, ?_, ⟨ok, hdel⟩,
    ⟨mem, hrel⟩⟩
  rcases hj with hj | hj
  · exact hj
  · -- the deletion has left the record of the object
    have hm : (diskStore s.vol).Allocated m := him.allocated.mpr (by
      obtain ⟨p, E, hd, -⟩ := h.name
      simp [hd])
    have hdel' : deleteDirEntry ((openStore s.vol m i).node m) n (openStore s.vol m i).vol =
        some (ok, i', v₁) := by rwa [openStore_self]
    have hrec : diskInode part v₁.disk n = diskInode part s.vol.disk n :=
      (delete_stepOn (him.consistent.openStore hsame) hm h.near hdel').records n hn.1 h.ne.symm
    rwa [hrec] at hj

theorem Doomed.removed (ha : a ∈ s.openInodes) (hi : s.inodes a = some i)
    (hno : i.iNo = m) (hx : Extraction s.vol t m n k N i j i' v₁ v₂) :
    Intact S ((s.setInode a i').withVol v₂) (t.erase m k n) x ∧
      Shows ((s.setInode a i').withVol v₂) (t.erase m k n)
        { σ with objects := Function.update σ.objects (q ++ [k]) none } := by
  have him := h.intact.image
  obtain ⟨ok, hdel⟩ := hx.deleted
  have hno' : i'.iNo = i.iNo := hx.no'.trans hno.symm
  constructor
  · refine h.intact.moves ⟨Image.remove hx him, ha, hi, hno', (deleteDirEntry_use hdel).cnts, ?_,
      fun b hb l hl hne => ?_, fun b hb l hl hf => ?_⟩
    · rw [hno]
      exact ⟨erase_ne_none.mpr ⟨hx.ne.symm, him.allocated.mp hx.allocated_parent⟩, hx.parent₂⟩
    · have hc := (h.intact.cached b hb l hl).1
      have hln := h.closed b hb l hl
      exact ⟨erase_ne_none.mpr ⟨hln, hc⟩, (hx.kept (him.allocated.mpr hc) (hno ▸ hne) hln).same⟩
    · exact erase_file_iff.mpr ⟨h.closed b hb l hl, hf⟩
  -- the files that are left have the bytes they had
  have hbytes : ∀ c, t c = some .file → c ≠ n → fileBytes v₂ c = fileBytes s.vol c := by
    intro c hc hcn
    have hcm : c ≠ m := by
      rintro rfl
      obtain ⟨p, E, hd, -⟩ := h.name
      rw [hc] at hd
      cases hd
    exact (hx.kept (him.allocated.mpr (by simp [hc])) hcm hcn).bytes (him.layout c hc)
  have hlook : ∀ p, Plain dots p → (t.erase m k n).look dots 0 (fileBytes v₂) p =
      if p = q ++ [k] then none else t.look dots 0 (fileBytes s.vol) p := by
    intro p hp
    have hsame : (t.erase m k n).look dots 0 (fileBytes v₂) p = (t.erase m k n).look dots 0
        (Function.update (fileBytes s.vol) n (fileBytes v₂ n)) p := by
      refine look_congr (fun _ => Iff.rfl) fun c _ => ?_
      by_cases hcn : c = n
      · subst c
        rw [erase_self]
        rfl
      · rw [Function.update_of_ne hcn]
        cases hnode : t c with
        | none => rw [erase_none hnode]; rfl
        | some M =>
          cases M with
          | file => rw [hbytes c hnode hcn]
          | dir p E => rw [erase_dir hcn hnode]; rfl
    rw [hsame, look_erase him.hierarchy h.plain h.path h.name h.node h.bare
      (fun c hc => Function.update_of_ne hc _ _) hp]
  refine Shows.change h.shows h.intact hi hno' (fun p hp => ?_) fun l hl g hg c hw hc => ?_
  · rw [Function.update_apply, h.shows.objects p hp, hlook p hp]
  · have hplain : Plain dots g.path := by
      obtain ⟨c', -, hf⟩ := h.shows.files l hl g hg
      exact hf.plain
    have hcn : c ≠ n := by
      obtain ⟨b, c', i, hslot⟩ := listed_slot h.intact h.shows hl hg
      obtain rfl := Option.some.inj (hslot.shown.walk.symm.trans hw)
      rw [← hslot.no]
      exact h.closed b hslot.opened i hslot.inode
    have hroot : (0 : ℕ) ≠ n := hx.ne_root.symm
    exact ⟨(walk_erase him.hierarchy h.name h.node h.bare hplain hroot).mpr ⟨hw, hcn⟩,
      (hbytes c hc hcn).symm ▸ le_rfl⟩

end Removal

section Search

/-- Whoever has an object open has it in the file table. -/
def Tabled (s : Kernel part) (n : ℕ) : Prop :=
  ∀ a ∈ s.openInodes, ∀ i, s.inodes a = some i → i.iNo = n →
    ∃ l < maxFilesOpen, (s.fileTable l).fdInode = some a

/-- Besides the handle on the parent, a search leaves nothing open that was not open before. -/
theorem search_open (hl : Lends s d s₁) (hd : d = none ∨ OpenOn s₁ d m) (hne : m ≠ n)
    (hb : b ∈ s₁.openInodes) (hj : s₁.inodes b = some j) (hno : j.iNo = n) :
    b ∈ s.openInodes ∧ s.inodes b = some j := by
  rcases hd with rfl | ⟨a, i, ha, -, hi, him⟩
  · have hsame : SameOpen s s₁ := hl
    rw [hsame.openInodes] at hb
    exact ⟨hb, (hsame.inodes b hb).symm.trans hj⟩
  · have hba : b ≠ a := by
      rintro rfl
      obtain rfl := Option.some.inj (hi.symm.trans hj)
      exact hne (him.symm.trans hno)
    obtain ⟨hbs, hsame⟩ := hl.other ha hb hba
    exact ⟨hbs, hsame.symm.trans hj⟩

theorem inFileTable_false : ∀ {left idx : ℕ}, inFileTable n s left idx = some false →
    ∀ l, idx ≤ l → l < idx + left → ∀ a i, (s.fileTable l).fdInode = some a →
      s.inodes a = some i → i.iNo ≠ n := by
  intro left
  induction left with
  | zero =>
    intro idx _ l hle hlt
    omega
  | succ left ih =>
    intro idx h l hle hlt a i ha hi
    rw [inFileTable] at h
    by_cases hl : l = idx
    · subst l
      simp only [ha, hi, Option.bind_eq_bind, Option.bind_some] at h
      split at h
      · cases h
      · assumption
    · have hnext : inFileTable n s left (idx + 1) = some false := by
        split at h
        · exact h
        · rw [bind_some_iff] at h
          obtain ⟨i₀, -, h⟩ := h
          split at h
          · cases h
          · exact h
      exact ih hnext l (by omega) (by omega) a i ha hi

/-- Where the object stands that a search has found. -/
structure Place (t : FileTree) (q : Path) (k : List Byte) (m n : ℕ) : Prop where
  name : t.Names m k n
  ne : m ≠ n
  plain : Plain dots (q ++ [k])
  path : t.walk dots 0 (q ++ [k]) = some n

theorem search_place (h : Intact S s t x) (hs : Shows s t σ) {base : List Byte}
    {pre post : List (List Byte)} {record : PathSearchRecord}
    (he : components pathname = pre ++ k :: post)
    (hlook : Looked t base pre k post m (some n) record s₁) (hk : k ≠ dot ∧ k ≠ dotdot)
    (hN : t n = some N) : ∃ q, Place t q k m n ∧
      Leads σ.objects pathname (q ++ [k]) (N.object (fileBytes s.vol n)) := by
  have hhier := h.image.hierarchy
  obtain ⟨hc, -⟩ := hlook.found n rfl
  have hname : t.Names m k n := (child_plain (w := dots) hk).mp hc
  obtain ⟨p, N', hr⟩ := Looked.reached h hs he hlook
  obtain rfl := Option.some.inj (hN.symm.trans hr.node)
  have hn0 : n ≠ 0 := (hhier.tree.child m k n hname).1
  rcases List.eq_nil_or_concat p with rfl | ⟨q, k', rfl⟩
  · exact absurd (Option.some.inj hr.walk).symm hn0
  rw [List.concat_eq_append] at hr
  obtain ⟨m', hw, hname'⟩ := (walk_concat hr.plain.last).mp hr.walk
  obtain ⟨rfl, rfl⟩ := hhier.once m m' k k' n hname hname'
  refine ⟨q, ⟨hname, ?_, hr.plain, hr.walk⟩, hr.leads⟩
  -- two paths do not lead to one object
  rintro rfl
  have hplain : Plain dots q := fun c hc => hr.plain c (List.mem_append_left _ hc)
  have hpath := congrArg List.length (hhier.path_unique hplain hr.plain hw hr.walk)
  rw [List.length_append, List.length_singleton] at hpath
  omega

theorem Place.doomed (hp : Place t q k m n) (h : Intact S s t x) (hs : Shows s t σ)
    (hN : t n = some N) (hbare : N.Bare)
    (hclosed : ∀ b ∈ s.openInodes, ∀ j, s.inodes b = some j → j.iNo ≠ n) :
    Doomed S s t x σ q k m n N :=
  ⟨h, hs, hp.name, hN, hbare, hp.ne, hp.plain, hp.path, hclosed⟩

end Search

section Unlink

theorem unlinkFound_running (h : Doomed S s t x σ q k m n .file)
    (hd : d = none ∨ OpenOn s d m) {ret : ℤ} (hrun : unlinkFound n d s = some (ret, s')) : (ret = -1 ∧ RunsOn S s t s' σ) ∨
      (ret = 0 ∧ RunsOn S s t s' { σ with
        objects := Function.update σ.objects (q ++ [k]) none }) := by
  simp only [unlinkFound] at hrun
  split at hrun
  · obtain ⟨rfl, hl⟩ := closeParent_lookedAt (LookedAt.refl h.intact).malloc hrun
    exact .inl ⟨rfl, LookedAt.running hl h.intact h.shows⟩
  simp only [bind_some_iff, Option.pure_def, Option.some.injEq, Prod.mk.injEq] at hrun
  obtain ⟨s₂, hdelete, s₃, hrelease, s₄, hcl, rfl, rfl⟩ := hrun
  have hholding := inodeReleaseNo_holding hrelease (deleteDirEntryIn_holding hdelete
    (⟨h.intact.malloc.counted, rfl, h.intact.malloc.pipes⟩ : Holding s.dirs none (sysMalloc s).2 x))
  simp only [deleteDirEntryIn, bind_some_iff, Option.pure_def, Option.some.injEq] at hdelete
  obtain ⟨a, ha, i, hi, ⟨ok, i', v₁⟩, hdel, rfl⟩ := hdelete
  obtain ⟨ha₀, hi₀, hno⟩ : a ∈ s.openInodes ∧ s.inodes a = some i ∧ i.iNo = m := by
    rcases hd with rfl | ⟨a', i₀, ha', hopen, hi', hno⟩
    · cases ha
    · have ha : dirInode s d = some a := by
        rcases d with _ | _ | p <;> exact ha
      obtain rfl := Option.some.inj (ha.symm.trans ha')
      obtain rfl := Option.some.inj (hi.symm.trans hi')
      exact ⟨hopen, hi', hno⟩
  have hdel : deleteDirEntry i n s.vol = some (ok, i', v₁) := hdel
  have hcounted := h.intact.malloc.counted.setInode hi (deleteDirEntry_use hdel).cnts
  have hwell : WellOpen (((sysMalloc s).2.setInode a i').withVol v₁) :=
    wellOpen_of_counted (hcounted.withVol v₁)
  obtain ⟨b, s₅, j, mem, v₂, hop, hj, hrel, hsame, -⟩ := inodeReleaseNo_sameOpen hwell hrelease
  have hx : Extraction s.vol t m n k .file i j i' v₁ v₂ := by
    refine h.extraction ha₀ hi₀ hno hdel hrel (.inr ?_)
    rcases inodeOpen_some hop with ⟨hb, l, hl, hln, -⟩ | ⟨-, -, rfl, mallocs, rfl⟩
    · -- nothing open has the number
      exfalso
      by_cases hba : b = a
      · subst b
        obtain rfl := Option.some.inj ((Kernel.setInode_self _ a i').symm.trans hl)
        exact h.ne (hno.symm.trans ((deleteDirEntry_use hdel).no.symm.trans hln))
      · exact h.closed b hb l ((Kernel.setInode_ne _ i' hba).symm.trans hl) hln
    · dsimp only at hj
      rw [Function.update_self] at hj
      obtain rfl := Option.some.inj hj
      exact ⟨rfl, rfl, fun _ _ => rfl⟩
  obtain ⟨hint, hshows⟩ := h.removed ha₀ hi₀ hno hx
  have hbefore : SameOpen ((s.setInode a i').withVol v₂)
      ((((sysMalloc s).2.setInode a i').withVol v₁).withVol v₂) :=
    ⟨⟨rfl, rfl, rfl, rfl⟩, rfl, fun _ _ => rfl, le_rfl⟩
  have hopen := hbefore.trans hsame
  have hint₃ := Intact.sameOpen hint hopen hholding.counted
  have hshows₃ := Shows.sameOpen hshows hint hopen
  have hl := (LookedAt.refl hint₃).dirClose hcl
  refine .inr ⟨rfl, (LookedAt.running hl hint₃ hshows₃).after (fun c hc => ?_)
    (congrArg Task.cwdInodeNr hopen.files.cur)⟩
  have hcn : c ≠ n := by
    rintro rfl
    obtain ⟨p, E, hc⟩ := hc
    cases h.node.symm.trans hc
  exact (erase_isDir hcn).mpr hc

/-- What is not in the table that `sys_unlink` looks through is not open. -/
theorem search_closed (hl : Lends s d s₁) (hd : d = none ∨ OpenOn s₁ d m) (hne : m ≠ n)
    (htabled : Tabled s n) (hslots : ∀ l < maxFilesOpen, ∀ a i, (s₁.fileTable l).fdInode = some a →
      s₁.inodes a = some i → i.iNo ≠ n) :
    ∀ b ∈ s₁.openInodes, ∀ j, s₁.inodes b = some j → j.iNo ≠ n := by
  intro b hb j hj hno
  obtain ⟨hbs, hjs⟩ := search_open hl hd hne hb hj hno
  obtain ⟨l, hlt, hslot⟩ := htabled b hbs j hjs hno
  exact hslots l hlt b j ((congrArg (fun T => (T l).fdInode) hl.files.fileTable).trans hslot) hj hno

/-- `sys_unlink` finds the file `n`. -/
def UnlinkFinds (junk : Junk) (pathname : List Byte) (s : Kernel part) (n : ℕ) : Prop :=
  ∃ record u, searchFile junk pathname (junkRecord junk) s = some (some n, record, u) ∧ n ≠ 0 ∧
    record.fileType ≠ .directory

theorem sysUnlink_running (h : Intact S s t x) (hs : Shows s t σ) (hz : (0 : Byte) ∉ pathname)
    (htabled : ∀ n, UnlinkFinds junk pathname s n → Tabled s n) {ret : ℤ}
    (hrun : sysUnlink junk pathname s = some (ret, s')) :
    ∃ σ', Step (.unlink pathname) (.int ret) σ σ' ∧ RunsOn S s t s' σ' := by
  simp only [sysUnlink, bind_some_iff, assert_eq_some] at hrun
  obtain ⟨-, -, ⟨r, record, s₁⟩, hsearch, -, hn0, hrun⟩ := hrun
  obtain ⟨hl, -⟩ := searchFile_lookedAt h hz hsearch
  cases r with
  | none =>
    obtain ⟨rfl, hl'⟩ := closeParent_lookedAt hl hrun
    exact failed_running h hs hl' (.unlink pathname)
  | some n =>
    simp only at hrun
    split at hrun
    · obtain ⟨rfl, hl'⟩ := closeParent_lookedAt hl hrun
      exact failed_running h hs hl' (.unlink pathname)
    rename_i htype
    have hp := search_named hz hsearch (.inl htype)
    rw [bind_some_iff] at hrun
    obtain ⟨inUse, huse, hrun⟩ := hrun
    split at hrun
    · obtain ⟨rfl, hl'⟩ := closeParent_lookedAt hl hrun
      exact failed_running h hs hl' (.unlink pathname)
    rename_i hfree
    obtain rfl : inUse = false := by simpa using hfree
    have hroot : ¬Rooted pathname := fun hroot => hn0 (searchFile_rooted hroot hsearch).1
    obtain ⟨pre, k, post, m, he, hlook, -⟩ := searchFile_looked h.serves hp.string
      (hp.named.resolve_left hroot) hroot hsearch
    obtain ⟨hc, -⟩ := hlook.found n rfl
    have hfile : t n = some .file := by
      obtain ⟨N, hN⟩ := h.image.hierarchy.tree.child_some hc
      cases N with
      | file => exact hN
      | dir p E => exact absurd (by simp [hlook.type, typeOf, hN]) htype
    obtain ⟨hk, -⟩ := child_file h.image.hierarchy.tree hc hfile
    obtain ⟨q, hplace, hleads⟩ := search_place h hs he hlook hk hfile
    have hlends := searchFile_lends (wellOpen_of_counted h.counted) hsearch
    have hclosed := search_closed hlends hlook.parent hplace.ne
      (htabled n ⟨record, s₁, hsearch, fun h0 => hn0 (congrArg some h0), htype⟩)
      fun l hlt a i => inFileTable_false huse l (Nat.zero_le _) (by omega) a i
    have hdoomed := hplace.doomed hl.intact (LookedAt.shows hl h hs) hfile
      (fun _ _ hdir => by cases hdir) hclosed
    rcases unlinkFound_running hdoomed hlook.parent hrun with ⟨rfl, hr⟩ | ⟨rfl, hr⟩
    · exact ⟨σ, .failed (.unlink pathname) σ, hr.after (fun _ hd => hd) (LookedAt.cwd hl)⟩
    · refine ⟨_, .unlinked hleads fun l g hg hpath => ?_, hr.after (fun _ hd => hd) (LookedAt.cwd hl)⟩
      have hlt := hdoomed.shows.beyond l g hg
      obtain ⟨b, c, i, hslot⟩ := listed_slot hdoomed.intact hdoomed.shows hlt hg
      have hwalk := hslot.shown.walk
      rw [hpath] at hwalk
      obtain rfl := Option.some.inj (hdoomed.path.symm.trans hwalk)
      exact hclosed b hslot.opened i hslot.inode hslot.no

end Unlink

section Rmdir

/-- A directory of the size of two entries has no others. -/
theorem bare_of_empty {p : ℕ} {E : List Byte → Option ℕ} (hd : t n = some (.dir p E))
    (h : Directory v i (entriesOf t n)) (he : dirIsEmpty i = true)
    (hproper : ∀ k c, t.Names n k c → k ≠ dot ∧ k ≠ dotdot) : (Node.dir p E).Bare := by
  have hfinite := (dirTable_within v.disk (ref v.disk i)).finite
  obtain ⟨keys, hmem, hcard⟩ := h.represents.keys h.keyed hfinite
  have hlive : live (dirTable v.disk (ref v.disk i)) = 2 := by
    have hsize := h.size
    rw [dirIsEmpty, beq_iff_eq, dirEntrySize] at he
    omega
  rw [hlive] at hcard
  have hself : dot ∈ keys := by
    obtain ⟨y, hy⟩ := h.self
    rw [hmem, (h.represents _ _).mpr ⟨_, hy⟩]
    exact Option.some_ne_none _
  have hparent : dotdot ∈ keys := by
    obtain ⟨y, hy⟩ := h.parent
    rw [hmem, (h.represents _ _).mpr ⟨_, hy⟩]
    exact Option.some_ne_none _
  intro p' E' hnode l
  obtain ⟨rfl, rfl⟩ := Node.dir.inj hnode
  by_contra hE
  obtain ⟨c, hc⟩ := Option.ne_none_iff_exists'.mp hE
  have hl := hproper l c ⟨p, E, hd, hc⟩
  have hin : l ∈ keys := by
    rw [hmem, entriesOf, (child_plain (w := dots) hl).mpr ⟨p, E, hd, hc⟩]
    exact Option.some_ne_none _
  have hthree : ({dot, dotdot, l} : Finset (List Byte)).card = 3 :=
    Finset.card_eq_three.mpr ⟨dot, dotdot, l, by decide, hl.1.symm, hl.2.symm, rfl⟩
  have hsub : ({dot, dotdot, l} : Finset (List Byte)) ⊆ keys := by
    intro c hc
    simp only [Finset.mem_insert, Finset.mem_singleton] at hc
    rcases hc with rfl | rfl | rfl
    · exact hself
    · exact hparent
    · exact hin
  have := Finset.card_le_card hsub
  omega

/-- `rmdir` once the directory is open and known to be empty. -/
theorem dirRemove_running (h : Doomed S s t x σ q k m n N) (hd : d = none ∨ OpenOn s d m)
    (hdir : t.IsDir n) {d' : Option DirPtr} (hop : dirOpen n s = some (d', s₁)) {ret : ℤ}
    (hrun : dirRemove d d' s₁ = some (ret, s₂)) {s₃ : Kernel part}
    (hcl : dirClose d' s₂ = some s₃) : (ret = -1 ∧ RunsOn S s t s₃ σ) ∨
      (ret = 0 ∧ s₃.cur.cwdInodeNr = s.cur.cwdInodeNr ∧ Serving S s₃ (t.erase m k n) { σ with
        objects := Function.update σ.objects (q ++ [k]) none }) := by
  have hholding := dirClose_holding hcl (dirRemove_holding hrun (dirOpen_holding hop
    (⟨h.intact.counted, rfl, h.intact.pipes⟩ : Holding s.dirs none s x)))
  have hl := (LookedAt.refl h.intact).dirOpen hdir hop
  have hlends := dirOpen_lends (wellOpen_of_counted h.intact.counted) (SameOpen.refl s) hop
  have hon := (dirOpen_intact h.intact hdir hop).2
  simp only [dirRemove, bind_some_iff, assert_eq_some] at hrun
  obtain ⟨c, hc, i, hi, -, -, hrun⟩ := hrun
  obtain ⟨c', i₀, hc', hopen, hi', hno⟩ := hon.resolve_left fun hnone => by
    rw [hnone] at hc
    cases hc
  obtain rfl := Option.some.inj (hc.symm.trans hc')
  obtain rfl := Option.some.inj (hi.symm.trans hi')
  split at hrun
  · obtain ⟨rfl, rfl⟩ := Prod.mk.inj (Option.some.inj hrun)
    exact .inl ⟨rfl, LookedAt.running (hl.malloc.dirClose hcl) h.intact h.shows⟩
  simp only [bind_some_iff, Option.pure_def, Option.some.injEq, Prod.mk.injEq] at hrun
  obtain ⟨s₄, hdelete, j₀, hj₀, s₅, hrelease, rfl, rfl⟩ := hrun
  simp only [deleteDirEntryIn, bind_some_iff, Option.pure_def, Option.some.injEq] at hdelete
  obtain ⟨a, ha, ip, hip, ⟨ok, ip', v₁⟩, hdel, rfl⟩ := hdelete
  -- the parent is open as it was before the directory was opened
  obtain ⟨a₀, ip₀, ha₀, hopen₀, hip₀, hno₀⟩ := hd.resolve_left fun hnone => by
    rw [hnone] at ha
    cases ha
  have ha : dirInode s₁ d = some a := by
    rcases d with _ | _ | p <;> exact ha
  obtain rfl := Option.some.inj ((dirOpen_dirInode h.intact hop ha₀).symm.trans ha)
  obtain ⟨p, dir, rfl, hdirp, hone⟩ : ∃ p dir, d' = some (.heap p) ∧ s₁.dirs p = some dir ∧
      OneMore s dir.inode s₁ := by
    rcases d' with _ | _ | p
    · cases hc
    · have hsame : SameOpen s s₁ := hlends
      rw [hsame.openInodes] at hopen
      exact absurd hno (h.closed c hopen i ((hsame.inodes c hopen).symm.trans hi))
    · obtain ⟨dir, hdirp, hone⟩ := hlends
      exact ⟨p, dir, rfl, hdirp, hone⟩
  obtain rfl : dir.inode = c := by
    rw [dirInode, hdirp] at hc
    exact Option.some.inj hc
  have hfresh : dir.inode ∉ s.openInodes := by
    intro hin
    rcases hone.held with ⟨-, -, l, hl, hl'⟩ | ⟨hnot, -⟩
    · obtain rfl := Option.some.inj (hi.symm.trans hl')
      exact h.closed _ hin l hl hno
    · exact hnot hin
  have hne : a₀ ≠ dir.inode := fun he => hfresh (he ▸ hopen₀)
  have hip₁ : s.inodes a₀ = some ip := (hone.others a₀ hopen₀ hne).symm.trans hip
  obtain rfl := Option.some.inj (hip₀.symm.trans hip₁)
  have hj₀ : s₁.inodes dir.inode = some j₀ := (Kernel.setInode_ne _ _ hne.symm).symm.trans hj₀
  obtain rfl := Option.some.inj (hi.symm.trans hj₀)
  have hvol : (sysMalloc s₁).2.vol = s.vol := hone.files.vol
  rw [hno] at hdel hrelease
  rw [hvol] at hdel
  have hcounted := hl.intact.malloc.counted.setInode hip (deleteDirEntry_use hdel).cnts
  obtain ⟨b, s₆, j, mem, v₂, hop₂, hj, hrel, hsame, hdirs⟩ :=
    inodeReleaseNo_sameOpen (wellOpen_of_counted (hcounted.withVol v₁)) hrelease
  have hx : Extraction s.vol t m n k N ip₀ j ip' v₁ v₂ := by
    refine h.extraction hopen₀ hip₀ hno₀ hdel hrel (.inl ?_)
    rcases inodeOpen_some hop₂ with ⟨hb, l, hlb, hln, rfl⟩ | ⟨hall, -⟩
    · -- what is open with the number is the directory itself
      obtain rfl : b = dir.inode := by
        by_contra hbc
        by_cases hba : b = a₀
        · subst b
          obtain rfl := Option.some.inj ((Kernel.setInode_self _ a₀ ip').symm.trans hlb)
          exact h.ne (hno₀.symm.trans ((deleteDirEntry_use hdel).no.symm.trans hln))
        · have hl₁ : s₁.inodes b = some l := (Kernel.setInode_ne _ ip' hba).symm.trans hlb
          obtain ⟨hbs, hsame⟩ := hlends.other hc hb hbc
          exact h.closed b hbs l (hsame.symm.trans hl₁) hln
      have hl₁ : s₁.inodes dir.inode = some l := (Kernel.setInode_ne _ ip' hne.symm).symm.trans hlb
      obtain rfl := Option.some.inj (hi.symm.trans hl₁)
      obtain rfl := Option.some.inj ((Kernel.setInode_self _ _ _).symm.trans hj)
      have hcached := (hl.intact.cached _ hopen i hi).2
      rw [hno, hone.files.vol] at hcached
      exact ⟨hcached.no, hcached.size, hcached.sectors⟩
    · obtain ⟨l, hlb, hln⟩ := hall _ hopen
      have hl₁ : s₁.inodes dir.inode = some l := (Kernel.setInode_ne _ ip' hne.symm).symm.trans hlb
      obtain rfl := Option.some.inj (hi.symm.trans hl₁)
      exact absurd hno hln
  obtain ⟨hint, hshows⟩ := h.removed hopen₀ hip₀ hno₀ hx
  -- the directory is lent over the kernel without the object
  have hone₁ := OneMore.setInode (hone.same (sameOpen_malloc s₁)) hne ip'
  have hone₂ := (OneMore.withVol hone₁ v₂).same hsame
  have hlends₂ : Lends ((s.setInode a₀ ip').withVol v₂) (some (.heap p)) s₅ :=
    ⟨dir, (congrFun hdirs p).trans hdirp, hone₂⟩
  have hopen₃ := dirClose_lends (wellOpen_of_counted hint.counted) hlends₂ hcl
  exact .inr ⟨rfl, congrArg Task.cwdInodeNr hopen₃.files.cur, _,
    Intact.sameOpen hint hopen₃ hholding.counted, Shows.sameOpen hshows hint hopen₃⟩

/-- A directory with an entry is not removed. -/
theorem rmdirFound_full (hl : LookedAt S s t x s₁) (hdir : t.IsDir n)
    (hfull : dirIsEmpty (diskInode part s.vol.disk n) = false) {ret : ℤ}
    (hrun : rmdirFound n d s₁ = some (ret, s')) : ret = -1 ∧ LookedAt S s t x s' := by
  simp only [rmdirFound, bind_some_iff] at hrun
  obtain ⟨⟨d', s₂⟩, hop, a, ha, i, hi, hrun⟩ := hrun
  have hl₂ := hl.dirOpen hdir hop
  obtain ⟨a', i₀, ha', hopen, hi', hno⟩ := (dirOpen_intact hl.intact hdir hop).2.resolve_left
    fun hnone => by
      rw [hnone] at ha
      cases ha
  obtain rfl := Option.some.inj (ha.symm.trans ha')
  obtain rfl := Option.some.inj (hi.symm.trans hi')
  have hsame := (hl₂.intact.cached a hopen i hi).2
  rw [hno, hl₂.vol] at hsame
  rw [dirIsEmpty, ← hsame.size, ← dirIsEmpty] at hfull
  rw [if_pos hfull, bind_some_iff] at hrun
  obtain ⟨s₃, hcl, hrun⟩ := hrun
  obtain ⟨rfl, hl'⟩ := closeParent_lookedAt (hl₂.dirClose hcl) hrun
  exact ⟨rfl, hl'⟩

theorem rmdirFound_running (h : Intact S s t x) (hs : Shows s t σ) (hl : LookedAt S s t x s₁)
    (hp : Place t q k m n) (hdir : t.IsDir n) (hd : d = none ∨ OpenOn s₁ d m)
    (hclosed : ∀ b ∈ s₁.openInodes, ∀ j, s₁.inodes b = some j → j.iNo ≠ n) {ret : ℤ}
    (hrun : rmdirFound n d s₁ = some (ret, s')) : (ret = -1 ∧ RunsOn S s t s' σ) ∨
      (ret = 0 ∧ (∀ l, l ≠ dot → l ≠ dotdot → σ.objects (q ++ [k] ++ [l]) = none) ∧
        s'.cur.cwdInodeNr = s.cur.cwdInodeNr ∧ Serving S s' (t.erase m k n)
          { σ with objects := Function.update σ.objects (q ++ [k]) none }) := by
  simp only [rmdirFound, bind_some_iff] at hrun
  obtain ⟨⟨d', s₂⟩, hop, a, ha, i, hi, hrun⟩ := hrun
  have hl₂ := hl.dirOpen hdir hop
  have hon := (dirOpen_intact hl.intact hdir hop).2
  split at hrun
  · rw [bind_some_iff] at hrun
    obtain ⟨s₃, hcl, hrun⟩ := hrun
    obtain ⟨rfl, hl'⟩ := closeParent_lookedAt (hl₂.dirClose hcl) hrun
    exact .inl ⟨rfl, LookedAt.running hl' h hs⟩
  rename_i hempty
  simp only [bind_some_iff, Option.pure_def, Option.some.injEq, Prod.mk.injEq] at hrun
  obtain ⟨⟨ret', s₃⟩, hrem, s₄, hcl, s₅, hcl', rfl, rfl⟩ := hrun
  obtain ⟨p, E, hN⟩ := id hdir
  have hhier := hl.intact.image.hierarchy
  have hbare : (Node.dir p E).Bare := by
    obtain ⟨a', i₀, ha', hopen, hi', hno⟩ := hon.resolve_left fun hnone => by
      rw [hnone] at ha
      cases ha
    obtain rfl := Option.some.inj (ha.symm.trans ha')
    obtain rfl := Option.some.inj (hi.symm.trans hi')
    have hsame := (hl₂.intact.cached a hopen i hi).2
    rw [hno] at hsame
    refine bare_of_empty hN (directory_same (hl₂.intact.image.consistent.tree.directory n hdir)
      hsame.symm) (by simpa using hempty) fun l c hlc => hhier.proper n l c hlc
  have hdoomed := hp.doomed hl.intact (LookedAt.shows hl h hs) hN hbare hclosed
  have hbelow : ∀ l, l ≠ dot → l ≠ dotdot → σ.objects (q ++ [k] ++ [l]) = none := by
    intro l h1 h2
    rw [hs.objects _ (hp.plain.concat ⟨h1, h2⟩)]
    exact (look_below hhier hp.path hN).mp (hbare p E rfl) l h1 h2
  rcases dirRemove_running hdoomed hd hdir hop hrem hcl with ⟨rfl, hr⟩ | ⟨rfl, hcwd, hr⟩
  · exact .inl ⟨rfl, (RunsOn.dirClose hr hcl').after (fun _ hd => hd) (LookedAt.cwd hl)⟩
  · refine .inr ⟨rfl, hbelow, ?_, Serving.dirClose hr hcl'⟩
    exact (congrArg Task.cwdInodeNr (dirClose_keeps sameNumber_countFree hcl').cur).trans
      (hcwd.trans (LookedAt.cwd hl))

/-- The directory that `..` leads to has an entry, unless it is the root. -/
theorem parent_full (h : Intact S s t x) (hdir : t.IsDir m) (hc : t.child dots m dotdot = some n)
    (hn0 : n ≠ 0) : dirIsEmpty (diskInode part s.vol.disk n) = false := by
  have hhier := h.image.hierarchy
  obtain ⟨p, E, hm⟩ := hdir
  obtain rfl : p = n := Option.some.inj ((child_up hm dots_ne).symm.trans hc)
  have hm0 : m ≠ 0 := by
    rintro rfl
    exact hn0 (hhier.tree.root_parent hm)
  obtain ⟨k, hname⟩ := hhier.tree.parent_names hm hm0
  obtain ⟨p', E', hp, hE⟩ := id hname
  by_contra hempty
  have hbare := bare_of_empty hp (h.image.consistent.tree.directory p ⟨p', E', hp⟩)
    (by simpa using hempty) fun l c hlc => hhier.proper p l c hlc
  rw [hbare p' E' rfl k] at hE
  cases hE

/-- A path that ends in `.` does not lead to an empty directory. -/
def Undotted (junk : Junk) (pathname : List Byte) (s : Kernel part) : Prop :=
  (components pathname).getLast? = some dot → ∀ n record u,
    searchFile junk pathname zeroRecord s = some (some n, record, u) →
    dirIsEmpty (diskInode part s.vol.disk n) = false

/-- The directory `n` at `pathname` has gone, and with it its entry in the directory `m`. -/
structure Removed (S : Prop) (s s' : Kernel part) (t : FileTree) (σ : State) (pathname : List Byte)
    (k : List Byte) (m n : ℕ) : Prop where
  name : t.Names m k n
  ne : m ≠ n
  step : Step (.rmdir pathname) (.int 0) σ
    { σ with objects := Function.update σ.objects (target pathname) none }
  cwd : s'.cur.cwdInodeNr = s.cur.cwdInodeNr
  serving : Serving S s' (t.erase m k n)
    { σ with objects := Function.update σ.objects (target pathname) none }

/-- `sys_rmdir` finds the directory `n`, without entries. -/
def RmdirFinds (junk : Junk) (pathname : List Byte) (s : Kernel part) (n : ℕ) : Prop :=
  ∃ record u, searchFile junk pathname zeroRecord s = some (some n, record, u) ∧ n ≠ 0 ∧
    record.fileType ≠ .regular ∧ dirIsEmpty (diskInode part s.vol.disk n) = true

theorem sysRmdir_removed (h : Intact S s t x) (hs : Shows s t σ) (hp : PathFine pathname)
    (hdots : Undotted junk pathname s) (htabled : ∀ n, RmdirFinds junk pathname s n → Tabled s n)
    {ret : ℤ} (hrun : sysRmdir junk pathname s = some (ret, s')) :
    (ret = -1 ∧ RunsOn S s t s' σ) ∨ (ret = 0 ∧ ∃ k m n, RmdirFinds junk pathname s n ∧
      Removed S s s' t σ pathname k m n) := by
  simp only [sysRmdir, bind_some_iff, assert_eq_some] at hrun
  obtain ⟨⟨r, record, s₁⟩, hsearch, -, hn0, hrun⟩ := hrun
  obtain ⟨hl, -⟩ := searchFile_lookedAt h hp.string hsearch
  cases r with
  | none =>
    obtain ⟨rfl, hl'⟩ := closeParent_lookedAt hl hrun
    exact .inl ⟨rfl, LookedAt.running hl' h hs⟩
  | some n =>
    have hn0 : n ≠ 0 := fun h0 => hn0 (congrArg some h0)
    simp only at hrun
    split at hrun
    · obtain ⟨rfl, hl'⟩ := closeParent_lookedAt hl hrun
      exact .inl ⟨rfl, LookedAt.running hl' h hs⟩
    rename_i htype
    have hroot : ¬Rooted pathname := fun hroot =>
      hn0 (Option.some.inj (searchFile_rooted hroot hsearch).1)
    obtain ⟨pre, k, post, m, he, hlook, -⟩ := searchFile_looked h.serves hp.string
      (hp.named.resolve_left hroot) hroot hsearch
    obtain ⟨hc, hpost⟩ := hlook.found n rfl
    have hhier := h.image.hierarchy
    have hdir : t.IsDir n := by
      obtain ⟨N, hN⟩ := hhier.tree.child_some hc
      cases N with
      | file => exact absurd (by simp [hlook.type, typeOf, hN]) htype
      | dir p E => exact ⟨p, E, hN⟩
    obtain ⟨p, E, hN⟩ := id hdir
    obtain rfl : post = [] := hpost.resolve_right fun hfile => by
      rw [hN] at hfile
      cases hfile
    have hfails : dirIsEmpty (diskInode part s.vol.disk n) = false →
        ret = -1 ∧ RunsOn S s t s' σ := by
      intro hfull
      obtain ⟨rfl, hl'⟩ := rmdirFound_full hl hdir hfull hrun
      exact ⟨rfl, LookedAt.running hl' h hs⟩
    by_cases hfull : dirIsEmpty (diskInode part s.vol.disk n) = false
    · exact .inl (hfails hfull)
    have hfinds : RmdirFinds junk pathname s n :=
      ⟨record, s₁, hsearch, hn0, htype, eq_true_of_ne_false hfull⟩
    by_cases hdot : k = dot
    · subst hdot
      exact .inl (hfails (hdots (by rw [he, List.getLast?_concat]) n record s₁ hsearch))
    by_cases hdotdot : k = dotdot
    · subst hdotdot
      exact .inl (hfails (parent_full h hlook.dir hc hn0))
    obtain ⟨q, hplace, hleads⟩ := search_place h hs he hlook ⟨hdot, hdotdot⟩ hN
    have hlends := searchFile_lends (wellOpen_of_counted h.counted) hsearch
    -- a directory is not in the file table
    have hclosed := search_closed hlends hlook.parent hplace.ne
      (htabled n hfinds) fun l hlt a i ha hi hno => by
        have hfile := hl.intact.files l hlt a i ha hi
        rw [hno, hN] at hfile
        cases hfile
    have hpath : q ++ [k] = target pathname := hleads.path.resolve_right fun hbehind =>
      hbehind.1 rfl
    rcases rmdirFound_running h hs hl hplace hdir hlook.parent hclosed hrun with
      ⟨rfl, hr⟩ | ⟨rfl, hbelow, hcwd, hr⟩
    · exact .inl ⟨rfl, hr⟩
    · rw [hpath] at hbelow hr
      exact .inr ⟨rfl, k, m, n, hfinds, hplace.name, hplace.ne,
        .removedDir (hpath ▸ hleads.object) hbelow (by rw [← hpath]; simp), hcwd, hr⟩

/-- Every directory stays but the one that has been found. -/
theorem sysRmdir_running (h : Intact S s t x) (hs : Shows s t σ) (hp : PathFine pathname)
    (hdots : Undotted junk pathname s) (htabled : ∀ n, RmdirFinds junk pathname s n → Tabled s n)
    {ret : ℤ} (hrun : sysRmdir junk pathname s = some (ret, s')) :
    ∃ σ' t', Step (.rmdir pathname) (.int ret) σ σ' ∧ Serving S s' t' σ' ∧
      (∀ d, t.IsDir d → ¬RmdirFinds junk pathname s d → t'.IsDir d) ∧
      s'.cur.cwdInodeNr = s.cur.cwdInodeNr := by
  rcases sysRmdir_removed h hs hp hdots htabled hrun with
    ⟨rfl, t', ht, hd, hcwd⟩ | ⟨rfl, k, m, n, hfinds, hrem⟩
  · exact ⟨σ, t', .failed (.rmdir pathname) σ, ht, fun d hdir _ => hd d hdir, hcwd⟩
  · refine ⟨_, _, hrem.step, hrem.serving, fun d hdir hnot => ?_, hrem.cwd⟩
    have hdn : d ≠ n := fun he => hnot (he ▸ hfinds)
    exact (erase_isDir hdn).mpr hdir

end Rmdir

end FsRemoveCalls
