import XianweiOS.FsHeapTrace
import XianweiOS.FsWriters

/-! Blocks are freed where they were allocated, as long as files are created by threads of the
kernel only: `file_create` allocates the inode in the context of its caller, while `inode_close`
frees every inode in the context of the kernel. -/
namespace FsHeapContext

open ByteStore HaltingProgram FsVolume FsInodeTable FsDirectory FsPath FsHeapTrace
  FsHeapTrace.Traced
open MemoryPages (Ctx)
open FsOpenFiles (Kernel DirPtr Task)
open FsSyscalls (Junk PathSearchRecord Stat creates)
open FsProcesses (Whence)

variable {part : Partition}

/-- Every block was freed in the context it came from, and the inodes belong to the kernel. -/
structure Disciplined (t : Traced part) : Prop where
  matched : ∀ e ∈ t.frees, e.1 = e.2
  inodes : ∀ a, t.inodeHome a = none

/-- What the functions keep: `pgdir` is as it was, and so are the caller's own handles. -/
structure Stays (t t' : Traced part) : Prop where
  pgdir : t'.pgdir = t.pgdir
  dirHome : ∀ p, t.dirHome p = t.pgdir → t'.dirHome p = t.pgdir
  disciplined : Disciplined t → Disciplined t'

/-- The handle was allocated in the context that runs. -/
def Own (t : Traced part) : Option DirPtr → Prop
  | some (.heap p) => t.dirHome p = t.pgdir
  | _ => True

section Stays

variable {t t' t'' : Traced part} {d : Option DirPtr}

theorem Stays.refl : Stays t t := ⟨rfl, fun _ hp => hp, fun hd => hd⟩

theorem Stays.trans (h1 : Stays t t') (h2 : Stays t' t'') : Stays t t'' :=
  ⟨h2.pgdir.trans h1.pgdir, fun p hp => by
    rw [← h1.pgdir]
    exact h2.dirHome p ((h1.dirHome p hp).trans h1.pgdir.symm), fun hd =>
    h2.disciplined (h1.disciplined hd)⟩

theorem Stays.own (h : Stays t t') (hd : Own t d) : Own t' d := by
  rcases d with _ | _ | p
  · trivial
  · trivial
  · exact (h.dirHome p hd).trans h.pgdir.symm

end Stays

section Heap

variable {t t' : Traced part} {home : Ctx} {buf : Option Ctx} {d : Option DirPtr} {a : ℕ}

theorem on_stays (s : Kernel part) : Stays t (t.on s) := ⟨rfl, fun _ hp => hp, fun hd => ⟨hd.1, hd.2⟩⟩

theorem malloc_stays (h : malloc t = (buf, t')) :
    Stays t t' ∧ ∀ home, buf = some home → home = t.pgdir := by
  obtain ⟨rfl, rfl⟩ := Prod.mk.inj h
  refine ⟨on_stays _, fun home hb => ?_⟩
  split at hb
  · exact (Option.some.inj hb).symm
  · cases hb

theorem free_stays (hh : home = t.pgdir) : Stays t (free home t) := by
  refine ⟨rfl, fun _ hp => hp, fun hd => ⟨?_, hd.inodes⟩⟩
  intro e he
  rcases List.mem_cons.mp he with rfl | he
  · exact hh
  · exact hd.matched e he

theorem freeBuf_stays (h : freeBuf buf t = some t')
    (hb : ∀ home, buf = some home → home = t.pgdir) : Stays t t' := by
  simp only [freeBuf, bind_some_iff, Option.pure_def, Option.some.injEq] at h
  obtain ⟨home, hbuf, rfl⟩ := h
  exact free_stays (hb home hbuf)

/-- The kernel's context, and back to the caller's. -/
theorem inodeLoad_stays {inodeNo : ℕ} (h : inodeLoad inodeNo t = some (a, t')) : Stays t t' := by
  simp only [inodeLoad] at h
  rcases h₁ : malloc (t.withPgdir none) with ⟨inodeFound, t₁⟩
  simp only [h₁] at h
  rcases h₂ : malloc (t₁.withPgdir t.pgdir) with ⟨inodeBuf, t₂⟩
  simp only [h₂, bind_some_iff, Option.pure_def, Option.some.injEq, Prod.mk.injEq] at h
  obtain ⟨home, hhome, i, -, t₃, hfree, rfl, rfl⟩ := h
  obtain ⟨s₁, b₁⟩ := malloc_stays h₁
  obtain ⟨s₂, b₂⟩ := malloc_stays h₂
  have hpg : t₂.pgdir = t.pgdir := s₂.pgdir
  have hnone : home = none := b₁ home hhome
  have hload : Stays t { t₂.on { t₂.kernel.newInode { i with openCnts := 1 } with
      openInodes := t₂.kernel.next :: t₂.kernel.openInodes } with
      inodeHome := Function.update t₂.inodeHome t₂.kernel.next home } := by
    refine ⟨hpg, fun p hp => ?_, fun hd => ?_⟩
    · obtain ⟨-, rfl⟩ := Prod.mk.inj h₁
      exact s₂.dirHome p hp
    · have hd₁ := s₁.disciplined ⟨hd.matched, hd.inodes⟩
      have hd₂ := s₂.disciplined ⟨hd₁.matched, hd₁.inodes⟩
      refine ⟨hd₂.matched, fun b => ?_⟩
      by_cases hb : b = t₂.kernel.next
      · subst hb
        exact (Function.update_self ..).trans hnone
      · exact (Function.update_of_ne hb ..).trans (hd₂.inodes b)
  exact hload.trans (freeBuf_stays hfree fun c hc => (b₂ c hc).trans hpg.symm)

theorem inodeOpen_stays {inodeNo : ℕ} (h : inodeOpen inodeNo t = some (a, t')) : Stays t t' := by
  simp only [inodeOpen, bind_some_iff] at h
  obtain ⟨r, -, h⟩ := h
  cases r with
  | some b =>
    simp only [bind_some_iff, Option.pure_def, Option.some.injEq, Prod.mk.injEq] at h
    obtain ⟨i, -, -, rfl⟩ := h
    exact on_stays _
  | none => exact inodeLoad_stays h

/-- Where the inodes belong to the kernel, the last close frees in their context. -/
theorem inodeClose_stays (h : inodeClose a t = some t') : Stays t t' := by
  simp only [inodeClose, bind_some_iff] at h
  obtain ⟨i, -, s, -, h⟩ := h
  split at h
  · obtain rfl := Option.some.inj h
    refine ⟨rfl, fun _ hp => hp, fun hd => ⟨?_, hd.inodes⟩⟩
    intro e he
    rcases List.mem_cons.mp he with rfl | he
    · exact hd.inodes a
    · exact hd.matched e he
  · obtain rfl := Option.some.inj h
    exact on_stays s

theorem dirOpen_stays {inodeNo : ℕ} (h : dirOpen inodeNo t = some (d, t')) :
    Stays t t' ∧ Own t' d := by
  simp only [dirOpen] at h
  rcases h₁ : malloc t with ⟨pdir, t₁⟩
  simp only [h₁] at h
  obtain ⟨s₁, b₁⟩ := malloc_stays h₁
  cases pdir with
  | none =>
    simp only [Option.pure_def, Option.some.injEq, Prod.mk.injEq] at h
    obtain ⟨rfl, rfl⟩ := h
    exact ⟨s₁, trivial⟩
  | some home =>
    simp only [bind_some_iff, Option.pure_def, Option.some.injEq, Prod.mk.injEq] at h
    obtain ⟨⟨a, t₂⟩, ho, rfl, rfl⟩ := h
    have s₂ := s₁.trans (inodeOpen_stays ho)
    have hhome : home = t₂.pgdir := (b₁ home rfl).trans s₂.pgdir.symm
    refine ⟨s₂.trans ⟨rfl, fun p hp => ?_, fun hd => ⟨hd.matched, hd.inodes⟩⟩, ?_⟩
    · by_cases hpn : p = t₂.kernel.next
      · subst hpn
        exact (Function.update_self ..).trans hhome
      · exact (Function.update_of_ne hpn ..).trans hp
    · exact (Function.update_self ..).trans hhome

theorem dirClose_stays (hd : Own t d) (h : dirClose d t = some t') : Stays t t' := by
  rcases d with _ | _ | p
  · cases h
  · obtain rfl := Option.some.inj h
    exact .refl
  · simp only [dirClose, bind_some_iff, Option.pure_def, Option.some.injEq] at h
    obtain ⟨dir, -, t₁, hc, rfl⟩ := h
    have s₁ := inodeClose_stays hc
    refine (s₁.trans (on_stays _)).trans (free_stays ?_)
    exact (s₁.dirHome p hd).trans s₁.pgdir.symm

/-- The way most calls end. -/
theorem dirClose_return {α : Type} {r r' : α}
    (h : (dirClose d t >>= fun t => pure (r, t)) = some (r', t')) (hd : Own t d) : Stays t t' := by
  simp only [bind_some_iff, Option.pure_def, Option.some.injEq, Prod.mk.injEq] at h
  obtain ⟨t₁, hc, -, rfl⟩ := h
  exact dirClose_stays hd hc

theorem dirClose_free {α : Type} {r r' : α}
    (h : (dirClose d t >>= fun t => pure (r, free home t)) = some (r', t')) (hd : Own t d)
    (hh : home = t.pgdir) : Stays t t' := by
  simp only [bind_some_iff, Option.pure_def, Option.some.injEq, Prod.mk.injEq] at h
  obtain ⟨t₁, hc, -, rfl⟩ := h
  have s₁ := dirClose_stays hd hc
  exact s₁.trans (free_stays (hh.trans s₁.pgdir.symm))

theorem searchDirEntryIn_stays {name : List Byte} {e : Option DirEntry}
    (h : searchDirEntryIn d name t = some (e, t')) : Stays t t' := by
  simp only [searchDirEntryIn] at h
  rcases h₁ : malloc t with ⟨allBlocks, t₁⟩
  simp only [h₁] at h
  obtain ⟨s₁, b₁⟩ := malloc_stays h₁
  cases allBlocks with
  | none =>
    simp only [Option.pure_def, Option.some.injEq, Prod.mk.injEq] at h
    exact h.2 ▸ s₁
  | some home =>
    rcases h₂ : malloc t₁ with ⟨buf, t₂⟩
    simp only [h₂, bind_some_iff, Option.pure_def, Option.some.injEq, Prod.mk.injEq] at h
    obtain ⟨a, -, i, -, dirE, -, t₃, hfree, -, rfl⟩ := h
    obtain ⟨s₂, b₂⟩ := malloc_stays h₂
    have s₃ := s₂.trans (freeBuf_stays hfree fun c hc => (b₂ c hc).trans s₂.pgdir.symm)
    exact (s₁.trans s₃).trans (free_stays ((b₁ home rfl).trans (s₁.trans s₃).pgdir.symm))

theorem deleteDirEntryIn_stays {inodeNo : ℕ} (h : deleteDirEntryIn d inodeNo t = some t') :
    Stays t t' := by
  simp only [deleteDirEntryIn, bind_some_iff, Option.pure_def, Option.some.injEq] at h
  obtain ⟨s, -, rfl⟩ := h
  exact on_stays s

theorem inodeReleaseNo_stays {inodeNo : ℕ} (h : inodeReleaseNo inodeNo t = some t') :
    Stays t t' := by
  simp only [inodeReleaseNo, bind_some_iff] at h
  obtain ⟨⟨a, t₁⟩, ho, i, -, h⟩ := h
  rcases h₁ : malloc t₁ with ⟨ioBuf, t₂⟩
  simp only [h₁] at h
  obtain ⟨v, -, t₃, hfree, hclose⟩ := h
  obtain ⟨s₂, b₂⟩ := malloc_stays h₁
  have s₃ := freeBuf_stays hfree fun c hc => (b₂ c hc).trans s₂.pgdir.symm
  exact (((inodeOpen_stays ho).trans s₂).trans ((on_stays _).trans s₃)).trans (inodeClose_stays hclose)

theorem fileCreateAt_stays {filename : List Byte} {inodeNo new fdIdx : ℕ} {fd : ℤ}
    (h : fileCreateAt d filename inodeNo new fdIdx home t = some (fd, t')) (hk : t.pgdir = none)
    (hh : home = t.pgdir) : Stays t t' := by
  simp only [fileCreateAt, bind_some_iff] at h
  obtain ⟨e, -, a, -, i, -, ⟨ok, i', v⟩, -, h⟩ := h
  simp only at h
  split at h
  · simp only [Option.pure_def, Option.some.injEq, Prod.mk.injEq] at h
    obtain ⟨-, rfl⟩ := h
    -- the rollback frees the inode where the caller allocated it, in the kernel
    refine Stays.trans ?_ (free_stays hh)
    refine ⟨rfl, fun _ hp => hp, fun hd => ⟨fun e he => ?_, hd.inodes⟩⟩
    rcases List.mem_cons.mp he with rfl | he
    · exact (hd.inodes new).trans hk.symm
    · exact hd.matched e he
  · simp only [bind_some_iff, Option.pure_def, Option.some.injEq, Prod.mk.injEq] at h
    obtain ⟨v', -, -, rfl⟩ := h
    exact (on_stays _).trans (free_stays hh)

/-- A thread of the kernel creates a file. -/
theorem fileCreate_stays {filename : List Byte} {flag : ℕ} {fd : ℤ} (hk : t.pgdir = none)
    (h : fileCreate d filename flag t = some (fd, t')) : Stays t t' := by
  simp only [fileCreate] at h
  rcases h₁ : malloc t with ⟨ioBuf, t₁⟩
  simp only [h₁] at h
  obtain ⟨s₁, b₁⟩ := malloc_stays h₁
  cases ioBuf with
  | none =>
    simp only [Option.pure_def, Option.some.injEq, Prod.mk.injEq] at h
    exact h.2 ▸ s₁
  | some ioBuf =>
    have hio : ioBuf = t₁.pgdir := (b₁ ioBuf rfl).trans s₁.pgdir.symm
    simp only [bind_some_iff] at h
    obtain ⟨⟨inodeNo, v⟩, -, h⟩ := h
    cases inodeNo with
    | none =>
      simp only [Option.pure_def, Option.some.injEq, Prod.mk.injEq] at h
      exact h.2 ▸ s₁.trans (free_stays hio)
    | some inodeNo =>
      rcases h₂ : malloc t₁ with ⟨newFileInode, t₂⟩
      simp only [h₂] at h
      obtain ⟨s₂, b₂⟩ := malloc_stays h₂
      have s₁₂ := s₁.trans s₂
      have hio₂ : ioBuf = t₂.pgdir := hio.trans s₂.pgdir.symm
      cases newFileInode with
      | none =>
        simp only [Option.pure_def, Option.some.injEq, Prod.mk.injEq] at h
        rw [← h.2]
        exact s₁₂.trans ((on_stays _).trans (free_stays hio₂))
      | some home =>
        have hhome : home = t₂.pgdir := (b₂ home rfl).trans s₂.pgdir.symm
        simp only at h
        split at h
        · simp only [Option.pure_def, Option.some.injEq, Prod.mk.injEq] at h
          obtain ⟨-, rfl⟩ := h
          refine s₁₂.trans (Stays.trans (Stays.trans (on_stays _) (free_stays ?_)) (free_stays ?_))
          · exact hhome
          · exact hio₂
        · have hk₂ : t₂.pgdir = none := s₁₂.pgdir.trans hk
          refine s₁₂.trans (Stays.trans ?_ (fileCreateAt_stays h hk₂ hio₂))
          refine ⟨rfl, fun _ hp => hp, fun hd => ⟨hd.matched, fun b => ?_⟩⟩
          by_cases hb : b = t₂.kernel.next
          · subst hb
            exact (Function.update_self ..).trans (hhome.trans hk₂)
          · exact (Function.update_of_ne hb ..).trans (hd.inodes b)

theorem fileOpen_stays {inodeNo flag : ℕ} {fd : ℤ} (h : fileOpen inodeNo flag t = some (fd, t')) :
    Stays t t' := by
  simp only [fileOpen] at h
  split at h
  · simp only [Option.pure_def, Option.some.injEq, Prod.mk.injEq] at h
    exact h.2 ▸ .refl
  · simp only [bind_some_iff] at h
    obtain ⟨⟨a, t₁⟩, ho, i, -, h⟩ := h
    refine (inodeOpen_stays ho).trans ?_
    split at h
    · simp only [Option.pure_def, Option.some.injEq, Prod.mk.injEq] at h
      exact h.2 ▸ on_stays _
    · split at h
      · simp only [Option.pure_def, Option.some.injEq, Prod.mk.injEq] at h
        exact h.2 ▸ on_stays _
      · simp only [Option.pure_def, Option.some.injEq, Prod.mk.injEq] at h
        exact h.2 ▸ on_stays _

theorem fileClose_stays {fdIdx : ℕ} {ret : ℤ} (h : fileClose fdIdx t = some (ret, t')) :
    Stays t t' := by
  simp only [fileClose, bind_some_iff, Option.pure_def, Option.some.injEq, Prod.mk.injEq] at h
  obtain ⟨a, -, i, -, t₁, hc, -, rfl⟩ := h
  exact ((on_stays _).trans (inodeClose_stays hc)).trans (on_stays _)

/-- Two buffers, freed in the other order unless the call fails. -/
theorem twoBuffers_stays {α : Type} {t₁ t₂ : Traced part} {ioBuf allBlocks : Option Ctx} {r r' : α}
    {P : Prop} [Decidable P] {s : Kernel part} {q : α}
    (h₁ : malloc t = (ioBuf, t₁)) (h₂ : malloc t₁ = (allBlocks, t₂))
    (h : (if P then pure (q, t₂.on s) else freeBuf allBlocks (t₂.on s) >>= fun t =>
      freeBuf ioBuf t >>= fun t => pure (r, t)) = some (r', t')) : Stays t t' := by
  obtain ⟨s₁, b₁⟩ := malloc_stays h₁
  obtain ⟨s₂, b₂⟩ := malloc_stays h₂
  have s₃ : Stays t (t₂.on s) := (s₁.trans s₂).trans (on_stays s)
  split at h
  · simp only [Option.pure_def, Option.some.injEq, Prod.mk.injEq] at h
    exact h.2 ▸ s₃
  · simp only [bind_some_iff, Option.pure_def, Option.some.injEq, Prod.mk.injEq] at h
    obtain ⟨t₄, hfree, t₅, hfree', -, rfl⟩ := h
    have s₄ := freeBuf_stays hfree fun c hc => (b₂ c hc).trans s₂.pgdir.symm
    exact (s₃.trans s₄).trans
      (freeBuf_stays hfree' fun c hc => (b₁ c hc).trans (s₃.trans s₄).pgdir.symm)

theorem fileWriteTo_stays {fdIdx count : ℕ} {buf : Bytes} {ret : ℤ}
    (h : fileWriteTo fdIdx buf count t = some (ret, t')) : Stays t t' := by
  simp only [fileWriteTo, bind_some_iff] at h
  obtain ⟨a, -, i, -, h⟩ := h
  rcases h₁ : malloc t with ⟨ioBuf, t₁⟩
  rcases h₂ : malloc t₁ with ⟨allBlocks, t₂⟩
  simp only [h₁, h₂] at h
  obtain ⟨res, -, h⟩ := h
  exact twoBuffers_stays h₁ h₂ h

theorem fileReadFrom_stays {fdIdx count : ℕ} {buf : Bytes} {ret : ℤ × Bytes}
    (h : fileReadFrom fdIdx buf count t = some (ret, t')) : Stays t t' := by
  simp only [fileReadFrom, bind_some_iff] at h
  obtain ⟨a, -, i, -, h⟩ := h
  rcases h₁ : malloc t with ⟨ioBuf, t₁⟩
  rcases h₂ : malloc t₁ with ⟨allBlocks, t₂⟩
  simp only [h₁, h₂] at h
  obtain ⟨res, -, h⟩ := h
  exact twoBuffers_stays h₁ h₂ h

end Heap

section Calls

variable {t t' : Traced part} {d : Option DirPtr} {junk : Junk} {path : List Byte} {ret : ℤ}

theorem searchEnd_stays {parentInodeNo dirEntryNo : ℕ} {record record' : PathSearchRecord}
    {r : Option ℕ} (hd : Own t record.parentDir)
    (h : searchEnd parentInodeNo dirEntryNo record t = some ((r, record'), t')) :
    Stays t t' ∧ Own t' record'.parentDir := by
  simp only [searchEnd, bind_some_iff, Option.pure_def, Option.some.injEq, Prod.mk.injEq] at h
  obtain ⟨t₁, hc, ⟨d, t₂⟩, ho, ⟨-, rfl⟩, rfl⟩ := h
  obtain ⟨s₂, hown⟩ := dirOpen_stays ho
  exact ⟨(dirClose_stays hd hc).trans s₂, hown⟩

/-- The handles a search leaves open are its own. -/
theorem searchLoop_stays (name : List Byte) (subPath : Option (List Byte))
    (parentDir : Option DirPtr) (parentInodeNo dirEntryNo : ℕ) (record : PathSearchRecord)
    (t : Traced part) {r : Option ℕ} {record' : PathSearchRecord}
    (hd : Own t parentDir) (hr : Own t record.parentDir)
    (h : searchLoop name subPath parentDir parentInodeNo dirEntryNo record t =
      some ((r, record'), t')) : Stays t t' ∧ Own t' record'.parentDir := by
  induction name, subPath, parentDir, parentInodeNo, dirEntryNo, record, t using
    searchLoop.induct with
  | case1 subPath parentDir parentInodeNo dirEntryNo record t =>
    rw [searchLoop, if_pos rfl] at h
    exact searchEnd_stays hr h
  | case2 name subPath parentDir parentInodeNo dirEntryNo record t hne ihdir ihother =>
    rw [searchLoop, if_neg hne] at h
    simp only [bind_some_iff, assert_eq_some] at h
    obtain ⟨_, hlen, _, hpath, ⟨dirE, t₁⟩, hs, h⟩ := h
    have s₁ := searchDirEntryIn_stays hs
    cases dirE with
    | none =>
      simp only [Option.pure_def, Option.some.injEq, Prod.mk.injEq] at h
      obtain ⟨⟨-, rfl⟩, rfl⟩ := h
      exact ⟨s₁, s₁.own hr⟩
    | some dirE =>
      simp only [bind_some_iff, assert_eq_some] at h
      obtain ⟨_, hnext, h⟩ := h
      split at h
      · simp only [bind_some_iff] at h
        obtain ⟨a, -, i, -, t₂, hc, ⟨d, t₃⟩, ho, h⟩ := h
        have s₂ := s₁.trans (dirClose_stays (s₁.own hd) hc)
        obtain ⟨s₃, hown⟩ := dirOpen_stays ho
        obtain ⟨s₄, hown'⟩ := ihdir dirE i d t₃ hown hown h
        exact ⟨(s₂.trans s₃).trans s₄, hown'⟩
      · split at h
        · simp only [Option.pure_def, Option.some.injEq, Prod.mk.injEq] at h
          obtain ⟨⟨-, rfl⟩, rfl⟩ := h
          exact ⟨s₁, s₁.own hr⟩
        · obtain ⟨s₂, hown⟩ := ihother t₁ dirE (s₁.own hd) (s₁.own hr) h
          exact ⟨s₁.trans s₂, hown⟩

theorem searchFile_stays {record record' : PathSearchRecord} {r : Option ℕ}
    (h : searchFile junk path record t = some ((r, record'), t')) :
    Stays t t' ∧ Own t' record'.parentDir := by
  rw [searchFile] at h
  split at h
  · simp only [Option.some.injEq, Prod.mk.injEq] at h
    obtain ⟨⟨-, rfl⟩, rfl⟩ := h
    exact ⟨.refl, trivial⟩
  · simp only [bind_some_iff, assert_eq_some] at h
    obtain ⟨_, -, _, -, h⟩ := h
    have hroot : Own t (some .root) := trivial
    refine searchLoop_stays _ _ _ _ _ _ _ hroot ?_ h
    exact hroot

theorem openFound_stays {flags depth : ℕ} {inodeNo : Option ℕ} {record : PathSearchRecord}
    (hk : creates flags = true → t.pgdir = none) (hd : Own t record.parentDir)
    (h : openFound junk path flags depth inodeNo record t = some (ret, t')) : Stays t t' := by
  simp only [openFound] at h
  split at h
  · exact dirClose_return h hd
  · rw [bind_some_iff] at h
    obtain ⟨searchedDepth, -, h⟩ := h
    split at h
    · exact dirClose_return h hd
    · split at h
      · exact dirClose_return h hd
      · exact dirClose_return h hd
      · rename_i hcreat
        simp only [bind_some_iff] at h
        obtain ⟨filename, -, ⟨fd, t₁⟩, hc, h⟩ := h
        have s₁ := fileCreate_stays (hk hcreat) hc
        refine s₁.trans (dirClose_stays (s₁.own hd) ?_)
        obtain ⟨t₂, hcl, ht⟩ := h
        obtain ⟨-, rfl⟩ := Prod.mk.inj (Option.some.inj ht)
        exact hcl
      · exact fileOpen_stays h

theorem sysOpen_stays {flags : ℕ} (hk : creates flags = true → t.pgdir = none)
    (h : sysOpen junk path flags t = some (ret, t')) : Stays t t' := by
  rw [sysOpen, bind_some_iff] at h
  obtain ⟨last, -, h⟩ := h
  split at h
  · simp only [Option.pure_def, Option.some.injEq, Prod.mk.injEq] at h
    exact h.2 ▸ .refl
  · simp only [bind_some_iff, assert_eq_some] at h
    obtain ⟨_, -, depth, -, ⟨⟨inodeNo, record⟩, t₁⟩, hs, h⟩ := h
    obtain ⟨s₁, hd⟩ := searchFile_stays hs
    exact s₁.trans (openFound_stays (fun hc => s₁.pgdir.trans (hk hc)) hd h)

theorem sysClose_stays {fd : ℕ} (h : sysClose fd t = some (ret, t')) : Stays t t' := by
  rw [sysClose] at h
  split at h
  · simp only [Option.pure_def, Option.some.injEq, Prod.mk.injEq] at h
    exact h.2 ▸ .refl
  · simp only [bind_some_iff, Option.pure_def, Option.some.injEq, Prod.mk.injEq] at h
    obtain ⟨globalFd, -, ⟨r, t₁⟩, hc, -, rfl⟩ := h
    refine Stays.trans ?_ (on_stays _)
    rw [closeSlot] at hc
    split at hc
    · obtain ⟨-, rfl⟩ := Prod.mk.inj (Option.some.inj hc)
      exact on_stays _
    · exact fileClose_stays hc

theorem sysWrite_stays {fd count : ℕ} {buf : Bytes} (h : sysWrite fd buf count t = some (ret, t')) :
    Stays t t' := by
  rw [sysWrite] at h
  split at h
  · simp only [bind_some_iff, Option.pure_def, Option.some.injEq, Prod.mk.injEq] at h
    obtain ⟨-, -, -, rfl⟩ := h
    exact .refl
  · simp only [bind_some_iff, assert_eq_some] at h
    obtain ⟨globalFd, -, _, -, h⟩ := h
    split at h
    · exact fileWriteTo_stays h
    · simp only [Option.pure_def, Option.some.injEq, Prod.mk.injEq] at h
      exact h.2 ▸ .refl

theorem sysRead_stays {fd count : ℕ} {buf : Bytes} {r : ℤ × Bytes}
    (h : sysRead fd buf count t = some (r, t')) : Stays t t' := by
  rw [sysRead] at h
  split at h
  · simp only [Option.pure_def, Option.some.injEq, Prod.mk.injEq] at h
    exact h.2 ▸ .refl
  · simp only [bind_some_iff, assert_eq_some] at h
    obtain ⟨_, -, globalFd, -, _, -, h⟩ := h
    exact fileReadFrom_stays h

theorem sysLseek_stays {ioqWord fd : ℕ} {offset : ℤ} {whence : Whence}
    (h : sysLseek ioqWord fd offset whence t = some (ret, t')) : Stays t t' := by
  simp only [sysLseek, bind_some_iff, Option.pure_def, Option.some.injEq, Prod.mk.injEq] at h
  obtain ⟨⟨pos, s⟩, -, -, rfl⟩ := h
  exact on_stays s

theorem unlinkFound_stays {inodeNo : ℕ} (hd : Own t d)
    (h : unlinkFound inodeNo d t = some (ret, t')) : Stays t t' := by
  simp only [unlinkFound] at h
  rcases h₁ : malloc t with ⟨ioBuf, t₁⟩
  simp only [h₁] at h
  obtain ⟨s₁, b₁⟩ := malloc_stays h₁
  cases ioBuf with
  | none => exact s₁.trans (dirClose_return h (s₁.own hd))
  | some ioBuf =>
    simp only [bind_some_iff, Option.pure_def, Option.some.injEq, Prod.mk.injEq] at h
    obtain ⟨t₂, hdel, t₃, hrel, t₄, hclose, -, rfl⟩ := h
    have s₃ := (s₁.trans (deleteDirEntryIn_stays hdel)).trans (inodeReleaseNo_stays hrel)
    have s₄ := s₃.trans (free_stays ((b₁ ioBuf rfl).trans s₃.pgdir.symm))
    exact s₄.trans (dirClose_stays (s₄.own hd) hclose)

theorem sysUnlink_stays (h : sysUnlink junk path t = some (ret, t')) : Stays t t' := by
  simp only [sysUnlink, bind_some_iff, assert_eq_some] at h
  obtain ⟨_, -, ⟨⟨inodeNo, record⟩, t₁⟩, hs, _, -, h⟩ := h
  obtain ⟨s₁, hd⟩ := searchFile_stays hs
  refine s₁.trans ?_
  cases inodeNo with
  | none => exact dirClose_return h hd
  | some inodeNo =>
    simp only at h
    split at h
    · exact dirClose_return h hd
    · rw [bind_some_iff] at h
      obtain ⟨inUse, -, h⟩ := h
      split at h
      · exact dirClose_return h hd
      · exact unlinkFound_stays hd h

theorem mkdirRollback_stays {inodeNo : ℕ} {v : Volume part} {ioBuf : Ctx}
    (h : mkdirRollback d inodeNo v ioBuf t = some (ret, t')) (hd : Own t d)
    (hio : ioBuf = t.pgdir) : Stays t t' :=
  (on_stays _).trans (dirClose_free h ((on_stays _).own hd) hio)

theorem mkdirIn_stays {dirname : List Byte} {ioBuf : Ctx} (hd : Own t d) (hio : ioBuf = t.pgdir)
    (h : mkdirIn d dirname ioBuf t = some (ret, t')) : Stays t t' := by
  simp only [mkdirIn, bind_some_iff] at h
  obtain ⟨⟨inodeNo, v⟩, -, h⟩ := h
  cases inodeNo with
  | none => exact dirClose_free h hd hio
  | some inodeNo =>
    simp only [bind_some_iff] at h
    obtain ⟨a, -, i, -, ⟨new, v₁⟩, -, h⟩ := h
    cases new with
    | none => exact mkdirRollback_stays h hd hio
    | some new =>
      simp only [bind_some_iff] at h
      obtain ⟨e, -, ⟨ok, i', v₂⟩, -, h⟩ := h
      simp only at h
      split at h
      · exact (on_stays _).trans (mkdirRollback_stays h hd hio)
      · simp only [bind_some_iff, Option.pure_def, Option.some.injEq, Prod.mk.injEq] at h
        obtain ⟨v₃, -, t₁, hclose, -, rfl⟩ := h
        have s₁ : Stays t (free ioBuf ((t.on (t.kernel.setInode a i')).on
            ((t.kernel.setInode a i').withVol v₃))) :=
          ((on_stays _).trans (on_stays _)).trans (free_stays hio)
        exact s₁.trans (dirClose_stays (s₁.own hd) hclose)

theorem sysMkdir_stays (h : sysMkdir junk path t = some (ret, t')) : Stays t t' := by
  simp only [sysMkdir] at h
  rcases h₁ : malloc t with ⟨ioBuf, t₁⟩
  simp only [h₁] at h
  obtain ⟨s₁, b₁⟩ := malloc_stays h₁
  cases ioBuf with
  | none =>
    simp only [Option.pure_def, Option.some.injEq, Prod.mk.injEq] at h
    exact h.2 ▸ s₁
  | some ioBuf =>
    simp only [bind_some_iff] at h
    obtain ⟨⟨⟨inodeNo, record⟩, t₂⟩, hs, h⟩ := h
    obtain ⟨s₂, hd⟩ := searchFile_stays hs
    have hio : ioBuf = t₂.pgdir := (b₁ ioBuf rfl).trans (s₁.trans s₂).pgdir.symm
    refine (s₁.trans s₂).trans ?_
    cases inodeNo with
    | some inodeNo => exact dirClose_free h hd hio
    | none =>
      simp only [bind_some_iff] at h
      obtain ⟨pathnameDepth, -, searchedDepth, -, h⟩ := h
      split at h
      · exact dirClose_free h hd hio
      · rw [bind_some_iff] at h
        obtain ⟨dirname, -, h⟩ := h
        exact mkdirIn_stays hd hio h

theorem sysOpendir_stays {r : Option DirPtr} (h : sysOpendir junk path t = some (r, t')) :
    Stays t t' := by
  simp only [sysOpendir, bind_some_iff, assert_eq_some] at h
  obtain ⟨_, -, h⟩ := h
  split at h
  · simp only [Option.pure_def, Option.some.injEq, Prod.mk.injEq] at h
    exact h.2 ▸ .refl
  · rw [bind_some_iff] at h
    obtain ⟨⟨⟨inodeNo, record⟩, t₁⟩, hs, h⟩ := h
    obtain ⟨s₁, hd⟩ := searchFile_stays hs
    refine s₁.trans ?_
    simp only at h
    split at h
    · rw [bind_some_iff] at h
      obtain ⟨⟨r', t₂⟩, ho, h⟩ := h
      obtain ⟨s₂, -⟩ := dirOpen_stays ho
      exact s₂.trans (dirClose_return h (s₂.own hd))
    · exact dirClose_return h hd

theorem sysClosedir_stays (hd : Own t d) (h : sysClosedir d t = some (ret, t')) : Stays t t' := by
  cases d with
  | none =>
    obtain ⟨-, rfl⟩ := Prod.mk.inj (Option.some.inj h)
    exact .refl
  | some d => exact dirClose_return h hd

theorem moveDirPos_stays {dir : DirPtr} {dirPos : ℕ} {r : Unit}
    (h : moveDirPos dir dirPos t = some (r, t')) : Stays t t' := by
  simp only [moveDirPos, bind_some_iff, Option.pure_def, Option.some.injEq, Prod.mk.injEq] at h
  obtain ⟨⟨_, s⟩, -, -, rfl⟩ := h
  exact on_stays s

theorem dirRemove_stays {parentDir childDir : Option DirPtr}
    (h : dirRemove parentDir childDir t = some (ret, t')) : Stays t t' := by
  simp only [dirRemove, bind_some_iff, assert_eq_some] at h
  obtain ⟨a, -, i, -, _, -, h⟩ := h
  rcases h₁ : malloc t with ⟨ioBuf, t₁⟩
  simp only [h₁] at h
  obtain ⟨s₁, b₁⟩ := malloc_stays h₁
  cases ioBuf with
  | none =>
    simp only [Option.pure_def, Option.some.injEq, Prod.mk.injEq] at h
    exact h.2 ▸ s₁
  | some ioBuf =>
    simp only [bind_some_iff, Option.pure_def, Option.some.injEq, Prod.mk.injEq] at h
    obtain ⟨t₂, hdel, i', -, t₃, hrel, -, rfl⟩ := h
    have s₃ := (s₁.trans (deleteDirEntryIn_stays hdel)).trans (inodeReleaseNo_stays hrel)
    exact s₃.trans (free_stays ((b₁ ioBuf rfl).trans s₃.pgdir.symm))

theorem rmdirFound_stays {inodeNo : ℕ} (hd : Own t d)
    (h : rmdirFound inodeNo d t = some (ret, t')) : Stays t t' := by
  simp only [rmdirFound, bind_some_iff] at h
  obtain ⟨⟨child, t₁⟩, ho, a, -, i, -, h⟩ := h
  obtain ⟨s₁, hchild⟩ := dirOpen_stays ho
  have hd₁ := s₁.own hd
  split at h
  · rw [bind_some_iff] at h
    obtain ⟨t₂, hc, h⟩ := h
    have s₂ := dirClose_stays hchild hc
    exact (s₁.trans s₂).trans (dirClose_return h (s₂.own hd₁))
  · simp only [bind_some_iff] at h
    obtain ⟨⟨r, t₂⟩, hr, t₃, hc, h⟩ := h
    have s₂ := dirRemove_stays hr
    have s₃ := s₂.trans (dirClose_stays (s₂.own hchild) hc)
    obtain ⟨t₄, hclose, ht⟩ := h
    obtain ⟨-, rfl⟩ := Prod.mk.inj (Option.some.inj ht)
    exact (s₁.trans s₃).trans (dirClose_stays (s₃.own hd₁) hclose)

theorem sysRmdir_stays (h : sysRmdir junk path t = some (ret, t')) : Stays t t' := by
  simp only [sysRmdir, bind_some_iff, assert_eq_some] at h
  obtain ⟨⟨⟨inodeNo, record⟩, t₁⟩, hs, _, -, h⟩ := h
  obtain ⟨s₁, hd⟩ := searchFile_stays hs
  refine s₁.trans ?_
  cases inodeNo with
  | none => exact dirClose_return h hd
  | some inodeNo =>
    simp only at h
    split at h
    · exact dirClose_return h hd
    · exact rmdirFound_stays hd h

theorem sysChdir_stays (h : sysChdir junk path t = some (ret, t')) : Stays t t' := by
  simp only [sysChdir, bind_some_iff] at h
  obtain ⟨⟨⟨inodeNo, record⟩, t₁⟩, hs, h⟩ := h
  obtain ⟨s₁, hd⟩ := searchFile_stays hs
  refine s₁.trans ?_
  simp only at h
  split at h
  · exact (on_stays _).trans (dirClose_return h ((on_stays _).own hd))
  · exact dirClose_return h hd

theorem sysStat_stays {r : Option Stat} (h : sysStat junk path t = some (r, t')) : Stays t t' := by
  rw [sysStat] at h
  split at h
  · simp only [bind_some_iff, Option.pure_def, Option.some.injEq, Prod.mk.injEq] at h
    obtain ⟨i, -, -, rfl⟩ := h
    exact .refl
  · rw [bind_some_iff] at h
    obtain ⟨⟨⟨inodeNo, record⟩, t₁⟩, hs, h⟩ := h
    obtain ⟨s₁, hd⟩ := searchFile_stays hs
    refine s₁.trans ?_
    cases inodeNo with
    | none => exact dirClose_return h hd
    | some inodeNo =>
      simp only [bind_some_iff, Option.pure_def, Option.some.injEq, Prod.mk.injEq] at h
      obtain ⟨⟨a, t₂⟩, ho, i, -, t₃, hc, t₄, hclose, -, rfl⟩ := h
      have s₂ := (inodeOpen_stays ho).trans (inodeClose_stays hc)
      exact s₂.trans (dirClose_stays (s₂.own hd) hclose)

theorem cwdLoop_stays {fuel childInodeNr : ℕ} {r : Option (List Byte)}
    (h : cwdLoop fuel childInodeNr path t = some (r, t')) : Stays t t' := by
  induction fuel generalizing childInodeNr path t with
  | zero => cases h
  | succ fuel ih =>
    rw [cwdLoop] at h
    split at h
    · obtain ⟨-, rfl⟩ := Prod.mk.inj (Option.some.inj h)
      exact .refl
    · simp only [bind_some_iff] at h
      obtain ⟨⟨parent, t₁⟩, hp, ⟨name, t₂⟩, hn, h⟩ := h
      have s₁ : Stays t t₁ := by
        simp only [getParentDirInodeNr, bind_some_iff, assert_eq_some, Option.pure_def,
          Option.some.injEq, Prod.mk.injEq] at hp
        obtain ⟨⟨a, t₃⟩, ho, i, -, _, -, t₄, hc, n, -, -, rfl⟩ := hp
        exact (inodeOpen_stays ho).trans (inodeClose_stays hc)
      have s₂ : Stays t₁ t₂ := by
        simp only [getChildDirName, bind_some_iff, Option.pure_def, Option.some.injEq,
          Prod.mk.injEq] at hn
        obtain ⟨⟨a, t₃⟩, ho, i, -, ab, -, t₄, hc, n, -, -, rfl⟩ := hn
        exact (inodeOpen_stays ho).trans (inodeClose_stays hc)
      refine (s₁.trans s₂).trans ?_
      cases name with
      | none =>
        simp only [Option.pure_def, Option.some.injEq, Prod.mk.injEq] at h
        exact h.2 ▸ .refl
      | some name =>
        simp only [bind_some_iff, assert_eq_some] at h
        obtain ⟨_, -, h⟩ := h
        exact ih h

theorem sysGetcwd_stays {fuel size : ℕ} {r : Option (List Byte)}
    (h : sysGetcwd fuel size t = some (r, t')) : Stays t t' := by
  simp only [sysGetcwd] at h
  rcases h₁ : malloc t with ⟨ioBuf, t₁⟩
  simp only [h₁] at h
  obtain ⟨s₁, b₁⟩ := malloc_stays h₁
  cases ioBuf with
  | none =>
    simp only [Option.pure_def, Option.some.injEq, Prod.mk.injEq] at h
    exact h.2 ▸ s₁
  | some ioBuf =>
    have hio : ioBuf = t₁.pgdir := (b₁ ioBuf rfl).trans s₁.pgdir.symm
    simp only [bind_some_iff, assert_eq_some] at h
    obtain ⟨_, -, h⟩ := h
    refine s₁.trans ?_
    split at h
    · simp only [Option.pure_def, Option.some.injEq, Prod.mk.injEq] at h
      exact h.2 ▸ free_stays hio
    · rw [bind_some_iff] at h
      obtain ⟨⟨p, t₂⟩, hl, h⟩ := h
      have s₂ := cwdLoop_stays hl
      refine s₂.trans ?_
      cases p with
      | none =>
        simp only [Option.pure_def, Option.some.injEq, Prod.mk.injEq] at h
        exact h.2 ▸ free_stays (hio.trans s₂.pgdir.symm)
      | some p =>
        simp only [bind_some_iff, assert_eq_some, Option.pure_def, Option.some.injEq,
          Prod.mk.injEq] at h
        obtain ⟨_, -, -, rfl⟩ := h
        exact free_stays (hio.trans s₂.pgdir.symm)

end Calls

/-- Every `sys_free` was in the context of the `sys_malloc`, and the inodes in `open_inodes` are
blocks of the kernel. -/
def ContextsMatch (w : System part) : Prop :=
  (∀ e ∈ w.frees, e.1 = e.2) ∧ ∀ a ∈ w.kernel.openInodes, w.inodeHome a = none

/-- A file is created by a thread of the kernel, and a directory is closed by the thread that
opened it. -/
def Fine : Call → System part → Prop
  | .open p _ _ flags, w => creates flags = true → w.user p = false
  | .closedir p (some (.heap a)), w => w.dirHome a = w.ctx p
  | _, _ => True

instance (call : Call) (w : System part) : Decidable (Fine call w) := by
  unfold Fine
  split <;> infer_instance

structure Kept (w : System part) : Prop where
  matched : ∀ e ∈ w.frees, e.1 = e.2
  inodes : ∀ a, w.inodeHome a = none

section Runs

variable {w w' : System part} {p : ℕ}

theorem call_kept {α : Type} {f : Traced part → Option (α × Traced part)} (hw : Kept w)
    (hf : ∀ t t' r, t.pgdir = w.ctx p → t.dirHome = w.dirHome → f t = some (r, t') → Stays t t')
    (h : w.call p f = some w') : Kept w' := by
  simp only [System.call, bind_some_iff, Option.pure_def, Option.some.injEq] at h
  obtain ⟨task, -, ⟨r, t⟩, hcall, rfl⟩ := h
  have hd := (hf _ _ _ rfl rfl hcall).disciplined ⟨hw.matched, hw.inodes⟩
  exact ⟨hd.matched, hd.inodes⟩

theorem exec_kept {call : Call} (hw : Kept w) (hok : Fine call w) (h : call.exec w = some w') :
    Kept w' := by
  cases call with
  | «open» p junk pathname flags =>
    refine call_kept hw (fun t t' r hp _ hc => sysOpen_stays (fun hcreat => ?_) hc) h
    rw [hp, System.ctx, hok hcreat]
    rfl
  | close p fd => exact call_kept hw (fun _ _ _ _ _ hc => sysClose_stays hc) h
  | read p fd buf count => exact call_kept hw (fun _ _ _ _ _ hc => sysRead_stays hc) h
  | write p fd buf count => exact call_kept hw (fun _ _ _ _ _ hc => sysWrite_stays hc) h
  | lseek p ioqWord fd offset whence =>
    exact call_kept hw (fun _ _ _ _ _ hc => sysLseek_stays hc) h
  | unlink p junk pathname => exact call_kept hw (fun _ _ _ _ _ hc => sysUnlink_stays hc) h
  | mkdir p junk pathname => exact call_kept hw (fun _ _ _ _ _ hc => sysMkdir_stays hc) h
  | opendir p junk name => exact call_kept hw (fun _ _ _ _ _ hc => sysOpendir_stays hc) h
  | closedir p dir =>
    refine call_kept hw (fun t t' r hp hdir hc => sysClosedir_stays ?_ hc) h
    rcases dir with _ | _ | a
    · trivial
    · trivial
    · rw [Own, hp, hdir]
      exact hok
  | movedir p dir dirPos => exact call_kept hw (fun _ _ _ _ _ hc => moveDirPos_stays hc) h
  | rmdir p junk pathname => exact call_kept hw (fun _ _ _ _ _ hc => sysRmdir_stays hc) h
  | getcwd p fuel size => exact call_kept hw (fun _ _ _ _ _ hc => sysGetcwd_stays hc) h
  | chdir p junk path => exact call_kept hw (fun _ _ _ _ _ hc => sysChdir_stays hc) h
  | stat p junk path => exact call_kept hw (fun _ _ _ _ _ hc => sysStat_stays hc) h

theorem boot_kept {v : Volume part} {mallocs : ℕ → Bool} {procs : ℕ → Option Task} {user : ℕ → Bool}
    (h : boot v mallocs procs user = some w) : Kept w := by
  simp only [boot, FsHeapTrace.openRootDir, bind_some_iff, Option.pure_def, Option.some.injEq] at h
  obtain ⟨t, ⟨⟨a, t₁⟩, ho, rfl⟩, rfl⟩ := h
  have hd := (inodeOpen_stays ho).disciplined ⟨by simp, fun _ => rfl⟩
  exact ⟨hd.matched, hd.inodes⟩

/-- While the files are created by threads of the kernel. -/
theorem run_contexts_match {v : Volume part} {mallocs : ℕ → Bool} {procs : ℕ → Option Task}
    {user : ℕ → Bool} {calls : List Call} (hb : boot v mallocs procs user = some w)
    (hok : AllMeet Call.exec Fine calls w) (hrun : runAll Call.exec calls w = some w') :
    ContextsMatch w' := by
  have hk := runAll_invariant Kept (fun _ _ _ hw hf he => exec_kept hw hf he) (boot_kept hb) hok hrun
  exact ⟨hk.matched, fun a _ => hk.inodes a⟩

end Runs

open FsReferenceRuns (smallVolume noJunk)
open FsWriters (freshTask)

/-- Thread 1 of the kernel and the user process 2 on a new file system. -/
def smallSystem : Option (System smallPartition) := do
  let v ← smallVolume
  boot v (fun _ => true) (fun p => if p = 1 ∨ p = 2 then some freshTask else none) fun p => p = 2

/-- The kernel creates `/f`, the process opens, reads and closes it. -/
def readByProcess : List Call :=
  [.open 1 noJunk [slash, 0x66] 4, .close 1 3, .open 2 noJunk [slash, 0x66] 0,
    .read 2 3 zeroes 4, .close 2 3]

theorem run_contexts_match_read : ∃ w w', smallSystem = some w ∧
    runAll Call.exec readByProcess w = some w' ∧ ContextsMatch w' := by
  have hrun : (smallSystem >>= runAll Call.exec readByProcess).isSome := by decide +kernel
  obtain ⟨w', hw'⟩ := Option.isSome_iff_exists.mp hrun
  obtain ⟨w, hw, hr⟩ := bind_some_iff.mp hw'
  have hboot := hw
  rw [smallSystem, bind_some_iff] at hboot
  obtain ⟨v, -, hboot⟩ := hboot
  have hok : (smallSystem.map fun w => decide (AllMeet Call.exec Fine readByProcess w)) = some true := by
    decide +kernel
  rw [hw] at hok
  exact ⟨w, w', hw, hr, run_contexts_match hboot (of_decide_eq_true (Option.some.inj hok)) hr⟩

/-- The user process creates `/f` and closes it. -/
def createdByProcess : List Call := [.open 2 noJunk [slash, 0x66] 4, .close 2 3]

theorem created_inode_freed_in_kernel : ∃ w w₁ w₂, smallSystem = some w ∧
    runAll Call.exec (createdByProcess.take 1) w = some w₁ ∧
    (∃ a ∈ w₁.kernel.openInodes, w₁.inodeHome a = some 2) ∧
    runAll Call.exec createdByProcess w = some w₂ ∧ (some 2, none) ∈ w₂.frees ∧
    ¬ContextsMatch w₂ := by
  have hrun : ((do
      let w ← smallSystem
      let w₁ ← runAll Call.exec (createdByProcess.take 1) w
      let w₂ ← runAll Call.exec createdByProcess w
      return (w₁.kernel.openInodes.map w₁.inodeHome, w₂.frees.contains (some 2, none))) :
      Option (List Ctx × Bool)) = some ([some 2, none], true) := by decide +kernel
  simp only [bind_some_iff, Option.pure_def, Option.some.injEq, Prod.mk.injEq] at hrun
  obtain ⟨w, hw, w₁, h₁, w₂, h₂, hhome, hfrees⟩ := hrun
  have hmem : ((some 2, none) : Ctx × Ctx) ∈ w₂.frees := List.contains_iff_mem.mp hfrees
  refine ⟨w, w₁, w₂, hw, h₁, ?_, h₂, hmem, fun hm => ?_⟩
  · have hin : (some 2 : Ctx) ∈ w₁.kernel.openInodes.map w₁.inodeHome := by
      rw [hhome]
      exact List.mem_cons_self
    obtain ⟨a, ha, he⟩ := List.mem_map.mp hin
    exact ⟨a, ha, he⟩
  · exact absurd (hm.1 _ hmem) (by simp)

end FsHeapContext
