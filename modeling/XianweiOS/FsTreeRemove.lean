import XianweiOS.FsTreeInsert
import XianweiOS.PathObjects

/-! An object without entries leaves a consistent tree: its directory loses the entry, and then the
inode is released with its blocks. What stands in the records and blocks of the other inodes is
kept. -/
namespace FsTreeRemove

open ByteStore HaltingProgram KernelBitmap DeviceIde FsVolume FsInodeTable FsBlockMap FsOwnership
  FsFreeBlocks FsFileWrite FsDirectory FsDirectorySlots FsDirectoryDelete FsDirectoryTable
  FsDirectoryMap FsDirectoryRuns FsInodeRelease FsStore FsStoreRuns PathTree FsTree FsConsistentTree

variable {part : Partition} {v v' v₁ v₂ : Volume part} {t : FileTree} {m n q : ℕ}
  {k : List Byte} {N : Node ℕ (List Byte)} {i i' j : Inode}

/-- The block pointers of inode `n` on the disk. -/
def diskRefs (v : Volume part) (n : ℕ) : ℕ → ℕ := ref v.disk (diskInode part v.disk n)

/-- The bytes of file `n`. -/
def fileBytes (v : Volume part) (n : ℕ) : List Byte := content v.disk (diskInode part v.disk n)

/-- Inode `q` is as before, and so is what stands in its blocks. -/
structure Kept (v v' : Volume part) (q : ℕ) : Prop where
  same : (diskInode part v'.disk q).Same (diskInode part v.disk q)
  refs : ∀ p < 141, diskRefs v' q p = diskRefs v q p
  quiet : ∀ p < 141, diskRefs v q p ≠ 0 → ∀ a ∈ sector (diskRefs v q p), v'.disk a = v.disk a

theorem Kept.trans {v'' : Volume part} (h : Kept v v' q) (h' : Kept v' v'' q) : Kept v v'' q := by
  refine ⟨h'.same.trans h.same, fun p hp => (h'.refs p hp).trans (h.refs p hp),
    fun p hp hz a ha => ?_⟩
  have href := h.refs p hp
  exact (h'.quiet p hp (href ▸ hz) a (href ▸ ha)).trans (h.quiet p hp hz a ha)

/-- A directory that is kept has the entries it had. -/
theorem Kept.directory (h : Kept v v' q) (ho : Owns v' (diskRefs v' q)) {e : NameMap}
    (hd : Directory v (diskInode part v.disk q) e) :
    Directory v' (diskInode part v'.disk q) e :=
  directory_kept hd ho h.same.size h.refs h.quiet

theorem Kept.layout (h : Kept v v' q) (ho : Owns v' (diskRefs v' q))
    (hl : FileLayout v (diskInode part v.disk q)) : FileLayout v' (diskInode part v'.disk q) :=
  fileLayout_congr hl h.same ho h.refs

/-- A file that is kept has the bytes it had. -/
theorem Kept.bytes (h : Kept v v' q) (hl : FileLayout v (diskInode part v.disk q)) :
    fileBytes v' q = fileBytes v q := by
  rw [fileBytes, fileBytes, content, content, h.same.size]
  apply List.map_congr_left
  intro x hx
  have hx := List.mem_range.mp hx
  have hsize := hl.size
  have hp : x / 512 < 140 := by omega
  have href := h.refs (x / 512) (by omega)
  rcases hl.blocks with hb | ⟨h0, -⟩
  · have hz : diskRefs v q (x / 512) ≠ 0 := (hb.data _ hp).mpr (Nat.div_le_div_right hx.le)
    rw [byteAddr, byteAddr, ← diskRefs, ← diskRefs, href]
    exact h.quiet _ (by omega) hz _ (by simp only [mem_sector]; omega)
  · omega

/-- A step of the store on inode `n` keeps the others, as far as the disk has them. -/
theorem kept_of_step {s s' : Store part} (hrec : diskInode part s'.vol.disk q =
    diskInode part s.vol.disk q) (hnode : s.node q = diskInode part s.vol.disk q)
    (hnode' : s'.node q = s.node q) (hrefs : ∀ p < 141, s'.refs q p = s.refs q p)
    (hquiet : ∀ p < 141, s.refs q p ≠ 0 → ∀ a ∈ sector (s.refs q p), s'.vol.disk a = s.vol.disk a) :
    Kept s.vol s'.vol q := by
  simp only [Store.refs, hnode', hnode] at hrefs hquiet
  refine ⟨hrec ▸ Inode.Same.refl _, fun p hp => ?_, hquiet⟩
  rw [diskRefs, hrec]
  exact hrefs p hp

/-- A block that is free afterwards was free before, if what was in use still is. -/
theorem free_of_keep {x : ℕ} (hkeep : InUse v x → InUse v' x) (hf : Free v' x) : Free v x := by
  obtain ⟨b, hx, hb, hbit⟩ := hf
  rw [v'.block_len, ← v.block_len] at hb
  refine ⟨b, hx, hb, ?_⟩
  cases hold : v.blockBit b with
  | false => rfl
  | true =>
    obtain ⟨b', hx', hb', hbit'⟩ := hkeep ⟨b, hx, hb, hold⟩
    obtain rfl : b = b' := by omega
    rw [hbit] at hbit'
    cases hbit'

/-- Blocks of a directory that it still has behind a deletion are where they were. -/
theorem removal_refs {ab : ℕ → ℕ} {p b : ℕ} {s : BlockScan} {ino₁ : Inode}
    (h : Removal n ab v i p b s v₁ ino₁) (ho : Owns v (ref v.disk i))
    (hab : ∀ k < 140, ab k = ref v.disk i k) {c : ℕ} (hc : c < 140)
    (hz : ref v₁.disk ino₁ c ≠ 0) : ref v₁.disk ino₁ c = ref v.disk i c := by
  have hrem := h.remove
  unfold removeEntry at hrem
  split at hrem
  · have hd := dropBlock_some hrem ho hab h.place h.present
    by_cases hcp : c = p
    · subst c
      exact absurd hd.gone hz
    · exact hd.same c hc hcp
  · simp only [bind_some_iff, Option.pure_def, Option.some.injEq, Prod.mk.injEq] at hrem
    obtain ⟨d, hd, rfl, rfl⟩ := hrem
    obtain ⟨rfl, -⟩ := ideWrite_some hd
    rw [hab p h.place]
    have hs := scanEntries_start h.scan
    obtain ⟨href, -, -⟩ := setSlot_patch ho h.place h.present zeroes _
      (hs.found b h.found).1 rfl rfl
    exact href c (by omega)

/-- The course of a removal: of inode `n`, the entry `k` of directory `m`. -/
structure Extraction (v : Volume part) (t : FileTree) (m n : ℕ) (k : List Byte)
    (N : Node ℕ (List Byte)) (i j i' : Inode) (v₁ v₂ : Volume part) : Prop where
  consistent : Consistent v t
  hierarchy : Hierarchy dots 0 t
  name : t.Names m k n
  node : t n = some N
  bare : N.Bare
  near : m < 256
  parent : i.Same (diskInode part v.disk m)
  object : j.Same (diskInode part v.disk n)
  deleted : ∃ ok, deleteDirEntry i n v = some (ok, i', v₁)
  released : ∃ mem, inodeRelease mem j n v₁ = some v₂

namespace Extraction

variable (h : Extraction v t m n k N i j i' v₁ v₂)

include h

theorem plain : k ≠ dot ∧ k ≠ dotdot := h.hierarchy.proper m k n h.name

theorem child : t.child dots m k = some n := (child_plain (w := dots) h.plain).mpr h.name

theorem dir : t.IsDir m := isDir_of_child h.child

theorem ne : n ≠ m := by
  rintro rfl
  obtain ⟨p, E, hd, hE⟩ := h.name
  rw [h.bare p E (Option.some.inj (h.node.symm.trans hd)) k] at hE
  cases hE

theorem ne_root : n ≠ 0 := (h.hierarchy.tree.child m k n h.name).1

theorem allocated_parent : (diskStore v).Allocated m := h.consistent.of_node (by
  obtain ⟨p, E, hm⟩ := h.dir
  simp [hm])

theorem allocated_object : (diskStore v).Allocated n := h.consistent.of_node (by simp [h.node])

theorem directory : Directory v i (entriesOf t m) :=
  directory_same (h.consistent.tree.directory m h.dir) h.parent.symm

/-- The entry is there to be found. -/
theorem deletion : ∃ ab p b s w ino₁, (∀ c < 140, ab c = ref v.disk i c) ∧
    Removal n ab v i p b s w ino₁ ∧ i' = shrink ino₁ ∧ v₁ = syncedInode w i' := by
  obtain ⟨ok, hdel⟩ := h.deleted
  obtain ⟨ab, hab, ⟨-, rfl, rfl, hnone⟩ | ⟨-, p, b, s, w, ino₁, hr, hi', hv⟩⟩ :=
    deleteDirEntry_cases hdel
  · have herase := eraseNumber_child h.directory h.child h.plain
    rw [eraseNumber_absent h.directory hnone] at herase
    have := congrFun herase k
    rw [Function.update_self, entriesOf, h.child] at this
    cases this
  · exact ⟨ab, p, b, s, w, ino₁, hab, hr, hi', hv⟩

theorem deletedTo : ∃ w, Deleted n v i w i' ∧ v₁ = syncedInode w i' := by
  obtain ⟨ab, p, b, s, w, ino₁, hab, hr, rfl, hv⟩ := h.deletion
  exact ⟨w, hr.deleted h.directory.owns hab, hv⟩

theorem no' : i'.iNo = m := by
  obtain ⟨w, hd, -⟩ := h.deletedTo
  rw [hd.head.no, shrink, h.parent.no, h.consistent.tree.number m h.dir]

theorem directory₁ : Directory v₁ i' (Function.update (entriesOf t m) k none) := by
  obtain ⟨ok, hdel⟩ := h.deleted
  have hd := deleteDirEntry_directory h.directory hdel
  rwa [eraseNumber_child h.directory h.child h.plain] at hd

/-- The parent's inode is written into its own record. -/
theorem record₁ : (diskInode part v₁.disk m).Same i' := by
  obtain ⟨w, -, rfl⟩ := h.deletedTo
  have hnear := h.near
  have hfits := directory_fits h.directory₁ (by rw [h.no']; omega)
  rw [syncedInode, h.no', Nat.mod_eq_of_lt hnear]
  exact diskInode_patch_slot hfits m

theorem stepOn : StepOn m True True (openStore v m i)
    (Store.put (openStore v m i) v₁ m (some i')) := by
  obtain ⟨ok, hdel⟩ := h.deleted
  have hdel' : deleteDirEntry ((openStore v m i).node m) n (openStore v m i).vol =
      some (ok, i', v₁) := by rwa [openStore_self]
  exact delete_stepOn (h.consistent.openStore h.parent) h.allocated_parent h.near hdel'

theorem node₁ : (Store.put (openStore v m i) v₁ m (some i')).node n = diskInode part v.disk n := by
  rw [h.stepOn.node n h.ne h.allocated_object, openStore_ne v i h.ne]

theorem freeOf : FreeOf n (Store.put (openStore v m i) v₁ m (some i'))
    (Store.put (Store.put (openStore v m i) v₁ m (some i')) v₂ n none) := by
  obtain ⟨mem, hrel⟩ := h.released
  exact release_same h.stepOn.owned ((allocated_congr h.stepOn.bits n).mpr h.allocated_object)
    (h.node₁ ▸ h.object) hrel

/-- The other objects keep their numbers. -/
theorem allocated₂ (q : ℕ) : (diskStore v₂).Allocated q ↔ (diskStore v).Allocated q ∧ q ≠ n :=
  (h.freeOf.allocated q).trans (and_congr_left fun _ => allocated_congr h.stepOn.bits q)

theorem kept (hq : (diskStore v).Allocated q) (hqm : q ≠ m) (hqn : q ≠ n) : Kept v v₂ q := by
  have hstep := h.stepOn
  have hfree := h.freeOf
  have hq₁ : (Store.put (openStore v m i) v₁ m (some i')).Allocated q :=
    (allocated_congr hstep.bits q).mpr hq
  have hnode := openStore_ne v i hqm
  have hnode₁ := hstep.node q hqm hq
  have hrec₁ := hstep.records q hq.1 hqm
  have hkept₁ : Kept v v₁ q := kept_of_step hrec₁ hnode hnode₁ (hstep.refs q hqm hq)
    (hstep.quiet q hqm hq)
  refine hkept₁.trans ?_
  have hnode₂ : (Store.put (openStore v m i) v₁ m (some i')).node q = diskInode part v₁.disk q :=
    (hnode₁.trans hnode).trans hrec₁.symm
  exact kept_of_step (hfree.records q hq.1 hqn) hnode₂ (hfree.node q hqn hq₁)
    (hfree.refs q hqn hq₁) (hfree.quiet q hqn hq₁)

theorem parent₂ : i'.Same (diskInode part v₂.disk m) := by
  have hrec : diskInode part v₂.disk m = diskInode part v₁.disk m :=
    h.freeOf.records m h.allocated_parent.1 h.ne.symm
  rw [hrec]
  exact h.record₁.symm

theorem node₂ : (Store.put (Store.put (openStore v m i) v₁ m (some i')) v₂ n none).node m = i' := by
  rw [h.freeOf.node m h.ne.symm ((allocated_congr h.stepOn.bits m).mpr h.allocated_parent),
    put_node_self]

/-- The pointers of the parent are those it had in memory. -/
theorem refs₂ {p : ℕ} (hp : p < 141) : diskRefs v₂ m p = ref v₁.disk i' p := by
  have hrefs := h.freeOf.refs m h.ne.symm
    ((allocated_congr h.stepOn.bits m).mpr h.allocated_parent) p hp
  simp only [Store.refs, put_node_self, h.node₂] at hrefs
  rw [diskRefs, ← ref_same h.parent₂]
  exact hrefs

theorem owned₂ : Owned (diskStore v₂) := by
  have hsame : ∀ q, (diskStore v₂).Allocated q → (diskInode part v₂.disk q).Same
      ((Store.put (Store.put (openStore v m i) v₁ m (some i')) v₂ n none).node q) := by
    intro q hq
    obtain ⟨hq₀, hqn⟩ := (h.allocated₂ q).mp hq
    by_cases hqm : q = m
    · subst q
      rw [h.node₂]
      exact h.parent₂.symm
    · have hq₁ := (allocated_congr h.stepOn.bits q).mpr hq₀
      rw [h.freeOf.node q hqn hq₁, h.stepOn.node q hqm hq₀, openStore_ne v i hqm]
      exact (h.kept hq₀ hqm hqn).same
  exact owned_same h.freeOf.owned hsame

/-- The parent without the entry. -/
theorem directory₂ :
    Directory v₂ (diskInode part v₂.disk m) (Function.update (entriesOf t m) k none) := by
  have hm₁ := (allocated_congr h.stepOn.bits m).mpr h.allocated_parent
  have hrefs := h.freeOf.refs m h.ne.symm hm₁
  have hquiet := h.freeOf.quiet m h.ne.symm hm₁
  have howns := h.freeOf.owned.owns ((h.freeOf.allocated m).mpr ⟨hm₁, h.ne.symm⟩)
  simp only [Store.refs, put_node_self, h.node₂] at hrefs hquiet howns
  exact directory_same (directory_kept h.directory₁ howns rfl hrefs hquiet) h.parent₂

/-- The objects of the smaller tree have their numbers. -/
theorem taken (hq : t.erase m k n q ≠ none) : (diskStore v₂).Allocated q := by
  obtain ⟨hqn, hq⟩ := erase_ne_none.mp hq
  exact (h.allocated₂ q).mpr ⟨h.consistent.of_node hq, hqn⟩

omit h in
theorem typeOf_erase {c : ℕ} (hc : c ≠ n) : typeOf (t.erase m k n) c = typeOf t c := by
  cases hnode : t c with
  | none => rw [typeOf, typeOf, erase_none hnode, hnode]
  | some M =>
    cases M with
    | file => rw [typeOf, typeOf, erase_file hc hnode, hnode]
    | dir p E => rw [typeOf, typeOf, erase_dir hc hnode, hnode]

/-- The parent of a directory is not the object without entries. -/
theorem parent_ne {d p : ℕ} {E : List Byte → Option ℕ} (hd : t d = some (.dir p E)) (hdn : d ≠ n) :
    p ≠ n := by
  rintro rfl
  by_cases h0 : d = 0
  · subst d
    obtain ⟨E', htop⟩ := h.hierarchy.tree.top
    obtain ⟨rfl, -⟩ := Node.dir.inj (Option.some.inj (hd.symm.trans htop))
    exact hdn rfl
  · obtain ⟨c, l, hl⟩ := h.hierarchy.tree.named d (by simp [hd]) h0
    obtain ⟨-, M, hM, hu⟩ := h.hierarchy.tree.child c l d hl
    obtain rfl := Option.some.inj (hd.symm.trans hM)
    obtain rfl : p = c := hu
    obtain ⟨p', E', hp, hE⟩ := hl
    rw [h.bare p' E' (Option.some.inj (h.node.symm.trans hp)) l] at hE
    cases hE

/-- The directories that are left: the parent has one entry less. -/
theorem entriesOf_erase {d : ℕ} (hd : t.IsDir d) (hdn : d ≠ n) : entriesOf (t.erase m k n) d =
    if d = m then Function.update (entriesOf t m) k none else entriesOf t d := by
  obtain ⟨p, E, hdir⟩ := hd
  have hp := h.parent_ne hdir hdn
  have htype : ∀ c, c ≠ n → (c, (typeOf (t.erase m k n) c).code) = (c, (typeOf t c).code) :=
    fun c hc => by rw [typeOf_erase hc]
  have hentry : ∀ l c, E l = some c → ¬(d = m ∧ l = k) → c ≠ n := by
    rintro l c hl hne rfl
    exact hne (h.hierarchy.once d m l k c ⟨p, E, hdir, hl⟩ h.name)
  funext l
  have hchild := child_dir (w := dots) (k := l) hdir
  have hchild' := child_dir (w := dots) (k := l) (erase_dir (d := m) (k := k) hdn hdir)
  by_cases hself : l = dot
  · have hlk : l ≠ k := fun he => h.plain.1 (he ▸ hself)
    rw [if_pos (show l = dots.self from hself)] at hchild hchild'
    have hboth : entriesOf (t.erase m k n) d l = entriesOf t d l := by
      rw [entriesOf, entriesOf, hchild, hchild', Option.map_some, Option.map_some, htype d hdn]
    split
    · subst d
      rw [Function.update_of_ne hlk, hboth]
    · exact hboth
  by_cases hup : l = dotdot
  · have hlk : l ≠ k := fun he => h.plain.2 (he ▸ hup)
    rw [if_neg (show l ≠ dots.self from hself), if_pos (show l = dots.parent from hup)]
      at hchild hchild'
    have hboth : entriesOf (t.erase m k n) d l = entriesOf t d l := by
      rw [entriesOf, entriesOf, hchild, hchild', Option.map_some, Option.map_some, htype p hp]
    split
    · subst d
      rw [Function.update_of_ne hlk, hboth]
    · exact hboth
  · rw [if_neg (show l ≠ dots.self from hself), if_neg (show l ≠ dots.parent from hup)]
      at hchild hchild'
    by_cases hdl : d = m ∧ l = k
    · obtain ⟨rfl, rfl⟩ := hdl
      rw [if_pos rfl, Function.update_self] at hchild'
      rw [if_pos rfl, Function.update_self, entriesOf, hchild', Option.map_none]
    · have hE : (if d = m then Function.update E k none else E) l = E l := by
        split
        · rename_i hdm
          exact Function.update_of_ne (fun he => hdl ⟨hdm, he⟩) _ _
        · rfl
      have hboth : entriesOf (t.erase m k n) d l = entriesOf t d l := by
        rw [entriesOf, entriesOf, hchild, hchild', hE]
        cases hl : E l with
        | none => rfl
        | some c => rw [Option.map_some, Option.map_some, htype c (hentry l c hl hdl)]
      split
      · rename_i hdm
        subst d
        rw [Function.update_of_ne (fun he => hdl ⟨rfl, he⟩), hboth]
      · exact hboth

theorem onDisk : OnDiskTree v₂ (t.erase m k n) := by
  have hsome : ∀ d, (t.erase m k n).IsDir d → t.erase m k n d ≠ none := by
    rintro d ⟨p, E, hd⟩
    simp [hd]
  refine ⟨(h.hierarchy.erase h.name h.node h.bare).tree, fun d hd => (h.taken hd).1,
    fun d hd => h.owned₂.number d (h.taken (hsome d hd)), fun d hd => ?_⟩
  have hdn := (erase_ne_none.mp (hsome d hd)).1
  have hdir : t.IsDir d := (erase_isDir hdn).mp hd
  rw [h.entriesOf_erase hdir hdn]
  by_cases hdm : d = m
  · subst d
    rw [if_pos rfl]
    exact h.directory₂
  · rw [if_neg hdm]
    have hd₀ : (diskStore v).Allocated d := h.consistent.of_node (by
      obtain ⟨p, E, hd⟩ := hdir
      simp [hd])
    exact (h.kept hd₀ hdm hdn).directory (h.owned₂.owns (h.taken (hsome d hd)))
      (h.consistent.tree.directory d hdir)

/-- What is left of the root's first block. -/
theorem first : diskRefs v₂ 0 0 = part.sb.dataStartLba := by
  have hfirst := h.consistent.first
  have hroot : (diskStore v).Allocated 0 := h.consistent.of_node h.hierarchy.top
  by_cases h0 : m = 0
  · subst m
    obtain ⟨ab, p, b, s, w, ino₁, hab, hr, hi', hv⟩ := h.deletion
    have hdel := hr.deleted h.directory.owns hab
    have hshrink : ∀ c, ref w.disk ino₁ c = ref w.disk i' c := fun c => by
      rw [hi']
      rfl
    have hw : ∀ c < 141, ref v₁.disk i' c = ref w.disk i' c := by
      intro c hc
      rw [hv]
      refine (hi' ▸ hdel.rewrites.owns).ref_eq (S := slot part (i'.iNo % 256)) ?_
        (slot_below (by omega)) hc
      exact changes_patch _ _ _ _
    rw [h.refs₂ (by omega), hw 0 (by omega), ← hshrink 0]
    have hz : ref w.disk ino₁ 0 ≠ 0 := by
      intro hz
      obtain ⟨x, hx⟩ := h.directory₁.self
      have hgone : ref v₁.disk i' 0 = 0 := by
        rw [hw 0 (by omega), ← hshrink 0]
        exact hz
      rw [dirTable, if_pos ⟨by omega, by omega⟩, rawSlot_absent hgone] at hx
      exact absurd hx (by rw [entryOf, if_pos (word_zeroes 20)]; exact fun hx => by cases hx)
    rw [removal_refs hr h.directory.owns hab (by omega) hz, ref_same h.parent]
    exact hfirst
  · rw [(h.kept hroot (Ne.symm h0) h.ne_root.symm).refs 0 (by omega)]
    exact hfirst

/-- Behind the removal the volume holds the smaller tree. -/
theorem consistent₂ : Consistent v₂ (t.erase m k n) := by
  refine ⟨h.onDisk, h.owned₂, fun q hq => (h.taken hq).2, fun q hq p hp => ?_, h.first⟩
  obtain ⟨hqn, hq⟩ := erase_ne_none.mp hq
  by_cases hqm : q = m
  · subst q
    exact h.directory₂.onDisk p hp
  · have href := (h.kept (h.consistent.of_node hq) hqm hqn).refs p hp
    rw [diskRefs] at href
    rw [href]
    exact h.consistent.onDisk q hq p hp

end Extraction

end FsTreeRemove
