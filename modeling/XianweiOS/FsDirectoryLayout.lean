import XianweiOS.FsDirectoryRuns
import XianweiOS.FsSyscalls

/-! Which blocks a directory has. Insertions and deletions, under whatever names, keep a live
entry in every block but the first, and a table as long as it has a block to show. -/
namespace FsDirectoryLayout

open ByteStore HaltingProgram KernelBitmap DeviceIde FsVolume FsInodeTable FsBlockMap FsOwnership
  FsFreeBlocks FsDirectory FsDirectorySlots FsDirectoryDelete FsDirectoryTable FsDirectoryMap
  FsDirectoryRuns FsSyscalls SlotTable

variable {part : Partition} {v v' : Volume part} {ino ino' : Inode} {n : ℕ}

/-- A slot in use that `strcmp` finds equal to the name. -/
def Answers (name : List Byte) (m : Bytes) : Prop := IsLive m ∧ strcmp name m 0 = true

theorem Plain.not_dot' {m : Bytes} (h : Plain m) : ¬Answers dot m := by
  rintro ⟨-, hs⟩
  rw [h.not_dot] at hs
  cases hs

theorem Plain.not_dotdot' {m : Bytes} (h : Plain m) : ¬Answers dotdot m := by
  rintro ⟨-, hs⟩
  rw [h.not_dotdot] at hs
  cases hs

theorem DirSlots.answers_iff {tab : DirTable} (h : DirSlots v ino tab) {p i : ℕ} (hp : p < 140)
    (hi : i < 21) {l : List Byte} (hl : (0 : Byte) ∉ l) :
    Answers l (rawSlot v.disk (ref v.disk ino) p i) ↔ ∃ x, tab (p, i) = some (l, x) := by
  constructor
  · rintro ⟨hlive, hs⟩
    rw [strcmp_slot h hp hi hl] at hs
    subst hs
    exact ⟨_, h.live_slot hp hi hlive⟩
  · rintro ⟨x, hx⟩
    have ht := hx
    rw [← h.table, dirTable, if_pos ⟨hp, hi⟩, entryOf] at ht
    split at ht
    · cases ht
    · rename_i hlive
      exact ⟨hlive, (strcmp_slot h hp hi hl).mpr (Prod.mk.inj (Option.some.inj ht)).1.symm⟩

/-- A block beyond the first is there for an entry, and the table for a block. -/
structure Layout (v : Volume part) (ino : Inode) : Prop where
  owns : Owns v (ref v.disk ino)
  onDisk : OnDisk (ref v.disk ino)
  size : ino.iSize = 24 * live (dirTable v.disk (ref v.disk ino))
  clean : ∀ p < 140, ∀ i < 21, ¬IsLive (rawSlot v.disk (ref v.disk ino) p i) →
    rawSlot v.disk (ref v.disk ino) p i = zeroes
  self : ∀ p < 140, ∀ i < 21, Answers dot (rawSlot v.disk (ref v.disk ino) p i) ↔ p = 0 ∧ i = 0
  parent : ∀ p < 140, ∀ i < 21,
    Answers dotdot (rawSlot v.disk (ref v.disk ino) p i) ↔ p = 0 ∧ i = 1
  filled : ∀ p, 0 < p → p < 140 → ref v.disk ino p ≠ 0 →
    ∃ i < 21, IsLive (rawSlot v.disk (ref v.disk ino) p i)
  table : ino.iSectors 12 ≠ 0 → ∃ p, 12 ≤ p ∧ p < 140 ∧ ref v.disk ino p ≠ 0

theorem Layout.tidy (h : Layout v ino) : Tidy v.disk (ref v.disk ino) := by
  refine ⟨h.clean, fun p hp i hi hl hs => ?_⟩
  obtain ⟨rfl, -⟩ := (h.parent p hp i hi).mp ⟨hl, hs⟩
  exact ⟨0, by omega, (h.self 0 hp 0 (by omega)).mpr ⟨rfl, rfl⟩⟩

theorem NewDirectory.layout {own parent : ℕ} (h : NewDirectory v ino own parent) :
    Layout v ino := by
  have hd := h.directory
  have hs := hd.slots
  have hdot : ∀ s, (∃ x, dirTable v.disk (ref v.disk ino) s = some (dot, x)) ↔ s = (0, 0) := by
    intro s
    constructor
    · rintro ⟨x, hx⟩
      exact hs.dots s x hx
    · rintro rfl
      exact hs.self
  have hdotdot : ∀ s, (∃ x, dirTable v.disk (ref v.disk ino) s = some (dotdot, x)) ↔
      s = (0, 1) := by
    intro s
    constructor
    · rintro ⟨x, hx⟩
      exact hs.dotdots s x hx
    · rintro rfl
      exact hs.parent
  refine ⟨hd.owns, hd.onDisk, hd.size, hd.clean, fun p hp i hi => ?_, fun p hp i hi => ?_,
    fun p h0 hp hz => ?_, fun ht => ?_⟩
  · rw [DirSlots.answers_iff hs hp hi (by decide), hdot, Prod.mk.injEq]
  · rw [DirSlots.answers_iff hs hp hi (by decide), hdotdot, Prod.mk.injEq]
  · exact absurd (h.alone p h0 (by omega)) hz
  · apply absurd (h.alone 140 (by omega) (by omega))
    rwa [ref_table]

/-- The directory of `sys_mkdir`. -/
theorem newDirectory_new {w : Volume part} {own parent : ℕ} (ho : own < 2 ^ 32)
    (hp : parent < 2 ^ 32) (h : newDirectory own parent w = some (some ino, v)) :
    NewDirectory v ino own parent := by
  obtain ⟨_, b, hnew, hat⟩ := newDirectory_some h
  obtain rfl := Option.some.inj hnew
  refine newDirectory_of_block ho hp ⟨b, rfl, ?_, ?_⟩ hat.lba hat.size hat.sectors hat.block
  · rw [hat.blocks]
    exact hat.low.1
  · rw [Volume.blockBit, hat.blocks, bitmapScanTest_set, if_pos rfl]

/-- Setting one slot from one other name to another leaves `.` and `..` where they are. -/
theorem answers_setSlot {d d' : Bytes} {r r' : ℕ → ℕ} {p i : ℕ} {m : Bytes} {name : List Byte}
    (h : SetSlot d r d' r' p i m) (hold : ¬Answers name (rawSlot d r p i))
    (hnew : ¬Answers name (clip m)) : ∀ q < 140, ∀ j < 21,
    (Answers name (rawSlot d' r' q j) ↔ Answers name (rawSlot d r q j)) := by
  intro q hq j hj
  rw [h q hq j hj]
  by_cases hqj : q = p ∧ j = i
  · obtain ⟨rfl, rfl⟩ := hqj
    rw [if_pos ⟨rfl, rfl⟩]
    exact iff_of_false hnew hold
  · rw [if_neg hqj]

/-- A directory with one slot set, as far as its slots go. -/
theorem Layout.set {p i : ℕ} {m : Bytes} (h : Layout v ino) (ho : Owns v' (ref v'.disk ino'))
    (hon : OnDisk (ref v'.disk ino'))
    (hset : SetSlot v.disk (ref v.disk ino) v'.disk (ref v'.disk ino') p i m)
    (hold : ¬Answers dot (rawSlot v.disk (ref v.disk ino) p i) ∧
      ¬Answers dotdot (rawSlot v.disk (ref v.disk ino) p i))
    (hnew : ¬Answers dot (clip m) ∧ ¬Answers dotdot (clip m))
    (hclean : ¬IsLive (clip m) → clip m = zeroes)
    (hsize : ino'.iSize = 24 * live (dirTable v'.disk (ref v'.disk ino')))
    (hfilled : ∀ p, 0 < p → p < 140 → ref v'.disk ino' p ≠ 0 →
      ∃ i < 21, IsLive (rawSlot v'.disk (ref v'.disk ino') p i))
    (htable : ino'.iSectors 12 ≠ 0 → ∃ p, 12 ≤ p ∧ p < 140 ∧ ref v'.disk ino' p ≠ 0) :
    Layout v' ino' where
  owns := ho
  onDisk := hon
  size := hsize
  clean q hq j hj := by
    rw [hset q hq j hj]
    split
    · exact hclean
    · exact h.clean q hq j hj
  self q hq j hj := (answers_setSlot hset hold.1 hnew.1 q hq j hj).trans (h.self q hq j hj)
  parent q hq j hj := (answers_setSlot hset hold.2 hnew.2 q hq j hj).trans (h.parent q hq j hj)
  filled := hfilled
  table := htable

/-- An entry to insert, other than `.` and `..`. -/
structure Enterable (e : DirEntry) : Prop where
  string : (0 : Byte) ∉ e.filename
  not_dot : e.filename ≠ dot
  not_dotdot : e.filename ≠ dotdot
  type : e.fType = FileType.regular.code ∨ e.fType = FileType.directory.code

theorem toBytes_live {e : DirEntry} (h : Enterable e) : IsLive (clip e.toBytes) := by
  have hw : word (clip e.toBytes) 20 = e.fType % 2 ^ 32 := by
    have hf := word_ofWords (fun w => if w = 4 then e.iNo else e.fType) 5
    rw [if_neg (by decide)] at hf
    rw [← hf]
    apply word_congr
    intro j hj
    simp only [clip, DirEntry.toBytes, if_pos (show 20 + j < 24 by omega),
      if_neg (show ¬20 + j < 16 by omega)]
  intro h0
  rw [hw] at h0
  rcases h.type with ht | ht <;> rw [ht] at h0 <;> simp [FileType.code] at h0

/-- The bytes of a name and the zero behind it. -/
private theorem name_byte {e : DirEntry} {k : ℕ} (hk : k < 16) :
    clip e.toBytes k = e.filename.getD k 0 := by
  simp only [clip, DirEntry.toBytes, if_pos hk, if_pos (show k < 24 by omega)]

/-- A string shorter than the field is only equal to itself. -/
theorem strcmp_name : ∀ (name l : List Byte) (m : Bytes) (a : ℕ), (0 : Byte) ∉ name →
    (0 : Byte) ∉ l → (∀ k ≤ name.length, m (a + k) = l.getD k 0) → strcmp name m a = true →
    name = l := by
  intro name
  induction name with
  | nil =>
    intro l m a _ hl hm h
    cases l with
    | nil => rfl
    | cons c l =>
      simp only [strcmp, beq_iff_eq] at h
      have h0 : m a = c := hm 0 (by simp)
      exact absurd (by simp [← h0, h]) hl
  | cons c name ih =>
    intro l m a hn hl hm h
    simp only [strcmp, Bool.and_eq_true, beq_iff_eq] at h
    obtain ⟨hc, hrest⟩ := h
    have h0 : m a = l.getD 0 0 := hm 0 (by simp)
    cases l with
    | nil =>
      exact absurd (by simp [hc, h0]) hn
    | cons c' l =>
      rw [h0, List.getD_cons_zero] at hc
      rw [hc, ih l m (a + 1) (fun hx => hn (List.mem_cons_of_mem _ hx))
        (fun hx => hl (List.mem_cons_of_mem _ hx)) (fun k hk => ?_) hrest]
      have := hm (k + 1) (by simpa using hk)
      rwa [show a + (k + 1) = a + 1 + k by omega, List.getD_cons_succ] at this

theorem toBytes_answers {e : DirEntry} {name : List Byte} (h : Enterable e)
    (hn : (0 : Byte) ∉ name) (hlen : name.length < 16) (hne : e.filename ≠ name) :
    ¬Answers name (clip e.toBytes) := by
  rintro ⟨-, hs⟩
  refine hne (strcmp_name name e.filename _ 0 hn h.string (fun k hk => ?_) hs).symm
  rw [Nat.zero_add]
  exact name_byte (by omega)

/-- The place an entry goes to: a block that is there, or a hole that gets one. -/
structure Placed (v : Volume part) (ino : Inode) (e : DirEntry) (v' : Volume part) (ino' : Inode)
    (p : ℕ) : Prop where
  place : p < 140
  same : ∀ q < 140, q ≠ p → ref v'.disk ino' q = ref v.disk ino q
  present : ref v'.disk ino' p ≠ 0
  entry : ∃ i < 21, rawSlot v'.disk (ref v'.disk ino') p i = clip e.toBytes
  table : ino'.iSectors 12 = ino.iSectors 12 ∨ 12 ≤ p

theorem Opened.placed {T : Prop} {v₁ : Volume part} {ino₁ : Inode} {p y : ℕ} {e : DirEntry}
    {ok : Bool} (h : Opened T v ino p y v₁ ino₁) (hp : p < 140) (hy : y ≠ 0)
    (ht : ino₁.iSectors 12 = ino.iSectors 12 ∨ 12 ≤ p)
    (hw : writeNewBlock y e ino₁ v₁ = some (ok, ino', v')) : Placed v ino e v' ino' p := by
  simp only [writeNewBlock, bind_some_iff, Option.pure_def, Option.some.injEq, Prod.mk.injEq] at hw
  obtain ⟨d, hd, rfl, rfl, rfl⟩ := hw
  obtain ⟨rfl, -⟩ := ideWrite_some hd
  have href : ∀ q < 141, ref (patch v₁.disk (512 * y) (512 * 1)
      (patch zeroes 0 dirEntrySize e.toBytes)) (grow ino₁) q = ref v₁.disk ino₁ q :=
    h.ref_write _ hp
  have hfresh : ref (patch v₁.disk (512 * y) (512 * 1) (patch zeroes 0 dirEntrySize e.toBytes))
      (grow ino₁) p = y := (href p (by omega)).trans h.fresh
  refine ⟨hp, fun q hq hqp => ?_, ?_, ⟨0, by omega, ?_⟩, ht⟩
  · rw [withDisk_disk, href q (by omega), h.same q hq hqp]
  · rw [withDisk_disk, hfresh]
    exact hy
  · rw [withDisk_disk, rawSlot_present (by rw [hfresh]; exact hy), hfresh]
    funext k
    simp only [clip, dirEntrySize, window]
    split
    · rw [patch_in (by omega), patch_in (by omega)]
      congr 1
      omega
    · rfl

theorem syncDirEntry_placed {e : DirEntry} (h : syncDirEntry e ino v = some (true, ino', v'))
    (ho : Owns v (ref v.disk ino)) : ∃ p, Placed v ino e v' ino' p := by
  rcases syncDirEntry_cases h with
    ⟨hok, -⟩ | ⟨p, hp, hbelow, ⟨hz, ab, hab, hnew⟩ | ⟨hz, -, rfl, i, hi, -, rfl⟩⟩
  · cases hok
  · obtain ⟨y, v₁, ino₁, hy, hop, -, ht, hw⟩ :=
      syncNewBlock_opened hnew ho hab hp hz (table_of_full hbelow)
    exact ⟨p, Opened.placed hop hp hy ht hw⟩
  · obtain ⟨href, -, hset⟩ := setSlot_patch ho hp hz e.toBytes _ hi rfl rfl
    refine ⟨p, hp, fun q hq _ => href q (by omega), ?_, ⟨i, hi, ?_⟩, Or.inl rfl⟩
    · exact (href p (by omega)).trans_ne hz
    · exact (hset p hp i hi).trans (if_pos ⟨rfl, rfl⟩)

theorem Layout.insert {T : Prop} {e : DirEntry} {p : ℕ} (h : Layout v ino) (he : Enterable e)
    (hi : Inserted T v ino e v' ino') (hpl : Placed v ino e v' ino' p) : Layout v' ino' := by
  obtain ⟨p', i, hp', hi21, hw, hset⟩ := hi.slot
  have hlive := toBytes_live he
  have hdead : ¬IsLive (rawSlot v.disk (ref v.disk ino) p' i) := fun hl => hl hw
  refine h.set hi.rewrites.owns (hi.onDisk h.onDisk) hset ⟨fun ha => hdead ha.1, fun ha => hdead ha.1⟩
    ⟨toBytes_answers he (by decide) (by decide) he.not_dot,
      toBytes_answers he (by decide) (by decide) he.not_dotdot⟩
    (fun hl => absurd hlive hl) ?_ ?_ ?_
  · obtain ⟨k, hk⟩ : ∃ k, entryOf (clip e.toBytes) = some k := ⟨_, if_neg hlive⟩
    have hle := (dirTable_within v.disk (ref v.disk ino)).live_le
    have hsz := hi.head.size
    rw [dirTable_setSlot hp' hi21 hset, hk, live_put (dirTable_within _ _).finite (table_none hw)]
    simp only [grow, dirEntrySize, h.size] at hsz
    omega
  · intro q h0 hq hz
    by_cases hqp : q = p
    · subst q
      obtain ⟨j, hj, he'⟩ := hpl.entry
      exact ⟨j, hj, by rw [he']; exact hlive⟩
    · rw [hpl.same q hq hqp] at hz
      obtain ⟨j, hj, hl⟩ := h.filled q h0 hq hz
      refine ⟨j, hj, ?_⟩
      rw [hset q hq j hj]
      split
      · exact hlive
      · exact hl
  · intro ht
    rcases hpl.table with hsame | h12
    · rw [hsame] at ht
      obtain ⟨q, h12, hq, hz⟩ := h.table ht
      refine ⟨q, h12, hq, ?_⟩
      by_cases hqp : q = p
      · rw [hqp]
        exact hpl.present
      · rwa [hpl.same q hq hqp]
    · exact ⟨p, h12, hpl.place, hpl.present⟩

/-- What the scan of a block has counted is there. -/
structure Seen (io : Bytes) (idx : ℕ) (s : BlockScan) : Prop where
  one : 1 ≤ s.dirEntryCnt → ∃ j < idx, Plain (bufSlot io j)
  two : 2 ≤ s.dirEntryCnt → ∃ j < idx, ∃ k < idx, j ≠ k ∧ Plain (bufSlot io j) ∧
    Plain (bufSlot io k)
  first : s.isDirFirstBlock = true → ∃ j < idx, Answers dot (bufSlot io j)

theorem Seen.skip {io : Bytes} {idx : ℕ} {s : BlockScan} (h : Seen io idx s) {b : Bool}
    (hb : b = true → s.isDirFirstBlock = true ∨ Answers dot (bufSlot io idx)) :
    Seen io (idx + 1) { s with isDirFirstBlock := b } where
  one hc := by
    obtain ⟨j, hj, hp⟩ := h.one hc
    exact ⟨j, by omega, hp⟩
  two hc := by
    obtain ⟨j, hj, k, hk, hp⟩ := h.two hc
    exact ⟨j, by omega, k, by omega, hp⟩
  first ht := by
    rcases hb ht with hold | hnew
    · obtain ⟨j, hj, ha⟩ := h.first hold
      exact ⟨j, by omega, ha⟩
    · exact ⟨idx, by omega, hnew⟩

theorem Seen.count {io : Bytes} {idx : ℕ} {s : BlockScan} (h : Seen io idx s)
    (hp : Plain (bufSlot io idx)) (f : Option ℕ) :
    Seen io (idx + 1) ⟨f, s.dirEntryCnt + 1, s.isDirFirstBlock⟩ where
  one _ := ⟨idx, by omega, hp⟩
  two hc := by
    obtain ⟨j, hj, hpj⟩ := h.one (by simp only at hc; omega)
    exact ⟨j, by omega, idx, by omega, by omega, hpj, hp⟩
  first ht := by
    obtain ⟨j, hj, ha⟩ := h.first ht
    exact ⟨j, by omega, ha⟩

theorem scanEntries_seen {io : Bytes} : ∀ (left idx : ℕ) {s s' : BlockScan},
    Seen io idx s → scanEntries n io left idx s = some s' → Seen io (idx + left) s' := by
  intro left
  induction left with
  | zero =>
    intro idx s s' hs h
    obtain rfl := Option.some.inj h
    exact hs
  | succ left ih =>
    intro idx s s' hs h
    rw [← Nat.add_assoc, Nat.add_right_comm]
    unfold scanEntries at h
    rw [word_bufSlot io idx (by omega), strcmp_bufSlot (by decide), strcmp_bufSlot (by decide)] at h
    split at h
    · rename_i hlive
      split at h
      · rename_i hdot
        exact ih _ (hs.skip fun _ => Or.inr ⟨hlive, hdot⟩) h
      split at h
      · exact ih _ (hs.skip fun hb => Or.inl hb) h
      rename_i hdot hdd
      have hp : Plain (bufSlot io idx) := ⟨hlive, by simpa using hdot, by simpa using hdd⟩
      split at h
      · simp only [bind_some_iff] at h
        obtain ⟨-, -, h⟩ := h
        exact ih _ (hs.count hp _) h
      · exact ih _ (hs.count hp _) h
    · exact ih _ (hs.skip fun hb => Or.inl hb) h

/-- The table is kept for another block. -/
theorem dropBlock_table {p : ℕ} {ab : ℕ → ℕ} (h : dropBlock p ab ino v = some (ino', v'))
    (hp : p < 140) (ht : ino'.iSectors 12 ≠ 0) : ino.iSectors 12 ≠ 0 ∧
      (p < 12 ∨ ∃ q, 12 ≤ q ∧ q < 140 ∧ q ≠ p ∧ ab q ≠ 0) := by
  simp only [dropBlock, bind_some_iff] at h
  obtain ⟨v1, -, h⟩ := h
  split at h
  · rename_i h12
    simp only [Option.pure_def, Option.some.injEq, Prod.mk.injEq] at h
    obtain ⟨rfl, -⟩ := h
    rw [setSector_of_ne _ (by omega)] at ht
    exact ⟨ht, Or.inl h12⟩
  simp only [bind_some_iff] at h
  obtain ⟨-, -, h⟩ := h
  split at h
  · rename_i hmany
    simp only [bind_some_iff, Option.pure_def, Option.some.injEq, Prod.mk.injEq] at h
    obtain ⟨-, -, rfl, -⟩ := h
    refine ⟨ht, Or.inr ?_⟩
    by_contra hno
    push Not at hno
    -- every indirect block would be this one
    have hsub : (List.range 128).filter (fun k => ab (12 + k) ≠ 0) ⊆ [p - 12] := by
      intro k hk
      simp only [ne_eq, decide_not, List.mem_filter, List.mem_range, Bool.not_eq_eq_eq_not,
        Bool.not_true, decide_eq_false_iff_not] at hk
      have hkp : 12 + k = p := by
        by_contra hne
        exact hk.2 (hno (12 + k) (by omega) (by omega) hne)
      rw [List.mem_singleton]
      omega
    have hnd : ((List.range 128).filter fun k => ab (12 + k) ≠ 0).Nodup :=
      List.nodup_range.filter _
    have := (hnd.subperm hsub).length_le
    unfold indirectBlocks at hmany
    simp only [List.length_singleton] at this
    omega
  · simp only [bind_some_iff, Option.pure_def, Option.some.injEq, Prod.mk.injEq] at h
    obtain ⟨-, -, rfl, -⟩ := h
    exact absurd (setSector_self _ _ _) ht

/-- A block is dropped with its last entry, and loses one of several otherwise. -/
structure Taken (v : Volume part) (ino : Inode) (v' : Volume part) (ino' : Inode) (p i : ℕ) :
    Prop where
  place : p < 140
  slot : i < 21
  plain : Plain (rawSlot v.disk (ref v.disk ino) p i)
  same : ∀ q < 140, q ≠ p → ref v'.disk ino' q = ref v.disk ino q
  last : ref v'.disk ino' p ≠ 0 → ∃ j < 21, j ≠ i ∧ IsLive (rawSlot v.disk (ref v.disk ino) p j)
  table : ino'.iSectors 12 ≠ 0 → ino.iSectors 12 ≠ 0 ∧ (p < 12 ∨ ref v'.disk ino' p ≠ 0 ∨
    ∃ q, 12 ≤ q ∧ q < 140 ∧ q ≠ p ∧ ref v.disk ino q ≠ 0)

theorem Removal.taken {ab : ℕ → ℕ} {p i : ℕ} {s : BlockScan}
    (h : Removal n ab v ino p i s v' ino') (ho : Owns v (ref v.disk ino))
    (hab : ∀ k < 140, ab k = ref v.disk ino k) : Taken v ino v' ino' p i := by
  have hp := h.place
  have hz := h.present
  obtain ⟨hi21, hplain, -, hcnt⟩ := (scanEntries_start h.scan).found i h.found
  have hseen := scanEntries_seen _ _ (⟨fun hc => by simp at hc, fun hc => by simp at hc,
    fun hc => by simp at hc⟩ : Seen _ 0 ⟨none, 0, false⟩) h.scan
  rw [Nat.zero_add, show dirEntrysPerSec = 21 from rfl] at hseen
  have hslot : ∀ j < 21, bufSlot (sectorBuf v.disk (ref v.disk ino p)) j =
      rawSlot v.disk (ref v.disk ino) p j := fun j hj => bufSlot_sectorBuf hz hj
  have hrem := h.remove
  unfold removeEntry at hrem
  have hpl := hplain
  rw [hslot i hi21] at hpl
  split at hrem
  · have hd := dropBlock_some hrem ho hab hp hz
    refine ⟨hp, hi21, hpl, hd.same, fun hne => absurd hd.gone hne, fun ht => ?_⟩
    obtain ⟨hold, h12 | ⟨q, h1, h2, h3, h4⟩⟩ := dropBlock_table hrem hp ht
    · exact ⟨hold, Or.inl h12⟩
    · rw [hab q h2] at h4
      exact ⟨hold, Or.inr (Or.inr ⟨q, h1, h2, h3, h4⟩)⟩
  · rename_i hkeep
    simp only [bind_some_iff, Option.pure_def, Option.some.injEq, Prod.mk.injEq] at hrem
    obtain ⟨d, hd, rfl, rfl⟩ := hrem
    obtain ⟨rfl, -⟩ := ideWrite_some hd
    rw [hab p hp]
    obtain ⟨href, -, -⟩ := setSlot_patch ho hp hz zeroes _ hi21 rfl rfl
    refine ⟨hp, hi21, hpl, fun q hq _ => href q (by omega), fun _ => ?_,
      fun ht => ⟨ht, Or.inr (Or.inl ((href p (by omega)).trans_ne hz))⟩⟩
    by_cases hfirst : s.isDirFirstBlock = true
    · obtain ⟨j, hj, ha⟩ := hseen.first hfirst
      refine ⟨j, hj, ?_, by rw [← hslot j hj]; exact ha.1⟩
      rintro rfl
      exact Plain.not_dot' hplain ha
    · have htwo : 2 ≤ s.dirEntryCnt := by
        by_contra hlt
        exact hkeep ⟨by omega, by simpa using hfirst⟩
      obtain ⟨j, hj, k, hk, hjk, hpj, hpk⟩ := hseen.two htwo
      by_cases hji : j = i
      · exact ⟨k, hk, by omega, by rw [← hslot k hk]; exact hpk.live⟩
      · exact ⟨j, hj, hji, by rw [← hslot j hj]; exact hpj.live⟩

theorem Layout.taken {p i : ℕ} (h : Layout v ino) (hd : Deleted n v ino v' (shrink ino'))
    (hset : SetSlot v.disk (ref v.disk ino) v'.disk (ref v'.disk ino') p i zeroes)
    (ht : Taken v ino v' ino' p i) : Layout v' (shrink ino') := by
  have hdead : ¬IsLive (clip zeroes) := by
    intro hl
    rw [clip_zeroes] at hl
    exact hl (word_zeroes 20)
  have hp := ht.place
  have hi := ht.slot
  refine h.set hd.rewrites.owns (hd.onDisk h.onDisk) hset
    ⟨Plain.not_dot' ht.plain, Plain.not_dotdot' ht.plain⟩ ⟨fun ha => hdead ha.1, fun ha => hdead ha.1⟩
    (fun _ => clip_zeroes) ?_ ?_ ?_
  · have htab : dirTable v'.disk (ref v'.disk (shrink ino')) =
        Function.update (dirTable v.disk (ref v.disk ino)) (p, i) none := by
      rw [← entryOf_zeroes]
      exact dirTable_setSlot hp hi hset
    have hle := live_drop (dirTable_within v.disk (ref v.disk ino)).finite
      (dirTable_live hp hi ht.plain.live)
    have hsz := hd.head.size
    rw [htab]
    simp only [shrink, dirEntrySize, h.size] at hsz ⊢
    omega
  · intro q h0 hq hz
    have hslot : ∀ j < 21, ¬(q = p ∧ j = i) → IsLive (rawSlot v.disk (ref v.disk ino) q j) →
        IsLive (rawSlot v'.disk (ref v'.disk (shrink ino')) q j) := by
      intro j hj hne hl
      have := hset q hq j hj
      rw [if_neg hne] at this
      exact this ▸ hl
    by_cases hqp : q = p
    · subst q
      obtain ⟨j, hj, hji, hl⟩ := ht.last hz
      exact ⟨j, hj, hslot j hj (fun he => hji he.2) hl⟩
    · obtain ⟨j, hj, hl⟩ := h.filled q h0 hq ((ht.same q hq hqp).symm.trans_ne hz)
      exact ⟨j, hj, hslot j hj (fun he => hqp he.1) hl⟩
  · intro hn
    obtain ⟨hold, h12 | hpr | ⟨q, h1, h2, hqp, hz⟩⟩ := ht.table hn
    · obtain ⟨q, h1, h2, hz⟩ := h.table hold
      exact ⟨q, h1, h2, (ht.same q h2 (by omega)).trans_ne hz⟩
    · by_cases h12 : 12 ≤ p
      · exact ⟨p, h12, hp, hpr⟩
      · obtain ⟨q, h1, h2, hz⟩ := h.table hold
        exact ⟨q, h1, h2, (ht.same q h2 (by omega)).trans_ne hz⟩
    · exact ⟨q, h1, h2, (ht.same q h2 hqp).trans_ne hz⟩

/-- Writing an inode back touches no directory. -/
theorem Layout.synced (h : Layout v ino) (j : Inode) : Layout (syncedInode v j) ino := by
  have hc := changes_patch v.disk (slotAddr part (j.iNo % 256)) 76 j.pure.toBytes
  have hlow : ∀ a ∈ slot part (j.iNo % 256), a < 512 * part.sb.dataStartLba :=
    slot_below (n := j.iNo % 256) (by omega)
  have href : ∀ p < 141, ref (syncedInode v j).disk ino p = ref v.disk ino p :=
    fun p hp => h.owns.ref_eq hc hlow hp
  have hraw : ∀ p < 140, ∀ i < 21, rawSlot (syncedInode v j).disk (ref (syncedInode v j).disk ino) p i =
      rawSlot v.disk (ref v.disk ino) p i := by
    intro p hp i hi
    refine rawSlot_congr (href p (by omega)) hi fun hz a ha => hc a fun hin => ?_
    have := sector_inUse (h.owns.held p (by omega) hz) ha
    have := hlow a hin
    omega
  have htab : dirTable (syncedInode v j).disk (ref (syncedInode v j).disk ino) =
      dirTable v.disk (ref v.disk ino) := by
    funext s
    simp only [dirTable]
    by_cases hin : s.1 < 140 ∧ s.2 < 21
    · rw [if_pos hin, if_pos hin, hraw _ hin.1 _ hin.2]
    · rw [if_neg hin, if_neg hin]
  refine ⟨(h.owns.withDisk _).congr href, fun p hp => ?_, ?_, fun p hp i hi => ?_,
    fun p hp i hi => ?_, fun p hp i hi => ?_, fun p h0 hp hz => ?_, fun ht => ?_⟩
  · rw [href p hp]
    exact h.onDisk p hp
  · rw [htab]
    exact h.size
  · rw [hraw p hp i hi]
    exact h.clean p hp i hi
  · rw [hraw p hp i hi]
    exact h.self p hp i hi
  · rw [hraw p hp i hi]
    exact h.parent p hp i hi
  · rw [href p (by omega)] at hz
    obtain ⟨i, hi, hl⟩ := h.filled p h0 hp hz
    exact ⟨i, hi, by rw [hraw p hp i hi]; exact hl⟩
  · obtain ⟨p, h12, hp, hz⟩ := h.table ht
    exact ⟨p, h12, hp, (href p (by omega)).trans_ne hz⟩

/-- Completed calls on a directory that was new, whatever the names and the numbers. -/
inductive Calls : Volume part → Inode → Prop where
  | start {v : Volume part} {ino : Inode} {own parent : ℕ}
      (h : NewDirectory v ino own parent) : Calls v ino
  | sync {v v' : Volume part} {ino ino' : Inode} {e : DirEntry} {ok : Bool} (h : Calls v ino)
      (he : Enterable e) (hs : syncDirEntry e ino v = some (ok, ino', v')) : Calls v' ino'
  | delete {v v' : Volume part} {ino ino' : Inode} {n : ℕ} {ok : Bool} (h : Calls v ino)
      (hd : deleteDirEntry ino n v = some (ok, ino', v')) : Calls v' ino'

theorem Layout.sync {e : DirEntry} {ok : Bool} (h : Layout v ino) (he : Enterable e)
    (hs : syncDirEntry e ino v = some (ok, ino', v')) : Layout v' ino' := by
  rcases syncDirEntry_some hs h.owns with ⟨rfl, rfl, rfl, -⟩ | ⟨rfl, hi⟩
  · exact h
  · obtain ⟨p, hp⟩ := syncDirEntry_placed hs h.owns
    exact h.insert he hi hp

theorem Layout.delete {ok : Bool} (h : Layout v ino)
    (hd : deleteDirEntry ino n v = some (ok, ino', v')) : Layout v' ino' := by
  obtain ⟨ab, hab, ⟨-, rfl, rfl, -⟩ | ⟨-, p, i, s, v₁, ino₁, hr, rfl, rfl⟩⟩ := deleteDirEntry_cases hd
  · exact h
  · obtain ⟨-, -, hset, -⟩ := removeEntry_some h.owns hab hr.place hr.present
      (scanEntries_start hr.scan) hr.found hr.remove
    exact (h.taken (hr.deleted h.owns hab) (hset h.tidy) (Removal.taken hr h.owns hab)).synced _

theorem calls_layout (h : Calls v ino) : Layout v ino := by
  induction h with
  | start h => exact NewDirectory.layout h
  | sync _ he hs ih => exact ih.sync he hs
  | delete _ hd ih => exact ih.delete hd

/-- With two entries, `.` and `..`, no block but the first is there. -/
theorem Layout.alone (h : Layout v ino) (he : dirIsEmpty ino = true) {p : ℕ} (h0 : 0 < p)
    (hp : p < 140) : ref v.disk ino p = 0 := by
  by_contra hz
  obtain ⟨i, hi, hl⟩ := h.filled p h0 hp hz
  have hdot := (h.self 0 (by omega) 0 (by omega)).mpr ⟨rfl, rfl⟩
  have hdotdot := (h.parent 0 (by omega) 1 (by omega)).mpr ⟨rfl, rfl⟩
  have hmem : ∀ q < 140, ∀ j < 21, IsLive (rawSlot v.disk (ref v.disk ino) q j) →
      dirTable v.disk (ref v.disk ino) (q, j) ≠ none := by
    intro q hq j hj hlive
    rw [dirTable_live hq hj hlive]
    exact Option.some_ne_none _
  have hsub : (({(0, 0), (0, 1), (p, i)} : Finset (ℕ × ℕ)) : Set (ℕ × ℕ)) ⊆
      {s | dirTable v.disk (ref v.disk ino) s ≠ none} := by
    intro s hs
    simp only [Finset.coe_insert, Finset.coe_singleton, Set.mem_insert_iff,
      Set.mem_singleton_iff] at hs
    rcases hs with rfl | rfl | rfl
    · exact hmem 0 (by omega) 0 (by omega) hdot.1
    · exact hmem 0 (by omega) 1 (by omega) hdotdot.1
    · exact hmem p hp i hi hl
  have hcard : ({(0, 0), (0, 1), (p, i)} : Finset (ℕ × ℕ)).card = 3 := by
    rw [Finset.card_eq_three]
    refine ⟨_, _, _, by simp, ?_, ?_, rfl⟩
    · intro heq
      have := (Prod.mk.inj heq).1
      omega
    · intro heq
      have := (Prod.mk.inj heq).1
      omega
  have hle := Set.ncard_le_ncard hsub (dirTable_within v.disk (ref v.disk ino)).finite
  rw [Set.ncard_coe_finset, hcard] at hle
  have hsize := h.size
  rw [dirIsEmpty, beq_iff_eq, dirEntrySize] at he
  rw [live] at hsize
  omega

/-- A directory that counts as empty has no block but its first, so that `dir_remove` goes on;
the table is there just as long as it has an entry, and every further block has a live one. -/
theorem directory_blocks (h : Calls v ino) :
    (dirIsEmpty ino = true → (∀ k, 1 ≤ k → k ≤ 12 → ino.iSectors k = 0) ∧
      assert (∀ k ∈ List.range 12, ino.iSectors (k + 1) = 0) = some ()) ∧
    (ino.iSectors 12 ≠ 0 ↔ ∃ p, 12 ≤ p ∧ p < 140 ∧ ref v.disk ino p ≠ 0) ∧
    ∀ p, 0 < p → p < 140 → ref v.disk ino p ≠ 0 →
      ∃ i < 21, IsLive (rawSlot v.disk (ref v.disk ino) p i) := by
  have hl := calls_layout h
  have hsec : dirIsEmpty ino = true → ∀ k, 1 ≤ k → k ≤ 12 → ino.iSectors k = 0 := by
    intro he k h1 h12
    by_cases hk : k = 12
    · subst k
      by_contra ht
      obtain ⟨p, hp12, hp, hz⟩ := hl.table ht
      exact hz (hl.alone he (by omega) hp)
    · rw [← ref_direct (d := v.disk) (show k < 12 by omega)]
      exact hl.alone he h1 (by omega)
  refine ⟨fun he => ⟨hsec he, assert_pos fun k hk => ?_⟩, ⟨hl.table, ?_⟩, hl.filled⟩
  · rw [List.mem_range] at hk
    exact hsec he (k + 1) (by omega) (by omega)
  · rintro ⟨p, h12, hp, hz⟩ h0
    apply hz
    rw [ref_indirect (by omega) hp, if_pos h0]

theorem DirRun.calls {m : NameMap} (h : DirRun v ino m) : Calls v ino := by
  induction h with
  | start h => exact .start h
  | sync _ he hs ih => exact ih.sync ⟨he.name.string, he.not_dot, he.not_dotdot, he.type⟩ hs
  | delete _ hd ih => exact ih.delete hd

/-- More entries than twelve blocks hold need an indirect block. -/
theorem indirect_of_size {m : NameMap} (h : Directory v ino m) (hsize : 24 * (12 * 21) < ino.iSize) :
    ∃ p, 12 ≤ p ∧ p < 140 ∧ ref v.disk ino p ≠ 0 := by
  by_contra hnone
  have hwithin : Within (dirTable v.disk (ref v.disk ino)) 12 21 := by
    intro p i hs
    obtain ⟨hp, hi⟩ := dirTable_within _ _ p i hs
    refine ⟨by_contra fun h12 => hs ?_, hi⟩
    have hz : ref v.disk ino p = 0 := by_contra fun hz => hnone ⟨p, by omega, hp, hz⟩
    rw [dirTable, if_pos ⟨hp, hi⟩, rawSlot_absent hz, ← clip_zeroes, entryOf_zeroes]
  have hle := hwithin.live_le
  rw [h.size] at hsize
  omega

/-- The 251st file brings the indirect table; when all of them are deleted again it is gone, and
so is every block but the first. -/
theorem directory_blocks_drained : ∃ (v v' : Volume widePartition) (ino ino' : Inode),
    DirRun v ino (listed 0 251) ∧ ino.iSectors 12 ≠ 0 ∧
    DirRun v' ino' (listed 251 251) ∧ ∀ k, 1 ≤ k → k ≤ 12 → ino'.iSectors k = 0 := by
  have hfree := wide_freeBlocks
  obtain ⟨v, ino, hrun, hsize, -⟩ := filled (rootDir_new widePartition (by decide))
    251 (by omega) (by omega)
  obtain ⟨v', ino', hrun', hsize'⟩ := drained (by omega) hrun 251 (by omega)
  have htable := indirect_of_size (dirRun_directory hrun) (by omega)
  refine ⟨v, v', ino, ino', hrun, (directory_blocks (DirRun.calls hrun)).2.1.mpr htable, hrun', ?_⟩
  refine ((directory_blocks (DirRun.calls hrun')).1 ?_).1
  rw [dirIsEmpty, beq_iff_eq, dirEntrySize]
  omega

end FsDirectoryLayout
