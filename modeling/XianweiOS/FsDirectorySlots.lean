import XianweiOS.FsDirectory
import XianweiOS.FsFreeBlocks
import XianweiOS.SlotTable

/-! A directory as a table of 140 times 21 slots. A block that is not there counts as 21
cleared slots, so that taking a block for a new entry and giving back a block with its last
one are changes of a single slot. -/
namespace FsDirectorySlots

open ByteStore HaltingProgram KernelBitmap DeviceIde FsVolume FsInodeTable FsBlockMap FsOwnership
  FsFreeBlocks FsDirectory SlotTable

variable {part : Partition}

/-- The 24 bytes of slot `i` of the block at place `p`. -/
def rawSlot (d : Bytes) (r : ℕ → ℕ) (p i : ℕ) : Bytes := fun k =>
  if r p ≠ 0 ∧ k < 24 then d (512 * r p + 24 * i + k) else 0

/-- The first 24 bytes alone. -/
def clip (m : Bytes) : Bytes := fun k => if k < 24 then m k else 0

theorem rawSlot_absent {d : Bytes} {r : ℕ → ℕ} {p : ℕ} (h : r p = 0) (i : ℕ) :
    rawSlot d r p i = zeroes := by
  funext k
  simp [rawSlot, h, zeroes]

theorem rawSlot_present {d : Bytes} {r : ℕ → ℕ} {p : ℕ} (h : r p ≠ 0) (i : ℕ) :
    rawSlot d r p i = clip (window d (512 * r p + 24 * i)) := by
  funext k
  simp [rawSlot, h, clip, window]

theorem rawSlot_congr {d d' : Bytes} {r r' : ℕ → ℕ} {p i : ℕ} (hr : r' p = r p) (hi : i < 21)
    (hd : r p ≠ 0 → ∀ a ∈ sector (r p), d' a = d a) : rawSlot d' r' p i = rawSlot d r p i := by
  funext k
  by_cases hin : r p ≠ 0 ∧ k < 24
  · simp only [rawSlot, hr, if_pos hin]
    apply hd hin.1
    simp only [mem_sector]
    omega
  · simp only [rawSlot, hr, if_neg hin]

/-- Slot `(p, i)` holds `m` afterwards and no other slot has changed. -/
def SetSlot (d : Bytes) (r : ℕ → ℕ) (d' : Bytes) (r' : ℕ → ℕ) (p i : ℕ) (m : Bytes) : Prop :=
  ∀ q < 140, ∀ j < 21, rawSlot d' r' q j = if q = p ∧ j = i then clip m else rawSlot d r q j

theorem clip_zeroes : clip zeroes = zeroes := by
  funext k
  simp [clip, zeroes]

/-- Rewriting one slot of a block in place. -/
theorem setSlot_patch {v : Volume part} {ino : Inode} (ho : Owns v (ref v.disk ino)) {p i : ℕ}
    (hp : p < 140) (hz : ref v.disk ino p ≠ 0) (m io : Bytes) (hi : i < 21)
    (hio : io = patch zeroes 0 512 (window v.disk (512 * ref v.disk ino p))) {d' : Bytes}
    (hd : d' = patch v.disk (512 * ref v.disk ino p) 512 (patch io (24 * i) 24 m)) :
    (∀ q < 141, ref d' ino q = ref v.disk ino q) ∧
    Rewrites True True v (ref v.disk ino) (v.withDisk d') (ref d' ino) ∧
    SetSlot v.disk (ref v.disk ino) d' (ref d' ino) p i m := by
  have hd' : d' = patch v.disk (512 * ref v.disk ino p + 24 * i) 24 m := by
    rw [hd, hio]
    exact patch_patch_window v.disk m (by omega) zeroes
  have hin : ∀ a ∈ span (512 * ref v.disk ino p + 24 * i) 24, a ∈ sector (ref v.disk ino p) := by
    intro a ha
    simp only [mem_span, mem_sector] at *
    omega
  have hc : Changes (sector (ref v.disk ino p)) v.disk d' := by
    rw [hd']
    exact (changes_patch _ _ _ _).mono hin
  have hother : ∀ q < 141, q ≠ p → ref v.disk ino q ≠ 0 →
      ∀ a ∈ sector (ref v.disk ino q), a ∉ sector (ref v.disk ino p) := by
    intro q hq hne hzq a ha hap
    simp only [mem_sector] at ha hap
    exact hne (ho.distinct q hq p (by omega) hzq (by omega))
  have href : ∀ q < 141, ref d' ino q = ref v.disk ino q := by
    intro q hq
    refine ref_changes hc (fun ht a ha => ?_) hq
    rw [← ref_table v.disk ino] at ht ha
    exact hother 140 (by omega) (by omega) ht a ha
  refine ⟨href, (rewrites_write ho (hc.mono fun a ha =>
    ⟨_, ha, Or.inr ⟨p, by omega, rfl, hz⟩⟩)).congr (fun _ _ => rfl) href, ?_⟩
  intro q hq j hj
  by_cases hqp : q = p
  · subst q
    by_cases hji : j = i
    · subst j
      rw [if_pos ⟨rfl, rfl⟩, rawSlot_present (by rw [href p (by omega)]; exact hz)]
      funext k
      simp only [clip]
      split
      · rw [window, href p (by omega), hd', patch_in (by omega)]
        congr 1
        omega
      · rfl
    · rw [if_neg (fun h => hji h.2)]
      funext k
      by_cases hk : ref v.disk ino p ≠ 0 ∧ k < 24
      · simp only [rawSlot, href p (show p < 141 by omega), if_pos hk]
        rw [hd', patch_out (by omega)]
      · simp only [rawSlot, href p (show p < 141 by omega), if_neg hk]
  · rw [if_neg (fun h => hqp h.1)]
    exact rawSlot_congr (href q (by omega)) hj fun hzq a ha =>
      hc a (hother q (by omega) hqp hzq a ha)

/-- The inode refers to a fresh block at place `p`, nothing else about it has changed and no
data block has been written. -/
structure Opened (T : Prop) (v : Volume part) (ino : Inode) (p y : ℕ) (v' : Volume part)
    (ino' : Inode) : Prop where
  rewrites : Rewrites T True v (ref v.disk ino) v' (ref v'.disk ino')
  fresh : ref v'.disk ino' p = y
  same : ∀ q < 140, q ≠ p → ref v'.disk ino' q = ref v.disk ino q
  quiet : ∀ q < 140, ref v.disk ino q ≠ 0 → ∀ a ∈ sector (ref v.disk ino q), v'.disk a = v.disk a
  head : ino'.SameHead ino

/-- What inserting an entry does. -/
structure Inserted (T : Prop) (v : Volume part) (ino : Inode) (e : DirEntry) (v' : Volume part)
    (ino' : Inode) : Prop where
  rewrites : Rewrites T True v (ref v.disk ino) v' (ref v'.disk ino')
  head : ino'.SameHead (grow ino)
  slot : ∃ p i, p < 140 ∧ i < 21 ∧ word (rawSlot v.disk (ref v.disk ino) p i) 20 = 0 ∧
    SetSlot v.disk (ref v.disk ino) v'.disk (ref v'.disk ino') p i e.toBytes
  onDisk : OnDisk (ref v.disk ino) → OnDisk (ref v'.disk ino')

theorem word_zeroes (a : ℕ) : word zeroes a = 0 := by
  simp [word, zeroes]

/-- The fresh block is no table: writing it leaves the places as they are. -/
theorem Opened.ref_write {T : Prop} {v v1 : Volume part} {ino ino1 : Inode} {p y : ℕ} (m : Bytes)
    (h : Opened T v ino p y v1 ino1) (hp : p < 140) : ∀ q < 141,
    ref (patch v1.disk (512 * y) (512 * 1) m) ino1 q = ref v1.disk ino1 q := by
  intro q hq
  refine ref_changes (changes_patch _ _ _ _) (fun ht a ha => ?_) hq
  rw [← ref_table v1.disk ino1] at ht ha
  intro hay
  simp only [mem_sector, mem_span] at ha hay
  have hne := h.rewrites.owns.distinct 140 (by omega) p (by omega) ht
  rw [h.fresh] at hne
  omega

theorem Opened.inserted {T : Prop} {v v1 v2 : Volume part} {ino ino1 ino2 : Inode} {p y : ℕ}
    {e : DirEntry} {ok : Bool} (h : Opened T v ino p y v1 ino1) (hp : p < 140) (hy : y ≠ 0)
    (hz : ref v.disk ino p = 0) (htab : ino1.iSectors 12 ≤ maxLba ∨ ino1.iSectors 12 = ino.iSectors 12)
    (hw : writeNewBlock y e ino1 v1 = some (ok, ino2, v2)) :
    ok = true ∧ Inserted T v ino e v2 ino2 := by
  simp only [writeNewBlock, bind_some_iff, Option.pure_def, Option.some.injEq, Prod.mk.injEq] at hw
  obtain ⟨d, hd, rfl, rfl, rfl⟩ := hw
  obtain ⟨rfl, hlba⟩ := ideWrite_some hd
  have ho1 := h.rewrites.owns
  have hc : Changes (sector y) v1.disk
      (patch v1.disk (512 * y) (512 * 1) (patch zeroes 0 dirEntrySize e.toBytes)) :=
    changes_patch _ _ _ _
  have hother : ∀ q < 141, q ≠ p → ref v1.disk ino1 q ≠ 0 →
      ∀ a ∈ sector (ref v1.disk ino1 q), a ∉ sector y := by
    intro q hq hne hzq a ha hay
    simp only [mem_sector] at ha hay
    refine hne (ho1.distinct q hq p (by omega) hzq ?_)
    rw [h.fresh]
    omega
  have href := h.ref_write (patch zeroes 0 dirEntrySize e.toBytes) hp
  have hgrow : ∀ d q, ref d (grow ino1) q = ref d ino1 q := fun _ _ => rfl
  have hw := (rewrites_write ho1 (hc.mono fun a ha => ⟨_, ha, Or.inr ⟨p, by omega, h.fresh, hy⟩⟩)).congr
    (fun _ _ => rfl) href
  refine ⟨rfl, ⟨(h.rewrites.trans hw).weaken (fun ht => ⟨ht, trivial⟩) (fun ht => ⟨ht, trivial⟩),
    ⟨h.head.no, ?_, h.head.cnts, h.head.deny⟩, ⟨p, 0, hp, by omega, ?_, ?_⟩, ?_⟩⟩
  · simp only [grow, h.head.size]
  · rw [rawSlot_absent hz]
    exact word_zeroes _
  · intro q hq j hj
    simp only [withDisk_disk]
    by_cases hqp : q = p
    · subst q
      have hnew : ref (patch v1.disk (512 * y) (512 * 1) (patch zeroes 0 dirEntrySize e.toBytes))
          (grow ino1) p = y := by
        rw [hgrow, href p (by omega), h.fresh]
      rw [rawSlot_present (by rw [hnew]; exact hy), hnew]
      by_cases hj0 : j = 0
      · subst j
        rw [if_pos ⟨rfl, rfl⟩]
        funext k
        simp only [clip, dirEntrySize, window]
        split
        · rw [patch_in (by omega), patch_in (by omega)]
          congr 1
          omega
        · rfl
      · rw [if_neg (fun hh => hj0 hh.2), rawSlot_absent hz]
        funext k
        simp only [clip, dirEntrySize, window]
        split
        · rw [patch_in (by omega), patch_out (by omega)]
          rfl
        · rfl
    · rw [if_neg (fun hh => hqp hh.1)]
      have hrq : ref (patch v1.disk (512 * y) (512 * 1) (patch zeroes 0 dirEntrySize e.toBytes))
          (grow ino1) q = ref v.disk ino q := by
        rw [hgrow, href q (by omega), h.same q hq hqp]
      refine rawSlot_congr hrq hj fun hzq a ha => ?_
      have hne := hother q (by omega) hqp (by rw [h.same q hq hqp]; exact hzq) a
        (by rw [h.same q hq hqp]; exact ha)
      rw [hc a hne]
      exact h.quiet q hq hzq a ha
  · intro hon q hq
    simp only [withDisk_disk]
    rw [hgrow, href q hq]
    by_cases hqp : q = p
    · rw [hqp, h.fresh]
      exact hlba
    · by_cases hq140 : q < 140
      · rw [h.same q hq140 hqp]
        exact hon q hq
      · obtain rfl : q = 140 := by omega
        rw [ref_table]
        rcases htab with ht | ht
        · exact ht
        · rw [ht, ← ref_table v.disk ino]
          exact hon 140 (by omega)

/-- A direct place is opened by its entry in the inode. -/
private theorem opened_direct {v v1 : Volume part} {ino : Inode} {p y : ℕ}
    (hp : p < 12) (hc : Changes (blockBitmapArea part) v.disk v1.disk)
    (ho : Owns v (ref v.disk ino))
    (hr : Rewrites True True v (ref v.disk ino) v1 (Function.update (ref v.disk ino) p y)) :
    Opened True v ino p y v1 (ino.setSector p y) := by
  have hlow : ∀ a ∈ blockBitmapArea part, a < 512 * part.sb.dataStartLba := by
    intro a ha
    by_contra hge
    exact not_mem_bitmapArea (by omega) ha
  have href : ∀ q < 141, ref v1.disk (ino.setSector p y) q =
      Function.update (ref v.disk ino) p y q := by
    intro q hq
    rw [ref_setSector_direct _ _ hp hq, ho.ref_eq hc hlow hq]
    by_cases hqp : q = p
    · subst q
      rw [if_pos rfl, Function.update_self]
    · rw [if_neg hqp, Function.update_of_ne hqp]
  refine ⟨hr.congr (fun _ _ => rfl) href, ?_, ?_, ?_, setSector_head _ _ _⟩
  · rw [href p (by omega), Function.update_self]
  · intro q hq hqp
    rw [href q (by omega), Function.update_of_ne hqp]
  · intro q hq hzq a ha
    exact hc a (not_mem_bitmapArea (sector_inUse (ho.held q (by omega) hzq) ha))

/-- An indirect place is opened by writing the table. -/
private theorem opened_table {T : Prop} {v v1 : Volume part} {ino j : Inode} {p y : ℕ}
    {f r1 : ℕ → ℕ} (h12 : 12 ≤ p) (hp : p < 140) (hz : ref v.disk ino p = 0)
    (hc : Changes (blockBitmapArea part) v.disk v1.disk) (ho : Owns v (ref v.disk ino))
    (hr : Rewrites T True v (ref v.disk ino) v1 r1)
    (hr1 : ∀ q < 140, r1 q = if q = p then y else ref v.disk ino q)
    (htab : r1 140 = j.iSectors 12) (ht : j.iSectors 12 ≠ 0)
    (hdir : ∀ q < 12, j.iSectors q = ino.iSectors q)
    (hf : ∀ q, 12 ≤ q → q < 140 → f q = r1 q) (hhead : j.SameHead ino) :
    Opened T v ino p y
      (v1.withDisk (patch v1.disk (512 * j.iSectors 12) (512 * 1) (tableBytes f))) j := by
  have ho1 := hr.owns
  have href : ∀ q < 141, ref (patch v1.disk (512 * j.iSectors 12) (512 * 1) (tableBytes f)) j q =
      r1 q := by
    intro q hq
    rw [Nat.mul_one, ref_write_table _ ht ?_ hq]
    · by_cases hq12 : q < 12
      · rw [if_pos hq12, hr1 q (by omega), if_neg (by omega), ref_direct hq12, hdir q hq12]
      · rw [if_neg hq12]
        by_cases hq140 : q < 140
        · rw [if_pos hq140, hf q (by omega) hq140]
        · obtain rfl : q = 140 := by omega
          rw [if_neg hq140, htab]
    · intro q h1 h2
      rw [hf q h1 h2]
      exact owns_lt ho1 (by omega)
  have hwr : Changes (Writable v1 r1) v1.disk
      (patch v1.disk (512 * j.iSectors 12) (512 * 1) (tableBytes f)) :=
    (changes_patch _ _ _ _).mono fun a ha => ⟨_, ha, Or.inr ⟨140, by omega, htab, ht⟩⟩
  have hall := (hr.trans (rewrites_write ho1 hwr)).congr (fun _ _ => rfl) href
  refine ⟨hall.weaken (fun h => ⟨h, trivial⟩) (fun h => ⟨h, trivial⟩), ?_, ?_, ?_, hhead⟩
  · rw [withDisk_disk, href p (by omega), hr1 p hp, if_pos rfl]
  · intro q hq hqp
    rw [withDisk_disk, href q (by omega), hr1 q hq, if_neg hqp]
  · intro q hq hzq a ha
    have hout : ¬(512 * j.iSectors 12 ≤ a ∧ a < 512 * j.iSectors 12 + 512 * 1) := by
      intro hin
      have hqp : q ≠ p := by
        rintro rfl
        exact hzq hz
      have hq1 : r1 q = ref v.disk ino q := by rw [hr1 q hq, if_neg hqp]
      simp only [mem_sector] at ha
      have := ho1.distinct q (by omega) 140 (by omega) (by rw [hq1]; exact hzq)
        (by rw [hq1, htab]; omega)
      omega
    rw [withDisk_disk, patch_out hout]
    exact hc a (not_mem_bitmapArea (sector_inUse (ho.held q (by omega) hzq) ha))

/-- The call would put a second table in place of the one the inode has. -/
def Orphans (d : Bytes) (ino : Inode) : Prop :=
  ino.iSectors 12 ≠ 0 ∧ ref d ino 12 = 0 ∧
    ∀ p < 12, ref d ino p ≠ 0 ∧ ∀ i < 21, word (rawSlot d (ref d ino) p i) 20 ≠ 0

theorem Opened.weaken {T T' : Prop} {v v1 : Volume part} {ino ino1 : Inode} {p y : ℕ}
    (h : Opened T v ino p y v1 ino1) (ht : T' → T) : Opened T' v ino p y v1 ino1 :=
  { h with rewrites := h.rewrites.weaken ht id }

/-- A hole is opened, and the entry becomes the first of the block. -/
theorem syncNewBlock_opened {v v' : Volume part} {ino ino' : Inode} {e : DirEntry} {p : ℕ}
    {ok : Bool} {ab : ℕ → ℕ} (h : syncNewBlock p ab e ino v = some (ok, ino', v'))
    (ho : Owns v (ref v.disk ino)) (hab : ∀ k < 140, ab k = ref v.disk ino k) (hp : p < 140)
    (hz : ref v.disk ino p = 0) (ht : 12 < p → ino.iSectors 12 ≠ 0) :
    ∃ y v₁ ino₁, y ≠ 0 ∧ Opened (p = 12 → ino.iSectors 12 = 0) v ino p y v₁ ino₁ ∧
      (ino₁.iSectors 12 ≤ maxLba ∨ ino₁.iSectors 12 = ino.iSectors 12) ∧
      (ino₁.iSectors 12 = ino.iSectors 12 ∨ 12 ≤ p) ∧
      writeNewBlock y e ino₁ v₁ = some (ok, ino', v') := by
  simp only [syncNewBlock, bind_some_iff] at h
  obtain ⟨⟨x, v1⟩, hal, h⟩ := h
  obtain ⟨y, rfl, hy, htake⟩ := take_some hal
  simp only [bind_some_iff] at h
  obtain ⟨v2, hsync, h⟩ := h
  obtain ⟨hc, htake⟩ := htake hsync
  split at h
  · rename_i h12
    have hop := opened_direct h12 hc ho (htake ho (by omega) hz)
    have htab := setSector_of_ne ino (show 12 ≠ p by omega) y
    exact ⟨y, v2, _, hy, hop.weaken fun _ => trivial, Or.inr htab, Or.inl htab, h⟩
  split at h
  · rename_i h12
    subst p
    simp only [bind_some_iff] at h
    obtain ⟨⟨x2, v3⟩, hal2, h⟩ := h
    obtain ⟨y2, rfl, hy2, htake2⟩ := take_some hal2
    simp only [bind_some_iff, setSector_self] at h
    obtain ⟨v4, hsync2, d, hd, h⟩ := h
    obtain ⟨hc2, htake2⟩ := htake2 hsync2
    obtain ⟨rfl, hlba⟩ := ideWrite_some hd
    -- the old table, if any, is forgotten before the new one takes its place
    have hforget := rewrites_forget ho 140
    have hr1 := hforget.trans (htake hforget.owns (show 140 < 141 by omega)
      (Function.update_self _ _ _))
    have hr2 := hr1.trans (htake2 hr1.owns (show 12 < 141 by omega) (by
      rw [Function.update_of_ne (by omega), Function.update_of_ne (by omega)]
      exact hz))
    rw [Function.update_idem] at hr2
    have htable : (ino.setSector 12 y).iSectors 12 = y := setSector_self _ _ _
    have hop := opened_table (T := ino.iSectors 12 = 0) (j := ino.setSector 12 y)
      (f := Function.update ab 12 y2) (le_refl 12) hp hz (hc.trans hc2) ho
      (hr2.weaken (fun h0 => ⟨⟨(ref_table _ _).trans h0, trivial⟩, trivial⟩)
        (fun _ => ⟨⟨trivial, trivial⟩, trivial⟩))
      (by
        intro q hq
        by_cases hq12 : q = 12
        · subst q
          rw [Function.update_self, if_pos rfl]
        · rw [Function.update_of_ne hq12, Function.update_of_ne (by omega), if_neg hq12])
      (by rw [Function.update_of_ne (by omega), Function.update_self, htable])
      (by rw [htable]; exact hy)
      (fun q hq => setSector_of_ne _ (by omega) _)
      (by
        intro q h1 h2
        by_cases hq12 : q = 12
        · subst q
          rw [Function.update_self, Function.update_self]
        · rw [Function.update_of_ne hq12, Function.update_of_ne hq12,
            Function.update_of_ne (by omega), hab q h2])
      (setSector_head _ _ _)
    rw [htable] at hop
    exact ⟨y2, _, _, hy2, hop.weaken fun h0 => h0 rfl, Or.inl (by rw [htable]; exact hlba),
      Or.inr le_rfl, h⟩
  · rename_i hn12 hne12
    have ht' : ino.iSectors 12 ≠ 0 := ht (by omega)
    simp only [bind_some_iff] at h
    obtain ⟨d, hd, h⟩ := h
    obtain ⟨rfl, hlba⟩ := ideWrite_some hd
    have hop := opened_table (j := ino) (f := Function.update ab p y) (by omega) hp hz hc ho
      (htake ho (by omega) hz)
      (by
        intro q hq
        by_cases hqp : q = p
        · subst q
          rw [Function.update_self, if_pos rfl]
        · rw [Function.update_of_ne hqp, if_neg hqp])
      (by rw [Function.update_of_ne (by omega), ref_table]) ht' (fun _ _ => rfl)
      (by
        intro q h1 h2
        by_cases hqp : q = p
        · subst q
          rw [Function.update_self, Function.update_self]
        · rw [Function.update_of_ne hqp, Function.update_of_ne hqp, hab q h2])
      (Inode.SameHead.refl _)
    exact ⟨y, _, _, hy, hop.weaken fun _ => trivial, Or.inl hlba, Or.inl rfl, h⟩

theorem syncNewBlock_some {v v' : Volume part} {ino ino' : Inode} {e : DirEntry} {p : ℕ} {ok : Bool}
    {ab : ℕ → ℕ} (h : syncNewBlock p ab e ino v = some (ok, ino', v'))
    (ho : Owns v (ref v.disk ino)) (hab : ∀ k < 140, ab k = ref v.disk ino k) (hp : p < 140)
    (hz : ref v.disk ino p = 0) (ht : 12 < p → ino.iSectors 12 ≠ 0) :
    ok = true ∧ Inserted (p = 12 → ino.iSectors 12 = 0) v ino e v' ino' := by
  obtain ⟨y, v₁, ino₁, hy, hop, htab, -, hw⟩ := syncNewBlock_opened h ho hab hp hz ht
  exact hop.inserted hp hy hz htab hw

/-- The sector as the scans have it in their buffer. -/
def sectorBuf (d : Bytes) (lba : ℕ) : Bytes := patch zeroes 0 (512 * 1) (window d (512 * lba))

theorem word_sectorBuf {d : Bytes} {r : ℕ → ℕ} {p i o : ℕ} (hz : r p ≠ 0) (hi : i < 21)
    (ho : o + 4 ≤ 24) : word (sectorBuf d (r p)) (24 * i + o) = word (rawSlot d r p i) o := by
  apply word_congr
  intro k hk
  rw [sectorBuf, patch_in (by omega), rawSlot_present hz]
  simp only [clip, window, if_pos (show o + k < 24 by omega)]
  congr 1
  omega

theorem freeEntry_spec (io : Bytes) (left idx : ℕ) :
    (∀ i, freeEntry io left idx = some i →
      ∃ j, idx ≤ j ∧ j < idx + left ∧ word io (24 * j + 20) = 0 ∧ i = j) ∧
    (freeEntry io left idx = none → ∀ i, idx ≤ i → i < idx + left → word io (24 * i + 20) ≠ 0) :=
  first_slot (P := fun i => word io (24 * i + 20) = 0) (g := fun i => i)
    (f := freeEntry io) (fun _ => rfl) (fun _ _ => rfl) left idx

/-- The block at place `p` is there and none of its slots is free. -/
def FullAt (d : Bytes) (ino : Inode) (p : ℕ) : Prop :=
  ref d ino p ≠ 0 ∧ ∀ i < 21, word (rawSlot d (ref d ino) p i) 20 ≠ 0

instance (d : Bytes) (ino : Inode) (p : ℕ) : Decidable (FullAt d ino p) :=
  inferInstanceAs (Decidable (_ ∧ _))

/-- A block that is needed is there, or the scan of the bitmap stops the machine. -/
theorem syncNewBlock_ok {v v' : Volume part} {ino ino' : Inode} {e : DirEntry} {ok : Bool}
    {ab : ℕ → ℕ} {k : ℕ} (h : syncNewBlock k ab e ino v = some (ok, ino', v')) : ok = true := by
  have hnew : ∀ {lba : ℕ} {i : Inode} {w : Volume part},
      writeNewBlock lba e i w = some (ok, ino', v') → ok = true := by
    intro lba i w hw
    simp only [writeNewBlock, bind_some_iff, Option.pure_def, Option.some.injEq,
      Prod.mk.injEq] at hw
    obtain ⟨-, -, rfl, -⟩ := hw
    rfl
  rw [syncNewBlock, bind_some_iff] at h
  obtain ⟨⟨r, v₁⟩, hal, h⟩ := h
  obtain ⟨i, rfl, -⟩ := blockBitmapAlloc_some hal
  simp only [bind_some_iff] at h
  obtain ⟨v₂, -, h⟩ := h
  split at h
  · exact hnew h
  split at h
  · rw [bind_some_iff] at h
    obtain ⟨⟨r', v₃⟩, hal', h⟩ := h
    obtain ⟨i', rfl, -⟩ := blockBitmapAlloc_some hal'
    simp only [bind_some_iff] at h
    obtain ⟨_, -, _, -, h⟩ := h
    exact hnew h
  · rw [bind_some_iff] at h
    obtain ⟨_, -, h⟩ := h
    exact hnew h

def FullDir (d : Bytes) (ino : Inode) : Prop := ∀ p < 140, FullAt d ino p

/-- The scan ends at the first hole or the first block with a free slot, or finds the directory
full. -/
theorem syncBlocks_cases {v v' : Volume part} {ino ino' : Inode} {e : DirEntry} {ok : Bool}
    {ab : ℕ → ℕ} (hab : ∀ k < 140, ab k = ref v.disk ino k) :
    ∀ (left idx : ℕ), left + idx = 140 → (∀ p < idx, FullAt v.disk ino p) →
    syncBlocks ab e ino v left idx = some (ok, ino', v') →
    (ok = false ∧ ino' = ino ∧ v' = v ∧ FullDir v.disk ino) ∨
    ∃ p < 140, (∀ q < p, FullAt v.disk ino q) ∧
      ((ref v.disk ino p = 0 ∧ syncNewBlock p ab e ino v = some (ok, ino', v')) ∨
        (ref v.disk ino p ≠ 0 ∧ ok = true ∧ ino' = grow ino ∧
          ∃ i < 21, word (rawSlot v.disk (ref v.disk ino) p i) 20 = 0 ∧
            v' = v.withDisk (patch v.disk (512 * ref v.disk ino p) 512
              (patch (sectorBuf v.disk (ref v.disk ino p)) (24 * i) 24 e.toBytes)))) := by
  intro left
  induction left with
  | zero =>
    intro idx hlen hfull h
    simp only [syncBlocks, Option.some.injEq, Prod.mk.injEq] at h
    obtain ⟨rfl, rfl, rfl⟩ := h
    exact .inl ⟨rfl, rfl, rfl, fun p hp => hfull p (by omega)⟩
  | succ left ih =>
    intro idx hlen hfull h
    unfold syncBlocks at h
    rw [hab idx (by omega)] at h
    split at h
    · rename_i hz
      exact .inr ⟨idx, by omega, hfull, .inl ⟨hz, h⟩⟩
    · rename_i hz
      simp only [bind_some_iff] at h
      obtain ⟨io, hio, h⟩ := h
      obtain ⟨rfl, hlba⟩ := ideRead_some hio
      have hbuf : ∀ i < 21, word (sectorBuf v.disk (ref v.disk ino idx)) (24 * i + 20) =
          word (rawSlot v.disk (ref v.disk ino) idx i) 20 :=
        fun i hi => word_sectorBuf hz hi (by omega)
      have hspec := freeEntry_spec (patch zeroes 0 (512 * 1)
        (window v.disk (512 * ref v.disk ino idx))) dirEntrysPerSec 0
      have h21 : dirEntrysPerSec = 21 := rfl
      split at h
      · rename_i i hi
        obtain ⟨i, -, hi21, hw, rfl⟩ := hspec.1 _ hi
        simp only [bind_some_iff, Option.pure_def, Option.some.injEq, Prod.mk.injEq] at h
        obtain ⟨d, hd, rfl, rfl, rfl⟩ := h
        obtain ⟨rfl, -⟩ := ideWrite_some hd
        refine .inr ⟨idx, by omega, hfull, .inr ⟨hz, rfl, rfl, i, by omega, ?_, rfl⟩⟩
        rw [← hbuf i (by omega)]
        exact hw
      · rename_i hi
        have hspec := hspec.2 hi
        refine ih (idx + 1) (by omega) (fun p hp => ?_) h
        by_cases hpi : p = idx
        · subst p
          refine ⟨hz, fun i hi => ?_⟩
          rw [← hbuf i hi]
          exact hspec i (by omega) (by omega)
        · exact hfull p (by omega)

theorem syncDirEntry_cases {v v' : Volume part} {ino ino' : Inode} {e : DirEntry} {ok : Bool}
    (h : syncDirEntry e ino v = some (ok, ino', v')) :
    (ok = false ∧ ino' = ino ∧ v' = v ∧ FullDir v.disk ino) ∨
    ∃ p < 140, (∀ q < p, FullAt v.disk ino q) ∧
      ((ref v.disk ino p = 0 ∧ ∃ ab : ℕ → ℕ, (∀ k < 140, ab k = ref v.disk ino k) ∧
          syncNewBlock p ab e ino v = some (ok, ino', v')) ∨
        (ref v.disk ino p ≠ 0 ∧ ok = true ∧ ino' = grow ino ∧
          ∃ i < 21, word (rawSlot v.disk (ref v.disk ino) p i) 20 = 0 ∧
            v' = v.withDisk (patch v.disk (512 * ref v.disk ino p) 512
              (patch (sectorBuf v.disk (ref v.disk ino p)) (24 * i) 24 e.toBytes)))) := by
  simp only [syncDirEntry, bind_some_iff] at h
  obtain ⟨-, -, ab, hload, h⟩ := h
  have hab : ∀ k < 140, ab k = ref v.disk ino k := by
    intro k hk
    rw [loadAllBlocks_some hload hk, ref_of_lt hk]
  rcases syncBlocks_cases hab 140 0 (by omega) (fun p hp => by omega) h with
    hfull | ⟨p, hp, hbelow, ⟨hz, hnew⟩ | hold⟩
  · exact .inl hfull
  · exact .inr ⟨p, hp, hbelow, .inl ⟨hz, ab, hab, hnew⟩⟩
  · exact .inr ⟨p, hp, hbelow, .inr hold⟩

/-- Whatever the directory is, an insertion that fails has found it full and left it alone. -/
theorem syncDirEntry_full {v v' : Volume part} {ino ino' : Inode} {e : DirEntry} {ok : Bool}
    (h : syncDirEntry e ino v = some (ok, ino', v')) :
    (ok = false ∧ ino' = ino ∧ v' = v ∧ FullDir v.disk ino) ∨
    (ok = true ∧ ¬FullDir v.disk ino) := by
  rcases syncDirEntry_cases h with hfull | ⟨p, hp, -, ⟨hz, ab, -, hnew⟩ | ⟨-, rfl, -, i, hi, hw, -⟩⟩
  · exact .inl hfull
  · exact .inr ⟨syncNewBlock_ok hnew, fun hall => (hall p hp).1 hz⟩
  · exact .inr ⟨rfl, fun hall => (hall p hp).2 i hi hw⟩

/-- With the blocks below a hole there, a hole behind the first indirect one has a table. -/
theorem table_of_full {d : Bytes} {ino : Inode} {p : ℕ} (hfull : ∀ q < p, FullAt d ino q)
    (h12 : 12 < p) : ino.iSectors 12 ≠ 0 := by
  intro h0
  apply (hfull 12 h12).1
  rw [ref_indirect (by omega) (by omega), if_pos h0]

/-- A completed insertion: a full directory is left alone. -/
theorem syncDirEntry_some {v v' : Volume part} {ino ino' : Inode} {e : DirEntry} {ok : Bool}
    (h : syncDirEntry e ino v = some (ok, ino', v')) (ho : Owns v (ref v.disk ino)) :
    (ok = false ∧ ino' = ino ∧ v' = v ∧ ∀ p < 140, FullAt v.disk ino p) ∨
    (ok = true ∧ Inserted (¬Orphans v.disk ino) v ino e v' ino') := by
  rcases syncDirEntry_cases h with hfull |
    ⟨p, hp, hbelow, ⟨hz, ab, hab, hnew⟩ | ⟨hz, rfl, rfl, i, hi, hw, rfl⟩⟩
  · exact .inl hfull
  · obtain ⟨hok, hins⟩ := syncNewBlock_some hnew ho hab hp hz (table_of_full hbelow)
    refine .inr ⟨hok, { hins with rewrites := hins.rewrites.weaken (fun hno h12 => ?_) id }⟩
    subst p
    by_contra hne
    exact hno ⟨hne, hz, hbelow⟩
  · obtain ⟨href, hrew, hset⟩ := setSlot_patch ho hp hz e.toBytes _ hi rfl rfl
    exact .inr ⟨rfl, hrew.weaken (fun _ => trivial) id, ⟨rfl, rfl, rfl, rfl⟩,
      ⟨p, i, hp, hi, hw, hset⟩, fun hon q hq => (href q hq).le.trans (hon q hq)⟩

/-- The inode behind `sync_dir_entry`: block pointers that were there are there, and it has grown
by one entry or not. -/
structure Entered (i i' : Inode) : Prop where
  no : i'.iNo = i.iNo
  cnts : i'.openCnts = i.openCnts
  deny : i'.writeDeny = i.writeDeny
  size : i'.iSize = (i.iSize + 24) % 2 ^ 32 ∨ i'.iSize = i.iSize
  direct : ∀ p < 12, i.iSectors p ≠ 0 → i'.iSectors p = i.iSectors p

theorem Entered.refl (i : Inode) : Entered i i := ⟨rfl, rfl, rfl, .inr rfl, fun _ _ _ => rfl⟩

theorem entered_grow {i j : Inode} (hj : j.SameHead i)
    (hs : ∀ p < 12, i.iSectors p ≠ 0 → j.iSectors p = i.iSectors p) : Entered i (grow j) := by
  refine ⟨hj.no, hj.cnts, hj.deny, .inl ?_, hs⟩
  rw [← hj.size]
  rfl

theorem syncNewBlock_entered {k : ℕ} {allBlocks : ℕ → ℕ} {e : DirEntry} {i i' : Inode}
    {v v' : Volume part} {ok : Bool} (hk : k < 12 → i.iSectors k = 0)
    (h : syncNewBlock k allBlocks e i v = some (ok, i', v')) : Entered i i' := by
  have hnew : ∀ {lba : ℕ} {j : Inode} {w : Volume part},
      writeNewBlock lba e j w = some (ok, i', v') → j.SameHead i →
      (∀ p < 12, i.iSectors p ≠ 0 → j.iSectors p = i.iSectors p) → Entered i i' := by
    intro lba j w hw hj hs
    simp only [writeNewBlock, bind_some_iff, Option.pure_def, Option.some.injEq,
      Prod.mk.injEq] at hw
    obtain ⟨-, -, -, rfl, -⟩ := hw
    exact entered_grow hj hs
  have htable : ∀ x p, p < 12 → (i.setSector 12 x).iSectors p = i.iSectors p :=
    fun x p hp => setSector_of_ne i (by omega) x
  rw [syncNewBlock, bind_some_iff] at h
  obtain ⟨⟨r, v1⟩, -, h⟩ := h
  cases r with
  | none =>
    obtain ⟨-, rfl, -⟩ := by simpa using h
    exact Entered.refl _
  | some lba =>
    simp only [bind_some_iff] at h
    obtain ⟨v2, -, h⟩ := h
    split at h
    · rename_i hlt
      refine hnew h (setSector_head i k lba) fun p hp hz => setSector_of_ne i ?_ lba
      rintro rfl
      exact hz (hk hlt)
    split at h
    · rw [bind_some_iff] at h
      obtain ⟨⟨r', v3⟩, -, h⟩ := h
      cases r' with
      | none =>
        obtain ⟨-, rfl, -⟩ := by simpa using h
        refine ⟨rfl, rfl, rfl, .inr rfl, fun p hp _ => ?_⟩
        rw [setSector_of_ne _ (by omega), htable lba p hp]
      | some lba' =>
        simp only [bind_some_iff] at h
        obtain ⟨_, -, _, -, h⟩ := h
        exact hnew h (setSector_head i 12 lba) fun p hp _ => htable lba p hp
    · rw [bind_some_iff] at h
      obtain ⟨_, -, h⟩ := h
      exact hnew h (Inode.SameHead.refl i) fun _ _ _ => rfl

theorem syncDirEntry_entered {e : DirEntry} {i i' : Inode} {v v' : Volume part} {ok : Bool}
    (h : syncDirEntry e i v = some (ok, i', v')) : Entered i i' := by
  simp only [syncDirEntry, bind_some_iff] at h
  obtain ⟨-, -, allBlocks, hab, h⟩ := h
  have hdirect : ∀ k < 12, allBlocks k = i.iSectors k := by
    intro k hk
    rw [loadAllBlocks_some hab (by omega), blockMap, if_pos hk]
  generalize 140 = left, 0 = idx at h
  induction left generalizing idx with
  | zero =>
    obtain ⟨-, rfl, -⟩ := by simpa [syncBlocks] using h
    exact Entered.refl _
  | succ left ih =>
    rw [syncBlocks] at h
    split at h
    · rename_i hz
      exact syncNewBlock_entered (fun hlt => (hdirect _ hlt).symm.trans hz) h
    · rw [bind_some_iff] at h
      obtain ⟨io, -, h⟩ := h
      split at h
      · simp only [bind_some_iff, Option.pure_def, Option.some.injEq, Prod.mk.injEq] at h
        obtain ⟨-, -, -, rfl, -⟩ := h
        exact entered_grow (Inode.SameHead.refl i) fun _ _ _ => rfl
      · exact ih _ h

/-- Taking a block keeps every block in use. -/
private theorem take_inUse {v v1 v2 : Volume part} {x : Option ℕ} {y : ℕ}
    (hal : blockBitmapAlloc v = some (x, v1)) (hx : x = some y)
    (hsync : bitmapSync v1 (blockBitmapIdx part y) .blockBitmap = some v2) :
    Free v y ∧ InUse v2 y ∧ y < 2 ^ 32 ∧ ∀ z, InUse v z → InUse v2 z := by
  have hb := part.bounds
  obtain ⟨i, hxi, rfl, hlow⟩ := blockBitmapAlloc_some hal
  obtain rfl : part.sb.dataStartLba + i = y := Option.some.inj (hxi.symm.trans hx)
  rw [blockBitmapIdx_alloc (v := v) hlow.1] at hsync
  obtain rfl := bitmapSync_block_some hsync
  have hi := hlow.1
  rw [v.block_len] at hi
  refine ⟨⟨i, rfl, hlow.1, hlow.2.1⟩, ⟨i, rfl, hlow.1, by simp⟩, by omega, fun z hz => ?_⟩
  rw [inUse_withDisk, inUse_setBlockBit hlow.1]
  split
  · rfl
  · exact hz

/-- The table that a second one replaces stays marked in use and belongs to nobody. -/
theorem syncNewBlock_leaks {v v' : Volume part} {ino ino' : Inode} {e : DirEntry} {ok : Bool}
    {ab : ℕ → ℕ} (h : syncNewBlock 12 ab e ino v = some (ok, ino', v'))
    (ho : Owns v (ref v.disk ino)) (hab : ∀ k < 140, ab k = ref v.disk ino k)
    (ht : ino.iSectors 12 ≠ 0) :
    InUse v' (ino.iSectors 12) ∧ ∀ p < 141, ref v'.disk ino' p ≠ ino.iSectors 12 := by
  have hold : InUse v (ino.iSectors 12) := by
    have := ho.held 140 (by omega)
    rw [ref_table] at this
    exact this ht
  simp only [syncNewBlock, bind_some_iff] at h
  obtain ⟨⟨x, v1⟩, hal, h⟩ := h
  obtain ⟨y, rfl, hy, -⟩ := take_some hal
  simp only [bind_some_iff] at h
  obtain ⟨v2, hsync, h⟩ := h
  obtain ⟨hfree, hused, -, hkeep⟩ := take_inUse hal rfl hsync
  simp only [lt_self_iff_false, ↓reduceIte, bind_some_iff] at h
  obtain ⟨⟨x2, v3⟩, hal2, h⟩ := h
  obtain ⟨y2, rfl, hy2, -⟩ := take_some hal2
  simp only [bind_some_iff, setSector_self, writeNewBlock, Option.pure_def, Option.some.injEq,
    Prod.mk.injEq] at h
  obtain ⟨v4, hsync2, d, hd, d', hd', rfl, rfl, rfl⟩ := h
  obtain ⟨hfree2, -, hlt2, hkeep2⟩ := take_inUse hal2 rfl hsync2
  obtain ⟨rfl, -⟩ := ideWrite_some hd
  obtain ⟨rfl, -⟩ := ideWrite_some hd'
  refine ⟨hkeep2 _ (hkeep _ hold), fun p hp he => ?_⟩
  have hne : y2 ≠ y := fun h => hfree2.not_inUse (h ▸ hused)
  have htab : (ino.setSector 12 y).iSectors 12 = y := setSector_self _ _ _
  have hwrite := ref_write_table v4.disk (i := ino.setSector 12 y)
    (f := Function.update ab 12 y2) (by rw [htab]; exact hy) (by
      intro q h1 h2
      by_cases hq : q = 12
      · subst q
        rw [Function.update_self]
        exact hlt2
      · rw [Function.update_of_ne hq, hab q h2]
        exact owns_lt ho (by omega)) hp
  rw [htab] at hwrite
  have href := ref_changes (changes_patch (patch v4.disk (512 * y) (512 * 1)
    (tableBytes (Function.update ab 12 y2))) (512 * y2) (512 * 1)
    (patch zeroes 0 dirEntrySize e.toBytes)) (i := ino.setSector 12 y) (by
      intro _ a ha
      rw [htab] at ha
      simp only [mem_sector, mem_span] at *
      omega) hp
  have hp' : ref v.disk ino p = ino.iSectors 12 → p = 140 := fun h =>
    ho.distinct p hp 140 (by omega) (by rw [h]; exact ht) (by rw [h, ref_table])
  have he' := (href.symm.trans he).symm.trans hwrite
  split at he'
  · rename_i h12
    rw [setSector_of_ne _ (by omega), ← ref_direct (d := v.disk) h12] at he'
    exact absurd (hp' he'.symm) (by omega)
  split at he'
  · by_cases hq : p = 12
    · subst p
      rw [Function.update_self] at he'
      exact hfree2.not_inUse (he' ▸ hkeep _ hold)
    · rw [Function.update_of_ne hq, hab p (by omega)] at he'
      exact absurd (hp' he'.symm) (by omega)
  · exact hfree.not_inUse (he' ▸ hold)

/-- Inserting loses the table exactly when it puts a second one in its place. -/
theorem syncDirEntry_leaks {v v' : Volume part} {ino ino' : Inode} {e : DirEntry} {ok : Bool}
    (h : syncDirEntry e ino v = some (ok, ino', v')) (ho : Owns v (ref v.disk ino))
    (hor : Orphans v.disk ino) :
    InUse v' (ino.iSectors 12) ∧ ∀ p < 141, ref v'.disk ino' p ≠ ino.iSectors 12 := by
  simp only [syncDirEntry, bind_some_iff] at h
  obtain ⟨-, -, ab, hab, h⟩ := h
  have hab' : ∀ k < 140, ab k = ref v.disk ino k := fun k hk => by
    rw [loadAllBlocks_some hab hk, ref_of_lt hk]
  -- the first twelve blocks are full, so the scan arrives at place 12
  have hscan : ∀ (left idx : ℕ), left + idx = 140 → idx ≤ 12 →
      syncBlocks ab e ino v left idx = some (ok, ino', v') →
      syncNewBlock 12 ab e ino v = some (ok, ino', v') := by
    intro left
    induction left with
    | zero =>
      intro idx h1 h2
      omega
    | succ left ih =>
      intro idx h1 h2 hs
      unfold syncBlocks at hs
      by_cases h12 : idx = 12
      · subst idx
        rwa [hab' 12 (by omega), if_pos hor.2.1] at hs
      obtain ⟨hz, hfull⟩ := hor.2.2 idx (by omega)
      rw [hab' idx (by omega), if_neg hz, bind_some_iff] at hs
      obtain ⟨io, hio, hs⟩ := hs
      obtain ⟨rfl, -⟩ := ideRead_some hio
      have hspec := freeEntry_spec (patch zeroes 0 (512 * 1)
        (window v.disk (512 * ref v.disk ino idx))) dirEntrysPerSec 0
      split at hs
      · rename_i i hi
        obtain ⟨i, -, hi21, hw, rfl⟩ := hspec.1 _ hi
        exact absurd ((word_sectorBuf hz (o := 20) hi21 (by omega)).symm.trans hw) (hfull i hi21)
      · exact ih (idx + 1) (by omega) (by omega) hs
  exact syncNewBlock_leaks (hscan 140 0 (by omega) (by omega) h) ho hab' hor.1

end FsDirectorySlots
