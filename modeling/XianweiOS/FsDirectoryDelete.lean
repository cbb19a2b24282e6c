import XianweiOS.FsDirectorySlots

/-! What `delete_dir_entry` does to the slots and the blocks of a directory. -/
namespace FsDirectoryDelete

open ByteStore HaltingProgram KernelBitmap DeviceIde FsVolume FsInodeTable FsBlockMap FsOwnership
  FsFreeBlocks FsDirectory FsDirectorySlots

variable {part : Partition}

theorem releaseBlock_some {v v' : Volume part} {x p : ℕ} {r : ℕ → ℕ}
    (h : releaseBlock x v = some v') (ho : Owns v r) (hp : p < 141) (hx : r p = x) (hz : x ≠ 0) :
    Changes (blockBitmapArea part) v.disk v'.disk ∧
    Rewrites True True v r v' (Function.update r p 0) := by
  obtain ⟨i, hi, hlen, -⟩ := ho.held p hp (by rw [hx]; exact hz)
  have hxi : x = part.sb.dataStartLba + i := hx.symm.trans hi
  subst hxi
  rw [releaseBlock, blockBitmapIdx_alloc hlen] at h
  obtain rfl := bitmapSync_block_some h
  exact ⟨changes_bitSector hlen, rewrites_give ho hp hx⟩

/-- The block of place `p` is gone and the data of the other blocks is untouched. -/
structure Dropped (v : Volume part) (ino : Inode) (p : ℕ) (v' : Volume part) (ino' : Inode) :
    Prop where
  rewrites : Rewrites True True v (ref v.disk ino) v' (ref v'.disk ino')
  gone : ref v'.disk ino' p = 0
  same : ∀ q < 140, q ≠ p → ref v'.disk ino' q = ref v.disk ino q
  table : ino'.iSectors 12 = ino.iSectors 12 ∨ ino'.iSectors 12 = 0
  quiet : ∀ q < 140, q ≠ p → ref v.disk ino q ≠ 0 →
    ∀ a ∈ sector (ref v.disk ino q), v'.disk a = v.disk a
  head : ino'.SameHead ino

/-- With one indirect block left, the others are holes. -/
private theorem indirect_only {ab : ℕ → ℕ} {p q : ℕ} (h : ¬indirectBlocks ab > 1) (hp : 12 ≤ p)
    (hp' : p < 140) (hz : ab p ≠ 0) (hq : 12 ≤ q) (hq' : q < 140) (hne : q ≠ p) : ab q = 0 := by
  by_contra hzq
  have hmem : ∀ k, 12 ≤ k → k < 140 → ab k ≠ 0 →
      k - 12 ∈ (List.range 128).filter fun k => ab (12 + k) ≠ 0 := by
    intro k h1 h2 h3
    simp only [ne_eq, decide_not, List.mem_filter, List.mem_range, Bool.not_eq_eq_eq_not,
      Bool.not_true, decide_eq_false_iff_not]
    rw [show 12 + (k - 12) = k by omega]
    exact ⟨by omega, h3⟩
  have hpm := hmem p hp hp' hz
  have hqm := hmem q hq hq' hzq
  have hone : ((List.range 128).filter fun k => ab (12 + k) ≠ 0).length = 1 := by
    have hpos := List.length_pos_of_mem hpm
    unfold indirectBlocks at h
    omega
  obtain ⟨a, ha⟩ := List.length_eq_one_iff.mp hone
  rw [ha, List.mem_singleton] at hpm hqm
  omega

theorem dropBlock_some {v v' : Volume part} {ino ino' : Inode} {p : ℕ} {ab : ℕ → ℕ}
    (h : dropBlock p ab ino v = some (ino', v')) (ho : Owns v (ref v.disk ino))
    (hab : ∀ k < 140, ab k = ref v.disk ino k) (hp : p < 140) (hz : ref v.disk ino p ≠ 0) :
    Dropped v ino p v' ino' := by
  simp only [dropBlock, bind_some_iff] at h
  obtain ⟨v1, hrel, h⟩ := h
  rw [hab p hp] at hrel
  obtain ⟨hc, hgive⟩ := releaseBlock_some hrel ho (show p < 141 by omega) rfl hz
  have hlow : ∀ a ∈ blockBitmapArea part, a < 512 * part.sb.dataStartLba := by
    intro a ha
    by_contra hge
    exact not_mem_bitmapArea (by omega) ha
  have hquiet : ∀ {d : Bytes}, Changes (blockBitmapArea part) v.disk d → ∀ q < 140,
      ref v.disk ino q ≠ 0 → ∀ a ∈ sector (ref v.disk ino q), d a = v.disk a := fun hcd q hq hzq a ha =>
    hcd a (not_mem_bitmapArea (sector_inUse (ho.held q (by omega) hzq) ha))
  split at h
  · rename_i h12
    simp only [Option.pure_def, Option.some.injEq, Prod.mk.injEq] at h
    obtain ⟨rfl, rfl⟩ := h
    have href : ∀ q < 141, ref v1.disk (ino.setSector p 0) q =
        Function.update (ref v.disk ino) p 0 q := by
      intro q hq
      rw [ref_setSector_direct _ _ h12 hq, ho.ref_eq hc hlow hq]
      by_cases hqp : q = p
      · subst q
        rw [if_pos rfl, Function.update_self]
      · rw [if_neg hqp, Function.update_of_ne hqp]
    refine ⟨hgive.congr (fun _ _ => rfl) href, ?_, ?_, Or.inl (setSector_of_ne _ (by omega) _),
      fun q hq _ => hquiet hc q hq, setSector_head _ _ _⟩
    · rw [href p (by omega), Function.update_self]
    · intro q hq hqp
      rw [href q (by omega), Function.update_of_ne hqp]
  rename_i h12
  have ht : ino.iSectors 12 ≠ 0 := by
    intro h0
    apply hz
    rw [ref_indirect (by omega) hp, if_pos h0]
  simp only [bind_some_iff] at h
  obtain ⟨-, -, h⟩ := h
  split at h
  · simp only [bind_some_iff, Option.pure_def, Option.some.injEq, Prod.mk.injEq] at h
    obtain ⟨d, hd, rfl, rfl⟩ := h
    obtain ⟨rfl, -⟩ := ideWrite_some hd
    have ho1 := hgive.owns
    have htab : Function.update (ref v.disk ino) p 0 140 = ino.iSectors 12 := by
      rw [Function.update_of_ne (by omega), ref_table]
    have hf : ∀ q, 12 ≤ q → q < 140 →
        Function.update ab p 0 q = Function.update (ref v.disk ino) p 0 q := by
      intro q _ h2
      by_cases hqp : q = p
      · subst q
        rw [Function.update_self, Function.update_self]
      · rw [Function.update_of_ne hqp, Function.update_of_ne hqp, hab q h2]
    have href : ∀ q < 141, ref (patch v1.disk (512 * ino.iSectors 12) (512 * 1)
        (tableBytes (Function.update ab p 0))) ino q = Function.update (ref v.disk ino) p 0 q := by
      intro q hq
      rw [Nat.mul_one, ref_write_table _ ht ?_ hq]
      · by_cases hq12 : q < 12
        · rw [if_pos hq12, Function.update_of_ne (by omega), ref_direct hq12]
        · rw [if_neg hq12]
          by_cases hq140 : q < 140
          · rw [if_pos hq140, hf q (by omega) hq140]
          · obtain rfl : q = 140 := by omega
            rw [if_neg hq140, htab]
      · intro q h1 h2
        rw [hf q h1 h2]
        exact owns_lt ho1 (by omega)
    have hwr : Changes (Writable v1 (Function.update (ref v.disk ino) p 0)) v1.disk
        (patch v1.disk (512 * ino.iSectors 12) (512 * 1) (tableBytes (Function.update ab p 0))) :=
      (changes_patch _ _ _ _).mono fun a ha => ⟨_, ha, Or.inr ⟨140, by omega, htab, ht⟩⟩
    have hall := (hgive.trans (rewrites_write ho1 hwr)).congr (fun _ _ => rfl) href
    refine ⟨hall.weaken (fun _ => ⟨trivial, trivial⟩) (fun _ => ⟨trivial, trivial⟩), ?_, ?_,
      Or.inl rfl, ?_, Inode.SameHead.refl _⟩
    · rw [withDisk_disk, href p (by omega), Function.update_self]
    · intro q hq hqp
      rw [withDisk_disk, href q (by omega), Function.update_of_ne hqp]
    · intro q hq hqp hzq a ha
      have hout : ¬(512 * ino.iSectors 12 ≤ a ∧ a < 512 * ino.iSectors 12 + 512 * 1) := by
        intro hin
        simp only [mem_sector] at ha
        have := ho.distinct q (by omega) 140 (by omega) hzq (by rw [ref_table]; omega)
        omega
      rw [withDisk_disk, patch_out hout]
      exact hquiet hc q hq hzq a ha
  · rename_i hmany
    simp only [bind_some_iff, Option.pure_def, Option.some.injEq, Prod.mk.injEq] at h
    obtain ⟨v2, hrel2, rfl, rfl⟩ := h
    have htab : Function.update (ref v.disk ino) p 0 140 = ino.iSectors 12 := by
      rw [Function.update_of_ne (by omega), ref_table]
    obtain ⟨hc2, hgive2⟩ := releaseBlock_some hrel2 hgive.owns (show 140 < 141 by omega) htab ht
    have hold : ∀ q, 12 ≤ q → q < 140 → q ≠ p → ref v.disk ino q = 0 := by
      intro q h1 h2 hne
      rw [← hab q h2]
      exact indirect_only hmany (by omega) hp (by rw [hab p hp]; exact hz) h1 h2 hne
    have href : ∀ q < 141, ref v2.disk (ino.setSector 12 0) q =
        Function.update (Function.update (ref v.disk ino) p 0) 140 0 q := by
      intro q hq
      by_cases hq12 : q < 12
      · rw [ref_direct hq12, setSector_of_ne _ (by omega), Function.update_of_ne (by omega),
          Function.update_of_ne (by omega), ref_direct hq12]
      · by_cases hq140 : q < 140
        · rw [ref_indirect (by omega) hq140, setSector_self, if_pos rfl,
            Function.update_of_ne (by omega)]
          by_cases hqp : q = p
          · subst q
            rw [Function.update_self]
          · rw [Function.update_of_ne hqp, hold q (by omega) hq140 hqp]
        · obtain rfl : q = 140 := by omega
          rw [ref_table, setSector_self, Function.update_self]
    have hall := (hgive.trans hgive2).congr (fun _ _ => rfl) href
    refine ⟨hall.weaken (fun _ => ⟨trivial, trivial⟩) (fun _ => ⟨trivial, trivial⟩), ?_, ?_,
      Or.inr (setSector_self _ _ _), fun q hq _ => hquiet (hc.trans hc2) q hq, setSector_head _ _ _⟩
    · rw [href p (by omega), Function.update_of_ne (by omega), Function.update_self]
    · intro q hq hqp
      rw [href q (by omega), Function.update_of_ne (by omega), Function.update_of_ne hqp]

/-- An entry in use. -/
def IsLive (m : Bytes) : Prop := word m 20 ≠ 0

/-- An entry in use other than `.` and `..`. -/
structure Plain (m : Bytes) : Prop where
  live : IsLive m
  not_dot : strcmp dot m 0 = false
  not_dotdot : strcmp dotdot m 0 = false

/-- Entry `i` of a sector buffer. -/
def bufSlot (io : Bytes) (i : ℕ) : Bytes := clip (window io (24 * i))

theorem word_bufSlot (io : Bytes) (i : ℕ) {o : ℕ} (ho : o + 4 ≤ 24) :
    word io (24 * i + o) = word (bufSlot io i) o := by
  apply word_congr
  intro k hk
  simp only [bufSlot, clip, window, if_pos (show o + k < 24 by omega), Nat.add_assoc]

theorem strcmp_congr : ∀ (name : List Byte) {m m' : Bytes} {a b : ℕ},
    (∀ k ≤ name.length, m (a + k) = m' (b + k)) → strcmp name m a = strcmp name m' b := by
  intro name
  induction name with
  | nil =>
    intro m m' a b h
    simp only [strcmp, show m a = m' b from h 0 (by omega)]
  | cons c name ih =>
    intro m m' a b h
    have hrest : strcmp name m (a + 1) = strcmp name m' (b + 1) := ih fun k hk => by
      have := h (k + 1) (by simp only [List.length_cons]; omega)
      rwa [show a + (k + 1) = a + 1 + k by omega, show b + (k + 1) = b + 1 + k by omega] at this
    simp only [strcmp, hrest, show m a = m' b from h 0 (by omega)]

theorem strcmp_bufSlot {name : List Byte} (hn : name.length < 24) (io : Bytes) (i : ℕ) :
    strcmp name io (24 * i) = strcmp name (bufSlot io i) 0 := by
  apply strcmp_congr
  intro k hk
  simp only [bufSlot, clip, window, Nat.zero_add, if_pos (show k < 24 by omega)]

/-- The scan has gone over the first `idx` entries. -/
structure Scanned (n : ℕ) (io : Bytes) (idx : ℕ) (s : BlockScan) : Prop where
  none_found : s.found = none → ∀ j < idx, Plain (bufSlot io j) → word (bufSlot io j) 16 ≠ n
  found : ∀ i, s.found = some i → i < idx ∧ Plain (bufSlot io i) ∧ word (bufSlot io i) 16 = n ∧
    1 ≤ s.dirEntryCnt
  no_entry : s.dirEntryCnt = 0 → ∀ j < idx, ¬Plain (bufSlot io j)
  one_entry : s.dirEntryCnt = 1 → ∀ j < idx, ∀ k < idx, Plain (bufSlot io j) → Plain (bufSlot io k) →
    j = k
  first : s.isDirFirstBlock = false → ∀ j < idx, IsLive (bufSlot io j) →
    strcmp dot (bufSlot io j) 0 = false

private theorem below_succ {P : ℕ → Prop} {idx : ℕ} (h : ∀ j < idx, P j) (hi : P idx) :
    ∀ j < idx + 1, P j := by
  intro j hj
  by_cases hji : j = idx
  · exact hji ▸ hi
  · exact h j (by omega)

private theorem Scanned.skip {n idx : ℕ} {io : Bytes} {s : BlockScan} (h : Scanned n io idx s)
    (hp : ¬Plain (bufSlot io idx)) {b : Bool} (hd : b = false → s.isDirFirstBlock = false ∧
      (IsLive (bufSlot io idx) → strcmp dot (bufSlot io idx) 0 = false)) :
    Scanned n io (idx + 1) { s with isDirFirstBlock := b } where
  none_found hs := below_succ (h.none_found hs) fun hc => absurd hc hp
  found i hi := by
    obtain ⟨h1, h2⟩ := h.found i hi
    exact ⟨by omega, h2⟩
  no_entry hc := below_succ (h.no_entry hc) hp
  one_entry hc := by
    intro j hj k hk pj pk
    have hji : j ≠ idx := fun he => hp (he ▸ pj)
    have hki : k ≠ idx := fun he => hp (he ▸ pk)
    exact h.one_entry hc j (by omega) k (by omega) pj pk
  first hf := below_succ (h.first (hd hf).1) (hd hf).2

private theorem Scanned.count {n idx : ℕ} {io : Bytes} {s : BlockScan} (h : Scanned n io idx s)
    (hp : Plain (bufSlot io idx)) {f : Option ℕ}
    (hf : (f = s.found ∧ word (bufSlot io idx) 16 ≠ n) ∨ (f = some idx ∧ word (bufSlot io idx) 16 = n)) :
    Scanned n io (idx + 1) ⟨f, s.dirEntryCnt + 1, s.isDirFirstBlock⟩ where
  none_found hs := by
    rcases hf with ⟨rfl, hne⟩ | ⟨rfl, -⟩
    · exact below_succ (h.none_found hs) fun _ => hne
    · cases hs
  found i hi := by
    rcases hf with ⟨rfl, -⟩ | ⟨rfl, he⟩
    · obtain ⟨h1, h2, h3, -⟩ := h.found i hi
      exact ⟨by omega, h2, h3, by simp only; omega⟩
    · obtain rfl := Option.some.inj hi
      exact ⟨by omega, hp, he, by simp only; omega⟩
  no_entry hc := by
    simp only at hc
    omega
  one_entry hc := by
    simp only [Nat.add_eq_right] at hc
    intro j hj k hk pj pk
    have hnone := h.no_entry hc
    have hji : j = idx := by
      by_contra hne
      exact hnone j (by omega) pj
    have hki : k = idx := by
      by_contra hne
      exact hnone k (by omega) pk
    rw [hji, hki]
  first hfst := below_succ (h.first hfst) fun _ => hp.not_dot

theorem scanEntries_scanned {n : ℕ} {io : Bytes} : ∀ (left idx : ℕ) {s s' : BlockScan},
    Scanned n io idx s → scanEntries n io left idx s = some s' → Scanned n io (idx + left) s' := by
  intro left
  induction left with
  | zero =>
    intro idx s s' hs h
    obtain rfl := Option.some.inj h
    exact hs
  | succ left ih =>
    intro idx s s' hs h
    rw [← Nat.add_assoc, Nat.add_right_comm]
    unfold scanEntries at h
    rw [word_bufSlot io idx (by omega), strcmp_bufSlot (by decide), strcmp_bufSlot (by decide)] at h
    split at h
    · rename_i hlive
      split at h
      · rename_i hdot
        have hp : ¬Plain (bufSlot io idx) := fun hc => by simp [hc.not_dot] at hdot
        exact ih _ (hs.skip hp fun hb => by cases hb) h
      split at h
      · rename_i hdot hdd
        have hp : ¬Plain (bufSlot io idx) := fun hc => by simp [hc.not_dotdot] at hdd
        exact ih _ (hs.skip hp fun hb => ⟨hb, fun _ => by simpa using hdot⟩) h
      rename_i hdot hdd
      have hp : Plain (bufSlot io idx) := ⟨hlive, by simpa using hdot, by simpa using hdd⟩
      rw [word_bufSlot io idx (by omega)] at h
      split at h
      · rename_i hno
        simp only [bind_some_iff] at h
        obtain ⟨-, -, h⟩ := h
        exact ih _ (hs.count hp (Or.inr ⟨rfl, hno⟩)) h
      · rename_i hno
        exact ih _ (hs.count hp (Or.inl ⟨rfl, hno⟩)) h
    · rename_i hlive
      have hdead : ¬IsLive (bufSlot io idx) := hlive
      exact ih _ (hs.skip (fun hc => hdead hc.live) fun hb => ⟨hb, fun hc => absurd hc hdead⟩) h

/-- No block starts as anything but cleared, and `..` stands behind `.` in its block. -/
structure Tidy (d : Bytes) (r : ℕ → ℕ) : Prop where
  clean : ∀ p < 140, ∀ i < 21, ¬IsLive (rawSlot d r p i) → rawSlot d r p i = zeroes
  dots : ∀ p < 140, ∀ i < 21, IsLive (rawSlot d r p i) → strcmp dotdot (rawSlot d r p i) 0 = true →
    ∃ j < 21, IsLive (rawSlot d r p j) ∧ strcmp dot (rawSlot d r p j) 0 = true

/-- The record of the directory has been written back. -/
def syncedInode (v : Volume part) (ino : Inode) : Volume part :=
  v.withDisk (patch v.disk (slotAddr part (ino.iNo % 256)) 76 ino.pure.toBytes)

/-- What deleting the entry of inode `n` does, up to the moment the inode is written back. -/
structure Deleted (n : ℕ) (v : Volume part) (ino : Inode) (v' : Volume part) (ino' : Inode) :
    Prop where
  rewrites : Rewrites True True v (ref v.disk ino) v' (ref v'.disk ino')
  head : ino'.SameHead (shrink ino)
  size : 24 ≤ ino.iSize
  slot : ∃ p i, p < 140 ∧ i < 21 ∧ Plain (rawSlot v.disk (ref v.disk ino) p i) ∧
    word (rawSlot v.disk (ref v.disk ino) p i) 16 = n ∧ (Tidy v.disk (ref v.disk ino) →
      SetSlot v.disk (ref v.disk ino) v'.disk (ref v'.disk ino') p i zeroes)
  onDisk : OnDisk (ref v.disk ino) → OnDisk (ref v'.disk ino')

theorem bufSlot_sectorBuf {d : Bytes} {r : ℕ → ℕ} {p i : ℕ} (hz : r p ≠ 0) (hi : i < 21) :
    bufSlot (patch zeroes 0 (512 * 1) (window d (512 * r p))) i = rawSlot d r p i := by
  rw [rawSlot_present hz]
  funext k
  simp only [bufSlot, clip, window]
  split
  · rw [patch_in (by omega), Nat.sub_zero, Nat.add_assoc]
    rfl
  · rfl

theorem removeEntry_some {n : ℕ} {v v' : Volume part} {ino ino' : Inode} {p i : ℕ}
    {ab : ℕ → ℕ} {s : BlockScan} (ho : Owns v (ref v.disk ino))
    (hab : ∀ k < 140, ab k = ref v.disk ino k) (hp : p < 140) (hz : ref v.disk ino p ≠ 0)
    (hs : Scanned n (patch zeroes 0 (512 * 1) (window v.disk (512 * ref v.disk ino p))) 21 s)
    (hi : s.found = some i)
    (h : removeEntry s i p ab (patch zeroes 0 (512 * 1) (window v.disk (512 * ref v.disk ino p)))
      ino v = some (ino', v')) :
    Rewrites True True v (ref v.disk ino) v' (ref v'.disk ino') ∧ ino'.SameHead ino ∧
    (Tidy v.disk (ref v.disk ino) →
      SetSlot v.disk (ref v.disk ino) v'.disk (ref v'.disk ino') p i zeroes) ∧
    (OnDisk (ref v.disk ino) → OnDisk (ref v'.disk ino')) := by
  obtain ⟨hi21, hplain, -, -⟩ := hs.found i hi
  unfold removeEntry at h
  split at h
  · rename_i hcond
    have hd := dropBlock_some h ho hab hp hz
    refine ⟨hd.rewrites, hd.head, fun ht => ?_, fun hon q hq => ?_⟩
    · intro q hq j hj
      by_cases hqp : q = p
      · subst q
        rw [rawSlot_absent hd.gone]
        split
        · rw [clip_zeroes]
        · rename_i hne
          -- the other slots of the block are not in use, so they are cleared
          have hji : j ≠ i := fun he => hne ⟨rfl, he⟩
          symm
          apply ht.clean p hp j hj
          intro hlive
          rw [← bufSlot_sectorBuf hz hj] at hlive
          have hdot := hs.first hcond.2 j hj hlive
          have hdd : strcmp dotdot (bufSlot (patch zeroes 0 (512 * 1)
              (window v.disk (512 * ref v.disk ino p))) j) 0 = false := by
            by_contra hc
            have hlive' := hlive
            rw [bufSlot_sectorBuf hz hj] at hlive' hc
            obtain ⟨k, hk, hk1, hk2⟩ := ht.dots p hp j hj hlive' (by simpa using hc)
            rw [← bufSlot_sectorBuf hz hk] at hk1 hk2
            have := hs.first hcond.2 k hk hk1
            rw [this] at hk2
            cases hk2
          exact hji (hs.one_entry hcond.1 j hj i hi21 ⟨hlive, hdot, hdd⟩ hplain)
      · rw [if_neg (fun hh => hqp hh.1)]
        exact rawSlot_congr (hd.same q hq hqp) hj fun hzq => hd.quiet q hq hqp hzq
    · by_cases hqp : q = p
      · rw [hqp, hd.gone]
        exact Nat.zero_le _
      · by_cases hq140 : q < 140
        · rw [hd.same q hq140 hqp]
          exact hon q hq
        · obtain rfl : q = 140 := by omega
          rw [ref_table]
          rcases hd.table with ht | ht
          · rw [ht, ← ref_table v.disk ino]
            exact hon 140 (by omega)
          · rw [ht]
            exact Nat.zero_le _
  · simp only [bind_some_iff, Option.pure_def, Option.some.injEq, Prod.mk.injEq] at h
    obtain ⟨d, hd, rfl, rfl⟩ := h
    obtain ⟨rfl, -⟩ := ideWrite_some hd
    rw [hab p hp]
    obtain ⟨href, hrew, hset⟩ := setSlot_patch ho hp hz zeroes _ hi21 rfl rfl
    exact ⟨hrew, Inode.SameHead.refl _, fun _ => hset, fun hon q hq => (href q hq).le.trans (hon q hq)⟩

/-- No entry but `.` and `..` has the number. -/
def NoEntry (n : ℕ) (d : Bytes) (r : ℕ → ℕ) : Prop :=
  ∀ p < 140, ∀ i < 21, Plain (rawSlot d r p i) → word (rawSlot d r p i) 16 ≠ n

theorem scanEntries_start {n : ℕ} {io : Bytes} {s : BlockScan}
    (h : scanEntries n io dirEntrysPerSec 0 ⟨none, 0, false⟩ = some s) : Scanned n io 21 s := by
  have hs := scanEntries_scanned _ _ (⟨fun _ j hj => by omega, fun i hi => (by cases hi),
    fun _ j hj => by omega, fun _ j hj => by omega, fun _ j hj => by omega⟩ :
      Scanned n io 0 ⟨none, 0, false⟩) h
  rwa [Nat.zero_add, show dirEntrysPerSec = 21 from rfl] at hs

/-- Slot `i` of the block at place `p` has the number, and the entry is taken out. -/
structure Removal (n : ℕ) (ab : ℕ → ℕ) (v : Volume part) (ino : Inode) (p i : ℕ) (s : BlockScan)
    (v₁ : Volume part) (ino₁ : Inode) : Prop where
  place : p < 140
  present : ref v.disk ino p ≠ 0
  scan : scanEntries n (sectorBuf v.disk (ref v.disk ino p)) dirEntrysPerSec 0 ⟨none, 0, false⟩ =
    some s
  found : s.found = some i
  remove : removeEntry s i p ab (sectorBuf v.disk (ref v.disk ino p)) ino v = some (ino₁, v₁)
  size : dirEntrySize ≤ ino₁.iSize

theorem deleteBlocks_cases {n : ℕ} {v v' : Volume part} {ino ino' : Inode} {ok : Bool}
    {ab : ℕ → ℕ} (hab : ∀ k < 140, ab k = ref v.disk ino k) :
    ∀ (left idx : ℕ), left + idx = 140 → (∀ p < idx, ∀ i < 21,
      Plain (rawSlot v.disk (ref v.disk ino) p i) → word (rawSlot v.disk (ref v.disk ino) p i) 16 ≠ n) →
    deleteBlocks n ab ino v left idx = some (ok, ino', v') →
    (ok = false ∧ ino' = ino ∧ v' = v ∧ NoEntry n v.disk (ref v.disk ino)) ∨
    (ok = true ∧ ∃ p i s v₁ ino₁, Removal n ab v ino p i s v₁ ino₁ ∧ ino' = shrink ino₁ ∧
      v' = syncedInode v₁ ino') := by
  intro left
  induction left with
  | zero =>
    intro idx hlen hnone h
    simp only [deleteBlocks, Option.some.injEq, Prod.mk.injEq] at h
    obtain ⟨rfl, rfl, rfl⟩ := h
    exact Or.inl ⟨rfl, rfl, rfl, fun p hp => hnone p (by omega)⟩
  | succ left ih =>
    intro idx hlen hnone h
    unfold deleteBlocks at h
    rw [hab idx (by omega)] at h
    split at h
    · rename_i hz
      refine ih (idx + 1) (by omega) (fun p hp i hi hpl => ?_) h
      by_cases hpi : p = idx
      · subst p
        rw [rawSlot_absent hz] at hpl
        exact absurd (word_zeroes 20) hpl.live
      · exact hnone p (by omega) i hi hpl
    · rename_i hz
      simp only [bind_some_iff] at h
      obtain ⟨io, hio, s, hscan, h⟩ := h
      obtain ⟨rfl, -⟩ := ideRead_some hio
      have hs := scanEntries_start hscan
      split at h
      · rename_i hf
        refine ih (idx + 1) (by omega) (fun p hp i hi hpl => ?_) h
        by_cases hpi : p = idx
        · subst p
          rw [← bufSlot_sectorBuf hz hi] at hpl ⊢
          exact hs.none_found hf i hi hpl
        · exact hnone p (by omega) i hi hpl
      · rename_i i hf
        simp only [bind_some_iff, assert_eq_some, Option.pure_def, Option.some.injEq,
          Prod.mk.injEq] at h
        obtain ⟨-, -, ⟨ino1, v1⟩, hrem, -, hsize, d, hd, rfl, rfl, rfl⟩ := h
        rw [inodeSync_eq] at hd
        obtain rfl := Option.some.inj hd
        exact Or.inr ⟨rfl, idx, i, s, v1, ino1, ⟨by omega, hz, hscan, hf, hrem, hsize⟩, rfl, rfl⟩

theorem Removal.deleted {n : ℕ} {v v₁ : Volume part} {ino ino₁ : Inode} {ab : ℕ → ℕ} {p i : ℕ}
    {s : BlockScan} (h : Removal n ab v ino p i s v₁ ino₁) (ho : Owns v (ref v.disk ino))
    (hab : ∀ k < 140, ab k = ref v.disk ino k) : Deleted n v ino v₁ (shrink ino₁) := by
  have hs := scanEntries_start h.scan
  obtain ⟨hrew, hhead, hset, hon⟩ := removeEntry_some ho hab h.place h.present hs h.found h.remove
  obtain ⟨hi21, hplain, hno, -⟩ := hs.found i h.found
  rw [sectorBuf, bufSlot_sectorBuf h.present hi21] at hplain hno
  have hsz : ino₁.iSize = ino.iSize := hhead.size
  have hsize := h.size
  simp only [dirEntrySize] at hsize
  refine ⟨hrew, ⟨hhead.no, ?_, hhead.cnts, hhead.deny⟩, by omega,
    ⟨p, i, h.place, hi21, hplain, hno, hset⟩, hon⟩
  simp only [shrink, hsz]

theorem deleteDirEntry_cases {n : ℕ} {v v' : Volume part} {ino ino' : Inode} {ok : Bool}
    (h : deleteDirEntry ino n v = some (ok, ino', v')) :
    ∃ ab : ℕ → ℕ, (∀ k < 140, ab k = ref v.disk ino k) ∧
      ((ok = false ∧ ino' = ino ∧ v' = v ∧ NoEntry n v.disk (ref v.disk ino)) ∨
        (ok = true ∧ ∃ p i s v₁ ino₁, Removal n ab v ino p i s v₁ ino₁ ∧ ino' = shrink ino₁ ∧
          v' = syncedInode v₁ ino')) := by
  simp only [deleteDirEntry, bind_some_iff] at h
  obtain ⟨ab, hload, h⟩ := h
  have hab : ∀ k < 140, ab k = ref v.disk ino k := by
    intro k hk
    rw [loadAllBlocks_some hload hk, ref_of_lt hk]
  exact ⟨ab, hab, deleteBlocks_cases hab 140 0 (by omega) (fun p hp => by omega) h⟩

theorem deleteDirEntry_some {n : ℕ} {v v' : Volume part} {ino ino' : Inode} {ok : Bool}
    (h : deleteDirEntry ino n v = some (ok, ino', v')) (ho : Owns v (ref v.disk ino)) :
    (ok = false ∧ ino' = ino ∧ v' = v ∧ ∀ p < 140, ∀ i < 21,
      Plain (rawSlot v.disk (ref v.disk ino) p i) → word (rawSlot v.disk (ref v.disk ino) p i) 16 ≠ n) ∨
    (ok = true ∧ ∃ v1, Deleted n v ino v1 ino' ∧ v' = syncedInode v1 ino') := by
  obtain ⟨ab, hab, hnone | ⟨rfl, p, i, s, v₁, ino₁, hr, rfl, hv⟩⟩ := deleteDirEntry_cases h
  · exact Or.inl hnone
  · exact Or.inr ⟨rfl, v₁, hr.deleted ho hab, hv⟩

end FsDirectoryDelete
