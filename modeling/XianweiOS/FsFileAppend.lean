import XianweiOS.FsFileWrite
import XianweiOS.FsFreeBlocks

/-! What a completed `file_write` does: the bytes of the file afterwards, its blocks, and
everything it leaves alone. -/
namespace FsFileAppend

open ByteStore HaltingProgram KernelBitmap DeviceIde FsVolume FsInodeTable FsBlockMap FsOwnership
  FsFreeBlocks FsFileWrite

variable {part : Partition}

/-- The bytes `buf bw .. buf (bw + n - 1)` have been appended to the `s` bytes of the file. -/
structure Copied (r : ℕ → ℕ) (buf : Bytes) (s n bw : ℕ) (d d' : Bytes) : Prop where
  frame : Changes {a | ∃ p, s / 512 ≤ p ∧ p ≤ (s + n) / 512 ∧ a ∈ sector (r p)} d d'
  old : ∀ k < s, d' (byteAddr r k) = d (byteAddr r k)
  new : ∀ j < n, d' (byteAddr r (s + j)) = buf (bw + j)
  onDisk : ∀ j < n, r ((s + j) / 512) ≤ maxLba

theorem byteAddr_mem (r : ℕ → ℕ) (k : ℕ) : byteAddr r k ∈ sector (r (k / 512)) := by
  simp only [byteAddr, mem_sector]
  omega

theorem Copied.refl (r : ℕ → ℕ) (buf : Bytes) {s bw : ℕ} (d : Bytes) :
    Copied r buf s 0 bw d d :=
  ⟨Changes.refl _ _, fun _ _ => rfl, fun _ h => by omega, fun _ h => by omega⟩

/-- One round writes one sector: behind what the file held of it, `m` bytes are new. -/
private theorem copied_round {r : ℕ → ℕ} (buf : Bytes) {io d : Bytes} {s : ℕ} (m bw : ℕ)
    (hinj : ∀ p ≤ s / 512, r p = r (s / 512) → p = s / 512) (hm : s % 512 + m ≤ 512)
    (hio : s % 512 ≠ 0 → io = patch zeroes 0 512 (window d (512 * r (s / 512))))
    (hlba : r (s / 512) ≤ maxLba) :
    Copied r buf s m bw d (patch d (512 * r (s / 512)) 512
      (patch io (s % 512) m (window buf bw))) := by
  refine ⟨(changes_patch _ _ _ _).mono fun a ha => ⟨s / 512, le_rfl, by omega, ha⟩, ?_, ?_, ?_⟩
  · intro k hk
    by_cases hsec : k / 512 = s / 512
    · rw [hio (by omega)]
      simp only [byteAddr, hsec]
      rw [patch_in (by omega), patch_out (by omega), patch_in (by omega)]
      simp only [window]
      congr 1
      omega
    · have hne : r (k / 512) ≠ r (s / 512) := fun he => hsec (hinj _ (by omega) he)
      exact patch_out (by simp only [byteAddr]; omega)
  · intro j hj
    have hsec : (s + j) / 512 = s / 512 := by omega
    simp only [byteAddr, hsec]
    rw [patch_in (by omega), patch_in (by omega)]
    simp only [window]
    congr 1
    omega
  · intro j hj
    rw [show (s + j) / 512 = s / 512 by omega]
    exact hlba

private theorem Copied.trans {r : ℕ → ℕ} {buf d d' d'' : Bytes} {s m n bw : ℕ}
    (h : Copied r buf s m bw d d') (k : Copied r buf (s + m) n (bw + m) d' d'') :
    Copied r buf s (m + n) bw d d'' := by
  refine ⟨Changes.trans (h.frame.mono ?_) (k.frame.mono ?_), ?_, ?_, ?_⟩
  · rintro a ⟨p, h1, h2, ha⟩
    exact ⟨p, h1, by omega, ha⟩
  · rintro a ⟨p, h1, h2, ha⟩
    exact ⟨p, by omega, by omega, ha⟩
  · intro j hj
    rw [k.old j (by omega), h.old j hj]
  · intro j hj
    by_cases hjm : j < m
    · rw [k.old _ (by omega), h.new j hjm]
    · have := k.new (j - m) (by omega)
      rwa [show s + m + (j - m) = s + j by omega, show bw + m + (j - m) = bw + j by omega] at this
  · intro j hj
    by_cases hjm : j < m
    · exact h.onDisk j hjm
    · have := k.onDisk (j - m) (by omega)
      rwa [show s + m + (j - m) = s + j by omega] at this

/-- The inode with its size set. -/
def withSize (ino : Inode) (n : ℕ) : Inode := { ino with iSize := n }

/-- The loop ends at the requested length or stops the machine at the end of `all_blocks`. -/
theorem writeLoop_bound {ab : ℕ → ℕ} {buf : Bytes} {count : ℕ} : ∀ (fuel : ℕ) {first : Bool}
    {bw pos : ℕ} {ino : Inode} {d : Bytes} {x : ℕ × ℕ × Inode × Bytes},
    writeLoop ab buf count fuel first bw pos ino d = some x → count - bw ≤ fuel →
    ino.iSize ≤ 71680 → ino.iSize + (count - bw) ≤ 71680 := by
  intro fuel
  induction fuel with
  | zero =>
    intro first bw pos ino d x _ hf hs
    omega
  | succ fuel ih =>
    intro first bw pos ino d x h hf hs
    unfold writeLoop at h
    split at h
    · simp only [bind_some_iff, assert_eq_some] at h
      obtain ⟨-, hsec, io, -, d1, -, h⟩ := h
      have := ih h (by omega) (by simp only; omega)
      simp only at this
      omega
    · omega

theorem writeLoop_no {ab : ℕ → ℕ} {buf : Bytes} {count : ℕ} : ∀ (fuel : ℕ) {first : Bool}
    {bw pos : ℕ} {ino : Inode} {d : Bytes} {x : ℕ × ℕ × Inode × Bytes},
    writeLoop ab buf count fuel first bw pos ino d = some x → x.2.2.1.iNo = ino.iNo := by
  intro fuel
  induction fuel with
  | zero =>
    intro first bw pos ino d x h
    rw [← Option.some.inj h]
  | succ fuel ih =>
    intro first bw pos ino d x h
    unfold writeLoop at h
    split at h
    · simp only [bind_some_iff] at h
      obtain ⟨-, -, io, -, d1, -, h⟩ := h
      exact (ih h :)
    · rw [← Option.some.inj h]

theorem writeLoop_some {ab r : ℕ → ℕ} {buf : Bytes} {count : ℕ} : ∀ (fuel : ℕ) {first : Bool}
    {bw pos : ℕ} {ino : Inode} {d : Bytes} {x : ℕ × ℕ × Inode × Bytes},
    writeLoop ab buf count fuel first bw pos ino d = some x → count - bw ≤ fuel → bw ≤ count →
    pos < 2 ^ 32 → ino.iSize + (count - bw) < 71680 →
    (first = false → ino.iSize % 512 = 0 ∨ bw = count) →
    (∀ p, ino.iSize / 512 ≤ p → p ≤ (ino.iSize + (count - bw)) / 512 → ab p = r p) →
    (∀ p ≤ (ino.iSize + (count - bw)) / 512, ∀ q ≤ (ino.iSize + (count - bw)) / 512,
      r p = r q → p = q) →
    ∃ d', x = (count, (pos + (count - bw)) % 2 ^ 32, withSize ino (ino.iSize + (count - bw)), d') ∧
      Copied r buf ino.iSize (count - bw) bw d d' := by
  intro fuel
  induction fuel with
  | zero =>
    intro first bw pos ino d x h hf hbw hpos _ _ _ _
    obtain rfl := Option.some.inj h
    obtain rfl : bw = count := by omega
    rw [Nat.sub_self, Nat.add_zero, Nat.mod_eq_of_lt hpos]
    exact ⟨d, rfl, Copied.refl _ _ _⟩
  | succ fuel ih =>
    intro first bw pos ino d x h hf hbw hpos hlen hfirst hab hinj
    unfold writeLoop at h
    split at h
    · rename_i hlt
      simp only [bind_some_iff, assert_eq_some] at h
      obtain ⟨-, hsec, io, hio, d1, hw, h⟩ := h
      generalize hm : min (count - bw) (512 - ino.iSize % 512) = m at h hw
      obtain ⟨rfl, hlba⟩ := ideWrite_some hw
      have hsz : (ino.iSize + m) % 2 ^ 32 = ino.iSize + m := by omega
      have hleft : count - bw = m + (count - (bw + m)) := by omega
      have hlast : ab (ino.iSize / 512) = r (ino.iSize / 512) := hab _ le_rfl (by omega)
      rw [hlast] at h hlba hio
      have hio' : ino.iSize % 512 ≠ 0 →
          io = patch zeroes 0 512 (window d (512 * r (ino.iSize / 512))) := by
        intro hne
        have htrue : first = true := by
          by_contra hc
          have := hfirst (by simpa using hc)
          omega
        rw [roundBuf, if_pos htrue] at hio
        exact (ideRead_some hio).1
      have hround := copied_round buf m bw (fun p hp he =>
        hinj p (by omega) (ino.iSize / 512) (by omega) he) (by omega) hio' hlba
      obtain ⟨d', rfl, hcopy⟩ := ih h (by omega) (by omega) (by omega)
        (by simp only [hsz]; omega) (by simp only [hsz]; omega)
        (by
          simp only [hsz]
          intro p h1 h2
          exact hab p (by omega) (by omega))
        (by
          simp only [hsz]
          intro p hp q hq
          exact hinj p (by omega) q (by omega))
      simp only [hsz] at hcopy
      refine ⟨d', ?_, ?_⟩
      · simp only [hsz, withSize, Prod.mk.injEq, Inode.mk.injEq, true_and, and_true]
        omega
      · rw [hleft]
        exact hround.trans hcopy
    · obtain rfl := Option.some.inj h
      obtain rfl : bw = count := by omega
      rw [Nat.sub_self, Nat.add_zero, Nat.mod_eq_of_lt hpos]
      exact ⟨d, rfl, Copied.refl _ _ _⟩

/-- The table a write may take is caught up with, starting from the bitmap the write finds. -/
def WriteMasked (ino : Inode) (count : ℕ) (b : Bitmap) : Prop :=
  TableMasked ino.iSize (ino.iSize + count) (if ino.iSectors 0 = 0 then takeLowest b else b)

/-- A write of `count` bytes, up to the moment the inode is written back. -/
structure Appended (v : Volume part) (ino : Inode) (buf : Bytes) (count : ℕ) (v' : Volume part)
    (ino' : Inode) : Prop where
  rewrites : Rewrites True (WriteMasked ino count v.blockBitmap) v (ref v.disk ino) v'
    (ref v'.disk ino')
  blocks : FileBlocks (ref v'.disk ino') (ino.iSize + count)
  kept : ∀ p < 141, ref v.disk ino p ≠ 0 → ref v'.disk ino' p = ref v.disk ino p
  old : ∀ k < ino.iSize,
    v'.disk (byteAddr (ref v'.disk ino') k) = v.disk (byteAddr (ref v.disk ino) k)
  new : ∀ j < count, v'.disk (byteAddr (ref v'.disk ino') (ino.iSize + j)) = buf j
  onDisk : ∀ j < count, ref v'.disk ino' ((ino.iSize + j) / 512) ≤ maxLba
  table : ino'.iSectors 12 ≤ maxLba
  head : ino'.SameHead (withSize ino (ino.iSize + count))

/-- The copying loop leaves the map alone: it writes data blocks, never the table. -/
private theorem ref_copied {v : Volume part} {ino : Inode} {buf d' : Bytes} {s n : ℕ}
    (ho : Owns v (ref v.disk ino)) (hb : FileBlocks (ref v.disk ino) (s + n))
    (hlen : (s + n) / 512 < 140) (hc : Copied (ref v.disk ino) buf s n 0 v.disk d') {p : ℕ}
    (hp : p < 141) : ref d' ino p = ref v.disk ino p := by
  refine ref_changes hc.frame (fun hz a ha => ?_) hp
  rintro ⟨q, h1, h2, haq⟩
  have hq : ref v.disk ino q ≠ 0 := (hb.data q (by omega)).mpr h2
  have he : ref v.disk ino q = ref v.disk ino 140 := by
    rw [ref_table]
    simp only [mem_sector] at ha haq
    omega
  have := ho.distinct q (by omega) 140 (by omega) hq he
  omega

theorem appended_of_steps {v v1 v2 : Volume part} {ino ino1 ino2 : Inode} {buf d' : Bytes}
    {count : ℕ} {ab : ℕ → ℕ} (hlen : ino.iSize + count < 71680) (hf : FirstBlock v ino v1 ino1)
    (hl : Loaded ino.iSize (ino.iSize + count) v1 ino1 v2 ab ino2)
    (hc : Copied (ref v2.disk ino2) buf ino.iSize count 0 v2.disk d') (ho : Owns v (ref v.disk ino))
    (hlow : FileBlocks (ref v.disk ino) ino.iSize ∨ ino.iSize = 0) :
    Appended v ino buf count (v2.withDisk d') (withSize ino2 (ino.iSize + count)) := by
  have ho2 := hl.rewrites.owns
  have href : ∀ p < 141, ref d' (withSize ino2 (ino.iSize + count)) p = ref v2.disk ino2 p :=
    fun p hp => ref_copied ho2 hl.blocks (by omega) hc hp
  have hwr : Changes (Writable v2 (ref v2.disk ino2)) v2.disk d' := by
    refine hc.frame.mono ?_
    rintro a ⟨p, h1, h2, ha⟩
    exact ⟨_, ha, Or.inr ⟨p, by omega, rfl, (hl.blocks.data p (by omega)).mpr h2⟩⟩
  have hall := (hf.rewrites.trans (hl.rewrites.trans (rewrites_write ho2 hwr))).congr
    (fun _ _ => rfl) href
  have hbits : v1.blockBitmap =
      if ino.iSectors 0 = 0 then takeLowest v.blockBitmap else v.blockBitmap := hf.bits
  have hkept : ∀ p < 141, ref v.disk ino p ≠ 0 → ref v2.disk ino2 p = ref v.disk ino p := by
    intro p hp hz
    have h1 := hf.old p hp hz
    rw [← h1]
    exact hl.old p hp (by rw [h1]; exact hz)
  refine ⟨hall.weaken (fun _ => ⟨trivial, trivial, trivial⟩) (fun hm => ⟨trivial, ?_, trivial⟩),
    ⟨?_, ?_⟩, ?_, ?_, ?_, ?_, hl.table, ?_⟩
  · rw [hbits]
    exact hm
  · intro p hp
    rw [withDisk_disk, href p (by omega)]
    exact hl.blocks.data p hp
  · rw [withDisk_disk, href 140 (by omega)]
    exact hl.blocks.table
  · intro p hp hz
    rw [withDisk_disk, href p hp]
    exact hkept p hp hz
  · intro k hk
    have hz : ref v.disk ino (k / 512) ≠ 0 := by
      rcases hlow with hb | h0
      · exact (hb.data _ (by omega)).mpr (by omega)
      · omega
    have hz1 : ref v1.disk ino1 (k / 512) ≠ 0 := by
      rw [hf.old _ (by omega) hz]
      exact hz
    have haddr : byteAddr (ref d' (withSize ino2 (ino.iSize + count))) k =
        byteAddr (ref v2.disk ino2) k := by
      simp only [byteAddr, href _ (show k / 512 < 141 by omega)]
    have haddr2 : byteAddr (ref v2.disk ino2) k = byteAddr (ref v.disk ino) k := by
      simp only [byteAddr, hkept _ (show k / 512 < 141 by omega) hz]
    have hmem : byteAddr (ref v.disk ino) k ∈ sector (ref v1.disk ino1 (k / 512)) := by
      rw [hf.old _ (by omega) hz]
      exact byteAddr_mem _ _
    rw [withDisk_disk, haddr, hc.old k hk, haddr2, hl.quiet _ (by omega) hz1 _ hmem]
    exact hf.bitmap _ (not_mem_bitmapArea
      (sector_inUse (ho.held _ (by omega) hz) (byteAddr_mem _ _)))
  · intro j hj
    have haddr : byteAddr (ref d' (withSize ino2 (ino.iSize + count))) (ino.iSize + j) =
        byteAddr (ref v2.disk ino2) (ino.iSize + j) := by
      simp only [byteAddr, href _ (show (ino.iSize + j) / 512 < 141 by omega)]
    rw [withDisk_disk, haddr, hc.new j hj, Nat.zero_add]
  · intro j hj
    rw [withDisk_disk, href _ (by omega)]
    exact hc.onDisk j hj
  · have h := hl.head.trans hf.head
    exact ⟨h.no, rfl, h.cnts, h.deny⟩

private theorem fileWrite_cases {m1 m2 : Bool} {pos count : ℕ} {ino : Inode} {v : Volume part}
    {buf : Bytes} {res : WriteResult part} (h : fileWrite m1 m2 pos ino v buf count = some res)
    (hl : FileLayout v ino) :
    res = ⟨-1, pos, ino, v⟩ ∨
    (¬Straddles (ino.iNo % 256) ∧ ino.iSize + count < 71680 ∧
      ∃ v', Appended v ino buf count v' res.inode ∧
        res.ret = count ∧ res.fdPos = (ino.iSize + 2 ^ 32 - 1 + count) % 2 ^ 32 ∧
        res.vol = v'.withDisk (patch v'.disk (slotAddr part (ino.iNo % 256)) 76
          res.inode.pure.toBytes)) := by
  have hsize := hl.size
  simp only [fileWrite, gt_iff_lt] at h
  split at h
  · exact Or.inl (Option.some.inj h).symm
  split at h
  · exact Or.inl (Option.some.inj h).symm
  split at h
  · exact Or.inl (Option.some.inj h).symm
  simp only [bind_some_iff] at h
  obtain ⟨⟨ok1, ino1, v1⟩, h1, h⟩ := h
  obtain ⟨rfl, hf⟩ := writeFirstBlock_some h1 hl
  simp only [Bool.true_eq_false, ↓reduceIte, bind_some_iff, assert_eq_some, hf.head.size] at h
  obtain ⟨-, hwill, ⟨ok2, ab, ino2, v2⟩, h2, h⟩ := h
  obtain ⟨rfl, hhead⟩ := writeBlocks_ok h2
  have hsz2 : ino2.iSize = ino.iSize := hhead.size.trans hf.head.size
  simp only [Bool.true_eq_false, ↓reduceIte, bind_some_iff, hsz2] at h
  obtain ⟨⟨bw, pos', ino3, d3⟩, h3, d4, h4, h⟩ := h
  -- the loop went through, so the sizes never wrapped around
  have hbound := writeLoop_bound _ h3 (by omega) (by omega)
  rw [hsz2] at hbound
  have hmod : (ino.iSize + count) % 2 ^ 32 = ino.iSize + count := by omega
  rw [hmod] at h2 hwill
  have hlen : ino.iSize + count < 71680 := by omega
  obtain ⟨-, hload⟩ := writeBlocks_some h2 hf.rewrites.owns hf.blocks (by omega) (by omega)
  obtain ⟨d', hx, hc⟩ := writeLoop_some (r := ref v2.disk ino2) _ h3 (by omega) (by omega)
    (by omega) (by omega) (by simp) (by
      intro p hp1 hp2
      exact hload.listed p (by omega) (by omega)) (by
      intro p hp q hq he
      exact hload.rewrites.owns.distinct p (by omega) q (by omega)
        ((hload.blocks.data p (by omega)).mpr (by omega)) he)
  simp only [Prod.mk.injEq] at hx
  obtain ⟨rfl, rfl, rfl, rfl⟩ := hx
  rw [hsz2, Nat.sub_zero] at hc
  obtain ⟨hone, rfl⟩ := inodeSyncIn_some h4
  obtain rfl := Option.some.inj h
  have happ := appended_of_steps hlen hf hload hc hl.owns (hl.blocks.imp id And.left)
  have hno : ino2.iNo = ino.iNo := happ.head.no
  simp only [withSize, hno] at hone
  rw [hsz2, Nat.sub_zero]
  refine Or.inr ⟨hone, hlen, v2.withDisk d3, happ, rfl, by simp only; omega, ?_⟩
  simp only [withDisk_disk]
  rw [show (withSize ino2 (ino.iSize + bw)).iNo = ino.iNo from happ.head.no]
  rfl

/-- What a completed call returned: refused before anything happened, or all bytes written. -/
theorem fileWrite_some {m1 m2 : Bool} {pos count : ℕ} {ino : Inode} {v : Volume part} {buf : Bytes}
    {res : WriteResult part} (h : fileWrite m1 m2 pos ino v buf count = some res)
    (hl : FileLayout v ino) :
    res = ⟨-1, pos, ino, v⟩ ∨
    (ino.iSize + count < 71680 ∧ ∃ v', Appended v ino buf count v' res.inode ∧
      res.ret = count ∧ res.fdPos = (ino.iSize + 2 ^ 32 - 1 + count) % 2 ^ 32 ∧
      res.vol = v'.withDisk (patch v'.disk (slotAddr part (ino.iNo % 256)) 76
        res.inode.pure.toBytes)) :=
  (fileWrite_cases h hl).imp id And.right

/-- A file whose record lies in two sectors is not written: its sectors do not fit the buffer. -/
theorem fileWrite_straddling {m1 m2 : Bool} {pos count : ℕ} {ino : Inode} {v : Volume part}
    {buf : Bytes} {res : WriteResult part} (h : fileWrite m1 m2 pos ino v buf count = some res)
    (hl : FileLayout v ino) (hstr : Straddles (ino.iNo % 256)) : res = ⟨-1, pos, ino, v⟩ :=
  (fileWrite_cases h hl).resolve_right fun hdone => hdone.1 hstr

/-- The inode is written back below the data area, where it moves no block. -/
theorem Appended.ref_synced {v v' : Volume part} {ino ino' : Inode} {buf : Bytes} {count : ℕ}
    (h : Appended v ino buf count v' ino') (n : ℕ) (src : Bytes) {p : ℕ} (hp : p < 141) :
    ref (patch v'.disk (slotAddr part (n % 256)) 76 src) ino' p = ref v'.disk ino' p :=
  h.rewrites.owns.ref_eq (changes_patch _ _ _ _) (slot_below (by omega)) hp

theorem Appended.blocks_synced {v v' : Volume part} {ino ino' : Inode} {buf : Bytes} {count : ℕ}
    (h : Appended v ino buf count v' ino') (n : ℕ) (src : Bytes) :
    FileBlocks (ref (patch v'.disk (slotAddr part (n % 256)) 76 src) ino') ino'.iSize := by
  rw [show ino'.iSize = ino.iSize + count from h.head.size]
  refine ⟨fun p hp => ?_, ?_⟩
  · rw [h.ref_synced n src (by omega)]
    exact h.blocks.data p hp
  · rw [h.ref_synced n src (by omega)]
    exact h.blocks.table

theorem Appended.layout {v v' : Volume part} {ino ino' : Inode} {buf : Bytes} {count : ℕ}
    (h : Appended v ino buf count v' ino') (hf : ino.Fits) (hlen : ino.iSize + count < 71680)
    (n : ℕ) (src : Bytes) :
    FileLayout (v'.withDisk (patch v'.disk (slotAddr part (n % 256)) 76 src)) ino' := by
  have hsize : ino'.iSize = ino.iSize + count := h.head.size
  have ho := h.rewrites.owns
  refine ⟨(ho.withDisk _).congr fun p hp => h.ref_synced n src hp, ⟨?_, by omega, ?_⟩, by omega,
    Or.inl (h.blocks_synced n src)⟩
  · rw [show ino'.iNo = ino.iNo from h.head.no]
    exact hf.no
  · intro j hj
    by_cases h12 : j < 12
    · rw [← ref_direct (d := v'.disk) h12]
      exact owns_lt ho (by omega)
    · obtain rfl : j = 12 := by omega
      rw [← ref_table v'.disk ino']
      exact owns_lt ho (by omega)

/-- Byte `k` of the file stays where it is while the inode is written back. -/
theorem Appended.byte_synced {v v' : Volume part} {ino ino' : Inode} {buf : Bytes} {count : ℕ}
    (h : Appended v ino buf count v' ino') (hlen : ino.iSize + count < 71680) (n : ℕ) (src : Bytes)
    {k : ℕ} (hk : k < ino.iSize + count) :
    patch v'.disk (slotAddr part (n % 256)) 76 src
      (byteAddr (ref (patch v'.disk (slotAddr part (n % 256)) 76 src) ino') k) =
    v'.disk (byteAddr (ref v'.disk ino') k) := by
  have haddr : byteAddr (ref (patch v'.disk (slotAddr part (n % 256)) 76 src) ino') k =
      byteAddr (ref v'.disk ino') k := by
    simp only [byteAddr, h.ref_synced n src (show k / 512 < 141 by omega)]
  rw [haddr]
  have hz : ref v'.disk ino' (k / 512) ≠ 0 := (h.blocks.data _ (by omega)).mpr (by omega)
  have hin := sector_inUse (h.rewrites.owns.held _ (by omega) hz) (byteAddr_mem _ k)
  exact patch_out (not_mem_slot (n := n % 256) hin (by omega))

theorem Appended.content {v v' : Volume part} {ino ino' : Inode} {buf : Bytes} {count : ℕ}
    (h : Appended v ino buf count v' ino') (hlen : ino.iSize + count < 71680) (n : ℕ)
    (src : Bytes) :
    content (patch v'.disk (slotAddr part (n % 256)) 76 src) ino' =
      content v.disk ino ++ (List.range count).map buf := by
  unfold FsFileWrite.content
  rw [show ino'.iSize = ino.iSize + count from h.head.size, List.range_add, List.map_append,
    List.map_map]
  congr 1
  · apply List.map_congr_left
    intro k hk
    have hk := List.mem_range.mp hk
    rw [h.byte_synced hlen n src (by omega), h.old k hk]
  · apply List.map_congr_left
    intro j hj
    have hj := List.mem_range.mp hj
    rw [Function.comp_apply, h.byte_synced hlen n src (by omega), h.new j hj]

/-- The map and the blocks of another inode after the whole call. -/
theorem Appended.others {v v' : Volume part} {ino ino' other : Inode} {buf : Bytes} {count : ℕ}
    (h : Appended v ino buf count v' ino') (ho : Owns v (ref v.disk other))
    (ha : Apart (ref v.disk other) (ref v.disk ino)) (n : ℕ) (src : Bytes) {p : ℕ} (hp : p < 141) :
    ref (patch v'.disk (slotAddr part (n % 256)) 76 src) other p = ref v.disk other p ∧
    (ref v.disk other p ≠ 0 → ∀ a ∈ sector (ref v.disk other p),
      patch v'.disk (slotAddr part (n % 256)) 76 src a = v.disk a) := by
  have hquiet : ∀ q < 141, ref v.disk other q ≠ 0 → ∀ a ∈ sector (ref v.disk other q),
      patch v'.disk (slotAddr part (n % 256)) 76 src a = v.disk a := by
    intro q hq hz a hin
    rw [patch_out (not_mem_slot (n := n % 256) (sector_inUse (ho.held q hq hz) hin) (by omega))]
    exact rewrites_quiet h.rewrites ho ha hq hz a hin
  refine ⟨ref_congr (fun _ _ => rfl) (fun hz a hin => ?_) hp, hquiet p hp⟩
  rw [← ref_table v.disk other] at hz hin
  exact hquiet 140 (by omega) hz a hin

/-- Blocks a write takes: the first one of a fresh file, data blocks, a table. -/
def blocksNeeded (ino : Inode) (count : ℕ) : ℕ :=
  (if ino.iSectors 0 = 0 then 1 else 0) +
    ((ino.iSize + count) / 512 - ino.iSize / 512) +
    (if ino.iSize / 512 < 12 ∧ 12 ≤ (ino.iSize + count) / 512 then 1 else 0)

theorem allocLoop_exists : ∀ (n idx : ℕ) (ab : ℕ → ℕ) (ino : Inode) (v : Volume part),
    n ≤ freeBlocks v → (∀ p, idx ≤ p → p < idx + n → p < 12 → ino.iSectors p = 0) →
    ∃ ab' ino' v', allocLoop n idx ab ino v = some (true, ab', ino', v') ∧
      (∀ p, ¬(idx ≤ p ∧ p < idx + n) → ab' p = ab p) ∧
      ∀ p, idx ≤ p → p < idx + n → ab' p ≤ maxLba := by
  intro n
  induction n with
  | zero =>
    intro idx ab ino v _ _
    exact ⟨ab, ino, v, rfl, fun _ _ => rfl, fun p h1 h2 => by omega⟩
  | succ n ih =>
    intro idx ab ino v hfree hz
    obtain ⟨k, hal, hk, hlba, hle⟩ := alloc_free (v := v) (by omega)
    have hidx : idx < 12 → ino.iSectors idx = 0 := hz idx le_rfl (by omega)
    obtain ⟨ab', ino', v', hrest, hold, hnew⟩ := ih (idx + 1)
      (Function.update ab idx (part.sb.dataStartLba + k))
      (if idx < 12 then ino.setSector idx (part.sb.dataStartLba + k) else ino)
      ((v.setBlockBit k true).withDisk (patch (v.setBlockBit k true).disk
        (512 * (part.sb.blockBitmapLba + k / 4096)) 512
        (window (v.setBlockBit k true).blockBitmap.bits (k / 4096 * 512))))
      (by rw [freeBlocks_withDisk]; omega) (by
        intro p h1 h2 h3
        split
        · rw [setSector_of_ne _ (by omega)]
          exact hz p (by omega) (by omega) h3
        · exact hz p (by omega) (by omega) h3)
    refine ⟨ab', ino', v', ?_, ?_, ?_⟩
    · rw [allocLoop, hal]
      simp only [Option.bind_eq_bind, Option.bind_some]
      rw [assert_pos hidx, Option.bind_some, sync_alloc hk, Option.bind_some]
      exact hrest
    · intro p hp
      rw [hold p (by omega), Function.update_of_ne (by omega)]
    · intro p h1 h2
      by_cases hpi : p = idx
      · rw [hold p (by omega), hpi, Function.update_self]
        exact hlba
      · exact hnew p (by omega) (by omega)

theorem writeLoop_exists (ab : ℕ → ℕ) (buf : Bytes) (count : ℕ) : ∀ (fuel : ℕ) (first : Bool)
    (bw pos : ℕ) (ino : Inode) (d : Bytes), ino.iSize + (count - bw) < 71680 →
    (∀ p, ino.iSize / 512 ≤ p → p ≤ (ino.iSize + (count - bw)) / 512 → ab p ≤ maxLba) →
    ∃ x, writeLoop ab buf count fuel first bw pos ino d = some x := by
  intro fuel
  induction fuel with
  | zero =>
    intro first bw pos ino d _ _
    exact ⟨_, rfl⟩
  | succ fuel ih =>
    intro first bw pos ino d hlen hab
    unfold writeLoop
    split
    · have hlba := hab (ino.iSize / 512) le_rfl (by omega)
      have hsz : (ino.iSize + min (count - bw) (512 - ino.iSize % 512)) % 2 ^ 32 =
          ino.iSize + min (count - bw) (512 - ino.iSize % 512) := by omega
      have hbuf : ∃ io, roundBuf first d (ab (ino.iSize / 512)) = some io := by
        unfold roundBuf
        split
        · exact ⟨_, ideRead_eq (by omega) (by omega)⟩
        · exact ⟨_, rfl⟩
      obtain ⟨io, hio⟩ := hbuf
      simp only [assert_pos (show ino.iSize / 512 < 140 by omega), hio, Option.bind_eq_bind,
        Option.bind_some]
      rw [ideWrite_eq (by omega) (by omega), Option.bind_some]
      apply ih
      · simp only [hsz]
        omega
      · simp only [hsz]
        intro p h1 h2
        exact hab p (by omega) (by omega)
    · exact ⟨_, rfl⟩

theorem writeBlocks_exists {size new : ℕ} {ino : Inode} {v : Volume part}
    (hb : FileBlocks (ref v.disk ino) size) (hd : OnDisk (ref v.disk ino)) (hle : size ≤ new)
    (hlen : new / 512 < 140)
    (hfree : new / 512 - size / 512 + (if size / 512 < 12 ∧ 12 ≤ new / 512 then 1 else 0) ≤
      freeBlocks v) :
    ∃ ab ino' v', writeBlocks (size / 512 + 1) (new / 512 + 1) ino v = some (true, ab, ino', v') ∧
      ∀ p, size / 512 ≤ p → p ≤ new / 512 → ab p ≤ maxLba := by
  have hdiv : size / 512 ≤ new / 512 := Nat.div_le_div_right hle
  have hrounds : new / 512 + 1 - (size / 512 + 1) = new / 512 - size / 512 := by omega
  have ht : ino.iSectors 12 ≠ 0 ↔ 12 ≤ size / 512 := by
    rw [← ref_table v.disk ino]
    exact hb.table
  have htd : ino.iSectors 12 ≤ maxLba := by
    rw [← ref_table v.disk ino]
    exact hd 140 (by omega)
  have hread : ideRead v.disk (ino.iSectors 12) zeroes 1 =
      some (patch zeroes 0 (512 * 1) (window v.disk (512 * ino.iSectors 12))) :=
    ideRead_eq (by omega) (by omega)
  have hlast : size / 512 < 12 → lastBlock ino (size / 512 + 1) (size / 512) ≤ maxLba := by
    intro h12
    rw [lastBlock, Nat.add_sub_cancel, Function.update_self, ← ref_direct (d := v.disk) h12]
    exact hd _ (by omega)
  have hdirect : ∀ p, size / 512 + 1 ≤ p → p < 12 → ino.iSectors p = 0 := by
    intro p h1 h2
    rw [← ref_direct (d := v.disk) h2]
    by_contra hne
    have := (hb.data p (by omega)).mp hne
    omega
  have htable : 12 ≤ size / 512 → ∀ p, 12 ≤ p → p < 140 → tableBlocks
      (patch zeroes 0 (512 * 1) (window v.disk (512 * ino.iSectors 12))) p ≤ maxLba := by
    intro h12 p h1 h2
    have := hd p (by omega)
    rw [ref_indirect h1 h2, if_neg (ht.mpr h12)] at this
    rwa [tableBlocks, if_neg (by omega), word_patch_in (by omega), Nat.sub_zero, word_window]
  unfold writeBlocks
  split
  · split
    · exact ⟨_, _, _, rfl, fun p h1 h2 => by
        obtain rfl : p = size / 512 := by omega
        exact hlast (by omega)⟩
    · rw [assert_pos (ht.mpr (by omega)), hread]
      refine ⟨_, _, _, rfl, fun p h1 h2 => ?_⟩
      exact htable (by omega) p (by omega) (by omega)
  split
  · obtain ⟨ab, ino', v', hloop, hold, hnew⟩ := allocLoop_exists (new / 512 - size / 512)
      (size / 512 + 1) (lastBlock ino (size / 512 + 1)) ino v (by omega)
      (fun p h1 _ h3 => hdirect p h1 h3)
    have h0 : ino.iSectors (size / 512 + 1 - 1) ≠ 0 := by
      rw [Nat.add_sub_cancel, ← ref_direct (d := v.disk) (by omega)]
      exact (hb.data _ (by omega)).mpr le_rfl
    refine ⟨ab, ino', v', ?_, fun p h1 h2 => ?_⟩
    · rw [assert_pos h0, hrounds]
      exact hloop
    · by_cases hp : p = size / 512
      · rw [hold p (by omega), hp]
        exact hlast (by omega)
      · exact hnew p (by omega) (by omega)
  split
  · have hcond : size / 512 < 12 ∧ 12 ≤ new / 512 := by omega
    rw [if_pos hcond] at hfree
    obtain ⟨k, hal, hk, hlba, hless⟩ := alloc_free (v := v) (by omega)
    have hz : ino.iSectors 12 = 0 := by
      by_contra hne
      have := ht.mp hne
      omega
    obtain ⟨ab, ino', v', hloop, hold, hnew⟩ := allocLoop_exists (new / 512 - size / 512)
      (size / 512 + 1) (lastBlock ino (size / 512 + 1))
      (ino.setSector 12 (part.sb.dataStartLba + k)) (v.setBlockBit k true) (by omega)
      (fun p h1 _ h3 => (setSector_of_ne _ (by omega) _).trans (hdirect p h1 h3))
    refine ⟨ab, ino', v'.withDisk (patch v'.disk (512 * (part.sb.dataStartLba + k)) (512 * 1)
      (tableBytes ab)), ?_, fun p h1 h2 => ?_⟩
    · rw [hal]
      simp only [Option.bind_eq_bind, Option.bind_some]
      rw [assert_pos hz, Option.bind_some, hrounds, hloop, Option.bind_some]
      simp only [Bool.true_eq_false, ↓reduceIte]
      rw [ideWrite_eq (by omega) (by omega), Option.bind_some]
      rfl
    · by_cases hp : p = size / 512
      · rw [hold p (by omega), hp]
        exact hlast (by omega)
      · exact hnew p (by omega) (by omega)
  · obtain ⟨ab, ino', v', hloop, hold, hnew⟩ := allocLoop_exists (new / 512 - size / 512)
      (size / 512 + 1) (tableBlocks (patch zeroes 0 (512 * 1) (window v.disk (512 * ino.iSectors 12))))
      ino v (by omega) (fun p h1 _ h3 => hdirect p h1 h3)
    have htab : ino'.iSectors 12 = ino.iSectors 12 := (allocLoop_ok _ hloop).2.2
    refine ⟨ab, ino', v'.withDisk (patch v'.disk (512 * ino'.iSectors 12) (512 * 1)
      (tableBytes ab)), ?_, fun p h1 h2 => ?_⟩
    · rw [assert_pos (ht.mpr (by omega)), hread]
      simp only [Option.bind_eq_bind, Option.bind_some]
      rw [hrounds, hloop, Option.bind_some]
      simp only [Bool.true_eq_false, ↓reduceIte]
      rw [ideWrite_eq (by omega) (by omega), Option.bind_some]
      rfl
    · by_cases hp : p = size / 512
      · rw [hold p (by omega)]
        exact htable (by omega) p (by omega) (by omega)
      · exact hnew p (by omega) (by omega)

theorem writeFirstBlock_take {ino : Inode} {v : Volume part} {k : ℕ} (hz : ino.iSectors 0 = 0)
    (hal : blockBitmapAlloc v = some (some (part.sb.dataStartLba + k), v.setBlockBit k true))
    (hk : k < 8 * v.blockBitmap.btmpBytesLen) :
    writeFirstBlock ino v = some (true, ino.setSector 0 (part.sb.dataStartLba + k),
      (v.setBlockBit k true).withDisk (patch (v.setBlockBit k true).disk
        (512 * (part.sb.blockBitmapLba + k / 4096)) 512
        (window (v.setBlockBit k true).blockBitmap.bits (k / 4096 * 512)))) := by
  rw [writeFirstBlock, if_pos hz, bind_some_iff]
  refine ⟨_, hal, ?_⟩
  rw [bind_some_iff]
  exact ⟨_, sync_alloc hk, rfl⟩

theorem writeFirstBlock_exists {ino : Inode} {v : Volume part} (hl : FileLayout v ino)
    (hd : OnDisk (ref v.disk ino)) (hfree : (if ino.iSectors 0 = 0 then 1 else 0) ≤ freeBlocks v) :
    ∃ ino' v', writeFirstBlock ino v = some (true, ino', v') ∧ OnDisk (ref v'.disk ino') ∧
      freeBlocks v ≤ freeBlocks v' + (if ino.iSectors 0 = 0 then 1 else 0) := by
  by_cases hz : ino.iSectors 0 = 0
  · rw [if_pos hz] at hfree ⊢
    obtain ⟨k, hal, hk, hlba, hless⟩ := alloc_free (v := v) (by omega)
    have hw := writeFirstBlock_take hz hal hk
    refine ⟨_, _, hw, ?_, by rw [freeBlocks_withDisk]; exact hless⟩
    intro p hp
    have hbit := changes_bitSector (m := window (v.setBlockBit k true).blockBitmap.bits
      (k / 4096 * 512)) hk
    have hlow : ∀ a ∈ blockBitmapArea part, a < 512 * part.sb.dataStartLba := by
      intro a ha
      by_contra hc
      exact not_mem_bitmapArea (by omega) ha
    rw [ref_setSector_direct _ _ (by omega) hp]
    split
    · exact hlba
    · exact (hl.owns.ref_eq hbit hlow hp).le.trans (hd p hp)
  · rw [if_neg hz]
    exact ⟨ino, v, by rw [writeFirstBlock, if_neg hz]; rfl, hd, by omega⟩

/-- With enough free blocks and memory, and a record that lies in one sector, the call returns. -/
theorem fileWrite_exists {ino : Inode} {v : Volume part} (hl : FileLayout v ino)
    (hd : OnDisk (ref v.disk ino)) (hone : ¬Straddles (ino.iNo % 256)) (pos : ℕ) (buf : Bytes)
    (count : ℕ) (hlen : ino.iSize + count < 71680) (hfree : blocksNeeded ino count ≤ freeBlocks v) :
    ∃ res, fileWrite true true pos ino v buf count = some res ∧ res.ret ≠ -1 := by
  unfold blocksNeeded at hfree
  obtain ⟨ino1, v1, h1, hd1, hfree1⟩ := writeFirstBlock_exists hl hd (by omega)
  obtain ⟨-, hf⟩ := writeFirstBlock_some h1 hl
  have hmod : (ino.iSize + count) % 2 ^ 32 = ino.iSize + count := by omega
  obtain ⟨ab, ino2, v2, h2, hab⟩ := writeBlocks_exists hf.blocks hd1
    (Nat.le_add_right ino.iSize count) (by omega) (by omega)
  have hsz2 : ino2.iSize = ino.iSize := (writeBlocks_ok h2).2.size.trans hf.head.size
  obtain ⟨⟨bw, pos', ino3, d3⟩, h3⟩ := writeLoop_exists ab buf count
    count true 0 ((ino.iSize + 2 ^ 32 - 1) % 2 ^ 32) ino2 v2.disk (by omega) (by
      rw [hsz2, Nat.sub_zero]
      exact hab)
  refine ⟨⟨bw, pos', ino3, v2.withDisk (patch d3 (slotAddr part (ino3.iNo % 256)) 76
    ino3.pure.toBytes)⟩, ?_, by simp only; omega⟩
  simp only [fileWrite, hmod, gt_iff_lt, if_neg (show ¬512 * 140 < ino.iSize + count by omega),
    Bool.true_eq_false, ↓reduceIte]
  rw [h1, Option.bind_eq_bind, Option.bind_some]
  simp only [Bool.true_eq_false, ↓reduceIte, hf.head.size, hmod]
  rw [assert_pos (show (ino.iSize + count) / 512 + 1 ≤ 140 by omega), Option.bind_eq_bind,
    Option.bind_some, h2, Option.bind_eq_bind, Option.bind_some]
  simp only [Bool.true_eq_false, ↓reduceIte, hsz2]
  rw [h3, Option.bind_eq_bind, Option.bind_some]
  simp only
  have hno : ino3.iNo = ino.iNo :=
    (writeLoop_no _ h3).trans ((writeBlocks_ok h2).2.no.trans hf.head.no)
  rw [inodeSyncIn_one, hno, if_neg hone, inodeSync_eq, hno]
  rfl

/-- What the call should do: append the buffer to the file, give it the blocks of its new size and
touch no block of any other inode. -/
def WriteAppends (v : Volume part) (ino : Inode) (pos : ℕ) (buf : Bytes) (count : ℕ) : Prop :=
  ∃ res, fileWrite true true pos ino v buf count = some res ∧ res.ret = count ∧
    content res.vol.disk res.inode = content v.disk ino ++ (List.range count).map buf ∧
    res.inode.iSize = ino.iSize + count ∧
    FileBlocks (ref res.vol.disk res.inode) res.inode.iSize ∧
    Owns res.vol (ref res.vol.disk res.inode) ∧
    ∀ other, Owns v (ref v.disk other) → Apart (ref v.disk other) (ref v.disk ino) →
      ∀ p < 141, ref res.vol.disk other p = ref v.disk other p ∧
        (ref v.disk other p ≠ 0 →
          ∀ a ∈ sector (ref v.disk other p), res.vol.disk a = v.disk a)

/-- It does so when the record of the inode lies in one sector. A record in two sectors does not
fit `io_buf`, whatever is written. -/
theorem file_write_appends_iff {v : Volume part} {ino : Inode} (hl : FileLayout v ino)
    (hd : OnDisk (ref v.disk ino)) (pos : ℕ) (buf : Bytes) (count : ℕ)
    (hlen : ino.iSize + count < 71680) (hfree : blocksNeeded ino count ≤ freeBlocks v) :
    WriteAppends v ino pos buf count ↔ ¬Straddles (ino.iNo % 256) := by
  constructor
  · rintro ⟨res, hres, hret, -⟩ hstr
    rw [fileWrite_straddling hres hl hstr] at hret
    have hret : (-1 : ℤ) = count := hret
    omega
  intro hone
  obtain ⟨res, hres, hret⟩ := fileWrite_exists hl hd hone pos buf count hlen hfree
  refine ⟨res, hres, ?_⟩
  rcases fileWrite_some hres hl with rfl | ⟨-, v', happ, hcount, -, hvol⟩
  · exact absurd rfl hret
  · have hlay := happ.layout hl.fits hlen ino.iNo res.inode.pure.toBytes
    rw [← hvol] at hlay
    refine ⟨hcount, ?_, happ.head.size, ?_, hlay.owns, fun other ho ha p hp => ?_⟩
    · rw [hvol]
      exact happ.content hlen _ _
    · rw [hvol]
      exact happ.blocks_synced _ _
    · rw [hvol]
      exact happ.others ho ha _ _ hp

theorem fresh_ref (d : Bytes) (n : ℕ) {p : ℕ} (hp : p < 141) : ref d (inodeInit n) p = 0 := by
  by_cases h12 : p < 12
  · rw [ref_direct h12]
    rfl
  by_cases h140 : p < 140
  · rw [ref_indirect (by omega) h140]
    rfl
  · obtain rfl : p = 140 := by omega
    rw [ref_table]
    rfl

theorem fresh_layout (v : Volume part) {n : ℕ} (hn : n < 2 ^ 32) : FileLayout v (inodeInit n) :=
  ⟨⟨fun _ hp _ _ hne => absurd (fresh_ref _ _ hp) hne, fun _ hp hne => absurd (fresh_ref _ _ hp) hne⟩,
    ⟨hn, by simp [inodeInit], fun _ _ => by simp [inodeInit]⟩, by simp [inodeInit],
    Or.inr ⟨rfl, fun _ hp => fresh_ref _ _ hp⟩⟩

theorem fresh_onDisk (d : Bytes) (n : ℕ) : OnDisk (ref d (inodeInit n)) := by
  intro p hp
  rw [fresh_ref d n hp]
  exact Nat.zero_le _

theorem blank_free (n : ℕ) {count : ℕ} (h : count < 71680) :
    blocksNeeded (inodeInit n) count ≤ freeBlocks (blankVolume smallPartition zeroes) := by
  have hfree := freeBlocks_blank smallPartition zeroes 388 (by decide) (by decide)
  have hsize : (inodeInit n).iSize = 0 := rfl
  unfold blocksNeeded
  rw [hsize]
  split <;> split <;> omega

/-- A file of a hundred bytes in the first block of the data area. -/
def shortFile : Inode := ⟨1, 100, 1, true, fun k => if k = 0 then 613 else 0⟩

def shortVolume : Volume smallPartition :=
  ((blankVolume smallPartition zeroes).setBlockBit 0 true).withDisk
    (patch zeroes (512 * 613) 100 fun _ => 66)

theorem short_ref {p : ℕ} (hp : p < 141) :
    ref shortVolume.disk shortFile p = if p = 0 then 613 else 0 :=
  ref_single (fun _ _ => rfl) hp

theorem short_layout : FileLayout shortVolume shortFile := by
  refine ⟨⟨fun p hp q hq hz he => ?_, fun p hp hz => ?_⟩, ⟨by decide, by decide, fun j _ => ?_⟩,
    by decide, Or.inl ⟨fun p hp => ?_, ?_⟩⟩
  · rw [short_ref hp] at hz he
    rw [short_ref hq] at he
    by_cases hp0 : p = 0
    · by_cases hq0 : q = 0
      · rw [hp0, hq0]
      · rw [if_pos hp0, if_neg hq0] at he
        cases he
    · rw [if_neg hp0] at hz
      exact absurd rfl hz
  · rw [short_ref hp] at hz ⊢
    by_cases hp0 : p = 0
    · rw [if_pos hp0]
      refine ⟨0, rfl, by decide, ?_⟩
      simp [shortVolume]
    · rw [if_neg hp0] at hz
      exact absurd rfl hz
  · simp only [shortFile]
    split <;> decide
  · rw [short_ref (by omega)]
    simp only [shortFile]
    by_cases hp0 : p = 0
    · simp [hp0]
    · simp [hp0]
  · rw [short_ref (by omega)]
    decide

/-- Behind a hundred bytes 6500 more reach into the thirteenth block: the write begins within a
block, and the file gets its table. -/
theorem file_write_appends_iff_crossing : ∃ res,
    fileWrite true true 0 shortFile shortVolume (fun k => BitVec.ofNat 8 k) 6500 = some res ∧
      content res.vol.disk res.inode =
        List.replicate 100 66 ++ (List.range 6500).map (fun k => BitVec.ofNat 8 k) ∧
      ref res.vol.disk res.inode 140 ≠ 0 := by
  have hdisk : OnDisk (ref shortVolume.disk shortFile) := by
    intro p hp
    rw [short_ref hp]
    split <;> decide
  have hfree : blocksNeeded shortFile 6500 ≤ freeBlocks shortVolume := by
    have hblank := freeBlocks_blank smallPartition zeroes 388 (by decide)
      (by decide)
    have hbit := freeBlocks_setBlockBit (blankVolume smallPartition zeroes) 0 true
    have hneed : blocksNeeded shortFile 6500 = 13 := by decide
    rw [hneed, shortVolume, freeBlocks_withDisk]
    omega
  have hold : content shortVolume.disk shortFile = List.replicate 100 66 := by
    refine List.eq_replicate_iff.mpr ⟨by simp [content, shortFile], fun b hb => ?_⟩
    obtain ⟨k, hk, rfl⟩ := List.mem_map.mp hb
    have hk : k < 100 := List.mem_range.mp hk
    rw [byteAddr, short_ref (by omega), if_pos (by omega), shortVolume, withDisk_disk,
      patch_in (by omega)]
  obtain ⟨res, hres, -, hcontent, hsize, hblocks, -⟩ := (file_write_appends_iff short_layout hdisk 0
    (fun k => BitVec.ofNat 8 k) 6500 (by decide) hfree).mpr (by decide)
  rw [hold] at hcontent
  have htable : 12 ≤ res.inode.iSize / 512 := by
    rw [hsize, show shortFile.iSize = 100 from rfl]
  exact ⟨res, hres, hcontent, hblocks.table.mpr htable⟩

/-- The record of inode 6 lies in two sectors: not one byte can be written to a fresh file of that
number. -/
theorem sixth_file_not_written : FileLayout (blankVolume smallPartition zeroes) (inodeInit 6) ∧
    blocksNeeded (inodeInit 6) 1 ≤ freeBlocks (blankVolume smallPartition zeroes) ∧
    fileWrite true true 0 (inodeInit 6) (blankVolume smallPartition zeroes) (fun _ => 65) 1 = none ∧
    ¬WriteAppends (blankVolume smallPartition zeroes) (inodeInit 6) 0 (fun _ => 65) 1 := by
  have hlay := fresh_layout (blankVolume smallPartition zeroes) (n := 6) (by decide)
  have hnone : fileWrite true true 0 (inodeInit 6) (blankVolume smallPartition zeroes)
      (fun _ => 65) 1 = none := by
    rw [← Option.isNone_iff_eq_none]
    decide +kernel
  refine ⟨hlay, blank_free 6 (by decide), hnone, ?_⟩
  rintro ⟨res, hres, -⟩
  rw [hnone] at hres
  cases hres

end FsFileAppend
