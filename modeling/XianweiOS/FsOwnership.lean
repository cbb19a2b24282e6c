import XianweiOS.FsBlockMap

/-! Changing the blocks of one inode. A step is described by the blocks `r p` at the 141
places before and after it, so that it also covers the moments when the table in memory
is ahead of the one on disk. `Rewrites` says that a step stays inside the block bitmap,
its own blocks and blocks that were free; the steps the file system is made of (take a
block, give one back, write one) are composed by `Rewrites.trans`. -/
namespace FsOwnership

open ByteStore KernelBitmap DeviceIde FsVolume FsInodeTable FsBlockMap

variable {part : Partition}

/-- The blocks of one inode: no block twice, all of them marked in use. -/
structure Owns (v : Volume part) (r : ℕ → ℕ) : Prop where
  distinct : ∀ p < 141, ∀ q < 141, r p ≠ 0 → r p = r q → p = q
  held : ∀ p < 141, r p ≠ 0 → InUse v (r p)

theorem owns_lt {v : Volume part} {r : ℕ → ℕ} (h : Owns v r) {p : ℕ} (hp : p < 141) :
    r p < 2 ^ 32 := by
  by_cases hz : r p = 0
  · omega
  · obtain ⟨i, he, hi, -⟩ := h.held p hp hz
    have hb := part.bounds
    rw [v.block_len] at hi
    omega

/-- The sectors of blocks in use lie behind the bitmaps and the inode table. -/
theorem sector_inUse {v : Volume part} {x a : ℕ} (h : InUse v x) (ha : a ∈ sector x) :
    512 * part.sb.dataStartLba ≤ a := by
  have := h.data.1
  simp only [mem_sector] at ha
  omega

theorem not_mem_bitmapArea {a : ℕ} (h : 512 * part.sb.dataStartLba ≤ a) :
    a ∉ blockBitmapArea part := by
  have := part.bounds
  simp only [blockBitmapArea, mem_span]
  omega

theorem not_mem_slot {a n : ℕ} (h : 512 * part.sb.dataStartLba ≤ a) (hn : n < 4096) :
    a ∉ slot part n := by
  have := part.bounds
  simp only [slot, slotAddr, mem_span]
  omega

/-- Changes outside the blocks in use leave the map of an inode alone. -/
theorem Owns.ref_eq {v : Volume part} {i : Inode} (h : Owns v (ref v.disk i)) {S : Set ℕ}
    {d : Bytes} (hc : Changes S v.disk d) (hS : ∀ a ∈ S, a < 512 * part.sb.dataStartLba) {p : ℕ}
    (hp : p < 141) : ref d i p = ref v.disk i p := by
  refine ref_changes hc (fun hz a ha hm => ?_) hp
  rw [← ref_table v.disk i] at hz ha
  have := sector_inUse (h.held 140 (by omega) hz) ha
  have := hS a hm
  omega

theorem slot_below {n : ℕ} (hn : n < 4096) : ∀ a ∈ slot part n, a < 512 * part.sb.dataStartLba := by
  intro a ha
  by_contra hc
  exact not_mem_slot (by omega) hn ha

/-- The bytes a step on the blocks `r` may change. -/
def Touched (v : Volume part) (r : ℕ → ℕ) : Set ℕ :=
  {a | a ∈ blockBitmapArea part ∨
    ∃ x, a ∈ sector x ∧ (Free v x ∨ ∃ p < 141, r p = x ∧ x ≠ 0)}

/-- `tight` and `synced` hold when their conditions do: `T`, that the step drops no block
without clearing its bit, and `S`, that it writes back every sector of the bitmap it changed. -/
structure Rewrites (T S : Prop) (v : Volume part) (r : ℕ → ℕ) (v' : Volume part)
    (r' : ℕ → ℕ) : Prop where
  frame : Changes (Touched v r) v.disk v'.disk
  inodes : v'.inodeBitmap = v.inodeBitmap
  owns : Owns v' r'
  source : ∀ p < 141, r' p ≠ 0 → (∃ q < 141, r q = r' p) ∨ Free v (r' p)
  keep : ∀ x, InUse v x → (∀ p < 141, r p ≠ x) → InUse v' x
  tight : T → ∀ x, InUse v' x →
    (InUse v x ∧ ∀ p < 141, r p ≠ x) ∨ ∃ p < 141, r' p = x
  synced : S → BlockSynced v → BlockSynced v'

theorem Owns.congr {v : Volume part} {r r' : ℕ → ℕ} (h : Owns v r)
    (he : ∀ p < 141, r' p = r p) : Owns v r' := by
  refine ⟨fun p hp q hq hz heq => ?_, fun p hp hz => ?_⟩
  · rw [he p hp] at hz heq
    rw [he q hq] at heq
    exact h.distinct p hp q hq hz heq
  · rw [he p hp] at hz ⊢
    exact h.held p hp hz

theorem Owns.withDisk {v : Volume part} {r : ℕ → ℕ} (h : Owns v r) (d : Bytes) :
    Owns (v.withDisk d) r := ⟨h.distinct, h.held⟩

theorem touched_congr {v : Volume part} {r r' : ℕ → ℕ} (he : ∀ p < 141, r' p = r p) :
    Touched v r' = Touched v r := by
  ext a
  constructor
  · rintro (h | ⟨x, ha, h | ⟨p, hp, hx, hz⟩⟩)
    · exact Or.inl h
    · exact Or.inr ⟨x, ha, Or.inl h⟩
    · exact Or.inr ⟨x, ha, Or.inr ⟨p, hp, (he p hp).symm.trans hx, hz⟩⟩
  · rintro (h | ⟨x, ha, h | ⟨p, hp, hx, hz⟩⟩)
    · exact Or.inl h
    · exact Or.inr ⟨x, ha, Or.inl h⟩
    · exact Or.inr ⟨x, ha, Or.inr ⟨p, hp, (he p hp).trans hx, hz⟩⟩

/-- Only the 141 places matter. -/
theorem Rewrites.congr {T S : Prop} {v v' : Volume part} {r r' s s' : ℕ → ℕ}
    (h : Rewrites T S v r v' r') (he : ∀ p < 141, s p = r p) (he' : ∀ p < 141, s' p = r' p) :
    Rewrites T S v s v' s' where
  frame := by rw [touched_congr he]; exact h.frame
  inodes := h.inodes
  owns := h.owns.congr he'
  source := by
    intro p hp hz
    rw [he' p hp] at hz ⊢
    rcases h.source p hp hz with ⟨q, hq, hx⟩ | hf
    · exact Or.inl ⟨q, hq, (he q hq).trans hx⟩
    · exact Or.inr hf
  keep := fun x hx hn => h.keep x hx fun p hp => by rw [← he p hp]; exact hn p hp
  tight := by
    intro ht x hx
    rcases h.tight ht x hx with ⟨hu, hn⟩ | ⟨p, hp, hx⟩
    · exact Or.inl ⟨hu, fun p hp => by rw [he p hp]; exact hn p hp⟩
    · exact Or.inr ⟨p, hp, (he' p hp).trans hx⟩
  synced := h.synced

theorem Rewrites.refl {v : Volume part} {r : ℕ → ℕ} (h : Owns v r) :
    Rewrites True True v r v r where
  frame := Changes.refl _ _
  inodes := rfl
  owns := h
  source := fun p hp _ => Or.inl ⟨p, hp, rfl⟩
  keep := fun _ hx _ => hx
  tight := by
    intro _ x hx
    by_cases h : ∃ p < 141, r p = x
    · exact Or.inr h
    · push Not at h
      exact Or.inl ⟨hx, h⟩
  synced := fun _ hs => hs

theorem Rewrites.weaken {T S T' S' : Prop} {v v' : Volume part} {r r' : ℕ → ℕ}
    (h : Rewrites T S v r v' r') (hT : T' → T) (hS : S' → S) : Rewrites T' S' v r v' r' :=
  { h with tight := fun ht => h.tight (hT ht), synced := fun hs => h.synced (hS hs) }

/-- A block that is free after a step was free before it or belonged to the inode. -/
theorem Rewrites.free {T S : Prop} {v v' : Volume part} {r r' : ℕ → ℕ}
    (h : Rewrites T S v r v' r') {x : ℕ} (hf : Free v' x) :
    Free v x ∨ ∃ p < 141, r p = x := by
  by_contra hc
  push Not at hc
  obtain ⟨hnf, hnr⟩ := hc
  obtain ⟨i, rfl, hi, hb⟩ := hf
  have hi' : i < 8 * v.blockBitmap.btmpBytesLen := by
    rw [v.block_len]
    rw [v'.block_len] at hi
    exact hi
  have hused : InUse v (part.sb.dataStartLba + i) := by
    refine ⟨i, rfl, hi', ?_⟩
    by_contra hne
    exact hnf ⟨i, rfl, hi', by simpa using hne⟩
  exact Free.not_inUse ⟨i, rfl, hi, hb⟩ (h.keep _ hused hnr)

private theorem touched_mono {T S : Prop} {v v' : Volume part} {r r' : ℕ → ℕ}
    (h : Rewrites T S v r v' r') : Touched v' r' ⊆ Touched v r := by
  rintro a (ha | ⟨x, ha, hx | ⟨p, hp, rfl, hz⟩⟩)
  · exact Or.inl ha
  · rcases h.free hx with hf | ⟨q, hq, hr⟩
    · exact Or.inr ⟨x, ha, Or.inl hf⟩
    · have hz : x ≠ 0 := by
        have := hx.data
        omega
      exact Or.inr ⟨x, ha, Or.inr ⟨q, hq, hr, hz⟩⟩
  · rcases h.source p hp hz with ⟨q, hq, hr⟩ | hf
    · exact Or.inr ⟨_, ha, Or.inr ⟨q, hq, hr, hz⟩⟩
    · exact Or.inr ⟨_, ha, Or.inl hf⟩

theorem Rewrites.trans {T S T' S' : Prop} {v v' v'' : Volume part} {r r' r'' : ℕ → ℕ}
    (h : Rewrites T S v r v' r') (k : Rewrites T' S' v' r' v'' r'') :
    Rewrites (T ∧ T') (S ∧ S') v r v'' r'' where
  frame := h.frame.trans (k.frame.mono (touched_mono h))
  inodes := k.inodes.trans h.inodes
  owns := k.owns
  source := by
    intro p hp hz
    rcases k.source p hp hz with ⟨q, hq, hr⟩ | hf
    · rcases h.source q hq (by rw [hr]; exact hz) with ⟨q', hq', hr'⟩ | hf
      · exact Or.inl ⟨q', hq', hr'.trans hr⟩
      · exact Or.inr (hr ▸ hf)
    · rcases h.free hf with hf | ⟨q, hq, hr⟩
      · exact Or.inr hf
      · exact Or.inl ⟨q, hq, hr⟩
  keep := by
    intro x hx hn
    apply k.keep x (h.keep x hx hn)
    intro p hp hrp
    have hz : r' p ≠ 0 := by
      have := hx.data
      omega
    rcases h.source p hp hz with ⟨q, hq, hr⟩ | hf
    · exact hn q hq (hr.trans hrp)
    · exact Free.not_inUse (hrp ▸ hf) hx
  tight := by
    rintro ⟨ht, ht'⟩ x hx
    rcases k.tight ht' x hx with ⟨hu, hn⟩ | hr
    · rcases h.tight ht x hu with hl | ⟨p, hp, hr⟩
      · exact Or.inl hl
      · exact absurd hr (hn p hp)
    · exact Or.inr hr
  synced := fun hs hb => k.synced hs.2 (h.synced hs.1 hb)

/-- The bytes of the inode's own blocks and of free ones. -/
def Writable (v : Volume part) (r : ℕ → ℕ) : Set ℕ :=
  {a | ∃ x, a ∈ sector x ∧ (Free v x ∨ ∃ p < 141, r p = x ∧ x ≠ 0)}

theorem writable_data {v : Volume part} {r : ℕ → ℕ} (h : Owns v r) {a : ℕ}
    (ha : a ∈ Writable v r) : 512 * part.sb.dataStartLba ≤ a := by
  obtain ⟨x, ha, hx⟩ := ha
  have hdata : part.sb.dataStartLba ≤ x := by
    rcases hx with hf | ⟨p, hp, rfl, hz⟩
    · exact hf.data.1
    · exact (h.held p hp hz).data.1
  simp only [mem_sector] at ha
  omega

/-- Writing inside the blocks of the inode, or inside free ones, keeps the map. -/
theorem rewrites_write {v : Volume part} {r : ℕ → ℕ} (h : Owns v r) {d : Bytes}
    (hc : Changes (Writable v r) v.disk d) : Rewrites True True v r (v.withDisk d) r where
  frame := hc.mono fun _ ha => Or.inr ha
  inodes := rfl
  owns := h.withDisk d
  source := fun p hp _ => Or.inl ⟨p, hp, rfl⟩
  keep := fun _ hu _ => hu
  tight := fun _ => (Rewrites.refl h).tight trivial
  synced := by
    intro _ hs k hk
    have hb := part.bounds
    refine (hc _ fun ha => ?_).trans (hs k hk)
    have := writable_data h ha
    omega

/-- The sector of the bitmap that holds bit `i`. -/
def bitSector (part : Partition) (i : ℕ) : ℕ := part.sb.blockBitmapLba + i / 4096

/-- Only sector `s` of the block bitmap may differ between disk and memory. -/
def SyncedOutside (v : Volume part) (s : ℕ) : Prop :=
  ∀ k < 512 * part.sb.blockBitmapSects, k / 512 ≠ s →
    v.disk (512 * part.sb.blockBitmapLba + k) = v.blockBitmap.bits k

theorem blockSynced_outside {v : Volume part} (h : BlockSynced v) (s : ℕ) : SyncedOutside v s :=
  fun k hk _ => h k hk

/-- Setting a bit without writing it back leaves its own sector behind. -/
theorem syncedOutside_set {v : Volume part} (hs : BlockSynced v) (i : ℕ) (b : Bool) :
    SyncedOutside (v.setBlockBit i b) (i / 4096) := by
  intro k hk hne
  simp only [setBlockBit_disk, setBlockBit_block]
  rw [bitmapSet_bits_ne (by omega)]
  exact hs k hk

/-- Writing back the sector of bit `i` catches up with all of that sector. -/
theorem blockSynced_set {v : Volume part} {i : ℕ} {b : Bool} (hs : SyncedOutside v (i / 4096)) :
    BlockSynced ((v.setBlockBit i b).withDisk (patch v.disk (512 * bitSector part i) 512
      (window (bitmapSet v.blockBitmap i b).bits (i / 4096 * 512)))) := by
  intro k hk
  simp only [withDisk_disk, withDisk_block, setBlockBit_block, bitSector]
  by_cases hin : 512 * (part.sb.blockBitmapLba + i / 4096) ≤ 512 * part.sb.blockBitmapLba + k ∧
      512 * part.sb.blockBitmapLba + k < 512 * (part.sb.blockBitmapLba + i / 4096) + 512
  · rw [patch_in hin]
    simp only [window]
    congr 1
    omega
  · rw [patch_out hin, bitmapSet_bits_ne (by omega)]
    exact hs k hk (by omega)

theorem changes_bitSector {v : Volume part} {i : ℕ} {m : Bytes}
    (hi : i < 8 * v.blockBitmap.btmpBytesLen) :
    Changes (blockBitmapArea part) v.disk (patch v.disk (512 * bitSector part i) 512 m) := by
  rw [v.block_len] at hi
  apply (changes_patch _ _ _ _).mono
  intro a ha
  simp only [bitSector, blockBitmapArea, mem_span] at *
  omega

/-- Taking a free block for an empty place, before its bit is written back. -/
theorem rewrites_take {v : Volume part} {r : ℕ → ℕ} (h : Owns v r) {i p : ℕ}
    (hi : i < 8 * v.blockBitmap.btmpBytesLen) (hc : v.blockBit i = false) (hp : p < 141)
    (hz : r p = 0) :
    Rewrites True False v r (v.setBlockBit i true)
      (Function.update r p (part.sb.dataStartLba + i)) := by
  have hfree : Free v (part.sb.dataStartLba + i) := ⟨i, rfl, hi, hc⟩
  have hnew : ∀ q < 141, r q ≠ part.sb.dataStartLba + i := by
    intro q hq he
    have hx := hfree.data
    exact hfree.not_inUse (he ▸ h.held q hq (by omega))
  refine ⟨Changes.refl _ _, rfl, ⟨?_, ?_⟩, ?_, ?_, ?_, fun hf => hf.elim⟩
  · intro q hq q' hq' hne heq
    by_cases hqp : q = p
    · subst q
      by_cases hq'p : q' = p
      · exact hq'p.symm
      · rw [Function.update_self, Function.update_of_ne hq'p] at heq
        exact absurd heq.symm (hnew q' hq')
    · rw [Function.update_of_ne hqp] at hne heq
      by_cases hq'p : q' = p
      · subst q'
        rw [Function.update_self] at heq
        exact absurd heq (hnew q hq)
      · rw [Function.update_of_ne hq'p] at heq
        exact h.distinct q hq q' hq' hne heq
  · intro q hq hne
    rw [inUse_setBlockBit hi]
    by_cases hqp : q = p
    · subst q
      rw [Function.update_self, if_pos rfl]
    · rw [Function.update_of_ne hqp] at hne ⊢
      rw [if_neg (hnew q hq)]
      exact h.held q hq hne
  · intro q hq hne
    by_cases hqp : q = p
    · subst q
      rw [Function.update_self]
      exact Or.inr hfree
    · rw [Function.update_of_ne hqp]
      exact Or.inl ⟨q, hq, rfl⟩
  · intro x hx hn
    rw [inUse_setBlockBit hi]
    split
    · rfl
    · exact hx
  · intro _ x hx
    rw [inUse_setBlockBit hi] at hx
    split at hx
    · rename_i hxe
      exact Or.inr ⟨p, hp, by rw [Function.update_self, hxe]⟩
    · by_cases he : ∃ q < 141, r q = x
      · obtain ⟨q, hq, rfl⟩ := he
        have hqp : q ≠ p := by
          rintro rfl
          have := hx.data
          omega
        exact Or.inr ⟨q, hq, Function.update_of_ne hqp _ _⟩
      · push Not at he
        exact Or.inl ⟨hx, he⟩

/-- Writing back the sector of bit `i` changes no block and no bit. -/
theorem rewrites_sync {v : Volume part} {r : ℕ → ℕ} (h : Owns v r) {i : ℕ}
    (hi : i < 8 * v.blockBitmap.btmpBytesLen) (src : Bytes) :
    Rewrites True False v r (v.withDisk (patch v.disk (512 * bitSector part i) 512 src)) r :=
  ⟨(changes_bitSector hi).mono fun _ ha => Or.inl ha, rfl, h.withDisk _,
    fun p hp _ => Or.inl ⟨p, hp, rfl⟩,
    fun _ hu _ => hu, (Rewrites.refl h).tight, fun hf => hf.elim⟩

/-- Taking a free block for an empty place and writing its bit back. -/
theorem rewrites_take_sync {v : Volume part} {r : ℕ → ℕ} (h : Owns v r) {i p : ℕ}
    (hi : i < 8 * v.blockBitmap.btmpBytesLen) (hc : v.blockBit i = false) (hp : p < 141)
    (hz : r p = 0) :
    Rewrites True True v r
      ((v.setBlockBit i true).withDisk (patch v.disk (512 * bitSector part i) 512
        (window (bitmapSet v.blockBitmap i true).bits (i / 4096 * 512))))
      (Function.update r p (part.sb.dataStartLba + i)) := by
  have htake := rewrites_take h hi hc hp hz
  have hsync := rewrites_sync htake.owns (i := i) hi
    (window (bitmapSet v.blockBitmap i true).bits (i / 4096 * 512))
  have hboth := htake.trans hsync
  exact { hboth with
    tight := fun _ => hboth.tight ⟨trivial, trivial⟩
    synced := fun _ hs => blockSynced_set (blockSynced_outside hs _) }

/-- Forgetting the block of a place without clearing its bit. -/
theorem rewrites_forget {v : Volume part} {r : ℕ → ℕ} (h : Owns v r) (p : ℕ) :
    Rewrites (r p = 0) True v r v (Function.update r p 0) where
  frame := Changes.refl _ _
  inodes := rfl
  owns := by
    have hne : ∀ q, Function.update r p 0 q ≠ 0 → q ≠ p := by
      rintro q hq rfl
      exact hq (Function.update_self _ _ _)
    refine ⟨fun q hq q' hq' hz he => ?_, fun q hq hz => ?_⟩
    · have hqp := hne q hz
      have hqp' := hne q' (by rwa [← he])
      rw [Function.update_of_ne hqp] at hz he
      rw [Function.update_of_ne hqp'] at he
      exact h.distinct q hq q' hq' hz he
    · have hqp := hne q hz
      rw [Function.update_of_ne hqp] at hz ⊢
      exact h.held q hq hz
  source := by
    intro q hq hz
    by_cases hqp : q = p
    · subst q
      exact absurd (Function.update_self _ _ _) hz
    · exact Or.inl ⟨q, hq, (Function.update_of_ne hqp _ _).symm⟩
  keep := fun _ hx _ => hx
  tight := by
    intro hz
    rw [← hz, Function.update_eq_self]
    exact (Rewrites.refl h).tight trivial
  synced := fun _ hs => hs

/-- Giving back the block of a place and writing its bit back. -/
theorem rewrites_give {v : Volume part} {r : ℕ → ℕ} (h : Owns v r) {i p : ℕ}
    (hp : p < 141) (hx : r p = part.sb.dataStartLba + i) :
    Rewrites True True v r
      ((v.setBlockBit i false).withDisk (patch v.disk (512 * bitSector part i) 512
        (window (bitmapSet v.blockBitmap i false).bits (i / 4096 * 512))))
      (Function.update r p 0) := by
  have hb := part.bounds
  have hz : r p ≠ 0 := by omega
  have hi : i < 8 * v.blockBitmap.btmpBytesLen := by
    obtain ⟨j, hj, hj', -⟩ := h.held p hp hz
    obtain rfl : i = j := by omega
    exact hj'
  have hother : ∀ q < 141, q ≠ p → r q ≠ part.sb.dataStartLba + i := by
    intro q hq hqp he
    exact hqp (h.distinct p hp q hq hz (hx.trans he.symm)).symm
  refine ⟨(changes_bitSector (v := v) hi).mono fun _ ha => Or.inl ha, rfl, ⟨?_, ?_⟩, ?_, ?_, ?_,
    fun _ hs => blockSynced_set (blockSynced_outside hs _)⟩
  · intro q hq q' hq' hne heq
    by_cases hqp : q = p
    · subst q
      rw [Function.update_self] at hne
      exact absurd rfl hne
    · rw [Function.update_of_ne hqp] at hne heq
      by_cases hq'p : q' = p
      · subst q'
        rw [Function.update_self] at heq
        exact absurd heq hne
      · rw [Function.update_of_ne hq'p] at heq
        exact h.distinct q hq q' hq' hne heq
  · intro q hq hne
    by_cases hqp : q = p
    · subst q
      rw [Function.update_self] at hne
      exact absurd rfl hne
    · rw [Function.update_of_ne hqp] at hne ⊢
      rw [inUse_withDisk, inUse_setBlockBit hi, if_neg (hother q hq hqp)]
      exact h.held q hq hne
  · intro q hq hne
    by_cases hqp : q = p
    · subst q
      rw [Function.update_self] at hne
      exact absurd rfl hne
    · rw [Function.update_of_ne hqp]
      exact Or.inl ⟨q, hq, rfl⟩
  · intro x hu hn
    rw [inUse_withDisk, inUse_setBlockBit hi, if_neg (fun he => hn p hp (hx.trans he.symm))]
    exact hu
  · intro _ x hu
    rw [inUse_withDisk, inUse_setBlockBit hi] at hu
    split at hu
    · cases hu
    · rename_i hxe
      by_cases he : ∃ q < 141, r q = x
      · obtain ⟨q, hq, rfl⟩ := he
        have hqp : q ≠ p := by
          rintro rfl
          exact hxe hx
        exact Or.inr ⟨q, hq, Function.update_of_ne hqp _ _⟩
      · push Not at he
        exact Or.inl ⟨hu, he⟩

/-- The blocks of two inodes do not meet. -/
def Apart (r s : ℕ → ℕ) : Prop := ∀ p < 141, ∀ q < 141, r p = s q → r p = 0

/-- A step on the blocks `s` writes none of the blocks `r`. -/
theorem rewrites_quiet {T S : Prop} {v v' : Volume part} {s s' r : ℕ → ℕ}
    (h : Rewrites T S v s v' s') (ho : Owns v r) (ha : Apart r s) {p : ℕ} (hp : p < 141)
    (hz : r p ≠ 0) : ∀ a ∈ sector (r p), v'.disk a = v.disk a := by
  intro a hin
  have hu := ho.held p hp hz
  refine h.frame a ?_
  rintro (hb | ⟨x, hx, hc⟩)
  · exact not_mem_bitmapArea (sector_inUse hu hin) hb
  · have he : x = r p := by
      simp only [mem_sector] at hin hx
      omega
    subst x
    rcases hc with hf | ⟨q, hq, he, -⟩
    · exact hf.not_inUse hu
    · exact hz (ha p hp q hq he.symm)

/-- The index computed back from an allocated sector is its bit. -/
theorem blockBitmapIdx_alloc {v : Volume part} {i : ℕ} (hi : i < 8 * v.blockBitmap.btmpBytesLen) :
    blockBitmapIdx part (part.sb.dataStartLba + i) = i := by
  have hb := part.bounds
  rw [v.block_len] at hi
  exact blockBitmapIdx_add part (by omega)

/-- An allocation that returns has found a block; with its bit written back, the block can
stand at any empty place. -/
theorem take_some {v v1 : Volume part} {x : Option ℕ} (hal : blockBitmapAlloc v = some (x, v1)) :
    ∃ y, x = some y ∧ y ≠ 0 ∧ ∀ {v2}, bitmapSync v1 (blockBitmapIdx part y) .blockBitmap = some v2 →
      Changes (blockBitmapArea part) v.disk v2.disk ∧
      ∀ {r : ℕ → ℕ} {p : ℕ}, Owns v r → p < 141 → r p = 0 →
        Rewrites True True v r v2 (Function.update r p y) := by
  obtain ⟨i, rfl, rfl, hlow⟩ := blockBitmapAlloc_some hal
  have hb := part.bounds
  have hi : i < 8 * v.blockBitmap.btmpBytesLen := hlow.1
  refine ⟨_, rfl, by omega, fun hsync => ?_⟩
  rw [blockBitmapIdx_alloc hi] at hsync
  obtain rfl := bitmapSync_block_some hsync
  exact ⟨changes_bitSector hi, fun ho hp hz => rewrites_take_sync ho hi hlow.2.1 hp hz⟩

end FsOwnership
