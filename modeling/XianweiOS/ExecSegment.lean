import XianweiOS.FsReadMemory
import XianweiOS.HeapSafety

/-! `segment_load` of `userprog/exec.c` for a process `p` and a regular file. -/
namespace ExecSegment

open ByteStore HaltingProgram KernelBitmap MemoryPages FsVolume FsInodeTable FsBlockMap FsFileWrite
  FsFileAppend FsFileRead FsProcesses MemoryHeap HeapInvariant HeapLoan ForkRoom FrameExclusive
  FsReadMemory

/-- The present bits that `pde_ptr` and `pte_ptr` lead to. -/
def pagePresent (m : Memory) (p v : ℕ) : Bool :=
  let sp := m.space (home (some p) v)
  sp.tablePresent (v / 1024) && sp.ptePresent v

section Functions

variable (mc : Machine) (inside : Inside) (p : ℕ) (disk : Bytes) (inode : Inode)

/-- A bit outside the bitmap would be set in what lies behind it. It is the page of `vaddr` that
is mapped, and `vaddr` that is returned: not `NULL`. -/
def getAPage (m : Memory) (vaddr : ℕ) : Option Memory := do
  assert (vaddrStart (some p) ≤ vaddr / pgSize ∧ vaddr / pgSize < 0xc0000)
  MemoryPages.getAPage mc m (some p) (vaddr / pgSize)

/-- A page that is missing. What is asked for is `vaddr`, whichever page it is. -/
def mapPage (vaddr vaddrPage : ℕ) (m : Memory) : Option Memory :=
  if pagePresent m p vaddrPage then some m else getAPage mc p m vaddr

def mapSegment (vaddr : ℕ) : (left vaddrPage : ℕ) → Memory → Option Memory
  | 0, _, m => some m
  | left + 1, vaddrPage, m => do
    let m ← mapPage mc p vaddr vaddrPage m
    mapSegment vaddr left ((vaddrPage + 1) % 2 ^ 20) m

def occupyPages (vaddr filesz : ℕ) : ℕ :=
  let sizeInFirstPage := pgSize - vaddr % pgSize
  if filesz > sizeInFirstPage then
    (filesz - sizeInFirstPage + pgSize - 1) % 2 ^ 32 / pgSize + 1
  else 1

/-- `sys_lseek` with `SEEK_SET`; a position behind the last byte is refused. -/
def seekSet (fdPos offset : ℕ) : ℕ :=
  if seekable fdPos inode.iSize offset .seekSet then
    (seekTarget fdPos inode.iSize offset .seekSet).toNat
  else fdPos

/-- `sys_read` from a regular file; `none` is a buffer on the stack of the kernel. -/
def sysRead (dst : Option ℕ) (count : ℕ) (s : Image) : Option (ReadResult × Image) := do
  assert (dst ≠ some 0)
  fileReadHeap mc inside p disk inode dst count s

/-- The process with the pages `m`, whose file stands at `pos`. -/
def remap (s : Image) (m : Memory) (pos : ℕ) : Image := ⟨s.heap.setMemory m, s.phys, pos⟩

/-- What the seek and the read return is not looked at. -/
def segmentLoad (offset filesz vaddr : ℕ) (s : Image) : Option (Bool × Image) := do
  let m ← mapSegment mc p vaddr (occupyPages vaddr filesz) (vaddr / pgSize) s.memory
  let (_, s) ← sysRead mc inside p disk inode (some vaddr) filesz
    (remap s m (seekSet inode s.fdPos offset))
  return (true, s)

end Functions

section Pages

variable {mc : Machine} {p : ℕ} {m m' : Memory} {vaddr v n : ℕ}

theorem pagePresent_iff (hv : v < 0xc0000) :
    pagePresent m p v = true ↔ ∃ f, m.frameAt (some p) v = some f := by
  have hlow : decide (0xc0000 ≤ v ∧ v < 0xc0100) = false := decide_eq_false (by omega)
  simp only [pagePresent, home_user hv, Space.ptePresent, hlow, Bool.false_or, Bool.and_eq_true]
  constructor
  · intro h
    exact ⟨_, if_pos h⟩
  · rintro ⟨f, hf⟩
    by_contra h
    rw [Memory.frameAt, if_neg h] at hf
    cases hf

theorem pagePresent_false (hv : v < 0xc0000) :
    pagePresent m p v = false ↔ m.frameAt (some p) v = none := by
  rw [← Bool.not_eq_true, pagePresent_iff hv]
  cases m.frameAt (some p) v <;> simp

/-- The page of `vaddr` gets a frame, and no other mapping changes. -/
theorem getAPage_frameAt (h : getAPage mc p m vaddr = some m') :
    vaddrStart (some p) ≤ vaddr / pgSize ∧ vaddr / pgSize < 0xc0000 ∧
      m.frameAt (some p) (vaddr / pgSize) = none ∧ ∃ f, ∀ c w,
        m'.frameAt c w = if c = some p ∧ w = vaddr / pgSize then some f else m.frameAt c w := by
  rw [getAPage, assert_bind] at h
  obtain ⟨⟨hstart, hlt⟩, hg⟩ := h
  obtain ⟨m₁, f, hp, ha⟩ := getAPage_cases hg
  obtain ⟨hnone, hframe⟩ := pageTableAdd_frameAt ha
  rw [home_user hlt] at hnone hframe
  have hbefore : ∀ c w, m₁.frameAt c w = m.frameAt c w := by
    intro c w
    rw [palloc_frameAt hp, setVaddr_frameAt]
  refine ⟨hstart, hlt, (hbefore _ _).symm.trans hnone, f, fun c w => ?_⟩
  rw [hframe c w, hbefore c w]

/-- With a free frame in both pools the page of `vaddr` is mapped. -/
theorem getAPage_exists (hstart : vaddrStart (some p) ≤ vaddr / pgSize)
    (hlt : vaddr / pgSize < 0xc0000) (hnone : m.frameAt (some p) (vaddr / pgSize) = none)
    (huser : 0 < freeFrames mc m .user) (hkernel : 0 < freeFrames mc m .kernel) :
    ∃ m', getAPage mc p m vaddr = some m' := by
  set m₀ := m.setVaddr (some p)
    (bitmapSet (vaddrBitmap mc m (some p)) (vaddr / pgSize - vaddrStart (some p)) true).bits with hm₀
  have hfree : ∀ pf, freeFrames mc m₀ pf = freeFrames mc m pf := fun pf => freeFrames_congr rfl
  obtain ⟨m₁, f, hp⟩ := palloc_exists (m := m₀) .user (by rw [hfree]; exact huser)
  obtain ⟨-, hother⟩ := palloc_freeFrames hp
  obtain ⟨m', ha⟩ := pageTableAdd_exists (c := some p) f (.inl hlt)
    (by rw [palloc_frameAt hp, setVaddr_frameAt, hnone])
    (fun _ => by rw [hother .kernel (by simp), hfree]; exact hkernel)
  refine ⟨m', ?_⟩
  rw [getAPage, assert_bind]
  refine ⟨⟨hstart, hlt⟩, ?_⟩
  simp only [MemoryPages.getAPage, bind_some_iff, assert_eq_some]
  exact ⟨(), .inl rfl, (m₁, some f), hp, ha⟩

theorem mapSegment_succ {left : ℕ}
    (h : mapSegment mc p vaddr (left + 1) v m = some m') :
    ∃ m₁, mapPage mc p vaddr v m = some m₁ ∧
      mapSegment mc p vaddr left ((v + 1) % 2 ^ 20) m₁ = some m' := bind_some_iff.mp h

/-- What one `get_a_page` keeps, the loop keeps. -/
theorem mapSegment_invariant (Inv : Memory → Prop)
    (hstep : ∀ m m', Inv m → getAPage mc p m vaddr = some m' → Inv m') {left : ℕ}
    (h : mapSegment mc p vaddr left v m = some m') (hm : Inv m) : Inv m' := by
  induction left generalizing v m with
  | zero => exact Option.some.inj h ▸ hm
  | succ left ih =>
    obtain ⟨m₁, hpage, hrest⟩ := mapSegment_succ h
    apply ih hrest
    unfold mapPage at hpage
    split at hpage
    · exact Option.some.inj hpage ▸ hm
    · exact hstep m m₁ hm hpage

/-- Once the page of `vaddr` is mapped, every page that is missing stops the loop. -/
theorem mapSegment_mapped {left : ℕ} (hlt : vaddr / pgSize < 0xc0000)
    (hfirst : pagePresent m p (vaddr / pgSize) = true) (hv : v + left ≤ 0xc0000) :
    mapSegment mc p vaddr left v m = some m' ↔
      m' = m ∧ ∀ w, v ≤ w → w < v + left → pagePresent m p w = true := by
  induction left generalizing v with
  | zero =>
    constructor
    · intro h
      exact ⟨(Option.some.inj h).symm, fun w h₁ h₂ => absurd h₂ (by omega)⟩
    · rintro ⟨rfl, -⟩
      rfl
  | succ left ih =>
    have hmod : (v + 1) % 2 ^ 20 = v + 1 := Nat.mod_eq_of_lt (by omega)
    constructor
    · intro h
      obtain ⟨m₁, hpage, hrest⟩ := mapSegment_succ h
      unfold mapPage at hpage
      split at hpage
      · rename_i hpres
        obtain rfl := Option.some.inj hpage
        rw [hmod, ih (by omega)] at hrest
        refine ⟨hrest.1, fun w h₁ h₂ => ?_⟩
        rcases Nat.eq_or_lt_of_le h₁ with rfl | hlt
        · exact hpres
        · exact hrest.2 w hlt (by omega)
      · -- the page of `vaddr` would be mapped a second time
        obtain ⟨-, -, hnone, -⟩ := getAPage_frameAt hpage
        obtain ⟨f, hf⟩ := (pagePresent_iff hlt).mp hfirst
        rw [hnone] at hf
        cases hf
    · rintro ⟨rfl, hall⟩
      rw [mapSegment, mapPage, if_pos (hall v le_rfl (by omega)), Option.bind_eq_bind, Option.bind_some,
        hmod, ih (by omega)]
      exact ⟨rfl, fun w h₁ h₂ => hall w (by omega) (by omega)⟩

/-- The loop gets to its end exactly if at most the first page is missing. -/
theorem mapSegment_iff {left : ℕ} (hlt : vaddr / pgSize + (left + 1) ≤ 0xc0000) :
    mapSegment mc p vaddr (left + 1) (vaddr / pgSize) m = some m' ↔
      ((pagePresent m p (vaddr / pgSize) = true ∧ m' = m) ∨ getAPage mc p m vaddr = some m') ∧
      ∀ w, vaddr / pgSize < w → w < vaddr / pgSize + (left + 1) → pagePresent m p w = true := by
  have hmod : (vaddr / pgSize + 1) % 2 ^ 20 = vaddr / pgSize + 1 := Nat.mod_eq_of_lt (by omega)
  have hrest : ∀ m₁, pagePresent m₁ p (vaddr / pgSize) = true →
      (∀ w, vaddr / pgSize < w → w < 0xc0000 → pagePresent m₁ p w = pagePresent m p w) →
      (mapSegment mc p vaddr left (vaddr / pgSize + 1) m₁ = some m' ↔ m' = m₁ ∧
        ∀ w, vaddr / pgSize < w → w < vaddr / pgSize + (left + 1) →
          pagePresent m p w = true) := by
    intro m₁ hfirst hsame
    rw [mapSegment_mapped (by omega) hfirst (by omega)]
    refine and_congr_right fun _ => ⟨fun h w h₁ h₂ => ?_, fun h w h₁ h₂ => ?_⟩
    · rw [← hsame w h₁ (by omega)]
      exact h w h₁ (by omega)
    · rw [hsame w h₁ (by omega)]
      exact h w h₁ (by omega)
  by_cases hfirst : pagePresent m p (vaddr / pgSize) = true
  · have hnone : ¬ getAPage mc p m vaddr = some m' := by
      intro hg
      obtain ⟨f, hf⟩ := (pagePresent_iff (by omega)).mp hfirst
      obtain ⟨-, -, hnone, -⟩ := getAPage_frameAt hg
      rw [hnone] at hf
      cases hf
    rw [mapSegment, mapPage, if_pos hfirst, Option.bind_eq_bind, Option.bind_some, hmod,
      hrest m hfirst fun _ _ _ => rfl]
    simp only [hfirst, hnone, or_false, true_and]
  · simp only [hfirst, Bool.false_eq_true, false_and, false_or]
    have hstep : ∀ m₁, getAPage mc p m vaddr = some m₁ →
        (mapSegment mc p vaddr left (vaddr / pgSize + 1) m₁ = some m' ↔ m' = m₁ ∧
          ∀ w, vaddr / pgSize < w → w < vaddr / pgSize + (left + 1) →
            pagePresent m p w = true) := by
      intro m₁ hg
      obtain ⟨-, -, -, f, hframe⟩ := getAPage_frameAt hg
      apply hrest m₁
      · rw [pagePresent_iff (by omega)]
        exact ⟨f, by rw [hframe, if_pos ⟨rfl, rfl⟩]⟩
      · intro w h₁ h₂
        rw [Bool.eq_iff_iff, pagePresent_iff h₂, pagePresent_iff h₂, hframe, if_neg (by omega)]
    rw [mapSegment, mapPage, if_neg hfirst, bind_some_iff]
    constructor
    · rintro ⟨m₁, hg, h⟩
      rw [hmod, hstep m₁ hg] at h
      exact ⟨h.1 ▸ hg, h.2⟩
    · rintro ⟨hg, hall⟩
      refine ⟨m', hg, ?_⟩
      rw [hmod, hstep m' hg]
      exact ⟨rfl, hall⟩

/-- The page of `vaddr` is taken, and no other address. -/
theorem getAPage_reserved {w : ℕ} (h : getAPage mc p m vaddr = some m')
    (hw : vaddrStart (some p) ≤ w) :
    Reserved mc m' (some p) w ↔ w = vaddr / pgSize ∨ Reserved mc m (some p) w := by
  obtain ⟨hstart, -⟩ := getAPage_frameAt h
  rw [getAPage, assert_bind] at h
  have hbits : vaddrBitmap mc m' (some p) =
      bitmapSet (vaddrBitmap mc m (some p)) (vaddr / pgSize - vaddrStart (some p)) true := by
    rw [vaddrBitmap, getAPage_vaddr h.2, if_pos rfl]
    rfl
  rw [Reserved, hbits, bitmapScanTest_set, Reserved]
  split
  · rename_i heq
    exact iff_of_true rfl (.inl (by omega))
  · rename_i hne
    rw [or_iff_right (by omega)]

theorem getAPage_keeps {d : Ctx} {w f : ℕ} (h : getAPage mc p m vaddr = some m')
    (hf : m.frameAt d w = some f) : m'.frameAt d w = some f := by
  obtain ⟨-, -, hnone, g, hframe⟩ := getAPage_frameAt h
  rw [hframe, if_neg, hf]
  rintro ⟨rfl, rfl⟩
  rw [hnone] at hf
  cases hf

theorem getAPage_exclusive (he : Exclusive mc m (· = p)) (h : getAPage mc p m vaddr = some m') :
    Exclusive mc m' (· = p) := by
  rw [getAPage, assert_bind] at h
  exact he.getAPage h.2

theorem getAPage_spare (hs : Spare mc m p (n + 1)) (h : getAPage mc p m vaddr = some m') :
    Spare mc m' p n := by
  obtain ⟨hstart, hlt, -, g, hframe⟩ := getAPage_frameAt h
  refine hs.takes (v := vaddr / pgSize) (fun pf => ?_) (fun w hw _ => getAPage_reserved h hw)
    fun w hne => ?_
  · rw [getAPage, assert_bind] at h
    obtain ⟨m₁, f, hp, ha⟩ := getAPage_cases h.2
    exact mapOne_freeFrames hlt hp ha pf
  · rw [hframe, if_neg fun hh => hne hh.2]

/-- A heap does not notice pages that are mapped elsewhere. -/
theorem sound_getAPage {h : Heap} {kind : Layout} {live : Live}
    (hs : Sound mc (some p) h kind live) (hg : getAPage mc p h.memory vaddr = some m') :
    Sound mc (some p) (h.setMemory m') kind live := by
  obtain ⟨⟨hp, hsmall, hlarge, hinh, hblock, hfree, hnodup, hplaced⟩, hbusy⟩ := hs
  refine ⟨⟨⟨hp.pos, hp.start, hp.own, hp.apart, fun v hv => ?_⟩, hsmall, hlarge, hinh, hblock,
    hfree, hnodup, hplaced⟩, hbusy⟩
  obtain ⟨hres, f, hf⟩ := hp.held v hv
  exact ⟨(getAPage_reserved hg (held_start hp hv)).mpr (.inr hres), f, getAPage_keeps hg hf⟩

/-- The pages that the loop has gone through are present. -/
theorem mapSegment_present {left : ℕ} (hlt : vaddr / pgSize < 0xc0000)
    (hfirst : pagePresent m p (vaddr / pgSize) = true ∨ v = vaddr / pgSize)
    (h : mapSegment mc p vaddr left v m = some m') :
    ∀ w, v ≤ w → w < v + left → w < 0xc0000 → ∃ f, m'.frameAt (some p) w = some f := by
  induction left generalizing v m with
  | zero =>
    intro w h₁ h₂
    omega
  | succ left ih =>
    intro w h₁ h₂ hw
    have hv : v < 0xc0000 := by omega
    have hmod : (v + 1) % 2 ^ 20 = v + 1 := Nat.mod_eq_of_lt (by omega)
    obtain ⟨m₁, hpage, hrest⟩ := mapSegment_succ h
    rw [hmod] at hrest
    have hboth : pagePresent m₁ p v = true ∧ pagePresent m₁ p (vaddr / pgSize) = true := by
      unfold mapPage at hpage
      split at hpage
      · rename_i hpres
        obtain rfl := Option.some.inj hpage
        rcases hfirst with hfirst | rfl
        · exact ⟨hpres, hfirst⟩
        · exact ⟨hpres, hpres⟩
      · -- only the page of `vaddr` can be mapped
        obtain ⟨-, -, hnone, f, hframe⟩ := getAPage_frameAt hpage
        rcases hfirst with hfirst | rfl
        · obtain ⟨g, hg⟩ := (pagePresent_iff hlt).mp hfirst
          rw [hnone] at hg
          cases hg
        · have hnew : pagePresent m₁ p (vaddr / pgSize) = true :=
            (pagePresent_iff hlt).mpr ⟨f, by rw [hframe, if_pos ⟨rfl, rfl⟩]⟩
          exact ⟨hnew, hnew⟩
    rcases Nat.eq_or_lt_of_le h₁ with rfl | hlt'
    · obtain ⟨f, hf⟩ := (pagePresent_iff hv).mp hboth.1
      exact ⟨f, mapSegment_invariant (fun m => m.frameAt (some p) v = some f)
        (fun _ _ hm hg => getAPage_keeps hg hm) hrest hf⟩
    · exact ih (.inl hboth.2) hrest w hlt' (by omega) hw

/-- The pages that the loop goes through are those of the segment. -/
theorem occupyPages_iff {filesz : ℕ} (hlt : vaddr < 0xc0000000)
    (hend : vaddr + filesz ≤ 0xc0000000) :
    ∃ left, occupyPages vaddr filesz = left + 1 ∧ vaddr / pgSize + (left + 1) ≤ 0xc0000 ∧
      ∀ w, vaddr / pgSize < w →
        (w < vaddr / pgSize + (left + 1) ↔ pgSize * w < vaddr + filesz) := by
  unfold occupyPages pgSize
  simp only
  split
  · refine ⟨_, rfl, ?_, fun w hw => ?_⟩
    · omega
    · omega
  · exact ⟨0, rfl, by omega, fun w hw => by omega⟩

end Pages

section Segment

variable {mc : Machine} {p : ℕ} {part : Partition} {v : Volume part} {ino : Inode} {c : List Byte}
  {offset filesz vaddr : ℕ} {s s' : Image} {inside : Inside} {kind : Layout} {live : Live}

theorem seekSet_eq (hsize : ino.iSize < 2 ^ 31) (hoffset : offset < 2 ^ 32) (pos : ℕ) :
    seekSet ino pos offset = if offset < ino.iSize then offset else pos := by
  have hs := FsFilePosition.int32_range ino.iSize
  have hl := FsFilePosition.int32_range (int32 ino.iSize - 1)
  have ho := FsFilePosition.int32_range offset
  have htarget : seekTarget pos ino.iSize offset .seekSet = int32 offset := rfl
  unfold seekSet
  rw [htarget]
  by_cases hlt : offset < ino.iSize
  · have hseek : seekable pos ino.iSize offset .seekSet = true := by
      rw [seekable, htarget, decide_eq_true_eq]
      omega
    rw [if_pos hseek, if_pos hlt]
    omega
  · have hseek : ¬ seekable pos ino.iSize offset .seekSet = true := by
      rw [seekable, htarget, decide_eq_true_eq]
      omega
    rw [if_neg hseek, if_neg hlt]

theorem seekSet_inside {pos : ℕ} (hr : Readable v ino c) (hoffset : offset < 2 ^ 32)
    (hpos : pos ≤ ino.iSize) :
    seekSet ino pos offset = (if offset < ino.iSize then offset else pos) ∧
      seekSet ino pos offset ≤ ino.iSize := by
  have hsize := hr.layout.size
  have hseek := @seekSet_eq ino offset (by omega) hoffset pos
  refine ⟨hseek, ?_⟩
  rw [hseek]
  split <;> omega

/-- The pages of `s`, and the page of `vaddr` may have been added: the heap is intact, and no frame
is in two places. -/
structure Extended (mc : Machine) (p : ℕ) (kind : Layout) (live : Live) (vaddr : ℕ) (s : Image)
    (m : Memory) : Prop where
  sound : Sound mc (some p) (s.heap.setMemory m) kind live
  exclusive : Exclusive mc m (· = p)
  keeps : ∀ d w f, s.memory.frameAt d w = some f → m.frameAt d w = some f
  only : ∀ w f, m.frameAt (some p) w = some f →
    s.memory.frameAt (some p) w = some f ∨ w = vaddr / pgSize

theorem mapSegment_extended {left v : ℕ} {m : Memory} (hs : Sound mc (some p) s.heap kind live)
    (he : Exclusive mc s.memory (· = p)) (h : mapSegment mc p vaddr left v s.memory = some m) :
    Extended mc p kind live vaddr s m := by
  refine mapSegment_invariant (Extended mc p kind live vaddr s) (fun m₁ m₂ h₁ hg => ?_) h
    ⟨hs, he, fun _ _ _ hf => hf, fun _ _ hf => .inl hf⟩
  constructor
  case sound => exact sound_getAPage (h := s.heap.setMemory m₁) h₁.sound hg
  case exclusive => exact getAPage_exclusive h₁.exclusive hg
  case keeps => exact fun d w f hf => getAPage_keeps hg (h₁.keeps d w f hf)
  case only =>
    intro w f hf
    obtain ⟨-, -, -, g, hframe⟩ := getAPage_frameAt hg
    rw [hframe] at hf
    split at hf
    · rename_i hw
      exact .inr hw.2
    · exact h₁.only w f hf

/-- When the loop is through, the segment can be read into as far as it is off the free blocks. -/
theorem mapSegment_clear {m : Memory} {k pos : ℕ} (hfilesz : filesz ≤ 0xc0000000)
    (hm : mapSegment mc p vaddr (occupyPages vaddr filesz) (vaddr / pgSize) s.memory = some m)
    (hk : k < filesz) (hoff : Off s.heap p (vaddr + k)) :
    Clear (remap s m pos) p (vaddr + k) := by
  refine ⟨hoff, fun hlt => ?_⟩
  have hpages : (vaddr + k) / pgSize < vaddr / pgSize + occupyPages vaddr filesz := by
    unfold occupyPages pgSize
    simp only
    split <;> omega
  have hle : vaddr / pgSize ≤ (vaddr + k) / pgSize := Nat.div_le_div_right (Nat.le_add_right _ _)
  exact mapSegment_present (by omega) (.inr rfl) hm _ hle hpages hlt

/-- A segment that has been loaded. -/
theorem segmentLoad_some {ok : Bool}
    (h : segmentLoad mc inside p v.disk ino offset filesz vaddr s = some (ok, s')) :
    ok = true ∧ vaddr ≠ 0 ∧ ∃ m res,
      mapSegment mc p vaddr (occupyPages vaddr filesz) (vaddr / pgSize) s.memory = some m ∧
      fileReadHeap mc inside p v.disk ino (some vaddr) filesz
        (remap s m (seekSet ino s.fdPos offset)) = some (res, s') := by
  simp only [segmentLoad, sysRead, bind_some_iff, assert_eq_some, Option.pure_def,
    Option.some.injEq, Prod.mk.injEq] at h
  obtain ⟨m, hm, ⟨res, t⟩, ⟨-, hv, hread⟩, rfl, rfl⟩ := h
  exact ⟨rfl, fun h0 => hv (congrArg some h0), m, res, hm, hread⟩

theorem segmentLoad_eq {m : Memory} {res : ReadResult} (hv : vaddr ≠ 0)
    (hm : mapSegment mc p vaddr (occupyPages vaddr filesz) (vaddr / pgSize) s.memory = some m)
    (hread : fileReadHeap mc inside p v.disk ino (some vaddr) filesz
      (remap s m (seekSet ino s.fdPos offset)) = some (res, s')) :
    segmentLoad mc inside p v.disk ino offset filesz vaddr s = some (true, s') := by
  simp only [segmentLoad, sysRead, bind_some_iff, assert_eq_some, Option.pure_def,
    Option.some.injEq, Prod.mk.injEq]
  exact ⟨m, hm, (res, s'), ⟨(), fun h0 => hv (Option.some.inj h0), hread⟩, trivial, rfl⟩

/-- The call returns, and `true` only with every page of the segment mapped and the bytes of the
file in them. -/
def LoadsSegment (mc : Machine) (inside : Inside) (p : ℕ) (v : Volume part) (ino : Inode)
    (offset filesz vaddr : ℕ) (s : Image) : Prop :=
  ∃ ok s', segmentLoad mc inside p v.disk ino offset filesz vaddr s = some (ok, s') ∧
    (ok = true → ∀ k < filesz, pagePresent s'.memory p ((vaddr + k) / pgSize) = true ∧
      ∃ b, (content v.disk ino)[offset + k]? = some b ∧ userByte p s' (vaddr + k) = some b)

/-- The segments that are loaded. -/
structure Loadable (p : ℕ) (ino : Inode) (offset filesz vaddr : ℕ) (s : Image) : Prop where
  first : pagePresent s.memory p (vaddr / pgSize) = true ∨ vaddrStart (some p) ≤ vaddr / pgSize
  later : ∀ w, vaddr / pgSize < w → pgSize * w < vaddr + filesz →
    pagePresent s.memory p w = true
  address : vaddr ≠ 0
  inside : 0 < filesz → offset + filesz ≤ ino.iSize
  blocks : (if offset < ino.iSize then offset else s.fdPos) + filesz < 512 * 139

/-- The pages of a loadable segment are mapped, which takes one frame and one address at most. -/
theorem Loadable.mapped (h : Loadable p ino offset filesz vaddr s)
    (hspare : Spare mc s.memory p 3) (hlt : vaddr < 0xc0000000)
    (hend : vaddr + filesz ≤ 0xc0000000) :
    ∃ m, mapSegment mc p vaddr (occupyPages vaddr filesz) (vaddr / pgSize) s.memory = some m ∧
      Spare mc m p 2 := by
  obtain ⟨left, hleft, hpages, hin⟩ := occupyPages_iff hlt hend
  have hpage : vaddr / pgSize < 0xc0000 := by omega
  have hlater : ∀ w, vaddr / pgSize < w → w < vaddr / pgSize + (left + 1) →
      pagePresent s.memory p w = true := by
    intro w h₁ h₂
    exact h.later w h₁ ((hin w h₁).mp h₂)
  rw [hleft]
  by_cases hfirst : pagePresent s.memory p (vaddr / pgSize) = true
  · exact ⟨s.memory, (mapSegment_iff hpages).mpr ⟨.inl ⟨hfirst, rfl⟩, hlater⟩,
      hspare.mono (by decide)⟩
  · have hnone : s.memory.frameAt (some p) (vaddr / pgSize) = none := by
      rw [← pagePresent_false hpage]
      simpa using hfirst
    obtain ⟨m, hm⟩ := getAPage_exists (h.first.resolve_left hfirst) hpage hnone
      (Nat.lt_of_lt_of_le (by decide) (hspare.frames .user))
      (Nat.lt_of_lt_of_le (by decide) (hspare.frames .kernel))
    exact ⟨m, (mapSegment_iff hpages).mpr ⟨.inr hm, hlater⟩, getAPage_spare hspare hm⟩

theorem Loadable.loads (h : Loadable p ino offset filesz vaddr s) (inside : Inside)
    (hr : Readable v ino c)
    (hpos : s.fdPos ≤ ino.iSize) (hs : Sound mc (some p) s.heap kind live)
    (he : Exclusive mc s.memory (· = p)) (hspare : Spare mc s.memory p 3)
    (hoff : ∀ k < filesz, Off s.heap p (vaddr + k))
    (hoffset : offset < 2 ^ 32) (hlt : vaddr < 0xc0000000) (hend : vaddr + filesz ≤ 0xc0000000) :
    LoadsSegment mc inside p v ino offset filesz vaddr s := by
  have hsize := hr.layout.size
  obtain ⟨hseek, hstart⟩ := seekSet_inside hr hoffset hpos
  obtain ⟨m, hm, hspare₂⟩ := h.mapped hspare hlt hend
  have hext := mapSegment_extended hs he hm
  have hblocks := h.blocks
  rw [← hseek] at hblocks
  generalize hat : seekSet ino s.fdPos offset = pos at hseek hstart hblocks
  -- a segment with bytes is read from its offset
  have hinside : 0 < filesz → pos = offset ∧ offset + filesz ≤ ino.iSize := by
    intro hne
    have hle := h.inside hne
    rw [if_pos (by omega)] at hseek
    exact ⟨hseek, hle⟩
  have havail : available ino pos filesz = filesz := by
    unfold available
    omega
  have hclear : ∀ k < filesz, Clear (remap s m pos) p (vaddr + k) := fun k hk =>
    mapSegment_clear (by omega) hm hk (hoff k hk)
  have hmapped : ∀ k < filesz, ∃ x, physAddr m p (vaddr + k) = some x := by
    intro k hk
    have hpage : (vaddr + k) / pgSize < 0xc0000 := by
      unfold pgSize
      omega
    obtain ⟨f, hf⟩ := (hclear k hk).mapped hpage
    exact ⟨_, physAddr_some.mpr ⟨hpage, f, hf, rfl⟩⟩
  have hres := fileRead_eq hr pos filesz hstart (by omega) (by rw [havail]; omega) zeroes
  rw [havail] at hres
  have hdst : ∀ a ∈ some vaddr, ∀ k < available ino pos filesz, Clear (remap s m pos) p (a + k) := by
    intro a ha k hk
    obtain rfl := Option.some.inj ha
    exact hclear k (havail ▸ hk)
  have hcount : pos + filesz < 2 ^ 32 := by omega
  obtain ⟨s', hread⟩ := fileReadHeap_exists (s := remap s m pos) inside hr hstart hcount
    hspare₂ hext.sound hext.exclusive hdst (fun a ha k hk => by
      obtain rfl := Option.some.inj ha
      exact hmapped k (havail ▸ hk)) hres
  refine ⟨true, s', segmentLoad_eq h.address hm (by rwa [hat]), ?_⟩
  intro _ k hk
  have hphys : mc.phySize .user ≠ 0 := (Nat.lt_of_lt_of_le (by decide) hspare.phySize).ne'
  obtain ⟨-, -, hd⟩ := fileReadHeap_some hr hstart hcount hphys hext.sound hext.exclusive hdst hread
  have hk' : k < available ino pos filesz := by rwa [havail]
  obtain ⟨x, hx⟩ := hd.mapped vaddr rfl k hk'
  obtain ⟨hpage, f, hf, -⟩ := physAddr_some.mp hx
  obtain ⟨rfl, hle⟩ := hinside (by omega)
  refine ⟨(pagePresent_iff hpage).mpr ⟨f, (hd.frames _ _).trans hf⟩, _, content_at (by omega), ?_⟩
  rw [userByte, physAddr_frames hd.frames, hx, Option.map_some, hd.copied vaddr rfl k hk' x hx]
  dsimp only
  rw [patch_in (by omega), Nat.sub_zero]

/-- Off the free blocks exactly the loadable segments are loaded: the page of `vaddr` may be
missing, no other. -/
theorem segment_load_iff (hr : Readable v ino c) (hpos : s.fdPos ≤ ino.iSize)
    (hs : Sound mc (some p) s.heap kind live) (he : Exclusive mc s.memory (· = p))
    (hspare : Spare mc s.memory p 3) (hoffset : offset < 2 ^ 32) (hlt : vaddr < 0xc0000000)
    (hend : vaddr + filesz ≤ 0xc0000000) (hoff : ∀ k < filesz, Off s.heap p (vaddr + k)) :
    LoadsSegment mc inside p v ino offset filesz vaddr s ↔
      Loadable p ino offset filesz vaddr s := by
  have hsize := hr.layout.size
  obtain ⟨hseek, hstart⟩ := seekSet_inside hr hoffset hpos
  constructor
  · rintro ⟨ok, s', h, hbytes⟩
    obtain ⟨rfl, haddr, m, res, hm, hread⟩ := segmentLoad_some h
    have hext := mapSegment_extended hs he hm
    generalize seekSet ino s.fdPos offset = pos at hseek hstart hread
    have hcount : pos + filesz < 2 ^ 32 := by omega
    have hphys : mc.phySize .user ≠ 0 := (Nat.lt_of_lt_of_le (by decide) hspare.phySize).ne'
    have hdst : ∀ a ∈ some vaddr, ∀ k < available ino pos filesz,
        Clear (remap s m pos) p (a + k) := by
      intro a ha k hk
      obtain rfl := Option.some.inj ha
      have hk' : k < filesz := Nat.lt_of_lt_of_le hk (Nat.min_le_left _ _)
      exact mapSegment_clear (by omega) hm hk' (hoff k hk')
    obtain ⟨hres, -, -⟩ := fileReadHeap_some hr hstart hcount hphys hext.sound hext.exclusive hdst
      hread
    obtain ⟨left, hleft, hpages, hin⟩ := occupyPages_iff hlt hend
    rw [hleft, mapSegment_iff hpages] at hm
    have hinside : 0 < filesz → offset + filesz ≤ ino.iSize := by
      intro hpos
      obtain ⟨-, b, hb, -⟩ := hbytes rfl (filesz - 1) (by omega)
      have hlast := (List.getElem?_eq_some_iff.mp hb).1
      simp only [FsFileWrite.content, List.length_map, List.length_range] at hlast
      omega
    obtain ⟨-, hblocks, -⟩ := fileRead_some hr hstart (by omega) hres
    constructor
    case first =>
      rcases hm.1 with ⟨hfirst, -⟩ | hg
      · exact .inl hfirst
      · exact .inr (getAPage_frameAt hg).1
    case later => exact fun w h₁ h₂ => hm.2 w h₁ ((hin w h₁).mpr h₂)
    case address => exact haddr
    case inside => exact hinside
    case blocks =>
      change ¬(0 < filesz ∧ pos = ino.iSize) → _ at hblocks
      unfold available at hblocks
      rcases Nat.eq_zero_or_pos filesz with rfl | hpos
      · have := hblocks (by omega)
        omega
      · have hle := hinside hpos
        rw [if_pos (by omega)] at hseek ⊢
        have := hblocks (by omega)
        omega
  · intro h
    exact h.loads inside hr hpos hs he hspare hoff hoffset hlt hend

/-- A file with the bytes `buf` on an empty partition. -/
theorem file_exists (buf : Bytes) (count : ℕ) (hlen : count < 71680)
    (hfree : blocksNeeded (inodeInit 1) count ≤ 388) :
    ∃ (v : Volume smallPartition) (ino : Inode), Readable v ino ((List.range count).map buf) := by
  have hsize : (inodeInit 1).iSize + count < 71680 := by
    simpa [inodeInit] using hlen
  obtain ⟨res, hw, hret⟩ := fileWrite_exists (fresh_layout (blankVolume smallPartition zeroes)
    (n := 1) (by decide)) (fresh_onDisk _ _) (by decide) 0 buf count hsize
    (le_trans hfree FsFileLimit.blank_freeBlocks)
  have hb := (Built.create (blankVolume smallPartition zeroes) (n := 1) (by decide)).write hw
  rw [if_neg hret, List.nil_append] at hb
  exact ⟨_, _, built_readable hb⟩

theorem memInit_exclusive : Exclusive smallMachine memInit.memory (· = 1) := by
  have hnone : ∀ pl, frameOf memInit.memory pl = none := by
    intro pl
    cases pl <;> simp [frameOf, Memory.frameAt, memInit]
  constructor
  case marked =>
    intro pl f _ hf
    rw [hnone] at hf
    cases hf
  case once =>
    intro pl pl' f _ _ hf
    rw [hnone] at hf
    cases hf

theorem memInit_spare : Spare smallMachine memInit.memory 1 8 := by
  constructor
  case frames =>
    intro pf
    have hsub : Finset.range 8 ⊆ (Finset.range (8 * smallMachine.btmpLen pf)).filter
        fun i => bitmapScanTest (poolBitmap smallMachine memInit.memory pf) i = false := by
      intro i hi
      rw [Finset.mem_range] at hi
      rw [Finset.mem_filter, Finset.mem_range]
      interval_cases i <;> cases pf <;> decide
    exact le_trans (Finset.card_range 8).ge (Finset.card_le_card hsub)
  case addresses =>
    have hsub : Finset.range 8 ⊆ (Finset.range (0xbffff - 0x8048)).filter
        fun i => bitmapScanTest (vaddrBitmap smallMachine memInit.memory (some 1)) i = false := by
      intro i hi
      rw [Finset.mem_range] at hi
      rw [Finset.mem_filter, Finset.mem_range]
      interval_cases i <;> decide
    exact le_trans (Finset.card_range 8).ge (Finset.card_le_card hsub)
  case unmapped =>
    intro v _ _ _
    simp [Memory.frameAt, memInit]

theorem memInit_sound : Sound smallMachine (some 1) memInit (fun _ => none) fun _ => none :=
  HeapSafety.sound_unused fun _ => rfl

theorem memInit_off (a : ℕ) : Off memInit 1 a := by
  intro i _ b hb
  cases hb

theorem segment_load_iff_page : ∃ (v : Volume smallPartition) (ino : Inode), ∀ inside,
    LoadsSegment smallMachine inside 1 v ino 0 2 0x8048000 ⟨memInit, zeroes, 0⟩ := by
  obtain ⟨v, ino, hr⟩ := file_exists (fun _ => 65) 2 (by decide) (by decide)
  have hlen : ino.iSize = 2 := by
    have := congrArg List.length hr.content
    simpa [FsFileWrite.content] using this
  refine ⟨v, ino, fun inside => (segment_load_iff (s := ⟨memInit, zeroes, 0⟩) hr (Nat.zero_le _)
    memInit_sound memInit_exclusive (memInit_spare.mono (by decide)) (by decide) (by decide) (by decide)
    fun _ _ => memInit_off _).mpr ?_⟩
  constructor
  case first => exact .inr (by decide)
  case later =>
    intro w h₁ h₂
    unfold pgSize at *
    omega
  case address => decide
  case inside => omega
  case blocks =>
    rw [if_pos (by omega)]
    decide

/-- Two bytes across the end of a page, neither page mapped: the first page is asked for twice. -/
theorem second_page_halts : ∃ (v : Volume smallPartition) (ino : Inode),
    Readable v ino [65, 65] ∧ Exclusive smallMachine memInit.memory (· = 1) ∧
      Spare smallMachine memInit.memory 1 3 ∧ ∀ inside,
        segmentLoad smallMachine inside 1 v.disk ino 0 2 0x8048fff ⟨memInit, zeroes, 0⟩ = none ∧
        ¬LoadsSegment smallMachine inside 1 v ino 0 2 0x8048fff ⟨memInit, zeroes, 0⟩ := by
  obtain ⟨v, ino, hr⟩ := file_exists (fun _ => 65) 2 (by decide) (by decide)
  refine ⟨v, ino, hr, memInit_exclusive, memInit_spare.mono (by decide), fun inside => ?_⟩
  have hhalts : segmentLoad smallMachine inside 1 v.disk ino 0 2 0x8048fff
      ⟨memInit, zeroes, 0⟩ = none := by
    rw [Option.eq_none_iff_forall_ne_some]
    rintro ⟨ok, s'⟩ h
    obtain ⟨-, -, m, -, hm, -⟩ := segmentLoad_some h
    obtain ⟨left, hleft, hpages, hin⟩ :=
      occupyPages_iff (show 0x8048fff < 0xc0000000 by decide) (show 0x8048fff + 2 ≤ _ by decide)
    rw [hleft, mapSegment_iff hpages] at hm
    have hsecond := hm.2 0x8049 (by decide) ((hin 0x8049 (by decide)).mpr (by decide))
    cases hsecond
  refine ⟨hhalts, ?_⟩
  rintro ⟨ok, s', h, -⟩
  rw [hhalts] at h
  cases h

end Segment

end ExecSegment
