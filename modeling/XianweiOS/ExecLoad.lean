import XianweiOS.ExecSegment

/-! `load` of `userprog/exec.c` from the moment `sys_open` has returned. The headers are read into
the kernel's stack. -/
namespace ExecLoad

open ByteStore HaltingProgram MemoryPages FsVolume FsInodeTable FsBlockMap FsFileWrite FsFileAppend
  FsFileRead FsProcesses FrameExclusive MemoryHeap HeapInvariant HeapLoan FsReadMemory ExecSegment

def half (m : Bytes) (a : ℕ) : ℕ := (m a).toNat + 256 * (m (a + 1)).toNat

/-- The fields of `Elf32_Ehdr` that `load` looks at. -/
structure Elf32Ehdr where
  eIdent : List Byte
  eType : ℕ
  eMachine : ℕ
  eVersion : ℕ
  eEntry : ℕ
  ePhoff : ℕ
  ePhentsize : ℕ
  ePhnum : ℕ
  deriving DecidableEq

def sizeofEhdr : ℕ := 52

def elfHeader (b : Bytes) : Elf32Ehdr where
  eIdent := (List.range 7).map b
  eType := half b 16
  eMachine := half b 18
  eVersion := word b 20
  eEntry := word b 24
  ePhoff := word b 28
  ePhentsize := half b 42
  ePhnum := half b 44

structure Elf32Phdr where
  pType : ℕ
  pOffset : ℕ
  pVaddr : ℕ
  pFilesz : ℕ
  pMemsz : ℕ
  deriving DecidableEq

def sizeofPhdr : ℕ := 32

def progHeader (b : Bytes) : Elf32Phdr where
  pType := word b 0
  pOffset := word b 4
  pVaddr := word b 8
  pFilesz := word b 16
  pMemsz := word b 20

def ptLoad : ℕ := 1

/-- `"\177ELF\1\1\1"` -/
def elfMagic : List Byte := [0x7f, 0x45, 0x4c, 0x46, 1, 1, 1]

def Elf32Ehdr.Accepted (h : Elf32Ehdr) : Prop :=
  h.eIdent = elfMagic ∧ h.eType = 2 ∧ h.eMachine = 3 ∧ h.eVersion = 1 ∧ ¬1024 < h.ePhnum ∧
    h.ePhentsize = sizeofPhdr

instance (h : Elf32Ehdr) : Decidable h.Accepted :=
  inferInstanceAs (Decidable (h.eIdent = elfMagic ∧ _))

section Functions

variable (mc : Machine) (inside : Inside) (p : ℕ) (disk : Bytes) (inode : Inode)

/-- One program header: `sys_lseek`, `sys_read` and `segment_load`. -/
def loadHeader (progHeaderOffset : ℕ) (s : Image) : Option (Bool × Image) := do
  let (res, s) ← sysRead mc inside p disk inode none sizeofPhdr
    { s with fdPos := seekSet inode s.fdPos progHeaderOffset }
  if res.ret ≠ sizeofPhdr then return (false, s)
  else
    let h := progHeader res.buf
    if h.pType = ptLoad then
      segmentLoad mc inside p disk inode h.pOffset h.pFilesz h.pVaddr s
    else return (true, s)

def loadHeaders : (left progHeaderOffset : ℕ) → Image → Option (Bool × Image)
  | 0, _, s => some (true, s)
  | left + 1, progHeaderOffset, s => do
    match ← loadHeader mc inside p disk inode progHeaderOffset s with
    | (false, s) => return (false, s)
    | (true, s) => loadHeaders left ((progHeaderOffset + sizeofPhdr) % 2 ^ 32) s

/-- `opened`: the descriptor is not `-1`. -/
def load (opened : Bool) (s : Image) : Option (ℤ × Image) := do
  if opened = false then return (-1, s)
  else
    let (res, s) ← sysRead mc inside p disk inode none sizeofEhdr { s with fdPos := 0 }
    let h := elfHeader res.buf
    if res.ret ≠ sizeofEhdr ∨ ¬h.Accepted then return (-1, s)
    else
      match ← loadHeaders mc inside p disk inode h.ePhnum h.ePhoff s with
      | (false, s) => return (-1, s)
      | (true, s) => return (int32 h.eEntry, s)

end Functions

section File

variable (c : List Byte)

/-- The bytes of a file, and zeroes behind its end. -/
def fileBytes : Bytes := fun j => c.getD j 0

/-- `filesz` bytes of the file from `pos` on, as far as it has them, which go to `vaddr`. -/
structure FilePart where
  vaddr : ℕ
  pos : ℕ
  filesz : ℕ
  deriving DecidableEq

def FilePart.len (r : FilePart) : ℕ := min r.filesz (c.length - r.pos)

/-- The byte that the last part over address `a` has there. -/
def stored : List FilePart → ℕ → Option Byte
  | [], _ => none
  | r :: parts, a =>
    (stored parts a).or
      (if r.vaddr ≤ a ∧ a < r.vaddr + r.len c then some (fileBytes c (r.pos + (a - r.vaddr)))
        else none)

theorem stored_append (l l' : List FilePart) (a : ℕ) :
    stored c (l ++ l') a = (stored c l' a).or (stored c l a) := by
  induction l with
  | nil => simp [stored]
  | cons r l ih => rw [List.cons_append, stored, ih, stored, Option.or_assoc]

end File

/-- The parts keep off the free blocks of the heap, and none asks for more than a process has. -/
def Apart (h : Heap) (p : ℕ) (c : List Byte) (parts : List FilePart) : Prop :=
  ∀ r ∈ parts, r.filesz ≤ 0xc0000000 ∧ ∀ a, r.vaddr ≤ a → a < r.vaddr + r.len c → Off h p a

/-- From `s` to `s'` the parts have been stored, into pages that were mapped or have been; every
other byte that was mapped off the free blocks is as it was. -/
structure Stored (mc : Machine) (p : ℕ) (kind : Layout) (live : Live) (c : List Byte)
    (parts : List FilePart) (s s' : Image) : Prop where
  sound : Sound mc (some p) s'.heap kind live
  exclusive : Exclusive mc s'.memory (· = p)
  grows : ∀ a x, physAddr s.memory p a = some x → physAddr s'.memory p a = some x
  only : ∀ a x, physAddr s'.memory p a = some x →
    physAddr s.memory p a = some x ∨ ∃ r ∈ parts, a / pgSize = r.vaddr / pgSize
  mapped : ∀ a b, stored c parts a = some b → ∃ x, physAddr s'.memory p a = some x
  bytes : ∀ a b x, stored c parts a = some b → physAddr s'.memory p a = some x → s'.phys x = b
  kept : ∀ a x, stored c parts a = none → physAddr s.memory p a = some x → Off s.heap p a →
    s'.phys x = s.phys x

section Parts

variable {mc : Machine} {p : ℕ} {kind : Layout} {live : Live} {c : List Byte}
  {parts parts' : List FilePart} {s s' s'' : Image} {h h' : Heap} {a : ℕ} {b : Byte}

theorem Apart.congr (hs : Sound mc (some p) h kind live) (hs' : Sound mc (some p) h' kind live)
    (hp : Apart h p c parts) : Apart h' p c parts := by
  intro r hr
  obtain ⟨hle, hoff⟩ := hp r hr
  exact ⟨hle, fun a h₁ h₂ => (off_congr hs hs').mpr (hoff a h₁ h₂)⟩

theorem Apart.off (hp : Apart h p c parts) (hb : stored c parts a = some b) : Off h p a := by
  induction parts with
  | nil => cases hb
  | cons r parts ih =>
    rw [stored] at hb
    rcases Option.or_eq_some_iff.mp hb with hb | ⟨-, hb⟩
    · exact ih (fun r hr => hp r (List.mem_cons_of_mem _ hr)) hb
    · split at hb
      · rename_i hin
        exact (hp r List.mem_cons_self).2 a hin.1 hin.2
      · cases hb

theorem Stored.nil {pos : ℕ} (hs : Sound mc (some p) s.heap kind live)
    (he : Exclusive mc s.memory (· = p)) :
    Stored mc p kind live c [] s { s with fdPos := pos } :=
  ⟨hs, he, fun _ _ h => h, fun _ _ h => .inl h, fun _ _ h => by simp [stored] at h,
    fun _ _ _ h => by simp [stored] at h, fun _ _ _ _ _ => rfl⟩

theorem Stored.trans (hs : Sound mc (some p) s.heap kind live) (hp : Apart s.heap p c parts)
    (h : Stored mc p kind live c parts s s') (h' : Stored mc p kind live c parts' s' s'') :
    Stored mc p kind live c (parts ++ parts') s s'' := by
  constructor
  case sound => exact h'.sound
  case exclusive => exact h'.exclusive
  case grows => exact fun a x hx => h'.grows a x (h.grows a x hx)
  case only =>
    intro a x hx
    rcases h'.only a x hx with hx | ⟨r, hr, hpage⟩
    · rcases h.only a x hx with hx | ⟨r, hr, hpage⟩
      · exact .inl hx
      · exact .inr ⟨r, List.mem_append_left _ hr, hpage⟩
    · exact .inr ⟨r, List.mem_append_right _ hr, hpage⟩
  case mapped =>
    intro a b hb
    rw [stored_append] at hb
    rcases Option.or_eq_some_iff.mp hb with hb | ⟨-, hb⟩
    · exact h'.mapped a b hb
    · obtain ⟨x, hx⟩ := h.mapped a b hb
      exact ⟨x, h'.grows a x hx⟩
  case bytes =>
    intro a b x hb hx
    rw [stored_append] at hb
    rcases Option.or_eq_some_iff.mp hb with hb | ⟨hnone, hb⟩
    · exact h'.bytes a b x hb hx
    · -- stored before, and no later part is over it
      obtain ⟨y, hy⟩ := h.mapped a b hb
      obtain rfl := Option.some.inj ((h'.grows a y hy).symm.trans hx)
      rw [h'.kept a y hnone hy ((off_congr hs h.sound).mpr (hp.off hb))]
      exact h.bytes a b y hb hy
  case kept =>
    intro a x hnone hx hoff
    rw [stored_append, Option.or_eq_none_iff] at hnone
    rw [h'.kept a x hnone.1 (h.grows a x hx) ((off_congr hs h.sound).mpr hoff)]
    exact h.kept a x hnone.2 hx hoff

end Parts

section Runs

variable {mc : Machine} {p : ℕ} {part : Partition} {v : Volume part} {ino : Inode} {c : List Byte}
  {s s' : Image} {pos count offset filesz vaddr : ℕ} {ok : Bool} {res : ReadResult}
  {inside : Inside} {kind : Layout} {live : Live}

/-- Address `a` is off the free blocks, and its page is mapped already or is one that `load` does
not map. -/
def Kept (s : Image) (p : ℕ) (parts : List FilePart) (a : ℕ) : Prop :=
  Off s.heap p a ∧ ((∃ x, physAddr s.memory p a = some x) ∨
    ∀ r ∈ parts, a / pgSize ≠ r.vaddr / pgSize)

end Runs

end ExecLoad
