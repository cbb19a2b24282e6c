import XianweiOS.FsDirectoryTable

/-! A directory in which no name repeats stands for a finite map from names to inode number
and type: lookup, insertion and deletion against that map. -/
namespace FsDirectoryMap

open ByteStore HaltingProgram KernelBitmap DeviceIde FsVolume FsInodeTable FsBlockMap FsOwnership
  FsFreeBlocks FsDirectory FsDirectorySlots FsDirectoryDelete FsDirectoryTable SlotTable

variable {part : Partition}

abbrev NameMap := List Byte → Option (ℕ × ℕ)

structure Directory (v : Volume part) (ino : Inode) (m : NameMap) : Prop where
  owns : Owns v (ref v.disk ino)
  onDisk : OnDisk (ref v.disk ino)
  size : ino.iSize = 24 * live (dirTable v.disk (ref v.disk ino))
  clean : ∀ p < 140, ∀ i < 21, ¬IsLive (rawSlot v.disk (ref v.disk ino) p i) →
    rawSlot v.disk (ref v.disk ino) p i = zeroes
  names : ∀ s k x, dirTable v.disk (ref v.disk ino) s = some (k, x) → ValidName k
  self : ∃ x, dirTable v.disk (ref v.disk ino) (0, 0) = some (dot, x)
  parent : ∃ x, dirTable v.disk (ref v.disk ino) (0, 1) = some (dotdot, x)
  keyed : Keyed (dirTable v.disk (ref v.disk ino))
  numbers : ∀ s s' k k' n x y, dirTable v.disk (ref v.disk ino) s = some (k, n, x) →
    dirTable v.disk (ref v.disk ino) s' = some (k', n, y) →
    k ≠ dot → k ≠ dotdot → k' ≠ dot → k' ≠ dotdot → s = s'
  represents : Represents (dirTable v.disk (ref v.disk ino)) m

theorem Directory.slots {v : Volume part} {ino : Inode} {m : NameMap} (h : Directory v ino m) :
    DirSlots v ino (dirTable v.disk (ref v.disk ino)) := by
  refine ⟨h.owns, h.onDisk, rfl, h.size, h.clean, h.names, h.self, h.parent, fun s x hs => ?_,
    fun s x hs => ?_, h.numbers⟩
  · obtain ⟨y, hy⟩ := h.self
    exact h.keyed _ _ _ _ _ hs hy
  · obtain ⟨y, hy⟩ := h.parent
    exact h.keyed _ _ _ _ _ hs hy

theorem DirSlots.directory {v : Volume part} {ino : Inode} {tab : DirTable} {m : NameMap}
    (h : DirSlots v ino tab) (hk : Keyed tab) (hm : Represents tab m) : Directory v ino m := by
  obtain rfl := h.table
  exact ⟨h.owns, h.onDisk, h.size, h.clean, h.names, h.self, h.parent, hk, h.numbers, hm⟩

theorem searchDirEntry_eq {v : Volume part} {ino : Inode} {m : NameMap} (h : Directory v ino m)
    {name : List Byte} (hne : name ≠ []) (hn : (0 : Byte) ∉ name) :
    searchDirEntry true true v.disk ino name = some ((m name).map fun x => ⟨name, x.1, x.2⟩) := by
  obtain ⟨res, hres, hspec⟩ := h.slots.search hne hn
  rw [hres]
  congr 1
  cases res with
  | some e =>
    obtain ⟨rfl, s, hs⟩ := hspec
    rw [(h.represents _ _).mpr ⟨s, hs⟩]
    rfl
  | none =>
    rw [(h.represents.none_iff _).mpr hspec]
    rfl

/-- What may be put into a directory. -/
structure Insertable (m : NameMap) (e : DirEntry) : Prop where
  name : ValidName e.filename
  not_dot : e.filename ≠ dot
  not_dotdot : e.filename ≠ dotdot
  absent : m e.filename = none
  number_pos : 0 < e.iNo
  number_lt : e.iNo < 2 ^ 32
  fresh : ∀ k x, m k = some (e.iNo, x) → k = dot ∨ k = dotdot
  type : e.fType = FileType.regular.code ∨ e.fType = FileType.directory.code

/-- The map without the entry of inode `n`; `.` and `..` are not deleted. -/
def eraseNumber (m : NameMap) (n : ℕ) : NameMap := fun k =>
  if k ≠ dot ∧ k ≠ dotdot ∧ (m k).map Prod.fst = some n then none else m k

theorem Insertable.placeable {tab : DirTable} {m : NameMap} {e : DirEntry} (h : Insertable m e)
    (hm : Represents tab m) : Placeable tab e :=
  ⟨h.name, h.not_dot, h.not_dotdot, h.number_lt,
    fun s k x hs => h.fresh k x ((hm _ _).mpr ⟨s, hs⟩), h.type⟩

theorem Directory.insert {T : Prop} {v v' : Volume part} {ino ino' : Inode} {m : NameMap}
    {e : DirEntry} (h : Directory v ino m) (he : Insertable m e) (hi : Inserted T v ino e v' ino') :
    Directory v' ino' (Function.update m e.filename (some (e.iNo, e.fType))) := by
  obtain ⟨s, hfree, hslots⟩ := h.slots.insert (he.placeable h.represents) hi
  exact DirSlots.directory hslots (keyed_put h.keyed ((h.represents.none_iff _).mp he.absent))
    (represents_put h.represents hfree he.absent)

section Deletion

variable {v v' : Volume part} {ino ino' : Inode} {m : NameMap} {n : ℕ}

theorem eraseNumber_eq (h : Directory v ino m) {s : ℕ × ℕ} {k : List Byte} {x : ℕ}
    (hs : dirTable v.disk (ref v.disk ino) s = some (k, n, x)) (hk1 : k ≠ dot) (hk2 : k ≠ dotdot) :
    eraseNumber m n = Function.update m k none := by
  funext k'
  have hm : m k = some (n, x) := (h.represents _ _).mpr ⟨s, hs⟩
  by_cases hkk : k' = k
  · subst k'
    rw [Function.update_self, eraseNumber, if_pos ⟨hk1, hk2, by rw [hm]; rfl⟩]
  · rw [Function.update_of_ne hkk, eraseNumber, if_neg]
    rintro ⟨h1, h2, h3⟩
    obtain ⟨⟨n', y⟩, hy, rfl⟩ := Option.map_eq_some_iff.mp h3
    obtain ⟨s', hs'⟩ := (h.represents _ _).mp hy
    obtain rfl := h.numbers s s' k k' _ x y hs hs' hk1 hk2 h1 h2
    rw [hs] at hs'
    exact hkk (Prod.mk.inj (Option.some.inj hs')).1.symm

theorem Directory.delete (h : Directory v ino m) (hd : Deleted n v ino v' ino') :
    Directory v' ino' (eraseNumber m n) := by
  obtain ⟨s, k, x, hs, hk1, hk2, hslots⟩ := h.slots.delete hd
  rw [eraseNumber_eq h hs hk1 hk2]
  exact DirSlots.directory hslots (keyed_drop h.keyed) (represents_drop h.represents h.keyed hs)

theorem Directory.synced (h : Directory v ino m) {j : Inode} : Directory (syncedInode v j) ino m :=
  DirSlots.directory h.slots.synced h.keyed h.represents

theorem eraseNumber_absent (h : Directory v ino m) (hn : ∀ p < 140, ∀ i < 21,
    Plain (rawSlot v.disk (ref v.disk ino) p i) → word (rawSlot v.disk (ref v.disk ino) p i) 16 ≠ n) :
    eraseNumber m n = m := by
  funext k
  rw [eraseNumber, if_neg]
  rintro ⟨h1, h2, h3⟩
  obtain ⟨⟨n', y⟩, hy, rfl⟩ := Option.map_eq_some_iff.mp h3
  obtain ⟨s, hs⟩ := (h.represents _ _).mp hy
  rcases h.slots.absent hn hs with hk | hk
  · exact h1 hk
  · exact h2 hk

end Deletion

end FsDirectoryMap
