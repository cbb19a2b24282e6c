import XianweiOS.PathObjects
import XianweiOS.FsProcesses
import XianweiOS.FsTree

/-! What the system calls on files are for, without blocks, inodes and reference counts: a map from
paths to files and directories, the table of open files, and the descriptors of the processes. A
call that fails says so and changes nothing. -/
namespace FsNamespace

open ByteStore FsDirectory FsPath FsOpenFiles FsSyscalls FsProcesses PathTree FsTree

/-- The names from the root on, the dots resolved. -/
abbrev Path := List (List Byte)

abbrev Objects := Path → Option (Object Byte)

structure OpenFile where
  path : Path
  pos : ℕ
  flags : ℕ

/-- `fds` are the descriptors of the running process, into the table `files`. -/
structure State where
  objects : Objects
  files : ℕ → Option OpenFile
  fds : ℕ → Option ℕ

def target (pathname : List Byte) : Path := normalise dots (components pathname)

/-- The object that a path leads to. Whatever stands behind the name of a file is not looked at. -/
structure Leads (O : Objects) (pathname : List Byte) (q : Path) (o : Object Byte) : Prop where
  object : O q = some o
  path : q = target pathname ∨
    o ≠ .directory ∧ ∃ pre, pre <+: components pathname ∧ q = normalise dots pre

/-- A name that can be given in directory `d`. -/
structure Vacant (O : Objects) (d : Path) (name : List Byte) : Prop where
  plain : name ≠ dot ∧ name ≠ dotdot
  parent : O d = some .directory
  free : O (d ++ [name]) = none

/-- An open file gets a descriptor, if the process has one left. -/
inductive Installs (σ : State) (k : ℕ) (f : OpenFile) : ℤ → State → Prop where
  | descriptor {j : ℕ} (hlow : 3 ≤ j) (hlt : j < maxFilesOpenPerProc) (hfree : σ.fds j = none) :
      Installs σ k f j { σ with
        files := Function.update σ.files k (some f)
        fds := Function.update σ.fds j (some k) }
  | exhausted (h : ∀ j, 3 ≤ j → j < maxFilesOpenPerProc → σ.fds j ≠ none) :
      Installs σ k f (-1) { σ with files := Function.update σ.files k (some f) }

inductive Call where
  | open (pathname : List Byte) (flags : ℕ)
  | close (fd : ℕ)
  | read (fd : ℕ) (buf : Bytes) (count : ℕ)
  | write (fd : ℕ) (buf : Bytes) (count : ℕ)
  | lseek (fd : ℕ) (offset : ℤ) (whence : Whence)
  | opendir (name : List Byte)
  | closedir (dir : Option DirPtr)
  | mkdir (pathname : List Byte)
  | unlink (pathname : List Byte)
  | rmdir (pathname : List Byte)
  | stat (path : List Byte)
  | chdir (path : List Byte)

inductive Reply where
  | int (ret : ℤ)
  | bytes (ret : ℤ) (buf : Bytes)
  | dir (ret : Option DirPtr)
  | stat (ret : Option Stat)

/-- What a call returns that has failed; a read leaves the buffer as it was. -/
def failure : Call → Reply
  | .read _ buf _ => .bytes (-1) buf
  | .opendir _ => .dir none
  | .stat _ => .stat none
  | _ => .int (-1)

/-- Type and size of the object; the size of a directory is not looked at. -/
def Describes (st : Stat) : Object Byte → Prop
  | .file bytes => st.stFiletype = .regular ∧ st.stSize = bytes.length
  | .directory => st.stFiletype = .directory

/-- Where a write leaves the position: one byte before the end, as an unsigned number. -/
def behindWrite (size count : ℕ) : ℕ := (size + 2 ^ 32 - 1 + count) % 2 ^ 32

inductive Step : Call → Reply → State → State → Prop where
  | failed (c : Call) (σ : State) : Step c (failure c) σ σ
  | opened {σ σ' : State} {pathname : List Byte} {flags k : ℕ} {bytes : List Byte} {fd : ℤ}
      (hflags : creates flags = false) (hfile : σ.objects (target pathname) = some (.file bytes))
      (hslot : σ.files k = none) (hfd : Installs σ k ⟨target pathname, 0, flags⟩ fd σ') :
      Step (.open pathname flags) (.int fd) σ σ'
  | created {σ σ' : State} {pathname name : List Byte} {flags k : ℕ} {d : Path} {fd : ℤ}
      (hflags : creates flags = true) (hpath : target pathname = d ++ [name])
      (hname : Vacant σ.objects d name) (hslot : σ.files k = none)
      (hfd : Installs { σ with objects := Function.update σ.objects (d ++ [name]) (some (.file [])) }
        k ⟨d ++ [name], 0, flags⟩ fd σ') :
      Step (.open pathname flags) (.int fd) σ σ'
  | closed {σ : State} {fd k : ℕ} {f : OpenFile} (hfd : σ.fds fd = some k)
      (hfile : σ.files k = some f) :
      Step (.close fd) (.int 0) σ { σ with
        files := Function.update σ.files k none
        fds := Function.update σ.fds fd none }
  | read {σ : State} {fd k count n : ℕ} {f : OpenFile} {buf out : Bytes} {bytes : List Byte}
      (hfd : σ.fds fd = some k) (hfile : σ.files k = some f)
      (hobject : σ.objects f.path = some (.file bytes)) (hpos : f.pos ≤ bytes.length)
      (hn : n = min count (bytes.length - f.pos))
      (hout : (List.range n).map out = (bytes.drop f.pos).take n)
      (hrest : ∀ j, n ≤ j → out j = buf j) :
      Step (.read fd buf count) (.bytes n out) σ { σ with
        files := Function.update σ.files k (some { f with pos := f.pos + n }) }
  | printed {σ : State} {fd count : ℕ} {buf : Bytes} (hfd : fd = 1 ∨ fd = 2) :
      Step (.write fd buf count) (.int count) σ σ
  | written {σ : State} {fd k count : ℕ} {f : OpenFile} {buf : Bytes} {bytes : List Byte}
      (hfd : σ.fds fd = some k) (hfile : σ.files k = some f) (hmode : writable f.flags = true)
      (hobject : σ.objects f.path = some (.file bytes)) (hroom : bytes.length + count < 71680) :
      Step (.write fd buf count) (.int count) σ { σ with
        objects := Function.update σ.objects f.path
          (some (.file (bytes ++ (List.range count).map buf)))
        files := Function.update σ.files k
          (some { f with pos := behindWrite bytes.length count }) }
  | sought {σ : State} {fd k : ℕ} {offset : ℤ} {whence : Whence} {f : OpenFile}
      {bytes : List Byte} (hfd : σ.fds fd = some k) (hfile : σ.files k = some f)
      (hobject : σ.objects f.path = some (.file bytes))
      (hseek : seekable f.pos bytes.length offset whence = true) :
      Step (.lseek fd offset whence) (.int (seekTarget f.pos bytes.length offset whence)) σ { σ with
        files := Function.update σ.files k
          (some { f with pos := (seekTarget f.pos bytes.length offset whence).toNat }) }
  | openedDir {σ : State} {name : List Byte} (dir : Option DirPtr)
      (h : σ.objects (target name) = some .directory) : Step (.opendir name) (.dir dir) σ σ
  | closedDir (dir : Option DirPtr) (σ : State) : Step (.closedir dir) (.int 0) σ σ
  | madeDir {σ : State} {pathname name : List Byte} {d : Path} (hpath : target pathname = d ++ [name])
      (hname : Vacant σ.objects d name) :
      Step (.mkdir pathname) (.int 0) σ { σ with
        objects := Function.update σ.objects (d ++ [name]) (some .directory) }
  | unlinked {σ : State} {pathname : List Byte} {q : Path} {bytes : List Byte}
      (hfile : Leads σ.objects pathname q (.file bytes))
      (hclosed : ∀ k f, σ.files k = some f → f.path ≠ q) :
      Step (.unlink pathname) (.int 0) σ { σ with objects := Function.update σ.objects q none }
  | removedDir {σ : State} {pathname : List Byte} (hdir : σ.objects (target pathname) = some .directory)
      (hempty : ∀ name, name ≠ dot → name ≠ dotdot → σ.objects (target pathname ++ [name]) = none)
      (hroot : target pathname ≠ []) :
      Step (.rmdir pathname) (.int 0) σ { σ with
        objects := Function.update σ.objects (target pathname) none }
  | described {σ : State} {path : List Byte} {q : Path} {o : Object Byte} {st : Stat}
      (h : Leads σ.objects path q o) (hst : Describes st o) :
      Step (.stat path) (.stat (some st)) σ σ
  | moved {σ : State} {path : List Byte} (h : σ.objects (target path) = some .directory) :
      Step (.chdir path) (.int 0) σ σ

section Sound

variable {O : Objects} {F F' : ℕ → Option OpenFile} {d q : Path} {name : List Byte}
  {o : Object Byte} {k : ℕ} {f : OpenFile} {bytes : List Byte} {σ σ' : State} {c : Call}
  {r : Reply} {fd : ℤ}

/-- Every object stands in a directory, and every open file is there. -/
structure Sound (O : Objects) (F : ℕ → Option OpenFile) : Prop where
  root : O [] = some .directory
  plain : ∀ q o, O q = some o → Plain dots q
  parents : ∀ d k o, O (d ++ [k]) = some o → O d = some .directory
  files : ∀ k f, F k = some f → ∃ bytes, O f.path = some (.file bytes)

theorem Sound.ofFiles (h : Sound O F)
    (hfiles : ∀ k f, F' k = some f → ∃ bytes, O f.path = some (.file bytes)) : Sound O F' :=
  ⟨h.root, h.plain, h.parents, hfiles⟩

theorem Sound.setFile (h : Sound O F) (hq : ∃ bytes, O q = some (.file bytes)) (k : ℕ)
    (hf : f.path = q) : Sound O (Function.update F k (some f)) := by
  refine h.ofFiles fun l g hg => ?_
  by_cases hlk : l = k
  · subst l
    rw [Function.update_self] at hg
    obtain rfl := Option.some.inj hg
    exact hf ▸ hq
  · exact h.files l g ((Function.update_of_ne hlk _ _).symm.trans hg)

theorem Sound.clearFile (h : Sound O F) (k : ℕ) : Sound O (Function.update F k none) := by
  refine h.ofFiles fun l g hg => ?_
  by_cases hlk : l = k
  · subst l
    rw [Function.update_self] at hg
    cases hg
  · exact h.files l g ((Function.update_of_ne hlk _ _).symm.trans hg)

theorem Sound.installs (h : Sound σ.objects σ.files)
    (hf : ∃ bytes, σ.objects f.path = some (.file bytes)) (hin : Installs σ k f fd σ') :
    Sound σ'.objects σ'.files := by
  cases hin with
  | descriptor hlow hlt hfree => exact h.setFile hf k rfl
  | exhausted hnone => exact h.setFile hf k rfl

theorem Sound.add (h : Sound O F) (hv : Vacant O d name) (o : Object Byte) :
    Sound (Function.update O (d ++ [name]) (some o)) F := by
  have hd : d ≠ d ++ [name] := fun he => by simpa using congrArg List.length he
  have hold : ∀ q, O q ≠ none → Function.update O (d ++ [name]) (some o) q = O q := fun q hq =>
    Function.update_of_ne (fun he => hq (by rw [he]; exact hv.free)) _ _
  refine ⟨(hold [] (by simp [h.root])).trans h.root, fun q o' hq => ?_, fun d' k o' hq => ?_,
    fun k f hf => ?_⟩
  · by_cases hqd : q = d ++ [name]
    · rw [hqd]
      exact (h.plain d _ hv.parent).concat hv.plain
    · exact h.plain q o' ((Function.update_of_ne hqd _ _).symm.trans hq)
  · have hdir : O d' = some .directory := by
      by_cases hqd : d' ++ [k] = d ++ [name]
      · obtain ⟨rfl, -⟩ := List.append_inj' hqd rfl
        exact hv.parent
      · exact h.parents d' k o' ((Function.update_of_ne hqd _ _).symm.trans hq)
    exact (hold d' (by simp [hdir])).trans hdir
  · obtain ⟨bytes, hb⟩ := h.files k f hf
    exact ⟨bytes, (hold _ (by simp [hb])).trans hb⟩

/-- An object with nothing under it, and that is not open, is taken away. -/
theorem Sound.remove (h : Sound O F) (hq : q ≠ []) (hbelow : ∀ k o, O (q ++ [k]) ≠ some o)
    (hclosed : ∀ k f, F k = some f → f.path ≠ q) : Sound (Function.update O q none) F := by
  have hsome : ∀ {p o}, Function.update O q none p = some o → p ≠ q ∧ O p = some o := by
    intro p o hp
    by_cases hpq : p = q
    · subst p
      rw [Function.update_self] at hp
      cases hp
    · exact ⟨hpq, (Function.update_of_ne hpq _ _).symm.trans hp⟩
  refine ⟨(Function.update_of_ne hq.symm _ _).trans h.root, fun p o hp => h.plain p o (hsome hp).2,
    fun d k o hp => ?_, fun k f hf => ?_⟩
  · have hold := (hsome hp).2
    have hdq : d ≠ q := by
      rintro rfl
      exact hbelow k o hold
    exact (Function.update_of_ne hdq _ _).trans (h.parents d k o hold)
  · obtain ⟨bytes, hb⟩ := h.files k f hf
    exact ⟨bytes, (Function.update_of_ne (hclosed k f hf) _ _).trans hb⟩

/-- A file gets other bytes. -/
theorem Sound.rewrite (h : Sound O F) (hq : O q = some (.file bytes)) (bytes' : List Byte) :
    Sound (Function.update O q (some (.file bytes'))) F := by
  have hdir : ∀ p, O p = some .directory →
      Function.update O q (some (.file bytes')) p = some .directory := by
    intro p hp
    have hpq : p ≠ q := by
      rintro rfl
      rw [hq] at hp
      cases hp
    exact (Function.update_of_ne hpq _ _).trans hp
  have hsome : ∀ {p o}, Function.update O q (some (.file bytes')) p = some o →
      ∃ o', O p = some o' := by
    intro p o hp
    by_cases hpq : p = q
    · exact ⟨_, hpq ▸ hq⟩
    · exact ⟨o, (Function.update_of_ne hpq _ _).symm.trans hp⟩
  refine ⟨hdir [] h.root, fun p o hp => ?_, fun d k o hp => ?_, fun k f hf => ?_⟩
  · obtain ⟨o', hp⟩ := hsome hp
    exact h.plain p o' hp
  · obtain ⟨o', hp⟩ := hsome hp
    exact hdir d (h.parents d k o' hp)
  · obtain ⟨b, hb⟩ := h.files k f hf
    by_cases hpq : f.path = q
    · exact ⟨bytes', by rw [hpq, Function.update_self]⟩
    · exact ⟨b, (Function.update_of_ne hpq _ _).trans hb⟩

theorem Step.sound (hs : Step c r σ σ') (h : Sound σ.objects σ.files) :
    Sound σ'.objects σ'.files := by
  cases hs with
  | failed => exact h
  | opened hflags hfile hslot hfd => exact h.installs ⟨_, hfile⟩ hfd
  | created hflags hpath hname hslot hfd =>
    have hadd := h.add hname (.file [])
    exact Sound.installs hadd ⟨[], Function.update_self _ _ _⟩ hfd
  | closed hfd hfile => exact h.clearFile _
  | read hfd hfile hobject hpos hn hout hrest => exact h.setFile ⟨_, hobject⟩ _ rfl
  | printed hfd => exact h
  | written hfd hfile hmode hobject hroom =>
    exact (h.rewrite hobject _).setFile ⟨_, Function.update_self _ _ _⟩ _ rfl
  | sought hfd hfile hobject hseek => exact h.setFile ⟨_, hobject⟩ _ rfl
  | openedDir dir hd => exact h
  | closedDir => exact h
  | madeDir hpath hname => exact h.add hname _
  | unlinked hfile hclosed =>
    refine h.remove ?_ (fun k o hk => ?_) hclosed
    · rintro rfl
      cases h.root.symm.trans hfile.object
    · cases (h.parents _ k o hk).symm.trans hfile.object
  | removedDir hdir hempty hroot =>
    refine h.remove hroot (fun k o hk => ?_) fun k f hf hpath => ?_
    · obtain ⟨h1, h2⟩ := (h.plain _ o hk).last
      cases (hempty k h1 h2).symm.trans hk
    · obtain ⟨bytes, hb⟩ := h.files k f hf
      rw [hpath, hdir] at hb
      cases hb
  | described hd hst => exact h
  | moved hd => exact h

theorem Installs.files (hin : Installs σ k f fd σ') :
    σ'.objects = σ.objects ∧ σ'.files = Function.update σ.files k (some f) := by
  cases hin with
  | descriptor hlow hlt hfree => exact ⟨rfl, rfl⟩
  | exhausted hnone => exact ⟨rfl, rfl⟩

/-- The file that is open in slot `k` stays in its place and loses no byte, as long as the slot is
open. -/
structure Grows (k : ℕ) (O : Objects) (F : ℕ → Option OpenFile) (O' : Objects)
    (F' : ℕ → Option OpenFile) : Prop where
  path : ∀ f g, F k = some f → F' k = some g → g.path = f.path
  bytes : ∀ f, F k = some f → ∀ bytes, O f.path = some (.file bytes) →
    ∃ bytes', O' f.path = some (.file bytes') ∧ bytes <+: bytes'

theorem Grows.refl (k : ℕ) (O : Objects) (F : ℕ → Option OpenFile) : Grows k O F O F :=
  ⟨fun f g hf hg => by rw [Option.some.inj (hf.symm.trans hg)],
    fun _ _ bytes hb => ⟨bytes, hb, List.prefix_refl bytes⟩⟩

/-- A slot of the table gets a file, or loses it. -/
theorem Grows.update (l : ℕ) {x : Option OpenFile}
    (hx : ∀ f g, F l = some f → x = some g → g.path = f.path) :
    Grows k O F O (Function.update F l x) := by
  refine ⟨fun f g hf hg => ?_, (Grows.refl k O F).bytes⟩
  by_cases hkl : k = l
  · subst k
    rw [Function.update_self] at hg
    exact hx f g hf hg
  · rw [Function.update_of_ne hkl] at hg
    exact (Grows.refl k O F).path f g hf hg

/-- An object changes under a path that no file is open under. -/
theorem Grows.object {x : Option (Object Byte)} (h : Grows k O F O F')
    (hq : ∀ f, F k = some f → ∀ bytes, O f.path = some (.file bytes) → f.path ≠ q) :
    Grows k O F (Function.update O q x) F' := by
  refine ⟨h.path, fun f hf bytes hb => ⟨bytes, ?_, List.prefix_refl bytes⟩⟩
  rw [Function.update_of_ne (hq f hf bytes hb)]
  exact hb

theorem Step.grows (hs : Step c r σ σ') (k : ℕ) :
    Grows k σ.objects σ.files σ'.objects σ'.files := by
  have hvacant : ∀ {d : Path} {name : List Byte}, Vacant σ.objects d name → ∀ f,
      σ.files k = some f → ∀ bytes, σ.objects f.path = some (.file bytes) →
        f.path ≠ d ++ [name] := by
    intro d name hv f _ bytes hb hpath
    rw [hpath, hv.free] at hb
    cases hb
  have hnew : ∀ {l : ℕ} {g₀ : OpenFile}, σ.files l = none → ∀ f g, σ.files l = some f →
      some g₀ = some g → g.path = f.path := by
    intro l g₀ hslot f g hf _
    rw [hslot] at hf
    cases hf
  have hmoved : ∀ {l pos : ℕ} {f₀ : OpenFile}, σ.files l = some f₀ → ∀ f g, σ.files l = some f →
      some { f₀ with pos := pos } = some g → g.path = f.path := by
    intro l pos f₀ hfile f g hf hg
    obtain rfl := Option.some.inj (hfile.symm.trans hf)
    obtain rfl := Option.some.inj hg
    rfl
  cases hs with
  | failed => exact .refl k _ _
  | opened hflags hfile hslot hfd =>
    obtain ⟨hO, hF⟩ := hfd.files
    rw [hO, hF]
    exact .update _ (hnew hslot)
  | created hflags hpath hname hslot hfd =>
    obtain ⟨hO, hF⟩ := hfd.files
    rw [hO, hF]
    exact (Grows.update _ (hnew hslot)).object (hvacant hname)
  | closed hfd hfile => exact .update _ fun f g _ hg => by cases hg
  | read hfd hfile hobject hpos hn hout hrest => exact .update _ (hmoved hfile)
  | printed hfd => exact .refl k _ _
  | written hfd hfile hmode hobject hroom =>
    rename_i l count f₀ buf bytes₀
    refine ⟨(Grows.update (O := σ.objects) l (hmoved hfile)).path, fun f hf bytes hb => ?_⟩
    by_cases hpath : f.path = f₀.path
    · rw [hpath, hobject] at hb
      obtain rfl := Object.file.inj (Option.some.inj hb)
      rw [hpath]
      exact ⟨_, Function.update_self _ _ _, List.prefix_append _ _⟩
    · exact ⟨bytes, (Function.update_of_ne hpath _ _).trans hb, List.prefix_refl bytes⟩
  | sought hfd hfile hobject hseek => exact .update _ (hmoved hfile)
  | openedDir dir hd => exact .refl k _ _
  | closedDir => exact .refl k _ _
  | madeDir hpath hname => exact (Grows.refl k _ _).object (hvacant hname)
  | unlinked hfile hclosed => exact (Grows.refl k _ _).object fun f hf _ _ => hclosed k f hf
  | removedDir hdir hempty hroot =>
    refine (Grows.refl k _ _).object fun f _ bytes hb hpath => ?_
    rw [hpath, hdir] at hb
    cases hb
  | described hd hst => exact .refl k _ _
  | moved hd => exact .refl k _ _

/-- A slot that is open stays open unless a descriptor is closed. -/
theorem Step.stays (hs : Step c r σ σ') (hc : ∀ fd, c ≠ .close fd) (hf : σ.files k = some f) :
    ∃ g, σ'.files k = some g := by
  have hset : ∀ l g, ∃ g', Function.update σ.files l (some g) k = some g' := by
    intro l g
    by_cases hkl : k = l
    · exact ⟨g, hkl ▸ Function.update_self _ _ _⟩
    · exact ⟨f, (Function.update_of_ne hkl _ _).trans hf⟩
  cases hs with
  | failed => exact ⟨f, hf⟩
  | opened hflags hfile hslot hfd => exact hfd.files.2 ▸ hset _ _
  | created hflags hpath hname hslot hfd => exact hfd.files.2 ▸ hset _ _
  | closed hfd hfile => exact absurd rfl (hc _)
  | read hfd hfile hobject hpos hn hout hrest => exact hset _ _
  | printed hfd => exact ⟨f, hf⟩
  | written hfd hfile hmode hobject hroom => exact hset _ _
  | sought hfd hfile hobject hseek => exact hset _ _
  | openedDir dir hd => exact ⟨f, hf⟩
  | closedDir => exact ⟨f, hf⟩
  | madeDir hpath hname => exact ⟨f, hf⟩
  | unlinked hfile hclosed => exact ⟨f, hf⟩
  | removedDir hdir hempty hroot => exact ⟨f, hf⟩
  | described hd hst => exact ⟨f, hf⟩
  | moved hd => exact ⟨f, hf⟩

/-- The file of an open slot keeps its path, and its bytes stay in front. -/
def Holds (k : ℕ) (q : Path) (bytes : List Byte) (σ : State) : Prop :=
  ∃ f bytes', σ.files k = some f ∧ f.path = q ∧ σ.objects q = some (.file bytes') ∧ bytes <+: bytes'

theorem Step.holds (hs : Step c r σ σ') (hc : ∀ fd, c ≠ .close fd) (h : Holds k q bytes σ) :
    Holds k q bytes σ' := by
  obtain ⟨f, bytes', hf, rfl, hb, hpre⟩ := h
  obtain ⟨g, hg⟩ := hs.stays hc hf
  obtain ⟨bytes'', hb', hpre'⟩ := (hs.grows k).bytes f hf bytes' hb
  exact ⟨g, bytes'', hg, (hs.grows k).path f g hf hg, hb', hpre.trans hpre'⟩

end Sound

end FsNamespace
