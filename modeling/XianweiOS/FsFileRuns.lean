import XianweiOS.FsRemoveCalls
import XianweiOS.FsFormatVolume
import XianweiOS.LabelledRuns

/-! Runs of the calls on files of one process. Call by call, and with the same replies, the kernel
follows the moves of the files and directories by their paths, from a new file system on. -/
namespace FsFileRuns

open ByteStore HaltingProgram KernelBitmap DeviceIde FsVolume FsInodeTable FsBlockMap FsOwnership
  FsFreeBlocks FsStore FsDirectory FsDirectoryMap FsDirectoryRuns FsFormat FsPath FsOpenFiles
  FsSyscalls FsReferenceCounts FsReferenceRuns FsProcesses PathTree FsTree FsSearch FsConsistentTree
  FsTreeRemove FsImage FsIntact FsNamespace FsShown FsLookCalls FsFileCalls FsTreeCalls
  FsRemoveCalls LabelledRuns

variable {part : Partition} {S : Prop} {s s' : Kernel part} {σ σ' : State} {t : FileTree} {x : ℕ → ℕ}
  {v : Volume part} {k : ℕ} {c : FsNamespace.Call} {r : Reply} {f : OpenFile}

/-- A call, with what it finds in its locals and, were its file a pipe, in the ring, and with the
answers of the allocator. -/
structure Request where
  call : FsNamespace.Call
  junk : Junk
  ioqWord : ℕ
  mallocs : ℕ → Bool

def serve (q : Request) (s : Kernel part) : Option (Reply × Kernel part) :=
  match q.call with
  | .open pathname flags => (sysOpen q.junk pathname flags s).map fun (ret, s) => (.int ret, s)
  | .close fd => (sysClose fd s).map fun (ret, s) => (.int ret, s)
  | .read fd buf count => (sysRead fd buf count s).map fun (r, s) => (.bytes r.1 r.2, s)
  | .write fd buf count => (sysWrite fd buf count s).map fun (ret, s) => (.int ret, s)
  | .lseek fd offset whence =>
    (sysLseek q.ioqWord fd offset whence s).map fun (ret, s) => (.int ret, s)
  | .opendir name => (sysOpendir q.junk name s).map fun (dir, s) => (.dir dir, s)
  | .closedir dir => (sysClosedir dir s).map fun (ret, s) => (.int ret, s)
  | .mkdir pathname => (sysMkdir q.junk pathname s).map fun (ret, s) => (.int ret, s)
  | .unlink pathname => (sysUnlink q.junk pathname s).map fun (ret, s) => (.int ret, s)
  | .rmdir pathname => (sysRmdir q.junk pathname s).map fun (ret, s) => (.int ret, s)
  | .stat path => (sysStat q.junk path s).map fun (st, s) => (.stat st, s)
  | .chdir path => (sysChdir q.junk path s).map fun (ret, s) => (.int ret, s)

/-- The kernel as the call finds it. -/
def Request.start (q : Request) (s : Kernel part) : Kernel part := { s with mallocs := q.mallocs }

/-- A call as it shows from outside: what was asked, and what was answered. -/
def exec (q : Request) (s : Kernel part) : Option ((FsNamespace.Call × Reply) × Kernel part) :=
  (serve q (q.start s)).map fun (r, s) => ((q.call, r), s)

/-- The directory that `sys_rmdir` takes away. -/
def Request.RemovesDir (q : Request) (s : Kernel part) (n : ℕ) : Prop :=
  match q.call with
  | .rmdir pathname => RmdirFinds q.junk pathname (q.start s) n
  | _ => False

/-- The object that a removing call takes away. -/
def Request.Removes (q : Request) (s : Kernel part) (n : ℕ) : Prop :=
  match q.call with
  | .unlink pathname => UnlinkFinds q.junk pathname (q.start s) n
  | _ => q.RemovesDir s n

theorem Request.Removes.ne_root {q : Request} {n : ℕ} (h : q.Removes s n) : n ≠ 0 := by
  obtain ⟨call, junk, ioqWord, mallocs⟩ := q
  cases call
  case unlink pathname =>
    obtain ⟨record, u, -, hn, -⟩ := h
    exact hn
  case rmdir pathname =>
    obtain ⟨record, u, -, hn, -⟩ := h
    exact hn
  all_goals exact h.elim

/-- What a new object needs: memory (on a machine without, the allocator halts before it answers),
and a number that a directory entry can tell. -/
def Roomy (q : Request) (s : Kernel part) : Prop :=
  (∀ k, q.mallocs k = true) ∧ ∃ n < 256, s.vol.inodeBit n = false

/-- Paths are strings, and where the kernel would take an uninitialised number they are not made of
slashes only; there is room for a new object; `.` is not the last name on the way to a directory that
could be removed. If `S` holds, writes catch up with the block bitmap. -/
def Fine (S : Prop) (q : Request) (s : Kernel part) : Prop :=
  match q.call with
  | .open pathname flags => (0 : Byte) ∉ pathname ∧ (creates flags = true → Roomy q s)
  | .mkdir pathname => (0 : Byte) ∉ pathname ∧ Roomy q s
  | .opendir pathname | .stat pathname | .chdir pathname => PathFine pathname
  | .unlink pathname => (0 : Byte) ∉ pathname
  | .rmdir pathname => PathFine pathname ∧ Undotted q.junk pathname (q.start s)
  | .write fd _ count => S → Masked s fd count
  | _ => True

/-- What is to be taken away is open in the table of files or not at all. -/
def Admits (S : Prop) (q : Request) (s : Kernel part) : Prop :=
  Fine S q s ∧ ∀ n, q.Removes s n → Tabled s n

/-- The moves of the files, labelled as the kernel labels its calls. -/
def moves (σ : State) (b : FsNamespace.Call × Reply) (σ' : State) : Prop := Step b.1 b.2 σ σ'

section Run

theorem Serving.start (h : Serving S s t σ) (q : Request) : Serving S (q.start s) t σ := by
  obtain ⟨x, hi, hs⟩ := h
  exact ⟨x, hi.withMallocs q.mallocs, hs.same rfl rfl (fun _ _ => rfl) rfl⟩

/-- What a call has answered is a move of the files. Every directory stays, but for what the call
takes away, and the process works where it has worked or in a directory. -/
structure Served (S : Prop) (q : Request) (s : Kernel part) (t : FileTree) (r : Reply)
    (s' : Kernel part) (σ σ' : State) (t' : FileTree) : Prop where
  step : Step q.call r σ σ'
  serving : Serving S s' t' σ'
  dirs : ∀ d, t.IsDir d → ¬q.RemovesDir s d → t'.IsDir d
  cwd : s'.cur.cwdInodeNr = s.cur.cwdInodeNr ∨ t'.IsDir s'.cur.cwdInodeNr

theorem RunsOn.served {q : Request}
    (h : ∃ σ', Step q.call r σ σ' ∧ RunsOn S (q.start s) t s' σ') :
    ∃ σ' t', Served S q s t r s' σ σ' t' := by
  obtain ⟨σ', hstep, t', ht, hd, hcwd⟩ := h
  exact ⟨σ', t', hstep, ht, fun d hdir _ => hd d hdir, .inl hcwd⟩

theorem serve_served {q : Request} (h : Serving S s t σ) (hok : Admits S q s)
    (hrun : serve q (q.start s) = some (r, s')) : ∃ σ' t', Served S q s t r s' σ σ' t' := by
  obtain ⟨x, hi, hs⟩ := Serving.start h q
  obtain ⟨hfine, hfinds⟩ := hok
  obtain ⟨call, junk, ioqWord, mallocs⟩ := q
  cases call <;>
    (obtain ⟨⟨a, s₁⟩, hcall, he⟩ := Option.map_eq_some_iff.mp hrun
     obtain ⟨rfl, rfl⟩ := Prod.mk.inj he)
  case «open» pathname flags =>
    exact RunsOn.served (sysOpen_running hi hs hfine.1 hfine.2 hcall)
  case close fd => exact RunsOn.served (sysClose_running hi hs hcall)
  case read fd buf count => exact RunsOn.served (sysRead_running hi hs hcall)
  case write fd buf count => exact RunsOn.served (sysWrite_running hi hs hfine hcall)
  case lseek fd offset whence => exact RunsOn.served (sysLseek_running hi hs hcall)
  case opendir name => exact RunsOn.served (sysOpendir_running hi hs hfine hcall)
  case closedir dir => exact RunsOn.served (sysClosedir_running hi hs hcall)
  case mkdir pathname =>
    exact RunsOn.served (sysMkdir_running hi hs hfine.1 hfine.2.1 hfine.2.2 hcall)
  case unlink pathname => exact RunsOn.served (sysUnlink_running hi hs hfine hfinds hcall)
  case rmdir pathname =>
    obtain ⟨σ', t', hstep, ht, hd, hcwd⟩ := sysRmdir_running hi hs hfine.1 hfine.2 hfinds hcall
    exact ⟨σ', t', hstep, ht, hd, .inl hcwd⟩
  case stat path => exact RunsOn.served (sysStat_running hi hs hfine hcall)
  case chdir path =>
    obtain ⟨σ', hstep, ht, hcwd⟩ := sysChdir_running hi hs hfine hcall
    exact ⟨σ', t, hstep, ht, fun _ hd _ => hd, hcwd⟩

/-- One call: what the kernel answers is a move of the files it shows. -/
theorem serve_running {q : Request} (h : Running S s σ) (hok : Admits S q s)
    (hrun : serve q (q.start s) = some (r, s')) : ∃ σ', Step q.call r σ σ' ∧ Running S s' σ' := by
  obtain ⟨t, h⟩ := h
  obtain ⟨σ', t', hserved⟩ := serve_served h hok hrun
  exact ⟨σ', hserved.step, t', hserved.serving⟩

theorem exec_running {q : Request} {b : FsNamespace.Call × Reply} (h : Running S s σ)
    (hok : Admits S q s) (hrun : exec q s = some (b, s')) : ∃ σ', moves σ b σ' ∧ Running S s' σ' := by
  obtain ⟨⟨r, s₁⟩, hserve, he⟩ := Option.map_eq_some_iff.mp hrun
  obtain ⟨rfl, rfl⟩ := Prod.mk.inj he
  exact serve_running h hok hserve

variable {l : List Request} {calls : List (FsNamespace.Call × Reply)}

/-- A run of admitted calls is a run of the files, with the same calls and the same replies. -/
theorem run_follows_files (h : Running S s σ) (hok : AllMeet (next exec) (Admits S) l s)
    (hrun : runLabels exec l s = some (calls, s')) :
    ∃ σ', Trace moves σ calls σ' ∧ Running S s' σ' :=
  runLabels_simulated (fun _ _ _ _ _ hr ha he => exec_running hr ha he) h hok hrun

theorem run_running (h : ∃ σ, Running S s σ) (hok : AllMeet (next exec) (Admits S) l s)
    (hrun : runAll (next exec) l s = some s') : ∃ σ, Running S s' σ := by
  refine runAll_invariant (fun s => ∃ σ, Running S s σ) (fun q s s' hr ha hs => ?_) h hok hrun
  obtain ⟨σ, hr⟩ := hr
  obtain ⟨⟨b, u⟩, hexec, rfl⟩ := Option.map_eq_some_iff.mp hs
  obtain ⟨σ', -, hr'⟩ := exec_running hr ha hexec
  exact ⟨σ', hr'⟩

/-- Objects stay in directories, and open files in their places. -/
theorem trace_sound (h : Trace moves σ calls σ') (hs : Sound σ.objects σ.files) :
    Sound σ'.objects σ'.files :=
  h.invariant (fun σ => Sound σ.objects σ.files) (fun _ => True)
    (fun _ _ _ hi _ hm => Step.sound hm hi) (fun _ _ => trivial) hs

/-- The bytes of the file that slot `k` of the table is open on. -/
def slotBytes (s : Kernel part) (k : ℕ) : Option (List Byte) := (fileNumber s k).map (fileBytes s.vol)

theorem running_slot (h : Running S s σ) (hk : k < maxFilesOpen) {bytes : List Byte}
    (hb : slotBytes s k = some bytes) : ∃ f, σ.files k = some f ∧
      σ.objects f.path = some (.file bytes) := by
  obtain ⟨t, x, hi, hs⟩ := h
  obtain ⟨n, hn, rfl⟩ := Option.map_eq_some_iff.mp hb
  obtain ⟨a, ha, -⟩ := Option.bind_eq_some_iff.mp hn
  obtain ⟨m, i, f, hslot⟩ := slot_open hi hs hk ha
  obtain rfl := Option.some.inj (hn.symm.trans hslot.number)
  exact ⟨f, hslot.listed, hslot.object⟩

theorem slot_running (h : Running S s σ) (hk : k < maxFilesOpen) (hf : σ.files k = some f)
    {bytes : List Byte} (ho : σ.objects f.path = some (.file bytes)) :
    slotBytes s k = some bytes := by
  obtain ⟨t, x, hi, hs⟩ := h
  obtain ⟨a, n, i, hslot⟩ := listed_slot hi hs hk hf
  have hbytes := hslot.object.symm.trans ho
  rw [slotBytes, hslot.number, Option.map_some, Object.file.inj (Option.some.inj hbytes)]

/-- As long as nothing is closed, what stands in an open file stays where it is on the disk. -/
theorem run_keeps_bytes (h : Running S s σ) (hok : AllMeet (next exec) (Admits S) l s)
    (hrun : runLabels exec l s = some (calls, s')) (hopen : ∀ b ∈ calls, ∀ fd, b.1 ≠ .close fd)
    (hk : k < maxFilesOpen) {bytes : List Byte} (hb : slotBytes s k = some bytes) :
    ∃ bytes', slotBytes s' k = some bytes' ∧ bytes <+: bytes' := by
  obtain ⟨f, hf, ho⟩ := running_slot h hk hb
  obtain ⟨σ', htrace, h'⟩ := run_follows_files h hok hrun
  have hold : Holds k f.path bytes σ := ⟨f, bytes, hf, rfl, ho, List.prefix_refl bytes⟩
  obtain ⟨g, bytes', hg, hpath, ho', hpre⟩ :=
    htrace.invariant (Holds k f.path bytes) (fun b => ∀ fd, b.1 ≠ .close fd)
      (fun _ _ _ hi hc hm => Step.holds hm hc hi) hopen hold
  exact ⟨bytes', slot_running h' hk hg (hpath ▸ ho'), hpre⟩

end Run

section Mounted

/-- What a kernel shows that has just mounted a file system: nothing is open but the three descriptors
of the console. -/
def mountedFiles (O : Objects) : State where
  objects := O
  files _ := none
  fds j := if j < 3 then some j else none

theorem booted_running (hb : Booted v s) (h : Image S v t) {O : Objects}
    (hlook : ∀ q, Plain dots q → O q = t.look dots 0 (fileBytes v) q) :
    Running S s (mountedFiles O) := by
  obtain rfl := hb.vol
  obtain ⟨E, htop⟩ := h.hierarchy.tree.top
  have hroot : t 0 ≠ none := htop ▸ Option.some_ne_none _
  have hno : (diskInode part s.vol.disk 0).iNo = 0 :=
    h.consistent.owned.number 0 (h.allocated.mpr hroot)
  have hopen : ∀ a ∈ s.openInodes, a = 0 ∧ ∀ i, s.inodes a = some i →
      i = { diskInode part s.vol.disk 0 with openCnts := 1 } := by
    intro a ha
    rw [hb.openInodes, List.mem_singleton] at ha
    refine ⟨ha, fun i hi => ?_⟩
    rw [ha, hb.inode] at hi
    exact (Option.some.inj hi).symm
  have hidle : ∀ k, (s.fileTable k).fdInode = none := fun k => by rw [hb.fileTable]
  refine ⟨t, fun _ => 0, ⟨h, hb.counted, ⟨_, (congrArg s.inodes hb.rootInode).trans hb.inode, hno⟩,
    fun a ha i hi => ?_, fun a ha b hb' i j _ _ _ => ?_, fun k _ a i ha _ => ?_, fun k => ?_⟩,
    hlook, fun k _ => ⟨fun _ => hidle k, fun _ => rfl⟩, fun k f hf => ?_, fun k _ f hf => ?_, ?_⟩
  · rw [(hopen a ha).2 i hi]
    dsimp only
    rw [hno]
    exact ⟨hroot, hno.symm, rfl, fun _ _ => rfl⟩
  · exact (hopen a ha).1.trans (hopen b hb').1.symm
  · rw [hidle k] at ha
    cases ha
  · rw [hb.fileTable]
    exact (show (0 : ℕ) ≠ pipeFlag by decide)
  · cases hf
  · cases hf
  · rw [hb.cur]
    rfl

end Mounted

section NewFileSystem

/-- A root directory without entries. -/
def newTree : FileTree := fun n => if n = 0 then some (.dir 0 fun _ => none) else none

theorem newTree_some {n : ℕ} (h : newTree n ≠ none) : n = 0 := by
  by_contra h0
  exact h (if_neg h0)

theorem newTree_names {n c : ℕ} {name : List Byte} : ¬newTree.Names n name c := by
  rintro ⟨p, E, hn, hE⟩
  obtain rfl := newTree_some (hn ▸ Option.some_ne_none _)
  obtain ⟨-, rfl⟩ := Node.dir.inj (Option.some.inj hn)
  cases hE

theorem newTree_hierarchy : Hierarchy dots 0 newTree := by
  refine ⟨⟨⟨_, rfl⟩, fun d k c h => absurd h newTree_names, fun c hc h0 =>
    absurd (newTree_some hc) h0⟩, fun d k c h => absurd h newTree_names,
    fun d d' k k' c h => absurd h newTree_names, fun c hc => ⟨[], by simp [Plain], ?_⟩⟩
  rw [newTree_some hc]
  rfl

section Formatted

variable (h : Formatted v) (h8 : 8 ≤ dataBlocks part)

include h

theorem formatted_allocated {n : ℕ} (hn : (diskStore v).Allocated n) : n = 0 := by
  have hbit : v.inodeBit n = true := hn.2
  rw [h.inodeBit n hn.1] at hbit
  exact of_decide_eq_true hbit

/-- The root directory has the first block of the data area. -/
theorem formatted_refs {p : ℕ} (hp : p < 141) :
    diskRefs v 0 p = if p = 0 then part.sb.dataStartLba else 0 := by
  rw [diskRefs, ref_same h.root]
  exact ref_single (fun _ _ => rfl) hp

theorem formatted_inside : Inside v := by
  have hb := part.bounds
  refine ⟨?_, fun n hn p hp => ?_⟩
  · rintro x ⟨i, rfl, hi, hclear⟩
    rw [v.block_len] at hi
    rw [h.blockBit i (by omega)] at hclear
    have hlt := of_decide_eq_false hclear
    simp only [dataBlocks] at hlt
    omega
  · rw [formatted_allocated h hn, formatted_refs h hp]
    split <;> omega

include h8

theorem formatted_used : InUse v part.sb.dataStartLba := by
  have hlen := h.covered
  refine ⟨0, rfl, ?_, ?_⟩
  · rw [v.block_len]
    omega
  · rw [h.blockBit 0 (by omega)]
    exact decide_eq_true (.inl ⟨rfl, h8⟩)

theorem formatted_owned : Owned (diskStore v) := by
  have hrefs : ∀ n, (diskStore v).Allocated n → ∀ p < 141, (diskStore v).refs n p =
      if p = 0 then part.sb.dataStartLba else 0 := by
    intro n hn p hp
    rw [formatted_allocated h hn]
    exact formatted_refs h hp
  have hfirst : ∀ n, (diskStore v).Allocated n → ∀ p < 141, (diskStore v).refs n p ≠ 0 →
      p = 0 := by
    intro n hn p hp hz
    by_contra h0
    exact hz ((hrefs n hn p hp).trans (if_neg h0))
  refine ⟨fun n hn => ?_, fun n hn p hp hz => ?_, fun n n' hn hn' p hp p' hp' hz he => ?_⟩
  · rw [formatted_allocated h hn]
    exact h.root.no
  · rw [hrefs n hn p hp, if_pos (hfirst n hn p hp hz)]
    exact formatted_used h h8
  · exact ⟨(formatted_allocated h hn).trans (formatted_allocated h hn').symm,
      (hfirst n hn p hp hz).trans (hfirst n' hn' p' hp' (he ▸ hz)).symm⟩

/-- A new file system shows the root directory alone. -/
theorem formatted_image : Image S v newTree := by
  have hb := part.bounds
  have hdir : ∀ d, newTree.IsDir d → d = 0 := by
    rintro d ⟨p, E, hd⟩
    exact newTree_some (hd ▸ Option.some_ne_none _)
  have hnew : NewDirectory v (newRootInode part.sb.dataStartLba) 0 0 :=
    newDirectory_of_block (by omega) (by omega) (formatted_used h h8)
      (by rw [maxLba]; omega) rfl (fun _ _ => rfl) h.rootBlock
  refine ⟨⟨⟨newTree_hierarchy.tree, fun n hn => ?_, fun d hd => ?_, fun d hd => ?_⟩,
    formatted_owned h h8, fun n hn => ?_, fun n hn p hp => ?_, ?_⟩, newTree_hierarchy, fun n hn => ?_,
    fun n hn hbit => ?_, fun n hn => ?_, formatted_inside h, h.inodeSynced, fun _ => h.blockSynced⟩
  · rw [newTree_some hn]
    omega
  · rw [hdir d hd]
    exact h.root.no
  · rw [hdir d hd, entriesOf_bare (m := 0) rfl rfl rfl]
    exact directory_same hnew.directory h.root.symm
  · rw [newTree_some hn, h.inodeBit 0 (by omega)]
    rfl
  · have hlba : (if p = 0 then part.sb.dataStartLba else 0) ≤ maxLba := by
      rw [maxLba]
      split <;> omega
    rw [newTree_some hn]
    exact (formatted_refs h hp).trans_le hlba
  · exact formatted_refs h (by omega)
  · rw [newTree_some hn]
    omega
  · rw [formatted_allocated h ⟨hn, hbit⟩]
    exact Option.some_ne_none _
  · have h0 := newTree_some (hn ▸ Option.some_ne_none _)
    rw [h0] at hn
    cases hn

end Formatted

/-- Only `/` is there. -/
def newFiles : State := mountedFiles fun q => if q = [] then some .directory else none

theorem newFiles_sound : Sound newFiles.objects newFiles.files := by
  have hroot : ∀ {q o}, newFiles.objects q = some o → q = [] := by
    intro q o hq
    by_contra hne
    exact absurd (hq.symm.trans (if_neg hne)) (Option.some_ne_none o)
  refine ⟨rfl, fun q o hq => ?_, fun d k o hq => ?_, fun k f hf => ?_⟩
  · rw [hroot hq]
    simp [Plain]
  · simpa using hroot hq
  · cases hf

/-- The paths of a new file system. -/
theorem newTree_look {bytes : ℕ → List Byte} {q : Path} (hq : Plain dots q) :
    newFiles.objects q = newTree.look dots 0 bytes q := by
  cases q with
  | nil => rfl
  | cons name q =>
    have hchild : newTree.child dots 0 name = none := by
      obtain ⟨h1, h2⟩ := hq name List.mem_cons_self
      rw [child_dir rfl, if_neg h1, if_neg h2]
    rw [Tree.look, Tree.walk, hchild]
    rfl

/-- Formats the partition, mounts it and opens its root directory. -/
def bootNew (part : Partition) (fuel : ℕ) (pad : Bytes) (len : ℕ) (disk : Bytes) (m : ℕ → Bool) :
    Option (Kernel part) := do
  let (sb, disk) ← partitionFormat fuel pad len part.startLba part.secCnt disk
  assert (sb = part.sb)
  let v ← mountPartition part disk
  openRootDir (mounted v m)

theorem bootNew_some {fuel len : ℕ} {pad disk : Bytes} {m : ℕ → Bool}
    (hs : bootNew part fuel pad len disk m = some s) :
    ∃ disk' v, mountPartition part disk' = some v ∧ openRootDir (mounted v m) = some s ∧
      Formatted v := by
  simp only [bootNew, bind_some_iff, assert_eq_some] at hs
  obtain ⟨⟨sb, disk'⟩, hf, -, rfl, v, hv, hs⟩ := hs
  exact ⟨disk', v, hv, hs, mount_formatted hf hv⟩

theorem new_running {fuel len : ℕ} {pad disk : Bytes} {m : ℕ → Bool} (h8 : 8 ≤ dataBlocks part)
    (hs : bootNew part fuel pad len disk m = some s) : Running S s newFiles := by
  obtain ⟨disk', v, -, hb, hv⟩ := bootNew_some hs
  exact booted_running (openRootDir_some hb) (formatted_image hv h8) fun q hq => newTree_look hq

/-- A process that works on a new file system sees a map from paths to files and directories, in
which every object stands in a directory and every open file in its place. -/
theorem new_file_system_run {fuel len : ℕ} {pad disk : Bytes} {m : ℕ → Bool} {l : List Request}
    {calls : List (FsNamespace.Call × Reply)} (h8 : 8 ≤ dataBlocks part)
    (hs : bootNew part fuel pad len disk m = some s) (hok : AllMeet (next exec) (Admits S) l s)
    (hrun : runLabels exec l s = some (calls, s')) : ∃ σ', Trace moves newFiles calls σ' ∧
      Running S s' σ' ∧ Sound σ'.objects σ'.files := by
  obtain ⟨σ', htrace, h'⟩ := run_follows_files (new_running h8 hs) hok hrun
  exact ⟨σ', htrace, h', trace_sound htrace newFiles_sound⟩

def Reply.value : Reply → Option ℤ
  | .int ret => some ret
  | .bytes ret _ => some ret
  | _ => none

def fileName : List Byte := [0x66]

def filePath : List Byte := slash :: fileName

def plainRequest (c : FsNamespace.Call) : Request := ⟨c, noJunk, 0, fun _ => true⟩

/-- The file `/f` is created, written, read from its start, closed, looked at and removed. -/
def writtenRun : List Request :=
  [.open filePath 6, .write 3 (fun _ => 0x78) 5, .lseek 3 0 .seekSet, .read 3 zeroes 9, .close 3,
    .stat filePath].map plainRequest

def removal : Request := plainRequest (.unlink filePath)

theorem filePath_fine : PathFine filePath := by
  refine ⟨by decide, .inr ?_⟩
  rw [filePath, components_slash, components_last (by decide) (by decide)]
  exact List.cons_ne_nil _ _

def removedRun : List Request := writtenRun ++ [removal]

/-- Behind the run only the root directory is open. -/
theorem writtenRun_tabled {s s' : Kernel smallPartition} {n : ℕ}
    (hs : bootNew smallPartition 3 zeroes 0 zeroes (fun _ => true) = some s)
    (hrun : runAll (next exec) writtenRun s = some s') (hfind : removal.Removes s' n) :
    Tabled s' n := by
  obtain ⟨record, u, hsearch, -⟩ := hfind
  have heval : ((bootNew smallPartition 3 zeroes 0 zeroes fun _ => true).bind fun s =>
      (runAll (next exec) writtenRun s).bind fun s =>
        (searchFile noJunk filePath (junkRecord noJunk) (removal.start s)).map fun r =>
          (s.openInodes, (s.inodes 0).map Inode.iNo, r.1)) = some ([0], some 0, some 1) := by
    decide +kernel
  rw [hs, Option.bind_some, hrun, Option.bind_some] at heval
  obtain ⟨r, hr, he⟩ := Option.map_eq_some_iff.mp heval
  obtain rfl := Option.some.inj (hr.symm.trans hsearch)
  obtain ⟨hopen, he⟩ := Prod.mk.inj he
  obtain ⟨hroot, hn⟩ := Prod.mk.inj he
  intro a ha i hi hno
  rw [hopen, List.mem_singleton] at ha
  rw [ha] at hi
  rw [hi] at hroot
  obtain rfl := Option.some.inj hn
  exact absurd (hno.symm.trans (Option.some.inj hroot)) (by decide)

theorem removedRun_admitted {s : Kernel smallPartition}
    (hs : bootNew smallPartition 3 zeroes 0 zeroes (fun _ => true) = some s) :
    AllMeet (next exec) (Admits False) removedRun s := by
  have hbit : s.vol.inodeBit 1 = false := by
    obtain ⟨disk, v, -, hb, hv⟩ := bootNew_some hs
    rw [(openRootDir_some hb).vol, hv.inodeBit 1 (by omega)]
    rfl
  have hfound : ∀ {q : Request} {s : Kernel smallPartition} {P : ℕ → Prop},
      (∀ n, ¬q.Removes s n) → ∀ n, q.Removes s n → P n := fun h n hn => absurd hn (h n)
  refine allMeet_append ?_ fun s' hrun => ⟨⟨filePath_fine.string, fun n hn =>
    writtenRun_tabled hs hrun hn⟩, fun _ _ => trivial⟩
  exact ⟨⟨⟨filePath_fine.string, fun _ => ⟨fun _ => rfl, 1, by decide, hbit⟩⟩, hfound fun _ => id⟩,
    fun _ _ => ⟨⟨False.elim, hfound fun _ => id⟩, fun _ _ => ⟨⟨trivial, hfound fun _ => id⟩,
    fun _ _ => ⟨⟨trivial, hfound fun _ => id⟩, fun _ _ => ⟨⟨trivial, hfound fun _ => id⟩,
    fun _ _ => ⟨⟨filePath_fine, hfound fun _ => id⟩, fun _ _ => trivial⟩⟩⟩⟩⟩⟩

theorem new_file_system_run_removed : ∃ s s' calls σ',
    bootNew smallPartition 3 zeroes 0 zeroes (fun _ => true) = some s ∧
    runLabels exec removedRun s = some (calls, s') ∧
    calls.map (fun b => Reply.value b.2) =
      [some 3, some 5, some 0, some 5, some 0, none, some 0] ∧
    Trace moves newFiles calls σ' ∧ Running False s' σ' ∧ Sound σ'.objects σ'.files := by
  have heval : ((bootNew smallPartition 3 zeroes 0 zeroes fun _ => true).bind fun s =>
      (runLabels exec removedRun s).map fun r => r.1.map fun b => Reply.value b.2) =
      some [some 3, some 5, some 0, some 5, some 0, none, some 0] := by
    decide +kernel
  obtain ⟨s, hs, heval⟩ := Option.bind_eq_some_iff.mp heval
  obtain ⟨⟨calls, s'⟩, hrun, hcalls⟩ := Option.map_eq_some_iff.mp heval
  obtain ⟨σ', h⟩ := new_file_system_run (by decide) hs (removedRun_admitted hs) hrun
  exact ⟨s, s', calls, σ', hs, hrun, hcalls, h⟩

end NewFileSystem

end FsFileRuns
