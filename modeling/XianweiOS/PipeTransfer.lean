import XianweiOS.IoQueue
import XianweiOS.FsProcesses

/-! Transfers through a pipe (`shell/pipe.c`) and the dispatch of `sys_read` and `sys_write`
(`fs/fs.c`) between pipes, the keyboard, the console and files. A transfer runs with interrupts
off, so it goes on until it returns or the thread is blocked in `ioq_getchar` or
`ioq_putchar`; what it does after that is not followed. -/
namespace PipeTransfer

open ByteStore HaltingProgram IoQueue DeviceIde FsVolume FsOpenFiles FsSyscalls FsProcesses

variable {T : Type} [DecidableEq T]

/-- The `while` loop of a transfer. A thread that is not idle afterwards is blocked. -/
def transfer (t : T) (call : ℕ → Call) :
    (left done : ℕ) → System T → Option (ℕ × System T)
  | 0, done, s => some (done, s)
  | left + 1, done, s => do
    let s ← loop t (call done) s
    if s.place t = .idle then transfer t call left (done + 1) s
    else return (done, s)

/-- How many bytes still fit: one cell of the ring stays free. -/
def ioqRoom (q : IoQueue.Ring T) : ℕ := bufsize - 1 - ioqLength q

section Ring

omit [DecidableEq T]

variable {s : System T}

theorem length_view (s : System T) : (view s).content.length = ioqLength s.queue :=
  RingBuffer.length_contents

theorem length_le (h : Invariant s) : ioqLength s.queue ≤ bufsize - 1 :=
  Nat.le_sub_one_of_lt (RingBuffer.fill_lt h.head_lt)

theorem stuck_consumer (h : Invariant s) :
    s.queue.stuck .consumer = false ↔ 0 < ioqLength s.queue := by
  have hz : ioqLength s.queue = 0 ↔ s.queue.head = s.queue.tail :=
    RingBuffer.fill_eq_zero h.tail_lt
  rw [Nat.pos_iff_ne_zero, ne_eq, hz]
  simp [Ring.stuck, ioqEmpty]

theorem stuck_producer (h : Invariant s) :
    s.queue.stuck .producer = false ↔ 0 < ioqRoom s.queue := by
  have hf : ioqLength s.queue = bufsize - 1 ↔ nextPos s.queue.head = s.queue.tail :=
    RingBuffer.fill_eq_full h.head_lt h.tail_lt
  have hle := length_le h
  have hroom : 0 < ioqRoom s.queue ↔ ¬ ioqLength s.queue = bufsize - 1 := by
    unfold ioqRoom
    omega
  rw [hroom, hf]
  simp [Ring.stuck, ioqFull]

end Ring

section Transfer

variable {t : T} {s s' : System T} {call : ℕ → Call} {left done : ℕ}

/-- What is there can be taken without a wait. -/
theorem transfer_getchar (done : ℕ) (h : Invariant s) (ht : s.place t = .idle)
    (hl : left ≤ ioqLength s.queue) :
    ∃ s', transfer t (fun _ => .getchar) left done s = some (done + left, s') ∧ Invariant s' ∧
      s'.place t = .idle ∧ s'.stored = s.stored ∧
      (view s').content = (view s).content.drop left ∧
      s'.returned = s.returned ++ (view s).content.take left := by
  induction left generalizing done s with
  | zero => exact ⟨s, rfl, h, ht, rfl, rfl, (List.append_nil _).symm⟩
  | succ left ih =>
    have hb : s.queue.stuck .consumer = false := (stuck_consumer h).mpr (by omega)
    obtain ⟨s₁, hs₁, h₁, ht₁, hst₁, b, hfront, hret₁⟩ := loop_getchar h ht hb
    have hlen : ioqLength s.queue = ioqLength s₁.queue + 1 := by
      rw [← length_view, ← length_view, hfront, List.length_cons]
    obtain ⟨s', hs', h', ht', hst, hrest, hret⟩ := ih (done + 1) h₁ ht₁ (by omega)
    refine ⟨s', ?_, h', ht', hst.trans hst₁, ?_, ?_⟩
    · rw [transfer, hs₁, Option.bind_eq_bind, Option.bind_some, if_pos ht₁, hs']
      congr 2
      omega
    · rw [hrest, hfront, List.drop_succ_cons]
    · rw [hret, hret₁, hfront, List.take_succ_cons, List.append_assoc, List.singleton_append]

/-- What fits can be stored without a wait. -/
theorem transfer_putchar (byte : ℕ → UInt8) (done : ℕ) (h : Invariant s) (ht : s.place t = .idle)
    (hl : left ≤ ioqRoom s.queue) :
    ∃ s', transfer t (fun i => .putchar (byte i)) left done s = some (done + left, s') ∧
      Invariant s' ∧ s'.place t = .idle ∧ s'.returned = s.returned ∧
      (view s').content = (view s).content ++ (List.range left).map fun i => byte (done + i) := by
  induction left generalizing done s with
  | zero => exact ⟨s, rfl, h, ht, rfl, (List.append_nil _).symm⟩
  | succ left ih =>
    have hb : s.queue.stuck .producer = false := (stuck_producer h).mpr (by omega)
    obtain ⟨s₁, hs₁, h₁, ht₁, hret₁, hmore, -⟩ := loop_putchar (byte done) h ht hb
    have hlen : ioqLength s₁.queue = ioqLength s.queue + 1 := by
      rw [← length_view, ← length_view, hmore, List.length_append, List.length_singleton]
    have hroom : left ≤ ioqRoom s₁.queue := by
      unfold ioqRoom at *
      omega
    obtain ⟨s', hs', h', ht', hret, hall⟩ := ih (done + 1) h₁ ht₁ hroom
    refine ⟨s', ?_, h', ht', hret.trans hret₁, ?_⟩
    · rw [transfer, hs₁, Option.bind_eq_bind, Option.bind_some, if_pos ht₁, hs']
      congr 2
      omega
    · rw [hall, hmore, List.append_assoc, List.range_succ_eq_map, List.map_cons, List.map_map,
        Nat.add_zero, List.singleton_append]
      congr 3
      funext i
      rw [Function.comp_apply, Nat.add_assoc, Nat.succ_eq_one_add]

/-- One byte more than fits blocks the thread. -/
theorem transfer_over (byte : ℕ → UInt8) (done : ℕ) (h : Invariant s) (ht : s.place t = .idle)
    (hl : ioqRoom s.queue < left) :
    ∃ n s', transfer t (fun i => .putchar (byte i)) left done s = some (n, s') ∧ Invariant s' ∧
      s'.place t ≠ .idle := by
  induction left generalizing done s with
  | zero => omega
  | succ left ih =>
    by_cases hb : s.queue.stuck .producer = false
    · obtain ⟨s₁, hs₁, h₁, ht₁, -, hmore, -⟩ := loop_putchar (byte done) h ht hb
      have hlen : ioqLength s₁.queue = ioqLength s.queue + 1 := by
        rw [← length_view, ← length_view, hmore, List.length_append, List.length_singleton]
      have hpos := (stuck_producer h).mp hb
      have hroom : ioqRoom s₁.queue < left := by
        unfold ioqRoom at *
        omega
      obtain ⟨n, s', hs', h', ht'⟩ := ih (done + 1) h₁ ht₁ hroom
      refine ⟨n, s', ?_, h', ht'⟩
      rw [transfer, hs₁, Option.bind_eq_bind, Option.bind_some, if_pos ht₁, hs']
    · have hstuck : s.queue.stuck (Call.putchar (byte done)).role = true := by
        simpa [Call.role] using hb
      obtain ⟨s', hs', h', ht'⟩ := loop_stuck h ht hstuck
      refine ⟨done, s', ?_, h', ht'⟩
      rw [transfer, hs', Option.bind_eq_bind, Option.bind_some, if_neg ht']
      rfl

/-- Reading ends with all the bytes or blocks the thread. -/
theorem transfer_ends (left done : ℕ) (h : Invariant s) (ht : s.place t = .idle) :
    ∃ n s', transfer t (fun _ => .getchar) left done s = some (n, s') ∧ Invariant s' ∧
      (s'.place t = .idle → n = done + left ∧ s'.returned.length = s.returned.length + left) := by
  induction left generalizing done s with
  | zero => exact ⟨done, s, rfl, h, fun _ => ⟨rfl, rfl⟩⟩
  | succ left ih =>
    by_cases hb : s.queue.stuck .consumer = false
    · obtain ⟨s₁, hs₁, h₁, ht₁, -, b, -, hret⟩ := loop_getchar h ht hb
      obtain ⟨n, s', hs', h', hend⟩ := ih (done + 1) h₁ ht₁
      refine ⟨n, s', ?_, h', fun hidle => ?_⟩
      · rw [transfer, hs₁, Option.bind_eq_bind, Option.bind_some, if_pos ht₁, hs']
      · obtain ⟨hn, hlen⟩ := hend hidle
        rw [hret, List.length_append, List.length_singleton] at hlen
        omega
    · obtain ⟨s', hs', h', ht'⟩ :=
        loop_stuck (c := .getchar) h ht (by simpa [Call.role] using hb)
      refine ⟨done, s', ?_, h', fun hidle => absurd hidle ht'⟩
      rw [transfer, hs', Option.bind_eq_bind, Option.bind_some, if_neg ht']
      rfl

end Transfer

/-- What descriptors refer to outside the file system: the ring in the page at an address, the
keyboard's ring and what was put on the console. -/
structure Devices (T : Type) where
  ring : ℕ → System T
  kbdBuf : System T
  console : List Byte

structure Session (T : Type) (part : Partition) where
  kernel : Kernel part
  dev : Devices T

variable {part : Partition}

def Session.setRing (σ : Session T part) (a : ℕ) (ioq : System T) : Session T part :=
  { σ with dev := { σ.dev with ring := Function.update σ.dev.ring a ioq } }

def isPipe (globalFd : ℕ) (s : Kernel part) : Bool := (s.fileTable globalFd).fdFlag = pipeFlag

/-- The bytes that a thread took from a ring between two states of it. -/
def received (ioq ioq' : System T) : Bytes :=
  fun i => ((ioq'.returned.drop ioq.returned.length).getD i 0).toBitVec

/-- The answer is `none` when the thread is blocked. -/
def pipeRead (t : T) (fd : ℕ) (buf : Bytes) (count : ℕ) (σ : Session T part) :
    Option (Option (ℤ × Bytes) × Session T part) := do
  let globalFd ← fdLocal2global fd σ.kernel
  let a ← (σ.kernel.fileTable globalFd).fdInode
  let ioq := σ.dev.ring a
  let ioqLen := ioqLength ioq.queue
  let size := if ioqLen > count then count else ioqLen
  let (bytesRead, ioq') ← transfer t (fun _ => .getchar) size 0 ioq
  return (if ioq'.place t = .idle then some (bytesRead, patch buf 0 bytesRead (received ioq ioq'))
    else none, σ.setRing a ioq')

def pipeWrite (t : T) (fd : ℕ) (buf : Bytes) (count : ℕ) (σ : Session T part) :
    Option (Option ℤ × Session T part) := do
  let globalFd ← fdLocal2global fd σ.kernel
  let a ← (σ.kernel.fileTable globalFd).fdInode
  let ioq := σ.dev.ring a
  let ioqLeft := bufsize - ioqLength ioq.queue
  let size := if ioqLeft > count then count else ioqLeft
  let (bytesWrite, ioq') ← transfer t (fun i => .putchar (.ofBitVec (buf i))) size 0 ioq
  return (if ioq'.place t = .idle then some bytesWrite else none, σ.setRing a ioq')

/-- The string in `tmp_buf`, of 1024 bytes. -/
def tmpString (buf : Bytes) (count : ℕ) : Option (List Byte) := do
  assert (count ≤ 1024)
  let tmpBuf := (List.range 1024).map (patch zeroes 0 count buf)
  assert (0 ∈ tmpBuf)
  return tmpBuf.takeWhile (· ≠ 0)

def sysWrite (t : T) (fd : ℕ) (buf : Bytes) (count : ℕ) (σ : Session T part) :
    Option (Option ℤ × Session T part) :=
  if fd = 1 ∨ fd = 2 then do
    let str ← tmpString buf count
    return (some count, { σ with dev := { σ.dev with console := σ.dev.console ++ str } })
  else do
    let globalFd ← fdLocal2global fd σ.kernel
    if isPipe globalFd σ.kernel then pipeWrite t fd buf count σ
    else
      let (ret, s) ← FsSyscalls.sysWrite fd buf count σ.kernel
      return (some ret, { σ with kernel := s })

/-- `sys_read` of the standard input that was not redirected. -/
def kbdRead (t : T) (buf : Bytes) (count : ℕ) (σ : Session T part) :
    Option (Option (ℤ × Bytes) × Session T part) := do
  let (bytesRead, kbdBuf) ← transfer t (fun _ => .getchar) count 0 σ.dev.kbdBuf
  return (if kbdBuf.place t = .idle
    then some (if bytesRead = 0 then -1 else bytesRead,
      patch buf 0 bytesRead (received σ.dev.kbdBuf kbdBuf))
    else none, { σ with dev := { σ.dev with kbdBuf := kbdBuf } })

def sysRead (t : T) (fd : ℕ) (buf : Bytes) (count : ℕ) (σ : Session T part) :
    Option (Option (ℤ × Bytes) × Session T part) :=
  if fd = 1 ∨ fd = 2 then return (some (-1, buf), σ)
  else do
    let globalFd ← fdLocal2global fd σ.kernel
    if isPipe globalFd σ.kernel then pipeRead t fd buf count σ
    else if fd = 0 then kbdRead t buf count σ
    else
      let (ret, s) ← FsSyscalls.sysRead fd buf count σ.kernel
      return (some ret, { σ with kernel := s })

/-- The descriptor is open on the pipe whose ring is at `a`. -/
def PipeAt (fd a : ℕ) (s : Kernel part) : Prop :=
  ∃ k, fdLocal2global fd s = some k ∧ isPipe k s = true ∧ (s.fileTable k).fdInode = some a

section Calls

variable {t : T} {fd a count : ℕ} {buf : Bytes} {σ : Session T part}

/-- `pipe_write` returns at once, and the bytes that fit are at the end of the ring. -/
def StoresAll (t : T) (fd a : ℕ) (buf : Bytes) (count : ℕ) (σ : Session T part) : Prop :=
  ∃ ioq, pipeWrite t fd buf count σ =
      some (some ↑(min count (ioqRoom (σ.dev.ring a).queue)), σ.setRing a ioq) ∧
    IoQueue.Invariant ioq ∧ ioq.place t = .idle ∧
    (view ioq).content = (view (σ.dev.ring a)).content ++
      (List.range (min count (ioqRoom (σ.dev.ring a).queue))).map fun i => .ofBitVec (buf i)

/-- `pipe_read` returns at once with the first bytes of the ring. -/
def TakesAll (t : T) (fd a : ℕ) (buf : Bytes) (count : ℕ) (σ : Session T part) : Prop :=
  ∃ ioq buf', pipeRead t fd buf count σ =
      some (some (↑(min count (ioqLength (σ.dev.ring a).queue)), buf'), σ.setRing a ioq) ∧
    IoQueue.Invariant ioq ∧ ioq.place t = .idle ∧
    (view ioq).content = (view (σ.dev.ring a)).content.drop count ∧
    (∀ i, buf' i = (((view (σ.dev.ring a)).content.take count)[i]?.map UInt8.toBitVec).getD
      (buf i))

/-- `pipe_read` of a ring that is there. -/
theorem pipeRead_eq (hfd : PipeAt fd a σ.kernel) (buf : Bytes) (count : ℕ) :
    pipeRead t fd buf count σ =
      (transfer t (fun _ => .getchar) (min count (ioqLength (σ.dev.ring a).queue)) 0
        (σ.dev.ring a)).map fun r =>
          (if r.2.place t = .idle
            then some (↑r.1, patch buf 0 r.1 (received (σ.dev.ring a) r.2)) else none,
          σ.setRing a r.2) := by
  obtain ⟨k, hk, -, ha⟩ := hfd
  have hsize : (if ioqLength (σ.dev.ring a).queue > count then count
      else ioqLength (σ.dev.ring a).queue) = min count (ioqLength (σ.dev.ring a).queue) := by
    split <;> omega
  rw [pipeRead, hk, Option.bind_eq_bind, Option.bind_some, ha, Option.bind_eq_bind,
    Option.bind_some]
  dsimp only
  rw [hsize, Option.map_eq_bind]
  rfl

theorem pipeWrite_eq (hfd : PipeAt fd a σ.kernel) (buf : Bytes) (count : ℕ) :
    pipeWrite t fd buf count σ =
      (transfer t (fun i => .putchar (.ofBitVec (buf i)))
        (min count (bufsize - ioqLength (σ.dev.ring a).queue)) 0 (σ.dev.ring a)).map fun r =>
          (if r.2.place t = .idle then some ↑r.1 else none, σ.setRing a r.2) := by
  obtain ⟨k, hk, -, ha⟩ := hfd
  have hsize : (if bufsize - ioqLength (σ.dev.ring a).queue > count then count
      else bufsize - ioqLength (σ.dev.ring a).queue) =
        min count (bufsize - ioqLength (σ.dev.ring a).queue) := by
    split <;> omega
  rw [pipeWrite, hk, Option.bind_eq_bind, Option.bind_some, ha, Option.bind_eq_bind,
    Option.bind_some]
  dsimp only
  rw [hsize, Option.map_eq_bind]
  rfl

omit [DecidableEq T] in
theorem received_eq {ioq ioq' : System T} {l : List UInt8}
    (h : ioq'.returned = ioq.returned ++ l) (i : ℕ) :
    received ioq ioq' i = (l.getD i 0).toBitVec := by
  rw [received, h, List.drop_left]

theorem pipeRead_takes (buf : Bytes) (count : ℕ) (hfd : PipeAt fd a σ.kernel)
    (h : IoQueue.Invariant (σ.dev.ring a)) (ht : (σ.dev.ring a).place t = .idle) :
    TakesAll t fd a buf count σ := by
  obtain ⟨ioq, hrun, h', ht', -, hrest, hret⟩ :=
    transfer_getchar 0 h ht (Nat.min_le_right count _)
  rw [Nat.zero_add] at hrun
  refine ⟨ioq, patch buf 0 (min count (ioqLength (σ.dev.ring a).queue))
    (received (σ.dev.ring a) ioq), ?_, h', ht', ?_, fun i => ?_⟩
  · rw [pipeRead_eq hfd, hrun, Option.map_some, if_pos ht']
  · rw [hrest, ← length_view]
    exact List.drop_eq_drop_min.symm
  · have htake : (view (σ.dev.ring a)).content.take
        (min count (ioqLength (σ.dev.ring a).queue)) = (view (σ.dev.ring a)).content.take count := by
      rw [← length_view]
      exact List.take_eq_take_min.symm
    rw [htake] at hret
    by_cases hi : i < min count (ioqLength (σ.dev.ring a).queue)
    · have hlt : i < ((view (σ.dev.ring a)).content.take count).length := by
        rwa [List.length_take, length_view]
      rw [patch_in (by omega), Nat.sub_zero, received_eq hret, List.getElem?_eq_getElem hlt,
        List.getD_eq_getElem?_getD, List.getElem?_eq_getElem hlt]
      rfl
    · rw [patch_out (by omega), List.getElem?_eq_none]
      · rfl
      · rw [List.length_take, length_view]
        omega

theorem pipeWrite_stores_iff (buf : Bytes) (count : ℕ) (hfd : PipeAt fd a σ.kernel)
    (h : IoQueue.Invariant (σ.dev.ring a)) (ht : (σ.dev.ring a).place t = .idle) :
    StoresAll t fd a buf count σ ↔ count ≤ ioqRoom (σ.dev.ring a).queue := by
  have hle := length_le h
  constructor
  · rintro ⟨ioq, hrun, -, ht', -⟩
    by_contra hover
    have hsize : ioqRoom (σ.dev.ring a).queue <
        min count (bufsize - ioqLength (σ.dev.ring a).queue) := by
      unfold ioqRoom bufsize at *
      omega
    obtain ⟨n, ioq', hrun', -, hblocked⟩ :=
      transfer_over (fun i => .ofBitVec (buf i)) 0 h ht hsize
    rw [pipeWrite_eq hfd, hrun', Option.map_some, if_neg hblocked] at hrun
    cases hrun
  · intro hfits
    have hsize : min count (bufsize - ioqLength (σ.dev.ring a).queue) = count := by
      unfold ioqRoom bufsize at *
      omega
    obtain ⟨ioq, hrun, h', ht', -, hall⟩ :=
      transfer_putchar (fun i => .ofBitVec (buf i)) 0 h ht hfits
    rw [Nat.zero_add] at hrun
    refine ⟨ioq, ?_, h', ht', ?_⟩
    · rw [pipeWrite_eq hfd, hsize, hrun, Option.map_some, if_pos ht', Nat.min_eq_left hfits]
    · simpa [Nat.min_eq_left hfits] using hall

/-- Whatever is in the ring, `pipe_read` takes what is asked for or all there is; `pipe_write`
goes to wait for room unless what it is given fits. -/
theorem pipe_returns_at_once_iff (hfd : PipeAt fd a σ.kernel)
    (h : IoQueue.Invariant (σ.dev.ring a)) (ht : (σ.dev.ring a).place t = .idle) (buf : Bytes)
    (count : ℕ) :
    TakesAll t fd a buf count σ ∧
      (StoresAll t fd a buf count σ ↔ count ≤ ioqRoom (σ.dev.ring a).queue) :=
  ⟨pipeRead_takes buf count hfd h ht, pipeWrite_stores_iff buf count hfd h ht⟩

end Calls

/-- A ring nobody waits for. -/
def quietRing (head tail : ℕ) : System ℕ :=
  { (System.initial : System ℕ) with queue := ⟨none, none, fun _ => 0, head, tail⟩ }

theorem quietRing_invariant {head tail : ℕ} (hh : head < bufsize) (ht : tail < bufsize) :
    IoQueue.Invariant (quietRing head tail) := by
  refine ⟨SyncLock.initial_invariant, fun _ => rfl, fun r t => ?_, hh, ht⟩
  cases r <;> simp [quietRing, System.initial, IoQueue.Ring.waiter]

/-- A process with a pipe, whose descriptors are 3 and 4. -/
def pipeSession (head tail : ℕ) : Session ℕ smallPartition where
  kernel := { mounted (blankVolume smallPartition zeroes) (fun _ => true) with
    fileTable := Function.update (fun _ => ⟨0, 0, none⟩) 3 ⟨2, pipeFlag, some 0⟩
    cur := ⟨fun fd => if fd < 3 then some fd else if fd < 5 then some 3 else none, 0⟩ }
  dev := ⟨fun _ => quietRing head tail, quietRing 0 0, []⟩

theorem pipeSession_pipeAt (head tail : ℕ) : PipeAt 3 0 (pipeSession head tail).kernel :=
  ⟨3, rfl, rfl, rfl⟩

/-- With two bytes in the ring a read of five takes these two, and five bytes more go in. -/
theorem pipe_returns_at_once_iff_new :
    TakesAll 0 3 0 zeroes 5 (pipeSession 2 0) ∧
      StoresAll 0 3 0 (fun i => i) 5 (pipeSession 2 0) := by
  have h : IoQueue.Invariant (quietRing 2 0) := quietRing_invariant (by decide) (by decide)
  constructor
  · exact (pipe_returns_at_once_iff (pipeSession_pipeAt 2 0) h rfl zeroes 5).1
  · exact (pipe_returns_at_once_iff (pipeSession_pipeAt 2 0) h rfl (fun i => i) 5).2.mpr
      (by decide)

/-- A ring that is full by all but its free cell. -/
theorem pipe_write_full_blocks :
    IoQueue.Invariant ((pipeSession 2046 2047).dev.ring 0) ∧
      ((pipeSession 2046 2047).dev.ring 0).place 0 = .idle ∧
      ¬ StoresAll 0 3 0 zeroes 1 (pipeSession 2046 2047) ∧
      ∃ σ, pipeWrite 0 3 zeroes 1 (pipeSession 2046 2047) = some (none, σ) ∧
        (σ.dev.ring 0).place 0 = .waiting (.putchar 0) := by
  have h : IoQueue.Invariant (quietRing 2046 2047) :=
    quietRing_invariant (by decide) (by decide)
  refine ⟨h, rfl, fun hs => ?_, _, rfl, rfl⟩
  have := (pipeWrite_stores_iff zeroes 1 (pipeSession_pipeAt 2046 2047) h rfl).mp hs
  revert this
  decide

/-! Redirections. -/

/-- A process with its redirections so far: what each descriptor was last redirected to, and the
table it began with. -/
structure History (T : Type) (part : Partition) where
  session : Session T part
  target : ℕ → Option ℕ
  original : ℕ → Option ℕ

def History.start (σ : Session T part) : History T part :=
  ⟨σ, fun _ => none, σ.kernel.cur.fdTable⟩

/-- `others` is what other threads and the keyboard make of the rings between two calls. -/
inductive Event (T : Type) where
  | redirect (oldFd newFd : ℕ)
  | write (fd : ℕ) (buf : Bytes) (count : ℕ)
  | read (fd : ℕ) (buf : Bytes) (count : ℕ)
  | others (dev : Devices T)

/-- A descriptor that was redirected to one that is redirected now keeps the old entry. -/
def retarget (target : ℕ → Option ℕ) (oldFd newFd : ℕ) : ℕ → Option ℕ := fun fd =>
  if fd = oldFd then some newFd else if target fd = some oldFd then none else target fd

/-- `none` is a failed `ASSERT`. -/
def exec (t : T) : Event T → History T part → Option (History T part)
  | .redirect oldFd newFd, h => do
    let (_, s) ← sysFdRedirect oldFd newFd h.session.kernel
    return { h with
      session := { h.session with kernel := s }
      target := retarget h.target oldFd newFd }
  | .write fd buf count, h => do
    let (_, σ) ← sysWrite t fd buf count h.session
    return { h with session := σ }
  | .read fd buf count, h => do
    let (_, σ) ← sysRead t fd buf count h.session
    return { h with session := σ }
  | .others dev, h => some { h with session := { h.session with dev := dev } }

structure Devices.Sound (dev : Devices T) : Prop where
  ring : ∀ a, IoQueue.Invariant (dev.ring a)
  kbdBuf : IoQueue.Invariant dev.kbdBuf

/-- The thread runs: it is blocked in no ring. -/
structure Devices.Running (t : T) (dev : Devices T) : Prop where
  ring : ∀ a, (dev.ring a).place t = .idle
  kbdBuf : dev.kbdBuf.place t = .idle

def Enabled (t : T) : Event T → History T part → Prop
  | .redirect _ _, _ => True
  | .write _ _ _, h | .read _ _ _, h => h.session.dev.Running t
  | .others dev, _ => dev.Sound

/-- The answer of a call and the rings after it. -/
def onPipes {ρ : Type} (r : Option (ρ × Session T part)) : Option (ρ × (ℕ → System T)) :=
  r.map fun p => (p.1, p.2.dev.ring)

def onDevices {ρ : Type} (r : Option (ρ × Session T part)) : Option (ρ × Devices T) :=
  r.map fun p => (p.1, p.2.dev)

def Session.withFd (σ : Session T part) (fd : ℕ) (entry : Option ℕ) : Session T part :=
  { σ with kernel := { σ.kernel with cur := { σ.kernel.cur with
      fdTable := Function.update σ.kernel.cur.fdTable fd entry } } }

/-- A call on a descriptor does what it does on the pipe the descriptor was redirected to; on one
that was redirected to itself, what it did before all redirections. -/
def Transparent {ρ : Type} (call : ℕ → Session T part → Option (ρ × Session T part)) (fd : ℕ)
    (h : History T part) : Prop :=
  (∀ p a, 3 ≤ p → h.target fd = some p → PipeAt p a h.session.kernel →
    onPipes (call fd h.session) = onPipes (call p h.session)) ∧
  (h.target fd = some fd → onDevices (call fd h.session) =
    onDevices (call fd (h.session.withFd fd (h.original fd))))

def TransferTransparent (t : T) : Event T → History T part → Prop
  | .write fd buf count, h => fd = 1 → Transparent (fun fd => sysWrite t fd buf count) fd h
  | .read fd buf count, h => fd = 0 → Transparent (fun fd => sysRead t fd buf count) fd h
  | _, _ => True

/-- Nothing is written to a pipe as standard output, and standard input is redirected back only
where it was no pipe to begin with. -/
def Tolerated : Event T → History T part → Prop
  | .write fd _ count, h => fd = 1 →
    ∀ p a, 3 ≤ p → h.target fd = some p → PipeAt p a h.session.kernel → count = 0
  | .read fd _ _, h => fd = 0 → h.target fd = some fd →
    ∃ k < maxFilesOpen, h.original fd = some k ∧ isPipe k h.session.kernel = false
  | _, _ => True

/-- The standard slots are no pipes, and a descriptor that was redirected has the entry of its
target. -/
structure History.Sound (h : History T part) : Prop where
  std : ∀ k < 3, isPipe k h.session.kernel = false
  entry : ∀ fd v, h.target fd = some v → h.session.kernel.cur.fdTable fd =
    if v < 3 then some v else h.session.kernel.cur.fdTable v
  dev : h.session.dev.Sound

section Tables

omit [DecidableEq T]

variable {fd p a count : ℕ} {buf : Bytes} {σ σ' : Session T part} {h : History T part}

@[simp] theorem Session.withFd_self (σ : Session T part) (fd : ℕ) (entry : Option ℕ) :
    (σ.withFd fd entry).kernel.cur.fdTable fd = entry := by
  simp [Session.withFd]

@[simp] theorem Session.withFd_dev (σ : Session T part) (fd : ℕ) (entry : Option ℕ) :
    (σ.withFd fd entry).dev = σ.dev := rfl

/-- What transfers leave alone. -/
structure Keeps (σ σ' : Session T part) : Prop where
  fdTable : σ'.kernel.cur.fdTable = σ.kernel.cur.fdTable
  isPipe : ∀ k, isPipe k σ'.kernel = isPipe k σ.kernel
  dev : σ.dev.Sound → σ'.dev.Sound

theorem keeps_dev {dev : Devices T} (hd : dev.Sound) : Keeps σ { σ with dev := dev } :=
  ⟨rfl, fun _ => rfl, fun _ => hd⟩

theorem keeps_setRing {ioq : System T} (hi : IoQueue.Invariant ioq) : Keeps σ (σ.setRing a ioq) := by
  refine ⟨rfl, fun _ => rfl, fun hd => ⟨fun b => ?_, hd.kbdBuf⟩⟩
  by_cases hb : b = a
  · subst b
    simpa [Session.setRing] using hi
  · simpa [Session.setRing, hb] using hd.ring b

/-- A file's position moves, its flag does not. -/
theorem isPipe_setFile {s : Kernel part} {k pos : ℕ} (j : ℕ) :
    isPipe j (s.setFile k { s.fileTable k with fdPos := pos }) = isPipe j s := by
  by_cases hj : j = k
  · subst j
    rw [isPipe, isPipe, Kernel.setFile_self]
  · rw [isPipe, isPipe, Kernel.setFile_ne _ _ hj]

theorem keeps_fileWrite {s' : Kernel part} {ret : ℤ}
    (hw : FsSyscalls.sysWrite fd buf count σ.kernel = some (ret, s')) :
    Keeps σ { σ with kernel := s' } := by
  rw [FsSyscalls.sysWrite] at hw
  split at hw
  · rw [assert_bind] at hw
    obtain ⟨-, rfl⟩ := Prod.mk.inj (Option.some.inj hw.2)
    exact ⟨rfl, fun _ => rfl, id⟩
  · rw [bind_some_iff] at hw
    obtain ⟨k, -, hw⟩ := hw
    rw [assert_bind] at hw
    obtain ⟨-, hw⟩ := hw
    split at hw
    · simp only [fileWriteTo, bind_some_iff, Option.pure_def, Option.some.injEq,
        Prod.mk.injEq] at hw
      obtain ⟨_, -, _, -, _, -, -, rfl⟩ := hw
      exact ⟨rfl, fun j => isPipe_setFile j, id⟩
    · obtain ⟨-, rfl⟩ := Prod.mk.inj (Option.some.inj hw)
      exact ⟨rfl, fun _ => rfl, id⟩

theorem keeps_fileRead {s' : Kernel part} {ret : ℤ × Bytes}
    (hr : FsSyscalls.sysRead fd buf count σ.kernel = some (ret, s')) :
    Keeps σ { σ with kernel := s' } := by
  rw [FsSyscalls.sysRead] at hr
  split at hr
  · obtain ⟨-, rfl⟩ := Prod.mk.inj (Option.some.inj hr)
    exact ⟨rfl, fun _ => rfl, id⟩
  · rw [assert_bind, bind_some_iff] at hr
    obtain ⟨-, k, -, hr⟩ := hr
    rw [assert_bind] at hr
    obtain ⟨-, hr⟩ := hr
    simp only [fileReadFrom, bind_some_iff, Option.pure_def, Option.some.injEq,
      Prod.mk.injEq] at hr
    obtain ⟨_, -, _, -, _, -, -, rfl⟩ := hr
    exact ⟨rfl, fun j => isPipe_setFile j, id⟩

theorem setRing_self : σ.setRing a (σ.dev.ring a) = σ := by
  rw [Session.setRing, Function.update_eq_self]

theorem setRing_ring {ioq : System T} : (σ.setRing a ioq).dev.ring a = ioq :=
  Function.update_self ..

theorem History.Sound.keeps (hs : h.Sound) (hk : Keeps h.session σ') :
    History.Sound { h with session := σ' } := by
  refine ⟨fun k hk3 => ?_, fun fd v hv => ?_, hk.dev hs.dev⟩
  · exact (hk.isPipe k).trans (hs.std k hk3)
  · dsimp only
    rw [hk.fdTable]
    exact hs.entry fd v hv

theorem fdLocal2global_of {s : Kernel part} {k : ℕ} (hfd : fd < maxFilesOpenPerProc)
    (ht : s.cur.fdTable fd = some k) (hk : k < maxFilesOpen) : fdLocal2global fd s = some k := by
  rw [fdLocal2global, assert_pos hfd, Option.bind_eq_bind, Option.bind_some, ht,
    Option.bind_eq_bind, Option.bind_some, assert_pos hk]
  rfl

/-- Both descriptors have the entry of the target. -/
theorem History.Sound.redirected (hs : h.Sound) (hfd : fd < maxFilesOpenPerProc)
    (ht : h.target fd = some p) (h3 : 3 ≤ p) {k : ℕ}
    (hk : fdLocal2global p h.session.kernel = some k) :
    fdLocal2global fd h.session.kernel = some k := by
  obtain ⟨-, htab, hlt⟩ := fdLocal2global_some hk
  have hentry := hs.entry fd p ht
  rw [if_neg (by omega), htab] at hentry
  exact fdLocal2global_of hfd hentry hlt

theorem start_sound (hstd : ∀ k < 3, isPipe k σ.kernel = false) (hd : σ.dev.Sound) :
    (History.start σ).Sound :=
  ⟨hstd, fun _ _ hv => (Option.some_ne_none _ hv.symm).elim, hd⟩

end Tables

section Redirection

variable {t : T} {fd p a count : ℕ} {buf : Bytes} {σ σ' : Session T part}
  {h h' : History T part}

theorem pipeWrite_zero (hfd : PipeAt fd a σ.kernel) (hr : σ.dev.Running t) (buf : Bytes) :
    pipeWrite t fd buf 0 σ = some (some 0, σ) := by
  rw [pipeWrite_eq hfd, Nat.zero_min, transfer, Option.map_some, if_pos (hr.ring a), setRing_self]
  rfl

/-- A write to a pipe is seen in its ring or blocks the thread there. -/
theorem pipeWrite_moves (hfd : PipeAt fd a σ.kernel) (hd : σ.dev.Sound) (hr : σ.dev.Running t)
    (buf : Bytes) (hc : count ≠ 0) :
    ∃ r ioq, pipeWrite t fd buf count σ = some (r, σ.setRing a ioq) ∧ IoQueue.Invariant ioq ∧
      ioq ≠ σ.dev.ring a := by
  by_cases hfits : count ≤ ioqRoom (σ.dev.ring a).queue
  · obtain ⟨ioq, hw, hi, -, hall⟩ :=
      (pipeWrite_stores_iff (t := t) buf count hfd (hd.ring a) (hr.ring a)).mpr hfits
    rw [Nat.min_eq_left hfits] at hall
    refine ⟨_, ioq, hw, hi, ?_⟩
    rintro rfl
    have hlen := congrArg List.length hall
    rw [List.length_append, List.length_map, List.length_range] at hlen
    omega
  · have hle := length_le (hd.ring a)
    have hsize : ioqRoom (σ.dev.ring a).queue <
        min count (bufsize - ioqLength (σ.dev.ring a).queue) := by
      unfold ioqRoom bufsize at *
      omega
    obtain ⟨n, ioq, hrun, hi, hblocked⟩ := transfer_over
      (fun i => .ofBitVec (buf i)) 0 (hd.ring a) (hr.ring a) hsize
    refine ⟨_, ioq, by rw [pipeWrite_eq hfd, hrun, Option.map_some], hi, ?_⟩
    rintro rfl
    exact hblocked (hr.ring a)

theorem kbdRead_eq (buf : Bytes) (count : ℕ) :
    kbdRead t buf count σ = (transfer t (fun _ => .getchar) count 0 σ.dev.kbdBuf).map fun r =>
      (if r.2.place t = .idle
        then some (if r.1 = 0 then -1 else ↑r.1, patch buf 0 r.1 (received σ.dev.kbdBuf r.2))
        else none,
      { σ with dev := { σ.dev with kbdBuf := r.2 } }) := by
  rw [kbdRead, Option.map_eq_bind]
  rfl

theorem kbdRead_zero (hr : σ.dev.Running t) (buf : Bytes) :
    ∃ buf', kbdRead t buf 0 σ = some (some (-1, buf'), σ) := by
  refine ⟨patch buf 0 0 (received σ.dev.kbdBuf σ.dev.kbdBuf), ?_⟩
  rw [kbdRead_eq, transfer, Option.map_some, if_pos hr.kbdBuf, if_pos rfl]

/-- A read of the keyboard is seen in its ring or blocks the thread there. -/
theorem kbdRead_moves (hd : σ.dev.Sound) (hr : σ.dev.Running t) (buf : Bytes) (count : ℕ) :
    ∃ r kbd, kbdRead t buf count σ = some (r, { σ with dev := { σ.dev with kbdBuf := kbd } }) ∧
      IoQueue.Invariant kbd ∧ (count ≠ 0 → kbd ≠ σ.dev.kbdBuf) := by
  obtain ⟨n, kbd, hrun, hi, hend⟩ := transfer_ends count 0 hd.kbdBuf hr.kbdBuf
  refine ⟨_, kbd, by rw [kbdRead_eq, hrun, Option.map_some], hi, fun hc => ?_⟩
  rintro rfl
  obtain ⟨-, hlen⟩ := hend hr.kbdBuf
  omega

/-- The keyboard never answers as a pipe does. -/
theorem kbdRead_ne (hd : σ.dev.Sound) (hr : σ.dev.Running t) (hd' : σ'.dev = σ.dev)
    (hfd : PipeAt fd a σ'.kernel) (buf : Bytes) (count : ℕ) :
    onDevices (kbdRead t buf count σ) ≠ onDevices (pipeRead t fd buf count σ') := by
  have ha : IoQueue.Invariant (σ'.dev.ring a) := hd' ▸ hd.ring a
  have hidle : (σ'.dev.ring a).place t = .idle := hd' ▸ hr.ring a
  obtain ⟨ioq, buf', hp, -⟩ := pipeRead_takes (t := t) buf count hfd ha hidle
  intro he
  rw [hp] at he
  by_cases hc : count = 0
  · subst hc
    obtain ⟨buf'', hk⟩ := kbdRead_zero (t := t) hr buf
    rw [hk] at he
    simp [onDevices] at he
  · obtain ⟨r, kbd, hk, -, hne⟩ := kbdRead_moves hd hr buf count
    rw [hk] at he
    have hkbd : kbd = σ'.dev.kbdBuf :=
      congrArg Devices.kbdBuf (Prod.mk.inj (Option.some.inj he)).2
    rw [hd'] at hkbd
    exact hne hc hkbd

theorem sysWrite_file {k : ℕ} (h1 : fd ≠ 1) (h2 : fd ≠ 2) (hk : fdLocal2global fd σ.kernel = some k)
    (hp : isPipe k σ.kernel = true) : sysWrite t fd buf count σ = pipeWrite t fd buf count σ := by
  rw [sysWrite, if_neg (by omega), hk, Option.bind_eq_bind, Option.bind_some, if_pos hp]

theorem sysRead_pipe {k : ℕ} (h1 : fd ≠ 1) (h2 : fd ≠ 2) (hk : fdLocal2global fd σ.kernel = some k)
    (hp : isPipe k σ.kernel = true) : sysRead t fd buf count σ = pipeRead t fd buf count σ := by
  rw [sysRead, if_neg (by omega), hk, Option.bind_eq_bind, Option.bind_some, if_pos hp]

/-- The ring of a pipe that is used is there. -/
theorem pipeWrite_ring {k : ℕ} {r : Option ℤ × Session T part}
    (hk : fdLocal2global fd σ.kernel = some k) (hw : pipeWrite t fd buf count σ = some r) :
    ∃ a, (σ.kernel.fileTable k).fdInode = some a := by
  rw [pipeWrite, hk, Option.bind_eq_bind, Option.bind_some, Option.bind_eq_bind,
    Option.bind_eq_some_iff] at hw
  obtain ⟨a, ha, -⟩ := hw
  exact ⟨a, ha⟩

theorem pipeRead_ring {k : ℕ} {r : Option (ℤ × Bytes) × Session T part}
    (hk : fdLocal2global fd σ.kernel = some k) (hw : pipeRead t fd buf count σ = some r) :
    ∃ a, (σ.kernel.fileTable k).fdInode = some a := by
  rw [pipeRead, hk, Option.bind_eq_bind, Option.bind_some, Option.bind_eq_bind,
    Option.bind_eq_some_iff] at hw
  obtain ⟨a, ha, -⟩ := hw
  exact ⟨a, ha⟩

theorem sysWrite_keeps {r : Option ℤ} (hd : σ.dev.Sound) (hr : σ.dev.Running t)
    (hw : sysWrite t fd buf count σ = some (r, σ')) : Keeps σ σ' := by
  rw [sysWrite] at hw
  split at hw
  · rw [bind_some_iff] at hw
    obtain ⟨str, -, hw⟩ := hw
    obtain ⟨-, rfl⟩ := Prod.mk.inj (Option.some.inj hw)
    exact keeps_dev ⟨hd.ring, hd.kbdBuf⟩
  · rename_i hstd
    rw [not_or] at hstd
    rw [bind_some_iff] at hw
    obtain ⟨k, hk, hw⟩ := hw
    split at hw
    · rename_i hp
      obtain ⟨a, ha⟩ := pipeWrite_ring hk hw
      have hfd : PipeAt fd a σ.kernel := ⟨k, hk, hp, ha⟩
      by_cases hc : count = 0
      · subst hc
        rw [pipeWrite_zero hfd hr] at hw
        obtain ⟨-, rfl⟩ := Prod.mk.inj (Option.some.inj hw)
        exact keeps_dev hd
      · obtain ⟨r', ioq, hrun, hi, -⟩ := pipeWrite_moves hfd hd hr buf hc
        rw [hrun] at hw
        obtain ⟨-, rfl⟩ := Prod.mk.inj (Option.some.inj hw)
        exact keeps_setRing hi
    · rw [bind_some_iff] at hw
      obtain ⟨⟨r', s⟩, hfile, hw⟩ := hw
      obtain ⟨-, rfl⟩ := Prod.mk.inj (Option.some.inj hw)
      exact keeps_fileWrite hfile

theorem sysRead_keeps {r : Option (ℤ × Bytes)} (hd : σ.dev.Sound) (hr : σ.dev.Running t)
    (hw : sysRead t fd buf count σ = some (r, σ')) : Keeps σ σ' := by
  rw [sysRead] at hw
  split at hw
  · obtain ⟨-, rfl⟩ := Prod.mk.inj (Option.some.inj hw)
    exact keeps_dev hd
  · rw [bind_some_iff] at hw
    obtain ⟨k, hk, hw⟩ := hw
    split at hw
    · rename_i hp
      obtain ⟨a, ha⟩ := pipeRead_ring hk hw
      obtain ⟨ioq, buf', hrun, hi, -⟩ :=
        pipeRead_takes (t := t) buf count ⟨k, hk, hp, ha⟩ (hd.ring a)
          (hr.ring a)
      rw [hrun] at hw
      obtain ⟨-, rfl⟩ := Prod.mk.inj (Option.some.inj hw)
      exact keeps_setRing hi
    · split at hw
      · obtain ⟨r', kbd, hrun, hi, -⟩ := kbdRead_moves hd hr buf count
        rw [hrun] at hw
        obtain ⟨-, rfl⟩ := Prod.mk.inj (Option.some.inj hw)
        exact keeps_dev ⟨hd.ring, hi⟩
      · rw [bind_some_iff] at hw
        obtain ⟨⟨r', s⟩, hfile, hw⟩ := hw
        obtain ⟨-, rfl⟩ := Prod.mk.inj (Option.some.inj hw)
        exact keeps_fileRead hfile

theorem exec_sound {e : Event T} (hs : h.Sound) (he : Enabled t e h) (hx : exec t e h = some h') :
    h'.Sound := by
  cases e with
  | redirect oldFd newFd =>
    simp only [exec, sysFdRedirect, bind_some_iff, Option.pure_def, Option.some.injEq] at hx
    obtain ⟨_, ⟨_, -, rfl⟩, rfl⟩ := hx
    refine ⟨hs.std, fun fd v hv => ?_, hs.dev⟩
    dsimp only [retarget] at hv ⊢
    split at hv
    · rename_i hfd
      subst hfd
      obtain rfl := Option.some.inj hv
      by_cases hlow : newFd < 3
      · simp [hlow]
      · by_cases hself : newFd = fd
        · subst hself
          simp [hlow]
        · simp [hlow, hself]
    · rename_i hfd
      split at hv
      · cases hv
      · rename_i hold
        have hne : v ≠ oldFd := fun he => hold (he ▸ hv)
        rw [Function.update_of_ne hfd, Function.update_of_ne hne]
        exact hs.entry fd v hv
  | write fd buf count =>
    rw [exec, bind_some_iff] at hx
    obtain ⟨⟨r, σ'⟩, hw, hx⟩ := hx
    obtain rfl := Option.some.inj hx
    exact hs.keeps (sysWrite_keeps hs.dev he hw)
  | read fd buf count =>
    rw [exec, bind_some_iff] at hx
    obtain ⟨⟨r, σ'⟩, hw, hx⟩ := hx
    obtain rfl := Option.some.inj hx
    exact hs.keeps (sysRead_keeps hs.dev he hw)
  | others dev =>
    obtain rfl := Option.some.inj hx
    exact ⟨hs.std, hs.entry, he⟩

theorem tmpString_zero (buf : Bytes) : tmpString buf 0 = some [] := by
  have hbuf : patch zeroes 0 0 buf = zeroes := by
    funext i
    exact patch_out (by omega)
  have hmap : (List.range 1024).map zeroes = 0 :: (List.range 1023).map zeroes := by
    rw [List.range_succ_eq_map, List.map_cons, List.map_map]
    rfl
  rw [tmpString, assert_pos (by omega), hbuf, hmap, Option.bind_eq_bind, Option.bind_some]
  dsimp only
  rw [assert_pos List.mem_cons_self, Option.bind_some, List.takeWhile_cons_of_neg (by decide)]
  rfl

/-- Standard output passes by the pipe it was redirected to. -/
theorem write_transparent_iff (hs : h.Sound) (hr : h.session.dev.Running t) (buf : Bytes)
    (count : ℕ) :
    Transparent (fun fd => sysWrite t fd buf count) 1 h ↔
      ∀ p a, 3 ≤ p → h.target 1 = some p → PipeAt p a h.session.kernel → count = 0 := by
  have hcons : ∀ σ : Session T part, sysWrite t 1 buf count σ = (tmpString buf count).map fun str =>
      (some ↑count, { σ with dev := { σ.dev with console := σ.dev.console ++ str } }) := by
    intro σ
    rw [sysWrite, if_pos (Or.inl rfl), Option.map_eq_bind]
    rfl
  constructor
  · rintro ⟨hpipe, -⟩ p a h3 ht hat
    by_contra hc
    obtain ⟨k, hk, hp, -⟩ := id hat
    obtain ⟨r, ioq, hrun, -, hne⟩ := pipeWrite_moves hat hs.dev hr buf hc
    have he := hpipe p a h3 ht hat
    dsimp only at he
    rw [sysWrite_file (by omega) (by omega) hk hp, hrun, hcons] at he
    cases hstr : tmpString buf count with
    | none => simp [hstr, onPipes] at he
    | some str =>
      rw [hstr] at he
      have hring := (Prod.mk.inj (Option.some.inj he)).2
      have hat' := congrFun hring a
      rw [setRing_ring] at hat'
      exact hne hat'.symm
  · intro hzero
    refine ⟨fun p a h3 ht hat => ?_, fun _ => ?_⟩
    · obtain rfl := hzero p a h3 ht hat
      obtain ⟨k, hk, hp, -⟩ := id hat
      dsimp only
      rw [sysWrite_file (by omega) (by omega) hk hp, pipeWrite_zero hat hr, hcons,
        tmpString_zero, Option.map_some]
      rfl
    · dsimp only
      rw [hcons, hcons, onDevices, onDevices, Option.map_map, Option.map_map]
      rfl

theorem sysRead_kbd {k : ℕ} (hk : fdLocal2global 0 σ.kernel = some k)
    (hp : isPipe k σ.kernel = false) : sysRead t 0 buf count σ = kbdRead t buf count σ := by
  rw [sysRead, if_neg (by omega), hk, Option.bind_eq_bind, Option.bind_some,
    if_neg (by rw [hp]; exact Bool.false_ne_true), if_pos rfl]

theorem onDevices_kbdRead {σ σ' : Session T part} (hd : σ'.dev = σ.dev) :
    onDevices (kbdRead t buf count σ') = onDevices (kbdRead t buf count σ) := by
  rw [kbdRead_eq, kbdRead_eq, onDevices, onDevices, Option.map_map, Option.map_map, hd]
  rfl

/-- Standard input reads the pipe it was redirected to, and the keyboard again afterwards. -/
theorem read_transparent_iff (hs : h.Sound) (hr : h.session.dev.Running t) (buf : Bytes)
    (count : ℕ) :
    Transparent (fun fd => sysRead t fd buf count) 0 h ↔ (h.target 0 = some 0 →
      ∃ k < maxFilesOpen, h.original 0 = some k ∧ isPipe k h.session.kernel = false) := by
  have hpipe : ∀ p a, 3 ≤ p → h.target 0 = some p → PipeAt p a h.session.kernel →
      onPipes (sysRead t 0 buf count h.session) = onPipes (sysRead t p buf count h.session) := by
    rintro p a h3 ht ⟨k, hk, hp, -⟩
    have hk0 := hs.redirected (by decide) ht h3 hk
    rw [sysRead_pipe (by omega) (by omega) hk0 hp, sysRead_pipe (by omega) (by omega) hk hp,
      pipeRead, pipeRead, hk, hk0]
  rw [Transparent, and_iff_right hpipe]
  refine imp_congr_right fun ht => ?_
  have hback : fdLocal2global 0 h.session.kernel = some 0 :=
    fdLocal2global_of (by decide) (hs.entry 0 0 ht) (by decide)
  rw [sysRead_kbd hback (hs.std 0 (by omega))]
  constructor
  · intro he
    obtain ⟨r, kbd, hk, -⟩ := kbdRead_moves hs.dev hr buf count
    cases hwas : sysRead t 0 buf count (h.session.withFd 0 (h.original 0)) with
    | none =>
      rw [hwas, hk] at he
      cases he
    | some x =>
      have hwas' := hwas
      rw [sysRead, if_neg (by omega), bind_some_iff] at hwas'
      obtain ⟨k, hlocal, hwas'⟩ := hwas'
      obtain ⟨-, htab, hlt⟩ := fdLocal2global_some hlocal
      refine ⟨k, hlt, (Session.withFd_self ..).symm.trans htab, ?_⟩
      by_contra hpipe
      rw [Bool.not_eq_false] at hpipe
      have hp : isPipe k (h.session.withFd 0 (h.original 0)).kernel = true := hpipe
      rw [if_pos hp] at hwas'
      obtain ⟨a, ha⟩ := pipeRead_ring hlocal hwas'
      rw [sysRead_pipe (by omega) (by omega) hlocal hp] at he
      exact kbdRead_ne hs.dev hr (Session.withFd_dev ..) ⟨k, hlocal, hp, ha⟩ buf count he
  · rintro ⟨k, hlt, horig, hp⟩
    have hlocal : fdLocal2global 0 (h.session.withFd 0 (h.original 0)).kernel = some k :=
      fdLocal2global_of (by decide) ((Session.withFd_self ..).trans horig) hlt
    rw [sysRead_kbd hlocal hp]
    exact (onDevices_kbdRead (Session.withFd_dev ..)).symm

theorem transferTransparent_iff {e : Event T} (hs : h.Sound) (he : Enabled t e h) :
    TransferTransparent t e h ↔ Tolerated e h := by
  cases e with
  | redirect oldFd newFd => exact Iff.rfl
  | others dev => exact Iff.rfl
  | write fd buf count =>
    refine forall_congr' fun hfd => ?_
    subst hfd
    exact write_transparent_iff hs he buf count
  | read fd buf count =>
    refine forall_congr' fun hfd => ?_
    subst hfd
    exact read_transparent_iff hs he buf count

end Redirection

/-- Over all redirections and transfers of a process, with other threads in between. -/
theorem redirection_transparent_iff {t : T} {σ : Session T part} {l : List (Event T)}
    (hstd : ∀ k < 3, isPipe k σ.kernel = false) (hd : σ.dev.Sound)
    (hl : AllMeet (exec t) (Enabled t) l (History.start σ)) :
    AllMeet (exec t) (TransferTransparent t) l (History.start σ) ↔
      AllMeet (exec t) Tolerated l (History.start σ) :=
  allMeet_congr History.Sound (fun _ _ _ hs he hx => exec_sound hs he hx)
    (fun _ _ hs he => transferTransparent_iff hs he) (start_sound hstd hd) hl

theorem pipeSession_std (head tail : ℕ) :
    ∀ k < 3, isPipe k (pipeSession head tail).kernel = false := by
  intro k hk
  have hne : k ≠ 3 := by omega
  simp [isPipe, pipeSession, mounted, Function.update_of_ne hne, pipeFlag]

theorem pipeSession_dev (head tail : ℕ) (hh : head < bufsize) (ht : tail < bufsize) :
    (pipeSession head tail).dev.Sound ∧ (pipeSession head tail).dev.Running 0 :=
  ⟨⟨fun _ => quietRing_invariant hh ht, quietRing_invariant (by decide) (by decide)⟩,
    fun _ => rfl, rfl⟩

/-- Standard input is a pipe with one byte, and then the keyboard again. -/
theorem redirection_transparent_iff_input :
    AllMeet (exec 0) (TransferTransparent 0) [.redirect 0 3, .read 0 zeroes 1, .redirect 0 0]
      (History.start (pipeSession 1 0)) := by
  obtain ⟨hd, hr⟩ := pipeSession_dev 1 0 (by decide) (by decide)
  refine (redirection_transparent_iff (pipeSession_std 1 0) hd ?_).mpr ?_
  · refine ⟨trivial, fun h₁ hx => ?_⟩
    obtain rfl := Option.some.inj hx
    exact ⟨⟨hr.ring, hr.kbdBuf⟩, fun h₂ _ => ⟨trivial, fun _ _ => trivial⟩⟩
  · refine ⟨trivial, fun h₁ hx => ?_⟩
    obtain rfl := Option.some.inj hx
    refine ⟨fun _ ht => ?_, fun h₂ _ => ⟨trivial, fun _ _ => trivial⟩⟩
    cases ht

/-- What is written to standard output does not come to the pipe it was redirected to. -/
theorem redirected_output_misses_pipe :
    (pipeSession 0 0).dev.Sound ∧ ∃ h, exec 0 (.redirect 1 3) (History.start (pipeSession 0 0)) =
        some h ∧ h.session.dev.Running 0 ∧ PipeAt 3 0 h.session.kernel ∧
      ¬ TransferTransparent 0 (.write 1 (fun _ => 65) 1) h := by
  obtain ⟨hd, hr⟩ := pipeSession_dev 0 0 (by decide) (by decide)
  refine ⟨hd, _, rfl, ⟨hr.ring, hr.kbdBuf⟩, ⟨3, rfl, rfl, rfl⟩, fun he => ?_⟩
  have hs := exec_sound (start_sound (pipeSession_std 0 0) hd)
    (show Enabled 0 (.redirect 1 3) (History.start (pipeSession 0 0)) from trivial) rfl
  have hzero := (write_transparent_iff hs ⟨hr.ring, hr.kbdBuf⟩ (fun _ => 65) 1).mp (he rfl)
  exact absurd (hzero 3 0 le_rfl rfl ⟨3, rfl, rfl, rfl⟩) one_ne_zero

end PipeTransfer
