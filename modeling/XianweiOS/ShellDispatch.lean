import XianweiOS.ShellArguments
import Mathlib.Algebra.Group.Int.Defs

/-! A round of `my_shell` (`shell/shell.c`): the line is cut at every `'|'`, and the parts are
parsed and handed to `cmd_execute`. A call is taken to return, and it leaves the line alone. -/
namespace ShellDispatch

open ByteStore HaltingProgram ShellArguments

/-- `'|'` -/
def pipeSymbol : Byte := 0x7c

/-- What a round does, in order. -/
inductive Action
  | pipe
  | fdRedirect (oldFd newFd : ℤ)
  | close (fd : ℤ)
  | execute (argc : ℕ) (argv : Argv)
  | message

/-- `NULL` is `none` inside. -/
def strchr (buf : List Byte) (string : ℕ) (ch : Byte) : Option (Option ℕ) :=
  match h : buf[string]? with
  | none => none
  | some b =>
    if b = 0 then some none
    else if b = ch then some (some string)
    else strchr buf (string + 1) ch
termination_by buf.length - string
decreasing_by
  have := (List.getElem?_eq_some_iff.mp h).1
  omega

theorem strchr_some {buf : List Byte} {string p : ℕ} {ch : Byte}
    (h : strchr buf string ch = some (some p)) : string ≤ p ∧ p < buf.length := by
  fun_induction strchr buf string ch with
  | case1 => cases h
  | case2 => cases h
  | case3 =>
    rename_i hb _
    cases h
    exact ⟨le_rfl, (List.getElem?_eq_some_iff.mp hb).1⟩
  | case4 =>
    rename_i ih
    obtain ⟨hle, hlt⟩ := ih h
    exact ⟨by omega, hlt⟩

theorem parseLoop_length {token : Byte} {buf : List Byte} {next argc : ℕ} {argv : Argv}
    {r : ℤ × List Byte × Argv} (h : parseLoop token buf next argc argv = some r) :
    r.2.1.length = buf.length := by
  fun_induction parseLoop token buf next argc argv with
  | case1 => cases h; rfl
  | case2 => cases h
  | case3 => cases h; rfl
  | case4 => cases h
  | case5 => cases h
  | case6 =>
    rename_i buf' _
    cases h
    dsimp only [buf']
    split
    · exact List.length_set
    · rfl
  | case7 =>
    rename_i buf' _ _ ih
    rw [ih h]
    dsimp only [buf']
    split
    · exact List.length_set
    · rfl

/-- `argc = cmd_parse(each_cmd, argv, ' '); cmd_execute(argc, argv);`, where `argc` becomes an
unsigned number. -/
def runStage (buf : List Byte) (eachCmd : ℕ) (argv : Argv) : Option (Action × List Byte × Argv) :=
  (cmdParse buf eachCmd argv space).map fun (argc, buf, argv) =>
    (.execute (argc % 2 ^ 32).toNat argv, buf, argv)

theorem runStage_length {buf : List Byte} {eachCmd : ℕ} {argv : Argv}
    {r : Action × List Byte × Argv} (h : runStage buf eachCmd argv = some r) :
    r.2.1.length = buf.length := by
  obtain ⟨r', hr', rfl⟩ := Option.map_eq_some_iff.mp h
  exact parseLoop_length hr'

/-- `while ((pipe_symbol = strchr(each_cmd, '|')))`: where the last part begins, the line and the
array, and the calls. -/
def pipeLoop (buf : List Byte) (eachCmd : ℕ) (argv : Argv) :
    Option (ℕ × List Byte × Argv × List Action) :=
  match _hp : strchr buf eachCmd pipeSymbol with
  | none => none
  | some none => some (eachCmd, buf, argv, [])
  | some (some p) =>
    match hr : runStage (buf.set p 0) eachCmd argv with
    | none => none
    | some (call, buf', argv') =>
      (pipeLoop buf' (p + 1) argv').map fun (eachCmd, buf, argv, calls) =>
        (eachCmd, buf, argv, call :: calls)
termination_by buf.length - eachCmd
decreasing_by
  obtain ⟨hle, hlt⟩ := strchr_some _hp
  have hlen := runStage_length hr
  rw [List.length_set] at hlen
  dsimp only at hlen
  omega

/-- A round of the loop behind `readline`. `fd` is what `pipe` fills in. -/
def shellRound (fd : ℤ × ℤ) (cmdLine : List Byte) (argv : Argv) : Option (List Action) := do
  if cmdLine[0]? = some 0 then return []
  match ← strchr cmdLine 0 pipeSymbol with
  | some p =>
    let (first, buf, argv) ← runStage (cmdLine.set p 0) 0 argv
    let (eachCmd, buf, argv, calls) ← pipeLoop buf (p + 1) argv
    let (last, _, _) ← runStage buf eachCmd argv
    return [.pipe, .fdRedirect 1 fd.2, first, .fdRedirect 0 fd.1] ++ calls ++
      [.fdRedirect 1 1, last, .fdRedirect 0 0, .close fd.1, .close fd.2]
  | none =>
    let (argc, _, argv) ← cmdParse cmdLine 0 argv space
    if argc = -1 then return [.message]
    return [.execute (argc % 2 ^ 32).toNat argv]

/-! ### The parts of a line -/

/-- A part that can be handed on: one word at least, and no more than the array holds. -/
def Fine (stage : List Byte) : Prop :=
  1 ≤ (wordsOf space stage).length ∧ (wordsOf space stage).length ≤ maxArgNr

/-- `argv[0]` -/
def command : Fin maxArgNr := ⟨0, by decide⟩

def GoodCall (call : Action) : Prop :=
  ∀ argc argv, call = .execute argc argv → 1 ≤ argc ∧ argc ≤ maxArgNr ∧ argv command ≠ none

/-- The round has a meaning, and every call gets a command. -/
def Dispatches (fd : ℤ × ℤ) (cmdLine : List Byte) (argv : Argv) : Prop :=
  ∃ actions, shellRound fd cmdLine argv = some actions ∧ ∀ action ∈ actions, GoodCall action

variable {buf cmdLine s w t : List Byte} {argv : Argv} {a eachCmd : ℕ} {fd : ℤ × ℤ}

theorem strchr_absent {ch : Byte} : ∀ {s : List Byte} {a : ℕ}, StringAt buf a s → ch ∉ s →
    strchr buf a ch = some none
  | [], a, h, _ => by
    have hend : buf[a]? = some 0 := h
    rw [strchr]
    split
    · simp_all
    · simp_all
  | b :: s, a, h, hs => by
    obtain ⟨hb, h0, hrest⟩ := h
    rw [List.mem_cons, not_or] at hs
    have hne : b ≠ ch := Ne.symm hs.1
    rw [strchr]
    split
    · simp_all
    · rename_i b' hb'
      obtain rfl := Option.some.inj (hb.symm.trans hb')
      rw [if_neg h0, if_neg hne]
      exact strchr_absent hrest hs.2

theorem strchr_first {ch : Byte} (hch : ch ≠ 0) : ∀ {w : List Byte} {a : ℕ},
    StringAt buf a (w ++ ch :: t) → ch ∉ w → strchr buf a ch = some (some (a + w.length))
  | [], a, h, _ => by
    have hb : buf[a]? = some ch := h.1
    rw [strchr]
    split
    · simp_all
    · simp_all
  | b :: w, a, h, hw => by
    obtain ⟨hb, h0, hrest⟩ := h
    rw [List.mem_cons, not_or] at hw
    have hne : b ≠ ch := Ne.symm hw.1
    rw [strchr]
    split
    · simp_all
    · rename_i b' hb'
      obtain rfl := Option.some.inj (hb.symm.trans hb')
      rw [if_neg h0, if_neg hne, strchr_first hch hrest hw.2, List.length_cons]
      congr 2
      omega

/-- Parsing a string changes nothing behind its characters. -/
theorem parseLoop_after {token : Byte} (h0 : token ≠ 0) {words : List (List Byte)}
    (hs : Segmented token s words) {next argc : ℕ} {r : ℤ × List Byte × Argv}
    (h : StringAt buf next s) (hrun : parseLoop token buf next argc argv = some r) :
    ∀ i, next + s.length ≤ i → r.2.1[i]? = buf[i]? := by
  induction hs generalizing buf next argc argv with
  | blank k =>
    rw [parseLoop_blank h0 h] at hrun
    cases hrun
    exact fun _ _ => rfl
  | @last k w hw ht =>
    have h' : StringAt buf next (List.replicate k token ++ (w ++ [])) := by rwa [List.append_nil]
    have hend : buf[next + k + w.length]? = some 0 := by
      have := StringAt.append h'
      rw [List.length_replicate] at this
      exact this.append
    rw [parseLoop_word h0 hw ht (.inl rfl) h'] at hrun
    obtain ⟨argv', -, hrun⟩ := Option.bind_eq_some_iff.mp hrun
    simp only [hend, ne_eq, not_true_eq_false, if_false] at hrun
    split at hrun
    · cases hrun
      exact fun _ _ => rfl
    · have hblank : StringAt buf (next + k + w.length) (List.replicate 0 token) := hend
      rw [parseLoop_blank h0 hblank] at hrun
      cases hrun
      exact fun _ _ => rfl
  | @cons k w s words hw ht _ ih =>
    have hsep : StringAt buf (next + k + w.length) (token :: s) := by
      have := StringAt.append h
      rw [List.length_replicate] at this
      exact this.append
    have hcut : buf[next + k + w.length]? ≠ some 0 := by
      rw [hsep.1]
      exact fun he => h0 (Option.some.inj he)
    have hother : ∀ i, i ≠ next + k + w.length →
        (buf.set (next + k + w.length) 0)[i]? = buf[i]? :=
      fun i hi => List.getElem?_set_ne (Ne.symm hi)
    have hrest : StringAt (buf.set (next + k + w.length) 0) (next + k + w.length + 1) s :=
      hsep.2.2.frame fun i hi _ => hother i (by omega)
    rw [parseLoop_word h0 hw ht (.inr rfl) h] at hrun
    obtain ⟨argv', -, hrun⟩ := Option.bind_eq_some_iff.mp hrun
    simp only [hcut, ne_eq, not_false_eq_true, if_true] at hrun
    intro i hi
    rw [List.length_append, List.length_replicate, List.length_append, List.length_cons] at hi
    split at hrun
    · cases hrun
      exact hother i (by omega)
    · rw [ih hrest hrun i (by omega), hother i (by omega)]

/-- What a call gets, and that the rest of the line stays. -/
theorem runStage_spec (h : StringAt buf a s) (argv : Argv) :
    ((wordsOf space s).length ≤ maxArgNr ∧
      ∃ call buf' argv', runStage buf a argv = some (call, buf', argv') ∧
        (GoodCall call ↔ Fine s) ∧ ∀ i, a + s.length ≤ i → buf'[i]? = buf[i]?) ∨
    (maxArgNr < (wordsOf space s).length ∧ runStage buf a argv = none) := by
  by_cases hn : (wordsOf space s).length ≤ maxArgNr
  · left
    obtain ⟨argc, buf', argv', hrun, -, hwords⟩ := (parses_iff h argv).mpr hn
    obtain ⟨hargc, hsome, hnone⟩ := hwords hn
    have hcount : (argc % 2 ^ 32).toNat = (wordsOf space s).length := by
      rw [maxArgNr] at hn
      omega
    refine ⟨hn, _, buf', argv', congrArg _ hrun, ?_,
      parseLoop_after (by decide) (segmented_words space s) h hrun⟩
    constructor
    · intro hgood
      obtain ⟨hone, -, -⟩ := hgood _ _ rfl
      rw [hcount] at hone
      exact ⟨hone, hn⟩
    · rintro ⟨hone, -⟩ argc' argv'' hcall
      obtain ⟨rfl, rfl⟩ := Action.execute.inj hcall
      rw [hcount]
      refine ⟨hone, hn, ?_⟩
      obtain ⟨w, hw⟩ : ∃ w, (wordsOf space s)[0]? = some w :=
        ⟨_, List.getElem?_eq_getElem hone⟩
      obtain ⟨p, hp, -⟩ := hsome command w hw
      rw [hp]
      exact Option.some_ne_none p
  · right
    have hgt : maxArgNr < (wordsOf space s).length := Nat.lt_of_not_le hn
    refine ⟨hgt, ?_⟩
    rw [runStage, cmdParse_many h hgt]
    rfl

/-! ### The loop -/

theorem pipeLoop_stop (h : strchr buf eachCmd pipeSymbol = some none) :
    pipeLoop buf eachCmd argv = some (eachCmd, buf, argv, []) := by
  rw [pipeLoop]
  split
  · simp_all
  · rfl
  · simp_all

theorem pipeLoop_next {p : ℕ} (h : strchr buf eachCmd pipeSymbol = some (some p)) :
    pipeLoop buf eachCmd argv = (runStage (buf.set p 0) eachCmd argv).bind fun r =>
      (pipeLoop r.2.1 (p + 1) r.2.2).map fun (eachCmd, buf, argv, calls) =>
        (eachCmd, buf, argv, r.1 :: calls) := by
  rw [pipeLoop]
  split
  · simp_all
  · simp_all
  · rename_i p' hp
    obtain rfl := Option.some.inj (Option.some.inj (h.symm.trans hp))
    split
    · simp_all
    · simp_all

/-- The loop and the part behind it: all calls are made, and they are good. -/
def TailDispatches (buf : List Byte) (eachCmd : ℕ) (argv : Argv) : Prop :=
  ∃ r last, pipeLoop buf eachCmd argv = some r ∧ runStage r.2.1 r.1 r.2.2.1 = some last ∧
    (∀ call ∈ r.2.2.2, GoodCall call) ∧ GoodCall last.1

theorem tail_stop (h : strchr buf eachCmd pipeSymbol = some none) :
    TailDispatches buf eachCmd argv ↔
      ∃ last, runStage buf eachCmd argv = some last ∧ GoodCall last.1 := by
  rw [TailDispatches, pipeLoop_stop h]
  constructor
  · rintro ⟨r, last, hr, hrun, -, hgood⟩
    cases hr
    exact ⟨last, hrun, hgood⟩
  · rintro ⟨last, hrun, hgood⟩
    exact ⟨_, last, rfl, hrun, fun call hcall => absurd hcall (List.not_mem_nil), hgood⟩

theorem tail_next {p : ℕ} (h : strchr buf eachCmd pipeSymbol = some (some p)) :
    TailDispatches buf eachCmd argv ↔
      ∃ first, runStage (buf.set p 0) eachCmd argv = some first ∧ GoodCall first.1 ∧
        TailDispatches first.2.1 (p + 1) first.2.2 := by
  rw [TailDispatches, pipeLoop_next h]
  constructor
  · rintro ⟨r, last, hr, hrun, hcalls, hgood⟩
    obtain ⟨first, hfirst, hr⟩ := Option.bind_eq_some_iff.mp hr
    obtain ⟨r', hr', rfl⟩ := Option.map_eq_some_iff.mp hr
    obtain ⟨hhead, hrest⟩ := List.forall_mem_cons.mp hcalls
    exact ⟨first, hfirst, hhead, r', last, hr', hrun, hrest, hgood⟩
  · rintro ⟨first, hfirst, hhead, r', last, hr', hrun, hrest, hgood⟩
    refine ⟨(r'.1, r'.2.1, r'.2.2.1, first.1 :: r'.2.2.2), last, ?_, hrun,
      List.forall_mem_cons.mpr ⟨hhead, hrest⟩, hgood⟩
    rw [hfirst, Option.bind_some, hr']
    rfl

/-- A part with a `'|'` behind it: it is run, and the rest of the line is as it was. -/
theorem stage_then (h : StringAt buf a (w ++ pipeSymbol :: t)) (argv : Argv)
    {P : List Byte → Argv → Prop} {Q : Prop}
    (hrest : ∀ buf' argv', StringAt buf' (a + w.length + 1) t → (P buf' argv' ↔ Q)) :
    (∃ first, runStage (buf.set (a + w.length) 0) a argv = some first ∧ GoodCall first.1 ∧
      P first.2.1 first.2.2) ↔ Fine w ∧ Q := by
  have hsep : StringAt buf (a + w.length) (pipeSymbol :: t) := h.append
  have hlt : a + w.length < buf.length := (List.getElem?_eq_some_iff.mp hsep.1).1
  have hother : ∀ i, i ≠ a + w.length → (buf.set (a + w.length) 0)[i]? = buf[i]? :=
    fun i hi => List.getElem?_set_ne (Ne.symm hi)
  have hstage : StringAt (buf.set (a + w.length) 0) a w :=
    h.cut (fun i hi => hother i (by omega)) (List.getElem?_set_self hlt)
  rcases runStage_spec hstage argv with ⟨-, call, buf', argv', hrun, hgood, hkeep⟩ | ⟨hmany, hrun⟩
  · have htail : StringAt buf' (a + w.length + 1) t := hsep.2.2.frame fun i hi _ => by
      rw [hkeep i (by omega), hother i (by omega)]
    rw [← hgood, ← hrest buf' argv' htail, hrun]
    constructor
    · rintro ⟨first, hfirst, hcall⟩
      cases hfirst
      exact hcall
    · exact fun hcall => ⟨_, rfl, hcall⟩
  · rw [hrun]
    refine iff_of_false (fun ⟨_, hfirst, _⟩ => by cases hfirst) fun ⟨hfine, _⟩ => ?_
    exact absurd hfine.2 (Nat.not_le_of_lt hmany)

/-- The last part. -/
theorem stage_last (h : StringAt buf a s) (argv : Argv) :
    (∃ last, runStage buf a argv = some last ∧ GoodCall last.1) ↔ Fine s := by
  rcases runStage_spec h argv with ⟨-, call, buf', argv', hrun, hgood, -⟩ | ⟨hmany, hrun⟩
  · rw [← hgood, hrun]
    constructor
    · rintro ⟨last, hlast, hcall⟩
      cases hlast
      exact hcall
    · exact fun hcall => ⟨_, rfl, hcall⟩
  · rw [hrun]
    refine iff_of_false (fun ⟨_, hlast, _⟩ => by cases hlast) fun hfine => ?_
    exact absurd hfine.2 (Nat.not_le_of_lt hmany)

/-- A line is its first part alone, or has a `'|'` behind it. -/
theorem split_cases (s : List Byte) : pipeSymbol ∉ s ∧ s.splitOn pipeSymbol = [s] ∨
    ∃ w t, s = w ++ pipeSymbol :: t ∧ pipeSymbol ∉ w ∧
      s.splitOn pipeSymbol = w :: t.splitOn pipeSymbol := by
  by_cases hs : pipeSymbol ∈ s
  · obtain ⟨w, t, rfl, hw⟩ := List.eq_append_cons_of_mem hs
    exact .inr ⟨w, t, rfl, hw, List.splitOn_append_cons_self_of_not_mem hw _⟩
  · exact .inl ⟨hs, List.splitOn_eq_singleton hs⟩

theorem tail_dispatches_iff (h : StringAt buf a s) (argv : Argv) :
    TailDispatches buf a argv ↔ ∀ stage ∈ s.splitOn pipeSymbol, Fine stage := by
  induction hn : s.length using Nat.strong_induction_on generalizing buf a s argv with
  | h n ih =>
    rcases split_cases s with ⟨hs, hsplit⟩ | ⟨w, t, rfl, hw, hsplit⟩
    · rw [hsplit, List.forall_mem_singleton, tail_stop (strchr_absent h hs)]
      exact stage_last h argv
    · rw [hsplit, List.forall_mem_cons, tail_next (strchr_first (by decide) h hw)]
      refine stage_then h argv (P := fun buf argv => TailDispatches buf (a + w.length + 1) argv)
        fun buf' argv' htail => ?_
      apply ih t.length _ htail argv' rfl
      rw [← hn, List.length_append, List.length_cons]
      omega

/-! ### The round -/

theorem shellRound_pipe {p : ℕ} (hne : cmdLine[0]? ≠ some 0)
    (hp : strchr cmdLine 0 pipeSymbol = some (some p)) :
    shellRound fd cmdLine argv = (runStage (cmdLine.set p 0) 0 argv).bind fun first =>
      (pipeLoop first.2.1 (p + 1) first.2.2).bind fun r =>
        (runStage r.2.1 r.1 r.2.2.1).map fun last =>
          [.pipe, .fdRedirect 1 fd.2, first.1, .fdRedirect 0 fd.1] ++ r.2.2.2 ++
            [.fdRedirect 1 1, last.1, .fdRedirect 0 0, .close fd.1, .close fd.2] := by
  rw [shellRound, if_neg hne, hp]
  simp only [Option.bind_eq_bind, Option.bind_some]
  cases runStage (cmdLine.set p 0) 0 argv with
  | none => rfl
  | some first =>
    simp only [Option.bind_some]
    cases pipeLoop first.2.1 (p + 1) first.2.2 with
    | none => rfl
    | some r =>
      simp only [Option.bind_some]
      cases runStage r.2.1 r.1 r.2.2.1 <;> rfl

/-- Of the actions around the calls none is a call. -/
theorem goodCall_iff (fd : ℤ × ℤ) {first last : Action} {calls : List Action} :
    (∀ action ∈ [.pipe, .fdRedirect 1 fd.2, first, .fdRedirect 0 fd.1] ++ calls ++
      [.fdRedirect 1 1, last, .fdRedirect 0 0, .close fd.1, .close fd.2], GoodCall action) ↔
    GoodCall first ∧ (∀ call ∈ calls, GoodCall call) ∧ GoodCall last := by
  have hpipe : GoodCall .pipe := fun _ _ h => by cases h
  have hredirect : ∀ o n, GoodCall (.fdRedirect o n) := fun _ _ _ _ h => by cases h
  have hclose : ∀ n, GoodCall (.close n) := fun _ _ _ h => by cases h
  simp only [List.forall_mem_append, List.forall_mem_cons, List.not_mem_nil, false_implies,
    implies_true, and_true, hpipe, hredirect, hclose, true_and, and_assoc]

theorem round_pipe {p : ℕ} (hne : cmdLine[0]? ≠ some 0)
    (hp : strchr cmdLine 0 pipeSymbol = some (some p)) :
    Dispatches fd cmdLine argv ↔
      ∃ first, runStage (cmdLine.set p 0) 0 argv = some first ∧ GoodCall first.1 ∧
        TailDispatches first.2.1 (p + 1) first.2.2 := by
  rw [Dispatches, shellRound_pipe hne hp]
  constructor
  · rintro ⟨actions, hrun, hgood⟩
    obtain ⟨first, hfirst, hrun⟩ := Option.bind_eq_some_iff.mp hrun
    obtain ⟨r, hr, hrun⟩ := Option.bind_eq_some_iff.mp hrun
    obtain ⟨last, hlast, rfl⟩ := Option.map_eq_some_iff.mp hrun
    obtain ⟨hhead, hcalls, hend⟩ := (goodCall_iff fd).mp hgood
    exact ⟨first, hfirst, hhead, r, last, hr, hlast, hcalls, hend⟩
  · rintro ⟨first, hfirst, hhead, r, last, hr, hlast, hcalls, hend⟩
    refine ⟨_, ?_, (goodCall_iff fd).mpr ⟨hhead, hcalls, hend⟩⟩
    rw [hfirst, Option.bind_some, hr, Option.bind_some, hlast, Option.map_some]

theorem shellRound_single (hne : cmdLine[0]? ≠ some 0)
    (hp : strchr cmdLine 0 pipeSymbol = some none) {r : ℤ × List Byte × Argv}
    (hr : cmdParse cmdLine 0 argv space = some r) (hargc : r.1 ≠ -1) :
    shellRound fd cmdLine argv = (runStage cmdLine 0 argv).map fun call => [call.1] := by
  rw [shellRound, if_neg hne, hp, runStage, hr]
  simp only [Option.bind_eq_bind, Option.bind_some, if_neg hargc]
  rfl

theorem round_single (hne : cmdLine[0]? ≠ some 0)
    (hp : strchr cmdLine 0 pipeSymbol = some none) (h : StringAt cmdLine 0 s) :
    Dispatches fd cmdLine argv ↔ Fine s := by
  by_cases hn : (wordsOf space s).length ≤ maxArgNr
  · obtain ⟨argc, buf', argv', hr, -, hwords⟩ := (parses_iff h argv).mpr hn
    have hargc : argc ≠ -1 := by
      have := (hwords hn).1
      omega
    rw [Dispatches, shellRound_single hne hp hr hargc, ← stage_last h argv]
    constructor
    · rintro ⟨actions, hrun, hgood⟩
      obtain ⟨call, hcall, rfl⟩ := Option.map_eq_some_iff.mp hrun
      exact ⟨call, hcall, hgood _ (List.mem_singleton_self _)⟩
    · rintro ⟨call, hcall, hgood⟩
      refine ⟨[call.1], ?_, fun action hmem => List.mem_singleton.mp hmem ▸ hgood⟩
      rw [hcall, Option.map_some]
  · have hnone : cmdParse cmdLine 0 argv space = none := cmdParse_many h (Nat.lt_of_not_le hn) argv
    have hround : shellRound fd cmdLine argv = none := by
      rw [shellRound, if_neg hne, hp]
      simp only [Option.bind_eq_bind, Option.bind_some, hnone, Option.bind_none]
    rw [Dispatches, hround]
    exact iff_of_false (fun ⟨_, hrun, _⟩ => by cases hrun) fun hfine => hn hfine.2

/-- A line that is not empty is handed on part by part, whatever the parts are. -/
theorem dispatches_line (h : StringAt cmdLine 0 s) (hs : s ≠ []) (fd : ℤ × ℤ) (argv : Argv) :
    Dispatches fd cmdLine argv ↔ ∀ stage ∈ s.splitOn pipeSymbol, Fine stage := by
  have hne : cmdLine[0]? ≠ some 0 := by
    obtain ⟨b, s, rfl⟩ := List.exists_cons_of_ne_nil hs
    rw [h.1]
    exact fun he => h.2.1 (Option.some.inj he)
  rcases split_cases s with ⟨hno, hsplit⟩ | ⟨w, t, rfl, hw, hsplit⟩
  · rw [hsplit, List.forall_mem_singleton]
    exact round_single hne (strchr_absent h hno) h
  · rw [hsplit, List.forall_mem_cons, round_pipe hne (strchr_first (by decide) h hw)]
    exact stage_then h argv (P := fun buf argv => TailDispatches buf (0 + w.length + 1) argv)
      fun buf' argv' htail => tail_dispatches_iff htail argv'

/-- Nothing looks at what `cmd_parse` returns before a part is handed on. -/
theorem dispatches_iff (h : StringAt cmdLine 0 s) (fd : ℤ × ℤ) (argv : Argv) :
    Dispatches fd cmdLine argv ↔ s = [] ∨ ∀ stage ∈ s.splitOn pipeSymbol, Fine stage := by
  by_cases hs : s = []
  · subst hs
    have hzero : cmdLine[0]? = some 0 := h
    refine iff_of_true ⟨[], ?_, fun action hmem => absurd hmem List.not_mem_nil⟩ (.inl rfl)
    rw [shellRound, if_pos hzero]
    rfl
  · rw [or_iff_right hs]
    exact dispatches_line h hs fd argv

/-- `ls|cat` -/
theorem dispatches_iff_ls :
    Dispatches (3, 4) [0x6c, 0x73, 0x7c, 0x63, 0x61, 0x74, 0] fun _ => none := by
  apply (dispatches_iff (s := [0x6c, 0x73, 0x7c, 0x63, 0x61, 0x74]) (by simp [StringAt]) (3, 4)
    fun _ => none).mpr
  right
  unfold Fine
  decide

/-- A line of one space: `cmd_execute` gets no command. -/
theorem blank_line_dispatched :
    shellRound (3, 4) [0x20, 0] (fun _ => none) = some [.execute 0 fun _ => none] ∧
      ¬Dispatches (3, 4) [0x20, 0] fun _ => none := by
  have hstr : StringAt [0x20, 0] 0 [0x20] := ⟨rfl, by decide, rfl⟩
  have hclear : clear (fun _ => none) 0 = fun _ => none := by
    funext j
    rw [clear_apply, if_pos (Nat.zero_le _)]
  have hparse : cmdParse [0x20, 0] 0 (fun _ => none) space =
      some (0, [0x20, 0], fun _ => none) := by
    rw [cmdParse, hclear]
    exact parseLoop_blank (k := 1) (by decide) hstr
  have hround : shellRound (3, 4) [0x20, 0] (fun _ => none) =
      some [.execute 0 fun _ => none] := by
    rw [shellRound_single (by decide) (strchr_absent hstr (by decide)) hparse (by decide),
      runStage, hparse]
    rfl
  refine ⟨hround, ?_⟩
  rintro ⟨actions, hrun, hgood⟩
  rw [hround] at hrun
  cases hrun
  have := (hgood _ (List.mem_singleton_self _) _ _ rfl).1
  omega

end ShellDispatch
