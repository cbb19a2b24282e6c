import XianweiOS.ByteStore
import XianweiOS.HaltingProgram

/-! `cmd_parse` of the shell (`shell/shell.c`): the words of a command are cut apart in place, and an
array of 16 pointers is set to them. A store outside the array has no meaning. -/
namespace ShellArguments

open ByteStore HaltingProgram

/-- `MAX_ARG_NR` -/
def maxArgNr : ℕ := 16

/-- The array of the caller; `NULL` is `none`, and a pointer is an offset in the line. -/
abbrev Argv := Fin maxArgNr → Option ℕ

def setArg (argv : Argv) (argc next : ℕ) : Option Argv :=
  if h : argc < maxArgNr then some (Function.update argv ⟨argc, h⟩ (some next)) else none

/-- `while (*next == token)` -/
def skipToken (buf : List Byte) (token : Byte) (next : ℕ) : Option ℕ :=
  match h : buf[next]? with
  | none => none
  | some c => if c = token then skipToken buf token (next + 1) else some next
termination_by buf.length - next
decreasing_by
  have := (List.getElem?_eq_some_iff.mp h).1
  omega

/-- `while (*next && *next != token)` -/
def skipWord (buf : List Byte) (token : Byte) (next : ℕ) : Option ℕ :=
  match h : buf[next]? with
  | none => none
  | some c => if c ≠ 0 ∧ c ≠ token then skipWord buf token (next + 1) else some next
termination_by buf.length - next
decreasing_by
  have := (List.getElem?_eq_some_iff.mp h).1
  omega

theorem skipToken_spec {buf : List Byte} {token : Byte} {next stop : ℕ}
    (h : skipToken buf token next = some stop) :
    next ≤ stop ∧ ∃ c, buf[stop]? = some c ∧ c ≠ token := by
  fun_induction skipToken buf token next with
  | case1 => cases h
  | case2 next hc ih =>
    have := ih h
    exact ⟨by omega, this.2⟩
  | case3 next c hc hne =>
    obtain rfl := Option.some.inj h
    exact ⟨le_rfl, c, hc, hne⟩

theorem skipWord_spec {buf : List Byte} {token : Byte} {next stop : ℕ}
    (h : skipWord buf token next = some stop) :
    next ≤ stop ∧ stop < buf.length ∧
      (∀ c, buf[next]? = some c → c ≠ 0 → c ≠ token → next < stop) := by
  fun_induction skipWord buf token next with
  | case1 => cases h
  | case2 next c hc hne ih =>
    obtain ⟨hle, hlt, -⟩ := ih h
    exact ⟨by omega, hlt, fun _ _ _ _ => hle⟩
  | case3 next c hc hstop =>
    obtain rfl := Option.some.inj h
    refine ⟨le_rfl, (List.getElem?_eq_some_iff.mp hc).1, fun d hd h0 ht => ?_⟩
    obtain rfl := Option.some.inj (hc.symm.trans hd)
    exact absurd ⟨h0, ht⟩ hstop

/-- The loop of `cmd_parse`. -/
def parseLoop (token : Byte) (buf : List Byte) (next argc : ℕ) (argv : Argv) :
    Option (ℤ × List Byte × Argv) :=
  if buf[next]? = some 0 then some (argc, buf, argv)
  else match _hb : skipToken buf token next with
    | none => none
    | some word =>
      if _hz : buf[word]? = some 0 then some (argc, buf, argv)
      else match setArg argv argc word with
        | none => none
        | some argv =>
          match he : skipWord buf token word with
          | none => none
          | some stop =>
            let cut := buf[stop]? ≠ some 0
            let buf' := if cut then buf.set stop 0 else buf
            let next' := if cut then stop + 1 else stop
            if argc > maxArgNr then some (-1, buf', argv)
            else parseLoop token buf' next' (argc + 1) argv
termination_by buf.length - next
decreasing_by
  obtain ⟨hle, c, hc, ht⟩ := skipToken_spec _hb
  obtain ⟨-, hlt, hword⟩ := skipWord_spec he
  have hstop : word < stop := hword c hc (fun h0 => _hz (h0 ▸ hc)) ht
  split
  · rw [List.length_set]
    omega
  · omega

/-- The first loop of `cmd_parse`. -/
def clear (argv : Argv) (argIdx : ℕ) : Argv :=
  if h : argIdx < maxArgNr then clear (Function.update argv ⟨argIdx, h⟩ none) (argIdx + 1) else argv
termination_by maxArgNr - argIdx

/-- `cmd_parse` of the string at `cmdStr`: what it returns, and the line and the array as it left
them. -/
def cmdParse (buf : List Byte) (cmdStr : ℕ) (argv : Argv) (token : Byte) :
    Option (ℤ × List Byte × Argv) :=
  parseLoop token buf cmdStr 0 (clear argv 0)

theorem clear_apply (argv : Argv) (argIdx : ℕ) (j : Fin maxArgNr) :
    clear argv argIdx j = if argIdx ≤ j then none else argv j := by
  fun_induction clear argv argIdx with
  | case1 argv argIdx h ih =>
    rw [ih]
    by_cases hj : argIdx + 1 ≤ j
    · rw [if_pos hj, if_pos (by omega)]
    · rw [if_neg hj]
      by_cases heq : argIdx = j
      · rw [if_pos (by omega)]
        subst heq
        exact Function.update_self ..
      · rw [if_neg (by omega), Function.update_of_ne (fun he => heq (by rw [he]))]
  | case2 argv argIdx h =>
    have := j.isLt
    rw [if_neg (by omega)]

/-! ### The words of a command -/

/-- The words between the separators. -/
def wordsOf (token : Byte) (s : List Byte) : List (List Byte) :=
  (s.splitOn token).filter fun w => !w.isEmpty

/-- A command taken apart, as the loop walks over it. -/
inductive Segmented (token : Byte) : List Byte → List (List Byte) → Prop
  | blank (k : ℕ) : Segmented token (List.replicate k token) []
  | last (k : ℕ) {w : List Byte} : w ≠ [] → token ∉ w →
      Segmented token (List.replicate k token ++ w) [w]
  | cons (k : ℕ) {w s : List Byte} {words : List (List Byte)} : w ≠ [] → token ∉ w →
      Segmented token s words →
      Segmented token (List.replicate k token ++ (w ++ token :: s)) (w :: words)

section Words

variable {token : Byte} {s w : List Byte}

theorem wordsOf_token (token : Byte) (s : List Byte) :
    wordsOf token (token :: s) = wordsOf token s := by
  simp [wordsOf, List.splitOn_cons_eq_if_modifyHead]

theorem wordsOf_replicate (k : ℕ) (s : List Byte) :
    wordsOf token (List.replicate k token ++ s) = wordsOf token s := by
  induction k with
  | zero => rfl
  | succ k ih => rw [List.replicate_succ, List.cons_append, wordsOf_token, ih]

theorem wordsOf_last (hw : w ≠ []) (ht : token ∉ w) : wordsOf token w = [w] := by
  simp [wordsOf, List.splitOn_eq_singleton ht, hw]

theorem wordsOf_cons (hw : w ≠ []) (ht : token ∉ w) (s : List Byte) :
    wordsOf token (w ++ token :: s) = w :: wordsOf token s := by
  simp [wordsOf, List.splitOn_append_cons_self_of_not_mem ht, hw]

/-- The walk finds the words. -/
theorem segmented_words (token : Byte) (s : List Byte) :
    Segmented token s (wordsOf token s) := by
  induction hn : s.length using Nat.strong_induction_on generalizing s with
  | h n ih =>
    obtain ⟨k, rest, hs, hrest⟩ : ∃ k rest, s = List.replicate k token ++ rest ∧
        rest.head? ≠ some token := by
      refine ⟨(s.takeWhile (· = token)).length, s.dropWhile (· = token), ?_, fun hhead => ?_⟩
      · conv_lhs => rw [← List.takeWhile_append_dropWhile (l := s) (p := (· = token))]
        congr 1
        refine List.eq_replicate_iff.mpr ⟨rfl, fun c hc => ?_⟩
        simpa using List.all_eq_true.mp List.all_takeWhile c hc
      · have := List.head?_dropWhile_not (· = token) s
        rw [hhead] at this
        simp at this
    rw [hs, wordsOf_replicate]
    by_cases hmem : token ∈ rest
    · obtain ⟨w, tail, hwt, ht⟩ := List.eq_append_cons_of_mem hmem
      have hw : w ≠ [] := by
        rintro rfl
        exact hrest (by rw [hwt]; rfl)
      have hlt : tail.length < n := by
        rw [← hn, hs, hwt]
        simp only [List.length_append, List.length_cons]
        omega
      rw [hwt, wordsOf_cons hw ht]
      exact .cons k hw ht (ih _ hlt tail rfl)
    · rcases eq_or_ne rest [] with rfl | hne
      · simpa [wordsOf] using Segmented.blank k
      · rw [wordsOf_last hne hmem]
        exact .last k hne hmem

end Words

/-! ### The walk -/

/-- The string at `a`. -/
def StringAt (buf : List Byte) : (a : ℕ) → List Byte → Prop
  | a, [] => buf[a]? = some 0
  | a, c :: s => buf[a]? = some c ∧ c ≠ 0 ∧ StringAt buf (a + 1) s

section Walk

variable {token : Byte} {buf buf' : List Byte} {argv : Argv} {s w : List Byte}
  {a next argc : ℕ}

theorem StringAt.append {t : List Byte} :
    ∀ {w : List Byte} {a : ℕ}, StringAt buf a (w ++ t) → StringAt buf (a + w.length) t
  | [], _, h => h
  | _ :: w, a, h => by
    have := StringAt.append (w := w) h.2.2
    rwa [List.length_cons, show a + (w.length + 1) = a + 1 + w.length by omega]

/-- A zero behind the first word makes it a string. -/
theorem StringAt.cut {t : List Byte} :
    ∀ {w : List Byte} {a : ℕ}, StringAt buf a (w ++ t) →
      (∀ i < a + w.length, buf'[i]? = buf[i]?) → buf'[a + w.length]? = some 0 →
      StringAt buf' a w
  | [], _, _, _, hz => hz
  | c :: w, a, h, hsame, hz => by
    have hlen : a + (c :: w).length = a + 1 + w.length := by
      rw [List.length_cons]
      omega
    rw [hlen] at hsame hz
    exact ⟨(hsame a (by omega)).trans h.1, h.2.1, StringAt.cut h.2.2 hsame hz⟩

theorem StringAt.frame : ∀ {s : List Byte} {a : ℕ}, StringAt buf a s →
    (∀ i, a ≤ i → i ≤ a + s.length → buf'[i]? = buf[i]?) → StringAt buf' a s
  | [], a, h, hsame => (hsame a le_rfl le_rfl).trans h
  | c :: s, a, h, hsame => by
    refine ⟨(hsame a le_rfl (by omega)).trans h.1, h.2.1, h.2.2.frame fun i hi hle => ?_⟩
    rw [List.length_cons] at hsame
    exact hsame i (by omega) (by omega)

theorem StringAt.head (h : StringAt buf a s) : buf[a]? = some (s.headD 0) := by
  cases s with
  | nil => exact h
  | cons c s => exact h.1

theorem skipToken_eq {c : Byte} (h : buf[next]? = some c) : skipToken buf token next =
    if c = token then skipToken buf token (next + 1) else some next := by
  rw [skipToken]
  split
  · rename_i hnone
    rw [h] at hnone
    cases hnone
  · rename_i d hd
    obtain rfl := Option.some.inj (h.symm.trans hd)
    rfl

theorem skipWord_eq {c : Byte} (h : buf[next]? = some c) : skipWord buf token next =
    if c ≠ 0 ∧ c ≠ token then skipWord buf token (next + 1) else some next := by
  rw [skipWord]
  split
  · rename_i hnone
    rw [h] at hnone
    cases hnone
  · rename_i d hd
    obtain rfl := Option.some.inj (h.symm.trans hd)
    rfl

theorem skipToken_run (ht : s.headD 0 ≠ token) : ∀ {k next : ℕ},
    StringAt buf next (List.replicate k token ++ s) →
    skipToken buf token next = some (next + k)
  | 0, _, h => by rw [skipToken_eq (StringAt.head h), if_neg (by simpa using ht), Nat.add_zero]
  | k + 1, next, h => by
    rw [skipToken_eq h.1, if_pos rfl, skipToken_run ht h.2.2, Nat.add_assoc, Nat.add_comm 1]

theorem skipWord_run (hs : s.headD 0 = 0 ∨ s.headD 0 = token) : ∀ {w : List Byte} {next : ℕ},
    token ∉ w → StringAt buf next (w ++ s) →
    skipWord buf token next = some (next + w.length)
  | [], next, _, h => by
    have hstop : ¬(s.headD 0 ≠ 0 ∧ s.headD 0 ≠ token) := by tauto
    rw [skipWord_eq (StringAt.head h), List.nil_append, if_neg hstop]
    rfl
  | c :: w, next, ht, h => by
    obtain ⟨hc, htw⟩ := not_or.mp (mt List.mem_cons.mpr ht)
    rw [skipWord_eq h.1, if_pos ⟨h.2.1, Ne.symm hc⟩, skipWord_run hs htw h.2.2, List.length_cons,
      Nat.add_assoc, Nat.add_comm 1]

/-- Nothing but separators is left. -/
theorem parseLoop_blank (h0 : token ≠ 0) {k : ℕ}
    (h : StringAt buf next (List.replicate k token)) :
    parseLoop token buf next argc argv = some (↑argc, buf, argv) := by
  rw [parseLoop]
  have hskip : skipToken buf token next = some (next + k) :=
    skipToken_run (s := []) (Ne.symm h0) (by rwa [List.append_nil])
  have hend : buf[next + k]? = some 0 := by
    have := StringAt.append (w := List.replicate k token) (t := []) (by rwa [List.append_nil])
    rwa [List.length_replicate] at this
  split
  · rfl
  · split
    · simp_all
    · simp_all

/-- One round of the loop, over a word that ends the command or has a separator behind it. -/
theorem parseLoop_word (h0 : token ≠ 0) {k : ℕ} (hw : w ≠ []) (ht : token ∉ w)
    (hs : s.headD 0 = 0 ∨ s.headD 0 = token)
    (h : StringAt buf next (List.replicate k token ++ (w ++ s))) :
    parseLoop token buf next argc argv = (setArg argv argc (next + k)).bind fun argv =>
      let stop := next + k + w.length
      let cut := buf[stop]? ≠ some 0
      let buf' := if cut then buf.set stop 0 else buf
      let next' := if cut then stop + 1 else stop
      if argc > maxArgNr then some (-1, buf', argv)
      else parseLoop token buf' next' (argc + 1) argv := by
  have hword := StringAt.append h
  rw [List.length_replicate] at hword
  obtain ⟨c, w, rfl⟩ := List.exists_cons_of_ne_nil hw
  have hc : c ≠ token := fun hc => ht (hc ▸ List.mem_cons_self)
  have hskip := skipToken_run (s := c :: w ++ s) hc h
  have hstop := skipWord_run hs ht hword
  have hstart : buf[next]? ≠ some 0 := by
    cases k with
    | zero =>
      rw [← Nat.add_zero next, hword.1]
      exact fun he => hword.2.1 (Option.some.inj he)
    | succ k =>
      rw [h.1]
      exact fun he => h0 (Option.some.inj he)
  have hfirst : buf[next + k]? ≠ some 0 := by
    rw [hword.1]
    exact fun he => hword.2.1 (Option.some.inj he)
  rw [parseLoop, if_neg hstart]
  split
  · simp_all
  · rename_i word hb
    obtain rfl := Option.some.inj (hskip.symm.trans hb)
    rw [dif_neg hfirst]
    cases setArg argv argc (next + k) with
    | none => rfl
    | some argv =>
      simp only [Option.bind_some]
      split
      · simp_all
      · rename_i stop he
        obtain rfl := Option.some.inj (hstop.symm.trans he)
        rfl

theorem setArg_pos (h : argc < maxArgNr) (a : ℕ) :
    setArg argv argc a = some (Function.update argv ⟨argc, h⟩ (some a)) := dif_pos h

/-- The loop has found the words of the command `s` at `next`, as the arguments from `argc` on. -/
structure Found (s : List Byte) (next argc : ℕ) (words : List (List Byte)) (buf : List Byte)
    (argv : Argv) (r : ℤ × List Byte × Argv) : Prop where
  count : r.1 = ↑(argc + words.length)
  before : ∀ i < next, r.2.1[i]? = buf[i]?
  pointer : ∀ (i : Fin maxArgNr) (j : ℕ) (w : List Byte), i = argc + j → words[j]? = some w →
    ∃ a, r.2.2 i = some a ∧ next ≤ a ∧ a + w.length ≤ next + s.length ∧ StringAt r.2.1 a w
  other : ∀ i : Fin maxArgNr, i < argc ∨ argc + words.length ≤ i → r.2.2 i = argv i

/-- One word more in front. -/
theorem Found.cons {words : List (List Byte)} {r : ℤ × List Byte × Argv} {start after : ℕ}
    {t : List Byte} (hargc : argc < maxArgNr)
    (hr : Found t after (argc + 1) words buf' (Function.update argv ⟨argc, hargc⟩ (some start)) r)
    (hafter : next ≤ after ∧ after + t.length ≤ next + s.length)
    (hbefore : ∀ i < next, buf'[i]? = buf[i]?)
    (hstart : next ≤ start ∧ start + w.length ≤ next + s.length) (hword : StringAt r.2.1 start w) :
    Found s next argc (w :: words) buf argv r where
  count := by
    rw [hr.count, List.length_cons]
    omega
  before i hi := (hr.before i (by omega)).trans (hbefore i hi)
  pointer i j v hi hv := by
    cases j with
    | zero =>
      obtain rfl : w = v := Option.some.inj hv
      obtain rfl : i = ⟨argc, hargc⟩ := Fin.ext hi
      refine ⟨start, ?_, hstart.1, hstart.2, hword⟩
      rw [hr.other _ (.inl (Nat.lt_succ_self argc)), Function.update_self]
    | succ j =>
      obtain ⟨a, ha, hle, hend, hstr⟩ := hr.pointer i j v (by omega) hv
      exact ⟨a, ha, by omega, by omega, hstr⟩
  other i hi := by
    rw [List.length_cons] at hi
    rw [hr.other i (by omega), Function.update_of_ne]
    intro he
    have : i.val = argc := congrArg Fin.val he
    omega

theorem parseLoop_words (h0 : token ≠ 0) {words : List (List Byte)}
    (hs : Segmented token s words) (h : StringAt buf next s)
    (hn : argc + words.length ≤ maxArgNr) (argv : Argv) :
    ∃ r, parseLoop token buf next argc argv = some r ∧ Found s next argc words buf argv r := by
  induction hs generalizing buf next argc argv with
  | blank k =>
    refine ⟨_, parseLoop_blank h0 h, rfl, fun _ _ => rfl, fun i j w _ hw => ?_, fun _ _ => rfl⟩
    cases hw
  | @last k w hw ht =>
    rw [List.length_singleton] at hn
    have hargc : argc < maxArgNr := by omega
    have h' : StringAt buf next (List.replicate k token ++ (w ++ [])) := by rwa [List.append_nil]
    have hword : StringAt buf (next + k) w := by
      have := StringAt.append h
      rwa [List.length_replicate] at this
    have hend : buf[next + k + w.length]? = some 0 :=
      StringAt.append (t := []) (by rwa [List.append_nil])
    have hlen : (List.replicate k token ++ w).length = k + w.length := by
      rw [List.length_append, List.length_replicate]
    have hrun : parseLoop token buf next argc argv = some (↑(argc + 1), buf,
        Function.update argv ⟨argc, hargc⟩ (some (next + k))) := by
      rw [parseLoop_word h0 hw ht (.inl rfl) h', setArg_pos hargc, Option.bind_some]
      simp only [hend, ne_eq, not_true_eq_false, if_false]
      rw [if_neg (by omega)]
      exact parseLoop_blank h0 (k := 0) hend
    have hnone : Found [] (next + k + w.length) (argc + 1) [] buf
        (Function.update argv ⟨argc, hargc⟩ (some (next + k))) (↑(argc + 1), buf,
          Function.update argv ⟨argc, hargc⟩ (some (next + k))) :=
      ⟨rfl, fun _ _ => rfl, fun _ _ _ _ hv => (nomatch hv), fun _ _ => rfl⟩
    refine ⟨_, hrun, hnone.cons hargc ⟨by omega, ?_⟩ (fun _ _ => rfl) ⟨by omega, ?_⟩ hword⟩
    · rw [hlen, List.length_nil]
      omega
    · rw [hlen]
      omega
  | @cons k w s words hw ht _ ih =>
    rw [List.length_cons] at hn
    have hargc : argc < maxArgNr := by omega
    have hword : StringAt buf (next + k) (w ++ token :: s) := by
      have := StringAt.append h
      rwa [List.length_replicate] at this
    have hsep : StringAt buf (next + k + w.length) (token :: s) := hword.append
    have hlt : next + k + w.length < buf.length := (List.getElem?_eq_some_iff.mp hsep.1).1
    have hcut : buf[next + k + w.length]? ≠ some 0 := by
      rw [hsep.1]
      exact fun he => h0 (Option.some.inj he)
    have hother : ∀ i, i ≠ next + k + w.length →
        (buf.set (next + k + w.length) 0)[i]? = buf[i]? :=
      fun i hi => List.getElem?_set_ne (Ne.symm hi)
    have hrest : StringAt (buf.set (next + k + w.length) 0) (next + k + w.length + 1) s :=
      hsep.2.2.frame fun i hi _ => hother i (by omega)
    have hn' : argc + 1 + words.length ≤ maxArgNr := by omega
    obtain ⟨r, hr, hfound⟩ := ih hrest hn' (Function.update argv ⟨argc, hargc⟩ (some (next + k)))
    have hlen : (List.replicate k token ++ (w ++ token :: s)).length =
        k + (w.length + (s.length + 1)) := by
      rw [List.length_append, List.length_replicate, List.length_append, List.length_cons]
    have hrun : parseLoop token buf next argc argv = some r := by
      rw [parseLoop_word h0 hw ht (.inr rfl) h, setArg_pos hargc, Option.bind_some]
      simp only [hcut, ne_eq, not_false_eq_true, if_true]
      rw [if_neg (by omega), hr]
    have hstr : StringAt r.2.1 (next + k) w := by
      refine hword.cut (fun i hi => ?_) ?_
      · rw [hfound.before i (by omega), hother i (by omega)]
      · rw [hfound.before _ (by omega), List.getElem?_set_self hlt]
    refine ⟨r, hrun, hfound.cons hargc ⟨by omega, ?_⟩ (fun i hi => hother i (by omega))
      ⟨by omega, ?_⟩ hstr⟩
    · rw [hlen]
      omega
    · rw [hlen]
      omega

/-- The word after the sixteenth has no place in the array. -/
theorem parseLoop_many (h0 : token ≠ 0) {words : List (List Byte)}
    (hs : Segmented token s words) (h : StringAt buf next s) (hargc : argc ≤ maxArgNr)
    (hn : maxArgNr < argc + words.length) : parseLoop token buf next argc argv = none := by
  have hfull : ∀ a, ¬argc < maxArgNr → setArg argv argc a = none := fun a hge => dif_neg hge
  induction hs generalizing buf next argc argv with
  | blank k =>
    rw [List.length_nil] at hn
    omega
  | @last k w hw ht =>
    rw [List.length_singleton] at hn
    have h' : StringAt buf next (List.replicate k token ++ (w ++ [])) := by rwa [List.append_nil]
    rw [parseLoop_word h0 hw ht (.inl rfl) h', hfull _ (by omega)]
    rfl
  | @cons k w s words hw ht _ ih =>
    rw [parseLoop_word h0 hw ht (.inr rfl) h]
    by_cases hlt : argc < maxArgNr
    · rw [List.length_cons] at hn
      have hsep : StringAt buf (next + k + w.length) (token :: s) := by
        have := StringAt.append h
        rw [List.length_replicate] at this
        exact this.append
      have hcut : buf[next + k + w.length]? ≠ some 0 := by
        rw [hsep.1]
        exact fun he => h0 (Option.some.inj he)
      rw [setArg_pos hlt, Option.bind_some]
      simp only [hcut, ne_eq, not_false_eq_true, if_true]
      rw [if_neg (by omega)]
      refine ih (hsep.2.2.frame fun i hi _ => List.getElem?_set_ne (by omega)) (by omega)
        (by omega) fun a hge => dif_neg hge
    · rw [hfull _ hlt]
      rfl

end Walk

/-! ### What the shell relies on -/

/-- `' '` -/
def space : Byte := 0x20

/-- The command `s` at `cmdStr` is parsed as the shell means it: no store leaves the array, too many
words are refused, and otherwise the array holds the words and behind them `NULL`. -/
def Parses (buf : List Byte) (cmdStr : ℕ) (s : List Byte) (argv : Argv) : Prop :=
  ∃ argc buf' argv', cmdParse buf cmdStr argv space = some (argc, buf', argv') ∧
    (maxArgNr < (wordsOf space s).length → argc = -1) ∧
    ((wordsOf space s).length ≤ maxArgNr → argc = (wordsOf space s).length ∧
      (∀ (i : Fin maxArgNr) (w : List Byte), (wordsOf space s)[i.val]? = some w →
        ∃ a, argv' i = some a ∧ cmdStr ≤ a ∧ a + w.length ≤ cmdStr + s.length ∧
          StringAt buf' a w) ∧
      ∀ i : Fin maxArgNr, (wordsOf space s).length ≤ i → argv' i = none)

variable {buf : List Byte} {cmdStr : ℕ} {s : List Byte}

theorem cmdParse_many (h : StringAt buf cmdStr s) (hn : maxArgNr < (wordsOf space s).length)
    (argv : Argv) : cmdParse buf cmdStr argv space = none :=
  parseLoop_many (by decide) (segmented_words space s) h (Nat.zero_le _) (by omega)

/-- A command is parsed as the shell means it if it has at most 16 words. -/
theorem parses_iff (h : StringAt buf cmdStr s) (argv : Argv) :
    Parses buf cmdStr s argv ↔ (wordsOf space s).length ≤ maxArgNr := by
  constructor
  · rintro ⟨argc, buf', argv', hrun, -⟩
    by_contra hn
    rw [cmdParse_many h (Nat.lt_of_not_le hn)] at hrun
    cases hrun
  · intro hn
    have hn0 : 0 + (wordsOf space s).length ≤ maxArgNr := by omega
    obtain ⟨⟨argc, buf', argv'⟩, hrun, hfound⟩ := parseLoop_words (by decide)
      (segmented_words space s) h hn0 (clear argv 0)
    refine ⟨argc, buf', argv', hrun, fun hgt => absurd hn (Nat.not_le_of_lt hgt), fun _ =>
      ⟨?_, fun i w hw => ?_, fun i hi => ?_⟩⟩
    · have hcount := hfound.count
      rwa [Nat.zero_add] at hcount
    · exact hfound.pointer i i w (Nat.zero_add _).symm hw
    · exact (hfound.other i (.inr (by omega))).trans
        ((clear_apply argv 0 i).trans (if_pos (Nat.zero_le _)))

/-- `"ls -l"` -/
theorem parses_iff_ls : Parses [0x6c, 0x73, 0x20, 0x2d, 0x6c, 0] 0 [0x6c, 0x73, 0x20, 0x2d, 0x6c]
    fun _ => none :=
  (parses_iff (by simp [StringAt]) fun _ => none).mpr (by decide)

/-- `n` words of one letter. -/
def letters : ℕ → List Byte
  | 0 => []
  | n + 1 => 0x61 :: space :: letters n

theorem wordsOf_letters (n : ℕ) : (wordsOf space (letters n)).length = n := by
  induction n with
  | zero => rfl
  | succ n ih =>
    have hcons : wordsOf space ([0x61] ++ space :: letters n) = [0x61] :: wordsOf space (letters n) :=
      wordsOf_cons (by decide) (by decide) (letters n)
    rw [letters, ← List.singleton_append, hcons, List.length_cons, ih]

/-- Seventeen words: the pointer to the last one is stored behind the array. -/
theorem seventeenth_word_outside :
    cmdParse (letters 17 ++ [0]) 0 (fun _ => none) space = none ∧
      ¬Parses (letters 17 ++ [0]) 0 (letters 17) fun _ => none := by
  have hstr : StringAt (letters 17 ++ [0]) 0 (letters 17) := by
    simp [StringAt, letters, space]
  have hnone : cmdParse (letters 17 ++ [0]) 0 (fun _ => none) space = none :=
    cmdParse_many hstr (by rw [wordsOf_letters]; decide) _
  refine ⟨hnone, ?_⟩
  rintro ⟨argc, buf', argv', hrun, -⟩
  rw [hnone] at hrun
  cases hrun

end ShellArguments
