import XianweiOS.DeviceIde

/-! The partition tables of a disk and `partition_scan` (`device/ide.c`), which follows the entries
of type 5 from table to table. A scan that goes on for ever runs out of any fuel; the stack and the
heap, from which every call takes a sector, are not bounded here. -/
namespace PartitionScan

open ByteStore DeviceIde

/-- `struct partition_table_entry`, without the fields nobody reads. -/
structure TableEntry where
  fsType : Byte
  startLba : ℕ
  secCnt : ℕ
  deriving DecidableEq, Repr

/-- The four entries of a `struct boot_sector`. -/
def partitionTable (bs : Bytes) : List TableEntry :=
  (List.range 4).map fun i =>
    ⟨bs (446 + 16 * i + 4), word bs (446 + 16 * i + 8), word bs (446 + 16 * i + 12)⟩

/-- An element of `prim_parts` or `logic_parts` of a disk; `no` is the number in its name. -/
structure Part where
  disk : ℕ
  no : ℕ
  startLba : ℕ
  secCnt : ℕ
  deriving DecidableEq, Repr

/-- The globals. An element of the arrays is written once and linked at once, so the list holds the
elements themselves. -/
structure Scan where
  pNo : ℕ
  lNo : ℕ
  extLbaBase : ℕ
  partitionList : List Part
  deriving DecidableEq, Repr

/-- Why there is no result: an assertion, a store outside the arrays, or no end yet. -/
inductive Stop where
  | assertion
  | outside
  | fuel
  deriving DecidableEq, Repr

def recordPrim (hd : ℕ) (p : TableEntry) (s : Scan) : Except Stop Scan :=
  if s.pNo < 4 then
    if s.pNo + 1 < 4 then .ok { s with
      partitionList := s.partitionList ++ [⟨hd, s.pNo + 1, p.startLba, p.secCnt⟩]
      pNo := s.pNo + 1 }
    else .error .assertion
  else .error .outside

def recordLogic (hd extLba : ℕ) (p : TableEntry) (s : Scan) : Except Stop Scan :=
  if s.lNo < 8 then .ok { s with
    partitionList := s.partitionList ++ [⟨hd, s.lNo + 5, (extLba + p.startLba) % 2 ^ 32, p.secCnt⟩]
    lNo := s.lNo + 1 }
  else .error .outside

/-- The `while` loop over the entries of the table at `extLba`. -/
def scanEntries (scan : ℕ → Scan → Except Stop Scan) (hd extLba : ℕ) :
    List TableEntry → Scan → Except Stop Scan
  | [], s => .ok s
  | p :: ps, s =>
    if p.fsType = 5 then
      if s.extLbaBase ≠ 0 then do
        let s ← scan ((p.startLba + s.extLbaBase) % 2 ^ 32) s
        scanEntries scan hd extLba ps s
      else do
        let s ← scan p.startLba { s with extLbaBase := p.startLba }
        scanEntries scan hd extLba ps s
    else if p.fsType ≠ 0 then
      if extLba = 0 then do
        let s ← recordPrim hd p s
        scanEntries scan hd extLba ps s
      else do
        let s ← recordLogic hd extLba p s
        -- this leaves the table, not the scan
        if s.lNo ≥ 8 then .ok s else scanEntries scan hd extLba ps s
    else scanEntries scan hd extLba ps s

def partitionScan (disk : Bytes) (hd : ℕ) : (fuel extLba : ℕ) → Scan → Except Stop Scan
  | 0, _, _ => .error .fuel
  | fuel + 1, extLba, s =>
    match ideRead disk extLba zeroes 1 with
    | none => .error .assertion
    | some bs => scanEntries (partitionScan disk hd fuel) hd extLba (partitionTable bs) s

/-- With enough fuel the result of the scan is `r`. -/
def Ends (disk : Bytes) (hd extLba : ℕ) (s : Scan) (r : Except Stop Scan) : Prop :=
  ∃ n, ∀ fuel, n ≤ fuel → partitionScan disk hd fuel extLba s = r

/-! ### The tables -/

/-- The table in sector `lba`. -/
def tableAt (disk : Bytes) (lba : ℕ) : List TableEntry := partitionTable (window disk (512 * lba))

/-- Where an entry of type 5 leads to, and what the later ones are counted from. -/
def linkLba (base : ℕ) (p : TableEntry) : ℕ :=
  if base ≠ 0 then (p.startLba + base) % 2 ^ 32 else p.startLba

def linkBase (base : ℕ) (p : TableEntry) : ℕ := if base ≠ 0 then base else p.startLba

/-- An entry that stands for a partition of its own. -/
def TableEntry.Plain (p : TableEntry) : Prop := p.fsType ≠ 0 ∧ p.fsType ≠ 5

instance : DecidablePred TableEntry.Plain := fun _ => inferInstanceAs (Decidable (_ ∧ _))

/-- A partition, with its absolute address. -/
structure Found where
  logical : Bool
  startLba : ℕ
  secCnt : ℕ
  deriving DecidableEq, Repr

def TableEntry.found (p : TableEntry) (lba : ℕ) : Found :=
  if lba = 0 then ⟨false, p.startLba, p.secCnt⟩
  else ⟨true, (lba + p.startLba) % 2 ^ 32, p.secCnt⟩

/-- The rest of a table and the tables behind it, as a tree. Entries that nobody looks at are
`behind`; at `beyond` a link leaves the disk, and `fourth` is a primary partition too many. -/
inductive Tree where
  | done
  | behind
  | unused (rest : Tree)
  | part (f : Found) (rest : Tree)
  | link (sub rest : Tree)
  | beyond
  | fourth
  deriving Repr

/-- The partitions of a tree, in the order of the walk. -/
def Tree.found : Tree → List Found
  | .done | .behind | .beyond | .fourth => []
  | .unused rest => rest.found
  | .part f rest => f :: rest.found
  | .link sub rest => sub.found ++ rest.found

/-- What stands on the disk: the entries `ps` of the table in sector `lba` make up the tree, if the
links are counted from `base`; behind them they are counted from the last argument. -/
inductive Spells (disk : Bytes) : (base lba : ℕ) → List TableEntry → Tree → ℕ → Prop
  | done {base lba : ℕ} : Spells disk base lba [] .done base
  | behind {base lba : ℕ} {ps : List TableEntry} : Spells disk base lba ps .behind base
  | unused {base lba b : ℕ} {p : TableEntry} {ps : List TableEntry} {t : Tree} : p.fsType = 0 →
      Spells disk base lba ps t b → Spells disk base lba (p :: ps) (.unused t) b
  | part {base lba b : ℕ} {p : TableEntry} {ps : List TableEntry} {t : Tree} : p.Plain →
      Spells disk base lba ps t b → Spells disk base lba (p :: ps) (.part (p.found lba) t) b
  | link {base lba b b' : ℕ} {p : TableEntry} {ps : List TableEntry} {sub rest : Tree} :
      p.fsType = 5 → linkLba base p ≤ maxLba →
      Spells disk (linkBase base p) (linkLba base p) (tableAt disk (linkLba base p)) sub b →
      Spells disk b lba ps rest b' → Spells disk base lba (p :: ps) (.link sub rest) b'
  | beyond {base lba : ℕ} {p : TableEntry} {ps : List TableEntry} : p.fsType = 5 →
      maxLba < linkLba base p → Spells disk base lba (p :: ps) .beyond base
  | fourth {base : ℕ} {p : TableEntry} {ps : List TableEntry} : p.Plain →
      Spells disk base 0 (p :: ps) .fourth base

/-- There is room for the partitions of a tree when `p` primary and `l` logical ones are there
already: three of the former and eight of the latter in all. What is behind the eighth in its table
is not looked at. The last argument is how many there are afterwards, or `none` for a walk that does
not get so far. -/
inductive Room : Tree → (p l : ℕ) → Option (ℕ × ℕ) → Prop
  | done {p l : ℕ} : Room .done p l (some (p, l))
  | unused {p l : ℕ} {t : Tree} {r : Option (ℕ × ℕ)} : Room t p l r → Room (.unused t) p l r
  | primary {p l : ℕ} {f : Found} {t : Tree} {r : Option (ℕ × ℕ)} : f.logical = false →
      p + 1 < 4 → Room t (p + 1) l r → Room (.part f t) p l r
  | logical {p l : ℕ} {f : Found} {t : Tree} {r : Option (ℕ × ℕ)} : f.logical = true →
      l + 1 < 8 → Room t p (l + 1) r → Room (.part f t) p l r
  | eighth {p l : ℕ} {f : Found} : f.logical = true → l + 1 = 8 →
      Room (.part f .behind) p l (some (p, 8))
  | link {p l p' l' : ℕ} {sub rest : Tree} {r : Option (ℕ × ℕ)} : Room sub p l (some (p', l')) →
      Room rest p' l' r → Room (.link sub rest) p l r
  | stopped {p l : ℕ} {sub : Tree} : Room sub p l none → Room (.link sub .behind) p l none
  | beyond {p l : ℕ} : Room .beyond p l none
  | fourth {p l : ℕ} : p = 3 → Room .fourth p l none

/-! ### The scan follows the tree -/

section Follow

variable {disk : Bytes} {hd base lba b p l : ℕ} {ps : List TableEntry} {t : Tree}
  {r : Option (ℕ × ℕ)} {s s' : Scan}

theorem partitionTable_patch (m src : Bytes) :
    partitionTable (patch m 0 512 src) = partitionTable src := by
  refine List.map_congr_left fun i hi => ?_
  have hi := List.mem_range.mp hi
  rw [patch_in (by omega), word_patch_in (by omega), word_patch_in (by omega)]
  rfl

theorem partitionScan_succ (h : lba ≤ maxLba) (fuel : ℕ) :
    partitionScan disk hd (fuel + 1) lba s =
      scanEntries (partitionScan disk hd fuel) hd lba (tableAt disk lba) s := by
  rw [partitionScan, ideRead_eq Nat.one_pos (Nat.succ_le_succ h)]
  dsimp only
  rw [partitionTable_patch]
  rfl

theorem partitionScan_beyond (h : maxLba < lba) (fuel : ℕ) :
    partitionScan disk hd (fuel + 1) lba s = .error .assertion := by
  have hnone : ideRead disk lba zeroes 1 = none := by
    rw [ideRead, HaltingProgram.assert, if_neg (by omega)]
    rfl
  rw [partitionScan, hnone]

/-- The two cases of a link. -/
theorem scanEntries_link {scan : ℕ → Scan → Except Stop Scan} {e : TableEntry} (h : e.fsType = 5) :
    scanEntries scan hd lba (e :: ps) s = (scan (linkLba s.extLbaBase e)
      { s with extLbaBase := linkBase s.extLbaBase e }).bind fun s =>
        scanEntries scan hd lba ps s := by
  rw [scanEntries, if_pos h, linkLba, linkBase]
  by_cases hbase : s.extLbaBase ≠ 0
  · rw [if_pos hbase, if_pos hbase, if_pos hbase]
    rfl
  · rw [if_neg hbase, if_neg hbase, if_neg hbase]
    rfl

theorem scanEntries_unused {scan : ℕ → Scan → Except Stop Scan} {e : TableEntry}
    (h : e.fsType = 0) : scanEntries scan hd lba (e :: ps) s = scanEntries scan hd lba ps s := by
  have h5 : e.fsType ≠ 5 := by
    rw [h]
    decide
  rw [scanEntries, if_neg h5, if_neg (not_not.mpr h)]

theorem scanEntries_primary {scan : ℕ → Scan → Except Stop Scan} {e : TableEntry} (h : e.Plain) :
    scanEntries scan hd 0 (e :: ps) s = (recordPrim hd e s).bind fun s =>
      scanEntries scan hd 0 ps s := by
  rw [scanEntries, if_neg h.2, if_pos h.1, if_pos rfl]
  rfl

theorem scanEntries_logical {scan : ℕ → Scan → Except Stop Scan} {e : TableEntry} (h : e.Plain)
    (hlba : lba ≠ 0) :
    scanEntries scan hd lba (e :: ps) s = (recordLogic hd lba e s).bind fun s =>
      if s.lNo ≥ 8 then .ok s else scanEntries scan hd lba ps s := by
  rw [scanEntries, if_neg h.2, if_pos h.1, if_neg hlba]
  rfl

/-- The elements of the arrays for the partitions of a walk. -/
def label (hd : ℕ) : List Found → (p l : ℕ) → List Part
  | [], _, _ => []
  | f :: fs, p, l =>
    if f.logical then ⟨hd, l + 5, f.startLba, f.secCnt⟩ :: label hd fs p (l + 1)
    else ⟨hd, p + 1, f.startLba, f.secCnt⟩ :: label hd fs (p + 1) l

def prims (fs : List Found) : ℕ := fs.countP fun f => f.logical = false
def logics (fs : List Found) : ℕ := fs.countP fun f => f.logical

theorem label_append (fs gs : List Found) (p l : ℕ) :
    label hd (fs ++ gs) p l = label hd fs p l ++ label hd gs (p + prims fs) (l + logics fs) := by
  induction fs generalizing p l with
  | nil => rfl
  | cons f fs ih =>
    rw [List.cons_append, label, label]
    cases hf : f.logical with
    | false =>
      have hp : p + 1 + prims fs = p + prims (f :: fs) := by
        simp [prims, hf]
        omega
      have hl : logics fs = logics (f :: fs) := by simp [logics, hf]
      rw [if_neg Bool.false_ne_true, if_neg Bool.false_ne_true, ih, hp, hl, List.cons_append]
    | true =>
      have hp : prims fs = prims (f :: fs) := by simp [prims, hf]
      have hl : l + 1 + logics fs = l + logics (f :: fs) := by
        simp [logics, hf]
        omega
      rw [if_pos rfl, if_pos rfl, ih, hp, hl, List.cons_append]

/-- The counts afterwards are those of the partitions. -/
theorem Room.counts {p' l' : ℕ} (h : Room t p l (some (p', l'))) :
    p' = p + prims t.found ∧ l' = l + logics t.found := by
  generalize hr : some (p', l') = r at h
  induction h generalizing p' l' with
  | done =>
    obtain ⟨rfl, rfl⟩ := Prod.mk.inj (Option.some.inj hr)
    exact ⟨rfl, rfl⟩
  | unused _ ih => exact ih hr
  | primary hf _ _ ih =>
    obtain ⟨rfl, rfl⟩ := ih hr
    simp [Tree.found, prims, logics, hf]
    omega
  | logical hf _ _ ih =>
    obtain ⟨rfl, rfl⟩ := ih hr
    simp [Tree.found, prims, logics, hf]
    omega
  | eighth hf hl =>
    obtain ⟨rfl, rfl⟩ := Prod.mk.inj (Option.some.inj hr)
    simp [Tree.found, prims, logics, hf, hl]
  | link _ _ ih ih' =>
    obtain ⟨rfl, rfl⟩ := ih rfl
    obtain ⟨rfl, rfl⟩ := ih' hr
    simp only [Tree.found, prims, logics, List.countP_append]
    omega
  | stopped => cases hr
  | beyond => cases hr
  | fourth => cases hr

/-- What the scan makes of a tree. -/
def outcome (hd b p l : ℕ) (t : Tree) (list : List Part) : Option (ℕ × ℕ) → Except Stop Scan
  | none => .error .assertion
  | some (p', l') => .ok ⟨p', l', b, list ++ label hd t.found p l⟩

theorem outcome_primary {f : Found} (h : f.logical = false) (list : List Part) :
    outcome hd b (p + 1) l t (list ++ [⟨hd, p + 1, f.startLba, f.secCnt⟩]) r =
      outcome hd b p l (.part f t) list r := by
  have hne : ¬f.logical = true := by
    rw [h]
    exact Bool.false_ne_true
  cases r with
  | none => rfl
  | some c =>
    rw [outcome, outcome, Tree.found, label, if_neg hne, List.append_assoc]
    rfl

theorem outcome_logical {f : Found} (h : f.logical = true) (list : List Part) :
    outcome hd b p (l + 1) t (list ++ [⟨hd, l + 5, f.startLba, f.secCnt⟩]) r =
      outcome hd b p l (.part f t) list r := by
  cases r with
  | none => rfl
  | some c =>
    rw [outcome, outcome, Tree.found, label, if_pos h, List.append_assoc]
    rfl

theorem outcome_link {p' l' : ℕ} {sub rest : Tree} (h : Room sub p l (some (p', l')))
    (list : List Part) : outcome hd b p' l' rest (list ++ label hd sub.found p l) r =
      outcome hd b p l (.link sub rest) list r := by
  obtain ⟨rfl, rfl⟩ := h.counts
  cases r with
  | none => rfl
  | some c => rw [outcome, outcome, Tree.found, label_append, List.append_assoc]

theorem found_primary {e : TableEntry} (h : (e.found lba).logical = false) : lba = 0 := by
  by_contra hne
  rw [TableEntry.found, if_neg hne] at h
  cases h

theorem found_logical {e : TableEntry} (h : (e.found lba).logical = true) : lba ≠ 0 := by
  rintro rfl
  cases h

/-- The scan finds what the tables spell, by induction on the tree. -/
theorem scan_of_spells (hs : Spells disk base lba ps t b) (hr : Room t p l r) (hd : ℕ)
    (list : List Part) : ∃ n, ∀ fuel, n ≤ fuel →
      scanEntries (partitionScan disk hd fuel) hd lba ps ⟨p, l, base, list⟩ =
        outcome hd b p l t list r := by
  induction hs generalizing p l r list with
  | done =>
    cases hr
    refine ⟨0, fun fuel _ => ?_⟩
    rw [outcome, Tree.found, label, List.append_nil]
    rfl
  | behind => cases hr
  | unused he _ ih =>
    cases hr with
    | unused hr =>
      obtain ⟨n, hn⟩ := ih hr list
      refine ⟨n, fun fuel hf => (scanEntries_unused he).trans ((hn fuel hf).trans ?_)⟩
      cases r
      · rfl
      · rfl
  | @part base lba b e ps t he hrest ih =>
    cases hr with
    | primary hf hp hr =>
      obtain rfl := found_primary hf
      obtain ⟨n, hn⟩ := ih hr (list ++ [⟨hd, p + 1, e.startLba, e.secCnt⟩])
      refine ⟨n, fun fuel hfuel => ?_⟩
      rw [scanEntries_primary he, recordPrim, if_pos (show p < 4 by omega), if_pos hp, Except.bind,
        hn fuel hfuel]
      exact outcome_primary hf list
    | logical hf hl hr =>
      have hlba := found_logical hf
      obtain ⟨n, hn⟩ := ih hr (list ++ [⟨hd, l + 5, (lba + e.startLba) % 2 ^ 32, e.secCnt⟩])
      refine ⟨n, fun fuel hfuel => ?_⟩
      have hmore : ¬l + 1 ≥ 8 := by omega
      rw [scanEntries_logical he hlba, recordLogic, if_pos (show l < 8 by omega), Except.bind]
      dsimp only
      rw [if_neg hmore, hn fuel hfuel, ← outcome_logical hf list, TableEntry.found, if_neg hlba]
    | eighth hf hl =>
      have hlba := found_logical hf
      refine ⟨0, fun fuel _ => ?_⟩
      have hfull : l + 1 ≥ 8 := by omega
      cases hrest
      rw [scanEntries_logical he hlba, recordLogic, if_pos (show l < 8 by omega), Except.bind]
      dsimp only
      rw [if_pos hfull, hl, outcome, Tree.found, Tree.found, label, if_pos hf, TableEntry.found,
        if_neg hlba, label]
  | @link base lba b b' e ps sub rest he hle _ _ ih ih' =>
    cases hr with
    | link hr hr' =>
      obtain ⟨n, hn⟩ := ih hr list
      obtain ⟨n', hn'⟩ := ih' hr' (list ++ label hd sub.found p l)
      refine ⟨max (n + 1) n', fun fuel hfuel => ?_⟩
      obtain ⟨fuel, rfl⟩ : ∃ k, fuel = k + 1 := ⟨fuel - 1, by omega⟩
      rw [scanEntries_link he, partitionScan_succ hle, hn fuel (by omega), outcome, Except.bind,
        hn' (fuel + 1) (by omega)]
      exact outcome_link hr list
    | stopped hr =>
      obtain ⟨n, hn⟩ := ih hr list
      refine ⟨n + 1, fun fuel hfuel => ?_⟩
      obtain ⟨fuel, rfl⟩ : ∃ k, fuel = k + 1 := ⟨fuel - 1, by omega⟩
      rw [scanEntries_link he, partitionScan_succ hle, hn fuel (by omega)]
      rfl
  | beyond he hgt =>
    cases hr
    refine ⟨1, fun fuel hfuel => ?_⟩
    obtain ⟨fuel, rfl⟩ : ∃ k, fuel = k + 1 := ⟨fuel - 1, by omega⟩
    rw [scanEntries_link he, partitionScan_beyond hgt]
    rfl
  | fourth he =>
    cases hr with
    | fourth hp =>
      refine ⟨0, fun fuel _ => ?_⟩
      rw [scanEntries_primary he, recordPrim, if_pos (show p < 4 by omega),
        if_neg (show ¬p + 1 < 4 by omega)]
      rfl

/-! ### A scan that ends has followed a tree -/

/-- The entries make up a tree with room, and `r` is what the scan makes of it. -/
def Explained (disk : Bytes) (hd lba : ℕ) (ps : List TableEntry) (s : Scan)
    (r : Except Stop Scan) : Prop :=
  ∃ t b c, Spells disk s.extLbaBase lba ps t b ∧ Room t s.pNo s.lNo c ∧
    r = outcome hd b s.pNo s.lNo t s.partitionList c

/-- The scan of a table, explained. -/
def TableExplained (disk : Bytes) (hd lba : ℕ) (s : Scan) (r : Except Stop Scan) : Prop :=
  (maxLba < lba ∧ r = .error .assertion) ∨
    (lba ≤ maxLba ∧ Explained disk hd lba (tableAt disk lba) s r)

/-- `r` is an end within the arrays. -/
def Ended (r : Except Stop Scan) : Prop := r ≠ .error .fuel ∧ r ≠ .error .outside

theorem Ended.of_bind {x : Except Stop Scan} {f : Scan → Except Stop Scan}
    (h : Ended (x.bind f)) : Ended x := by
  refine ⟨fun he => h.1 ?_, fun he => h.2 ?_⟩
  · rw [he]
    rfl
  · rw [he]
    rfl

theorem explained_entries {scan : ℕ → Scan → Except Stop Scan}
    (hscan : ∀ lba s, Ended (scan lba s) → TableExplained disk hd lba s (scan lba s)) :
    ∀ (ps : List TableEntry) (s : Scan), Ended (scanEntries scan hd lba ps s) →
      Explained disk hd lba ps s (scanEntries scan hd lba ps s)
  | [], s, _ => by
    refine ⟨.done, s.extLbaBase, _, .done, .done, ?_⟩
    rw [outcome, Tree.found, label, List.append_nil]
    rfl
  | e :: ps, s, h => by
    have ih := explained_entries hscan ps
    by_cases h0 : e.fsType = 0
    · rw [scanEntries_unused h0] at h ⊢
      obtain ⟨t, b, c, hs, hr, hout⟩ := ih s h
      refine ⟨.unused t, b, c, .unused h0 hs, .unused hr, hout.trans ?_⟩
      cases c
      · rfl
      · rfl
    by_cases h5 : e.fsType = 5
    · rw [scanEntries_link h5] at h ⊢
      rcases hscan _ _ h.of_bind with ⟨hgt, hstop⟩ | ⟨hle, t, b, c, hs, hr, hout⟩
      · rw [hstop]
        exact ⟨.beyond, s.extLbaBase, none, .beyond h5 hgt, .beyond, rfl⟩
      · rw [hout] at h ⊢
        cases c with
        | none => exact ⟨.link t .behind, b, none, .link h5 hle hs .behind, .stopped hr, rfl⟩
        | some c =>
          obtain ⟨t', b', c', hs', hr', hout'⟩ := ih _ h
          exact ⟨.link t t', b', c', .link h5 hle hs hs', .link hr hr',
            hout'.trans (outcome_link hr _)⟩
    have he : e.Plain := ⟨h0, h5⟩
    by_cases hlba : lba = 0
    · subst hlba
      rw [scanEntries_primary he] at h ⊢
      by_cases hp : s.pNo < 4
      · by_cases hp' : s.pNo + 1 < 4
        · rw [recordPrim, if_pos hp, if_pos hp'] at h ⊢
          obtain ⟨t, b, c, hs, hr, hout⟩ := ih _ h
          exact ⟨.part (e.found 0) t, b, c, .part he hs, .primary rfl hp' hr,
            hout.trans (outcome_primary (f := e.found 0) rfl s.partitionList)⟩
        · rw [recordPrim, if_pos hp, if_neg hp']
          exact ⟨.fourth, s.extLbaBase, none, .fourth he, .fourth (by omega), rfl⟩
      · rw [recordPrim, if_neg hp] at h
        exact absurd rfl h.2
    · have hfound : e.found lba = ⟨true, (lba + e.startLba) % 2 ^ 32, e.secCnt⟩ := if_neg hlba
      have hlogical : (e.found lba).logical = true := by rw [hfound]
      rw [scanEntries_logical he hlba] at h ⊢
      by_cases hl : s.lNo < 8
      · rw [recordLogic, if_pos hl, Except.bind] at h ⊢
        dsimp only at h ⊢
        by_cases hfull : s.lNo + 1 ≥ 8
        · rw [if_pos hfull]
          refine ⟨.part (e.found lba) .behind, s.extLbaBase, _, .part he .behind,
            .eighth hlogical (by omega), ?_⟩
          rw [outcome, Tree.found, Tree.found, label, if_pos hlogical, hfound, label]
          congr 2
          omega
        · rw [if_neg hfull] at h ⊢
          obtain ⟨t, b, c, hs, hr, hout⟩ := ih _ h
          refine ⟨.part (e.found lba) t, b, c, .part he hs, .logical hlogical (by omega) hr,
            hout.trans ?_⟩
          rw [← outcome_logical hlogical, hfound]
      · rw [recordLogic, if_neg hl] at h
        exact absurd rfl h.2

theorem explained_table (disk : Bytes) (hd : ℕ) : ∀ fuel lba (s : Scan),
    Ended (partitionScan disk hd fuel lba s) →
      TableExplained disk hd lba s (partitionScan disk hd fuel lba s)
  | 0, _, _, h => absurd rfl h.1
  | fuel + 1, lba, s, h => by
    by_cases hlba : lba ≤ maxLba
    · rw [partitionScan_succ hlba] at h ⊢
      exact .inr ⟨hlba, explained_entries (explained_table disk hd fuel) _ _ h⟩
    · exact .inl ⟨Nat.lt_of_not_le hlba, partitionScan_beyond (Nat.lt_of_not_le hlba) fuel⟩

/-- With enough fuel a scan ends as its tree says, and in no other way within the arrays. -/
theorem ends_iff {r' : Except Stop Scan} (hlba : lba ≤ maxLba) :
    Ends disk hd lba s r' ∧ Ended r' ↔ Explained disk hd lba (tableAt disk lba) s r' := by
  constructor
  · rintro ⟨⟨n, hn⟩, hend⟩
    have hrun := hn n le_rfl
    rcases explained_table disk hd n lba s (hrun ▸ hend) with ⟨hgt, -⟩ | ⟨-, hex⟩
    · omega
    · rwa [hrun] at hex
  · rintro ⟨t, b, c, hs, hr, rfl⟩
    obtain ⟨n, hn⟩ := scan_of_spells hs hr hd s.partitionList
    refine ⟨⟨n + 1, fun fuel hfuel => ?_⟩, ?_⟩
    · obtain ⟨fuel, rfl⟩ : ∃ k, fuel = k + 1 := ⟨fuel - 1, by omega⟩
      rw [partitionScan_succ hlba]
      exact hn fuel (by omega)
    · cases c with
      | none => exact ⟨fun h => (nomatch h), fun h => (nomatch h)⟩
      | some c => exact ⟨fun h => (nomatch h), fun h => (nomatch h)⟩

/-- The state of the globals when a disk is scanned. -/
def startScan (base : ℕ) (list : List Part) : Scan := ⟨0, 0, base, list⟩

/-- The tables of the disk, from the first on, are a finite tree with room for its partitions: what
is in it, what the links are counted from afterwards and how many partitions there are (`none` when
the walk meets a link that leaves the disk or a fourth primary partition). -/
def Reads (disk : Bytes) (base : ℕ) (fs : List Found) (b : ℕ) (c : Option (ℕ × ℕ)) : Prop :=
  ∃ t, Spells disk base 0 (tableAt disk 0) t b ∧ Room t 0 0 c ∧ t.found = fs

/-- A scan comes to an end within the arrays, be it in an assertion, if its tables are a finite tree
with room; and it returns if in addition no link leaves the disk and no fourth primary partition is
met. -/
theorem scan_terminates_iff (disk : Bytes) (hd base : ℕ) (list : List Part) :
    ((∃ r, Ends disk hd 0 (startScan base list) r ∧ r ≠ .error .fuel ∧ r ≠ .error .outside) ↔
      ∃ fs b c, Reads disk base fs b c) ∧
    ((∃ s, Ends disk hd 0 (startScan base list) (.ok s)) ↔
      ∃ fs b c, Reads disk base fs b (some c)) := by
  refine ⟨⟨?_, ?_⟩, ?_, ?_⟩
  · rintro ⟨r, hends, hend⟩
    obtain ⟨t, b, c, hs, hr, -⟩ := (ends_iff (Nat.zero_le _)).mp ⟨hends, hend⟩
    exact ⟨_, b, c, t, hs, hr, rfl⟩
  · rintro ⟨-, b, c, t, hs, hr, rfl⟩
    have hex : Explained disk hd 0 (tableAt disk 0) (startScan base list)
        (outcome hd b 0 0 t list c) := ⟨t, b, c, hs, hr, rfl⟩
    exact ⟨_, (ends_iff (Nat.zero_le _)).mpr hex⟩
  · rintro ⟨s', hends⟩
    obtain ⟨t, b, c, hs, hr, hout⟩ := (ends_iff (Nat.zero_le _)).mp
      ⟨hends, fun h => (nomatch h), fun h => (nomatch h)⟩
    cases c with
    | none => cases hout
    | some c => exact ⟨_, b, c, t, hs, hr, rfl⟩
  · rintro ⟨-, b, c, t, hs, hr, rfl⟩
    exact ⟨_, ((ends_iff (Nat.zero_le _)).mpr ⟨t, b, some c, hs, hr, rfl⟩).1⟩

end Follow

/-- Two tables whose links lead to the second one. -/
def loopDisk : Bytes := fun a => if a = 450 ∨ a = 962 then 5 else if a = 454 then 1 else 0

def emptyEntry : TableEntry := ⟨0, 0, 0⟩

theorem loopDisk_mbr : tableAt loopDisk 0 = [⟨5, 1, 0⟩, emptyEntry, emptyEntry, emptyEntry] := by
  decide

theorem loopDisk_second : tableAt loopDisk 1 = [⟨5, 0, 0⟩, emptyEntry, emptyEntry, emptyEntry] := by
  decide

theorem loopDisk_second_scan (s : Scan) (hs : s.extLbaBase = 1) : ∀ fuel,
    partitionScan loopDisk 1 fuel 1 s = .error .fuel
  | 0 => rfl
  | fuel + 1 => by
    have hnext : linkLba 1 ⟨5, 0, 0⟩ = 1 ∧ linkBase 1 ⟨5, 0, 0⟩ = 1 := by decide
    have ih := loopDisk_second_scan { s with extLbaBase := 1 } rfl fuel
    rw [partitionScan_succ (by decide), loopDisk_second, scanEntries_link rfl, hs, hnext.1, hnext.2,
      ih]
    rfl

/-- A scan that never ends. -/
theorem cyclic_tables_diverge : ¬∃ r, Ends loopDisk 1 0 (startScan 0 []) r ∧ r ≠ .error .fuel ∧
    r ≠ .error .outside := by
  rintro ⟨r, ⟨n, hn⟩, hfuel, -⟩
  have hfirst : linkLba 0 ⟨5, 1, 0⟩ = 1 ∧ linkBase 0 ⟨5, 1, 0⟩ = 1 := by decide
  have hrun := hn (n + 1) (Nat.le_succ n)
  have hbase : (startScan 0 []).extLbaBase = 0 := rfl
  rw [partitionScan_succ (Nat.zero_le _), loopDisk_mbr, scanEntries_link rfl, hbase, hfirst.1,
    hfirst.2, loopDisk_second_scan _ rfl] at hrun
  exact hfuel hrun.symm

/-- Four tables with a link in front and partitions behind it: the eighth partition ends its own
table only, and the table around it has one more. -/
def ninthDisk : Bytes := fun a =>
  if a ∈ [450, 962, 1474, 1986] then 5
  else if a ∈ [978, 1490, 2002, 2018, 2034, 2498, 2514, 2530, 2546] then 0x83
  else if a = 454 ∨ a = 966 then 1 else if a = 1478 then 2 else if a = 1990 then 3 else 0

example : partitionScan ninthDisk 1 5 0 (startScan 0 []) = .error .outside := rfl

end PartitionScan
