import XianweiOS.PartitionScan

/-! Disks with partitions as they are meant: a master table with at most one extended entry, and
behind that a chain of tables with one logical partition each. Several disks are scanned one after
another with the same globals. -/
namespace PartitionLayout

open ByteStore DeviceIde PartitionScan

variable {disk : Bytes} {hd base lba b p l p' l' : ℕ} {ps : List TableEntry} {e : TableEntry}
  {fs gs : List Found} {t : Tree} {c : Option (ℕ × ℕ)} {s s' : Scan}

/-- The entries make up a tree with room, in which are the partitions `fs`. -/
def ReadsFrom (disk : Bytes) (base lba : ℕ) (ps : List TableEntry) (p l : ℕ) (fs : List Found)
    (b : ℕ) (c : Option (ℕ × ℕ)) : Prop :=
  ∃ t, Spells disk base lba ps t b ∧ Room t p l c ∧ t.found = fs

theorem ReadsFrom.nil : ReadsFrom disk base lba [] p l [] base (some (p, l)) :=
  ⟨.done, .done, .done, rfl⟩

theorem ReadsFrom.unused (he : e.fsType = 0) (h : ReadsFrom disk base lba ps p l fs b c) :
    ReadsFrom disk base lba (e :: ps) p l fs b c := by
  obtain ⟨t, hs, hr, hf⟩ := h
  exact ⟨.unused t, .unused he hs, .unused hr, hf⟩

theorem ReadsFrom.primary (he : e.Plain) (hp : p + 1 < 4)
    (h : ReadsFrom disk base 0 ps (p + 1) l fs b c) :
    ReadsFrom disk base 0 (e :: ps) p l (e.found 0 :: fs) b c := by
  obtain ⟨t, hs, hr, hf⟩ := h
  exact ⟨.part (e.found 0) t, .part he hs, .primary rfl hp hr, congrArg _ hf⟩

theorem logical_found (hlba : lba ≠ 0) : (e.found lba).logical = true := by
  rw [TableEntry.found, if_neg hlba]

theorem ReadsFrom.logical (he : e.Plain) (hlba : lba ≠ 0) (hl : l + 1 < 8)
    (h : ReadsFrom disk base lba ps p (l + 1) fs b c) :
    ReadsFrom disk base lba (e :: ps) p l (e.found lba :: fs) b c := by
  obtain ⟨t, hs, hr, hf⟩ := h
  exact ⟨.part (e.found lba) t, .part he hs, .logical (logical_found hlba) hl hr, congrArg _ hf⟩

/-- Whatever stands behind the eighth. -/
theorem ReadsFrom.eighth (he : e.Plain) (hlba : lba ≠ 0) (hl : l + 1 = 8) :
    ReadsFrom disk base lba (e :: ps) p l [e.found lba] base (some (p, 8)) :=
  ⟨.part (e.found lba) .behind, .part he .behind, .eighth (logical_found hlba) hl, rfl⟩

theorem ReadsFrom.link {base' lba' b' : ℕ} (he : e.fsType = 5) (hlba : linkLba base e = lba')
    (hbase : linkBase base e = base') (hle : lba' ≤ maxLba)
    (h : ReadsFrom disk base' lba' (tableAt disk lba') p l fs b (some (p', l')))
    (h' : ReadsFrom disk b lba ps p' l' gs b' c) :
    ReadsFrom disk base lba (e :: ps) p l (fs ++ gs) b' c := by
  subst hlba hbase
  obtain ⟨t, hs, hr, rfl⟩ := h
  obtain ⟨t', hs', hr', rfl⟩ := h'
  exact ⟨.link t t', .link he hle hs hs', .link hr hr', rfl⟩

/-- The entries in use. -/
def used (ps : List TableEntry) : List TableEntry := ps.filter fun e => e.fsType ≠ 0

theorem ReadsFrom.skip {pre : List TableEntry} (hpre : ∀ e ∈ pre, e.fsType = 0)
    (h : ReadsFrom disk base lba ps p l fs b c) :
    ReadsFrom disk base lba (pre ++ ps) p l fs b c := by
  induction pre with
  | nil => exact h
  | cons e pre ih =>
    exact .unused (hpre e List.mem_cons_self) (ih fun e he => hpre e (List.mem_cons_of_mem _ he))

theorem reads_unused (h : used ps = []) :
    ReadsFrom disk base lba ps p l [] base (some (p, l)) := by
  have hall : ∀ e ∈ ps, e.fsType = 0 := by
    intro e he
    have := List.filter_eq_nil_iff.mp h e he
    simpa using this
  have hnil : ReadsFrom disk base lba (ps ++ []) p l [] base (some (p, l)) := .skip hall .nil
  rwa [List.append_nil] at hnil

/-- The first entry in use, and the rest. -/
theorem used_cons {us : List TableEntry} (h : used ps = e :: us) :
    ∃ pre post, ps = pre ++ e :: post ∧ (∀ e ∈ pre, e.fsType = 0) ∧ used post = us := by
  obtain ⟨pre, post, rfl, hpre, -, hpost⟩ := List.filter_eq_cons_iff.mp h
  exact ⟨pre, post, rfl, fun e he => by simpa using hpre e he, hpost⟩

/-! ### Chains -/

/-- The chain of extended tables from sector `lba` on, with its logical partitions: a table has at
most one partition, whose address is counted from the table, and one link, counted from `base`. -/
inductive Chain (disk : Bytes) (base : ℕ) : (lba : ℕ) → List Found → Prop
  | empty {lba : ℕ} : 0 < lba → lba ≤ maxLba → used (tableAt disk lba) = [] → Chain disk base lba []
  | last {lba : ℕ} {e : TableEntry} : 0 < lba → lba + e.startLba ≤ maxLba →
      used (tableAt disk lba) = [e] → e.Plain →
      Chain disk base lba [⟨true, lba + e.startLba, e.secCnt⟩]
  | link {lba : ℕ} {k : TableEntry} {fs : List Found} : 0 < lba → lba ≤ maxLba →
      used (tableAt disk lba) = [k] → k.fsType = 5 → Chain disk base (base + k.startLba) fs →
      Chain disk base lba fs
  | partFirst {lba : ℕ} {e k : TableEntry} {fs : List Found} : 0 < lba → lba + e.startLba ≤ maxLba →
      used (tableAt disk lba) = [e, k] → e.Plain → k.fsType = 5 →
      Chain disk base (base + k.startLba) fs →
      Chain disk base lba (⟨true, lba + e.startLba, e.secCnt⟩ :: fs)
  | linkFirst {lba : ℕ} {e k : TableEntry} {fs : List Found} : 0 < lba → lba + e.startLba ≤ maxLba →
      used (tableAt disk lba) = [k, e] → e.Plain → k.fsType = 5 →
      Chain disk base (base + k.startLba) fs →
      Chain disk base lba (fs ++ [⟨true, lba + e.startLba, e.secCnt⟩])

theorem Chain.inside (h : Chain disk base lba fs) : 0 < lba ∧ lba ≤ maxLba := by
  cases h with
  | empty h0 hle => exact ⟨h0, hle⟩
  | last h0 hle => exact ⟨h0, by omega⟩
  | link h0 hle => exact ⟨h0, hle⟩
  | partFirst h0 hle => exact ⟨h0, by omega⟩
  | linkFirst h0 hle => exact ⟨h0, by omega⟩

theorem maxLba_lt : maxLba < 2 ^ 32 := by decide

theorem found_inside (hlba : 0 < lba) (h : lba + e.startLba ≤ maxLba) :
    e.found lba = ⟨true, lba + e.startLba, e.secCnt⟩ := by
  rw [TableEntry.found, if_neg (by omega), Nat.mod_eq_of_lt (lt_of_le_of_lt h maxLba_lt)]

/-- The scan reads a chain with room for its partitions. -/
theorem chain_reads (hbase : base ≠ 0) (h : Chain disk base lba fs) : ∀ {p l : ℕ},
    l + fs.length ≤ 8 →
    ReadsFrom disk base lba (tableAt disk lba) p l fs base (some (p, l + fs.length)) := by
  have hnext : ∀ {k : TableEntry} {gs : List Found}, Chain disk base (base + k.startLba) gs →
      linkLba base k = base + k.startLba ∧ linkBase base k = base := by
    intro k gs hk
    rw [linkLba, linkBase, if_pos hbase, if_pos hbase, Nat.add_comm k.startLba,
      Nat.mod_eq_of_lt (lt_of_le_of_lt hk.inside.2 maxLba_lt)]
    exact ⟨rfl, rfl⟩
  induction h with
  | empty h0 hle hu => exact fun _ => reads_unused hu
  | @last lba e h0 hle hu he =>
    intro p l hl
    rw [List.length_singleton] at hl ⊢
    obtain ⟨pre, post, hps, hpre, hpost⟩ := used_cons hu
    rw [hps, ← found_inside h0 hle]
    refine ReadsFrom.skip hpre ?_
    by_cases h8 : l + 1 = 8
    · rw [h8]
      exact .eighth he (by omega) h8
    · exact .logical he (by omega) (by omega) (reads_unused hpost)
  | @link lba k fs h0 hle hu hk hc ih =>
    intro p l hl
    obtain ⟨pre, post, hps, hpre, hpost⟩ := used_cons hu
    obtain ⟨hlba, hb⟩ := hnext hc
    have hrest : ReadsFrom disk base lba (k :: post) p l (fs ++ []) base (some (p, l + fs.length)) :=
      .link hk hlba hb hc.inside.2 (ih hl) (reads_unused hpost)
    rw [List.append_nil] at hrest
    rw [hps]
    exact ReadsFrom.skip hpre hrest
  | @partFirst lba e k fs h0 hle hu he hk hc ih =>
    intro p l hl
    rw [List.length_cons] at hl ⊢
    obtain ⟨pre, post, hps, hpre, hpost⟩ := used_cons hu
    rw [hps, ← found_inside h0 hle]
    refine ReadsFrom.skip hpre ?_
    by_cases h8 : l + 1 = 8
    · obtain rfl : fs = [] := List.eq_nil_of_length_eq_zero (by omega)
      rw [List.length_nil, h8]
      exact .eighth he (by omega) h8
    · obtain ⟨pre', post', rfl, hpre', hpost'⟩ := used_cons hpost
      obtain ⟨hlba, hb⟩ := hnext hc
      have hsub := ih (p := p) (l := l + 1) (by omega)
      rw [show l + 1 + fs.length = l + (fs.length + 1) by omega] at hsub
      have hrest : ReadsFrom disk base lba (k :: post') p (l + 1) (fs ++ []) base
          (some (p, l + (fs.length + 1))) :=
        .link hk hlba hb hc.inside.2 hsub (reads_unused hpost')
      rw [List.append_nil] at hrest
      exact .logical he (by omega) (by omega) (ReadsFrom.skip hpre' hrest)
  | @linkFirst lba e k fs h0 hle hu he hk hc ih =>
    intro p l hl
    rw [List.length_append, List.length_singleton] at hl ⊢
    obtain ⟨pre, post, hps, hpre, hpost⟩ := used_cons hu
    obtain ⟨pre', post', rfl, hpre', hpost'⟩ := used_cons hpost
    obtain ⟨hlba, hb⟩ := hnext hc
    have hsub := ih (p := p) (l := l) (by omega)
    rw [hps, ← found_inside h0 hle]
    refine ReadsFrom.skip hpre (ReadsFrom.link hk hlba hb hc.inside.2 hsub ?_)
    refine ReadsFrom.skip hpre' ?_
    by_cases h8 : l + fs.length + 1 = 8
    · rw [show l + (fs.length + 1) = 8 by omega]
      exact .eighth he (by omega) h8
    · exact .logical he (by omega) (by omega) (reads_unused hpost')

/-! ### A master table with a chain -/

/-- The partitions of a master table, with the logical ones in the place of the extended entry. -/
def mbrParts (logicals : List Found) (ps : List TableEntry) : List Found :=
  ps.flatMap fun e =>
    if e.fsType = 5 then logicals else if e.fsType = 0 then [] else [⟨false, e.startLba, e.secCnt⟩]

def extendedEntries (ps : List TableEntry) : ℕ := ps.countP fun e => e.fsType = 5

/-- The entries for primary partitions. -/
def primaries (ps : List TableEntry) : ℕ := ps.countP fun e => e.Plain

/-- A master table with one to four entries in use, at most one of them extended, and a chain of up
to eight logical partitions behind that one. -/
structure WellFormed (disk : Bytes) (logicals : List Found) : Prop where
  used_ne_nil : used (tableAt disk 0) ≠ []
  one_extended : extendedEntries (tableAt disk 0) ≤ 1
  chain : ∀ e ∈ tableAt disk 0, e.fsType = 5 → Chain disk e.startLba e.startLba logicals
  no_chain : extendedEntries (tableAt disk 0) = 0 → logicals = []
  at_most_eight : logicals.length ≤ 8

theorem extendedEntries_cons (he : e.fsType ≠ 5) :
    extendedEntries (e :: ps) = extendedEntries ps :=
  List.countP_cons_of_neg (by rwa [decide_eq_true_eq])

theorem extendedEntries_link (he : e.fsType = 5) :
    extendedEntries (e :: ps) = extendedEntries ps + 1 :=
  List.countP_cons_of_pos (by rwa [decide_eq_true_eq])

theorem primaries_cons (he : e.Plain) : primaries (e :: ps) = primaries ps + 1 :=
  List.countP_cons_of_pos (by rwa [decide_eq_true_eq])

theorem primaries_skip (he : ¬e.Plain) : primaries (e :: ps) = primaries ps :=
  List.countP_cons_of_neg (by rwa [decide_eq_true_eq])

theorem not_plain_unused (he : e.fsType = 0) : ¬e.Plain := fun h => h.1 he
theorem not_plain_link (he : e.fsType = 5) : ¬e.Plain := fun h => h.2 he

theorem mbrParts_unused (he : e.fsType = 0) : mbrParts gs (e :: ps) = mbrParts gs ps := by
  have h5 : e.fsType ≠ 5 := by
    rw [he]
    decide
  rw [mbrParts, List.flatMap_cons, if_neg h5, if_pos he]
  rfl

theorem mbrParts_plain (he : e.Plain) :
    mbrParts gs (e :: ps) = e.found 0 :: mbrParts gs ps := by
  rw [mbrParts, List.flatMap_cons, if_neg he.2, if_neg he.1]
  rfl

theorem mbrParts_link (he : e.fsType = 5) : mbrParts gs (e :: ps) = gs ++ mbrParts gs ps := by
  rw [mbrParts, List.flatMap_cons, if_pos he]
  rfl

/-- The rest of a master table without an extended entry. -/
theorem reads_primaries : ∀ {ps : List TableEntry} {p : ℕ}, extendedEntries ps = 0 →
    p + primaries ps ≤ 3 →
    ReadsFrom disk base 0 ps p l (mbrParts gs ps) base (some (p + primaries ps, l))
  | [], _, _, _ => .nil
  | e :: ps, p, hext, hp => by
    have h5 : e.fsType ≠ 5 := by
      intro h5
      rw [extendedEntries_link h5] at hext
      omega
    rw [extendedEntries_cons h5] at hext
    by_cases h0 : e.fsType = 0
    · rw [primaries_skip (not_plain_unused h0)] at hp ⊢
      rw [mbrParts_unused h0]
      exact .unused h0 (reads_primaries hext hp)
    · have he : e.Plain := ⟨h0, h5⟩
      rw [primaries_cons he] at hp ⊢
      rw [mbrParts_plain he, show p + (primaries ps + 1) = p + 1 + primaries ps by omega]
      exact .primary he (by omega) (reads_primaries hext (by omega))

/-- A master table with its chain. -/
theorem reads_layout (hgs : gs.length ≤ 8) : ∀ {ps : List TableEntry} {p : ℕ},
    extendedEntries ps ≤ 1 → (∀ e ∈ ps, e.fsType = 5 → Chain disk e.startLba e.startLba gs) →
    p + primaries ps ≤ 3 → ∃ b c, ReadsFrom disk 0 0 ps p 0 (mbrParts gs ps) b (some c)
  | [], _, _, _, _ => ⟨_, _, .nil⟩
  | e :: ps, p, hext, hchain, hp => by
    have hrest : ∀ e ∈ ps, e.fsType = 5 → Chain disk e.startLba e.startLba gs :=
      fun e he => hchain e (List.mem_cons_of_mem _ he)
    by_cases h5 : e.fsType = 5
    · rw [extendedEntries_link h5] at hext
      rw [primaries_skip (not_plain_link h5)] at hp
      have hc := hchain e List.mem_cons_self h5
      have hsub := chain_reads (Nat.pos_iff_ne_zero.mp hc.inside.1) hc (p := p) (l := 0) (by omega)
      rw [mbrParts_link h5]
      exact ⟨_, _, .link h5 rfl rfl hc.inside.2 hsub (reads_primaries (by omega) hp)⟩
    rw [extendedEntries_cons h5] at hext
    by_cases h0 : e.fsType = 0
    · rw [primaries_skip (not_plain_unused h0)] at hp
      obtain ⟨b, c, h⟩ := reads_layout hgs hext hrest hp
      rw [mbrParts_unused h0]
      exact ⟨b, c, .unused h0 h⟩
    · have he : e.Plain := ⟨h0, h5⟩
      rw [primaries_cons he] at hp
      obtain ⟨b, c, h⟩ := reads_layout hgs hext hrest (p := p + 1) (by omega)
      rw [mbrParts_plain he]
      exact ⟨b, c, .primary he (by omega) h⟩

/-- A walk to the end has no fourth primary partition. -/
theorem Room.lt (h : Room t p l (some (p', l'))) (hp : p < 4) : p' < 4 := by
  generalize hr : some (p', l') = r at h
  induction h generalizing p' l' with
  | done =>
    obtain ⟨rfl, rfl⟩ := Prod.mk.inj (Option.some.inj hr)
    exact hp
  | unused _ ih => exact ih hp hr
  | primary _ hp' _ ih => exact ih hp' hr
  | logical _ _ _ ih => exact ih hp hr
  | eighth =>
    obtain ⟨rfl, rfl⟩ := Prod.mk.inj (Option.some.inj hr)
    exact hp
  | link _ _ ih ih' => exact ih' (ih hp rfl) hr
  | stopped => cases hr
  | beyond => cases hr
  | fourth => cases hr

/-- Every primary entry of the master table is in the tree. -/
theorem primaries_le (hs : Spells disk base lba ps t b) (hlba : lba = 0) {r : ℕ × ℕ}
    (hr : Room t p l (some r)) : primaries ps ≤ prims t.found := by
  induction hs generalizing p l with
  | done => exact Nat.zero_le _
  | behind => cases hr
  | unused he _ ih =>
    cases hr with
    | unused hr =>
      rw [primaries_skip (not_plain_unused he)]
      exact ih hlba hr
  | part he _ ih =>
    cases hr with
    | primary hf _ hr =>
      have := ih hlba hr
      rw [primaries_cons he, Tree.found, prims, List.countP_cons_of_pos (by simpa using hf)]
      exact Nat.succ_le_succ this
    | logical hf => exact absurd hlba (found_logical hf)
    | eighth hf => exact absurd hlba (found_logical hf)
  | link he _ _ _ _ ih' =>
    cases hr with
    | link _ hr' =>
      have := ih' hlba hr'
      rw [primaries_skip (not_plain_link he), Tree.found, prims, List.countP_append]
      exact Nat.le_add_left_of_le this
  | beyond => cases hr
  | fourth => cases hr

/-- The scan returns, and what it appends to the list is what the disk holds. -/
def Decoded (disk : Bytes) (hd : ℕ) (list : List Part) (logicals : List Found) : Prop :=
  ∃ s, Ends disk hd 0 (startScan 0 list) (.ok s) ∧
    s.partitionList = list ++ label hd (mbrParts logicals (tableAt disk 0)) 0 0

theorem layout_scanned_iff (disk : Bytes) (hd : ℕ) (list : List Part) (logicals : List Found)
    (h : WellFormed disk logicals) :
    Decoded disk hd list logicals ↔ primaries (tableAt disk 0) ≤ 3 := by
  constructor
  · rintro ⟨s, hends, -⟩
    obtain ⟨t, b, c, hs, hr, hout⟩ := (ends_iff (Nat.zero_le _)).mp
      ⟨hends, fun h => (nomatch h), fun h => (nomatch h)⟩
    rcases c with _ | ⟨p', l'⟩
    · cases hout
    · have hle := primaries_le hs rfl hr
      have hlt : p' < 4 := Room.lt hr (Nat.zero_lt_succ 3)
      have hcount := hr.counts.1
      simp only [startScan] at hcount
      omega
  · intro hle
    obtain ⟨b, c, t, hs, hr, hf⟩ := reads_layout h.at_most_eight (p := 0) h.one_extended h.chain
      (by omega)
    refine ⟨_, ((ends_iff (Nat.zero_le _)).mpr ⟨t, b, some c, hs, hr, rfl⟩).1, ?_⟩
    rw [← hf]
    rfl

/-- A primary partition, and a logical one in the table that sector 4 holds. -/
def smallDisk : Bytes := fun a =>
  if a = 450 then 0x83 else if a = 466 then 5 else if a = 2498 then 0x83
  else if a = 454 then 1 else if a = 470 then 4 else if a = 2502 then 2
  else if a = 458 ∨ a = 2506 then 3 else 0

theorem smallDisk_mbr :
    tableAt smallDisk 0 = [⟨0x83, 1, 3⟩, ⟨5, 4, 0⟩, emptyEntry, emptyEntry] := by decide

theorem smallDisk_second :
    tableAt smallDisk 4 = [⟨0x83, 2, 3⟩, emptyEntry, emptyEntry, emptyEntry] := by decide

theorem smallDisk_wellFormed : WellFormed smallDisk [⟨true, 6, 3⟩] where
  used_ne_nil := by
    rw [smallDisk_mbr]
    decide
  one_extended := by
    rw [smallDisk_mbr]
    decide
  chain := by
    intro e he h5
    have hused : used (tableAt smallDisk 4) = [⟨0x83, 2, 3⟩] := by
      rw [smallDisk_second]
      decide
    have hchain : Chain smallDisk 4 4 [⟨true, 6, 3⟩] :=
      .last (e := ⟨0x83, 2, 3⟩) (by decide) (by decide) hused (by decide)
    rw [smallDisk_mbr] at he
    have hlast : ∀ e ∈ [(⟨0x83, 1, 3⟩ : TableEntry), ⟨5, 4, 0⟩, emptyEntry, emptyEntry],
        e.fsType = 5 → e = ⟨5, 4, 0⟩ := by decide
    rw [hlast e he h5]
    exact hchain
  no_chain := by
    rw [smallDisk_mbr]
    intro h
    exact absurd h (by decide)
  at_most_eight := by decide

theorem layout_scanned_iff_small : Decoded smallDisk 1 [] [⟨true, 6, 3⟩] :=
  (layout_scanned_iff smallDisk 1 [] _ smallDisk_wellFormed).mpr (by
    rw [smallDisk_mbr]
    decide)

/-- Four primary partitions. -/
def fourDisk : Bytes := fun a => if a ∈ [450, 466, 482, 498] then 0x83 else 0

theorem fourDisk_mbr : tableAt fourDisk 0 = List.replicate 4 ⟨0x83, 0, 0⟩ := by decide

/-- The fourth primary partition stops the machine. -/
theorem fourth_primary_halts : WellFormed fourDisk [] ∧ ¬Decoded fourDisk 1 [] [] := by
  have hchain : ∀ e ∈ tableAt fourDisk 0, e.fsType ≠ 5 := by
    rw [fourDisk_mbr]
    decide
  have hwell : WellFormed fourDisk [] := {
    used_ne_nil := by
      rw [fourDisk_mbr]
      decide
    one_extended := by
      rw [fourDisk_mbr]
      decide
    chain := fun e he h5 => absurd h5 (hchain e he)
    no_chain := fun _ => rfl
    at_most_eight := by decide }
  refine ⟨hwell, ?_⟩
  rintro ⟨s, ⟨n, hn⟩, -⟩
  have hrun := hn (n + 1) (Nat.le_succ n)
  rw [partitionScan_succ (Nat.zero_le _), fourDisk_mbr] at hrun
  cases hrun

/-! ### One disk after another -/

/-- A round of the loop of `ide_init` over the devices of a channel. -/
def initDevice (fuel channelNo devNo : ℕ) (disk : Bytes) (s : Scan) : Except Stop Scan := do
  let s ← if devNo ≠ 0 then partitionScan disk (channelNo * 2 + devNo) fuel 0 s else .ok s
  .ok { s with pNo := 0, lNo := 0 }

/-- The loop over the channels, with the contents of their two devices. -/
def ideInit (fuel : ℕ) : (channelNo : ℕ) → List (Bytes × Bytes) → Scan → Except Stop Scan
  | _, [], s => .ok s
  | channelNo, c :: channels, s => do
    let s ← initDevice fuel channelNo 0 c.1 s
    let s ← initDevice fuel channelNo 1 c.2 s
    ideInit fuel (channelNo + 1) channels s

/-- What is in the list for the second device of channel `k` when the loop has passed it. The first
devices are not scanned. -/
def Recorded (channels : List (Bytes × Bytes)) (k : ℕ) (ps : List Part) : Prop :=
  ∃ fuel s, ideInit fuel 0 (channels.take (k + 1)) (startScan 0 []) = .ok s ∧
    s.partitionList.filter (fun p => p.disk = k * 2 + 1) = ps

/-- The same when the device is the only one. -/
def RecordedAlone (k : ℕ) (disk : Bytes) (ps : List Part) : Prop :=
  ∃ fuel s, initDevice fuel k 1 disk (startScan 0 []) = .ok s ∧ s.partitionList = ps

def Independent (channels : List (Bytes × Bytes)) : Prop :=
  ∀ (k : ℕ) (c : Bytes × Bytes), channels[k]? = some c → ∀ ps : List Part,
    Recorded channels k ps ↔ RecordedAlone k c.2 ps

/-- The tables of the disk show the partitions `fs`, if the links are counted from `base`. -/
def Shows (disk : Bytes) (base : ℕ) (fs : List Found) : Prop := ∃ b c, Reads disk base fs b (some c)

def firstLink (ps : List TableEntry) : Option TableEntry := ps.find? fun e => e.fsType = 5

/-- Where the first extended partition of the master table starts, or 0. -/
def extendedBase (disk : Bytes) : ℕ := ((firstLink (tableAt disk 0)).map TableEntry.startLba).getD 0

theorem firstLink_cons (he : e.fsType ≠ 5) : firstLink (e :: ps) = firstLink ps :=
  List.find?_cons_of_neg (by rwa [decide_eq_true_eq])

theorem firstLink_link (he : e.fsType = 5) : firstLink (e :: ps) = some e :=
  List.find?_cons_of_pos (by rwa [decide_eq_true_eq])

/-- A base is set once. -/
theorem spells_base (hs : Spells disk base lba ps t b) (hbase : base ≠ 0) : b = base := by
  induction hs with
  | done => rfl
  | behind => rfl
  | unused _ _ ih => exact ih hbase
  | part _ _ ih => exact ih hbase
  | link _ _ _ _ ih ih' =>
    have hlink := ih (by rwa [linkBase, if_pos hbase])
    rw [linkBase, if_pos hbase] at hlink
    rw [← hlink] at hbase
    exact (ih' hbase).trans hlink
  | beyond => rfl
  | fourth => rfl

/-- After a walk of the whole disk the base is the first link of the master table; and a master
table whose first link leads back to it has no tree. The induction is on the tree, along the entries
before that link. -/
theorem base_afterwards (hs : Spells disk base lba ps t b) (hbase : base = 0) (hlba : lba = 0)
    {r : ℕ × ℕ} (hr : Room t p l (some r)) (hlink : firstLink ps = firstLink (tableAt disk 0)) :
    b = extendedBase disk ∧ ∀ e, firstLink (tableAt disk 0) = some e → e.startLba ≠ 0 := by
  induction hs generalizing p l r with
  | done =>
    rw [extendedBase, ← hlink]
    exact ⟨hbase, fun e he => (nomatch he)⟩
  | behind => cases hr
  | @unused base lba b e ps t he _ ih =>
    cases hr with
    | unused hr =>
      have h5 : e.fsType ≠ 5 := by
        rw [he]
        decide
      rw [firstLink_cons h5] at hlink
      exact ih hbase hlba hr hlink
  | part he _ ih =>
    rw [firstLink_cons he.2] at hlink
    cases hr with
    | primary _ _ hr => exact ih hbase hlba hr hlink
    | logical hf => exact absurd hlba (found_logical hf)
    | eighth hf => exact absurd hlba (found_logical hf)
  | @link base lba b b' e ps sub rest he hle hsub hrest ih ih' =>
    cases hr with
    | link hr hr' =>
      subst hbase
      rw [firstLink_link he] at hlink
      by_cases hstart : e.startLba = 0
      · have hlba' : linkLba 0 e = 0 := hstart
        have := (ih hstart hlba' hr (by rw [hlba'])).2 e hlink.symm
        exact absurd hstart this
      · have hb : b = e.startLba := spells_base hsub hstart
        have hb' := spells_base hrest (by rwa [hb])
        refine ⟨?_, fun e' he' => ?_⟩
        · rw [extendedBase, ← hlink, hb', hb]
          rfl
        · obtain rfl : e = e' := Option.some.inj (hlink.trans he')
          exact hstart
  | beyond => cases hr
  | fourth => cases hr

theorem reads_base {r : ℕ × ℕ} (h : Reads disk 0 fs b (some r)) : b = extendedBase disk := by
  obtain ⟨t, hs, hr, -⟩ := h
  exact (base_afterwards hs rfl rfl hr rfl).1

/-- A scan that returns has read the disk. -/
theorem scan_returned {fuel : ℕ} {list : List Part}
    (h : partitionScan disk hd fuel 0 (startScan base list) = .ok s) :
    ∃ fs b r, Reads disk base fs b (some r) ∧ s = ⟨r.1, r.2, b, list ++ label hd fs 0 0⟩ := by
  have hend : Ended (partitionScan disk hd fuel 0 (startScan base list)) := by
    rw [h]
    exact ⟨fun h => (nomatch h), fun h => (nomatch h)⟩
  rcases explained_table disk hd fuel 0 _ hend with ⟨hgt, -⟩ | ⟨-, t, b, c, hs, hr, hout⟩
  · omega
  rw [h] at hout
  cases c with
  | none => cases hout
  | some r => exact ⟨_, b, r, ⟨t, hs, hr, rfl⟩, Except.ok.inj hout⟩

theorem scan_returns {r : ℕ × ℕ} (h : Reads disk base fs b (some r)) (hd : ℕ) (list : List Part) :
    Ends disk hd 0 (startScan base list) (.ok ⟨r.1, r.2, b, list ++ label hd fs 0 0⟩) := by
  obtain ⟨t, hs, hr, rfl⟩ := h
  exact ((ends_iff (Nat.zero_le maxLba)).mpr ⟨t, b, some r, hs, hr, rfl⟩).1

/-- The second devices show the partitions of each list, each of them from the base that the ones
before it have left. -/
inductive ShownInTurn : (base : ℕ) → List (Bytes × Bytes) → List (List Found) → ℕ → Prop
  | nil {base : ℕ} : ShownInTurn base [] [] base
  | cons {base b b' : ℕ} {c : Bytes × Bytes} {channels : List (Bytes × Bytes)} {fs : List Found}
      {fss : List (List Found)} {r : ℕ × ℕ} : Reads c.2 base fs b (some r) →
      ShownInTurn b channels fss b' → ShownInTurn base (c :: channels) (fs :: fss) b'

def labels : (channelNo : ℕ) → List (List Found) → List Part
  | _, [] => []
  | channelNo, fs :: fss => label (channelNo * 2 + 1) fs 0 0 ++ labels (channelNo + 1) fss

section Run

variable {channels : List (Bytes × Bytes)} {fss : List (List Found)} {list : List Part}
  {fuel channelNo b' k : ℕ} {A B : Bytes} {m m' : Bytes}

theorem initDevice_second {x : Except Stop Scan}
    (h : partitionScan disk (channelNo * 2 + 1) fuel 0 s = x) :
    initDevice fuel channelNo 1 disk s = x.bind fun s => .ok { s with pNo := 0, lNo := 0 } := by
  rw [initDevice, if_pos Nat.one_ne_zero, h]
  rfl

theorem ideInit_cons {c : Bytes × Bytes} : ideInit fuel channelNo (c :: channels)
    (startScan base list) = (initDevice fuel channelNo 1 c.2 (startScan base list)).bind fun s =>
      ideInit fuel (channelNo + 1) channels s := rfl

theorem initDevice_returned (h : initDevice fuel channelNo 1 disk (startScan base list) = .ok s) :
    ∃ fs b r, Reads disk base fs b (some r) ∧
      s = startScan b (list ++ label (channelNo * 2 + 1) fs 0 0) := by
  cases hrun : partitionScan disk (channelNo * 2 + 1) fuel 0 (startScan base list) with
  | error e =>
    rw [initDevice_second hrun] at h
    cases h
  | ok s' =>
    obtain ⟨fs, b, r, hreads, rfl⟩ := scan_returned hrun
    rw [initDevice_second hrun] at h
    exact ⟨fs, b, r, hreads, (Except.ok.inj h).symm⟩

theorem initDevice_returns {r : ℕ × ℕ} (h : Reads disk base fs b (some r)) (channelNo : ℕ)
    (list : List Part) : ∃ n, ∀ fuel, n ≤ fuel →
      initDevice fuel channelNo 1 disk (startScan base list) =
        .ok (startScan b (list ++ label (channelNo * 2 + 1) fs 0 0)) := by
  obtain ⟨n, hn⟩ := scan_returns h (channelNo * 2 + 1) list
  exact ⟨n, fun fuel hfuel => initDevice_second (hn fuel hfuel)⟩

theorem ideInit_returned (h : ideInit fuel channelNo channels (startScan base list) = .ok s) :
    ∃ fss b, ShownInTurn base channels fss b ∧
      s = startScan b (list ++ labels channelNo fss) := by
  induction channels generalizing channelNo base list with
  | nil =>
    refine ⟨[], base, .nil, ?_⟩
    rw [labels, List.append_nil]
    exact (Except.ok.inj h).symm
  | cons c channels ih =>
    rw [ideInit_cons] at h
    cases hrun : initDevice fuel channelNo 1 c.2 (startScan base list) with
    | error e =>
      rw [hrun] at h
      cases h
    | ok s' =>
      obtain ⟨fs, b, r, hreads, rfl⟩ := initDevice_returned hrun
      rw [hrun] at h
      obtain ⟨fss, b', hturn, rfl⟩ := ih h
      refine ⟨fs :: fss, b', .cons hreads hturn, ?_⟩
      rw [labels, List.append_assoc]

theorem ideInit_returns (h : ShownInTurn base channels fss b) (channelNo : ℕ) (list : List Part) :
    ∃ n, ∀ fuel, n ≤ fuel → ideInit fuel channelNo channels (startScan base list) =
      .ok (startScan b (list ++ labels channelNo fss)) := by
  induction h generalizing channelNo list with
  | nil =>
    refine ⟨0, fun fuel _ => ?_⟩
    rw [labels, List.append_nil]
    rfl
  | cons hreads _ ih =>
    obtain ⟨n, hn⟩ := initDevice_returns hreads channelNo list
    obtain ⟨n', hn'⟩ := ih (channelNo + 1) _
    refine ⟨max n n', fun fuel hfuel => ?_⟩
    rw [ideInit_cons, hn fuel (by omega), Except.bind, hn' fuel (by omega), labels,
      List.append_assoc]

theorem recorded_iff {qs : List Part} : Recorded channels k qs ↔
    ∃ fss b, ShownInTurn 0 (channels.take (k + 1)) fss b ∧
      (labels 0 fss).filter (fun q => q.disk = k * 2 + 1) = qs := by
  constructor
  · rintro ⟨fuel, s, hrun, hqs⟩
    obtain ⟨fss, b, hturn, rfl⟩ := ideInit_returned hrun
    exact ⟨fss, b, hturn, hqs⟩
  · rintro ⟨fss, b, hturn, hqs⟩
    obtain ⟨n, hn⟩ := ideInit_returns hturn 0 []
    exact ⟨n, _, hn n le_rfl, hqs⟩

theorem recordedAlone_iff {qs : List Part} : RecordedAlone k disk qs ↔
    ∃ fs, Shows disk 0 fs ∧ label (k * 2 + 1) fs 0 0 = qs := by
  constructor
  · rintro ⟨fuel, s, hrun, hqs⟩
    obtain ⟨fs, b, r, hreads, rfl⟩ := initDevice_returned hrun
    exact ⟨fs, ⟨b, r, hreads⟩, hqs⟩
  · rintro ⟨fs, ⟨b, r, hreads⟩, hqs⟩
    obtain ⟨n, hn⟩ := initDevice_returns hreads k []
    exact ⟨n, _, hn n le_rfl, hqs⟩

theorem label_disk : ∀ {fs : List Found} {p l : ℕ} {q : Part}, q ∈ label hd fs p l → q.disk = hd
  | f :: fs, p, l, q, hq => by
    rw [label] at hq
    split at hq
    · rcases List.mem_cons.mp hq with rfl | hq
      · rfl
      · exact label_disk hq
    · rcases List.mem_cons.mp hq with rfl | hq
      · rfl
      · exact label_disk hq

theorem label_filter : (label hd fs p l).filter (fun q => q.disk = hd) = label hd fs p l :=
  List.filter_eq_self.mpr fun _ hq => decide_eq_true (label_disk hq)

theorem label_filter_other {hd' : ℕ} (h : hd ≠ hd') :
    (label hd fs p l).filter (fun q => q.disk = hd') = [] := by
  refine List.filter_eq_nil_iff.mpr fun q hq hd => h ?_
  rw [← label_disk hq]
  exact of_decide_eq_true hd

/-- The first device is recorded as if it were alone, whatever the second one holds. -/
theorem recorded_first {qs : List Part} :
    Recorded ((m, A) :: channels) 0 qs ↔ RecordedAlone 0 A qs := by
  rw [recorded_iff, recordedAlone_iff]
  constructor
  · rintro ⟨_, _, hturn, rfl⟩
    rcases hturn with _ | ⟨hreads, hnil⟩
    cases hnil
    refine ⟨_, ⟨_, _, hreads⟩, ?_⟩
    rw [labels, labels, List.append_nil]
    exact label_filter.symm
  · rintro ⟨fs, ⟨b, r, hreads⟩, rfl⟩
    refine ⟨[fs], b, .cons hreads .nil, ?_⟩
    rw [labels, labels, List.append_nil]
    exact label_filter

theorem recorded_second {qs : List Part} :
    Recorded [(m, A), (m', B)] 1 qs ↔
      ∃ fs, ((∃ gs, Shows A 0 gs) ∧ Shows B (extendedBase A) fs) ∧ label 3 fs 0 0 = qs := by
  have hlabels : ∀ gs fs, (labels 0 [gs, fs]).filter (fun q => q.disk = 1 * 2 + 1) =
      label 3 fs 0 0 := by
    intro gs fs
    rw [labels, labels, labels, List.append_nil, List.filter_append,
      label_filter_other (by decide), label_filter]
    rfl
  rw [recorded_iff]
  constructor
  · rintro ⟨_, _, hturn, rfl⟩
    rcases hturn with _ | ⟨hreads, hturn⟩
    rcases hturn with _ | ⟨hreads', hnil⟩
    cases hnil
    rw [reads_base hreads] at hreads'
    exact ⟨_, ⟨⟨_, _, _, hreads⟩, _, _, hreads'⟩, (hlabels _ _).symm⟩
  · rintro ⟨fs, ⟨⟨gs, b, r, hreads⟩, b', r', hreads'⟩, rfl⟩
    rw [← reads_base hreads] at hreads'
    exact ⟨[gs, fs], b', .cons hreads (.cons hreads' .nil), hlabels gs fs⟩

theorem prims_cons (f : Found) :
    prims (f :: fs) = prims fs + if f.logical = false then 1 else 0 := by
  rw [prims, List.countP_cons, prims]
  simp

/-- The names tell primary partitions from logical ones. -/
theorem label_injective : ∀ {fs gs : List Found} {p l : ℕ}, p + prims fs ≤ 3 → p + prims gs ≤ 3 →
    label hd fs p l = label hd gs p l → fs = gs
  | [], [], _, _, _, _, _ => rfl
  | [], g :: gs, p, l, _, _, h => by
    rw [label, label] at h
    split at h <;> cases h
  | f :: fs, [], p, l, _, _, h => by
    rw [label, label] at h
    split at h <;> cases h
  | ⟨false, lba, cnt⟩ :: fs, ⟨false, lba', cnt'⟩ :: gs, p, l, hf, hg, h => by
    rw [prims_cons, if_pos rfl] at hf hg
    obtain ⟨hhead, htail⟩ := List.cons.inj h
    obtain ⟨-, -, rfl, rfl⟩ := PartitionScan.Part.mk.inj hhead
    rw [label_injective (p := p + 1) (by omega) (by omega) htail]
  | ⟨true, lba, cnt⟩ :: fs, ⟨true, lba', cnt'⟩ :: gs, p, l, hf, hg, h => by
    rw [prims_cons, if_neg Bool.true_eq_false_eq_False] at hf hg
    obtain ⟨hhead, htail⟩ := List.cons.inj h
    obtain ⟨-, -, rfl, rfl⟩ := PartitionScan.Part.mk.inj hhead
    rw [label_injective (p := p) hf hg htail]
  | ⟨false, lba, cnt⟩ :: fs, ⟨true, lba', cnt'⟩ :: gs, p, l, hf, _, h => by
    rw [prims_cons, if_pos rfl] at hf
    obtain ⟨-, hno, -⟩ := PartitionScan.Part.mk.inj (List.cons.inj h).1
    omega
  | ⟨true, lba, cnt⟩ :: fs, ⟨false, lba', cnt'⟩ :: gs, p, l, _, hg, h => by
    rw [prims_cons, if_pos rfl] at hg
    obtain ⟨-, hno, -⟩ := PartitionScan.Part.mk.inj (List.cons.inj h).1
    omega

theorem Shows.prims_le (h : Shows disk base fs) : 0 + prims fs ≤ 3 := by
  obtain ⟨b, r, t, -, hr, rfl⟩ := h
  have hlt : r.1 < 4 := Room.lt hr (Nat.zero_lt_succ 3)
  rw [hr.counts.1] at hlt
  omega

end Run

/-- Without an extended entry it does not matter what the links are counted from. -/
theorem spells_without_link {base' : ℕ} (hs : Spells disk base lba ps t b)
    (h : firstLink ps = none) : Spells disk base' lba ps t base' := by
  induction hs with
  | done => exact .done
  | behind => exact .behind
  | @unused base lba b e ps t he _ ih =>
    have h5 : e.fsType ≠ 5 := by
      rw [he]
      decide
    rw [firstLink_cons h5] at h
    exact .unused he (ih h)
  | part he _ ih =>
    rw [firstLink_cons he.2] at h
    exact .part he (ih h)
  | link he =>
    rw [firstLink_link he] at h
    cases h
  | beyond he =>
    rw [firstLink_link he] at h
    cases h
  | fourth he => exact .fourth he

theorem shows_without_link {base' : ℕ} (h : firstLink (tableAt disk 0) = none) :
    Shows disk base fs ↔ Shows disk base' fs := by
  constructor
  · rintro ⟨_, r, t, hs, hr⟩
    exact ⟨_, r, t, spells_without_link hs h, hr⟩
  · rintro ⟨_, r, t, hs, hr⟩
    exact ⟨_, r, t, spells_without_link hs h, hr⟩

/-- The two disks that are scanned do not disturb each other if the first one is read to its end,
and the second one shows the same partitions when its links are counted from the first extended
partition of the first disk. -/
theorem disks_independent_iff (channels : List (Bytes × Bytes)) (h : channels.length ≤ 2) :
    Independent channels ↔ ∀ A B, channels.map Prod.snd = [A, B] → ∀ fs,
      (∃ gs, Shows A 0 gs) ∧ Shows B (extendedBase A) fs ↔ Shows B 0 fs := by
  constructor
  · intro hind A B hAB fs
    obtain ⟨⟨m, A'⟩, channels, rfl, rfl, hB⟩ := List.map_eq_cons_iff.mp hAB
    obtain ⟨⟨m', B'⟩, channels, rfl, rfl, hnil⟩ := List.map_eq_cons_iff.mp hB
    obtain rfl := List.map_eq_nil_iff.mp hnil
    have hsecond := hind 1 (m', B') rfl (label 3 fs 0 0)
    rw [recorded_second, recordedAlone_iff] at hsecond
    constructor
    · intro hshown
      obtain ⟨fs', hshown', heq⟩ := hsecond.mp ⟨fs, hshown, rfl⟩
      rwa [← label_injective hshown'.prims_le hshown.2.prims_le heq]
    · intro hshown
      obtain ⟨fs', hshown', heq⟩ := hsecond.mpr ⟨fs, hshown, rfl⟩
      rwa [← label_injective hshown'.2.prims_le hshown.prims_le heq]
  · intro hall k c hc qs
    match channels, h, k with
    | c₀ :: _, _, 0 =>
      obtain rfl : c₀ = c := Option.some.inj hc
      exact recorded_first
    | [(m, A), (m', B)], _, 1 =>
      obtain rfl : (m', B) = c := Option.some.inj hc
      rw [recorded_second, recordedAlone_iff]
      exact exists_congr fun fs => and_congr_left fun _ => hall A B rfl fs
    | [_], _, k + 1 => cases hc
    | [_, _], _, k + 2 => cases hc

def blankDisk : Bytes := fun _ => 0

theorem blankDisk_mbr : tableAt blankDisk 0 = List.replicate 4 emptyEntry := by decide

theorem disks_independent_iff_blank :
    Independent [(blankDisk, smallDisk), (blankDisk, blankDisk)] :=
  (disks_independent_iff [(blankDisk, smallDisk), (blankDisk, blankDisk)] le_rfl).mpr (by
    rintro A B hAB fs
    obtain ⟨rfl, hB⟩ := List.cons.inj hAB
    obtain ⟨rfl, -⟩ := List.cons.inj hB
    have hblank : firstLink (tableAt blankDisk 0) = none := by
      rw [blankDisk_mbr]
      rfl
    have hsmall : primaries (tableAt smallDisk 0) ≤ 3 := by
      rw [smallDisk_mbr]
      decide
    obtain ⟨b, r, hreads⟩ := reads_layout (p := 0) smallDisk_wellFormed.at_most_eight
      smallDisk_wellFormed.one_extended smallDisk_wellFormed.chain (by omega)
    rw [and_iff_right ⟨_, b, r, hreads⟩]
    exact shows_without_link hblank)

/-- A master table whose link leads to sector `n`, where there is one logical partition. -/
def extendedDisk (n : ℕ) : Bytes := fun a =>
  if a = 450 then 5 else if a = 454 then n else if a = 512 * n + 450 then 0x83 else 0

/-- With a disk in front whose extended partition starts in sector 1, the link of the second disk is
followed to sector 3, which is empty. -/
theorem second_disk_astray :
    ¬Independent [(blankDisk, extendedDisk 1), (blankDisk, extendedDisk 2)] := by
  intro h
  have halone : RecordedAlone 1 (extendedDisk 2) [⟨3, 5, 2, 0⟩] := ⟨3, _, rfl, rfl⟩
  obtain ⟨fuel, s, hrun, hparts⟩ := (h 1 _ rfl _).mpr halone
  match fuel with
  | 0 => cases hrun
  | 1 => cases hrun
  | fuel + 2 =>
    have hboth : ideInit (fuel + 2) 0 [(blankDisk, extendedDisk 1), (blankDisk, extendedDisk 2)]
        (startScan 0 []) = .ok ⟨0, 0, 1, [⟨1, 5, 1, 0⟩]⟩ := rfl
    obtain rfl := Except.ok.inj (hrun.symm.trans hboth)
    cases hparts

end PartitionLayout
