import Mathlib.Tactic.Common

/-! Programs that may stop the machine. A computation is an `Option`: `none` is a failed
assertion, a panic or an access the language leaves undefined, after which nothing more
happens. Stateful programs are `StateT σ Option`. -/
namespace HaltingProgram

def assert (p : Prop) [Decidable p] : Option Unit := if p then some () else none

@[simp] theorem assert_eq_some {p : Prop} [Decidable p] {u : Unit} :
    assert p = some u ↔ p := by
  unfold assert
  split <;> simp [*]

theorem assert_pos {p : Prop} [Decidable p] (h : p) : assert p = some () := if_pos h

theorem bind_some_iff {α β : Type} {x : Option α} {f : α → Option β} {b : β} :
    (x >>= f) = some b ↔ ∃ a, x = some a ∧ f a = some b := Option.bind_eq_some_iff

theorem assert_bind {β : Type} {p : Prop} [Decidable p] {f : Unit → Option β} {b : β} :
    (assert p >>= f) = some b ↔ p ∧ f () = some b := by
  rw [bind_some_iff]
  constructor
  · rintro ⟨_, h, hf⟩
    exact ⟨assert_eq_some.mp h, hf⟩
  · rintro ⟨h, hf⟩
    exact ⟨(), assert_pos h, hf⟩

/-- A loop with fuel comes to an end with `r`, whatever fuel it gets above some bound. -/
def EndsWith {β : Type} (loop : ℕ → Option β) (r : β) : Prop :=
  ∃ n, ∀ fuel, n ≤ fuel → loop fuel = some r

theorem EndsWith.unique {β : Type} {loop : ℕ → Option β} {r r' : β} (h : EndsWith loop r)
    (h' : EndsWith loop r') : r = r' := by
  obtain ⟨n, hn⟩ := h
  obtain ⟨n', hn'⟩ := h'
  have hr := hn (max n n') (Nat.le_max_left n n')
  exact Option.some.inj (hr.symm.trans (hn' (max n n') (Nat.le_max_right n n')))

section Runs

variable {σ α : Type} (step : α → σ → Option σ)

/-- Completed actions in a row. -/
def runAll : List α → σ → Option σ
  | [], s => some s
  | a :: l, s => do
    let s ← step a s
    runAll l s

/-- Every action of a run meets `ok` in the state it is taken in. -/
def AllMeet (ok : α → σ → Prop) : List α → σ → Prop
  | [], _ => True
  | a :: l, s => ok a s ∧ ∀ s', step a s = some s' → AllMeet ok l s'

instance decidableAllMeet (ok : α → σ → Prop) [∀ a s, Decidable (ok a s)] :
    ∀ l s, Decidable (AllMeet step ok l s)
  | [], _ => .isTrue trivial
  | a :: l, s =>
    match h : step a s with
    | none => decidable_of_iff (ok a s) ⟨fun hok => ⟨hok, by simp [h]⟩, fun hok => hok.1⟩
    | some t =>
      haveI := decidableAllMeet ok l t
      decidable_of_iff (ok a s ∧ AllMeet step ok l t)
        ⟨fun hok => ⟨hok.1, by simp [h, hok.2]⟩, fun hok => ⟨hok.1, hok.2 t h⟩⟩

variable {step}

theorem runAll_cons {a : α} {l : List α} {s s' : σ} :
    runAll step (a :: l) s = some s' ↔ ∃ t, step a s = some t ∧ runAll step l t = some s' :=
  bind_some_iff

theorem allMeet_of_forall {ok : α → σ → Prop} :
    ∀ {l : List α} {s : σ}, (∀ a ∈ l, ∀ s, ok a s) → AllMeet step ok l s := by
  intro l
  induction l with
  | nil =>
    intro s _
    trivial
  | cons a l ih =>
    intro s h
    exact ⟨h a List.mem_cons_self s, fun s' _ => ih fun b hb => h b (List.mem_cons_of_mem _ hb)⟩

theorem AllMeet.mono {ok ok' : α → σ → Prop} (h : ∀ a s, ok a s → ok' a s) :
    ∀ {l : List α} {s : σ}, AllMeet step ok l s → AllMeet step ok' l s := by
  intro l
  induction l with
  | nil => exact id
  | cons a l ih => exact fun hok => ⟨h a _ hok.1, fun t ht => ih (hok.2 t ht)⟩

/-- What every admitted action keeps, a run keeps. -/
theorem runAll_invariant {ok : α → σ → Prop} (Inv : σ → Prop)
    (hstep : ∀ a s s', Inv s → ok a s → step a s = some s' → Inv s') :
    ∀ {l : List α} {s s' : σ}, Inv s → AllMeet step ok l s → runAll step l s = some s' → Inv s' := by
  intro l
  induction l with
  | nil =>
    intro s s' h _ hr
    obtain rfl := Option.some.inj hr
    exact h
  | cons a l ih =>
    intro s s' h hok hr
    obtain ⟨t, ht, hr⟩ := runAll_cons.mp hr
    exact ih (hstep a s t h hok.1 ht) (hok.2 t ht) hr

/-- Where every admitted action can be taken, so can a whole run. -/
theorem runAll_total {ok : α → σ → Prop} (Inv : σ → Prop)
    (hstep : ∀ a s, Inv s → ok a s → ∃ s', step a s = some s' ∧ Inv s') :
    ∀ {l : List α} {s : σ}, Inv s → AllMeet step ok l s →
      ∃ s', runAll step l s = some s' ∧ Inv s' := by
  intro l
  induction l with
  | nil =>
    intro s h _
    exact ⟨s, rfl, h⟩
  | cons a l ih =>
    intro s h hok
    obtain ⟨t, ht, hit⟩ := hstep a s h hok.1
    obtain ⟨s', hr, hi⟩ := ih hit (hok.2 t ht)
    exact ⟨s', runAll_cons.mpr ⟨t, ht, hr⟩, hi⟩

theorem runAll_invariant_mem (Inv : σ → Prop) {l : List α} {s s' : σ}
    (hstep : ∀ a ∈ l, ∀ s s', Inv s → step a s = some s' → Inv s') (hs : Inv s)
    (hr : runAll step l s = some s') : Inv s' :=
  runAll_invariant Inv (fun a s s' hi (ha : a ∈ l) => hstep a ha s s' hi) hs
    (allMeet_of_forall fun _ ha _ => ha) hr

/-- A run on states that are seen through `f`. -/
theorem runAll_through {τ : Type} {step' : α → τ → Option τ} (f : σ → τ)
    (hstep : ∀ a s s', step a s = some s' → step' a (f s) = some (f s')) {l : List α} {s s' : σ}
    (hr : runAll step l s = some s') : runAll step' l (f s) = some (f s') := by
  induction l generalizing s with
  | nil =>
    obtain rfl := Option.some.inj hr
    rfl
  | cons a l ih =>
    obtain ⟨t, ht, hr⟩ := runAll_cons.mp hr
    exact runAll_cons.mpr ⟨f t, hstep a s t ht, ih hr⟩

theorem runAll_append {l l' : List α} {s : σ} :
    runAll step (l ++ l') s = runAll step l s >>= runAll step l' := by
  induction l generalizing s with
  | nil => rfl
  | cons a l ih =>
    cases h : step a s with
    | none => simp [runAll, h]
    | some t => simp [runAll, h, ih]

theorem allMeet_cons {ok : α → σ → Prop} {a : α} {l : List α} {s s' : σ} (hs : step a s = some s')
    (ha : ok a s) (hl : AllMeet step ok l s') : AllMeet step ok (a :: l) s :=
  ⟨ha, fun _ hu => Option.some.inj (hs.symm.trans hu) ▸ hl⟩

theorem allMeet_append {ok : α → σ → Prop} {l l' : List α} {s : σ} (h : AllMeet step ok l s)
    (h' : ∀ s', runAll step l s = some s' → AllMeet step ok l' s') :
    AllMeet step ok (l ++ l') s := by
  induction l generalizing s with
  | nil => exact h' s rfl
  | cons a l ih =>
    refine ⟨h.1, fun t ht => ih (h.2 t ht) fun s' hr => h' s' ?_⟩
    exact runAll_cons.mpr ⟨t, ht, hr⟩

/-- Where a property survives an action exactly if the action meets a condition, it holds of
every state a run passes exactly if all actions of the run meet the condition. -/
theorem allMeet_iff_prefixes {ok cond : α → σ → Prop} (Inv P : σ → Prop)
    (hstep : ∀ a s, Inv s → P s → ok a s → ∃ s', step a s = some s' ∧ Inv s' ∧ (P s' ↔ cond a s)) :
    ∀ {l : List α} {s : σ}, Inv s → P s → AllMeet step ok l s →
      (AllMeet step cond l s ↔ ∀ l', l' <+: l → ∀ s', runAll step l' s = some s' → P s') := by
  intro l
  induction l with
  | nil =>
    intro s _ hp _
    refine ⟨fun _ l' hl s' hr => ?_, fun _ => trivial⟩
    obtain rfl := List.prefix_nil.mp hl
    obtain rfl := Option.some.inj hr
    exact hp
  | cons a l ih =>
    intro s hi hp hok
    obtain ⟨t, ht, hit, hcond⟩ := hstep a s hi hp hok.1
    constructor
    · rintro ⟨hc, hl⟩ l' hpre s' hr
      rcases List.prefix_cons_iff.mp hpre with rfl | ⟨l₁, rfl, hl₁⟩
      · obtain rfl := Option.some.inj hr
        exact hp
      · obtain ⟨u, hu, hr⟩ := runAll_cons.mp hr
        obtain rfl := Option.some.inj (ht.symm.trans hu)
        exact (ih hit (hcond.mpr hc) (hok.2 t ht)).mp (hl t ht) l₁ hl₁ s' hr
    · intro hall
      have hpt : P t := hall [a] (List.prefix_append [a] l) t (runAll_cons.mpr ⟨t, ht, rfl⟩)
      refine ⟨hcond.mp hpt, fun u hu => ?_⟩
      obtain rfl := Option.some.inj (ht.symm.trans hu)
      refine (ih hit hpt (hok.2 t ht)).mpr fun l' hpre s' hr => ?_
      exact hall (a :: l') (List.prefix_cons_inj a |>.mpr hpre) s' (runAll_cons.mpr ⟨t, ht, hr⟩)

/-- Two conditions that agree on every admitted action agree on a run. -/
theorem allMeet_congr {ok cond cond' : α → σ → Prop} (Inv : σ → Prop)
    (hstep : ∀ a s s', Inv s → ok a s → step a s = some s' → Inv s')
    (hcond : ∀ a s, Inv s → ok a s → (cond a s ↔ cond' a s)) :
    ∀ {l : List α} {s : σ}, Inv s → AllMeet step ok l s →
      (AllMeet step cond l s ↔ AllMeet step cond' l s) := by
  intro l
  induction l with
  | nil =>
    intro s _ _
    exact Iff.rfl
  | cons a l ih =>
    intro s hi hok
    have hrest : ∀ s', step a s = some s' → (AllMeet step cond l s' ↔ AllMeet step cond' l s') :=
      fun s' hs' => ih (hstep a s s' hi hok.1 hs') (hok.2 s' hs')
    constructor
    · rintro ⟨hc, hl⟩
      exact ⟨(hcond a s hi hok.1).mp hc, fun s' hs' => (hrest s' hs').mp (hl s' hs')⟩
    · rintro ⟨hc, hl⟩
      exact ⟨(hcond a s hi hok.1).mpr hc, fun s' hs' => (hrest s' hs').mpr (hl s' hs')⟩

/-- Actions that do nothing. -/
theorem runAll_idle {l : List α} {s : σ} (h : ∀ a ∈ l, step a s = some s) :
    runAll step l s = some s := by
  induction l with
  | nil => rfl
  | cons a l ih =>
    rw [runAll_cons]
    exact ⟨s, h a List.mem_cons_self, ih fun b hb => h b (List.mem_cons_of_mem _ hb)⟩

/-- What each action brings about and no later one undoes holds of all of them at the end. -/
theorem runAll_each_mem (Inv : σ → Prop) (P : α → σ → Prop) {l : List α} {s s' : σ}
    (hinv : ∀ a ∈ l, ∀ s s', Inv s → step a s = some s' → Inv s')
    (hdone : ∀ a ∈ l, ∀ s s', Inv s → step a s = some s' → P a s')
    (hkeep : ∀ a ∈ l, ∀ b s s', Inv s → P b s → step a s = some s' → P b s')
    (hs : Inv s) (hr : runAll step l s = some s') : ∀ a ∈ l, P a s' := by
  induction l generalizing s with
  | nil =>
    intro a ha
    cases ha
  | cons b l ih =>
    intro a ha
    obtain ⟨t, ht, hl⟩ := runAll_cons.mp hr
    have hmem : ∀ a ∈ l, a ∈ b :: l := fun a ha => List.mem_cons_of_mem b ha
    have hb : b ∈ b :: l := List.mem_cons_self
    have hit : Inv t := hinv b hb s t hs ht
    rcases List.mem_cons.mp ha with hab | hin
    · -- the first action stays done to the end
      rw [hab]
      refine (runAll_invariant_mem (fun s => Inv s ∧ P b s) ?_ ⟨hit, hdone b hb s t hs ht⟩ hl).2
      rintro d hd u u' ⟨hu, hpu⟩ hstep
      exact ⟨hinv d (hmem d hd) u u' hu hstep, hkeep d (hmem d hd) b u u' hu hpu hstep⟩
    · exact ih (fun d hd => hinv d (hmem d hd)) (fun d hd => hdone d (hmem d hd))
        (fun d hd => hkeep d (hmem d hd)) hit hl a hin

/-- A run seen through a view of its states is a run of what the view shows of each action. -/
theorem runAll_map {τ : Type} (view : σ → τ) {step' : α → τ → Option τ} (Inv : σ → Prop)
    {l : List α} {s : σ} (hinv : ∀ a ∈ l, ∀ s s', Inv s → step a s = some s' → Inv s')
    (hview : ∀ a ∈ l, ∀ s, Inv s → (step a s).map view = step' a (view s)) (hs : Inv s) :
    (runAll step l s).map view = runAll step' l (view s) := by
  induction l generalizing s with
  | nil => rfl
  | cons a l ih =>
    have ha : a ∈ a :: l := List.mem_cons_self
    have hstep := hview a ha s hs
    simp only [runAll]
    rw [← hstep]
    cases h : step a s with
    | none => rfl
    | some t =>
      exact ih (fun b hb => hinv b (List.mem_cons_of_mem a hb))
        (fun b hb => hview b (List.mem_cons_of_mem a hb)) (hinv a ha s t hs h)

/-- A run whose actions are runs themselves. -/
theorem runAll_flatMap {β : Type} {step' : β → σ → Option σ} (f : α → List β) (Inv : σ → Prop)
    {l : List α} {s : σ} (hinv : ∀ b s s', Inv s → step' b s = some s' → Inv s')
    (hstep : ∀ a ∈ l, ∀ s, Inv s → step a s = runAll step' (f a) s) (hs : Inv s) :
    runAll step l s = runAll step' (l.flatMap f) s := by
  induction l generalizing s with
  | nil => rfl
  | cons a l ih =>
    rw [List.flatMap_cons, runAll_append, runAll, hstep a List.mem_cons_self s hs]
    cases h : runAll step' (f a) s with
    | none => rfl
    | some t =>
      exact ih (fun b hb => hstep b (List.mem_cons_of_mem a hb))
        (runAll_invariant_mem Inv (fun b _ => hinv b) hs h)

end Runs

end HaltingProgram
