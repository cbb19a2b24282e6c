import XianweiOS.HaltingProgram

/-! Programs that put out a label with every action, and the runs of a transition system that has
the same labels. A program that follows the moves of the system action by action follows them in
whole runs. -/
namespace LabelledRuns

open HaltingProgram

variable {α β σ τ : Type}

/-- A run, with the labels of its moves. -/
inductive Trace (moves : τ → β → τ → Prop) : τ → List β → τ → Prop where
  | nil (t : τ) : Trace moves t [] t
  | cons {t u v : τ} {b : β} {l : List β} (h : moves t b u) (ht : Trace moves u l v) :
      Trace moves t (b :: l) v

section Trace

variable {moves : τ → β → τ → Prop} {t u : τ} {l : List β}

/-- What every move with an admitted label keeps, a run of such moves keeps. -/
theorem Trace.invariant (Inv : τ → Prop) (ok : β → Prop)
    (hstep : ∀ t b u, Inv t → ok b → moves t b u → Inv u) (h : Trace moves t l u)
    (hok : ∀ b ∈ l, ok b) (ht : Inv t) : Inv u := by
  induction h with
  | nil t => exact ht
  | cons hm _ ih =>
    obtain ⟨hb, hl⟩ := List.forall_mem_cons.mp hok
    exact ih hl (hstep _ _ _ ht hb hm)

end Trace

section Program

variable (step : α → σ → Option (β × σ))

/-- An action without its label. -/
def next (a : α) (s : σ) : Option σ := (step a s).map Prod.snd

/-- The labels of a run, and where it ends. -/
def runLabels : List α → σ → Option (List β × σ)
  | [], s => some ([], s)
  | a :: l, s => do
    let (b, s) ← step a s
    let (bs, s) ← runLabels l s
    return (b :: bs, s)

variable {step}

theorem next_some {a : α} {s s' : σ} {b : β} (h : step a s = some (b, s')) :
    next step a s = some s' := by
  rw [next, h]
  rfl

theorem runLabels_cons {a : α} {l : List α} {s s' : σ} {bs : List β} :
    runLabels step (a :: l) s = some (bs, s') ↔ ∃ b t bs', step a s = some (b, t) ∧
      runLabels step l t = some (bs', s') ∧ bs = b :: bs' := by
  simp only [runLabels, bind_some_iff, Option.pure_def, Option.some.injEq, Prod.mk.injEq]
  constructor
  · rintro ⟨⟨b, t⟩, hs, ⟨bs', s''⟩, hr, rfl, rfl⟩
    exact ⟨b, t, bs', hs, hr, rfl⟩
  · rintro ⟨b, t, bs', hs, hr, rfl⟩
    exact ⟨(b, t), hs, (bs', s'), hr, rfl, rfl⟩

theorem runAll_of_labels :
    ∀ {l : List α} {s s' : σ} {bs : List β}, runLabels step l s = some (bs, s') →
      runAll (next step) l s = some s' := by
  intro l
  induction l with
  | nil =>
    intro s s' bs h
    obtain ⟨-, rfl⟩ := Prod.mk.inj (Option.some.inj h)
    rfl
  | cons a l ih =>
    intro s s' bs h
    obtain ⟨b, t, bs', hs, hr, -⟩ := runLabels_cons.mp h
    exact runAll_cons.mpr ⟨t, next_some hs, ih hr⟩

/-- A forward simulation of admitted actions carries over to runs, with the same labels. -/
theorem runLabels_simulated {ok : α → σ → Prop} {moves : τ → β → τ → Prop} {R : σ → τ → Prop}
    (hstep : ∀ a s b s' t, R s t → ok a s → step a s = some (b, s') →
      ∃ t', moves t b t' ∧ R s' t') :
    ∀ {l : List α} {s s' : σ} {t : τ} {bs : List β}, R s t → AllMeet (next step) ok l s →
      runLabels step l s = some (bs, s') → ∃ t', Trace moves t bs t' ∧ R s' t' := by
  intro l
  induction l with
  | nil =>
    intro s s' t bs h _ hr
    obtain ⟨rfl, rfl⟩ := Prod.mk.inj (Option.some.inj hr)
    exact ⟨t, .nil t, h⟩
  | cons a l ih =>
    intro s s' t bs h hok hr
    obtain ⟨b, u, bs', hs, hrest, rfl⟩ := runLabels_cons.mp hr
    obtain ⟨t₁, hm, h₁⟩ := hstep a s b u t h hok.1 hs
    obtain ⟨t', htrace, h'⟩ := ih h₁ (hok.2 u (next_some hs)) hrest
    exact ⟨t', .cons hm htrace, h'⟩

end Program

end LabelledRuns
