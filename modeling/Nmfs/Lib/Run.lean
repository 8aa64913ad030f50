import Mathlib.Data.Option.Basic

/-
  Runs of a partial step function. `step s a = none` means that action `a` cannot be taken in `s`.
  `run_invariant` is the induction over a run: what the first state has and every step keeps,
  the last state has.
-/

namespace Nmfs.Lib

variable {σ α : Type}

/-- Take the actions one after the other. -/
def run (step : σ → α → Option σ) : σ → List α → Option σ
  | s, [] => some s
  | s, a :: as => (step s a).bind fun s' => run step s' as

variable {step : σ → α → Option σ}

theorem run_cons {s s' : σ} {a : α} {as : List α} :
    run step s (a :: as) = some s' ↔ ∃ t, step s a = some t ∧ run step t as = some s' :=
  Option.bind_eq_some_iff

theorem run_append {s s' : σ} {as bs : List α} :
    run step s (as ++ bs) = some s' ↔ ∃ t, run step s as = some t ∧ run step t bs = some s' := by
  induction as generalizing s with
  | nil => simp [run]
  | cons a as ih =>
      rw [List.cons_append, run_cons]
      constructor
      · rintro ⟨t, ht, hr⟩
        obtain ⟨u, hu, hs⟩ := ih.mp hr
        exact ⟨u, run_cons.mpr ⟨t, ht, hu⟩, hs⟩
      · rintro ⟨u, hu, hs⟩
        obtain ⟨t, ht, hr⟩ := run_cons.mp hu
        exact ⟨t, ht, ih.mpr ⟨u, hr, hs⟩⟩

/-- An invariant of the steps holds at the end of a run that starts in it. -/
theorem run_invariant {I : σ → Prop}
    (hstep : ∀ s a s', I s → step s a = some s' → I s') {s s' : σ} {as : List α}
    (h : I s) (hr : run step s as = some s') : I s' := by
  induction as generalizing s with
  | nil =>
      cases hr
      exact h
  | cons a as ih =>
      obtain ⟨t, ht, hr⟩ := run_cons.mp hr
      exact ih (hstep s a t h ht) hr

/-- Two systems that can follow each other step by step can follow each other's runs. -/
theorem run_simulation {τ : Type} {step' : τ → α → Option τ} {R : σ → τ → Prop} {P : α → Prop}
    (hstep : ∀ s t a s', R s t → P a → step s a = some s' → ∃ t', step' t a = some t' ∧ R s' t')
    {s s' : σ} {t : τ} {as : List α} (h : R s t) (hP : ∀ a ∈ as, P a)
    (hr : run step s as = some s') : ∃ t', run step' t as = some t' ∧ R s' t' := by
  induction as generalizing s t with
  | nil =>
      cases hr
      exact ⟨t, rfl, h⟩
  | cons a as ih =>
      obtain ⟨s₁, hs₁, hr⟩ := run_cons.mp hr
      obtain ⟨t₁, ht₁, h₁⟩ := hstep s t a s₁ h (hP a List.mem_cons_self) hs₁
      obtain ⟨t', ht', h'⟩ := ih h₁ (fun b hb => hP b (List.mem_cons_of_mem _ hb)) hr
      exact ⟨t', run_cons.mpr ⟨t₁, ht₁, ht'⟩, h'⟩

/-- `P` holds at each step of the run, in the state before the step. -/
def StepsMeet (step : σ → α → Option σ) (P : σ → α → Prop) : σ → List α → Prop
  | _, [] => True
  | s, a :: as => P s a ∧ ∀ t, step s a = some t → StepsMeet step P t as

/-- What every step keeps where `P` holds, a run keeps whose steps all meet `P`. -/
theorem run_invariant_of_stepsMeet {I : σ → Prop} {P : σ → α → Prop}
    (hstep : ∀ s a s', I s → P s a → step s a = some s' → I s') {s s' : σ} {as : List α}
    (h : I s) (hP : StepsMeet step P s as) (hr : run step s as = some s') : I s' := by
  induction as generalizing s with
  | nil =>
      cases hr
      exact h
  | cons a as ih =>
      obtain ⟨t, ht, hr⟩ := run_cons.mp hr
      exact ih (hstep s a t h hP.1 ht) (hP.2 t ht) hr

/-- What an invariant gives at each step of such a run. -/
theorem StepsMeet.of_invariant {I : σ → Prop} {P Q : σ → α → Prop}
    (hstep : ∀ s a s', I s → P s a → step s a = some s' → I s') (hQ : ∀ s a, I s → P s a → Q s a)
    {s : σ} {as : List α} (h : I s) (hP : StepsMeet step P s as) : StepsMeet step Q s as := by
  induction as generalizing s with
  | nil => trivial
  | cons a as ih =>
      exact ⟨hQ s a h hP.1, fun t ht => ih (hstep s a t h hP.1 ht) (hP.2 t ht)⟩

/-- What holds of the actions in every state holds at each step. -/
theorem StepsMeet.of_forall {P : σ → α → Prop} {s : σ} {as : List α}
    (h : ∀ a ∈ as, ∀ s, P s a) : StepsMeet step P s as := by
  induction as generalizing s with
  | nil => trivial
  | cons a as ih =>
      exact ⟨h a List.mem_cons_self s, fun t _ => ih fun b hb => h b (List.mem_cons_of_mem _ hb)⟩

theorem StepsMeet.and {P Q : σ → α → Prop} {s : σ} {as : List α} (hP : StepsMeet step P s as)
    (hQ : StepsMeet step Q s as) : StepsMeet step (fun s a => P s a ∧ Q s a) s as := by
  induction as generalizing s with
  | nil => trivial
  | cons a as ih => exact ⟨⟨hP.1, hQ.1⟩, fun t ht => ih (hP.2 t ht) (hQ.2 t ht)⟩

theorem StepsMeet.append {P : σ → α → Prop} {s : σ} {as bs : List α} (h : StepsMeet step P s as)
    (hrest : ∀ t, run step s as = some t → StepsMeet step P t bs) :
    StepsMeet step P s (as ++ bs) := by
  induction as generalizing s with
  | nil => exact hrest s rfl
  | cons a as ih =>
      refine ⟨h.1, fun t ht => ih (h.2 t ht) ?_⟩
      exact fun u hu => hrest u (run_cons.mpr ⟨t, ht, hu⟩)

/-- The first step, where it is known what it leads to. -/
theorem StepsMeet.cons {P : σ → α → Prop} {s t : σ} {a : α} {as : List α} (hP : P s a)
    (hs : step s a = some t) (h : StepsMeet step P t as) : StepsMeet step P s (a :: as) := by
  refine ⟨hP, fun u hu => ?_⟩
  rw [hs] at hu
  cases hu
  exact h

theorem StepsMeet.before {P : σ → α → Prop} {s : σ} {as bs : List α}
    (h : StepsMeet step P s (as ++ bs)) : StepsMeet step P s as := by
  induction as generalizing s with
  | nil => trivial
  | cons a as ih => exact ⟨h.1, fun t ht => ih (h.2 t ht)⟩

theorem StepsMeet.after {P : σ → α → Prop} {s t : σ} {as bs : List α}
    (h : StepsMeet step P s (as ++ bs)) (hr : run step s as = some t) : StepsMeet step P t bs := by
  induction as generalizing s with
  | nil =>
      cases hr
      exact h
  | cons a as ih =>
      obtain ⟨u, hu, hr⟩ := run_cons.mp hr
      exact ih (h.2 u hu) hr

/-- Two conditions that agree wherever an invariant holds, and that keep it, are met by the same
    runs. `F` is what is known of each step. -/
theorem stepsMeet_congr {I : σ → Prop} {F P Q : σ → α → Prop}
    (hiff : ∀ s a, I s → F s a → (P s a ↔ Q s a))
    (hkeep : ∀ s a s', I s → F s a → Q s a → step s a = some s' → I s') {s : σ} {as : List α}
    (h : I s) (hF : StepsMeet step F s as) : StepsMeet step P s as ↔ StepsMeet step Q s as := by
  induction as generalizing s with
  | nil => exact Iff.rfl
  | cons a as ih =>
      have hhead := hiff s a h hF.1
      constructor
      · intro hP
        refine ⟨hhead.mp hP.1, fun t ht => ?_⟩
        exact (ih (hkeep s a t h hF.1 (hhead.mp hP.1) ht) (hF.2 t ht)).mp (hP.2 t ht)
      · intro hQ
        refine ⟨hhead.mpr hQ.1, fun t ht => ?_⟩
        exact (ih (hkeep s a t h hF.1 hQ.1 ht) (hF.2 t ht)).mpr (hQ.2 t ht)

/-- What a step cannot bring about, and the run ends with, the run has all along. -/
theorem stepsMeet_of_end {Q : σ → Prop} (hback : ∀ s a s', step s a = some s' → Q s' → Q s)
    {s s' : σ} {as : List α} (hr : run step s as = some s') (h : Q s') :
    StepsMeet step (fun s _ => Q s) s as ∧ Q s := by
  induction as generalizing s with
  | nil =>
      cases hr
      exact ⟨trivial, h⟩
  | cons a as ih =>
      obtain ⟨t, ht, hr⟩ := run_cons.mp hr
      obtain ⟨hrest, hq⟩ := ih hr
      refine ⟨⟨hback s a t ht hq, fun u hu => ?_⟩, hback s a t ht hq⟩
      rw [ht] at hu
      cases hu
      exact hrest

/-- A run with a step that fails `P` splits at the first one. -/
theorem exists_step_of_not_stepsMeet {P : σ → α → Prop} {s s' : σ} {as : List α}
    (hr : run step s as = some s') (hP : ¬ StepsMeet step P s as) :
    ∃ pre a post t u, StepsMeet step P s pre ∧ run step s pre = some t ∧ ¬ P t a ∧
      step t a = some u ∧ run step u post = some s' := by
  induction as generalizing s with
  | nil => exact absurd trivial hP
  | cons a as ih =>
      obtain ⟨t, ht, hr⟩ := run_cons.mp hr
      have only : ∀ {Q : σ → Prop}, Q t → ∀ u, step s a = some u → Q u := by
        intro Q h u hu
        rw [ht] at hu
        cases hu
        exact h
      by_cases ha : P s a
      · obtain ⟨pre, b, post, u, v, hclean, hpre, hb, hstep, hpost⟩ :=
          ih hr fun h => hP ⟨ha, only h⟩
        exact ⟨a :: pre, b, post, u, v, ⟨ha, only hclean⟩, run_cons.mpr ⟨t, ht, hpre⟩, hb, hstep,
          hpost⟩
      · exact ⟨[], a, as, s, t, trivial, rfl, ha, ht, hr⟩

end Nmfs.Lib
