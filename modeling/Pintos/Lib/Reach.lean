import Mathlib

/-!
# Runs of a labelled transition system

A system is a partial step function `step : σ → α → Option σ`: the label `a`
carries every choice the environment makes (which thread moves, which call it
makes, what an outside service answers), and `none` means the step cannot be
taken (the thread is blocked, or the call faults). `Reachable step init s` says
`s` is reached from `init` in finitely many steps.

Invariants are proved once per system with `Reachable.rec_inv`: the predicate
holds initially and every step preserves it. A violation is shown with `run`:
a concrete label list whose run ends in a bad state is reachable
(`reachable_of_run`).
-/

namespace Lts

variable {σ α : Type}

/-- The states reached from `init` by finitely many steps. -/
inductive Reachable (step : σ → α → Option σ) (init : σ) : σ → Prop where
  | init : Reachable step init init
  | step {s s' : σ} (a : α) : Reachable step init s → step s a = some s' →
      Reachable step init s'

/-- `P` is preserved by every step. -/
def Preserved (step : σ → α → Option σ) (P : σ → Prop) : Prop :=
  ∀ s a s', P s → step s a = some s' → P s'

/-- **Invariant rule**: a predicate that holds initially and is preserved holds of
every reachable state. -/
theorem Reachable.rec_inv {step : σ → α → Option σ} {init : σ} {P : σ → Prop}
    (h0 : P init) (hs : Preserved step P) {s : σ} (h : Reachable step init s) : P s := by
  induction h with
  | init => exact h0
  | step a _ hst ih => exact hs _ a _ ih hst

/-- An invariant may rest on another one already proved. -/
theorem Reachable.rec_inv_of {step : σ → α → Option σ} {init : σ} {I P : σ → Prop}
    (hI : ∀ s, Reachable step init s → I s) (h0 : P init)
    (hs : ∀ s a s', Reachable step init s → I s → P s → step s a = some s' → P s')
    {s : σ} (h : Reachable step init s) : P s := by
  induction h with
  | init => exact h0
  | step a hr hst ih => exact hs _ a _ hr (hI _ hr) ih hst

/-- The run of a list of labels; `none` as soon as one step cannot be taken. -/
def run (step : σ → α → Option σ) : σ → List α → Option σ
  | s, [] => some s
  | s, a :: as => (step s a).bind fun s' => run step s' as

@[simp] theorem run_nil (step : σ → α → Option σ) (s : σ) : run step s [] = some s := rfl

theorem run_cons (step : σ → α → Option σ) (s : σ) (a : α) (as : List α) :
    run step s (a :: as) = (step s a).bind fun s' => run step s' as := rfl

theorem run_append (step : σ → α → Option σ) (s : σ) (as bs : List α) :
    run step s (as ++ bs) = (run step s as).bind fun t => run step t bs := by
  induction as generalizing s with
  | nil => rfl
  | cons a as ih =>
    rw [List.cons_append, run_cons, run_cons]
    cases step s a with
    | none => rfl
    | some s' => exact ih s'

/-- A preserved predicate holds at the end of every run from a state where it
holds. -/
theorem Preserved.run {step : σ → α → Option σ} {P : σ → Prop} (hP : Preserved step P) :
    ∀ {s t : σ} {as : List α}, P s → Lts.run step s as = some t → P t
  | _, _, [], h, hr => by
    simp only [run_nil, Option.some.injEq] at hr
    exact hr ▸ h
  | s, _, a :: as, h, hr => by
    rw [run_cons] at hr
    cases hst : step s a with
    | none => rw [hst] at hr; cases hr
    | some s' =>
      rw [hst, Option.bind_some] at hr
      exact hP.run (hP s a s' h hst) hr

/-- The end of a run from a reachable state is reachable. -/
theorem reachable_run {step : σ → α → Option σ} {init s : σ} (hs : Reachable step init s) :
    ∀ {as : List α} {t : σ}, run step s as = some t → Reachable step init t
  | [], t, h => by
    simp only [run_nil, Option.some.injEq] at h
    exact h ▸ hs
  | a :: as, t, h => by
    rw [run_cons] at h
    cases hst : step s a with
    | none => rw [hst] at h; cases h
    | some s' =>
      rw [hst, Option.bind_some] at h
      exact reachable_run (hs.step a hst) h

/-- A run from the initial state ends in a reachable state. -/
theorem reachable_of_run {step : σ → α → Option σ} {init t : σ} {as : List α}
    (h : run step init as = some t) : Reachable step init t :=
  reachable_run .init h

/-- A state that a run reaches from an initial state built by a fallible `boot`,
and what `o` observes there. -/
theorem exists_reachable_of_run_bind {β γ : Type} {step : σ → α → Option σ}
    {boot : Option β} {init : β → σ} {as : List α} {o : σ → Option γ} {v : γ}
    (h : (boot.bind fun b => run step (init b) as).bind o = some v) :
    ∃ b s, boot = some b ∧ Reachable step (init b) s ∧ o s = some v := by
  obtain ⟨s, hs, ho⟩ := Option.bind_eq_some_iff.mp h
  obtain ⟨b, hb, hrun⟩ := Option.bind_eq_some_iff.mp hs
  exact ⟨b, s, hb, reachable_of_run hrun, ho⟩

/-- A run whose last state has a decidable property shows a reachable state with it. -/
theorem exists_reachable_of_run_decide {step : σ → α → Option σ} {init : σ} {P : σ → Prop}
    [DecidablePred P] (as : List α)
    (h : (run step init as).map (fun s => decide (P s)) = some true) :
    ∃ s, Reachable step init s ∧ P s := by
  obtain ⟨s, hs, hP⟩ := Option.map_eq_some_iff.mp h
  exact ⟨s, reachable_of_run hs, of_decide_eq_true hP⟩

@[simp] theorem run_singleton (step : σ → α → Option σ) (s : σ) (a : α) :
    run step s [a] = step s a := by
  rw [run_cons]
  cases step s a <;> rfl

/-- A run `bs` out of the last state of a run `as`, after which a decidable relation
holds between the states before and after it. -/
theorem exists_run_of_run_decide {step : σ → α → Option σ} {init : σ} {R : σ → σ → Prop}
    [∀ s s', Decidable (R s s')] (as bs : List α)
    (h : (run step init as).bind (fun s => (run step s bs).map fun s' => decide (R s s')) =
      some true) :
    ∃ s s', Reachable step init s ∧ run step s bs = some s' ∧ R s s' := by
  obtain ⟨s, hs, h'⟩ := Option.bind_eq_some_iff.mp h
  obtain ⟨s', hs', hR⟩ := Option.map_eq_some_iff.mp h'
  exact ⟨s, s', reachable_of_run hs, hs', of_decide_eq_true hR⟩

/-- `exists_run_of_run_decide` for a single step `a`. -/
theorem exists_step_of_run_decide {step : σ → α → Option σ} {init : σ} {R : σ → σ → Prop}
    [∀ s s', Decidable (R s s')] (as : List α) (a : α)
    (h : (run step init as).bind (fun s => (step s a).map fun s' => decide (R s s')) = some true) :
    ∃ s s', Reachable step init s ∧ step s a = some s' ∧ R s s' := by
  simp only [← run_singleton step _ a] at h ⊢
  exact exists_run_of_run_decide as [a] h

/-- An invariant of every reachable state fails nowhere along a run. -/
theorem not_inv_of_run {step : σ → α → Option σ} {init t : σ} {P : σ → Prop} {as : List α}
    (h : run step init as = some t) (hbad : ¬ P t) : ¬ ∀ s, Reachable step init s → P s :=
  fun hall => hbad (hall t (reachable_of_run h))

/-- An invariant that each step of an `Option` fold keeps holds at its end. -/
theorem foldlM_inv {f : σ → α → Option σ} {P : σ → Prop} :
    ∀ {l : List α} {s s' : σ}, (∀ a ∈ l, ∀ s s', P s → f s a = some s' → P s') → P s →
      l.foldlM f s = some s' → P s'
  | [], s, s', _, hP, h => by
    simp only [List.foldlM_nil, pure, Option.some.injEq] at h
    exact h ▸ hP
  | a :: l, s, s', hf, hP, h => by
    rw [List.foldlM_cons] at h
    cases hs : f s a with
    | none => simp [hs] at h
    | some s₁ =>
      simp only [hs, Option.bind_eq_bind, Option.bind_some] at h
      exact foldlM_inv (fun b hb => hf b (List.mem_cons_of_mem a hb))
        (hf a List.mem_cons_self s s₁ hP hs) h

end Lts
