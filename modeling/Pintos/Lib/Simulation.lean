import Pintos.Lib.Reach

/-!
# Forward simulation along runs

A concrete system refines an abstract one when every concrete step is matched
by the abstract step whose label the concrete state and label determine
(`Simulation`). The abstract labels of a concrete run are `mapRun`: each label
mapped with the state it is taken from. `Simulation.run` then carries the
relation along any run: the abstract system runs the mapped labels and ends in
a related state. `SimulationOn` asks the same only of the labels a predicate
admits, and `SimulationOn.run` carries it along runs of such labels.

Two systems over the same labels move in `Lockstep` when from related states
every label is taken by both, to related states, or by neither. Then they run
the same label lists (`Lockstep.run`): neither has a run the other lacks.

A system that answers each input (`runOutputs`) is in `OutputLockstep` with
another when from related states both give every input the same answer and
move to related states. Then both give the same answers to any list of inputs
(`OutputLockstep.run`). A property every input keeps holds after any list of
them (`runOutputs_inv`).
-/

namespace Lts

variable {σ τ α β : Type}

/-- The labels of a run, each mapped with the state it is taken from; the list
stops where the run does. -/
def mapRun (step : σ → α → Option σ) (f : σ → α → β) : σ → List α → List β
  | _, [] => []
  | s, a :: as =>
    f s a ::
      match step s a with
      | some s' => mapRun step f s' as
      | none => []

theorem mapRun_cons_of_step {step : σ → α → Option σ} {f : σ → α → β} {s s' : σ} {a : α}
    (as : List α) (h : step s a = some s') :
    mapRun step f s (a :: as) = f s a :: mapRun step f s' as := by
  rw [mapRun, h]

/-- `R` relates each concrete state to an abstract one, and every concrete step
from related states is matched by the abstract step with the mapped label. -/
def Simulation (cstep : σ → α → Option σ) (astep : τ → β → Option τ) (f : σ → α → β)
    (R : σ → τ → Prop) : Prop :=
  ∀ s t a s', R s t → cstep s a = some s' → ∃ t', astep t (f s a) = some t' ∧ R s' t'

/-- `Simulation` for the labels `ok` admits: the concrete steps on other labels
need no match. -/
def SimulationOn (ok : α → Prop) (cstep : σ → α → Option σ) (astep : τ → β → Option τ)
    (f : σ → α → β) (R : σ → τ → Prop) : Prop :=
  ∀ s t a s', ok a → R s t → cstep s a = some s' → ∃ t', astep t (f s a) = some t' ∧ R s' t'

/-- **Simulation along a run** of admitted labels: from related states, the
abstract system runs the mapped labels of the concrete run and ends related to
where it ends. -/
theorem SimulationOn.run {ok : α → Prop} {cstep : σ → α → Option σ} {astep : τ → β → Option τ}
    {f : σ → α → β} {R : σ → τ → Prop} (hsim : SimulationOn ok cstep astep f R) :
    ∀ {as : List α} {s s' : σ} {t : τ}, (∀ a ∈ as, ok a) → R s t → Lts.run cstep s as = some s' →
      ∃ t', Lts.run astep t (mapRun cstep f s as) = some t' ∧ R s' t'
  | [], s, s', t, _, hR, h => by
    simp only [run_nil, Option.some.injEq] at h
    subst h
    exact ⟨t, rfl, hR⟩
  | a :: as, s, s', t, hok, hR, h => by
    rw [run_cons] at h
    cases hs : cstep s a with
    | none => rw [hs] at h; cases h
    | some s₁ =>
      rw [hs, Option.bind_some] at h
      obtain ⟨t₁, ht, hR₁⟩ := hsim s t a s₁ (hok a List.mem_cons_self) hR hs
      obtain ⟨t', hrun, hR'⟩ :=
        hsim.run (fun b hb => hok b (List.mem_cons_of_mem a hb)) hR₁ h
      refine ⟨t', ?_, hR'⟩
      rw [mapRun_cons_of_step as hs, run_cons, ht, Option.bind_some]
      exact hrun

/-- **Simulation along a run**: from related states, the abstract system runs
the mapped labels of any concrete run and ends related to where it ends. -/
theorem Simulation.run {cstep : σ → α → Option σ} {astep : τ → β → Option τ}
    {f : σ → α → β} {R : σ → τ → Prop} (hsim : Simulation cstep astep f R) :
    ∀ {as : List α} {s s' : σ} {t : τ}, R s t → Lts.run cstep s as = some s' →
      ∃ t', Lts.run astep t (mapRun cstep f s as) = some t' ∧ R s' t' :=
  fun hR h => (show SimulationOn (fun _ => True) cstep astep f R from
    fun s t a s' _ => hsim s t a s').run (fun _ _ => trivial) hR h

/-- Two results related by `R` are related by any relation `R` implies. -/
theorem rel_mono {R R' : σ → τ → Prop} (h : ∀ s t, R s t → R' s t) :
    ∀ {x : Option σ} {y : Option τ}, Option.Rel R x y → Option.Rel R' x y
  | _, _, .some hR => .some (h _ _ hR)
  | _, _, .none => .none

/-- From states related by `R`, every label is taken by both systems, to
related states, or by neither. -/
def Lockstep (step₁ : σ → α → Option σ) (step₂ : τ → α → Option τ) (R : σ → τ → Prop) : Prop :=
  ∀ s t a, R s t → Option.Rel R (step₁ s a) (step₂ t a)

/-- **Lockstep along a run**: from related states, every list of labels runs on
both systems, to related states, or on neither. -/
theorem Lockstep.run {step₁ : σ → α → Option σ} {step₂ : τ → α → Option τ}
    {R : σ → τ → Prop} (h : Lockstep step₁ step₂ R) :
    ∀ (as : List α) {s : σ} {t : τ}, R s t → Option.Rel R (Lts.run step₁ s as) (Lts.run step₂ t as)
  | [], _, _, hR => .some hR
  | a :: as, s, t, hR => by
    rw [run_cons, run_cons]
    match step₁ s a, step₂ t a, h s t a hR with
    | some _, some _, .some hR' => exact h.run as hR'
    | none, none, .none => exact .none

section Outputs

variable {ι ρ : Type}

/-- The answers of a system to a list of inputs, in order, and where it ends. -/
def runOutputs (f : σ → ι → σ × ρ) : σ → List ι → σ × List ρ
  | s, [] => (s, [])
  | s, i :: is =>
    let rest := runOutputs f (f s i).1 is
    (rest.1, (f s i).2 :: rest.2)

/-- A property every input keeps holds after any list of inputs. -/
theorem runOutputs_inv {f : σ → ι → σ × ρ} {P : σ → Prop} (h : ∀ s i, P s → P (f s i).1) :
    ∀ (is : List ι) {s : σ}, P s → P (runOutputs f s is).1
  | [], _, hs => hs
  | i :: is, s, hs => by
    simp only [runOutputs]
    exact runOutputs_inv h is (h s i hs)

/-- From states related by `R`, both systems give every input the same answer
and move to related states. -/
def OutputLockstep (f : σ → ι → σ × ρ) (g : τ → ι → τ × ρ) (R : σ → τ → Prop) : Prop :=
  ∀ s t i, R s t → R (f s i).1 (g t i).1 ∧ (f s i).2 = (g t i).2

/-- **Answers along a run**: from related states, both systems give the same
answers to any list of inputs and end in related states. -/
theorem OutputLockstep.run {f : σ → ι → σ × ρ} {g : τ → ι → τ × ρ} {R : σ → τ → Prop}
    (h : OutputLockstep f g R) :
    ∀ (is : List ι) {s : σ} {t : τ}, R s t →
      R (runOutputs f s is).1 (runOutputs g t is).1 ∧
        (runOutputs f s is).2 = (runOutputs g t is).2
  | [], _, _, hR => ⟨hR, rfl⟩
  | i :: is, s, t, hR => by
    obtain ⟨hR₁, hout⟩ := h s t i hR
    obtain ⟨hR', hrest⟩ := h.run is hR₁
    simp only [runOutputs]
    exact ⟨hR', by rw [hout, hrest]⟩

end Outputs

end Lts
