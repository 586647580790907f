import Mathlib.Data.List.Basic

/-!
# Runs of a step function

`run step s es` is the state after the events `es`. `Along step P s es` says that
every event of the run is taken in a state that allows it (`P state event`), and
`Along.inv` is the invariant rule for such runs: what every allowed event
preserves holds at the end of every allowed run.
-/

namespace Whatsvelte

variable {σ ε : Type} {step : σ → ε → σ} {P Q : σ → ε → Prop} {s : σ} {es es' : List ε}

/-- The state after the events `es`. -/
def run (step : σ → ε → σ) (s : σ) (es : List ε) : σ := es.foldl step s

@[simp] theorem run_nil : run step s [] = s := rfl

@[simp] theorem run_cons (e : ε) : run step s (e :: es) = run step (step s e) es := rfl

theorem run_append : run step s (es ++ es') = run step (run step s es) es' := List.foldl_append

theorem run_inv {I : σ → Prop} (hstep : ∀ s e, I s → I (step s e)) (hs : I s) (es : List ε) :
    I (run step s es) := by
  induction es generalizing s with
  | nil => exact hs
  | cons e es ih => exact ih (hstep s e hs)

/-- Every event of the run is taken in a state that allows it. -/
def Along (step : σ → ε → σ) (P : σ → ε → Prop) : σ → List ε → Prop
  | _, [] => True
  | s, e :: es => P s e ∧ Along step P (step s e) es

@[simp] theorem along_nil : Along step P s [] := trivial

@[simp] theorem along_cons (e : ε) : Along step P s (e :: es) ↔ P s e ∧ Along step P (step s e) es :=
  Iff.rfl

theorem along_append : Along step P s (es ++ es') ↔ Along step P s es ∧ Along step P (run step s es) es' := by
  induction es generalizing s with
  | nil => simp
  | cons e es ih => simp [ih, and_assoc]

theorem Along.mono (h : ∀ s e, P s e → Q s e) (ha : Along step P s es) : Along step Q s es := by
  induction es generalizing s with
  | nil => trivial
  | cons e es ih => exact ⟨h _ _ ha.1, ih ha.2⟩

theorem along_of_forall (h : ∀ e ∈ es, ∀ s, P s e) : ∀ s, Along step P s es := by
  induction es with
  | nil => exact fun _ => trivial
  | cons e es ih =>
    exact fun s => ⟨h e List.mem_cons_self s, ih (fun e he => h e (List.mem_cons_of_mem _ he)) _⟩

theorem Along.and (ha : Along step P s es) (hb : Along step Q s es) :
    Along step (fun s e => P s e ∧ Q s e) s es := by
  induction es generalizing s with
  | nil => trivial
  | cons e es ih => exact ⟨⟨ha.1, hb.1⟩, ih ha.2 hb.2⟩

instance [∀ s e, Decidable (P s e)] : ∀ s es, Decidable (Along step P s es)
  | _, [] => isTrue trivial
  | s, e :: es => @instDecidableAnd _ _ inferInstance (instDecidableAlong (step s e) es)

/-- **The invariant rule.** What every allowed event preserves holds after every
allowed run. -/
theorem Along.inv {I : σ → Prop} (hstep : ∀ s e, I s → P s e → I (step s e)) (hs : I s)
    (ha : Along step P s es) : I (run step s es) := by
  induction es generalizing s with
  | nil => exact hs
  | cons e es ih => exact ih (hstep s e hs ha.1) ha.2

/-- **The termination rule.** A run whose events all decrease a measure is no longer than
the measure at its start. -/
theorem Along.length_le {I : σ → Prop} {μ : σ → ℕ}
    (hstep : ∀ s e, I s → P s e → I (step s e) ∧ μ (step s e) < μ s) (hs : I s)
    (ha : Along step P s es) : es.length ≤ μ s := by
  induction es generalizing s with
  | nil => exact Nat.zero_le _
  | cons e es ih =>
    obtain ⟨hi, hlt⟩ := hstep s e hs ha.1
    have := ih hi ha.2
    rw [List.length_cons]
    omega

end Whatsvelte
