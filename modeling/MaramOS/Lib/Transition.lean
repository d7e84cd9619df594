/-! Systems that take one of several actions at a time. A step is a partial
function, so that a run can be computed, and `Reaches` collects the states of all
runs whose actions meet a condition on the state they are taken in. -/

namespace Transition

variable {σ γ : Type} {step : σ → γ → Option σ} {ok : σ → γ → Prop} {s s' s0 : σ} {a : γ} {as : List γ}

def run (step : σ → γ → Option σ) : σ → List γ → Option σ
  | s, [] => some s
  | s, a :: as => (step s a).bind fun s' => run step s' as

inductive Reaches (step : σ → γ → Option σ) (ok : σ → γ → Prop) (s0 : σ) : σ → Prop
  | start : Reaches step ok s0 s0
  | step {s s' : σ} {a : γ} : Reaches step ok s0 s → ok s a → step s a = some s' → Reaches step ok s0 s'

/-- What every allowed action keeps holds in all states that are reached. -/
theorem Reaches.invariant (I : σ → Prop) (h0 : I s0) (hstep : ∀ s a s', I s → ok s a → step s a = some s' → I s')
    (h : Reaches step ok s0 s) : I s := by
  induction h with
  | start => exact h0
  | step _ hok hrun ih => exact hstep _ _ _ ih hok hrun

theorem run_cons : run step s (a :: as) = (step s a).bind fun s' => run step s' as := rfl

/-- A computed run, all of whose actions are allowed in every state. -/
theorem Reaches.run (h : Reaches step ok s0 s) (hok : ∀ s, ∀ a ∈ as, ok s a) (hrun : run step s as = some s') :
    Reaches step ok s0 s' := by
  induction as generalizing s with
  | nil =>
    cases hrun
    exact h
  | cons a as ih =>
    rw [run_cons, Option.bind_eq_some_iff] at hrun
    obtain ⟨s1, hstep, hrun⟩ := hrun
    have hnext := h.step (hok s a List.mem_cons_self) hstep
    exact ih hnext (fun s b hb => hok s b (List.mem_cons_of_mem a hb)) hrun

end Transition
