import Mathlib.Tactic

/-! Computations over a state that survives a fault. A `Prog` that stops with
an error still hands back the state it had reached, as a `&mut self` method
with an early return does. `wp` is its weakest precondition with one
postcondition for each of the two exits, and `Runs` collects the states that a
sequence of calls reaches. -/

def Prog (ε σ α : Type) : Type := σ → Except ε α × σ

namespace Prog

variable {ε σ τ α β : Type}

def ret (a : α) : Prog ε σ α := fun s => (.ok a, s)

def seq (x : Prog ε σ α) (f : α → Prog ε σ β) : Prog ε σ β := fun s =>
  match x s with
  | (.ok a, s') => f a s'
  | (.error e, s') => (.error e, s')

instance : Monad (Prog ε σ) where
  pure := ret
  bind := seq

instance : LawfulMonad (Prog ε σ) := LawfulMonad.mk' _
  (fun x => by funext s; show seq x _ s = _; unfold seq; rcases x s with ⟨_ | _, _⟩ <;> rfl)
  (fun _ _ => rfl)
  (fun x f g => by
    funext s
    show seq (seq x f) g s = seq x (fun a => seq (f a) g) s
    unfold seq
    rcases x s with ⟨_ | _, _⟩ <;> rfl)

def fail (e : ε) : Prog ε σ α := fun s => (.error e, s)

def reads (f : σ → Except ε α) : Prog ε σ α := fun s => (f s, s)

def modify (f : σ → σ) : Prog ε σ Unit := fun s => (.ok (), f s)

/-- Run a computation on one component of a larger state. -/
def zoom (view : σ → τ) (put : σ → τ → σ) (x : Prog ε τ α) : Prog ε σ α := fun s =>
  let r := x (view s)
  (r.1, put s r.2)

def mapError {δ : Type} (f : ε → δ) (x : Prog ε σ α) : Prog δ σ α := fun s =>
  match x s with
  | (.ok a, s') => (.ok a, s')
  | (.error e, s') => (.error (f e), s')

/-- Irreducible, so that no tactic runs the program to see what the goal is. -/
@[irreducible] def wp (x : Prog ε σ α) (s : σ) (Q : α → σ → Prop) (E : ε → σ → Prop) : Prop :=
  match x s with
  | (.ok a, s') => Q a s'
  | (.error e, s') => E e s'

variable {s s' : σ} {a : α} {e : ε} {x : Prog ε σ α} {f : α → Prog ε σ β}
  {Q Q' : α → σ → Prop} {R : β → σ → Prop} {E E' : ε → σ → Prop} {g : σ → Except ε α} {r : Except ε α} {γ : Type}
  {s0 : σ}

@[simp] theorem wp_pure : wp (pure a) s Q E ↔ Q a s := by
  unfold wp
  exact Iff.rfl

@[simp] theorem wp_fail : wp (fail e : Prog ε σ α) s Q E ↔ E e s := by
  unfold wp
  exact Iff.rfl

@[simp] theorem wp_modify {g : σ → σ} {Q : Unit → σ → Prop} :
    wp (modify g) s Q E ↔ Q () (g s) := by
  unfold wp
  exact Iff.rfl

theorem wp_bind : wp (x >>= f) s R E ↔ wp x s (fun a s' => wp (f a) s' R E) E := by
  show wp (seq x f) s R E ↔ _
  unfold wp seq
  rcases x s with ⟨_ | _, _⟩ <;> rfl

theorem wp_reads :
    wp (reads g) s Q E ↔ (∀ a, g s = .ok a → Q a s) ∧ ∀ e, g s = .error e → E e s := by
  unfold wp reads
  cases h : g s <;> simp

theorem wp_reads_ok (h : g s = .ok a) : wp (reads g) s Q E ↔ Q a s := by
  simp [wp, reads, h]

theorem wp_reads_const (h : r = .ok a) : wp (reads fun _ => r) s Q E ↔ Q a s := wp_reads_ok h

theorem wp_zoom {view : σ → τ} {put : σ → τ → σ} {y : Prog ε τ α} :
    wp (zoom view put y) s Q E ↔
      wp y (view s) (fun a t => Q a (put s t)) (fun e t => E e (put s t)) := by
  unfold wp zoom
  rcases y (view s) with ⟨_ | _, _⟩ <;> rfl

theorem wp_mapError {δ : Type} {f : ε → δ} {E : δ → σ → Prop} :
    wp (mapError f x) s Q E ↔ wp x s Q fun e s' => E (f e) s' := by
  unfold wp mapError
  rcases x s with ⟨_ | _, _⟩ <;> rfl

theorem wp_mono (h : wp x s Q E) (hQ : ∀ a s', Q a s' → Q' a s') (hE : ∀ e s', E e s' → E' e s') :
    wp x s Q' E' := by
  unfold wp at *
  rcases hx : x s with ⟨_ | _, _⟩ <;> rw [hx] at h
  · exact hE _ _ h
  · exact hQ _ _ h

theorem wp_seq (h : wp x s Q E') (hQ : ∀ a s', Q a s' → wp (f a) s' R E)
    (hE : ∀ e s', E' e s' → E e s') : wp (x >>= f) s R E :=
  wp_bind.2 (wp_mono h hQ hE)

theorem wp_reads_seq (hf : wp (f a) s R E) (h : g s = .ok a) :
    wp (reads g >>= f) s R E :=
  wp_bind.2 ((wp_reads_ok h).2 hf)

theorem run_of_result (h : (x s).1 = r) : x s = (r, (x s).2) := Prod.ext h rfl

theorem run_bind_ok {b : β} {s'' : σ} (h : (x >>= f) s = (.ok b, s'')) :
    ∃ a s', x s = (.ok a, s') ∧ f a s' = (.ok b, s'') := by
  change seq x f s = _ at h
  unfold seq at h
  rcases hx : x s with ⟨_ | a, s'⟩ <;> rw [hx] at h
  · cases h
  · exact ⟨a, s', rfl, h⟩

theorem run_bind (h : x s = (.ok a, s')) : (x >>= f) s = f a s' := by
  change seq x f s = _
  rw [seq, h]

theorem run_bind_error (h : x s = (.error e, s')) : (x >>= f) s = (.error e, s') := by
  change seq x f s = _
  rw [seq, h]

theorem wp_of_run (hx : x s = (.ok a, s')) (h : Q a s') : wp x s Q E := by
  simpa [wp, hx] using h

theorem wp_ok (h : wp x s Q E) (hx : x s = (.ok a, s')) : Q a s' := by
  simpa [wp, hx] using h

theorem wp_total (h : wp x s Q fun _ _ => False) : ∃ a s', x s = (.ok a, s') ∧ Q a s' := by
  unfold wp at h
  rcases hx : x s with ⟨_ | a, s'⟩ <;> rw [hx] at h
  · exact h.elim
  · exact ⟨a, s', rfl, h⟩

theorem wp_error (h : wp x s Q E) (hx : x s = (.error e, s')) : E e s' := by
  simpa [wp, hx] using h

theorem wp_keeps {P : σ → Prop} : wp x s (fun _ s' => P s') (fun _ s' => P s') ↔ P (x s).2 := by
  unfold wp
  rcases x s with ⟨_ | _, _⟩ <;> rfl

theorem wp_forM {g : γ → Prog ε σ Unit} (l : List γ) (I : List γ → σ → Prop)
    (step : ∀ done c rest s, l = done ++ c :: rest → I done s → wp (g c) s (fun _ s' => I (done ++ [c]) s') E)
    (h : I [] s) :
    wp (l.forM g) s (fun _ s' => I l s') E := by
  suffices hsuf : ∀ rest done s, l = done ++ rest → I done s →
      wp (rest.forM g) s (fun _ s' => I l s') E from hsuf l [] s rfl h
  intro rest
  induction rest with
  | nil =>
    intro done s hl hI
    simp only [List.append_nil] at hl
    subst hl
    exact wp_pure.2 hI
  | cons c rest ih =>
    intro done s hl hI
    show wp (g c >>= fun _ => rest.forM g) s _ E
    refine wp_seq (step done c rest s hl hI) (fun _ s' hs' => ?_) (fun _ _ h => h)
    exact ih (done ++ [c]) s' (by simp [hl]) hs'

theorem wp_mapM {g : γ → Prog ε σ β} (l : List γ) (I : List γ → List β → σ → Prop)
    (step : ∀ done c rest bs s, l = done ++ c :: rest → I done bs s →
      wp (g c) s (fun b s' => I (done ++ [c]) (bs ++ [b]) s') E) (h : I [] [] s) :
    wp (l.mapM g) s (fun bs s' => I l bs s') E := by
  suffices hsuf : ∀ rest done bs s, l = done ++ rest → I done bs s →
      wp (rest.mapM g) s (fun bs' s' => I l (bs ++ bs') s') E by
    simpa using hsuf l [] [] s rfl h
  intro rest
  induction rest with
  | nil =>
    intro done bs s hl hI
    simp only [List.append_nil] at hl
    subst hl
    simpa [List.mapM_nil] using hI
  | cons c rest ih =>
    intro done bs s hl hI
    rw [List.mapM_cons]
    refine wp_seq (step done c rest bs s hl hI) (fun b s' hs' => ?_) (fun _ _ h => h)
    rw [wp_bind]
    refine wp_mono (ih (done ++ [c]) (bs ++ [b]) s' (by simp [hl]) hs') (fun bs' s'' hI' => ?_)
      (fun _ _ h => h)
    simpa using hI'

theorem wp_foldlM {γ : Type} {g : β → γ → Prog ε σ β} {b : β} (l : List γ) (I : List γ → β → σ → Prop)
    (step : ∀ done c rest b s, l = done ++ c :: rest → I done b s →
      wp (g b c) s (fun b' s' => I (done ++ [c]) b' s') E) (h : I [] b s) :
    wp (l.foldlM g b) s (fun b' s' => I l b' s') E := by
  suffices hsuf : ∀ rest done b s, l = done ++ rest → I done b s →
      wp (rest.foldlM g b) s (fun b' s' => I l b' s') E from hsuf l [] b s rfl h
  intro rest
  induction rest with
  | nil =>
    intro done b s hl hI
    rw [List.append_nil] at hl
    subst hl
    exact wp_pure.2 hI
  | cons c rest ih =>
    intro done b s hl hI
    rw [List.foldlM_cons]
    refine wp_seq (step done c rest b s hl hI) (fun b' s' hs' => ?_) (fun _ _ h => h)
    exact ih (done ++ [c]) b' s' (by simp [hl]) hs'

/-- The states that a sequence of calls reaches; `ok` says which calls may be made
in a state, and with which outcome. -/
inductive Runs {γ : Type} (run : γ → Prog ε σ Unit) (ok : σ → γ → Except ε Unit → Prop) (s0 : σ) : σ → Prop
  | start : Runs run ok s0 s0
  | call {s s' : σ} {c : γ} {r : Except ε Unit} :
      Runs run ok s0 s → run c s = (r, s') → ok s c r → Runs run ok s0 s'

theorem Runs.next {run : γ → Prog ε σ Unit} {ok : σ → γ → Except ε Unit → Prop} {c : γ} (h : Runs run ok s0 s)
    (hok : ok s c (run c s).1) : Runs run ok s0 (run c s).2 :=
  .call h rfl hok

theorem Runs.invariant {run : γ → Prog ε σ Unit} {ok : σ → γ → Except ε Unit → Prop} (I : σ → Prop) (h0 : I s0)
    (step : ∀ s c r s', I s → run c s = (r, s') → ok s c r → I s') (h : Runs run ok s0 s) : I s := by
  induction h with
  | start => exact h0
  | call _ hrun hok ih => exact step _ _ _ _ ih hrun hok

end Prog
