/-!
# Calls in sequence

An operation is a chain of calls, each of which answers or fails and may change the state.
A chain is taken apart at its calls, and what every call respects the chain respects.
-/

set_option autoImplicit false

namespace Strongbox.Call

variable {ε σ α β : Type}

section Bind

variable {x : EStateM ε σ α} {f : α → EStateM ε σ β} {s s' : σ}

/-- Behind an answer a chain goes on from where that left the state. -/
theorem bind_ok {a : α} (h : x s = .ok a s') : (x >>= f) s = f a s' := by
  show EStateM.bind x f s = f a s'
  unfold EStateM.bind
  rw [h]

/-- Behind a failure a chain does nothing more. -/
theorem bind_error {e : ε} (h : x s = .error e s') : (x >>= f) s = .error e s' := by
  show EStateM.bind x f s = .error e s'
  unfold EStateM.bind
  rw [h]

/-- A chain that answers has answered at every call. -/
theorem exists_of_bind_ok {b : β} (h : (x >>= f) s = .ok b s') :
    ∃ a t, x s = .ok a t ∧ f a t = .ok b s' := by
  cases hx : x s with
  | ok a t =>
    rw [bind_ok hx] at h
    exact ⟨a, t, rfl, h⟩
  | error e t =>
    rw [bind_error hx] at h
    exact absurd h (by simp)

/-- A chain that fails has failed at its first call or behind it. -/
theorem cases_of_bind_error {e : ε} (h : (x >>= f) s = .error e s') :
    x s = .error e s' ∨ ∃ a t, x s = .ok a t ∧ f a t = .error e s' := by
  cases hx : x s with
  | ok a t =>
    rw [bind_ok hx] at h
    exact .inr ⟨a, t, rfl, h⟩
  | error e' t =>
    rw [bind_error hx] at h
    injection h with herror hstate
    exact .inl (by rw [herror, hstate])

end Bind

/-- A value does not fail. -/
theorem pure_ne_error {a : α} {s t : σ} {e : ε} :
    (Pure.pure a : EStateM ε σ α) s ≠ .error e t := by
  intro h
  have hresult : (.ok a s : EStateM.Result ε σ α) = .error e t := h
  exact absurd hresult (by simp)

/-- A failure does not answer. -/
theorem throw_ne_ok {e : ε} {s t : σ} {a : α} :
    (MonadExcept.throw e : EStateM ε σ α) s ≠ .ok a t := by
  intro h
  have hresult : (.error e s : EStateM.Result ε σ α) = .ok a t := h
  exact absurd hresult (by simp)

/-- The state that a call leaves. -/
def after (r : EStateM.Result ε σ α) : σ :=
  match r with
  | .ok _ s => s
  | .error _ s => s

/-- The answer or the failure of a call. -/
def answer (r : EStateM.Result ε σ α) : Except ε α :=
  match r with
  | .ok a _ => .ok a
  | .error e _ => .error e

/-- A call with an answer has succeeded, and left the state that it left. -/
theorem eq_ok_of_answer {r : EStateM.Result ε σ α} {a : α} (h : answer r = .ok a) :
    r = .ok a (after r) := by
  cases r with
  | ok a' s =>
    injection h with h
    rw [h]
    rfl
  | error e s => exact absurd h (by simp [answer])

/-- A call with a failure as its answer has failed. -/
theorem eq_error_of_answer {r : EStateM.Result ε σ α} {e : ε} (h : answer r = .error e) :
    r = .error e (after r) := by
  cases r with
  | ok a s => exact absurd h (by simp [answer])
  | error e' s =>
    injection h with h
    rw [h]
    rfl

/-- A chain does not answer `b` if its rest never does. -/
theorem answer_bind_ne {x : EStateM ε σ α} {f : α → EStateM ε σ β} {s : σ} {b : β}
    (h : ∀ a t, x s = .ok a t → answer (f a t) ≠ .ok b) : answer ((x >>= f) s) ≠ .ok b := by
  cases hrun : x s with
  | ok a t =>
    rw [bind_ok hrun]
    exact h a t hrun
  | error e t =>
    rw [bind_error hrun]
    simp [answer]

/-- What holds of the state after a call, and further on while a chain continues, holds
after the chain. -/
theorem after_bind {x : EStateM ε σ α} {f : α → EStateM ε σ β} {s : σ} {P : σ → Prop}
    (hx : P (after (x s))) (hf : ∀ a t, x s = .ok a t → P t → P (after (f a t))) :
    P (after ((x >>= f) s)) := by
  cases hrun : x s with
  | ok a t =>
    rw [hrun] at hx
    rw [bind_ok hrun]
    exact hf a t hrun hx
  | error e t =>
    rw [hrun] at hx
    rw [bind_error hrun]
    exact hx

/-! ## What a call respects -/

/-- Whether it answers or fails, the call leads from a state only to related ones. -/
def Respects (R : σ → σ → Prop) (x : EStateM ε σ α) : Prop := ∀ s, R s (after (x s))

namespace Respects

variable {R : σ → σ → Prop}

/-- The state behind an answer is related. -/
theorem ok {x : EStateM ε σ α} (h : Respects R x) {s t : σ} {a : α} (hrun : x s = .ok a t) :
    R s t := by
  have hafter := h s
  rw [hrun] at hafter
  exact hafter

/-- So is the state behind a failure. -/
theorem error {x : EStateM ε σ α} (h : Respects R x) {s t : σ} {e : ε}
    (hrun : x s = .error e t) : R s t := by
  have hafter := h s
  rw [hrun] at hafter
  exact hafter

/-- A value respects every reflexive relation. -/
theorem pure (hrefl : ∀ s, R s s) (a : α) : Respects R (Pure.pure a : EStateM ε σ α) :=
  fun s => hrefl s

/-- So does a failure. -/
theorem throw (hrefl : ∀ s, R s s) (e : ε) :
    Respects R (MonadExcept.throw e : EStateM ε σ α) :=
  fun s => hrefl s

/-- A chain respects a transitive relation if all its calls do. -/
theorem bind (htrans : ∀ s t u, R s t → R t u → R s u) {x : EStateM ε σ α}
    {f : α → EStateM ε σ β} (hx : Respects R x) (hf : ∀ a, Respects R (f a)) :
    Respects R (x >>= f) := by
  intro s
  refine after_bind (hx s) ?_
  intro a t _ hst
  exact htrans s t _ hst (hf a t)

/-- A chain whose rest respects the relation behind every answer of its first call. -/
theorem bind_of_ok (htrans : ∀ s t u, R s t → R t u → R s u) {x : EStateM ε σ α}
    {f : α → EStateM ε σ β} (hx : Respects R x)
    (hf : ∀ a s t, x s = .ok a t → Respects R (f a)) : Respects R (x >>= f) := by
  intro s
  refine after_bind (hx s) ?_
  intro a t hrun hst
  exact htrans s t _ hst (hf a s t hrun t)

end Respects

end Strongbox.Call
