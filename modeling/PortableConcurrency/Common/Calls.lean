import Mathlib.Logic.Basic

/-!
# Calls that throw

A call that may throw is a function of the state that ends with a result
or with an exception. Nothing is rolled back: with either comes the state
there is then, as in `EStateM`.

A call has the **strong guarantee** for some exceptions if the state is
what it was whenever one of these is thrown. Calls that follow one another
do not have it because each of them has. They have it if all that comes
before the last place that throws only reads, or if nothing throws after
the first change.
-/

namespace PortableConcurrency

namespace Calls

variable {ε σ α β : Type} {p : ε → Prop} {m : EStateM ε σ α} {f : α → EStateM ε σ β}
variable {s s' : σ} {a : α} {b : β} {x : ε}

/-- **The strong guarantee**, of a call in the state `s`, for the
exceptions in `p`. -/
def Strong (p : ε → Prop) (m : EStateM ε σ α) (s : σ) : Prop :=
  ∀ x s', m s = .error x s' → p x → s' = s

/-- None of these exceptions is thrown. -/
def Quiet (p : ε → Prop) (m : EStateM ε σ α) (s : σ) : Prop :=
  ∀ x s', m s = .error x s' → ¬ p x

/-- The call changes nothing if it returns. -/
def ReadOnly (m : EStateM ε σ α) (s : σ) : Prop :=
  ∀ a s', m s = .ok a s' → s' = s

/-! ## Single calls -/

/-- `get` reads and changes nothing. -/
theorem get_apply (s : σ) : (get : EStateM ε σ σ) s = .ok s s := rfl

theorem quiet_pure (a : α) (s : σ) : Quiet p (pure a : EStateM ε σ α) s := by
  intro x s' h
  cases h

theorem quiet_modify (g : σ → σ) (s : σ) : Quiet p (modify g : EStateM ε σ Unit) s := by
  intro x s' h
  cases h

/-- Another exception than these may be thrown. -/
theorem quiet_throw (hx : ¬ p x) (s : σ) : Quiet p (throw x : EStateM ε σ α) s := by
  intro y s' h
  cases h
  exact hx

/-- What throws at once has changed nothing. -/
theorem strong_throw (x : ε) (s : σ) : Strong p (throw x : EStateM ε σ α) s := by
  intro y s' h _
  cases h
  rfl

theorem readOnly_pure (a : α) (s : σ) : ReadOnly (pure a : EStateM ε σ α) s := by
  intro b s' h
  cases h
  rfl

theorem readOnly_throw (x : ε) (s : σ) : ReadOnly (throw x : EStateM ε σ α) s := by
  intro a s' h
  cases h

/-- What throws nothing has the guarantee. -/
theorem Quiet.strong (h : Quiet p m s) : Strong p m s :=
  fun x s' hx hp => absurd hp (h x s' hx)

/-! ## One call after another -/

/-- **Where an exception comes from**: the first call, or the second one
after the first has returned. -/
theorem bind_error {s' : σ} (h : (m >>= f) s = .error x s') :
    m s = .error x s' ∨ ∃ a t, m s = .ok a t ∧ f a t = .error x s' := by
  change EStateM.bind m f s = _ at h
  unfold EStateM.bind at h
  cases hm : m s with
  | ok a t =>
    rw [hm] at h
    exact .inr ⟨a, t, rfl, h⟩
  | error y t =>
    rw [hm] at h
    cases h
    exact .inl rfl

/-- **What returns**, has returned from both calls. -/
theorem bind_ok {s' : σ} (h : (m >>= f) s = .ok b s') :
    ∃ a t, m s = .ok a t ∧ f a t = .ok b s' := by
  change EStateM.bind m f s = _ at h
  unfold EStateM.bind at h
  cases hm : m s with
  | ok a t =>
    rw [hm] at h
    exact ⟨a, t, rfl, h⟩
  | error y t =>
    rw [hm] at h
    cases h

/-- A call that returns is followed by the next one. -/
theorem bind_apply {t : σ} (h : m s = .ok a t) : (m >>= f) s = f a t := by
  change EStateM.bind m f s = _
  unfold EStateM.bind
  rw [h]

/-- A call that throws is followed by nothing. -/
theorem bind_throws {t : σ} (h : m s = .error x t) : (m >>= f) s = .error x t := by
  change EStateM.bind m f s = _
  unfold EStateM.bind
  rw [h]

/-- A handler is not entered when the body returns. -/
theorem catch_ok {g : ε → EStateM ε σ α} {t : σ} (h : m s = .ok a t) :
    (tryCatch m g : EStateM ε σ α) s = .ok a t := by
  change EStateM.tryCatch m g s = _
  unfold EStateM.tryCatch
  simp only [h]

/-- It is entered with what was thrown, where the body has left the state. -/
theorem catch_error {g : ε → EStateM ε σ α} {t : σ} (h : m s = .error x t) :
    (tryCatch m g : EStateM ε σ α) s = g x t := by
  change EStateM.tryCatch m g s = _
  unfold EStateM.tryCatch
  simp only [h]
  rfl

/-- **What only reads goes before.** -/
theorem Strong.bind (hm : Strong p m s) (hr : ReadOnly m s)
    (hf : ∀ a, m s = .ok a s → Strong p (f a) s) : Strong p (m >>= f) s := by
  intro x s' hx hp
  rcases bind_error hx with h | ⟨a, t, hok, h⟩
  · exact hm x s' h hp
  · obtain rfl : t = s := hr a t hok
    exact hf a hok x s' h hp

/-- **Nothing throws after the first change.** -/
theorem Strong.bind_quiet (hm : Strong p m s)
    (hf : ∀ a t, m s = .ok a t → Quiet p (f a) t) : Strong p (m >>= f) s := by
  intro x s' h hp
  rcases bind_error h with h | ⟨a, t, hok, h⟩
  · exact hm x s' h hp
  · exact absurd hp (hf a t hok x s' h)

/-- Calls in a row that do not throw. -/
theorem Quiet.bind (hm : Quiet p m s) (hf : ∀ a t, m s = .ok a t → Quiet p (f a) t) :
    Quiet p (m >>= f) s := by
  intro x s' h
  rcases bind_error h with h | ⟨a, t, hok, h⟩
  · exact hm x s' h
  · exact hf a t hok x s' h

/-! ## What a call keeps -/

/-- **The call keeps `P`**, whether it returns or throws. -/
def Keeps (P : σ → Prop) (m : EStateM ε σ α) : Prop :=
  ∀ s, P s → (∀ a s', m s = .ok a s' → P s') ∧ ∀ x s', m s = .error x s' → P s'

variable {P : σ → Prop}

theorem keeps_pure (a : α) : Keeps P (pure a : EStateM ε σ α) := by
  refine fun s hs => ⟨fun b s' h => ?_, fun x s' h => ?_⟩
  · cases h
    exact hs
  · cases h

theorem keeps_throw (x : ε) : Keeps P (throw x : EStateM ε σ α) := by
  refine fun s hs => ⟨fun b s' h => ?_, fun x s' h => ?_⟩
  · cases h
  · cases h
    exact hs

theorem keeps_get : Keeps P (get : EStateM ε σ σ) := by
  refine fun s hs => ⟨fun b s' h => ?_, fun x s' h => ?_⟩
  · cases h
    exact hs
  · cases h

/-- A change keeps what it preserves. -/
theorem keeps_modify {g : σ → σ} (hg : ∀ s, P s → P (g s)) :
    Keeps P (modify g : EStateM ε σ Unit) := by
  refine fun s hs => ⟨fun b s' h => ?_, fun x s' h => ?_⟩
  · cases h
    exact hg s hs
  · cases h

/-- **An invariant is kept by calls in a row** that keep it. -/
theorem Keeps.bind (hm : Keeps P m) (hf : ∀ a, Keeps P (f a)) : Keeps P (m >>= f) := by
  refine fun s hs => ⟨fun b s' h => ?_, fun x s' h => ?_⟩
  · obtain ⟨a, t, hok, h⟩ := bind_ok h
    exact (hf a t ((hm s hs).1 a t hok)).1 b s' h
  · rcases bind_error h with h | ⟨a, t, hok, h⟩
    · exact (hm s hs).2 x s' h
    · exact (hf a t ((hm s hs).1 a t hok)).2 x s' h

end Calls

end PortableConcurrency
