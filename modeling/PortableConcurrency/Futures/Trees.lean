import PortableConcurrency.Futures.Actions
import PortableConcurrency.Futures.Release

/-!
# Trees of continuations

While no combinator is made, every state is that of a promise, a task or
a continuation, and the continuations form trees with the promises and the
tasks at their roots.
-/

namespace PortableConcurrency

namespace Futures

variable {V E F : Type*} {c c' : Config V E F} {e : Event V E F}
variable {rem add rest : Multiset (Obj F)} {s t n : ℕ} {o : Obj F} {nd nd' : Node V E F}

/-- **No combinator is made**, and no task has a result before its function
returns a future. -/
def OnlyTrees (c : Config V E F) (e : Event V E F) : Prop :=
  (∀ w l, e ≠ .combine w l) ∧ FirstResult c e

/-- No state is that of a combinator. -/
def Planted (c : Config V E F) : Prop :=
  ∀ n nd, c.nodes n = some nd → nd.body.kind ≠ .combinator

/-- **What holds of all states in trees.** -/
structure Trees (c : Config V E F) : Prop extends Started c where
  live : Live c
  steady : Steady c
  planted : Planted c

theorem trees_init : Trees (init : Config V E F) := by
  refine ⟨started_init, live_init, steady_init, ?_⟩
  intro n nd hn
  simp [init] at hn

theorem Planted.not_combinator (h : Planted c) (hk : HasKind c n .combinator)
    (hn : c.nodes n = some nd) : False := h n nd hn (hk nd hn)

/-- No state is asked for its sequence. -/
theorem Planted.isCombinator (h : Planted c) (hn : c.nodes n = some nd) :
    nd.body.isCombinator = false := by
  by_contra hc
  have hc : nd.body.isCombinator = true := by simpa using hc
  exact h n nd hn (Body.isCombinator_iff.mp hc)

/-- No step makes a combinator of a state. -/
theorem Planted.step (h : Planted c) (hok : OnlyTrees c e) (hst : Step c e c') : Planted c' := by
  intro n nd' hn'
  cases hst.node hn' with
  | same hn => exact h n nd' hn
  | spawn hf hs =>
    cases hs with
    | newPromise | makePromise | newTask | attach => rintro ⟨⟩
    | whenAll l | whenAny l => exact absurd rfl (hok.1 _ l)
    | readySequence => exact absurd rfl (hok.1 _ [])
  | @settle nd _ _ _ _ _ hn _ hs =>
    rw [hs.kind]
    exact h n nd hn
  | @unwrap nd _ _ _ _ hn => exact h n nd hn
  | @touch nd _ _ _ _ hn ht =>
    rw [ht.kind]
    exact h n nd hn
  | @execute nd _ hn => exact h n nd hn

/-- **The step lemma.** -/
theorem Trees.step (h : Trees c) (hok : OnlyTrees c e) (hst : Step c e c') : Trees c' :=
  ⟨h.toStarted.step hst, h.live.step hst, h.steady.step hok.2 hst, h.planted.step hok hst⟩

end Futures

end PortableConcurrency
