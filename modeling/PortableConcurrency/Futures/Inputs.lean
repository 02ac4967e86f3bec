import PortableConcurrency.Futures.Registration
import Mathlib.Logic.Relation

/-!
# The inputs of a combinator nobody waits for

A continuation refers to its parent, and the parent knows it by a
`weak_ptr`; so does the callback of `unwrap`. The closures of `when_all`
and `when_any` have a `shared_ptr`. While an input is pending, the
combinator and the input therefore own each other, and the loss of the
combinator's future releases neither.
-/

namespace PortableConcurrency

namespace Futures

variable {V E F : Type*} {c c' : Config V E F} {e : Event V E F}
variable {w i n : ℕ} {f : Input} {nd nd' : Node V E F}

/-- The destructors that are due. -/
def IsDestroy (_ : Config V E F) (e : Event V E F) : Prop := ∃ s, e = .destroy s

/-- A node that `n` owns, directly or not. -/
def Behind (c : Config V E F) : ℕ → ℕ → Prop :=
  Relation.ReflTransGen fun n m => ∃ nd, c.nodes n = some nd ∧ m ∈ nd.refs

/-- **The inputs of `w` are released**: when the destructors that are due
have run, nobody waits for an input, its cancel action has run with the
destructor of its state, and no function behind it that has not started
is ever called. -/
def ReleasesInputs (c : Config V E F) (w : ℕ) : Prop :=
  ∃ c', Runs Step IsDestroy c c' ∧ ∀ nd f, c.nodes w = some nd → f ∈ nd.body.futures →
    ¬ c'.IsAwaiten false f.2 ∧ c'.nodes f.2 = none ∧
    ∀ u c₁ e c₂, Behind c f.2 u → Runs Step Unguarded c' c₁ → Step c₁ e c₂ →
      (∀ fn, e ≠ .callTask u fn) ∧ ∀ a, e ≠ .invoke u a

/-- **The cycle**: the closure in the list of the input refers to the
combinator, whose sequence refers to the input. -/
def Pinned (c : Config V E F) (w i : ℕ) (f : Input) : Prop :=
  ∃ nd, c.nodes w = some nd ∧ nd.body.futures[i]? = some f ∧
    .linked f.2 (.combine w i) ∈ c.objs

theorem Pinned.owned (h : Pinned c w i f) : Owned c w ∧ Owned c f.2 := by
  obtain ⟨nd, hn, hi, hmem⟩ := h
  exact ⟨.inl ⟨_, hmem, by simp [Obj.refs, Closure.refs]⟩,
    owned_of_futures hn (List.mem_of_getElem? hi)⟩

/-- Destructors do not break the cycle. -/
theorem Pinned.destroy (hp : Pinned c w i f) (hrun : Runs Step IsDestroy c c') :
    Pinned c' w i f := by
  refine hrun.invariant (I := fun c => Pinned c w i f) ?_ hp
  rintro c e c' hp ⟨s, rfl⟩ hst
  obtain ⟨-, -, hun, rfl⟩ := hst.destroy_inv
  obtain ⟨howned, hinput⟩ := hp.owned
  obtain ⟨nd, hn, hi, hmem⟩ := hp
  have hne : w ≠ s := by
    rintro rfl
    exact hun howned
  refine ⟨nd, by simp [hne, hn], hi, Multiset.mem_filter.mpr ⟨hmem, ?_⟩⟩
  simp only [Obj.isLinked, decide_eq_true_eq]
  rintro rfl
  exact hun hinput

/-- An input that is pinned is not released. -/
theorem Pinned.not_releases (hp : Pinned c w i f) : ¬ ReleasesInputs c w := by
  rintro ⟨c', hrun, hrel⟩
  obtain ⟨nd, hn, hi, -⟩ := id hp
  obtain ⟨hawaiten, -⟩ := hrel nd f hn (List.mem_of_getElem? hi)
  exact hawaiten (.inr (hp.destroy hrun).owned.2)

theorem Reachable.registered {ok : Config V E F → Event V E F → Prop} (h : Reachable ok c) :
    Registered c :=
  h.invariant_of (I := Wf) (J := Registered) (fun _ _ _ hi _ hst => hi.step hst)
    (fun _ _ _ hi _ hj _ hst => hj.step hi hst) wf_init registered_init

/-- Once `make` is through, every pending input is pinned. -/
theorem Registered.pinned (h : Registered c) (hn : c.nodes w = some nd)
    (hi : nd.body.futures[i]? = some f) (hdone : ∀ j, .making w j ∉ c.objs)
    (hpend : c.isExecuted f.2 = false) : Pinned c w i f := by
  rcases h w nd i f hn hi with ⟨j, -, hmem⟩ | hmem | hex
  · exact absurd hmem (hdone j)
  · exact ⟨nd, hn, hi, hmem⟩
  · rw [hpend] at hex
    cases hex

/-- **The inputs of a combinator are never released** while they are
pending, whether somebody has a future on the combinator or nobody. -/
theorem never_releases_inputs {ok : Config V E F → Event V E F → Prop} (h : Reachable ok c)
    (hn : c.nodes w = some nd) (hne : nd.body.futures ≠ [])
    (hpend : ∀ f ∈ nd.body.futures, c.isExecuted f.2 = false)
    (hdone : ∀ j, .making w j ∉ c.objs) :
    ¬ ReleasesInputs c w ∧ ∀ f ∈ nd.body.futures, ∀ c', Runs Step IsDestroy c c' →
      c'.IsAwaiten false f.2 ∧ ∃ ndf, c'.nodes f.2 = some ndf := by
  have hpinned : ∀ {i f}, nd.body.futures[i]? = some f → Pinned c w i f := fun hi =>
    h.registered.pinned hn hi hdone (hpend _ (List.mem_of_getElem? hi))
  constructor
  · obtain ⟨f, l, hl⟩ := List.exists_cons_of_ne_nil hne
    have hi : nd.body.futures[0]? = some f := by rw [hl]; rfl
    exact (hpinned hi).not_releases
  · intro f hf c' hrun
    obtain ⟨i, hi⟩ := List.mem_iff_getElem?.mp hf
    have howned := ((hpinned hi).destroy hrun).owned.2
    have hwf : Wf c' := Reachable.wf (h.unguarded.trans hrun.unguarded)
    exact ⟨.inr howned, hwf.alive f.2 howned⟩

/-- A promise whose future is given to `when_all`, and the future of that
dropped. -/
theorem drop_run : ∃ (c : Config Unit Unit Unit) (nd : Node Unit Unit Unit),
    Reachable Unguarded c ∧ c.nodes 1 = some nd ∧ nd.body = .whenAll [(true, 0)] 1 ∧
      c.isExecuted 0 = false ∧ (∀ j, .making 1 j ∉ c.objs) ∧ (∀ u, .future u 1 ∉ c.objs) ∧
      .linked 0 (.combine 1 0) ∈ c.objs := by
  have h₀ : Reachable Unguarded (init : Config Unit Unit Unit) := .refl _
  have h₁ := h₀.tail trivial (.spawn (.makePromise true) (Multiset.zero_add _).symm)
  have h₂ := h₁.tail trivial (.spawn (.whenAll [(true, 0)])
    (show _ = inputObjs [(true, 0)] + ({.handle .promise false 0} : Multiset (Obj Unit)) by decide))
  have h₃ := h₂.tail trivial (.move (.register 1 0 _ (true, 0) rfl rfl rfl)
    (show _ = _ + ({.handle .promise false 0} : Multiset (Obj Unit)) by decide))
  have h₄ := h₃.tail trivial (.touch (.finish 1 1 _ rfl)
    (show _ = _ + ({.linked 0 (.combine 1 0), .handle .promise false 0} : Multiset (Obj Unit))
      by decide) rfl)
  have h₅ := h₄.tail trivial (.move (.dropFuture true 1)
    (show _ = _ + ({.linked 0 (.combine 1 0), .handle .promise false 0} : Multiset (Obj Unit))
      by decide))
  refine ⟨_, _, h₅, rfl, rfl, rfl, fun j => ?_, by decide, by decide⟩
  simp

theorem never_releases_inputs_of_drop : ∃ (c : Config Unit Unit Unit),
    (∀ u, .future u 1 ∉ c.objs) ∧ ¬ ReleasesInputs c 1 := by
  obtain ⟨c, nd, h, hn, hb, hpend, hdone, hdrop, -⟩ := drop_run
  refine ⟨c, hdrop, (never_releases_inputs h hn (by simp [hb, Body.futures]) ?_ hdone).1⟩
  simpa [hb, Body.futures] using hpend

/-- **What a continuation releases, a combinator does not.** -/
theorem not_released : ¬ ∀ (c : Config Unit Unit Unit) (w : ℕ) (nd : Node Unit Unit Unit),
    Reachable Unguarded c → c.nodes w = some nd → nd.body.futures ≠ [] →
    (∀ f ∈ nd.body.futures, c.isExecuted f.2 = false) → (∀ j, .making w j ∉ c.objs) →
    (∀ u, .future u w ∉ c.objs) → ReleasesInputs c w := by
  intro hall
  obtain ⟨c, nd, h, hn, hb, hpend, hdone, hdrop, hlinked⟩ := drop_run
  have hpinned : Pinned c 1 0 (true, 0) := ⟨nd, hn, by simp [hb, Body.futures], hlinked⟩
  refine hpinned.not_releases (hall c 1 nd h hn (by simp [hb, Body.futures]) ?_ hdone hdrop)
  simpa [hb, Body.futures] using hpend

end Futures

end PortableConcurrency
