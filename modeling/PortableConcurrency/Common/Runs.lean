import Mathlib.Logic.Relation

/-!
# Runs of a labelled transition relation

A transition system is a relation `step s e t`: from state `s` the event
`e` leads to `t`. A run is a finite sequence of such steps, each of which
satisfies a guard `ok`, the assumption the environment is held to at that
step. The rules here are the two inductions every development of this
kind needs: what each step preserves holds along every run, and what one
step cannot undo is never undone. Where a property speaks of the past, a
run is taken together with its events.
-/

namespace PortableConcurrency

variable {σ ε : Type*}

/-- **A guarded run.** Every step's source and event satisfy `ok`. -/
inductive Runs (step : σ → ε → σ → Prop) (ok : σ → ε → Prop) : σ → σ → Prop
  | refl (s : σ) : Runs step ok s s
  | tail {s t u : σ} {e : ε} : Runs step ok s t → ok t e → step t e u → Runs step ok s u

/-- The guard that asks for nothing. -/
def Unguarded : σ → ε → Prop := fun _ _ => True

namespace Runs

variable {step : σ → ε → σ → Prop} {ok ok' : σ → ε → Prop} {s t u : σ} {e : ε}

theorem single (hok : ok s e) (h : step s e t) : Runs step ok s t :=
  .tail (.refl s) hok h

/-- The run that starts where another one ends. -/
theorem last (_ : Runs step ok s t) : Runs step ok t t := .refl t

/-- A step from where a run ends. -/
theorem next (_ : Runs step ok s t) (h : step t e u) : step t e u := h

theorem trans (h₁ : Runs step ok s t) (h₂ : Runs step ok t u) : Runs step ok s u := by
  induction h₂ with
  | refl => exact h₁
  | tail _ hok hst ih => exact .tail ih hok hst

/-- A run under a guard is a run under any weaker one. -/
theorem mono (hweak : ∀ s e, ok s e → ok' s e) (h : Runs step ok s t) :
    Runs step ok' s t := by
  induction h with
  | refl => exact .refl _
  | tail _ hok hst ih => exact .tail ih (hweak _ _ hok) hst

theorem unguarded (h : Runs step ok s t) : Runs step Unguarded s t :=
  h.mono fun _ _ _ => trivial

/-- **The invariant rule.** -/
theorem invariant {I : σ → Prop} (hstep : ∀ s e t, I s → ok s e → step s e t → I t)
    (h : Runs step ok s t) (h0 : I s) : I t := by
  induction h with
  | refl => exact h0
  | tail _ hok hst ih => exact hstep _ _ _ ih hok hst

/-- **The invariant rule, on top of a known invariant.** The step lemma
for `J` may use `I` before and after the step. -/
theorem invariant_of {I J : σ → Prop} (hI : ∀ s e t, I s → ok s e → step s e t → I t)
    (hstep : ∀ s e t, I s → I t → J s → ok s e → step s e t → J t)
    (h : Runs step ok s t) (hI0 : I s) (hJ0 : J s) : J t := by
  have hboth : I t ∧ J t := by
    refine h.invariant (I := fun s => I s ∧ J s) ?_ ⟨hI0, hJ0⟩
    rintro s e t ⟨hi, hj⟩ hok hst
    have hi' := hI _ _ _ hi hok hst
    exact ⟨hi', hstep _ _ _ hi hi' hj hok hst⟩
  exact hboth.2

/-- **The stability rule.** A property of two ends of a run, reflexive
and extended by every step, holds of the ends of every run. -/
theorem stable {I : σ → Prop} {R : σ → σ → Prop}
    (hI : ∀ s e t, I s → ok s e → step s e t → I t) (hrefl : ∀ s, I s → R s s)
    (hstep : ∀ s t e u, I s → I t → R s t → ok t e → step t e u → R s u)
    (h : Runs step ok s t) (h0 : I s) : R s t := by
  have hboth : I t ∧ R s t := by
    induction h with
    | refl => exact ⟨h0, hrefl _ h0⟩
    | tail _ hok hst ih => exact ⟨hI _ _ _ ih.1 hok hst, hstep _ _ _ _ h0 ih.1 ih.2 hok hst⟩
  exact hboth.2

end Runs

/-! ## Runs with their events -/

/-- **A guarded run and its events**, the oldest first. -/
inductive Trace (step : σ → ε → σ → Prop) (ok : σ → ε → Prop) : σ → List ε → σ → Prop
  | nil (s : σ) : Trace step ok s [] s
  | snoc {s t u : σ} {es : List ε} {e : ε} : Trace step ok s es t → ok t e → step t e u →
      Trace step ok s (es ++ [e]) u

namespace Trace

variable {step : σ → ε → σ → Prop} {ok : σ → ε → Prop} {s t u : σ} {es es' : List ε} {e : ε}

theorem runs (h : Trace step ok s es t) : Runs step ok s t := by
  induction h with
  | nil => exact .refl _
  | snoc _ hok hst ih => exact .tail ih hok hst

/-- The run that starts where another one ends. -/
theorem last (_ : Trace step ok s es t) : Trace step ok t [] t := .nil t

/-- A run under a guard is a run under any weaker one. -/
theorem mono {ok' : σ → ε → Prop} (hweak : ∀ s e, ok s e → ok' s e) (h : Trace step ok s es t) :
    Trace step ok' s es t := by
  induction h with
  | nil => exact .nil _
  | snoc _ hok hst ih => exact .snoc ih (hweak _ _ hok) hst

theorem append (h₁ : Trace step ok s es t) (h₂ : Trace step ok t es' u) :
    Trace step ok s (es ++ es') u := by
  induction h₂ with
  | nil => rwa [List.append_nil]
  | snoc _ hok hst ih =>
    rw [← List.append_assoc]
    exact .snoc ih hok hst

theorem nil_inv (h : Trace step ok s [] u) : u = s := by
  generalize hes : ([] : List ε) = es at h
  cases h with
  | nil => rfl
  | snoc => simp at hes

/-- The last step of a run. -/
theorem snoc_inv (h : Trace step ok s (es ++ [e]) u) :
    ∃ t, Trace step ok s es t ∧ ok t e ∧ step t e u := by
  generalize hes : es ++ [e] = es' at h
  cases h with
  | nil => simp at hes
  | snoc h hok hst =>
    obtain ⟨rfl, rfl⟩ := List.append_inj' hes rfl |>.imp_right List.singleton_inj.mp
    exact ⟨_, h, hok, hst⟩

/-- A run in two parts. -/
theorem append_inv (h : Trace step ok s (es ++ es') u) :
    ∃ t, Trace step ok s es t ∧ Trace step ok t es' u := by
  generalize hes : es ++ es' = all at h
  induction h generalizing es' with
  | nil =>
    obtain ⟨rfl, rfl⟩ := List.append_eq_nil_iff.mp hes
    exact ⟨s, .nil s, .nil s⟩
  | snoc h hok hst ih =>
    rcases List.eq_nil_or_concat es' with rfl | ⟨init, e, rfl⟩
    · rw [List.append_nil] at hes
      exact ⟨_, hes ▸ h.snoc hok hst, .nil _⟩
    · rw [List.concat_eq_append, ← List.append_assoc] at hes
      obtain ⟨rfl, hlast⟩ := List.append_inj' hes rfl
      obtain rfl := List.singleton_inj.mp hlast
      obtain ⟨t, h₁, h₂⟩ := ih rfl
      rw [List.concat_eq_append]
      exact ⟨t, h₁, h₂.snoc hok hst⟩

/-- The first step of a run. -/
theorem cons_inv (h : Trace step ok s (e :: es) u) :
    ∃ t, ok s e ∧ step s e t ∧ Trace step ok t es u := by
  have hcons : e :: es = [e] ++ es := rfl
  rw [hcons] at h
  obtain ⟨t, h₁, h₂⟩ := h.append_inv
  have hone : [e] = [] ++ [e] := rfl
  rw [hone] at h₁
  obtain ⟨s', h₀, hok, hst⟩ := h₁.snoc_inv
  obtain rfl := h₀.nil_inv
  exact ⟨t, hok, hst, h₂⟩

/-- A run through one of its events. -/
theorem split (h : Trace step ok s es u) (hmem : e ∈ es) : ∃ es₁ es₂ t t', es = es₁ ++ e :: es₂ ∧
    Trace step ok s es₁ t ∧ ok t e ∧ step t e t' ∧ Trace step ok t' es₂ u := by
  induction h with
  | nil => cases hmem
  | @snoc t u es e' hes hok hst ih =>
    rcases List.mem_append.mp hmem with hmem | hmem
    · obtain ⟨es₁, es₂, t₁, t₂, rfl, h₁, hok₁, hst₁, h₂⟩ := ih hmem
      exact ⟨es₁, es₂ ++ [e'], t₁, t₂, by simp, h₁, hok₁, hst₁, .snoc h₂ hok hst⟩
    · obtain rfl := List.mem_singleton.mp hmem
      exact ⟨es, [], t, u, rfl, hes, hok, hst, .nil u⟩

/-- **Steps that do nothing** can be left out of a run. -/
theorem erase {drop : ε → Bool} (hskip : ∀ s e t, ok s e → step s e t → drop e = true → t = s)
    (h : Trace step ok s es t) : Trace step ok s (es.filter fun e => !drop e) t := by
  induction h with
  | nil => exact .nil _
  | @snoc t u es e _ hok hst ih =>
    rw [List.filter_append]
    cases hd : drop e with
    | true =>
      obtain rfl := hskip t e u hok hst hd
      simpa [hd] using ih
    | false => simpa [hd] using ih.snoc hok hst

/-- **The invariant rule, with the past.** -/
theorem invariant {I : List ε → σ → Prop}
    (hstep : ∀ es s e t, I es s → ok s e → step s e t → I (es ++ [e]) t)
    (h : Trace step ok s es t) (h0 : I [] s) : I es t := by
  induction h with
  | nil => exact h0
  | snoc _ hok hst ih => exact hstep _ _ _ _ ih hok hst

end Trace

end PortableConcurrency
