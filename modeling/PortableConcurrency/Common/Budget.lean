import PortableConcurrency.Common.Runs
import Mathlib.Data.Nat.Notation
import Mathlib.Tactic.ByContra
import Mathlib.Tactic.Push

/-!
# Budgets

Why a system comes to rest. Every step is paid for out of a budget: it
costs what its event costs, and some events, which are the environment's,
bring something in. No run can spend more than there was at its start and
was brought in on the way, whatever the order of its steps. A state is at
rest when no event that costs anything is possible; from every state some
run of such events leads to one.
-/

namespace PortableConcurrency

variable {σ ε : Type*} {step : σ → ε → σ → Prop} {ok : σ → ε → Prop} {I : σ → Prop}
variable {budget : σ → ℕ} {cost gain : ε → ℕ} {s t : σ} {es es' : List ε} {e : ε}

/-- What the events of a run come to. -/
def spent (cost : ε → ℕ) : List ε → ℕ
  | [] => 0
  | e :: es => cost e + spent cost es

@[simp] theorem spent_nil (cost : ε → ℕ) : spent cost [] = 0 := rfl

@[simp] theorem spent_append (cost : ε → ℕ) (es es' : List ε) :
    spent cost (es ++ es') = spent cost es + spent cost es' := by
  induction es with
  | nil => simp
  | cons e es ih =>
    simp only [List.cons_append, spent]
    omega

@[simp] theorem spent_singleton (cost : ε → ℕ) (e : ε) : spent cost [e] = cost e := rfl

/-- **What a step costs**, its budget pays. -/
def Pays (step : σ → ε → σ → Prop) (ok : σ → ε → Prop) (I : σ → Prop) (budget : σ → ℕ)
    (cost gain : ε → ℕ) : Prop :=
  ∀ s e t, I s → ok s e → step s e t → I t ∧ budget t + cost e ≤ budget s + gain e

/-- Nothing that costs anything is possible. -/
def AtRest (step : σ → ε → σ → Prop) (cost : ε → ℕ) (s : σ) : Prop :=
  ∀ e t, step s e t → cost e = 0

/-- **Runs of bounded length lead to rest**, some of them. -/
theorem exists_rest_of_length {n : ℕ} (hown : ∀ s e, 0 < cost e → ok s e)
    (hbound : ∀ es t, Trace step ok s es t → es.length ≤ n) :
    ∃ es t, Trace step ok s es t ∧ AtRest step cost t := by
  by_contra hno
  push Not at hno
  -- then there are runs of any length
  have hlong : ∀ m, ∃ es t, Trace step ok s es t ∧ es.length = m := by
    intro m
    induction m with
    | zero => exact ⟨[], s, .nil s, rfl⟩
    | succ m ih =>
      obtain ⟨es, t, hrun, hlen⟩ := ih
      have hrest := hno es t hrun
      unfold AtRest at hrest
      push Not at hrest
      obtain ⟨e, u, hst, hcost⟩ := hrest
      refine ⟨es ++ [e], u, hrun.snoc (hown t e (Nat.pos_of_ne_zero hcost)) hst, ?_⟩
      rw [List.length_append, hlen]
      rfl
  obtain ⟨es, t, hrun, hlen⟩ := hlong (n + 1)
  have := hbound es t hrun
  omega

namespace Pays

/-- **The budget rule.** -/
theorem spent_le (h : Pays step ok I budget cost gain) (hrun : Trace step ok s es t) (h0 : I s) :
    I t ∧ spent cost es + budget t ≤ budget s + spent gain es := by
  induction hrun with
  | nil => exact ⟨h0, by simp⟩
  | snoc _ hok hst ih =>
    obtain ⟨hi, hle⟩ := ih
    obtain ⟨hi', hpays⟩ := h _ _ _ hi hok hst
    refine ⟨hi', ?_⟩
    simp only [spent_append, spent_singleton]
    omega

/-- **Some run leads to rest**, if what costs something is allowed and
brings nothing in. -/
theorem exists_rest (h : Pays step ok I budget cost gain)
    (hown : ∀ s e, 0 < cost e → ok s e ∧ gain e = 0) (hi : I s) :
    ∃ es t, Trace step ok s es t ∧ (∀ e ∈ es, 0 < cost e) ∧ AtRest step cost t := by
  -- the budget gets smaller with every step
  induction hn : budget s using Nat.strongRecOn generalizing s with
  | _ n ih =>
    by_cases hrest : AtRest step cost s
    · exact ⟨[], s, .nil s, by simp, hrest⟩
    · unfold AtRest at hrest
      push Not at hrest
      obtain ⟨e, t, hst, hcost⟩ := hrest
      have hpos : 0 < cost e := Nat.pos_of_ne_zero hcost
      obtain ⟨hok, hgain⟩ := hown s e hpos
      obtain ⟨hit, hle⟩ := h s e t hi hok hst
      obtain ⟨es, u, hrun, hall, hu⟩ := ih (budget t) (by omega) hit rfl
      refine ⟨[e] ++ es, u, (Trace.snoc (.nil s) hok hst).append hrun, ?_, hu⟩
      intro e' he'
      rcases List.mem_append.mp he' with he' | he'
      · obtain rfl := List.mem_singleton.mp he'
        exact hpos
      · exact hall e' he'

end Pays

end PortableConcurrency
