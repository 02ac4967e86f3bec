import Mathlib.Algebra.BigOperators.Group.Finset.Basic
import Mathlib.Algebra.Order.BigOperators.Group.Finset
import Mathlib.Logic.Function.Basic
import Mathlib.Data.Nat.Notation

/-!
# Tables

A table is a partial map from addresses, all of them below some bound. Its
total is what its entries weigh together; a step that writes one entry
changes the total by what it writes less what was there.
-/

namespace PortableConcurrency

namespace Table

variable {α : Type*} {g : ℕ → α → ℕ} {f : ℕ → Option α} {n s t : ℕ} {a b : α}

/-- What the entries below `n` weigh together. -/
def total (g : ℕ → α → ℕ) (f : ℕ → Option α) (n : ℕ) : ℕ :=
  ∑ m ∈ Finset.range n, (f m).elim 0 (g m)

theorem total_succ (g : ℕ → α → ℕ) (f : ℕ → Option α) (n : ℕ) :
    total g f (n + 1) = total g f n + (f n).elim 0 (g n) :=
  Finset.sum_range_succ _ _

/-- An entry out of bounds does not count. -/
theorem total_update_of_le (hle : n ≤ s) (x : Option α) :
    total g (Function.update f s x) n = total g f n := by
  refine Finset.sum_congr rfl fun m hm => ?_
  rw [Function.update_of_ne]
  have := Finset.mem_range.mp hm
  omega

/-- **One entry changes**, or is erased. -/
theorem total_set (hlt : s < n) (x : Option α) :
    total g (Function.update f s x) n + (f s).elim 0 (g s) = total g f n + x.elim 0 (g s) := by
  induction n with
  | zero => omega
  | succ n ih =>
    rw [total_succ, total_succ]
    by_cases hsn : s = n
    · subst hsn
      rw [total_update_of_le le_rfl, Function.update_self]
      omega
    · have := ih (by omega)
      rw [Function.update_of_ne (Ne.symm hsn)]
      omega

/-- An entry is overwritten. -/
theorem total_update (hlt : s < n) (hs : f s = some a) (b : α) :
    total g (Function.update f s (some b)) n + g s a = total g f n + g s b := by
  have hset := total_set (g := g) (f := f) hlt (some b)
  rwa [hs] at hset

/-- The next entry is written. -/
theorem total_push (g : ℕ → α → ℕ) (f : ℕ → Option α) (n : ℕ) (b : α) :
    total g (Function.update f n (some b)) (n + 1) = total g f n + g n b := by
  rw [total_succ, total_update_of_le le_rfl, Function.update_self]
  rfl

/-- An entry is erased. -/
theorem total_erase (hlt : s < n) (hs : f s = some a) :
    total g (Function.update f s none) n + g s a = total g f n := by
  have hset := total_set (g := g) (f := f) hlt none
  rwa [hs] at hset

theorem total_erase_le (g : ℕ → α → ℕ) (f : ℕ → Option α) (n s : ℕ) :
    total g (Function.update f s none) n ≤ total g f n := by
  by_cases hlt : s < n
  · have hset := total_set (g := g) (f := f) hlt none
    simp only [Option.elim_none] at hset
    omega
  · rw [total_update_of_le (by omega)]

theorem le_total (hlt : s < n) (hs : f s = some a) : g s a ≤ total g f n := by
  have h := Finset.single_le_sum (f := fun m => (f m).elim 0 (g m)) (fun _ _ => Nat.zero_le _)
    (Finset.mem_range.mpr hlt)
  simp only [hs, Option.elim_some] at h
  exact h

/-- Two entries are two. -/
theorem add_le_total (hne : s ≠ t) (hlt : s < n) (hlt' : t < n) (hs : f s = some a)
    (ht : f t = some b) : g s a + g t b ≤ total g f n := by
  have h := Finset.sum_le_sum_of_subset (f := fun m => (f m).elim 0 (g m))
    (show ({s, t} : Finset ℕ) ⊆ Finset.range n by
      intro m hm
      simp only [Finset.mem_insert, Finset.mem_singleton] at hm
      rcases hm with rfl | rfl
      · exact Finset.mem_range.mpr hlt
      · exact Finset.mem_range.mpr hlt')
  rw [Finset.sum_pair hne] at h
  simp only [hs, ht, Option.elim_some] at h
  exact h

/-- **The rule for what every entry lacks.** -/
theorem total_eq_zero (h : ∀ m a, f m = some a → g m a = 0) : total g f n = 0 := by
  refine Finset.sum_eq_zero fun m _ => ?_
  cases hm : f m with
  | none => rfl
  | some a => exact h m a hm

theorem total_mono {g' : ℕ → α → ℕ} (h : ∀ m a, f m = some a → g m a ≤ g' m a) :
    total g f n ≤ total g' f n := by
  refine Finset.sum_le_sum fun m _ => ?_
  cases hm : f m with
  | none => exact le_rfl
  | some a => exact h m a hm

end Table

end PortableConcurrency
