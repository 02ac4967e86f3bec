import Mathlib.Algebra.BigOperators.Group.Multiset.Basic
import Mathlib.Data.Multiset.Filter
import Mathlib.Data.Multiset.MapFold
import Mathlib.Data.Nat.Notation

/-!
# Tallies

How many elements of a multiset pass a test, and what they weigh
together. Invariants that say how many tokens of some kind there are
compare the multiset before a step with that after it; `simp` computes
both.
-/

namespace PortableConcurrency

variable {α β : Type*} {p q : α → Bool} {a b : α} {m m' : Multiset α}

/-- How many elements of `m` pass the test `p`. -/
def tally (p : α → Bool) (m : Multiset α) : ℕ := m.countP fun a => p a = true

@[simp] theorem tally_zero : tally p 0 = 0 := rfl

@[simp] theorem tally_add (p : α → Bool) (m m' : Multiset α) :
    tally p (m + m') = tally p m + tally p m' :=
  Multiset.countP_add _ _ _

@[simp] theorem tally_cons (p : α → Bool) (a : α) (m : Multiset α) :
    tally p (a ::ₘ m) = tally p m + if p a then 1 else 0 :=
  Multiset.countP_cons _ _ _

@[simp] theorem tally_singleton (p : α → Bool) (a : α) :
    tally p {a} = if p a then 1 else 0 := by
  rw [← Multiset.cons_zero, tally_cons, tally_zero, Nat.zero_add]

/-- One is enough. -/
theorem tally_pos (hmem : a ∈ m) (ha : p a = true) : 0 < tally p m :=
  Multiset.countP_pos.mpr ⟨a, hmem, ha⟩

/-- A positive number has a witness. -/
theorem exists_of_tally_pos (h : 0 < tally p m) : ∃ a ∈ m, p a = true :=
  Multiset.countP_pos.mp h

/-- None of them, none counted. -/
theorem tally_eq_zero (h : ∀ a ∈ m, p a = false) : tally p m = 0 :=
  Multiset.countP_eq_zero.mpr fun a ha => by simp [h a ha]

/-- And the other way round. -/
theorem not_of_tally_eq_zero (h : tally p m = 0) (hmem : a ∈ m) : p a = false := by
  by_contra hne
  have := tally_pos hmem (p := p) (by simpa using hne)
  omega

/-- Counting after a map. -/
theorem tally_map (p : β → Bool) (f : α → β) (m : Multiset α) :
    tally p (m.map f) = tally (fun a => p (f a)) m := by
  rw [tally, Multiset.countP_map, tally, Multiset.countP_eq_card_filter]

/-- Renaming the elements does not change a tally the names do not matter
to. -/
theorem tally_map_of (f : α → α) (hf : ∀ a, p (f a) = p a) (m : Multiset α) :
    tally p (m.map f) = tally p m := by
  rw [tally_map]
  simp only [hf]

/-- There are no more after a filter. -/
theorem tally_filter_le (r : α → Prop) [DecidablePred r] (p : α → Bool) (m : Multiset α) :
    tally p (m.filter r) ≤ tally p m :=
  Multiset.countP_le_of_le _ (Multiset.filter_le _ _)

/-- A filter that drops nothing that counts. -/
theorem tally_filter_of (r : α → Prop) [DecidablePred r] (h : ∀ a ∈ m, p a = true → r a) :
    tally p (m.filter r) = tally p m := by
  rw [tally, Multiset.countP_filter, tally]
  refine Multiset.countP_congr rfl fun a ha => propext ?_
  constructor
  · exact fun hp => hp.1
  · exact fun hp => ⟨hp, h a ha hp⟩

/-- What is of one of two kinds is counted as one or as the other. -/
theorem tally_le_add {r : α → Bool} (h : ∀ a, p a = true → q a = true ∨ r a = true)
    (m : Multiset α) : tally p m ≤ tally q m + tally r m := by
  induction m using Multiset.induction_on with
  | empty => simp
  | cons a m ih =>
    simp only [tally_cons]
    by_cases hp : p a = true
    · rcases h a hp with hq | hr
      · simp only [hp, hq, if_true]
        omega
      · simp only [hp, hr, if_true]
        omega
    · simp only [hp]
      simp
      omega

/-- A weaker predicate counts more. -/
theorem tally_mono (h : ∀ a, p a = true → q a = true) (m : Multiset α) : tally p m ≤ tally q m := by
  have hle := tally_le_add (r := fun _ => false) (fun a ha => .inl (h a ha)) m
  rwa [tally_eq_zero (p := fun _ => false) fun _ _ => rfl, Nat.add_zero] at hle

/-! ## Weights -/

variable {f : α → ℕ}

/-- What the elements of `m` weigh together. -/
def weigh (f : α → ℕ) (m : Multiset α) : ℕ := (m.map f).sum

@[simp] theorem weigh_zero : weigh f 0 = 0 := rfl

@[simp] theorem weigh_add (f : α → ℕ) (m m' : Multiset α) :
    weigh f (m + m') = weigh f m + weigh f m' := by
  simp [weigh]

@[simp] theorem weigh_cons (f : α → ℕ) (a : α) (m : Multiset α) :
    weigh f (a ::ₘ m) = f a + weigh f m := by
  simp [weigh]

@[simp] theorem weigh_singleton (f : α → ℕ) (a : α) : weigh f {a} = f a := by
  simp [weigh]

/-- Each weighs at most what all weigh. -/
theorem le_weigh (f : α → ℕ) (hmem : a ∈ m) : f a ≤ weigh f m := by
  obtain ⟨m', rfl⟩ := Multiset.exists_cons_of_mem hmem
  simp

/-- What weighs nothing one by one weighs nothing together. -/
theorem weigh_eq_zero (h : ∀ a ∈ m, f a = 0) : weigh f m = 0 := by
  induction m using Multiset.induction_on with
  | empty => rfl
  | cons a m ih =>
    rw [weigh_cons, h a (Multiset.mem_cons_self a m),
      ih fun b hb => h b (Multiset.mem_cons_of_mem hb)]

/-- Heavier ones weigh more. -/
theorem weigh_le_of_mem {g : α → ℕ} (h : ∀ a ∈ m, f a ≤ g a) : weigh f m ≤ weigh g m := by
  induction m using Multiset.induction_on with
  | empty => exact le_rfl
  | cons a m ih =>
    have ha := h a (Multiset.mem_cons_self a m)
    have hm := ih fun b hb => h b (Multiset.mem_cons_of_mem hb)
    simp only [weigh_cons]
    omega

theorem weigh_mono {g : α → ℕ} (h : ∀ a, f a ≤ g a) (m : Multiset α) :
    weigh f m ≤ weigh g m :=
  weigh_le_of_mem fun a _ => h a

/-- **A bound for each gives a bound for all.** -/
theorem weigh_le_card {n : ℕ} (h : ∀ a, f a ≤ n) (m : Multiset α) : weigh f m ≤ n * m.card := by
  induction m using Multiset.induction_on with
  | empty => exact le_rfl
  | cons a m ih =>
    have ha := h a
    rw [weigh_cons, Multiset.card_cons, Nat.mul_succ]
    omega

/-- A map that leaves the weights leaves their sum. -/
theorem weigh_map_of (g : α → α) (hg : ∀ a, f (g a) = f a) (m : Multiset α) :
    weigh f (m.map g) = weigh f m := by
  simp [weigh, hg]

/-- What is left weighs no more. -/
theorem weigh_filter_le (r : α → Prop) [DecidablePred r] (f : α → ℕ) (m : Multiset α) :
    weigh f (m.filter r) ≤ weigh f m := by
  have hsplit := congrArg (weigh f) (Multiset.filter_add_not r m)
  rw [weigh_add] at hsplit
  omega

/-- A filter that drops nothing that weighs. -/
theorem weigh_filter_of (r : α → Prop) [DecidablePred r] (h : ∀ a ∈ m, f a ≠ 0 → r a) :
    weigh f (m.filter r) = weigh f m := by
  induction m using Multiset.induction_on with
  | empty => rfl
  | cons a m ih =>
    have hm := ih fun b hb => h b (Multiset.mem_cons_of_mem hb)
    by_cases hr : r a
    · rw [Multiset.filter_cons_of_pos _ hr, weigh_cons, weigh_cons, hm]
    · have ha : f a = 0 := by
        by_contra hne
        exact hr (h a (Multiset.mem_cons_self a m) hne)
      rw [Multiset.filter_cons_of_neg _ hr, weigh_cons, hm, ha, Nat.zero_add]

end PortableConcurrency
