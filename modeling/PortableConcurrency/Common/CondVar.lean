import PortableConcurrency.Common.Tally

/-!
# Condition variables

The threads of a monitor are a multiset of what each of them does next. A
condition variable says which of them wait on it, and what one becomes
that is woken and has to lock the mutex again. It is woken by
`notify_one`, by `notify_all`, or for no reason at all. What is done with
the mutex locked is one step, so a thread that finds its predicate false
starts to wait in the same step.
-/

namespace PortableConcurrency

variable {P : Type*}

/-- A condition variable: what those who wait on it become when woken. -/
structure CondVar (P : Type*) where
  wake : P → Option P
  /-- who has been woken does not wait -/
  awake : ∀ p q, wake p = some q → wake q = none

namespace CondVar

variable {v : CondVar P} {p q : P} {m m' : Multiset P} {f : P → Bool}

/-- Whether a thread waits. -/
def waits (v : CondVar P) (p : P) : Bool := (v.wake p).isSome

/-- `notify_all`. -/
def notifyAll (v : CondVar P) (m : Multiset P) : Multiset P := m.map fun p => (v.wake p).getD p

/-- `notify_one` wakes somebody who waits, if anybody does. -/
inductive NotifyOne (v : CondVar P) : Multiset P → Multiset P → Prop
  | nobody {m : Multiset P} (h : ∀ p ∈ m, v.wake p = none) : NotifyOne v m m
  | somebody {p q : P} {rest : Multiset P} (h : v.wake p = some q) :
      NotifyOne v (p ::ₘ rest) (q ::ₘ rest)

/-- `if (b) cv.notify_one()`. -/
inductive NotifyIf (v : CondVar P) (b : Prop) : Multiset P → Multiset P → Prop
  | yes {m m' : Multiset P} (hb : b) (h : NotifyOne v m m') : NotifyIf v b m m'
  | no {m : Multiset P} (hb : ¬ b) : NotifyIf v b m m

theorem waits_eq_false : v.waits p = false ↔ v.wake p = none := by
  simp [waits, Option.isSome_eq_false_iff]

theorem waits_of_wake (h : v.wake p = some q) : v.waits p = true ∧ v.waits q = false := by
  refine ⟨by simp [waits, h], ?_⟩
  rw [waits_eq_false]
  exact v.awake p q h

theorem mem_notifyAll : q ∈ v.notifyAll m ↔ ∃ p ∈ m, (v.wake p).getD p = q :=
  Multiset.mem_map

/-- After `notify_all` nobody waits. -/
theorem wake_notifyAll (h : q ∈ v.notifyAll m) : v.wake q = none := by
  obtain ⟨p, -, rfl⟩ := mem_notifyAll.mp h
  cases hp : v.wake p with
  | none => simpa using hp
  | some q => simpa using v.awake p q hp

/-- Who does not wait after `notify_all` was there, or was woken. -/
theorem of_mem_notifyAll (h : q ∈ v.notifyAll m) : q ∈ m ∨ ∃ p ∈ m, v.wake p = some q := by
  obtain ⟨p, hp, rfl⟩ := mem_notifyAll.mp h
  cases hw : v.wake p with
  | none => exact .inl (by simpa using hp)
  | some q => exact .inr ⟨p, hp, by simpa using hw⟩

/-- `notify_all` does not change a tally that waking does not matter to. -/
theorem tally_notifyAll (hf : ∀ p q, v.wake p = some q → f q = f p) (m : Multiset P) :
    tally f (v.notifyAll m) = tally f m := by
  refine tally_map_of _ (fun p => ?_) m
  cases hp : v.wake p with
  | none => rfl
  | some q => exact hf p q hp

theorem NotifyOne.tally (h : v.NotifyOne m m') (hf : ∀ p q, v.wake p = some q → f q = f p) :
    tally f m' = tally f m := by
  cases h with
  | nobody => rfl
  | somebody hw => rw [tally_cons, tally_cons, hf _ _ hw]

theorem NotifyIf.tally {b : Prop} (h : v.NotifyIf b m m')
    (hf : ∀ p q, v.wake p = some q → f q = f p) : PortableConcurrency.tally f m' =
      PortableConcurrency.tally f m := by
  cases h with
  | yes _ h => exact h.tally hf
  | no => rfl

/-- Who waits after `notify_one` waited before. -/
theorem NotifyOne.waited (h : v.NotifyOne m m') (hq : q ∈ m') (hw : v.waits q = true) : q ∈ m := by
  cases h with
  | nobody => exact hq
  | @somebody p q' rest hwake =>
    rcases Multiset.mem_cons.mp hq with rfl | hq
    · rw [(waits_of_wake hwake).2] at hw
      cases hw
    · exact Multiset.mem_cons_of_mem hq

/-- Who does not wait is not affected by `notify_one`. -/
theorem NotifyOne.stays (h : v.NotifyOne m m') (hp : p ∈ m) (hw : v.wake p = none) : p ∈ m' := by
  cases h with
  | nobody => exact hp
  | somebody hwake =>
    rcases Multiset.mem_cons.mp hp with rfl | hp
    · rw [hw] at hwake
      cases hwake
    · exact Multiset.mem_cons_of_mem hp

theorem NotifyIf.waited {b : Prop} (h : v.NotifyIf b m m') (hq : q ∈ m') (hw : v.waits q = true) :
    q ∈ m := by
  cases h with
  | yes _ h => exact h.waited hq hw
  | no => exact hq

theorem NotifyIf.stays {b : Prop} (h : v.NotifyIf b m m') (hp : p ∈ m) (hw : v.wake p = none) :
    p ∈ m' := by
  cases h with
  | yes _ h => exact h.stays hp hw
  | no => exact hp

/-- **Only one waits, and it is woken.** -/
theorem NotifyOne.sole (h : v.NotifyOne m m') (hone : PortableConcurrency.tally v.waits m ≤ 1) :
    ∀ q ∈ m', v.wake q = none := by
  intro q hq
  cases h with
  | nobody h => exact h q hq
  | @somebody p q' rest hw =>
    rcases Multiset.mem_cons.mp hq with rfl | hq
    · exact v.awake p q hw
    · rw [← waits_eq_false]
      refine not_of_tally_eq_zero ?_ hq
      rw [tally_cons, (waits_of_wake hw).1] at hone
      simpa using hone

/-! ## What waking costs -/

variable {g : P → ℕ} {r : P → Bool}

/-- **`notify_all`** costs one for each of those whose waking costs
something. -/
theorem weigh_notifyAll (hg : ∀ p q, v.wake p = some q → g q ≤ g p + if r p then 1 else 0)
    (m : Multiset P) : weigh g (v.notifyAll m) ≤ weigh g m + PortableConcurrency.tally r m := by
  induction m using Multiset.induction_on with
  | empty => exact Nat.zero_le _
  | cons p m ih =>
    have hp : g ((v.wake p).getD p) ≤ g p + if r p then 1 else 0 := by
      cases hw : v.wake p with
      | none => exact Nat.le_add_right _ _
      | some q => exact hg p q hw
    simp only [notifyAll, Multiset.map_cons, weigh_cons, tally_cons] at ih ⊢
    omega

/-- **`notify_one`** wakes one. -/
theorem NotifyOne.weigh (h : v.NotifyOne m m') (hg : ∀ p q, v.wake p = some q → g q ≤ g p + 1) :
    PortableConcurrency.weigh g m' ≤ PortableConcurrency.weigh g m + 1 := by
  cases h with
  | nobody => exact Nat.le_succ _
  | somebody hw =>
    have := hg _ _ hw
    simp only [weigh_cons]
    omega

theorem NotifyIf.weigh {b : Prop} (h : v.NotifyIf b m m')
    (hg : ∀ p q, v.wake p = some q → g q ≤ g p + 1) :
    PortableConcurrency.weigh g m' ≤ PortableConcurrency.weigh g m + 1 := by
  cases h with
  | yes _ h => exact h.weigh hg
  | no => exact Nat.le_succ _

/-- Somebody can always be notified. -/
theorem exists_notifyOne (v : CondVar P) (m : Multiset P) : ∃ m', v.NotifyOne m m' := by
  by_cases h : ∀ p ∈ m, v.wake p = none
  · exact ⟨m, .nobody h⟩
  · push Not at h
    obtain ⟨p, hp, hw⟩ := h
    obtain ⟨q, hq⟩ := Option.ne_none_iff_exists'.mp hw
    obtain ⟨rest, rfl⟩ := Multiset.exists_cons_of_mem hp
    exact ⟨_, .somebody hq⟩

theorem exists_notifyIf (v : CondVar P) (b : Prop) (m : Multiset P) : ∃ m', v.NotifyIf b m m' := by
  by_cases hb : b
  · obtain ⟨m', h⟩ := v.exists_notifyOne m
    exact ⟨m', .yes hb h⟩
  · exact ⟨m, .no hb⟩

end CondVar

end PortableConcurrency
