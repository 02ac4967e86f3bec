import PortableConcurrency.Common.Runs
import PortableConcurrency.Exceptions.Model
import PortableConcurrency.Futures.Model

/-!
# Calls of a task inside a call of it

`task_state::run` looks whether the function is there, calls it, stores
the result, and lets the continuations run; a scope guard destroys the
function when all this is over. Until then the task looks as if it had
not been called. User code runs twice in this window: in the function, and
in the continuations that are called when the result is stored.

One task is followed, in one thread: its calls that have not returned, the
innermost first, are a stack. The stored function is called at most once
exactly in the runs in which no call is made while the stack is not empty.
-/

namespace PortableConcurrency

namespace Tasks

open Futures (Storage)
open Exceptions (Thrown)

/-- Where a call of `run` is. -/
inductive Stage
  /-- in the stored function -/
  | invoked
  /-- in a continuation, or after the last of them -/
  | delivering
  deriving DecidableEq, Repr

/-- What the stored function comes to. -/
inductive Outcome (V E : Type*)
  /-- it returns a value or an invalid future, or throws -/
  | ret (r : Futures.Ret V E)
  /-- it returns a valid future -/
  | future (t : ℕ)
  /-- it returns, and the copy that stores the result throws -/
  | copyThrows (e : E)
  deriving DecidableEq, Repr

/-- What the caller sees: the function is entered, the result is stored,
or the call ends. -/
inductive Response (E : Type*)
  | entered
  | stored
  | returned
  | throws (x : Thrown E)
  deriving DecidableEq, Repr

/-- **A `task_state`**, who owns it besides the calls in progress, and
these. `invocations` counts the calls of the stored function. -/
structure Running (V E : Type*) where
  func : Bool
  storage : Storage V E
  owned : Bool
  calls : List Stage
  invocations : ℕ
  deriving DecidableEq, Repr

/-- What happens to it. -/
inductive Act (V E : Type*)
  /-- `packaged_task::operator()` -/
  | call
  /-- the stored function of the innermost call ends -/
  | finish (o : Outcome V E)
  /-- the continuations are through, or one has thrown -/
  | leave (x : Option (Thrown E))
  /-- the last owner on the future side goes -/
  | expire
  deriving DecidableEq, Repr

namespace Running

variable {V E : Type*} {s s' t : Running V E} {a : Act V E} {as : List (Act V E)}
variable {r : Response E}

/-- A `packaged_task` that has just been constructed. -/
def fresh : Running V E := ⟨true, .empty, true, [], 0⟩

/-- Whether the `weak_ptr` can be locked. A call in progress has a
`shared_ptr` of its own. -/
def Alive (s : Running V E) : Prop := s.owned = true ∨ s.calls ≠ []

instance (s : Running V E) : Decidable s.Alive :=
  inferInstanceAs (Decidable (s.owned = true ∨ s.calls ≠ []))

/-- The scope guard. -/
def clean (s : Running V E) (calls : List Stage) : Running V E :=
  { s with func := false, calls := calls }

/-- `set_state_value`, after the function has ended: `calls` are the calls
around this one. -/
def setStateValue (s : Running V E) (calls : List Stage) :
    Outcome V E → Running V E × Response E
  | .ret r =>
    match s.storage with
    | .empty => ({ s with storage := r.storage, calls := .delivering :: calls }, .stored)
    | _ => (s.clean calls, .throws .alreadySatisfied)
  -- `unwrap` stores the inner state, whatever was stored
  | .future t => ({ s with storage := .inner t, calls := .delivering :: calls }, .stored)
  | .copyThrows e =>
    match s.storage with
    | .empty => (s.clean calls, .throws (.user e))
    | _ => (s.clean calls, .throws .alreadySatisfied)

/-- **One step.** -/
def step (s : Running V E) : Act V E → Option (Running V E × Response E)
  | .call =>
    if s.Alive then
      if s.func then
        some ({ s with calls := .invoked :: s.calls, invocations := s.invocations + 1 }, .entered)
      else some (s, .throws .alreadySatisfied)
    else some (s, .returned)
  | .finish o =>
    match s.calls with
    | .invoked :: calls => some (s.setStateValue calls o)
    | _ => none
  | .leave x =>
    match s.calls with
    | .delivering :: calls => some (s.clean calls, x.elim .returned .throws)
    | _ => none
  | .expire => if s.owned then some ({ s with owned := false }, .returned) else none

/-- The steps as a relation. -/
def Step (s : Running V E) (a : Act V E) (s' : Running V E) : Prop := ∃ r, s.step a = some (s', r)

/-! ## Once -/

/-- **The function is called at most once**, it is there while it is being
called, and a further call while the state is alive throws and leaves the
result alone. -/
def Once (s : Running V E) (a : Act V E) : Prop :=
  ∀ s' r, s.step a = some (s', r) → s'.invocations ≤ 1 ∧ (.invoked ∈ s'.calls → s'.func = true) ∧
    (a = .call → 1 ≤ s.invocations → s.Alive →
      r = .throws .alreadySatisfied ∧ s'.storage = s.storage)

/-- **No call inside a call.** -/
def Plain (s : Running V E) (a : Act V E) : Prop := a = .call → s.calls = []

/-- What holds while there are no calls inside calls: the function is there
until its only call is over. -/
structure Single (s : Running V E) : Prop where
  depth : s.calls.length ≤ 1
  during : s.calls ≠ [] → s.func = true
  count : s.invocations + (if s.func = true ∧ s.calls = [] then 1 else 0) = 1

theorem single_fresh : Single (fresh : Running V E) := by
  refine ⟨?_, ?_, ?_⟩ <;> simp [fresh]

theorem clean_single (h : Single s) (hc : s.calls ≠ []) : Single (s.clean []) := by
  refine ⟨by simp [clean], by simp [clean], ?_⟩
  have := h.count
  simp only [hc, and_false, if_false] at this
  simpa [clean] using this

/-- What stands around the only call. -/
theorem Single.calls_eq {g : Stage} {calls : List Stage} (h : Single s)
    (hc : s.calls = g :: calls) : calls = [] := by
  have hlen := h.depth
  rw [hc, List.length_cons] at hlen
  exact List.eq_nil_of_length_eq_zero (by omega)

theorem Single.setStateValue (h : Single s) (hc : s.calls = [.invoked]) (o : Outcome V E) :
    Single (s.setStateValue [] o).1 := by
  have hne : s.calls ≠ [] := by simp [hc]
  have hstored : ∀ x : Storage V E, Single { s with storage := x, calls := [.delivering] } := by
    intro x
    refine ⟨by simp, fun _ => h.during hne, ?_⟩
    have := h.count
    simp only [hne, and_false, if_false] at this
    simpa using this
  cases o with
  | ret r =>
    simp only [Running.setStateValue]
    split
    · exact hstored _
    · exact clean_single h hne
  | future t => exact hstored _
  | copyThrows e =>
    simp only [Running.setStateValue]
    split <;> exact clean_single h hne

/-- **A step without a call inside a call.** -/
theorem Single.step (h : Single s) (hp : Plain s a) (hst : s.step a = some (s', r)) :
    Single s' := by
  cases a with
  | call =>
    have hnil := hp rfl
    simp only [Running.step] at hst
    split at hst
    · split at hst
      · rename_i hf
        cases hst
        have := h.count
        simp only [hf, hnil, and_self, if_true] at this
        exact ⟨by simp [hnil], fun _ => hf, by simp only [reduceCtorEq, and_false, if_false]; omega⟩
      · cases hst
        exact h
    · cases hst
      exact h
  | finish o =>
    simp only [Running.step] at hst
    split at hst
    · rename_i calls hc
      obtain rfl := h.calls_eq hc
      obtain rfl : (s.setStateValue [] o).1 = s' := by rw [Option.some.inj hst]
      exact h.setStateValue hc o
    · cases hst
  | leave x =>
    simp only [Running.step] at hst
    split at hst
    · rename_i calls hc
      obtain rfl := h.calls_eq hc
      cases hst
      exact clean_single h (by simp [hc])
    · cases hst
  | expire =>
    simp only [Running.step] at hst
    split at hst
    · cases hst
      exact ⟨h.depth, h.during, h.count⟩
    · cases hst

/-- Such a step keeps the promise. -/
theorem Single.once (h : Single s) (hp : Plain s a) : Once s a := by
  intro s' r hst
  have h' := h.step hp hst
  have hcount := h'.count
  refine ⟨by omega, fun hmem => h'.during (List.ne_nil_of_mem hmem), ?_⟩
  rintro rfl hinv halive
  have hnil := hp rfl
  have hfunc : s.func = false := by
    by_contra hf
    have hf : s.func = true := by simpa using hf
    have := h.count
    simp only [hf, hnil, and_self, if_true] at this
    omega
  simp only [Running.step, halive, hfunc, if_true, Bool.false_eq_true, if_false,
    Option.some.injEq, Prod.mk.injEq] at hst
  obtain ⟨rfl, rfl⟩ := hst
  exact ⟨rfl, rfl⟩

/-- **A call inside the first call breaks it**: the function is still
there. -/
theorem Single.not_once (h : Single s) (hc : s.calls ≠ []) : ¬ Once s .call := by
  intro honce
  have hf := h.during hc
  have hcount := h.count
  simp only [hc, and_false, if_false] at hcount
  have halive : s.Alive := .inr hc
  have hinv := (honce _ _ (by simp only [Running.step, halive, hf, if_true]; rfl)).1
  simp only at hinv
  omega

/-- **At most once.** The runs of a task in which the function is called at
most once, with all that goes with it, are those in which no call is made
inside another call. -/
theorem once_iff (as : List (Act V E)) (t : Running V E) :
    Trace Step Once fresh as t ↔ Trace Step Plain fresh as t := by
  constructor
  · intro h
    have hboth : Trace Step Plain (fresh : Running V E) as t ∧ Single t := by
      induction h with
      | nil => exact ⟨.nil _, single_fresh⟩
      | @snoc s s' es a _ hok hst ih =>
        obtain ⟨htr, hsingle⟩ := ih
        have hp : Plain s a := by
          rintro rfl
          by_contra hc
          exact hsingle.not_once hc hok
        obtain ⟨r, hr⟩ := id hst
        exact ⟨.snoc htr hp hst, hsingle.step hp hr⟩
    exact hboth.1
  · intro h
    have hboth : Trace Step Once (fresh : Running V E) as t ∧ Single t := by
      induction h with
      | nil => exact ⟨.nil _, single_fresh⟩
      | snoc _ hok hst ih =>
        obtain ⟨htr, hsingle⟩ := ih
        obtain ⟨r, hr⟩ := id hst
        exact ⟨.snoc htr (hsingle.once hok) hst, hsingle.step hok hr⟩
    exact hboth.1

/-- **The function calls its own task**, and is called again. -/
theorem not_once_of_recursion : ¬ ∀ (as : List (Act Unit Unit)) (t : Running Unit Unit),
    Trace Step Unguarded fresh as t → Trace Step Once fresh as t := by
  intro hall
  have h₀ : Trace Step Unguarded (fresh : Running Unit Unit) [] fresh := .nil _
  have h₁ := h₀.snoc (e := .call) trivial ⟨_, rfl⟩
  have h₂ := h₁.snoc (e := .call) trivial ⟨_, rfl⟩
  obtain ⟨s, h, honce, -⟩ := (hall (([] ++ [.call]) ++ [.call]) _ h₂).snoc_inv
  obtain ⟨s₀, h, -, r, hst⟩ := h.snoc_inv
  obtain rfl := h.nil_inv
  cases hst
  have hinv := (honce _ _ rfl).1
  simp [fresh] at hinv

end Running

end Tasks

end PortableConcurrency
