import PortableConcurrency.Common.Runs
import PortableConcurrency.Common.CondVar
import Mathlib.Data.Finset.Card

/-!
# `timed_waiter` — the model

A `timed_waiter` shares a mutex, a condition variable and a flag with its
copies and with the continuation its constructor hands to the future. Calls
of `wait_for` and `wait_until` may be in progress on each of these objects
when the continuation is called, and when their time is up. The three are
counted by a `std::shared_ptr`: the continuation may be called, or
destroyed, long after everybody has lost patience and the last object is
gone.

`future::wait_for` makes such an object, calls `wait_for` on it once and
destroys it. An object that is moved keeps its name. What is done with the
mutex locked is one step.
-/

namespace PortableConcurrency

namespace Timed

/-- `future_status`. -/
inductive Status
  | ready
  | timeout
  deriving DecidableEq, Repr

/-- Where a call of `wait_for` or `wait_until` is. -/
inductive Pc
  /-- before `std::unique_lock` -/
  | entering
  /-- in `cv.wait_for` -/
  | blocked
  /-- woken in there, before it locks again -/
  | woken
  /-- its time is up in there, before it locks again -/
  | expired
  deriving DecidableEq, Repr

/-- A call on the object `obj`. -/
structure Call where
  obj : ℕ
  pc : Pc
  deriving DecidableEq, Repr

/-- What a call that is blocked becomes when woken. -/
def Call.wake (c : Call) : Option Call :=
  match c.pc with
  | .blocked => some { c with pc := .woken }
  | _ => none

/-- `cv`. -/
def cv : CondVar Call where
  wake := Call.wake
  awake p q h := by
    obtain ⟨o, pc⟩ := p
    cases pc <;> cases h
    rfl

/-- Where the continuation is. -/
inductive Cb
  /-- the constructor has made it and not handed it over -/
  | captured
  /-- in the future's list -/
  | linked
  /-- called, before `std::lock_guard` -/
  | called
  /-- before `cv.notify_all()` -/
  | notifying
  | returned
  | destroyed
  deriving DecidableEq, Repr

/-- The future's state. -/
inductive Future
  | pending
  /-- `execute()` has closed the list -/
  | ready
  /-- destroyed without a result -/
  | gone
  deriving DecidableEq, Repr

structure State where
  future : Future
  cb : Cb
  notified : Bool
  /-- the count of the `std::shared_ptr` -/
  useCount : ℕ
  deallocated : Bool
  /-- the first object's constructor has returned -/
  constructed : Bool
  objects : Finset ℕ
  calls : Multiset Call

/-- `waiter_` is made, and copied into the continuation. -/
def init : State := ⟨.pending, .captured, false, 2, false, false, {0}, 0⟩

/-- A `std::shared_ptr` is destroyed. -/
def State.release (s : State) : State :=
  { s with
    useCount := s.useCount - 1
    deallocated := s.deallocated || s.useCount = 1 }

inductive Event
  /-- `fut.notify(…)` in the constructor -/
  | notify
  /-- the future becomes ready -/
  | complete
  /-- nobody is left who could make it ready -/
  | vanish
  /-- `execute()` calls the continuation -/
  | begin
  /-- `waiter->notified = true` -/
  | set
  | notifyAll
  /-- the continuation is destroyed -/
  | discard
  /-- `o'` is made, a copy of `o` -/
  | copy (o o' : ℕ)
  | destroy (o : ℕ)
  | call (o : ℕ)
  /-- a call finds the flag false and waits -/
  | block (o : ℕ)
  | expire (o : ℕ)
  | answer (o : ℕ) (status : Status)
  | spurious
  deriving DecidableEq, Repr

/-- **The step relation.** An object may be used when its constructor has
returned, and destroyed when no call on it is in progress. -/
inductive Step : State → Event → State → Prop
  | notify {s : State} (hcb : s.cb = .captured) (hopen : s.future = .pending) :
      Step s .notify { s with cb := .linked, constructed := true }
  /-- the list is closed: `push` calls the continuation -/
  | refuse {s : State} (hcb : s.cb = .captured) (hready : s.future = .ready) :
      Step s .notify { s with cb := .called }
  | complete {s : State} (hopen : s.future = .pending) :
      Step s .complete { s with future := .ready }
  | vanish {s : State} (hcb : s.cb = .linked) (hopen : s.future = .pending) :
      Step s .vanish { s.release with future := .gone, cb := .destroyed }
  | begin {s : State} (hcb : s.cb = .linked) (hready : s.future = .ready) :
      Step s .begin { s with cb := .called }
  | set {s : State} (hcb : s.cb = .called) :
      Step s .set { s with cb := .notifying, notified := true }
  | notifyAll {s : State} (hcb : s.cb = .notifying) :
      Step s .notifyAll { s with cb := .returned, calls := cv.notifyAll s.calls }
  | discard {s : State} (hcb : s.cb = .returned) :
      Step s .discard { s.release with cb := .destroyed, constructed := true }
  | copy {s : State} {o o' : ℕ} (hcon : s.constructed = true) (ho : o ∈ s.objects)
      (ho' : o' ∉ s.objects) :
      Step s (.copy o o') { s with
        useCount := s.useCount + 1
        objects := insert o' s.objects }
  | destroy {s : State} {o : ℕ} (hcon : s.constructed = true) (ho : o ∈ s.objects)
      (hidle : ∀ c ∈ s.calls, c.obj ≠ o) :
      Step s (.destroy o) { s.release with objects := s.objects.erase o }
  | call {s : State} {o : ℕ} (hcon : s.constructed = true) (ho : o ∈ s.objects) :
      Step s (.call o) { s with calls := ⟨o, .entering⟩ ::ₘ s.calls }
  | block {s : State} {o : ℕ} {pc : Pc} {rest : Multiset Call}
      (hc : s.calls = ⟨o, pc⟩ ::ₘ rest) (hpc : pc = .entering ∨ pc = .woken)
      (hunset : s.notified = false) :
      Step s (.block o) { s with calls := ⟨o, .blocked⟩ ::ₘ rest }
  | expire {s : State} {o : ℕ} {rest : Multiset Call} (hc : s.calls = ⟨o, .blocked⟩ ::ₘ rest) :
      Step s (.expire o) { s with calls := ⟨o, .expired⟩ ::ₘ rest }
  | answer {s : State} {o : ℕ} {pc : Pc} {rest : Multiset Call}
      (hc : s.calls = ⟨o, pc⟩ ::ₘ rest) (hpc : pc ≠ .blocked) (hset : s.notified = true) :
      Step s (.answer o .ready) { s with calls := rest }
  | giveUp {s : State} {o : ℕ} {rest : Multiset Call} (hc : s.calls = ⟨o, .expired⟩ ::ₘ rest)
      (hunset : s.notified = false) : Step s (.answer o .timeout) { s with calls := rest }
  | spurious {s : State} {c d : Call} {rest : Multiset Call} (hc : s.calls = c ::ₘ rest)
      (hw : cv.wake c = some d) : Step s .spurious { s with calls := d ::ₘ rest }

end Timed

end PortableConcurrency
