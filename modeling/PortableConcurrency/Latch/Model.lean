import PortableConcurrency.Common.Runs
import PortableConcurrency.Common.CondVar

/-!
# `latch` — the model

A counter, the number of threads that wait for it to be zero, a mutex and
one condition variable, on which the destructor waits as well, for the
waiters to be gone. A step is what a thread does with the mutex locked;
`count_down` notifies after it has released the mutex, which is a step of
its own. A thread that is about to lock, or to notify, has an access to the
latch still to make.

One of the threads may be the owner, who runs the destructor: after a call
of its own has returned, or at any other moment, when the counter may not
be zero and nobody has waited. The addresses of a latch that was destroyed
are still there in the model: what nobody may do with them is what there is
to prove. There are fewer than 2 ^ 32 threads, so that counting one more does
not wrap `waiters_`.
-/

namespace PortableConcurrency

namespace Latch

/-- What a thread does next with the latch. -/
inductive Pc
  /-- `count_down(n)`, before it locks -/
  | counting (n : ℤ)
  /-- `count_down`, before its `notify_all` -/
  | notifying
  /-- `count_down_and_wait`, before it locks -/
  | arriving (owner : Bool)
  /-- `wait`, before it locks -/
  | entering (owner : Bool)
  /-- in `cv_.wait`, until `counter_ == 0` -/
  | blocked (owner : Bool)
  /-- woken in there, before it locks again -/
  | woken (owner : Bool)
  /-- the owner, whose call has returned -/
  | released
  /-- `~latch`, before it locks -/
  | destroying
  /-- in `cv_.wait`, until `waiters_ == 0` -/
  | sleeping
  | roused
  deriving DecidableEq, Repr

/-- What a thread that waits becomes when woken. -/
def Pc.wake : Pc → Option Pc
  | .blocked owner => some (.woken owner)
  | .sleeping => some .roused
  | _ => none

/-- `cv_`. -/
def cv : CondVar Pc where
  wake := Pc.wake
  awake p q h := by cases p <;> cases h <;> rfl

structure State where
  counter : ℤ
  waiters : ℕ
  destroyed : Bool
  threads : Multiset Pc

/-- `latch(count)`. -/
def init (count : ℤ) : State := ⟨count, 0, false, 0⟩

/-- `--waiters_`, of an `unsigned`. -/
def decr (waiters : ℕ) : ℕ := if waiters = 0 then 4294967295 else waiters - 1

/-- What is left of a thread whose call has returned. -/
def returned (owner : Bool) : Multiset Pc := if owner then {.released} else 0

/-- The calls. -/
def Pc.isCall : Pc → Bool
  | .counting _ => true
  | .arriving _ => true
  | .entering _ => true
  | _ => false

inductive Event
  | call (p : Pc)
  | countDown (n : ℤ)
  /-- `notify_all` of `count_down` -/
  | notifyAll
  /-- `count_down_and_wait` up to its `cv_.wait`, or to its end -/
  | arrive (owner blocks : Bool)
  /-- `wait` up to its `cv_.wait`, or to its end -/
  | enter (owner blocks : Bool)
  /-- a thread that was woken looks at the counter -/
  | recheck (owner blocks : Bool)
  | spurious
  /-- `~latch` begins, after a wait of the same thread or not -/
  | destroy (waited : Bool)
  | sleep
  /-- the end of `~latch` -/
  | destroyed
  deriving DecidableEq, Repr

/-- **The step relation.** A call whose `assert` fails does not go on. -/
inductive Step : State → Event → State → Prop
  | call {s : State} {p : Pc} (hp : p.isCall = true) :
      Step s (.call p) { s with threads := p ::ₘ s.threads }
  | countDown {s : State} {n : ℤ} {rest : Multiset Pc} (ht : s.threads = .counting n ::ₘ rest)
      (hn : s.counter ≥ n) (h0 : n ≥ 0) (hpos : s.counter - n > 0) :
      Step s (.countDown n) { s with counter := s.counter - n, threads := rest }
  | countDownLast {s : State} {n : ℤ} {rest : Multiset Pc}
      (ht : s.threads = .counting n ::ₘ rest) (hn : s.counter ≥ n) (h0 : n ≥ 0)
      (hlast : ¬ s.counter - n > 0) :
      Step s (.countDown n) { s with
        counter := s.counter - n
        threads := .notifying ::ₘ rest }
  | notifyAll {s : State} {rest : Multiset Pc} (ht : s.threads = .notifying ::ₘ rest) :
      Step s .notifyAll { s with threads := cv.notifyAll rest }
  /-- `++waiters_`, and `--waiters_` when it is the last to arrive -/
  | arriveLast {s : State} {owner : Bool} {rest : Multiset Pc}
      (ht : s.threads = .arriving owner ::ₘ rest) (hpos : s.counter > 0)
      (hlast : s.counter - 1 = 0) :
      Step s (.arrive owner false) { s with
        counter := s.counter - 1
        waiters := decr (s.waiters + 1)
        threads := returned owner + cv.notifyAll rest }
  | arrive {s : State} {owner : Bool} {rest : Multiset Pc}
      (ht : s.threads = .arriving owner ::ₘ rest) (hpos : s.counter > 0)
      (hmore : s.counter - 1 ≠ 0) :
      Step s (.arrive owner true) { s with
        counter := s.counter - 1
        waiters := s.waiters + 1
        threads := .blocked owner ::ₘ rest }
  | enter {s : State} {owner : Bool} {rest : Multiset Pc}
      (ht : s.threads = .entering owner ::ₘ rest) (hpend : s.counter ≠ 0) :
      Step s (.enter owner true) { s with
        waiters := s.waiters + 1
        threads := .blocked owner ::ₘ rest }
  | enterReady {s : State} {owner : Bool} {rest rest' : Multiset Pc}
      (ht : s.threads = .entering owner ::ₘ rest) (hready : s.counter = 0)
      (hnotify : cv.NotifyIf (decr (s.waiters + 1) = 0) rest rest') :
      Step s (.enter owner false) { s with
        waiters := decr (s.waiters + 1)
        threads := returned owner + rest' }
  | block {s : State} {owner : Bool} {rest : Multiset Pc}
      (ht : s.threads = .woken owner ::ₘ rest) (hpend : s.counter ≠ 0) :
      Step s (.recheck owner true) { s with threads := .blocked owner ::ₘ rest }
  | leave {s : State} {owner : Bool} {rest rest' : Multiset Pc}
      (ht : s.threads = .woken owner ::ₘ rest) (hready : s.counter = 0)
      (hnotify : cv.NotifyIf (decr s.waiters = 0) rest rest') :
      Step s (.recheck owner false) { s with
        waiters := decr s.waiters
        threads := returned owner + rest' }
  | spurious {s : State} {p q : Pc} {rest : Multiset Pc} (ht : s.threads = p ::ₘ rest)
      (hw : cv.wake p = some q) : Step s .spurious { s with threads := q ::ₘ rest }
  | destroy {s : State} {rest : Multiset Pc} (ht : s.threads = .released ::ₘ rest) :
      Step s (.destroy true) { s with threads := .destroying ::ₘ rest }
  | destroyEarly {s : State} (hlive : s.destroyed = false) :
      Step s (.destroy false) { s with threads := .destroying ::ₘ s.threads }
  | sleep {s : State} {p : Pc} {rest : Multiset Pc} (ht : s.threads = p ::ₘ rest)
      (hp : p = .destroying ∨ p = .roused) (hpend : s.waiters ≠ 0) :
      Step s .sleep { s with threads := .sleeping ::ₘ rest }
  | destroyed {s : State} {p : Pc} {rest : Multiset Pc} (ht : s.threads = p ::ₘ rest)
      (hp : p = .destroying ∨ p = .roused) (hgone : s.waiters = 0) :
      Step s .destroyed { s with destroyed := true, threads := rest }

end Latch

end PortableConcurrency
