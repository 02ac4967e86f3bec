import PortableConcurrency.Common.Runs
import PortableConcurrency.Common.Table

/-!
# `detail::wait` — the model

A thread that waits for a future state has a mutex, a condition variable
and a flag on its own stack, and pushes a continuation that refers to
them. Whoever makes the state ready calls that continuation, or the thread
does so itself when its push is refused. Here the mutex is locked and
unlocked in steps of its own: what there is to prove is also that nobody
comes back to it when the thread has returned and its stack is gone.

Pushing to the list of continuations and taking all of it are one step
each. The other continuations in the list return.
-/

namespace PortableConcurrency

namespace Waiting

/-- Where a thread in `wait` is. -/
inductive Pc
  /-- before `state.push` -/
  | pushing
  /-- in `push`, which was refused and calls the continuation -/
  | calling
  /-- before `std::unique_lock` -/
  | locking
  /-- before it looks at `ready`, with the mutex locked -/
  | testing
  /-- in `cv.wait` -/
  | blocked
  /-- woken in there, before it locks again -/
  | woken
  /-- `cv.wait` has returned, before it unlocks -/
  | unlocking
  /-- before `ready`, `cv` and `mtx` are destroyed -/
  | leaving
  | returned
  deriving DecidableEq, Repr

/-- Where its continuation is. -/
inductive Cb
  | absent
  /-- in the list, or taken from it and not called yet -/
  | linked
  /-- before `std::lock_guard` -/
  | locking
  /-- before `ready = true` -/
  | setting
  /-- before `cv.notify_one()` -/
  | notifying
  | unlocking
  /-- about to return -/
  | returning
  | done
  deriving DecidableEq, Repr

/-- Who holds the mutex. -/
inductive Holder
  | nobody
  | thread
  | callback
  deriving DecidableEq, Repr

/-- A call of `wait`. -/
structure Waiter where
  pc : Pc
  cb : Cb
  mtx : Holder
  ready : Bool
  deriving DecidableEq, Repr

/-- What is done with `mtx`, `cv` and `ready`. -/
inductive Act
  | lock
  /-- the predicate of `cv.wait` is called, and the mutex unlocked if it is
  false -/
  | test
  | wake
  | unlock
  /-- the end of `wait` -/
  | leave
  | lockGuard
  | setReady
  | notifyOne
  | unlockGuard
  deriving DecidableEq, Repr

/-- **The steps of a thread and of its continuation.** -/
def Waiter.act (w : Waiter) : Act → Option Waiter
  | .lock =>
    if (w.pc = .locking ∨ w.pc = .woken) ∧ w.mtx = .nobody then
      some { w with pc := .testing, mtx := .thread }
    else none
  | .test =>
    if w.pc = .testing then
      if w.ready then some { w with pc := .unlocking }
      else some { w with pc := .blocked, mtx := .nobody }
    else none
  -- a spurious wakeup
  | .wake => if w.pc = .blocked then some { w with pc := .woken } else none
  | .unlock => if w.pc = .unlocking then some { w with pc := .leaving, mtx := .nobody } else none
  | .leave => if w.pc = .leaving then some { w with pc := .returned } else none
  | .lockGuard =>
    if w.cb = .locking ∧ w.mtx = .nobody then some { w with cb := .setting, mtx := .callback }
    else none
  | .setReady => if w.cb = .setting then some { w with cb := .notifying, ready := true } else none
  | .notifyOne =>
    if w.cb = .notifying then
      some { w with cb := .unlocking, pc := if w.pc = .blocked then .woken else w.pc }
    else none
  | .unlockGuard =>
    if w.cb = .unlocking then some { w with cb := .returning, mtx := .nobody } else none

/-- What is in the list. -/
inductive Item
  /-- the continuation of the `i`th call of `wait` -/
  | waiter (i : ℕ)
  | other
  deriving DecidableEq, Repr

/-- Where the thread is that makes the state ready. -/
inductive Exec
  | idle
  /-- the result is stored, `consume` comes next -/
  | stored
  /-- in the loop over what was taken -/
  | loop (items : List Item)
  | done
  deriving DecidableEq, Repr

structure State where
  list : List Item
  exec : Exec
  waiters : ℕ → Option Waiter
  fresh : ℕ

def init : State := ⟨[], .idle, fun _ => none, 0⟩

/-- `is_ready()`. -/
def State.isReady (s : State) : Bool :=
  match s.exec with
  | .loop _ => true
  | .done => true
  | _ => false

def State.stored (s : State) : Bool := s.exec ≠ .idle

/-- A call of `wait` that begins. -/
def Waiter.start : Waiter := ⟨.pushing, .absent, .nobody, false⟩

def State.set (s : State) (i : ℕ) (w : Waiter) : State :=
  { s with waiters := Function.update s.waiters i (some w) }

inductive Event
  | call
  /-- the continuation of `i` is pushed -/
  | push (i : ℕ)
  /-- it is refused, and `push` calls it -/
  | refuse (i : ℕ)
  /-- another continuation is pushed -/
  | notify
  | store
  | consume
  /-- the loop calls the continuation of `i` -/
  | begin (i : ℕ)
  /-- which returns to the loop, or to the `push` that called it -/
  | finish (i : ℕ)
  /-- the loop calls another continuation, which returns -/
  | skip
  /-- `execute` returns -/
  | exit
  | act (i : ℕ) (a : Act)
  deriving DecidableEq, Repr

/-- **The step relation.** -/
inductive Step : State → Event → State → Prop
  | call {s : State} :
      Step s .call { s with
        waiters := Function.update s.waiters s.fresh (some .start)
        fresh := s.fresh + 1 }
  | push {s : State} {i : ℕ} {w : Waiter} (hw : s.waiters i = some w) (hpc : w.pc = .pushing)
      (hopen : s.isReady = false) :
      Step s (.push i) { s.set i { w with pc := .locking, cb := .linked } with
        list := .waiter i :: s.list }
  | refuse {s : State} {i : ℕ} {w : Waiter} (hw : s.waiters i = some w) (hpc : w.pc = .pushing)
      (hready : s.isReady = true) :
      Step s (.refuse i) (s.set i { w with pc := .calling, cb := .locking })
  | notify {s : State} (hopen : s.isReady = false) :
      Step s .notify { s with list := .other :: s.list }
  | store {s : State} (hidle : s.exec = .idle) : Step s .store { s with exec := .stored }
  | consume {s : State} (hexec : s.exec = .stored) :
      Step s .consume { s with list := [], exec := .loop s.list }
  | begin {s : State} {i : ℕ} {w : Waiter} {items : List Item}
      (hexec : s.exec = .loop (.waiter i :: items)) (hw : s.waiters i = some w)
      (hcb : w.cb = .linked) : Step s (.begin i) (s.set i { w with cb := .locking })
  | finish {s : State} {i : ℕ} {w : Waiter} {items : List Item}
      (hexec : s.exec = .loop (.waiter i :: items)) (hw : s.waiters i = some w)
      (hcb : w.cb = .returning) :
      Step s (.finish i) { s.set i { w with cb := .done } with exec := .loop items }
  | resume {s : State} {i : ℕ} {w : Waiter} (hw : s.waiters i = some w) (hpc : w.pc = .calling)
      (hcb : w.cb = .returning) :
      Step s (.finish i) (s.set i { w with pc := .locking, cb := .done })
  | skip {s : State} {items : List Item} (hexec : s.exec = .loop (.other :: items)) :
      Step s .skip { s with exec := .loop items }
  | exit {s : State} (hexec : s.exec = .loop []) : Step s .exit { s with exec := .done }
  | act {s : State} {i : ℕ} {a : Act} {w w' : Waiter} (hw : s.waiters i = some w)
      (ha : w.act a = some w') : Step s (.act i a) (s.set i w')

end Waiting

end PortableConcurrency
