import PortableConcurrency.Stack.Invariant

/-!
# `continuations_stack` — the model

A future state holds its result and a `once_consumable_stack` of
continuations. The model puts the callers of the stack around it: `push`,
which calls the continuation itself when the stack refuses it, and
`execute`, which a producer calls after storing the result and which
walks the list it has taken. A continuation is named by the call of
`push` it was handed to, so the stack's values are those names, and
`invoked` counts the calls of each.

Any call may take its next step at any time. The calls that a running
continuation makes on the same state are among them: they begin while the
loop is at `calling`, or after a refused push has called its own
continuation, and the caller's own next step is one that waits.
-/

namespace PortableConcurrency

namespace Continuations

open Stack (Ptr Node Phase Holder)

/-- Where the producer is: `emplace` (or `set_exception`), then
`execute`. -/
inductive Exec
  /-- the result is not stored -/
  | idle
  /-- the result is stored, `consume` comes next -/
  | stored
  /-- in `for (auto &cnt : continuations)`, the iterator at `p` -/
  | loop (p : Ptr)
  /-- inside `cnt()` for the node at `p` -/
  | calling (p : Ptr)
  /-- destroying the local list -/
  | releasing
  /-- returned -/
  | done
  deriving DecidableEq, Repr

/-- A future state, its pushes in progress and its producer. -/
structure State (Op : Type*) where
  stack : Stack.State Op Op
  exec : Exec
  /-- the calls of `push` that have called their own continuation -/
  inlined : Op → Bool
  invoked : Op → ℕ

variable {Op : Type*} [DecidableEq Op]

def init : State Op where
  stack := Stack.init id
  exec := .idle
  inlined := fun _ => false
  invoked := fun _ => 0

/-- `storage_` holds a result. -/
def State.stored (s : State Op) : Bool := s.exec ≠ .idle

/-- `is_ready()`, that is `continuations().executed()`. -/
def State.isReady (s : State Op) : Bool := s.stack.isConsumed

inductive Event (Op : Type*)
  /-- a step of `stack_.push` in the call `i`, or of the destructor -/
  | stack (e : Stack.Event Op)
  /-- `storage_.emplace<…>(…)` -/
  | store
  /-- `stack_.consume()` in `execute` -/
  | consume
  /-- the loop calls the continuation of its node -/
  | call
  /-- which returns, and the iterator moves on -/
  | advance
  /-- the loop ends -/
  | leave
  /-- one node of the local list is deallocated -/
  | release (i : Op)
  /-- `execute` returns -/
  | finish
  /-- `if (!stack_.push(cnt)) cnt();` -/
  | inline (i : Op)

/-- `cnt()`. -/
def State.invoke (s : State Op) (c : Op) : State Op :=
  { s with invoked := Function.update s.invoked c (s.invoked c + 1) }

/-- The events of the stack that are not the consumer's. -/
def Foreign : Stack.Event Op → Prop
  | .begin _ _ => True
  | .load _ => True
  | .cas _ => True
  | .consume => False
  | .destroy => True
  | .free r _ => r ≠ .consumer

/-- **The step relation.** One thread makes the state ready, once; the
state is destroyed when no call of `push` and no `execute` is about to
touch it. -/
inductive Step : State Op → Event Op → State Op → Prop
  | stack {s : State Op} {e : Stack.Event Op} {t : Stack.State Op Op} (hfor : Foreign e)
      (hexec : e = .destroy → s.exec ≠ .stored) (hst : Stack.Step s.stack e t) :
      Step s (.stack e) { s with stack := t }
  | store {s : State Op} (hlive : s.stack.destroyed = false) (hidle : s.exec = .idle) :
      Step s .store { s with exec := .stored }
  | consume {s : State Op} {t : Stack.State Op Op} {p : Ptr} (hexec : s.exec = .stored)
      (hst : Stack.Step s.stack .consume t) (hp : t.holder = .consumer p) :
      Step s .consume { s with stack := t, exec := .loop p }
  | call {s : State Op} {a : ℕ} {nd : Node Op Op} {c : Op} (hexec : s.exec = .loop (.node a))
      (hnd : s.stack.heap a = some nd) (hc : nd.val = some c) :
      Step s .call { s.invoke c with exec := .calling (.node a) }
  | advance {s : State Op} {a : ℕ} {nd : Node Op Op} (hexec : s.exec = .calling (.node a))
      (hnd : s.stack.heap a = some nd) : Step s .advance { s with exec := .loop nd.next }
  | leave {s : State Op} (hexec : s.exec = .loop .null) :
      Step s .leave { s with exec := .releasing }
  | release {s : State Op} {i : Op} {t : Stack.State Op Op} (hexec : s.exec = .releasing)
      (hst : Stack.Step s.stack (.free .consumer i) t) :
      Step s (.release i) { s with stack := t }
  | finish {s : State Op} (hexec : s.exec = .releasing)
      (hnull : s.stack.holder = .consumer .null) : Step s .finish { s with exec := .done }
  | inline {s : State Op} {i c : Op} (hfalse : s.stack.phase i = .failed .null)
      (honce : s.inlined i = false) (hc : s.stack.arg i = some c) :
      Step s (.inline i) { s.invoke c with inlined := Function.update s.inlined i true }

def Reachable (s : State Op) : Prop :=
  Runs Step Unguarded init s

end Continuations

end PortableConcurrency
