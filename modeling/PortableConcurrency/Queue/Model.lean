import PortableConcurrency.Common.Runs
import PortableConcurrency.Common.CondVar

/-!
# `closable_queue` — the model

A queue of values, the flag that it was closed, a mutex and one condition
variable. `push` and `close` are one critical section each, which any
thread may run at any time. A consumer is inside `pop(dest)`, where it may
have to wait; what `dest` held before is swapped into the front of the
queue and destroyed there by `queue_.pop()`, with the mutex locked.

The consumers are told apart by `ι`, whatever the caller takes for it.
-/

namespace PortableConcurrency

namespace Queue

variable {V ι : Type*}

/-- What a consumer does next, with the `dest` it came with. -/
inductive Pc (V ι : Type*)
  /-- in `pop`, before it locks -/
  | popping (who : ι) (dest : V)
  /-- in `cv_.wait` -/
  | blocked (who : ι) (dest : V)
  /-- woken in there, before it locks again -/
  | woken (who : ι) (dest : V)
  deriving DecidableEq, Repr

/-- Which consumer it is. -/
def Pc.who : Pc V ι → ι
  | .popping who _ => who
  | .blocked who _ => who
  | .woken who _ => who

/-- What its `dest` holds. -/
def Pc.dest : Pc V ι → V
  | .popping _ dest => dest
  | .blocked _ dest => dest
  | .woken _ dest => dest

/-- What a consumer that waits becomes when woken. -/
def Pc.wake : Pc V ι → Option (Pc V ι)
  | .blocked who dest => some (.woken who dest)
  | _ => none

/-- `cv_`. -/
def cv : CondVar (Pc V ι) where
  wake := Pc.wake
  awake p q h := by
    cases p with
    | blocked =>
      cases h
      rfl
    | _ => cases h

structure State (V ι : Type*) where
  queue : List V
  closed : Bool
  consumers : Multiset (Pc V ι)

/-- Who is in `pop`, and with which `dest`. -/
def State.inPop (s : State V ι) : Multiset (ι × V) := s.consumers.map fun p => (p.who, p.dest)

/-- `closable_queue()`. -/
def init : State V ι := ⟨[], false, 0⟩

inductive Event (V ι : Type*)
  | call (who : ι) (dest : V)
  | push (val : V)
  | close
  /-- `pop` returns true with `val`; what `dest` held is destroyed -/
  | pop (who : ι) (dest val : V)
  /-- `pop` returns false -/
  | fail (who : ι) (dest : V)
  /-- `pop` starts to wait, or waits on -/
  | wait (who : ι) (dest : V)
  | spurious
  deriving DecidableEq, Repr

/-- A consumer that is about to lock the mutex. -/
inductive Pc.Running (who : ι) (dest : V) : Pc V ι → Prop
  | popping : Running who dest (.popping who dest)
  | woken : Running who dest (.woken who dest)

/-- **The step relation.** -/
inductive Step : State V ι → Event V ι → State V ι → Prop
  | call {s : State V ι} {who : ι} {dest : V} :
      Step s (.call who dest) { s with consumers := .popping who dest ::ₘ s.consumers }
  | push {s : State V ι} {val : V} {consumers : Multiset (Pc V ι)} (hopen : s.closed = false)
      (hnotify : cv.NotifyOne s.consumers consumers) :
      Step s (.push val) { s with
        queue := s.queue ++ [val]
        consumers := consumers }
  | pushClosed {s : State V ι} {val : V} (hclosed : s.closed = true) : Step s (.push val) s
  | close {s : State V ι} :
      Step s .close { s with
        closed := true
        consumers := cv.notifyAll s.consumers }
  | pop {s : State V ι} {p : Pc V ι} {rest : Multiset (Pc V ι)} {who : ι} {dest val : V}
      {queue : List V} (ht : s.consumers = p ::ₘ rest) (hp : p.Running who dest)
      (hq : s.queue = val :: queue) :
      Step s (.pop who dest val) { s with
        queue := queue
        consumers := rest }
  | fail {s : State V ι} {p : Pc V ι} {rest : Multiset (Pc V ι)} {who : ι} {dest : V}
      (ht : s.consumers = p ::ₘ rest) (hp : p.Running who dest) (hclosed : s.closed = true)
      (hq : s.queue = []) :
      Step s (.fail who dest) { s with consumers := rest }
  | wait {s : State V ι} {p : Pc V ι} {rest : Multiset (Pc V ι)} {who : ι} {dest : V}
      (ht : s.consumers = p ::ₘ rest) (hp : p.Running who dest) (hopen : s.closed = false)
      (hq : s.queue = []) :
      Step s (.wait who dest) { s with consumers := .blocked who dest ::ₘ rest }
  | spurious {s : State V ι} {p q : Pc V ι} {rest : Multiset (Pc V ι)}
      (ht : s.consumers = p ::ₘ rest) (hw : cv.wake p = some q) :
      Step s .spurious { s with consumers := q ::ₘ rest }

/-! ## What happened -/

/-- The value a push hands over. -/
def Event.pushed : Event V ι → List V
  | .push val => [val]
  | _ => []

def Event.isClose : Event V ι → Bool
  | .close => true
  | _ => false

/-- The values pushed before the first close. -/
def accepted : List (Event V ι) → List V
  | [] => []
  | e :: es => if e.isClose then [] else e.pushed ++ accepted es

/-- What a successful pop returns. -/
def Event.popped : Event V ι → List V
  | .pop _ _ val => [val]
  | _ => []

/-- The values returned by the successful pops. -/
def popped (es : List (Event V ι)) : List V := es.flatMap Event.popped

/-- Who enters `pop`. -/
def Event.arrives : Event V ι → Multiset (ι × V)
  | .call who dest => {(who, dest)}
  | _ => 0

/-- Who returns from `pop`. -/
def Event.departs : Event V ι → Multiset (ι × V)
  | .pop who dest _ => {(who, dest)}
  | .fail who dest => {(who, dest)}
  | _ => 0

def Event.isFail : Event V ι → Bool
  | .fail _ _ => true
  | _ => false

end Queue

end PortableConcurrency
