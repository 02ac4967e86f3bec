import Mathlib.Data.Multiset.Range
import PortableConcurrency.Queue.Model

/-!
# `static_thread_pool` — the model

A closable queue of function objects, the flag that the pool was stopped,
and a second mutex and condition variable, on which the threads that have
left the loop of `process_queue` wait for each other. The threads of the
pool run `attach()`, and so may threads from outside. While a thread is in
`queue.pop(task)` it is a consumer of the queue; what its local `task`
holds is the `dest` it came with, the function object that it executed
last.

`posts` says which function objects have a destructor that posts to the
pool. A task is moved by the constructor of its type, and what is left of
it is an object that is destroyed as well. `std::swap(dest, queue_.front())`
and `queue_.pop()` run such destructors with the mutex of the queue locked,
and one that posts locks a mutex that its thread holds already: nothing is
done with the queue after that. Elsewhere a destructor, like a task, posts
as anybody does.

The owner is the thread that calls `wait()`, as often as it likes, and
`~static_thread_pool` in the end. `stop()` may be called by any thread.
There are fewer than 2 ^ 32 threads, so that one more does not wrap
`attached_threads_`.
-/

namespace PortableConcurrency

namespace Pool

variable {T : Type*}

/-- A thread of the pool, or one that calls `attach()` from outside. -/
inductive Who
  | worker (i : ℕ)
  | external (j : ℕ)
  deriving DecidableEq, Repr

def Who.isWorker : Who → Bool
  | .worker _ => true
  | .external _ => false

/-- What a thread in `attach()` does next, with the function object that
its local `task` holds. -/
inductive Stage (T : Type*)
  /-- before `++attached_threads_` -/
  | starting
  /-- before it loads `stopped_` -/
  | checking (task : Option T)
  /-- `pop` has returned true -/
  | taken (task : T)
  | executing (task : T)
  /-- out of the loop, before `task` is destroyed -/
  | leaving (task : Option T)
  /-- before `--attached_threads_` -/
  | detaching
  /-- in `cv_.wait`, until `attached_threads_ == 0` -/
  | parked
  | unparked
  /-- before `notify_all` -/
  | releasing
  /-- a thread of the pool that has ended -/
  | finished
  /-- about to lock the queue's mutex, which it holds -/
  | relocking (task : T)
  deriving DecidableEq, Repr

structure Thread (T : Type*) where
  who : Who
  stage : Stage T
  deriving DecidableEq, Repr

/-- What a thread that waits becomes when woken. -/
def Thread.wake : Thread T → Option (Thread T)
  | ⟨who, .parked⟩ => some ⟨who, .unparked⟩
  | _ => none

/-- `cv_` of the pool. -/
def cv : CondVar (Thread T) where
  wake := Thread.wake
  awake p q h := by
    obtain ⟨who, stage⟩ := p
    cases stage with
    | parked =>
      cases h
      rfl
    | _ => cases h

/-- Where the owner is. -/
inductive Owner
  | idle
  /-- in the `stop()` of `~static_thread_pool`, before it closes the queue -/
  | closing
  /-- in the `wait()` of `~static_thread_pool`, before it closes the queue -/
  | draining
  /-- in `wait()`, joining the threads -/
  | joining (destroys : Bool)
  /-- the members are about to be destroyed -/
  | destroying
  | destroyed
  deriving DecidableEq, Repr

structure State (T : Type*) where
  queue : Queue.State (Option T) Who
  /-- the queue's mutex is being locked by the thread that holds it -/
  relocked : Bool
  stopped : Bool
  attached : ℕ
  threads : Multiset (Thread T)
  /-- the threads in `stop()` that have not yet closed the queue -/
  stoppers : ℕ
  owner : Owner

/-- `static_thread_pool(num_threads)`. -/
def init (num_threads : ℕ) : State T where
  queue := Queue.init
  relocked := false
  stopped := false
  attached := 0
  threads := (Multiset.range num_threads).map fun i => ⟨.worker i, .starting⟩
  stoppers := 0
  owner := .idle

/-- `--attached_threads_`, of an `unsigned`. -/
def detached (attached : ℕ) : ℕ := if attached = 0 then 4294967295 else attached - 1

/-- What is left of a thread that has returned from `attach()`. -/
def returned : Who → Multiset (Thread T)
  | .worker i => {⟨.worker i, .finished⟩}
  | .external _ => 0

/-- A function object when it is destroyed. -/
inductive Object (T : Type*)
  | whole (task : T)
  /-- what a move has left of it -/
  | moved (task : T)
  deriving DecidableEq, Repr

/-- **What `pop(task)` destroys** with the mutex locked, in this order: the
residue that the local of `std::swap` leaves in `dest`, the one that `dest`
leaves in the front of the queue, the local, and the front itself, which
now holds the old `dest`. -/
def destroyedBy (task : Option T) (next : T) : List (Object T) :=
  match task with
  | none => [.moved next]
  | some old => [.moved old, .moved next, .moved old, .whole old]

inductive Event (T : Type*)
  | attach (j : ℕ)
  /-- `++attached_threads_` -/
  | enter (who : Who)
  /-- `stopped_` is not set: on to `pop(task)` -/
  | check (who : Who) (task : Option T)
  /-- `stopped_` is set -/
  | quit (who : Who) (task : Option T)
  | block (who : Who) (task : Option T)
  /-- a spurious wakeup in `pop` -/
  | rouse
  /-- `pop` returns true with `next` -/
  | pop (who : Who) (task : Option T) (next : T)
  | fail (who : Who) (task : Option T)
  | run (who : Who) (task : T)
  | done (who : Who) (task : T)
  /-- `process_queue` returns, and `task` is destroyed -/
  | leave (who : Who) (task : Option T)
  | detach (who : Who) (waits : Bool)
  | recheck (who : Who) (waits : Bool)
  | unpark
  | notifyAll (who : Who)
  /-- `post` to the executor, and whether the queue was open -/
  | post (task : T) (accepted : Bool)
  /-- `stop()` sets `stopped_` -/
  | stop
  /-- `stop()` closes the queue and returns -/
  | close
  /-- `wait()` closes the queue -/
  | wait
  /-- `~static_thread_pool` calls `stop()`, which sets `stopped_` -/
  | destroy
  /-- it calls `wait()`, which closes the queue -/
  | drain
  /-- `wait()` returns -/
  | joined
  /-- the members are destroyed, and the function objects in the queue -/
  | destroyed (tasks : List (Option T))
  deriving DecidableEq, Repr

/-- **The step relation.** -/
inductive Step (posts : Object T → Bool) : State T → Event T → State T → Prop
  | attach {s : State T} {j : ℕ} (hnew : ∀ th ∈ s.threads, th.who ≠ .external j)
      (hpop : ∀ p ∈ s.queue.consumers, p.who ≠ .external j) :
      Step posts s (.attach j) { s with threads := ⟨.external j, .starting⟩ ::ₘ s.threads }
  | enter {s : State T} {who : Who} {rest : Multiset (Thread T)}
      (ht : s.threads = ⟨who, .starting⟩ ::ₘ rest) :
      Step posts s (.enter who) { s with
        attached := s.attached + 1
        threads := ⟨who, .checking none⟩ ::ₘ rest }
  | check {s : State T} {who : Who} {task : Option T} {rest : Multiset (Thread T)}
      {queue : Queue.State (Option T) Who} (ht : s.threads = ⟨who, .checking task⟩ ::ₘ rest)
      (hgo : s.stopped = false) (hq : Queue.Step s.queue (.call who task) queue) :
      Step posts s (.check who task) { s with
        queue := queue
        threads := rest }
  | quit {s : State T} {who : Who} {task : Option T} {rest : Multiset (Thread T)}
      (ht : s.threads = ⟨who, .checking task⟩ ::ₘ rest) (hstop : s.stopped = true) :
      Step posts s (.quit who task) { s with threads := ⟨who, .leaving task⟩ ::ₘ rest }
  | block {s : State T} {who : Who} {task : Option T} {queue : Queue.State (Option T) Who}
      (hfree : s.relocked = false) (hq : Queue.Step s.queue (.wait who task) queue) :
      Step posts s (.block who task) { s with queue := queue }
  | rouse {s : State T} {queue : Queue.State (Option T) Who}
      (hq : Queue.Step s.queue .spurious queue) : Step posts s .rouse { s with queue := queue }
  | pop {s : State T} {who : Who} {task : Option T} {next : T}
      {queue : Queue.State (Option T) Who} (hfree : s.relocked = false)
      (hq : Queue.Step s.queue (.pop who task (some next)) queue)
      (hpost : ∀ o ∈ destroyedBy task next, posts o = false) :
      Step posts s (.pop who task next) { s with
        queue := queue
        threads := ⟨who, .taken next⟩ ::ₘ s.threads }
  /-- a destructor posts, under the lock -/
  | relock {s : State T} {who : Who} {task : Option T} {next : T}
      {queue : Queue.State (Option T) Who} (hfree : s.relocked = false)
      (hq : Queue.Step s.queue (.pop who task (some next)) queue)
      (hpost : ∃ o ∈ destroyedBy task next, posts o = true) :
      Step posts s (.pop who task next) { s with
        queue := queue
        relocked := true
        threads := ⟨who, .relocking next⟩ ::ₘ s.threads }
  | fail {s : State T} {who : Who} {task : Option T} {queue : Queue.State (Option T) Who}
      (hfree : s.relocked = false) (hq : Queue.Step s.queue (.fail who task) queue) :
      Step posts s (.fail who task) { s with
        queue := queue
        threads := ⟨who, .leaving task⟩ ::ₘ s.threads }
  | run {s : State T} {who : Who} {task : T} {rest : Multiset (Thread T)}
      (ht : s.threads = ⟨who, .taken task⟩ ::ₘ rest) :
      Step posts s (.run who task) { s with threads := ⟨who, .executing task⟩ ::ₘ rest }
  | done {s : State T} {who : Who} {task : T} {rest : Multiset (Thread T)}
      (ht : s.threads = ⟨who, .executing task⟩ ::ₘ rest) :
      Step posts s (.done who task) { s with threads := ⟨who, .checking (some task)⟩ ::ₘ rest }
  | leave {s : State T} {who : Who} {task : Option T} {rest : Multiset (Thread T)}
      (ht : s.threads = ⟨who, .leaving task⟩ ::ₘ rest) :
      Step posts s (.leave who task) { s with threads := ⟨who, .detaching⟩ ::ₘ rest }
  | detachLast {s : State T} {who : Who} {rest : Multiset (Thread T)}
      (ht : s.threads = ⟨who, .detaching⟩ ::ₘ rest) (hlast : detached s.attached = 0) :
      Step posts s (.detach who false) { s with
        attached := detached s.attached
        threads := ⟨who, .releasing⟩ ::ₘ rest }
  | detach {s : State T} {who : Who} {rest : Multiset (Thread T)}
      (ht : s.threads = ⟨who, .detaching⟩ ::ₘ rest) (hmore : detached s.attached ≠ 0) :
      Step posts s (.detach who true) { s with
        attached := detached s.attached
        threads := ⟨who, .parked⟩ ::ₘ rest }
  | park {s : State T} {who : Who} {rest : Multiset (Thread T)}
      (ht : s.threads = ⟨who, .unparked⟩ ::ₘ rest) (hmore : s.attached ≠ 0) :
      Step posts s (.recheck who true) { s with threads := ⟨who, .parked⟩ ::ₘ rest }
  | release {s : State T} {who : Who} {rest : Multiset (Thread T)}
      (ht : s.threads = ⟨who, .unparked⟩ ::ₘ rest) (hnone : s.attached = 0) :
      Step posts s (.recheck who false) { s with threads := ⟨who, .releasing⟩ ::ₘ rest }
  | unpark {s : State T} {p q : Thread T} {rest : Multiset (Thread T)}
      (ht : s.threads = p ::ₘ rest) (hw : cv.wake p = some q) :
      Step posts s .unpark { s with threads := q ::ₘ rest }
  | notifyAll {s : State T} {who : Who} {rest : Multiset (Thread T)}
      (ht : s.threads = ⟨who, .releasing⟩ ::ₘ rest) :
      Step posts s (.notifyAll who) { s with threads := returned who + cv.notifyAll rest }
  | post {s : State T} {task : T} {queue : Queue.State (Option T) Who}
      (hfree : s.relocked = false) (halive : s.owner ≠ .destroyed)
      (hq : Queue.Step s.queue (.push (some task)) queue) :
      Step posts s (.post task (!s.queue.closed)) { s with queue := queue }
  | stop {s : State T} (halive : s.owner ≠ .destroyed) :
      Step posts s .stop { s with
        stopped := true
        stoppers := s.stoppers + 1 }
  | close {s : State T} {n : ℕ} {queue : Queue.State (Option T) Who}
      (hfree : s.relocked = false) (hn : s.stoppers = n + 1)
      (hq : Queue.Step s.queue .close queue) :
      Step posts s .close { s with
        queue := queue
        stoppers := n }
  | wait {s : State T} {queue : Queue.State (Option T) Who} (hfree : s.relocked = false)
      (howner : s.owner = .idle) (hq : Queue.Step s.queue .close queue) :
      Step posts s .wait { s with
        queue := queue
        owner := .joining false }
  | destroy {s : State T} (howner : s.owner = .idle) :
      Step posts s .destroy { s with
        stopped := true
        owner := .closing }
  | closeDestroying {s : State T} {queue : Queue.State (Option T) Who}
      (hfree : s.relocked = false) (howner : s.owner = .closing)
      (hq : Queue.Step s.queue .close queue) :
      Step posts s .close { s with
        queue := queue
        owner := .draining }
  | drain {s : State T} {queue : Queue.State (Option T) Who} (hfree : s.relocked = false)
      (howner : s.owner = .draining) (hq : Queue.Step s.queue .close queue) :
      Step posts s .drain { s with
        queue := queue
        owner := .joining true }
  | joined {s : State T} {destroys : Bool} (howner : s.owner = .joining destroys)
      (hended : ∀ th ∈ s.threads, th.who.isWorker = true → th.stage = .finished)
      (hpop : ∀ p ∈ s.queue.consumers, p.who.isWorker = false) :
      Step posts s .joined { s with owner := if destroys then .destroying else .idle }
  | destroyed {s : State T} (howner : s.owner = .destroying) :
      Step posts s (.destroyed s.queue.queue) { s with owner := .destroyed }

/-- What a step does with the queue. -/
def Event.onQueue : Event T → List (Queue.Event (Option T) Who)
  | .check who task => [.call who task]
  | .block who task => [.wait who task]
  | .rouse => [.spurious]
  | .pop who task next => [.pop who task (some next)]
  | .fail who task => [.fail who task]
  | .post task _ => [.push (some task)]
  | .close => [.close]
  | .wait => [.close]
  | .drain => [.close]
  | _ => []

/-! ## What happened -/

/-- The task that a post hands over. -/
def Event.posted : Event T → List T
  | .post task _ => [task]
  | _ => []

/-- Whether the queue is closed. -/
def Event.closes : Event T → Bool
  | .close => true
  | .wait => true
  | .drain => true
  | _ => false

/-- The tasks posted before the queue was closed. -/
def accepted : List (Event T) → List T
  | [] => []
  | e :: es => if e.closes then [] else e.posted ++ accepted es

/-- The task that a thread takes from the queue. -/
def Event.taken : Event T → List T
  | .pop _ _ next => [next]
  | _ => []

/-- The task whose call begins. -/
def Event.started : Event T → List T
  | .run _ task => [task]
  | _ => []

/-- The task whose call returns. -/
def Event.completed : Event T → List T
  | .done _ task => [task]
  | _ => []

/-- The tasks taken from the queue, in order. -/
def taken (es : List (Event T)) : List T := es.flatMap Event.taken

def started (es : List (Event T)) : List T := es.flatMap Event.started

def completed (es : List (Event T)) : List T := es.flatMap Event.completed

/-- The thread that takes or starts a task. -/
def Event.actor : Event T → Option Who
  | .pop who _ _ => some who
  | .run who _ => some who
  | _ => none

/-- The tasks that one thread starts. -/
def startedBy (who : Who) (es : List (Event T)) : List T :=
  started (es.filter fun e => e.actor = some who)

end Pool

end PortableConcurrency
