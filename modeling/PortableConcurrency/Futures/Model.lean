import PortableConcurrency.Common.Runs
import Mathlib.Logic.Function.Basic
import Mathlib.Data.Multiset.Filter
import Mathlib.Data.Multiset.MapFold
import Mathlib.Data.Nat.Notation

/-!
# Shared states and those who hold them — the model

The library is a graph of shared states. A node of it is a
`shared_state<T>` (alone, or inside a `task_state` or a `cnt_state`), a
`when_all_state` or a `when_any_state`. Everything else that matters is an
object that refers to nodes: a promise, a task, a future, an action in an
executor's hands, a continuation in a state's list, or the local
variables of a call that is in progress. A configuration is the nodes and
the multiset of the objects.

A node is alive while it has an owner, that is an object or a living node
with a `shared_ptr` to it; a `weak_ptr` can be locked just as long. Its
destructor runs at some time after the last owner is gone.

One step is one call of the library up to the next place where it calls
something that others can observe, in particular up to each `execute()`.
The steps of all calls in progress interleave freely, those of one thread
included; a nested call is one more call in progress. Pushing onto a
continuation list is one step (`Continuations.ExactlyOnce` says why): the
closure is linked, or the list is closed and it has to be called.

A node is named by its address, and addresses are not reused. Values are
opaque, except that the value of a combinator is the sequence
of its inputs; what `future::get` moves out of a plain value is not
followed. A call whose `assert` fails does not go on.
-/

namespace PortableConcurrency

namespace Futures

/-- `std::exception_ptr`, never null. -/
inductive Exn (E : Type*)
  | brokenPromise
  | user (e : E)
  deriving DecidableEq, Repr

/-- `either<monostate, state_storage_t<T>, shared_ptr<future_state<T>>,
exception_ptr>`. -/
inductive Storage (V E : Type*)
  | empty
  | value (v : V)
  | inner (t : ℕ)
  | exception (x : Exn E)
  deriving DecidableEq, Repr

/-- How a continuation was attached. -/
inductive Kind
  | then'
  | next
  /-- `then` with a function that takes a promise -/
  | interruptible
  deriving DecidableEq, Repr

/-- What a `decorate_…` lambda captures: the function and the parent, to
be passed on as a `future` or as a `shared_future`. -/
structure Action (F : Type*) where
  kind : Kind
  unique : Bool
  fn : F
  parent : ℕ
  deriving DecidableEq, Repr

/-- An element of the sequence a combinator is given: whether it is a
`future` (not a `shared_future`), and its state. -/
abbrev Input := Bool × ℕ

/-- `size_t(-1)`. -/
def npos : ℕ := 18446744073709551615

/-- What a node is besides its storage and its continuations. -/
inductive Body (F : Type*)
  /-- made by a promise; `canceler` says whether it is a
  `cancellable_state` -/
  | promise (canceler : Bool)
  /-- `task_state`, with its function until it has been cleaned -/
  | task (func : Option F)
  /-- `cnt_state`, with its executor and its action until cleaned -/
  | cnt (exec : Bool) (action : Option (Action F))
  | whenAll (futures : List Input) (remains : ℕ)
  | whenAny (futures : List Input) (flag : Bool) (index : ℕ)
  deriving DecidableEq, Repr

structure Node (V E F : Type*) where
  storage : Storage V E
  executed : Bool
  body : Body F
  deriving DecidableEq, Repr

/-- A closure in a continuation list. -/
inductive Closure
  /-- of `notify`, `wait` and the like: it refers to no state -/
  | notify
  /-- of `make_then_state`, with a `weak_ptr` -/
  | schedule (c : ℕ)
  /-- of `unwrap`, with a `weak_ptr` -/
  | unwrapCb (s : ℕ)
  /-- of `detach`, with a `shared_ptr` -/
  | detached (s : ℕ)
  /-- of `when_all_state::make` and `when_any_state::make`, with a
  `shared_ptr` -/
  | combine (w : ℕ) (pos : ℕ)
  deriving DecidableEq, Repr

/-- Who can settle a state: its promise, its `packaged_task`, or the
`cnt_action` of a continuation. -/
inductive Producer
  | promise
  | task
  | action
  deriving DecidableEq, Repr

/-- Whose user function is being called. -/
inductive Caller
  | task
  | cnt
  deriving DecidableEq, Repr

/-- **The objects that refer to nodes.** -/
inductive Obj (F : Type*)
  /-- a producer object, with a `shared_ptr` (before `get_future`) or a
  `weak_ptr` -/
  | handle (h : Producer) (owning : Bool) (s : ℕ)
  /-- a valid `future` or `shared_future` -/
  | future (unique : Bool) (s : ℕ)
  /-- a closure in the list of `t` -/
  | linked (t : ℕ) (k : Closure)
  /-- one that has left the list and is going to be called -/
  | queued (t : ℕ) (k : Closure)
  /-- one that has been called and not yet destroyed -/
  | spent (t : ℕ) (k : Closure)
  /-- `s->continuations().execute()` comes next -/
  | execute (s : ℕ)
  /-- `cnt_state::run` before it calls the decorated function -/
  | running (c : ℕ) (a : Action F)
  /-- inside the user's function -/
  | invoked (h : Caller) (s : ℕ)
  /-- `unwrap` before it pushes its callback -/
  | subscribing (s t : ℕ)
  /-- `task_state::run` before its scope guard cleans the function -/
  | cleaning (s : ℕ)
  /-- `make` of a combinator, before it registers input `i` -/
  | making (w : ℕ) (i : ℕ)
  /-- a local `shared_ptr` -/
  | held (s : ℕ)
  deriving DecidableEq, Repr

/-- A configuration. `fresh` is the next address. -/
structure Config (V E F : Type*) where
  nodes : ℕ → Option (Node V E F)
  objs : Multiset (Obj F)
  fresh : ℕ

variable {V E F : Type*}

/-- Nothing has happened. -/
def init : Config V E F := ⟨fun _ => none, 0, 0⟩

/-! ## Ownership -/

/-- The `shared_ptr`s of a closure. -/
def Closure.refs : Closure → List ℕ
  | .notify => []
  | .schedule _ => []
  | .unwrapCb _ => []
  | .detached s => [s]
  | .combine w _ => [w]

/-- The `shared_ptr`s of an object. -/
def Obj.refs : Obj F → List ℕ
  | .handle _ owning s => if owning then [s] else []
  | .future _ s => [s]
  | .linked _ k => k.refs
  | .queued _ k => k.refs
  | .spent _ k => k.refs
  | .execute s => [s]
  | .running c a => [c, a.parent]
  | .invoked _ s => [s]
  | .subscribing s t => [s, t]
  | .cleaning s => [s]
  | .making w _ => [w]
  | .held s => [s]

def Storage.refs : Storage V E → List ℕ
  | .inner t => [t]
  | _ => []

def Body.refs : Body F → List ℕ
  | .cnt _ (some a) => [a.parent]
  | .whenAll futures _ => futures.map Prod.snd
  | .whenAny futures _ _ => futures.map Prod.snd
  | _ => []

/-- The `shared_ptr`s of a node. -/
def Node.refs (nd : Node V E F) : List ℕ :=
  nd.storage.refs ++ nd.body.refs

/-- **Somebody has a `shared_ptr` to `n`**, so a `weak_ptr` can be
locked. -/
def Owned (c : Config V E F) (n : ℕ) : Prop :=
  (∃ o ∈ c.objs, n ∈ o.refs) ∨ ∃ m nd, c.nodes m = some nd ∧ n ∈ nd.refs

/-! ## Reading a result -/

/-- Whether a body is that of a combinator. -/
def Body.isCombinator : Body F → Bool
  | .whenAll _ _ => true
  | .whenAny _ _ _ => true
  | _ => false

/-- What `value_ref` and `exception` find. The value of a combinator is
its sequence. -/
inductive Outcome (V E : Type*)
  | value (v : V)
  | exception (x : Exn E)
  | futures
  deriving DecidableEq, Repr

/-- What they find at a state that has not been unwrapped. -/
def Node.outcome (nd : Node V E F) : Option (Outcome V E) :=
  if nd.body.isCombinator then some .futures
  else
    match nd.storage with
    | .value v => some (.value v)
    | .exception x => some (.exception x)
    | _ => none

/-- **`value_ref` and `exception`** end at the state `l`. They follow the
inner states, and assert on the way that every list is closed. -/
inductive Resolves (c : Config V E F) : ℕ → ℕ → Outcome V E → Prop
  | leaf {l : ℕ} {nd : Node V E F} {o : Outcome V E} (hn : c.nodes l = some nd)
      (hex : nd.executed = true) (ho : nd.outcome = some o) : Resolves c l l o
  | inner {s t l : ℕ} {nd : Node V E F} {o : Outcome V E} (hn : c.nodes s = some nd)
      (hex : nd.executed = true) (hbody : nd.body.isCombinator = false)
      (hs : nd.storage = .inner t) (ht : Resolves c t l o) : Resolves c s l o

/-! ## Parts of the steps -/

namespace Config

/-- `continuations().executed()`. -/
def isExecuted (c : Config V E F) (s : ℕ) : Bool :=
  match c.nodes s with
  | some nd => nd.executed
  | none => false

/-- `t->continuations().push(k)`. -/
def push (c : Config V E F) (t : ℕ) (k : Closure) : Obj F :=
  if c.isExecuted t then .queued t k else .linked t k

def setNode (c : Config V E F) (s : ℕ) (nd : Node V E F) : ℕ → Option (Node V E F) :=
  Function.update c.nodes s (some nd)

/-- `promise::is_awaiten`. -/
def IsAwaiten (c : Config V E F) (owning : Bool) (s : ℕ) : Prop :=
  owning = true ∨ Owned c s

end Config

/-- `--operations_remains_`. -/
def decr (remains : ℕ) : ℕ := if remains = 0 then npos else remains - 1

/-- `notify` of a combinator, and whether it goes on to `execute`. -/
def Body.notify (pos : ℕ) : Body F → Body F × Bool
  | .whenAll futures remains => (.whenAll futures (decr remains), decr remains = 0)
  | .whenAny futures false _ => (.whenAny futures true pos, true)
  | .whenAny futures true index => (.whenAny futures true index, false)
  | body => (body, false)

/-- What `make` does after its loop. -/
def Body.finish : Body F → Body F × Bool
  | .whenAll futures remains => (.whenAll futures (decr remains), decr remains = 0)
  | .whenAny futures flag index => (.whenAny futures flag index, futures.isEmpty)
  | body => (body, false)

/-- The sequence of a combinator. -/
def Body.futures : Body F → List Input
  | .whenAll futures _ => futures
  | .whenAny futures _ _ => futures
  | _ => []

/-- A sequence that was moved from. -/
def Body.moveFutures : Body F → Body F
  | .whenAll _ remains => .whenAll [] remains
  | .whenAny _ flag index => .whenAny [] flag index
  | body => body

/-- What `abandon` cleans besides the state. A `cnt_state` cleans its
action once the list has been executed; here it is gone when the result is
stored. Until then the state would own its parent, which is ready. -/
def Body.clean : Producer → Body F → Body F
  | .promise, body => body
  | .task, .task _ => .task none
  | .action, .cnt exec _ => .cnt exec none
  | _, body => body

/-- The futures of a sequence, as the user's own. -/
def inputObjs (futures : List Input) : Multiset (Obj F) :=
  (futures.map fun f => Obj.future f.1 f.2 : List (Obj F))

/-- Copies of its shared futures. -/
def sharedObjs (futures : List Input) : Multiset (Obj F) :=
  inputObjs (futures.filter fun f => f.1 = false)

/-- The `execute` frame of a `notify`, if any. -/
def executeIf (b : Bool) (s : ℕ) : Multiset (Obj F) := if b then {.execute s} else 0

/-- The scope guard of `task_state::run`. -/
def cleanup : Caller → ℕ → Multiset (Obj F)
  | .task, s => {.cleaning s}
  | .cnt, _ => 0

/-- `then` and `next` of a `shared_future` leave it valid, except `then`
with a function that takes a promise. -/
def Action.keeps (a : Action F) : Multiset (Obj F) :=
  if a.unique = false ∧ a.kind ≠ .interruptible then {.future false a.parent} else 0

/-! ## The steps -/

/-- What a user function returns, or what it throws. The future it
returns may be invalid. -/
inductive Ret (V E : Type*)
  | value (v : V)
  | throws (e : E)
  | invalid
  deriving DecidableEq, Repr

/-- What that makes of the state. -/
def Ret.storage : Ret V E → Storage V E
  | .value v => .value v
  | .throws e => .exception (.user e)
  | .invalid => .exception .brokenPromise

inductive Event (V E F : Type*)
  /-- the constructors of `promise`, and `make_promise` -/
  | newPromise (s : ℕ)
  | newTask (s : ℕ) (fn : F)
  /-- `make_then_state` -/
  | attach (s : ℕ) (a : Action F)
  /-- `make` of a combinator up to its loop -/
  | combine (w : ℕ) (futures : List Input)
  /-- the loop's turn for input `i` -/
  | register (w : ℕ) (i : ℕ)
  /-- the end of `make` -/
  | finish (w : ℕ)
  | getFuture (s : ℕ)
  | share (s : ℕ)
  | copy (s : ℕ)
  | dropFuture (s : ℕ)
  /-- `notify`, `wait` -/
  | notify (s : ℕ)
  | detach (s : ℕ)
  /-- `get` of a sequence of futures -/
  | take (s : ℕ)
  | peek (s : ℕ)
  /-- `set_value` and `set_exception` -/
  | set (s : ℕ) (x : V ⊕ E)
  /-- the destructor of a producer, or an assignment over it -/
  | drop (h : Producer) (s : ℕ)
  /-- a call of a queued closure -/
  | call (t : ℕ) (k : Closure)
  /-- a call of a `cnt_action` -/
  | run (c : ℕ)
  /-- a call of a user function -/
  | invoke (c : ℕ) (a : Action F)
  | callTask (s : ℕ) (fn : F)
  /-- `next` passes an error on -/
  | passError (c : ℕ) (a : Action F) (x : Exn E)
  /-- a user function ends -/
  | ret (h : Caller) (s : ℕ) (r : Ret V E)
  /-- a user function returns a valid future -/
  | unwrap (h : Caller) (s t : ℕ)
  | subscribe (s t : ℕ)
  | clean (s : ℕ)
  | execute (s : ℕ)
  /-- a local goes out of scope, or a called closure is destroyed -/
  | release
  | destroy (s : ℕ)

/-- **Steps that change no node**: the objects `rem` become `add`. -/
inductive Move (c : Config V E F) :
    Event V E F → Multiset (Obj F) → Multiset (Obj F) → Prop
  | getFuture (h : Producer) (s : ℕ) (hh : h ≠ .action) :
      Move c (.getFuture s) {.handle h true s} {.handle h false s, .future true s}
  | share (s : ℕ) : Move c (.share s) {.future true s} {.future false s}
  | copy (s : ℕ) : Move c (.copy s) {.future false s} {.future false s, .future false s}
  | dropFuture (u : Bool) (s : ℕ) : Move c (.dropFuture s) {.future u s} 0
  | notify (u : Bool) (s : ℕ) :
      Move c (.notify s) {.future u s} {.future u s, c.push s .notify}
  | detach (u : Bool) (s : ℕ) :
      Move c (.detach s) {.future u s} {.future u s, c.push s (.detached s)}
  | peek (s w : ℕ) (nd : Node V E F) (ho : Resolves c s w .futures)
      (hn : c.nodes w = some nd) :
      Move c (.peek s) {.future false s} (.future false s ::ₘ sharedObjs nd.body.futures)
  /-- `abandon` of a promise that has a `shared_ptr` -/
  | dropPromise (s : ℕ) : Move c (.drop .promise s) {.handle .promise true s} 0
  /-- a producer whose state is gone -/
  | dropExpired (h : Producer) (s : ℕ) (hexp : ¬ Owned c s) :
      Move c (.drop h s) {.handle h false s} 0
  | runExpired (s : ℕ) (hexp : ¬ Owned c s) :
      Move c (.run s) {.handle .action false s} 0
  | callPlain (t : ℕ) (k : Closure) (hk : k = .notify ∨ ∃ s, k = .detached s) :
      Move c (.call t k) {.queued t k} {.spent t k}
  | callExpired (t s : ℕ) (k : Closure) (hk : k = .schedule s ∨ k = .unwrapCb s)
      (hexp : ¬ Owned c s) : Move c (.call t k) {.queued t k} {.spent t k}
  | callUnwrap (t s : ℕ) (hlock : Owned c s) :
      Move c (.call t (.unwrapCb s)) {.queued t (.unwrapCb s)}
        {.spent t (.unwrapCb s), .execute s}
  | invokeThen (s : ℕ) (a : Action F) (hk : a.kind = .then') :
      Move c (.invoke s a) {.running s a} {.invoked .cnt s, .future a.unique a.parent}
  | invokeInterruptible (s : ℕ) (a : Action F) (hk : a.kind = .interruptible) :
      Move c (.invoke s a) {.running s a}
        {.handle .promise false s, .future a.unique a.parent}
  /-- `next` on a plain value -/
  | invokeNext (s l : ℕ) (a : Action F) (v : V) (hk : a.kind = .next)
      (ho : Resolves c a.parent l (.value v)) :
      Move c (.invoke s a) {.running s a} {.invoked .cnt s, .held a.parent}
  /-- `next` of a `shared_future` on a sequence -/
  | invokeNextShared (s w : ℕ) (a : Action F) (nd : Node V E F) (hk : a.kind = .next)
      (hu : a.unique = false) (ho : Resolves c a.parent w .futures)
      (hn : c.nodes w = some nd) :
      Move c (.invoke s a) {.running s a}
        (.invoked .cnt s ::ₘ .held a.parent ::ₘ sharedObjs nd.body.futures)
  | callTask (owning : Bool) (s : ℕ) (fn : F) (nd : Node V E F) (hlock : Owned c s)
      (hn : c.nodes s = some nd) (hf : nd.body = .task (some fn)) :
      Move c (.callTask s fn) {.handle .task owning s}
        {.handle .task owning s, .invoked .task s}
  /-- `set_state_value` of a task throws: the state is satisfied already,
  or storing the value throws -/
  | retThrows (s : ℕ) (r : Ret V E) (nd : Node V E F) (hn : c.nodes s = some nd)
      (hfail : nd.storage ≠ .empty ∨ ∃ v, r = .value v) :
      Move c (.ret .task s r) {.invoked .task s} {.cleaning s}
  | subscribe (s t : ℕ) :
      Move c (.subscribe s t) {.subscribing s t} {.held s, c.push t (.unwrapCb s)}
  /-- an input that is not ready -/
  | register (w : ℕ) (i : ℕ) (nd : Node V E F) (f : Input) (hn : c.nodes w = some nd)
      (hi : nd.body.futures[i]? = some f) (hpend : c.isExecuted f.2 = false) :
      Move c (.register w i) {.making w i} {.making w (i + 1), .linked f.2 (.combine w i)}
  | releaseSpent (t : ℕ) (k : Closure) : Move c .release {.spent t k} 0
  | releaseHeld (s : ℕ) : Move c .release {.held s} 0

/-- **Steps that make a node.** -/
inductive Spawn (c : Config V E F) :
    Event V E F → Multiset (Obj F) → Node V E F → Multiset (Obj F) → Prop
  | newPromise (canceler : Bool) :
      Spawn c (.newPromise c.fresh) 0 ⟨.empty, false, .promise canceler⟩
        {.handle .promise true c.fresh}
  | makePromise (canceler : Bool) :
      Spawn c (.newPromise c.fresh) 0 ⟨.empty, false, .promise canceler⟩
        {.handle .promise false c.fresh, .future true c.fresh}
  | newTask (fn : F) :
      Spawn c (.newTask c.fresh fn) 0 ⟨.empty, false, .task (some fn)⟩
        {.handle .task true c.fresh}
  | attach (a : Action F) :
      Spawn c (.attach c.fresh a) {.future a.unique a.parent} ⟨.empty, false, .cnt true (some a)⟩
        (.future true c.fresh ::ₘ c.push a.parent (.schedule c.fresh) ::ₘ a.keeps)
  | whenAll (futures : List Input) :
      Spawn c (.combine c.fresh futures) (inputObjs futures)
        ⟨.empty, false, .whenAll futures (futures.length + 1)⟩ {.making c.fresh 0}
  | whenAny (futures : List Input) :
      Spawn c (.combine c.fresh futures) (inputObjs futures)
        ⟨.empty, false, .whenAny futures false npos⟩ {.making c.fresh 0}
  /-- `make_ready_future(Sequence{})` -/
  | readySequence (body : Body F) (hbody : body = .whenAll [] 0 ∨ body = .whenAny [] false npos) :
      Spawn c (.combine c.fresh []) 0 ⟨.empty, true, body⟩ {.future true c.fresh}

/-- **Steps that store a result in an empty state**, before `execute`. -/
inductive Settle (c : Config V E F) :
    Event V E F → Multiset (Obj F) → ℕ → Storage V E → (Body F → Body F) →
      Multiset (Obj F) → Prop
  | setValue (owning : Bool) (s : ℕ) (v : V) (hlock : Owned c s) :
      Settle c (.set s (.inl v)) {.handle .promise owning s} s (.value v) id
        {.handle .promise owning s}
  | setException (owning : Bool) (s : ℕ) (e : E) (hlock : Owned c s) :
      Settle c (.set s (.inr e)) {.handle .promise owning s} s (.exception (.user e)) id
        {.handle .promise owning s}
  | abandon (h : Producer) (owning : Bool) (s : ℕ) (hlock : Owned c s)
      (hweak : h = .promise → owning = false) (hpend : c.isExecuted s = false) :
      Settle c (.drop h s) {.handle h owning s} s (.exception .brokenPromise) (Body.clean h) 0
  | passError (s l : ℕ) (a : Action F) (x : Exn E) (hk : a.kind = .next)
      (ho : Resolves c a.parent l (.exception x)) :
      Settle c (.passError s a x) {.running s a} s (.exception x) id {.held a.parent}
  | ret (h : Caller) (s : ℕ) (r : Ret V E) :
      Settle c (.ret h s r) {.invoked h s} s r.storage id (cleanup h s)

/-- **Steps that change the body of a node** and nothing else of it. -/
inductive Touch (c : Config V E F) :
    Event V E F → Multiset (Obj F) → ℕ → Node V E F → Body F → Multiset (Obj F) → Prop
  /-- `abandon` finds the state ready, or unwrapped -/
  | abandon (h : Producer) (owning : Bool) (s : ℕ) (nd : Node V E F) (hlock : Owned c s)
      (hweak : h = .promise → owning = false)
      (hdone : nd.executed = true ∨ ∃ t, nd.storage = .inner t) :
      Touch c (.drop h s) {.handle h owning s} s nd (nd.body.clean h) 0
  | schedule (t s : ℕ) (nd : Node V E F) (a : Option (Action F)) (hlock : Owned c s)
      (hb : nd.body = .cnt true a) :
      Touch c (.call t (.schedule s)) {.queued t (.schedule s)} s nd (.cnt false a)
        {.spent t (.schedule s), .handle .action false s}
  | run (s : ℕ) (nd : Node V E F) (exec : Bool) (a : Action F) (hlock : Owned c s)
      (hb : nd.body = .cnt exec (some a)) :
      Touch c (.run s) {.handle .action false s} s nd (.cnt exec none) {.running s a}
  | clean (s : ℕ) (nd : Node V E F) :
      Touch c (.clean s) {.cleaning s} s nd (nd.body.clean .task) 0
  | notify (t w : ℕ) (pos : ℕ) (nd : Node V E F) :
      Touch c (.call t (.combine w pos)) {.queued t (.combine w pos)} w nd (nd.body.notify pos).1
        (.spent t (.combine w pos) ::ₘ executeIf (nd.body.notify pos).2 w)
  /-- an input that is ready: `push` calls the closure -/
  | register (w : ℕ) (i : ℕ) (nd : Node V E F) (f : Input)
      (hi : nd.body.futures[i]? = some f) (hready : c.isExecuted f.2 = true) :
      Touch c (.register w i) {.making w i} w nd (nd.body.notify i).1
        (.making w (i + 1) ::ₘ .spent f.2 (.combine w i) ::ₘ executeIf (nd.body.notify i).2 w)
  | finish (w : ℕ) (i : ℕ) (nd : Node V E F) (hi : i = nd.body.futures.length) :
      Touch c (.finish w) {.making w i} w nd nd.body.finish.1
        (.future true w ::ₘ executeIf nd.body.finish.2 w)
  /-- `future::get` of a sequence -/
  | take (s w : ℕ) (nd : Node V E F) (ho : Resolves c s w .futures) :
      Touch c (.take s) {.future true s} w nd nd.body.moveFutures
        (.held s ::ₘ inputObjs nd.body.futures)
  /-- `next` of a `future` on a sequence -/
  | invokeNext (s w : ℕ) (a : Action F) (nd : Node V E F) (hk : a.kind = .next)
      (hu : a.unique = true) (ho : Resolves c a.parent w .futures) :
      Touch c (.invoke s a) {.running s a} w nd nd.body.moveFutures
        (.invoked .cnt s ::ₘ .held a.parent ::ₘ inputObjs nd.body.futures)

/-- A closure of the list of `s` leaves it. -/
def Obj.unlink (s : ℕ) : Obj F → Obj F
  | .linked t k => if t = s then .queued t k else .linked t k
  | o => o

/-- Whether an object is in the list of `s`. -/
def Obj.isLinked (s : ℕ) : Obj F → Bool
  | .linked t _ => t = s
  | _ => false

/-- **The step relation.** -/
inductive Step : Config V E F → Event V E F → Config V E F → Prop
  | move {c : Config V E F} {e : Event V E F} {rem add rest : Multiset (Obj F)}
      (hm : Move c e rem add) (ho : c.objs = rem + rest) :
      Step c e { c with objs := add + rest }
  | spawn {c : Config V E F} {e : Event V E F} {rem add rest : Multiset (Obj F)}
      {nd : Node V E F} (hs : Spawn c e rem nd add) (ho : c.objs = rem + rest) :
      Step c e ⟨c.setNode c.fresh nd, add + rest, c.fresh + 1⟩
  | settle {c : Config V E F} {e : Event V E F} {rem add rest : Multiset (Obj F)}
      {s : ℕ} {x : Storage V E} {clean : Body F → Body F} {nd : Node V E F}
      (hs : Settle c e rem s x clean add) (ho : c.objs = rem + rest)
      (hn : c.nodes s = some nd) (hempty : nd.storage = .empty) :
      Step c e { c with
        nodes := c.setNode s { nd with storage := x, body := clean nd.body }
        objs := .execute s ::ₘ (add + rest) }
  /-- `storage_.emplace(in_place_index_t<2>{}, val)`, whatever it held -/
  | unwrap {c : Config V E F} {h : Caller} {s t : ℕ} {u : Bool}
      {rest : Multiset (Obj F)} {nd : Node V E F}
      (ho : c.objs = {.invoked h s, .future u t} + rest) (hn : c.nodes s = some nd) :
      Step c (.unwrap h s t) { c with
        nodes := c.setNode s { nd with storage := .inner t }
        objs := .subscribing s t ::ₘ (cleanup h s + rest) }
  | touch {c : Config V E F} {e : Event V E F} {rem add rest : Multiset (Obj F)}
      {s : ℕ} {nd : Node V E F} {body : Body F} (ht : Touch c e rem s nd body add)
      (ho : c.objs = rem + rest) (hn : c.nodes s = some nd) :
      Step c e { c with nodes := c.setNode s { nd with body := body }, objs := add + rest }
  /-- `continuations().execute()` closes the list -/
  | execute {c : Config V E F} {s : ℕ} {rest : Multiset (Obj F)} {nd : Node V E F}
      (ho : c.objs = {.execute s} + rest) (hn : c.nodes s = some nd) :
      Step c (.execute s) { c with
        nodes := c.setNode s { nd with executed := true }
        objs := .held s ::ₘ rest.map (Obj.unlink s) }
  | destroy {c : Config V E F} {s : ℕ} {nd : Node V E F} (hn : c.nodes s = some nd)
      (hun : ¬ Owned c s) :
      Step c (.destroy s) { c with
        nodes := Function.update c.nodes s none
        objs := c.objs.filter fun o => ¬ o.isLinked s }

/-- Reachable when every step satisfies the guard `ok`. -/
def Reachable (ok : Config V E F → Event V E F → Prop) (c : Config V E F) : Prop :=
  Runs Step ok init c

end Futures

end PortableConcurrency
