import PortableConcurrency.Futures.Model

/-!
# Promises and their futures — the model

The `promise`s, `future`s and `shared_future`s that one thread has in its
variables, and the `shared_state`s that they refer to. An operation is a
call of the library to its end; it returns or it throws. A variable that
is destroyed is not used again, and what the program constructs gets the
next one.

A `weak_ptr` can be locked while some variable has a `shared_ptr` to the
state; the copies that a call has for itself are gone when it ends. An
operation that the program cannot write, as on a variable of another
type, or one that never returns, is no step.
-/

namespace PortableConcurrency

namespace Promise

open Futures (Exn Storage)

/-- `std::future_errc`, as thrown by the library. -/
inductive Errc
  | noState
  | futureAlreadyRetrieved
  | promiseAlreadySatisfied
  deriving DecidableEq, Repr

/-- What an operation throws: a `future_error`, what the value's own
constructor throws, or the exception that is stored. -/
inductive Thrown (E : Type*)
  | error (x : Errc)
  | exception (x : Exn E)
  deriving DecidableEq, Repr

/-- What the program sees of an operation. -/
inductive Response (V E : Type*)
  | done
  | answer (b : Bool)
  | value (v : V)
  | throws (x : Thrown E)
  deriving DecidableEq, Repr

variable {V E : Type*}

/-! ## `shared_state` -/

/-- A `shared_state`, or a `cancellable_state`. -/
structure SharedState (V E : Type*) where
  storage : Storage V E
  executed : Bool
  canceler : Bool
  deriving DecidableEq, Repr

namespace SharedState

/-- `emplace`, with what the value's constructor makes of its argument. -/
def emplace (st : SharedState V E) (x : Except E V) : SharedState V E × Response V E :=
  match st.storage, x with
  | .empty, .ok v => ({ st with storage := .value v, executed := true }, .done)
  | .empty, .error e => (st, .throws (.exception (.user e)))
  | _, _ => (st, .throws (.error .promiseAlreadySatisfied))

def setException (st : SharedState V E) (x : Exn E) : SharedState V E × Response V E :=
  match st.storage with
  | .empty => ({ st with storage := .exception x, executed := true }, .done)
  | _ => (st, .throws (.error .promiseAlreadySatisfied))

def abandon (st : SharedState V E) : SharedState V E × Response V E :=
  match st.executed, st.storage with
  | false, .inner _ => (st, .done)
  | false, _ => st.setException .brokenPromise
  | true, _ => (st, .done)

/-- `value_ref`, of a state that is ready and not unwrapped. -/
def read (st : SharedState V E) : Option (Response V E) :=
  match st.storage with
  | .value v => some (.value v)
  | .exception x => some (.throws (.exception x))
  | _ => none

end SharedState

/-! ## The program's variables -/

/-- `either<monostate, std::shared_ptr<shared_state<T>>,
std::weak_ptr<shared_state<T>>>`. -/
inductive Either
  | monostate
  | shared (s : ℕ)
  | weak (s : ℕ)
  deriving DecidableEq, Repr

/-- What a variable is: nothing that exists, a promise, a `future` or a
`shared_future`. -/
inductive Object
  | gone
  | promise (state : Either)
  | future (unique : Bool) (state : Option ℕ)
  deriving DecidableEq, Repr

/-- Its `shared_ptr`. -/
def Object.ref : Object → Option ℕ
  | .promise (.shared s) => some s
  | .future _ state => state
  | _ => none

/-- **The variables and the states.** -/
structure World (V E : Type*) where
  objects : ℕ → Object
  vars : ℕ
  states : ℕ → SharedState V E
  fresh : ℕ

namespace World

def init : World V E := ⟨fun _ => .gone, 0, fun _ => ⟨.empty, false, false⟩, 0⟩

/-- Some variable has a `shared_ptr` to `s`. -/
def Owned (w : World V E) (s : ℕ) : Prop := ∃ x < w.vars, (w.objects x).ref = some s

instance (w : World V E) (s : ℕ) : Decidable (w.Owned s) :=
  inferInstanceAs (Decidable (∃ x < w.vars, (w.objects x).ref = some s))

def setObject (w : World V E) (x : ℕ) (o : Object) : World V E :=
  { w with objects := Function.update w.objects x o }

/-- A variable is constructed. -/
def push (w : World V E) (o : Object) : World V E :=
  { w with objects := Function.update w.objects w.vars o, vars := w.vars + 1 }

/-- `std::make_shared` and `std::allocate_shared` of a state. -/
def alloc (w : World V E) (canceler : Bool) : World V E :=
  { w with
    states := Function.update w.states w.fresh ⟨.empty, false, canceler⟩
    fresh := w.fresh + 1 }

def setState (w : World V E) (s : ℕ) (st : SharedState V E) : World V E :=
  { w with states := Function.update w.states s st }

/-! ## `promise_common` -/

/-- `get_state`. -/
def getState (w : World V E) : Either → Except Errc (Option ℕ)
  | .monostate => .error .noState
  | .shared s => .ok (some s)
  | .weak s => .ok (if w.Owned s then some s else none)

/-- `set_value` and `set_exception`: `f` is called on the state if there is
one. -/
def set (w : World V E) (p : Either)
    (f : SharedState V E → SharedState V E × Response V E) : World V E × Response V E :=
  match w.getState p with
  | .error x => (w, .throws (.error x))
  | .ok none => (w, .done)
  | .ok (some s) => (w.setState s (f (w.states s)).1, (f (w.states s)).2)

/-- `abandon`. -/
def abandon (w : World V E) : Either → World V E × Response V E
  | .weak s =>
    if w.Owned s then (w.setState s (w.states s).abandon.1, (w.states s).abandon.2)
    else (w, .done)
  | .shared _ => (w, .done)
  | .monostate => (w, .done)

/-- `is_awaiten`. -/
def isAwaiten (w : World V E) : Either → Response V E
  | .shared _ => .answer true
  | .weak s => .answer (w.Owned s)
  | .monostate => .throws (.error .noState)

/-- `get_future`, of the promise `x`. -/
def getFuture (w : World V E) (x : ℕ) : Either → World V E × Response V E
  | .weak _ => (w, .throws (.error .futureAlreadyRetrieved))
  | .monostate => (w, .throws (.error .noState))
  | .shared s => ((w.setObject x (.promise (.weak s))).push (.future true (some s)), .done)

end World

/-! ## Operations -/

inductive Op (V E : Type*)
  /-- the constructors of `promise`, one of which takes a canceler -/
  | construct (canceler : Bool)
  /-- `make_promise`: a promise, and then its future -/
  | makePromise (canceler : Bool)
  /-- the promise that an interruptible continuation is given, and the
  future of the continuation -/
  | interruptible
  | getFuture (x : ℕ)
  | setValue (x : ℕ) (v : Except E V)
  | setException (x : ℕ) (e : Exn E)
  | isAwaiten (x : ℕ)
  /-- a promise is constructed from `x` -/
  | moveConstruct (x : ℕ)
  /-- `x = std::move(y)` -/
  | moveAssign (x y : ℕ)
  | destroy (x : ℕ)
  /-- a `shared_future` is constructed from the `future` `x` -/
  | share (x : ℕ)
  /-- a `shared_future` is constructed from the `shared_future` `x` -/
  | copy (x : ℕ)
  /-- a future is constructed from `x`, of the same type -/
  | moveFuture (x : ℕ)
  | assignFuture (x y : ℕ)
  | dropFuture (x : ℕ)
  | isReady (x : ℕ)
  | get (x : ℕ)
  deriving Repr

namespace World

/-- **One operation.** -/
def step (w : World V E) : Op V E → Option (World V E × Response V E)
  | .construct canceler => some ((w.alloc canceler).push (.promise (.shared w.fresh)), .done)
  | .makePromise canceler =>
    some (((w.alloc canceler).push (.promise (.weak w.fresh))).push
      (.future true (some w.fresh)), .done)
  | .interruptible =>
    some (((w.alloc false).push (.promise (.weak w.fresh))).push
      (.future true (some w.fresh)), .done)
  | .getFuture x =>
    match w.objects x with
    | .promise p => some (w.getFuture x p)
    | _ => none
  | .setValue x v =>
    match w.objects x with
    | .promise p => some (w.set p fun st => st.emplace v)
    | _ => none
  | .setException x e =>
    match w.objects x with
    | .promise p => some (w.set p fun st => st.setException e)
    | _ => none
  | .isAwaiten x =>
    match w.objects x with
    | .promise p => some (w, w.isAwaiten p)
    | _ => none
  | .moveConstruct x =>
    match w.objects x with
    | .promise p => some ((w.setObject x (.promise .monostate)).push (.promise p), .done)
    | _ => none
  | .moveAssign x y =>
    if x = y then none
    else
      match w.objects x, w.objects y with
      | .promise p, .promise q =>
        some (((w.abandon p).1.setObject x (.promise q)).setObject y (.promise .monostate),
          (w.abandon p).2)
      | _, _ => none
  | .destroy x =>
    match w.objects x with
    | .promise p => some ((w.abandon p).1.setObject x .gone, (w.abandon p).2)
    | _ => none
  | .share x =>
    match w.objects x with
    | .future true state =>
      some ((w.setObject x (.future true none)).push (.future false state), .done)
    | _ => none
  | .copy x =>
    match w.objects x with
    | .future false state => some (w.push (.future false state), .done)
    | _ => none
  | .moveFuture x =>
    match w.objects x with
    | .future unique state =>
      some ((w.setObject x (.future unique none)).push (.future unique state), .done)
    | _ => none
  | .assignFuture x y =>
    if x = y then none
    else
      match w.objects x, w.objects y with
      | .future unique _, .future unique' state =>
        if unique = unique' then
          some ((w.setObject x (.future unique state)).setObject y (.future unique none), .done)
        else none
      | _, _ => none
  | .dropFuture x =>
    match w.objects x with
    | .future _ _ => some (w.setObject x .gone, .done)
    | _ => none
  | .isReady x =>
    match w.objects x with
    | .future _ none => some (w, .throws (.error .noState))
    | .future _ (some s) => some (w, .answer (w.states s).executed)
    | _ => none
  | .get x =>
    match w.objects x with
    | .future _ none => some (w, .throws (.error .noState))
    | .future unique (some s) =>
      -- `wait` returns when the state is ready
      if (w.states s).executed then
        (w.states s).read.map fun r => (if unique then w.setObject x (.future true none) else w, r)
      else none
    | _ => none

/-- The states that an operation destroys before they are ready, whose
cancelers are called. -/
def cancelled (w w' : World V E) : List ℕ :=
  (List.range w.fresh).filter fun s =>
    w.Owned s ∧ ¬ w'.Owned s ∧ (w'.states s).canceler = true ∧ (w'.states s).executed = false

/-- **What the program sees**: of each operation, what it returns or
throws, and whose cancelers are called. -/
def run (w : World V E) : List (Op V E) → List (Response V E × List ℕ)
  | [] => []
  | op :: ops =>
    match w.step op with
    | some (w', r) => (r, w.cancelled w') :: w'.run ops
    | none => []

end World

end Promise

end PortableConcurrency
