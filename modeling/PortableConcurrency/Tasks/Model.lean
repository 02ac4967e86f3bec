import PortableConcurrency.Promise.Model

/-!
# Tasks and their futures — the model

The `packaged_task`s and the futures that one thread has in its variables,
and the `task_state`s that they refer to. An operation is a call of the
library to its end, and the function of a task does not use the library.
A variable that is destroyed is not used again, and what the program
constructs gets the next one.

What is not a variable is the environment: continuations and combinators
that were given a future own its state for a while, and so does a state
that was unwrapped onto it; and the state that a function has returned a
future of becomes ready at some time, with some result. The environment
does these things between the operations, in any order.

A `weak_ptr` can be locked while somebody has a `shared_ptr` to the state.
When nobody has, the state is destroyed, and its function if that is still
there.
-/

namespace PortableConcurrency

namespace Tasks

open Futures (Exn)
open Promise (Errc Thrown)

/-- What a future gives in the end. -/
abbrev Result (V E : Type*) := Except (Exn E) V

/-- What the program sees of an operation. -/
inductive Reply (V E : Type*)
  | done
  | answer (b : Bool)
  | value (v : V)
  | throws (x : Thrown E)
  deriving DecidableEq, Repr

/-- `either<monostate, state_storage_t<R>, std::shared_ptr<future_state<R>>,
std::exception_ptr>`. Of the inner state only its result matters, once it
is ready. -/
inductive Stored (V E : Type*)
  | empty
  | value (v : V)
  | inner (result : Option (Result V E))
  | exception (x : Exn E)

/-- **A `task_state`.** `detached` says whether a closure of `detach` is in
its list. -/
structure TaskState (V E F : Type*) where
  func : Option F
  storage : Stored V E
  executed : Bool
  detached : Bool

/-- What the function of a task comes to: a value, an exception, or a
future, if that is valid, and the result of that, if it is ready. -/
inductive Returned (V E : Type*)
  | value (v : V)
  | throws (e : E)
  | future (val : Option (Option (Result V E)))

namespace TaskState

variable {V E F : Type*}

/-- `continuations().execute()`. -/
def execute (st : TaskState V E F) : TaskState V E F :=
  { st with executed := true, detached := false }

def emplace (st : TaskState V E F) (v : V) : TaskState V E F × Reply V E :=
  match st.storage with
  | .empty => ({ st with storage := .value v }.execute, .done)
  | _ => (st, .throws (.error .promiseAlreadySatisfied))

def setException (st : TaskState V E F) (x : Exn E) : TaskState V E F × Reply V E :=
  match st.storage with
  | .empty => ({ st with storage := .exception x }.execute, .done)
  | _ => (st, .throws (.error .promiseAlreadySatisfied))

def unwrap (st : TaskState V E F) :
    Option (Option (Result V E)) → TaskState V E F × Reply V E
  | none => st.setException .brokenPromise
  | some none => ({ st with storage := .inner none }, .done)
  | some (some r) => ({ st with storage := .inner (some r) }.execute, .done)

/-- `set_state_value`. -/
def setStateValue (st : TaskState V E F) : Returned V E → TaskState V E F × Reply V E
  | .value v => st.emplace v
  | .throws e => st.setException (.user e)
  | .future val => st.unwrap val

/-- `run`, and the function that it calls. -/
def run (st : TaskState V E F) (o : Returned V E) :
    TaskState V E F × Reply V E × Option F :=
  match st.func with
  | none => (st, .throws (.error .promiseAlreadySatisfied), none)
  | some f => ({ (st.setStateValue o).1 with func := none }, (st.setStateValue o).2, some f)

/-- `abandon` of a `task_state`. -/
def abandon (st : TaskState V E F) : TaskState V E F × Reply V E :=
  match st.executed, st.storage with
  | true, _ => ({ st with func := none }, .done)
  | false, .inner _ => ({ st with func := none }, .done)
  | false, _ => { st with func := none }.setException .brokenPromise

/-- The callback of `unwrap`. -/
def resolve (st : TaskState V E F) (r : Result V E) : Option (TaskState V E F) :=
  match st.storage with
  | .inner none => some { st with storage := .inner (some r) }.execute
  | _ => none

/-- `value_ref` and `exception`, of a state that is ready. -/
def read (st : TaskState V E F) : Option (Result V E) :=
  match st.storage with
  | .value v => some (.ok v)
  | .inner result => result
  | .exception x => some (.error x)
  | .empty => none

end TaskState

/-! ## The program's variables -/

/-- `either<monostate, std::shared_ptr<packaged_task_state<R, A...>>,
std::weak_ptr<packaged_task_state<R, A...>>>`. -/
inductive Either
  | monostate
  | shared (s : ℕ)
  | weak (s : ℕ)
  deriving DecidableEq, Repr

/-- What a variable is: nothing that exists, a `packaged_task`, a `future`
or a `shared_future`. -/
inductive Object
  | gone
  | task (state : Either)
  | future (unique : Bool) (state : Option ℕ)
  deriving DecidableEq, Repr

/-- Its `shared_ptr`. -/
def Object.ref : Object → Option ℕ
  | .task (.shared s) => some s
  | .future _ state => state
  | _ => none

/-- **The variables and the states.** `foreign` counts the `shared_ptr`s to
a state that the environment has. -/
structure World (V E F : Type*) where
  objects : ℕ → Object
  vars : ℕ
  states : ℕ → TaskState V E F
  fresh : ℕ
  foreign : ℕ → ℕ

namespace World

variable {V E F : Type*}

/-- Nothing exists. What stands for a state that is not made yet is never
looked at. -/
def init : World V E F :=
  ⟨fun _ => .gone, 0, fun _ => ⟨none, .inner none, false, false⟩, 0, fun _ => 0⟩

/-- **Somebody has a `shared_ptr` to `s`**: a variable, the environment, or
a closure in the list of `s` itself. -/
def Owned (w : World V E F) (s : ℕ) : Prop :=
  (∃ x < w.vars, (w.objects x).ref = some s) ∨ 0 < w.foreign s ∨ (w.states s).detached = true

instance (w : World V E F) (s : ℕ) : Decidable (w.Owned s) :=
  inferInstanceAs (Decidable ((∃ x < w.vars, (w.objects x).ref = some s) ∨ _ ∨ _))

def setObject (w : World V E F) (x : ℕ) (o : Object) : World V E F :=
  { w with objects := Function.update w.objects x o }

/-- A variable is constructed. -/
def push (w : World V E F) (o : Object) : World V E F :=
  { w with objects := Function.update w.objects w.vars o, vars := w.vars + 1 }

/-- `std::make_shared` of a state. -/
def alloc (w : World V E F) (f : F) : World V E F :=
  { w with
    states := Function.update w.states w.fresh ⟨some f, .empty, false, false⟩
    fresh := w.fresh + 1 }

def setState (w : World V E F) (s : ℕ) (st : TaskState V E F) : World V E F :=
  { w with states := Function.update w.states s st }

/-- The environment has another `shared_ptr` to the state, if there is
one. -/
def lend (w : World V E F) : Option ℕ → World V E F
  | none => w
  | some s => { w with foreign := Function.update w.foreign s (w.foreign s + 1) }

/-! ## `packaged_task` -/

/-- `get_state`, and whether it throws. -/
def getState (w : World V E F) : Either → Except Errc (Option ℕ)
  | .monostate => .error .noState
  | .shared s => .ok (some s)
  | .weak s => .ok (if w.Owned s then some s else none)

/-- The destructor, and the first half of an assignment. It uses
`get_state(false)`. -/
def abandon (w : World V E F) (p : Either) : World V E F × Reply V E :=
  match w.getState p with
  | .ok (some s) => (w.setState s (w.states s).abandon.1, (w.states s).abandon.2)
  | _ => (w, .done)

/-- `operator()`. -/
def call (w : World V E F) (p : Either) (o : Returned V E) :
    World V E F × Reply V E × Option F :=
  match w.getState p with
  | .error x => (w, .throws (.error x), none)
  | .ok none => (w, .done, none)
  | .ok (some s) =>
    (w.setState s ((w.states s).run o).1, ((w.states s).run o).2.1, ((w.states s).run o).2.2)

/-- `get_future`, of the task `x`. -/
def getFuture (w : World V E F) (x : ℕ) : Either → World V E F × Reply V E
  | .weak _ => (w, .throws (.error .futureAlreadyRetrieved))
  | .monostate => (w, .throws (.error .noState))
  | .shared s => ((w.setObject x (.task (.weak s))).push (.future true (some s)), .done)

/-- Whether a call of `p` calls the function. -/
def Runs (w : World V E F) (p : Either) : Prop :=
  match w.getState p with
  | .ok (some s) => (w.states s).func.isSome = true
  | _ => False

instance (w : World V E F) (p : Either) : Decidable (w.Runs p) := by
  unfold Runs
  split <;> infer_instance

end World

/-! ## Operations -/

/-- What a function returns, as the program gives it: `future` is one of
its futures, moved from, with the result of that if it is ready; `other`
is a valid future of something else. -/
inductive Comes (V E : Type*)
  | value (v : V)
  | throws (e : E)
  | future (y : ℕ) (result : Option (Result V E))
  | other (result : Option (Result V E))

inductive Op (V E F : Type*)
  | construct (f : F)
  /-- a task without a function -/
  | constructEmpty
  | valid (x : ℕ)
  | getFuture (x : ℕ)
  | call (x : ℕ) (o : Comes V E)
  /-- a task is constructed from `x` -/
  | moveConstruct (x : ℕ)
  /-- `x = std::move(y)` -/
  | moveAssign (x y : ℕ)
  | swap (x y : ℕ)
  | destroy (x : ℕ)
  /-- a `shared_future` is constructed from the `future` `x` -/
  | share (x : ℕ)
  /-- a `shared_future` is constructed from the `shared_future` `x` -/
  | copy (x : ℕ)
  /-- a future is constructed from `x`, of the same type -/
  | moveFuture (x : ℕ)
  | assignFuture (x y : ℕ)
  | dropFuture (x : ℕ)
  | detach (x : ℕ)
  | isReady (x : ℕ)
  | get (x : ℕ)
  /-- the future `x` is given to the environment -/
  | give (x : ℕ)
  /-- the environment lets go of `s` -/
  | release (s : ℕ)
  /-- the state that `s` was unwrapped onto becomes ready -/
  | resolve (s : ℕ) (r : Result V E)

namespace World

variable {V E F : Type*}

/-- What the function comes to, and the state that the environment has
then: the future is moved into the state of the task. -/
def returned (w : World V E F) : Comes V E → Option (World V E F × Returned V E)
  | .value v => some (w, .value v)
  | .throws e => some (w, .throws e)
  | .other result => some (w, .future (some result))
  | .future y result =>
    match w.objects y with
    | .future unique state =>
      some ((w.setObject y (.future unique none)).lend state, .future (state.map fun _ => result))
    | _ => none

/-- **One operation**, and the function that it calls. -/
def step (w : World V E F) : Op V E F → Option (World V E F × Reply V E × Option F)
  | .construct f => some ((w.alloc f).push (.task (.shared w.fresh)), .done, none)
  | .constructEmpty => some (w.push (.task .monostate), .done, none)
  | .valid x =>
    match w.objects x with
    | .task p => some (w, .answer (p ≠ .monostate), none)
    | _ => none
  | .getFuture x =>
    match w.objects x with
    | .task p => some ((w.getFuture x p).1, (w.getFuture x p).2, none)
    | _ => none
  | .call x o =>
    match w.objects x with
    | .task p =>
      -- what is returned matters only where the function is called
      if w.Runs p then
        match w.returned o with
        | some (w', r) => some (w'.call p r)
        | none => none
      else some (w.call p (.future none))
    | _ => none
  | .moveConstruct x =>
    match w.objects x with
    | .task p => some ((w.setObject x (.task .monostate)).push (.task p), .done, none)
    | _ => none
  | .moveAssign x y =>
    if x = y then none
    else
      match w.objects x, w.objects y with
      | .task p, .task q =>
        some (((w.abandon p).1.setObject x (.task q)).setObject y (.task .monostate),
          (w.abandon p).2, none)
      | _, _ => none
  | .swap x y =>
    match w.objects x, w.objects y with
    | .task p, .task q => some ((w.setObject x (.task q)).setObject y (.task p), .done, none)
    | _, _ => none
  | .destroy x =>
    match w.objects x with
    | .task p => some ((w.abandon p).1.setObject x .gone, (w.abandon p).2, none)
    | _ => none
  | .share x =>
    match w.objects x with
    | .future true state =>
      some ((w.setObject x (.future true none)).push (.future false state), .done, none)
    | _ => none
  | .copy x =>
    match w.objects x with
    | .future false state => some (w.push (.future false state), .done, none)
    | _ => none
  | .moveFuture x =>
    match w.objects x with
    | .future unique state =>
      some ((w.setObject x (.future unique none)).push (.future unique state), .done, none)
    | _ => none
  | .assignFuture x y =>
    if x = y then none
    else
      match w.objects x, w.objects y with
      | .future unique _, .future unique' state =>
        if unique = unique' then
          some ((w.setObject x (.future unique state)).setObject y (.future unique none), .done,
            none)
        else none
      | _, _ => none
  | .dropFuture x =>
    match w.objects x with
    | .future _ _ => some (w.setObject x .gone, .done, none)
    | _ => none
  | .detach x =>
    match w.objects x with
    | .future _ none => some (w, .throws (.error .noState), none)
    | .future unique (some s) =>
      -- the closure is called at once, and destroyed, when the state is ready
      some (((if (w.states s).executed then w
        else w.setState s { w.states s with detached := true }).setObject x
          (.future unique none)).push (.future unique (some s)), .done, none)
    | _ => none
  | .isReady x =>
    match w.objects x with
    | .future _ none => some (w, .throws (.error .noState), none)
    | .future _ (some s) => some (w, .answer (w.states s).executed, none)
    | _ => none
  | .get x =>
    match w.objects x with
    | .future _ none => some (w, .throws (.error .noState), none)
    | .future unique (some s) =>
      -- `wait` returns when the state is ready
      if (w.states s).executed then
        (w.states s).read.map fun r =>
          (if unique then w.setObject x (.future true none) else w,
            match r with
            | .ok v => .value v
            | .error e => .throws (.exception e),
            none)
      else none
    | _ => none
  | .give x =>
    match w.objects x with
    | .future unique state =>
      some ((w.setObject x (.future unique none)).lend state, .done, none)
    | _ => none
  | .release s =>
    if 0 < w.foreign s then
      some ({ w with foreign := Function.update w.foreign s (w.foreign s - 1) }, .done, none)
    else none
  | .resolve s r =>
    -- the callback has a `weak_ptr`
    if w.Owned s then
      match (w.states s).resolve r with
      | some st => some (w.setState s st, .done, none)
      | none => none
    else none

/-- The functions that an operation destroys, with their states. -/
def destroyed (w w' : World V E F) : List (ℕ × Option F) :=
  ((List.range w.fresh).filter fun s =>
    w.Owned s ∧ (w.states s).func.isSome ∧ ¬ (w'.Owned s ∧ (w'.states s).func.isSome)).map
      fun s => (s, (w.states s).func)

/-- **What the program sees**: of each operation, what it returns or
throws, the function it calls and the functions it destroys. -/
def run (w : World V E F) : List (Op V E F) → List (Reply V E × Option F × List (ℕ × Option F))
  | [] => []
  | op :: ops =>
    match w.step op with
    | some (w', r, f) => (r, f, w.destroyed w') :: w'.run ops
    | none => []

end World

end Tasks

end PortableConcurrency
