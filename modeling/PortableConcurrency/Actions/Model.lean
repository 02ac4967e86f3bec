import PortableConcurrency.Common.Runs
import PortableConcurrency.Futures.Model

/-!
# Actions in the hands of executors — the model

`cnt_state::schedule` gives the executor of a continuation a `cnt_action`,
which has a `weak_ptr` to the state. What an executor does with it is its
own affair: it constructs actions from others, assigns to them, calls them,
more than once if it likes, and destroys them. `run` and the destructor
look after the state.

The actions that exist are variables. One that is destroyed is not used
again, and what is constructed gets the next one. The operations of an
executor do not throw, and the continuation's own function neither uses
actions nor takes a promise.
-/

namespace PortableConcurrency

namespace Actions

open Futures (Exn Storage)

/-- **A `cnt_state` that has been scheduled**: its `action` until that is
cleaned, and its state. `alive` says whether its result future still
exists, and `calls` counts the calls of the user's function. -/
structure CntState (V E F : Type*) where
  action : Option F
  storage : Storage V E
  executed : Bool
  alive : Bool
  calls : ℕ

/-- What the decorated function comes to. -/
inductive Outcome (V E : Type*)
  /-- `next` passes an error on and does not call the user's function -/
  | passes (x : Exn E)
  /-- the user's function returns a value or an invalid future, or throws -/
  | ret (r : Futures.Ret V E)
  /-- it returns a valid future, which is ready or not -/
  | future (t : ℕ) (ready : Bool)

namespace CntState

variable {V E F : Type*}

/-- `shared_state::emplace` and `set_exception`, which throw if something
is stored. -/
def store (st : CntState V E F) (x : Storage V E) : Option (CntState V E F) :=
  match st.storage with
  | .empty => some { st with storage := x, executed := true }
  | _ => none

/-- The decorated function. -/
def invoke (st : CntState V E F) : Outcome V E → Option (CntState V E F)
  | .passes x => st.store (.exception x)
  | .ret r => { st with calls := st.calls + 1 }.store r.storage
  | .future t ready =>
    some { st with calls := st.calls + 1, storage := .inner t, executed := ready || st.executed }

/-- `run`, on a state that could be locked. There is none if an `assert`
fails or something is thrown, since `run` is `noexcept`. -/
def run (st : CntState V E F) (o : Outcome V E) : Option (CntState V E F) :=
  match st.action with
  | some _ => { st with action := none }.invoke o
  | none => none

/-- `abandon`: first the state, then the action. -/
def abandon (st : CntState V E F) : Option (CntState V E F) :=
  match st.executed, st.storage with
  | true, _ => some { st with action := none }
  | false, .inner _ => some { st with action := none }
  | false, _ => (st.store (.exception .brokenPromise)).map fun st => { st with action := none }

end CntState

/-- **The actions and the states.** An action that exists has a `weak_ptr`,
unless that was moved away. -/
structure World (V E F : Type*) where
  actions : ℕ → Option (Option ℕ)
  vars : ℕ
  states : ℕ → CntState V E F
  fresh : ℕ

/-- What executors do. -/
inductive Op (V E F : Type*)
  /-- `cnt_state::schedule` posts an action for a continuation with the
  function `f` -/
  | post (f : F)
  /-- an action is constructed from `x` -/
  | moveConstruct (x : ℕ)
  /-- `x = std::move(y)` -/
  | moveAssign (x y : ℕ)
  | call (x : ℕ) (o : Outcome V E)
  | destroy (x : ℕ)
  /-- the result future of `c` goes, and the state with it -/
  | expire (c : ℕ)

namespace World

variable {V E F : Type*}

def init : World V E F := ⟨fun _ => none, 0, fun _ => ⟨none, .empty, false, false, 0⟩, 0⟩

def setAction (w : World V E F) (x : ℕ) (a : Option (Option ℕ)) : World V E F :=
  { w with actions := Function.update w.actions x a }

/-- An action is constructed. -/
def push (w : World V E F) (a : Option ℕ) : World V E F :=
  { w with actions := Function.update w.actions w.vars (some a), vars := w.vars + 1 }

def setState (w : World V E F) (c : ℕ) (st : CntState V E F) : World V E F :=
  { w with states := Function.update w.states c st }

/-- `f` is called on the state if the `weak_ptr` can be locked. -/
def lock (w : World V E F) (a : Option ℕ) (f : CntState V E F → Option (CntState V E F)) :
    Option (World V E F) :=
  match a with
  | none => some w
  | some c => if (w.states c).alive then (f (w.states c)).map (w.setState c) else some w

/-- **One operation.** -/
def step (w : World V E F) : Op V E F → Option (World V E F)
  | .post f =>
    some { w.push (some w.fresh) with
      states := Function.update w.states w.fresh ⟨some f, .empty, false, true, 0⟩
      fresh := w.fresh + 1 }
  | .moveConstruct x =>
    match w.actions x with
    | some a => some ((w.setAction x (some none)).push a)
    | none => none
  | .moveAssign x y =>
    match w.actions x, w.actions y with
    | some _, some a =>
      -- a `weak_ptr` that is assigned to itself stays as it is
      if x = y then some w else some ((w.setAction x (some a)).setAction y (some none))
    | _, _ => none
  | .call x o =>
    match w.actions x with
    | some a => (w.setAction x (some none)).lock a fun st => st.run o
    | none => none
  | .destroy x =>
    match w.actions x with
    | some a => (w.lock a fun st => st.abandon).map fun w => w.setAction x none
    | none => none
  | .expire c =>
    if (w.states c).alive then some (w.setState c { w.states c with alive := false }) else none

/-- The operations as a relation. -/
def Step (w : World V E F) (op : Op V E F) (w' : World V E F) : Prop := w.step op = some w'

/-- Action `x` refers to `c`. -/
def Refers (w : World V E F) (x c : ℕ) : Prop := w.actions x = some (some c)

end World

end Actions

end PortableConcurrency
