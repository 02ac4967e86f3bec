import Mathlib.Data.List.Basic
import Mathlib.Data.Nat.Notation

/-!
# Exceptions that leave a continuation — the model

A call of `set_value` calls the continuations of the state one after the
other, and each may throw: a notification of a user, a user's `post`, or,
where the continuation makes another state ready, the continuations of
that state. `set_state_value` has to tell these exceptions from those of
the user's function and of the copy that stores its result.

One thread is followed, from the outermost call to its end. An exception
is what `throw` was given; what a continuation throws belongs to the
continuation. That memory is exhausted is not followed.
-/

namespace PortableConcurrency

namespace Exceptions

/-- What is thrown. Exceptions of the user's may be of any type. -/
inductive Thrown (E : Type*)
  | user (e : E)
  | brokenPromise
  | alreadySatisfied
  deriving DecidableEq, Repr

/-- **A continuation**, and what its call throws. -/
inductive Continuation (E F : Type*)
  /-- of `notify` -/
  | notify (f : F) (throws : Option (Thrown E))
  /-- of `detail::wait`, in a thread that is blocked -/
  | wait (thread : ℕ)
  /-- of `make_then_state`. An executor keeps the action that `post` gives
  it, or destroys it. -/
  | schedule (c : ℕ) (keeps : Bool) (throws : Option (Thrown E))
  /-- of `unwrap`: the list of `s` is executed -/
  | unwrapCb (s : ℕ) (throws : Option (Thrown E))
  /-- of `when_all_state::make` and `when_any_state::make` -/
  | combine (w pos : ℕ) (throws : Option (Thrown E))
  /-- of `detach` -/
  | detached (s : ℕ)
  deriving DecidableEq, Repr

/-- What a call of a continuation does for others. -/
inductive Effect (F : Type*)
  | called (f : F)
  | woke (thread : ℕ)
  | posted (c : ℕ)
  /-- the destructor of the action has abandoned `c` -/
  | abandoned (c : ℕ)
  | executed (s : ℕ)
  | notified (w pos : ℕ)
  | nothing
  deriving DecidableEq, Repr

namespace Continuation

variable {E F : Type*}

def throws : Continuation E F → Option (Thrown E)
  | .notify _ x => x
  | .wait _ => none
  | .schedule _ _ x => x
  | .unwrapCb _ x => x
  | .combine _ _ x => x
  | .detached _ => none

def effect : Continuation E F → Effect F
  | .notify f _ => .called f
  | .wait thread => .woke thread
  | .schedule c keeps _ => if keeps then .posted c else .abandoned c
  | .unwrapCb s _ => .executed s
  | .combine w pos _ => .notified w pos
  | .detached _ => .nothing

end Continuation

/-- The loop of `continuations_stack::execute`: the continuations it calls,
and what leaves it. -/
def callAll {E F : Type*} : List (Continuation E F) → List (Continuation E F) × Option (Thrown E)
  | [] => ([], none)
  | k :: ks =>
    match k.throws with
    | some x => ([k], some x)
    | none => (k :: (callAll ks).1, (callAll ks).2)

/-! ## `shared_state` -/

/-- `either<monostate, state_storage_t<T>, shared_ptr<future_state<T>>,
exception_ptr>`. -/
inductive Storage (V E : Type*)
  | empty
  | value (v : V)
  | inner (t : ℕ)
  | exception (x : Thrown E)
  deriving DecidableEq, Repr

/-- A state with its `continuations_stack`, the last one pushed in front,
or `none` when it is consumed. `log` are those that have been called. -/
structure State (V E F : Type*) where
  storage : Storage V E
  continuations : Option (List (Continuation E F))
  log : List (Continuation E F)
  deriving DecidableEq, Repr

/-- The `future` that a function returns, if it is valid: its state, and
whether that is ready. -/
structure Inner where
  state : ℕ
  ready : Bool
  deriving DecidableEq, Repr

namespace State

variable {V E F : Type*}

/-- `continuations_stack::push`. -/
def push (st : State V E F) (k : Continuation E F) : State V E F × Option (Thrown E) :=
  match st.continuations with
  | some ks => ({ st with continuations := some (k :: ks) }, none)
  | none => ({ st with log := st.log ++ [k] }, k.throws)

/-- A new state. -/
def new : State V E F := ⟨.empty, some [], []⟩

/-- A state that is not satisfied, after `ks` were pushed in this order. -/
def pending (ks : List (Continuation E F)) : State V E F := ks.foldl (fun st k => (st.push k).1) new

theorem foldl_push (ks ls : List (Continuation E F)) :
    ks.foldl (fun st k => (st.push k).1) (⟨.empty, some ls, []⟩ : State V E F) =
      ⟨.empty, some (ks.reverse ++ ls), []⟩ := by
  induction ks generalizing ls with
  | nil => rfl
  | cons k ks ih =>
    rw [List.foldl_cons, List.reverse_cons, List.append_assoc]
    exact ih (k :: ls)

/-- The last one pushed is in front. -/
theorem pending_eq (ks : List (Continuation E F)) :
    (pending ks : State V E F) = ⟨.empty, some ks.reverse, []⟩ := by
  rw [pending, new, foldl_push, List.append_nil]

/-- `continuations_stack::execute`. -/
def execute (st : State V E F) : State V E F × Option (Thrown E) :=
  match st.continuations with
  | some ks => ({ st with continuations := none, log := st.log ++ (callAll ks).1 }, (callAll ks).2)
  | none => (st, none)

/-- `emplace`, with what constructing the value comes to. -/
def emplace (st : State V E F) (x : Except (Thrown E) V) : State V E F × Option (Thrown E) :=
  match st.storage, x with
  | .empty, .ok v => { st with storage := .value v }.execute
  -- `either::emplace` has cleaned the storage and not set its tag
  | .empty, .error e => ({ st with storage := .empty }, some e)
  | _, _ => (st, some .alreadySatisfied)

def setException (st : State V E F) (x : Thrown E) : State V E F × Option (Thrown E) :=
  match st.storage with
  | .empty => { st with storage := .exception x }.execute
  | _ => (st, some .alreadySatisfied)

/-- `unwrap` of a future. The callback of a state that is ready is called
by `push`, and executes the list. -/
def unwrap (st : State V E F) : Option Inner → State V E F × Option (Thrown E)
  | none => st.setException .brokenPromise
  | some val =>
    if val.ready then { st with storage := .inner val.state }.execute
    else ({ st with storage := .inner val.state }, none)

end State

/-! ## `set_state_value` -/

/-- What a function returns: something to store, or a future. -/
inductive Returned (V E : Type*)
  | value (v : Except (Thrown E) V)
  | future (val : Option Inner)
  deriving DecidableEq

/-- What `set_state_value` ends with: the state, the exception that leaves
it, and what its handler has passed to `state->set_exception`. -/
structure Routing (V E F : Type*) where
  state : State V E F
  thrown : Option (Thrown E)
  handed : Option (Thrown E)
  deriving DecidableEq, Repr

section

variable {V E F : Type*}

/-- `state->set_exception(std::current_exception())`, in a handler. -/
def handle (st : State V E F) (x : Thrown E) : Routing V E F :=
  ⟨(st.setException x).1, (st.setException x).2, some x⟩

/-- A `try` block that sets `executed` between the call of the function and
the delivery, which `deliver` is. -/
def flagged {A : Type*} (st : State V E F) (deliver : A → State V E F × Option (Thrown E)) :
    Except (Thrown E) A → Routing V E F
  | .error x => handle st x
  | .ok a => ⟨(deliver a).1, (deliver a).2, none⟩

/-- One that does not. -/
def unflagged {A : Type*} (st : State V E F) (deliver : A → State V E F × Option (Thrown E)) :
    Except (Thrown E) A → Routing V E F
  | .error x => handle st x
  | .ok a =>
    match deliver a with
    | (st', none) => ⟨st', none, none⟩
    | (st', some x) => handle st' x

/-- The overload for `shared_state<R>`. -/
def setStateValue (st : State V E F) : Except (Thrown E) (Returned V E) → Routing V E F :=
  flagged st fun
    | .value v => st.emplace v
    | .future val => st.unwrap val

/-- For `shared_state<R &>`, of a function that returns an `R &`. -/
def setStateValueRef (st : State V E F) : Except (Thrown E) V → Routing V E F :=
  flagged st fun res => st.emplace (.ok res)

/-- For `shared_state<R &>`, of a function that returns a future. -/
def setStateValueRefFuture (st : State V E F) :
    Except (Thrown E) (Option Inner) → Routing V E F :=
  unflagged st st.unwrap

/-- For `shared_state<void>`, of a function that returns nothing. The value
is that of `void_val`. -/
def setStateValueVoid (st : State V E F) : Except (Thrown E) V → Routing V E F :=
  flagged st fun res => st.emplace (.ok res)

/-- For `shared_state<void>`, of a function that returns a future. Its
`executed` is never set. -/
def setStateValueVoidFuture (st : State V E F) :
    Except (Thrown E) (Option Inner) → Routing V E F :=
  unflagged st st.unwrap

/-- **A call of `set_state_value`**: which overload it is, and what the
function comes to. -/
inductive Call (V E : Type*)
  | object (r : Except (Thrown E) (Returned V E))
  | reference (r : Except (Thrown E) V)
  | referenceFuture (r : Except (Thrown E) (Option Inner))
  | void (r : Except (Thrown E) V)
  | voidFuture (r : Except (Thrown E) (Option Inner))
  deriving DecidableEq

def Call.run (st : State V E F) : Call V E → Routing V E F
  | .object r => setStateValue st r
  | .reference r => setStateValueRef st r
  | .referenceFuture r => setStateValueRefFuture st r
  | .void r => setStateValueVoid st r
  | .voidFuture r => setStateValueVoidFuture st r

end

end Exceptions

end PortableConcurrency
