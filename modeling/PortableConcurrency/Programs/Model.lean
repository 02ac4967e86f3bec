import PortableConcurrency.Common.Calls
import PortableConcurrency.Futures.Model
import PortableConcurrency.Promise.Model

/-!
# Programs that use promises, tasks and futures — the model

The variables of a program, over the nodes and the other objects of
`Futures.Model`. A call of the library is its statements, one after the
other, with what they throw and with what they have done by then. It goes
up to its end, or to the next place where the library calls user code or
closes a list of continuations. The steps that follow from there are the
library's own, those of `Futures.Step`; between them the program goes on
calling, in whatever function, continuation or thread.

What a function is given and what a call constructs are variables of the
program too; a variable that is destroyed is not used again. A call that
the program cannot write, as on a variable of another type, is no step,
and neither is one that terminates the program. `wait` and `get` leave a
closure in the list of the state; the result that `get` reads is there
when it goes on. Combinators are left out. So is what becomes of a value
that `future::get` moves out of its state, and of a future that its owner
keeps when a function returns a reference to it: these are followed in
`Futures.Unique`.
-/

namespace PortableConcurrency

namespace Programs

open Futures (Exn Storage Node Body Obj Action Kind Closure Producer Caller Config Outcome Resolves)
open Promise (Errc Thrown Either)

/-- What a variable is: nothing that exists, a promise, a `packaged_task`,
a `future` or a `shared_future`. -/
inductive Variable
  | gone
  | promise (state : Either)
  | task (state : Either)
  | future (unique : Bool) (state : Option ℕ)
  deriving DecidableEq, Repr

/-- The producer that an `either` makes of its owner. -/
def Producer.objs {F : Type} (h : Producer) : Either → Multiset (Obj F)
  | .monostate => 0
  | .shared s => {.handle h true s}
  | .weak s => {.handle h false s}

/-- What a variable is among the objects of a configuration. -/
def Variable.objs {F : Type} : Variable → Multiset (Obj F)
  | .gone => 0
  | .promise p => Producer.objs .promise p
  | .task p => Producer.objs .task p
  | .future _ none => 0
  | .future unique (some s) => {.future unique s}

def varObjs {F : Type} : List Variable → Multiset (Obj F)
  | [] => 0
  | x :: xs => x.objs + varObjs xs

/-- **The variables, the nodes, and the objects that are not variables.**
`fresh` is the next address. -/
structure World (V E F : Type) where
  vars : List Variable
  nodes : ℕ → Option (Node V E F)
  locals : Multiset (Obj F)
  fresh : ℕ

/-- What a call returns. -/
inductive Response (V : Type)
  | done
  | answer (b : Bool)
  | value (v : V)
  /-- the function of the task `s` is called, and the call goes on -/
  | entered (s : ℕ)
  deriving DecidableEq, Repr

variable {V E F : Type}

namespace World

def init : World V E F := ⟨[], fun _ => none, 0, 0⟩

/-- The configuration without the names of the variables. -/
def config (w : World V E F) : Config V E F := ⟨w.nodes, varObjs w.vars + w.locals, w.fresh⟩

/-- Whether a `weak_ptr` to `n` can be locked. -/
def owned (w : World V E F) (n : ℕ) : Bool :=
  decide (0 < w.config.objs.countP fun o => n ∈ o.refs) ||
    (List.range w.fresh).any fun m => (w.nodes m).any fun nd => n ∈ nd.refs

end World

/-! ## Statements -/

/-- **A call**, or a part of it. -/
abbrev Call (V E F : Type) := EStateM (Thrown E) (World V E F)

def Storage.isEmpty : Storage V E → Bool
  | .empty => true
  | _ => false

def Storage.isInner : Storage V E → Bool
  | .inner _ => true
  | _ => false

namespace Call

/-- `if (b) throw x;` -/
def throwIf (b : Bool) (x : Errc) : Call V E F Unit :=
  if b then throw (.error x) else pure ()

def setVar (x : ℕ) (v : Variable) : Call V E F Unit :=
  modify fun w => { w with vars := w.vars.set x v }

/-- A variable is constructed. -/
def pushVar (v : Variable) : Call V E F Unit :=
  modify fun w => { w with vars := w.vars ++ [v] }

def addLocal (o : Obj F) : Call V E F Unit :=
  modify fun w => { w with locals := o ::ₘ w.locals }

def modifyNode (s : ℕ) (f : Node V E F → Node V E F) : Call V E F Unit :=
  modify fun w => match w.nodes s with
    | some nd => { w with nodes := Function.update w.nodes s (some (f nd)) }
    | none => w

/-- `std::make_shared` of a state. -/
def alloc (body : Body F) : Call V E F ℕ :=
  modifyGet fun w => (w.fresh, { w with
    nodes := Function.update w.nodes w.fresh (some ⟨.empty, false, body⟩)
    fresh := w.fresh + 1 })

def lock (s : ℕ) : Call V E F (Option ℕ) := do
  let w ← get
  return if w.owned s then some s else none

def storage (s : ℕ) : Call V E F (Storage V E) := do
  let w ← get
  return match w.nodes s with
    | some nd => nd.storage
    | none => .empty

def executed (s : ℕ) : Call V E F Bool := do
  let w ← get
  return w.config.isExecuted s

/-- `continuations().push(k)`. -/
def push (s : ℕ) (k : Closure) : Call V E F Unit := do
  let w ← get
  addLocal (w.config.push s k)

/-- `continuations().execute()` comes next. -/
def execute (s : ℕ) : Call V E F Unit := addLocal (.execute s)

/-! ## `shared_state` -/

/-- `storage_.emplace(in_place_index_t<1>{}, …)`. It destroys what was
there before it constructs the value, and sets the tag after that. -/
def emplaceStorage (s : ℕ) (x : Except E V) : Call V E F Unit := do
  modifyNode s fun nd => { nd with storage := .empty }
  match x with
  | .ok v => modifyNode s fun nd => { nd with storage := .value v }
  | .error e => throw (.exception (.user e))

/-- `emplace`, with what the value's constructor makes of its argument. -/
def emplace (s : ℕ) (x : Except E V) : Call V E F Unit := do
  let st ← storage s
  throwIf (!Storage.isEmpty st) .promiseAlreadySatisfied
  emplaceStorage s x
  execute s

def setException (s : ℕ) (x : Exn E) : Call V E F Unit := do
  let st ← storage s
  throwIf (!Storage.isEmpty st) .promiseAlreadySatisfied
  modifyNode s fun nd => { nd with storage := .exception x }
  execute s

def abandon (s : ℕ) : Call V E F Unit := do
  let ready ← executed s
  let st ← storage s
  if !ready && !Storage.isInner st then setException s .brokenPromise else pure ()

/-! ## `promise_common` -/

/-- `get_state`, of a promise or a task. -/
def getState : Either → Call V E F (Option ℕ)
  | .monostate => throw (.error .noState)
  | .shared s => pure (some s)
  | .weak s => lock s

/-- `f` is called on the state if there is one. -/
def withState (p : Either) (f : ℕ → Call V E F Unit) : Call V E F Unit := do
  let state ← getState p
  match state with
  | some s => f s
  | none => pure ()

def setValue (p : Either) (x : Except E V) : Call V E F Unit :=
  withState p fun s => emplace s x

def isAwaiten : Either → Call V E F Bool
  | .monostate => throw (.error .noState)
  | .shared _ => pure true
  | .weak s => do
    let state ← lock s
    return state.isSome

def Either.isWeak : Either → Bool
  | .weak _ => true
  | _ => false

/-- `get_future` of the variable `x`, a promise or a task. -/
def getFuture (x : ℕ) (mk : Either → Variable) (p : Either) : Call V E F Unit := do
  throwIf (Either.isWeak p) .futureAlreadyRetrieved
  let state ← getState p
  match state with
  | some s =>
    setVar x (mk (.weak s))
    pushVar (.future true (some s))
  | none => pure ()

/-- `abandon` of a promise. -/
def abandonPromise : Either → Call V E F Unit
  | .weak s => do
    let state ← lock s
    match state with
    | some s => abandon s
    | none => pure ()
  | .shared _ => pure ()
  | .monostate => pure ()

/-! ## `packaged_task` -/

/-- `func.state() != 0`. -/
def hasFunc (s : ℕ) : Call V E F Bool := do
  let w ← get
  return match w.nodes s with
    | some ⟨_, _, .task (some _)⟩ => true
    | _ => false

/-- `operator()`, and `task_state::run` up to the call of the function. -/
def call (p : Either) : Call V E F (Response V) := do
  let state ← getState p
  match state with
  | some s =>
    let func ← hasFunc s
    throwIf (!func) .promiseAlreadySatisfied
    addLocal (.invoked .task s)
    return .entered s
  | none => return .done

/-- The destructor of a task. It uses `get_state(false)`, and the
`abandon` of the `task_state`. -/
def abandonTask : Either → Call V E F Unit
  | .monostate => pure ()
  | p => withState p fun s => do
    modifyNode s fun nd => { nd with body := nd.body.clean .task }
    abandon s

/-! ## `future` and `shared_future` -/

/-- `if (!state_) throw_no_state();` -/
def checkState : Option ℕ → Call V E F ℕ
  | none => throw (.error .noState)
  | some s => pure s

def isReady (state : Option ℕ) : Call V E F Bool := do
  let s ← checkState state
  executed s

/-- `notify`, `wait` and their kin. -/
def notify (state : Option ℕ) : Call V E F Unit := do
  let s ← checkState state
  push s .notify

/-- The state of the variable `x` is moved out of it, or copied. -/
def moveState (x : ℕ) (unique moves : Bool) : Call V E F Unit :=
  if moves then setVar x (.future unique none) else pure ()

/-- `get` of the variable `x`, with the result that is there. -/
def get' (x : ℕ) (unique : Bool) (state : Option ℕ) (r : Except (Exn E) V) :
    Call V E F (Response V) := do
  let _ ← checkState state
  moveState x unique unique
  match r with
  | .ok v => return .value v
  | .error e => throw (.exception e)

/-- `then` and `next` of the variable `x`. The state is moved into the
continuation by a `future`, and by `then` with a function that takes a
promise. -/
def attach (x : ℕ) (unique : Bool) (state : Option ℕ) (kind : Kind) (fn : F) :
    Call V E F Unit := do
  let s ← checkState state
  moveState x unique (unique || kind = .interruptible)
  let c ← alloc (.cnt true (some ⟨kind, unique, fn, s⟩))
  push s (.schedule c)
  pushVar (.future true (some c))

def detach (x : ℕ) (unique : Bool) (state : Option ℕ) : Call V E F Unit := do
  let s ← checkState state
  push s (.detached s)
  setVar x (.future unique none)
  pushVar (.future unique (some s))

end Call

/-! ## Calls of the program -/

inductive Op (V E F : Type)
  /-- the constructors of `promise`, one of which takes a canceler -/
  | promise (canceler : Bool)
  /-- `make_promise`: a promise, and then its future -/
  | makePromise (canceler : Bool)
  | task (fn : F)
  /-- the default constructors of a task and of the futures -/
  | emptyTask
  | emptyFuture (unique : Bool)
  | getFuture (x : ℕ)
  | setValue (x : ℕ) (v : Except E V)
  | setException (x : ℕ) (e : E)
  | isAwaiten (x : ℕ)
  | valid (x : ℕ)
  | call (x : ℕ)
  /-- a variable of the same type is constructed from `x` -/
  | move (x : ℕ)
  /-- `x = std::move(y)` -/
  | assign (x y : ℕ)
  | swap (x y : ℕ)
  | destroy (x : ℕ)
  /-- a `shared_future` is constructed from the `future` `x` -/
  | share (x : ℕ)
  /-- a `shared_future` is constructed from the `shared_future` `x` -/
  | copy (x : ℕ)
  /-- `x = y` of two `shared_future`s -/
  | copyAssign (x y : ℕ)
  | isReady (x : ℕ)
  | notify (x : ℕ)
  | wait (x : ℕ)
  | get (x : ℕ) (r : Except (Exn E) V)
  | attach (x : ℕ) (kind : Kind) (fn : F)
  | detach (x : ℕ)

/-- A call that returns nothing. -/
def Call.void (m : Call V E F Unit) : Call V E F (Response V) := do
  m
  return .done

/-- A call that returns a `bool`. -/
def Call.bool (m : Call V E F Bool) : Call V E F (Response V) := do
  let b ← m
  return .answer b

/-- **The call that an operation makes**, if the variables are such that
the program can make it. -/
def Op.body (vars : List Variable) : Op V E F → Option (Call V E F (Response V))
  | .promise canceler => some <| .void do
    let s ← Call.alloc (.promise canceler)
    Call.pushVar (.promise (.shared s))
  | .makePromise canceler => some <| .void do
    let s ← Call.alloc (.promise canceler)
    Call.pushVar (.promise (.weak s))
    Call.pushVar (.future true (some s))
  | .task fn => some <| .void do
    let s ← Call.alloc (.task (some fn))
    Call.pushVar (.task (.shared s))
  | .emptyTask => some <| .void <| Call.pushVar (.task .monostate)
  | .emptyFuture unique => some <| .void <| Call.pushVar (.future unique none)
  | .getFuture x =>
    match vars[x]? with
    | some (.promise p) => some <| .void <| Call.getFuture x .promise p
    | some (.task p) => some <| .void <| Call.getFuture x .task p
    | _ => none
  | .setValue x v =>
    match vars[x]? with
    | some (.promise p) => some <| .void <| Call.setValue p v
    | _ => none
  | .setException x e =>
    match vars[x]? with
    | some (.promise p) =>
      some <| .void <| Call.withState p fun s => Call.setException s (.user e)
    | _ => none
  | .isAwaiten x =>
    match vars[x]? with
    | some (.promise p) => some <| .bool <| Call.isAwaiten p
    | _ => none
  | .valid x =>
    match vars[x]? with
    | some (.task p) => some <| .bool <| pure (p ≠ .monostate)
    | some (.future _ state) => some <| .bool <| pure state.isSome
    | _ => none
  | .call x =>
    match vars[x]? with
    | some (.task p) => some <| Call.call p
    | _ => none
  | .move x =>
    match vars[x]? with
    | some (.promise p) => some <| .void do
      Call.pushVar (.promise p)
      Call.setVar x (.promise .monostate)
    | some (.task p) => some <| .void do
      Call.pushVar (.task p)
      Call.setVar x (.task .monostate)
    | some (.future unique state) => some <| .void do
      Call.pushVar (.future unique state)
      Call.setVar x (.future unique none)
    | _ => none
  | .assign x y =>
    match vars[x]?, vars[y]? with
    | some (.promise p), some (.promise q) => some <| .void do
      Call.abandonPromise p
      Call.setVar x (.promise q)
      Call.setVar y (.promise .monostate)
    | some (.task p), some (.task q) => some <| .void do
      Call.abandonTask p
      Call.setVar x (.task q)
      Call.setVar y (.task .monostate)
    | some (.future unique _), some (.future unique' state) =>
      if unique = unique' then some <| .void do
        Call.setVar y (.future unique none)
        Call.setVar x (.future unique state)
      else none
    | _, _ => none
  | .swap x y =>
    match vars[x]?, vars[y]? with
    | some (.task p), some (.task q) => some <| .void do
      Call.setVar x (.task q)
      Call.setVar y (.task p)
    | _, _ => none
  | .destroy x =>
    match vars[x]? with
    | some (.promise p) => some <| .void do
      Call.abandonPromise p
      Call.setVar x .gone
    | some (.task p) => some <| .void do
      Call.abandonTask p
      Call.setVar x .gone
    | some (.future _ _) => some <| .void <| Call.setVar x .gone
    | _ => none
  | .share x =>
    match vars[x]? with
    | some (.future true state) => some <| .void do
      Call.pushVar (.future false state)
      Call.setVar x (.future true none)
    | _ => none
  | .copy x =>
    match vars[x]? with
    | some (.future false state) => some <| .void <| Call.pushVar (.future false state)
    | _ => none
  | .copyAssign x y =>
    match vars[x]?, vars[y]? with
    | some (.future false _), some (.future false state) =>
      some <| .void <| Call.setVar x (.future false state)
    | _, _ => none
  | .isReady x =>
    match vars[x]? with
    | some (.future _ state) => some <| .bool <| Call.isReady state
    | _ => none
  | .notify x =>
    match vars[x]? with
    | some (.future _ state) => some <| .void <| Call.notify state
    | _ => none
  | .wait x =>
    match vars[x]? with
    | some (.future _ state) => some <| .void <| Call.notify state
    | _ => none
  | .get x r =>
    match vars[x]? with
    | some (.future unique state) => some <| Call.get' x unique state r
    | _ => none
  | .attach x kind fn =>
    match vars[x]? with
    | some (.future unique state) => some <| .void <| Call.attach x unique state kind fn
    | _ => none
  | .detach x =>
    match vars[x]? with
    | some (.future unique state) => some <| .void <| Call.detach x unique state
    | _ => none

/-- A destructor, or a function that is `noexcept`. -/
def Op.isNoexcept : Op V E F → Bool
  | .assign _ _ => true
  | .destroy _ => true
  | _ => false

/-- What `value_ref` finds. -/
def outcomeOf : Except (Exn E) V → Outcome V E
  | .ok v => .value v
  | .error x => .exception x

/-- The result that `get` is said to read is there. -/
def Op.Reads (w : World V E F) (o : Op V E F) : Prop :=
  ∀ x r unique s, o = .get x r → w.vars[x]? = some (.future unique (some s)) →
    ∃ l, Resolves w.config s l (outcomeOf r)

/-! ## The steps -/

inductive Event (V E F : Type)
  /-- a call, with what it returns or throws -/
  | op (o : Op V E F) (r : Except (Thrown E) (Response V))
  /-- the function of the task or continuation `s` ends. If it is a
  task's and the state has a result, `operator()` is going to throw. -/
  | ends (h : Caller) (s : ℕ) (r : Futures.Ret V E) (raises : Bool)
  /-- it ends and returns the valid future `y` -/
  | returns (h : Caller) (s : ℕ) (y : ℕ)
  /-- a step of the library -/
  | library (e : Futures.Event V E F)

/-- The steps that are not calls of the program. -/
def isLibrary : Futures.Event V E F → Bool
  | .call _ _ => true
  | .run _ => true
  | .invoke _ _ => true
  | .passError _ _ _ => true
  | .subscribe _ _ => true
  | .clean _ => true
  | .execute _ => true
  | .release => true
  | .destroy _ => true
  | .drop .action _ => true
  | _ => false

/-- What a function is given: the parent of the continuation, and the
promise if it takes one. -/
def given : Futures.Event V E F → List Variable
  | .invoke c a =>
    match a.kind with
    | .then' => [.future a.unique (some a.parent)]
    | .interruptible => [.promise (.weak c), .future a.unique (some a.parent)]
    | .next => []
  | _ => []

/-- Whether the state `s` has a result. -/
def World.satisfied (w : World V E F) (s : ℕ) : Bool :=
  match w.nodes s with
  | some nd => !Storage.isEmpty nd.storage
  | none => false

/-- Whether `operator()` is going to throw. -/
def World.raises (w : World V E F) (s : ℕ) : Caller → Bool
  | .task => w.satisfied s
  | .cnt => false

/-- **The step relation.** -/
inductive Step : World V E F → Event V E F → World V E F → Prop
  | op {w w' : World V E F} {o : Op V E F} {m : Call V E F (Response V)} {r : Response V}
      (hb : o.body w.vars = some m) (hr : m w = .ok r w') (hget : o.Reads w) :
      Step w (.op o (.ok r)) w'
  | throws {w w' : World V E F} {o : Op V E F} {m : Call V E F (Response V)} {x : Thrown E}
      (hb : o.body w.vars = some m) (hr : m w = .error x w') (hget : o.Reads w)
      (hno : o.isNoexcept = false) : Step w (.op o (.error x)) w'
  | ends {w w' : World V E F} {h : Caller} {s : ℕ} {r : Futures.Ret V E}
      (hst : Futures.Step w.config (.ret h s r) w'.config) (hv : w'.vars = w.vars) :
      Step w (.ends h s r (w.raises s h)) w'
  | returns {w w' : World V E F} {h : Caller} {s y t : ℕ} {unique : Bool}
      (hy : w.vars[y]? = some (.future unique (some t)))
      (hst : Futures.Step w.config (.unwrap h s t) w'.config)
      (hv : w'.vars = w.vars.set y (.future unique none)) : Step w (.returns h s y) w'
  | library {w w' : World V E F} {e : Futures.Event V E F} (hl : isLibrary e = true)
      (hst : Futures.Step w.config e w'.config) (hv : w'.vars = w.vars ++ given e) :
      Step w (.library e) w'

end Programs

end PortableConcurrency
