import PortableConcurrency.Tasks.Model

/-!
# Tasks and their futures — the reference machine

A task has a job, which waits for its function to be called, then perhaps
follows another future, and is ready in the end. It is alive while
somebody can still see its result: its future has not been retrieved, or
is held, or has been detached while the job was not ready. How a task
refers to its job does not show, nor how the job is stored.
-/

namespace PortableConcurrency

namespace Tasks

open Futures (Exn)

variable {V E F : Type*}

/-- Where a job is. -/
inductive Phase (V E F : Type*)
  /-- its function has not been called -/
  | waiting (f : F)
  /-- its function has returned a future that is not ready -/
  | following
  | ready (r : Result V E)

namespace Phase

/-- The function of a job. -/
def func : Phase V E F → Option F
  | .waiting f => some f
  | _ => none

def result : Phase V E F → Option (Result V E)
  | .ready r => some r
  | _ => none

end Phase

/-- What the function's end makes of the job. -/
def Returned.phase : Returned V E → Phase V E F
  | .value v => .ready (.ok v)
  | .throws e => .ready (.error (.user e))
  | .future none => .ready (.error .brokenPromise)
  | .future (some none) => .following
  | .future (some (some r)) => .ready r

structure Job (V E F : Type*) where
  phase : Phase V E F
  detached : Bool

/-- A detached job is kept until it is ready. -/
def Job.setPhase (j : Job V E F) (p : Phase V E F) : Job V E F :=
  ⟨p, j.detached && p.result.isNone⟩

/-- A variable: nothing, a task with its job, unless it is empty, and
whether its future has been retrieved; or a future. -/
inductive Handle
  | gone
  | task (job : Option (ℕ × Bool))
  | future (unique : Bool) (job : Option ℕ)
  deriving DecidableEq, Repr

/-- The job whose result the variable may show. -/
def Handle.ref : Handle → Option ℕ
  | .task (some (s, false)) => some s
  | .future _ job => job
  | _ => none

structure Machine (V E F : Type*) where
  handles : ℕ → Handle
  vars : ℕ
  jobs : ℕ → Job V E F
  fresh : ℕ
  foreign : ℕ → ℕ

namespace Machine

def init : Machine V E F := ⟨fun _ => .gone, 0, fun _ => ⟨.following, false⟩, 0, fun _ => 0⟩

/-- **Somebody may see the result**, now or later. -/
def Alive (m : Machine V E F) (s : ℕ) : Prop :=
  (∃ x < m.vars, (m.handles x).ref = some s) ∨ 0 < m.foreign s ∨ (m.jobs s).detached = true

instance (m : Machine V E F) (s : ℕ) : Decidable (m.Alive s) :=
  inferInstanceAs (Decidable ((∃ x < m.vars, (m.handles x).ref = some s) ∨ _ ∨ _))

def setHandle (m : Machine V E F) (x : ℕ) (o : Handle) : Machine V E F :=
  { m with handles := Function.update m.handles x o }

def push (m : Machine V E F) (o : Handle) : Machine V E F :=
  { m with handles := Function.update m.handles m.vars o, vars := m.vars + 1 }

def alloc (m : Machine V E F) (f : F) : Machine V E F :=
  { m with
    jobs := Function.update m.jobs m.fresh ⟨.waiting f, false⟩
    fresh := m.fresh + 1 }

def setJob (m : Machine V E F) (s : ℕ) (j : Job V E F) : Machine V E F :=
  { m with jobs := Function.update m.jobs s j }

def lend (m : Machine V E F) : Option ℕ → Machine V E F
  | none => m
  | some s => { m with foreign := Function.update m.foreign s (m.foreign s + 1) }

/-- **A call.** An empty task throws, and so does one that was called
before. The call of a task that nobody waits for does nothing. -/
def call (m : Machine V E F) (job : Option (ℕ × Bool)) (o : Returned V E) :
    Machine V E F × Reply V E × Option F :=
  match job with
  | none => (m, .throws (.error .noState), none)
  | some (s, _) =>
    if m.Alive s then
      match (m.jobs s).phase with
      | .waiting f => (m.setJob s ((m.jobs s).setPhase o.phase), .done, some f)
      | _ => (m, .throws (.error .promiseAlreadySatisfied), none)
    else (m, .done, none)

/-- **A task goes**: if it was not called, whoever waits for it gets
`broken_promise`, and the function goes with it. -/
def abandon (m : Machine V E F) (job : Option (ℕ × Bool)) : Machine V E F :=
  match job with
  | none => m
  | some (s, _) =>
    if m.Alive s then
      match (m.jobs s).phase with
      | .waiting _ => m.setJob s ((m.jobs s).setPhase (.ready (.error .brokenPromise)))
      | _ => m
    else m

/-- **A future is retrieved once.** -/
def getFuture (m : Machine V E F) (x : ℕ) : Option (ℕ × Bool) → Machine V E F × Reply V E
  | none => (m, .throws (.error .noState))
  | some (_, true) => (m, .throws (.error .futureAlreadyRetrieved))
  | some (s, false) =>
    ((m.setHandle x (.task (some (s, true)))).push (.future true (some s)), .done)

/-- Whether a call calls the function. -/
def Calls (m : Machine V E F) (job : Option (ℕ × Bool)) : Prop :=
  match job with
  | none => False
  | some (s, _) => m.Alive s ∧ (m.jobs s).phase.func.isSome = true

instance (m : Machine V E F) (job : Option (ℕ × Bool)) : Decidable (m.Calls job) := by
  unfold Calls
  split <;> infer_instance

def returned (m : Machine V E F) : Comes V E → Option (Machine V E F × Returned V E)
  | .value v => some (m, .value v)
  | .throws e => some (m, .throws e)
  | .other result => some (m, .future (some result))
  | .future y result =>
    match m.handles y with
    | .future unique job =>
      some ((m.setHandle y (.future unique none)).lend job, .future (job.map fun _ => result))
    | _ => none

/-- **One operation**, and the function that it calls. -/
def step (m : Machine V E F) : Op V E F → Option (Machine V E F × Reply V E × Option F)
  | .construct f => some ((m.alloc f).push (.task (some (m.fresh, false))), .done, none)
  | .constructEmpty => some (m.push (.task none), .done, none)
  | .valid x =>
    match m.handles x with
    | .task job => some (m, .answer job.isSome, none)
    | _ => none
  | .getFuture x =>
    match m.handles x with
    | .task job => some ((m.getFuture x job).1, (m.getFuture x job).2, none)
    | _ => none
  | .call x o =>
    match m.handles x with
    | .task job =>
      if m.Calls job then
        match m.returned o with
        | some (m', r) => some (m'.call job r)
        | none => none
      else some (m.call job (.future none))
    | _ => none
  | .moveConstruct x =>
    match m.handles x with
    | .task job => some ((m.setHandle x (.task none)).push (.task job), .done, none)
    | _ => none
  | .moveAssign x y =>
    if x = y then none
    else
      match m.handles x, m.handles y with
      | .task old, .task job =>
        some (((m.abandon old).setHandle x (.task job)).setHandle y (.task none), .done, none)
      | _, _ => none
  | .swap x y =>
    match m.handles x, m.handles y with
    | .task j, .task k => some ((m.setHandle x (.task k)).setHandle y (.task j), .done, none)
    | _, _ => none
  | .destroy x =>
    match m.handles x with
    | .task job => some ((m.abandon job).setHandle x .gone, .done, none)
    | _ => none
  | .share x =>
    match m.handles x with
    | .future true job =>
      some ((m.setHandle x (.future true none)).push (.future false job), .done, none)
    | _ => none
  | .copy x =>
    match m.handles x with
    | .future false job => some (m.push (.future false job), .done, none)
    | _ => none
  | .moveFuture x =>
    match m.handles x with
    | .future unique job =>
      some ((m.setHandle x (.future unique none)).push (.future unique job), .done, none)
    | _ => none
  | .assignFuture x y =>
    if x = y then none
    else
      match m.handles x, m.handles y with
      | .future unique _, .future unique' job =>
        if unique = unique' then
          some ((m.setHandle x (.future unique job)).setHandle y (.future unique none), .done, none)
        else none
      | _, _ => none
  | .dropFuture x =>
    match m.handles x with
    | .future _ _ => some (m.setHandle x .gone, .done, none)
    | _ => none
  | .detach x =>
    match m.handles x with
    | .future _ none => some (m, .throws (.error .noState), none)
    | .future unique (some s) =>
      some (((if (m.jobs s).phase.result.isSome then m
        else m.setJob s ⟨(m.jobs s).phase, true⟩).setHandle x (.future unique none)).push
          (.future unique (some s)), .done, none)
    | _ => none
  | .isReady x =>
    match m.handles x with
    | .future _ none => some (m, .throws (.error .noState), none)
    | .future _ (some s) => some (m, .answer (m.jobs s).phase.result.isSome, none)
    | _ => none
  | .get x =>
    match m.handles x with
    | .future _ none => some (m, .throws (.error .noState), none)
    | .future unique (some s) =>
      (m.jobs s).phase.result.map fun r =>
        (if unique then m.setHandle x (.future true none) else m,
          match r with
          | .ok v => .value v
          | .error e => .throws (.exception e),
          none)
    | _ => none
  | .give x =>
    match m.handles x with
    | .future unique job =>
      some ((m.setHandle x (.future unique none)).lend job, .done, none)
    | _ => none
  | .release s =>
    if 0 < m.foreign s then
      some ({ m with foreign := Function.update m.foreign s (m.foreign s - 1) }, .done, none)
    else none
  | .resolve s r =>
    if m.Alive s then
      match (m.jobs s).phase with
      | .following => some (m.setJob s ((m.jobs s).setPhase (.ready r)), .done, none)
      | _ => none
    else none

/-- The functions of the jobs that go, or end, or are called. -/
def destroyed (m m' : Machine V E F) : List (ℕ × Option F) :=
  ((List.range m.fresh).filter fun s =>
    m.Alive s ∧ (m.jobs s).phase.func.isSome ∧
      ¬ (m'.Alive s ∧ (m'.jobs s).phase.func.isSome)).map fun s => (s, (m.jobs s).phase.func)

/-- **What a program may see.** -/
def run (m : Machine V E F) :
    List (Op V E F) → List (Reply V E × Option F × List (ℕ × Option F))
  | [] => []
  | op :: ops =>
    match m.step op with
    | some (m', r, f) => (r, f, m.destroyed m') :: m'.run ops
    | none => []

end Machine

end Tasks

end PortableConcurrency
