import PortableConcurrency.Promise.Model

/-!
# Promises and their futures — the reference machine

A promise and its futures share a channel. It has one future made for it,
once, and one result, once; it is alive while its future can still be made
or some future holds it. How a promise keeps its state does not show.
-/

namespace PortableConcurrency

namespace Promise

open Futures (Exn)

variable {V E : Type*}

/-- What a promise and its futures share. -/
structure Channel (V E : Type*) where
  retrieved : Bool
  result : Option (Except (Exn E) V)
  canceler : Bool

/-- A variable: nothing, a promise or a future, each with its channel
unless it has been moved from. -/
inductive Handle
  | gone
  | promise (ch : Option ℕ)
  | future (unique : Bool) (ch : Option ℕ)
  deriving DecidableEq, Repr

structure Machine (V E : Type*) where
  handles : ℕ → Handle
  vars : ℕ
  channels : ℕ → Channel V E
  fresh : ℕ

/-- What reading a result gives. -/
def response : Except (Exn E) V → Response V E
  | .ok v => .value v
  | .error x => .throws (.exception x)

namespace Machine

def init : Machine V E := ⟨fun _ => .gone, 0, fun _ => ⟨false, none, false⟩, 0⟩

/-- Some future has the channel. -/
def Held (m : Machine V E) (ch : ℕ) : Prop :=
  ∃ x < m.vars, m.handles x = .future true (some ch) ∨ m.handles x = .future false (some ch)

instance (m : Machine V E) (ch : ℕ) : Decidable (m.Held ch) :=
  inferInstanceAs (Decidable (∃ x < m.vars, _))

/-- Its promise has not made its future yet. -/
def Open (m : Machine V E) (ch : ℕ) : Prop :=
  (m.channels ch).retrieved = false ∧ ∃ x < m.vars, m.handles x = .promise (some ch)

instance (m : Machine V E) (ch : ℕ) : Decidable (m.Open ch) :=
  inferInstanceAs (Decidable (_ ∧ ∃ x < m.vars, _))

/-- **Somebody may see the result**, now or later. -/
def Alive (m : Machine V E) (ch : ℕ) : Prop := m.Open ch ∨ m.Held ch

instance (m : Machine V E) (ch : ℕ) : Decidable (m.Alive ch) :=
  inferInstanceAs (Decidable (_ ∨ _))

def setHandle (m : Machine V E) (x : ℕ) (o : Handle) : Machine V E :=
  { m with handles := Function.update m.handles x o }

def push (m : Machine V E) (o : Handle) : Machine V E :=
  { m with handles := Function.update m.handles m.vars o, vars := m.vars + 1 }

def alloc (m : Machine V E) (retrieved canceler : Bool) : Machine V E :=
  { m with
    channels := Function.update m.channels m.fresh ⟨retrieved, none, canceler⟩
    fresh := m.fresh + 1 }

def setChannel (m : Machine V E) (ch : ℕ) (c : Channel V E) : Machine V E :=
  { m with channels := Function.update m.channels ch c }

/-- **The first set fixes the result.** Another one throws, and one that
nobody may see does nothing. So does one whose value cannot be made. -/
def set (m : Machine V E) (ch : ℕ) (x : Except E (Except (Exn E) V)) :
    Machine V E × Response V E :=
  if m.Alive ch then
    match (m.channels ch).result, x with
    | some _, _ => (m, .throws (.error .promiseAlreadySatisfied))
    | none, .ok r => (m.setChannel ch { m.channels ch with result := some r }, .done)
    | none, .error e => (m, .throws (.exception (.user e)))
  else (m, .done)

/-- A promise is destroyed or assigned to: a future that waits for a result
gets `broken_promise`. -/
def abandon (m : Machine V E) (ch : ℕ) : Machine V E :=
  if (m.channels ch).retrieved = true ∧ m.Held ch ∧ (m.channels ch).result.isNone then
    m.setChannel ch { m.channels ch with result := some (.error .brokenPromise) }
  else m

/-- A promise that was moved from has nothing to abandon. -/
def abandonOf (m : Machine V E) : Option ℕ → Machine V E
  | none => m
  | some ch => m.abandon ch

/-- What a promise does, unless it was moved from. -/
def onPromise (m : Machine V E) (x : ℕ) (f : ℕ → Machine V E × Response V E) :
    Option (Machine V E × Response V E) :=
  match m.handles x with
  | .promise none => some (m, .throws (.error .noState))
  | .promise (some ch) => some (f ch)
  | _ => none

/-- **One operation.** -/
def step (m : Machine V E) : Op V E → Option (Machine V E × Response V E)
  | .construct canceler =>
    some ((m.alloc false canceler).push (.promise (some m.fresh)), .done)
  | .makePromise canceler =>
    some (((m.alloc true canceler).push (.promise (some m.fresh))).push
      (.future true (some m.fresh)), .done)
  | .interruptible =>
    some (((m.alloc true false).push (.promise (some m.fresh))).push
      (.future true (some m.fresh)), .done)
  | .getFuture x =>
    m.onPromise x fun ch =>
      if (m.channels ch).retrieved then (m, .throws (.error .futureAlreadyRetrieved))
      else ((m.setChannel ch { m.channels ch with retrieved := true }).push
        (.future true (some ch)), .done)
  | .setValue x v => m.onPromise x fun ch => m.set ch (v.map .ok)
  | .setException x e => m.onPromise x fun ch => m.set ch (.ok (.error e))
  | .isAwaiten x => m.onPromise x fun ch => (m, .answer (m.Alive ch))
  | .moveConstruct x =>
    match m.handles x with
    | .promise ch => some ((m.setHandle x (.promise none)).push (.promise ch), .done)
    | _ => none
  | .moveAssign x y =>
    if x = y then none
    else
      match m.handles x, m.handles y with
      | .promise old, .promise ch =>
        some (((m.abandonOf old).setHandle x (.promise ch)).setHandle y (.promise none), .done)
      | _, _ => none
  | .destroy x =>
    match m.handles x with
    | .promise ch => some ((m.abandonOf ch).setHandle x .gone, .done)
    | _ => none
  | .share x =>
    match m.handles x with
    | .future true ch => some ((m.setHandle x (.future true none)).push (.future false ch), .done)
    | _ => none
  | .copy x =>
    match m.handles x with
    | .future false ch => some (m.push (.future false ch), .done)
    | _ => none
  | .moveFuture x =>
    match m.handles x with
    | .future unique ch =>
      some ((m.setHandle x (.future unique none)).push (.future unique ch), .done)
    | _ => none
  | .assignFuture x y =>
    if x = y then none
    else
      match m.handles x, m.handles y with
      | .future unique _, .future unique' ch =>
        if unique = unique' then
          some ((m.setHandle x (.future unique ch)).setHandle y (.future unique none), .done)
        else none
      | _, _ => none
  | .dropFuture x =>
    match m.handles x with
    | .future _ _ => some (m.setHandle x .gone, .done)
    | _ => none
  | .isReady x =>
    match m.handles x with
    | .future _ none => some (m, .throws (.error .noState))
    | .future _ (some ch) => some (m, .answer (m.channels ch).result.isSome)
    | _ => none
  | .get x =>
    match m.handles x with
    | .future _ none => some (m, .throws (.error .noState))
    | .future unique (some ch) =>
      (m.channels ch).result.map fun r =>
        (if unique then m.setHandle x (.future true none) else m, response r)
    | _ => none

/-- The channels that an operation leaves for nobody to see, before they
have a result, whose cancelers are called. -/
def cancelled (m m' : Machine V E) : List ℕ :=
  (List.range m.fresh).filter fun ch =>
    m.Alive ch ∧ ¬ m'.Alive ch ∧ (m'.channels ch).canceler = true ∧
      (m'.channels ch).result.isNone = true

/-- **What a program may see.** -/
def run (m : Machine V E) : List (Op V E) → List (Response V E × List ℕ)
  | [] => []
  | op :: ops =>
    match m.step op with
    | some (m', r) => (r, m.cancelled m') :: m'.run ops
    | none => []

end Machine

end Promise

end PortableConcurrency
