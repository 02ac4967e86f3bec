import PortableConcurrency.Common.Runs
import Mathlib.Data.List.FinRange
import Mathlib.Logic.Function.Basic
import Mathlib.Data.Nat.Notation

/-!
# `either` — the model

`either<monostate, T...>` is raw storage and a tag. Objects are
constructed in the storage and destroyed there by explicit calls, and the
tag is assigned in a step of its own. What is known of the storage is the
object that lives in it; to use it as an object of any other type, or when
none is alive, is undefined. An object that is constructed over a living
one takes its place, and the destructor of the old one does not run.

There is an alternative `T i` for each `i : Fin n`, and its tag is
`i + 1`. A constructor that is called by `emplace` may throw. A move of an
alternative does not: `either` is only used with types of which that is
true, and its own moves are `noexcept`. What a move leaves in its source
is a parameter.
-/

namespace PortableConcurrency

namespace Alternatives

variable {n : ℕ}

/-- **An object of one of the alternatives** that has been constructed and
not been destroyed. Its number is bookkeeping: the objects are numbered as
they are constructed. -/
structure Object (T : Fin n → Type) where
  alt : Fin n
  val : T alt
  id : ℕ

/-- `either<monostate, T...>`. -/
structure Either (T : Fin n → Type) where
  storage : Option (Object T)
  state : ℕ

def emptyState : ℕ := 0

/-- The `either` objects by their addresses, the number of objects that
have been constructed in their storages, and those of which the destructor
has run, once per time. -/
structure World (T : Fin n → Type) where
  get : ℕ → Option (Either T)
  made : ℕ
  destroyed : List ℕ

/-- How a call ends that does not return. -/
inductive Failure (X : Type)
  | thrown (x : X)
  | undefined
  deriving DecidableEq, Repr

abbrev Call (T : Fin n → Type) (X α : Type) := EStateM (Failure X) (World T) α

variable {T : Fin n → Type} {X α : Type}

/-! ## Storage and tag -/

namespace World

/-- The `either` at `e` is `o`. -/
def set (w : World T) (e : ℕ) (o : Either T) : World T :=
  { w with get := Function.update w.get e (some o) }

/-- The lifetime of the `either` at `e` is over. -/
def remove (w : World T) (e : ℕ) : World T :=
  { w with get := Function.update w.get e none }

end World

/-- `*this`. -/
def this (e : ℕ) : Call T X (Either T) := do
  match (← get).get e with
  | some o => return o
  | none => throw .undefined

/-- `state_ = k`. -/
def setState (e k : ℕ) : Call T X Unit := do
  let o ← this e
  modify fun w => w.set e { o with state := k }

/-- `new (&storage_) T(...)` when the constructor has made `v`. -/
def construct (e : ℕ) (i : Fin n) (v : T i) : Call T X Unit := do
  let o ← this e
  modify fun w =>
    { w.set e { o with storage := some ⟨i, v, w.made⟩ } with made := w.made + 1 }

/-- The object that `reinterpret_cast<T &>(storage_)` refers to. -/
def object (e : ℕ) (i : Fin n) : Call T X (T i × ℕ) := do
  match (← this e).storage with
  | some ob => if h : ob.alt = i then return (h ▸ ob.val, ob.id) else throw .undefined
  | none => throw .undefined

/-- `t.~T()`. -/
def destruct (e : ℕ) (i : Fin n) : Call T X Unit := do
  let t ← object e i
  let o ← this e
  modify fun w => { w.set e { o with storage := none } with destroyed := t.2 :: w.destroyed }

/-- `T(std::move(t))`, whose value is returned. -/
def take (moved : ∀ i, T i → T i) (e : ℕ) (i : Fin n) : Call T X (T i) := do
  let t ← object e i
  let o ← this e
  modify fun w => w.set e { o with storage := some ⟨i, moved i t.1, t.2⟩ }
  return t.1

/-! ## The members of `either` -/

/-- `state()`. -/
def state (e : ℕ) : Call T X ℕ := do
  return (← this e).state

/-- `empty()`. -/
def empty (e : ℕ) : Call T X Bool := do
  return (← this e).state = emptyState

/-- `visit_backward`. A visitor is given a reference to an alternative, or
`monostate{}`. -/
def visitBackward (e : ℕ) (f : Option (Fin n) → Call T X α) : (k : ℕ) → k ≤ n → Call T X α
  | 0, _ => f none
  | k + 1, h => do
    if (← this e).state = k + 1 then f (some ⟨k, h⟩)
    else visitBackward e f k (Nat.le_of_lt h)

/-- `visit`. -/
def visit (e : ℕ) (f : Option (Fin n) → Call T X α) : Call T X α :=
  visitBackward e f n (Nat.le_refl n)

/-- `struct destroy`. -/
def destroy (e : ℕ) : Option (Fin n) → Call T X Unit
  | some i => destruct e i
  | none => pure ()

/-- `clean`. -/
def clean (e : ℕ) : Call T X Unit := do
  visit e (destroy e)
  setState e emptyState

/-- `emplace`, with the constructor that it calls. -/
def emplace (e : ℕ) (i : Fin n) (ctor : Call T X (T i)) : Call T X Unit := do
  clean e
  let v ← ctor
  construct e i v
  setState e (i + 1)

/-- The expansion in `move_from` over the indices that are left. -/
def moveAlternatives (moved : ∀ i, T i → T i) (e src : ℕ) : List (Fin n) → Call T X Unit
  | [] => pure ()
  | i :: l => do
    if (← this src).state = i + 1 then emplace e i (take moved src i)
    moveAlternatives moved e src l

/-- `move_from`. -/
def moveFrom (moved : ∀ i, T i → T i) (e src : ℕ) : Call T X Unit := do
  moveAlternatives moved e src (List.finRange n)
  clean src

/-- The members' initializers. -/
def create (e : ℕ) : Call T X Unit := modify fun w => w.set e ⟨none, emptyState⟩

def remove (e : ℕ) : Call T X Unit := modify fun w => w.remove e

/-! ## Operations -/

/-- An operation. What a constructor of an alternative comes to is an
argument. -/
inductive Op (T : Fin n → Type) (X : Type)
  /-- `either()` -/
  | default (e : ℕ)
  /-- `either(in_place_index_t<I>, a...)` -/
  | inPlace (e : ℕ) (i : Fin n) (a : Except X (T i))
  | emplace (e : ℕ) (i : Fin n) (a : Except X (T i))
  /-- `either(either &&)` -/
  | moveConstruct (e src : ℕ)
  /-- `operator=(either &&)` -/
  | moveAssign (e src : ℕ)
  | clean (e : ℕ)
  /-- `~either()` -/
  | destroy (e : ℕ)

/-- A constructor that returns or throws. -/
def ctor {i : Fin n} : Except X (T i) → Call T X (T i)
  | .ok v => pure v
  | .error x => throw (.thrown x)

/-- What an operation does. When a constructor of `either` throws there is
no object. -/
def Op.body (moved : ∀ i, T i → T i) : Op T X → Call T X Unit
  | default e => create e
  | inPlace e i a => do
    create e
    tryCatch (Alternatives.emplace e i (ctor a)) fun x => do
      Alternatives.remove e
      throw x
  | emplace e i a => Alternatives.emplace e i (ctor a)
  | moveConstruct e src => do
    create e
    moveFrom moved e src
  | moveAssign e src => do
    Alternatives.clean e
    moveFrom moved e src
  | clean e => Alternatives.clean e
  | destroy e => do
    Alternatives.clean e
    Alternatives.remove e

/-- The objects of an operation: the one that is constructed, changed or
destroyed, and the source of a move. -/
def Op.names : Op T X → List ℕ
  | default e | inPlace e _ _ | emplace e _ _ | clean e | destroy e => [e]
  | moveConstruct e src | moveAssign e src => [e, src]

/-- **A constructor makes a new `either`**, and the other operations need
theirs. A move assignment is from another object. -/
def Op.Valid (w : World T) : Op T X → Prop
  | default e | inPlace e _ _ => w.get e = none
  | emplace e _ _ | clean e | destroy e => w.get e ≠ none
  | moveConstruct e src => w.get e = none ∧ w.get src ≠ none
  | moveAssign e src => e ≠ src ∧ w.get e ≠ none ∧ w.get src ≠ none

/-- There is no object at all. -/
def init : World T := ⟨fun _ => none, 0, []⟩

/-- **An operation returns, or throws what a constructor has thrown.** -/
inductive Step (X : Type) (moved : ∀ i, T i → T i) : World T → Op T X → World T → Prop
  | returns {w w' : World T} {o : Op T X} (hv : o.Valid w) (h : o.body moved w = .ok () w') :
      Step X moved w o w'
  | throws {w w' : World T} {o : Op T X} {x : X} (hv : o.Valid w)
      (h : o.body moved w = .error (.thrown x) w') : Step X moved w o w'

/-- Reachable by a sequence of operations. -/
def Reachable (X : Type) (moved : ∀ i, T i → T i) (w : World T) : Prop :=
  Runs (Step X moved) Unguarded init w

end Alternatives

end PortableConcurrency
