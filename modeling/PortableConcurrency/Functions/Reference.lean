import PortableConcurrency.Functions.Ownership

/-!
# Owning references — the reference machine

A `unique_function` refers to one callable, or to none. A move passes the
callable on, an exchange exchanges, and a call runs the callable and keeps
its state. Where the callable is stored does not show.
-/

namespace PortableConcurrency

namespace Functions

variable {K S A L V E : Type*}

/-- What an object refers to, and whether it has been moved from since it
was last given anything. -/
structure Ref (K S : Type*) where
  content : Option (K × S)
  movedFrom : Bool
  deriving DecidableEq, Repr

/-- The objects that exist. -/
abbrev Refs (K S : Type*) := ℕ → Option (Ref K S)

namespace Refs

def set (o : Refs K S) (x : ℕ) (r : Option (Ref K S)) : Refs K S := Function.update o x r

def create (o : Refs K S) (z : ℕ) (content : Option (K × S)) : Option (Refs K S) :=
  match o z with
  | none => some (o.set z (some ⟨content, false⟩))
  | some _ => none

/-- `z` gets what `y` refers to. -/
def pass (o : Refs K S) (z y : ℕ) (r : Ref K S) : Refs K S :=
  (o.set y (some ⟨none, true⟩)).set z (some ⟨r.content, false⟩)

/-- **One operation.** -/
def step (T : Types K S A L V E) (conv : Conversion L V E) (o : Refs K S) :
    Op K S A → Option (Refs K S × Answer L V E)
  | .empty z => (o.create z none).map (·, .done)
  | .construct z k f => (o.create z (f.map (k, ·))).map (·, .done)
  | .moveConstruct z y =>
    match o z, o y with
    | none, some r => some (o.pass z y r, .done)
    | _, _ => none
  | .moveAssign x y =>
    match o x, o y with
    | some _, some r => some (o.pass x y r, .done)
    | _, _ => none
  | .swap x y =>
    match o x, o y with
    | some r, some r' =>
      some ((o.set x (some ⟨r'.content, false⟩)).set y (some ⟨r.content, false⟩), .done)
    | _, _ => none
  | .call x a =>
    match o x with
    | some ⟨some (k, s), m⟩ =>
      some (o.set x (some ⟨some (k, (T.call k s a).1), m⟩),
        .returned ((T.call k s a).2.convert conv))
    | some ⟨none, _⟩ => some (o, .badFunctionCall)
    | none => none
  | .destroy x =>
    match o x with
    | some _ => some (o.set x none, .done)
    | none => none

end Refs

end Functions

end PortableConcurrency
