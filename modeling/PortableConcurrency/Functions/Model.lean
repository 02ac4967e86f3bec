import Mathlib.Logic.Function.Basic
import Mathlib.Data.Nat.Notation

/-!
# `unique_function` — the model

A `small_unique_function` is a buffer and a pointer to a table, through
which the callable in the buffer is destroyed, moved and called. A
`unique_function` is one of these. A callable that does not fit in the
buffer lives on the heap, and what is in the buffer is a lambda with a
`unique_ptr` to it.

The memory records every callable that has ever been constructed, lambdas
included: what is in it, how often its destructor has run, and how often
it has been used after that. A moved-from object keeps its table, and its
callable stays until it is destroyed.

Callables are what user code makes them, and their types are parameters,
as is the conversion of what they return to `R`. They do not use
`unique_function` objects themselves, and constructing and moving them
does not throw.
-/

namespace PortableConcurrency

namespace Functions

/-- What the call of a callable comes to. -/
inductive Result (L V E : Type*)
  | value (v : V)
  /-- a reference to `x`, whose value is `v` -/
  | ref (x : L) (v : V)
  | throws (e : E)
  deriving DecidableEq, Repr

/-- **The types of callables**: what a move leaves in its source, what a
call does, and what a copy of the value of a reference comes to, which is
an object of another type when the copy decays. -/
structure Types (K S A L V E : Type*) where
  residue : K → S → S
  call : K → S → A → S × Result L V E
  copy : V → Except E V

/-- What a call gives its caller. -/
inductive Returned (L V E : Type*)
  | value (v : V)
  | reference (x : L)
  /-- a reference, or a view, to a temporary that is gone -/
  | dangling
  | throws (e : E)
  deriving DecidableEq, Repr

/-- **The conversion to `R`**, of a temporary and of a reference. The two
need not agree on the reference and a copy of what it refers to. -/
structure Conversion (L V E : Type*) where
  ofValue : V → Returned L V E
  ofRef : L → V → Returned L V E

/-- What the caller of a `unique_function` sees. -/
inductive Answer (L V E : Type*)
  | done
  | returned (r : Returned L V E)
  | badFunctionCall
  | undefined
  deriving DecidableEq, Repr

namespace Result

variable {L V E : Type*}

/-- What a lambda without a return type makes of a result: it never
returns a reference, but a copy. -/
def decay (copy : V → Except E V) : Result L V E → Result L V E
  | .ref _ v =>
    match copy v with
    | .ok v' => .value v'
    | .error e => .throws e
  | r => r

/-- The conversion of a result to `R`. -/
def convert (conv : Conversion L V E) : Result L V E → Returned L V E
  | .value v => conv.ofValue v
  | .ref x v => conv.ofRef x v
  | .throws e => .throws e

end Result

/-- `R` is a reference type: a temporary does not outlive the call. -/
def Conversion.toReference {L V E : Type*} : Conversion L V E :=
  ⟨fun _ => .dangling, fun x _ => .reference x⟩

/-- A callable, or the `unique_ptr` of a lambda. -/
inductive Content (S : Type*)
  | state (s : S)
  | pointer (p : Option ℕ)
  deriving DecidableEq, Repr

/-- **An object of some callable's type**, and what has been done to it. -/
structure Instance (S : Type*) where
  content : Content S
  destructions : ℕ
  /-- how often it has been called or moved from after it was destroyed -/
  misuses : ℕ
  deriving DecidableEq, Repr

/-- The objects are named in the order of their construction. -/
structure Memory (S : Type*) where
  get : ℕ → Instance S
  fresh : ℕ

namespace Memory

variable {S : Type*}

def set (m : Memory S) (c : ℕ) (i : Instance S) : Memory S :=
  { m with get := Function.update m.get c i }

/-- An object is constructed. -/
def construct (m : Memory S) (x : Content S) : Memory S × ℕ :=
  (⟨Function.update m.get m.fresh ⟨x, 0, 0⟩, m.fresh + 1⟩, m.fresh)

/-- A destructor runs. -/
def free (m : Memory S) (c : ℕ) : Memory S :=
  m.set c { m.get c with destructions := (m.get c).destructions + 1 }

/-- An object is used and left with `x` in it. -/
def use (m : Memory S) (c : ℕ) (x : Content S) : Memory S :=
  m.set c { m.get c with
    content := x
    misuses := (m.get c).misuses + if (m.get c).destructions = 0 then 0 else 1 }

end Memory

/-! ## The table -/

/-- **`get_callable_vtbl<F>`**, for a callable's type or for the lambda
that has a callable of that type on the heap. -/
inductive Vtbl (K : Type*)
  | inline (k : K)
  | boxed (k : K)
  deriving DecidableEq, Repr

section Table

variable {K S A L V E : Type*} (T : Types K S A L V E) (conv : Conversion L V E)

/-- The destructor; that of a `unique_ptr` destroys what it points to. -/
def Vtbl.destroy (t : Vtbl K) (m : Memory S) (b : ℕ) : Memory S :=
  match t, (m.get b).content with
  | .boxed _, .pointer (some p) => (m.free b).free p
  | _, _ => m.free b

/-- What a move leaves. -/
def Vtbl.residue (t : Vtbl K) : Content S → Content S
  | .state s =>
    match t with
    | .inline k => .state (T.residue k s)
    | .boxed _ => .state s
  | .pointer _ => .pointer none

/-- `new (&dst) F{std::move(src)}`. -/
def Vtbl.move (t : Vtbl K) (m : Memory S) (src : ℕ) : Memory S × ℕ :=
  (m.use src (t.residue T (m.get src).content)).construct (m.get src).content

/-- The call; that of the lambda goes through the pointer. -/
def Vtbl.call (t : Vtbl K) (m : Memory S) (b : ℕ) (a : A) : Memory S × Answer L V E :=
  match t, (m.get b).content with
  | .inline k, .state s =>
    (m.use b (.state (T.call k s a).1), .returned ((T.call k s a).2.convert conv))
  | .boxed k, .pointer (some p) =>
    match ((m.use b (.pointer (some p))).get p).content with
    | .state s =>
      ((m.use b (.pointer (some p))).use p (.state (T.call k s a).1),
        .returned (((T.call k s a).2.decay T.copy).convert conv))
    | .pointer _ => (m, .undefined)
  | _, _ => (m, .undefined)

/-- **`small_unique_function`.** `buffer` is the object that was
constructed in it last; it means nothing without a table. -/
structure Small (K : Type*) where
  vtbl : Option (Vtbl K)
  buffer : ℕ
  deriving DecidableEq, Repr

namespace Small

/-- The default constructor, and that from `nullptr`. -/
def empty : Small K := ⟨none, 0⟩

/-- `~small_unique_function`. -/
def destroy (f : Small K) (m : Memory S) : Memory S :=
  match f.vtbl with
  | some t => t.destroy m f.buffer
  | none => m

/-- The move of `rhs` into an object without a callable. -/
def moveFrom (rhs : Small K) (m : Memory S) : Memory S × Small K :=
  match rhs.vtbl with
  | some t => ((t.move T m rhs.buffer).1, ⟨some t, (t.move T m rhs.buffer).2⟩)
  | none => (m, ⟨none, 0⟩)

/-- `small_unique_function::operator=`; both operands may be the same
object. -/
def moveAssign (f rhs : Small K) (m : Memory S) : Memory S × Small K :=
  rhs.moveFrom T (f.destroy m)

def call (f : Small K) (m : Memory S) (a : A) : Memory S × Answer L V E :=
  match f.vtbl with
  | some t => t.call T conv m f.buffer a
  | none => (m, .badFunctionCall)

end Small

end Table

/-! ## The objects -/

/-- A `unique_function` of the program, or one of the temporaries of an
expression. -/
inductive Slot
  | var (x : ℕ)
  /-- the lambda of `unique_function(F &&, std::false_type)` -/
  | lambda
  | temporary
  deriving DecidableEq, Repr

/-- **The memory and the objects that exist.** -/
structure World (K S : Type*) where
  mem : Memory S
  fns : Slot → Option (Small K)

/-- The operations. `z` is the name of a new object. -/
inductive Op (K S A : Type*)
  /-- from `nullptr`, or by default -/
  | empty (z : ℕ)
  /-- from a callable, or from a null one of that type -/
  | construct (z : ℕ) (k : K) (f : Option S)
  | moveConstruct (z y : ℕ)
  | moveAssign (x y : ℕ)
  | swap (x y : ℕ)
  | call (x : ℕ) (a : A)
  | destroy (x : ℕ)
  deriving DecidableEq, Repr

namespace World

variable {K S A L V E : Type*} (T : Types K S A L V E)

def init (x : Content S) : World K S := ⟨⟨fun _ => ⟨x, 0, 0⟩, 0⟩, fun _ => none⟩

def setFn (w : World K S) (z : Slot) (f : Option (Small K)) : World K S :=
  { w with fns := Function.update w.fns z f }

/-- An object without a callable. -/
def create (w : World K S) (z : Slot) : Option (World K S) :=
  match w.fns z with
  | none => some (w.setFn z (some .empty))
  | some _ => none

/-- `small_unique_function(F &&)`. -/
def embed (w : World K S) (z : Slot) (k : K) (s : S) : Option (World K S) :=
  match w.fns z with
  | none =>
    some { mem := (w.mem.construct (.state s)).1
           fns := Function.update w.fns z
             (some ⟨some (.inline k), (w.mem.construct (.state s)).2⟩) }
  | some _ => none

/-- The lambda, with what `make_unique` returns. -/
def makeLambda (w : World K S) (k : K) (s : S) : Option (World K S) :=
  match w.fns .lambda with
  | none =>
    let r := w.mem.construct (.state s)
    some { mem := (r.1.construct (.pointer (some r.2))).1
           fns := Function.update w.fns .lambda
             (some ⟨some (.boxed k), (r.1.construct (.pointer (some r.2))).2⟩) }
  | some _ => none

def moveConstruct (w : World K S) (z y : Slot) : Option (World K S) :=
  match w.fns z, w.fns y with
  | none, some rhs =>
    some { mem := (rhs.moveFrom T w.mem).1
           fns := Function.update w.fns z (some (rhs.moveFrom T w.mem).2) }
  | _, _ => none

def moveAssign (w : World K S) (x y : Slot) : Option (World K S) :=
  match w.fns x, w.fns y with
  | some f, some rhs =>
    some { mem := (f.moveAssign T rhs w.mem).1
           fns := Function.update w.fns x (some (f.moveAssign T rhs w.mem).2) }
  | _, _ => none

def destroy (w : World K S) (x : Slot) : Option (World K S) :=
  match w.fns x with
  | some f => some { mem := f.destroy w.mem, fns := Function.update w.fns x none }
  | none => none

/-- `unique_function(F &&, std::false_type)`, for a callable that is not
null. -/
def box (w : World K S) (z : Slot) (k : K) (s : S) : Option (World K S) :=
  (w.create z).bind fun w =>
  (w.makeLambda k s).bind fun w =>
  (w.moveConstruct T .temporary .lambda).bind fun w =>
  (w.moveAssign T z .temporary).bind fun w =>
  (w.destroy .temporary).bind fun w =>
  w.destroy .lambda

/-- `std::swap`. -/
def swap (w : World K S) (x y : Slot) : Option (World K S) :=
  (w.moveConstruct T .temporary x).bind fun w =>
  (w.moveAssign T x y).bind fun w =>
  (w.moveAssign T y .temporary).bind fun w =>
  w.destroy .temporary

/-- The constructor from a callable. -/
def construct (storable : K → Bool) (w : World K S) (z : Slot) (k : K) :
    Option S → Option (World K S)
  | some s => if storable k then w.embed z k s else w.box T z k s
  | none => w.create z

def call (conv : Conversion L V E) (w : World K S) (x : Slot) (a : A) :
    Option (World K S × Answer L V E) :=
  (w.fns x).map fun f =>
    ({ w with mem := (f.call T conv w.mem a).1 }, (f.call T conv w.mem a).2)

/-- **One operation.** -/
def step (storable : K → Bool) (conv : Conversion L V E) (w : World K S) :
    Op K S A → Option (World K S × Answer L V E)
  | .empty z => (w.create (.var z)).map (·, .done)
  | .construct z k f => (w.construct T storable (.var z) k f).map (·, .done)
  | .moveConstruct z y => (w.moveConstruct T (.var z) (.var y)).map (·, .done)
  | .moveAssign x y => (w.moveAssign T (.var x) (.var y)).map (·, .done)
  | .swap x y => (w.swap T (.var x) (.var y)).map (·, .done)
  | .call x a => w.call T conv (.var x) a
  | .destroy x => (w.destroy (.var x)).map (·, .done)

end World

end Functions

end PortableConcurrency
