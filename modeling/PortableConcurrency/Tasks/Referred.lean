import PortableConcurrency.Common.Runs
import PortableConcurrency.Futures.Model

/-!
# The object a task's function refers to

The function of a `packaged_task<R(A...)>` may return an `R`, or a
reference to an `R` that others use as well. `set_state_value` binds what
the function returns to `auto &&res` and passes `std::move(res)` on, so
that a returned value need not be copied. A reference to a non-const object
is treated the same way, and what is stored in the future is moved out of
that object.

The objects are a store. Expressions have a value category and a type that
is const or not; `std::move`, the forwarding parameters of `unwrap` and
`emplace`, and the choice between the constructors of `R` are functions of
these. Of `R` it is assumed that constructing it does not throw. What a
move leaves in its source is a parameter.
-/

namespace PortableConcurrency

namespace Tasks

namespace Referred

open Futures (Exn Storage)

/-! ## Expressions -/

inductive Category
  | prvalue
  | lvalue
  | xvalue
  deriving DecidableEq, Repr

/-- What an expression denotes: a temporary, or an object of the store. -/
inductive Denotes (L V : Type*)
  | temporary (v : V)
  | object (x : L)
  deriving DecidableEq, Repr

/-- An expression of type `R` or `const R`. -/
structure Expr (L V : Type*) where
  category : Category
  const : Bool
  denotes : Denotes L V
  deriving DecidableEq, Repr

section Forwarding

variable {L V : Type*}

/-- `auto &&res = e;` and then `res`, the name of a reference. -/
def bind (e : Expr L V) : Expr L V := { e with category := .lvalue }

/-- `std::move`, which keeps const. -/
def move (e : Expr L V) : Expr L V := { e with category := .xvalue }

/-- A parameter `U &&u` that is bound to `e`, and then
`std::forward<U>(u)`: an lvalue if `e` is one, an xvalue if not. -/
def forward (e : Expr L V) : Expr L V :=
  match e.category with
  | .lvalue => e
  | _ => { e with category := .xvalue }

/-- Whether `R{e}` calls `R(R &&)`, and not `R(const R &)`. -/
def Moves (e : Expr L V) : Prop := e.category ≠ .lvalue ∧ e.const = false

instance (e : Expr L V) : Decidable (Moves e) :=
  inferInstanceAs (Decidable (e.category ≠ .lvalue ∧ e.const = false))

variable [DecidableEq L]

/-- `R{e}`: the value, and the objects afterwards. -/
def construct (residue : V → V) (e : Expr L V) (objects : L → V) : V × (L → V) :=
  match e.denotes with
  | .temporary v => (v, objects)
  | .object x =>
    (objects x, if Moves e then Function.update objects x (residue (objects x)) else objects)

end Forwarding

/-! ## Tasks -/

/-- What a function comes to. -/
inductive Result (L V E : Type*)
  /-- it returns an `R`, or a `const R` -/
  | value (const : Bool) (v : V)
  /-- it returns an `R &`, or a `const R &` -/
  | ref (const : Bool) (x : L)
  | throws (e : E)
  deriving DecidableEq, Repr

/-- **A task**: what it was constructed from, whether that has been cleaned,
what its future gives, and the arguments it was called with. -/
structure Task (L V E A : Type*) where
  callable : A → (L → V) → Result L V E
  func : Bool
  storage : Storage V E
  args : Option A

/-- **The objects and the tasks.** -/
structure World (L V E A : Type*) where
  objects : L → V
  tasks : ℕ → Option (Task L V E A)
  size : ℕ

inductive Op (L V E A : Type*)
  | construct (f : A → (L → V) → Result L V E)
  | call (i : ℕ) (a : A)

variable {L V E A : Type*}

/-- The expression `invoke(f, a...)`, unless it throws. -/
def Result.expr : Result L V E → Except E (Expr L V)
  | .value const v => .ok ⟨.prvalue, const, .temporary v⟩
  | .ref const x => .ok ⟨.lvalue, const, .object x⟩
  | .throws e => .error e

/-- What a future is to hold, if a function comes to this. -/
def Result.outcome : Result L V E → (L → V) → Storage V E
  | .value _ v, _ => .value v
  | .ref _ x, objects => .value (objects x)
  | .throws e, _ => .exception (.user e)

variable [DecidableEq L]

/-- `emplace`, which throws if something is stored. -/
def emplace (residue : V → V) (storage : Storage V E) (e : Expr L V) (objects : L → V) :
    Storage V E × (L → V) :=
  match storage with
  | .empty => ((.value (construct residue (forward (forward e)) objects).1),
      (construct residue (forward (forward e)) objects).2)
  | _ => (storage, objects)

/-- `unwrap`, of what is not a future. -/
def unwrap (residue : V → V) (storage : Storage V E) (e : Expr L V) (objects : L → V) :
    Storage V E × (L → V) :=
  emplace residue storage (forward e) objects

def setException (storage : Storage V E) (e : E) : Storage V E :=
  match storage with
  | .empty => .exception (.user e)
  | _ => storage

/-- **`set_state_value`.** -/
def setStateValue (residue : V → V) (storage : Storage V E) (r : Result L V E)
    (objects : L → V) : Storage V E × (L → V) :=
  match r.expr with
  | .ok e => unwrap residue storage (move (bind e)) objects
  | .error e => (setException storage e, objects)

namespace World

/-- `task_state::run`, which throws if the function has been cleaned. -/
def run (residue : V → V) (w : World L V E A) (i : ℕ) (t : Task L V E A) (a : A) :
    World L V E A :=
  if t.func then
    let r := setStateValue residue t.storage (t.callable a w.objects) w.objects
    { w with
      objects := r.2
      tasks := Function.update w.tasks i
        (some { t with func := false, storage := r.1, args := some a }) }
  else w

/-- **One operation.** -/
def step (residue : V → V) (w : World L V E A) : Op L V E A → Option (World L V E A)
  | .construct f =>
    some { w with
      tasks := Function.update w.tasks w.size (some ⟨f, true, .empty, none⟩)
      size := w.size + 1 }
  | .call i a => (w.tasks i).map fun t => w.run residue i t a

/-- The operations as a relation. -/
def Step (residue : V → V) (w : World L V E A) (op : Op L V E A) (w' : World L V E A) : Prop :=
  w.step residue op = some w'

def init (objects : L → V) : World L V E A := ⟨objects, fun _ => none, 0⟩

/-! ## The promise, and its condition -/

/-- **The operation consumes nothing**: the objects are as before, and what
every future holds is what its function's result was, and still is. -/
def Unconsumed (residue : V → V) (w : World L V E A) (op : Op L V E A) : Prop :=
  ∀ w', w.step residue op = some w' → w'.objects = w.objects ∧
    ∀ i t a, w'.tasks i = some t → t.args = some a →
      t.storage = (t.callable a w'.objects).outcome w'.objects

/-- **The function does not return a reference to a non-const object that a
move would change.** -/
def Spared (residue : V → V) (w : World L V E A) (op : Op L V E A) : Prop :=
  ∀ i a t x, op = .call i a → w.tasks i = some t → t.func = true →
    t.callable a w.objects = .ref false x → residue (w.objects x) = w.objects x

variable {residue : V → V} {w w' : World L V E A} {op : Op L V E A}

/-- What runs that spare the objects keep: a task that has its function has
not been called and stores nothing, and another one stores its outcome. -/
structure Delivered (w : World L V E A) : Prop where
  waiting : ∀ i t, w.tasks i = some t → t.func = true → t.storage = .empty
  outcome : ∀ i t a, w.tasks i = some t → t.args = some a →
    t.storage = (t.callable a w.objects).outcome w.objects

omit [DecidableEq L] in
theorem delivered_init (objects : L → V) : Delivered (init objects : World L V E A) := by
  refine ⟨?_, ?_⟩ <;> simp [init]

end World

/-- **What `set_state_value` does to an empty state.** The outcome is
stored. The objects are as before, unless a non-const reference was
returned. -/
theorem setStateValue_empty (residue : V → V) (r : Result L V E) (objects : L → V) :
    setStateValue residue .empty r objects = (r.outcome objects,
      match r with
      | .ref false x => Function.update objects x (residue (objects x))
      | _ => objects) := by
  cases r with
  | value const v => rfl
  | ref const x =>
    -- the constness of the reference is that of the expression `R` is constructed from
    cases const with
    | false => rfl
    | true => rfl
  | throws e => rfl

namespace World

variable {residue : V → V} {w w' : World L V E A} {op : Op L V E A}

/-- A run that spares the objects leaves them alone. -/
theorem objects_of_spared {i : ℕ} {t : Task L V E A} {a : A} (hs : Spared residue w (.call i a))
    (ht : w.tasks i = some t) (hf : t.func = true) :
    (setStateValue residue .empty (t.callable a w.objects) w.objects).2 = w.objects := by
  rw [setStateValue_empty]
  simp only
  split
  · rename_i x hx
    rw [hs i a t x rfl ht hf hx]
    exact Function.update_eq_self x w.objects
  · rfl

/-- **The step lemma.** -/
theorem Delivered.step (h : Delivered w) (hs : Spared residue w op)
    (hst : w.step residue op = some w') : Delivered w' ∧ w'.objects = w.objects := by
  cases op with
  | construct f =>
    obtain rfl := Option.some.inj hst
    refine ⟨⟨?_, ?_⟩, rfl⟩
    · intro i t ht hf
      by_cases hi : i = w.size
      · simp only [hi, Function.update_self, Option.some.injEq] at ht
        rw [← ht]
      · exact h.waiting i t (by simpa [hi] using ht) hf
    · intro i t a ht ha
      by_cases hi : i = w.size
      · simp only [hi, Function.update_self, Option.some.injEq] at ht
        rw [← ht] at ha
        cases ha
      · exact h.outcome i t a (by simpa [hi] using ht) ha
  | call i a =>
    obtain ⟨t, ht, rfl⟩ := Option.map_eq_some_iff.mp hst
    by_cases hf : t.func = true
    · have hobj := objects_of_spared hs ht hf
      have hempty := h.waiting i t ht hf
      have hrun : w.run residue i t a = { w with
          tasks := Function.update w.tasks i (some { t with
            func := false, storage := (t.callable a w.objects).outcome w.objects,
            args := some a }) } := by
        simp only [run, hf, if_true, hempty, hobj]
        rw [setStateValue_empty]
      rw [hrun]
      refine ⟨⟨?_, ?_⟩, rfl⟩
      · intro j u hu hfu
        by_cases hj : j = i
        · simp only [hj, Function.update_self, Option.some.injEq] at hu
          rw [← hu] at hfu
          cases hfu
        · exact h.waiting j u (by simpa [hj] using hu) hfu
      · intro j u b hu hb
        by_cases hj : j = i
        · simp only [hj, Function.update_self, Option.some.injEq] at hu
          subst hu
          cases hb
          rfl
        · exact h.outcome j u b (by simpa [hj] using hu) hb
    · simp only [run, hf]
      exact ⟨h, rfl⟩

/-- **A non-const reference that a move changes is consumed.** -/
theorem Delivered.spared (h : Delivered w) (hu : Unconsumed residue w op) :
    Spared residue w op := by
  rintro i a t x rfl ht hf hx
  have hst : w.step residue (.call i a) = some (w.run residue i t a) := by
    simp only [World.step, ht, Option.map_some]
  have hobj := (hu _ hst).1
  simp only [run, hf, if_true, h.waiting i t ht hf, setStateValue_empty, hx] at hobj
  have hat := congrFun hobj x
  rwa [Function.update_self] at hat

omit [DecidableEq L] in
/-- Tasks whose results are equal deliver equal values. -/
theorem Delivered.storage_eq (h : Delivered w) {i j : ℕ} {t u : Task L V E A} {a b : A}
    (ht : w.tasks i = some t) (hu : w.tasks j = some u) (ha : t.args = some a)
    (hb : u.args = some b) (heq : (t.callable a w.objects).outcome w.objects =
      (u.callable b w.objects).outcome w.objects) : t.storage = u.storage := by
  rw [h.outcome i t a ht ha, h.outcome j u b hu hb, heq]

/-- **A whole run that spares the objects** leaves them as they were at
first. -/
theorem objects_eq {objects : L → V} {ops : List (Op L V E A)}
    (h : Trace (Step residue) (Spared residue) (init objects) ops w) :
    w.objects = objects ∧ Delivered w := by
  induction h with
  | nil => exact ⟨rfl, delivered_init objects⟩
  | snoc _ hok hst ih =>
    obtain ⟨hobj, hd⟩ := ih
    obtain ⟨hd', hobj'⟩ := hd.step hok hst
    exact ⟨hobj'.trans hobj, hd'⟩

/-- **Running tasks leaves the objects alone exactly if no function returns
a reference to a non-const object that a move changes.** In these runs, and
in no others, each future holds what the result of its function was at the
call, and every object keeps its value, so that tasks whose functions give
the same object deliver equal values. -/
theorem unconsumed_iff (residue : V → V) (objects : L → V) (ops : List (Op L V E A))
    (w : World L V E A) : Trace (Step residue) (Unconsumed residue) (init objects) ops w ↔
      Trace (Step residue) (Spared residue) (init objects) ops w := by
  constructor
  · intro h
    have hboth : Trace (Step residue) (Spared residue) (init objects : World L V E A) ops w ∧
        Delivered w := by
      induction h with
      | nil => exact ⟨.nil _, delivered_init objects⟩
      | snoc _ hok hst ih =>
        obtain ⟨htr, hd⟩ := ih
        have hs := hd.spared hok
        exact ⟨.snoc htr hs hst, (hd.step hs hst).1⟩
    exact hboth.1
  · intro h
    induction h with
    | nil => exact .nil _
    | snoc htr hok hst ih =>
      refine .snoc ih (fun w' hst' => ?_) hst
      obtain ⟨hd', hobj⟩ := (objects_eq htr).2.step hok hst'
      exact ⟨hobj, hd'.outcome⟩

/-- **A task returns a reference to a string**, and the string is empty
after the run. -/
theorem consumed_by_run : ¬ ∀ (ops : List (Op Unit (List Bool) Unit Unit)) w,
    Trace (Step fun _ => []) Unguarded (init fun _ => [true]) ops w →
      Trace (Step fun _ => []) (Unconsumed fun _ => []) (init fun _ => [true]) ops w := by
  intro hall
  have hrun : ∀ {es w} e {w'},
      Trace (Step fun _ => []) Unguarded (init fun _ => [true] : World Unit _ Unit Unit) es w →
      w.step (fun _ => []) e = some w' → Trace (Step fun _ => []) Unguarded _ (es ++ [e]) w' :=
    fun _ _ h hst => h.snoc trivial hst
  have h := hrun (.call 0 ()) (hrun (.construct fun _ _ => .ref false ()) (.nil _) rfl) rfl
  obtain ⟨w₁, h₁, hu, hst⟩ := (hall _ _ h).snoc_inv
  obtain ⟨w₀, h₀, -, hst₁⟩ := h₁.snoc_inv
  obtain rfl := h₀.nil_inv
  cases hst₁
  have hobj := congrFun (hu _ hst).1 ()
  cases hst
  simp [run, init, setStateValue_empty, Function.update_self] at hobj

end World

end Referred

end Tasks

end PortableConcurrency
