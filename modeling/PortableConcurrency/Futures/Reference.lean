import PortableConcurrency.Futures.Claims

/-!
# What a tree of continuations computes

The result of a continuation is determined by that of its parent and by
its function: `next` passes an error on and applies the function to a
value, `then` applies it to whatever the parent has. Who is at the root,
or was given a promise, has the result that came first. And what a
function has returned as a future has the result of that.

None of this mentions a schedule. The events of a run are asked only who
was made by whom, what came first for a state, and which future a function
has returned.
-/

namespace PortableConcurrency

namespace Futures

variable {V E F : Type*} {e : Event V E F} {es es' : List (Event V E F)} {s t : ℕ}
variable {a : Action F} {o o' : Outcome V E}

/-- What a function does with its argument. -/
inductive Reply (V E : Type*)
  | ret (r : Ret V E)
  /-- it returns a valid future -/
  | future
  deriving DecidableEq, Repr

/-- The outcome of a state with that in it. -/
def Ret.outcome : Ret V E → Outcome V E
  | .value v => .value v
  | .throws e => .exception (.user e)
  | .invalid => .exception .brokenPromise

def Outcome.isError : Outcome V E → Bool
  | .exception _ => true
  | _ => false

theorem Outcome.isError_iff : o.isError = true ↔ ∃ x, o = .exception x := by
  cases o <;> simp [Outcome.isError]

/-- `next` passes the outcome on and does not call its function. -/
def Action.Passes (a : Action F) (o : Outcome V E) : Prop :=
  a.kind = .next ∧ ∃ x, o = .exception x

instance : Decidable (a.Passes o) :=
  decidable_of_iff (a.kind = .next ∧ o.isError = true)
    (and_congr_right fun _ => Outcome.isError_iff)

namespace Event

/-- The state `s` is made. -/
def makes (s : ℕ) : Event V E F → Bool
  | newPromise n | newTask n _ | attach n _ | combine n _ => n = s
  | _ => false

/-- Something is done to `s` by its promise or its task, which gives it a
result if it has none. -/
def settles (s : ℕ) : Event V E F → Bool
  | set n _ | drop .promise n | drop .task n | ret .task n _ | unwrap .task n _ => n = s
  | _ => false

/-- The function of the continuation `s` returns a future. -/
def returns (s : ℕ) : Event V E F → Bool
  | unwrap .cnt n _ => n = s
  | _ => false

/-- Whether what is made has a promise, or is a task. -/
def isSource : Event V E F → Bool
  | newPromise _ => true
  | newTask _ _ => true
  | attach _ a => a.kind = .interruptible
  | _ => false

/-- The result that it gives. -/
def outcome : Event V E F → Option (Outcome V E)
  | set _ (.inl v) => some (.value v)
  | set _ (.inr x) => some (.exception (.user x))
  | drop _ _ => some (.exception .brokenPromise)
  | ret _ _ r => some r.outcome
  | _ => none

/-- The kind of what is made. -/
def kind : Event V E F → Option Body.Kind
  | newPromise _ => some .promise
  | newTask _ _ => some .task
  | attach _ _ => some .cnt
  | combine _ _ => some .combinator
  | _ => none

/-- The event among other addresses. -/
def rename (ρ : ℕ → ℕ) : Event V E F → Event V E F
  | newPromise s => newPromise (ρ s)
  | newTask s fn => newTask (ρ s) fn
  | attach s a => attach (ρ s) { a with parent := ρ a.parent }
  | combine w l => combine (ρ w) (l.map fun f => (f.1, ρ f.2))
  | set s x => set (ρ s) x
  | drop h s => drop h (ρ s)
  | ret h s r => ret h (ρ s) r
  | unwrap h s t => unwrap h (ρ s) (ρ t)
  | e => e

end Event

/-- The state `s` has its result from a promise or from a task. -/
def IsSource (es : List (Event V E F)) (s : ℕ) : Prop :=
  ∃ e, es.find? (Event.makes s) = some e ∧ e.isSource = true

/-- `s` is the continuation with the action `a`, and not interruptible. -/
def Continues (es : List (Event V E F)) (s : ℕ) (a : Action F) : Prop :=
  es.find? (Event.makes s) = some (.attach s a) ∧ a.kind ≠ .interruptible

/-- **The result of `s`**, if functions do what `apply` says. -/
inductive Reference (apply : F → Outcome V E → Reply V E) (es : List (Event V E F)) :
    ℕ → Outcome V E → Prop
  | settled {s : ℕ} {e : Event V E F} {o : Outcome V E} (hs : IsSource es s)
      (hf : es.find? (Event.settles s) = some e) (ho : e.outcome = some o) :
      Reference apply es s o
  /-- a task returns a future -/
  | unwrapped {s t : ℕ} {o : Outcome V E} (hs : IsSource es s)
      (hf : es.find? (Event.settles s) = some (.unwrap .task s t))
      (ht : Reference apply es t o) : Reference apply es s o
  | sequence {s : ℕ} {l : List Input}
      (hm : es.find? (Event.makes s) = some (.combine s l)) : Reference apply es s .futures
  | passes {s : ℕ} {a : Action F} {o : Outcome V E} (hs : Continues es s a)
      (hp : Reference apply es a.parent o) (hpass : a.Passes o) : Reference apply es s o
  | applies {s : ℕ} {a : Action F} {o : Outcome V E} {r : Ret V E} (hs : Continues es s a)
      (hp : Reference apply es a.parent o) (hcall : ¬ a.Passes o)
      (hr : apply a.fn o = .ret r) : Reference apply es s r.outcome
  /-- the function returns a future -/
  | returned {s t : ℕ} {a : Action F} {o o' : Outcome V E} (hs : Continues es s a)
      (hp : Reference apply es a.parent o) (hcall : ¬ a.Passes o)
      (hr : apply a.fn o = .future)
      (hf : es.find? (Event.returns s) = some (.unwrap .cnt s t))
      (ht : Reference apply es t o') : Reference apply es s o'

/-- **The result of `n` is that of `t`**, whatever it will be: a function
has returned the future of `t`. -/
inductive Adopts (apply : F → Outcome V E → Reply V E) (es : List (Event V E F)) (n t : ℕ) : Prop
  | task (hs : IsSource es n) (hf : es.find? (Event.settles n) = some (.unwrap .task n t))
  | cnt (a : Action F) (o : Outcome V E) (hs : Continues es n a)
      (hp : Reference apply es a.parent o) (hcall : ¬ a.Passes o) (hr : apply a.fn o = .future)
      (hf : es.find? (Event.returns n) = some (.unwrap .cnt n t))

/-! ## First events -/

theorem find?_mono {p : Event V E F → Bool} (h : es.find? p = some e)
    (es' : List (Event V E F)) : (es ++ es').find? p = some e := by
  rw [List.find?_append, h]
  rfl

theorem find?_last {p : Event V E F → Bool} (h : ∀ x ∈ es, p x = false) (he : p e = true) :
    (es ++ [e]).find? p = some e := by
  have hnone : es.find? p = none := List.find?_eq_none.mpr fun x hx => by simp [h x hx]
  rw [List.find?_append, hnone]
  simp [he]

theorem IsSource.mono (h : IsSource es s) (es' : List (Event V E F)) :
    IsSource (es ++ es') s := by
  obtain ⟨e, hf, he⟩ := h
  exact ⟨e, find?_mono hf es', he⟩

theorem Continues.mono (h : Continues es s a) (es' : List (Event V E F)) :
    Continues (es ++ es') s a :=
  ⟨find?_mono h.1 es', h.2⟩

theorem Continues.not_source (h : Continues es s a) : ¬ IsSource es s := by
  rintro ⟨e, hf, he⟩
  rw [h.1] at hf
  cases hf
  exact h.2 (by simpa [Event.isSource] using he)

theorem Continues.unique {b : Action F} (h : Continues es s a) (h' : Continues es s b) :
    b = a := by
  have heq := h'.1.symm.trans h.1
  simpa using heq

theorem Continues.not_sequence {l : List Input} (h : Continues es s a) :
    es.find? (Event.makes s) ≠ some (.combine s l) := by
  rw [h.1]
  simp

theorem IsSource.not_sequence {l : List Input} (h : IsSource es s) :
    es.find? (Event.makes s) ≠ some (.combine s l) := by
  obtain ⟨e, hf, he⟩ := h
  rw [hf]
  rintro ⟨⟩
  cases he

namespace Reference

variable {apply : F → Outcome V E → Reply V E}

/-- **What has been determined stays so.** -/
theorem mono (h : Reference apply es s o) (es' : List (Event V E F)) :
    Reference apply (es ++ es') s o := by
  induction h with
  | settled hs hf ho => exact .settled (hs.mono es') (find?_mono hf es') ho
  | unwrapped hs hf _ ih => exact .unwrapped (hs.mono es') (find?_mono hf es') ih
  | sequence hm => exact .sequence (find?_mono hm es')
  | passes hs _ hpass ih => exact .passes (hs.mono es') ih hpass
  | applies hs _ hcall hr ih => exact .applies (hs.mono es') ih hcall hr
  | returned hs _ hcall hr hf _ ih iht =>
    exact .returned (hs.mono es') ih hcall hr (find?_mono hf es') iht

/-- **It is determined by the events.** -/
theorem unique (h : Reference apply es s o) (h' : Reference apply es s o') : o' = o := by
  induction h generalizing o' with
  | settled hs hf ho =>
    cases h' with
    | settled _ hf' ho' =>
      obtain rfl := Option.some.inj (hf.symm.trans hf')
      exact Option.some.inj (ho'.symm.trans ho)
    | unwrapped _ hf' =>
      obtain rfl := Option.some.inj (hf.symm.trans hf')
      cases ho
    | sequence hm => exact absurd hm hs.not_sequence
    | passes hc | applies hc | returned hc => exact absurd hs hc.not_source
  | unwrapped hs hf _ ih =>
    cases h' with
    | settled _ hf' ho' =>
      obtain rfl := Option.some.inj (hf.symm.trans hf')
      cases ho'
    | unwrapped _ hf' ht' =>
      cases Option.some.inj (hf.symm.trans hf')
      exact ih ht'
    | sequence hm => exact absurd hm hs.not_sequence
    | passes hc | applies hc | returned hc => exact absurd hs hc.not_source
  | sequence hm =>
    cases h' with
    | sequence => rfl
    | settled hs | unwrapped hs => exact absurd hm hs.not_sequence
    | passes hc | applies hc | returned hc => exact absurd hm hc.not_sequence
  | passes hc hp hpass ih =>
    cases h' with
    | settled hs | unwrapped hs => exact absurd hs hc.not_source
    | sequence hm => exact absurd hm hc.not_sequence
    | passes hc' hp' =>
      obtain rfl := hc.unique hc'
      exact ih hp'
    | applies hc' hp' hcall | returned hc' hp' hcall =>
      obtain rfl := hc.unique hc'
      rw [ih hp'] at hcall
      exact absurd hpass hcall
  | applies hc hp hcall hr ih =>
    cases h' with
    | settled hs | unwrapped hs => exact absurd hs hc.not_source
    | sequence hm => exact absurd hm hc.not_sequence
    | passes hc' hp' hpass =>
      obtain rfl := hc.unique hc'
      rw [ih hp'] at hpass
      exact absurd hpass hcall
    | applies hc' hp' _ hr' =>
      obtain rfl := hc.unique hc'
      rw [ih hp', hr] at hr'
      cases hr'
      rfl
    | returned hc' hp' _ hr' =>
      obtain rfl := hc.unique hc'
      rw [ih hp', hr] at hr'
      cases hr'
  | returned hc hp hcall hr hf ht ih iht =>
    cases h' with
    | settled hs | unwrapped hs => exact absurd hs hc.not_source
    | sequence hm => exact absurd hm hc.not_sequence
    | passes hc' hp' hpass =>
      obtain rfl := hc.unique hc'
      rw [ih hp'] at hpass
      exact absurd hpass hcall
    | applies hc' hp' _ hr' =>
      obtain rfl := hc.unique hc'
      rw [ih hp', hr] at hr'
      cases hr'
    | returned hc' hp' _ hr' hf' ht' =>
      obtain rfl := hc.unique hc'
      cases Option.some.inj (hf.symm.trans hf')
      exact iht ht'

end Reference

theorem Adopts.mono {apply : F → Outcome V E → Reply V E} (h : Adopts apply es s t)
    (es' : List (Event V E F)) : Adopts apply (es ++ es') s t := by
  cases h with
  | task hs hf => exact .task (hs.mono es') (find?_mono hf es')
  | cnt a o hs hp hcall hr hf =>
    exact .cnt a o (hs.mono es') (hp.mono es') hcall hr (find?_mono hf es')

theorem Adopts.reference {apply : F → Outcome V E → Reply V E} (h : Adopts apply es s t)
    (ht : Reference apply es t o) : Reference apply es s o := by
  cases h with
  | task hs hf => exact .unwrapped hs hf ht
  | cnt a o' hs hp hcall hr hf => exact .returned hs hp hcall hr hf ht

/-! ## The same tree in another run -/

/-- **The states of `es` are among those of `es'`**, with the same parents
and functions, and with the same events first. When these were in the run
is left open. -/
structure SameTree (ρ : ℕ → ℕ) (es es' : List (Event V E F)) : Prop where
  makes : ∀ s e, es.find? (Event.makes s) = some e →
    es'.find? (Event.makes (ρ s)) = some (e.rename ρ)
  settles : ∀ s e, es.find? (Event.settles s) = some e →
    es'.find? (Event.settles (ρ s)) = some (e.rename ρ)
  returns : ∀ s e, es.find? (Event.returns s) = some e →
    es'.find? (Event.returns (ρ s)) = some (e.rename ρ)

theorem Event.rename_isSource (ρ : ℕ → ℕ) (e : Event V E F) :
    (e.rename ρ).isSource = e.isSource := by
  cases e <;> rfl

theorem Event.rename_outcome (ρ : ℕ → ℕ) (e : Event V E F) :
    (e.rename ρ).outcome = e.outcome := by
  cases e with
  | set _ x => cases x <;> rfl
  | _ => rfl

/-- **The results are the same.** -/
theorem Reference.rename {apply : F → Outcome V E → Reply V E} {ρ : ℕ → ℕ}
    (hsame : SameTree ρ es es') (h : Reference apply es s o) : Reference apply es' (ρ s) o := by
  have hsource : ∀ {s}, IsSource es s → IsSource es' (ρ s) := fun ⟨e, hf, he⟩ =>
    ⟨_, hsame.makes _ e hf, (e.rename_isSource ρ).trans he⟩
  have hcont : ∀ {s a}, Continues es s a → Continues es' (ρ s) { a with parent := ρ a.parent } :=
    fun hc => ⟨hsame.makes _ _ hc.1, hc.2⟩
  induction h with
  | settled hs hf ho =>
    exact .settled (hsource hs) (hsame.settles _ _ hf) ((Event.rename_outcome ρ _).trans ho)
  | unwrapped hs hf _ ih => exact .unwrapped (hsource hs) (hsame.settles _ _ hf) ih
  | sequence hm => exact .sequence (hsame.makes _ _ hm)
  | passes hs _ hpass ih => exact .passes (hcont hs) ih hpass
  | applies hs _ hcall hr ih => exact .applies (hcont hs) ih hcall hr
  | returned hs _ hcall hr hf _ ih iht =>
    exact .returned (hcont hs) ih hcall hr (hsame.returns _ _ hf) iht

end Futures

end PortableConcurrency
