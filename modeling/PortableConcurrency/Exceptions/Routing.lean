import PortableConcurrency.Exceptions.Execute

/-!
# Where an exception of `set_state_value` goes

An exception of the function, or of the copy that stores its result,
belongs into the state; one of a continuation belongs to the caller. Two
things go wrong. The flag that is to tell them apart is set before the
result is stored, so that an exception of the copy is taken for one of a
continuation, and the state stays empty. And two of the five overloads
have no flag, or never set it, and pass what a continuation throws to
`set_exception`, which finds the state satisfied.
-/

namespace PortableConcurrency

namespace Exceptions

variable {V E F : Type*} {ks : List (Continuation E F)} {st : State V E F}

/-! ## What the claim of each case is -/

/-- The exception of the function, or of storing its result. -/
def Call.failure : Call V E → Option (Thrown E)
  | .object (.error x) => some x
  | .object (.ok (.value (.error x))) => some x
  | .object (.ok _) => none
  | .reference (.error x) => some x
  | .reference (.ok _) => none
  | .referenceFuture (.error x) => some x
  | .referenceFuture (.ok _) => none
  | .void (.error x) => some x
  | .void (.ok _) => none
  | .voidFuture (.error x) => some x
  | .voidFuture (.ok _) => none

/-- What a returned future makes of the state. -/
def futureStorage : Option Inner → Storage V E
  | none => .exception .brokenPromise
  | some val => .inner val.state

/-- What the state is to hold in the end. -/
def Call.storage : Call V E → Storage V E
  | .object (.error x) => .exception x
  | .object (.ok (.value (.error x))) => .exception x
  | .object (.ok (.value (.ok v))) => .value v
  | .object (.ok (.future val)) => futureStorage val
  | .reference (.error x) => .exception x
  | .reference (.ok v) => .value v
  | .referenceFuture (.error x) => .exception x
  | .referenceFuture (.ok val) => futureStorage val
  | .void (.error x) => .exception x
  | .void (.ok v) => .value v
  | .voidFuture (.error x) => .exception x
  | .voidFuture (.ok val) => futureStorage val

/-- Whether a returned future is ready, or not valid. -/
def futureReady : Option Inner → Bool
  | none => true
  | some val => val.ready

/-- Whether the state is ready at once: not when it is unwrapped onto a
state that is pending. -/
def Call.delivers : Call V E → Bool
  | .object (.ok (.future val)) => futureReady val
  | .referenceFuture (.ok val) => futureReady val
  | .voidFuture (.ok val) => futureReady val
  | _ => true

/-- **The exceptions go where they belong.** The state ends satisfied; the
continuations' exception, and no other, leaves; and `set_exception` is
called in the handler for a failure only. -/
structure Routed (ks : List (Continuation E F)) (call : Call V E) (r : Routing V E F) : Prop where
  storage : r.state.storage = call.storage
  ready : call.delivers = true → r.state.continuations = none
  thrown : r.thrown = if call.delivers then (callAll ks.reverse).2 else none
  handed : r.handed = call.failure

/-- A state that is not ready is unwrapped onto a pending one. -/
theorem Call.storage_of_pending {call : Call V E} (h : call.delivers = false) :
    ∃ t, call.storage = .inner t := by
  unfold Call.delivers at h
  split at h
  case h_4 => cases h
  all_goals
    rename_i val
    cases val with
    | none => cases h
    | some val => exact ⟨val.state, rfl⟩

/-- **The future is ready**, or unwrapped onto a valid one. -/
theorem Routed.satisfied {call : Call V E} {r : Routing V E F} (h : Routed ks call r) :
    r.state.continuations = none ∨ ∃ t, r.state.storage = .inner t := by
  by_cases hd : call.delivers = true
  · exact .inl (h.ready hd)
  · obtain ⟨t, ht⟩ := Call.storage_of_pending (by simpa using hd)
    exact .inr ⟨t, h.storage.trans ht⟩

/-! ## The parts -/

/-- **When the exceptions are routed right**: the copy that stores the
result does not throw; and where a function for an `R &` or for `void`
returns a future that is ready or not valid, no continuation throws. -/
def Call.Safe (ks : List (Continuation E F)) : Call V E → Prop
  | .object (.ok (.value (.error _))) => False
  | .referenceFuture (.ok val) => futureReady val = true → ∀ k ∈ ks, k.throws = none
  | .voidFuture (.ok val) => futureReady val = true → ∀ k ∈ ks, k.throws = none
  | _ => True

end Exceptions

end PortableConcurrency
