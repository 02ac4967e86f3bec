import PortableConcurrency.Exceptions.Model
import Mathlib.Data.List.Perm.Basic
import Mathlib.Data.List.Infix

/-!
# The continuations after one that throws

`execute` has taken the whole list before it calls anything, and calls the
continuations from the last one attached to the first. When one throws,
those behind it are destroyed with the list: threads stay blocked, children
stay pending for ever, and combinators count in vain. They were attached
earlier. So everybody is reached exactly when nobody throws, except
perhaps the one that was attached first.
-/

namespace PortableConcurrency

namespace Exceptions

variable {V E F : Type*} {ks ks' : List (Continuation E F)} {k : Continuation E F}
variable {x : Thrown E}

/-! ## The loop -/

/-- The loop calls the front of the list. -/
theorem callAll_isPrefix (ks : List (Continuation E F)) : (callAll ks).1 <+: ks := by
  induction ks with
  | nil => exact List.nil_prefix
  | cons k ks ih =>
    unfold callAll
    cases k.throws with
    | none => exact List.prefix_cons_inj k |>.mpr ih
    | some x => exact ⟨ks, rfl⟩

/-- **It reaches the end** when nobody before the last one throws. -/
theorem callAll_eq_iff : (callAll ks).1 = ks ↔ ∀ k ∈ ks.dropLast, k.throws = none := by
  induction ks with
  | nil => simp [callAll]
  | cons k ks ih =>
    unfold callAll
    cases hk : k.throws with
    | none =>
      simp only [List.cons.injEq, true_and, ih]
      cases ks with
      | nil => simp
      | cons k' ks => simp [hk]
    | some x =>
      cases ks with
      | nil => simp
      | cons k' ks => simp [hk]

/-- **Everybody is reached**: each continuation is called once, no thread
stays blocked, no child is left neither scheduled nor failed, and no
notification of a combinator is dropped. -/
structure Delivered (pushed called : List (Continuation E F)) : Prop where
  once : called.Perm pushed
  woken : ∀ thread, .wait thread ∈ pushed → .woke thread ∈ called.map Continuation.effect
  scheduled : ∀ c keeps x, .schedule c keeps x ∈ pushed →
    .posted c ∈ called.map Continuation.effect ∨ .abandoned c ∈ called.map Continuation.effect
  notified : ∀ w pos x, .combine w pos x ∈ pushed →
    .notified w pos ∈ called.map Continuation.effect

theorem Delivered.of_perm (h : ks'.Perm ks) : Delivered ks ks' := by
  have hmem : ∀ k ∈ ks, k.effect ∈ ks'.map Continuation.effect := fun k hk =>
    List.mem_map_of_mem (h.mem_iff.mpr hk)
  refine ⟨h, fun thread hk => hmem _ hk, fun c keeps x hk => ?_, fun w pos x hk => hmem _ hk⟩
  have hk := hmem _ hk
  cases keeps with
  | true => exact .inl hk
  | false => exact .inr hk

/-- `set_value`, with what constructing the value comes to, and
`set_exception`. -/
def State.set (st : State V E F) : V ⊕ Thrown E → State V E F × Option (Thrown E)
  | .inl v => st.emplace (.ok v)
  | .inr x => st.setException x

/-- Both execute the list. -/
theorem set_pending (ks : List (Continuation E F)) (r : V ⊕ Thrown E) :
    ((State.pending ks).set r).1.log = (callAll ks.reverse).1 ∧
      ((State.pending ks).set r).2 = (callAll ks.reverse).2 := by
  cases r with
  | inl v => simp [State.set, State.emplace, State.pending_eq, State.execute]
  | inr x => simp [State.set, State.setException, State.pending_eq, State.execute]

/-- **When everybody is reached.** For every list of continuations and
every result: exactly when none of them throws except perhaps the one that
was attached first, which is called last. -/
theorem everybody_reached (pushed : List (Continuation E F)) (r : V ⊕ Thrown E) :
    Delivered pushed ((State.pending pushed).set r).1.log ↔
      ∀ k ∈ pushed.tail, k.throws = none := by
  have hcond : (∀ k ∈ pushed.reverse.dropLast, k.throws = none) ↔
      ∀ k ∈ pushed.tail, k.throws = none := by
    simp only [List.dropLast_reverse, List.mem_reverse]
  rw [(set_pending pushed r).1, ← hcond]
  constructor
  · intro h
    have hlen : (callAll pushed.reverse).1.length = pushed.reverse.length := by
      rw [h.once.length_eq, List.length_reverse]
    exact callAll_eq_iff.mp ((callAll_isPrefix _).eq_of_length hlen)
  · intro h
    rw [callAll_eq_iff.mpr h]
    exact .of_perm pushed.reverse_perm

/-- A notification throws, and the thread that called `wait` before it was
attached stays blocked. -/
theorem not_reached_after_notify : ¬ ∀ (pushed : List (Continuation Unit Unit))
    (r : Unit ⊕ Thrown Unit), Delivered pushed ((State.pending pushed).set r).1.log := by
  intro hall
  have h := (hall [.wait 0, .notify () (some (.user ()))] (.inl ())).woken 0 (by simp)
  revert h
  decide

end Exceptions

end PortableConcurrency
