import PortableConcurrency.Common.Runs
import Mathlib.Data.Nat.Notation

/-!
# Delivery of continuations

What a list of continuations is for, said without the list. A
continuation that was pushed waits until the result is there, is then
owed a call, and has been called; or the result never comes and it is
dropped. Whoever takes a push, and the calls that follow, as single steps
relies on this automaton; `Continuations.ExactlyOnce` shows that the
compare-exchange loops make no other steps.
-/

namespace PortableConcurrency

/-- What has become of a continuation. -/
inductive Status
  /-- not pushed yet -/
  | absent
  /-- pushed, the result is not there -/
  | linked
  /-- the result is there, the call is still to come -/
  | queued
  /-- called -/
  | spent
  /-- destroyed without a call -/
  | dropped
  deriving DecidableEq, Repr

/-- One result and the continuations that wait for it. -/
@[ext] structure Delivery (Op : Type*) where
  ready : Bool
  gone : Bool
  status : Op → Status

namespace Delivery

variable {Op : Type*} [DecidableEq Op] {d d' : Delivery Op} {i : Op}

inductive Act (Op : Type*)
  | push (i : Op)
  | execute
  | invoke (i : Op)
  | destroy

/-- Before anything is pushed. -/
def start : Delivery Op := ⟨false, false, fun _ => .absent⟩

def mark (d : Delivery Op) (i : Op) (x : Status) : Delivery Op :=
  { d with status := fun j => if j = i then x else d.status j }

/-- Everything that waits moves on to `x`. -/
def settle (d : Delivery Op) (x : Status) : Op → Status :=
  fun i => if d.status i = .linked then x else d.status i

/-- **The automaton.** -/
inductive Step : Delivery Op → Act Op → Delivery Op → Prop
  | push {d : Delivery Op} {i : Op} (hlive : d.gone = false) (hi : d.status i = .absent) :
      Step d (.push i) (d.mark i (if d.ready then .queued else .linked))
  | execute {d : Delivery Op} (hlive : d.gone = false) (hready : d.ready = false) :
      Step d .execute { d with ready := true, status := d.settle .queued }
  | invoke {d : Delivery Op} {i : Op} (hi : d.status i = .queued) :
      Step d (.invoke i) (d.mark i .spent)
  | destroy {d : Delivery Op} (hlive : d.gone = false) :
      Step d .destroy { d with gone := true, status := d.settle .dropped }

/-- Waiting means that there is no result yet, and somebody to wait for
it; a call is owed or made only once the result is there. -/
structure Coherent (d : Delivery Op) : Prop where
  linked : ∀ i, d.status i = .linked → d.ready = false ∧ d.gone = false
  called : ∀ i, d.status i = .queued ∨ d.status i = .spent → d.ready = true
  dropped : ∀ i, d.status i = .dropped → d.ready = false ∧ d.gone = true

theorem Coherent.step {a : Act Op} (h : Coherent d) (hst : Step d a d') : Coherent d' := by
  cases hst with
  | push hlive hi =>
    constructor <;> simp only [mark] <;> grind [h.linked, h.called, h.dropped]
  | execute hlive hready =>
    constructor <;> simp only [settle] <;> grind [h.linked, h.called, h.dropped]
  | invoke hi =>
    constructor <;> simp only [mark] <;> grind [h.linked, h.called, h.dropped]
  | destroy hlive =>
    constructor <;> simp only [settle] <;> grind [h.linked, h.called, h.dropped]

theorem Coherent.run (h : Coherent d) (hrun : Runs Step Unguarded d d') : Coherent d' :=
  hrun.invariant (fun _ _ _ hi _ hst => hi.step hst) h

/-- What is destroyed without a result never gets one. -/
theorem gone_run (hrun : Runs Step Unguarded d d') (hgone : d.gone = true)
    (hready : d.ready = false) : d'.gone = true ∧ d'.ready = false := by
  refine hrun.invariant (I := fun d => d.gone = true ∧ d.ready = false)
    (fun _ _ _ hd _ hst => ?_) ⟨hgone, hready⟩
  cases hst with
  | execute hlive => simp [hd.1] at hlive
  | push | invoke => exact hd
  | destroy => exact ⟨rfl, hd.2⟩

end Delivery

end PortableConcurrency
