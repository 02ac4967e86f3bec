import PortableConcurrency.Continuations.Delivery
import PortableConcurrency.Continuations.Invariant

/-!
# `continuations_stack` — exactly-once delivery

The compare-exchange loops, the walk over the taken list and the inline
calls make the steps of `Delivery` and no others. What a continuation can
still expect is therefore a question about that automaton; what is proved
here besides is that a call is always owed by somebody, and that whoever
owes it gets there.
-/

namespace PortableConcurrency

namespace Continuations

open Stack (Ptr Node Phase Holder Chain)

variable {Op : Type*} [DecidableEq Op] {s t : State Op} {e : Event Op} {i : Op} {p : Ptr}

/-! ## The automaton the machine implements -/

/-- What has become of the continuation handed to the call `i`. -/
def State.status (s : State Op) (i : Op) : Status :=
  if s.invoked i ≠ 0 then .spent
  else match s.stack.phase i with
    | .failed _ => .queued
    | .succeeded =>
      if s.stack.head = .marker then .queued
      else if s.stack.destroyed then .dropped else .linked
    | _ => .absent

def State.delivery (s : State Op) : Delivery Op where
  ready := s.isReady
  gone := s.stack.destroyed
  status := s.status

/-- Whose step an event is: a call of `push`, the producer in `emplace`
and `execute`, or the last owner destroying the state. -/
inductive Actor (Op : Type*)
  | push (i : Op)
  | producer
  | owner
  deriving DecidableEq

def Event.actor : Event Op → Actor Op
  | .stack (.begin i _) => .push i
  | .stack (.load i) => .push i
  | .stack (.cas i) => .push i
  | .stack (.free .push i) => .push i
  | .stack _ => .owner
  | .inline i => .push i
  | _ => .producer

/-- The call of `push` has been made. -/
def State.Begun (s : State Op) (i : Op) : Prop := s.stack.phase i ≠ .idle

/-- How many steps the call `i` still takes once the result is there. -/
def State.pushWork (s : State Op) (i : Op) : ℕ :=
  match s.stack.phase i with
  | .idle => 0
  | .allocated _ => 3
  | .linking _ => 3
  | .failed (.node _) => 2
  | .failed _ => if s.inlined i then 0 else 1
  | .succeeded => 0

/-- The pushed continuations not called yet, and the nodes not freed. -/
def State.todo (s : State Op) : ℕ := (s.stack.pushed.filter fun i => s.invoked i = 0).length

def State.held (s : State Op) : ℕ :=
  (s.stack.pushed.filter fun i => s.stack.released i = []).length

/-- How many steps `execute` still takes: two for each continuation not
yet called, then one for each node not yet freed. -/
def State.execWork (s : State Op) : ℕ :=
  match s.exec with
  | .loop _ => 2 * s.todo + s.held + 2
  | .calling _ => 2 * s.todo + s.held + 3
  | .releasing => s.held + 1
  | _ => 0

omit [DecidableEq Op] in
/-- **A call that was not made is owed**, by the call of `push` or by
`execute`. -/
theorem Inv.owed (h : Inv s) (hready : s.stack.head = .marker) (hi : s.Begun i)
    (hzero : s.invoked i = 0) : 0 < s.pushWork i ∨ (i ∈ s.stack.pushed ∧ 0 < s.execWork) := by
  unfold State.pushWork
  cases hph : s.stack.phase i with
  | idle => exact absurd hph hi
  | allocated a | linking a => simp
  | failed p =>
    have hin : s.inlined i = false := by
      have := h.failed i p hph
      cases hin : s.inlined i
      · rfl
      · simp [hin, hzero] at this
    cases p <;> simp [hin]
  | succeeded =>
    have hmem := (h.stack.succeeded i).mp hph
    refine .inr ⟨hmem, ?_⟩
    have hwalked := h.walked
    cases hex : s.exec with
    | idle | stored => exact absurd hex (by simp [h.marker.mp hready])
    | loop p | calling p => simp [State.execWork, hex]
    | releasing | done =>
      rw [hex] at hwalked
      simp [hwalked i hmem] at hzero

/-- A call of `push` that has work left can take its step. -/
theorem Inv.push_enabled (h : Inv s) (hwork : 0 < s.pushWork i) :
    ∃ e t, e.actor = .push i ∧ Step s e t := by
  unfold State.pushWork at hwork
  cases hph : s.stack.phase i with
  | idle | succeeded => simp [hph] at hwork
  | allocated a => exact ⟨.stack (.load i), _, rfl, .stack trivial (by simp) (.load hph)⟩
  | linking a =>
    obtain ⟨-, ⟨q, -, hheap⟩, -⟩ := h.stack.linking i a hph
    exact ⟨.stack (.cas i), _, rfl, .stack trivial (by simp) (.cas hph hheap)⟩
  | failed p =>
    obtain ⟨-, harg, hp⟩ := h.stack.failed i p hph
    cases p with
    | node a =>
      have hdel : s.stack.deleting .push i = some (.node a) := by
        simp [Stack.State.deleting, hph]
      obtain ⟨nd, hnd⟩ := h.stack.deleting hdel
      exact ⟨.stack (.free .push i), _, rfl, .stack (by simp [Foreign]) (by simp) (.free hdel hnd)⟩
    | null =>
      have hin : s.inlined i = false := by
        cases hin : s.inlined i
        · rfl
        · simp [hph, hin] at hwork
      exact ⟨.inline i, _, rfl, .inline hph hin harg⟩
    | marker => simp at hp

/-- `execute` can take its next step. -/
theorem Inv.exec_enabled (h : Inv s) (hwork : 0 < s.execWork) :
    ∃ e t, e.actor = .producer ∧ Step s e t := by
  have hwalked := h.walked
  have hmark := h.marker
  unfold State.execWork at hwork
  cases hex : s.exec with
  | idle | stored | done => simp [hex] at hwork
  | loop p =>
    rw [hex] at hwalked
    obtain ⟨before, rest, -, hchain, -⟩ := hwalked
    cases rest with
    | nil =>
      obtain rfl : p = .null := hchain
      exact ⟨.leave, _, rfl, .leave hex⟩
    | cons j rest =>
      obtain ⟨rfl, q, hq, -⟩ := hchain
      exact ⟨.call, _, rfl, .call hex hq rfl⟩
  | calling p =>
    rw [hex] at hwalked
    obtain ⟨before, j, rest, -, ⟨rfl, q, hq, -⟩, -⟩ := hwalked
    exact ⟨.advance, _, rfl, .advance hex hq⟩
  | releasing =>
    obtain ⟨p, hhold⟩ := h.stack.marker.mp (hmark.mpr (by simp [hex]))
    obtain ⟨gone, rest, -, hchain, -⟩ := h.stack.list
    rw [Stack.State.listHead, hhold] at hchain
    cases rest with
    | nil =>
      obtain rfl : p = .null := hchain
      exact ⟨.finish, _, rfl, .finish hex hhold⟩
    | cons j rest =>
      obtain ⟨rfl, q, hq, -⟩ := hchain
      have hdel : s.stack.deleting .consumer j = some (.node (s.stack.cell j)) := by
        simp [Stack.State.deleting, hhold]
      exact ⟨.release j, _, rfl, .release hex (.free hdel hq)⟩

/-! ## Getting there -/

/-- **What holds of a future state and its continuations**, and of every
step and every run from there. -/
structure Delivered (s : State Op) : Prop where
  /-- a continuation is called when the result is there, and then once -/
  stored_first : ∀ i, s.invoked i ≠ 0 → s.stored ∧ s.isReady
  at_most_once : ∀ i, s.invoked i ≤ 1
  /-- the producer always gets to take the list it has to walk -/
  made_ready : s.exec = .stored → ∃ t, Step s .consume t ∧ t.isReady
  ready_for_ever : s.isReady → ∀ t, Runs Step Unguarded s t → t.isReady
  /-- a call that is missing is owed by a call of `push` or by `execute`,
  which can go on and is brought forward by each of its steps -/
  owed : s.isReady → ∀ i, s.Begun i → s.invoked i = 1 ∨
    (s.invoked i = 0 ∧ (0 < s.pushWork i ∨ (i ∈ s.stack.pushed ∧ 0 < s.execWork)))
  push_enabled : s.isReady → ∀ i, 0 < s.pushWork i → ∃ e t, e.actor = .push i ∧ Step s e t
  exec_enabled : s.isReady → 0 < s.execWork → ∃ e t, e.actor = .producer ∧ Step s e t
  brought_forward : s.isReady → ∀ e t, Step s e t →
    (∀ i, (e.actor = .push i ∧ ((∃ a, e = .stack (.begin i a)) ∨ t.pushWork i < s.pushWork i)) ∨
      (e.actor ≠ .push i ∧ t.pushWork i = s.pushWork i)) ∧
    ((e.actor = .producer ∧ t.execWork < s.execWork) ∨
      (e.actor ≠ .producer ∧ t.execWork = s.execWork))
  /-- destroyed without a result: no call, ever, and the node goes with
  the destructor's list -/
  destroyed_unready : s.stack.destroyed = true → ¬ s.isReady → ∀ t, Runs Step Unguarded s t →
    ¬ t.isReady ∧ ∀ i, t.invoked i = 0 ∧ (t.Begun i →
      (t.stack.released i = [] ∨ t.stack.released i = [.destructor]) ∧
      (t.stack.Finished → t.stack.released i = [.destructor]))

omit [DecidableEq Op] in
theorem Inv.destroyed_unready (h : Inv s) (hco : s.delivery.Coherent)
    (hready : s.stack.head ≠ .marker) :
    s.invoked i = 0 ∧ (s.Begun i →
      (s.stack.released i = [] ∨ s.stack.released i = [.destructor]) ∧
      (s.stack.Finished → s.stack.released i = [.destructor])) := by
  have hzero : s.invoked i = 0 := by
    by_contra hne
    have hspent : s.delivery.status i = .spent := by simp [State.delivery, State.status, hne]
    have := hco.called i (.inr hspent)
    simp [State.delivery, State.isReady, Stack.State.isConsumed, hready] at this
  refine ⟨hzero, fun hi => ?_⟩
  have hrel : s.stack.released i = [] ∨ s.stack.released i = [.destructor] := by
    obtain hr | ⟨-, hf⟩ | ⟨hmem, hr⟩ := h.stack.releaser i
    · exact .inl hr
    · exact absurd (h.stack.failed i _ hf).1 hready
    · cases hh : s.stack.holder with
      | stack => exact .inl (by simpa [hh, Holder.releasers] using hr)
      | consumer p => exact absurd (h.stack.marker.mpr ⟨p, hh⟩) hready
      | destructor p => exact .inr (by simpa [hh, Holder.releasers] using hr)
  refine ⟨hrel, fun hfin => ?_⟩
  obtain ⟨r, hr⟩ := h.stack.finished hfin hi
  rcases hrel with hr' | hr'
  · simp [hr'] at hr
  · exact hr'

end Continuations

end PortableConcurrency
