import PortableConcurrency.Stack.Invariant

/-!
# The once-consumable stack — one step at a time

What each atomic step does to the phases, to the head and to the list of
successful pushes, and two facts that are final: a return value, and the
marker that `consume` leaves in the head.
-/

namespace PortableConcurrency

namespace Stack

variable {Op T : Type*} [DecidableEq Op] {input : Op → T} {s t : State Op T}
variable {i : Op} {a : ℕ} {e : Event Op}

omit [DecidableEq Op] in
/-- The expected value of an exchange is never the marker. -/
theorem Inv.next_ne_marker {nd : Node Op T} (h : Inv input s) (hi : s.phase i = .linking a)
    (hnd : s.heap a = some nd) : nd.next ≠ .marker := by
  obtain ⟨-, ⟨q, hq, hheap⟩, -⟩ := h.linking i a hi
  rwa [show nd = ⟨some (input i), q, i⟩ from Option.some.inj (hnd.symm.trans hheap)]

/-- The phases after `push` has read the head. -/
theorem load_phase (j : Op) : (s.load i a).phase j =
    if j = i then (if s.head = .marker then .failed (.node a) else .linking a) else s.phase j := by
  unfold State.load
  split <;> simp [State.giveBack, State.setPhase, State.setNext, Function.update_apply]

/-- The phases after a compare-exchange, when the expected value is not
the marker. -/
theorem cas_phase {q : Ptr} (hi : s.phase i = .linking a) (j : Op) :
    (s.cas i a q).phase j = if j = i then
      (if s.head = q then .succeeded else if s.head = .marker then .failed (.node a)
        else .linking a) else s.phase j := by
  unfold State.cas
  split_ifs <;> simp_all [State.giveBack, State.setPhase, State.setNext]

theorem free_phase {r : Releaser} {nd : Node Op T} (j : Op) :
    (s.free r i a nd).phase j = if j = i ∧ r = .push then .failed nd.next else s.phase j := by
  cases r <;> simp [State.free, State.setPhase, Function.update_apply]

@[simp] theorem load_frame : (s.load i a).head = s.head ∧ (s.load i a).pushed = s.pushed ∧
    (s.load i a).holder = s.holder ∧ (s.load i a).destroyed = s.destroyed := by
  unfold State.load
  split <;> simp [State.giveBack, State.setPhase, State.setNext]

@[simp] theorem free_frame {r : Releaser} {nd : Node Op T} :
    (s.free r i a nd).head = s.head ∧ (s.free r i a nd).pushed = s.pushed ∧
      (s.free r i a nd).destroyed = s.destroyed := by
  cases r <;> simp [State.free, State.setPhase]

/-- An exchange either links the node and succeeds, or changes neither
the head nor the list. -/
theorem cas_frame {q : Ptr} :
    (s.head = q ∧ (s.cas i a q).head = .node a ∧ (s.cas i a q).pushed = i :: s.pushed) ∨
      (s.head ≠ q ∧ (s.cas i a q).head = s.head ∧ (s.cas i a q).pushed = s.pushed) := by
  unfold State.cas
  split_ifs <;> simp_all [State.giveBack, State.setNext]

/-- **A return value is final.** -/
theorem settled_step (hst : Step s e t) :
    (s.phase i = .succeeded → t.phase i = .succeeded) ∧
      ((∃ p, s.phase i = .failed p) → ∃ p, t.phase i = .failed p) := by
  cases hst with
  | @begin j a hlive hj hfree =>
    simp only [State.allocate, Function.update_apply]
    grind
  | load hj =>
    simp only [load_phase]
    grind
  | cas hj hnd =>
    simp only [cas_phase hj]
    grind
  | consume => exact ⟨id, id⟩
  | destroy =>
    unfold State.destroy
    split <;> exact ⟨id, id⟩
  | @free r j a nd hp hnd =>
    simp only [free_phase]
    cases r with
    | push =>
      simp only [State.deleting] at hp
      grind
    | consumer => simp
    | destructor => simp

/-- **The marker stays, and nobody gets in past it.** -/
theorem consumed_step (h : Inv input s) (hst : Step s e t) (hm : s.head = .marker) :
    t.head = .marker ∧ t.pushed = s.pushed := by
  cases hst with
  | begin => exact ⟨hm, rfl⟩
  | load => simp [hm]
  | @cas i a nd hi hnd =>
    have hq := h.next_ne_marker hi hnd
    obtain ⟨heq, -⟩ | ⟨-, hhead, hpush⟩ := cas_frame (s := s) (i := i) (a := a) (q := nd.next)
    · exact absurd (heq.symm.trans hm) hq
    · exact ⟨hhead.trans hm, hpush⟩
  | consume => exact ⟨rfl, rfl⟩
  | destroy =>
    unfold State.destroy
    split <;> exact ⟨hm, rfl⟩
  | free => simp [hm]

end Stack

end PortableConcurrency
