import PortableConcurrency.Pool.Lifetimes

/-!
# `stop()` and the destruction of a pool

A thread looks at `stopped_` before it goes to the queue, so when it is set
a thread has gone there once more at most. Whatever is not started then is
destroyed with the queue.
-/

namespace PortableConcurrency

namespace Pool

variable {T : Type*} {posts : Object T → Bool} {s s' : State T} {e : Event T} {es es' : List (Event T)}
variable {who : Who} {N : ℕ} {t : T} {ok : State T → Event T → Prop}

/-! ## One more task each -/

/-- In `stop()` after its store, or in `~static_thread_pool`. -/
theorem stopping_stopped (hst : Step posts s e s')
    (h : (0 < s.stoppers → s.stopped = true) ∧ (s.owner = .closing → s.stopped = true)) :
    (0 < s'.stoppers → s'.stopped = true) ∧ (s'.owner = .closing → s'.stopped = true) := by
  obtain ⟨hstoppers, howner⟩ := h
  cases hst with
  | stop | destroy => exact ⟨fun _ => rfl, fun _ => rfl⟩
  | close _ hn => exact ⟨fun _ => hstoppers (by omega), howner⟩
  | wait | closeDestroying | drain | destroyed => exact ⟨hstoppers, by simp⟩
  | @joined destroys => exact ⟨hstoppers, by cases destroys <;> simp⟩
  | _ => exact ⟨hstoppers, howner⟩

/-- When `stop()` has returned, `stopped_` is set. -/
theorem stopped_of_close (hrun : Trace (Step posts) ok (init N) es s) (h : .close ∈ es) :
    s.stopped = true := by
  have hall : (.close ∈ es → s.stopped = true) ∧ (0 < s.stoppers → s.stopped = true) ∧
      (s.owner = .closing → s.stopped = true) := by
    refine hrun.invariant (I := fun es s => (.close ∈ es → s.stopped = true) ∧
      (0 < s.stoppers → s.stopped = true) ∧ (s.owner = .closing → s.stopped = true)) ?_
      (by simp [init])
    rintro es s e s' ⟨hclose, hin⟩ - hst
    refine ⟨fun hmem => ?_, stopping_stopped hst hin⟩
    rcases List.mem_append.mp hmem with hmem | hmem
    · exact step_stopped hst (hclose hmem)
    · obtain rfl := List.mem_singleton.mp hmem
      refine step_stopped hst ?_
      cases hst with
      | close _ hn => exact hin.1 (by omega)
      | closeDestroying _ howner => exact hin.2 howner
  exact hall.1 h

/-- In `pop`, or back from there with a task. -/
def Thread.mayStart (who : Who) (th : Thread T) : Multiset Unit :=
  if th.who = who then th.pending.map fun _ => () else 0

/-- A thread in `pop`. -/
def inPopOf (who : Who) (pair : Who × Option T) : Multiset Unit := if pair.1 = who then {()} else 0

/-- A thread starts the task that it has, or finds that there is none. -/
def Event.resolves (who : Who) : Event T → Multiset Unit
  | .run w _ => if w = who then {()} else 0
  | .fail w _ => if w = who then {()} else 0
  | _ => 0

/-- After the store, nobody goes to the queue any more. -/
theorem step_mayStart (who : Who) (hstop : s.stopped = true) (hst : Step posts s e s') :
    0 + s.total (Thread.mayStart who) (inPopOf who) =
      e.resolves who + s'.total (Thread.mayStart who) (inPopOf who) := by
  have hcheck : ∀ w task, e ≠ .check w task := by
    rintro w task rfl
    cases hst with
    | check _ hgo =>
      rw [hstop] at hgo
      cases hgo
  refine step_total (by simp [Thread.mayStart, Thread.pending])
    (by simp [Thread.mayStart, Thread.pending]) ?_ hst
  cases e with
  | check w task => exact absurd rfl (hcheck w task)
  | detach w waits | recheck w waits =>
    cases waits <;> simp [Event.mover, Event.moved, Event.calls, Event.returns, Event.resolves,
      Thread.mayStart, Thread.pending]
  | notifyAll w =>
    cases w <;> simp [Event.mover, Event.moved, Event.calls, Event.returns, Event.resolves,
      Thread.mayStart, Thread.pending, returned]
  | pop w | run w | fail w =>
    by_cases hw : w = who <;> simp [Event.mover, Event.moved, Event.calls, Event.returns,
      Event.resolves, Thread.mayStart, Thread.pending, inPopOf, hw]
  | _ => simp [Event.mover, Event.moved, Event.calls, Event.returns, Event.resolves,
      Thread.mayStart, Thread.pending]

theorem startedBy_resolves (who : Who) (e : Event T) :
    (startedBy who [e]).length ≤ (e.resolves who).card := by
  rw [startedBy_singleton]
  cases e with
  | run w | pop w =>
    by_cases hw : w = who <;> simp [Event.actor, Event.started, Event.resolves, hw]
  | _ => simp [Event.actor]

/-- Who starts a task. -/
theorem exists_startedBy (h : t ∈ started es) : ∃ who, t ∈ startedBy who es := by
  obtain ⟨e, he, ht⟩ := List.mem_flatMap.mp h
  cases e with
  | run who task =>
    refine ⟨who, List.mem_flatMap.mpr ⟨.run who task, List.mem_filter.mpr ⟨he, ?_⟩, ht⟩⟩
    simp [Event.actor]
  | _ => cases ht

/-- What a thread may still start bounds what it starts. -/
theorem startedBy_le (hstop : s.stopped = true) (hrun : Trace (Step posts) ok s es s') :
    (startedBy who es).length + (s'.total (Thread.mayStart who) (inPopOf who)).card ≤
      (s.total (Thread.mayStart who) (inPopOf who)).card := by
  have hboth : s'.stopped = true ∧
      (startedBy who es).length + (s'.total (Thread.mayStart who) (inPopOf who)).card ≤
        (s.total (Thread.mayStart who) (inPopOf who)).card := by
    refine hrun.invariant (I := fun es t => t.stopped = true ∧
      (startedBy who es).length + (t.total (Thread.mayStart who) (inPopOf who)).card ≤
        (s.total (Thread.mayStart who) (inPopOf who)).card) ?_ ⟨hstop, by simp [startedBy, started]⟩
    rintro es t e t' ⟨ht, hle⟩ - hst
    refine ⟨step_stopped hst ht, ?_⟩
    have hstep := congrArg Multiset.card (step_mayStart who ht hst)
    have hone := startedBy_resolves who e
    rw [zero_add, Multiset.card_add] at hstep
    rw [startedBy_append, List.length_append]
    omega
  exact hboth.2

/-- A thread is in one place, and may start one task there. -/
theorem Present.mayStart_le (h : Present N s) :
    (s.total (Thread.mayStart who) (inPopOf who)).card ≤ 1 := by
  have hcount := Multiset.nodup_iff_count_le_one.mp h.nodup who
  have hth : ∀ m : Multiset (Thread T),
      (m.bind (Thread.mayStart who)).card ≤ (m.map Thread.who).count who := by
    intro m
    induction m using Multiset.induction_on with
    | empty => simp
    | cons th m ih =>
      have hone : (th.mayStart who).card ≤ if th.who = who then 1 else 0 := by
        obtain ⟨w, stage⟩ := th
        unfold Thread.mayStart
        split
        · cases stage <;> simp [Thread.pending]
        · exact le_rfl
      rw [Multiset.cons_bind, Multiset.card_add, Multiset.map_cons, Multiset.count_cons]
      simp only [eq_comm (a := who)]
      omega
  have hpop : ∀ m : Multiset (Who × Option T),
      (m.bind (inPopOf who)).card ≤ (m.map Prod.fst).count who := by
    intro m
    induction m using Multiset.induction_on with
    | empty => simp
    | cons pair m ih =>
      have hone : (inPopOf who pair).card = if pair.1 = who then 1 else 0 := by
        unfold inPopOf
        split <;> rfl
      rw [Multiset.cons_bind, Multiset.card_add, Multiset.map_cons, Multiset.count_cons]
      simp only [eq_comm (a := who)]
      omega
  rw [State.present, Multiset.count_add] at hcount
  rw [State.total, Multiset.card_add, State.held]
  have := hth s.threads
  have := hpop s.queue.inPop
  omega

end Pool

end PortableConcurrency
