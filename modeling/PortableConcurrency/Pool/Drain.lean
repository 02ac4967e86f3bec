import PortableConcurrency.Pool.Destructors

/-!
# `wait()` drains the pool

A thread of the pool ends when the queue is closed and empty and the
barrier has opened, and then everything that was accepted has been
executed, whoever did it. That needs a thread of the pool: `wait()` joins
those only.
-/

namespace PortableConcurrency

namespace Pool

variable {T : Type*} {posts : Object T → Bool} {s s' : State T} {e : Event T} {es : List (Event T)}
variable {who : Who} {N : ℕ} {t : T} {ok : State T → Event T → Prop}

/-- **How a pool is drained**: it is not stopped, and the destructors of
what it executes do not use it. -/
structure Draining (posts : Object T → Bool) (s : State T) (e : Event T) : Prop where
  stop : e ≠ .stop
  destroy : e ≠ .destroy
  harmless : Harmless posts s e

theorem not_stopped_run (hrun : Runs (Step posts) (Draining posts) (init N) s) :
    s.stopped = false := by
  refine hrun.invariant (I := fun s => s.stopped = false) ?_ rfl
  intro s e s' h hok hst
  cases hst with
  | stop => exact absurd rfl hok.stop
  | destroy => exact absurd rfl hok.destroy
  | _ => exact h

/-! ## The owner -/

/-- Past the `queue_.close()` of `wait()`. -/
def Owner.waits : Owner → Bool
  | .joining _ => true
  | .destroying => true
  | .destroyed => true
  | _ => false

/-- While the owner joins, the queue is closed. -/
theorem joining_closed (hrun : Runs (Step posts) ok (init N) s) (h : s.owner.waits = true) :
    s.queue.closed = true := by
  refine hrun.invariant (I := fun s => s.owner.waits = true → s.queue.closed = true) ?_ ?_ h
  · intro s e s' ih _ hst howner
    rw [step_closed hst]
    cases hst with
    | wait | drain => simp [Event.closes]
    | destroy | closeDestroying => cases howner
    | joined hj =>
      rw [ih (by rw [hj]; rfl)]
      rfl
    | destroyed hd =>
      rw [ih (by rw [hd]; rfl)]
      rfl
    | _ =>
      rw [ih howner]
      rfl
  · simp [init, Owner.waits]

/-! ## When `wait()` returns -/

theorem pending_of_busy {th : Thread T} (h : th.busy = false) :
    th.pending = 0 ∧ th.running = 0 := by
  obtain ⟨w, stage⟩ := th
  cases stage with
  | taken | executing | relocking => cases h
  | _ => exact ⟨rfl, rfl⟩

/-- When nobody is busy, what was taken has been completed. -/
theorem Accounts.idle (h : Accounts es s) (hbusy : tally Thread.busy s.threads = 0) :
    (completed es : Multiset T) = taken es := by
  have hzero : ∀ th ∈ s.threads, th.pending = 0 ∧ th.running = 0 :=
    fun th hmem => pending_of_busy (not_of_tally_eq_zero hbusy hmem)
  have hp : s.held Thread.pending = 0 := bind_of_zero fun th hmem => (hzero th hmem).1
  have hr : s.held Thread.running = 0 := bind_of_zero fun th hmem => (hzero th hmem).2
  rw [h.pending, hp, h.running, hr, add_zero, add_zero]

/-- A thread of the pool that has ended found nothing left to do. -/
theorem Inv.drained (h : Inv s) (hgo : s.stopped = false)
    (hmem : ⟨who, .finished⟩ ∈ s.threads) :
    tally Thread.busy s.threads = 0 ∧ s.Drained := by
  obtain ⟨hbusy, ⟨hstop, -⟩ | hd⟩ := h.quiet (tally_pos hmem rfl)
  · rw [hgo] at hstop
    cases hstop
  · exact ⟨hbusy, hd⟩

/-- A thread that is there is in `attach()`, in `pop`, or has ended. -/
theorem mem_present : who ∈ s.present ↔
    (∃ stage, ⟨who, stage⟩ ∈ s.threads) ∨ ∃ p ∈ s.queue.consumers, p.who = who := by
  simp only [State.present, Multiset.mem_add, Multiset.mem_map, Queue.State.inPop]
  constructor
  · rintro (⟨⟨w, stage⟩, hmem, rfl⟩ | ⟨pair, ⟨p, hmem, rfl⟩, rfl⟩)
    · exact .inl ⟨stage, hmem⟩
    · exact .inr ⟨p, hmem, rfl⟩
  · rintro (⟨stage, hmem⟩ | ⟨p, hmem, rfl⟩)
    · exact .inl ⟨_, hmem, rfl⟩
    · exact .inr ⟨_, ⟨p, hmem, rfl⟩, rfl⟩

/-- When `wait()` returns, the threads of the pool have ended. -/
theorem joined_finished (hp : Present N s) (hst : Step posts s .joined s') {i : ℕ} (hi : i < N) :
    ⟨.worker i, .finished⟩ ∈ s.threads := by
  cases hst with
  | joined _ hended hpop =>
    rcases mem_present.mp ((hp.workers i).mpr hi) with ⟨stage, hmem⟩ | ⟨p, hmem, hw⟩
    · have hstage : stage = .finished := hended _ hmem rfl
      rwa [hstage] at hmem
    · have hno := hpop p hmem
      rw [hw] at hno
      cases hno

/-! ## Nobody is stuck -/

theorem awake_of_inside {th : Thread T} (h : th.inside = true) :
    th.stage ≠ .finished ∧ cv.waits th = false := by
  obtain ⟨w, stage⟩ := th
  cases stage with
  | starting | parked | unparked | releasing | finished => cases h
  | _ => exact ⟨by simp, rfl⟩

theorem awake_of_releases {th : Thread T} (h : th.releases = true) :
    th.stage ≠ .finished ∧ cv.waits th = false := by
  obtain ⟨w, stage⟩ := th
  cases stage with
  | releasing => exact ⟨by simp, rfl⟩
  | _ => cases h

/-- **While `wait()` joins a thread that has not ended**, somebody does not
wait on a condition variable. -/
theorem someone_awake (hi : Inv s) (hs : Queue.Served s.queue) (hp : Present N s)
    (hclosed : s.queue.closed = true) {i : ℕ} (hlt : i < N)
    (hunfinished : ⟨.worker i, .finished⟩ ∉ s.threads) :
    (∃ th ∈ s.threads, th.stage ≠ .finished ∧ cv.waits th = false) ∨
      ∃ p ∈ s.queue.consumers, Queue.cv.waits p = false := by
  by_contra hno
  push Not at hno
  obtain ⟨hth, hpop⟩ := hno
  have hconsumers : s.queue.consumers = 0 := by
    refine Multiset.eq_zero_of_forall_notMem fun p hmem => ?_
    exact hpop p hmem (not_of_tally_eq_zero (hs.awake hclosed) hmem)
  -- somebody who is neither parked nor through the barrier
  have hsome : ∀ f : Thread T → Bool,
      (∀ th, f th = true → th.stage ≠ .finished ∧ cv.waits th = false) →
        tally f s.threads = 0 := by
    intro f hf
    refine tally_eq_zero fun th hmem => ?_
    by_contra hne
    obtain ⟨hstage, hw⟩ := hf th (by simpa using hne)
    exact hth th hmem hstage hw
  have hinside : tally Thread.inside s.threads = 0 := hsome _ fun _ => awake_of_inside
  have hreleases : tally Thread.releases s.threads = 0 := hsome _ fun _ => awake_of_releases
  rcases mem_present.mp ((hp.workers i).mpr hlt) with ⟨stage, hmem⟩ | ⟨p, hmem, -⟩
  · have hstage : stage ≠ .finished := by
      rintro rfl
      exact hunfinished hmem
    have hpos := tally_pos hmem (by simpa using hth _ hmem hstage)
    have hattached := hi.awaited hpos
    have hcount := hi.counted
    rw [Counted, hinside, Queue.State.inPop, hconsumers] at hcount
    simp at hcount
    omega
  · rw [hconsumers] at hmem
    simp at hmem

/-! ## The law -/

/-- **What holds of a pool** that is drained, after the events `es`. -/
structure DrainLaw (posts : Object T → Bool) (N : ℕ) (es : List (Event T)) (s : State T) : Prop where
  /-- when `wait()` returns, every task that was posted before the queue was
  closed has been executed to completion, once -/
  drained : ∀ s', Step posts s .joined s' → (completed es).Perm (accepted es)
  /-- the tasks are taken from the queue in the order of the posts -/
  order : taken es <+: accepted es
  /-- and started in that order by each thread -/
  starts : ∀ who, (startedBy who es).Sublist (accepted es)
  /-- or by all when that is one thread -/
  sole : ∀ who, (∀ w task, .run w task ∈ es → w = who) → (started es).Sublist (accepted es)
  /-- nothing is started that was posted after the close, and nothing twice -/
  once : (started es).Subperm (accepted es)
  attached : ∀ who waits s', Step posts s (.detach who waits) s' → 0 < s.attached
  /-- while `wait()` joins, not everybody who has not ended is blocked on a
  condition variable, and nobody on the queue's mutex -/
  not_stuck : ∀ destroys i, s.owner = .joining destroys → i < N →
    ⟨.worker i, .finished⟩ ∉ s.threads →
      s.relocked = false ∧ ((∃ th ∈ s.threads, th.stage ≠ .finished ∧ cv.waits th = false) ∨
        ∃ p ∈ s.queue.consumers, Queue.cv.waits p = false)

/-- **`wait()` drains the pool**, with any number of threads from outside. -/
theorem drain_law (hN : 1 ≤ N) (hrun : Trace (Step posts) (Draining posts) (init N) es s) :
    DrainLaw posts N es s := by
  have hi := inv_run hrun.runs
  have hp := present_run hrun.runs
  have ha := accounts hrun
  have hstarts := startedBy_sublist hrun
  refine ⟨?_, ha.in_order, hstarts, fun who hsole => started_of_sole hsole ▸ hstarts who, ha.once,
    ?_, ?_⟩
  · intro s' hst
    obtain ⟨hbusy, hd⟩ := hi.drained (not_stopped_run hrun.runs) (joined_finished hp hst hN)
    obtain ⟨waiting, hacc, hqueue⟩ := ha.values
    have hwaiting : waiting = [] := by
      rw [hd.2] at hqueue
      exact List.map_eq_nil_iff.mp hqueue.symm
    rw [← Multiset.coe_eq_coe, ha.idle hbusy, hacc, hwaiting, List.append_nil]
  · intro who waits s' hst
    have hmem : ⟨who, .detaching⟩ ∈ s.threads := by
      cases hst with
      | detachLast ht | detach ht =>
        rw [ht]
        exact Multiset.mem_cons_self _ _
    exact hi.counted.pos hmem rfl
  · intro destroys i howner hlt hunfinished
    have hclosed := joining_closed hrun.runs (by rw [howner]; rfl)
    exact ⟨(clean_run (hrun.runs.mono fun _ _ h => h.harmless)).free,
      someone_awake hi (Queue.served (run_queue hrun).runs) hp hclosed hlt hunfinished⟩

/-- The steps of a pool that is drained, and where nothing posts when it is
destroyed. -/
theorem Draining.other (hposts : ∀ o, posts o = false) (hs : e ≠ .stop) (hd : e ≠ .destroy)
    (s : State T) : Draining posts s e :=
  ⟨hs, hd, .of_never hposts s e⟩

/-- A thread from outside executes the one task, and the thread of the pool
waits for it. -/
theorem drain_law_of_attach : ∃ (es : List (Event ℕ)) (s s' : State ℕ),
    Step (fun _ => false) s .joined s' ∧ completed es = [5] ∧
      DrainLaw (fun _ => false) 1 es s := by
  obtain ⟨s, hrun, hjoin⟩ := reaches (fun _ => false) (Draining fun _ => false) (init 1)
    [.enter (.worker 0), .attach 0, .enter (.external 0), .post 5 true,
      .check (.external 0) none, .pop (.external 0) none 5, .run (.external 0) 5, .wait,
      .check (.worker 0) none, .fail (.worker 0) none, .leave (.worker 0) none,
      .detach (.worker 0) true, .done (.external 0) 5, .check (.external 0) (some 5),
      .fail (.external 0) (some 5), .leave (.external 0) (some 5), .detach (.external 0) false,
      .notifyAll (.external 0), .recheck (.worker 0) false, .notifyAll (.worker 0)]
    (fun s => (s.fire (fun _ => false) .joined).isSome)
    (fun e he => .other (fun _ => rfl) (by rintro rfl; simp at he) (by rintro rfl; simp at he))
    (by decide)
  obtain ⟨s', hs'⟩ := Option.isSome_iff_exists.mp hjoin
  exact ⟨_, s, s', fire_sound hs', by decide, drain_law le_rfl hrun⟩

/-- **Two threads may start their tasks in another order** than the one in
which they took them. -/
theorem not_started_in_order : ∃ (es : List (Event ℕ)) (s : State ℕ),
    Trace (Step fun _ => false) (Draining fun _ => false) (init 2) es s ∧
      ¬ (started es).Sublist (accepted es) := by
  obtain ⟨s, hrun, -⟩ := reaches (fun _ => false) (Draining fun _ => false) (init 2)
    [.enter (.worker 0), .enter (.worker 1), .post 5 true, .post 6 true,
      .check (.worker 0) none, .pop (.worker 0) none 5, .check (.worker 1) none,
      .pop (.worker 1) none 6, .run (.worker 1) 6, .run (.worker 0) 5]
    (fun _ => true)
    (fun e he => .other (fun _ => rfl) (by rintro rfl; simp at he) (by rintro rfl; simp at he))
    (by decide)
  exact ⟨_, s, hrun, by decide⟩

end Pool

end PortableConcurrency
