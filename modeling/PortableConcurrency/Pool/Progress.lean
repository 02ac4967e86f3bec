import PortableConcurrency.Common.Budget
import PortableConcurrency.Pool.Drain

/-!
# The pool comes to an end

Once the queue is closed, by `wait()`, by `stop()` or by the destructor,
all threads end and every such call returns, however the threads take
turns: what is left to do is the tasks that are queued, and for each thread
its way through the loop and the barrier. Whoever comes through the barrier
wakes everybody who is parked, and a thread that has only just been counted
may send them back to sleep; but each thread comes through once.
-/

namespace PortableConcurrency

namespace Pool

variable {T : Type*} {posts : Object T → Bool} {s s' t : State T} {e : Event T} {es es' : List (Event T)}
variable {th : Thread T} {m : Multiset (Thread T)} {who : Who} {n N : ℕ}

/-- What a thread has still to do, where there are at most `n` threads. -/
def Stage.cost (n : ℕ) : Stage T → ℕ
  | .starting => n + 7
  | .checking _ => n + 6
  | .taken _ => n + 8
  | .executing _ => n + 7
  | .leaving _ => n + 4
  | .detaching => n + 3
  | .parked => n + 2
  | .unparked => n + 3
  | .releasing => n + 1
  | .finished => 0
  | .relocking _ => n + 8

def Thread.cost (n : ℕ) (th : Thread T) : ℕ := th.stage.cost n

def Owner.cost : Owner → ℕ
  | .idle => 0
  | .closing => 4
  | .draining => 3
  | .joining _ => 2
  | .destroying => 1
  | .destroyed => 0

/-- The threads that are in `pop`, and the tasks. -/
def queueCost (n : ℕ) (q : Queue.State (Option T) Who) : ℕ :=
  (n + 5) * q.consumers.card + 4 * q.queue.length

/-- The threads, the queue, and the calls that close or wait. -/
def State.budget (n : ℕ) (s : State T) : ℕ :=
  weigh (Thread.cost n) s.threads + queueCost n s.queue + s.stoppers + s.owner.cost

/-- The steps of the pool, and of the calls that have begun. -/
def Event.work : Event T → ℕ
  | .attach _ => 0
  | .rouse => 0
  | .unpark => 0
  | .post _ _ => 0
  | .stop => 0
  | .wait => 0
  | .destroy => 0
  | _ => 1

/-- What the other steps give it to do. -/
def Event.brings : Event T → ℕ
  | .unpark => 1
  | .stop => 1
  | .wait => 2
  | .destroy => 4
  | _ => 0

/-- No further threads, and no destructor of a task that is executed, nor
of what moving leaves of one, that posts. -/
structure Settling (posts : Object T → Bool) (s : State T) (e : Event T) : Prop where
  attach : ∀ j, e ≠ .attach j
  harmless : Harmless posts s e

/-- A closed pool of at most `n` threads. -/
structure Closing (posts : Object T → Bool) (N n : ℕ) (s : State T) : Prop where
  reached : ∃ es, Trace (Step posts) (Harmless posts) (init N) es s
  closed : s.queue.closed = true
  threads : s.threads.card + s.queue.consumers.card ≤ n

/-- **All threads have ended**, and all calls have returned. -/
structure Settled (s : State T) : Prop where
  finished : ∀ th ∈ s.threads, th.stage = .finished
  consumers : s.queue.consumers = 0
  stoppers : s.stoppers = 0
  owner : s.owner = .idle ∨ s.owner = .destroyed

/-! ## Sizes -/

/-- What a step does to the sizes of a closed queue. -/
theorem queue_sizes {q q' : Queue.State (Option T) Who} {e : Queue.Event (Option T) Who}
    (hclosed : q.closed = true) (hst : Queue.Step q e q') :
    q'.consumers.card + e.departs.card = q.consumers.card + e.arrives.card ∧
      q'.queue.length + e.popped.length = q.queue.length := by
  have hcard := congrArg Multiset.card (Queue.step_inPop hst)
  have hlen := congrArg List.length (Queue.step_queue hst)
  simp only [Multiset.card_add, Queue.State.inPop, Multiset.card_map] at hcard
  simp only [hclosed, if_true, List.append_nil, List.length_append] at hlen
  omega

theorem queueCost_step (n : ℕ) {q q' : Queue.State (Option T) Who}
    {e : Queue.Event (Option T) Who} (hclosed : q.closed = true) (hst : Queue.Step q e q') :
    queueCost n q' + (n + 5) * e.departs.card + 4 * e.popped.length =
      queueCost n q + (n + 5) * e.arrives.card := by
  obtain ⟨hcard, hlen⟩ := queue_sizes hclosed hst
  have hmul := congrArg (fun k => (n + 5) * k) hcard
  simp only [Nat.mul_add (n + 5)] at hmul
  unfold queueCost
  omega

theorem weigh_notifyAll (m : Multiset (Thread T)) :
    weigh (Thread.cost n) (cv.notifyAll m) ≤
      weigh (Thread.cost n) m + m.card := by
  have hle : weigh (Thread.cost n) (cv.notifyAll m) ≤
      weigh (Thread.cost n) m + tally (fun _ => true) m := by
    refine CondVar.weigh_notifyAll (fun p q h => ?_) m
    obtain ⟨hp, hq⟩ := wake_eq h
    rw [hp, hq]
    exact le_rfl
  have hcard : tally (fun _ : Thread T => true) m ≤ m.card := Multiset.countP_le_card _ _
  omega

theorem weigh_returned (n : ℕ) (who : Who) :
    weigh (Thread.cost n : Thread T → ℕ) (returned who) = 0 := by
  cases who <;> simp [returned, Thread.cost, Stage.cost]

theorem card_returned (who : Who) : (returned who : Multiset (Thread T)).card ≤ 1 := by
  cases who <;> simp [returned]

theorem Closing.clean (h : Closing posts N n s) : Clean posts s := by
  obtain ⟨es, hrun⟩ := h.reached
  exact clean_run hrun.runs

/-- **No further thread.** -/
theorem Closing.threads_step (h : Closing posts N n s) (hok : Settling posts s e)
    (hst : Step posts s e s') : s'.threads.card + s'.queue.consumers.card ≤ n := by
  have hle := h.threads
  have hclosed := h.closed
  cases hst with
  | @attach j => exact absurd rfl (hok.attach j)
  | check ht hgo hq =>
    have hsize := (queue_sizes hclosed hq).1
    simp only [ht, Multiset.card_cons, Queue.Event.departs, Queue.Event.arrives,
      Multiset.card_zero, Multiset.card_singleton] at hle hsize ⊢
    omega
  | block hfree hq | rouse hq | post hfree halive hq | close hfree hn hq | wait hfree howner hq
  | closeDestroying hfree howner hq | drain hfree howner hq =>
    have hsize := (queue_sizes hclosed hq).1
    simp only [Queue.Event.departs, Queue.Event.arrives, Multiset.card_zero] at hsize ⊢
    omega
  | pop hfree hq | relock hfree hq | fail hfree hq =>
    have hsize := (queue_sizes hclosed hq).1
    simp only [Multiset.card_cons, Queue.Event.departs, Queue.Event.arrives, Multiset.card_zero,
      Multiset.card_singleton] at hsize ⊢
    omega
  | enter ht | quit ht | run ht | done ht | leave ht | detachLast ht | detach ht | park ht
  | release ht | unpark ht =>
    simpa [ht] using hle
  | @notifyAll who rest ht =>
    have hone := card_returned (T := T) who
    have hall : (cv.notifyAll rest).card = rest.card := Multiset.card_map _ _
    simp only [ht, Multiset.card_cons, Multiset.card_add, hall] at hle ⊢
    omega
  | stop | destroy | joined | destroyed => exact hle

theorem Closing.step (h : Closing posts N n s) (hok : Settling posts s e)
    (hst : Step posts s e s') : Closing posts N n s' := by
  obtain ⟨es, hrun⟩ := h.reached
  refine ⟨⟨es ++ [e], hrun.snoc hok.harmless hst⟩, ?_, h.threads_step hok hst⟩
  rw [step_closed hst, h.closed]
  rfl

/-! ## The budget -/

/-- **Every step of the pool lowers what is left to do.** -/
theorem Closing.pays (h : Closing posts N n s) (hok : Settling posts s e)
    (hst : Step posts s e s') : s'.budget n + e.work ≤ s.budget n + e.brings := by
  have hle := h.threads
  have hclosed := h.closed
  have hclean : Clean posts s' := (h.step hok hst).clean
  unfold State.budget
  cases hst with
  | @attach j => exact absurd rfl (hok.attach j)
  | enter ht | quit ht hstop | run ht | done ht | leave ht | detachLast ht hlast | detach ht hmore
  | park ht hmore | release ht hnone =>
    simp only [ht, weigh_cons, Thread.cost, Stage.cost, Event.work, Event.brings]
    omega
  | check ht hgo hq =>
    have hcost := queueCost_step n hclosed hq
    simp only [Queue.Event.departs, Queue.Event.arrives, Queue.Event.popped, Multiset.card_zero,
      Multiset.card_singleton, List.length_nil] at hcost
    simp only [ht, weigh_cons, Thread.cost, Stage.cost, Event.work, Event.brings]
    omega
  | block hfree hq =>
    cases hq with
    | wait _ _ hopen =>
      rw [hclosed] at hopen
      cases hopen
  | pop hfree hq =>
    have hcost := queueCost_step n hclosed hq
    simp only [Queue.Event.departs, Queue.Event.arrives, Queue.Event.popped, Multiset.card_zero,
      Multiset.card_singleton, List.length_singleton] at hcost
    simp only [weigh_cons, Thread.cost, Stage.cost, Event.work, Event.brings]
    omega
  | relock =>
    have hfree := hclean.free
    cases hfree
  | fail hfree hq =>
    have hcost := queueCost_step n hclosed hq
    simp only [Queue.Event.departs, Queue.Event.arrives, Queue.Event.popped, Multiset.card_zero,
      Multiset.card_singleton, List.length_nil] at hcost
    simp only [weigh_cons, Thread.cost, Stage.cost, Event.work, Event.brings]
    omega
  | unpark ht hw =>
    obtain ⟨hp, hq⟩ := wake_eq hw
    simp only [ht, weigh_cons, Event.work, Event.brings]
    rw [hp, hq]
    simp only [Thread.cost, Stage.cost]
    omega
  | @notifyAll who rest ht =>
    -- everybody who is parked is woken, and there are fewer than `n` others
    have hall := weigh_notifyAll (n := n) rest
    have hnone := weigh_returned (T := T) n who
    simp only [ht, Multiset.card_cons] at hle
    simp only [ht, weigh_add, weigh_cons, hnone, Thread.cost, Stage.cost, Event.work, Event.brings]
    omega
  | rouse hq | post hfree halive hq =>
    have hcost := queueCost_step n hclosed hq
    simp only [Queue.Event.departs, Queue.Event.arrives, Queue.Event.popped, Multiset.card_zero,
      List.length_nil] at hcost
    simp only [Event.work, Event.brings]
    omega
  | close hfree hn hq =>
    have hcost := queueCost_step n hclosed hq
    simp only [Queue.Event.departs, Queue.Event.arrives, Queue.Event.popped, Multiset.card_zero,
      List.length_nil] at hcost
    simp only [hn, Event.work, Event.brings]
    omega
  | wait hfree howner hq | closeDestroying hfree howner hq | drain hfree howner hq =>
    have hcost := queueCost_step n hclosed hq
    simp only [Queue.Event.departs, Queue.Event.arrives, Queue.Event.popped, Multiset.card_zero,
      List.length_nil] at hcost
    simp only [howner, Owner.cost, Event.work, Event.brings]
    omega
  | stop =>
    simp only [Event.work, Event.brings]
    omega
  | destroy howner | destroyed howner =>
    simp only [howner, Owner.cost, Event.work, Event.brings]
    omega
  | @joined destroys howner hended hpop =>
    simp only [howner, Event.work, Event.brings]
    cases destroys <;> simp [Owner.cost]

theorem pays (posts : Object T → Bool) (N n : ℕ) : Pays (Step posts) (Settling posts)
    (Closing posts N n) (State.budget n) Event.work Event.brings :=
  fun _ _ _ h hok hst => ⟨h.step hok hst, h.pays hok hst⟩

/-! ## The end -/

/-- Locking the queue's mutex again. -/
def Thread.relocks (th : Thread T) : Bool :=
  match th.stage with
  | .relocking _ => true
  | _ => false

theorem relocks_step (hclean : Clean posts s') (h : tally Thread.relocks s.threads = 0)
    (hst : Step posts s e s') : tally Thread.relocks s'.threads = 0 := by
  cases hst with
  | relock =>
    have hfree := hclean.free
    cases hfree
  | attach | pop | fail => simpa [Thread.relocks] using h
  | check ht | enter ht | quit ht | run ht | done ht | leave ht | detachLast ht | detach ht
  | park ht | release ht => simpa [ht, Thread.relocks] using h
  | unpark ht hw =>
    obtain ⟨hp, hq⟩ := wake_eq hw
    rw [ht, hp] at h
    rw [hq]
    simpa [Thread.relocks] using h
  | notifyAll ht =>
    rw [tally_add, tally_returned _ fun _ => rfl, tally_wakes fun _ => rfl]
    simpa [ht, Thread.relocks] using h
  | block | rouse | post | stop | close | wait | destroy | closeDestroying | drain | joined
  | destroyed => exact h

theorem relocks_run (hrun : Runs (Step posts) (Harmless posts) (init N) s) :
    tally Thread.relocks s.threads = 0 := by
  refine hrun.invariant_of (I := Clean posts) (J := fun s => tally Thread.relocks s.threads = 0)
    (fun _ _ _ h hok hst => h.step hok hst)
    (fun _ _ _ _ hclean h _ hst => relocks_step hclean h hst) clean_init ?_
  exact tally_init fun _ => rfl

/-- **A thread that is neither parked nor at its end goes on.** -/
theorem Closing.enabled (h : Closing posts N n s) (hmem : th ∈ s.threads)
    (hwaits : cv.waits th = false) (hend : th.stage ≠ .finished) :
    ∃ e t, Step posts s e t ∧ e.work = 1 := by
  obtain ⟨rest, ht⟩ := Multiset.exists_cons_of_mem hmem
  obtain ⟨who, stage⟩ := th
  cases stage with
  | starting => exact ⟨_, _, .enter ht, rfl⟩
  | checking task =>
    cases hstop : s.stopped with
    | true => exact ⟨_, _, .quit ht hstop, rfl⟩
    | false => exact ⟨_, _, .check ht hstop .call, rfl⟩
  | taken task => exact ⟨_, _, .run ht, rfl⟩
  | executing task => exact ⟨_, _, .done ht, rfl⟩
  | leaving task => exact ⟨_, _, .leave ht, rfl⟩
  | detaching =>
    by_cases hlast : detached s.attached = 0
    · exact ⟨_, _, .detachLast ht hlast, rfl⟩
    · exact ⟨_, _, .detach ht hlast, rfl⟩
  | unparked =>
    by_cases hnone : s.attached = 0
    · exact ⟨_, _, .release ht hnone, rfl⟩
    · exact ⟨_, _, .park ht hnone, rfl⟩
  | releasing => exact ⟨_, _, .notifyAll ht, rfl⟩
  | relocking task =>
    obtain ⟨es, hrun⟩ := h.reached
    have hno := not_of_tally_eq_zero (relocks_run hrun.runs) hmem
    cases hno
  | parked => cases hwaits
  | finished => exact absurd rfl hend

/-- A thread in `pop` takes a task, or finds that there is none. -/
theorem Closing.pop_enabled (h : Closing posts N n s) {p : Queue.Pc (Option T) Who}
    (hmem : p ∈ s.queue.consumers) : ∃ e t, Step posts s e t ∧ e.work = 1 := by
  obtain ⟨es, hrun⟩ := h.reached
  have hfree := h.clean.free
  have hawake := (Queue.served (run_queue hrun).runs).awake h.closed
  obtain ⟨rest, ht⟩ := Multiset.exists_cons_of_mem hmem
  have hp : p.Running p.who p.dest := by
    cases p with
    | popping => exact .popping
    | woken => exact .woken
    | blocked =>
      have hno := not_of_tally_eq_zero hawake hmem
      cases hno
  obtain ⟨waiting, -, hqueue⟩ := (accounts hrun).values
  cases hw : waiting with
  | nil =>
    rw [hw] at hqueue
    exact ⟨_, _, .fail hfree (.fail ht hp h.closed hqueue), rfl⟩
  | cons next waiting' =>
    rw [hw, List.map_cons] at hqueue
    by_cases hpost : ∃ o ∈ destroyedBy p.dest next, posts o = true
    · exact ⟨_, _, .relock hfree (.pop ht hp hqueue) hpost, rfl⟩
    · refine ⟨_, _, .pop hfree (.pop ht hp hqueue) fun o hmem => ?_, rfl⟩
      by_contra hposts
      exact hpost ⟨o, hmem, by simpa using hposts⟩

/-- **At rest all threads have ended.** A parked one would be waiting for
a thread that is attached, or for a notification. -/
theorem Closing.settled (h : Closing posts N n s) (hrest : AtRest (Step posts) Event.work s) :
    Settled s := by
  have hstuck : ¬ ∃ e t, Step posts s e t ∧ e.work = 1 := by
    rintro ⟨e, t, hst, he⟩
    have := hrest e t hst
    omega
  obtain ⟨es, hrun⟩ := h.reached
  have hi := inv_run hrun.runs
  have hfree := h.clean.free
  have hconsumers : s.queue.consumers = 0 :=
    Multiset.eq_zero_of_forall_notMem fun p hmem => hstuck (h.pop_enabled hmem)
  have hstage : ∀ th ∈ s.threads, cv.waits th = true ∨ th.stage = .finished := by
    intro th hmem
    by_contra hno
    push Not at hno
    exact hstuck (h.enabled hmem (by simpa using hno.1) hno.2)
  have hnone : ∀ f : Thread T → Bool,
      (∀ th, f th = true → th.stage ≠ .finished ∧ cv.waits th = false) →
        tally f s.threads = 0 := by
    intro f hf
    refine tally_eq_zero fun th hmem => ?_
    by_contra hne
    obtain ⟨hend, hwaits⟩ := hf th (by simpa using hne)
    rcases hstage th hmem with hw | hfin
    · rw [hw] at hwaits
      cases hwaits
    · exact hend hfin
  have hinside : tally Thread.inside s.threads = 0 := hnone _ fun _ => awake_of_inside
  have hreleases : tally Thread.releases s.threads = 0 := hnone _ fun _ => awake_of_releases
  have hfinished : ∀ th ∈ s.threads, th.stage = .finished := by
    intro th hmem
    refine (hstage th hmem).resolve_left fun hw => ?_
    have hattached := hi.awaited (tally_pos hmem hw)
    have hcount := hi.counted
    rw [Counted, hinside, Queue.State.inPop, hconsumers] at hcount
    simp only [Multiset.map_zero, Multiset.card_zero] at hcount
    omega
  refine ⟨hfinished, hconsumers, ?_, ?_⟩
  · by_contra hne
    obtain ⟨k, hk⟩ := Nat.exists_eq_succ_of_ne_zero hne
    exact hstuck ⟨_, _, .close hfree hk .close, rfl⟩
  · cases howner : s.owner with
    | idle => exact .inl rfl
    | destroyed => exact .inr rfl
    | closing => exact absurd ⟨_, _, .closeDestroying hfree howner .close, rfl⟩ hstuck
    | draining => exact absurd ⟨_, _, .drain hfree howner .close, rfl⟩ hstuck
    | destroying => exact absurd ⟨_, _, .destroyed howner, rfl⟩ hstuck
    | joining destroys =>
      refine absurd ⟨_, _, .joined howner (fun th hmem _ => hfinished th hmem) ?_, rfl⟩ hstuck
      simp [hconsumers]

/-- **The pool comes to an end.** Once the queue is closed, with no further
threads and where the destructors of what is executed do not post, the pool makes
no more steps than its tasks and threads and the calls of the owner and of
`stop()` give it to do, in any order. Where it cannot go on all threads
have ended, and `wait()`, `stop()` or the destructor has returned. If no
task posts when it is destroyed, it gets there from anywhere. -/
theorem comes_to_an_end (hrun : Trace (Step posts) (Harmless posts) (init N) es s)
    (hclosed : s.queue.closed = true)
    (hrest : Trace (Step posts) (Settling posts) s es' t) :
    spent Event.work es' ≤ s.budget (s.threads.card + s.queue.consumers.card) +
        spent Event.brings es' ∧
      (AtRest (Step posts) Event.work t → Settled t) ∧
      ((∀ o, posts o = false) → ∃ es'' u, Trace (Step posts) (Settling posts) t es'' u ∧
        (∀ e ∈ es'', 0 < e.work) ∧ Settled u) := by
  have hs : Closing posts N _ s := ⟨⟨es, hrun⟩, hclosed, le_rfl⟩
  have hpays := pays posts N (s.threads.card + s.queue.consumers.card)
  obtain ⟨ht, hle⟩ := hpays.spent_le hrest hs
  refine ⟨by omega, ht.settled, fun hposts => ?_⟩
  have hown : ∀ (s : State T) (e : Event T), 0 < e.work → Settling posts s e ∧ e.brings = 0 := by
    intro s e he
    refine ⟨⟨?_, .of_never hposts s e⟩, ?_⟩
    · rintro j rfl
      cases he
    · cases e with
      | unpark | stop | wait | destroy => cases he
      | _ => rfl
  obtain ⟨es'', u, hrun', hall, hu⟩ := hpays.exists_rest hown ht
  exact ⟨es'', u, hrun', hall, (hpays.spent_le hrun' ht).1.settled hu⟩

/-- The destructor is called while a thread from outside executes the only
task: everybody comes to an end. -/
theorem comes_to_an_end_of_destroy : ∃ s : State ℕ, s.owner = .draining ∧
    ∃ es u, Trace (Step fun _ => false) (Settling fun _ => false) s es u ∧
      (∀ e ∈ es, 0 < e.work) ∧ Settled u := by
  obtain ⟨s, hrun, hs⟩ := reaches (fun _ => false) (Harmless fun _ => false) (init 1)
    [.attach 0, .enter (.external 0), .post 5 true, .check (.external 0) none,
      .pop (.external 0) none 5, .run (.external 0) 5, .destroy, .close]
    (fun s => s.owner = .draining ∧ s.queue.closed = true) (fun e _ s => .of_never (fun _ => rfl) s e)
    (by decide)
  have hs := of_decide_eq_true hs
  exact ⟨s, hs.1, (comes_to_an_end hrun hs.2 (.nil s)).2.2 fun _ => rfl⟩

end Pool

end PortableConcurrency
