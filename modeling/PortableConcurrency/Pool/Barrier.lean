import PortableConcurrency.Queue.Fifo
import PortableConcurrency.Pool.Model

/-!
# The barrier that the threads leave through

`attached_threads_` counts the threads between their increment and their
decrement. A thread that has decremented waits until there are none, and
another one may increment in the meantime. What the barrier is worth: when
a thread gets through it, nobody executes a task, and nobody is going to.
-/

namespace PortableConcurrency

namespace Pool

variable {T : Type*} {posts : Object T → Bool} {s s' : State T} {e : Event T} {es : List (Event T)}
variable {p q : Thread T} {m : Multiset (Thread T)} {who : Who} {N : ℕ}

/-! ## The queue of a pool is a queue -/

/-- **What a step of the pool does to its queue** is a run of the queue. -/
theorem step_queue (hst : Step posts s e s') :
    Trace Queue.Step Unguarded s.queue e.onQueue s'.queue := by
  cases hst with
  | check _ _ hq | block _ hq | rouse hq | pop _ hq | relock _ hq | fail _ hq | post _ _ hq
  | close _ _ hq | wait _ _ hq | closeDestroying _ _ hq | drain _ _ hq =>
    exact .snoc (.nil _) trivial hq
  | _ => exact .nil _

/-- So is what a run of the pool does. -/
theorem run_queue {ok : State T → Event T → Prop} (hrun : Trace (Step posts) ok (init N) es s) :
    Trace Queue.Step Unguarded Queue.init (es.flatMap Event.onQueue) s.queue := by
  refine hrun.invariant
    (I := fun es s => Trace Queue.Step Unguarded Queue.init (es.flatMap Event.onQueue) s.queue)
    ?_ (.nil _)
  intro es s e t ih _ hst
  rw [List.flatMap_append, List.flatMap_singleton]
  exact ih.append (step_queue hst)

/-- Only `close` closes the queue. -/
theorem step_closed (hst : Step posts s e s') :
    s'.queue.closed = (s.queue.closed || e.closes) := by
  cases hst with
  | check _ _ hq | block _ hq | rouse hq | pop _ hq | relock _ hq | fail _ hq | post _ _ hq
  | close _ _ hq | wait _ _ hq | closeDestroying _ _ hq | drain _ _ hq =>
    simpa [Event.closes, Queue.Event.isClose] using Queue.step_closed hq
  | _ => simp [Event.closes]

/-- Closed and empty: there is no task left, and there will be none. -/
def State.Drained (s : State T) : Prop := s.queue.closed = true ∧ s.queue.queue = []

theorem State.Drained.step (h : s.Drained) (hst : Step posts s e s') : s'.Drained :=
  have := Queue.drained_run h.1 h.2 (step_queue hst)
  ⟨this.1, this.2.1⟩

/-! ## Where the threads are -/

/-- Counted in `attached_threads_`, and not in `pop`. -/
def Thread.inside (th : Thread T) : Bool :=
  match th.stage with
  | .checking _ => true
  | .taken _ => true
  | .executing _ => true
  | .leaving _ => true
  | .detaching => true
  | .relocking _ => true
  | _ => false

/-- Holding a task taken from the queue that is not executed yet. -/
def Thread.busy (th : Thread T) : Bool :=
  match th.stage with
  | .taken _ => true
  | .executing _ => true
  | .relocking _ => true
  | _ => false

/-- Out of the loop of `process_queue`. -/
def Thread.out (th : Thread T) : Bool :=
  match th.stage with
  | .leaving _ => true
  | .detaching => true
  | .parked => true
  | .unparked => true
  | .releasing => true
  | .finished => true
  | _ => false

/-- Through the barrier. -/
def Thread.through (th : Thread T) : Bool :=
  match th.stage with
  | .releasing => true
  | .finished => true
  | _ => false

def Thread.releases (th : Thread T) : Bool :=
  match th.stage with
  | .releasing => true
  | _ => false

theorem wake_eq (h : cv.wake p = some q) : p = ⟨p.who, .parked⟩ ∧ q = ⟨p.who, .unparked⟩ := by
  obtain ⟨who, stage⟩ := p
  cases stage with
  | parked =>
    cases h
    exact ⟨rfl, rfl⟩
  | _ => cases h

/-- What is true of a parked thread if and only if it is of an unparked one
does not depend on wakeups. -/
theorem tally_wakes {f : Thread T → Bool} (hf : ∀ who, f ⟨who, .unparked⟩ = f ⟨who, .parked⟩)
    (m : Multiset (Thread T)) : tally f (cv.notifyAll m) = tally f m := by
  refine CondVar.tally_notifyAll (fun p q h => ?_) m
  obtain ⟨hp, hq⟩ := wake_eq h
  rw [hq, hp]
  exact hf p.who

/-- The counter of attached threads does not wrap while there is one. -/
theorem detached_of_pos {n : ℕ} (h : 0 < n) : detached n + 1 = n := by
  rw [detached, if_neg (by omega)]
  omega

/-! ## The counter -/

/-- **`attached_threads_`** is the number of threads between their
increment and their decrement. -/
def Counted (s : State T) : Prop :=
  s.attached = tally Thread.inside s.threads + s.queue.inPop.card

theorem Counted.pos (h : Counted s) (hmem : p ∈ s.threads) (hp : p.inside = true) :
    0 < s.attached := by
  have := tally_pos hmem hp
  rw [h]
  omega

theorem tally_returned (f : Thread T → Bool) (hf : ∀ i, f ⟨.worker i, .finished⟩ = false)
    (who : Who) : tally f (returned who) = 0 := by
  cases who with
  | worker i => simp [returned, hf]
  | external => rfl

/-- **The step lemma.** -/
theorem Counted.step (h : Counted s) (hst : Step posts s e s') : Counted s' := by
  have hpos : ∀ p ∈ s.threads, p.inside = true → 0 < s.attached := fun p => h.pos
  unfold Counted at h ⊢
  cases hst with
  | attach => simpa [Thread.inside] using h
  | enter ht =>
    rw [ht] at h
    simp [Thread.inside] at h ⊢
    omega
  | check ht _ hq =>
    rw [ht] at h
    simp [(Queue.inPop_call hq).1, Thread.inside] at h ⊢
    omega
  | quit ht => simpa [ht, Thread.inside] using h
  | block _ hq | rouse hq | post _ _ hq | close _ _ hq | wait _ _ hq | closeDestroying _ _ hq
  | drain _ _ hq =>
    rw [h, Queue.inPop_stays hq rfl rfl]
  | pop _ hq | relock _ hq =>
    rw [(Queue.inPop_pop hq).1] at h
    simp [Thread.inside] at h ⊢
    omega
  | fail _ hq =>
    rw [(Queue.inPop_fail hq).1] at h
    simp [Thread.inside] at h ⊢
    omega
  | run ht | done ht | leave ht => simpa [ht, Thread.inside] using h
  | detachLast ht | detach ht =>
    have := detached_of_pos (hpos _ (by rw [ht]; exact Multiset.mem_cons_self _ _) rfl)
    rw [ht] at h
    simp [Thread.inside] at h ⊢
    omega
  | park ht | release ht => simpa [ht, Thread.inside] using h
  | unpark ht hw =>
    obtain ⟨hp, hq⟩ := wake_eq hw
    rw [ht, hp] at h
    rw [hq]
    simpa [Thread.inside] using h
  | notifyAll ht =>
    rw [ht] at h
    rw [tally_add, tally_returned _ fun _ => rfl, tally_wakes fun _ => rfl]
    simpa [Thread.inside] using h
  | stop | destroy | joined | destroyed => exact h

/-- No test that says no to a thread that has not started tallies at first. -/
theorem tally_init {f : Thread T → Bool} (hf : ∀ i, f ⟨.worker i, .starting⟩ = false) :
    tally f (init N : State T).threads = 0 := by
  refine tally_eq_zero fun th hmem => ?_
  have hmem : th ∈ (Multiset.range N).map fun i => (⟨.worker i, .starting⟩ : Thread T) := hmem
  obtain ⟨i, -, rfl⟩ := Multiset.mem_map.mp hmem
  exact hf i

theorem counted_init : Counted (init N : State T) := by
  rw [Counted, tally_init fun _ => rfl]
  rfl

/-! ## The barrier -/

/-- Whoever is parked waits for a thread that is attached, or that is about
to notify. -/
def Awaited (s : State T) : Prop :=
  0 < tally cv.waits s.threads → 0 < s.attached ∨ 0 < tally Thread.releases s.threads

theorem waits_notifyAll (m : Multiset (Thread T)) : tally cv.waits (cv.notifyAll m) = 0 :=
  tally_eq_zero fun _ hq => CondVar.waits_eq_false.mpr (CondVar.wake_notifyAll hq)

/-- Away from the barrier a step may forget about waiting. -/
theorem Awaited.of_eq (h : Awaited s) (hw : tally cv.waits s'.threads ≤ tally cv.waits s.threads)
    (ha : s.attached ≤ s'.attached)
    (hr : tally Thread.releases s.threads ≤ tally Thread.releases s'.threads) : Awaited s' := by
  intro hpos
  have := h (by omega)
  omega

/-- **The step lemma.** -/
theorem Awaited.step (h : Awaited s) (hst : Step posts s e s') : Awaited s' := by
  cases hst with
  | attach | pop | relock | fail =>
    exact h.of_eq (by simp [CondVar.waits, cv, Thread.wake]) le_rfl (by simp [Thread.releases])
  | enter => exact fun _ => .inl (Nat.succ_pos _)
  | check ht | quit ht | run ht | done ht | leave ht =>
    refine h.of_eq ?_ le_rfl ?_ <;> simp [ht, CondVar.waits, cv, Thread.wake, Thread.releases]
  | detachLast | release => exact fun _ => .inr (by simp [Thread.releases])
  | detach _ hmore => exact fun _ => .inl (Nat.pos_of_ne_zero hmore)
  | park _ hmore => exact fun _ => .inl (Nat.pos_of_ne_zero hmore)
  | unpark ht hw =>
    obtain ⟨hp, hq⟩ := wake_eq hw
    refine h.of_eq ?_ le_rfl ?_
    · rw [ht, tally_cons, tally_cons, (CondVar.waits_of_wake hw).2]
      simp
    · rw [ht, hp, hq]
      simp [Thread.releases]
  | @notifyAll who rest =>
    intro hpos
    have hzero : tally cv.waits (returned who + cv.notifyAll rest) = 0 := by
      rw [tally_add, waits_notifyAll, tally_returned _ fun _ => rfl]
    exact absurd hzero (Nat.ne_of_gt hpos)
  | block | rouse | post | stop | close | wait | destroy | closeDestroying | drain | joined
  | destroyed => exact h

/-! ## What it is worth -/

/-- **Whoever is out of the loop** has seen `stopped_`, or the queue closed
and empty. -/
def Ended (s : State T) : Prop :=
  0 < tally Thread.out s.threads → s.stopped = true ∨ s.Drained

/-- A pool that was stopped stays so. -/
theorem step_stopped (hst : Step posts s e s') (h : s.stopped = true) : s'.stopped = true := by
  cases hst <;> first | exact h | rfl

/-- **The step lemma.** -/
theorem Ended.step (h : Ended s) (hst : Step posts s e s') : Ended s' := by
  have hmono : s.stopped = true ∨ s.Drained → s'.stopped = true ∨ s'.Drained :=
    Or.imp (step_stopped hst) fun hd => hd.step hst
  have hle : tally Thread.out s'.threads ≤ tally Thread.out s.threads → Ended s' :=
    fun hle hpos => hmono (h (by omega))
  cases hst with
  | attach | pop | relock => exact hle (by simp [Thread.out])
  | enter ht | check ht | run ht | done ht | leave ht | detachLast ht | detach ht | park ht
  | release ht => exact hle (by simp [ht, Thread.out])
  | quit _ hstop => exact fun _ => .inl hstop
  | fail _ hq =>
    obtain ⟨-, -, -, hclosed, hempty⟩ := Queue.inPop_fail hq
    exact fun _ => .inr ⟨hclosed, hempty⟩
  | unpark ht hw =>
    obtain ⟨hp, hq⟩ := wake_eq hw
    refine hle ?_
    rw [ht, hp, hq]
    simp [Thread.out]
  | @notifyAll who rest ht =>
    refine hle ?_
    have hret : tally Thread.out (returned who : Multiset (Thread T)) ≤ 1 := by
      cases who with
      | worker i => simp [returned, Thread.out]
      | external => simp [returned]
    rw [tally_add, tally_wakes fun _ => rfl, ht, tally_cons]
    simp [Thread.out]
    omega
  | block | rouse | post | stop | close | wait | destroy | closeDestroying | drain | joined
  | destroyed => exact hle le_rfl

/-- **Once a thread is through the barrier** no task is executed any more. -/
def Quiet (s : State T) : Prop :=
  0 < tally Thread.through s.threads →
    tally Thread.busy s.threads = 0 ∧
      (s.stopped = true ∧ s.queue.inPop = 0 ∨ s.Drained)

/-- Who executes a task is in the loop. -/
theorem inside_of_busy (p : Thread T) (h : p.busy = true) : p.inside = true := by
  obtain ⟨who, stage⟩ := p
  cases stage <;> first | rfl | cases h

/-- The last thread to leave finds nobody in the loop. -/
theorem Counted.nobody (h : Counted s) (hzero : s.attached = 0) :
    tally Thread.busy s.threads = 0 ∧ s.queue.inPop = 0 := by
  have hle := tally_mono inside_of_busy s.threads
  unfold Counted at h
  exact ⟨by omega, Multiset.card_eq_zero.mp (by omega)⟩

/-- **The step lemma.** -/
theorem Quiet.step (hcount : Counted s) (hended : Ended s) (h : Quiet s)
    (hst : Step posts s e s') : Quiet s' := by
  have hcount' := hcount.step hst
  have hended' := hended.step hst
  have hdrained : s.Drained → s'.Drained := fun hd => hd.step hst
  have hmono : s.stopped = true ∧ s.queue.inPop = 0 ∨ s.Drained →
      s'.queue.inPop = s.queue.inPop → s'.stopped = true ∧ s'.queue.inPop = 0 ∨ s'.Drained := by
    rintro (⟨hs, hp⟩ | hd) heq
    · exact .inl ⟨step_stopped hst hs, heq.trans hp⟩
    · exact .inr (hdrained hd)
  have hkeep : tally Thread.through s'.threads ≤ tally Thread.through s.threads →
      tally Thread.busy s'.threads ≤ tally Thread.busy s.threads →
      s'.queue.inPop = s.queue.inPop → Quiet s' := by
    intro hthrough hbusy heq hpos
    obtain ⟨hb, hq⟩ := h (by omega)
    exact ⟨by omega, hmono hq heq⟩
  cases hst with
  | attach => exact hkeep (by simp [Thread.through]) (by simp [Thread.busy]) rfl
  | enter ht | quit ht | leave ht | detach ht | park ht =>
    refine hkeep ?_ ?_ rfl <;> simp [ht, Thread.through, Thread.busy]
  | check ht hgo hq =>
    intro hpos
    rw [Quiet, ht] at h
    obtain ⟨hb, ⟨hs, -⟩ | hd⟩ := h (by simpa [Thread.through] using hpos)
    · rw [hgo] at hs
      cases hs
    · exact ⟨by simpa [Thread.busy] using hb, .inr (hdrained hd)⟩
  | pop _ hq | relock _ hq =>
    -- nobody is in `pop`, or there is nothing to take
    intro hpos
    obtain ⟨hin, hne, -⟩ := Queue.inPop_pop hq
    obtain ⟨-, ⟨-, hnone⟩ | hd⟩ := h (by simpa [Thread.through] using hpos)
    · rw [hnone] at hin
      exact absurd hin.symm (Multiset.cons_ne_zero)
    · rw [hd.2] at hne
      cases hne
  | fail _ hq =>
    obtain ⟨-, -, -, hclosed, hempty⟩ := Queue.inPop_fail hq
    intro hpos
    have hb := (h (by simpa [Thread.through] using hpos)).1
    exact ⟨by simpa [Thread.busy] using hb, .inr ⟨hclosed, hempty⟩⟩
  | run ht | done ht =>
    intro hpos
    rw [Quiet, ht] at h
    have hb := (h (by simpa [Thread.through] using hpos)).1
    simp [Thread.busy] at hb
  | detachLast ht hlast =>
    -- here the barrier opens
    obtain ⟨hb, hin⟩ := hcount'.nobody hlast
    refine fun _ => ⟨hb, ?_⟩
    rcases hended' (by simp [Thread.out]) with hs | hd
    · exact .inl ⟨hs, hin⟩
    · exact .inr hd
  | release ht hnone =>
    obtain ⟨hb, hin⟩ := hcount'.nobody hnone
    refine fun _ => ⟨hb, ?_⟩
    rcases hended' (by simp [Thread.out]) with hs | hd
    · exact .inl ⟨hs, hin⟩
    · exact .inr hd
  | unpark ht hw =>
    obtain ⟨hp, hq⟩ := wake_eq hw
    refine hkeep ?_ ?_ rfl
    · rw [ht, hp, hq]
      simp [Thread.through]
    · rw [ht, hp, hq]
      simp [Thread.busy]
  | notifyAll ht =>
    rw [Quiet, ht] at h
    obtain ⟨hb, hq⟩ := h (by simp [Thread.through])
    refine fun _ => ⟨?_, hmono hq rfl⟩
    rw [tally_add, tally_wakes fun _ => rfl, tally_returned _ fun _ => rfl]
    simpa [Thread.busy] using hb
  | block _ hq | rouse hq | post _ _ hq | close _ _ hq | wait _ _ hq | closeDestroying _ _ hq
  | drain _ _ hq => exact hkeep le_rfl le_rfl (Queue.inPop_stays hq rfl rfl)
  | stop | destroy | joined | destroyed => exact hkeep le_rfl le_rfl rfl

/-- **What holds of a pool** in every run. -/
structure Inv (s : State T) : Prop where
  counted : Counted s
  awaited : Awaited s
  ended : Ended s
  quiet : Quiet s

theorem inv_init : Inv (init N : State T) := by
  refine ⟨counted_init, fun hpos => ?_, fun hpos => ?_, fun hpos => ?_⟩ <;>
    rw [tally_init fun _ => rfl] at hpos <;> exact absurd hpos (Nat.lt_irrefl 0)

theorem Inv.step (h : Inv s) (hst : Step posts s e s') : Inv s' :=
  ⟨h.counted.step hst, h.awaited.step hst, h.ended.step hst,
    h.quiet.step h.counted h.ended hst⟩

/-- **They hold in every run.** -/
theorem inv_run {ok : State T → Event T → Prop} (hrun : Runs (Step posts) ok (init N) s) : Inv s :=
  hrun.invariant (I := Inv) (fun _ _ _ h _ hst => h.step hst) inv_init

end Pool

end PortableConcurrency
