import PortableConcurrency.Queue.Model

/-!
# The queue is first in, first out, and strands nobody

`notify_one` may wake a consumer for a value that another one, who never
slept, takes first. What holds nevertheless: while somebody waits without
having been notified, there are as many notified consumers as values.
-/

namespace PortableConcurrency

namespace Queue

variable {V ι : Type*} {s s' t : State V ι} {e : Event V ι} {es es' : List (Event V ι)}
variable {p q : Pc V ι} {m m' : Multiset (Pc V ι)} {who : ι} {dest val : V}

/-! ## Values -/

/-- Nothing is accepted after `close`. -/
theorem accepted_append (es es' : List (Event V ι)) :
    accepted (es ++ es') =
      accepted es ++ if es.any Event.isClose then [] else accepted es' := by
  induction es with
  | nil => simp [accepted]
  | cons e es ih =>
    by_cases he : e.isClose = true
    · simp [accepted, he]
    · simp only [List.cons_append, accepted, he, ih]
      simp [he]

/-- What was popped, in the order of the events. -/
@[simp] theorem popped_append (es es' : List (Event V ι)) :
    popped (es ++ es') = popped es ++ popped es' := by
  simp [popped]

@[simp] theorem popped_singleton (e : Event V ι) : popped [e] = e.popped := by
  simp [popped]

/-- The values that a step adds, and that it takes. -/
theorem step_queue (hst : Step s e s') :
    s.queue ++ (if s.closed then [] else accepted [e]) = e.popped ++ s'.queue := by
  cases hst with
  | push hopen => simp [hopen, accepted, Event.isClose, Event.pushed, Event.popped]
  | pushClosed hclosed => simp [hclosed, Event.popped]
  | pop _ _ hq => simp [hq, accepted, Event.isClose, Event.pushed, Event.popped]
  | _ => simp [accepted, Event.isClose, Event.pushed, Event.popped]

/-- Only `close` closes the queue. -/
theorem step_closed (hst : Step s e s') : s'.closed = (s.closed || e.isClose) := by
  cases hst <;> simp [Event.isClose]

/-- **First in, first out.** What was accepted was popped in the same order,
or is there still. -/
structure Fifo (es : List (Event V ι)) (s : State V ι) : Prop where
  closed : s.closed = es.any Event.isClose
  values : accepted es = popped es ++ s.queue

/-- **The step lemma.** -/
theorem Fifo.step (h : Fifo es s) (hst : Step s e s') : Fifo (es ++ [e]) s' := by
  refine ⟨?_, ?_⟩
  · rw [step_closed hst, h.closed, List.any_append]
    simp
  · rw [accepted_append, ← h.closed, h.values, popped_append, popped_singleton,
      List.append_assoc, step_queue hst, List.append_assoc]

/-- **What was accepted is popped in order, and the rest is in the queue.** -/
theorem fifo (hrun : Trace Step Unguarded init es s) : Fifo es s :=
  hrun.invariant (fun _ _ _ _ h _ hst => h.step hst) ⟨rfl, rfl⟩

/-- A queue that is closed and empty stays so, and nothing is popped. -/
theorem drained_step (hclosed : s.closed = true) (hq : s.queue = []) (hst : Step s e s') :
    s'.closed = true ∧ s'.queue = [] ∧ e.popped = [] := by
  have hstep := step_queue hst
  rw [hq, if_pos hclosed] at hstep
  have hnil := List.append_eq_nil_iff.mp hstep.symm
  exact ⟨by simp [step_closed hst, hclosed], hnil.2, hnil.1⟩

/-- A queue that is closed and empty stays so. -/
theorem drained_run (hclosed : s.closed = true) (hq : s.queue = [])
    (hrun : Trace Step Unguarded s es t) : t.closed = true ∧ t.queue = [] ∧ popped es = [] := by
  refine hrun.invariant (I := fun es t => t.closed = true ∧ t.queue = [] ∧ popped es = []) ?_
    ⟨hclosed, hq, rfl⟩
  rintro es s e t ⟨hc, hq, hp⟩ - hst
  obtain ⟨hc', hq', hp'⟩ := drained_step hc hq hst
  exact ⟨hc', hq', by rw [popped_append, popped_singleton, hp, hp']; rfl⟩

/-- Once a pop has failed the queue is closed and empty. -/
theorem drained_of_fail (hrun : Trace Step Unguarded init es s)
    (hfail : es.any Event.isFail = true) : s.closed = true ∧ s.queue = [] := by
  refine hrun.invariant
    (I := fun es s => es.any Event.isFail = true → s.closed = true ∧ s.queue = []) ?_
    (by simp) hfail
  intro es s e t ih _ hst hfail
  rw [List.any_append, Bool.or_eq_true] at hfail
  rcases hfail with hbefore | hnow
  · obtain ⟨hc, hq⟩ := ih hbefore
    obtain ⟨hc', hq', -⟩ := drained_step hc hq hst
    exact ⟨hc', hq'⟩
  · cases hst with
    | fail _ _ hclosed hq => exact ⟨hclosed, hq⟩
    | _ => simp [Event.isFail] at hnow

/-! ## Consumers -/

/-- Notified, and not yet back in possession of the mutex. -/
def Pc.isWoken : Pc V ι → Bool
  | .woken _ _ => true
  | _ => false

theorem isWoken_of_wake (h : cv.wake p = some q) : p.isWoken = false ∧ q.isWoken = true := by
  cases p with
  | blocked =>
    cases h
    exact ⟨rfl, rfl⟩
  | _ => cases h

theorem not_waits_of_running (h : p.Running who dest) : cv.waits p = false := by
  cases h <;> rfl

theorem wake_who_dest (h : cv.wake p = some q) : (q.who, q.dest) = (p.who, p.dest) := by
  cases p with
  | blocked =>
    cases h
    rfl
  | _ => cases h

theorem Pc.Running.who_dest (h : p.Running who dest) : (p.who, p.dest) = (who, dest) := by
  cases h <;> rfl

theorem map_notifyOne (h : cv.NotifyOne m m') :
    m'.map (fun p => (p.who, p.dest)) = m.map fun p => (p.who, p.dest) := by
  cases h with
  | nobody => rfl
  | somebody hw => rw [Multiset.map_cons, Multiset.map_cons, wake_who_dest hw]

theorem map_notifyAll (m : Multiset (Pc V ι)) :
    (cv.notifyAll m).map (fun p => (p.who, p.dest)) = m.map fun p => (p.who, p.dest) := by
  rw [CondVar.notifyAll, Multiset.map_map]
  refine Multiset.map_congr rfl fun p _ => ?_
  rw [Function.comp_apply]
  cases hp : cv.wake p with
  | none => rfl
  | some q => exact wake_who_dest hp

/-- **Who is in `pop`** has called it, and has not returned. -/
theorem step_inPop (hst : Step s e s') : e.departs + s'.inPop = e.arrives + s.inPop := by
  cases hst with
  | call => simp [State.inPop, Event.departs, Event.arrives, Pc.who, Pc.dest]
  | push _ hnotify => simp [State.inPop, Event.departs, Event.arrives, map_notifyOne hnotify]
  | pushClosed => simp [Event.departs, Event.arrives]
  | close => simp [State.inPop, Event.departs, Event.arrives, map_notifyAll]
  | pop ht hp | fail ht hp =>
    simp [State.inPop, ht, hp.who_dest, Event.departs, Event.arrives]
  | wait ht hp =>
    simp only [State.inPop, ht, Multiset.map_cons, hp.who_dest, Event.departs, Event.arrives]
    rfl
  | spurious ht hw =>
    simp [State.inPop, ht, wake_who_dest hw, Event.departs, Event.arrives]

/-- A call of `pop` adds one consumer. -/
theorem inPop_call (hst : Step s (.call who dest) s') :
    s'.inPop = (who, dest) ::ₘ s.inPop ∧ s'.queue = s.queue ∧ s'.closed = s.closed := by
  have hin := step_inPop hst
  cases hst with
  | call => exact ⟨by simpa [Event.departs, Event.arrives] using hin, rfl, rfl⟩

/-- A `pop` that returns takes the first value and leaves one consumer less. -/
theorem inPop_pop (hst : Step s (.pop who dest val) s') :
    s.inPop = (who, dest) ::ₘ s'.inPop ∧ s.queue = val :: s'.queue ∧ s'.closed = s.closed := by
  have hin := step_inPop hst
  cases hst with
  | pop _ _ hq => exact ⟨by simpa [Event.departs, Event.arrives] using hin.symm, hq, rfl⟩

/-- A `pop` that fails has found the queue closed and empty. -/
theorem inPop_fail (hst : Step s (.fail who dest) s') :
    s.inPop = (who, dest) ::ₘ s'.inPop ∧ s.closed = true ∧ s.queue = [] ∧
      s'.closed = true ∧ s'.queue = [] := by
  have hin := step_inPop hst
  cases hst with
  | fail _ _ hclosed hq =>
    exact ⟨by simpa [Event.departs, Event.arrives] using hin.symm, hclosed, hq, hclosed, hq⟩

/-- What is neither a push nor a successful pop leaves the values. -/
theorem queue_stays (hst : Step s e s') (hpush : e.pushed = []) (hpop : e.popped = []) :
    s'.queue = s.queue := by
  have hq := step_queue hst
  have hacc : (if s.closed then [] else accepted [e]) = [] := by
    simp [accepted, hpush]
  rw [hacc, hpop, List.append_nil, List.nil_append] at hq
  exact hq.symm

/-- The steps of those who are not, or stay, in `pop`. -/
theorem inPop_stays (hst : Step s e s') (ha : e.arrives = 0) (hd : e.departs = 0) :
    s'.inPop = s.inPop := by
  have hin := step_inPop hst
  rwa [ha, hd, zero_add, zero_add] at hin

/-- **Nobody is stranded.** -/
structure Served (s : State V ι) : Prop where
  /-- while somebody waits un-notified, there is a notified consumer for
  every value -/
  enough : 0 < tally cv.waits s.consumers → s.queue.length ≤ tally Pc.isWoken s.consumers
  /-- and nobody does once the queue is closed -/
  awake : s.closed = true → tally cv.waits s.consumers = 0

theorem notifyOne_served (h : cv.NotifyOne m m') :
    tally cv.waits m' = 0 ∨
      tally cv.waits m = tally cv.waits m' + 1 ∧
        tally Pc.isWoken m' = tally Pc.isWoken m + 1 := by
  cases h with
  | nobody h => exact .inl (tally_eq_zero fun p hp => CondVar.waits_eq_false.mpr (h p hp))
  | somebody hw =>
    obtain ⟨hp, hq⟩ := CondVar.waits_of_wake hw
    obtain ⟨hwp, hwq⟩ := isWoken_of_wake hw
    exact .inr ⟨by simp [hp, hq], by simp [hwp, hwq]⟩

/-- **The step lemma.** -/
theorem Served.step (h : Served s) (hst : Step s e s') : Served s' := by
  have hen := h.enough
  have haw := h.awake
  cases hst with
  | call =>
    refine ⟨fun hpos => ?_, fun hclosed => ?_⟩
    · simpa [Pc.isWoken] using hen (by simpa [CondVar.waits, cv, Pc.wake] using hpos)
    · simpa [CondVar.waits, cv, Pc.wake] using haw hclosed
  | @push val consumers hopen hnotify =>
    refine ⟨fun hpos => ?_, fun hclosed => absurd hclosed (by simp [hopen])⟩
    have hpos : 0 < tally cv.waits consumers := hpos
    -- whoever waits on was not the one to be woken
    rcases notifyOne_served hnotify with hzero | ⟨hw, hn⟩
    · omega
    · have hle := hen (by omega)
      show (s.queue ++ [val]).length ≤ tally Pc.isWoken consumers
      rw [List.length_append, List.length_singleton]
      omega
  | pushClosed => exact h
  | close =>
    have hzero : tally cv.waits (cv.notifyAll s.consumers) = 0 :=
      tally_eq_zero fun p hp => CondVar.waits_eq_false.mpr (CondVar.wake_notifyAll hp)
    exact ⟨fun hpos => absurd hzero (Nat.ne_of_gt hpos), fun _ => hzero⟩
  | @pop p rest who dest val queue ht hp hq =>
    have hw := not_waits_of_running hp
    rw [ht, tally_cons] at hen haw
    simp only [hw] at hen haw
    refine ⟨fun hpos => ?_, fun hclosed => by simpa using haw hclosed⟩
    have hle := hen (by simpa using hpos)
    rw [hq, List.length_cons, tally_cons] at hle
    show queue.length ≤ tally Pc.isWoken rest
    split at hle <;> omega
  | @fail p rest who dest ht hp hclosed hq =>
    have hzero := haw hclosed
    rw [ht, tally_cons] at hzero
    have hzero : tally cv.waits rest = 0 := by omega
    exact ⟨fun hpos => absurd hzero (Nat.ne_of_gt hpos), fun _ => hzero⟩
  | wait ht hp hopen hq =>
    refine ⟨fun _ => ?_, fun hclosed => absurd hclosed (by simp [hopen])⟩
    simp [hq]
  | @spurious p q rest ht hwake =>
    obtain ⟨hp, hq⟩ := CondVar.waits_of_wake hwake
    obtain ⟨hwp, hwq⟩ := isWoken_of_wake hwake
    rw [ht] at hen haw
    simp only [tally_cons, hp, hwp] at hen haw
    refine ⟨fun _ => ?_, fun hclosed => ?_⟩
    · have := hen (by simp)
      simp [hwq] at this ⊢
      omega
    · have := haw hclosed
      simp at this

/-- **Nobody is stranded in any run.** -/
theorem served (hrun : Runs Step Unguarded init s) : Served s :=
  hrun.invariant (I := Served) (fun _ _ _ h _ hst => h.step hst)
    ⟨by simp [init], by simp [init]⟩

/-! ## The law -/

/-- **What holds of a `closable_queue`** after the events `es`, from any
number of producers, consumers and closers. -/
structure QueueLaw (es : List (Event V ι)) (s : State V ι) : Prop where
  closed : s.closed = es.any Event.isClose
  /-- the values popped are the first of those pushed before the first
  close, in order; the others are in the queue -/
  values : accepted es = popped es ++ s.queue
  refused : s.closed = true → ∀ val s', Step s (.push val) s' → s' = s
  /-- `pop` returns false when the queue is closed and empty only -/
  fails : ∀ who dest s', Step s (.fail who dest) s' → s.closed = true ∧ s.queue = []
  /-- and no pop returns true after that -/
  failed : es.any Event.isFail = true →
    ∀ es' t, Trace Step Unguarded s es' t → popped es' = []
  enough : ∀ who dest, .blocked who dest ∈ s.consumers →
    s.queue.length ≤ tally Pc.isWoken s.consumers
  awake : s.closed = true → ∀ who dest, .blocked who dest ∉ s.consumers

/-- **The queue is first in, first out, drains after close and strands no
consumer.** -/
theorem queue_law (hrun : Trace Step Unguarded init es s) : QueueLaw es s := by
  have hs := served hrun.runs
  refine ⟨(fifo hrun).closed, (fifo hrun).values, ?_, ?_, ?_, ?_, ?_⟩
  · intro hclosed val s' hst
    cases hst with
    | push hopen => simp [hopen] at hclosed
    | pushClosed => rfl
  · intro who dest s' hst
    cases hst with
    | fail _ _ hclosed hq => exact ⟨hclosed, hq⟩
  · intro hfail es' t hrun'
    obtain ⟨hclosed, hq⟩ := drained_of_fail hrun hfail
    exact (drained_run hclosed hq hrun').2.2
  · intro who dest hmem
    exact hs.enough (tally_pos hmem rfl)
  · intro hclosed who dest hmem
    have := not_of_tally_eq_zero (hs.awake hclosed) hmem
    cases this

/-- The value that a consumer is woken for is taken by another one; the
woken one learns of the close. -/
theorem queue_law_of_steal :
    ∃ (es : List (Event ℕ ℕ)) (s : State ℕ ℕ), popped es = [7] ∧ es.any Event.isFail = true ∧
      QueueLaw es s := by
  have h₀ : Trace Step Unguarded (init : State ℕ ℕ) [] init := .nil _
  have h₁ := h₀.snoc trivial (show Step _ (.call 1 0) _ from .call)
  have h₂ := h₁.snoc trivial (.wait (show _ = Pc.popping 1 0 ::ₘ 0 by decide) .popping rfl rfl)
  have h₃ := h₂.snoc trivial (show Step _ (.push 7) _ from .push rfl
    (show cv.NotifyOne (Pc.blocked 1 0 ::ₘ 0) (Pc.woken 1 0 ::ₘ 0) from .somebody rfl))
  have h₄ := h₃.snoc trivial (show Step _ (.call 2 0) _ from .call)
  have h₅ := h₄.snoc trivial
    (.pop (show _ = Pc.popping 2 0 ::ₘ {.woken 1 0} by decide) .popping (show _ = [7] from rfl))
  have h₆ := h₅.snoc trivial .close
  have h₇ := h₆.snoc trivial
    (.fail (show _ = Pc.woken 1 0 ::ₘ 0 by decide) .woken rfl rfl)
  exact ⟨_, _, by decide, by decide, queue_law h₇⟩

end Queue

end PortableConcurrency
