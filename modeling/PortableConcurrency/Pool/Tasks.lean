import Mathlib.Data.Multiset.Bind
import PortableConcurrency.Pool.Barrier

/-!
# Where the tasks of a pool are

A task that was accepted is in the queue until a thread takes it, and with
that thread until its call returns; nothing is lost on the way, and nothing
is there twice. A thread is in one place at a time, so what it starts it
starts in the order in which it took it.
-/

namespace PortableConcurrency

namespace Pool

variable {T : Type*} {posts : Object T → Bool} {s s' : State T} {e : Event T} {es : List (Event T)}
variable {who : Who} {N i j : ℕ} {t : T} {ok : State T → Event T → Prop}

/-! ## The threads that are there -/

/-- The threads in `attach()`, and those of the pool that have ended. -/
def State.present (s : State T) : Multiset Who :=
  s.threads.map Thread.who + s.queue.inPop.map Prod.fst

/-- Who calls `attach()`. -/
def Event.comes : Event T → Multiset Who
  | .attach j => {.external j}
  | _ => 0

/-- Who returns from it to its caller. -/
def Event.goes : Event T → Multiset Who
  | .notifyAll (.external j) => {.external j}
  | _ => 0

theorem map_who_notifyAll (m : Multiset (Thread T)) :
    (cv.notifyAll m).map Thread.who = m.map Thread.who := by
  rw [CondVar.notifyAll, Multiset.map_map]
  refine Multiset.map_congr rfl fun p _ => ?_
  rw [Function.comp_apply]
  cases hp : cv.wake p with
  | none => rfl
  | some q =>
    obtain ⟨-, hq⟩ := wake_eq hp
    rw [Option.getD_some, hq]

theorem step_present (hst : Step posts s e s') : e.goes + s'.present = e.comes + s.present := by
  unfold State.present
  cases hst with
  | attach => simp [Event.goes, Event.comes]
  | enter ht | quit ht | run ht | done ht | leave ht | detachLast ht | detach ht | park ht
  | release ht => simp [ht, Event.goes, Event.comes]
  | check ht _ hq => simp [ht, (Queue.inPop_call hq).1, Event.goes, Event.comes]
  | pop _ hq | relock _ hq => simp [(Queue.inPop_pop hq).1, Event.goes, Event.comes]
  | fail _ hq => simp [(Queue.inPop_fail hq).1, Event.goes, Event.comes]
  | unpark ht hw =>
    obtain ⟨hp, hq⟩ := wake_eq hw
    rw [ht, hp, hq]
    simp [Event.goes, Event.comes]
  | @notifyAll who rest ht =>
    cases who <;> simp [ht, map_who_notifyAll, returned, Event.goes, Event.comes]
  | block _ hq | rouse hq | post _ _ hq | close _ _ hq | wait _ _ hq | closeDestroying _ _ hq
  | drain _ _ hq => simp [Queue.inPop_stays hq rfl rfl, Event.goes, Event.comes]
  | stop | destroy | joined | destroyed => simp [Event.goes, Event.comes]

/-- **A thread is in one place**, and those of the pool are there. -/
structure Present (N : ℕ) (s : State T) : Prop where
  nodup : s.present.Nodup
  workers : ∀ i, .worker i ∈ s.present ↔ i < N

theorem present_init : Present N (init N : State T) := by
  have heq : (init N : State T).present = (Multiset.range N).map Who.worker := by
    simp [State.present, init, Queue.init, Queue.State.inPop]
  refine ⟨?_, fun i => ?_⟩
  · rw [heq]
    exact (Multiset.nodup_range N).map fun i j h => by cases h; rfl
  · rw [heq]
    simp

theorem not_present (hth : ∀ th ∈ s.threads, th.who ≠ who)
    (hpop : ∀ p ∈ s.queue.consumers, p.who ≠ who) : who ∉ s.present := by
  intro hmem
  rcases Multiset.mem_add.mp hmem with hmem | hmem
  · obtain ⟨th, hin, heq⟩ := Multiset.mem_map.mp hmem
    exact hth th hin heq
  · obtain ⟨pair, hin, heq⟩ := Multiset.mem_map.mp hmem
    obtain ⟨p, hp, rfl⟩ := Multiset.mem_map.mp hin
    exact hpop p hp heq

theorem Present.step (h : Present N s) (hst : Step posts s e s') : Present N s' := by
  have hp := step_present hst
  have hsame : e.goes = 0 → e.comes = 0 → Present N s' := by
    intro hg hc
    rw [hg, hc, zero_add, zero_add] at hp
    exact ⟨by rw [hp]; exact h.nodup, by rw [hp]; exact h.workers⟩
  cases hst with
  | @attach j hnew hpop =>
    simp only [Event.goes, Event.comes, zero_add, Multiset.singleton_add] at hp
    refine ⟨?_, fun i => ?_⟩
    · rw [hp]
      exact Multiset.nodup_cons.mpr ⟨not_present hnew hpop, h.nodup⟩
    · rw [hp, Multiset.mem_cons, h.workers]
      simp
  | @notifyAll who =>
    cases who with
    | worker => exact hsame rfl rfl
    | external j =>
      simp only [Event.goes, Event.comes, zero_add, Multiset.singleton_add] at hp
      have hn := h.nodup
      rw [← hp, Multiset.nodup_cons] at hn
      refine ⟨hn.2, fun i => ?_⟩
      rw [← h.workers, ← hp, Multiset.mem_cons]
      simp
  | _ => exact hsame rfl rfl

theorem present_run (hrun : Runs (Step posts) ok (init N) s) : Present N s :=
  hrun.invariant (I := Present N) (fun _ _ _ h _ hst => h.step hst) present_init

/-- A thread that is in `pop` is nowhere else. -/
theorem Present.not_in_pop (h : Present N s) {st : Stage T} (hth : ⟨who, st⟩ ∈ s.threads)
    {task : Option T} : (who, task) ∉ s.queue.inPop := by
  intro hmem
  have hn := (Multiset.nodup_add.mp h.nodup).2.2
  exact Multiset.disjoint_left.mp hn (Multiset.mem_map_of_mem Thread.who hth)
    (Multiset.mem_map_of_mem Prod.fst hmem)

/-- And it does one thing. -/
theorem Present.stage_unique (h : Present N s) {st st' : Stage T} {rest : Multiset (Thread T)}
    (ht : s.threads = ⟨who, st⟩ ::ₘ rest) : ⟨who, st'⟩ ∉ rest := by
  intro hmem
  have hn := (Multiset.nodup_add.mp h.nodup).1
  rw [ht, Multiset.map_cons, Multiset.nodup_cons] at hn
  exact hn.1 (Multiset.mem_map.mpr ⟨_, hmem, rfl⟩)

/-! ## What a step moves -/

/-- The thread that a step is a step of, unless it is in `pop`. -/
def Event.mover : Event T → Multiset (Thread T)
  | .enter who => {⟨who, .starting⟩}
  | .check who task => {⟨who, .checking task⟩}
  | .quit who task => {⟨who, .checking task⟩}
  | .run who task => {⟨who, .taken task⟩}
  | .done who task => {⟨who, .executing task⟩}
  | .leave who task => {⟨who, .leaving task⟩}
  | .detach who _ => {⟨who, .detaching⟩}
  | .recheck who _ => {⟨who, .unparked⟩}
  | .notifyAll who => {⟨who, .releasing⟩}
  | _ => 0

/-- And where it is afterwards. -/
def Event.moved : Event T → Multiset (Thread T)
  | .attach j => {⟨.external j, .starting⟩}
  | .enter who => {⟨who, .checking none⟩}
  | .quit who task => {⟨who, .leaving task⟩}
  | .pop who _ next => {⟨who, .taken next⟩}
  | .fail who task => {⟨who, .leaving task⟩}
  | .run who task => {⟨who, .executing task⟩}
  | .done who task => {⟨who, .checking (some task)⟩}
  | .leave who _ => {⟨who, .detaching⟩}
  | .detach who waits => {⟨who, if waits then .parked else .releasing⟩}
  | .recheck who waits => {⟨who, if waits then .parked else .releasing⟩}
  | .notifyAll who => returned who
  | _ => 0

/-- What the threads have of something. -/
def State.held {α : Type*} (f : Thread T → Multiset α) (s : State T) : Multiset α :=
  s.threads.bind f

theorem bind_notifyAll {α : Type*} {f : Thread T → Multiset α}
    (hf : ∀ who, f ⟨who, .unparked⟩ = f ⟨who, .parked⟩) (m : Multiset (Thread T)) :
    (cv.notifyAll m).bind f = m.bind f := by
  rw [CondVar.notifyAll, Multiset.bind_map]
  refine Multiset.bind_congr fun p _ => ?_
  cases hp : cv.wake p with
  | none => rfl
  | some q =>
    obtain ⟨hp', hq⟩ := wake_eq hp
    rw [Option.getD_some, hq, hf, ← hp']

/-- **A step moves one thread**, whatever the wakeups. -/
theorem step_held {α : Type*} {f : Thread T → Multiset α}
    (hwake : ∀ who, f ⟨who, .unparked⟩ = f ⟨who, .parked⟩)
    (hlock : ∀ who t, f ⟨who, .relocking t⟩ = f ⟨who, .taken t⟩) (hst : Step posts s e s') :
    s.held f + e.moved.bind f = s'.held f + e.mover.bind f := by
  unfold State.held
  cases hst with
  | attach | pop | fail => simp [Event.moved, Event.mover, add_comm]
  | relock => simp [Event.moved, Event.mover, hlock, add_comm]
  | enter ht | check ht | quit ht | run ht | done ht | leave ht =>
    simp [ht, Event.moved, Event.mover, add_comm, add_left_comm, add_assoc]
  | detachLast ht | detach ht | park ht | release ht =>
    simp [ht, Event.moved, Event.mover, add_comm, add_left_comm, add_assoc]
  | unpark ht hw =>
    obtain ⟨hp, hq⟩ := wake_eq hw
    rw [ht, hp, hq]
    simp [Event.moved, Event.mover, hwake]
  | notifyAll ht =>
    rw [Multiset.add_bind, bind_notifyAll hwake, ht]
    simp [Event.moved, Event.mover, add_comm, add_left_comm, add_assoc]
  | block | rouse | post | close | wait | closeDestroying | drain | stop | destroy | joined
  | destroyed => rfl

/-- Who enters `pop`. -/
def Event.calls : Event T → Multiset (Who × Option T)
  | .check who task => {(who, task)}
  | _ => 0

/-- Who returns from it. -/
def Event.returns : Event T → Multiset (Who × Option T)
  | .pop who task _ => {(who, task)}
  | .fail who task => {(who, task)}
  | _ => 0

theorem step_inPop (hst : Step posts s e s') :
    e.returns + s'.queue.inPop = e.calls + s.queue.inPop := by
  cases hst with
  | check _ _ hq => simp [(Queue.inPop_call hq).1, Event.returns, Event.calls]
  | pop _ hq | relock _ hq => simp [(Queue.inPop_pop hq).1, Event.returns, Event.calls]
  | fail _ hq => simp [(Queue.inPop_fail hq).1, Event.returns, Event.calls]
  | block _ hq | rouse hq | post _ _ hq | close _ _ hq | wait _ _ hq | closeDestroying _ _ hq
  | drain _ _ hq => simp [Queue.inPop_stays hq rfl rfl, Event.returns, Event.calls]
  | _ => rfl

/-- What the threads and those in `pop` have of something. -/
def State.total {α : Type*} (f : Thread T → Multiset α) (g : Who × Option T → Multiset α)
    (s : State T) : Multiset α :=
  s.held f + s.queue.inPop.bind g

/-- An account of both, from what it says of each event. -/
theorem step_total {α : Type*} {f : Thread T → Multiset α} {g : Who × Option T → Multiset α}
    {gain loss : Multiset α} (hwake : ∀ who, f ⟨who, .unparked⟩ = f ⟨who, .parked⟩)
    (hlock : ∀ who t, f ⟨who, .relocking t⟩ = f ⟨who, .taken t⟩)
    (he : gain + (e.mover.bind f + e.returns.bind g) = loss + (e.moved.bind f + e.calls.bind g))
    (hst : Step posts s e s') : gain + s.total f g = loss + s'.total f g := by
  have hmove := step_held hwake hlock hst
  have hpop := congrArg (fun m => m.bind g) (step_inPop hst)
  simp only [Multiset.add_bind] at hpop
  refine add_right_cancel (b := e.moved.bind f + e.calls.bind g) ?_
  calc gain + s.total f g + (e.moved.bind f + e.calls.bind g)
      = gain + ((s.held f + e.moved.bind f) + (e.calls.bind g + s.queue.inPop.bind g)) := by
        unfold State.total
        ac_rfl
    _ = gain + (e.mover.bind f + e.returns.bind g) + s'.total f g := by
        rw [hmove, ← hpop, State.total]
        ac_rfl
    _ = loss + s'.total f g + (e.moved.bind f + e.calls.bind g) := by
        rw [he]
        ac_rfl

/-! ## Accounts -/

/-- Taken, and not yet started. -/
def Thread.pending (th : Thread T) : Multiset T :=
  match th.stage with
  | .taken task => {task}
  | .relocking task => {task}
  | _ => 0

/-- Started, and not yet completed. -/
def Thread.running (th : Thread T) : Multiset T :=
  match th.stage with
  | .executing task => {task}
  | _ => 0

/-- **A task that is taken** is started later. -/
theorem step_pending (hst : Step posts s e s') :
    (e.taken : Multiset T) + s.held Thread.pending = e.started + s'.held Thread.pending := by
  have hmove := step_held (f := Thread.pending) (fun _ => rfl) (fun _ _ => rfl) hst
  cases e with
  | pop | run => simpa [Event.moved, Event.mover, Thread.pending, Event.taken, Event.started,
      add_comm] using hmove
  | detach who waits | recheck who waits =>
    cases waits <;> simpa [Event.moved, Event.mover, Thread.pending, Event.taken,
      Event.started] using hmove
  | notifyAll who =>
    cases who <;> simpa [Event.moved, Event.mover, Thread.pending, Event.taken, Event.started,
      returned] using hmove
  | _ => simpa [Event.moved, Event.mover, Thread.pending, Event.taken, Event.started] using hmove

/-- **A task that is started** is completed later. -/
theorem step_running (hst : Step posts s e s') :
    (e.started : Multiset T) + s.held Thread.running = e.completed + s'.held Thread.running := by
  have hmove := step_held (f := Thread.running) (fun _ => rfl) (fun _ _ => rfl) hst
  cases e with
  | run | done => simpa [Event.moved, Event.mover, Thread.running, Event.completed, Event.started,
      add_comm] using hmove
  | detach who waits | recheck who waits =>
    cases waits <;> simpa [Event.moved, Event.mover, Thread.running, Event.completed,
      Event.started] using hmove
  | notifyAll who =>
    cases who <;> simpa [Event.moved, Event.mover, Thread.running, Event.completed, Event.started,
      returned] using hmove
  | _ => simpa [Event.moved, Event.mover, Thread.running, Event.completed, Event.started]
      using hmove

theorem accepted_onQueue (es : List (Event T)) :
    Queue.accepted (es.flatMap Event.onQueue) = (accepted es).map some := by
  induction es with
  | nil => rfl
  | cons e es ih =>
    rw [List.flatMap_cons]
    cases e <;> simp [Event.onQueue, accepted, Queue.accepted, Queue.Event.isClose, Event.closes,
      Queue.Event.pushed, Event.posted, ih]

theorem popped_onQueue (es : List (Event T)) :
    Queue.popped (es.flatMap Event.onQueue) = (taken es).map some := by
  induction es with
  | nil => rfl
  | cons e es ih =>
    rw [List.flatMap_cons, Queue.popped_append, ih]
    cases e <;> rfl

/-- **Where the accepted tasks are.** -/
structure Accounts (es : List (Event T)) (s : State T) : Prop where
  values : ∃ waiting, accepted es = taken es ++ waiting ∧ s.queue.queue = waiting.map some
  pending : (taken es : Multiset T) = started es + s.held Thread.pending
  running : (started es : Multiset T) = completed es + s.held Thread.running

theorem bind_of_zero {α : Type*} {f : Thread T → Multiset α} {m : Multiset (Thread T)}
    (h : ∀ th ∈ m, f th = 0) : m.bind f = 0 :=
  (Multiset.bind_congr h).trans (Multiset.bind_zero m)

theorem held_init {α : Type*} {f : Thread T → Multiset α} (hf : ∀ i, f ⟨.worker i, .starting⟩ = 0) :
    (init N : State T).held f = 0 := by
  simp [State.held, init, Multiset.bind_map, hf]

/-- What every step accounts for, a run does. -/
theorem run_account {α : Type*} {gain loss : Event T → List α} {w : State T → Multiset α}
    (hstep : ∀ s e s', Step posts s e s' →
      (gain e : Multiset α) + w s = (loss e : Multiset α) + w s')
    (hinit : w (init N) = 0) (hrun : Trace (Step posts) ok (init N) es s) :
    (es.flatMap gain : Multiset α) = (es.flatMap loss : Multiset α) + w s := by
  refine hrun.invariant
    (I := fun es s => (es.flatMap gain : Multiset α) = (es.flatMap loss : Multiset α) + w s) ?_ ?_
  · intro es s e s' ih _ hst
    rw [List.flatMap_append, List.flatMap_singleton, ← Multiset.coe_add, ih, add_assoc,
      add_comm (w s), hstep s e s' hst, List.flatMap_append, List.flatMap_singleton,
      ← Multiset.coe_add, add_assoc]
  · rw [hinit]
    rfl

theorem accounts (hrun : Trace (Step posts) ok (init N) es s) : Accounts es s := by
  have hfifo := (Queue.fifo (run_queue hrun)).values
  rw [accepted_onQueue, popped_onQueue] at hfifo
  refine ⟨?_, run_account (fun _ _ _ => step_pending) (held_init fun _ => rfl) hrun,
    run_account (fun _ _ _ => step_running) (held_init fun _ => rfl) hrun⟩
  obtain ⟨front, waiting, heq, hfront, hwaiting⟩ := List.map_eq_append_iff.mp hfifo
  refine ⟨waiting, ?_, hwaiting.symm⟩
  rw [heq, List.map_injective_iff.mpr (Option.some_injective T) hfront]

theorem Accounts.in_order (h : Accounts es s) : taken es <+: accepted es := by
  obtain ⟨waiting, heq, -⟩ := h.values
  exact ⟨waiting, heq.symm⟩

/-- Nothing is started that was not accepted, and nothing twice. -/
theorem Accounts.once (h : Accounts es s) : (started es).Subperm (accepted es) := by
  refine List.Subperm.trans ?_ h.in_order.sublist.subperm
  rw [← Multiset.coe_le, h.pending]
  exact Multiset.le_add_right _ _

/-! ## The order in which a thread starts its tasks -/

/-- The tasks that one thread takes. -/
def takenBy (who : Who) (es : List (Event T)) : List T :=
  taken (es.filter fun e => e.actor = some who)

/-- What one thread has taken, and not yet started. -/
def Thread.pendingOf (who : Who) (th : Thread T) : Multiset T :=
  if th.who = who then th.pending else 0

/-- A thread starts what it takes, in order. -/
def Ordered (who : Who) (es : List (Event T)) (s : State T) : Prop :=
  ∃ l : List T, takenBy who es = startedBy who es ++ l ∧
    (l : Multiset T) = s.held (Thread.pendingOf who)

theorem held_absent {rest : Multiset (Thread T)} (h : ∀ th ∈ rest, th.who ≠ who) :
    rest.bind (Thread.pendingOf who) = 0 :=
  bind_of_zero fun th hmem => if_neg (h th hmem)

theorem takenBy_append (who : Who) (es es' : List (Event T)) :
    takenBy who (es ++ es') = takenBy who es ++ takenBy who es' := by
  simp [takenBy, taken]

theorem startedBy_append (who : Who) (es es' : List (Event T)) :
    startedBy who (es ++ es') = startedBy who es ++ startedBy who es' := by
  simp [startedBy, started]

theorem takenBy_singleton (who : Who) (e : Event T) :
    takenBy who [e] = if e.actor = some who then e.taken else [] := by
  by_cases h : e.actor = some who <;> simp [takenBy, taken, h]

theorem startedBy_singleton (who : Who) (e : Event T) :
    startedBy who [e] = if e.actor = some who then e.started else [] := by
  by_cases h : e.actor = some who <;> simp [startedBy, started, h]

theorem Ordered.step (h : Ordered who es s) (hp : Present N s) (hst : Step posts s e s') :
    Ordered who (es ++ [e]) s' := by
  obtain ⟨l, htaken, hl⟩ := h
  have hmove := step_held (f := Thread.pendingOf who) (by simp [Thread.pendingOf, Thread.pending])
    (by simp [Thread.pendingOf, Thread.pending]) hst
  rw [← hl] at hmove
  have hother : e.actor ≠ some who → e.moved.bind (Thread.pendingOf who) = 0 →
      e.mover.bind (Thread.pendingOf who) = 0 → Ordered who (es ++ [e]) s' := by
    intro ha hmoved hmover
    rw [hmoved, hmover, add_zero, add_zero] at hmove
    refine ⟨l, ?_, hmove⟩
    rw [takenBy_append, startedBy_append, takenBy_singleton, startedBy_singleton, if_neg ha,
      if_neg ha, htaken]
    simp
  have hpop : ∀ {task : Option T} {next : T}, e = .pop who task next →
      (who, task) ∈ s.queue.inPop → Ordered who (es ++ [e]) s' := by
    rintro task next rfl hmem
    have hzero : s.held (Thread.pendingOf who) = 0 := by
      refine held_absent fun th hth heq => ?_
      subst heq
      exact hp.not_in_pop hth hmem
    have hnil : l = [] := (Multiset.coe_eq_zero l).mp (hl.trans hzero)
    subst hnil
    refine ⟨[next], by simp [takenBy_append, startedBy_append, takenBy_singleton,
      startedBy_singleton, htaken, Event.actor, Event.taken,
      Event.started], ?_⟩
    simpa [Event.moved, Event.mover, Thread.pendingOf, Thread.pending] using hmove
  cases hst with
  | @pop w task next _ _ hq | @relock w task next _ _ hq =>
    have hmem := (Queue.inPop_pop hq).1
    by_cases hw : w = who
    · subst hw
      exact hpop rfl (by rw [hmem]; exact Multiset.mem_cons_self _ _)
    · exact hother (by simpa [Event.actor] using hw)
        (by simp [Event.moved, Thread.pendingOf, hw]) rfl
  | @run w task rest ht =>
    by_cases hw : w = who
    · subst hw
      have hone : s.held (Thread.pendingOf w) = {task} := by
        rw [State.held, ht, Multiset.cons_bind, held_absent]
        · simp [Thread.pendingOf, Thread.pending]
        · rintro ⟨w', st⟩ hmem rfl
          exact hp.stage_unique ht hmem
      have hsingle : l = [task] := Multiset.coe_eq_singleton.mp (hl.trans hone)
      subst hsingle
      refine ⟨[], by simp [takenBy_append, startedBy_append, takenBy_singleton,
      startedBy_singleton, htaken, Event.actor, Event.taken,
        Event.started], Eq.symm ?_⟩
      simpa [Event.moved, Event.mover, Thread.pendingOf, Thread.pending] using hmove
    · exact hother (by simpa [Event.actor] using hw)
        (by simp [Event.moved, Thread.pendingOf, hw]) (by simp [Event.mover, Thread.pendingOf, hw])
  | @notifyAll w =>
    refine hother (by simp [Event.actor]) ?_
      (by simp [Event.mover, Thread.pendingOf, Thread.pending])
    cases w <;> simp [Event.moved, returned, Thread.pendingOf, Thread.pending]
  | _ =>
    refine hother (by simp [Event.actor]) ?_ ?_ <;>
      simp [Event.moved, Event.mover, Thread.pendingOf, Thread.pending]

/-- **A thread starts its tasks in the order in which they were posted.** -/
theorem startedBy_sublist (hrun : Trace (Step posts) ok (init N) es s) (who : Who) :
    (startedBy who es).Sublist (accepted es) := by
  have hboth : Present N s ∧ Ordered who es s := by
    refine hrun.invariant (I := fun es s => Present N s ∧ Ordered who es s) ?_
      ⟨present_init, [], rfl, ?_⟩
    · rintro es s e s' ⟨hp, ho⟩ - hst
      exact ⟨hp.step hst, ho.step hp hst⟩
    · exact (held_init fun i => by simp [Thread.pendingOf, Thread.pending]).symm
  obtain ⟨l, hl, -⟩ := hboth.2
  have htaken : (takenBy who es).Sublist (taken es) := List.Sublist.flatMap List.filter_sublist _
  refine List.Sublist.trans ?_ (htaken.trans (accounts hrun).in_order.sublist)
  rw [hl]
  exact List.sublist_append_left _ _

/-- What only one thread starts. -/
theorem started_of_sole (hsole : ∀ w task, .run w task ∈ es → w = who) :
    started es = startedBy who es := by
  unfold startedBy started
  induction es with
  | nil => rfl
  | cons e es ih =>
    have htail := ih fun w task hmem => hsole w task (List.mem_cons_of_mem _ hmem)
    by_cases he : e.actor = some who
    · rw [List.filter_cons_of_pos (by simpa using he), List.flatMap_cons, List.flatMap_cons, htail]
    · rw [List.filter_cons_of_neg (by simpa using he), List.flatMap_cons, htail]
      cases e with
      | run w task => exact absurd (congrArg some (hsole w task List.mem_cons_self)) he
      | _ => rfl

end Pool

end PortableConcurrency
