import Mathlib.Data.Multiset.OrderedMonoid
import PortableConcurrency.Pool.Schedule
import PortableConcurrency.Pool.Tasks

/-!
# Where the function objects of executed tasks are destroyed

A thread that has executed a task still has it in its local `task` when it
asks for the next one. There it is kept for as long as the thread waits,
and destroyed with the mutex of the queue locked, as is what moving leaves
of the two.
-/

namespace PortableConcurrency

namespace Pool

variable {T α : Type*} {posts : Object T → Bool} {s s' : State T} {e : Event T} {es : List (Event T)}
variable {who : Who} {N : ℕ} {t : T} {ok : State T → Event T → Prop} {g : Option T → Multiset α}

/-- The executed task that the local `task` of a thread holds. -/
def Thread.executed (th : Thread T) : Option T :=
  match th.stage with
  | .checking task => task
  | .executing task => some task
  | .leaving task => task
  | _ => none

/-- The task whose call begins. -/
def Event.runs : Event T → Option T
  | .run _ task => some task
  | _ => none

/-- The executed task whose function object a thread destroys. -/
def Event.drops : Event T → Option T
  | .pop _ task _ => task
  | .leave _ task => task
  | _ => none

/-- The executed tasks that are not destroyed yet, weighed by `g`. -/
def State.executed (g : Option T → Multiset α) (s : State T) : Multiset α :=
  s.total (fun th => g th.executed) fun pair => g pair.2

/-- **An executed task is there until its thread destroys it.** -/
theorem step_executed (hg : g none = 0) (hst : Step posts s e s') :
    g e.runs + s.executed g = g e.drops + s'.executed g := by
  refine step_total (fun _ => rfl) (fun _ _ => rfl) ?_ hst
  cases e with
  | detach who waits | recheck who waits =>
    cases waits <;> simp [Event.runs, Event.drops, Event.mover, Event.moved, Event.calls,
      Event.returns, Thread.executed, hg]
  | notifyAll who =>
    cases who <;> simp [Event.runs, Event.drops, Event.mover, Event.moved, Event.calls,
      Event.returns, Thread.executed, returned, hg]
  | _ =>
    simp [Event.runs, Event.drops, Event.mover, Event.moved, Event.calls, Event.returns,
      Thread.executed, hg]

/-! ## Destructors that do not use the pool -/

/-- No task is executed whose function object posts when destroyed, and
what moving leaves of a task does not either. -/
structure Harmless (posts : Object T → Bool) (_ : State T) (e : Event T) : Prop where
  executed : ∀ task, e.runs = some task → posts (.whole task) = false ∧ posts (.moved task) = false
  taken : ∀ task ∈ e.taken, posts (.moved task) = false

/-- Where no destructor posts. -/
theorem Harmless.of_never (hposts : ∀ o, posts o = false) (s : State T) (e : Event T) :
    Harmless posts s e :=
  ⟨fun _ _ => ⟨hposts _, hposts _⟩, fun _ _ => hposts _⟩

/-- An executed task whose function object posts when destroyed. -/
def postingTask (posts : Object T → Bool) : Option T → Multiset T
  | some task => if posts (.whole task) || posts (.moved task) then {task} else 0
  | none => 0

/-- Then it is neither of the two, and they are all that `pop` destroys
besides what is left of the next task. -/
theorem quiet_of_postingTask {task : Option T} {next : T} (h : postingTask posts task = 0)
    (hnext : posts (.moved next) = false) : ∀ o ∈ destroyedBy task next, posts o = false := by
  cases task with
  | none => simpa [destroyedBy] using hnext
  | some old => simp_all [destroyedBy, postingTask]

/-- Then nobody ever locks the queue's mutex twice. -/
structure Clean (posts : Object T → Bool) (s : State T) : Prop where
  free : s.relocked = false
  none_posts : s.executed (postingTask posts) = 0

theorem Clean.step (h : Clean posts s) (hok : Harmless posts s e) (hst : Step posts s e s') :
    Clean posts s' := by
  have hstep := step_executed (g := postingTask posts) rfl hst
  have hruns : postingTask posts e.runs = 0 := by
    cases hr : e.runs with
    | none => rfl
    | some task => simp [postingTask, hok.executed task hr]
  rw [hruns, h.none_posts, zero_add] at hstep
  obtain ⟨hdrops, hrest⟩ := add_eq_zero.mp hstep.symm
  refine ⟨?_, hrest⟩
  cases hst with
  | relock _ _ hpost =>
    obtain ⟨o, hmem, ho⟩ := hpost
    have hnext := hok.taken _ (List.mem_singleton.mpr rfl)
    rw [quiet_of_postingTask hdrops hnext o hmem] at ho
    cases ho
  | _ => exact h.free

theorem clean_init : Clean posts (init N) := by
  refine ⟨rfl, ?_⟩
  have hheld := held_init (N := N) (T := T) (f := fun th => postingTask posts th.executed)
    fun _ => rfl
  rw [State.executed, State.total, hheld]
  rfl

theorem clean_run (hrun : Runs (Step posts) (Harmless posts) (init N) s) : Clean posts s := by
  refine hrun.invariant (I := Clean posts) ?_ clean_init
  intro s e s' h hok hst
  exact h.step hok hst

/-! ## Any destructors -/

/-- **No destructor of a function object runs under the queue's lock and
uses the pool, and none of a task is put off while its thread waits.** -/
structure Safe (s : State T) : Prop where
  /-- nobody locks the queue's mutex while holding it -/
  free : s.relocked = false
  /-- who is blocked in `pop` has destroyed what it executed -/
  destroyed : ∀ who task, .blocked who (some task) ∉ s.queue.consumers

/-- **When the function objects are in nobody's way**: a thread takes the
next task only when nothing that the swap destroys posts, neither the last
task, if there was one, nor what moving leaves of the two, and finds the
queue non-empty or closed whenever it comes back to `pop` with one. -/
structure InTime (posts : Object T → Bool) (s : State T) (e : Event T) : Prop where
  pop : ∀ who task next, e = .pop who task next → ∀ o ∈ destroyedBy task next, posts o = false
  block : ∀ who task, e = .block who (some task) → s.queue.queue ≠ [] ∨ s.queue.closed = true

end Pool

end PortableConcurrency
