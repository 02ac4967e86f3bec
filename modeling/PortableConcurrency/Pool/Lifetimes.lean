import PortableConcurrency.Pool.Drain

/-!
# The lives of function objects

A function object is in the queue, with a thread that has taken it, or
with one that has executed it and not yet destroyed it. A `post` that
comes too late destroys it in its parameter, and `~closable_queue`
destroys what nobody has taken. So it is called and then destroyed by one
thread, or destroyed without having been called.
-/

namespace PortableConcurrency

namespace Pool

variable {T : Type*} {posts : Object T → Bool} {s s' : State T} {e : Event T} {es es' : List (Event T)}
variable {who : Who} {N : ℕ} {t : T} {ok : State T → Event T → Prop}

/-- **How a pool is stopped**: no thread from outside attaches itself, and
the destructors of what is executed do not use the pool. -/
structure Stopping (posts : Object T → Bool) (s : State T) (e : Event T) : Prop where
  attach : ∀ j, e ≠ .attach j
  harmless : Harmless posts s e

/-! ## When the members are destroyed -/

/-- There are only the threads of the pool. -/
def Own (s : State T) : Prop := ∀ who ∈ s.present, who.isWorker = true

theorem own_init : Own (init N : State T) := by
  intro who hmem
  have hmem : who ∈ (init N : State T).threads.map Thread.who + 0 := hmem
  simp [init] at hmem
  obtain ⟨i, -, rfl⟩ := hmem
  rfl

theorem Own.step (h : Own s) (hok : Stopping posts s e) (hst : Step posts s e s') : Own s' := by
  intro who hmem
  have hp := step_present hst
  have hcomes : e.comes = 0 := by
    cases e with
    | attach j => exact absurd rfl (hok.attach j)
    | _ => rfl
  rw [hcomes, zero_add] at hp
  exact h who (by rw [← hp]; exact Multiset.mem_add.mpr (.inr hmem))

/-- Past `wait()` in `~static_thread_pool`. -/
def Owner.over : Owner → Bool
  | .destroying => true
  | .destroyed => true
  | _ => false

/-- **Then nobody is left.** -/
structure Over (s : State T) : Prop where
  finished : ∀ th ∈ s.threads, th.stage = .finished
  nobody : s.queue.inPop = 0

/-- No thread takes a step any more. -/
theorem Over.not_mover {th : Thread T} {rest : Multiset (Thread T)} (h : Over s)
    (ht : s.threads = th ::ₘ rest) (hne : th.stage ≠ .finished) : False :=
  hne (h.finished th (by rw [ht]; exact Multiset.mem_cons_self _ _))

theorem Over.step (h : Over s) (hok : Stopping posts s e) (hst : Step posts s e s') : Over s' := by
  cases hst with
  | attach => exact absurd rfl (hok.attach _)
  | enter ht | check ht | quit ht | run ht | done ht | leave ht | detachLast ht | detach ht
  | park ht | release ht | notifyAll ht => exact (h.not_mover ht (by simp)).elim
  | unpark ht hw =>
    obtain ⟨hp, -⟩ := wake_eq hw
    rw [hp] at ht
    exact (h.not_mover ht (by simp)).elim
  | pop _ hq | relock _ hq =>
    have hin := (Queue.inPop_pop hq).1
    rw [h.nobody] at hin
    exact absurd hin.symm Multiset.cons_ne_zero
  | fail _ hq =>
    have hin := (Queue.inPop_fail hq).1
    rw [h.nobody] at hin
    exact absurd hin.symm Multiset.cons_ne_zero
  | block _ hq | rouse hq | post _ _ hq | close _ _ hq | wait _ _ hq | closeDestroying _ _ hq
  | drain _ _ hq => exact ⟨h.finished, (Queue.inPop_stays hq rfl rfl).trans h.nobody⟩
  | stop | destroy | joined | destroyed => exact ⟨h.finished, h.nobody⟩

/-- `wait()` has returned when every thread of the pool has ended. -/
theorem Own.over (h : Own s) (hst : Step posts s .joined s') : Over s' := by
  cases hst with
  | joined howner hended hpop =>
    refine ⟨fun th hmem => hended th hmem ?_, ?_⟩
    · exact h th.who (mem_present.mpr (.inl ⟨th.stage, hmem⟩))
    · refine Multiset.map_eq_zero.mpr (Multiset.eq_zero_of_forall_notMem fun p hmem => ?_)
      have hworker := h p.who (mem_present.mpr (.inr ⟨p, hmem, rfl⟩))
      rw [hpop p hmem] at hworker
      cases hworker

theorem over_run (hrun : Runs (Step posts) (Stopping posts) (init N) s)
    (howner : s.owner.over = true) : Over s := by
  have hall : Own s ∧ (s.owner.over = true → Over s) := by
    refine hrun.invariant (I := fun s => Own s ∧ (s.owner.over = true → Over s)) ?_
      ⟨own_init, by simp [init, Owner.over]⟩
    rintro s e s' ⟨hown, ih⟩ hok hst
    refine ⟨hown.step hok hst, fun hover => ?_⟩
    by_cases hbefore : s.owner.over = true
    · exact (ih hbefore).step hok hst
    · have hjoined : e = .joined := by
        cases hst with
        | joined => rfl
        | wait | destroy | closeDestroying | drain => cases hover
        | destroyed hd => exact absurd (by rw [hd]; rfl) hbefore
        | _ => exact absurd hover hbefore
      subst hjoined
      exact hown.over hst
  exact hall.2 howner

/-! ## Accounts of function objects -/

/-- The function objects in the queue, until it is destroyed. -/
def State.queued (s : State T) : Multiset T :=
  if s.owner = .destroyed then 0 else (s.queue.queue.filterMap id : List T)

/-- What a post puts into the queue. -/
def Event.accepts : Event T → List T
  | .post task true => [task]
  | _ => []

/-- What a post that comes too late destroys. -/
def Event.refuses : Event T → List T
  | .post task false => [task]
  | _ => []

/-- What `~closable_queue` destroys. -/
def Event.flushes : Event T → List T
  | .destroyed tasks => tasks.filterMap id
  | _ => []

/-- The function objects that a step destroys. -/
def Event.destroys (e : Event T) : List T := e.drops.toList ++ e.refuses ++ e.flushes

/-- A step away from the queue's values. -/
theorem queued_eq (hq : s'.queue.queue = s.queue.queue)
    (ho : s'.owner = .destroyed ↔ s.owner = .destroyed) : s'.queued = s.queued := by
  unfold State.queued
  rw [hq]
  by_cases h : s.owner = .destroyed
  · rw [if_pos h, if_pos (ho.mpr h)]
  · rw [if_neg h, if_neg (mt ho.mp h)]

/-- **A function object is in the queue** until a thread takes it, or the
queue is destroyed. -/
theorem step_queued (hover : s.owner.over = true → Over s) (hst : Step posts s e s') :
    (e.accepts : Multiset T) + s.queued = e.taken + e.flushes + s'.queued := by
  have hsame : e.accepts = [] → e.taken = [] → e.flushes = [] → s'.queued = s.queued →
      (e.accepts : Multiset T) + s.queued = e.taken + e.flushes + s'.queued := by
    intro ha ht hf hq
    rw [ha, ht, hf, hq]
    simp
  cases hst with
  | check _ _ hq => exact hsame rfl rfl rfl (queued_eq (Queue.queue_stays hq rfl rfl) Iff.rfl)
  | block _ hq | rouse hq =>
    exact hsame rfl rfl rfl (queued_eq (Queue.queue_stays hq rfl rfl) Iff.rfl)
  | fail _ hq => exact hsame rfl rfl rfl (queued_eq (Queue.queue_stays hq rfl rfl) Iff.rfl)
  | close _ _ hq => exact hsame rfl rfl rfl (queued_eq (Queue.queue_stays hq rfl rfl) Iff.rfl)
  | wait _ ho hq | closeDestroying _ ho hq | drain _ ho hq =>
    exact hsame rfl rfl rfl (queued_eq (Queue.queue_stays hq rfl rfl) (by simp [ho]))
  | destroy ho => exact hsame rfl rfl rfl (queued_eq rfl (by simp [ho]))
  | @joined destroys ho =>
    exact hsame rfl rfl rfl (queued_eq rfl (by cases destroys <;> simp [ho]))
  | pop _ hq | relock _ hq =>
    obtain ⟨hin, hqueue, -⟩ := Queue.inPop_pop hq
    have hne : s.owner ≠ .destroyed := fun h => by
      rw [(hover (by rw [h]; rfl)).nobody] at hin
      exact absurd hin.symm Multiset.cons_ne_zero
    simp [State.queued, hne, hqueue, Event.accepts, Event.taken, Event.flushes]
  | post _ halive hq =>
    have hqueue := Queue.step_queue hq
    cases hclosed : s.queue.closed with
    | true =>
      rw [hclosed] at hqueue
      simp [State.queued, halive, Event.accepts, Event.taken, Event.flushes,
        Queue.Event.popped] at hqueue ⊢
      rw [hqueue]
    | false =>
      rw [hclosed] at hqueue
      simp [State.queued, halive, Event.accepts, Event.taken, Event.flushes,
        Queue.Event.popped, Queue.accepted, Queue.Event.isClose, Queue.Event.pushed] at hqueue ⊢
      rw [← hqueue, List.filterMap_append]
      exact (List.perm_append_singleton _ _).symm
  | destroyed ho =>
    simp [State.queued, ho, Event.accepts, Event.taken, Event.flushes]
  | _ => exact hsame rfl rfl rfl (queued_eq rfl Iff.rfl)

/-- Three accounts, each of which hands on to the next. -/
theorem balance {a r q p x k g d f q' p' x' : Multiset T} (h₁ : a + q = k + f + q')
    (h₂ : k + p = g + p') (h₃ : g + x = d + x') :
    a + r + (q + p + x) = d + r + f + (q' + p' + x') := by
  refine add_left_cancel (a := k + g) ?_
  calc k + g + (a + r + (q + p + x)) = (a + q) + (k + p) + (g + x) + r := by ac_rfl
    _ = (k + f + q') + (g + p') + (d + x') + r := by rw [h₁, h₂, h₃]
    _ = k + g + (d + r + f + (q' + p' + x')) := by ac_rfl

/-- The function objects there are. -/
def State.objects (s : State T) : Multiset T :=
  s.queued + s.held Thread.pending + s.executed fun task => (task.toList : Multiset T)

/-- **A function object is destroyed once**, or is there still. -/
theorem step_objects (hover : s.owner.over = true → Over s) (hst : Step posts s e s') :
    (e.posted : Multiset T) + s.objects = e.destroys + s'.objects := by
  have hq := step_queued hover hst
  have hp := step_pending hst
  have hx := step_executed (g := fun task => (task.toList : Multiset T)) rfl hst
  have hposted : (e.posted : Multiset T) = e.accepts + e.refuses := by
    cases e with
    | post task accepted => cases accepted <;> rfl
    | _ => rfl
  have hruns : (e.runs.toList : Multiset T) = e.started := by
    cases e <;> rfl
  simp only [hruns] at hx
  rw [hposted, Event.destroys, ← Multiset.coe_add, ← Multiset.coe_add]
  unfold State.objects
  exact balance hq hp hx

theorem running_le_executed (s : State T) :
    s.held Thread.running ≤ s.executed fun task => (task.toList : Multiset T) := by
  refine le_trans ?_ (Multiset.le_add_right _ _)
  unfold State.held
  induction s.threads using Multiset.induction_on with
  | empty => exact le_rfl
  | cons th m ih =>
    rw [Multiset.cons_bind, Multiset.cons_bind]
    refine add_le_add ?_ ih
    obtain ⟨w, stage⟩ := th
    cases stage <;> simp [Thread.running, Thread.executed]

/-- The tasks posted. -/
def posted (es : List (Event T)) : List T := es.flatMap Event.posted

/-- The function objects destroyed. -/
def destroyed (es : List (Event T)) : List T := es.flatMap Event.destroys

theorem objects_init : (init N : State T).objects = 0 := by
  have hpending := held_init (N := N) (T := T) (f := Thread.pending) fun _ => rfl
  have hexecuted := held_init (N := N) (T := T)
    (f := fun th => (th.executed.toList : Multiset T)) fun _ => rfl
  rw [State.objects, State.executed, State.total, hpending, hexecuted]
  rfl

/-- What was posted has been destroyed, or is there. -/
theorem posted_account (hrun : Trace (Step posts) (Stopping posts) (init N) es s) :
    (posted es : Multiset T) = destroyed es + s.objects := by
  have hall : Runs (Step posts) (Stopping posts) (init N) s ∧
      (posted es : Multiset T) = destroyed es + s.objects := by
    refine hrun.invariant (I := fun es s => Runs (Step posts) (Stopping posts) (init N) s ∧
      (posted es : Multiset T) = (destroyed es : Multiset T) + s.objects) ?_
      ⟨.refl _, by rw [objects_init]; rfl⟩
    rintro es s e s' ⟨hr, ih⟩ hok hst
    refine ⟨hr.tail hok hst, ?_⟩
    rw [posted, List.flatMap_append, List.flatMap_singleton, ← Multiset.coe_add, ← posted, ih,
      add_assoc, add_comm s.objects, step_objects (over_run hr) hst, destroyed, destroyed,
      List.flatMap_append, List.flatMap_singleton, ← Multiset.coe_add, add_assoc]
  exact hall.2

/-- When the members have been destroyed, there is nothing left. -/
theorem objects_of_destroyed (hover : Over s) (howner : s.owner = .destroyed) : s.objects = 0 := by
  have hpending : s.held Thread.pending = 0 := bind_of_zero fun th hmem => by
    rw [Thread.pending, hover.finished th hmem]
  have hexecuted : s.held (fun th => (th.executed.toList : Multiset T)) = 0 :=
    bind_of_zero fun th hmem => by
      rw [Thread.executed, hover.finished th hmem]
      rfl
  rw [State.objects, State.executed, State.total, hpending, hexecuted, State.queued, if_pos howner,
    hover.nobody]
  rfl

/-- **Every function object is destroyed once.** -/
theorem destroyed_perm (hrun : Trace (Step posts) (Stopping posts) (init N) es s)
    (howner : s.owner = .destroyed) : (destroyed es).Perm (posted es) := by
  have hover := over_run hrun.runs (by rw [howner]; rfl)
  rw [← Multiset.coe_eq_coe, posted_account hrun, objects_of_destroyed hover howner, add_zero]

/-! ## Lives -/

/-- What happens to a function object. -/
inductive Mark
  | run
  | done
  | destroyed
  deriving DecidableEq, Repr

section Life

variable [DecidableEq T]

/-- What an event does with the function object `t`. -/
def Event.marks (t : T) (e : Event T) : List Mark :=
  List.replicate (e.started.count t) .run ++ List.replicate (e.completed.count t) .done ++
    List.replicate (e.destroys.count t) .destroyed

/-- The life of `t`. -/
def life (t : T) (es : List (Event T)) : List Mark := es.flatMap (Event.marks t)

theorem mem_life : .run ∈ life t es ↔ t ∈ started es := by
  simp only [life, started, List.mem_flatMap]
  refine exists_congr fun e => and_congr_right fun _ => ?_
  simp [Event.marks, List.mem_replicate, List.count_eq_zero]

/-- How much of `t` is executed, has been executed, or is there. -/
structure Counts where
  running : ℕ
  executed : ℕ
  objects : ℕ

def State.counts (t : T) (s : State T) : Counts where
  running := (s.held Thread.running).count t
  executed := (s.executed fun task => (task.toList : Multiset T)).count t
  objects := s.objects.count t

/-- **Where a life is**, of what was posted `n` times. -/
inductive Phase (n : ℕ) : List Mark → Counts → Prop
  | waiting {r x o : ℕ} (hx : x = 0) (ho : o = n) : Phase n [] ⟨r, x, o⟩
  | running {r x o : ℕ} (hr : r = 1) (hx : x = 1) (ho : o = 1) (hn : n = 1) :
      Phase n [.run] ⟨r, x, o⟩
  | done {r x o : ℕ} (hr : r = 0) (hx : x = 1) (ho : o = 1) (hn : n = 1) :
      Phase n [.run, .done] ⟨r, x, o⟩
  | executed {r x o : ℕ} (ho : o = 0) (hn : n = 1) : Phase n [.run, .done, .destroyed] ⟨r, x, o⟩
  | abandoned {r x o : ℕ} (ho : o = 0) (hn : n = 1) : Phase n [.destroyed] ⟨r, x, o⟩

/-- An event does one of these things. -/
theorem marks_one (t : T) (e : Event T) :
    (e.started.count t = 0 ∨ e.completed.count t = 0 ∧ e.destroys.count t = 0) ∧
      (e.completed.count t = 0 ∨ e.destroys.count t = 0) := by
  cases e <;> simp [Event.started, Event.completed, Event.destroys, Event.drops, Event.refuses,
    Event.flushes]

/-- **A life goes from phase to phase**, by the counts of a step. -/
theorem Phase.next {n r x o r' x' o' a b d p dropped : ℕ} {l : List Mark}
    (h : Phase n l ⟨r, x, o⟩) (hn : n + p ≤ 1) (hone : (a = 0 ∨ b = 0 ∧ d = 0) ∧ (b = 0 ∨ d = 0))
    (hobjects : p + o = d + o') (hrunning : a + r = b + r') (hexecuted : a + x = dropped + x')
    (hdropped : dropped ≤ d) (hstart : a + x ≤ p + o) (hr : r ≤ x) (hx : x ≤ o) (hr' : r' ≤ x')
    (hx' : x' ≤ o') :
    Phase (n + p) (l ++ (List.replicate a .run ++ List.replicate b .done ++
      List.replicate d .destroyed)) ⟨r', x', o'⟩ := by
  cases h with
  | waiting hx₀ ho =>
    have hb : b = 0 := by omega
    subst hb
    by_cases ha : a = 0
    · subst ha
      by_cases hd : d = 0
      · subst hd
        exact .waiting (by omega) (by omega)
      · have hd : d = 1 := by omega
        subst hd
        exact .abandoned (by omega) (by omega)
    · have ha : a = 1 := by omega
      have hd : d = 0 := by omega
      subst ha hd
      exact .running (by omega) (by omega) (by omega) (by omega)
  | running hr₀ hx₀ ho hn₀ =>
    have ha : a = 0 := by omega
    have hd : d = 0 := by omega
    subst ha hd
    by_cases hb : b = 0
    · subst hb
      exact .running (by omega) (by omega) (by omega) (by omega)
    · have hb : b = 1 := by omega
      subst hb
      exact .done (by omega) (by omega) (by omega) (by omega)
  | done hr₀ hx₀ ho hn₀ =>
    have ha : a = 0 := by omega
    have hb : b = 0 := by omega
    subst ha hb
    by_cases hd : d = 0
    · subst hd
      exact .done (by omega) (by omega) (by omega) (by omega)
    · have hd : d = 1 := by omega
      subst hd
      exact .executed (by omega) (by omega)
  | executed ho hn₀ | abandoned ho hn₀ =>
    -- it is gone
    have ha : a = 0 := by omega
    have hb : b = 0 := by omega
    have hd : d = 0 := by omega
    subst ha hb hd
    first
      | exact .executed (by omega) (by omega)
      | exact .abandoned (by omega) (by omega)

theorem Phase.step {n : ℕ} {l : List Mark} (h : Phase n l (s.counts t))
    (hn : n + e.posted.count t ≤ 1) (hover : s.owner.over = true → Over s)
    (hst : Step posts s e s') : Phase (n + e.posted.count t) (l ++ e.marks t) (s'.counts t) := by
  have hobjects := congrArg (Multiset.count t) (step_objects hover hst)
  have hqueued := congrArg (Multiset.count t) (step_queued hover hst)
  have hpending := congrArg (Multiset.count t) (step_pending hst)
  have hrunning := congrArg (Multiset.count t) (step_running hst)
  have hexecuted := congrArg (Multiset.count t)
    (step_executed (g := fun task => (task.toList : Multiset T)) rfl hst)
  have hruns : e.runs.toList = e.started := by cases e <;> rfl
  simp only [Multiset.count_add, Multiset.coe_count] at hobjects hqueued hpending hrunning
  simp only [Multiset.count_add, Multiset.coe_count, hruns] at hexecuted
  have hposted : e.accepts.count t ≤ e.posted.count t := by
    cases e with
    | post task accepted => cases accepted <;> simp [Event.accepts, Event.posted]
    | _ => exact le_rfl
  have hdropped : e.drops.toList.count t ≤ e.destroys.count t := by
    rw [Event.destroys, List.count_append, List.count_append]
    omega
  have hsum : ∀ s : State T, s.objects.count t = s.queued.count t +
      (s.held Thread.pending).count t +
        (s.executed fun task => (task.toList : Multiset T)).count t := by
    intro s
    rw [State.objects, Multiset.count_add, Multiset.count_add]
  have hle := fun s : State T => Multiset.count_le_of_le t (running_le_executed s)
  have h₀ := hsum s
  have h₁ := hsum s'
  exact h.next hn (marks_one t e) hobjects hrunning hexecuted hdropped (by omega) (hle s)
    (by omega) (hle s') (by omega)

theorem life_append (es : List (Event T)) (e : Event T) :
    life t (es ++ [e]) = life t es ++ e.marks t := by
  simp [life]

theorem posted_append (es : List (Event T)) (e : Event T) :
    (posted (es ++ [e])).count t = (posted es).count t + e.posted.count t := by
  simp [posted]

/-- **The life of what was posted once.** -/
theorem phase_run (hrun : Trace (Step posts) (Stopping posts) (init N) es s)
    (honce : (posted es).count t ≤ 1) : Phase ((posted es).count t) (life t es) (s.counts t) := by
  have hall : Runs (Step posts) (Stopping posts) (init N) s ∧ ((posted es).count t ≤ 1 →
      Phase ((posted es).count t) (life t es) (s.counts t)) := by
    refine hrun.invariant (I := fun es s => Runs (Step posts) (Stopping posts) (init N) s ∧
      ((posted es).count t ≤ 1 → Phase ((posted es).count t) (life t es) (s.counts t))) ?_
      ⟨.refl _, fun _ => ?_⟩
    · rintro es s e s' ⟨hr, ih⟩ hok hst
      refine ⟨hr.tail hok hst, fun hle => ?_⟩
      rw [posted_append] at hle ⊢
      rw [life_append]
      exact (ih (by omega)).step hle (over_run hr) hst
    · have hzero : (init N : State T).objects.count t = 0 := by simp [objects_init]
      have hexecuted := Multiset.count_le_of_le t (Multiset.le_add_left
        ((init N : State T).executed fun task => (task.toList : Multiset T))
        ((init N : State T).queued + (init N : State T).held Thread.pending))
      exact .waiting (Nat.le_zero.mp (hexecuted.trans_eq hzero)) hzero
  exact hall.2 honce

/-- **In the end it has been executed or not, and destroyed once.** -/
theorem life_of_destroyed (hrun : Trace (Step posts) (Stopping posts) (init N) es s)
    (howner : s.owner = .destroyed) (honce : (posted es).count t = 1) :
    life t es = [.run, .done, .destroyed] ∨ life t es = [.destroyed] := by
  have hphase := phase_run hrun (le_of_eq honce)
  have hover := over_run hrun.runs (by rw [howner]; rfl)
  have hzero : s.objects.count t = 0 := by simp [objects_of_destroyed hover howner]
  rw [honce] at hphase
  unfold State.counts at hphase
  rw [hzero] at hphase
  generalize life t es = l at hphase
  cases hphase with
  | waiting _ ho | running _ _ ho | done _ _ ho => omega
  | executed => exact .inl rfl
  | abandoned => exact .inr rfl

end Life

end Pool

end PortableConcurrency
