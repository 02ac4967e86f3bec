import PortableConcurrency.Pool.Model

/-!
# Schedules

An event names the thread that takes the step and what it finds, so a list
of events can be run from a state. The one choice that an event leaves open
is whom `notify_one` wakes: a schedule posts while nobody waits.
-/

namespace PortableConcurrency

namespace Queue

variable {V ι : Type*} [DecidableEq V] [DecidableEq ι] {s s' : State V ι} {e : Event V ι}

/-- The consumer `who`, if it is about to lock the mutex. -/
def State.running (s : State V ι) (who : ι) (dest : V) : Option (Pc V ι) :=
  if .popping who dest ∈ s.consumers then some (.popping who dest)
  else if .woken who dest ∈ s.consumers then some (.woken who dest)
  else none

/-- The step that an event stands for. -/
def State.fire (s : State V ι) : Event V ι → Option (State V ι)
  | .call who dest => some { s with consumers := .popping who dest ::ₘ s.consumers }
  | .push val =>
    if s.closed then some s
    else if ∀ p ∈ s.consumers, cv.wake p = none then some { s with queue := s.queue ++ [val] }
    else none
  | .close => some { s with closed := true, consumers := cv.notifyAll s.consumers }
  | .pop who dest val =>
    match s.running who dest, s.queue with
    | some p, v :: queue =>
      if v = val then some { s with queue := queue, consumers := s.consumers.erase p } else none
    | _, _ => none
  | .fail who dest =>
    match s.running who dest with
    | some p =>
      if s.closed = true ∧ s.queue = [] then some { s with consumers := s.consumers.erase p }
      else none
    | none => none
  | .wait who dest =>
    match s.running who dest with
    | some p =>
      if s.closed = false ∧ s.queue = [] then
        some { s with consumers := .blocked who dest ::ₘ s.consumers.erase p }
      else none
    | none => none
  | .spurious => none

theorem running_sound {who : ι} {dest : V} {p : Pc V ι} (h : s.running who dest = some p) :
    s.consumers = p ::ₘ s.consumers.erase p ∧ p.Running who dest := by
  unfold State.running at h
  split at h
  · next hmem =>
    cases h
    exact ⟨(Multiset.cons_erase hmem).symm, .popping⟩
  · split at h
    · next hmem =>
      cases h
      exact ⟨(Multiset.cons_erase hmem).symm, .woken⟩
    · cases h

theorem fire_sound (h : s.fire e = some s') : Step s e s' := by
  cases e with
  | call =>
    cases h
    exact .call
  | push val =>
    simp only [State.fire] at h
    split at h
    · next hclosed =>
      cases h
      exact .pushClosed hclosed
    · next hopen =>
      obtain ⟨hnobody, h⟩ := Option.ite_none_right_eq_some.mp h
      cases h
      exact .push (by simpa using hopen) (.nobody hnobody)
  | close =>
    cases h
    exact .close
  | pop who dest val =>
    simp only [State.fire] at h
    split at h
    · next p v queue hr hq =>
      obtain ⟨ht, hp⟩ := running_sound hr
      obtain ⟨rfl, hx⟩ := Option.ite_none_right_eq_some.mp h
      cases hx
      exact .pop ht hp hq
    · cases h
  | fail who dest =>
    simp only [State.fire] at h
    split at h
    · next p hr =>
      obtain ⟨ht, hp⟩ := running_sound hr
      obtain ⟨hc, h⟩ := Option.ite_none_right_eq_some.mp h
      cases h
      exact .fail ht hp hc.1 hc.2
    · cases h
  | wait who dest =>
    simp only [State.fire] at h
    split at h
    · next p hr =>
      obtain ⟨ht, hp⟩ := running_sound hr
      obtain ⟨hc, h⟩ := Option.ite_none_right_eq_some.mp h
      cases h
      exact .wait ht hp hc.1 hc.2
    · cases h
  | spurious => cases h

end Queue

namespace Pool

variable {T : Type*} [DecidableEq T] {posts : Object T → Bool} {s s' : State T} {e : Event T}

/-- A thread leaves the stage `a` for the threads `b`. -/
def State.move (s : State T) (who : Who) (a : Stage T) (b : Multiset (Thread T)) :
    Option (State T) :=
  if ⟨who, a⟩ ∈ s.threads then some { s with threads := b + s.threads.erase ⟨who, a⟩ }
  else none

/-- The step that an event stands for. -/
def State.fire (posts : Object T → Bool) (s : State T) : Event T → Option (State T)
  | .attach j =>
    if (∀ th ∈ s.threads, th.who ≠ .external j) ∧ ∀ p ∈ s.queue.consumers, p.who ≠ .external j then
      some { s with threads := ⟨.external j, .starting⟩ ::ₘ s.threads }
    else none
  | .enter who =>
    (s.move who .starting {⟨who, .checking none⟩}).map fun t =>
      { t with attached := t.attached + 1 }
  | .check who task =>
    if s.stopped then none
    else
      match s.move who (.checking task) 0, s.queue.fire (.call who task) with
      | some t, some queue => some { t with queue := queue }
      | _, _ => none
  | .quit who task =>
    if s.stopped then s.move who (.checking task) {⟨who, .leaving task⟩} else none
  | .block who task =>
    if s.relocked then none
    else (s.queue.fire (.wait who task)).map fun queue => { s with queue := queue }
  | .pop who task next =>
    if s.relocked then none
    else
      match s.queue.fire (.pop who task (some next)), (destroyedBy task next).any posts with
      | some queue, true => some { s with
          queue := queue
          relocked := true
          threads := ⟨who, .relocking next⟩ ::ₘ s.threads }
      | some queue, false => some { s with
          queue := queue
          threads := ⟨who, .taken next⟩ ::ₘ s.threads }
      | none, _ => none
  | .fail who task =>
    if s.relocked then none
    else (s.queue.fire (.fail who task)).map fun queue =>
      { s with queue := queue, threads := ⟨who, .leaving task⟩ ::ₘ s.threads }
  | .run who task => s.move who (.taken task) {⟨who, .executing task⟩}
  | .done who task => s.move who (.executing task) {⟨who, .checking (some task)⟩}
  | .leave who task => s.move who (.leaving task) {⟨who, .detaching⟩}
  | .detach who waits =>
    if waits = decide (detached s.attached ≠ 0) then
      (s.move who .detaching {⟨who, if waits then .parked else .releasing⟩}).map fun t =>
        { t with attached := detached t.attached }
    else none
  | .recheck who waits =>
    if waits = decide (s.attached ≠ 0) then
      s.move who .unparked {⟨who, if waits then .parked else .releasing⟩}
    else none
  | .notifyAll who =>
    if ⟨who, .releasing⟩ ∈ s.threads then some { s with
      threads := returned who + cv.notifyAll (s.threads.erase ⟨who, .releasing⟩) }
    else none
  | .post task accepted =>
    if s.relocked = false ∧ s.owner ≠ .destroyed ∧ accepted = !s.queue.closed then
      (s.queue.fire (.push (some task))).map fun queue => { s with queue := queue }
    else none
  | .stop =>
    if s.owner = .destroyed then none
    else some { s with stopped := true, stoppers := s.stoppers + 1 }
  | .wait =>
    if s.relocked = false ∧ s.owner = .idle then
      (s.queue.fire .close).map fun queue => { s with queue := queue, owner := .joining false }
    else none
  | .destroy =>
    if s.owner = .idle then some { s with stopped := true, owner := .closing } else none
  | .close =>
    if s.relocked then none
    else
      match s.stoppers, s.queue.fire .close with
      | n + 1, some queue => some { s with queue := queue, stoppers := n }
      | 0, some queue =>
        if s.owner = .closing then some { s with queue := queue, owner := .draining } else none
      | _, none => none
  | .drain =>
    if s.relocked = false ∧ s.owner = .draining then
      (s.queue.fire .close).map fun queue => { s with queue := queue, owner := .joining true }
    else none
  | .joined =>
    if (∀ th ∈ s.threads, th.who.isWorker = true → th.stage = .finished) ∧
        ∀ p ∈ s.queue.consumers, p.who.isWorker = false then
      match s.owner with
      | .joining destroys => some { s with owner := if destroys then .destroying else .idle }
      | _ => none
    else none
  | .destroyed tasks =>
    if s.owner = .destroying ∧ tasks = s.queue.queue then some { s with owner := .destroyed }
    else none
  | .rouse => none
  | .unpark => none

theorem move_sound {who : Who} {a : Stage T} {b : Multiset (Thread T)}
    (h : s.move who a b = some s') :
    s.threads = ⟨who, a⟩ ::ₘ s.threads.erase ⟨who, a⟩ ∧
      s' = { s with threads := b + s.threads.erase ⟨who, a⟩ } := by
  unfold State.move at h
  split at h
  · next hmem =>
    cases h
    exact ⟨(Multiset.cons_erase hmem).symm, rfl⟩
  · cases h

theorem fire_sound (h : s.fire posts e = some s') : Step posts s e s' := by
  cases e with
  | attach j =>
    obtain ⟨hc, h⟩ := Option.ite_none_right_eq_some.mp h
    cases h
    exact .attach hc.1 hc.2
  | enter who =>
    obtain ⟨t, hm, rfl⟩ := Option.map_eq_some_iff.mp h
    obtain ⟨ht, rfl⟩ := move_sound hm
    exact .enter ht
  | check who task =>
    obtain ⟨hgo, h⟩ := Option.ite_none_left_eq_some.mp h
    split at h
    · next t queue hm hq =>
      obtain ⟨ht, rfl⟩ := move_sound hm
      cases h
      rw [zero_add]
      exact .check ht (by simpa using hgo) (Queue.fire_sound hq)
    · cases h
  | quit who task =>
    obtain ⟨hstop, hm⟩ := Option.ite_none_right_eq_some.mp h
    obtain ⟨ht, rfl⟩ := move_sound hm
    exact .quit ht hstop
  | block who task =>
    obtain ⟨hfree, h⟩ := Option.ite_none_left_eq_some.mp h
    obtain ⟨queue, hq, rfl⟩ := Option.map_eq_some_iff.mp h
    exact .block (by simpa using hfree) (Queue.fire_sound hq)
  | pop who task next =>
    obtain ⟨hfree, h⟩ := Option.ite_none_left_eq_some.mp h
    split at h
    · next queue hq hany =>
      cases h
      exact .relock (by simpa using hfree) (Queue.fire_sound hq) (List.any_eq_true.mp hany)
    · next queue hq hany =>
      cases h
      exact .pop (by simpa using hfree) (Queue.fire_sound hq) (by simpa using hany)
    · cases h
  | fail who task =>
    obtain ⟨hfree, h⟩ := Option.ite_none_left_eq_some.mp h
    obtain ⟨queue, hq, rfl⟩ := Option.map_eq_some_iff.mp h
    exact .fail (by simpa using hfree) (Queue.fire_sound hq)
  | run who task =>
    obtain ⟨ht, rfl⟩ := move_sound h
    exact .run ht
  | done who task =>
    obtain ⟨ht, rfl⟩ := move_sound h
    exact .done ht
  | leave who task =>
    obtain ⟨ht, rfl⟩ := move_sound h
    exact .leave ht
  | detach who waits =>
    obtain ⟨hw, h⟩ := Option.ite_none_right_eq_some.mp h
    obtain ⟨t, hm, rfl⟩ := Option.map_eq_some_iff.mp h
    obtain ⟨ht, rfl⟩ := move_sound hm
    cases waits with
    | true => exact .detach ht (by simpa using hw.symm)
    | false => exact .detachLast ht (by simpa using hw.symm)
  | recheck who waits =>
    obtain ⟨hw, hm⟩ := Option.ite_none_right_eq_some.mp h
    obtain ⟨ht, rfl⟩ := move_sound hm
    cases waits with
    | true => exact .park ht (by simpa using hw.symm)
    | false => exact .release ht (by simpa using hw.symm)
  | notifyAll who =>
    obtain ⟨hmem, h⟩ := Option.ite_none_right_eq_some.mp h
    cases h
    exact .notifyAll (Multiset.cons_erase hmem).symm
  | post task accepted =>
    obtain ⟨⟨hfree, halive, rfl⟩, hx⟩ := Option.ite_none_right_eq_some.mp h
    obtain ⟨queue, hq, rfl⟩ := Option.map_eq_some_iff.mp hx
    exact .post hfree halive (Queue.fire_sound hq)
  | stop =>
    obtain ⟨halive, h⟩ := Option.ite_none_left_eq_some.mp h
    cases h
    exact .stop halive
  | close =>
    obtain ⟨hfree, h⟩ := Option.ite_none_left_eq_some.mp h
    split at h
    · next n queue hn hq =>
      cases h
      exact .close (by simpa using hfree) hn (Queue.fire_sound hq)
    · next queue hn hq =>
      obtain ⟨howner, h⟩ := Option.ite_none_right_eq_some.mp h
      cases h
      exact .closeDestroying (by simpa using hfree) howner (Queue.fire_sound hq)
    · cases h
  | wait =>
    obtain ⟨hc, h⟩ := Option.ite_none_right_eq_some.mp h
    obtain ⟨queue, hq, rfl⟩ := Option.map_eq_some_iff.mp h
    exact .wait hc.1 hc.2 (Queue.fire_sound hq)
  | destroy =>
    obtain ⟨howner, h⟩ := Option.ite_none_right_eq_some.mp h
    cases h
    exact .destroy howner
  | drain =>
    obtain ⟨hc, h⟩ := Option.ite_none_right_eq_some.mp h
    obtain ⟨queue, hq, rfl⟩ := Option.map_eq_some_iff.mp h
    exact .drain hc.1 hc.2 (Queue.fire_sound hq)
  | joined =>
    obtain ⟨hc, h⟩ := Option.ite_none_right_eq_some.mp h
    split at h
    · next destroys howner =>
      cases h
      exact .joined howner hc.1 hc.2
    · cases h
  | destroyed tasks =>
    obtain ⟨⟨howner, rfl⟩, hx⟩ := Option.ite_none_right_eq_some.mp h
    cases hx
    exact .destroyed howner
  | rouse | unpark => cases h

/-- The events of a schedule, one after the other. -/
def State.fires (posts : Object T → Bool) (s : State T) : List (Event T) → Option (State T)
  | [] => some s
  | e :: es => (s.fire posts e).bind fun t => t.fires posts es

/-- **A schedule that can be run is a run.** -/
theorem fires_sound {ok : State T → Event T → Prop} {es : List (Event T)}
    (hok : ∀ e ∈ es, ∀ s, ok s e) (h : s.fires posts es = some s') :
    Trace (Step posts) ok s es s' := by
  induction es generalizing s with
  | nil =>
    cases h
    exact .nil _
  | cons e es ih =>
    obtain ⟨t, ht, hrest⟩ := Option.bind_eq_some_iff.mp h
    have hone : Trace (Step posts) ok s [e] t :=
      (Trace.nil _).snoc (hok e List.mem_cons_self _) (fire_sound ht)
    exact hone.append (ih (fun e he => hok e (List.mem_cons_of_mem _ he)) hrest)

/-- Where a schedule leads. -/
theorem reaches (posts : Object T → Bool) (ok : State T → Event T → Prop) (s : State T)
    (es : List (Event T)) (p : State T → Bool) (hok : ∀ e ∈ es, ∀ s, ok s e)
    (h : (s.fires posts es).any p = true) :
    ∃ t, Trace (Step posts) ok s es t ∧ p t = true := by
  obtain ⟨t, ht, hp⟩ := (Option.any_eq_true _ _).mp h
  exact ⟨t, fires_sound hok ht, hp⟩

end Pool

end PortableConcurrency
