import PortableConcurrency.Pool.Drain

/-!
# The threads that are not the pool's

`wait()` joins the threads of the pool, and learns of the others through
the barrier only. A pool with threads of its own has executed everything
when they have ended; a pool without does not wait at all. And whoever came
through the barrier last is followed by nobody's `wait()`: it is still to
lock the mutex, or to notify.
-/

namespace PortableConcurrency

namespace Pool

variable {T : Type*} {posts : Object T → Bool} {s s' s₁ s₂ s₃ : State T} {e : Event T} {who : Who}
variable {N E : ℕ}

/-- From outside, and past its increment of `attached_threads_`. -/
def Thread.entered (th : Thread T) : Bool :=
  match th.stage with
  | .starting => false
  | _ => !th.who.isWorker

/-- The threads from outside that have entered, and have not returned. -/
def State.entered (s : State T) : Multiset Who :=
  (s.threads.filter fun th => th.entered = true).map Thread.who +
    (s.queue.inPop.filter fun pair => pair.1.isWorker = false).map Prod.fst

/-- **`wait()`, or `~static_thread_pool`, is called in `s₁`**, and `wait()`
returns in `s₃`; nobody calls `attach()` in between. -/
structure Returns (posts : Object T → Bool) (N : ℕ) (s₁ s₃ : State T) : Prop where
  before : Runs (Step posts) Unguarded (init N) s₁
  call : ∃ s₂ s₂', (Step posts s₁ .wait s₂ ∨ Step posts s₁ .destroy s₂) ∧
    Runs (Step posts) (fun _ e => ∀ j, e ≠ .attach j) s₂ s₂' ∧ Step posts s₂' .joined s₃

/-- None of the threads that had entered has a task that it executes. -/
def Executed (posts : Object T → Bool) (N E : ℕ) : Prop :=
  ∀ s₁ s₃, Returns posts N s₁ s₃ → s₁.entered.card = E →
    ∀ th ∈ s₃.threads, th.who ∈ s₁.entered → th.busy = false

/-- None of them is in `attach()`, with an access to the pool to make. -/
def Detached (posts : Object T → Bool) (N E : ℕ) : Prop :=
  ∀ s₁ s₃, Returns posts N s₁ s₃ → s₁.entered.card = E → ∀ who ∈ s₁.entered, who ∉ s₃.present

theorem Returns.runs (h : Returns posts N s₁ s₃) :
    ∃ s₂, Runs (Step posts) Unguarded (init N) s₂ ∧ Step posts s₂ .joined s₃ := by
  obtain ⟨s₂, s₂', hcall, hrun, hjoin⟩ := h.call
  refine ⟨s₂', ?_, hjoin⟩
  rcases hcall with hcall | hcall
  · exact (h.before.tail trivial hcall).trans hrun.unguarded
  · exact (h.before.tail trivial hcall).trans hrun.unguarded

/-- **With a thread of its own the pool has nothing left to execute** when
`wait()` returns. -/
theorem executed_of_worker (hN : 1 ≤ N) : Executed posts N E := by
  intro s₁ s₃ hret _ th hmem _
  obtain ⟨s₂, hrun, hjoin⟩ := hret.runs
  have hfinished := joined_finished (present_run hrun) hjoin hN
  obtain ⟨hbusy, -⟩ := (inv_run hrun).quiet (tally_pos hfinished rfl)
  cases hjoin with
  | joined => exact not_of_tally_eq_zero hbusy hmem

/-! ## Schedules of any size -/

/-- `E` threads from outside, which have entered. -/
def externals (E : ℕ) : Multiset (Thread T) :=
  (Multiset.range E).map fun j => ⟨.external j, .checking none⟩

/-- Any number of threads may enter a pool that nobody from outside has
entered. -/
theorem enters (hnone : ∀ th ∈ s.threads, th.who.isWorker = true)
    (hpop : ∀ p ∈ s.queue.consumers, p.who.isWorker = true) (E : ℕ) :
    Runs (Step posts) Unguarded s { s with
      attached := s.attached + E
      threads := externals E + s.threads } := by
  induction E with
  | zero =>
    have heq : externals 0 + s.threads = s.threads := zero_add _
    rw [heq]
    exact .refl s
  | succ E ih =>
    have hnew : ∀ th ∈ externals E + s.threads, th.who ≠ .external E := by
      intro th hmem heq
      rcases Multiset.mem_add.mp hmem with hmem | hmem
      · obtain ⟨j, hj, rfl⟩ := Multiset.mem_map.mp hmem
        cases heq
        exact absurd (Multiset.mem_range.mp hj) (Nat.lt_irrefl _)
      · have := hnone th hmem
        rw [heq] at this
        cases this
    have hnew' : ∀ p ∈ s.queue.consumers, p.who ≠ .external E := by
      intro p hmem heq
      have := hpop p hmem
      rw [heq] at this
      cases this
    have h₁ := ih.tail trivial (.attach hnew hnew')
    have h₂ := h₁.tail trivial (.enter rfl)
    have heq : externals (E + 1) + s.threads =
        ⟨.external E, .checking none⟩ ::ₘ (externals E + s.threads) := by
      rw [externals, Multiset.range_succ, Multiset.map_cons, Multiset.cons_add]
      rfl
    rw [heq]
    exact h₂

/-- A pool that was stopped while nobody was attached. -/
def stopped (threads : Multiset (Thread T)) : State T :=
  ⟨Queue.init, false, true, 0, threads, 1, .idle⟩

/-- One of its threads ends, when nobody waits for it. -/
theorem stopped_ends {i : ℕ} {rest : Multiset (Thread T)} (h : ∀ th ∈ rest, cv.wake th = none) :
    Runs (Step posts) Unguarded (stopped (⟨.worker i, .starting⟩ ::ₘ rest))
      (stopped (⟨.worker i, .finished⟩ ::ₘ rest)) := by
  have h₀ : Runs (Step posts) Unguarded (stopped (⟨.worker i, .starting⟩ ::ₘ rest)) _ := .refl _
  have h₁ := h₀.tail trivial (.enter rfl)
  have h₂ := h₁.tail trivial (.quit rfl rfl)
  have h₃ := h₂.tail trivial (.leave rfl)
  have h₄ := h₃.tail trivial (.detachLast rfl rfl)
  have h₅ := h₄.tail trivial (.notifyAll rfl)
  have hrest : cv.notifyAll rest = rest := by
    rw [CondVar.notifyAll,
      Multiset.map_congr rfl fun th hmem => by rw [h th hmem, Option.getD_none],
      Multiset.map_id']
  rw [hrest] at h₅
  exact h₅

/-- And so do all. -/
theorem stopped_all_end (m : Multiset ℕ) {rest : Multiset (Thread T)}
    (h : ∀ th ∈ rest, cv.wake th = none) :
    Runs (Step posts) Unguarded
      (stopped (m.map (fun i => ⟨.worker i, .starting⟩) + rest))
      (stopped (m.map (fun i => ⟨.worker i, .finished⟩) + rest)) := by
  induction m using Multiset.induction_on generalizing rest with
  | empty => exact .refl _
  | cons i m ih =>
    have hrest : ∀ th ∈ (⟨.worker i, .starting⟩ ::ₘ rest : Multiset (Thread T)),
        cv.wake th = none := by
      intro th hmem
      rcases Multiset.mem_cons.mp hmem with rfl | hmem
      · rfl
      · exact h th hmem
    have hnext : ∀ th ∈ m.map (fun i => (⟨.worker i, .finished⟩ : Thread T)) + rest,
        cv.wake th = none := by
      intro th hmem
      rcases Multiset.mem_add.mp hmem with hmem | hmem
      · obtain ⟨j, -, rfl⟩ := Multiset.mem_map.mp hmem
        rfl
      · exact h th hmem
    have hm := ih hrest
    rw [Multiset.add_cons, Multiset.add_cons] at hm
    rw [Multiset.map_cons, Multiset.map_cons, Multiset.cons_add, Multiset.cons_add]
    exact hm.trans (stopped_ends hnext)

/-! ## When `wait()` is enough -/

theorem entered_of_mem_externals {th : Thread T} (h : th ∈ externals E) :
    th.entered = true ∧ th.who.isWorker = false := by
  obtain ⟨j, -, rfl⟩ := Multiset.mem_map.mp h
  exact ⟨rfl, rfl⟩

theorem who_externals (E : ℕ) :
    (externals E : Multiset (Thread T)).map Thread.who = (Multiset.range E).map .external := by
  rw [externals, Multiset.map_map]
  rfl

/-- The threads of the pool that have ended. -/
def workers (N : ℕ) : Multiset (Thread T) := (Multiset.range N).map fun i => ⟨.worker i, .finished⟩

theorem finished_of_mem_workers {th : Thread T} (h : th ∈ workers N) :
    th.entered = false ∧ th.who.isWorker = true ∧ th.stage = .finished := by
  obtain ⟨i, -, rfl⟩ := Multiset.mem_map.mp h
  exact ⟨rfl, rfl, rfl⟩

/-- The pool whose own threads have ended, and which `E` threads from
outside have entered. -/
def attended (N E : ℕ) : State T :=
  { (stopped (externals E + workers N) : State T) with attached := E }

theorem attended_runs : Runs (Step posts) Unguarded (init N) (attended N E) := by
  have h₀ : Runs (Step posts) Unguarded (init N) (init N) := .refl _
  have h₁ := h₀.tail trivial (.stop (by simp [init]))
  have hall : Runs (Step posts) Unguarded _ _ := stopped_all_end (Multiset.range N)
    (show ∀ th ∈ (0 : Multiset (Thread T)), cv.wake th = none by simp)
  rw [add_zero, add_zero] at hall
  have henters : Runs (Step posts) Unguarded (stopped (workers N)) _ := enters
    (fun th hmem => (finished_of_mem_workers hmem).2.1) (by simp [stopped, Queue.init]) E
  have heq : ({ stopped (workers N) with
      attached := (stopped (workers N) : State T).attached + E
      threads := externals E + workers N } : State T) = attended N E := by
    simp [attended, stopped]
  rw [← heq]
  exact (h₁.trans hall).trans henters

theorem entered_attended : (attended N E : State T).entered = (Multiset.range E).map .external := by
  have hworkers : (workers N : Multiset (Thread T)).filter (fun th => th.entered = true) = 0 :=
    Multiset.filter_eq_nil.mpr fun th hmem => by simp [(finished_of_mem_workers hmem).1]
  have hexternals : (externals E : Multiset (Thread T)).filter (fun th => th.entered = true) =
      externals E :=
    Multiset.filter_eq_self.mpr fun th hmem => (entered_of_mem_externals hmem).1
  show ((externals E + workers N).filter _).map _ + 0 = _
  rw [Multiset.filter_add, hworkers, hexternals, add_zero, add_zero, who_externals]

/-- `wait()` returns there at once. -/
theorem attended_returns : ∃ s₃ : State T, Returns posts N (attended N E) s₃ ∧
    s₃.threads = externals E + workers N := by
  have hwait : Step posts (attended N E) .wait _ := .wait rfl rfl .close
  refine ⟨_, ⟨attended_runs, _, _, .inl hwait, .refl _, .joined rfl ?_ ?_⟩, rfl⟩
  · intro th hmem hw
    rcases Multiset.mem_add.mp hmem with hmem | hmem
    · rw [(entered_of_mem_externals hmem).2] at hw
      cases hw
    · exact (finished_of_mem_workers hmem).2.2
  · intro p hmem
    have hmem : p ∈ Queue.cv.notifyAll 0 := hmem
    simp [CondVar.notifyAll] at hmem

/-- **Somebody from outside** is in `attach()` when `wait()` returns. -/
theorem not_detached (hE : 1 ≤ E) : ¬ Detached posts N E := by
  intro h
  obtain ⟨s₃, hret, hthreads⟩ : ∃ s₃, Returns posts N (attended N E) s₃ ∧ _ := attended_returns
  have hcard : (attended N E : State T).entered.card = E := by simp [entered_attended]
  have hmem : .external 0 ∈ (attended N E : State T).entered := by
    rw [entered_attended]
    exact Multiset.mem_map_of_mem _ (Multiset.mem_range.mpr hE)
  refine h _ _ hret hcard _ hmem (mem_present.mpr (.inl ⟨.checking none, ?_⟩))
  rw [hthreads]
  exact Multiset.mem_add.mpr (.inl (Multiset.mem_map_of_mem _ (Multiset.mem_range.mpr hE)))

theorem externals_succ (k : ℕ) :
    (externals (k + 1) : Multiset (Thread T)) = ⟨.external k, .checking none⟩ ::ₘ externals k := by
  rw [externals, Multiset.range_succ, Multiset.map_cons]
  rfl

/-- A pool without threads of its own, with `k + 1` from outside. -/
abbrev unattended (queue : Queue.State (Option T) Who) (k : ℕ) (threads : Multiset (Thread T)) :
    State T :=
  ⟨queue, false, false, k + 1, threads, 0, .idle⟩

theorem unattended_runs (k : ℕ) : Runs (Step posts) Unguarded (init 0)
    (unattended Queue.init k (⟨.external k, .checking none⟩ ::ₘ externals k)) := by
  have henters : Runs (Step posts) Unguarded (init 0) _ := enters (by simp [init])
    (by simp [init, Queue.init]) (k + 1)
  have heq : ({ (init 0 : State T) with
      attached := (init 0 : State T).attached + (k + 1)
      threads := externals (k + 1) + (init 0 : State T).threads } : State T) =
      unattended Queue.init k (⟨.external k, .checking none⟩ ::ₘ externals k) := by
    simp [unattended, init, externals_succ]
  rwa [heq] at henters

/-- A task is posted, and one of them asks for it. -/
abbrev asking (k : ℕ) (task : T) : State T :=
  unattended ⟨[some task], false, {.popping (.external k) none}⟩ k (externals k)

theorem unattended_asks (k : ℕ) (task : T) : Runs (Step posts) Unguarded (init 0) (asking k task) := by
  have h₁ : Step posts
      (unattended Queue.init k (⟨.external k, .checking none⟩ ::ₘ externals k)) (.post task true)
      (unattended ⟨[some task], false, 0⟩ k (⟨.external k, .checking none⟩ ::ₘ externals k)) :=
    .post rfl (by simp) (.push rfl (.nobody (by simp [Queue.init])))
  have h₂ : Step posts
      (unattended ⟨[some task], false, 0⟩ k (⟨.external k, .checking none⟩ ::ₘ externals k))
      (.check (.external k) none) (asking k task) :=
    .check rfl rfl .call
  exact ((unattended_runs k).tail trivial h₁).tail trivial h₂

theorem entered_asking (k : ℕ) (task : T) :
    (asking k task).entered = (Multiset.range k).map .external + {.external k} := by
  have hexternals : (externals k : Multiset (Thread T)).filter (fun th => th.entered = true) =
      externals k :=
    Multiset.filter_eq_self.mpr fun th hmem => (entered_of_mem_externals hmem).1
  show ((externals k).filter fun th => th.entered = true).map _ + _ = _
  rw [hexternals, who_externals]
  rfl

/-- `wait()` has closed the queue, and it has taken the task. -/
abbrev joining (relocked : Bool) (k : ℕ) (stage : Stage T) (owner : Owner) : State T :=
  ⟨⟨[], true, 0⟩, relocked, false, k + 1, ⟨.external k, stage⟩ ::ₘ externals k, 0, owner⟩

/-- Nobody else is there, whatever the destructors do. -/
theorem joining_joined (relocked : Bool) (k : ℕ) (stage : Stage T) :
    Step posts (joining relocked k stage (.joining false)) .joined (joining relocked k stage .idle) := by
  show Step posts (joining relocked k stage (.joining false)) .joined
    { joining relocked k stage (.joining false) with owner := if false then .destroying else .idle }
  refine .joined rfl (fun th hmem hw => ?_) (by simp)
  have hmem : th ∈ ⟨.external k, stage⟩ ::ₘ externals k := hmem
  rcases Multiset.mem_cons.mp hmem with rfl | hmem
  · cases hw
  · rw [(entered_of_mem_externals hmem).2] at hw
    cases hw

/-- `wait()` returns after it has taken the task. -/
theorem unattended_returns (k : ℕ) (task : T) : ∃ (s₃ : State T) (stage : Stage T),
    Returns posts 0 (asking k task) s₃ ∧ s₃.threads = ⟨.external k, stage⟩ ::ₘ externals k ∧
      (⟨.external k, stage⟩ : Thread T).busy = true := by
  have hwait : Step posts (asking k task) .wait
      ⟨⟨[some task], true, {.popping (.external k) none}⟩, false, false, k + 1, externals k, 0,
        .joining false⟩ :=
    .wait rfl rfl .close
  have hq : Queue.Step (⟨[some task], true, {.popping (.external k) none}⟩ : Queue.State _ Who)
      (.pop (.external k) none (some task)) ⟨[], true, 0⟩ :=
    .pop (Multiset.cons_zero _).symm .popping rfl
  by_cases hpost : ∃ o ∈ destroyedBy none task, posts o = true
  · exact ⟨_, .relocking task, ⟨unattended_asks k task, _, _, .inl hwait,
      .single (by simp) (.relock rfl hq hpost), joining_joined true k _⟩, rfl, rfl⟩
  · have hquiet : ∀ o ∈ destroyedBy none task, posts o = false := by
      intro o hmem
      by_contra hposts
      exact hpost ⟨o, hmem, by simpa using hposts⟩
    exact ⟨_, .taken task, ⟨unattended_asks k task, _, _, .inl hwait,
      .single (by simp) (.pop rfl hq hquiet), joining_joined false k _⟩, rfl, rfl⟩

/-- **Without a thread of its own the pool waits for nobody.** -/
theorem not_executed [Inhabited T] (hE : 1 ≤ E) : ¬ Executed posts 0 E := by
  obtain ⟨k, rfl⟩ : ∃ k, E = k + 1 := ⟨E - 1, by omega⟩
  intro h
  obtain ⟨s₃, stage, hret, hthreads, hbusy⟩ :
      ∃ s₃ stage, Returns posts 0 _ s₃ ∧ _ ∧ _ := unattended_returns k default
  have hidle := h _ s₃ hret (by simp [entered_asking]) ⟨.external k, stage⟩
    (by rw [hthreads]; exact Multiset.mem_cons_self _ _) (by rw [entered_asking]; simp)
  rw [hbusy] at hidle
  cases hidle

/-- **What `wait()` is worth to the threads from outside.** With a thread
of its own the pool waits until they execute nothing more, and otherwise
for none of them; it never waits until they are out of `attach()`. -/
theorem waits_for_attached [Inhabited T] (posts : Object T → Bool) (N E : ℕ) :
    (Executed posts N E ↔ 1 ≤ N ∨ E = 0) ∧ (Detached posts N E ↔ E = 0) := by
  have hnobody : ∀ s : State T, s.entered.card = 0 → ∀ who, who ∉ s.entered := by
    intro s hcard who hmem
    rw [Multiset.card_eq_zero.mp hcard] at hmem
    exact absurd hmem (Multiset.notMem_zero who)
  refine ⟨⟨fun h => ?_, ?_⟩, ⟨fun h => ?_, ?_⟩⟩
  · by_contra hno
    have hN : N = 0 := by omega
    subst hN
    exact not_executed (by omega) h
  · rintro (hN | rfl)
    · exact executed_of_worker hN
    · intro s₁ s₃ _ hcard th _ hwho
      exact absurd hwho (hnobody s₁ hcard _)
  · by_contra hno
    exact not_detached (by omega) h
  · rintro rfl s₁ s₃ _ hcard who hwho
    exact absurd hwho (hnobody s₁ hcard who)

/-- One thread from outside with a pool of one: the thread of the pool is
the last to leave, notifies and ends, and the other one is yet to lock the
mutex again. And one with a pool of none, which executes a task. -/
theorem returns_too_early :
    ¬ Executed (fun _ : Object ℕ => false) 0 1 ∧ ¬ Detached (fun _ : Object ℕ => false) 1 1 := by
  refine ⟨not_executed le_rfl, fun h => ?_⟩
  obtain ⟨s₁, hbefore, hp⟩ := reaches (fun _ => false) Unguarded (init 1 : State ℕ)
    [.enter (.worker 0), .attach 0, .enter (.external 0)]
    (fun s₁ => decide (s₁.entered = {.external 0}) &&
      (s₁.fires (fun _ => false) [.wait, .check (.external 0) none, .fail (.external 0) none,
        .leave (.external 0) none, .detach (.external 0) true, .check (.worker 0) none,
        .fail (.worker 0) none, .leave (.worker 0) none, .detach (.worker 0) false,
        .notifyAll (.worker 0)]).any fun s₂ =>
          (s₂.fire (fun _ => false) .joined).any fun s₃ => .external 0 ∈ s₃.present)
    (fun _ _ _ => trivial) (by decide)
  rw [Bool.and_eq_true, decide_eq_true_iff] at hp
  obtain ⟨hentered, hrun⟩ := hp
  obtain ⟨s₂, hs₂, hjoin⟩ := (Option.any_eq_true _ _).mp hrun
  obtain ⟨s₃, hs₃, hpresent⟩ := (Option.any_eq_true _ _).mp hjoin
  obtain ⟨t, ht, hrest⟩ := Option.bind_eq_some_iff.mp hs₂
  have hreturns : Returns (fun _ => false) 1 s₁ s₃ := by
    refine ⟨hbefore.runs, t, s₂, .inl (fire_sound ht), ?_, fire_sound hs₃⟩
    refine (fires_sound (fun e he _ => ?_) hrest).runs
    rintro j rfl
    simp at he
  refine h s₁ s₃ hreturns (by simp [hentered]) (.external 0) (by simp [hentered]) ?_
  simpa using hpresent

end Pool

end PortableConcurrency
