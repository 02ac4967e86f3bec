import PortableConcurrency.Async.Tasks
import PortableConcurrency.Pool.Stop
import PortableConcurrency.Pool.Schedule

/-!
# A pool that is stopped, and the futures of its tasks

A `packaged_task` made by `async` is one of the function objects of the
pool. The pool and the futures see the same calls of it and the same
destruction, each in its own run.
-/

namespace PortableConcurrency

namespace Async

open Pool (State init accepted started startedBy posted destroyed life Stopping)

variable {T : Type*} [DecidableEq T] {posts : Pool.Object T → Bool} {N : ℕ} {s : State T}
variable {es : List (Pool.Event T)}

/-- **What the futures see of a task** of the pool. `fes` is a run of the
futures in which the `packaged_task` of `n` is the function object `t`. -/
structure Seen {V E F : Type*} (es : List (Pool.Event T)) (t : T)
    (fes : List (Futures.Event V E F)) (c : Futures.Config V E F) (n : ℕ) : Prop where
  run : Trace Futures.Step (Futures.Returning n) Futures.init fes c
  made : ∃ fn, .newTask n fn ∈ fes
  same : Futures.taskLife n fes = life t es

/-- **What holds of a pool** after the events `es`. -/
structure StopLaw (V E F : Type*) (posts : Pool.Object T → Bool) (es : List (Pool.Event T)) (s : State T) :
    Prop where
  /-- once `stop()` has returned, each thread starts one more task at most,
  and nothing else is started -/
  last : .close ∈ es → ∀ es' s', Trace (Pool.Step posts) (Stopping posts) s es' s' →
    (∀ who, (startedBy who es').length ≤ 1) ∧ ∀ t ∈ started es', ∃ who, startedBy who es' = [t]
  /-- when the pool has been destroyed, every function object has been
  destroyed, once -/
  destroyed : s.owner = .destroyed → (destroyed es).Perm (posted es)
  /-- a future of a task that somebody still holds then has the outcome of
  the function if the task was started, and `broken_promise` if not -/
  futures : s.owner = .destroyed → ∀ t, (posted es).count t = 1 →
    ∀ (fes : List (Futures.Event V E F)) (c : Futures.Config V E F) (n : ℕ) (u : Bool),
      Seen es t fes c n → .future u n ∈ c.objs → .execute n ∉ c.objs →
        (t ∈ started es → Futures.HasOutcome fes c n) ∧
          (t ∉ started es → Futures.ReadyWith c n (.exception .brokenPromise))

/-- **A pool can be stopped at any time**, and no future of its tasks is
left without a result. -/
theorem stop_law (V E F : Type*) (hrun : Trace (Pool.Step posts) (Stopping posts) (init N) es s) :
    StopLaw V E F posts es s := by
  refine ⟨fun hclose es' s' hrun' => ?_, Pool.destroyed_perm hrun, ?_⟩
  · have hstop := Pool.stopped_of_close hrun hclose
    have hone : ∀ who, (startedBy who es').length ≤ 1 := fun who => by
      have hmay : (s.total (Pool.Thread.mayStart who) (Pool.inPopOf who)).card ≤ 1 :=
        (Pool.present_run hrun.runs).mayStart_le
      have hstarts : (startedBy who es').length +
          (s'.total (Pool.Thread.mayStart who) (Pool.inPopOf who)).card ≤ _ :=
        Pool.startedBy_le hstop hrun'
      omega
    refine ⟨hone, fun t ht => ?_⟩
    obtain ⟨who, hmem⟩ := Pool.exists_startedBy ht
    refine ⟨who, ?_⟩
    have := hone who
    match hl : startedBy who es' with
    | [] => rw [hl] at hmem; cases hmem
    | [a] => rw [hl] at hmem; rw [List.mem_singleton.mp hmem]
    | a :: b :: l => simp [hl] at this
  · intro howner t honce fes c n u hseen hheld hidle
    obtain ⟨fn, hmade⟩ := hseen.made
    obtain ⟨houtcome, hbroken⟩ := Futures.outcome_of_life hseen.run hmade
      (.inl ⟨_, hheld, List.mem_singleton_self _⟩) hidle
    rw [hseen.same] at houtcome hbroken
    rw [← Pool.mem_life]
    rcases Pool.life_of_destroyed hrun howner honce with hlife | hlife
    · exact ⟨fun _ => houtcome hlife, fun hno => absurd (by rw [hlife]; simp) hno⟩
    · exact ⟨fun hyes => by rw [hlife] at hyes; simp at hyes, fun _ => hbroken hlife⟩

/-- One task is called and returns, and another is destroyed uncalled. -/
theorem tasks_run : ∃ (fes : List (Futures.Event Unit Unit Unit))
    (c : Futures.Config Unit Unit Unit),
    (∀ n, Trace Futures.Step (Futures.Returning n) Futures.init fes c) ∧
      (∀ n < 2, .newTask n () ∈ fes ∧ .future true n ∈ c.objs ∧ .execute n ∉ c.objs) ∧
      Futures.taskLife 0 fes = [.run, .done, .destroyed] ∧
      Futures.taskLife 1 fes = [.destroyed] := by
  have h₀ : ∀ n, Trace Futures.Step (Futures.Returning n)
      (Futures.init : Futures.Config Unit Unit Unit) [] Futures.init := fun _ => .nil _
  have h₁ := fun n => (h₀ n).snoc (by simp [Futures.Returning])
    (.spawn (.newTask ()) (Multiset.zero_add _).symm)
  have h₂ := fun n => (h₁ n).snoc (by simp [Futures.Returning])
    (.move (.getFuture .task 0 (by simp)) (show _ = _ + (0 : Multiset _) from rfl))
  have h₃ := fun n => (h₂ n).snoc (by simp [Futures.Returning])
    (.spawn (.newTask ()) (Multiset.zero_add _).symm)
  have h₄ := fun n => (h₃ n).snoc (by simp [Futures.Returning])
    (.move (.getFuture .task 1 (by simp)) (show _ = _ + ({.handle .task false 0, .future true 0} :
      Multiset (Futures.Obj Unit)) by decide))
  have h₅ := fun n => (h₄ n).snoc (by simp [Futures.Returning])
    (.move (.callTask false 0 () _ (.inl ⟨.future true 0, by decide, by decide⟩) rfl rfl)
      (show _ = _ + ({.future true 0, .handle .task false 1, .future true 1} :
        Multiset (Futures.Obj Unit)) by decide))
  have h₆ := fun n => (h₅ n).snoc (by simp [Futures.Returning])
    (.settle (.ret .task 0 (.value ())) (show _ = _ + ({.handle .task false 0, .future true 0,
      .handle .task false 1, .future true 1} : Multiset (Futures.Obj Unit)) by decide) rfl rfl)
  have h₇ := fun n => (h₆ n).snoc (by simp [Futures.Returning])
    (.execute (s := 0) (show _ = _ + ({.cleaning 0, .handle .task false 0, .future true 0,
      .handle .task false 1, .future true 1} : Multiset (Futures.Obj Unit)) by decide) rfl)
  have h₈ := fun n => (h₇ n).snoc
    (by
      rintro ⟨⟩ nd hn -
      cases hn
      simp [Futures.Ret.storage])
    (.touch (.clean 0 _) (show _ = _ + ({.held 0, .handle .task false 0, .future true 0,
      .handle .task false 1, .future true 1} : Multiset (Futures.Obj Unit)) by decide) rfl)
  have h₉ := fun n => (h₈ n).snoc (by simp [Futures.Returning])
    (.touch (.abandon .task false 0 _ (.inl ⟨.future true 0, by decide, by decide⟩) (by simp)
      (.inl rfl)) (show _ = _ + ({.held 0, .future true 0, .handle .task false 1,
        .future true 1} : Multiset (Futures.Obj Unit)) by decide) rfl)
  have h₁₀ := fun n => (h₉ n).snoc (by simp [Futures.Returning])
    (.settle (.abandon .task false 1 (.inl ⟨.future true 1, by decide, by decide⟩) (by simp) rfl)
      (show _ = _ + ({.held 0, .future true 0, .future true 1} :
        Multiset (Futures.Obj Unit)) by decide) rfl rfl)
  have h₁₁ := fun n => (h₁₀ n).snoc (by simp [Futures.Returning])
    (.execute (s := 1) (show _ = _ + ({.held 0, .future true 0, .future true 1} :
      Multiset (Futures.Obj Unit)) by decide) rfl)
  refine ⟨[.newTask 0 (), .getFuture 0, .newTask 1 (), .getFuture 1, .callTask 0 (),
    .ret .task 0 (.value ()), .execute 0, .clean 0, .drop .task 0, .drop .task 1, .execute 1], _,
    h₁₁, fun n hn => ?_, rfl, rfl⟩
  obtain rfl | rfl : n = 0 ∨ n = 1 := by omega
  · exact ⟨by simp, by decide, by decide⟩
  · exact ⟨by simp, by decide, by decide⟩

/-- The thread of the pool is in its task when it is stopped, and another
task is in the queue. -/
theorem stop_law_of_stop : ∃ (es : List (Pool.Event ℕ)) (s : State ℕ)
    (fes : List (Futures.Event Unit Unit Unit)) (c : Futures.Config Unit Unit Unit),
    s.owner = .destroyed ∧ Seen es 0 fes c 0 ∧ Seen es 1 fes c 1 ∧
      StopLaw Unit Unit Unit (fun _ => false) es s ∧ Futures.HasOutcome fes c 0 ∧
      Futures.ReadyWith c 1 (.exception .brokenPromise) := by
  obtain ⟨s, hrun, howner⟩ := Pool.reaches (fun _ => false) (Stopping fun _ => false) (init 1)
    [.enter (.worker 0), .post 0 true, .check (.worker 0) none, .pop (.worker 0) none 0,
      .run (.worker 0) 0, .post 1 true, .stop, .done (.worker 0) 0, .quit (.worker 0) (some 0),
      .close, .leave (.worker 0) (some 0), .detach (.worker 0) false, .notifyAll (.worker 0),
      .destroy, .close, .drain, .joined, .destroyed [some 1]]
    (fun s => s.owner = .destroyed)
    (fun e he _ => ⟨by rintro j rfl; simp at he, .of_never (fun _ => rfl) _ e⟩) (by decide)
  obtain ⟨fes, c, hfes, hobjs, hlife₀, hlife₁⟩ := tasks_run
  have howner : s.owner = .destroyed := by simpa using howner
  have hlaw := stop_law Unit Unit Unit hrun
  have hseen : ∀ {es : List (Pool.Event ℕ)} {n : ℕ}, n < 2 → Futures.taskLife n fes = life n es →
      Seen es n fes c n := fun hn hlife => ⟨hfes _, ⟨(), (hobjs _ hn).1⟩, hlife⟩
  refine ⟨_, s, fes, c, howner, hseen (by omega) (hlife₀.trans ?_),
    hseen (by omega) (hlife₁.trans ?_), hlaw,
    (hlaw.futures howner 0 ?_ fes c 0 true (hseen (by omega) (hlife₀.trans ?_))
      (hobjs 0 (by omega)).2.1 (hobjs 0 (by omega)).2.2).1 ?_,
    (hlaw.futures howner 1 ?_ fes c 1 true (hseen (by omega) (hlife₁.trans ?_))
      (hobjs 1 (by omega)).2.1 (hobjs 1 (by omega)).2.2).2 ?_⟩ <;> decide

end Async

end PortableConcurrency
