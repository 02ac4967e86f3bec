import PortableConcurrency.Futures.Wanted

/-!
# Cancellation in trees of continuations

When its scheduled action runs, the function of a continuation is called
if and only if somebody still waits for it; if nobody does, its state is
destroyed with the function before. The promise at the root finds out in
the same way.

Who waits is not only found in the subtree of the continuation. A function
may return a future of another continuation, of its own parent for
instance, and who waits for the function's result then waits for that one.
And `next` does not call a function with an error.
-/

namespace PortableConcurrency

namespace Futures

open Relation

variable {V E F : Type*} {c c' : Config V E F} {e : Event V E F} {es : List (Event V E F)}
variable {rem add rest : Multiset (Obj F)} {d s t m n l : ℕ} {o : Obj F} {nd nd' : Node V E F}
variable {a : Action F} {x : Outcome V E}

/-- **Trees whose functions do not return a future that owns their own
result.** -/
def InTrees (c : Config V E F) (e : Event V E F) : Prop := OnlyTrees c e ∧ NoCycle c e

/-- Only `make` and the end of a function are held to something. -/
theorem inTrees_of (hw : ∀ w l, e ≠ .combine w l) (hu : ∀ g s t, e ≠ .unwrap g s t) :
    InTrees c e :=
  ⟨⟨hw, fun s t _ he => absurd he (hu .task s t)⟩, fun g s t he => absurd he (hu g s t)⟩

/-- A call of the user's function of `s`. -/
def Event.invokes (s : ℕ) : Event V E F → Bool
  | .invoke n _ => n = s
  | _ => false

/-- `cnt_state::run` has taken out the action of `s`. -/
def Called (c : Config V E F) (s : ℕ) : Prop := ∃ a, .running s a ∈ c.objs

/-! ## From the action to the function -/

/-- A scheduled action takes the function out if its state is still owned. -/
theorem Step.runs (hst : Step c (.run s) c') (hsole : Sole c) : Called c' s ↔ Owned c s := by
  cases hst with
  | @move _ rem add rest hm ho =>
    cases hm with
    | runExpired _ hexp =>
      refine iff_of_false ?_ hexp
      rintro ⟨a, hmem⟩
      rw [Multiset.zero_add] at hmem
      have := hsole.other ho (Multiset.mem_singleton_self _) (by simp [Obj.claims]) hmem (s := s)
      simp [Obj.claims] at this
  | spawn hs => cases hs
  | settle hs => cases hs
  | touch ht =>
    cases ht with
    | run _ _ _ a hlock => exact iff_of_true ⟨a, by simp⟩ hlock

/-- **What is taken out is called, or the error passed on.** -/
theorem Step.running (hst : Step c e c') (hmem : .running s a ∈ c.objs)
    (hout : .running s a ∉ c'.objs) :
    e = .invoke s a ∨
      ∃ y l, e = .passError s a y ∧ a.kind = .next ∧ Resolves c a.parent l (.exception y) := by
  have hrem : ∀ {rem rest : Multiset (Obj F)}, c.objs = rem + rest → .running s a ∉ rest →
      .running s a ∈ rem := fun ho hrest => by
    rw [ho] at hmem
    exact (Multiset.mem_add.mp hmem).resolve_right hrest
  cases hst with
  | move hm ho =>
    have hmem := hrem ho fun h => hout (Multiset.mem_add.mpr (.inr h))
    cases hm with
    | invokeThen | invokeInterruptible | invokeNext | invokeNextShared =>
      simp only [Multiset.mem_singleton, Obj.running.injEq] at hmem
      obtain ⟨rfl, rfl⟩ := hmem
      exact .inl rfl
    | _ => simp at hmem
  | spawn hs ho =>
    have hmem := hrem ho fun h => hout (Multiset.mem_add.mpr (.inr h))
    cases hs <;> simp [mem_inputObjs] at hmem
  | settle hs ho =>
    have hmem := hrem ho fun h =>
      hout (Multiset.mem_cons_of_mem (Multiset.mem_add.mpr (.inr h)))
    cases hs with
    | passError _ l _ y hk hr =>
      simp only [Multiset.mem_singleton, Obj.running.injEq] at hmem
      obtain ⟨rfl, rfl⟩ := hmem
      exact .inr ⟨y, l, rfl, hk, hr⟩
    | _ => simp at hmem
  | unwrap ho =>
    have hmem := hrem ho fun h =>
      hout (Multiset.mem_cons_of_mem (Multiset.mem_add.mpr (.inr h)))
    simp at hmem
  | touch ht ho =>
    have hmem := hrem ho fun h => hout (Multiset.mem_add.mpr (.inr h))
    cases ht with
    | invokeNext =>
      simp only [Multiset.mem_singleton, Obj.running.injEq] at hmem
      obtain ⟨rfl, rfl⟩ := hmem
      exact .inl rfl
    | _ => simp at hmem
  | @execute n rest nd ho =>
    have hmem := hrem ho fun h =>
      hout (Multiset.mem_cons_of_mem (Multiset.mem_map.mpr ⟨_, h, rfl⟩))
    simp at hmem
  | destroy => exact absurd (Multiset.mem_filter.mpr ⟨hmem, by simp [Obj.isLinked]⟩) hout

theorem Trees.can_invoke (h : Trees c) (hmem : .running s a ∈ c.objs)
    (hr : Resolves c a.parent l x) (hcall : ¬ a.Passes x) : ∃ c', Step c (.invoke s a) c' := by
  obtain ⟨rest, ho⟩ := Multiset.exists_cons_of_mem hmem
  have ho : c.objs = {.running s a} + rest := ho
  cases hk : a.kind with
  | then' => exact ⟨_, .move (.invokeThen s a hk) ho⟩
  | interruptible => exact ⟨_, .move (.invokeInterruptible s a hk) ho⟩
  | next =>
    cases x with
    | value v => exact ⟨_, .move (.invokeNext s l a v hk hr) ho⟩
    | exception y => exact absurd ⟨hk, y, rfl⟩ hcall
    | futures =>
      obtain ⟨nd, hn, hc⟩ := hr.isCombinator
      rw [h.planted.isCombinator hn] at hc
      cases hc

/-! ## Once at most -/

/-- The function of `s` was called, and will not be again. -/
structure Done (c : Config V E F) (s : ℕ) : Prop where
  old : s < c.fresh
  out : ¬ Called c s
  body : ∀ nd, c.nodes s = some nd → nd.body = .cnt false none

theorem Done.step (h : Done c s) (hw : Wf c) (hst : Step c e c') : Done c' s := by
  refine ⟨h.old.trans_le hst.fresh_le, ?_, fun nd' hn' => ?_⟩
  · rintro ⟨a, hmem⟩
    rcases hst.had_running hmem with hold | ⟨nd, exec, hn, hb⟩
    · exact h.out ⟨a, hold⟩
    · rw [h.body nd hn] at hb
      cases hb
  · obtain ⟨nd, hn⟩ := hst.old h.old hn'
    exact (hst.node hn').stays_started hw hn (h.body nd hn)

/-- **What was taken out has come to its end** when it is there no more. -/
theorem Trees.ended (h : Trees c) (hst : Step c e c') (hmem : .running s a ∈ c.objs)
    (hout : .running s a ∉ c'.objs) : Done c' s := by
  have hlt : s < c.fresh := h.live.wf.names _ hmem s (by simp [Obj.names])
  have hbody : ∀ nd, c.nodes s = some nd → nd.body = .cnt false none := fun nd hn =>
    ((h.steady.claimed.pending _ hmem).2 nd hn).2.2
  refine ⟨hlt.trans_le hst.fresh_le, ?_, fun nd' hn' => ?_⟩
  · rintro ⟨b, hb⟩
    rcases hst.had_running hb with hold | ⟨nd, exec, hn, hact⟩
    · have heq := h.steady.claimed.sole.eq (n := s) hmem hold (by simp [Obj.claims])
        (by simp [Obj.claims])
      rw [← heq] at hb
      exact hout hb
    · rw [hbody nd hn] at hact
      cases hact
  · obtain ⟨nd, hn⟩ := hst.old hlt hn'
    exact (hst.node hn').stays_started h.live.wf hn (hbody nd hn)

/-- A call of the function ends it. -/
theorem Step.invoked (hst : Step c (.invoke s a) c') (hsole : Sole c) :
    .running s a ∉ c'.objs := by
  have hrest : ∀ {rest : Multiset (Obj F)}, c.objs = {.running s a} + rest →
      .running s a ∉ rest := fun ho hmem => by
    have := hsole.other ho (Multiset.mem_singleton_self _) (by simp [Obj.claims]) hmem (s := s)
    simp [Obj.claims] at this
  intro hmem
  cases hst with
  | move hm ho =>
    have hadd := fun h => hm.isRunning h (o := .running s a)
    rcases Multiset.mem_add.mp hmem with h | h
    · cases hadd h
    · cases hm <;> exact hrest ho h
  | spawn hs => cases hs
  | settle hs => cases hs
  | touch ht ho =>
    rcases Multiset.mem_add.mp hmem with h | h
    · cases ht
      simp [mem_inputObjs] at h
    · cases ht
      exact hrest ho h

/-! ## Runs -/

/-- **What holds along the runs of this module.** -/
structure Growing (c : Config V E F) : Prop where
  trees : Trees c
  grounded : Grounded c
  acyclic : Graph.Acyclic (Refs c)

theorem Growing.step (h : Growing c) (hok : InTrees c e) (hst : Step c e c') : Growing c' :=
  ⟨h.trees.step hok.1 hst, h.grounded.step h.trees.steady hok.1.2 hst,
    refs_acyclic_step h.acyclic h.trees.live.wf hok.2 hst⟩

theorem Growing.run (h : Growing c) (hrun : Runs Step InTrees c c') : Growing c' :=
  hrun.invariant (fun _ _ _ hi hok hst => hi.step hok hst) h

theorem growing_init : Growing (init : Config V E F) := by
  refine ⟨trees_init, fun n hex => ?_, ?_⟩
  · simp [Config.isExecuted, init] at hex
  · rintro m n ⟨nd, hn, -⟩
    simp [init] at hn

theorem Trace.growing (htr : Trace Step InTrees init es c) : Growing c :=
  growing_init.run htr.runs

theorem Trace.marked (htr : Trace Step InTrees init es c) : Marked es c :=
  Marked.of_trace (fun _ _ h => h.1) htr

theorem countP_snoc (es : List (Event V E F)) (e : Event V E F) (s : ℕ) :
    (es ++ [e]).countP (Event.invokes s) =
      es.countP (Event.invokes s) + if e.invokes s then 1 else 0 := by
  simp [List.countP_append, List.countP_singleton]

/-- The event that calls the function of `s`. -/
theorem Event.invokes_iff : e.invokes s = true ↔ ∃ a : Action F, e = .invoke s a := by
  cases e with
  | invoke n a => simp [Event.invokes]
  | _ => simp [Event.invokes]

/-- Who is called has been taken out. -/
theorem Step.called (hst : Step c e c') (he : e.invokes s = true) : Called c s := by
  obtain ⟨a, rfl⟩ := Event.invokes_iff.mp he
  exact ⟨a, hst.calls (x := .brokenPromise) (.inl rfl)⟩

theorem Called.owned (h : Called c s) : Owned c s := by
  obtain ⟨a, hmem⟩ := h
  exact .inl ⟨_, hmem, by simp [Obj.refs]⟩

/-- **Who has no owner any more is not called.** -/
theorem Trace.not_invoked {ok : Config V E F → Event V E F → Prop} (htr : Trace Step ok c es c')
    (hlt : s < c.fresh) (hun : ¬ Owned c s) : es.countP (Event.invokes s) = 0 := by
  induction htr with
  | nil => rfl
  | @snoc t u es e htr hok hst ih =>
    have hno : ¬ e.invokes s := fun he => owned_run htr.runs hlt hun (hst.called he).owned
    rw [countP_snoc, ih, if_neg hno]

/-- **The function is called once at most.** -/
theorem Trace.invoked_once (htr : Trace Step InTrees init es c) (s : ℕ) :
    es.countP (Event.invokes s) ≤ 1 := by
  -- one call, and then none
  have hinv : Growing c ∧ (es.countP (Event.invokes s) = 0 ∨
      es.countP (Event.invokes s) = 1 ∧ Done c s) := by
    refine htr.invariant (I := fun es c => Growing c ∧ (es.countP (Event.invokes s) = 0 ∨
      es.countP (Event.invokes s) = 1 ∧ Done c s)) ?_ ⟨growing_init, .inl rfl⟩
    rintro es c e c' ⟨hgrow, hcount⟩ hok hst
    refine ⟨hgrow.step hok hst, ?_⟩
    rw [countP_snoc]
    by_cases he : e.invokes s = true
    · rw [if_pos he]
      rcases hcount with hzero | ⟨-, hdone⟩
      · obtain ⟨a, rfl⟩ := Event.invokes_iff.mp he
        have hmem := hst.calls (x := .brokenPromise) (.inl rfl)
        refine .inr ⟨by omega, hgrow.trees.ended hst hmem ?_⟩
        exact hst.invoked hgrow.trees.steady.claimed.sole
      · exact absurd (hst.called he) hdone.out
    · rw [if_neg he]
      rcases hcount with hzero | ⟨hone, hdone⟩
      · exact .inl hzero
      · exact .inr ⟨hone, hdone.step hgrow.trees.live.wf hst⟩
  rcases hinv.2 with h | ⟨h, -⟩ <;> omega

/-- **What becomes of an action that was taken out.** Until it has come to
its end the result of its parent is there; at its end the function is
called, or the parent has an error and the continuation is a `next`. -/
theorem Trace.after_run (htr : Trace Step InTrees c es c') (hgrow : Growing c)
    (hmem : .running s a ∈ c.objs) (hr : Resolves c a.parent l x) :
    (.running s a ∈ c'.objs ∧ es.countP (Event.invokes s) = 0) ∨
      Done c' s ∧ es.countP (Event.invokes s) = if a.Passes x then 0 else 1 := by
  have hinv : Growing c' ∧ ((.running s a ∈ c'.objs ∧ Resolves c' a.parent l x ∧
      es.countP (Event.invokes s) = 0) ∨
      Done c' s ∧ es.countP (Event.invokes s) = if a.Passes x then 0 else 1) := by
    refine htr.invariant (I := fun es c' => Growing c' ∧ ((.running s a ∈ c'.objs ∧
      Resolves c' a.parent l x ∧ es.countP (Event.invokes s) = 0) ∨
      Done c' s ∧ es.countP (Event.invokes s) = if a.Passes x then 0 else 1)) ?_
      ⟨hgrow, .inl ⟨hmem, hr, rfl⟩⟩
    rintro es c₁ e c₂ ⟨hgrow, hcases⟩ hok hst
    have hgrow' := hgrow.step hok hst
    refine ⟨hgrow', ?_⟩
    rw [countP_snoc]
    rcases hcases with ⟨hmem, hr, hzero⟩ | ⟨hdone, hcount⟩
    swap
    · have hno : ¬ e.invokes s := fun he => hdone.out (hst.called he)
      rw [if_neg hno]
      exact .inr ⟨hdone.step hgrow.trees.live.wf hst, hcount⟩
    have hsole := hgrow.trees.steady.claimed.sole
    by_cases hstill : .running s a ∈ c₂.objs
    · have hno : ¬ e.invokes s := fun he => by
        obtain ⟨b, rfl⟩ := Event.invokes_iff.mp he
        have hb := hst.calls (x := .brokenPromise) (.inl rfl)
        have heq := hsole.eq (n := s) hmem hb (by simp [Obj.claims]) (by simp [Obj.claims])
        rw [heq] at hstill
        exact hst.invoked hsole hstill
      obtain ⟨nd, hn⟩ := hgrow'.trees.live.wf.alive a.parent (.inl ⟨_, hstill, by simp [Obj.refs]⟩)
      rw [if_neg hno]
      exact .inl ⟨hstill, hr.step hgrow.trees.steady.toInv hok.1.2 hst hn, hzero⟩
    · refine .inr ⟨hgrow.trees.ended hst hmem hstill, ?_⟩
      rcases hst.running hmem hstill with rfl | ⟨y, l', rfl, hk, hr'⟩
      · have hcall : ¬ a.Passes x := by
          rintro ⟨hk, y, rfl⟩
          obtain ⟨l', x', hr', hcall⟩ := hst.invoke_next hk
          obtain ⟨-, rfl⟩ := hr.unique hr'
          exact hcall ⟨hk, y, rfl⟩
        rw [if_neg hcall, hzero]
        simp [Event.invokes]
      · obtain ⟨-, rfl⟩ := hr.unique hr'
        have hpass : a.Passes (.exception y : Outcome V E) := ⟨hk, y, rfl⟩
        rw [if_pos hpass, hzero]
        simp [Event.invokes]
  rcases hinv.2 with ⟨h, -, hzero⟩ | h
  · exact .inl ⟨h, hzero⟩
  · exact .inr h

/-! ## Destructors -/

/-- **Nobody begins to wait when a state is destroyed.** -/
theorem Wanted.destroyed (hst : Step c (.destroy n) c') (hw : Wanted (es ++ [.destroy n]) c' s) :
    Wanted es c s := by
  obtain ⟨nd, -, -, rfl⟩ := hst.destroy_inv
  have hneeds : ∀ a b, Needs (⟨Function.update c.nodes n none,
      c.objs.filter fun o => ¬ o.isLinked n, c.fresh⟩ : Config V E F) a b → Needs c a b := by
    rintro a b ⟨nd, hnd, hcase⟩
    refine ⟨nd, ?_, hcase⟩
    by_cases han : a = n
    · subst han
      simp at hnd
    · simpa [Function.update_of_ne han] using hnd
  have hobjs : ∀ {o : Obj F}, (o ∈ c.objs.filter fun o => ¬ o.isLinked n) → o ∈ c.objs :=
    fun h => Multiset.mem_of_mem_filter h
  obtain ⟨d, hpath, hd⟩ := hw
  refine ⟨d, ReflTransGen.mono hneeds d s hpath, ?_⟩
  cases hd with
  | future u h => exact .future u (hobjs h)
  | detached h hpend =>
    refine .detached (by simpa using h) fun hex => hpend ?_
    exact List.mem_append_left _ hex
  | unretrieved g h => exact .unretrieved g (hobjs h)
  | returning t hn h => exact .returning t (hneeds d t hn) (h.imp hobjs hobjs)
  | calling h => exact .calling (h.imp hobjs hobjs)

theorem inTrees_destroy (c : Config V E F) (n : ℕ) : InTrees c (.destroy n) :=
  inTrees_of (by rintro w l ⟨⟩) (by rintro g s t ⟨⟩)

/-- **A function that nobody waits for is destroyed**, when the destructors
that are due have run. -/
theorem Trace.destroyed (htr : Trace Step InTrees init es c) (hn : c.nodes s = some nd)
    {exec : Bool} (hb : nd.body = .cnt exec (some a)) (hno : ¬ Wanted es c s)
    (hrun : Runs Step IsDestroy c c') (hset : Settled c') : c'.nodes s = none := by
  have hinv : (∃ es', Trace Step InTrees init es' c' ∧ ¬ Wanted es' c' s) ∧
      ∀ nd', c'.nodes s = some nd' → nd' = nd := by
    refine hrun.invariant (I := fun c' => (∃ es', Trace Step InTrees init es' c' ∧
      ¬ Wanted es' c' s) ∧ ∀ nd', c'.nodes s = some nd' → nd' = nd) ?_ ⟨⟨es, htr, hno⟩, ?_⟩
    · rintro c₁ e c₂ ⟨⟨es', htr', hno'⟩, hsame⟩ ⟨n, rfl⟩ hst
      refine ⟨⟨es' ++ [.destroy n], htr'.snoc (inTrees_destroy c₁ n) hst,
        fun hw => hno' (hw.destroyed hst)⟩, fun nd' hn' => ?_⟩
      cases hst.node hn' with
      | same hn => exact hsame nd' hn
      | spawn _ hs => cases hs
      | settle _ _ hs => cases hs
      | unwrap _ he => cases he
      | touch _ ht => cases ht
      | execute _ he => cases he
    · intro nd' hn'
      exact Option.some.inj (hn'.symm.trans hn)
  obtain ⟨⟨es', htr', hno'⟩, hsame⟩ := hinv
  refine Option.eq_none_iff_forall_ne_some.mpr fun nd' hn' => hno' ?_
  obtain rfl := hsame nd' hn'
  exact (Trace.marked htr').wanted (Trace.growing htr').acyclic hset
    ((Trace.growing htr').trees.waiting hn' hb)

/-! ## The law -/

/-- **Cancellation in trees of continuations**, after the events `es`. -/
structure TreeLaw (es : List (Event V E F)) (c : Config V E F) : Prop where
  /-- a scheduled action takes its function out if somebody waits -/
  runs : ∀ s c', Settled c → Step c (.run s) c' → (Called c' s ↔ Wanted es c s)
  /-- and calls it then, if the parent has no error to pass on -/
  called : ∀ s a, .running s a ∈ c.objs → ∃ l x, Resolves c a.parent l x ∧
    (¬ a.Passes x → ∃ c', Step c (.invoke s a) c') ∧
    ∀ es' c', Trace Step InTrees c es' c' → .running s a ∉ c'.objs →
      es'.countP (Event.invokes s) = if a.Passes x then 0 else 1
  /-- if not the function is never called -/
  expired : ∀ s c', Step c (.run s) c' → ¬ Called c' s → ∀ es' c'', Trace Step InTrees c' es' c'' →
    es'.countP (Event.invokes s) = 0
  once : ∀ s, es.countP (Event.invokes s) ≤ 1
  /-- a function that has not been taken out is destroyed when nobody
  waits, and never called -/
  dropped : ∀ s nd exec a, c.nodes s = some nd → nd.body = .cnt exec (some a) →
    ¬ Wanted es c s → (∃ c', Runs Step IsDestroy c c' ∧ Settled c') ∧
    ∀ c', Runs Step IsDestroy c c' → Settled c' → c'.nodes s = none ∧
      ∀ es' c'', Trace Step InTrees c' es' c'' →
        c''.nodes s = none ∧ es'.countP (Event.invokes s) = 0
  /-- a promise without a result is told whether somebody waits -/
  awaiten : ∀ b s, .handle .promise b s ∈ c.objs →
    (∀ nd, c.nodes s = some nd → nd.storage = .empty) → Settled c →
    (c.IsAwaiten b s ↔ Wanted es c s)
  /-- and not asked in vain for the second time -/
  stays : ∀ b s, .handle .promise b s ∈ c.objs → ¬ c.IsAwaiten b s →
    ∀ es' c' b', Trace Step InTrees c es' c' → .handle .promise b' s ∈ c'.objs →
      ¬ c'.IsAwaiten b' s

theorem Step.run_pending (hst : Step c (.run s) c') : .handle .action false s ∈ c.objs := by
  cases hst with
  | move hm ho =>
    cases hm
    simp [ho]
  | spawn hs => cases hs
  | settle hs => cases hs
  | touch ht ho =>
    cases ht
    simp [ho]

/-- A promise whose state is owned has somebody who waits for the result. -/
theorem Trace.awaiten {b : Bool} (htr : Trace Step InTrees init es c)
    (hmem : .handle .promise b s ∈ c.objs)
    (hempty : ∀ nd, c.nodes s = some nd → nd.storage = .empty) (hset : Settled c) :
    c.IsAwaiten b s ↔ Wanted es c s := by
  have hgrow := Trace.growing htr
  constructor
  · rintro (rfl | howned)
    · exact ⟨s, .refl, .unretrieved .promise hmem⟩
    · obtain ⟨nd, hn⟩ := hgrow.trees.live.wf.alive s howned
      have hs := hempty nd hn
      have hsole := hgrow.trees.steady.claimed.sole
      refine (Trace.marked htr).wanted hgrow.acyclic hset
        ⟨nd, hn, ?_, .inl ⟨hs, fun a ha => ?_, fun hi => ?_⟩⟩
      · by_contra hex
        -- a state that is ready has a result
        have hex : c.isExecuted s = true := by rw [isExecuted_eq hn]; simpa using hex
        refine hgrow.trees.live.stored.nodes s hex nd hn (fun hk => ?_) hs
        have := hgrow.trees.planted.isCombinator hn
        rw [Body.isCombinator_iff.mpr hk] at this
        cases this
      · have := hsole.eq (n := s) hmem ha (by simp [Obj.claims]) (by simp [Obj.claims])
        cases this
      · have := hsole.eq (n := s) hmem hi (by simp [Obj.claims]) (by simp [Obj.claims])
        cases this
  · exact fun hw => .inr ((Trace.marked htr).owned hw)

/-- **Whoever is waited for is called, and only they are.** -/
theorem tree_law (htr : Trace Step InTrees init es c) : TreeLaw es c := by
  have hgrow := Trace.growing htr
  have hwf := hgrow.trees.live.wf
  have hsole := hgrow.trees.steady.claimed.sole
  refine ⟨fun s c' hset hst => ?_, fun s a hmem => ?_, fun s c' hst hout es' c'' htr' => ?_,
    Trace.invoked_once htr, fun s nd exec a hn hb hno => ?_, fun b s hmem hempty hset =>
      Trace.awaiten htr hmem hempty hset, fun b s hmem hno es' c' b' htr' hmem' => ?_⟩
  · rw [hst.runs hsole]
    refine ⟨fun howned => ?_, (Trace.marked htr).owned⟩
    obtain ⟨nd, hn⟩ := hwf.alive s howned
    obtain ⟨-, -, ⟨a, hb, -⟩⟩ := hgrow.trees.steady.claimed.pending _ hst.run_pending nd hn
    exact (Trace.marked htr).wanted hgrow.acyclic hset (hgrow.trees.waiting hn hb)
  · obtain ⟨l, x, hr⟩ := hgrow.trees.steady.parent_resolves hgrow.grounded hmem
    refine ⟨l, x, hr, hgrow.trees.can_invoke hmem hr, fun es' c' htr' hout => ?_⟩
    rcases Trace.after_run htr' hgrow hmem hr with ⟨hstill, -⟩ | ⟨-, hcount⟩
    · exact absurd hstill hout
    · exact hcount
  · have hlt : s < c.fresh := hwf.names _ hst.run_pending s (by simp [Obj.names])
    have hun : ¬ Owned c s := fun howned => hout ((hst.runs hsole).mpr howned)
    have hrun : Runs Step Unguarded c c' := .single trivial hst
    exact Trace.not_invoked htr' (hlt.trans_le hst.fresh_le) (owned_run hrun hlt hun)
  · refine ⟨settles_down hgrow.trees.live, fun c' hrun hset => ?_⟩
    have hnone := Trace.destroyed htr hn hb hno hrun hset
    have hlt : s < c'.fresh := (hwf.bound s nd hn).trans_le (fresh_le_run hrun)
    refine ⟨hnone, fun es' c'' htr' => ⟨gone_run htr'.runs hlt hnone, ?_⟩⟩
    refine Trace.not_invoked htr' hlt fun howned => ?_
    have hwf' : Wf c' := hrun.invariant (fun _ _ _ h _ hst => Wf.step h hst) hwf
    obtain ⟨nd', hn'⟩ := hwf'.alive s howned
    rw [hnone] at hn'
    cases hn'
  · have hlt : s < c.fresh := hwf.names _ hmem s (by simp [Obj.names])
    have hun : ¬ Owned c' s := owned_run htr'.runs hlt fun howned => hno (.inr howned)
    rintro (rfl | howned)
    · exact hun (.inl ⟨_, hmem', by simp [Obj.refs]⟩)
    · exact hun howned

/-- The function of 1, a continuation of 0, attaches 2 to 0 as well and
returns the future of that. Then the action of 2 is scheduled. -/
theorem sibling_run : ∃ (es : List (Event Unit Unit Unit)) (c : Config Unit Unit Unit),
    Trace Step InTrees init es c ∧
      es = [.newPromise 0, .share 0, .attach 1 ⟨.then', false, (), 0⟩, .set 0 (.inl ()), .execute 0,
        .call 0 (.schedule 1), .run 1, .invoke 1 ⟨.then', false, (), 0⟩,
        .attach 2 ⟨.then', false, (), 0⟩, .unwrap .cnt 1 2, .call 0 (.schedule 2)] ∧
      c.objs = {.spent 0 (.schedule 2), .handle .action false 2, .subscribing 1 2,
        .future false 0, .spent 0 (.schedule 1), .held 0, .handle .promise false 0, .future true 1,
        .future false 0} ∧
      c.nodes 0 = some ⟨.value (), true, .promise false⟩ ∧
      c.nodes 1 = some ⟨.inner 2, false, .cnt false none⟩ ∧
      c.nodes 2 = some ⟨.empty, false, .cnt false (some ⟨.then', false, (), 0⟩)⟩ ∧
      c.fresh = 3 := by
  have h₀ : Trace Step InTrees (init : Config Unit Unit Unit) [] init := .nil _
  have h₁ := h₀.snoc (inTrees_of (by rintro _ _ ⟨⟩) (by rintro _ _ _ ⟨⟩))
    (.spawn (.makePromise false) (Multiset.zero_add _).symm)
  have h₂ := h₁.snoc (inTrees_of (by rintro _ _ ⟨⟩) (by rintro _ _ _ ⟨⟩)) (.move (.share 0)
    (show _ = _ + ({.handle .promise false 0} : Multiset (Obj Unit)) by decide))
  have h₃ := h₂.snoc (inTrees_of (by rintro _ _ ⟨⟩) (by rintro _ _ _ ⟨⟩))
    (.spawn (.attach ⟨.then', false, (), 0⟩)
      (show _ = _ + ({.handle .promise false 0} : Multiset (Obj Unit)) by decide))
  have h₄ := h₃.snoc (inTrees_of (by rintro _ _ ⟨⟩) (by rintro _ _ _ ⟨⟩))
    (.settle (.setValue false 0 () (.inl ⟨.future false 0, by decide, by decide⟩))
      (show _ = _ + ({.future true 1, .linked 0 (.schedule 1), .future false 0} :
        Multiset (Obj Unit)) by decide) rfl rfl)
  have h₅ := h₄.snoc (inTrees_of (by rintro _ _ ⟨⟩) (by rintro _ _ _ ⟨⟩)) (.execute (s := 0)
    (show _ = _ + ({.handle .promise false 0, .future true 1, .linked 0 (.schedule 1),
      .future false 0} : Multiset (Obj Unit)) by decide) rfl)
  have h₆ := h₅.snoc (inTrees_of (by rintro _ _ ⟨⟩) (by rintro _ _ _ ⟨⟩))
    (.touch (.schedule 0 1 _ _ (.inl ⟨.future true 1, by decide, by decide⟩) rfl)
      (show _ = _ + ({.held 0, .handle .promise false 0, .future true 1, .future false 0} :
        Multiset (Obj Unit)) by decide) rfl)
  have h₇ := h₆.snoc (inTrees_of (by rintro _ _ ⟨⟩) (by rintro _ _ _ ⟨⟩))
    (.touch (.run 1 _ false _ (.inl ⟨.future true 1, by decide, by decide⟩) rfl)
      (show _ = _ + ({.spent 0 (.schedule 1), .held 0, .handle .promise false 0, .future true 1,
        .future false 0} : Multiset (Obj Unit)) by decide) rfl)
  have h₈ := h₇.snoc (inTrees_of (by rintro _ _ ⟨⟩) (by rintro _ _ _ ⟨⟩))
    (.move (.invokeThen 1 ⟨.then', false, (), 0⟩ rfl)
      (show _ = _ + ({.spent 0 (.schedule 1), .held 0, .handle .promise false 0, .future true 1,
        .future false 0} : Multiset (Obj Unit)) by decide))
  have h₉ := h₈.snoc (inTrees_of (by rintro _ _ ⟨⟩) (by rintro _ _ _ ⟨⟩))
    (.spawn (.attach ⟨.then', false, (), 0⟩)
      (show _ = _ + ({.invoked .cnt 1, .spent 0 (.schedule 1), .held 0,
        .handle .promise false 0, .future true 1, .future false 0} : Multiset (Obj Unit)) by
        decide))
  have h₁₀ := h₉.snoc (by
      refine ⟨⟨by rintro _ _ ⟨⟩, by rintro _ _ _ ⟨⟩⟩, ?_⟩
      rintro g s t ⟨⟩ hpath
      -- 2 owns nothing but 0, which owns nothing
      rcases ReflTransGen.cases_head hpath with heq | ⟨m, ⟨nd, hn, hm⟩, hpath⟩
      · cases heq
      obtain rfl := Option.some.inj hn
      obtain rfl : m = 0 := by simpa [Node.refs, Storage.refs, Body.refs] using hm
      rcases ReflTransGen.cases_head hpath with heq | ⟨m, ⟨nd, hn, hm⟩, -⟩
      · cases heq
      obtain rfl := Option.some.inj hn
      simp [Node.refs, Storage.refs, Body.refs] at hm)
    (.unwrap (h := .cnt) (s := 1) (t := 2) (u := true)
      (show _ = _ + ({.queued 0 (.schedule 2), .future false 0, .spent 0 (.schedule 1), .held 0,
        .handle .promise false 0, .future true 1, .future false 0} : Multiset (Obj Unit)) by decide)
      rfl)
  have h₁₁ := h₁₀.snoc (inTrees_of (by rintro _ _ ⟨⟩) (by rintro _ _ _ ⟨⟩))
    (.touch (.schedule 0 2 _ _ (.inl ⟨.subscribing 1 2, by decide, by decide⟩) rfl)
      (show _ = _ + ({.subscribing 1 2, .future false 0, .spent 0 (.schedule 1), .held 0,
        .handle .promise false 0, .future true 1, .future false 0} : Multiset (Obj Unit)) by decide)
      rfl)
  exact ⟨_, _, h₁₁, rfl, rfl, rfl, rfl, rfl, rfl⟩

/-- Somebody waits for 1, and so for 2. -/
theorem tree_law_of_sibling : ∃ (es : List (Event Unit Unit Unit)) (c : Config Unit Unit Unit),
    .handle .action false 2 ∈ c.objs ∧ Wanted es c 2 ∧ TreeLaw es c := by
  obtain ⟨es, c, htr, -, ho, -, h1, h2, -⟩ := sibling_run
  refine ⟨es, c, by simp [ho], ⟨1, .single ⟨_, h1, .inr rfl⟩, .future true (by simp [ho])⟩,
    tree_law htr⟩

/-- `d` was attached to `s`. -/
def Attached (es : List (Event V E F)) (d s : ℕ) : Prop := ∃ a, .attach d a ∈ es ∧ a.parent = s

/-- **A function is also called for somebody outside of its subtree.** -/
theorem called_for_sibling : ¬ ∀ (es : List (Event Unit Unit Unit)) (c c' : Config Unit Unit Unit)
    (s : ℕ), Trace Step InTrees init es c → Settled c → Step c (.run s) c' →
    (Called c' s ↔ ∃ d, ReflTransGen (Attached es) d s ∧
      ((∃ u, .future u d ∈ c.objs) ∨ .detach d ∈ es)) := by
  intro hall
  obtain ⟨es, c, htr, hes, ho, h0, h1, h2, hfresh⟩ := sibling_run
  have howned : Owned c 2 := .inl ⟨.subscribing 1 2, by simp [ho], by simp [Obj.refs]⟩
  have hset : Settled c := by
    refine Settled.of_owned (Trace.growing htr).trees.live.wf fun n hn => ?_
    have hcases : n = 0 ∨ n = 1 ∨ n = 2 := by omega
    rcases hcases with rfl | rfl | rfl
    · exact .inl ⟨.held 0, by simp [ho], by simp [Obj.refs]⟩
    · exact .inl ⟨.future true 1, by simp [ho], by simp [Obj.refs]⟩
    · exact howned
  obtain ⟨rest, hrest⟩ := Multiset.exists_cons_of_mem
    (show .handle .action false 2 ∈ c.objs by simp [ho])
  have hst := Step.touch (.run 2 _ false _ howned rfl) (show _ = _ + rest from hrest) h2
  obtain ⟨d, hpath, hd⟩ := (hall es c _ 2 htr hset hst).mp ⟨_, Multiset.mem_cons_self _ _⟩
  -- nothing is attached to 2
  obtain rfl : d = 2 := by
    rcases ReflTransGen.cases_tail hpath with heq | ⟨m, -, a, ha, hp⟩
    · exact heq.symm
    · rw [hes] at ha
      simp only [List.mem_cons, Event.attach.injEq, reduceCtorEq, List.not_mem_nil, or_false,
        false_or] at ha
      rcases ha with ⟨-, rfl⟩ | ⟨-, rfl⟩ <;> cases hp
  rcases hd with ⟨u, hmem⟩ | hmem
  · simp [ho] at hmem
  · simp [hes] at hmem

end Futures

end PortableConcurrency
