import PortableConcurrency.Futures.Trees

/-!
# Who is waited for

A continuation is called when somebody still waits for its result. What
keeps it is a chain of owners: a continuation owns its parent until it is
called, and a state that was unwrapped owns the state of the future that
its function returned. At the end of the chain somebody has a future, or
has detached one.
-/

namespace PortableConcurrency

namespace Futures

open Relation

variable {V E F : Type*} {c c' : Config V E F} {e : Event V E F} {es : List (Event V E F)}
variable {rem add rest : Multiset (Obj F)} {d s t m n : ℕ} {o : Obj F} {nd nd' : Node V E F}

/-- **`d` needs `s`**: it is a continuation of `s` that has not been
called, or its function returned a future of `s`. -/
def Needs (c : Config V E F) (d s : ℕ) : Prop :=
  ∃ nd, c.nodes d = some nd ∧
    ((∃ exec a, nd.body = .cnt exec (some a) ∧ a.parent = s) ∨ nd.storage = .inner s)

/-- **Somebody waits at `d` itself.** -/
inductive WaitedAt (es : List (Event V E F)) (c : Config V E F) (d : ℕ) : Prop
  /-- with a future -/
  | future (u : Bool) (h : .future u d ∈ c.objs)
  /-- or has detached one, and `d` is not ready -/
  | detached (h : .detach d ∈ es) (hpend : .execute d ∉ es)
  /-- or can still get one -/
  | unretrieved (g : Producer) (h : .handle g true d ∈ c.objs)
  /-- its function has returned a future, and the call has not ended -/
  | returning (t : ℕ) (hn : Needs c d t) (h : .subscribing d t ∈ c.objs ∨ .held d ∈ c.objs)
  /-- it is a task that is being called -/
  | calling (h : .invoked .task d ∈ c.objs ∨ .cleaning d ∈ c.objs)

/-- **Somebody waits for `s`**: at a state that needs it, directly or not. -/
def Wanted (es : List (Event V E F)) (c : Config V E F) (s : ℕ) : Prop :=
  ∃ d, ReflTransGen (Needs c) d s ∧ WaitedAt es c d

theorem Needs.owned (h : Needs c d s) : Owned c s := by
  obtain ⟨nd, hn, ⟨exec, a, hb, rfl⟩ | hs⟩ := h
  · exact .inr ⟨d, nd, hn, by simp [Node.refs, Body.refs, hb]⟩
  · exact .inr ⟨d, nd, hn, by simp [Node.refs, Storage.refs, hs]⟩

theorem Needs.refs (h : Needs c d s) : Refs c d s := by
  obtain ⟨nd, hn, ⟨exec, a, hb, rfl⟩ | hs⟩ := h
  · exact ⟨nd, hn, by simp [Node.refs, Body.refs, hb]⟩
  · exact ⟨nd, hn, by simp [Node.refs, Storage.refs, hs]⟩

/-- In trees there are no other owners among the states. -/
theorem Planted.needs (h : Planted c) (hr : Refs c d s) : Needs c d s := by
  obtain ⟨nd, hn, hmem⟩ := hr
  refine ⟨nd, hn, ?_⟩
  rcases List.mem_append.mp hmem with hmem | hmem
  · right
    cases hs : nd.storage <;> simp [hs, Storage.refs] at hmem
    rw [hmem]
  · left
    cases hb : nd.body with
    | cnt exec a =>
      cases a with
      | none => simp [hb, Body.refs] at hmem
      | some a =>
        simp only [hb, Body.refs, List.mem_singleton] at hmem
        exact ⟨exec, a, rfl, hmem.symm⟩
    | promise | task => simp [hb, Body.refs] at hmem
    | whenAll l | whenAny l =>
      have := h.isCombinator hn
      simp [hb, Body.isCombinator] at this

/-! ## What the run has left behind -/

/-- Whose list a closure of `detach` is in, and what it refers to. -/
def Obj.detaches : Obj F → Option (ℕ × ℕ)
  | .linked t (.detached d) => some (t, d)
  | .queued t (.detached d) => some (t, d)
  | .spent t (.detached d) => some (t, d)
  | _ => none

/-- `s` is ready, or its function has returned a future. -/
def Lasting (c : Config V E F) (s : ℕ) : Prop :=
  ∀ nd, c.nodes s = some nd → nd.executed = true ∨ ∃ t, nd.storage = .inner t

/-- **What the past of a run says of a configuration.** -/
structure Marked (es : List (Event V E F)) (c : Config V E F) : Prop where
  trees : Trees c
  /-- what is ready was executed -/
  old : ∀ n, .execute n ∈ es → n < c.fresh
  executed : ∀ n nd, c.nodes n = some nd → (nd.executed = true ↔ .execute n ∈ es)
  /-- what was detached keeps itself until it is ready -/
  detached : ∀ d, .detach d ∈ es → .execute d ∈ es ∨ .linked d (.detached d) ∈ c.objs
  /-- its closure is in its own list -/
  closures : ∀ o t d, o ∈ c.objs → o.detaches = some (t, d) → t = d ∧ .detach d ∈ es
  /-- no call holds a state whose function may still be called -/
  locals : ∀ s, .held s ∈ c.objs → Lasting c s

theorem marked_init : Marked [] (init : Config V E F) := by
  refine ⟨trees_init, ?_, ?_, ?_, ?_, ?_⟩ <;> simp [init]

theorem Step.executes (hst : Step c (.execute n) c') :
    (∃ nd, c.nodes n = some nd) ∧ ∀ nd', c'.nodes n = some nd' → nd'.executed = true := by
  obtain ⟨rest, nd, -, hn, rfl⟩ := hst.execute_inv
  refine ⟨⟨_, hn⟩, fun nd' hn' => ?_⟩
  simp only [Config.setNode, Function.update_self, Option.some.injEq] at hn'
  rw [← hn']

theorem Marked.old_step (h : Marked es c) (hst : Step c e c') (n : ℕ)
    (hmem : .execute n ∈ es ++ [e]) : n < c'.fresh := by
  have hle := hst.fresh_le
  rcases List.mem_append.mp hmem with hold | hnew
  · have := h.old n hold
    omega
  · obtain rfl := List.mem_singleton.mp hnew
    obtain ⟨nd, hn⟩ := hst.executes.1
    have := h.trees.live.wf.bound n nd hn
    omega

theorem Marked.executed_step (h : Marked es c) (hok : OnlyTrees c e) (hst : Step c e c') (n : ℕ)
    (nd' : Node V E F) (hn' : c'.nodes n = some nd') :
    nd'.executed = true ↔ .execute n ∈ es ++ [e] := by
  have hmem : .execute n ∈ es ++ [e] ↔ .execute n ∈ es ∨ .execute n = e := by simp
  rw [hmem]
  by_cases he : .execute n = e
  · subst he
    exact iff_of_true (hst.executes.2 nd' hn') (.inr rfl)
  rw [or_iff_left he]
  cases hst.node hn' with
  | same hn => exact h.executed n nd' hn
  | spawn hf hs =>
    -- a new state is not ready, and was not named before
    have hold : .execute n ∉ es := fun hx => by
      have := h.old n hx
      omega
    refine iff_of_false ?_ hold
    cases hs with
    | readySequence => exact absurd rfl (hok.1 _ [])
    | _ => simp
  | @settle nd _ _ _ _ _ hn => exact h.executed n nd hn
  | @unwrap nd _ _ _ _ hn => exact h.executed n nd hn
  | @touch nd _ _ _ _ hn => exact h.executed n nd hn
  | execute hn he' => exact absurd he'.symm he

/-- The closure of `detach` is linked unless the state is ready. -/
theorem Step.detaches (hst : Step c (.detach d) c') :
    c.isExecuted d = true ∨ .linked d (.detached d) ∈ c'.objs := by
  cases hst with
  | move hm =>
    cases hm with
    | detach u =>
      rcases hex : c.isExecuted d with _ | _
      · exact .inr (by simp [Config.push, hex])
      · exact .inl rfl
  | spawn hs => cases hs
  | settle hs => cases hs
  | touch ht => cases ht

theorem Marked.detached_step (h : Marked es c) (hst : Step c e c') (d : ℕ)
    (hmem : .detach d ∈ es ++ [e]) :
    .execute d ∈ es ++ [e] ∨ .linked d (.detached d) ∈ c'.objs := by
  rcases List.mem_append.mp hmem with hold | hnew
  · rcases h.detached d hold with hex | hl
    · exact .inl (List.mem_append_left _ hex)
    · rcases hst.linked hl with hl | ⟨rfl, -⟩ | ⟨-, hun⟩
      · exact .inr hl
      · exact .inl (List.mem_append_right _ (List.mem_singleton_self _))
      · exact absurd (.inl ⟨_, hl, by simp [Obj.refs, Closure.refs]⟩) hun
  · obtain rfl := List.mem_singleton.mp hnew
    refine hst.detaches.imp (fun hex => ?_) id
    obtain ⟨nd, hn, hex⟩ := node_of_isExecuted hex
    exact List.mem_append_left _ ((h.executed d nd hn).mp hex)

theorem push_detaches (k : Closure) :
    (c.push t k : Obj F).detaches = (Obj.linked t k : Obj F).detaches := by
  unfold Config.push
  split <;> cases k <;> rfl

theorem not_detaches_inputs {l : List Input} (h : o ∈ inputObjs l) : o.detaches = none := by
  obtain ⟨f, -, rfl⟩ := mem_inputObjs.mp h
  rfl

/-- Only `detach` makes such a closure. -/
theorem Move.detaches (hm : Move c e rem add) (hmem : o ∈ add) (hd : o.detaches = some (t, d)) :
    (∃ o ∈ rem, o.detaches = some (t, d)) ∨ (e = .detach d ∧ t = d) := by
  cases hm with
  | detach u s =>
    simp only [Multiset.insert_eq_cons, Multiset.mem_cons, Multiset.mem_singleton] at hmem
    rcases hmem with rfl | rfl
    · cases hd
    · rw [push_detaches] at hd
      cases hd
      exact .inr ⟨rfl, rfl⟩
  | notify | subscribe =>
    simp only [Multiset.insert_eq_cons, Multiset.mem_cons, Multiset.mem_singleton] at hmem
    rcases hmem with rfl | rfl
    · cases hd
    · rw [push_detaches] at hd
      cases hd
  | peek =>
    rcases Multiset.mem_cons.mp hmem with rfl | hmem
    · cases hd
    · rw [not_detaches_inputs hmem] at hd
      cases hd
  | invokeNextShared =>
    simp only [Multiset.mem_cons] at hmem
    rcases hmem with rfl | rfl | hmem
    · cases hd
    · cases hd
    · rw [not_detaches_inputs hmem] at hd
      cases hd
  | callPlain t' k =>
    obtain rfl := Multiset.mem_singleton.mp hmem
    refine .inl ⟨.queued t' k, Multiset.mem_singleton_self _, ?_⟩
    cases k <;> exact hd
  | callExpired t' s k hk =>
    obtain rfl := Multiset.mem_singleton.mp hmem
    rcases hk with rfl | rfl <;> cases hd
  | dropFuture | dropPromise | dropExpired | runExpired | releaseSpent | releaseHeld =>
    simp at hmem
  | share =>
    obtain rfl := Multiset.mem_singleton.mp hmem
    cases hd
  | getFuture | copy | callUnwrap | invokeThen | invokeInterruptible | invokeNext | callTask
  | retThrows | register =>
    simp only [Multiset.insert_eq_cons, Multiset.mem_cons, Multiset.mem_singleton] at hmem
    rcases hmem with rfl | rfl <;> cases hd

theorem Marked.closures_step (h : Marked es c) (hst : Step c e c') (o : Obj F) (t d : ℕ)
    (hmem : o ∈ c'.objs) (hd : o.detaches = some (t, d)) : t = d ∧ .detach d ∈ es ++ [e] := by
  have hold : ∀ {o}, o ∈ c.objs → o.detaches = some (t, d) → t = d ∧ .detach d ∈ es ++ [e] :=
    fun ho hd => (h.closures _ t d ho hd).imp id (List.mem_append_left _)
  refine hst.forall_objs (P := fun o => o.detaches = some (t, d) → t = d ∧ .detach d ∈ es ++ [e])
    (fun o ho => hold ho) ?_ ?_ ?_ ?_ ?_ ?_ o hmem hd
  · intro rem add rest hm ho o hadd hd
    rcases hm.detaches hadd hd with ⟨o', hrem, hd⟩ | ⟨rfl, rfl⟩
    · exact hold (mem_of_rem ho hrem) hd
    · exact ⟨rfl, by simp⟩
  · intro rem add rest nd hs ho _ o hadd hd
    cases hs with
    | attach a =>
      simp only [Multiset.mem_cons, mem_keeps] at hadd
      rcases hadd with rfl | rfl | ⟨-, -, rfl⟩
      · cases hd
      · rw [push_detaches] at hd
        cases hd
      · cases hd
    | makePromise =>
      simp only [Multiset.insert_eq_cons, Multiset.mem_cons, Multiset.mem_singleton] at hadd
      rcases hadd with rfl | rfl <;> cases hd
    | _ =>
      obtain rfl := Multiset.mem_singleton.mp hadd
      cases hd
  · intro rem add rest s x clean nd hs ho _ _
    refine ⟨by simp [Obj.detaches], fun o hadd hd => ?_⟩
    cases hs with
    | ret g =>
      obtain ⟨-, rfl⟩ := mem_cleanup.mp hadd
      cases hd
    | abandon => simp at hadd
    | _ =>
      obtain rfl := Multiset.mem_singleton.mp hadd
      cases hd
  · simp [Obj.detaches]
  · intro rem add rest s nd body ht ho hn o hadd hd
    have hnone : o.detaches = none := by
      cases ht with
      | abandon | clean => simp at hadd
      | run =>
        obtain rfl := Multiset.mem_singleton.mp hadd
        rfl
      | schedule =>
        simp only [Multiset.insert_eq_cons, Multiset.mem_cons, Multiset.mem_singleton] at hadd
        rcases hadd with rfl | rfl <;> rfl
      | notify | finish =>
        simp only [Multiset.mem_cons, mem_executeIf] at hadd
        rcases hadd with rfl | ⟨-, rfl⟩ <;> rfl
      | register =>
        simp only [Multiset.mem_cons, mem_executeIf] at hadd
        rcases hadd with rfl | rfl | ⟨-, rfl⟩ <;> rfl
      | take =>
        rcases Multiset.mem_cons.mp hadd with rfl | hadd
        · rfl
        · exact not_detaches_inputs hadd
      | invokeNext =>
        simp only [Multiset.mem_cons] at hadd
        rcases hadd with rfl | rfl | hadd
        · rfl
        · rfl
        · exact not_detaches_inputs hadd
    rw [hnone] at hd
    cases hd
  · intro s rest nd he ho hn hn'
    exact ⟨by simp [Obj.detaches], fun k hl hd => hold hl (by cases k <;> exact hd)⟩

theorem Lasting.step (h : Inv c) (hfirst : FirstResult c e) (hst : Step c e c')
    (hlt : s < c.fresh) (hs : Lasting c s) : Lasting c' s := by
  intro nd' hn'
  obtain ⟨nd, hn⟩ := hst.old hlt hn'
  refine (hs nd hn).imp (hst.node_le h.wf hn hn').executed fun ⟨t, ht⟩ => ⟨t, ?_⟩
  rw [hst.storage_eq h hfirst hn hn' (by simp [ht]), ht]

theorem Resolves.lasting {l : ℕ} {x : Outcome V E} (h : Resolves c s l x) : Lasting c s := by
  intro nd hn
  cases h with
  | leaf hn' hex | inner hn' hex =>
    obtain rfl := Option.some.inj (hn.symm.trans hn')
    exact .inl hex

theorem Marked.locals_step (h : Marked es c) (hfirst : FirstResult c e) (hst : Step c e c')
    (s : ℕ) (hmem : .held s ∈ c'.objs) : Lasting c' s := by
  have hstep : ∀ {s}, s < c.fresh → Lasting c s → Lasting c' s :=
    fun hlt hs => hs.step h.trees.steady.toInv hfirst hst hlt
  have hlt : ∀ {o n}, o ∈ c.objs → n ∈ o.names → n < c.fresh :=
    fun ho hn => h.trees.live.wf.names _ ho _ hn
  refine hst.forall_objs (P := fun o => ∀ s, o = .held s → Lasting c' s) ?_ ?_ ?_ ?_ ?_ ?_ ?_
    _ hmem s rfl
  · rintro o ho s rfl
    exact hstep (hlt ho (by simp [Obj.names])) (h.locals s ho)
  · intro rem add rest hm ho o hadd s heq
    subst heq
    have hrem : ∀ {o n}, o ∈ rem → n ∈ o.names → n < c.fresh :=
      fun ho' => hlt (mem_of_rem ho ho')
    cases hm with
    | subscribe s' t =>
      simp only [Multiset.insert_eq_cons, Multiset.mem_cons, Multiset.mem_singleton,
        Obj.held.injEq] at hadd
      rcases hadd with rfl | heq
      · refine hstep (hrem (Multiset.mem_singleton_self _) (by simp [Obj.names])) fun nd hn => ?_
        exact .inr ⟨t, h.trees.steady.unwrapped.objs (.subscribing s t) (by simp [ho]) nd hn⟩
      · unfold Config.push at heq
        split at heq <;> cases heq
    | invokeNext s' l a v hk hr =>
      simp only [Multiset.insert_eq_cons, Multiset.mem_cons, Multiset.mem_singleton,
        Obj.held.injEq, reduceCtorEq, false_or] at hadd
      subst hadd
      exact hstep (hrem (Multiset.mem_singleton_self _) (by simp [Obj.names])) hr.lasting
    | invokeNextShared s' w a nd hk hu hr =>
      simp only [Multiset.mem_cons, Obj.held.injEq, reduceCtorEq, false_or, sharedObjs,
        mem_inputObjs, and_false, exists_false, or_false] at hadd
      subst hadd
      exact hstep (hrem (Multiset.mem_singleton_self _) (by simp [Obj.names])) hr.lasting
    | notify | detach =>
      simp only [Multiset.insert_eq_cons, Multiset.mem_cons, Multiset.mem_singleton,
        reduceCtorEq, false_or] at hadd
      unfold Config.push at hadd
      split at hadd <;> cases hadd
    | peek => simp [sharedObjs, mem_inputObjs] at hadd
    | _ => simp at hadd
  · intro rem add rest nd hs ho _ o hadd s heq
    subst heq
    cases hs with
    | attach =>
      simp only [Multiset.mem_cons, mem_keeps, reduceCtorEq, false_or, and_false, or_false] at hadd
      unfold Config.push at hadd
      split at hadd <;> cases hadd
    | _ => simp at hadd
  · intro rem add rest s' x clean nd hs ho hn hn'
    refine ⟨by simp, fun o hadd s heq => ?_⟩
    subst heq
    cases hs with
    | passError _ l a x hk hr =>
      simp only [Multiset.mem_singleton, Obj.held.injEq] at hadd
      subst hadd
      exact hstep (hlt (o := .running s' a) (by simp [ho]) (by simp [Obj.names])) hr.lasting
    | ret => simp [mem_cleanup] at hadd
    | _ => simp at hadd
  · simp
  · intro rem add rest s' nd body ht ho hn o hadd s heq
    subst heq
    have hrem : ∀ {o n}, o ∈ rem → n ∈ o.names → n < c.fresh :=
      fun ho' => hlt (mem_of_rem ho ho')
    cases ht with
    | take s₁ w nd hr =>
      simp only [Multiset.mem_cons, Obj.held.injEq, mem_inputObjs, reduceCtorEq, and_false,
        exists_false, or_false] at hadd
      subst hadd
      exact hstep (hrem (Multiset.mem_singleton_self _) (by simp [Obj.names])) hr.lasting
    | invokeNext s₁ w a nd hk hu hr =>
      simp only [Multiset.mem_cons, Obj.held.injEq, mem_inputObjs, reduceCtorEq, and_false,
        exists_false, or_false, false_or] at hadd
      subst hadd
      exact hstep (hrem (Multiset.mem_singleton_self _) (by simp [Obj.names])) hr.lasting
    | _ => simp [mem_executeIf] at hadd
  · intro s' rest nd he ho hn hn'
    refine ⟨?_, by simp⟩
    rintro s ⟨⟩ nd' hm
    obtain rfl := Option.some.inj (hn'.symm.trans hm)
    exact .inl rfl

theorem Marked.step (h : Marked es c) (hok : OnlyTrees c e) (hst : Step c e c') :
    Marked (es ++ [e]) c' :=
  ⟨h.trees.step hok hst, h.old_step hst, h.executed_step hok hst, h.detached_step hst,
    h.closures_step hst, h.locals_step hok.2 hst⟩

theorem Marked.of_trace {ok : Config V E F → Event V E F → Prop}
    (hweak : ∀ c e, ok c e → OnlyTrees c e) (htr : Trace Step ok init es c) : Marked es c :=
  htr.invariant (I := Marked) (fun _ _ _ _ h hok hst => h.step (hweak _ _ hok) hst) marked_init

/-! ## Whose owners are waiting -/

/-- **A state that waits**: its function has not been called, or has
returned a future that is not ready. -/
def Waiting (c : Config V E F) (s : ℕ) : Prop :=
  ∃ nd, c.nodes s = some nd ∧ nd.executed = false ∧
    ((nd.storage = .empty ∧ (∀ a, .running s a ∉ c.objs) ∧ .invoked .cnt s ∉ c.objs) ∨
      ∃ t, nd.storage = .inner t ∧ c.isExecuted t = false)

/-- A continuation that has its action waits. -/
theorem Trees.waiting (h : Trees c) (hn : c.nodes s = some nd) {exec : Bool} {a : Action F}
    (hb : nd.body = .cnt exec (some a)) : Waiting c s := by
  obtain ⟨hs, hex⟩ := h.unstarted s nd exec a hn hb
  refine ⟨nd, hn, hex, .inl ⟨hs, fun a hmem => ?_, fun hmem => ?_⟩⟩
  · have := ((h.steady.claimed.pending _ hmem).2 nd hn).2.2
    simp [hb] at this
  · have := (h.steady.claimed.pending _ hmem nd hn).2.2
    simp [hb] at this

/-- **Who needs a state that waits is waiting.** -/
theorem Trees.waiting_up (h : Trees c) (hneeds : Needs c m s) (hs : Waiting c s) :
    Waiting c m := by
  obtain ⟨nd, hn, ⟨exec, a, hb, -⟩ | hinner⟩ := hneeds
  · exact h.waiting hn hb
  · obtain ⟨nds, hns, hpend, -⟩ := hs
    have hpend : c.isExecuted s = false := by rw [isExecuted_eq hns, hpend]
    have hcomb : nd.body.kind ≠ .combinator := fun hk => by
      have := h.planted.isCombinator hn
      rw [Body.isCombinator_iff.mpr hk] at this
      cases this
    refine ⟨nd, hn, ?_, .inr ⟨s, hinner, hpend⟩⟩
    by_contra hex
    have hex : c.isExecuted m = true := by rw [isExecuted_eq hn]; simpa using hex
    rw [h.steady.unwrapped.nodes m hex nd s hn hcomb hinner] at hpend
    cases hpend

/-- **Who owns a state that waits**: somebody who waits for it, or a state
that needs it. -/
theorem Marked.owner (h : Marked es c) (hs : Waiting c s) (howned : Owned c s) :
    WaitedAt es c s ∨ ∃ m, Needs c m s := by
  obtain ⟨nd, hn, hpend, hstate⟩ := hs
  obtain ⟨o, ho, hmem⟩ | ⟨m, ndm, hm, hmem⟩ := howned
  swap
  · exact .inr ⟨m, h.trees.planted.needs ⟨ndm, hm, hmem⟩⟩
  have hkinded := h.trees.live.lists.kinded o ho
  have hready : ¬ Closed c s := fun hc => by
    rw [hc nd hn] at hpend
    cases hpend
  have hpending := h.trees.steady.claimed.pending o ho
  have hclosure : ∀ {t k}, o.detaches = (Obj.linked t k : Obj F).detaches → k.Kinded c →
      s ∈ k.refs → WaitedAt es c s := by
    intro t k hd hk hs
    cases k with
    | detached d =>
      simp only [Closure.refs, List.mem_singleton] at hs
      subst hs
      refine .detached (h.closures o t s ho hd).2 fun hex => ?_
      rw [(h.executed s nd hn).mpr hex] at hpend
      cases hpend
    | combine w =>
      simp only [Closure.refs, List.mem_singleton] at hs
      subst hs
      exact (h.trees.planted.not_combinator hk hn).elim
    | notify | schedule | unwrapCb => simp [Closure.refs] at hs
  cases o with
  | handle g owning n =>
    cases owning with
    | false => simp [Obj.refs] at hmem
    | true =>
      simp only [Obj.refs, if_true, List.mem_singleton] at hmem
      subst hmem
      exact .inl (.unretrieved g ho)
  | future u n =>
    simp only [Obj.refs, List.mem_singleton] at hmem
    subst hmem
    exact .inl (.future u ho)
  | linked t k => exact .inl (hclosure (t := t) rfl hkinded hmem)
  | queued t k | spent t k =>
    exact .inl (hclosure (t := t) (by cases k <;> rfl) hkinded.1 hmem)
  | execute n =>
    -- a result comes before the notification
    simp only [Obj.refs, List.mem_singleton] at hmem
    subst hmem
    have hcomb : nd.body.kind ≠ .combinator := fun hk =>
      (h.trees.planted.not_combinator (n := s) (fun nd' hn' => by
        rw [← hk, Option.some.inj (hn.symm.trans hn')]) hn).elim
    rcases hstate with ⟨hs, -⟩ | ⟨t, ht, hex⟩
    · exact absurd hs (h.trees.steady.stored.objs _ ho nd hn hcomb)
    · rw [h.trees.steady.unwrapped.objs _ ho nd t hn hcomb ht] at hex
      cases hex
  | running n a =>
    simp only [Obj.refs, List.mem_cons, List.not_mem_nil, or_false] at hmem
    rcases hmem with rfl | rfl
    · rcases hstate with ⟨-, hrun, -⟩ | ⟨t, ht, -⟩
      · exact absurd ho (hrun a)
      · rw [(hpending.2 nd hn).1] at ht
        cases ht
    · exact absurd hpending.1 hready
  | invoked g n =>
    simp only [Obj.refs, List.mem_singleton] at hmem
    subst hmem
    cases g with
    | task => exact .inl (.calling (.inl ho))
    | cnt =>
      rcases hstate with ⟨-, -, hinv⟩ | ⟨t, ht, -⟩
      · exact absurd ho hinv
      · rw [(hpending nd hn).1] at ht
        cases ht
  | subscribing n t =>
    obtain ⟨ndn, hnn⟩ := h.trees.live.wf.alive n (.inl ⟨_, ho, by simp [Obj.refs]⟩)
    have hneeds : Needs c n t := ⟨ndn, hnn, .inr (h.trees.steady.unwrapped.objs _ ho ndn hnn)⟩
    simp only [Obj.refs, List.mem_cons, List.not_mem_nil, or_false] at hmem
    rcases hmem with rfl | rfl
    · exact .inl (.returning t hneeds (.inl ho))
    · exact .inr ⟨n, hneeds⟩
  | cleaning n =>
    simp only [Obj.refs, List.mem_singleton] at hmem
    subst hmem
    exact .inl (.calling (.inr ho))
  | making n i =>
    simp only [Obj.refs, List.mem_singleton] at hmem
    subst hmem
    exact (h.trees.planted.not_combinator hkinded hn).elim
  | held n =>
    simp only [Obj.refs, List.mem_singleton] at hmem
    subst hmem
    rcases h.locals s ho nd hn with hex | ⟨t, ht⟩
    · rw [hex] at hpend
      cases hpend
    · exact .inl (.returning t ⟨nd, hn, .inr ht⟩ (.inr ho))

/-- Whoever is wanted has an owner. -/
theorem Marked.owned (h : Marked es c) (hw : Wanted es c s) : Owned c s := by
  obtain ⟨d, hpath, hd⟩ := hw
  rcases ReflTransGen.cases_tail hpath with rfl | ⟨m, -, hlast⟩
  · cases hd with
    | future u hmem => exact .inl ⟨_, hmem, by simp [Obj.refs]⟩
    | detached hmem hpend =>
      have hl := (h.detached s hmem).resolve_left hpend
      exact .inl ⟨_, hl, by simp [Obj.refs, Closure.refs]⟩
    | unretrieved g hmem => exact .inl ⟨_, hmem, by simp [Obj.refs]⟩
    | returning t _ hmem =>
      rcases hmem with hmem | hmem
      · exact .inl ⟨_, hmem, by simp [Obj.refs]⟩
      · exact .inl ⟨_, hmem, by simp [Obj.refs]⟩
    | calling hmem =>
      rcases hmem with hmem | hmem
      · exact .inl ⟨_, hmem, by simp [Obj.refs]⟩
      · exact .inl ⟨_, hmem, by simp [Obj.refs]⟩
  · exact hlast.owned

/-- **And whoever waits and has an owner is wanted**, once the destructors
that are due have run. -/
theorem Marked.wanted (h : Marked es c) (hacyclic : Graph.Acyclic (Refs c)) (hset : Settled c)
    (hs : Waiting c s) : Wanted es c s := by
  by_contra hno
  -- go from owner to owner
  refine hacyclic.swap.has_end (p := fun s => Waiting c s ∧ ¬ Wanted es c s) c.fresh
    (fun a ha => ?_) (fun a ha => ?_) s ⟨hs, hno⟩
  · obtain ⟨⟨nd, hn, -⟩, -⟩ := ha
    exact h.trees.live.wf.bound a nd hn
  · obtain ⟨hwait, hno⟩ := ha
    have ⟨nd, hn, _⟩ := hwait
    rcases h.owner hwait (hset.owned hn) with hat | ⟨m, hm⟩
    · exact absurd ⟨a, .refl, hat⟩ hno
    · refine ⟨m, hm.refs, h.trees.waiting_up hm hwait, ?_⟩
      rintro ⟨d, hpath, hd⟩
      exact hno ⟨d, hpath.tail hm, hd⟩

end Futures

end PortableConcurrency
