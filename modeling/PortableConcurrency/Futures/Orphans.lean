import PortableConcurrency.Futures.Readiness
import PortableConcurrency.Futures.Unique

/-!
# No orphans

Every promise, `packaged_task` and action stores something in its state
before it goes, and what is stored travels: to the continuations, to the
states that were unwrapped onto this one, and to combinators. So when all
producers are gone and nothing is going on, every state that still has an
owner is ready, and reading it ends at a value, at an exception of a user,
or at `broken_promise`.

A state that waits for itself is the exception. A function makes one by
returning a future that cannot become ready without the function's own
result, or whose result is the function's own. It makes no difference
whether the function is a continuation or that of a `packaged_task`.
-/

namespace PortableConcurrency

namespace Futures

variable {V E F : Type*} {c c' : Config V E F} {e : Event V E F} {es es' : List (Event V E F)}
variable {rem add rest : Multiset (Obj F)} {s t n l : ℕ} {nd nd' : Node V E F}
variable {x : Outcome V E}

/-- **A function of `g` does not return a future that depends on its own
result**: the future can become ready without it, and was not unwrapped
onto it. -/
def NoLoop (g : Caller) (c : Config V E F) (e : Event V E F) : Prop :=
  ∀ s t, e = .unwrap g s t → Settles c (· = s) t ∧ ¬ Reaches c t s

/-- No function does. -/
def NoLoops (c : Config V E F) (e : Event V E F) : Prop := ∀ g, NoLoop g c e

theorem NoLoops.independent (h : NoLoops c e) : Independent c e := fun g s t he => (h g s t he).1

/-- No state is unwrapped onto itself, in any number of steps. -/
theorem inner_acyclic_step (h : Graph.Acyclic (Inner c)) (hok : NoLoops c e)
    (hst : Step c e c') : Graph.Acyclic (Inner c') := by
  by_cases hun : ∃ g s t, e = .unwrap g s t
  · obtain ⟨g, s, t, rfl⟩ := hun
    refine h.of_new (s := s) (p := (· = t)) (fun a b hab => ?_) fun b hb => ?_
    · obtain ⟨nd', hn', hs⟩ := hab
      cases hst.node hn' with
      | same hn => exact .inl ⟨nd', hn, hs⟩
      | spawn hn hsp => cases hsp
      | settle hn hempty hse => cases hse
      | unwrap hn he =>
        cases he
        exact .inr ⟨rfl, (Storage.inner.inj hs).symm⟩
      | touch hn ht => cases ht
      | execute hn he => cases he
    · subst hb
      exact (hok g s b rfl).2
  · exact h.mono fun a b => hst.inner fun g s t he => hun ⟨g, s, t, he⟩

/-- **Whoever waits, waits for an end.** -/
structure Ends (c : Config V E F) : Prop where
  live : Live c
  settle : AllSettle c
  acyclic : Graph.Acyclic (Inner c)

theorem Reachable.ends (h : Reachable NoLoops c) : Ends c := by
  refine h.invariant (I := Ends) (fun c e c' hi hok hst => ?_) ⟨live_init, allSettle_init, ?_⟩
  · exact ⟨hi.live.step hst, hi.settle.step hi.live hok.independent hst,
      inner_acyclic_step hi.acyclic hok hst⟩
  · rintro a b ⟨nd, hn, -⟩
    simp [init] at hn

/-- Everybody is ready when nothing is going on and the producers are
gone. -/
theorem Ends.ready (h : Ends c) (hq : Quiet c) (howned : Owned c n) : c.isExecuted n = true := by
  obtain ⟨nd, hn⟩ := h.live.wf.alive n howned
  exact (h.settle n nd hn).ready h.live hq howned

/-- **And has a result.** -/
theorem Ends.resolves (h : Ends c) (hq : Quiet c) (howned : Owned c n) :
    ∃ l x, Resolves c n l x := by
  -- follow the inner states of one that has none
  by_contra hno
  refine h.acyclic.has_end (p := fun n => Owned c n ∧ ¬ ∃ l x, Resolves c n l x) c.fresh
    (fun a ha => ?_) (fun a ha => ?_) n ⟨howned, hno⟩
  · obtain ⟨nd, hn⟩ := h.live.wf.alive a ha.1
    exact h.live.wf.bound a nd hn
  · obtain ⟨howned, hno⟩ := ha
    obtain ⟨nd, hn⟩ := h.live.wf.alive a howned
    have hex : nd.executed = true := by rw [← isExecuted_eq hn, h.ready hq howned]
    have hleaf : nd.outcome = none := by
      by_contra hsome
      obtain ⟨x, hx⟩ := Option.ne_none_iff_exists'.mp hsome
      exact hno ⟨a, x, .leaf hn hex hx⟩
    have hcomb : nd.body.isCombinator = false := by
      by_contra hcomb
      have hcomb : nd.body.isCombinator = true := by simpa using hcomb
      simp [Node.outcome, hcomb] at hleaf
    have hstored := h.live.stored.nodes a (h.ready hq howned) nd hn
    cases hs : nd.storage with
    | value | exception => simp [Node.outcome, hcomb, hs] at hleaf
    | empty =>
      refine absurd hs (hstored fun hk => ?_)
      rw [Body.isCombinator_iff.mpr hk] at hcomb
      cases hcomb
    | inner t =>
      refine ⟨t, ⟨nd, hn, hs⟩, .inr ⟨a, nd, hn, by simp [Node.refs, hs, Storage.refs]⟩, ?_⟩
      rintro ⟨l, x, hres⟩
      exact hno ⟨l, x, .inner hn hex hcomb hs hres⟩

/-! ## Where results come from -/

/-- **Where an outcome comes from**: a promise was set, or a function
ended, or something was abandoned. -/
inductive Sourced (es : List (Event V E F)) : Outcome V E → Prop
  | setValue {s : ℕ} {v : V} (h : .set s (.inl v) ∈ es) : Sourced es (.value v)
  | setException {s : ℕ} {x : E} (h : .set s (.inr x) ∈ es) : Sourced es (.exception (.user x))
  | returned {g : Caller} {s : ℕ} {v : V} (h : .ret g s (.value v) ∈ es) : Sourced es (.value v)
  | thrown {g : Caller} {s : ℕ} {x : E} (h : .ret g s (.throws x) ∈ es) :
      Sourced es (.exception (.user x))
  | broken : Sourced es (.exception .brokenPromise)
  /-- the sequence of a combinator -/
  | futures : Sourced es .futures

theorem Sourced.mono (h : Sourced es x) (hsub : es ⊆ es') : Sourced es' x := by
  cases h with
  | setValue h => exact .setValue (hsub h)
  | setException h => exact .setException (hsub h)
  | returned h => exact .returned (hsub h)
  | thrown h => exact .thrown (hsub h)
  | broken => exact .broken
  | futures => exact .futures

/-- What a storage holds, unless it is empty or refers on. -/
def Storage.outcome : Storage V E → Option (Outcome V E)
  | .value v => some (.value v)
  | .exception x => some (.exception x)
  | _ => none

theorem Node.outcome_cases (h : nd.outcome = some x) :
    x = .futures ∨ nd.storage.outcome = some x := by
  unfold Node.outcome at h
  split at h
  · exact .inl (Option.some.inj h).symm
  · refine .inr ?_
    cases hs : nd.storage <;> simp_all [Storage.outcome]

/-- Every result comes from somewhere. -/
def AllSourced (es : List (Event V E F)) (c : Config V E F) : Prop :=
  ∀ n nd x, c.nodes n = some nd → nd.storage.outcome = some x → Sourced es x

theorem AllSourced.resolves (h : AllSourced es c) (hres : Resolves c n l x) : Sourced es x := by
  induction hres with
  | leaf hn _ ho =>
    rcases Node.outcome_cases ho with rfl | hx
    · exact .futures
    · exact h _ _ _ hn hx
  | inner _ _ _ _ _ ih => exact ih

/-- What is stored was set or returned now, or is passed on. -/
theorem Settle.sourced {y : Storage V E} {clean : Body F → Body F} (h : AllSourced es c)
    (hs : Settle c e rem s y clean add) (hx : y.outcome = some x) : Sourced (es ++ [e]) x := by
  cases hs with
  | setValue =>
    obtain rfl := Option.some.inj hx
    exact .setValue (s := s) (by simp)
  | setException =>
    obtain rfl := Option.some.inj hx
    exact .setException (s := s) (by simp)
  | abandon =>
    obtain rfl := Option.some.inj hx
    exact .broken
  | passError _ _ _ _ _ hres =>
    obtain rfl := Option.some.inj hx
    exact (h.resolves hres).mono (List.subset_append_left _ _)
  | ret g _ r =>
    cases r with
    | value =>
      obtain rfl := Option.some.inj hx
      exact .returned (g := g) (s := s) (by simp)
    | throws =>
      obtain rfl := Option.some.inj hx
      exact .thrown (g := g) (s := s) (by simp)
    | invalid =>
      obtain rfl := Option.some.inj hx
      exact .broken

theorem AllSourced.step (h : AllSourced es c) (hst : Step c e c') :
    AllSourced (es ++ [e]) c' := by
  intro n nd' x hn' hx
  have hold : ∀ {nd : Node V E F}, c.nodes n = some nd → nd.storage.outcome = some x →
      Sourced (es ++ [e]) x :=
    fun hn hx => (h n _ x hn hx).mono (List.subset_append_left _ _)
  cases hst.node hn' with
  | same hn | touch hn | execute hn => exact hold hn hx
  | spawn _ hsp => cases hsp <;> cases hx
  | settle _ _ hse => exact hse.sourced h hx
  | unwrap => cases hx

theorem AllSourced.of_trace {ok : Config V E F → Event V E F → Prop}
    (htr : Trace Step ok init es c) : AllSourced es c := by
  refine htr.invariant (I := AllSourced) (fun es c e c' h _ hst => h.step hst) ?_
  intro n nd x hn
  simp [init] at hn

/-! ## The guarantee -/

/-- **No orphans.** In every run in which no function returns a future that
depends on the function's own result: when nothing is going on and no
producer is left, every state that is owned, by a future or otherwise, is
ready, and its result is a value, an exception of a user or
`broken_promise`. -/
theorem no_orphans (htr : Trace Step NoLoops init es c) (hq : Quiet c) (howned : Owned c s) :
    c.isExecuted s = true ∧ ∃ l x, Resolves c s l x ∧ Sourced es x := by
  have hends : Ends c := Reachable.ends htr.runs
  obtain ⟨l, x, hres⟩ := hends.resolves hq howned
  exact ⟨hends.ready hq howned, l, x, hres, (AllSourced.of_trace htr).resolves hres⟩

/-- A promise that goes without having been set. -/
theorem no_orphans_of_drop : ∃ (es : List (Event Unit Unit Unit)) (c : Config Unit Unit Unit),
    Trace Step NoLoops init es c ∧ .future true 0 ∈ c.objs ∧
      c.isExecuted 0 = true ∧ ∃ l x, Resolves c 0 l x ∧ Sourced es x := by
  have h₀ : Trace Step NoLoops (init : Config Unit Unit Unit) [] init := .nil _
  have h₁ := h₀.snoc (by rintro _ _ _ ⟨⟩)
    (.spawn (.makePromise false) (Multiset.zero_add _).symm)
  have h₂ := h₁.snoc (by rintro _ _ _ ⟨⟩) (.settle (.abandon .promise false 0
    (.inl ⟨.future true 0, by decide, by decide⟩) (by simp) rfl)
    (show _ = _ + ({.future true 0} : Multiset (Obj Unit)) by decide) rfl rfl)
  have h₃ := h₂.snoc (by rintro _ _ _ ⟨⟩) (.execute (s := 0)
    (show _ = _ + ({.future true 0} : Multiset (Obj Unit)) by decide) rfl)
  have h₄ := h₃.snoc (by rintro _ _ _ ⟨⟩) (.move (.releaseHeld 0)
    (show _ = _ + ({.future true 0} : Multiset (Obj Unit)) by decide))
  refine ⟨_, _, h₄, by decide, no_orphans h₄ ⟨?_, ?_⟩ (.inl ⟨.future true 0, by decide, by decide⟩)⟩
  · intro o ho
    obtain rfl := Multiset.mem_singleton.mp (show o ∈ ({.future true 0} : Multiset _) from ho)
    rfl
  · intro g b s ho
    cases Multiset.mem_singleton.mp (show _ ∈ ({.future true 0} : Multiset (Obj Unit)) from ho)

/-- **A task that waits for itself.** Its function attaches a continuation
to the shared future of the task and returns the future of that. No
combinator is involved. -/
theorem self_wait_run : ∃ (es : List (Event Unit Unit Unit)) (c : Config Unit Unit Unit),
    Trace Step (fun c e => NoLoop .cnt c e ∧ ∀ w l, e ≠ .combine w l) init es c ∧
      c.objs = {.future false 0, .linked 0 (.schedule 1), .linked 1 (.unwrapCb 0)} ∧
      c.nodes 0 = some ⟨.inner 1, false, .task none⟩ ∧
      c.nodes 1 = some ⟨.empty, false, .cnt true (some ⟨.then', false, (), 0⟩)⟩ ∧ c.fresh = 2 := by
  have h₀ : Trace Step (fun c e => NoLoop .cnt c e ∧ ∀ w l, e ≠ .combine w l)
      (init : Config Unit Unit Unit) [] init := .nil _
  have h₁ := h₀.snoc (by simp [NoLoop]) (.spawn (.newTask ()) (Multiset.zero_add _).symm)
  have h₂ := h₁.snoc (by simp [NoLoop]) (.move (.getFuture .task 0 (by simp))
    (show _ = _ + (0 : Multiset (Obj Unit)) by decide))
  have h₃ := h₂.snoc (by simp [NoLoop]) (.move (.share 0)
    (show _ = _ + ({.handle .task false 0} : Multiset (Obj Unit)) by decide))
  have h₄ := h₃.snoc (by simp [NoLoop]) (.move (.callTask false 0 () _
    (.inl ⟨.future false 0, by decide, by decide⟩) rfl rfl)
    (show _ = _ + ({.future false 0} : Multiset (Obj Unit)) by decide))
  have h₅ := h₄.snoc (by simp [NoLoop]) (.spawn (.attach ⟨.then', false, (), 0⟩)
    (show _ = _ + ({.handle .task false 0, .invoked .task 0} : Multiset (Obj Unit)) by decide))
  have h₆ := h₅.snoc (by simp [NoLoop]) (.unwrap (h := .task) (s := 0) (t := 1) (u := true)
    (show _ = _ + ({.future false 0, .linked 0 (.schedule 1), .handle .task false 0} :
      Multiset (Obj Unit)) by decide) rfl)
  have h₇ := h₆.snoc (by simp [NoLoop]) (.move (.subscribe 0 1)
    (show _ = _ + ({.cleaning 0, .future false 0, .linked 0 (.schedule 1), .handle .task false 0} :
      Multiset (Obj Unit)) by decide))
  have h₈ := h₇.snoc (by simp [NoLoop]) (.touch (.clean 0 _)
    (show _ = _ + ({.held 0, .linked 1 (.unwrapCb 0), .future false 0, .linked 0 (.schedule 1),
      .handle .task false 0} : Multiset (Obj Unit)) by decide) rfl)
  have h₉ := h₈.snoc (by simp [NoLoop]) (.move (.releaseHeld 0)
    (show _ = _ + ({.linked 1 (.unwrapCb 0), .future false 0, .linked 0 (.schedule 1),
      .handle .task false 0} : Multiset (Obj Unit)) by decide))
  have h₁₀ := h₉.snoc (by simp [NoLoop]) (.touch (.abandon .task false 0 _
    (.inl ⟨.future false 0, by decide, by decide⟩) (by simp) (.inr ⟨1, rfl⟩))
    (show _ = _ + ({.future false 0, .linked 0 (.schedule 1), .linked 1 (.unwrapCb 0)} :
      Multiset (Obj Unit)) by decide) rfl)
  exact ⟨_, _, h₁₀, rfl, rfl, rfl, rfl⟩

/-- **It is not enough that continuations do not wait for themselves.** -/
theorem orphan_of_task : ¬ ∀ (es : List (Event Unit Unit Unit)) (c : Config Unit Unit Unit)
    (u : Bool) (s : ℕ), Trace Step (NoLoop .cnt) init es c → Quiet c → .future u s ∈ c.objs →
      c.isExecuted s = true ∧ ∃ l x, Resolves c s l x ∧ Sourced es x := by
  intro hall
  obtain ⟨es, c, htr, ho, hn, -⟩ := self_wait_run
  have hq : Quiet c := by
    refine ⟨fun o hmem => ?_, fun g b s hmem => ?_⟩
    · rw [ho] at hmem
      simp only [Multiset.insert_eq_cons, Multiset.mem_cons, Multiset.mem_singleton] at hmem
      rcases hmem with rfl | rfl | rfl <;> rfl
    · simp [ho] at hmem
  have hex := (hall es c false 0 (htr.mono fun _ _ hok => hok.1) hq (by simp [ho])).1
  rw [isExecuted_eq hn] at hex
  cases hex

end Futures

end PortableConcurrency
