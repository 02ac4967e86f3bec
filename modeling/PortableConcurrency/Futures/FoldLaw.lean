import PortableConcurrency.Futures.Folds
import PortableConcurrency.Futures.Keepers

/-!
# In whatever order

When nothing is going on any more, and every future was kept or consumed,
each state has its reference result. Who has none waits for a promise that
was not fulfilled, for a task that was not called, or in a circle for
itself; a state that was destroyed had its result before.
-/

namespace PortableConcurrency

namespace Futures

open Relation

variable {V E F : Type*} {apply : F → Outcome V E → Reply V E} {w w' : Session V E F}
variable {c : Config V E F} {e : Event V E F} {es es' : List (Event V E F)} {s t n l : ℕ}
variable {nd nd' : Node V E F} {a : Action F} {o o' : Outcome V E}

/-- **Functions do what `apply` says, and futures are kept.** -/
structure Orderly (apply : F → Outcome V E → Reply V E) (w : Session V E F) (e : Event V E F) :
    Prop where
  obeys : Obeys apply w e
  keeps : Keeps w.config e

/-- Nothing is going on, and executors have run what they were given. -/
structure Finished (c : Config V E F) : Prop where
  idle : Idle c
  actions : ∀ b s, .handle .action b s ∉ c.objs

/-- A promise that has not been fulfilled, or a task that has not been
called. -/
def Unfulfilled (c : Config V E F) (n : ℕ) : Prop :=
  c.isExecuted n = false ∧ ∃ g b, g ≠ .action ∧ .handle g b n ∈ c.objs

/-- **What holds in a session whose futures are kept.** -/
structure Folds (apply : F → Outcome V E → Reply V E) (es : List (Event V E F))
    (w : Session V E F) : Prop where
  computes : Computes apply es w
  trees : Trees w.config
  retained : Retained w.config
  /-- who was destroyed had its result before -/
  gone : ∀ n, n < w.config.fresh → w.config.nodes n = none → ∃ o, Reference apply es n o

theorem folds_init : Folds apply [] (Session.init : Session V E F) := by
  refine ⟨computes_init, trees_init, fun n nd hn => ?_, fun n hlt => ?_⟩
  · simp [Session.init, init] at hn
  · simp [Session.init, init] at hlt

theorem Computes.executed (h : Computes apply es w) (hn : w.config.nodes n = some nd)
    (hex : nd.executed = true) : ∃ l o, Resolves w.config n l o ∧ Reference apply es n o := by
  obtain ⟨l, o, hr⟩ := h.grounded n (by rw [isExecuted_eq hn, hex])
  exact ⟨l, o, hr, h.resolves hr⟩

theorem Folds.step (h : Folds apply es w) (hok : Orderly apply w e) (hst : Session.Step w e w') :
    Folds apply (es ++ [e]) w' := by
  have hfirst := hok.obeys.first
  refine ⟨h.computes.step hok.obeys hst, h.trees.step ⟨hok.keeps.combine, hfirst⟩ hst.step,
    h.retained.step h.trees hok.keeps hfirst hst.step, fun n hlt hgone => ?_⟩
  have hold : ∀ {o}, Reference apply es n o → ∃ o, Reference apply (es ++ [e]) n o :=
    fun hr => ⟨_, hr.mono [e]⟩
  cases hn : w.config.nodes n with
  | some nd =>
    -- only who has no owner is destroyed, and then it was ready
    rcases hst.step.alive hn with ⟨nd', hn'⟩ | ⟨-, hun⟩
    · rw [hgone] at hn'
      cases hn'
    · by_cases hex : nd.executed = true
      · obtain ⟨l, o, -, hr⟩ := h.computes.executed hn hex
        exact hold hr
      · exact absurd (h.retained n nd hn (by simpa using hex)).owned hun
  | none =>
    by_cases hlt' : n < w.config.fresh
    · obtain ⟨o, hr⟩ := h.gone n hlt' hn
      exact hold hr
    · obtain ⟨nd', hn'⟩ := hst.step.new_alive hlt hlt'
      rw [hgone] at hn'
      cases hn'

theorem Folds.of_trace (htr : Trace Session.Step (Orderly apply) Session.init es w) :
    Folds apply es w :=
  htr.invariant (I := Folds apply) (fun _ _ _ _ h hok hst => h.step hok hst) folds_init

/-! ## When nothing is left to do -/

/-- **Why a state is not ready then.** -/
theorem Folds.pending (h : Folds apply es w) (hfin : Finished w.config)
    (hn : w.config.nodes n = some nd) (hex : nd.executed = false) :
    (IsSource es n ∧ nd.storage = .empty ∧ Unfulfilled w.config n) ∨
      (∃ a, es.find? (Event.makes n) = some (.attach n a) ∧ nd.storage = .empty ∧
        nd.body = .cnt true (some a) ∧ w.config.isExecuted a.parent = false) ∨
      ∃ t, Adopts apply es n t ∧ nd.storage = .inner t ∧ w.config.isExecuted t = false := by
  have hchr := h.computes.chronicle
  have howned := (h.retained n nd hn hex).owned
  have hk := h.trees.planted n nd hn
  have hwait : w.config.isExecuted n = false := by rw [isExecuted_eq hn, hex]
  rcases h.trees.live.plain_idle hfin.idle howned hn hex hk with ⟨hs, g, b, hmem⟩ | ⟨m, hm, hpend⟩
  · have hg : g ≠ .action := by
      rintro rfl
      exact hfin.actions b n hmem
    refine .inl ⟨?_, hs, hwait, g, b, hg, hmem⟩
    cases g with
    | promise => exact hchr.promised b n hmem
    | task => exact hchr.task hn (h.trees.live.lists.kinded _ hmem nd hn)
    | action => exact absurd rfl hg
  · rcases Node.mem_awaits hk hm with hs | ⟨hs, a, hb, rfl⟩
    · have hc := h.computes.stored n nd hn hk
      rw [hs] at hc
      exact .inr (.inr ⟨m, hc, hs, hpend⟩)
    · obtain ⟨x, hf, -, hx⟩ := hchr.made n nd hn
      rw [hx _ _ hb] at hf
      exact .inr (.inl ⟨a, hf, hs, hb, hpend⟩)

/-- A continuation that is not ready, and whose parent is, waits for what
its function has returned. -/
theorem Folds.continued (h : Folds apply es w) (hfin : Finished w.config)
    (hn : w.config.nodes n = some nd) (hex : nd.executed = false) (hc : Continues es n a)
    (hclosed : Closed w.config a.parent) : ∃ t o, Reference apply es a.parent o ∧ ¬ a.Passes o ∧
      apply a.fn o = .future ∧ es.find? (Event.returns n) = some (.unwrap .cnt n t) ∧
        ¬ Closed w.config t := by
  have hwf := h.trees.live.wf
  rcases h.pending hfin hn hex with ⟨hs, -⟩ | ⟨b, hf, -, hb, hpend⟩ | ⟨t, had, hinner, hpend⟩
  · exact absurd hs hc.not_source
  · have heq : Event.attach n b = .attach n a := Option.some.inj (hf.symm.trans hc.1)
    obtain rfl : b = a := by simpa using heq
    obtain ⟨ndp, hp⟩ := hwf.alive b.parent (.inr ⟨n, nd, hn, by simp [Node.refs, Body.refs, hb]⟩)
    rw [isExecuted_eq hp, hclosed ndp hp] at hpend
    cases hpend
  · obtain ⟨ndt, ht⟩ := hwf.inner_alive hn hinner
    have hopen : ¬ Closed w.config t := fun hclosed => by
      rw [isExecuted_eq ht, hclosed ndt ht] at hpend
      cases hpend
    cases had with
    | task hs => exact absurd hs hc.not_source
    | cnt b o hc' hp hcall hr hf =>
      obtain rfl := hc.unique hc'
      exact ⟨t, o, hp, hcall, hr, hf, hopen⟩

/-- **Who has a reference result is ready**, by induction on how it was
got. -/
theorem Folds.ready (h : Folds apply es w) (hfin : Finished w.config)
    (hr : Reference apply es n o) (hn : w.config.nodes n = some nd) : nd.executed = true := by
  have hchr := h.computes.chronicle
  have hwf := h.trees.live.wf
  -- who was settled has something stored
  have hsettled : ∀ {n nd e}, es.find? (Event.settles n) = some e →
      w.config.nodes n = some nd → nd.executed = false → nd.storage ≠ .empty :=
    fun hf hn hex => (hchr.settled _ _ (List.mem_of_find?_eq_some hf) (List.find?_some hf)).2
      (h.retained _ _ hn hex).owned _ hn
  induction hr generalizing nd with
  | @settled n e o hs hf ho =>
    by_contra hex
    have hex : nd.executed = false := by simpa using hex
    rcases h.pending hfin hn hex with ⟨-, hempty, -⟩ | ⟨a, -, hempty, -⟩ | ⟨t, had, -⟩
    · exact hsettled hf hn hex hempty
    · exact hsettled hf hn hex hempty
    · cases had with
      | task _ hf' =>
        obtain rfl := Option.some.inj (hf.symm.trans hf')
        cases ho
      | cnt a _ hc => exact hc.not_source hs
  | @unwrapped n t o hs hf _ ih =>
    by_contra hex
    have hex : nd.executed = false := by simpa using hex
    rcases h.pending hfin hn hex with ⟨-, hempty, -⟩ | ⟨a, -, hempty, -⟩ | ⟨t', had, hinner, hpend⟩
    · exact hsettled hf hn hex hempty
    · exact hsettled hf hn hex hempty
    · cases had with
      | task _ hf' =>
        cases Option.some.inj (hf.symm.trans hf')
        obtain ⟨ndt, ht⟩ := hwf.inner_alive hn hinner
        rw [isExecuted_eq ht, ih ht] at hpend
        cases hpend
      | cnt a _ hc => exact hc.not_source hs
  | @sequence n l hm =>
    obtain ⟨e, hf, hk, -⟩ := hchr.made n nd hn
    obtain rfl := Option.some.inj (hm.symm.trans hf)
    exact absurd (Option.some.inj hk).symm (h.trees.planted n nd hn)
  | @passes n a o hc hp hpass ih =>
    by_contra hex
    obtain ⟨t, o', hp', hcall, -⟩ := h.continued hfin hn (by simpa using hex) hc fun _ => ih
    rw [hp.unique hp'] at hcall
    exact hcall hpass
  | @applies n a o r hc hp hcall hr ih =>
    by_contra hex
    obtain ⟨t, o', hp', -, hr', -⟩ := h.continued hfin hn (by simpa using hex) hc fun _ => ih
    rw [hp.unique hp', hr] at hr'
    cases hr'
  | @returned n t a o o' hc hp hcall hr hf ht ih iht =>
    by_contra hex
    obtain ⟨t', o'', -, -, -, hf', hopen⟩ :=
      h.continued hfin hn (by simpa using hex) hc fun _ => ih
    cases Option.some.inj (hf.symm.trans hf')
    exact hopen fun _ => iht

/-- **And nobody has another result.** -/
theorem Folds.final (h : Folds apply es w) (hfin : Finished w.config)
    (hn : w.config.nodes n = some nd) :
    Reference apply es n o ↔ ∃ l, Resolves w.config n l o := by
  constructor
  · intro hr
    obtain ⟨l, o', hres, hr'⟩ := h.computes.executed hn (h.ready hfin hr hn)
    rw [hr.unique hr'] at hres
    exact ⟨l, hres⟩
  · rintro ⟨l, hr⟩
    exact h.computes.resolves hr

/-- **Who has no result** waits for somebody who has still to be
fulfilled, or in a circle. -/
theorem Folds.progress (h : Folds apply es w) (hfin : Finished w.config)
    (hlt : n < w.config.fresh) : (∃ o, Reference apply es n o) ∨
      ∃ m, ReflTransGen (Needs w.config) n m ∧
        (Unfulfilled w.config m ∨ TransGen (Needs w.config) m m) := by
  cases hn : w.config.nodes n with
  | none => exact .inl (h.gone n hlt hn)
  | some nd =>
    by_cases hex : nd.executed = true
    · obtain ⟨l, o, -, hr⟩ := h.computes.executed hn hex
      exact .inl ⟨o, hr⟩
    · refine .inr (Graph.exists_cycle (p := fun n => ∃ nd, w.config.nodes n = some nd ∧
        nd.executed = false) w.config.fresh (fun m hm => ?_) (fun m hm => ?_)
        ⟨nd, hn, by simpa using hex⟩)
      · obtain ⟨ndm, hm, -⟩ := hm
        exact h.trees.live.wf.bound m ndm hm
      · obtain ⟨ndm, hm, hpend⟩ := hm
        have hnext : ∀ {k}, Needs w.config m k → w.config.isExecuted k = false →
            ∃ k, Needs w.config m k ∧ ∃ ndk, w.config.nodes k = some ndk ∧
              ndk.executed = false := by
          intro k hneeds hk
          obtain ⟨ndk, hnk⟩ := h.trees.live.wf.alive k hneeds.owned
          rw [isExecuted_eq hnk] at hk
          exact ⟨k, hneeds, ndk, hnk, hk⟩
        rcases h.pending hfin hm hpend with ⟨-, -, hun⟩ | ⟨a, -, -, hb, hk⟩ | ⟨t, -, hs, hk⟩
        · exact .inl hun
        · exact .inr (hnext ⟨ndm, hm, .inl ⟨true, a, hb, rfl⟩⟩ hk)
        · exact .inr (hnext ⟨ndm, hm, .inr hs⟩ hk)

/-! ## The law -/

/-- **Trees of continuations compute the composition of their functions**,
after the events `es`. -/
structure FoldLaw (apply : F → Outcome V E → Reply V E) (es : List (Event V E F))
    (w : Session V E F) : Prop where
  /-- what can be read at any moment is the reference result -/
  reads : ∀ n l o, Resolves w.config n l o → Reference apply es n o
  /-- of which there is only one -/
  unique : ∀ n o o', Reference apply es n o → Reference apply es n o' → o' = o
  /-- a function is called with the result of its parent, which `next` does
  not pass on -/
  given : ∀ n a w', Session.Step w (.invoke n a) w' → ∃ o,
    es.find? (Event.makes n) = some (.attach n a) ∧ Reference apply es a.parent o ∧
      w'.given n = some (a.fn, o) ∧ ¬ a.Passes o
  /-- an error is passed on unchanged -/
  passed : ∀ n a x w', Session.Step w (.passError n a x) w' →
    es.find? (Event.makes n) = some (.attach n a) ∧ Reference apply es a.parent (.exception x) ∧
      a.Passes (.exception x : Outcome V E)
  /-- when nothing is left to do, everybody who has a reference result is
  ready with it, and the others wait for somebody who was not fulfilled,
  or for themselves -/
  final : Trace Session.Step (Orderly apply) Session.init es w → Finished w.config →
    ∀ n, n < w.config.fresh →
      (∀ nd o, w.config.nodes n = some nd →
        (Reference apply es n o ↔ ∃ l, Resolves w.config n l o)) ∧
      ((∃ o, Reference apply es n o) ∨ ∃ m, ReflTransGen (Needs w.config) n m ∧
        (Unfulfilled w.config m ∨ TransGen (Needs w.config) m m))
  /-- another run with the same tree has the same results -/
  order : ∀ ρ es' w', Trace Session.Step (Obeys apply) Session.init es' w' → SameTree ρ es es' →
    ∀ n l o, Resolves w.config n l o →
      (∀ l' o', Resolves w'.config (ρ n) l' o' → o' = o) ∧
      (Trace Session.Step (Orderly apply) Session.init es' w' → Finished w'.config →
        ∀ nd, w'.config.nodes (ρ n) = some nd → ∃ l', Resolves w'.config (ρ n) l' o)

/-- **What a tree computes does not depend on the order of events.** -/
theorem fold_law (htr : Trace Session.Step (Obeys apply) Session.init es w) :
    FoldLaw apply es w := by
  have hcomp := Computes.of_trace htr
  refine ⟨fun n l o hr => hcomp.resolves hr, fun n o o' h h' => h.unique h',
    fun n a w' hst => hcomp.given hst, fun n a x w' hst => hcomp.passed hst,
    fun hord hfin n hlt => ?_, fun ρ es' w' htr' hsame n l o hr => ?_⟩
  · have hfolds := Folds.of_trace hord
    exact ⟨fun nd o hn => hfolds.final hfin hn, hfolds.progress hfin hlt⟩
  · have href := (hcomp.resolves hr).rename hsame
    refine ⟨fun l' o' hr' => href.unique ((Computes.of_trace htr').resolves hr'),
      fun hord hfin nd hn => ?_⟩
    exact ((Folds.of_trace hord).final hfin hn).mp href

/-! ## A run -/

/-- Nothing is asked of `e`. -/
def Event.isFree : Event V E F → Bool
  | ret _ _ _ | unwrap _ _ _ | drop _ _ | dropFuture _ | combine _ _ => false
  | _ => true

theorem orderly_of_free (h : e.isFree = true) : Orderly apply w e := by
  refine ⟨⟨?_, ?_, ?_, ?_⟩, ⟨?_, ?_, ?_⟩⟩
  · rintro s r rfl
    cases h
  · rintro s t rfl
    cases h
  · rintro s rfl
    cases h
  · rintro s t _ rfl
    cases h
  · rintro v l rfl
    cases h
  · rintro s rfl
    cases h
  · rintro g s rfl
    cases h

theorem Session.Step.free (hst : Futures.Step w.config e c) (he : ∀ s a, e ≠ .invoke s a)
    (hr : ∀ s r, e ≠ .ret .task s r) : Session.Step w e ⟨c, w.given⟩ :=
  .other hst (fun s r _ _ heq => absurd heq (hr s r)) he

/-- A promise is abandoned after `then` was attached, and the function of
that returns 1. -/
theorem abandoned_run : ∃ (es : List (Event ℕ Unit Unit)) (w : Session ℕ Unit Unit),
    Trace Session.Step (Orderly fun _ _ => .ret (.value 1)) Session.init es w ∧
      w.config.objs = {.future true 0, .future true 1} ∧
      w.config.nodes 1 = some ⟨.value 1, true, .cnt false none⟩ := by
  have h₀ : Trace Session.Step (Orderly fun _ _ => .ret (.value 1)) Session.init []
    (Session.init : Session ℕ Unit Unit) := .nil _
  have h₁ := h₀.snoc (orderly_of_free rfl) (.free (.spawn (.makePromise false)
    (Multiset.zero_add _).symm) (by rintro _ _ ⟨⟩) (by rintro _ _ ⟨⟩))
  have h₂ := h₁.snoc (orderly_of_free rfl) (.free (.spawn (.attach ⟨.then', true, (), 0⟩)
    (show _ = _ + ({.handle .promise false 0} : Multiset (Obj Unit)) by decide))
    (by rintro _ _ ⟨⟩) (by rintro _ _ ⟨⟩))
  have h₃ := h₂.snoc (e := .drop .promise 0) (by
      refine ⟨⟨by rintro _ _ ⟨⟩, by rintro _ _ ⟨⟩, by rintro _ ⟨⟩, by rintro _ _ _ ⟨⟩⟩,
        ⟨by rintro _ _ ⟨⟩, by rintro _ ⟨⟩, ?_⟩⟩
      rintro g s ⟨⟩ hmem
      revert hmem
      decide)
    (.free (.settle (.abandon .promise false 0
      (.inr ⟨1, _, rfl, List.mem_singleton_self 0⟩) (fun _ => rfl) rfl)
      (show _ = _ + ({.future true 1, .linked 0 (.schedule 1)} : Multiset (Obj Unit)) by decide)
      rfl rfl) (by rintro _ _ ⟨⟩) (by rintro _ _ ⟨⟩))
  have h₄ := h₃.snoc (orderly_of_free rfl) (.free (.execute (s := 0)
    (show _ = _ + ({.future true 1, .linked 0 (.schedule 1)} : Multiset (Obj Unit)) by decide)
    rfl) (by rintro _ _ ⟨⟩) (by rintro _ _ ⟨⟩))
  have h₅ := h₄.snoc (orderly_of_free rfl) (.free (.touch (.schedule 0 1 _ _
    (.inl ⟨.future true 1, by decide, by decide⟩) rfl)
    (show _ = _ + ({.held 0, .future true 1} : Multiset (Obj Unit)) by decide) rfl)
    (by rintro _ _ ⟨⟩) (by rintro _ _ ⟨⟩))
  have h₆ := h₅.snoc (orderly_of_free rfl) (.free (.touch (.run 1 _ false _
    (.inl ⟨.future true 1, by decide, by decide⟩) rfl)
    (show _ = _ + ({.spent 0 (.schedule 1), .held 0, .future true 1} : Multiset (Obj Unit)) by
      decide) rfl) (by rintro _ _ ⟨⟩) (by rintro _ _ ⟨⟩))
  have h₇ := h₆.snoc (orderly_of_free rfl) (.invoke (l := 0) (o := .exception .brokenPromise)
    (.move (.invokeThen 1 ⟨.then', true, (), 0⟩ rfl)
      (show _ = _ + ({.spent 0 (.schedule 1), .held 0, .future true 1} : Multiset (Obj Unit)) by
        decide)) (.leaf rfl rfl rfl))
  have h₈ := h₇.snoc (e := .ret .cnt 1 (.value 1)) (by
      refine ⟨⟨?_, by rintro _ _ ⟨⟩, by rintro _ ⟨⟩, by rintro _ _ _ ⟨⟩⟩,
        ⟨by rintro _ _ ⟨⟩, by rintro _ ⟨⟩, by rintro _ _ ⟨⟩⟩⟩
      rintro s r ⟨⟩
      exact ⟨_, _, rfl, rfl⟩)
    (.free (.settle (.ret .cnt 1 (.value 1))
      (show _ = _ + ({.future true 0, .spent 0 (.schedule 1), .held 0, .future true 1} :
        Multiset (Obj Unit)) by decide) rfl rfl) (by rintro _ _ ⟨⟩) (by rintro _ _ ⟨⟩))
  have h₉ := h₈.snoc (orderly_of_free rfl) (.free (.execute (s := 1)
    (show _ = _ + ({.future true 0, .spent 0 (.schedule 1), .held 0, .future true 1} :
      Multiset (Obj Unit)) by decide) rfl) (by rintro _ _ ⟨⟩) (by rintro _ _ ⟨⟩))
  have h₁₀ := h₉.snoc (orderly_of_free rfl) (.free (.move (.releaseSpent 0 (.schedule 1))
    (show _ = _ + ({.held 1, .future true 0, .held 0, .future true 1} : Multiset (Obj Unit)) by
      decide)) (by rintro _ _ ⟨⟩) (by rintro _ _ ⟨⟩))
  have h₁₁ := h₁₀.snoc (orderly_of_free rfl) (.free (.move (.releaseHeld 0)
    (show _ = _ + ({.held 1, .future true 0, .future true 1} : Multiset (Obj Unit)) by decide))
    (by rintro _ _ ⟨⟩) (by rintro _ _ ⟨⟩))
  have h₁₂ := h₁₁.snoc (orderly_of_free rfl) (.free (.move (.releaseHeld 1)
    (show _ = _ + ({.future true 0, .future true 1} : Multiset (Obj Unit)) by decide))
    (by rintro _ _ ⟨⟩) (by rintro _ _ ⟨⟩))
  exact ⟨_, _, h₁₂, rfl, rfl⟩

/-- The promise of 0 is broken, and 1 has the value nevertheless. -/
theorem fold_law_of_abandoned : ∃ (es : List (Event ℕ Unit Unit)) (w : Session ℕ Unit Unit),
    FoldLaw (fun _ _ => .ret (.value 1)) es w ∧ Finished w.config ∧
      Resolves w.config 1 1 (.value 1) := by
  obtain ⟨es, w, htr, ho, hn⟩ := abandoned_run
  refine ⟨es, w, fold_law (htr.mono fun _ _ hok => hok.obeys), ⟨fun o hmem => ?_, fun b s => ?_⟩,
    .leaf hn rfl rfl⟩
  · rw [ho] at hmem
    simp only [Multiset.insert_eq_cons, Multiset.mem_cons, Multiset.mem_singleton] at hmem
    rcases hmem with rfl | rfl <;> rfl
  · simp [ho]

end Futures

end PortableConcurrency
