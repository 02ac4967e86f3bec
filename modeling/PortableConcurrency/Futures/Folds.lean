import PortableConcurrency.Futures.Sessions

/-!
# Trees of continuations compute the composition of their functions

Whatever the order in which continuations are attached, sources settled
and scheduled actions run: what is stored in a state is its reference
result. That is an invariant of the runs in which functions do what
`apply` says and executors run what they are given. A state that was
unwrapped has no result yet, and will have that of the other, whatever it
turns out to be.
-/

namespace PortableConcurrency

namespace Futures

variable {V E F : Type*} {apply : F → Outcome V E → Reply V E} {w w' : Session V E F}
variable {e : Event V E F} {es es' : List (Event V E F)} {s t n l : ℕ} {nd nd' : Node V E F}
variable {a : Action F} {o o' : Outcome V E}

/-- **Functions do what `apply` says.** Executors run what they are given,
and a task is not called again from its own function. -/
structure Obeys (apply : F → Outcome V E → Reply V E) (w : Session V E F) (e : Event V E F) :
    Prop where
  ret : ∀ s r, e = .ret .cnt s r → ∃ fn o, w.given s = some (fn, o) ∧ apply fn o = .ret r
  future : ∀ s t, e = .unwrap .cnt s t → ∃ fn o, w.given s = some (fn, o) ∧ apply fn o = .future
  runs : ∀ s, e ≠ .drop .action s
  first : FirstResult w.config e

/-- What is stored at `n` is its result, or will become it. -/
def Computed (apply : F → Outcome V E → Reply V E) (es : List (Event V E F)) (n : ℕ) :
    Storage V E → Prop
  | .empty => True
  | .value v => Reference apply es n (.value v)
  | .exception x => Reference apply es n (.exception x)
  | .inner t => Adopts apply es n t

theorem Computed.mono {x : Storage V E} (h : Computed apply es n x) (es' : List (Event V E F)) :
    Computed apply (es ++ es') n x := by
  cases x with
  | empty => trivial
  | value v => exact Reference.mono h es'
  | exception x => exact Reference.mono h es'
  | inner t => exact Adopts.mono h es'

theorem Computed.of_ret {r : Ret V E} (h : Reference apply es n r.outcome) :
    Computed apply es n r.storage := by
  cases r <;> exact h

/-- **What holds in a session** after the events `es`. -/
structure Computes (apply : F → Outcome V E → Reply V E) (es : List (Event V E F))
    (w : Session V E F) : Prop where
  chronicle : Chronicle es w.config
  grounded : Grounded w.config
  /-- a function is called with the reference result of the parent -/
  called : ∀ n, .invoked .cnt n ∈ w.config.objs → ∃ a o, Continues es n a ∧
    w.given n = some (a.fn, o) ∧ Reference apply es a.parent o ∧ ¬ a.Passes o
  stored : ∀ n nd, w.config.nodes n = some nd → nd.body.kind ≠ .combinator →
    Computed apply es n nd.storage

theorem computes_init : Computes apply [] (Session.init : Session V E F) := by
  refine ⟨chronicle_init, fun n hex => ?_, fun n hmem => ?_, fun n nd hn => ?_⟩
  · simp [Config.isExecuted, Session.init, init] at hex
  · simp [Session.init, init] at hmem
  · simp [Session.init, init] at hn

/-- A state of the kind of a combinator was made by `combine`. -/
theorem Chronicle.sequence {c : Config V E F} (h : Chronicle es c) (hn : c.nodes n = some nd)
    (hk : nd.body.kind = .combinator) :
    ∃ l, es.find? (Event.makes n) = some (.combine n l) := by
  obtain ⟨e, hf, hkind, -⟩ := h.made n nd hn
  have hmakes := List.find?_some hf
  rw [hk] at hkind
  cases e <;> simp [Event.kind] at hkind
  simp only [Event.makes, decide_eq_true_eq] at hmakes
  subst hmakes
  exact ⟨_, hf⟩

/-- One of the kind of a task is a source. -/
theorem Chronicle.task {c : Config V E F} (h : Chronicle es c) (hn : c.nodes n = some nd)
    (hk : nd.body.kind = .task) : IsSource es n := by
  obtain ⟨e, hf, hkind, -⟩ := h.made n nd hn
  rw [hk] at hkind
  cases e <;> simp [Event.kind] at hkind
  exact ⟨_, hf, rfl⟩

/-- **What can be read is the reference result.** -/
theorem Computes.resolves (h : Computes apply es w) (hr : Resolves w.config s l o) :
    Reference apply es s o := by
  induction hr with
  | @leaf l nd o hn hex ho =>
    by_cases hcomb : nd.body.isCombinator = true
    · obtain ⟨l, hf⟩ := h.chronicle.sequence hn (Body.isCombinator_iff.mp hcomb)
      obtain rfl : o = .futures := by
        rw [Node.outcome_futures.mpr hcomb] at ho
        exact (Option.some.inj ho).symm
      exact .sequence hf
    · have hk : nd.body.kind ≠ .combinator := fun hk => hcomb (Body.isCombinator_iff.mpr hk)
      have hc := h.stored _ nd hn hk
      unfold Node.outcome at ho
      rw [if_neg hcomb] at ho
      cases hs : nd.storage with
      | value v | exception v =>
        rw [hs] at hc ho
        cases ho
        exact hc
      | empty | inner t =>
        rw [hs] at ho
        cases ho
  | @inner s t l nd o hn hex hbody hs ht ih =>
    have hk : nd.body.kind ≠ .combinator := fun hk => by
      rw [Body.isCombinator_iff.mpr hk] at hbody
      cases hbody
    have hc := h.stored s nd hn hk
    rw [hs] at hc
    exact Adopts.reference hc ih

/-! ## One step -/

/-- **With what a function is called.** -/
theorem Computes.given (h : Computes apply es w) (hst : Session.Step w (.invoke n a) w') :
    ∃ o, es.find? (Event.makes n) = some (.attach n a) ∧ Reference apply es a.parent o ∧
      w'.given n = some (a.fn, o) ∧ ¬ a.Passes o := by
  cases hst with
  | @invoke _ _ l _ o hst hr =>
    have hrun := hst.calls (x := .brokenPromise) (.inl rfl)
    refine ⟨o, h.chronicle.running n a hrun, h.resolves hr, by simp, ?_⟩
    rintro ⟨hnext, x, rfl⟩
    obtain ⟨l', o', hr', hcall⟩ := hst.invoke_next hnext
    obtain ⟨-, rfl⟩ := hr.unique hr'
    exact hcall ⟨hnext, x, rfl⟩
  | other _ _ hne => exact absurd rfl (hne n a)

/-- An error is passed on by `next`. -/
theorem Computes.passed {x : Exn E} (h : Computes apply es w)
    (hst : Session.Step w (.passError n a x) w') :
    es.find? (Event.makes n) = some (.attach n a) ∧ Reference apply es a.parent (.exception x) ∧
      a.Passes (.exception x : Outcome V E) := by
  obtain ⟨hk, l, hr⟩ := hst.step.passed
  exact ⟨h.chronicle.running n a (hst.step.calls (.inr rfl)), h.resolves hr, hk, x, rfl⟩

theorem Computes.called_step (h : Computes apply es w) (hst : Session.Step w e w') (n : ℕ)
    (hmem : .invoked .cnt n ∈ w'.config.objs) : ∃ a o, Continues (es ++ [e]) n a ∧
      w'.given n = some (a.fn, o) ∧ Reference apply (es ++ [e]) a.parent o ∧ ¬ a.Passes o := by
  have hsole := h.chronicle.live.claimed.sole
  -- who is called now is not called once more
  have hold : .invoked .cnt n ∈ w.config.objs → (∀ a, e ≠ .invoke n a) ∧
      ∃ a o, Continues (es ++ [e]) n a ∧ w.given n = some (a.fn, o) ∧
        Reference apply (es ++ [e]) a.parent o ∧ ¬ a.Passes o := by
    intro hmem
    refine ⟨fun a heq => ?_, ?_⟩
    · have hrun := hst.step.calls (n := n) (a := a) (x := .brokenPromise) (.inl heq)
      have := hsole.eq (n := n) hmem hrun (by simp [Obj.claims]) (by simp [Obj.claims])
      cases this
    · obtain ⟨a, o, hc, hg, hr, hcall⟩ := h.called n hmem
      exact ⟨a, o, hc.mono [e], hg, hr.mono [e], hcall⟩
  rcases hst.step.had_invoked hmem with hmem | ⟨b, rfl, hk⟩
  · obtain ⟨hne, b, o, hc, hg, hrest⟩ := hold hmem
    refine ⟨b, o, hc, ?_, hrest⟩
    cases hst with
    | @invoke c' s _ a =>
      have hns : n ≠ s := by
        rintro rfl
        exact hne a rfl
      simp only [Function.update_of_ne hns]
      exact hg
    | other => exact hg
  · obtain ⟨o, hf, hr, hg, hcall⟩ := h.given hst
    exact ⟨b, o, ⟨find?_mono hf _, hk⟩, hg, hr.mono _, hcall⟩

/-- **What a result is settled with is the reference result.** -/
theorem Computes.settle {x : Storage V E} {clean : Body F → Body F}
    {rem add rest : Multiset (Obj F)} (h : Computes apply es w) (hok : Obeys apply w e)
    (hs : Settle w.config e rem n x clean add) (ho : w.config.objs = rem + rest)
    (hn : w.config.nodes n = some nd) (hempty : nd.storage = .empty) :
    Computed apply (es ++ [e]) n x := by
  have hchr := h.chronicle
  have hmem : ∀ {o : Obj F}, o ∈ rem → o ∈ w.config.objs := fun hrem => mem_of_rem ho hrem
  have hfirst : e.settles n = true → Owned w.config n →
      (es ++ [e]).find? (Event.settles n) = some e := fun he howned =>
    hchr.first_settles he howned hn hempty
  have hpromise : ∀ {b}, .handle .promise b n ∈ rem → IsSource (es ++ [e]) n := fun hrem =>
    (hchr.promised _ n (hmem hrem)).mono [e]
  have htask : HasKind w.config n .task → IsSource (es ++ [e]) n := fun hk =>
    (hchr.task hn (hk nd hn)).mono [e]
  cases hs with
  | setValue b _ v hlock =>
    exact .settled (hpromise (Multiset.mem_singleton_self _))
      (hfirst (by simp [Event.settles]) hlock) rfl
  | setException b _ x hlock =>
    exact .settled (hpromise (Multiset.mem_singleton_self _))
      (hfirst (by simp [Event.settles]) hlock) rfl
  | abandon g b _ hlock =>
    cases g with
    | promise =>
      exact .settled (hpromise (Multiset.mem_singleton_self _))
        (hfirst (by simp [Event.settles]) hlock) rfl
    | task =>
      have hk : HasKind w.config n .task :=
        hchr.live.lists.kinded _ (hmem (Multiset.mem_singleton_self _))
      exact .settled (htask hk) (hfirst (by simp [Event.settles]) hlock) rfl
    | action => exact absurd rfl (hok.runs n)
  | passError _ l a y hk hr =>
    have hrun := hchr.running n a (hmem (Multiset.mem_singleton_self _))
    exact .passes ⟨find?_mono hrun _, by simp [hk]⟩ ((h.resolves hr).mono _) ⟨hk, y, rfl⟩
  | ret g _ r =>
    cases g with
    | task =>
      have hmem := hmem (Multiset.mem_singleton_self _)
      have hk : HasKind w.config n .task := hchr.live.lists.kinded _ hmem
      have howned : Owned w.config n := .inl ⟨_, hmem, by simp [Obj.refs]⟩
      exact .of_ret (.settled (htask hk) (hfirst (by simp [Event.settles]) howned) rfl)
    | cnt =>
      obtain ⟨a, o, hc, hg, hr, hcall⟩ := h.called n (hmem (Multiset.mem_singleton_self _))
      obtain ⟨fn, o', hg', happly⟩ := hok.ret n r rfl
      rw [hg] at hg'
      cases hg'
      exact .of_ret (.applies (hc.mono _) (hr.mono _) hcall happly)

/-- And what it is unwrapped onto will have it. -/
theorem Computes.unwrap {g : Caller} {u : Bool} {rest : Multiset (Obj F)}
    (h : Computes apply es w) (hok : Obeys apply w (.unwrap g n t))
    (ho : w.config.objs = {.invoked g n, .future u t} + rest)
    (hn : w.config.nodes n = some nd) :
    Computed apply (es ++ [.unwrap g n t]) n (.inner t) := by
  have hchr := h.chronicle
  have hempty := hchr.steady.toInv.unwrap_empty hok.first rfl ho hn
  have hmem : .invoked g n ∈ w.config.objs := by simp [ho]
  cases g with
  | task =>
    have hk : HasKind w.config n .task := hchr.live.lists.kinded _ hmem
    have howned : Owned w.config n := .inl ⟨_, hmem, by simp [Obj.refs]⟩
    have hfirst := hchr.first_settles (e := .unwrap .task n t) (by simp [Event.settles]) howned
      hn hempty
    exact .task ((hchr.task hn (hk nd hn)).mono [_]) hfirst
  | cnt =>
    obtain ⟨a, o', hc, hg, hr, hcall⟩ := h.called n hmem
    obtain ⟨fn, o'', hg', happly⟩ := hok.future n t rfl
    rw [hg] at hg'
    cases hg'
    exact .cnt a o' (hc.mono [_]) (hr.mono [_]) hcall happly (hchr.first_returns hn hempty)

theorem Computes.stored_step (h : Computes apply es w) (hok : Obeys apply w e)
    (hst : Session.Step w e w') (n : ℕ) (nd' : Node V E F) (hn' : w'.config.nodes n = some nd')
    (hk : nd'.body.kind ≠ .combinator) : Computed apply (es ++ [e]) n nd'.storage := by
  cases hst.step.node hn' with
  | same hn => exact (h.stored n nd' hn hk).mono [e]
  | spawn _ hs => cases hs <;> trivial
  | settle hn hempty hs ho => exact h.settle hok hs ho hn hempty
  | unwrap hn he ho =>
    subst he
    exact h.unwrap hok ho hn
  | @touch nd _ _ _ _ hn ht =>
    rw [ht.kind] at hk
    exact (h.stored n nd hn hk).mono [e]
  | @execute nd _ hn => exact (h.stored n nd hn hk).mono [e]

theorem Computes.step (h : Computes apply es w) (hok : Obeys apply w e)
    (hst : Session.Step w e w') : Computes apply (es ++ [e]) w' :=
  ⟨h.chronicle.step hok.first hst.step hst.stores,
    h.grounded.step h.chronicle.steady hok.first hst.step, h.called_step hst,
    h.stored_step hok hst⟩

theorem Computes.of_trace (htr : Trace Session.Step (Obeys apply) Session.init es w) :
    Computes apply es w :=
  htr.invariant (I := Computes apply) (fun _ _ _ _ h hok hst => h.step hok hst) computes_init

end Futures

end PortableConcurrency
