import PortableConcurrency.Futures.Orphans
import PortableConcurrency.Futures.Reading
import PortableConcurrency.Futures.Release
import PortableConcurrency.Futures.Costs

/-!
# Nothing is left undone

Whatever the library has begun it brings to an end: a closure that left
its list is called, an action that was posted is run, and a combinator
goes through its inputs. Where none of this is left to do, a state that is
not ready waits for another one that is not, until there is a promise or a
`packaged_task` that the user has not settled.
-/

namespace PortableConcurrency

namespace Futures

open Relation

variable {V E F : Type*} {c c' : Config V E F} {e : Event V E F} {es : List (Event V E F)}
variable {s t n m w i : ℕ} {o : Obj F} {a : Action F} {nd : Node V E F} {X : ℕ → Prop}

/-- **What is asked of the functions**: they return no future that depends
on their own result, and a task's function none when the task has a result
already. -/
structure Sensible (c : Config V E F) (e : Event V E F) : Prop where
  loops : NoLoops c e
  first : FirstResult c e

/-- State `n` waits for `m`, which is not ready. -/
def WaitsFor (c : Config V E F) (n m : ℕ) : Prop :=
  ∃ nd, c.nodes n = some nd ∧ m ∈ nd.awaits ∧ c.isExecuted m = false

/-- The steps of the library need no assumption and bring nothing. -/
theorem Sensible.of_work (he : 0 < e.work) : Sensible c e ∧ e.brings = 0 := by
  refine ⟨⟨?_, ?_⟩, ?_⟩
  · rintro g s t rfl
    cases he
  · rintro s t nd rfl
    cases he
  · cases e with
    | drop h s => cases h <;> first | rfl | cases he
    | register | finish | call | run | invoke | passError | ret | subscribe | clean | execute |
      release | destroy => rfl
    | _ => cases he

/-! ## Whatever is in progress goes on -/

theorem exists_rest_of_mem (hmem : o ∈ c.objs) : ∃ rest, c.objs = {o} + rest := by
  obtain ⟨rest, ho⟩ := Multiset.exists_cons_of_mem hmem
  exact ⟨rest, by rw [ho, Multiset.singleton_add]⟩

theorem Live.alive_of_refs (h : Live c) (hmem : o ∈ c.objs) (hn : n ∈ o.refs) :
    ∃ nd, c.nodes n = some nd := h.wf.alive n (.inl ⟨o, hmem, hn⟩)

/-- An action can be run. -/
theorem Live.run_enabled {b : Bool} (h : Live c) (hmem : .handle .action b s ∈ c.objs) :
    ∃ c', Step c (.run s) c' := by
  obtain ⟨rest, ho⟩ := exists_rest_of_mem hmem
  obtain ⟨rfl, -⟩ := h.lists.kinded _ hmem
  by_cases howned : Owned c s
  · obtain ⟨nd, hn⟩ := h.wf.alive s howned
    obtain ⟨-, -, a, hb, -⟩ := h.claimed.pending _ hmem nd hn
    exact ⟨_, .touch (.run s nd false a howned hb) ho hn⟩
  · exact ⟨_, .move (.runExpired s howned) ho⟩

/-- A queued closure can be called. -/
theorem Live.call_enabled {k : Closure} (h : Live c) (hmem : .queued t k ∈ c.objs) :
    ∃ c', Step c (.call t k) c' := by
  obtain ⟨rest, ho⟩ := exists_rest_of_mem hmem
  cases k with
  | notify => exact ⟨_, .move (.callPlain t _ (.inl rfl)) ho⟩
  | detached s => exact ⟨_, .move (.callPlain t _ (.inr ⟨s, rfl⟩)) ho⟩
  | schedule s =>
    by_cases howned : Owned c s
    · obtain ⟨nd, hn⟩ := h.wf.alive s howned
      obtain ⟨-, -, a, hb, -⟩ := h.claimed.pending _ hmem nd hn
      exact ⟨_, .touch (.schedule t s nd (some a) howned hb) ho hn⟩
    · exact ⟨_, .move (.callExpired t s _ (.inl rfl) howned) ho⟩
  | unwrapCb s =>
    by_cases howned : Owned c s
    · exact ⟨_, .move (.callUnwrap t s howned) ho⟩
    · exact ⟨_, .move (.callExpired t s _ (.inr rfl) howned) ho⟩
  | combine w pos =>
    obtain ⟨nd, hn⟩ := h.alive_of_refs hmem (n := w) (by simp [Obj.refs, Closure.refs])
    exact ⟨_, .touch (.notify t w pos nd) ho hn⟩

/-- A continuation that runs finds its parent's result. -/
theorem Live.invoke_enabled (h : Live c) (hg : Grounded c) (hmem : .running s a ∈ c.objs) :
    ∃ e c', Step c e c' ∧ 0 < e.work := by
  obtain ⟨rest, ho⟩ := exists_rest_of_mem hmem
  cases hk : a.kind with
  | then' => exact ⟨_, _, .move (.invokeThen s a hk) ho, Nat.one_pos⟩
  | interruptible => exact ⟨_, _, .move (.invokeInterruptible s a hk) ho, Nat.one_pos⟩
  | next =>
    obtain ⟨hclosed, hstage⟩ := h.claimed.pending _ hmem
    obtain ⟨ndp, hp⟩ := h.alive_of_refs hmem (n := a.parent) (by simp [Obj.refs])
    obtain ⟨nd, hn⟩ := h.alive_of_refs hmem (n := s) (by simp [Obj.refs])
    obtain ⟨l, x, hres⟩ := hg a.parent (by rw [isExecuted_eq hp, hclosed ndp hp])
    cases x with
    | value v => exact ⟨_, _, .move (.invokeNext s l a v hk hres) ho, Nat.one_pos⟩
    | exception x =>
      exact ⟨_, _, .settle (.passError s l a x hk hres) ho hn (hstage nd hn).1, Nat.one_pos⟩
    | futures =>
      obtain ⟨ndl, hl, -⟩ := hres.isCombinator
      cases hu : a.unique with
      | true => exact ⟨_, _, .touch (.invokeNext s l a ndl hk hu hres) ho hl, Nat.one_pos⟩
      | false =>
        exact ⟨_, _, .move (.invokeNextShared s l a ndl hk hu hres hl) ho, Nat.one_pos⟩

/-- A function that is being called can end. -/
theorem Live.ret_enabled {g : Caller} (h : Live c) (hmem : .invoked g s ∈ c.objs) :
    ∃ c', Step c (.ret g s .invalid) c' := by
  obtain ⟨rest, ho⟩ := exists_rest_of_mem hmem
  obtain ⟨nd, hn⟩ := h.alive_of_refs hmem (n := s) (by simp [Obj.refs])
  by_cases hempty : nd.storage = .empty
  · exact ⟨_, .settle (.ret g s .invalid) ho hn hempty⟩
  · cases g with
    | task => exact ⟨_, .move (.retThrows s .invalid nd hn (.inl hempty)) ho⟩
    | cnt => exact absurd (h.claimed.pending _ hmem nd hn).1 hempty

/-- `make` can go on. -/
theorem Live.make_enabled (h : Live c) (hmem : .making w i ∈ c.objs) :
    ∃ e c', Step c e c' ∧ 0 < e.work := by
  obtain ⟨rest, ho⟩ := exists_rest_of_mem hmem
  obtain ⟨nd, hn⟩ := h.alive_of_refs hmem (n := w) (by simp [Obj.refs])
  have hle := h.hidden.within w i nd hmem hn
  by_cases hlt : i < nd.body.futures.length
  · have hi := List.getElem?_eq_getElem hlt
    cases hex : c.isExecuted nd.body.futures[i].2 with
    | true => exact ⟨_, _, .touch (.register w i nd _ hi hex) ho hn, Nat.one_pos⟩
    | false => exact ⟨_, _, .move (.register w i nd _ hn hi hex) ho, Nat.one_pos⟩
  · exact ⟨_, _, .touch (.finish w i nd (by omega)) ho hn, Nat.one_pos⟩

/-- **Nothing that is in progress is stuck.** -/
theorem Live.goes_on (h : Live c) (hg : Grounded c) (hmem : o ∈ c.objs)
    (hprog : o.inProgress = true) : ∃ e c', Step c e c' ∧ 0 < e.work := by
  obtain ⟨rest, ho⟩ := exists_rest_of_mem hmem
  cases o with
  | handle | future | linked => cases hprog
  | queued t k =>
    obtain ⟨c', hst⟩ := h.call_enabled hmem
    exact ⟨_, c', hst, Nat.one_pos⟩
  | spent t k => exact ⟨_, _, .move (.releaseSpent t k) ho, Nat.one_pos⟩
  | held s => exact ⟨_, _, .move (.releaseHeld s) ho, Nat.one_pos⟩
  | execute s =>
    obtain ⟨nd, hn⟩ := h.alive_of_refs hmem (n := s) (by simp [Obj.refs])
    exact ⟨_, _, .execute ho hn, Nat.one_pos⟩
  | running s a => exact h.invoke_enabled hg hmem
  | invoked g s =>
    obtain ⟨c', hst⟩ := h.ret_enabled hmem
    exact ⟨_, c', hst, Nat.one_pos⟩
  | subscribing s t => exact ⟨_, _, .move (.subscribe s t) ho, Nat.one_pos⟩
  | cleaning s =>
    obtain ⟨nd, hn⟩ := h.alive_of_refs hmem (n := s) (by simp [Obj.refs])
    exact ⟨_, _, .touch (.clean s nd) ho hn, Nat.one_pos⟩
  | making w i => exact h.make_enabled hmem

/-! ## At rest -/

/-- **Nothing is in progress where the library cannot make a step.** -/
theorem Live.idle_of_rest (h : Live c) (hg : Grounded c) (hrest : AtRest Step Event.work c) :
    Idle c := by
  intro o hmem
  by_contra hprog
  obtain ⟨e, c', hst, he⟩ := h.goes_on hg hmem (by simpa using hprog)
  have := hrest e c' hst
  omega

/-- No action is left to run. -/
theorem Live.no_action_of_rest {b : Bool} (h : Live c) (hrest : AtRest Step Event.work c) :
    .handle .action b s ∉ c.objs := by
  intro hmem
  obtain ⟨c', hst⟩ := h.run_enabled hmem
  cases hrest _ c' hst

/-- No destructor is due. -/
theorem settled_of_rest (hrest : AtRest Step Event.work c) : Settled c := fun s c' hst => by
  cases hrest _ c' hst

/-! ## Who waits for whom -/

theorem not_mem_of_idle (hidle : Idle c) (hprog : o.inProgress = true) : o ∉ c.objs := by
  intro hmem
  rw [hidle o hmem] at hprog
  cases hprog

/-- A combinator that is pending between operations has a pending input,
and a `when_any` no other. -/
theorem Live.inputs_idle (h : Live c) (hidle : Idle c) (hn : c.nodes n = some nd)
    (hex : nd.executed = false) (hk : nd.body.kind = .combinator) :
    (∃ m ∈ nd.awaits, c.isExecuted m = false) ∧
      (nd.body.isAny = true → ∀ m ∈ nd.awaits, c.isExecuted m = false) := by
  have hawaits := fun m => Node.mem_awaits_combinator (m := m) hk
  cases hb : nd.body with
  | whenAll l r =>
    refine ⟨?_, by simp [Body.isAny]⟩
    -- a notification that has not come is in the list of a pending input
    obtain ⟨o, ho, hnot⟩ : ∃ o ∈ c.objs, o.notifies n = true := by
      refine exists_of_tally_pos (Nat.pos_of_ne_zero fun hzero => ?_)
      rcases h.counted.not_after hn hb (idle_no_making hidle) hzero with hex' | hmem
      · rw [hex] at hex'
        cases hex'
      · exact not_mem_of_idle hidle rfl hmem
    obtain ⟨u, t, i, hi, rfl | rfl⟩ := h.notifies_input hn hex ho hnot
    · exact ⟨t, (hawaits t).mpr ⟨(u, t), List.mem_of_getElem? hi, rfl⟩, h.lists.pending ho⟩
    · exact absurd ho (not_mem_of_idle hidle rfl)
  | whenAny l b k =>
    obtain ⟨L, ha⟩ := h.chosen n nd l b k hn hb
    have hfut : nd.body.futures = L := (ha.futures nd hn).resolve_right fun hm => by
      rw [hex] at hm
      cases hm.2
    have hnone := (ha.idle h.toAssembled hn hb hidle).not.mp (by simp [hex])
    rw [not_or] at hnone
    have hpend : ∀ m ∈ nd.awaits, c.isExecuted m = false := by
      intro m hm
      obtain ⟨f, hf, rfl⟩ := (hawaits m).mp hm
      by_contra hready
      refine hnone.2 ⟨f, hfut ▸ hf, fun ndf hnf => ?_⟩
      rw [isExecuted_eq hnf] at hready
      simpa using hready
    obtain ⟨f, hf⟩ := List.exists_mem_of_ne_nil L hnone.1
    have hmem : f.2 ∈ nd.awaits := (hawaits f.2).mpr ⟨f, hfut ▸ hf, rfl⟩
    exact ⟨⟨f.2, hmem, hpend f.2 hmem⟩, fun _ => hpend⟩
  | promise | task | cnt =>
    rw [hb] at hk
    cases hk

/-- **Who is pending between operations waits for a producer**: its own, or
that of a state it waits for. -/
theorem Settles.waits (hs : Settles c X n) (h : Live c) (hidle : Idle c) (howned : Owned c n)
    (hpend : c.isExecuted n = false) :
    ∃ m g b, ReflTransGen (WaitsFor c) n m ∧ c.isExecuted m = false ∧
      .handle g b m ∈ c.objs := by
  have hnext : ∀ {n nd}, c.nodes n = some nd → Owned c n → c.isExecuted n = false →
      (∃ g b, .handle g b n ∈ c.objs) ∨ (∃ m ∈ nd.awaits, c.isExecuted m = false) ∧
        (nd.body.isAny = true → ∀ m ∈ nd.awaits, c.isExecuted m = false) := by
    intro n nd hn howned hpend
    rw [isExecuted_eq hn] at hpend
    by_cases hk : nd.body.kind = .combinator
    · exact .inr (h.inputs_idle hidle hn hpend hk)
    · rcases h.plain_idle hidle howned hn hpend hk with ⟨-, hhandle⟩ | hm
      · exact .inl hhandle
      · exact .inr ⟨hm, fun hany => absurd (Body.isAny_kind hany) hk⟩
  induction hs with
  | closing hc =>
    rcases hc with hex | hmem
    · rw [hex] at hpend
      cases hpend
    · exact absurd hmem (not_mem_of_idle hidle rfl)
  | @all n nd hx hn hany _ ih =>
    rcases hnext hn howned hpend with ⟨g, b, hmem⟩ | ⟨⟨m, hm, hex⟩, -⟩
    · exact ⟨n, g, b, .refl, hpend, hmem⟩
    · obtain ⟨p, g, b, hpath, hp⟩ := ih m hm (.inr ⟨n, nd, hn, Node.awaits_refs hm⟩) hex
      exact ⟨p, g, b, .head ⟨nd, hn, hm, hex⟩ hpath, hp⟩
  | @any n m nd hx hn hany hm _ ih =>
    rcases hnext hn howned hpend with ⟨g, b, hmem⟩ | ⟨-, hall⟩
    · exact ⟨n, g, b, .refl, hpend, hmem⟩
    · obtain ⟨p, g, b, hpath, hp⟩ := ih (.inr ⟨n, nd, hn, Node.awaits_refs hm⟩) (hall hany m hm)
      exact ⟨p, g, b, .head ⟨nd, hn, hm, hall hany m hm⟩ hpath, hp⟩

/-! ## The result -/

/-- **Every step of the library is paid for.** -/
theorem pays : Pays Step Sensible (Reachable (V := V) (E := E) (F := F) Sensible) Config.budget
    Event.work Event.brings :=
  fun _ _ _ h hok hst => ⟨h.tail hok hst, hst.pays (Reachable.wf h)⟩

/-- **The library leaves nothing undone**, in every run of promises, tasks,
continuations and combinators whose functions are sensible. It makes no more
steps of its own than the user's operations bring. Where it cannot make any,
nothing is in progress and nothing is left to run or to destroy; every state
with an owner is ready and has a result, unless it waits, through states
that are pending, for a pending one whose promise or task the user has; and when
the users have let go of everything nothing is left. There is always a way
to get there. -/
theorem leaves_nothing_undone (h : Reachable Sensible c) (hrun : Trace Step Sensible c es c') :
    spent Event.work es ≤ c.budget + spent Event.brings es ∧
      (AtRest Step Event.work c' →
        Idle c' ∧ (∀ b s, .handle .action b s ∉ c'.objs) ∧
        (∀ n nd, c'.nodes n = some nd → Owned c' n) ∧
        (∀ n, Owned c' n → (c'.isExecuted n = true ∧ ∃ l x, Resolves c' n l x) ∨
          ∃ m g b, ReflTransGen (WaitsFor c') n m ∧ c'.isExecuted m = false ∧
            .handle g b m ∈ c'.objs) ∧
        (Reachable NoCycle c' → LetGo c' → (∀ n, c'.nodes n = none) ∧ c'.objs = 0)) ∧
      ∃ es' c'', Trace Step Sensible c' es' c'' ∧ (∀ e ∈ es', 0 < e.work) ∧
        AtRest Step Event.work c'' := by
  obtain ⟨h', hle⟩ := pays.spent_le hrun h
  have hends : Ends c' := Reachable.ends (h'.mono fun _ _ hok => hok.loops)
  have hground : Grounded c' := Reachable.grounded (h'.mono fun _ _ hok => hok.first)
  refine ⟨by omega, fun hrest => ?_, pays.exists_rest (fun _ _ he => Sensible.of_work he) h'⟩
  have hidle := hends.live.idle_of_rest hground hrest
  have hset := settled_of_rest hrest
  refine ⟨hidle, fun b s => hends.live.no_action_of_rest hrest, fun n nd hn => hset.owned hn, ?_,
    fun hno hgo => hno.unknotted.nothing_left hgo hset⟩
  intro n howned
  cases hex : c'.isExecuted n with
  | true => exact .inl ⟨rfl, hground n hex⟩
  | false =>
    obtain ⟨nd, hn⟩ := hends.live.wf.alive n howned
    exact .inr ((hends.settle n nd hn).waits hends.live hidle howned hex)

/-- A continuation of a promise that has been set and is about to be
announced. -/
theorem leaves_nothing_undone_of_set : ∃ c : Config Unit Unit Unit, Reachable Sensible c ∧
    .execute 0 ∈ c.objs ∧ .linked 0 (.schedule 1) ∈ c.objs ∧
    ∃ es c', Trace Step Sensible c es c' ∧ (∀ e ∈ es, 0 < e.work) ∧
      AtRest Step Event.work c' := by
  have hok : ∀ {c : Config Unit Unit Unit} {e : Event Unit Unit Unit},
      (∀ g s t, e ≠ .unwrap g s t) → Sensible c e := by
    intro c e he
    exact ⟨fun g s t heq => absurd heq (he g s t), fun s t _ heq => absurd heq (he .task s t)⟩
  have h₀ : Reachable Sensible (init : Config Unit Unit Unit) := .refl _
  have h₁ := h₀.tail (hok (by simp)) (.spawn (.makePromise false) (Multiset.zero_add _).symm)
  have h₂ := h₁.tail (hok (by simp)) (.spawn (.attach ⟨.next, true, (), 0⟩)
    (show _ = _ + ({.handle .promise false 0} : Multiset (Obj Unit)) by decide))
  have h₃ := h₂.tail (hok (by simp)) (.settle (.setValue false 0 () (.inr ⟨1, _, rfl, by decide⟩))
    (show _ = _ + ({.future true 1, .linked 0 (.schedule 1)} : Multiset (Obj Unit)) by decide)
    rfl rfl)
  exact ⟨_, h₃, by decide, by decide, (leaves_nothing_undone h₃ (.nil _)).2.2⟩

end Futures

end PortableConcurrency
