import PortableConcurrency.Futures.Inputs
import PortableConcurrency.Futures.Orphans
import PortableConcurrency.Futures.Started

/-!
# Everything is released

`detach` and the combinators make cycles on purpose: a closure in the list
of a pending state owns a state that owns the pending one. Such a cycle
goes through a list, and lists are consumed. Cycles of states that own
each other directly would stay, and only `unwrap` can make one: every
other reference of a state is to states older than itself.

No cycle stays if no function, of a continuation or of a `packaged_task`,
returns a future that depends on the function's own result. Then all
states are ready once the users have let go of everything. A continuation
that was called does not own its parent any more, so what is left is what
a combinator owns, which has a smaller type, and what a state was
unwrapped onto, which has the same type and goes on to an end.

Where types do not matter, it is enough that no function returns a future
that owns the state of the function's own result. That holds of the trees
of continuations.
-/

namespace PortableConcurrency

namespace Futures

open Relation

variable {V E F : Type*} {c c' : Config V E F} {e : Event V E F}
variable {rem add rest : Multiset (Obj F)} {s t n m : ℕ} {nd nd' : Node V E F}

/-- State `m` has a `shared_ptr` to `n`. -/
def Refs (c : Config V E F) (m n : ℕ) : Prop := ∃ nd, c.nodes m = some nd ∧ n ∈ nd.refs

/-- **No function returns a future that owns the state of the function's
own result**, directly or not. -/
def NoCycle (c : Config V E F) (e : Event V E F) : Prop :=
  ∀ g s t, e = .unwrap g s t → ¬ Behind c t s

theorem Refs.owned (h : Refs c m n) : Owned c n := by
  obtain ⟨nd, hn, hmem⟩ := h
  exact .inr ⟨m, nd, hn, hmem⟩

/-- What a state refers to was there before, unless the state is new, or
is unwrapped. -/
theorem Step.refs_cases (hst : Step c e c') (h : Refs c' m n) :
    Refs c m n ∨ (m = c.fresh ∧ Owned c n) ∨ ∃ g, e = .unwrap g m n := by
  obtain ⟨nd', hn', hmem⟩ := h
  cases hst.node hn' with
  | same hn => exact .inl ⟨nd', hn, hmem⟩
  | spawn hf hsp ho => exact .inr (.inl ⟨hf, hsp.node_refs ho hmem⟩)
  | @settle nd _ _ _ _ _ hn hempty hse =>
    simp only [Node.refs, hse.storage_refs, List.nil_append] at hmem
    exact .inl ⟨nd, hn, List.mem_append_right _ (hse.clean_refs hmem)⟩
  | @unwrap nd g t _ _ hn he =>
    simp only [Node.refs, Storage.refs, List.mem_append, List.mem_singleton] at hmem
    rcases hmem with rfl | hmem
    · exact .inr (.inr ⟨g, he⟩)
    · exact .inl ⟨nd, hn, List.mem_append_right _ hmem⟩
  | @touch nd _ _ _ _ hn ht =>
    refine .inl ⟨nd, hn, ?_⟩
    rcases List.mem_append.mp hmem with hmem | hmem
    · exact List.mem_append_left _ hmem
    · exact List.mem_append_right _ (ht.body_refs hmem)
  | execute hn => exact .inl ⟨_, hn, hmem⟩

/-- A new state is behind nobody. -/
theorem Wf.not_behind_fresh (h : Wf c) (howned : Owned c n) : ¬ Behind c n c.fresh := by
  have hno : ¬ Owned c c.fresh := fun howned => by
    obtain ⟨nd, hn⟩ := h.alive _ howned
    have := h.bound _ nd hn
    omega
  intro hpath
  rcases ReflTransGen.cases_tail hpath with heq | ⟨m, -, hlast⟩
  · rw [heq] at hno
    exact hno howned
  · exact hno (Refs.owned hlast)

/-- **States do not own each other in a circle.** -/
theorem refs_acyclic_step (h : Graph.Acyclic (Refs c)) (hw : Wf c) (hok : NoCycle c e)
    (hst : Step c e c') : Graph.Acyclic (Refs c') := by
  by_cases hun : ∃ g s t, e = .unwrap g s t
  · obtain ⟨g, s, t, rfl⟩ := hun
    refine h.of_new (s := s) (p := (· = t)) (fun a b hab => ?_) fun b hb => ?_
    · rcases hst.refs_cases hab with hab | ⟨rfl, -⟩ | ⟨g', heq⟩
      · exact .inl hab
      · obtain ⟨nd, hn, -⟩ := hab
        obtain ⟨_, _, _, hsp, -⟩ := hst.spawned hw hn
        cases hsp
      · cases heq
        exact .inr ⟨rfl, rfl⟩
    · subst hb
      exact hok g s b rfl
  · refine h.of_new (s := c.fresh) (p := Owned c) (fun a b hab => ?_) fun b hb => ?_
    · rcases hst.refs_cases hab with hab | hab | ⟨g, heq⟩
      · exact .inl hab
      · exact .inr hab
      · exact absurd ⟨g, a, b, heq⟩ hun
    · exact hw.not_behind_fresh hb

/-- What holds of the states while none owns itself. -/
structure Unknotted (c : Config V E F) : Prop where
  live : Live c
  acyclic : Graph.Acyclic (Refs c)

theorem Unknotted.step (h : Unknotted c) (hok : NoCycle c e) (hst : Step c e c') : Unknotted c' :=
  ⟨h.live.step hst, refs_acyclic_step h.acyclic h.live.wf hok hst⟩

theorem Reachable.unknotted (h : Reachable NoCycle c) : Unknotted c := by
  refine h.invariant (I := Unknotted) (fun c e c' hi hok hst => hi.step hok hst) ⟨live_init, ?_⟩
  rintro a b ⟨nd, hn, -⟩
  simp [init] at hn

/-! ## When the users have let go -/

/-- **Nobody has a promise, a task, a future or an action**, and no call is
in progress. What is left are the closures in lists. -/
def LetGo (c : Config V E F) : Prop := ∀ o ∈ c.objs, ∃ t k, o = .linked t k

/-- No destructor is due. -/
def Settled (c : Config V E F) : Prop := ∀ s c', ¬ Step c (.destroy s) c'

theorem LetGo.quiet (h : LetGo c) : Quiet c := by
  refine ⟨fun o ho => ?_, fun g b s ho => ?_⟩
  · obtain ⟨t, k, rfl⟩ := h o ho
    rfl
  · obtain ⟨t, k, heq⟩ := h _ ho
    cases heq

theorem LetGo.destroy (h : LetGo c) (hst : Step c (.destroy s) c') : LetGo c' := by
  obtain ⟨nd, -, -, rfl⟩ := hst.destroy_inv
  exact fun o ho => h o (Multiset.mem_of_mem_filter ho)

theorem Settled.owned (h : Settled c) (hn : c.nodes n = some nd) : Owned c n := by
  by_contra hun
  exact h n _ (.destroy hn hun)

theorem Settled.of_owned (h : Wf c) (howned : ∀ n < c.fresh, Owned c n) : Settled c := by
  intro s c' hst
  obtain ⟨nd, hn, hun, -⟩ := hst.destroy_inv
  exact hun (howned s (h.bound s _ hn))

/-- **No state is left** when states do not own each other in a circle and
nobody else owns one. -/
theorem Settled.no_nodes (hset : Settled c) (hw : Wf c) (h : Graph.Acyclic (Refs c))
    (hobjs : c.objs = 0) (n : ℕ) : c.nodes n = none := by
  have hnone : ∀ n, ¬ ∃ nd, c.nodes n = some nd := by
    refine h.swap.has_end c.fresh (fun a ⟨nd, hn⟩ => hw.bound a nd hn) fun a ⟨nd, hn⟩ => ?_
    rcases hset.owned hn with ⟨o, ho, -⟩ | ⟨m, ndm, hm, hmem⟩
    · simp [hobjs] at ho
    · exact ⟨m, ⟨ndm, hm, hmem⟩, ndm, hm⟩
  exact Option.eq_none_iff_forall_ne_some.mpr fun nd hn => hnone n ⟨nd, hn⟩

/-- **Nothing is left.** A pending state would await another one, and so
on without end; the states that are ready would own each other without
end. -/
theorem Unknotted.nothing_left (h : Unknotted c) (hgo : LetGo c) (hset : Settled c) :
    (∀ n, c.nodes n = none) ∧ c.objs = 0 := by
  have hready : ∀ n, ¬ ((∃ nd, c.nodes n = some nd) ∧ c.isExecuted n = false) := by
    refine h.acyclic.has_end c.fresh (fun a ha => ?_) fun a ha => ?_
    · obtain ⟨⟨nd, hn⟩, -⟩ := ha
      exact h.live.wf.bound a nd hn
    · obtain ⟨⟨nd, hn⟩, hex⟩ := ha
      rw [isExecuted_eq hn] at hex
      obtain ⟨⟨b, hb, hpend⟩, -⟩ := h.live.awaits_pending hgo.quiet (hset.owned hn) hn hex
      have hab : Refs c a b := ⟨nd, hn, Node.awaits_refs hb⟩
      exact ⟨b, hab, h.live.wf.alive b hab.owned, hpend⟩
  have hobjs : c.objs = 0 := by
    refine Multiset.eq_zero_of_forall_notMem fun o ho => ?_
    obtain ⟨t, k, rfl⟩ := hgo o ho
    obtain ⟨nd, hn, -⟩ := h.live.lists.linked t k ho
    exact hready t ⟨⟨nd, hn⟩, h.live.lists.pending ho⟩
  exact ⟨hset.no_nodes h.live.wf h.acyclic hobjs, hobjs⟩

/-- **The destructors come to an end.** -/
theorem settles_down (h : Live c) :
    ∃ c', Runs Step IsDestroy c c' ∧ Settled c' := by
  -- each destructor leaves one state less
  induction hk : Table.total (fun _ _ => 1) c.nodes c.fresh using Nat.strong_induction_on
    generalizing c with
  | _ k ih =>
    by_cases hset : Settled c
    · exact ⟨c, .refl c, hset⟩
    · simp only [Settled, not_forall, not_not] at hset
      obtain ⟨s, c₁, hst⟩ := hset
      have h₁ := h.step hst
      have hless : Table.total (fun _ _ => 1) c₁.nodes c₁.fresh < k := by
        obtain ⟨nd, hn, -, rfl⟩ := hst.destroy_inv
        have herase := Table.total_erase (g := fun _ _ => 1) (h.wf.bound s _ hn) hn
        simp only
        omega
      obtain ⟨c', hrun, hset⟩ := ih _ hless h₁ rfl
      exact ⟨c', (Runs.single ⟨s, rfl⟩ hst).trans hrun, hset⟩

/-! ## Types -/

/-- **The types of the values.** `rank n` is the size of the value type of
the state `n`: a combinator's type contains those of its inputs, and a
function that is unwrapped returns a future of the type of its own
result. -/
structure Typed (rank : ℕ → ℕ) (e : Event V E F) : Prop where
  combine : ∀ w l, e = .combine w l → ∀ f ∈ l, rank f.2 < rank w
  unwrap : ∀ g s t, e = .unwrap g s t → rank t = rank s

/-- What that says of the states. -/
structure Ranked (rank : ℕ → ℕ) (c : Config V E F) : Prop where
  futures : ∀ n nd, c.nodes n = some nd → ∀ f ∈ nd.body.futures, rank f.2 < rank n
  inner : ∀ s t, Inner c s t → rank t = rank s

variable {rank : ℕ → ℕ}

theorem ranked_init : Ranked rank (init : Config V E F) := by
  refine ⟨?_, ?_⟩
  · intro n nd hn
    simp [init] at hn
  · rintro s t ⟨nd, hn, -⟩
    simp [init] at hn

/-- A new state has the inputs it was made with. -/
theorem Spawn.ranked (hs : Spawn c e rem nd add) (hty : Typed rank e) :
    ∀ f ∈ nd.body.futures, rank f.2 < rank c.fresh := by
  intro f hf
  cases hs with
  | whenAll l | whenAny l => exact hty.combine _ l rfl f hf
  | readySequence _ hbody => rcases hbody with rfl | rfl <;> simp [Body.futures] at hf
  | newPromise | makePromise | newTask | attach => simp [Body.futures] at hf

theorem Ranked.step (h : Ranked rank c) (hw : Wf c) (hty : Typed rank e) (hst : Step c e c') :
    Ranked rank c' := by
  refine ⟨fun n nd' hn' f hf => ?_, fun s t hin => ?_⟩
  · by_cases hfresh : n = c.fresh
    · subst hfresh
      obtain ⟨rem, add, rest, hs, -⟩ := hst.spawned hw hn'
      exact hs.ranked hty f hf
    · obtain ⟨nd, hn⟩ := hst.was_alive hfresh hn'
      rcases hst.futures hw hn hn' with hsame | ⟨hnil, -⟩
      · exact h.futures n nd hn f (hsame ▸ hf)
      · simp [hnil] at hf
  · by_cases hun : ∃ g, e = .unwrap g s t
    · obtain ⟨g, he⟩ := hun
      exact hty.unwrap g s t he
    · obtain ⟨nd', hn', hs⟩ := hin
      cases hst.node hn' with
      | same hn | touch hn | execute hn => exact h.inner s t ⟨_, hn, hs⟩
      | spawn _ hsp => cases hsp <;> cases hs
      | settle _ _ hse =>
        have hrefs := hse.storage_refs
        simp only at hs
        rw [hs] at hrefs
        cases hrefs
      | unwrap _ he =>
        cases hs
        exact absurd ⟨_, he⟩ hun

/-! ## Nothing depends on itself -/

/-- **No function returns a future that depends on its own result**, in a
program that has types. -/
structure Untangled (rank : ℕ → ℕ) (c : Config V E F) (e : Event V E F) : Prop where
  loops : NoLoops c e
  typed : Typed rank e

/-- What holds of the states then. -/
structure Loose (rank : ℕ → ℕ) (c : Config V E F) : Prop where
  ends : Ends c
  started : Started c
  ranked : Ranked rank c

theorem Reachable.loose (h : Reachable (Untangled rank) c) : Loose rank c := by
  refine ⟨Reachable.ends (h.mono fun _ _ hok => hok.loops), Reachable.started h, ?_⟩
  exact h.invariant_of (I := Wf) (fun _ _ _ hw _ hst => hw.step hst)
    (fun _ _ _ hw _ hr hok hst => hr.step hw hok.typed hst) wf_init ranked_init

/-- What a ready state refers to has a smaller type, unless the state was
unwrapped onto it. -/
theorem Loose.refs (h : Loose rank c) (hex : c.isExecuted m = true) (href : Refs c m n) :
    rank n < rank m ∨ (rank n = rank m ∧ Inner c m n) := by
  obtain ⟨nd, hn, hmem⟩ := href
  rcases List.mem_append.mp hmem with hmem | hmem
  · cases hs : nd.storage with
    | inner t =>
      obtain rfl : n = t := by simpa [hs, Storage.refs] using hmem
      exact .inr ⟨h.ranked.inner m n ⟨nd, hn, hs⟩, nd, hn, hs⟩
    | empty | value | exception => simp [hs, Storage.refs] at hmem
  · cases hb : nd.body with
    | cnt exec a =>
      cases a with
      | none => simp [hb, Body.refs] at hmem
      | some a =>
        -- a continuation that still has its action is not ready
        rw [isExecuted_eq hn, (h.started.unstarted m nd exec a hn hb).2] at hex
        cases hex
    | whenAll l | whenAny l =>
      obtain ⟨f, hf, rfl⟩ : ∃ f ∈ l, f.2 = n := by simpa [hb, Body.refs] using hmem
      exact .inl (h.ranked.futures m nd hn f (by rw [hb]; exact hf))
    | promise | task => simp [hb, Body.refs] at hmem

/-- **Nothing is left.** Every state would be ready and owned by another
one, and so on without end. -/
theorem Loose.nothing_left (h : Loose rank c) (hgo : LetGo c) (hset : Settled c) :
    (∀ n, c.nodes n = none) ∧ c.objs = 0 := by
  have hready : ∀ {n nd}, c.nodes n = some nd → c.isExecuted n = true :=
    fun hn => h.ends.ready hgo.quiet (hset.owned hn)
  have hobjs : c.objs = 0 := by
    refine Multiset.eq_zero_of_forall_notMem fun o ho => ?_
    obtain ⟨t, k, rfl⟩ := hgo o ho
    obtain ⟨nd, hn, -⟩ := h.ends.live.lists.linked t k ho
    have hpend := h.ends.live.lists.pending ho
    rw [hready hn] at hpend
    cases hpend
  have hacyclic : Graph.Acyclic (Refs c) := by
    refine h.ends.acyclic.of_rank rank fun a b hab => ?_
    obtain ⟨nd, hn, -⟩ := id hab
    exact h.refs (hready hn) hab
  exact ⟨hset.no_nodes h.ends.live.wf hacyclic hobjs, hobjs⟩

/-- A destructor is no user's function. -/
theorem untangled_destroy : Untangled rank c (.destroy s : Event V E F) :=
  ⟨by rintro _ _ _ ⟨⟩, by rintro _ _ ⟨⟩, by rintro _ _ _ ⟨⟩⟩

/-- **Everything is released.** In every run in which no function, of a
continuation or of a `packaged_task`, returns a future that depends on the
function's own result: once the users have let go of everything, the
destructors that are due come to an end, in whatever order they run, and
then no state is left. -/
theorem all_released (rank : ℕ → ℕ) (h : Reachable (Untangled rank) c) (hgo : LetGo c)
    (hrun : Runs Step IsDestroy c c') :
    (∃ c'', Runs Step IsDestroy c' c'' ∧ Settled c'') ∧
      (Settled c' → (∀ n, c'.nodes n = none) ∧ c'.objs = 0) := by
  have hreach : Reachable (Untangled rank) c' := by
    refine Runs.trans h (hrun.mono ?_)
    rintro c e ⟨s, rfl⟩
    exact untangled_destroy
  have hgo' : LetGo c' := by
    refine hrun.invariant (I := LetGo) ?_ hgo
    rintro c e c' hgo ⟨s, rfl⟩ hst
    exact hgo.destroy hst
  have hloose := Reachable.loose hreach
  exact ⟨settles_down hloose.ends.live, hloose.nothing_left hgo'⟩

/-- Whether an object only waits for its end. -/
def Obj.isDone : Obj F → Bool
  | .spent _ _ => true
  | .held _ => true
  | _ => false

theorem LetGo.of_zero (h : c.objs = 0) : LetGo c := fun o ho => by
  rw [h] at ho
  exact absurd ho (Multiset.notMem_zero o)

/-- What was called is destroyed, and locals go out of scope. -/
theorem Reachable.release_all {ok : Config V E F → Event V E F → Prop} (h : Reachable ok c)
    (hok : ∀ c, ok c .release) (hdone : ∀ o ∈ c.objs, o.isDone = true) :
    Reachable ok { c with objs := 0 } := by
  obtain ⟨nodes, objs, k⟩ := c
  induction objs using Multiset.induction_on with
  | empty => exact h
  | cons o objs ih =>
    simp only [Multiset.mem_cons, forall_eq_or_imp] at hdone
    refine ih ?_ hdone.2
    cases o with
    | spent t n =>
      have hst : Step ⟨nodes, .spent t n ::ₘ objs, k⟩ .release ⟨nodes, 0 + objs, k⟩ :=
        .move (.releaseSpent t n) rfl
      rw [Multiset.zero_add] at hst
      exact h.tail (hok _) hst
    | held s =>
      have hst : Step ⟨nodes, .held s ::ₘ objs, k⟩ .release ⟨nodes, 0 + objs, k⟩ :=
        .move (.releaseHeld s) rfl
      rw [Multiset.zero_add] at hst
      exact h.tail (hok _) hst
    | _ => simp [Obj.isDone] at hdone

/-- **A continuation with its own result among its inputs.** Its function
makes a `when_any` of its parent, which is ready, and of its own result,
and returns the future of a continuation of that. The three states own
each other in a circle until the second continuation is called. -/
theorem all_released_of_own_input : ∃ (rank : ℕ → ℕ) (c : Config Unit Unit Unit),
    Reachable (Untangled rank) c ∧ LetGo c ∧
      c.nodes 1 = some ⟨.inner 3, true, .cnt false none⟩ ∧
      c.nodes 2 = some ⟨.empty, true, .whenAny [(true, 0), (false, 1)] true 0⟩ ∧
      (∃ c', Runs Step IsDestroy c c' ∧ Settled c') ∧
      (Settled c → (∀ n, c.nodes n = none) ∧ c.objs = 0) := by
  let rank : ℕ → ℕ := fun n => if n = 2 then 1 else 0
  have hok : ∀ {c : Config Unit Unit Unit} {e : Event Unit Unit Unit},
      (∀ g s t, e ≠ .unwrap g s t) → (∀ w l, e = .combine w l → ∀ f ∈ l, rank f.2 < rank w) →
        Untangled rank c e := fun hun hcomb =>
    ⟨fun g s t he => absurd he (hun g s t), hcomb, fun g s t he => absurd he (hun g s t)⟩
  have h₀ : Reachable (Untangled rank) (init : Config Unit Unit Unit) := .refl _
  have h₁ := h₀.tail (hok (by simp) (by simp)) (.spawn (.readySequence _ (.inr rfl))
    (Multiset.zero_add _).symm)
  have h₂ := h₁.tail (hok (by simp) (by simp)) (.spawn (.attach ⟨.then', true, (), 0⟩)
    (show _ = _ + (0 : Multiset (Obj Unit)) by decide))
  have h₃ := h₂.tail (hok (by simp) (by simp)) (.move (.share 1)
    (show _ = _ + ({.queued 0 (.schedule 1)} : Multiset (Obj Unit)) by decide))
  have h₄ := h₃.tail (hok (by simp) (by simp)) (.touch (.schedule 0 1 _ _
    (.inl ⟨.future false 1, by decide, by decide⟩) rfl)
    (show _ = _ + ({.future false 1} : Multiset (Obj Unit)) by decide) rfl)
  have h₅ := h₄.tail (hok (by simp) (by simp)) (.touch (.run 1 _ false _
    (.inl ⟨.future false 1, by decide, by decide⟩) rfl)
    (show _ = _ + ({.future false 1, .spent 0 (.schedule 1)} : Multiset (Obj Unit)) by decide) rfl)
  have h₆ := h₅.tail (hok (by simp) (by simp)) (.move (.invokeThen 1 ⟨.then', true, (), 0⟩ rfl)
    (show _ = _ + ({.future false 1, .spent 0 (.schedule 1)} : Multiset (Obj Unit)) by decide))
  -- inside the function: `when_any` of the parent, which is ready, and of the own result
  have h₇ := h₆.tail (hok (by simp) (by
      rintro w l ⟨⟩
      decide)) (.spawn (.whenAny [(true, 0), (false, 1)])
    (show _ = inputObjs [(true, 0), (false, 1)] + ({.invoked .cnt 1, .spent 0 (.schedule 1)} :
      Multiset (Obj Unit)) by decide))
  have h₈ := h₇.tail (hok (by simp) (by simp)) (.touch (.register 2 0 _ (true, 0) rfl rfl)
    (show _ = _ + ({.invoked .cnt 1, .spent 0 (.schedule 1)} : Multiset (Obj Unit)) by decide) rfl)
  have h₉ := h₈.tail (hok (by simp) (by simp)) (.move (.register 2 1 _ (false, 1) rfl rfl rfl)
    (show _ = _ + ({.spent 0 (.combine 2 0), .execute 2, .invoked .cnt 1, .spent 0 (.schedule 1)} :
      Multiset (Obj Unit)) by decide))
  have h₁₀ := h₉.tail (hok (by simp) (by simp)) (.touch (.finish 2 2 _ rfl)
    (show _ = _ + ({.linked 1 (.combine 2 1), .spent 0 (.combine 2 0), .execute 2, .invoked .cnt 1,
      .spent 0 (.schedule 1)} : Multiset (Obj Unit)) by decide) rfl)
  have h₁₁ := h₁₀.tail (hok (by simp) (by simp)) (.spawn (.attach ⟨.then', true, (), 2⟩)
    (show _ = _ + ({.linked 1 (.combine 2 1), .spent 0 (.combine 2 0), .execute 2,
      .invoked .cnt 1, .spent 0 (.schedule 1)} : Multiset (Obj Unit)) by decide))
  have h₁₂ := h₁₁.tail (by
      refine ⟨?_, by rintro _ _ ⟨⟩, by rintro _ _ _ ⟨⟩; rfl⟩
      rintro g s t ⟨⟩
      refine ⟨.all (by decide) rfl rfl fun m hm => ?_, fun hpath => ?_⟩
      · -- the `when_any` is ready already
        obtain rfl : m = 2 := by simpa [Node.awaits] using hm
        exact .closing (.inr (by decide))
      · rcases Relation.ReflTransGen.cases_head hpath with heq | ⟨m, ⟨nd, hn, hs⟩, -⟩
        · cases heq
        · obtain rfl := Option.some.inj hn
          cases hs)
    (.unwrap (h := .cnt) (s := 1) (t := 3) (u := true)
    (show _ = _ + ({.linked 2 (.schedule 3), .linked 1 (.combine 2 1), .spent 0 (.combine 2 0),
      .execute 2, .spent 0 (.schedule 1)} : Multiset (Obj Unit)) by decide) rfl)
  have h₁₃ := h₁₂.tail (hok (by simp) (by simp)) (.move (.subscribe 1 3)
    (show _ = _ + ({.linked 2 (.schedule 3), .linked 1 (.combine 2 1), .spent 0 (.combine 2 0),
      .execute 2, .spent 0 (.schedule 1)} : Multiset (Obj Unit)) by decide))
  have h₁₄ := h₁₃.tail (hok (by simp) (by simp)) (.execute (s := 2)
    (show _ = _ + ({.held 1, .linked 3 (.unwrapCb 1), .linked 2 (.schedule 3),
      .linked 1 (.combine 2 1), .spent 0 (.combine 2 0), .spent 0 (.schedule 1)} :
      Multiset (Obj Unit)) by decide) rfl)
  have h₁₅ := h₁₄.tail (hok (by simp) (by simp)) (.touch (.schedule 2 3 _ _
    (.inr ⟨1, _, rfl, by decide⟩) rfl)
    (show _ = _ + ({.held 2, .held 1, .linked 3 (.unwrapCb 1), .linked 1 (.combine 2 1),
      .spent 0 (.combine 2 0), .spent 0 (.schedule 1)} : Multiset (Obj Unit)) by decide) rfl)
  have h₁₆ := h₁₅.tail (hok (by simp) (by simp)) (.touch (.run 3 _ false _
    (.inr ⟨1, _, rfl, by decide⟩) rfl)
    (show _ = _ + ({.spent 2 (.schedule 3), .held 2, .held 1, .linked 3 (.unwrapCb 1),
      .linked 1 (.combine 2 1), .spent 0 (.combine 2 0), .spent 0 (.schedule 1)} :
      Multiset (Obj Unit)) by decide) rfl)
  have h₁₇ := h₁₆.tail (hok (by simp) (by simp)) (.move (.invokeThen 3 ⟨.then', true, (), 2⟩ rfl)
    (show _ = _ + ({.spent 2 (.schedule 3), .held 2, .held 1, .linked 3 (.unwrapCb 1),
      .linked 1 (.combine 2 1), .spent 0 (.combine 2 0), .spent 0 (.schedule 1)} :
      Multiset (Obj Unit)) by decide))
  have h₁₈ := h₁₇.tail (hok (by simp) (by simp)) (.move (.dropFuture true 2)
    (show _ = _ + ({.invoked .cnt 3, .spent 2 (.schedule 3), .held 2, .held 1,
      .linked 3 (.unwrapCb 1), .linked 1 (.combine 2 1), .spent 0 (.combine 2 0),
      .spent 0 (.schedule 1)} : Multiset (Obj Unit)) by decide))
  have h₁₉ := h₁₈.tail (hok (by simp) (by simp)) (.settle (.ret .cnt 3 (.value ()))
    (show _ = _ + ({.spent 2 (.schedule 3), .held 2, .held 1, .linked 3 (.unwrapCb 1),
      .linked 1 (.combine 2 1), .spent 0 (.combine 2 0), .spent 0 (.schedule 1)} :
      Multiset (Obj Unit)) by decide) rfl rfl)
  have h₂₀ := h₁₉.tail (hok (by simp) (by simp)) (.execute (s := 3)
    (show _ = _ + ({.spent 2 (.schedule 3), .held 2, .held 1, .linked 3 (.unwrapCb 1),
      .linked 1 (.combine 2 1), .spent 0 (.combine 2 0), .spent 0 (.schedule 1)} :
      Multiset (Obj Unit)) by decide) rfl)
  have h₂₁ := h₂₀.tail (hok (by simp) (by simp)) (.move (.callUnwrap 3 1
    (.inl ⟨.held 1, by decide, by decide⟩))
    (show _ = _ + ({.held 3, .spent 2 (.schedule 3), .held 2, .held 1, .linked 1 (.combine 2 1),
      .spent 0 (.combine 2 0), .spent 0 (.schedule 1)} : Multiset (Obj Unit)) by decide))
  have h₂₂ := h₂₁.tail (hok (by simp) (by simp)) (.execute (s := 1)
    (show _ = _ + ({.spent 3 (.unwrapCb 1), .held 3, .spent 2 (.schedule 3), .held 2, .held 1,
      .linked 1 (.combine 2 1), .spent 0 (.combine 2 0), .spent 0 (.schedule 1)} :
      Multiset (Obj Unit)) by decide) rfl)
  have h₂₃ := h₂₂.tail (hok (by simp) (by simp)) (.touch (.notify 1 2 1 _)
    (show _ = _ + ({.held 1, .spent 3 (.unwrapCb 1), .held 3, .spent 2 (.schedule 3), .held 2,
      .held 1, .spent 0 (.combine 2 0), .spent 0 (.schedule 1)} : Multiset (Obj Unit)) by decide)
    rfl)
  have h := Reachable.release_all h₂₃ (fun c => hok (c := c) (by simp) (by simp)) (by decide)
  exact ⟨rank, _, h, .of_zero rfl, rfl, rfl, all_released rank h (.of_zero rfl) (.refl _)⟩

/-- **A cycle that stays**: of a task that waits for itself. It is not
enough that continuations do not. -/
theorem not_released_by_readiness :
    ¬ ∀ (rank : ℕ → ℕ) (c : Config Unit Unit Unit),
      Reachable (fun c e => NoLoop .cnt c e ∧ Typed rank e) c → LetGo c → Settled c →
        ∀ n, c.nodes n = none := by
  intro hall
  obtain ⟨es, c, htr, ho, hn₀, hn₁, hf⟩ := self_wait_run
  have hok : ∀ (c : Config Unit Unit Unit) e, (NoLoop .cnt c e ∧ ∀ w l, e ≠ .combine w l) →
      NoLoop .cnt c e ∧ Typed (fun _ => 0) e :=
    fun _ _ hok => ⟨hok.1, fun w l he => absurd he (hok.2 w l), fun _ _ _ _ => rfl⟩
  have h := (htr.runs.mono hok).tail
    ⟨by rintro _ _ ⟨⟩, by rintro _ _ ⟨⟩, by rintro _ _ _ ⟨⟩⟩ (.move (.dropFuture false 0)
    (ho.trans (show _ = _ +
      ({.linked 0 (.schedule 1), .linked 1 (.unwrapCb 0)} : Multiset (Obj Unit)) by decide)))
  refine absurd (hall _ _ h (fun o hmem => ?_) (.of_owned (Reachable.wf h) fun n hlt => ?_) 0) ?_
  · simp only [Multiset.zero_add, Multiset.insert_eq_cons, Multiset.mem_cons,
      Multiset.mem_singleton] at hmem
    rcases hmem with rfl | rfl <;> exact ⟨_, _, rfl⟩
  · -- the task owns the continuation, which has captured the task
    simp only [hf] at hlt
    obtain rfl | rfl : n = 0 ∨ n = 1 := by omega
    · exact .inr ⟨1, _, hn₁, by simp [Node.refs, Body.refs]⟩
    · exact .inr ⟨0, _, hn₀, by simp [Node.refs, Storage.refs]⟩
  · simp [hn₀]

end Futures

end PortableConcurrency
