import PortableConcurrency.Programs.Effects

/-!
# Calls of promises and tasks

What stores a result, gives a future away, or gives a state up.
-/

namespace PortableConcurrency

namespace Programs

open Futures (Exn Storage Node Body Obj Action Kind Closure Producer Caller Config Owned Wf)
open Promise (Errc Thrown Either)
open Calls

variable {V E F : Type} {w w' w₁ : World V E F} {s x y : ℕ} {nd : Node V E F}
variable {vars vars' : List Variable} {v v' : Variable} {rest : Multiset (Obj F)}

/-! ## Results that a promise stores -/

/-- Whether there is a state, and which. -/
theorem getState_ok {p : Either} {state : Option ℕ} (h : Call.getState p w = .ok state w') :
    w' = w ∧ ∀ s, state = some s → p = .shared s ∨ (p = .weak s ∧ w.owned s = true) := by
  cases p with
  | monostate => cases h
  | shared t =>
    cases h
    refine ⟨rfl, fun s hs => ?_⟩
    obtain rfl := Option.some.inj hs
    exact .inl rfl
  | weak t =>
    cases h
    refine ⟨rfl, fun s hs => ?_⟩
    split at hs
    · rename_i ho
      obtain rfl := Option.some.inj hs
      exact .inr ⟨rfl, ho⟩
    · cases hs

/-- The state of a producer is alive. -/
theorem state_alive (h : Wf w.config) {p : Either} {r : Producer}
    (hx : w.vars[x]? = some v) (hv : v.objs = (Producer.objs r p : Multiset (Obj F)))
    (hs : p = .shared s ∨ (p = .weak s ∧ w.owned s = true)) :
    Owned w.config s ∧ (∃ nd, w.nodes s = some nd) ∧
      ∃ owning, v.objs = ({.handle r owning s} : Multiset (Obj F)) := by
  have howned : Owned w.config s := by
    rcases hs with rfl | ⟨-, ho⟩
    · refine owned_of_var hx (o := .handle r true s) ?_ (by simp [Obj.refs])
      rw [hv]
      exact Multiset.mem_singleton_self _
    · exact (owned_iff h).mp ho
  refine ⟨howned, h.alive s howned, ?_⟩
  rcases hs with rfl | ⟨rfl, -⟩
  · exact ⟨true, hv⟩
  · exact ⟨false, hv⟩

/-- **A promise stores a result.** -/
theorem settle_follows {owning : Bool} {a : V ⊕ E} {b : Storage V E}
    (hx : w.vars[x]? = some v) (hv : v.objs = ({.handle .promise owning s} : Multiset (Obj F)))
    (hs : Futures.Settle w.config (.set s a) {.handle .promise owning s} s b id
      {.handle .promise owning s}) (hn : w.nodes s = some nd) (he : nd.storage = .empty) :
    Follows w (w.settle s nd b) := by
  obtain ⟨rest, hrest, -⟩ := config_set hx
  rw [hv] at hrest
  refine .of_step (e := .set s a) (by simp) ?_
  have hst := Futures.Step.settle hs hrest (show w.config.nodes s = some nd from hn) he
  rw [config_settle, hrest]
  exact hst

/-! ## Producers that go -/

/-- **A producer abandons its state**, and is gone then. -/
theorem abandon_follows {r : Producer} {owning : Bool} (hn : w.nodes s = some nd)
    (hlock : Owned w.config s) (hweak : r = .promise → owning = false)
    (hab : Call.abandon s (w.setNode s { nd with body := nd.body.clean r }) = .ok () w₁)
    (hrest : w.config.objs = {.handle r owning s} + rest)
    (hvars : varObjs vars + w.locals = rest) :
    w₁.vars = w.vars ∧ Follows w { w₁ with vars := vars } := by
  subst hvars
  have hn' : w.config.nodes s = some nd := hn
  rcases abandon_ok (nodes_setNode _ _ _) hab with ⟨hdone, rfl⟩ | ⟨hex, he, rfl⟩
  · refine ⟨rfl, .of_step (e := .drop r s) (by simp) ?_⟩
    have hst := Futures.Step.touch (.abandon r owning s nd hlock hweak hdone) hrest hn'
    rwa [zero_add] at hst
  · refine ⟨rfl, .of_step (e := .drop r s) (by simp) ?_⟩
    have hpend : w.config.isExecuted s = false := by rw [Futures.isExecuted_eq hn', hex]
    have hst := Futures.Step.settle (.abandon r owning s hlock hweak hpend) hrest hn' he
    rw [zero_add, ← Multiset.add_cons] at hst
    have hset : ({ (w.setNode s { nd with body := nd.body.clean r }).settle s
        { nd with body := nd.body.clean r } (.exception .brokenPromise) with vars := vars } :
          World V E F) = { w.setNode s { nd with
            storage := .exception .brokenPromise, body := nd.body.clean r } with
            vars := vars, locals := .execute s ::ₘ w.locals } := by
      simp [World.settle, World.setNode]
    rw [hset]
    exact hst

/-- The destructor of a promise, or the first half of an assignment. -/
theorem abandonPromise_follows {p : Either} (h : Wf w.config)
    (hab : Call.abandonPromise p w = .ok () w₁)
    (hrest : w.config.objs = Producer.objs .promise p + rest)
    (hvars : varObjs vars + w.locals = rest) :
    w₁.vars = w.vars ∧ Follows w { w₁ with vars := vars } := by
  cases p with
  | monostate =>
    cases hab
    refine ⟨rfl, .of_eq ?_⟩
    rw [show (Producer.objs .promise .monostate : Multiset (Obj F)) = 0 from rfl, zero_add] at hrest
    simp only [World.config, hvars, ← hrest]
  | shared s =>
    cases hab
    refine ⟨rfl, .of_step (e := .drop .promise s) (by simp) ?_⟩
    have hst := Futures.Step.move (.dropPromise s) hrest
    rwa [zero_add, ← hvars] at hst
  | weak s =>
    obtain ⟨state, t, hget, hab⟩ := bind_ok hab
    rw [lock_apply] at hget
    by_cases ho : w.owned s = true
    · rw [if_pos ho] at hget
      cases hget
      have hlock := (owned_iff h).mp ho
      obtain ⟨nd, hn⟩ := h.alive s hlock
      have hclean : w.setNode s { nd with body := nd.body.clean .promise } = w := setNode_self hn
      refine abandon_follows hn hlock (fun _ => rfl) ?_ hrest hvars
      rw [hclean]
      exact hab
    · rw [if_neg ho] at hget
      cases hget
      cases hab
      refine ⟨rfl, .of_step (e := .drop .promise s) (by simp) ?_⟩
      have hexp : ¬ Owned w.config s := fun hlock => ho ((owned_iff h).mpr hlock)
      have hst := Futures.Step.move (.dropExpired .promise s hexp) hrest
      rwa [zero_add, ← hvars] at hst

/-- The same of a task. -/
theorem abandonTask_follows {p : Either} (h : Wf w.config) (hx : w.vars[x]? = some (.task p))
    (hab : Call.abandonTask p w = .ok () w₁)
    (hrest : w.config.objs = Producer.objs .task p + rest)
    (hvars : varObjs vars + w.locals = rest) :
    w₁.vars = w.vars ∧ Follows w { w₁ with vars := vars } := by
  have hempty : p = .monostate ∨ Call.abandonTask p w = Call.withState p (fun s => do
      Call.modifyNode s fun nd => { nd with body := nd.body.clean .task }
      Call.abandon s) w := by
    cases p with
    | monostate => exact .inl rfl
    | shared s | weak s => exact .inr rfl
  rcases hempty with rfl | heq
  · cases hab
    refine ⟨rfl, .of_eq ?_⟩
    rw [show (Producer.objs .task .monostate : Multiset (Obj F)) = 0 from rfl, zero_add] at hrest
    simp only [World.config, hvars, ← hrest]
  · rw [heq] at hab
    obtain ⟨state, t, hget, hab⟩ := bind_ok hab
    obtain ⟨ht, hstate⟩ := getState_ok hget
    subst t
    cases state with
    | some s =>
      obtain ⟨hlock, ⟨nd, hn⟩, owning, hv⟩ := state_alive h hx rfl (hstate s rfl)
      have hab : Call.abandon s (w.setNode s { nd with body := nd.body.clean .task }) = .ok () w₁ :=
        (bind_apply (modifyNode_apply hn _)).symm.trans hab
      exact abandon_follows hn hlock (by simp) hab (hrest.trans (by rw [← hv]; rfl)) hvars
    | none =>
      have hw₁ : w₁ = w := by
        cases hab
        rfl
      subst w₁
      cases p with
      | monostate => cases hget
      | shared s => cases hget
      | weak s =>
        have ho : ¬ w.owned s = true := by
          intro ho
          rw [Call.getState, lock_apply, if_pos ho] at hget
          cases hget
        refine ⟨rfl, .of_step (e := .drop .task s) (by simp) ?_⟩
        have hexp : ¬ Owned w.config s := fun hlock => ho ((owned_iff h).mpr hlock)
        have hst := Futures.Step.move (.dropExpired .task s hexp) hrest
        rwa [zero_add, ← hvars] at hst

/-! ## The calls -/

/-- `is_awaiten` changes nothing. -/
theorem isAwaiten_ok {p : Either} {b : Bool} (h : Call.isAwaiten p w = .ok b w') : w' = w := by
  cases p with
  | monostate => cases h
  | shared s | weak s =>
    cases h
    rfl

/-- `get_future`. -/
theorem getFuture_follows {p : Either} {g : Producer} {mk : Either → Variable}
    (hg : g ≠ .action) (hmk : ∀ q, ((mk q).objs : Multiset (Obj F)) = Producer.objs g q)
    (hx : w.vars[x]? = some (mk p)) (hr : Call.getFuture x mk p w = .ok () w') :
    Follows w w' := by
  cases p with
  | monostate => cases hr
  | weak s => cases hr
  | shared s =>
    have hw' : { w with vars := w.vars.set x (mk (.weak s)) ++ [.future true (some s)] } = w' := by
      cases hr
      rfl
    subst w'
    obtain ⟨rest, hrest, hset⟩ := config_push_set hx
    refine .of_step (e := .getFuture s) (by simp) ?_
    rw [hmk] at hrest
    have hst := Futures.Step.move (.getFuture g s hg) hrest
    rw [(hset _ _).2, hmk, ← add_assoc]
    exact hst

/-- `set_value` and `set_exception`. -/
theorem setValue_follows {p : Either} {a : Except E V} (h : Wf w.config)
    (hx : w.vars[x]? = some (.promise p)) (hr : Call.setValue p a w = .ok () w') :
    Follows w w' := by
  obtain ⟨state, t, hget, hr⟩ := bind_ok hr
  obtain ⟨ht, hstate⟩ := getState_ok hget
  subst t
  cases state with
  | none =>
    cases hr
    exact .of_eq rfl
  | some s =>
    obtain ⟨hlock, ⟨nd, hn⟩, owning, hv⟩ := state_alive h hx rfl (hstate s rfl)
    replace hr : Call.emplace s a w = .ok () w' := hr
    rw [emplace_apply hn] at hr
    split at hr
    · rename_i he
      cases a with
      | ok v =>
        cases hr
        exact settle_follows hx hv (.setValue owning s v hlock) hn (isEmpty_iff.mp he)
      | error e => cases hr
    · cases hr

/-- `set_exception`. -/
theorem setException_follows {p : Either} {e : E} (h : Wf w.config)
    (hx : w.vars[x]? = some (.promise p))
    (hr : Call.withState p (fun s => Call.setException s (.user e)) w = .ok () w') :
    Follows w w' := by
  obtain ⟨state, t, hget, hr⟩ := bind_ok hr
  obtain ⟨ht, hstate⟩ := getState_ok hget
  subst t
  cases state with
  | none =>
    cases hr
    exact .of_eq rfl
  | some s =>
    obtain ⟨hlock, ⟨nd, hn⟩, owning, hv⟩ := state_alive h hx rfl (hstate s rfl)
    replace hr : Call.setException s (.user e) w = .ok () w' := hr
    rw [setException_apply hn] at hr
    split at hr
    · rename_i he
      cases hr
      exact settle_follows hx hv (.setException owning s e hlock) hn (isEmpty_iff.mp he)
    · cases hr

/-- `operator()`, up to the call of the function. -/
theorem call_follows {p : Either} (h : Wf w.config) (hx : w.vars[x]? = some (.task p))
    (hr : Call.call p w = .ok r w') : Follows w w' := by
  obtain ⟨state, t, hget, hr⟩ := bind_ok hr
  obtain ⟨ht, hstate⟩ := getState_ok hget
  subst t
  cases state with
  | none =>
    cases hr
    exact .of_eq rfl
  | some s =>
    obtain ⟨hlock, ⟨nd, hn⟩, owning, hv⟩ := state_alive h hx rfl (hstate s rfl)
    obtain ⟨func, t, hfunc, hr⟩ := bind_ok (show (Call.hasFunc s >>= _) w = _ from hr)
    obtain ⟨u, t', hthrow, hr⟩ := bind_ok hr
    obtain ⟨ht, hfn⟩ := hasFunc_ok hn hfunc
    subst t
    obtain ⟨hb, ht'⟩ := throwIf_ok hthrow
    subst t'
    obtain ⟨fn, hbody⟩ := hfn (by simpa using hb)
    have hw' : { w with locals := .invoked .task s ::ₘ w.locals } = w' := by
      cases hr
      rfl
    subst w'
    obtain ⟨rest, hrest, -⟩ := config_set hx
    rw [hv] at hrest
    refine .of_step (e := .callTask s fn) (by simp) ?_
    have hst := Futures.Step.move (.callTask owning s fn nd hlock hn hbody) hrest
    rw [Multiset.insert_eq_cons, Multiset.cons_add, Multiset.singleton_add] at hst
    rw [config_addLocal, hrest, Multiset.singleton_add, Multiset.cons_swap]
    exact hst

end Programs

end PortableConcurrency
