import PortableConcurrency.Programs.Refinement

/-!
# Failed calls are not seen

A call that fails leaves the world as it was. What a program does without
its failed calls is therefore the same: the other calls return and throw
the same, and the library takes the same steps in between.

A call of a task is the one that may throw a `future_error` after the
first change: it calls the function, and finds out that the state has a
result when it comes to store one. So it is if the task was called again
in the meantime.
-/

namespace PortableConcurrency

namespace Programs

open Futures (Exn Storage Node Body Obj Action Kind Closure Producer Caller Config Owned Wf)
open Promise (Errc Thrown Either)
open Calls

variable {V E F : Type} {w w' : World V E F} {e : Event V E F} {es : List (Event V E F)}
variable {s x : ℕ} {nd : Node V E F} {ok : World V E F → Event V E F → Prop}

/-- **A call that fails.** -/
def Event.failed : Event V E F → Bool
  | .op o (.error x) => o.fails x
  | _ => false

/-- **The function of a task ends before the state has a result.** -/
def InTime (w : World V E F) (e : Event V E F) : Prop :=
  ∀ s r b, e = .ends .task s r b → w.satisfied s = false

/-- The function of `s` is called, in a call of the task. -/
def Event.enters (s : ℕ) : Event V E F → Bool
  | .op (.call _) (.ok (.entered t)) => t = s
  | _ => false

/-- Such a call ends. -/
def Event.leaves (s : ℕ) : Event V E F → Bool
  | .library (.clean t) => t = s
  | _ => false

/-- What is done inside a call of a task: calls of the same task in it are
over. -/
def Nested (s : ℕ) (es : List (Event V E F)) : Prop :=
  es.countP (Event.leaves s) = es.countP (Event.enters s) ∧
    ∀ l ∈ es.inits, l.countP (Event.leaves s) ≤ l.countP (Event.enters s)

/-- A result has been stored, and the list is going to be closed. -/
def Stores (w : World V E F) (s : ℕ) (a : Storage V E) : Prop :=
  (∃ nd, w.nodes s = some nd ∧ nd.storage = a) ∧ .execute s ∈ w.locals

/-- **The promise `x` can be given a result**, and if it is destroyed
instead those who wait for it are told. -/
structure CanSet (w : World V E F) (x : ℕ) (p : Either) (s : ℕ) : Prop where
  promise : w.vars[x]? = some (.promise p)
  value : ∀ v, ∃ w', Step w (.op (.setValue x (.ok v)) (.ok .done)) w' ∧
    Stores w' s (.value v)
  exception : ∀ e, ∃ w', Step w (.op (.setException x e) (.ok .done)) w' ∧
    Stores w' s (.exception (.user e))
  abandon : p = .weak s → ∃ w', Step w (.op (.destroy x) (.ok .done)) w' ∧
    Stores w' s (.exception .brokenPromise)

/-- **The failed calls of a run are not seen** in it, nor after it. -/
structure Unseen (ok : World V E F → Event V E F → Prop) (es : List (Event V E F))
    (w : World V E F) : Prop where
  /-- the run without them -/
  calls : Trace Step ok .init (es.filter fun e => !e.failed) w
  /-- without a call of a task that throws when the function has ended -/
  nested : ∀ es₁ x s inside r es₂, es = es₁ ++ (.op (.call x) (.ok (.entered s)) :: inside ++
    .ends .task s r true :: .library (.clean s) :: es₂) → Nested s inside →
      Trace Step ok .init (es₁ ++ es₂) w
  /-- a call that fails next does so in any case, and does nothing else -/
  next : ∀ o a w', Step w (.op o (.error a)) w' → o.fails a = true →
    w' = w ∧ ∀ r w'', Step w (.op o r) w'' → r = .error a ∧ w'' = w
  /-- `set_value` that fails for the value can be tried again -/
  retry : ∀ x v a w', Step w (.op (.setValue x v) (.error (.exception a))) w' →
    ∃ p s, CanSet w' x p s

/-! ## Failed calls -/

/-- **A step that fails changes nothing.** -/
theorem Step.failed (hst : Step w e w') (hf : e.failed = true) : w' = w := by
  cases hst with
  | throws hb hr _ hno => exact Op.failed hb hno hr hf
  | _ => cases hf

/-- What a call that throws would do otherwise. -/
theorem Step.same {o : Op V E F} {a : Thrown E} {r : Except (Thrown E) (Response V)}
    {w'' : World V E F} (hst : Step w (.op o (.error a)) w') (hst' : Step w (.op o r) w'') :
    r = .error a ∧ w'' = w' := by
  cases hst with
  | throws hb hr =>
    cases hst' with
    | op hb' hr' =>
      obtain rfl := Option.some.inj (hb.symm.trans hb')
      rw [hr] at hr'
      cases hr'
    | throws hb' hr' =>
      obtain rfl := Option.some.inj (hb.symm.trans hb')
      rw [hr] at hr'
      cases hr'
      exact ⟨rfl, rfl⟩

/-! ## Promises that can be tried again -/

theorem void_error {m : Call V E F Unit} {a : Thrown E} (h : m.void w = .error a w') :
    m w = .error a w' := by
  rcases bind_error h with h | ⟨u, t, -, h⟩
  · exact h
  · cases h

theorem void_apply {m : Call V E F Unit} (h : m w = .ok () w') : m.void w = .ok .done w' :=
  bind_apply h

/-- The state that a call finds. -/
theorem withState_apply {p : Either} {f : ℕ → Call V E F Unit}
    (hp : p = .shared s ∨ p = .weak s ∧ w.owned s = true) : Call.withState p f w = f s w := by
  have hget : Call.getState p w = .ok (some s) w := by
    rcases hp with rfl | ⟨rfl, ho⟩
    · rfl
    · rw [Call.getState, lock_apply, if_pos ho]
  exact bind_apply hget

theorem stores_settle (w : World V E F) (s : ℕ) (nd : Node V E F) (a : Storage V E) :
    Stores (w.settle s nd a) s a :=
  ⟨⟨_, nodes_setNode _ _ _, rfl⟩, Multiset.mem_cons_self _ _⟩

/-- **A promise whose state is empty.** -/
theorem canSet_of_empty {p : Either} (h : Futures.Inv w.config)
    (hx : w.vars[x]? = some (.promise p)) (hp : p = .shared s ∨ p = .weak s ∧ w.owned s = true)
    (hn : w.nodes s = some nd) (he : nd.storage = .empty) : CanSet w x p s := by
  have hempty : Storage.isEmpty nd.storage = true := isEmpty_iff.mpr he
  have hreads : ∀ o : Op V E F, (∀ x r, o ≠ .get x r) → o.Reads w :=
    fun o ho x r unique s hget => absurd hget (ho x r)
  refine ⟨hx, fun v => ?_, fun a => ?_, ?_⟩
  · have hset : Call.setValue p (.ok v) w = .ok () (w.settle s nd (.value v)) := by
      unfold Call.setValue
      rw [withState_apply hp, emplace_apply hn, if_pos hempty]
    refine ⟨_, .op (m := (Call.setValue p (.ok v)).void) ?_ (void_apply hset) ?_,
      stores_settle _ _ _ _⟩
    · simp only [Op.body, hx]
    · exact hreads _ (by simp)
  · have hset : Call.withState p (fun s => Call.setException s (.user a)) w =
        .ok () (w.settle s nd (.exception (.user a))) := by
      rw [withState_apply hp, setException_apply hn, if_pos hempty]
    refine ⟨_, .op (m := (Call.withState p fun s => Call.setException s (.user a)).void) ?_
      (void_apply hset) ?_, stores_settle _ _ _ _⟩
    · simp only [Op.body, hx]
    · exact hreads _ (by simp)
  · rintro rfl
    have ho : w.owned s = true := by
      rcases hp with hp | ⟨-, ho⟩
      · cases hp
      · exact ho
    obtain ⟨-, -, owning, hv⟩ := state_alive h.wf hx rfl hp
    -- a promise's state that is ready has a result
    have hex : nd.executed = false := by
      by_contra hex
      have hex : w.config.isExecuted s = true := by
        rw [Futures.isExecuted_eq (show w.config.nodes s = some nd from hn)]
        simpa using hex
      have hmem : .handle .promise false s ∈ w.config.objs := by
        obtain ⟨rest, hrest, -⟩ := config_set hx
        rw [hrest]
        exact Multiset.mem_add.mpr (.inl (Multiset.mem_singleton_self _))
      have hkind := h.lists.kinded _ hmem nd hn
      refine h.stored.nodes s hex nd hn ?_ he
      rcases hkind with hk | hk <;> rw [hk] <;> simp
    have hab : Call.abandonPromise (.weak s) w =
        .ok () (w.settle s nd (.exception .brokenPromise)) := by
      have hgo : Call.abandon s w = .ok () (w.settle s nd (.exception .brokenPromise)) := by
        unfold Call.abandon
        rw [bind_apply (executed_apply hn), bind_apply (storage_apply hn)]
        rw [if_pos (by simp [hex, he, Storage.isInner]), setException_apply hn, if_pos hempty]
      have hlock : Call.lock s w = .ok (some s) w := by rw [lock_apply, if_pos ho]
      exact (bind_apply hlock).trans hgo
    have hcall : (do Call.abandonPromise (.weak s); Call.setVar x .gone : Call V E F Unit) w =
        .ok () { w.settle s nd (.exception .brokenPromise) with vars := w.vars.set x .gone } :=
      bind_apply hab
    refine ⟨_, .op (m := (do Call.abandonPromise (.weak s); Call.setVar x .gone :
      Call V E F Unit).void) ?_ (void_apply hcall) ?_, ?_⟩
    · simp only [Op.body, hx]
    · exact hreads _ (by simp)
    · exact stores_settle w s nd _

/-- **The value's constructor has thrown.** -/
theorem Step.retry {v : Except E V} {a : Exn E} (h : Futures.Inv w.config)
    (hst : Step w (.op (.setValue x v) (.error (.exception a))) w') : ∃ p s, CanSet w' x p s := by
  have hw := hst.failed rfl
  subst w'
  cases hst with
  | throws hb hr =>
    simp only [Op.body] at hb
    split at hb <;> cases hb
    rename_i p hx
    rcases bind_error (void_error hr) with hget | ⟨state, t, hget, hr⟩
    · cases p <;> cases hget
    obtain ⟨ht, hstate⟩ := getState_ok hget
    subst t
    cases state with
    | none => cases hr
    | some s =>
      obtain ⟨-, ⟨nd, hn⟩, -⟩ := state_alive h.wf hx rfl (hstate s rfl)
      replace hr : Call.emplace s v w = .error (.exception a) w := hr
      rw [emplace_apply hn] at hr
      split at hr
      · rename_i he
        exact ⟨p, s, canSet_of_empty h hx (hstate s rfl) hn (isEmpty_iff.mp he)⟩
      · cases hr

/-! ## Runs -/

/-- A run in time has no call of a task that throws when the function has
ended. -/
theorem Trace.not_raises (h : Trace Step InTime (.init : World V E F) es w) {r : Futures.Ret V E} :
    .ends .task s r true ∉ es := by
  intro hmem
  obtain ⟨es₁, es₂, t, t', -, -, hok, hst, -⟩ := h.split hmem
  generalize he : (Event.ends .task s r true : Event V E F) = e at hst
  cases hst with
  | ends =>
    rename_i g s' r' _ _
    injection he with hg hs hr hb
    subst hg hs hr
    have hsat := hok s r true rfl
    simp only [World.raises] at hb
    rw [hsat] at hb
    cases hb
  | _ => cases he

/-- **Failed calls are not seen**, in any run in which the functions of
tasks end in time. -/
theorem failed_unseen (h : Trace Step InTime (.init : World V E F) es w) : Unseen InTime es w := by
  have hinv : Futures.Inv w.config := (reachable_config h.runs).inv
  refine ⟨h.erase fun _ _ _ _ hst hf => hst.failed hf, ?_, fun o a w' hst hf => ?_,
    fun x v a w' hst => hst.retry hinv⟩
  · rintro es₁ x s inside r es₂ rfl -
    exact absurd (by simp) (Trace.not_raises (s := s) (r := r) h)
  · have hw := hst.failed (e := .op o (.error a)) hf
    refine ⟨hw, fun r w'' hst' => ?_⟩
    obtain ⟨hr, hw'⟩ := hst.same hst'
    exact ⟨hr, hw'.trans hw⟩

/-- The value's constructor throws. -/
theorem failed_unseen_of_throw : ∃ (es : List (Event Unit Unit Unit)) (w : World Unit Unit Unit),
    .op (.setValue 0 (.error ())) (.error (.exception (.user ()))) ∈ es ∧ Unseen InTime es w := by
  have h₀ : Trace Step InTime (.init : World Unit Unit Unit) [] .init := .nil _
  have h₁ := h₀.snoc (e := .op (.makePromise false) (.ok .done)) (by rintro _ _ _ ⟨⟩)
    (.of_run rfl (by simp))
  have h₂ := h₁.snoc (e := .op (.setValue 0 (.error ())) (.error (.exception (.user ()))))
    (by rintro _ _ _ ⟨⟩) (.of_throw rfl (by simp) rfl)
  exact ⟨_, _, by simp, failed_unseen h₂⟩

/-- A task is called again by its function. The inner call gives it a
result, and the outer one throws. -/
theorem nested_run : ∃ w : World Unit Unit Unit, (∃ nd, w.nodes 0 = some nd ∧ nd.storage ≠ .empty) ∧
    Trace Step Unguarded .init ([.op (.task ()) (.ok .done), .op (.getFuture 0) (.ok .done)] ++
      (.op (.call 0) (.ok (.entered 0)) ::
        [.op (.call 0) (.ok (.entered 0)), .ends .task 0 (.value ()) false, .library (.execute 0),
          .library .release, .library (.clean 0)] ++
        .ends .task 0 (.value ()) true :: .library (.clean 0) :: [])) w := by
  have h₀ : Trace Step Unguarded (.init : World Unit Unit Unit) [] .init := .nil _
  have h₁ := h₀.snoc (e := .op (.task ()) (.ok .done)) trivial (.of_run rfl (by simp))
  have h₂ := h₁.snoc (e := .op (.getFuture 0) (.ok .done)) trivial (.of_run rfl (by simp))
  have h₃ := h₂.snoc (e := .op (.call 0) (.ok (.entered 0))) trivial (.of_run rfl (by simp))
  have h₄ := h₃.snoc (e := .op (.call 0) (.ok (.entered 0))) trivial (.of_run rfl (by simp))
  have h₅ := h₄.snoc (e := .ends .task 0 (.value ()) false) trivial
    (.of_end (l := {.execute 0, .cleaning 0, .invoked .task 0}) (.settle (.ret .task 0 (.value ()))
      (show _ = _ + ({.handle .task false 0, .future true 0, .invoked .task 0} :
        Multiset (Obj Unit)) by decide) rfl rfl) rfl (by decide))
  have h₆ := h₅.snoc (e := .library (.execute 0)) trivial
    (.of_library (l := {.held 0, .cleaning 0, .invoked .task 0}) rfl (.execute
      (show _ = _ + ({.handle .task false 0, .future true 0, .cleaning 0, .invoked .task 0} :
        Multiset (Obj Unit)) by decide) rfl) (by decide))
  have h₇ := h₆.snoc (e := .library .release) trivial
    (.of_library (l := {.cleaning 0, .invoked .task 0}) rfl (.move (.releaseHeld 0)
      (show _ = _ + ({.handle .task false 0, .future true 0, .cleaning 0, .invoked .task 0} :
        Multiset (Obj Unit)) by decide)) (by decide))
  have h₈ := h₇.snoc (e := .library (.clean 0)) trivial
    (.of_library (l := {.invoked .task 0}) rfl (.touch (.clean 0 _)
      (show _ = _ + ({.handle .task false 0, .future true 0, .invoked .task 0} :
        Multiset (Obj Unit)) by decide) rfl) (by decide))
  have h₉ := h₈.snoc (e := .ends .task 0 (.value ()) true) trivial
    (.of_end (l := {.cleaning 0}) (.move (.retThrows 0 (.value ()) _ rfl (.inr ⟨(), rfl⟩))
      (show _ = _ + ({.handle .task false 0, .future true 0} :
        Multiset (Obj Unit)) by decide)) rfl (by decide))
  have h₁₀ := h₉.snoc (e := .library (.clean 0)) trivial
    (.of_library (l := 0) rfl (.touch (.clean 0 _)
      (show _ = _ + ({.handle .task false 0, .future true 0} :
        Multiset (Obj Unit)) by decide) rfl) (by decide))
  exact ⟨_, ⟨_, rfl, fun h => by cases h⟩, h₁₀⟩

/-- The run without the call that throws. -/
theorem task_run {w : World Unit Unit Unit} (h : Trace Step Unguarded .init
    [.op (.task ()) (.ok .done), .op (.getFuture 0) (.ok .done)] w) :
    ∀ nd, w.nodes 0 = some nd → nd.storage = .empty := by
  replace h : Trace Step Unguarded .init (([] ++ [.op (.task ()) (.ok .done)]) ++
    [.op (.getFuture 0) (.ok .done)]) w := h
  obtain ⟨w₁, h₁, -, hst⟩ := h.snoc_inv
  obtain ⟨w₀, h₀, -, hst₁⟩ := h₁.snoc_inv
  obtain rfl := h₀.nil_inv
  cases hst₁ with
  | op hb hr =>
    cases hb
    cases hr
    cases hst with
    | op hb hr =>
      cases hb
      cases hr
      intro nd hn
      cases hn
      rfl

/-- **A task that calls itself.** -/
theorem seen_of_recursion : ¬ ∀ (es : List (Event Unit Unit Unit)) (w : World Unit Unit Unit),
    Trace Step Unguarded .init es w → Unseen Unguarded es w := by
  intro hall
  obtain ⟨w, ⟨nd, hn, hs⟩, h⟩ := nested_run
  have hnested : Nested 0 ([.op (.call 0) (.ok (.entered 0)), .ends .task 0 (.value ()) false,
      .library (.execute 0), .library .release, .library (.clean 0)] :
      List (Event Unit Unit Unit)) := by
    exact ⟨by decide, by decide⟩
  exact hs (task_run ((hall _ w h).nested _ 0 0 _ _ [] rfl hnested) nd hn)

end Programs

end PortableConcurrency
