import PortableConcurrency.Programs.Model

/-!
# What a failed call leaves behind

A call fails if it throws a `future_error` of its own, and `set_value` also
if the value cannot be constructed. The checks of all calls come before
what they change, with one exception: `set_value` destroys what the
storage held before it constructs the value. It held nothing, or the call
had failed before.
-/

namespace PortableConcurrency

namespace Programs

open Futures (Exn Storage Node Body Obj Action Kind Closure Producer Caller Config)
open Promise (Errc Thrown Either)
open Calls

variable {V E F : Type} {w w' : World V E F} {o : Op V E F} {m : Call V E F (Response V)}
variable {p : Thrown E → Prop} {s : ℕ}

/-- **The call has failed**: it throws a `future_error`, not an exception
that was stored, or it is `set_value`. -/
def Op.fails : Op V E F → Thrown E → Bool
  | .setValue _ _, _ => true
  | _, .error _ => true
  | _, .exception _ => false

/-! ## Statements -/

/-- A check that returns has changed nothing. -/
theorem readOnly_throwIf (b : Bool) (x : Errc) : ReadOnly (Call.throwIf b x) w := by
  cases b with
  | true => exact readOnly_throw _ _
  | false => exact readOnly_pure _ _

theorem strong_throwIf (b : Bool) (x : Errc) : Strong p (Call.throwIf b x) w := by
  cases b with
  | true => exact strong_throw _ _
  | false => exact (quiet_pure _ _).strong

/-- Reading a part of the world. -/
theorem quiet_get {α : Type} (f : World V E F → α) :
    Quiet p (do let w ← get; return f w : Call V E F α) w := by
  intro x w' h
  cases h

theorem readOnly_get {α : Type} (f : World V E F → α) :
    ReadOnly (do let w ← get; return f w : Call V E F α) w := by
  intro a w' h
  cases h
  rfl

/-- `push` throws nothing. -/
theorem quiet_push (k : Closure) : Quiet p (Call.push s k) w := by
  intro x w' h
  cases h

/-- Making a state throws nothing. -/
theorem quiet_alloc (body : Body F) : Quiet p (Call.alloc body) w := by
  intro x w' h
  cases h

/-- Moving the state out of a future throws nothing. -/
theorem quiet_moveState (x : ℕ) (unique moves : Bool) :
    Quiet p (Call.moveState x unique moves) w := by
  cases moves with
  | true => exact quiet_modify _ _
  | false => exact quiet_pure _ _

/-- `get_state` throws before anything else. -/
theorem strong_getState (q : Either) : Strong p (Call.getState q) w := by
  cases q with
  | monostate => exact strong_throw _ _
  | shared s => exact (quiet_pure _ _).strong
  | weak s => exact (quiet_get _).strong

/-- It changes nothing. -/
theorem readOnly_getState (q : Either) : ReadOnly (Call.getState q) w := by
  cases q with
  | monostate => exact readOnly_throw _ _
  | shared s => exact readOnly_pure _ _
  | weak s => exact readOnly_get _

/-- The check for a valid future throws before anything else. -/
theorem strong_checkState (state : Option ℕ) : Strong p (Call.checkState state) w := by
  cases state with
  | none => exact strong_throw _ _
  | some s => exact (quiet_pure _ _).strong

theorem readOnly_checkState (state : Option ℕ) : ReadOnly (Call.checkState state) w := by
  cases state with
  | none => exact readOnly_throw _ _
  | some s => exact readOnly_pure _ _

/-! ## `shared_state` -/

/-- **`either::emplace` of a storage that is empty.** It has destroyed
nothing when the constructor throws. -/
theorem strong_emplaceStorage (x : Except E V)
    (he : ∀ nd, w.nodes s = some nd → nd.storage = .empty) :
    Strong p (Call.emplaceStorage s x) w := by
  intro y w' h hp
  rcases bind_error h with h | ⟨u, t, hmod, h⟩
  · cases h
  · have ht : t = w := by
      cases hmod
      cases hn : w.nodes s with
      | none => simp only [hn]
      | some nd =>
        -- the empty storage is written over itself
        have hnd : ({ nd with storage := .empty } : Node V E F) = nd := by
          rw [← he nd hn]
        simp only [hn, hnd]
        rw [← hn, Function.update_eq_self]
    subst t
    cases x with
    | ok v => cases h
    | error e =>
      cases h
      rfl

/-- **`emplace` throws before it stores.** The state is satisfied already, or
the value cannot be made. -/
theorem strong_emplace (x : Except E V) : Strong p (Call.emplace s x) w := by
  refine (quiet_get _).strong.bind (readOnly_get _) fun st hst => ?_
  refine (strong_throwIf _ _).bind (readOnly_throwIf _ _) fun u hthrow => ?_
  refine (strong_emplaceStorage x fun nd hn => ?_).bind_quiet fun _ _ _ => quiet_modify _ _
  -- what the check has read
  cases hst
  simp only [hn] at hthrow
  cases hs : nd.storage with
  | empty => rfl
  | _ =>
    rw [hs] at hthrow
    cases hthrow

/-- **`set_exception` throws before it stores.** -/
theorem strong_setException (x : Exn E) : Strong p (Call.setException s x) w := by
  refine (quiet_get _).strong.bind (readOnly_get _) fun st hst => ?_
  refine (strong_throwIf _ _).bind (readOnly_throwIf _ _) fun u hthrow => ?_
  exact (Quiet.bind (quiet_modify _ _) fun _ _ _ => quiet_modify _ _).strong

/-! ## Promises and tasks -/

/-- A call on a locked state gives the guarantee if what it does with the
state does. -/
theorem strong_withState {f : ℕ → Call V E F Unit} (q : Either) (hf : ∀ s, Strong p (f s) w) :
    Strong p (Call.withState q f) w := by
  refine (strong_getState q).bind (readOnly_getState q) fun state _ => ?_
  cases state with
  | some s => exact hf s
  | none => exact (quiet_pure _ _).strong

theorem strong_isAwaiten (q : Either) : Strong p (Call.isAwaiten q) w := by
  cases q with
  | monostate => exact strong_throw _ _
  | shared s => exact (quiet_pure _ _).strong
  | weak s =>
    exact (Quiet.bind (quiet_get _) fun _ _ _ => quiet_pure _ _).strong

/-- `get_future` throws before it gives the `shared_ptr` away. -/
theorem strong_getFuture (x : ℕ) (mk : Either → Variable) (q : Either) :
    Strong p (Call.getFuture x mk q) w := by
  refine (strong_throwIf _ _).bind (readOnly_throwIf _ _) fun _ _ => ?_
  refine (strong_getState q).bind (readOnly_getState q) fun state _ => ?_
  cases state with
  | some s => exact (Quiet.bind (quiet_modify _ _) fun _ _ _ => quiet_modify _ _).strong
  | none => exact (quiet_pure _ _).strong

/-- A `packaged_task` throws before its function is called. -/
theorem strong_call (q : Either) : Strong p (Call.call q) w := by
  refine (strong_getState q).bind (readOnly_getState q) fun state _ => ?_
  cases state with
  | some s =>
    refine (quiet_get _).strong.bind (readOnly_get _) fun func _ => ?_
    refine (strong_throwIf _ _).bind (readOnly_throwIf _ _) fun _ _ => ?_
    exact (Quiet.bind (quiet_modify _ _) fun _ _ _ => quiet_pure _ _).strong
  | none => exact (quiet_pure _ _).strong

/-! ## Futures -/

theorem strong_isReady (state : Option ℕ) : Strong p (Call.isReady state) w :=
  (strong_checkState state).bind (readOnly_checkState state) fun _ _ => (quiet_get _).strong

/-- `notify` throws before it pushes. -/
theorem strong_notify (state : Option ℕ) : Strong p (Call.notify state) w :=
  (strong_checkState state).bind (readOnly_checkState state) fun _ _ => (quiet_push _).strong

/-- **`get`** may throw what is stored after it has moved the state out of
the future. -/
theorem strong_get (x : ℕ) (unique : Bool) (state : Option ℕ) (r : Except (Exn E) V)
    (hp : ∀ x, ¬ p (.exception x)) : Strong p (Call.get' x unique state r) w := by
  refine (strong_checkState state).bind (readOnly_checkState state) fun _ _ => Quiet.strong ?_
  refine Quiet.bind (quiet_moveState _ _ _) fun _ _ _ => ?_
  cases r with
  | ok v => exact quiet_pure _ _
  | error x => exact quiet_throw (hp x) _

/-- `then` and `next` throw before they take the future. -/
theorem strong_attach (x : ℕ) (unique : Bool) (state : Option ℕ) (kind : Kind) (fn : F) :
    Strong p (Call.attach x unique state kind fn) w := by
  refine (strong_checkState state).bind (readOnly_checkState state) fun _ _ => Quiet.strong ?_
  exact Quiet.bind (quiet_moveState _ _ _) fun _ _ _ => Quiet.bind (quiet_alloc _) fun _ _ _ =>
    Quiet.bind (quiet_push _) fun _ _ _ => quiet_modify _ _

/-- `detach` throws before it pushes. -/
theorem strong_detach (x : ℕ) (unique : Bool) (state : Option ℕ) :
    Strong p (Call.detach x unique state) w := by
  refine (strong_checkState state).bind (readOnly_checkState state) fun _ _ => Quiet.strong ?_
  exact Quiet.bind (quiet_push _) fun _ _ _ => Quiet.bind (quiet_modify _ _) fun _ _ _ =>
    quiet_modify _ _

/-! ## All calls -/

/-- The guarantee does not depend on what is returned. -/
theorem strong_void {m : Call V E F Unit} (h : Strong p m w) : Strong p m.void w :=
  h.bind_quiet fun _ _ _ => quiet_pure _ _

theorem strong_bool {m : Call V E F Bool} (h : Strong p m w) : Strong p m.bool w :=
  h.bind_quiet fun _ _ _ => quiet_pure _ _

/-- **Every call has the strong guarantee**, except those that may not
throw at all, and `get` of an exception that is stored. -/
theorem Op.strong (hb : o.body w.vars = some m) (hno : o.isNoexcept = false)
    (hp : ∀ x r, o = .get x r → ∀ y, ¬ p (.exception y)) : Strong p m w := by
  cases o with
  | promise | makePromise | task | emptyTask | emptyFuture =>
    cases hb
    intro x w' h
    cases h
  | assign | destroy => cases hno
  | getFuture x =>
    simp only [Op.body] at hb
    split at hb <;> cases hb <;> exact strong_void (strong_getFuture _ _ _)
  | setValue x v =>
    simp only [Op.body] at hb
    split at hb <;> cases hb
    exact strong_void (strong_withState _ fun _ => strong_emplace _)
  | setException x e =>
    simp only [Op.body] at hb
    split at hb <;> cases hb
    exact strong_void (strong_withState _ fun _ => strong_setException _)
  | isAwaiten x =>
    simp only [Op.body] at hb
    split at hb <;> cases hb
    exact strong_bool (strong_isAwaiten _)
  | valid x =>
    simp only [Op.body] at hb
    split at hb <;> cases hb <;> exact strong_bool (quiet_pure _ _).strong
  | call x =>
    simp only [Op.body] at hb
    split at hb <;> cases hb
    exact strong_call _
  | move x | share x =>
    simp only [Op.body] at hb
    split at hb <;> cases hb <;>
      exact strong_void (Quiet.bind (quiet_modify _ _) fun _ _ _ => quiet_modify _ _).strong
  | swap x y =>
    simp only [Op.body] at hb
    split at hb <;> cases hb
    exact strong_void (Quiet.bind (quiet_modify _ _) fun _ _ _ => quiet_modify _ _).strong
  | copy x =>
    simp only [Op.body] at hb
    split at hb <;> cases hb
    exact strong_void (quiet_modify _ _).strong
  | copyAssign x y =>
    simp only [Op.body] at hb
    split at hb <;> cases hb
    exact strong_void (quiet_modify _ _).strong
  | isReady x =>
    simp only [Op.body] at hb
    split at hb <;> cases hb
    exact strong_bool (strong_isReady _)
  | notify x | wait x =>
    simp only [Op.body] at hb
    split at hb <;> cases hb
    exact strong_void (strong_notify _)
  | get x r =>
    simp only [Op.body] at hb
    split at hb <;> cases hb
    exact strong_get _ _ _ _ (hp x r rfl)
  | attach x kind fn =>
    simp only [Op.body] at hb
    split at hb <;> cases hb
    exact strong_void (strong_attach _ _ _ _ _)
  | detach x =>
    simp only [Op.body] at hb
    split at hb <;> cases hb
    exact strong_void (strong_detach _ _ _)

/-- A call that fails. -/
theorem Op.failed {x : Thrown E} (hb : o.body w.vars = some m) (hno : o.isNoexcept = false)
    (hr : m w = .error x w') (hf : o.fails x = true) : w' = w := by
  refine Op.strong (p := fun x => o.fails x = true) hb hno ?_ x w' hr hf
  rintro y r rfl z hz
  cases hz

end Programs

end PortableConcurrency
