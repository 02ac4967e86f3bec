import PortableConcurrency.Futures.Actions
import PortableConcurrency.Programs.Refinement

/-!
# Observing a `shared_future`

What a program does with a `shared_future` through `wait`, `get`,
`is_ready`, `notify`, `then` and `next`, and by copying it, leaves it
valid, and all who were given its state through it find one result there.
`then` with a function that takes a promise does not: it moves the state
out of the `shared_future`, as it does with a `future`.
-/

namespace PortableConcurrency

namespace Programs

open Futures (Exn Storage Node Body Obj Action Kind Closure Producer Caller Config Outcome Resolves
  Wf FirstResult Carries)
open Promise (Errc Thrown Either)
open Calls

variable {V E F : Type} {w w' w₀ w₁ : World V E F} {s x y : ℕ} {v : Variable}
variable {e : Event V E F} {o : Op V E F} {m : Call V E F (Response V)}

/-! ## What a call does to a variable -/

/-- The variable `x` is `v`. -/
def Is (x : ℕ) (v : Variable) (w : World V E F) : Prop := w.vars[x]? = some v

section Keeps

/-- Writing another variable leaves `x` as it is. -/
theorem keeps_setVar {u : Variable} (hy : y ≠ x) :
    Keeps (Is x v) (Call.setVar y u : Call V E F Unit) := by
  refine keeps_modify fun w hx => ?_
  change (w.vars.set y u)[x]? = some v
  rw [List.getElem?_set_ne hy]
  exact hx

/-- So does making a new one. -/
theorem keeps_pushVar (u : Variable) : Keeps (Is x v) (Call.pushVar u : Call V E F Unit) := by
  refine keeps_modify fun w hx => ?_
  change (w.vars ++ [u])[x]? = some v
  rw [List.getElem?_append_left (List.getElem?_eq_some_iff.mp hx).1]
  exact hx

theorem keeps_addLocal (o : Obj F) : Keeps (Is x v) (Call.addLocal o : Call V E F Unit) :=
  keeps_modify fun _ hx => hx

/-- So does whatever happens to the nodes. -/
theorem keeps_modifyNode (s : ℕ) (f : Node V E F → Node V E F) :
    Keeps (Is x v) (Call.modifyNode s f) := by
  refine keeps_modify fun w hx => ?_
  cases hn : w.nodes s <;> exact hx

theorem keeps_alloc (body : Body F) : Keeps (Is x v) (Call.alloc body : Call V E F ℕ) := by
  refine fun w hx => ⟨fun c w' h => ?_, fun a w' h => ?_⟩
  · cases h
    exact hx
  · cases h

theorem keeps_read {α : Type} (f : World V E F → α) :
    Keeps (Is x v) (do let w ← get; return f w : Call V E F α) :=
  keeps_get.bind fun _ => keeps_pure _

theorem keeps_push (s : ℕ) (k : Closure) : Keeps (Is x v) (Call.push s k : Call V E F Unit) :=
  keeps_get.bind fun _ => keeps_addLocal _

theorem keeps_throwIf (b : Bool) (a : Errc) :
    Keeps (Is x v) (Call.throwIf b a : Call V E F Unit) := by
  cases b with
  | true => exact keeps_throw _
  | false => exact keeps_pure _

/-- Storing a value writes no variable. -/
theorem keeps_emplace (s : ℕ) (a : Except E V) :
    Keeps (Is x v) (Call.emplace s a : Call V E F Unit) := by
  refine (keeps_read _).bind fun _ => (keeps_throwIf _ _).bind fun _ => Keeps.bind ?_ fun _ =>
    keeps_addLocal _
  refine (keeps_modifyNode _ _).bind fun _ => ?_
  cases a with
  | ok a => exact keeps_modifyNode _ _
  | error a => exact keeps_throw _

/-- Neither does storing an exception. -/
theorem keeps_setException (s : ℕ) (a : Exn E) :
    Keeps (Is x v) (Call.setException s a : Call V E F Unit) :=
  (keeps_read _).bind fun _ => (keeps_throwIf _ _).bind fun _ =>
    (keeps_modifyNode _ _).bind fun _ => keeps_addLocal _

/-- Neither does giving a state up. -/
theorem keeps_abandon (s : ℕ) : Keeps (Is x v) (Call.abandon s : Call V E F Unit) := by
  refine (keeps_read _).bind fun _ => (keeps_read _).bind fun _ => ?_
  split
  · exact keeps_setException _ _
  · exact keeps_pure _

theorem keeps_getState (p : Either) : Keeps (Is x v) (Call.getState p : Call V E F _) := by
  cases p with
  | monostate => exact keeps_throw _
  | shared s => exact keeps_pure _
  | weak s => exact keeps_read _

theorem keeps_withState (p : Either) {f : ℕ → Call V E F Unit} (hf : ∀ s, Keeps (Is x v) (f s)) :
    Keeps (Is x v) (Call.withState p f) := by
  refine (keeps_getState p).bind fun state => ?_
  cases state with
  | some s => exact hf s
  | none => exact keeps_pure _

/-- `get_future` writes the producer it is called on. -/
theorem keeps_getFuture (hy : y ≠ x) (mk : Either → Variable) (p : Either) :
    Keeps (Is x v) (Call.getFuture y mk p : Call V E F Unit) := by
  refine (keeps_throwIf _ _).bind fun _ => (keeps_getState p).bind fun state => ?_
  cases state with
  | some s => exact (keeps_setVar hy).bind fun _ => keeps_pushVar _
  | none => exact keeps_pure _

theorem keeps_isAwaiten (p : Either) : Keeps (Is x v) (Call.isAwaiten p : Call V E F Bool) := by
  cases p with
  | monostate => exact keeps_throw _
  | shared s => exact keeps_pure _
  | weak s => exact (keeps_read _).bind fun _ => keeps_pure _

theorem keeps_abandonPromise (p : Either) :
    Keeps (Is x v) (Call.abandonPromise p : Call V E F Unit) := by
  cases p with
  | monostate | shared s => exact keeps_pure _
  | weak s =>
    refine (keeps_read _).bind fun state => ?_
    cases state with
    | some s => exact keeps_abandon s
    | none => exact keeps_pure _

theorem keeps_abandonTask (p : Either) :
    Keeps (Is x v) (Call.abandonTask p : Call V E F Unit) := by
  have hgo : Keeps (Is x v) (Call.withState p fun s => do
      Call.modifyNode s fun nd => { nd with body := nd.body.clean .task }
      Call.abandon s : Call V E F Unit) :=
    keeps_withState _ fun s => (keeps_modifyNode _ _).bind fun _ => keeps_abandon _
  cases p with
  | monostate => exact keeps_pure _
  | shared s | weak s => exact hgo

/-- Calling a task writes no variable. -/
theorem keeps_call (p : Either) : Keeps (Is x v) (Call.call p : Call V E F (Response V)) := by
  refine (keeps_getState p).bind fun state => ?_
  cases state with
  | some s =>
    exact (keeps_read _).bind fun _ => (keeps_throwIf _ _).bind fun _ =>
      (keeps_addLocal _).bind fun _ => keeps_pure _
  | none => exact keeps_pure _

theorem keeps_checkState (state : Option ℕ) :
    Keeps (Is x v) (Call.checkState state : Call V E F ℕ) := by
  cases state with
  | none => exact keeps_throw _
  | some s => exact keeps_pure _

/-- A `shared_future` is written only if it is moved from. -/
theorem keeps_moveState {unique moves : Bool} (hy : y = x → moves = false) :
    Keeps (Is x v) (Call.moveState y unique moves : Call V E F Unit) := by
  cases moves with
  | true => exact keeps_setVar fun h => by cases hy h
  | false => exact keeps_pure _

theorem keeps_void {m : Call V E F Unit} (h : Keeps (Is x v) m) : Keeps (Is x v) m.void :=
  h.bind fun _ => keeps_pure _

theorem keeps_bool {m : Call V E F Bool} (h : Keeps (Is x v) m) : Keeps (Is x v) m.bool :=
  h.bind fun _ => keeps_pure _

end Keeps

/-- The calls that move from the variable `x`, write it or destroy it, and
`detach`. -/
def Op.takes (x : ℕ) : Op V E F → Bool
  | .move y => y = x
  | .assign y z => y = x || z = x
  | .copyAssign y _ => y = x
  | .destroy y => y = x
  | .detach y => y = x
  | _ => false

/-- **All other calls leave a `shared_future` as it is**, but for `then`
with a function that takes a promise. -/
theorem Op.keeps {state : Option ℕ} (hx : w.vars[x]? = some (.future false state))
    (hb : o.body w.vars = some m) (ht : o.takes x = false)
    (hi : ∀ fn, o ≠ .attach x .interruptible fn) : Keeps (Is x (.future false state)) m := by
  have hne : ∀ {y u}, w.vars[y]? = some u → u ≠ .future false state → y ≠ x := by
    rintro y u hy hu rfl
    exact hu (Option.some.inj (hy.symm.trans hx))
  cases o with
  | promise | task =>
    cases hb
    exact keeps_void ((keeps_alloc _).bind fun _ => keeps_pushVar _)
  | makePromise =>
    cases hb
    exact keeps_void ((keeps_alloc _).bind fun _ => (keeps_pushVar _).bind fun _ => keeps_pushVar _)
  | emptyTask | emptyFuture =>
    cases hb
    exact keeps_void (keeps_pushVar _)
  | getFuture y =>
    simp only [Op.body] at hb
    split at hb <;> cases hb <;> rename_i hy <;>
      exact keeps_void (keeps_getFuture (hne hy (by simp)) _ _)
  | setValue y a =>
    simp only [Op.body] at hb
    split at hb <;> cases hb
    exact keeps_void (keeps_withState _ fun _ => keeps_emplace _ _)
  | setException y a =>
    simp only [Op.body] at hb
    split at hb <;> cases hb
    exact keeps_void (keeps_withState _ fun _ => keeps_setException _ _)
  | isAwaiten y =>
    simp only [Op.body] at hb
    split at hb <;> cases hb
    exact keeps_bool (keeps_isAwaiten _)
  | valid y =>
    simp only [Op.body] at hb
    split at hb <;> cases hb <;> exact keeps_bool (keeps_pure _)
  | call y =>
    simp only [Op.body] at hb
    split at hb <;> cases hb
    exact keeps_call _
  | move y =>
    have hy : y ≠ x := by simpa [Op.takes] using ht
    simp only [Op.body] at hb
    split at hb <;> cases hb <;>
      exact keeps_void ((keeps_pushVar _).bind fun _ => keeps_setVar hy)
  | assign y z =>
    obtain ⟨hy, hz⟩ : y ≠ x ∧ z ≠ x := by simpa [Op.takes] using ht
    simp only [Op.body] at hb
    split at hb
    · cases hb
      exact keeps_void ((keeps_abandonPromise _).bind fun _ => (keeps_setVar hy).bind fun _ =>
        keeps_setVar hz)
    · cases hb
      exact keeps_void ((keeps_abandonTask _).bind fun _ => (keeps_setVar hy).bind fun _ =>
        keeps_setVar hz)
    · split at hb
      · cases hb
        exact keeps_void ((keeps_setVar hz).bind fun _ => keeps_setVar hy)
      · cases hb
    · cases hb
  | swap y z =>
    simp only [Op.body] at hb
    split at hb <;> cases hb
    rename_i hy hz
    exact keeps_void ((keeps_setVar (hne hy (by simp))).bind fun _ =>
      keeps_setVar (hne hz (by simp)))
  | destroy y =>
    have hy : y ≠ x := by simpa [Op.takes] using ht
    simp only [Op.body] at hb
    split at hb
    · cases hb
      exact keeps_void ((keeps_abandonPromise _).bind fun _ => keeps_setVar hy)
    · cases hb
      exact keeps_void ((keeps_abandonTask _).bind fun _ => keeps_setVar hy)
    · cases hb
      exact keeps_void (keeps_setVar hy)
    · cases hb
  | share y =>
    simp only [Op.body] at hb
    split at hb <;> cases hb
    rename_i hy
    exact keeps_void ((keeps_pushVar _).bind fun _ => keeps_setVar (hne hy (by simp)))
  | copy y =>
    simp only [Op.body] at hb
    split at hb <;> cases hb
    exact keeps_void (keeps_pushVar _)
  | copyAssign y z =>
    have hy : y ≠ x := by simpa [Op.takes] using ht
    simp only [Op.body] at hb
    split at hb <;> cases hb
    exact keeps_void (keeps_setVar hy)
  | isReady y =>
    simp only [Op.body] at hb
    split at hb <;> cases hb
    exact keeps_bool ((keeps_checkState _).bind fun _ => keeps_read _)
  | notify y | wait y =>
    simp only [Op.body] at hb
    split at hb <;> cases hb
    exact keeps_void ((keeps_checkState _).bind fun _ => keeps_push _ _)
  | get y a =>
    simp only [Op.body] at hb
    split at hb <;> cases hb
    rename_i unique _ hy
    refine (keeps_checkState _).bind fun _ => (keeps_moveState fun hyx => ?_).bind fun _ => ?_
    · subst hyx
      cases hy.symm.trans hx
      rfl
    · cases a with
      | ok a => exact keeps_pure _
      | error a => exact keeps_throw _
  | attach y kind fn =>
    simp only [Op.body] at hb
    split at hb <;> cases hb
    rename_i unique _ hy
    refine keeps_void ((keeps_checkState _).bind fun _ => (keeps_moveState fun hyx => ?_).bind
      fun _ => (keeps_alloc _).bind fun _ => (keeps_push _ _).bind fun _ => keeps_pushVar _)
    subst hyx
    cases hy.symm.trans hx
    have hk : kind ≠ .interruptible := by
      rintro rfl
      exact hi fn rfl
    simp [hk]
  | detach y =>
    have hy : y ≠ x := by simpa [Op.takes] using ht
    simp only [Op.body] at hb
    split at hb <;> cases hb
    exact keeps_void ((keeps_checkState _).bind fun _ => (keeps_push _ _).bind fun _ =>
      (keeps_setVar hy).bind fun _ => keeps_pushVar _)

/-! ## Runs in which a `shared_future` is observed -/

/-- A task's function that returns a future finds the state without a
result. -/
def Fresh (w : World V E F) (e : Event V E F) : Prop :=
  ∀ s y, e = .returns .task s y → w.satisfied s = false

/-- Nobody moves from the variable `x`, writes it, destroys it or calls
its `detach`. -/
def Leaves (x : ℕ) (_ : World V E F) (e : Event V E F) : Prop :=
  (∀ o r, e = .op o r → o.takes x = false) ∧ ∀ g s, e ≠ .returns g s x

/-- Nor is it given to a continuation that takes a promise. -/
def Observes (x : ℕ) (w : World V E F) (e : Event V E F) : Prop :=
  Leaves x w e ∧ Fresh w e ∧ ∀ fn r, e ≠ .op (.attach x .interruptible fn) r

/-- The continuation `c` has been attached through `x`. -/
def Attached (ok : World V E F → Event V E F → Prop) (x : ℕ) (w₀ w : World V E F) (c : ℕ)
    (kind : Kind) (fn : F) : Prop :=
  ∃ w₁ w₂, Runs Step ok w₀ w₁ ∧ ok w₁ (.op (.attach x kind fn) (.ok .done)) ∧
    Step w₁ (.op (.attach x kind fn) (.ok .done)) w₂ ∧ Runs Step ok w₂ w ∧ c = w₁.fresh

/-- **What a program may rely on**, with a `shared_future` `x` of the state
`s` that it has observed since `w₀`. -/
structure Observed (ok : World V E F → Event V E F → Prop) (x s : ℕ) (w₀ w : World V E F) :
    Prop where
  valid : w.vars[x]? = some (.future false (some s))
  copy : ∀ r w', Step w (.op (.copy x) r) w' → r = .ok .done ∧
    w'.vars = w.vars ++ [.future false (some s)]
  /-- one more continuation can be attached -/
  attach : ∀ kind fn, kind ≠ .interruptible →
    ∃ w', Step w (.op (.attach x kind fn) (.ok .done)) w' ∧
      w'.vars = w.vars ++ [.future true (some w.fresh)]
  /-- one that is called has `s` as its parent, and a result is there -/
  calls : ∀ c kind fn a e w', Attached ok x w₀ w c kind fn →
    (e = .invoke c a ∨ ∃ y, e = .passError c a y) → Step w (.library e) w' →
      a = ⟨kind, false, fn, s⟩ ∧ ∃ l o, Resolves w.config s l o
  /-- and that is the only one there will be -/
  result : ∀ w' l o, Runs Step ok w w' → Resolves w.config s l o → Resolves w'.config s l o ∧
    ∀ l' o', Resolves w'.config s l' o' → l' = l ∧ o' = o

/-- The variable is what it was. -/
theorem Step.observes (hst : Step w e w') (hok : Observes x w e)
    (hx : w.vars[x]? = some (.future false (some s))) :
    w'.vars[x]? = some (.future false (some s)) := by
  obtain ⟨⟨htakes, hreturns⟩, -, hint⟩ := hok
  have hlt := (List.getElem?_eq_some_iff.mp hx).1
  cases hst with
  | op hb hr =>
    have hk := Op.keeps hx hb (htakes _ _ rfl) fun fn ho => hint fn _ (by rw [ho])
    exact (hk w hx).1 _ w' hr
  | throws hb hr =>
    have hk := Op.keeps hx hb (htakes _ _ rfl) fun fn ho => hint fn _ (by rw [ho])
    exact (hk w hx).2 _ w' hr
  | ends _ hv => rw [hv, hx]
  | @returns _ g s' y t _ _ _ hv =>
    have hy : y ≠ x := fun hy => hreturns g s' (by rw [hy])
    rw [hv, List.getElem?_set_ne hy, hx]
  | library _ _ hv => rw [hv, List.getElem?_append_left hlt, hx]

/-- **A shared future that is only observed refers to the same state in every
run.** -/
theorem observes_run (hrun : Runs Step (Observes x) w w')
    (hx : w.vars[x]? = some (.future false (some s))) :
    w'.vars[x]? = some (.future false (some s)) :=
  hrun.invariant (I := fun w => w.vars[x]? = some (.future false (some s)))
    (fun _ _ _ hx hok hst => hst.observes hok hx) hx

/-- The configuration's run is one without second results. -/
theorem fresh_follows {ok : World V E F → Event V E F → Prop} (hok : ∀ w e, ok w e → Fresh w e)
    (h : Wf w.config) (hrun : Runs Step ok w w') :
    Runs Futures.Step FirstResult w.config w'.config := by
  refine (Runs.follows (fun c e hfree => ?_) (fun w s y t unique hret hy => ?_) h hrun).1
  · rintro s t nd rfl
    exact absurd rfl (hfree s t)
  · rintro s' t' nd ⟨⟩ hn
    have hsat := hok w _ hret s y rfl
    unfold World.satisfied at hsat
    rw [show w.nodes s = some nd from hn] at hsat
    exact isEmpty_iff.mp (by simpa using hsat)

/-- A continuation has just been attached to a `shared_future`. -/
def World.attached (w : World V E F) (kind : Kind) (fn : F) (s : ℕ) : World V E F :=
  { w.alloc (.cnt true (some ⟨kind, false, fn, s⟩)) with
    vars := w.vars ++ [.future true (some w.fresh)]
    locals :=
      (w.alloc (.cnt true (some ⟨kind, false, fn, s⟩))).config.push s (.schedule w.fresh) ::ₘ
        w.locals }

/-- What `then` and `next` of a `shared_future` do. -/
theorem attach_apply {kind : Kind} (hk : kind ≠ .interruptible) (fn : F) (w : World V E F) :
    Call.attach x false (some s) kind fn w = .ok () (w.attached kind fn s) := by
  unfold Call.attach
  simp only [hk, decide_false, Bool.or_self]
  rfl

theorem varObjs_isRunning {vars : List Variable} {o : Obj F} (h : o ∈ varObjs vars) :
    o.isRunning = false := by
  induction vars with
  | nil => simp [varObjs] at h
  | cons v vars ih =>
    rcases Multiset.mem_add.mp h with h | h
    · cases v with
      | gone => simp [Variable.objs] at h
      | promise p | task p =>
        cases p <;> simp [Variable.objs, Producer.objs] at h <;> rw [h] <;> rfl
      | future unique state =>
        cases state <;> simp [Variable.objs] at h
        rw [h]
        rfl
    · exact ih h

/-- What the new continuation carries. -/
theorem attached_carries (h : Wf w.config) (kind : Kind) (fn : F) :
    Carries (w.attached kind fn s).config w.fresh ⟨kind, false, fn, s⟩ := by
  refine ⟨fun nd exec b hn hb => ?_, fun b hmem => ?_⟩
  · change Function.update w.nodes w.fresh _ w.fresh = some nd at hn
    rw [Function.update_self] at hn
    obtain rfl := Option.some.inj hn
    cases hb
    rfl
  · rcases Multiset.mem_add.mp hmem with hmem | hmem
    · cases varObjs_isRunning hmem
    rcases Multiset.mem_cons.mp hmem with hmem | hmem
    · have hpush := Futures.push_isRunning s (.schedule w.fresh)
        (c := (w.alloc (.cnt true (some ⟨kind, false, fn, s⟩))).config)
      rw [← hmem] at hpush
      cases hpush
    · have hlt := h.names _ (Multiset.mem_add.mpr (.inr hmem)) w.fresh (by simp [Obj.names])
      exact absurd hlt (Nat.lt_irrefl _)

/-- **Observing a `shared_future` never invalidates it.** -/
theorem observed (h : Runs Step Fresh (.init : World V E F) w₀)
    (hx : w₀.vars[x]? = some (.future false (some s))) (hrun : Runs Step (Observes x) w₀ w) :
    Observed (Observes x) x s w₀ w := by
  have hfresh : ∀ (w : World V E F) e, Observes x w e → Fresh w e := fun _ _ ho => ho.2.1
  have hx' := observes_run hrun hx
  have hreach : Futures.Reachable FirstResult w.config := by
    have hwf : Wf (World.init : World V E F).config := by
      rw [config_init]
      exact Futures.wf_init
    have hrun' := fresh_follows (fun _ _ ho => ho) hwf (h.trans (hrun.mono hfresh))
    rwa [config_init] at hrun'
  have halive : ∀ {w' : World V E F}, Wf w'.config → w'.vars[x]? = some (.future false (some s)) →
      ∃ nd, w'.config.nodes s = some nd := by
    intro w' hwf hx'
    refine hwf.alive s (owned_of_var hx' (o := .future false s) ?_ (by simp [Obj.refs]))
    exact Multiset.mem_singleton_self _
  refine ⟨hx', fun r w' hst => ?_, fun kind fn hk => ?_, ?_, ?_⟩
  · cases hst with
    | op hb hr =>
      simp only [Op.body, hx'] at hb
      cases hb
      cases hr
      exact ⟨rfl, rfl⟩
    | throws hb hr =>
      simp only [Op.body, hx'] at hb
      cases hb
      cases hr
  · refine ⟨w.attached kind fn s, .op (m := (Call.attach x false (some s) kind fn).void) ?_
      (bind_apply (attach_apply hk fn w)) ?_, rfl⟩
    · simp only [Op.body, hx']
    · rintro y r unique t ⟨⟩
  · rintro c kind fn a e w' ⟨w₁, w₂, h₁, hok, hst, h₂, rfl⟩ he hst'
    have hx₁ := observes_run h₁ hx
    have hk : kind ≠ .interruptible := by
      rintro rfl
      exact hok.2.2 fn _ rfl
    have hwf₁ : Wf w₁.config :=
      (reachable_config (h.unguarded.trans h₁.unguarded)).wf
    obtain rfl : w₁.attached kind fn s = w₂ := by
      cases hst with
      | op hb hr =>
        simp only [Op.body, hx₁] at hb
        cases hb
        have hr' := void_ok hr
        rw [attach_apply hk] at hr'
        cases hr'
        rfl
    have hwf₂ : Wf (w₁.attached kind fn s).config :=
      (reachable_config ((h.unguarded.trans h₁.unguarded).tail trivial hst)).wf
    have hcarries : Carries w.config w₁.fresh ⟨kind, false, fn, s⟩ :=
      (attached_carries hwf₁ kind fn).run (Nat.lt_succ_self _) (fresh_follows hfresh hwf₂ h₂)
    cases hst' with
    | library _ hst' =>
      obtain ⟨y, hy⟩ : ∃ y, e = .invoke w₁.fresh a ∨ e = .passError w₁.fresh a y := by
        rcases he with he | ⟨y, he⟩
        · exact ⟨.brokenPromise, .inl he⟩
        · exact ⟨y, .inr he⟩
      have hmem := hst'.calls hy
      obtain rfl := hcarries.running a hmem
      -- a continuation runs when its parent is ready
      obtain ⟨hclosed, -⟩ := hreach.inv.claimed.pending _ hmem
      obtain ⟨nd, hn⟩ := halive hreach.wf hx'
      refine ⟨rfl, hreach.grounded s ?_⟩
      rw [Futures.isExecuted_eq hn]
      exact hclosed nd hn
  · intro w' l o hrun' hres
    have hx'' := observes_run hrun' hx'
    have hrun'' := fresh_follows hfresh hreach.wf hrun'
    obtain ⟨nd, hn⟩ := halive hreach.wf hx'
    have hreach' : Futures.Reachable FirstResult w'.config := hreach.trans hrun''
    obtain ⟨nd', hn'⟩ := halive hreach'.wf hx''
    have hres' := hres.run hreach.steady hrun'' hn hn'
    exact ⟨hres', fun l' o' h' => hres'.unique h'⟩

/-- A `shared_future` of a promise. -/
theorem shared_run : ∃ w : World Unit Unit Unit, Runs Step Fresh .init w ∧
    w.vars = [.promise (.weak 0), .future true none, .future false (some 0)] := by
  have h₀ : Runs Step Fresh (.init : World Unit Unit Unit) .init := .refl _
  have h₁ := h₀.tail (e := .op (.makePromise false) (.ok .done)) (by rintro _ _ ⟨⟩)
    (.of_run rfl (by simp))
  have h₂ := h₁.tail (e := .op (.share 1) (.ok .done)) (by rintro _ _ ⟨⟩)
    (.of_run rfl (by simp))
  exact ⟨_, h₂, rfl⟩

/-- A continuation is attached, and another one. -/
theorem observed_of_then : ∃ w₀ w : World Unit Unit Unit, w.vars.length = 5 ∧
    Observed (Observes 2) 2 0 w₀ w := by
  obtain ⟨w₀, h, hv⟩ := shared_run
  have hx : w₀.vars[2]? = some (.future false (some 0)) := by rw [hv]; rfl
  have hobs : ∀ (w : World Unit Unit Unit) kind, kind ≠ .interruptible →
      Observes 2 w (.op (.attach 2 kind ()) (.ok .done)) := by
    intro w kind hk
    refine ⟨⟨?_, by rintro _ _ ⟨⟩⟩, by rintro _ _ ⟨⟩, ?_⟩
    · rintro o r ⟨⟩
      rfl
    · rintro fn r ⟨⟩
      exact hk rfl
  have hr₀ : Runs Step (Observes 2) w₀ w₀ := .refl _
  obtain ⟨w₁, hst₁, hv₁⟩ := (observed h hx hr₀).attach .then' () (by simp)
  have hr₁ := hr₀.tail (hobs _ _ (by simp)) hst₁
  obtain ⟨w₂, hst₂, hv₂⟩ := (observed h hx hr₁).attach .next () (by simp)
  have hr₂ := hr₁.tail (hobs _ _ (by simp)) hst₂
  exact ⟨w₀, w₂, by rw [hv₂, hv₁, hv]; rfl, observed h hx hr₂⟩

/-- **`then` with a function that takes a promise** leaves the
`shared_future` without a state. -/
theorem not_observed_of_interruptible : ¬ ∀ (w₀ w : World Unit Unit Unit) (x s : ℕ),
    Runs Step Fresh .init w₀ → w₀.vars[x]? = some (.future false (some s)) →
      Runs Step (Leaves x) w₀ w → Observed (Leaves x) x s w₀ w := by
  intro hall
  obtain ⟨w₀, h, hv⟩ := shared_run
  have hx : w₀.vars[2]? = some (.future false (some 0)) := by rw [hv]; rfl
  have hst : ∃ w, Step w₀ (.op (.attach 2 .interruptible ()) (.ok .done)) w ∧
      w.vars[2]? = some (.future false none) := by
    refine ⟨_, .op (m := (Call.attach 2 false (some 0) .interruptible ()).void) ?_ rfl ?_, ?_⟩
    · simp only [Op.body, hx]
    · rintro y r unique t ⟨⟩
    · change (w₀.vars.set 2 (.future false none) ++ [_])[2]? = _
      rw [hv]
      rfl
  obtain ⟨w, hst, hw⟩ := hst
  have hok : Leaves 2 w₀ (.op (.attach 2 .interruptible ()) (.ok .done)) := by
    refine ⟨?_, by rintro _ _ ⟨⟩⟩
    rintro o r ⟨⟩
    rfl
  have hvalid := (hall w₀ w 2 0 h hx (.single hok hst)).valid
  rw [hw] at hvalid
  cases hvalid

end Programs

end PortableConcurrency
