import PortableConcurrency.Programs.Assigning
import PortableConcurrency.Programs.Consuming

/-!
# Programs run on configurations

A call of a program, with its statements and its variables, is no more
than one step of a configuration, or two, or none. What is proved of the
runs of `Futures.Step` therefore holds of every program.
-/

namespace PortableConcurrency

namespace Programs

open Futures (Exn Storage Node Body Obj Action Kind Closure Producer Caller Config Owned Wf)
open Promise (Errc Thrown Either)
open Calls

variable {V E F : Type} {w w' w₁ : World V E F} {s x y : ℕ} {nd : Node V E F}
variable {vars vars' : List Variable} {v v' : Variable} {rest : Multiset (Obj F)}
variable {m : Call V E F (Response V)} {r : Response V} {o : Op V E F}

/-! ## One step -/

/-- **A call that returns.** -/
theorem op_follows (h : Wf w.config) (hb : o.body w.vars = some m) (hr : m w = .ok r w') :
    Follows w w' := by
  cases o with
  | promise canceler =>
    cases hb
    cases hr
    exact construct_follows (by simp) (.newPromise canceler) (add_zero _)
  | makePromise canceler =>
    cases hb
    have hw' : { w.alloc (.promise canceler) with
        vars := w.vars ++ [.promise (.weak w.fresh), .future true (some w.fresh)] } = w' := by
      cases hr
      simp only [List.append_assoc]
      rfl
    subst w'
    exact construct_follows (by simp) (.makePromise canceler) (by simp [varObjs]; rfl)
  | task fn =>
    cases hb
    cases hr
    exact construct_follows (by simp) (.newTask fn) (add_zero _)
  | emptyTask =>
    cases hb
    cases hr
    refine .of_eq ?_
    rw [config_push]
    exact congrArg (fun objs => { w.config with objs := objs }) (zero_add _)
  | emptyFuture unique =>
    cases hb
    cases hr
    refine .of_eq ?_
    rw [config_push]
    exact congrArg (fun objs => { w.config with objs := objs }) (zero_add _)
  | getFuture x =>
    simp only [Op.body] at hb
    split at hb <;> cases hb
    · rename_i hx
      exact getFuture_follows (g := .promise) (by simp) (fun _ => rfl) hx (void_ok hr)
    · rename_i hx
      exact getFuture_follows (g := .task) (by simp) (fun _ => rfl) hx (void_ok hr)
  | setValue x v =>
    simp only [Op.body] at hb
    split at hb <;> cases hb
    rename_i hx
    exact setValue_follows h hx (void_ok hr)
  | setException x e =>
    simp only [Op.body] at hb
    split at hb <;> cases hb
    rename_i hx
    exact setException_follows h hx (void_ok hr)
  | isAwaiten x =>
    simp only [Op.body] at hb
    split at hb <;> cases hb
    obtain ⟨b, hr⟩ := bool_ok hr
    exact .of_eq (by rw [isAwaiten_ok hr])
  | valid x =>
    simp only [Op.body] at hb
    split at hb <;> cases hb <;> cases hr <;> exact .of_eq rfl
  | call x =>
    simp only [Op.body] at hb
    split at hb <;> cases hb
    rename_i hx
    exact call_follows h hx hr
  | move x =>
    simp only [Op.body] at hb
    split at hb <;> cases hb <;> cases hr <;> rename_i hx <;> exact move_follows hx rfl
  | assign x y => exact assign_op_follows h hb hr
  | swap x y =>
    simp only [Op.body] at hb
    split at hb <;> cases hb
    rename_i hx hy
    cases hr
    refine .of_eq ?_
    simp only [World.config, varObjs_swap hx hy]
  | destroy x => exact destroy_op_follows h hb hr
  | share x => exact share_op_follows hb hr
  | copy x =>
    simp only [Op.body] at hb
    split at hb <;> cases hb
    rename_i hx
    cases hr
    exact copy_follows hx
  | copyAssign x y =>
    simp only [Op.body] at hb
    split at hb <;> cases hb
    rename_i hx hy
    cases hr
    exact copyAssign_follows hx hy
  | isReady x =>
    simp only [Op.body] at hb
    split at hb <;> cases hb
    obtain ⟨b, hr⟩ := bool_ok hr
    exact .of_eq (by rw [isReady_ok hr])
  | notify x =>
    simp only [Op.body] at hb
    split at hb <;> cases hb
    rename_i hx
    exact notify_follows hx (void_ok hr)
  | wait x =>
    simp only [Op.body] at hb
    split at hb <;> cases hb
    rename_i hx
    exact notify_follows hx (void_ok hr)
  | get x a =>
    simp only [Op.body] at hb
    split at hb <;> cases hb
    rename_i hx
    exact get_follows hx (.inl ⟨_, hr⟩)
  | attach x kind fn =>
    simp only [Op.body] at hb
    split at hb <;> cases hb
    rename_i hx
    exact attach_follows h hx (void_ok hr)
  | detach x =>
    simp only [Op.body] at hb
    split at hb <;> cases hb
    rename_i hx
    exact detach_follows hx (void_ok hr)

/-- A call that throws. -/
theorem throws_follows {a : Thrown E} (hb : o.body w.vars = some m) (hr : m w = .error a w')
    (hno : o.isNoexcept = false) : Follows w w' := by
  by_cases hget : ∃ x r, o = .get x r
  · obtain ⟨x, r, rfl⟩ := hget
    simp only [Op.body] at hb
    split at hb <;> cases hb
    rename_i hx
    exact get_follows hx (.inr ⟨_, hr⟩)
  · have hstrong : Strong (fun _ => True) m w :=
      Op.strong hb hno fun x r ho => absurd ⟨x, r, ho⟩ hget
    exact .of_eq (by rw [hstrong a w' hr trivial])

/-- **A step of a program** is a run of its configuration. A task's
function that returns a future is the one step for which the guard is not
a matter of course. -/
theorem Step.follows {ok : Config V E F → Futures.Event V E F → Prop} {e : Event V E F}
    (hfree : ∀ c e, Free c e → ok c e) (h : Wf w.config) (hst : Step w e w')
    (hok : ∀ s y t unique, e = .returns .task s y → w.vars[y]? = some (.future unique (some t)) →
      ok w.config (.unwrap .task s t)) : Runs Futures.Step ok w.config w'.config := by
  cases hst with
  | op hb hr => exact (op_follows h hb hr).mono hfree
  | throws hb hr _ hno => exact (throws_follows hb hr hno).mono hfree
  | ends hst => exact .single (hfree _ _ fun _ _ => by simp) hst
  | returns hy hst =>
    rename_i g s y t unique hv
    refine .single ?_ hst
    cases g with
    | task => exact hok s y t unique rfl hy
    | cnt => exact hfree _ _ fun _ _ => by simp
  | library hl hst =>
    refine .single (hfree _ _ ?_) hst
    rintro s t rfl
    cases hl

/-- **The runs of a program.** -/
theorem Runs.follows {ok : World V E F → Event V E F → Prop}
    {ok' : Config V E F → Futures.Event V E F → Prop} (hfree : ∀ c e, Free c e → ok' c e)
    (hok : ∀ w s y t unique, ok w (.returns .task s y) →
      w.vars[y]? = some (.future unique (some t)) → ok' w.config (.unwrap .task s t))
    (h : Wf w.config) (hrun : Runs Step ok w w') :
    Runs Futures.Step ok' w.config w'.config ∧ Wf w'.config := by
  induction hrun with
  | refl => exact ⟨.refl _, h⟩
  | tail _ hok' hst ih =>
    obtain ⟨hrun, hwf⟩ := ih
    have hnext := hst.follows hfree hwf fun s y t unique he hy => hok _ s y t unique (he ▸ hok') hy
    exact ⟨hrun.trans hnext, hnext.invariant (fun _ _ _ hi _ hst => hi.step hst) hwf⟩

theorem config_init : (World.init : World V E F).config = Futures.init := by
  simp [World.config, World.init, varObjs, Futures.init]

/-- Every world that a program reaches has a configuration that can be
reached. -/
theorem reachable_config {ok : World V E F → Event V E F → Prop}
    (hrun : Runs Step ok (World.init : World V E F) w) :
    Futures.Reachable Unguarded w.config := by
  have hwf : Wf (World.init : World V E F).config := by
    rw [config_init]
    exact Futures.wf_init
  have hrun' : Runs Futures.Step Unguarded (World.init : World V E F).config w.config :=
    (Runs.follows (fun _ _ _ => trivial) (fun _ _ _ _ _ _ _ => trivial) hwf hrun).1
  rwa [config_init] at hrun'

/-! ## Steps that are evaluated -/

/-- A call that is evaluated. -/
theorem Step.of_run {o : Op V E F} {r : Response V}
    (h : (o.body w.vars).map (fun m => m w) = some (.ok r w')) (hget : ∀ x r, o ≠ .get x r) :
    Step w (.op o (.ok r)) w' := by
  obtain ⟨m, hb, hr⟩ := Option.map_eq_some_iff.mp h
  exact .op hb hr fun x r _ _ ho => absurd ho (hget x r)

theorem Step.of_throw {o : Op V E F} {a : Thrown E}
    (h : (o.body w.vars).map (fun m => m w) = some (.error a w')) (hget : ∀ x r, o ≠ .get x r)
    (hno : o.isNoexcept = false) : Step w (.op o (.error a)) w' := by
  obtain ⟨m, hb, hr⟩ := Option.map_eq_some_iff.mp h
  exact .throws hb hr (fun x r _ _ ho => absurd ho (hget x r)) hno

/-- A step of the library that is evaluated. -/
theorem Step.of_library {c : Config V E F} {e : Futures.Event V E F} {l : Multiset (Obj F)}
    (hl : isLibrary e = true) (hst : Futures.Step w.config e c)
    (hc : c.objs = varObjs (w.vars ++ given e) + l) :
    Step w (.library e) ⟨w.vars ++ given e, c.nodes, l, c.fresh⟩ := by
  refine .library hl ?_ rfl
  simp only [World.config, ← hc]
  exact hst

theorem Step.of_end {c : Config V E F} {h : Caller} {s : ℕ} {r : Futures.Ret V E} {b : Bool}
    {l : Multiset (Obj F)}
    (hst : Futures.Step w.config (.ret h s r) c) (hb : w.raises s h = b)
    (hc : c.objs = varObjs w.vars + l) :
    Step w (.ends h s r b) ⟨w.vars, c.nodes, l, c.fresh⟩ := by
  subst hb
  refine .ends ?_ rfl
  simp only [World.config, ← hc]
  exact hst

end Programs

end PortableConcurrency
